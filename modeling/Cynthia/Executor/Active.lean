import Cynthia.Task.Machine
import Cynthia.Utils.Colo

/-! The set of active tasks of an executor: `Executor::spawn` and `is_empty` in
`runtime/executor.rs`, with the same code in `MonoExecutor` and in `LocalExecutor` of
`runtime/local.rs`. Every spawned task is a task machine of its own, whatever is
done with its `Runnable`, its `Task` and its wakers; the slab `active` changes when
a task is spawned and when the guard inside its future is dropped. -/

namespace Cynthia.Executor.Active

open Transition Utils

/-- The future that `spawn` builds around the caller's. Its guard exists from the
start of the first poll until the caller's future is dropped. -/
inductive Fut where
  | unpolled
  | started
  | gone
  deriving DecidableEq, Repr

structure Spawned where
  /-- The `index` that the guard has captured. -/
  index : Nat
  sys : Task.Sys
  future : Fut

/-- `active` holds wakers; a waker is named by the number of its task. -/
structure State where
  active : Colo Nat
  tasks : List Spawned

def State.new : State := ⟨.new, []⟩

/-- The task when `spawn` returns: scheduled once, and `active` has a waker. The
machine's own `wakers` are those outside of `active`. -/
def spawned : Task.Sys :=
  ⟨{ Task.spawn with word := { Task.Word.spawned with refs := 2 } }, 0⟩

/-- What a step of a task does to its future. -/
inductive Effect where
  | none
  | begin
  | drop
  deriving DecidableEq, Repr

/-- The caller's future is dropped at the end of its body, which returns or panics,
or by `drop_future`. -/
def effect (sh : Task.Shared) : Task.Act → Effect
  | .start _ => .none
  | .exec pc c => match pc, c with
    | .polling _, .ready | .polling _, .panic => .drop
    | .runClosedDrop, _ | .readyDrop _, _ | .pendingDrop _, _ | .guardClosedDrop _, _
    | .guardDrop _, _ | .runnableDrop, _ => .drop
    | pc, c => match Task.exec true sh c pc with
      | some (some (.polling _), _) => .begin
      | _ => .none

/-- `begin` makes the guard. -/
def Fut.poll : Fut → Fut
  | .unpolled => .started
  | future => future

/-- A waker that has left `active` is dropped. -/
def dropWaker (tasks : List Spawned) : Option Nat → List Spawned
  | none => tasks
  | some i => tasks.modify i fun p =>
    { p with sys := ⟨p.sys.sh, .dropWaker .ret ::ₘ p.sys.calls⟩ }

namespace State

def put (s : State) (i : Nat) (p : Spawned) : State := { s with tasks := s.tasks.set i p }

/-- The guard calls `active.remove(index)` and drops what it gets. -/
def dropGuard (s : State) (index : Nat) : State :=
  ⟨(s.active.remove index).2, dropWaker s.tasks (s.active.remove index).1⟩

/-- The future of task `i` is dropped; only a future that was polled has a guard. -/
def dropFuture (s : State) (i : Nat) (p : Spawned) : State :=
  match p.future with
  | .started => (s.put i { p with future := .gone }).dropGuard p.index
  | .unpolled | .gone => s.put i { p with future := .gone }

def spawn (s : State) : Option State :=
  (s.active.insert s.tasks.length).map fun r =>
    ⟨r.2, s.tasks ++ [⟨s.active.nextVacant, spawned, .unpolled⟩]⟩

def apply (s : State) (i : Nat) (p : Spawned) : Effect → State
  | .none => s.put i p
  | .begin => s.put i { p with future := p.future.poll }
  | .drop => s.dropFuture i p

end State

inductive Act where
  | spawn
  | task (i : Nat) (act : Task.Act)
  deriving DecidableEq, Repr

def step (s : State) : Act → Option State
  | .spawn => s.spawn
  | .task i act => (s.tasks[i]?).bind fun p => (Task.step true p.sys act).map fun sys =>
      s.apply i { p with sys := sys } (effect p.sys.sh act)

def system : System State Act := ⟨.new, step⟩

/-- The captured index and the future of a task. -/
def State.view (s : State) (i : Nat) : Option (Nat × Fut) :=
  (s.tasks[i]?).map fun p => (p.index, p.future)

/-- `active` has a task's waker at an index exactly while the task was spawned with this
index and its future has not been dropped, and it is empty when no such task is left. -/
def Exact (s : State) : Prop :=
  (∀ i j, s.active.get j = some i ↔ ∃ future, s.view i = some (j, future) ∧ future ≠ .gone) ∧
  (s.active.isEmpty = true ↔ ∀ i j future, s.view i = some (j, future) → future = .gone)

/-- The step drops a future that was never polled. -/
def dropsUnpolled (s : State) : Act → Bool
  | .spawn => false
  | .task i act => match s.tasks[i]? with
    | some p => decide (effect p.sys.sh act = .drop ∧ p.future = .unpolled)
    | none => false

def PolledFirst (s : State) (a : Act) : Prop := dropsUnpolled s a = false

instance (s : State) (a : Act) : Decidable (PolledFirst s a) :=
  inferInstanceAs (Decidable (dropsUnpolled s a = false))

/-- What `spawn` leaves is a state of the task machine, with the waker given to `active`. -/
theorem spawned_reachable :
    (Task.system true).Reachable ⟨{ spawned.sh with wakers := 1 }, spawned.calls⟩ := by
  obtain ⟨s, -, hs, hsh, hcalls⟩ := System.exists_of_run (M := Task.system true)
    (P := fun s => s.sh = { spawned.sh with wakers := 1 } ∧ s.calls = 0)
    [.start (.clone .runnable), .exec (.cloneWaker .runnable) .go, .start .schedule,
      .exec (.schedule .ret) .go, .exec (.scheduleCall .ret) .go, .exec (.scheduleReturn .ret) .go,
      .exec (.dropWaker .ret) .go] (by decide)
  obtain ⟨sh, calls⟩ := s
  cases hsh
  cases hcalls
  exact hs

section View

variable {s t : State} {i j k : Nat} {f : Fut} {p : Spawned}

theorem view_put (hp : s.tasks[i]? = some p) (q : Spawned) (k : Nat) :
    (s.put i q).view k = if k = i then some (q.index, q.future) else s.view k := by
  obtain ⟨hlt, -⟩ := List.getElem?_eq_some_iff.mp hp
  unfold State.view State.put
  split
  · rename_i heq
    rw [heq, List.getElem?_set_self hlt]
    rfl
  · rename_i hne
    rw [List.getElem?_set_ne (Ne.symm hne)]

theorem view_dropWaker (tasks : List Spawned) (w : Option Nat) (k : Nat) :
    ((dropWaker tasks w)[k]?).map (fun p => (p.index, p.future)) =
      (tasks[k]?).map fun p => (p.index, p.future) := by
  cases w with
  | none => rfl
  | some i =>
    rw [dropWaker, List.getElem?_modify]
    cases tasks[k]? with
    | none => rfl
    | some p => split <;> rfl

theorem view_dropGuard (s : State) (index k : Nat) : (s.dropGuard index).view k = s.view k :=
  view_dropWaker s.tasks _ k

theorem view_dropFuture (hp : s.tasks[i]? = some p) (q : Spawned) (k : Nat) :
    (s.dropFuture i q).view k = if k = i then some (q.index, .gone) else s.view k := by
  unfold State.dropFuture
  split
  · rw [view_dropGuard, view_put hp]
  · rw [view_put hp]
  · rw [view_put hp]

/-- What a step of one task can do to its future and to `active`, the index of the
task being `j`. -/
inductive Moves (s t : State) (j : Nat) : Fut → Fut → Prop
  | keep {f g : Fut} (ha : t.active = s.active) (hg : g = .gone ↔ f = .gone) : Moves s t j f g
  | leak (ha : t.active = s.active) : Moves s t j .unpolled .gone
  | release (ha : t.active = (s.active.remove j).2) : Moves s t j .started .gone

theorem Fut.poll_gone (f : Fut) : f.poll = .gone ↔ f = .gone := by
  cases f <;> decide

theorem dropFuture_moves (s : State) (i : Nat) (p : Spawned) :
    Moves s (s.dropFuture i p) p.index p.future .gone := by
  unfold State.dropFuture
  split
  · rename_i hf
    rw [hf]
    exact .release rfl
  · rename_i hf
    rw [hf]
    exact .leak rfl
  · rename_i hf
    rw [hf]
    exact .keep rfl Iff.rfl

/-- The one inversion of a task's step: only its own future changes. -/
theorem step_task {act : Task.Act} (h : step s (.task i act) = some t) :
    ∃ j f g, s.view i = some (j, f) ∧
      (∀ k, t.view k = if k = i then some (j, g) else s.view k) ∧ Moves s t j f g ∧
      (dropsUnpolled s (.task i act) = true ↔ f = .unpolled ∧ g = .gone) := by
  obtain ⟨p, hp, h⟩ := Option.bind_eq_some_iff.mp h
  obtain ⟨sys, -, rfl⟩ := Option.map_eq_some_iff.mp h
  have hview : s.view i = some (p.index, p.future) := by rw [State.view, hp]; rfl
  cases heff : effect p.sys.sh act with
  | none =>
    refine ⟨p.index, p.future, p.future, hview, view_put hp _, .keep rfl Iff.rfl, ?_⟩
    refine iff_of_false (by simp [dropsUnpolled, hp, heff]) ?_
    rintro ⟨hf, hgone⟩
    exact Fut.noConfusion (hf.symm.trans hgone)
  | begin =>
    refine ⟨p.index, p.future, p.future.poll, hview, view_put hp _,
      .keep rfl p.future.poll_gone, ?_⟩
    refine iff_of_false (by simp [dropsUnpolled, hp, heff]) ?_
    rintro ⟨hf, hgone⟩
    exact Fut.noConfusion (hf.symm.trans (p.future.poll_gone.mp hgone))
  | drop =>
    refine ⟨p.index, p.future, .gone, hview, view_dropFuture hp _,
      dropFuture_moves s i { p with sys := sys }, ?_⟩
    simp [dropsUnpolled, hp, heff]

theorem view_lt (h : s.view i = some (j, f)) : i < s.tasks.length := by
  obtain ⟨p, hp, -⟩ := Option.map_eq_some_iff.mp h
  obtain ⟨hlt, -⟩ := List.getElem?_eq_some_iff.mp hp
  exact hlt

end View

/-- A future that is left has its waker in `active`, and a waker there is its task's. -/
structure Inv (s : State) : Prop where
  ok : s.active.Ok
  unlimited : s.active.limited = 0
  live : ∀ i j f, s.view i = some (j, f) → f ≠ .gone → s.active.get j = some i
  entry : ∀ i j, s.active.get j = some i → ∃ f, s.view i = some (j, f)

/-- Moreover no waker has stayed behind. -/
def Tight (s : State) : Prop :=
  ∀ i j, s.active.get j = some i → ∃ f, s.view i = some (j, f) ∧ f ≠ .gone

section Steps

variable {s t : State} {i j k : Nat} {a : Act} {act : Task.Act} {f g : Fut}

theorem inv_new : Inv .new where
  ok := Colo.ok_new
  unlimited := rfl
  live := by
    intro i j f h
    cases h
  entry := by
    intro i j h
    cases h

theorem view_spawn (s : State) (active : Colo Nat) (p : Spawned) (k : Nat) :
    State.view ⟨active, s.tasks ++ [p]⟩ k =
      if k = s.tasks.length then some (p.index, p.future) else s.view k := by
  unfold State.view
  rcases Nat.lt_trichotomy k s.tasks.length with hlt | rfl | hgt
  · rw [List.getElem?_append_left hlt, if_neg (by omega)]
  · simp
  · have hnone : (s.tasks ++ [p])[k]? = none := by
      apply List.getElem?_eq_none
      simp only [List.length_append, List.length_singleton]
      omega
    rw [hnone, List.getElem?_eq_none (by omega), if_neg (by omega)]

/-- `spawn` never panics; it writes one free entry and adds one task. -/
theorem Inv.spawn_spec (h : Inv s) :
    ∃ t, s.spawn = some t ∧ t.active.Ok ∧ t.active.limited = 0 ∧
      s.active.get s.active.nextVacant = none ∧
      (∀ j, t.active.get j =
        if j = s.active.nextVacant then some s.tasks.length else s.active.get j) ∧
      ∀ k, t.view k =
        if k = s.tasks.length then some (s.active.nextVacant, .unpolled) else s.view k := by
  obtain ⟨c, hins, hok, hlim, hfree, hget⟩ :=
    Colo.insert_spec h.ok h.unlimited s.tasks.length
  refine ⟨⟨c, s.tasks ++ [⟨s.active.nextVacant, spawned, .unpolled⟩]⟩, ?_, hok, hlim, hfree,
    hget, view_spawn s c _⟩
  rw [State.spawn, hins]
  rfl

theorem Inv.spawn (h : Inv s) (hst : s.spawn = some t) : Inv t := by
  obtain ⟨u, hu, hok, hlim, hfree, hget, hview⟩ := h.spawn_spec
  rw [hst] at hu
  cases hu
  refine ⟨hok, hlim, ?_, ?_⟩
  · intro i j f hi hf
    rw [hview] at hi
    rw [hget]
    split at hi
    · rename_i heq
      cases hi
      rw [if_pos rfl, heq]
    · have hj := h.live i j f hi hf
      have hne : j ≠ s.active.nextVacant := by
        rintro rfl
        rw [hfree] at hj
        cases hj
      rw [if_neg hne, hj]
  · intro i j hj
    rw [hget] at hj
    rw [hview]
    split at hj
    · rename_i heq
      cases hj
      rw [if_pos rfl, heq]
      exact ⟨_, rfl⟩
    · obtain ⟨f, hf⟩ := h.entry i j hj
      have hlt := view_lt hf
      rw [if_neg (by omega), hf]
      exact ⟨_, rfl⟩

theorem Inv.tight_spawn (h : Inv s) (htight : Tight s) (hst : s.spawn = some t) : Tight t := by
  obtain ⟨u, hu, -, -, -, hget, hview⟩ := h.spawn_spec
  rw [hst] at hu
  cases hu
  intro i j hj
  rw [hget] at hj
  rw [hview]
  split at hj
  · rename_i heq
    cases hj
    rw [if_pos rfl, heq]
    exact ⟨_, rfl, Fut.noConfusion⟩
  · obtain ⟨f, hf, hleft⟩ := htight i j hj
    have hlt := view_lt hf
    rw [if_neg (by omega), hf]
    exact ⟨_, rfl, hleft⟩

/-- A move releases at most the entry of its own task. -/
theorem Moves.get (h : Inv s) (hi : s.view i = some (j, f)) (hm : Moves s t j f g) (k : Nat) :
    t.active.get k = s.active.get k ∨
      (k = j ∧ f = .started ∧ g = .gone ∧ s.active.get j = some i ∧ t.active.get k = none) := by
  cases hm with
  | keep ha _ => exact .inl (by rw [ha])
  | leak ha => exact .inl (by rw [ha])
  | release ha =>
    obtain ⟨-, -, hget⟩ := Colo.remove_spec h.ok j
    rw [ha, hget]
    split
    · rename_i heq
      exact .inr ⟨heq, rfl, rfl, h.live i j _ hi Fut.noConfusion, rfl⟩
    · exact .inl rfl

theorem Moves.ok (h : Inv s) (hm : Moves s t j f g) :
    t.active.Ok ∧ t.active.limited = 0 := by
  cases hm with
  | keep ha _ => exact ⟨ha ▸ h.ok, ha ▸ h.unlimited⟩
  | leak ha => exact ⟨ha ▸ h.ok, ha ▸ h.unlimited⟩
  | release ha =>
    obtain ⟨hok, hlim, -⟩ := Colo.remove_spec h.ok j
    exact ⟨ha ▸ hok, by rw [ha, hlim, h.unlimited]⟩

/-- A future that a move leaves was there before it. -/
theorem Moves.left (hm : Moves s t j f g) (hg : g ≠ .gone) : f ≠ .gone := by
  cases hm with
  | keep _ hiff => exact mt hiff.mpr hg
  | leak _ => exact absurd rfl hg
  | release _ => exact absurd rfl hg

theorem Inv.task (h : Inv s) (hst : step s (.task i act) = some t) : Inv t := by
  obtain ⟨j, f, g, hi, hview, hm, -⟩ := step_task hst
  obtain ⟨hok, hlim⟩ := hm.ok h
  refine ⟨hok, hlim, ?_, ?_⟩
  · intro k l f' hk hf'
    -- the task that is left had its entry, and the move did not release it
    have hbefore : s.active.get l = some k := by
      rw [hview] at hk
      split at hk
      · rename_i heq
        cases hk
        exact heq ▸ h.live i j f hi (hm.left hf')
      · exact h.live k l f' hk hf'
    rcases hm.get h hi l with hsame | ⟨rfl, -, rfl, hown, -⟩
    · rw [hsame, hbefore]
    · rw [hbefore] at hown
      cases hown
      rw [hview, if_pos rfl] at hk
      cases hk
      exact absurd rfl hf'
  · intro k l hl
    have hbefore : s.active.get l = some k := by
      rcases hm.get h hi l with hsame | ⟨-, -, -, -, hnone⟩
      · rw [← hsame, hl]
      · rw [hnone] at hl
        cases hl
    obtain ⟨f', hf'⟩ := h.entry k l hbefore
    rw [hview]
    split
    · rename_i heq
      rw [heq, hi] at hf'
      cases hf'
      exact ⟨_, rfl⟩
    · exact ⟨_, hf'⟩

theorem inv_step (h : Inv s) (hst : step s a = some t) : Inv t := by
  cases a with
  | spawn => exact h.spawn hst
  | task i act => exact h.task hst

/-- Where every future is polled before it is dropped, the drop releases its entry. -/
theorem Inv.tight_task (h : Inv s) (htight : Tight s) (hok : PolledFirst s (.task i act))
    (hst : step s (.task i act) = some t) : Tight t := by
  obtain ⟨j, f, g, hi, hview, hm, hdrops⟩ := step_task hst
  intro k l hl
  have hbefore : s.active.get l = some k := by
    rcases hm.get h hi l with hsame | ⟨-, -, -, -, hnone⟩
    · rw [← hsame, hl]
    · rw [hnone] at hl
      cases hl
  obtain ⟨f', hf', hleft⟩ := htight k l hbefore
  rw [hview]
  split
  · rename_i heq
    rw [heq, hi] at hf'
    cases hf'
    refine ⟨g, rfl, ?_⟩
    cases hm with
    | keep _ hiff => exact mt hiff.mp hleft
    | leak _ =>
      rw [PolledFirst, hdrops.mpr ⟨rfl, rfl⟩] at hok
      cases hok
    | release ha =>
      obtain ⟨-, -, hget⟩ := Colo.remove_spec h.ok j
      rw [ha, hget, if_pos rfl] at hl
      cases hl
  · exact ⟨f', hf', hleft⟩

theorem inv_tight_step (hok : PolledFirst s a) (h : Inv s ∧ Tight s) (hst : step s a = some t) :
    Inv t ∧ Tight t := by
  obtain ⟨hinv, htight⟩ := h
  refine ⟨inv_step hinv hst, ?_⟩
  cases a with
  | spawn => exact hinv.tight_spawn htight hst
  | task i act => exact hinv.tight_task htight hok hst

/-- A task's step leaves the entries of all other tasks. -/
theorem Inv.get_task (h : Inv s) (hst : step s (.task i act) = some t) (hk : k ≠ i)
    (hj : s.active.get j = some k) : t.active.get j = some k := by
  obtain ⟨l, f, g, hi, -, hm, -⟩ := step_task hst
  rcases hm.get h hi j with hsame | ⟨rfl, -, -, hown, -⟩
  · rw [hsame, hj]
  · rw [hj] at hown
    cases hown
    exact absurd rfl hk

theorem Inv.exact (h : Inv s) (htight : Tight s) : Exact s := by
  refine ⟨fun i j => ⟨htight i j, ?_⟩, ?_⟩
  · rintro ⟨f, hf, hleft⟩
    exact h.live i j f hf hleft
  · rw [Colo.isEmpty_iff h.ok]
    constructor
    · intro hempty i j f hf
      by_contra hleft
      cases (hempty j).symm.trans (h.live i j f hf hleft)
    · intro hgone j
      cases hj : s.active.get j with
      | none => rfl
      | some i =>
        obtain ⟨f, hf, hleft⟩ := htight i j hj
        exact absurd (hgone i j f hf) hleft

/-- The entry of a future that is dropped before its first poll stays behind. -/
theorem Inv.not_exact (h : Inv s) (hst : step s a = some t) (hok : ¬ PolledFirst s a) :
    ¬ Exact t := by
  have hdrops := Bool.not_eq_false _ |>.mp hok
  cases a with
  | spawn => exact Bool.noConfusion hdrops
  | task i act =>
    obtain ⟨j, f, g, hi, hview, hm, hiff⟩ := step_task hst
    obtain ⟨rfl, rfl⟩ := hiff.mp hdrops
    have hentry : t.active.get j = some i := by
      rcases hm.get h hi j with hsame | ⟨-, hf, -⟩
      · rw [hsame, h.live i j _ hi Fut.noConfusion]
      · cases hf
    intro hexact
    obtain ⟨f, hf, hleft⟩ := (hexact.1 i j).mp hentry
    rw [hview, if_pos rfl] at hf
    cases hf
    exact hleft rfl

end Steps

/-- In a run where no future is dropped before its first poll, `active` is exact, and
the first such drop is where it stops being so. In any run a task's step, the drop of
its guard included, leaves the entries of all other tasks. -/
theorem active_exact (s : State) :
    (system.ReachableVia PolledFirst s → Exact s) ∧
    (∀ a t, system.ReachableVia PolledFirst s → step s a = some t →
      (Exact t ↔ PolledFirst s a)) ∧
    ∀ i act t, system.Reachable s → step s (.task i act) = some t →
      ∀ j k, k ≠ i → s.active.get j = some k → t.active.get j = some k := by
  have hvia : system.ReachableVia PolledFirst s → Inv s ∧ Tight s := fun hs =>
    System.ReachableVia.invariant (M := system) (I := fun s => Inv s ∧ Tight s)
      ⟨inv_new, fun _ _ h => by cases h⟩ (fun _ _ _ => inv_tight_step) hs
  refine ⟨?_, ?_, ?_⟩
  · intro hs
    exact (hvia hs).1.exact (hvia hs).2
  · intro a t hs hst
    constructor
    · intro hexact
      by_contra hok
      exact (hvia hs).1.not_exact hst hok hexact
    · intro hok
      obtain ⟨hinv, htight⟩ := inv_tight_step hok (hvia hs) hst
      exact hinv.exact htight
  · intro i act t hs hst j k hk hj
    have hinv : Inv s := System.Reachable.invariant (M := system) inv_new
      (fun _ _ _ => inv_step) hs
    exact hinv.get_task hst hk hj

/-- Three tasks; the first ends in its first poll, and the third takes over its index. -/
theorem active_exact_reuse :
    ∃ s, system.ReachableVia PolledFirst s ∧ s.active.get 0 = some 2 ∧ s.active.get 1 = some 1 ∧
      s.view 0 = some (0, .gone) ∧ Exact s := by
  obtain ⟨s, hs, h⟩ := System.exists_of_runVia (M := system) PolledFirst
    (P := fun s => s.active.get 0 = some 2 ∧ s.active.get 1 = some 1 ∧
      s.view 0 = some (0, .gone))
    [.spawn, .spawn, .task 0 (.start .run), .task 0 (.exec .runLoad .go),
      .task 0 (.exec (.runLoop { Task.Word.spawned with refs := 2 }) .go),
      .task 0 (.exec (.polling
        { Task.Word.spawned with refs := 2, scheduled := false, running := true }) .ready),
      .spawn] (by decide)
  exact ⟨s, hs, h.1, h.2.1, h.2.2, (active_exact s).1 hs⟩

/-- The task is canceled before it is first run; the run then drops its future, and
its entry stays behind. -/
theorem active_leaks :
    ∃ s, system.Reachable s ∧ s.view 0 = some (0, .gone) ∧ s.tasks.length = 1 ∧
      s.active.isEmpty = false ∧ ¬ Exact s := by
  obtain ⟨s, -, hs, hview, hentry, hlen, hempty⟩ := System.exists_of_run (M := system)
    (P := fun s => s.view 0 = some (0, .gone) ∧ s.active.get 0 = some 0 ∧
      s.tasks.length = 1 ∧ s.active.isEmpty = false)
    [.spawn, .task 0 (.start .cancel), .task 0 (.exec (.cancelLoad false) .go),
      .task 0 (.exec (.cancelLoop false { Task.Word.spawned with refs := 2 }) .go),
      .task 0 (.start .run), .task 0 (.exec .runLoad .go),
      .task 0 (.exec (.runLoop { Task.Word.spawned with refs := 2, closed := true }) .go),
      .task 0 (.exec .runClosedDrop .go)] (by decide)
  refine ⟨s, hs, hview, hlen, hempty, ?_⟩
  intro hexact
  obtain ⟨f, hf, hleft⟩ := (hexact.1 0 0).mp hentry
  rw [hview] at hf
  cases hf
  exact hleft rfl

end Cynthia.Executor.Active
