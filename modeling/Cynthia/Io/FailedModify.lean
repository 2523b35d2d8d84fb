import Cynthia.Io.Interest

/-! The reactor with calls of `poller.modify` that fail, in `poll_ready`, in the futures of
`ready` and in `react`. `poll_ready` has stored its waker by then, and leaves it there. -/

namespace Cynthia.Io.FailedModify

open Transition Reactor

/-- Beside the reactor, the future that took the lock of a source last, unless
`poll_ready` did. -/
structure State where
  reactor : Reactor.State
  holder : Nat → Option Nat

inductive Act where
  | act (a : Reactor.Act)
  | fail (id : Nat)
  | failReact
  deriving DecidableEq

def holderAfter (s : State) : Reactor.Act → Nat → Option Nat
  | .pollReady id _ _ => Function.update s.holder id none
  | .pollFuture f _ => Function.update s.holder (s.reactor.futures f).source (some f)
  | _ => s.holder

/-- `?` behind `poller.modify` in `poll_ready` and in `ready`. The future is done with it;
the guard with its waker is dropped later. -/
def fail (s : State) (id : Nat) : Option State :=
  let cell := s.reactor.cells id
  if cell.crit = .modify then
    let reactor := setCell s.reactor id { cell with crit := .free }
    match s.holder id with
    | none => some { s with reactor }
    | some f => some { s with
        reactor := setFuture reactor f { reactor.futures f with stage := .ready } }
  else none

/-- `?` behind `poller.modify` in `react`. The events that it has not handled are lost. -/
def failReact (s : State) : Option State :=
  match s.reactor.react with
  | .modify id =>
    let cell := s.reactor.cells id
    if cell.src.waiting then
      some { s with reactor := { setCell s.reactor id { cell with crit := .free } with
        lock := .free, react := .idle, events := [] } }
    else none
  | _ => none

def step (s : State) : Act → Option State
  | .act a => (Reactor.step s.reactor a).map fun reactor => ⟨reactor, holderAfter s a⟩
  | .fail id => fail s id
  | .failReact => failReact s

def system : System State Act := ⟨⟨Reactor.new, fun _ => none⟩, step⟩

inductive Answer where
  | ready | pending | error
  deriving DecidableEq

/-- A whole call of `poll_ready`, with nobody else in between. `ok` is the outcome of
`poller.modify`. -/
def pollReadyCall (s : State) (id : Nat) (dir : Dir) (cx : Waker) (ok : Bool) :
    Option (State × Answer) :=
  (step s (.act (.pollReady id dir cx))).bind fun s₁ =>
    match (s₁.reactor.cells id).crit with
    | .pollTicks .. =>
      (step s₁ (.act (.ticks id))).bind fun s₂ =>
        match (s₂.reactor.cells id).crit with
        | .modify =>
          if ok then (step s₂ (.act (.modify id))).map fun t => (t, .pending)
          else (step s₂ (.fail id)).map fun t => (t, .error)
        | _ => some (s₂, .pending)
    | _ => some (s₁, if s₁.reactor.answers = s.reactor.answers then .pending else .ready)

/-- No direction of the source has a waker without being armed. -/
def Usable (s : State) (id : Nat) : Prop :=
  ∀ dir, ((s.reactor.cells id).src.state dir).isEmpty = false → Armed s.reactor id dir

instance {P : Dir → Prop} [DecidablePred P] : Decidable (∀ dir, P dir) :=
  decidable_of_iff (P .read ∧ P .write)
    ⟨fun ⟨hread, hwrite⟩ dir => match dir with
      | .read => hread
      | .write => hwrite, fun h => ⟨h .read, h .write⟩⟩

instance (s : State) (id : Nat) : Decidable (Usable s id) :=
  inferInstanceAs (Decidable (∀ dir, ((s.reactor.cells id).src.state dir).isEmpty = false →
    Armed s.reactor id dir))

section Calls

variable {s t : State} {id : Nat} {dir other : Dir} {cx : Waker} {ok : Bool} {ans : Answer}

/-- The waker is stored in its direction; nothing else moves. -/
structure Stored (r u : Reactor.State) (id : Nat) (dir : Dir) : Prop where
  raw : (u.cells id).src.raw = (r.cells id).src.raw
  kept : ∀ other, other ≠ dir →
    (u.cells id).src.state other = (r.cells id).src.state other
  stored : ((u.cells id).src.state dir).isEmpty = false

theorem Stored.setCrit {r u : Reactor.State} (h : Stored r u id dir) (crit : Crit) :
    Stored r (setCell u id { u.cells id with crit := crit }) id dir := by
  refine ⟨?_, fun other hne => ?_, ?_⟩
  · rw [setCell_self]
    exact h.raw
  · rw [setCell_self]
    exact h.kept other hne
  · rw [setCell_self]
    exact h.stored

/-- The second step of a call that stores its waker. -/
theorem ticksStep_spec {r u : Reactor.State} {p : Private} {wasEmpty : Bool} {stage : Stage}
    {born : Nat} (hp : p.isEmpty = false)
    (h : ticksStep (setCell r id
      ⟨(r.cells id).src.setDir dir p, stage, .pollTicks dir wasEmpty, born⟩) id = some u) :
    Stored r u id dir ∧ u.poller = r.poller ∧
      (u.cells id).crit = if wasEmpty then .modify else .free := by
  simp only [ticksStep, setCell_self] at h
  obtain rfl := Option.some.inj h
  refine ⟨⟨?_, fun other hne => ?_, ?_⟩, rfl, ?_⟩
  · rw [setCell_self]
    rfl
  · rw [setCell_self]
    dsimp only
    rw [Source.setDir_of_ne hne, Source.setDir_of_ne hne]
  · rw [setCell_self]
    dsimp only
    rw [Source.setDir_self, Source.setDir_self]
    exact hp
  · rw [setCell_self]

theorem pollReadyCall_spec (h : pollReadyCall s id dir cx ok = some (t, ans)) :
    (s.reactor.cells id).stage = .live ∧ (ans = .ready ∨
      (ans = .pending ∧ t.reactor = s.reactor ∧
        ((s.reactor.cells id).src.state dir).isEmpty = false) ∨
      Stored s.reactor t.reactor id dir ∧
        ((ans = .pending ∧ t.reactor.poller = s.reactor.poller ∧
            ((s.reactor.cells id).src.state dir).isEmpty = false) ∨
          (ans = .error ∧ t.reactor.poller = s.reactor.poller ∧
            ((s.reactor.cells id).src.state dir).isEmpty = true) ∨
          ans = .pending ∧ t.reactor.poller = modifyPoller s.reactor.poller
            (s.reactor.cells id).src.raw (t.reactor.cells id).src.interest)) := by
  obtain ⟨s₁, hfirst, hrest⟩ := Option.bind_eq_some_iff.mp h
  obtain ⟨r₁, hpoll, rfl⟩ := Option.map_eq_some_iff.mp hfirst
  simp only [Reactor.step, pollReady] at hpoll
  split at hpoll
  · rename_i hcond
    obtain ⟨hlive, hfree⟩ := hcond
    refine ⟨hlive, ?_⟩
    split at hpoll
    · obtain rfl := Option.some.inj hpoll
      simp only [setCell_self, hfree] at hrest
      cases hrest
      refine .inl (if_neg fun hsame => ?_)
      exact absurd (congrArg List.length hsame) (Nat.succ_ne_self _)
    · split at hpoll
      · rename_i hsame
        obtain rfl := Option.some.inj hpoll
        simp only [hfree, if_true] at hrest
        cases hrest
        refine .inr (.inl ⟨rfl, rfl, ?_⟩)
        simp [Private.isEmpty, hsame]
      · obtain rfl := Option.some.inj hpoll
        simp only [setCell_self] at hrest
        obtain ⟨s₂, hsecond, hlast⟩ := Option.bind_eq_some_iff.mp hrest
        obtain ⟨r₂, hticks, rfl⟩ := Option.map_eq_some_iff.mp hsecond
        obtain ⟨hstored, hpoller, hcrit⟩ := ticksStep_spec rfl hticks
        refine .inr (.inr ?_)
        cases hempty : ((s.reactor.cells id).src.state dir).isEmpty with
        | false =>
          rw [hempty] at hcrit
          simp only [hcrit, Bool.false_eq_true, if_false] at hlast
          cases hlast
          exact ⟨hstored, .inl ⟨rfl, hpoller, rfl⟩⟩
        | true =>
          rw [hempty, if_pos rfl] at hcrit
          simp only [hcrit] at hlast
          cases ok with
          | true =>
            obtain ⟨t', hmodify, heq⟩ := Option.map_eq_some_iff.mp hlast
            cases heq
            obtain ⟨r₃, hthird, rfl⟩ := Option.map_eq_some_iff.mp hmodify
            simp only [Reactor.step, modifyStep, hcrit, if_true] at hthird
            obtain rfl := Option.some.inj hthird
            have hset : ∀ poller, Stored s.reactor { r₂ with poller := poller } id dir :=
              fun _ => ⟨hstored.raw, hstored.kept, hstored.stored⟩
            refine ⟨(hset _).setCrit .free, .inr (.inr ⟨rfl, ?_⟩)⟩
            rw [setCell_self, ← hstored.raw, ← hpoller]
            rfl
          | false =>
            obtain ⟨t', hfail, heq⟩ := Option.map_eq_some_iff.mp hlast
            cases heq
            simp only [step, fail, hcrit, if_true, holderAfter, Function.update_self] at hfail
            obtain rfl := Option.some.inj hfail
            exact ⟨hstored.setCrit .free, .inr (.inl ⟨rfl, hpoller, rfl⟩)⟩
  · cases hpoll

theorem Stored.armed_iff {r u : Reactor.State} (h : Stored r u id dir)
    (hpoller : u.poller = r.poller) : Armed u id other ↔ Armed r id other := by
  unfold Armed
  rw [hpoller, h.raw]

/-- The call leaves the poller alone, and its waker in the source. -/
theorem usable_iff (h : pollReadyCall s id dir cx ok = some (t, .error)) :
    Usable t id ↔ Armed s.reactor id dir ∧ ∀ other, other ≠ dir →
      ((s.reactor.cells id).src.state other).isEmpty = true ∨ Armed s.reactor id other := by
  obtain ⟨-, hcases⟩ := pollReadyCall_spec h
  rcases hcases with hx | ⟨hx, -⟩ | ⟨hstored, ⟨hx, -⟩ | ⟨-, hpoller, -⟩ | ⟨hx, -⟩⟩
  · cases hx
  · cases hx
  · cases hx
  · constructor
    · intro husable
      refine ⟨(hstored.armed_iff hpoller).mp (husable dir hstored.stored), fun other hne => ?_⟩
      cases hempty : ((s.reactor.cells id).src.state other).isEmpty with
      | true => exact .inl rfl
      | false =>
        rw [← hstored.kept other hne] at hempty
        exact .inr ((hstored.armed_iff hpoller).mp (husable other hempty))
    · rintro ⟨harmed, hothers⟩ other hne
      by_cases he : other = dir
      · rw [he]
        exact (hstored.armed_iff hpoller).mpr harmed
      · rw [hstored.kept other he] at hne
        rcases hothers other he with hempty | hother
        · cases hempty.symm.trans hne
        · exact (hstored.armed_iff hpoller).mpr hother
  · cases hx

/-- In a usable source, a call that returns `Pending` leaves its direction armed. -/
theorem armed_of_pending (hs : Slab s.reactor) (husable : Usable s id)
    (h : pollReadyCall s id dir cx true = some (t, .pending)) : Armed t.reactor id dir := by
  obtain ⟨hlive, hcases⟩ := pollReadyCall_spec h
  rcases hcases with hx | ⟨-, hsame, hne⟩ | ⟨hstored, ⟨-, hpoller, hne⟩ | ⟨hx, -⟩ | ⟨-, hpoller⟩⟩
  · cases hx
  · rw [hsame]
    exact husable dir hne
  · exact (hstored.armed_iff hpoller).mpr (husable dir hne)
  · cases hx
  · obtain ⟨reg, hreg, -⟩ := hs.registered id (.inl hlive)
    rw [modifyPoller_eq _ hreg] at hpoller
    refine ⟨{ reg with event := (t.reactor.cells id).src.interest, enabled := true }, ?_, rfl, ?_⟩
    · rw [hpoller, hstored.raw, Function.update_self]
    · dsimp only
      rw [Source.interest_emitted, hstored.stored]
      rfl

/-- The call is a chain of steps. -/
theorem reachable_of_call (hs : system.Reachable s)
    (h : pollReadyCall s id dir cx ok = some (t, ans)) : system.Reachable t := by
  obtain ⟨s₁, hpoll, hrest⟩ := Option.bind_eq_some_iff.mp h
  have hs₁ : system.Reachable s₁ := hs.next (a := .act (.pollReady id dir cx)) hpoll
  split at hrest
  · obtain ⟨s₂, hticks, hlast⟩ := Option.bind_eq_some_iff.mp hrest
    have hs₂ : system.Reachable s₂ := hs₁.next (a := .act (.ticks id)) hticks
    split at hlast
    · cases ok with
      | true =>
        obtain ⟨t', hmodify, heq⟩ := Option.map_eq_some_iff.mp hlast
        cases heq
        exact hs₂.next (a := .act (.modify id)) hmodify
      | false =>
        obtain ⟨t', hfail, heq⟩ := Option.map_eq_some_iff.mp hlast
        cases heq
        exact hs₂.next (a := .fail id) hfail
    · cases hlast
      exact hs₂
  · cases hrest
    exact hs₁

end Calls

/-! ## Runs -/

/-- A step that fails finds the wakers of the source, its own among them, armed or about to
be handled; in `react` it also has no event left that would be lost. -/
def Covered (s : State) : Act → Prop
  | .act _ => True
  | .fail id => ∀ dir, ((s.reactor.cells id).src.state dir).isEmpty = false →
      Armed s.reactor id dir ∨ Awaited s.reactor id
  | .failReact => s.reactor.events = [] ∧ ∀ id, s.reactor.react = .modify id → Usable s id

instance : ∀ (s : State) (a : Act), Decidable (Covered s a)
  | _, .act _ => inferInstanceAs (Decidable True)
  | s, .fail id => inferInstanceAs (Decidable (∀ dir,
      ((s.reactor.cells id).src.state dir).isEmpty = false →
        Armed s.reactor id dir ∨ Awaited s.reactor id))
  | s, .failReact =>
    match hpc : s.reactor.react with
    | .modify id => decidable_of_iff (s.reactor.events = [] ∧ Usable s id)
        (and_congr_right' ⟨fun h _ hx => ReactPc.modify.inj (hpc.symm.trans hx) ▸ h,
          fun h => h id hpc⟩)
    | .idle | .increment | .wait | .lockSources | .loop => decidable_of_iff (s.reactor.events = [])
        ⟨fun h => ⟨h, fun _ hx => ReactPc.noConfusion (hpc.symm.trans hx)⟩, And.left⟩

section Runs

variable {s t : State} {id : Nat}

theorem slab_fail (h : Slab s.reactor) (ht : fail s id = some t) : Slab t.reactor := by
  unfold fail at ht
  dsimp only at ht
  split at ht
  · rename_i hcrit
    have hset : Slab (setCell s.reactor id { s.reactor.cells id with crit := .free }) := by
      refine h.setCell rfl rfl rfl (fun hreact => ?_) (fun hne => absurd rfl hne) (h.untouched id)
      rw [(h.handling id hreact).1] at hcrit
      cases hcrit
    split at ht
    · obtain rfl := Option.some.inj ht
      exact hset
    · obtain rfl := Option.some.inj ht
      exact { hset with }
  · cases ht

theorem slab_failReact (h : Slab s.reactor) (ht : failReact s = some t) : Slab t.reactor := by
  unfold failReact at ht
  split at ht
  · rename_i id hpc
    dsimp only at ht
    split at ht
    · obtain rfl := Option.some.inj ht
      have hlock := h.looping (by rw [hpc]; rfl)
      have hset : Slab (setCell { s.reactor with react := .loop } id
          { s.reactor.cells id with crit := .free }) :=
        (h.loop hpc).setCell rfl rfl rfl (fun hx => ReactPc.noConfusion hx)
          (fun hne => absurd rfl hne) (h.untouched id)
      refine { hset with
        vacated := fun other hst => ?_
        removing := fun _ hx => SlabLock.noConfusion hx
        looping := fun hx => Bool.noConfusion hx
        handling := fun _ hx => ReactPc.noConfusion hx }
      cases hlock.symm.trans (hset.vacated other hst).1
    · cases ht
  · cases ht

theorem slab_of_reachable (hs : system.Reachable s) : Slab s.reactor := by
  refine hs.invariant (M := system) (I := fun s => Slab s.reactor) slab_new fun s a t h ht => ?_
  cases a with
  | act a =>
    obtain ⟨r, hstep, rfl⟩ := Option.map_eq_some_iff.mp ht
    exact slab_step h hstep
  | fail id => exact slab_fail h ht
  | failReact => exact slab_failReact h ht

theorem watched_fail (h : Watched s.reactor) (hok : Covered s (.fail id))
    (ht : fail s id = some t) : Watched t.reactor := by
  unfold fail at ht
  dsimp only at ht
  split at ht
  · have hset : Watched (setCell s.reactor id { s.reactor.cells id with crit := .free }) :=
      h.setCell rfl rfl (fun _ _ _ _ hx => Crit.noConfusion hx) fun _ _ => hok
    split at ht
    · obtain rfl := Option.some.inj ht
      exact hset
    · obtain rfl := Option.some.inj ht
      exact { hset with }
  · cases ht

theorem watched_failReact (h : Watched s.reactor) (hok : Covered s .failReact)
    (ht : failReact s = some t) : Watched t.reactor := by
  obtain ⟨hev, husable⟩ := hok
  unfold failReact at ht
  split at ht
  · rename_i id hpc
    dsimp only at ht
    split at ht
    · obtain rfl := Option.some.inj ht
      have hset : Watched (setCell s.reactor id { s.reactor.cells id with crit := .free }) :=
        h.setCell rfl rfl (fun _ _ _ _ hx => Crit.noConfusion hx) fun _ _ dir hne =>
          .inl (husable id hpc dir hne)
      refine { hset with
        owned := fun c hc => absurd hc List.not_mem_nil
        drained := fun _ => rfl
        armed := fun other hlive hset' dir hne => ?_ }
      refine (hset.armed other hlive hset' dir hne).imp_right fun ⟨c, hc, hown⟩ => ?_
      rw [show (setCell s.reactor id _).events = s.reactor.events from rfl, hev] at hc
      cases hc
    · cases ht
  · cases ht

theorem watched_of_covered (hs : system.ReachableVia Covered s) :
    Slab s.reactor ∧ Watched s.reactor := by
  refine hs.invariant (M := system) (I := fun s => Slab s.reactor ∧ Watched s.reactor)
    ⟨slab_new, watched_new⟩ fun s a t hok h ht => ?_
  cases a with
  | act a =>
    obtain ⟨r, hstep, rfl⟩ := Option.map_eq_some_iff.mp ht
    exact ⟨slab_step h.1 hstep, watched_step h.1 h.2 hstep⟩
  | fail id => exact ⟨slab_fail h.1 ht, watched_fail h.2 hok ht⟩
  | failReact => exact ⟨slab_failReact h.1 ht, watched_failReact h.2 hok ht⟩

end Runs

/-- A call that returns the error leaves the source usable exactly if a registration from
before asks for the direction, and for the other one if that has a waker. In a run whose
failures find the wakers covered, every waker is armed or about to be handled. -/
theorem failed_modify_usable_iff (s : State) (hs : system.Reachable s) :
    (∀ id dir cx t, pollReadyCall s id dir cx false = some (t, .error) →
      ((Usable t id ∧ ∀ other cx' u, pollReadyCall t id other cx' true = some (u, .pending) →
          Armed u.reactor id other) ↔
        Armed s.reactor id dir ∧ ∀ other, other ≠ dir →
          ((s.reactor.cells id).src.state other).isEmpty = true ∨ Armed s.reactor id other)) ∧
    (system.ReachableVia Covered s → ∀ id, (s.reactor.cells id).stage = .live →
      (s.reactor.cells id).crit = .free → ∀ dir,
      ((s.reactor.cells id).src.state dir).isEmpty = false →
      Armed s.reactor id dir ∨ Awaited s.reactor id) := by
  refine ⟨fun id dir cx t hcall => ?_, fun hvia id hlive hfree dir hne => ?_⟩
  · have hslab : Slab t.reactor := slab_of_reachable (reachable_of_call hs hcall)
    rw [← usable_iff hcall]
    exact ⟨And.left, fun husable => ⟨husable, fun _ _ _ => armed_of_pending hslab husable⟩⟩
  · exact (watched_of_covered hvia).2.armed id hlive (by rw [hfree]; rfl) dir hne

/-- A reader has armed the source and is dropped: its registration still stands when
`poll_readable` fails. -/
def stale : List Act :=
  [.act (.addIo 3), .act (.addPoller 0 true), .act (.newFuture 0 0 .read),
    .act (.pollFuture 0 8), .act (.ticks 0), .act (.modify 0), .act (.dropFuture 0)]

theorem failed_modify_usable_iff_stale :
    (∃ s t, system.Reachable s ∧ pollReadyCall s 0 .read 7 false = some (t, .error) ∧
      Usable t 0) ∧
    ∃ t, system.ReachableVia Covered t ∧ ((t.reactor.cells 0).src.state .read).waker = some 7 ∧
      Armed t.reactor 0 .read := by
  constructor
  · obtain ⟨s, -, hs, hcall, harmed, hwrite⟩ := system.exists_of_run
      (P := fun s => ((pollReadyCall s 0 .read 7 false).map Prod.snd = some .error) ∧
        Armed s.reactor 0 .read ∧ ((s.reactor.cells 0).src.state .write).isEmpty = true)
      stale (by decide +kernel)
    obtain ⟨⟨t, ans⟩, hcall, rfl⟩ := Option.map_eq_some_iff.mp hcall
    refine ⟨s, t, hs, hcall, (((failed_modify_usable_iff s hs).1 0 .read 7 t hcall).mpr
      ⟨harmed, fun other hne => ?_⟩).1⟩
    cases other with
    | read => cases hne rfl
    | write => exact .inl hwrite
  · obtain ⟨t, hvia, hlive, hfree, hev, hwaker⟩ := system.exists_of_runVia Covered
      (P := fun t => (t.reactor.cells 0).stage = .live ∧ (t.reactor.cells 0).crit = .free ∧
        t.reactor.events = [] ∧ ((t.reactor.cells 0).src.state .read).waker = some 7)
      (stale ++ [.act (.pollReady 0 .read 7), .act (.ticks 0), .fail 0]) (by decide +kernel)
    have hne : ((t.reactor.cells 0).src.state .read).isEmpty = false := by
      simp [Private.isEmpty, hwaker]
    refine ⟨t, hvia, hwaker, (((failed_modify_usable_iff t hvia.reachable).2 hvia 0 hlive hfree
      .read hne).resolve_right ?_)⟩
    rintro ⟨c, hc, -⟩
    rw [hev] at hc
    cases hc

/-- `poll_readable` fails on a fresh source. The same waker is told to wait then, with
nothing armed. -/
theorem failed_modify_leaves_waker :
    ∃ s t u, system.Reachable s ∧ pollReadyCall s 0 .read 7 false = some (t, .error) ∧
      ¬Usable t 0 ∧ pollReadyCall t 0 .read 7 true = some (u, .pending) ∧
      ¬Armed u.reactor 0 .read := by
  obtain ⟨s, -, hs, hrun⟩ := system.exists_of_run
    (P := fun s => ((pollReadyCall s 0 .read 7 false).any fun (t, ans) =>
      ans = .error && !Usable t 0 && (pollReadyCall t 0 .read 7 true).any fun (u, again) =>
        again = .pending && !Armed u.reactor 0 .read) = true)
    [.act (.addIo 3), .act (.addPoller 0 true)] (by decide +kernel)
  obtain ⟨⟨t, ans⟩, hcall, htest⟩ := (Option.any_eq_true _ _).mp hrun
  simp only [Bool.and_eq_true, decide_eq_true_eq, Bool.not_eq_true', decide_eq_false_iff_not]
    at htest
  obtain ⟨⟨rfl, husable⟩, hretry⟩ := htest
  obtain ⟨⟨u, again⟩, hpoll, htest⟩ := (Option.any_eq_true _ _).mp hretry
  simp only [Bool.and_eq_true, decide_eq_true_eq, Bool.not_eq_true', decide_eq_false_iff_not]
    at htest
  obtain ⟨rfl, harmed⟩ := htest
  exact ⟨s, t, u, hs, hcall, husable, hpoll, harmed⟩

end Cynthia.Io.FailedModify
