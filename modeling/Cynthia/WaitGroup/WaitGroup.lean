import Cynthia.Lib.Census
import Cynthia.Lib.Transition
import Mathlib.Algebra.Group.Int.Defs

/-! `WaitGroup` of `platform/wait_group/wait.rs`: a shared count behind a mutex, the
source handle that waits for it to be 0, and the handles that count. A step is
one critical section of the mutex, or what happens outside of it. -/

namespace Cynthia.WaitGroup

open Transition Census

/-- The identity of a waker, up to waking the same task. -/
abbrev Waker := Nat

/-- The fields of `WaitGroup`; `inner` is the shared count. `creator` remembers the
task that executed the `wait_clone` behind a handle. -/
structure Handle where
  waker : Option Waker
  source : Bool
  completed : Bool
  creator : Waker
  deriving DecidableEq, Repr

inductive Slot where
  | free
  /-- Inside `wait_clone`: the waker is registered, `count` is not incremented yet. -/
  | attaching (creator : Waker)
  | handle (h : Handle)
  deriving DecidableEq, Repr

/-- `lastPoll` is the last poll of the source, with its waker and whether it returned
`Pending`; `woke` is the waker that the last step woke; `missed` says that a step
has brought `count` to 0 without waking the task of a `lastPoll` that is pending. -/
structure State where
  count : Int
  started : Nat
  slots : Nat → Slot
  lastPoll : Option (Waker × Bool)
  woke : Option Waker
  missed : Bool

/-- `WaitGroup::new`: handle 0 is the source. -/
def State.new : State where
  count := 0
  started := 1
  slots := Function.update (fun _ => .free) 0 (.handle ⟨none, true, false, 0⟩)
  lastPoll := none
  woke := none
  missed := false

/-- Arithmetic of `i32` in a build without overflow checks. -/
def wrap (x : Int) : Int := Int.bmod x (2 ^ 32)

inductive Act where
  /-- `wait_clone` on any handle, polled with the waker `w`. -/
  | waitClone (f : Nat) (w : Waker)
  /-- The second half of `attach`. -/
  | attach (f : Nat)
  /-- The derived `Clone::clone`. -/
  | clone (f : Nat)
  /-- Poll the source. -/
  | pollSource (f : Nat) (w : Waker)
  /-- Poll a handle that is not the source: it completes. -/
  | complete (f : Nat)
  deriving DecidableEq, Repr

namespace State

def put (s : State) (f : Nat) (slot : Slot) : State :=
  { s with slots := Function.update s.slots f slot, woke := none }

def add (s : State) (slot : Slot) : State :=
  { s with started := s.started + 1, slots := Function.update s.slots s.started slot, woke := none }

/-- `register`, the first half of `attach`. -/
def waitClone (s : State) (f : Nat) (w : Waker) : Option State :=
  match s.slots f with
  | .handle _ => some (s.add (.attaching w))
  | _ => none

def attach (s : State) (f : Nat) : Option State :=
  match s.slots f with
  | .attaching w =>
    some { s.put f (.handle ⟨some w, false, false, w⟩) with count := wrap (s.count + 1) }
  | _ => none

def clone (s : State) (f : Nat) : Option State :=
  match s.slots f with
  | .handle h => some (s.add (.handle { h with completed := false }))
  | _ => none

def pollSource (s : State) (f : Nat) (w : Waker) : Option State :=
  match s.slots f with
  | .handle h =>
    if h.source then some { s with lastPoll := some (w, decide (0 < s.count)), woke := none }
    else none
  | _ => none

/-- `done`: the waker is taken only when `count` has become 0. -/
def complete (s : State) (f : Nat) : Option State :=
  match s.slots f with
  | .handle h =>
    if h.source ∨ h.completed then none
    else
      let count := wrap (s.count - 1)
      let woke := if count = 0 then h.waker else none
      let waker := if count = 0 then none else h.waker
      let missed := match s.lastPoll with
        | some (w, true) => decide (count = 0 ∧ woke ≠ some w)
        | _ => false
      some { s.put f (.handle { h with waker := waker, completed := true }) with
        count := count, woke := woke, missed := s.missed || missed }
  | _ => none

end State

def step (s : State) : Act → Option State
  | .waitClone f w => s.waitClone f w
  | .attach f => s.attach f
  | .clone f => s.clone f
  | .pollSource f w => s.pollSource f w
  | .complete f => s.complete f

def system : System State Act := ⟨.new, step⟩

/-- A handle that is not the source and has not completed. -/
def Slot.outstanding : Slot → Bool
  | .handle h => !h.source && !h.completed
  | _ => false

def Slot.isSource : Slot → Bool
  | .handle h => h.source
  | _ => false

/-- The shared count is the number of outstanding handles. -/
def CountsAll (s : State) : Prop := s.count = count Slot.outstanding s.started s.slots

instance (s : State) : Decidable (CountsAll s) :=
  inferInstanceAs (Decidable (s.count = count Slot.outstanding s.started s.slots))

/-- Only the source is cloned by `Clone::clone`, and `i32` does not overflow. -/
def Counted (s : State) : Act → Prop
  | .clone f => (s.slots f).isSource = true
  | .attach _ => s.count < 2 ^ 31 - 1
  | _ => True

instance (s : State) (a : Act) : Decidable (Counted s a) :=
  match a with
  | .clone f => inferInstanceAs (Decidable ((s.slots f).isSource = true))
  | .attach _ => inferInstanceAs (Decidable (s.count < 2 ^ 31 - 1))
  | .waitClone _ _ | .pollSource _ _ | .complete _ => isTrue trivial

theorem wrap_of_bounds {x : Int} (hl : -2 ^ 31 ≤ x) (hu : x < 2 ^ 31) : wrap x = x := by
  apply Int.bmod_eq_of_le <;> omega

theorem wrap_le (x : Int) : wrap x < 2 ^ 31 := by
  have := @Int.bmod_lt x (2 ^ 32) (by decide)
  unfold wrap
  omega

section Count

variable {s t : State} {f : Nat} {a : Act}

structure Inv (s : State) : Prop where
  fresh : Fresh .free s.started s.slots
  bound : s.count < 2 ^ 31

theorem inv_new : Inv .new where
  fresh := by
    intro f hf
    change Function.update (fun _ => Slot.free) 0 _ f = .free
    rw [Function.update_of_ne (by change 1 ≤ f at hf; omega)]
  bound := by decide

/-- What each operation does to the count and to the number of outstanding handles. -/
theorem step_counts (h : Inv s) (ht : step s a = some t) :
    Inv t ∧ match a with
      | .attach _ => t.count = wrap (s.count + 1) ∧
          count Slot.outstanding t.started t.slots =
            count Slot.outstanding s.started s.slots + 1
      | .complete _ => t.count = wrap (s.count - 1) ∧
          count Slot.outstanding t.started t.slots + 1 =
            count Slot.outstanding s.started s.slots
      | .clone f => t.count = s.count ∧
          count Slot.outstanding t.started t.slots =
            count Slot.outstanding s.started s.slots + (!(s.slots f).isSource).toNat
      | _ => t.count = s.count ∧
          count Slot.outstanding t.started t.slots =
            count Slot.outstanding s.started s.slots := by
  cases a with
  | waitClone f w =>
    simp only [step, State.waitClone] at ht
    split at ht <;> cases ht
    exact ⟨⟨h.fresh.start, h.bound⟩, rfl, count_start _ _⟩
  | attach f =>
    simp only [step, State.attach] at ht
    split at ht <;> rename_i hslot <;> cases ht
    have hf := h.fresh.lt (f := f) (by simp [hslot])
    refine ⟨⟨h.fresh.update hf, wrap_le _⟩, rfl, ?_⟩
    have := @count_update _ Slot.outstanding s.started f s.slots
      (.handle ⟨some ‹Waker›, false, false, ‹Waker›⟩) hf
    rw [hslot] at this
    exact this
  | clone f =>
    simp only [step, State.clone] at ht
    split at ht <;> rename_i hslot <;> cases ht
    refine ⟨⟨h.fresh.start, h.bound⟩, rfl, ?_⟩
    rw [hslot]
    refine (count_start _ _).trans ?_
    simp [Slot.outstanding, Slot.isSource]
  | pollSource f w =>
    simp only [step, State.pollSource] at ht
    split at ht
    · split at ht <;> cases ht
      exact ⟨⟨h.fresh, h.bound⟩, rfl, rfl⟩
    · cases ht
  | complete f =>
    simp only [step, State.complete] at ht
    split at ht
    · rename_i hd hslot
      split at ht <;> rename_i hlive <;> cases ht
      have hf := h.fresh.lt (f := f) (by simp [hslot])
      refine ⟨⟨h.fresh.update hf, wrap_le _⟩, rfl, ?_⟩
      have hbefore : (s.slots f).outstanding = true := by simpa [hslot, Slot.outstanding] using hlive
      have hcount := @count_update _ Slot.outstanding s.started f s.slots (.handle { hd with
        waker := if wrap (s.count - 1) = 0 then none else hd.waker, completed := true }) hf
      rw [hbefore] at hcount
      refine hcount.trans ?_
      simp [Slot.outstanding]
    · cases ht

theorem inv_reachable (hs : system.Reachable s) : Inv s :=
  System.Reachable.invariant (M := system) inv_new (fun _ _ _ h ht => (step_counts h ht).1) hs

/-- A step from an exact count leads to an exact count if and only if it is a
counted one. -/
theorem countsAll_step (h : Inv s) (hc : CountsAll s) (ht : step s a = some t) :
    CountsAll t ↔ Counted s a := by
  have hstep := (step_counts h ht).2
  have hbound := h.bound
  unfold CountsAll at hc ⊢
  cases a with
  | waitClone f w | pollSource f w =>
    obtain ⟨hcount, hnum⟩ := hstep
    simp only [Counted, iff_true]
    omega
  | attach f =>
    obtain ⟨hcount, hnum⟩ := hstep
    simp only [Counted]
    constructor
    · intro heq
      have := wrap_le (s.count + 1)
      omega
    · intro hlt
      rw [wrap_of_bounds (by omega) (by omega)] at hcount
      omega
  | clone f =>
    obtain ⟨hcount, hnum⟩ := hstep
    simp only [Counted]
    cases hsource : (s.slots f).isSource with
    | true =>
      rw [hsource, Bool.not_true, Bool.toNat_false] at hnum
      simp only [iff_true]
      omega
    | false =>
      rw [hsource, Bool.not_false, Bool.toNat_true] at hnum
      simp only [Bool.false_eq_true, iff_false]
      omega
  | complete f =>
    obtain ⟨hcount, hnum⟩ := hstep
    rw [wrap_of_bounds (by omega) (by omega)] at hcount
    simp only [Counted, iff_true]
    omega

theorem countsAll_reachable (hs : system.ReachableVia Counted s) : CountsAll s := by
  have h : Inv s ∧ CountsAll s := by
    refine System.ReachableVia.invariant (M := system) (I := fun s => Inv s ∧ CountsAll s)
      ⟨inv_new, by decide⟩ ?_ hs
    intro s a t hok h ht
    exact ⟨(step_counts h.1 ht).1, (countsAll_step h.1 h.2 ht).mpr hok⟩
  exact h.2

end Count

/-- In every run of counted steps the count is exact, so that the source is ready
only when no handle is outstanding; the first step that is not counted breaks it. -/
theorem waitGroup_counts (s : State) :
    (system.ReachableVia Counted s → CountsAll s ∧
      ∀ f w t, step s (.pollSource f w) = some t → t.lastPoll = some (w, false) →
        ∀ g, (s.slots g).outstanding = false) ∧
    (∀ a t, system.ReachableVia Counted s → step s a = some t →
      (CountsAll t ↔ Counted s a)) := by
  constructor
  · intro hs
    have hc := countsAll_reachable hs
    refine ⟨hc, fun f w t ht hready g => ?_⟩
    simp only [step, State.pollSource] at ht
    split at ht
    · split at ht <;> cases ht
      have hle : ¬0 < s.count := by simpa using hready
      by_contra hout
      rw [Bool.not_eq_false] at hout
      have hg := (inv_reachable hs.reachable).fresh.lt (f := g) (by
        intro hfree
        rw [hfree] at hout
        cases hout)
      have hpos := count_pos hg hout
      unfold CountsAll at hc
      omega
    · cases ht
  · intro a t hs ht
    exact countsAll_step (inv_reachable hs.reachable) (countsAll_reachable hs) ht

/-- Two handles, one of which has completed. -/
def twoHandles : List Act :=
  [.waitClone 0 5, .attach 1, .waitClone 1 6, .attach 2, .complete 1]

theorem waitGroup_counts_twoHandles :
    ∃ s, system.ReachableVia Counted s ∧ s.count = 1 ∧ CountsAll s := by
  obtain ⟨s, hs, hp⟩ := System.exists_of_runVia (M := system) Counted
    (P := fun s => s.count = 1) twoHandles (by decide)
  exact ⟨s, hs, hp, ((waitGroup_counts s).1 hs).1⟩

/-- A handle is cloned by `Clone::clone` and completes: the source is ready although
the handle it was cloned from has not completed. -/
theorem waitGroup_miscounts :
    ∃ s t, system.Reachable s ∧ ¬CountsAll s ∧ step s (.pollSource 0 9) = some t ∧
      t.lastPoll = some (9, false) ∧ (s.slots 1).outstanding = true := by
  obtain ⟨s, -, hs, hcount, hout, hpoll⟩ := System.exists_of_run (M := system)
    (P := fun s => ¬CountsAll s ∧ (s.slots 1).outstanding = true ∧
      (step s (.pollSource 0 9)).map State.lastPoll = some (some (9, false)))
    [.waitClone 0 5, .attach 1, .clone 1, .complete 2] (by decide)
  obtain ⟨t, ht, hready⟩ := Option.map_eq_some_iff.mp hpoll
  exact ⟨s, t, hs, hcount, ht, hready, hout⟩

/-- The task that executed the `wait_clone` behind a handle. -/
def Slot.creator : Slot → Option Waker
  | .handle h => some h.creator
  | _ => none

/-- The handles that count come from `wait_clone`. -/
def ByWaitClone (s : State) : Act → Prop
  | .clone f => (s.slots f).isSource = true
  | _ => True

instance (s : State) (a : Act) : Decidable (ByWaitClone s a) :=
  match a with
  | .clone f => inferInstanceAs (Decidable ((s.slots f).isSource = true))
  | .waitClone _ _ | .attach _ | .pollSource _ _ | .complete _ => isTrue trivial

/-- Moreover, a handle that brings the count to 0 while the source is pending was
created by the task that polled the source last. -/
def CreatorPolls (s : State) : Act → Prop
  | .clone f => (s.slots f).isSource = true
  | .complete f => wrap (s.count - 1) = 0 → s.lastPoll.map Prod.snd = some true →
      s.lastPoll.map Prod.fst = (s.slots f).creator
  | _ => True

instance (s : State) (a : Act) : Decidable (CreatorPolls s a) :=
  match a with
  | .clone f => inferInstanceAs (Decidable ((s.slots f).isSource = true))
  | .complete f => inferInstanceAs (Decidable (wrap (s.count - 1) = 0 →
      s.lastPoll.map Prod.snd = some true → s.lastPoll.map Prod.fst = (s.slots f).creator))
  | .waitClone _ _ | .attach _ | .pollSource _ _ => isTrue trivial

section Wake

variable {s t : State} {f : Nat} {a : Act} {w : Waker}

/-- An outstanding handle still has the waker that its `wait_clone` registered. -/
def WakersKept (s : State) : Prop :=
  ∀ f h, s.slots f = .handle h → h.source = false → h.completed = false →
    h.waker = some h.creator

theorem wakersKept_update {slots : Nat → Slot} {slot : Slot}
    (hk : ∀ f h, slots f = .handle h → h.source = false → h.completed = false →
      h.waker = some h.creator)
    (hslot : ∀ h, slot = .handle h → h.source = false → h.completed = false →
      h.waker = some h.creator) :
    ∀ g h, Function.update slots f slot g = .handle h → h.source = false →
      h.completed = false → h.waker = some h.creator := by
  intro g h
  rcases eq_or_ne g f with rfl | hne
  · rw [Function.update_self]
    exact hslot h
  · rw [Function.update_of_ne hne]
    exact hk g h

theorem wakersKept_step (hok : ByWaitClone s a) (h : WakersKept s) (ht : step s a = some t) :
    WakersKept t := by
  cases a with
  | waitClone f w =>
    simp only [step, State.waitClone] at ht
    split at ht <;> cases ht
    refine wakersKept_update h ?_
    intro hd heq
    cases heq
  | attach f =>
    simp only [step, State.attach] at ht
    split at ht <;> cases ht
    refine wakersKept_update h ?_
    intro hd heq _ _
    cases heq
    rfl
  | clone f =>
    simp only [step, State.clone] at ht
    split at ht <;> rename_i hslot <;> cases ht
    refine wakersKept_update h ?_
    intro hd heq hsource
    cases heq
    simp only [ByWaitClone, hslot, Slot.isSource] at hok
    rw [hok] at hsource
    cases hsource
  | pollSource f w =>
    simp only [step, State.pollSource] at ht
    split at ht
    · split at ht <;> cases ht
      exact h
    · cases ht
  | complete f =>
    simp only [step, State.complete] at ht
    split at ht
    · split at ht <;> cases ht
      refine wakersKept_update h ?_
      intro hd heq _ hopen
      cases heq
      cases hopen
    · cases ht

theorem wakersKept_reachable (hs : system.ReachableVia ByWaitClone s) : WakersKept s := by
  refine System.ReachableVia.invariant (M := system) ?_ (fun _ _ _ => wakersKept_step) hs
  refine wakersKept_update (fun f h heq => by cases heq) ?_
  intro hd heq hsource
  cases heq
  cases hsource

/-- The step that brings the count to 0 wakes the creator of the handle. -/
theorem complete_woke (h : WakersKept s) (ht : step s (.complete f) = some t)
    (hzero : t.count = 0) : t.woke = (s.slots f).creator := by
  simp only [step, State.complete] at ht
  split at ht
  · rename_i hd hslot
    split at ht <;> rename_i hlive <;> cases ht
    have hz : wrap (s.count - 1) = 0 := hzero
    push Not at hlive
    have hwaker := h f hd hslot (by simpa using hlive.1) (by simpa using hlive.2)
    simp only [hz, if_pos, hslot, Slot.creator]
    exact hwaker
  · cases ht

theorem missed_step (hok : CreatorPolls s a) (h : WakersKept s) (hm : s.missed = false)
    (ht : step s a = some t) : t.missed = false := by
  cases a with
  | waitClone f w =>
    simp only [step, State.waitClone] at ht
    split at ht <;> cases ht
    exact hm
  | attach f =>
    simp only [step, State.attach] at ht
    split at ht <;> cases ht
    exact hm
  | clone f =>
    simp only [step, State.clone] at ht
    split at ht <;> cases ht
    exact hm
  | pollSource f w =>
    simp only [step, State.pollSource] at ht
    split at ht
    · split at ht <;> cases ht
      exact hm
    · cases ht
  | complete f =>
    have hwoke := complete_woke h ht
    simp only [step, State.complete] at ht
    split at ht
    · split at ht <;> cases ht
      simp only [hm, Bool.false_or]
      split
      · rename_i w hpoll
        rw [decide_eq_false_iff_not]
        rintro ⟨hzero, hne⟩
        have hcreator := hok hzero (by rw [hpoll]; rfl)
        rw [hpoll] at hcreator
        exact hne ((hwoke hzero).trans hcreator.symm)
      · rfl
    · cases ht

end Wake

/-- In every run in which the handle that completes last was created by the task
that polls the source, that task is woken; and in a run of `wait_clone` handles the
step that brings the count to 0 wakes it if and only if that is so. -/
theorem waitGroup_wakes_source (s : State) :
    (system.ReachableVia CreatorPolls s → s.missed = false) ∧
    (∀ f t w, system.ReachableVia ByWaitClone s → step s (.complete f) = some t →
      t.count = 0 → s.lastPoll = some (w, true) →
      (t.woke = some w ↔ (s.slots f).creator = some w)) := by
  constructor
  · intro hs
    have h : WakersKept s ∧ s.missed = false := by
      refine System.ReachableVia.invariant (M := system)
        (I := fun s => WakersKept s ∧ s.missed = false)
        ⟨wakersKept_reachable .init, rfl⟩ ?_ hs
      intro s a t hok h ht
      refine ⟨wakersKept_step ?_ h.1 ht, missed_step hok h.1 h.2 ht⟩
      cases a with
      | clone f => exact hok
      | waitClone | attach | pollSource | complete => trivial
    exact h.2
  · intro f t w hs ht hzero _
    rw [complete_woke (wakersKept_reachable hs) ht hzero]

/-- Task 5 creates the handle and polls the source; the handle completes. -/
theorem waitGroup_wakes_source_creator :
    ∃ s, system.ReachableVia CreatorPolls s ∧ (s.lastPoll = some (5, true) ∧ s.woke = some 5) ∧
      s.missed = false := by
  obtain ⟨s, hs, hp⟩ := System.exists_of_runVia (M := system) CreatorPolls
    (P := fun s => s.lastPoll = some (5, true) ∧ s.woke = some 5)
    [.waitClone 0 5, .attach 1, .pollSource 0 5, .complete 1] (by decide)
  exact ⟨s, hs, hp, (waitGroup_wakes_source s).1 hs⟩

/-- Task 5 creates the handle and task 6 polls the source: task 5 is woken. -/
theorem waitGroup_misses_source :
    ∃ s t, system.ReachableVia ByWaitClone s ∧ s.lastPoll = some (6, true) ∧
      step s (.complete 1) = some t ∧ t.count = 0 ∧ t.woke ≠ some 6 := by
  obtain ⟨s, hs, hpoll, hstep⟩ := System.exists_of_runVia (M := system) ByWaitClone
    (P := fun s => s.lastPoll = some (6, true) ∧
      (step s (.complete 1)).map (fun t => (t.count, t.woke)) = some (0, some 5))
    [.waitClone 0 5, .attach 1, .pollSource 0 6] (by decide)
  obtain ⟨t, ht, heq⟩ := Option.map_eq_some_iff.mp hstep
  obtain ⟨hcount, hwoke⟩ := Prod.mk.inj heq
  refine ⟨s, t, hs, hpoll, ht, hcount, ?_⟩
  rw [hwoke]
  decide

end Cynthia.WaitGroup
