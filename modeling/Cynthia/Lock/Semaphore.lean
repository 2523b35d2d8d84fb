import Cynthia.Lib.Census
import Cynthia.Lib.Transition
import Cynthia.Lock.Waiters

/-! The semaphore, `platform/lock/semaphore.rs`: any number of `acquire` and
`acquire_arc` futures, of `try_acquire` and `try_acquire_arc` calls and of guards.
A step is one operation on `count` or on the event. -/

namespace Cynthia.Lock.Semaphore

open Transition Channels Census

/-- The local `listener` of `acquire`; `used` is `None` again after it was awaited.
`absent` is for `try_acquire`, which has no such local. -/
inductive Listener where
  | absent
  | none
  | some
  | used
  deriving DecidableEq, Repr

inductive Pc where
  /-- In front of the load of `count` in `try_acquire`. -/
  | load (l : Listener)
  /-- In front of the compare-exchange from `count`, which is not 0. -/
  | cas (l : Listener) (count : Nat)
  | listen
  /-- In front of the poll of its listener. -/
  | await
  /-- Not polled at the moment: the last poll returned `Pending`. -/
  | suspended
  /-- In front of the drop of its listener. -/
  | leave (acquired : Bool)
  /-- The guard is with the caller. -/
  | holding
  | release
  | releaseNotify
  | done
  deriving DecidableEq, Repr

structure Shared where
  count : Nat
  event : Event
  deriving DecidableEq, Repr

/-- `try_acquire` has seen `count`: `None` for 0, else a compare-exchange. -/
def seen (l : Listener) (count : Nat) : Pc :=
  if count = 0 then
    match l with
    | .absent => .done
    | .none | .used => .listen
    | .some => .await
  else .cas l count

/-- The permit is taken; a listener that is left is dropped. -/
def acquired : Listener → Pc
  | .some => .leave true
  | .absent | .none | .used => .holding

/-- The next step of the call `f`. A weak compare-exchange may fail for no reason. -/
def exec (sh : Shared) (f : Nat) (spurious : Bool) : Pc → Option (Pc × Shared)
  | .load l => some (seen l sh.count, sh)
  | .cas l count => some <|
    if sh.count = count ∧ spurious = false then (acquired l, { sh with count := count - 1 })
    else (seen l sh.count, sh)
  | .listen => some (.load .some, { sh with event := sh.event.listen f })
  | .await => some <|
    if (f, true) ∈ sh.event then (.load .used, { sh with event := sh.event.remove f })
    else (.suspended, sh)
  | .leave acquired => some
    (if acquired then .holding else .done, { sh with event := sh.event.drop f })
  | .release => some (.releaseNotify, { sh with count := sh.count + 1 })
  | .releaseNotify => some (.done, { sh with event := sh.event.notify 1 })
  | .suspended | .holding | .done => none

structure State where
  sh : Shared
  started : Nat
  calls : Nat → Pc

/-- `Semaphore::new(n)`. -/
def State.new (n : Nat) : State where
  sh := ⟨n, []⟩
  started := 0
  calls := fun _ => .done

/-- The arc variants clone an `Arc` and take the same steps on the semaphore. -/
inductive Act where
  | acquire
  | acquireArc
  | tryAcquire
  | tryAcquireArc
  | poll (f : Nat)
  /-- The future is dropped at its await point. -/
  | cancel (f : Nat)
  /-- `Drop for SemaphoreGuard` and `Drop for SemaphoreGuardArc`. -/
  | dropGuard (f : Nat)
  | step (f : Nat) (spurious : Bool)
  deriving DecidableEq, Repr

def State.goto (s : State) (f : Nat) (pc : Pc) : State :=
  { s with calls := Function.update s.calls f pc }

def State.start (s : State) (pc : Pc) : State :=
  { s with started := s.started + 1, calls := Function.update s.calls s.started pc }

def step (s : State) : Act → Option State
  | .acquire | .acquireArc => some (s.start (.load .none))
  | .tryAcquire | .tryAcquireArc => some (s.start (.load .absent))
  | .poll f => if s.calls f = .suspended then some (s.goto f .await) else none
  | .cancel f => if s.calls f = .suspended then some (s.goto f (.leave false)) else none
  | .dropGuard f => if s.calls f = .holding then some (s.goto f .release) else none
  | .step f spurious =>
    (exec s.sh f spurious (s.calls f)).map fun r => { s.goto f r.1 with sh := r.2 }

def system (n : Nat) : System State Act := ⟨.new n, step⟩

/-- A guard exists: it is with the caller, about to be returned or about to be released. -/
def Pc.isGuard : Pc → Bool
  | .leave true | .holding | .release => true
  | _ => false

/-- Neither inside a poll nor inside the drop of a guard or of a future. -/
def Pc.atRest : Pc → Bool
  | .suspended | .holding | .done => true
  | _ => false

def Pc.owns : Pc → Bool
  | .load .some | .cas .some _ | .await | .suspended | .leave _ => true
  | _ => false

/-- The call has seen `count` at 0 and relies on a notification. -/
def Pc.waits : Pc → Bool
  | .await | .suspended => true
  | _ => false

/-- The call has used up a notification, or has to send one. -/
def Pc.busy : Pc → Bool
  | .load .used | .cas .used _ | .releaseNotify => true
  | _ => false

/-- A future that was woken takes the last permit, or leaves nobody unserved. -/
def TakesLast (s : State) : Act → Prop
  | .step f spurious => s.calls f = .cas .used s.sh.count → spurious = false →
      s.sh.count = 1 ∨ ¬Unserved Pc.waits Pc.busy s.sh.event s.started f s.calls
  | _ => True

instance (s : State) (a : Act) : Decidable (TakesLast s a) :=
  match a with
  | .step f spurious => inferInstanceAs (Decidable (s.calls f = .cas .used s.sh.count →
      spurious = false → s.sh.count = 1 ∨
        ¬Unserved Pc.waits Pc.busy s.sh.event s.started f s.calls))
  | .acquire | .acquireArc | .tryAcquire | .tryAcquireArc | .poll _ | .cancel _ | .dropGuard _ =>
    isTrue trivial

/-- What holds in every run; `n` is the initial count. -/
structure Inv (n : Nat) (s : State) : Prop where
  fresh : Fresh .done s.started s.calls
  positive : ∀ f l c, s.calls f = .cas l c → c ≠ 0
  permits : s.sh.count + count Pc.isGuard s.started s.calls = n
  registered : Registered Pc.owns s.sh.event s.calls

section Exec

variable {sh sh' : Shared} {f : Nat} {spurious : Bool} {old pc : Pc} {calls : Nat → Pc}
  {l : Listener} {c : Nat}

theorem seen_isGuard (l : Listener) (c : Nat) : (seen l c).isGuard = false := by
  unfold seen
  split
  · cases l <;> rfl
  · rfl

theorem seen_owns (l : Listener) (c : Nat) : (seen l c).owns = decide (l = .some) := by
  unfold seen
  split <;> cases l <;> rfl

/-- `seen` waits only behind a listener, and only for `count` at 0. -/
theorem seen_waits (h : (seen l c).waits = true) : l = .some ∧ c = 0 := by
  unfold seen at h
  split at h
  · rename_i hzero
    cases l <;> simp [Pc.waits] at h
    exact ⟨rfl, hzero⟩
  · cases h

theorem seen_eq_cas {l' : Listener} {c' : Nat} (h : seen l c = .cas l' c') : c' ≠ 0 := by
  unfold seen at h
  split at h
  · cases l <;> cases h
  · cases h
    assumption

theorem acquired_isGuard (l : Listener) : (acquired l).isGuard = true := by
  cases l <;> rfl

/-- What a step does to `count` is what it does to the call. -/
theorem exec_permits (hpos : ∀ l c, old = .cas l c → c ≠ 0)
    (he : exec sh f spurious old = some (pc, sh')) :
    sh'.count + pc.isGuard.toNat = sh.count + old.isGuard.toNat := by
  cases old with
  | load l =>
    simp only [exec, Option.some.injEq] at he
    cases he
    rw [seen_isGuard]
    rfl
  | cas l c =>
    have hc := hpos l c rfl
    simp only [exec, Option.some.injEq] at he
    split at he <;> rename_i heq <;> cases he
    · rw [acquired_isGuard]
      simp only [Pc.isGuard, Bool.toNat_true, Bool.toNat_false]
      omega
    · rw [seen_isGuard]
      rfl
  | listen | release | releaseNotify =>
    simp only [exec, Option.some.injEq] at he
    cases he
    rfl
  | await =>
    simp only [exec, Option.some.injEq] at he
    split at he <;> cases he <;> rfl
  | leave acquired =>
    simp only [exec, Option.some.injEq] at he
    cases he
    cases acquired <;> rfl
  | suspended | holding | done => simp [exec] at he

theorem exec_positive (he : exec sh f spurious old = some (pc, sh')) {l : Listener} {c : Nat}
    (hpc : pc = .cas l c) : c ≠ 0 := by
  subst hpc
  cases old with
  | load l =>
    simp only [exec, Option.some.injEq, Prod.mk.injEq] at he
    exact seen_eq_cas he.1
  | cas l c =>
    simp only [exec, Option.some.injEq] at he
    split at he <;> simp only [Prod.mk.injEq] at he
    · cases l <;> simp [acquired] at he
    · exact seen_eq_cas he.1
  | await =>
    simp only [exec, Option.some.injEq] at he
    split at he <;> cases he
  | leave acquired =>
    simp only [exec, Option.some.injEq] at he
    cases acquired <;> cases he
  | listen | release | releaseNotify | suspended | holding | done => simp [exec] at he

theorem registered_exec (h : Registered Pc.owns sh.event calls)
    (he : exec sh f spurious (calls f) = some (pc, sh')) :
    Registered Pc.owns sh'.event (Function.update calls f pc) := by
  cases hpc : calls f with
  | load l =>
    simp only [hpc, exec, Option.some.injEq] at he
    cases he
    exact h.frame rfl (by rw [hpc, seen_owns]; cases l <;> rfl)
  | cas l c =>
    simp only [hpc, exec, Option.some.injEq] at he
    split at he <;> cases he
    · exact h.frame rfl (by rw [hpc]; cases l <;> rfl)
    · exact h.frame rfl (by rw [hpc, seen_owns]; cases l <;> rfl)
  | listen =>
    simp only [hpc, exec, Option.some.injEq] at he
    cases he
    exact h.listen (by rw [hpc]; rfl) rfl
  | await =>
    simp only [hpc, exec, Option.some.injEq] at he
    split at he <;> cases he
    · exact h.remove rfl
    · exact h.frame rfl (by rw [hpc]; rfl)
  | leave acquired =>
    simp only [hpc, exec, Option.some.injEq] at he
    cases he
    exact h.drop (by cases acquired <;> rfl)
  | release =>
    simp only [hpc, exec, Option.some.injEq] at he
    cases he
    exact h.frame rfl (by rw [hpc]; rfl)
  | releaseNotify =>
    simp only [hpc, exec, Option.some.injEq] at he
    cases he
    exact h.frame (Event.map_fst_notify 1 _) (by rw [hpc]; rfl)
  | suspended | holding | done => simp [hpc, exec] at he

/-- `count` is looked at: a call starts to wait only while it is 0. -/
theorem covered_seen (hold : (calls f).busy = decide (l = .used))
    (h : Covered (0 < sh.count) Pc.waits Pc.busy sh.event calls) :
    Covered (0 < sh.count) Pc.waits Pc.busy sh.event
      (Function.update calls f (seen l sh.count)) := by
  by_cases hzero : sh.count = 0
  · exact .of_not (by omega)
  · refine h.frame id (fun hw => absurd (seen_waits hw).2 hzero) ?_
    rw [hold]
    intro hused
    cases of_decide_eq_true hused
    simp [seen, hzero, Pc.busy]

theorem covered_exec {s : State} (hok : TakesLast s (.step f spurious))
    (h : Covered (0 < s.sh.count) Pc.waits Pc.busy s.sh.event s.calls)
    (he : exec s.sh f spurious (s.calls f) = some (pc, sh')) :
    Covered (0 < sh'.count) Pc.waits Pc.busy sh'.event (Function.update s.calls f pc) := by
  cases hpc : s.calls f with
  | load l =>
    simp only [hpc, exec, Option.some.injEq] at he
    cases he
    exact covered_seen (by rw [hpc]; cases l <;> rfl) h
  | cas l c =>
    simp only [hpc, exec, Option.some.injEq] at he
    split at he <;> rename_i heq <;> cases he
    · obtain ⟨rfl, hsp⟩ := heq
      cases l with
      | used =>
        -- the one step that the condition is about: a woken future takes a permit
        rcases hok hpc hsp with hone | hserved
        · exact .of_not (by simp only; omega)
        · exact .of_served hserved rfl
      | absent | none | some =>
        refine h.frame (fun hlt => ?_) (by simp [acquired, Pc.waits]) (by simp [hpc, Pc.busy])
        simp only at hlt
        omega
    · exact covered_seen (by rw [hpc]; cases l <;> rfl) h
  | listen =>
    simp only [hpc, exec, Option.some.injEq] at he
    cases he
    exact h.listen id rfl (by simp [hpc, Pc.busy])
  | await =>
    simp only [hpc, exec, Option.some.injEq] at he
    split at he <;> cases he
    · exact .owed rfl
    · exact h.frame id (by simp [hpc, Pc.waits]) (by simp [hpc, Pc.busy])
  | leave acquired =>
    simp only [hpc, exec, Option.some.injEq] at he
    cases he
    exact h.drop id (by cases acquired <;> rfl) (by simp [hpc, Pc.busy])
  | release =>
    simp only [hpc, exec, Option.some.injEq] at he
    cases he
    exact .owed rfl
  | releaseNotify =>
    simp only [hpc, exec, Option.some.injEq] at he
    cases he
    exact .notify
  | suspended | holding | done => simp [hpc, exec] at he

end Exec

section Step

variable {n : Nat} {s t : State} {f : Nat} {pc : Pc}

theorem inv_new (n : Nat) : Inv n (.new n) where
  fresh _ _ := rfl
  positive _ _ _ h := by cases h
  permits := rfl
  registered := .empty fun _ => rfl

theorem positive_update (h : ∀ f l c, s.calls f = .cas l c → c ≠ 0)
    (hpc : ∀ l c, pc = .cas l c → c ≠ 0) :
    ∀ g l c, Function.update s.calls f pc g = .cas l c → c ≠ 0 := by
  intro g l c
  rcases eq_or_ne g f with rfl | hne
  · rw [Function.update_self]
    exact hpc l c
  · rw [Function.update_of_ne hne]
    exact h g l c

/-- A call moves without touching the semaphore. -/
theorem Inv.goto (h : Inv n s) (hf : f < s.started) (hpc : ∀ l c, pc = .cas l c → c ≠ 0)
    (hg : pc.isGuard = (s.calls f).isGuard) (ho : pc.owns = (s.calls f).owns) :
    Inv n (s.goto f pc) where
  fresh := h.fresh.update hf
  positive := positive_update h.positive hpc
  permits := by
    change s.sh.count + count Pc.isGuard s.started (Function.update s.calls f pc) = n
    rw [count_update_same _ hf hg]
    exact h.permits
  registered := h.registered.frame rfl ho

theorem inv_start (h : Inv n s) (l : Listener) (hl : l = .none ∨ l = .absent) :
    Inv n (s.start (.load l)) where
  fresh := h.fresh.start
  positive := positive_update h.positive (by simp)
  permits := by
    change s.sh.count + count Pc.isGuard (s.started + 1)
      (Function.update s.calls s.started (.load l)) = n
    rw [count_start]
    exact h.permits
  registered := by
    refine h.registered.frame rfl ?_
    rw [h.fresh _ (Nat.le_refl _)]
    rcases hl with rfl | rfl <;> rfl

theorem inv_step {a : Act} (h : Inv n s) (ht : step s a = some t) : Inv n t := by
  cases a with
  | acquire | acquireArc =>
    cases ht
    exact inv_start h .none (.inl rfl)
  | tryAcquire | tryAcquireArc =>
    cases ht
    exact inv_start h .absent (.inr rfl)
  | poll f | cancel f | dropGuard f =>
    simp only [step] at ht
    split at ht <;> rename_i hpc <;> cases ht
    exact h.goto (h.fresh.lt (by simp [hpc])) (by simp) (by rw [hpc]; rfl) (by rw [hpc]; rfl)
  | step f spurious =>
    obtain ⟨⟨pc, sh⟩, he, rfl⟩ := Option.map_eq_some_iff.mp ht
    have hf : f < s.started := by
      apply h.fresh.lt
      intro hpc
      simp [hpc, exec] at he
    refine ⟨h.fresh.update hf, ?_, ?_, registered_exec h.registered he⟩
    · exact positive_update h.positive fun l c => exec_positive he
    · have hcount := @count_update Pc Pc.isGuard s.started f s.calls pc hf
      have hexec := exec_permits (h.positive f) he
      have hold := h.permits
      change sh.count + count Pc.isGuard s.started (Function.update s.calls f pc) = n
      omega

theorem covered_step {a : Act} (hi : Inv n s) (hok : TakesLast s a)
    (h : Covered (0 < s.sh.count) Pc.waits Pc.busy s.sh.event s.calls)
    (ht : step s a = some t) :
    Covered (0 < t.sh.count) Pc.waits Pc.busy t.sh.event t.calls := by
  cases a with
  | acquire | acquireArc | tryAcquire | tryAcquireArc =>
    cases ht
    have hfree := hi.fresh _ (Nat.le_refl _)
    exact h.frame id (by simp [Pc.waits]) (by simp [hfree, Pc.busy])
  | poll f | cancel f | dropGuard f =>
    simp only [step] at ht
    split at ht <;> rename_i hpc <;> cases ht
    exact h.frame id (by simp [hpc, Pc.waits]) (by simp [hpc, Pc.busy])
  | step f spurious =>
    obtain ⟨⟨pc, sh⟩, he, rfl⟩ := Option.map_eq_some_iff.mp ht
    exact covered_exec hok h he

theorem inv_reachable (hs : (system n).Reachable s) : Inv n s :=
  System.Reachable.invariant (M := system n) (inv_new n) (fun _ _ _ => inv_step) hs

theorem covered_reachable (hs : (system n).ReachableVia TakesLast s) :
    Covered (0 < s.sh.count) Pc.waits Pc.busy s.sh.event s.calls := by
  have h : Inv n s ∧ Covered (0 < s.sh.count) Pc.waits Pc.busy s.sh.event s.calls := by
    refine System.ReachableVia.invariant (M := system n)
      (I := fun s => Inv n s ∧ Covered (0 < s.sh.count) Pc.waits Pc.busy s.sh.event s.calls)
      ⟨inv_new n, .empty⟩ ?_ hs
    intro s a t hok h ht
    exact ⟨inv_step h.1 ht, covered_step h.1 hok h.2 ht⟩
  exact h.2

end Step

/-- In a state at rest with a permit left and a future suspended, a suspended
future is notified. -/
def NoIdlePermit (s : State) : Prop :=
  (∀ f, (s.calls f).atRest = true) → 0 < s.sh.count → (∃ f, s.calls f = .suspended) →
    ∃ f, s.calls f = .suspended ∧ (f, true) ∈ s.sh.event

/-- Permits and guards add up to the initial count in every run, and no permit is
idle as long as a woken future leaves nobody unserved. -/
theorem semaphore_serves (n : Nat) :
    (∀ s, (system n).Reachable s →
      s.sh.count + count Pc.isGuard s.started s.calls = n) ∧
    (∀ s, (system n).ReachableVia TakesLast s → NoIdlePermit s) := by
  constructor
  · intro s hs
    exact (inv_reachable hs).permits
  · intro s hs hrest hcount hwait
    have h := inv_reachable hs.reachable
    obtain ⟨f, hf⟩ := hwait
    have hidle (g : Nat) : (s.calls g).busy = false := by
      have := hrest g
      cases hg : s.calls g <;> simp_all [Pc.atRest, Pc.busy]
    obtain ⟨g, hown, hmark⟩ := (covered_reachable hs).exists_notified h.registered hcount hidle
      (f := f) (by rw [hf]; rfl) (by rw [hf]; rfl)
    have hg := hrest g
    cases hpc : s.calls g with
    | suspended => exact ⟨g, hpc, hmark⟩
    | _ => simp_all [Pc.atRest, Pc.owns]

/-- One permit: call 0 takes it, call 1 waits, and the drop of the guard wakes it. -/
def handoverRun : List Act :=
  [.acquire, .step 0 false, .step 0 false, .acquire, .step 1 false, .step 1 false, .step 1 false,
    .step 1 false, .dropGuard 0, .step 0 false, .step 0 false]

theorem semaphore_serves_handover :
    ∃ s, (system 1).ReachableVia TakesLast s ∧
      (s.sh.count = 1 ∧ s.calls 1 = .suspended ∧ (1, true) ∈ s.sh.event) ∧ NoIdlePermit s := by
  obtain ⟨s, hs, hp⟩ := System.exists_of_runVia (M := system 1) TakesLast
    (P := fun s => s.sh.count = 1 ∧ s.calls 1 = .suspended ∧ (1, true) ∈ s.sh.event)
    handoverRun (by decide)
  exact ⟨s, hs, hp, (semaphore_serves 1).2 s hs⟩

/-- Two permits are released before the first future that waits runs; the second
`notify(1)` finds a notification under way and does nothing. -/
def twoReleasesRun : List Act :=
  [.acquire, .step 0 false, .step 0 false, .acquire, .step 1 false, .step 1 false,
    .acquire, .step 2 false, .step 2 false, .step 2 false, .step 2 false,
    .acquire, .step 3 false, .step 3 false, .step 3 false, .step 3 false,
    .dropGuard 0, .step 0 false, .step 0 false, .dropGuard 1, .step 1 false, .step 1 false,
    .poll 2, .step 2 false, .step 2 false, .step 2 false]

theorem semaphore_idle_permit : ∃ s, (system 2).Reachable s ∧ ¬NoIdlePermit s := by
  obtain ⟨s, -, hs, hcount, hwait, hevent, hall⟩ := System.exists_of_run (M := system 2)
    (P := fun s => s.sh.count = 1 ∧ s.calls 3 = .suspended ∧ s.sh.event = [(3, false)] ∧
      ∀ f < s.started, (s.calls f).atRest = true) twoReleasesRun (by decide)
  refine ⟨s, hs, fun hserved => ?_⟩
  have hrest := (inv_reachable hs).fresh.forall (P := fun _ pc => pc.atRest = true)
    (fun _ => rfl) hall
  obtain ⟨f, -, hmark⟩ := hserved hrest (by omega) ⟨3, hwait⟩
  simp [hevent] at hmark

end Cynthia.Lock.Semaphore
