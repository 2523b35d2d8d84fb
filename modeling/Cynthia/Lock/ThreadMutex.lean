import Cynthia.Lock.MutexInv

/-! The blocking mutex, `platform/mutex/mutex.rs`: any number of threads that call
`lock` and `try_lock` and drop guards. It follows the async mutex, with a loop of
attempts in front and `listener.wait()` for `await`; but when a starved thread
finds the lock free and cannot take it, it does not notify anybody. -/

namespace Cynthia.Lock.ThreadMutex

open Transition Channels Census

/-- Where a call goes on after the drop of its listener. -/
inductive Next where
  | hold
  | starve
  | unstarve
  deriving DecidableEq, Repr

inductive Pc where
  | tryLock
  | lock
  /-- The loop `for step in 0..10`. -/
  | spin (step : Nat)
  | listen (starved : Bool)
  | check (starved : Bool)
  /-- Inside `listener.wait()`. -/
  | wait (starved : Bool)
  | recheck (starved : Bool)
  /-- In front of the `notify(1)` of the first loop. -/
  | owe
  | leave (next : Next)
  | starve
  | unstarve
  | holding
  | release
  | releaseNotify
  | done
  deriving DecidableEq, Repr

structure Shared where
  word : Nat
  lockOps : Event
  deriving DecidableEq, Repr

def Next.pc : Next → Pc
  | .hold => .holding
  | .starve => .starve
  | .unstarve => .unstarve

/-- The next step of the call `f`; a call that waits has none until it is notified.
`elapsed` is the answer of the clock. -/
def exec (sh : Shared) (f : Nat) (elapsed : Bool) : Pc → Option (Pc × Shared)
  | .tryLock => some <|
    if sh.word = 0 then (.holding, { sh with word := 1 }) else (.done, sh)
  | .lock => some <|
    if sh.word = 0 then (.holding, { sh with word := 1 }) else (.spin 0, sh)
  | .spin step => some <|
    if sh.word = 0 then (.holding, { sh with word := 1 })
    else if sh.word = 1 ∧ step + 1 < 10 then (.spin (step + 1), sh)
    else (.listen false, sh)
  | .listen starved => some (.check starved, { sh with lockOps := sh.lockOps.listen f })
  | .check false => some <|
    if sh.word = 0 then (.leave .hold, { sh with word := 1 })
    else if sh.word = 1 then (.wait false, sh)
    else (.leave .starve, sh)
  -- `Err(s)` does nothing for any `s`; the arm that notifies would need `Ok(s)` with `s ≠ 2`
  | .check true => some <|
    if sh.word = 2 then (.leave .unstarve, { sh with word := 2 ||| 1 }) else (.wait true, sh)
  | .wait starved =>
    if (f, true) ∈ sh.lockOps then
      some (.recheck starved, { sh with lockOps := sh.lockOps.remove f })
    else none
  | .recheck false => some <|
    if sh.word = 0 then (.holding, { sh with word := 1 })
    else if sh.word = 1 then (if elapsed then .starve else .listen false, sh)
    else (.owe, sh)
  | .recheck true => some
    (if sh.word % 2 = 0 then .unstarve else .listen true, { sh with word := sh.word ||| 1 })
  | .owe => some (.starve, { sh with lockOps := sh.lockOps.notify 1 })
  | .leave next => some (next.pc, { sh with lockOps := sh.lockOps.drop f })
  | .starve => some (.listen true, { sh with word := sh.word + 2 })
  | .unstarve => some (.holding, { sh with word := sh.word - 2 })
  | .release => some (.releaseNotify, { sh with word := sh.word - 1 })
  | .releaseNotify => some (.done, { sh with lockOps := sh.lockOps.notify 1 })
  | .holding | .done => none

structure State where
  sh : Shared
  started : Nat
  calls : Nat → Pc

/-- `Mutex::new`. -/
def State.new : State where
  sh := ⟨0, []⟩
  started := 0
  calls := fun _ => .done

inductive Act where
  | lock
  | tryLock
  | dropGuard (f : Nat)
  | step (f : Nat) (elapsed : Bool)
  deriving DecidableEq, Repr

def State.goto (s : State) (f : Nat) (pc : Pc) : State :=
  { s with calls := Function.update s.calls f pc }

def State.start (s : State) (pc : Pc) : State :=
  { s with started := s.started + 1, calls := Function.update s.calls s.started pc }

def step (s : State) : Act → Option State
  | .lock => some (s.start .lock)
  | .tryLock => some (s.start .tryLock)
  | .dropGuard f => if s.calls f = .holding then some (s.goto f .release) else none
  | .step f elapsed =>
    (exec s.sh f elapsed (s.calls f)).map fun r => { s.goto f r.1 with sh := r.2 }

def system : System State Act := ⟨.new, step⟩

/-- Outside `lock`, `lock_slow` and the drop of a guard. -/
def Pc.outside : Pc → Bool
  | .holding | .done => true
  | _ => false

/-- The lock is free, some call is in `listener.wait()`, all others are outside,
and none of those that wait is notified. -/
def Stuck (s : State) : Prop :=
  s.sh.word % 2 = 0 ∧ (∃ f starved, s.calls f = .wait starved) ∧
    ∀ f, (s.calls f).outside = true ∨
      (∃ starved, s.calls f = .wait starved) ∧ (f, true) ∉ s.sh.lockOps

/-- A starved thread that fails to take the lock behind `listen` finds it taken. -/
def TakenAtCheck (s : State) : Act → Prop
  | .step f _ => s.calls f = .check true → s.sh.word = 2 ∨ s.sh.word % 2 = 1
  | _ => True

instance (s : State) (a : Act) : Decidable (TakenAtCheck s a) :=
  match a with
  | .step f _ =>
    inferInstanceAs (Decidable (s.calls f = .check true → s.sh.word = 2 ∨ s.sh.word % 2 = 1))
  | .lock | .tryLock | .dropGuard _ => isTrue trivial

def Pc.holds : Pc → Bool
  | .leave .hold | .leave .unstarve | .unstarve | .holding | .release => true
  | _ => false

def Pc.starved : Pc → Bool
  | .listen starved | .check starved | .wait starved | .recheck starved => starved
  | .leave .unstarve | .unstarve => true
  | _ => false

def Pc.owns : Pc → Bool
  | .check _ | .wait _ | .leave _ => true
  | _ => false

def Pc.waits : Pc → Bool
  | .wait _ => true
  | _ => false

def Pc.busy : Pc → Bool
  | .recheck _ | .owe | .releaseNotify => true
  | _ => false

def Pc.role (pc : Pc) : Role := ⟨pc.owns, pc.waits, pc.busy⟩

def Inv (s : State) : Prop :=
  Intact .done Pc.starved Pc.holds Pc.role s.sh.word s.sh.lockOps s.started s.calls

section Exec

variable {sh sh' : Shared} {f n : Nat} {elapsed : Bool} {old pc : Pc} {calls : Nat → Pc}

theorem exec_word (hs : old.starved = true → 2 ≤ sh.word)
    (hh : old.holds = true → sh.word % 2 = 1)
    (he : exec sh f elapsed old = some (pc, sh')) :
    Follows Pc.starved Pc.holds sh.word old sh'.word pc := by
  unfold exec at he
  split at he
  all_goals try (rename Next => next; cases next)
  all_goals repeat' split at he
  all_goals simp only [Option.some.injEq, Prod.mk.injEq, reduceCtorEq] at he
  all_goals
    obtain ⟨rfl, rfl⟩ := he
    simp_all [Follows, Pc.starved, Pc.holds, Next.pc, Mutex.lor_one]
  all_goals omega

theorem waiting_exec (h : Waiting (sh.word % 2 = 0) Pc.role sh.lockOps calls)
    (htwo : (calls f).starved = true → 2 ≤ sh.word)
    (hok : calls f = .check true → sh.word = 2 ∨ sh.word % 2 = 1)
    (he : exec sh f elapsed (calls f) = some (pc, sh')) :
    Waiting (sh'.word % 2 = 0) Pc.role sh'.lockOps (Function.update calls f pc) := by
  cases hpc : calls f with
  | tryLock | lock =>
    simp only [hpc, exec, Option.some.injEq] at he
    split at he <;> cases he
    · exact h.keep (by rw [hpc]; rfl) (.inl (by simp))
    · exact h.frame id (by rw [hpc]; rfl)
  | spin step =>
    simp only [hpc, exec, Option.some.injEq] at he
    split at he
    · cases he
      exact h.keep (by rw [hpc]; rfl) (.inl (by simp))
    · split at he <;> cases he <;> exact h.frame id (by rw [hpc]; rfl)
  | listen starved =>
    simp only [hpc, exec, Option.some.injEq] at he
    cases he
    exact h.listen (by rw [hpc]; rfl) rfl
  | check starved =>
    cases starved <;> simp only [hpc, exec, Option.some.injEq] at he
    · split at he
      · cases he
        exact h.keep (by rw [hpc]; rfl) (.inl (by simp))
      · split at he <;> rename_i hone <;> cases he
        · exact h.keep (by rw [hpc]; rfl) (.inl (by simp [hone]))
        · exact h.frame id (by rw [hpc]; rfl)
    · split at he <;> rename_i htwo <;> cases he
      · exact h.keep (by rw [hpc]; rfl) (.inl (by simp))
      · -- the lock is free and nobody is told: excluded by the condition
        have hodd := (hok hpc).resolve_left htwo
        exact h.keep (by rw [hpc]; rfl) (.inl (by omega))
  | wait starved =>
    simp only [hpc, exec] at he
    split at he <;> cases he
    exact h.woken rfl
  | recheck starved =>
    cases starved <;> simp only [hpc, exec, Option.some.injEq] at he
    · split at he
      · cases he
        exact h.keep (by rw [hpc]; rfl) (.inl (by simp))
      · split at he <;> rename_i hone <;> cases he
        · refine h.keep ?_ (.inl (by simp [hone]))
          rw [hpc]
          cases elapsed <;> rfl
        · exact h.keep (by rw [hpc]; rfl) (.inr rfl)
    · cases he
      refine h.keep ?_ (.inl ?_)
      · rw [hpc]
        split <;> rfl
      · simp only [Mutex.lor_one]
        omega
  | owe | releaseNotify =>
    simp only [hpc, exec, Option.some.injEq] at he
    cases he
    exact h.notify (by rw [hpc]; rfl)
  | leave next =>
    simp only [hpc, exec, Option.some.injEq] at he
    cases he
    exact h.drop (by rw [hpc]; rfl) (by cases next <;> rfl)
  | starve =>
    simp only [hpc, exec, Option.some.injEq] at he
    cases he
    exact h.frame (by simp) (by rw [hpc]; rfl)
  | unstarve =>
    simp only [hpc, exec, Option.some.injEq] at he
    cases he
    rw [hpc] at htwo
    have hle := htwo rfl
    refine h.frame (fun heven => ?_) (by rw [hpc]; rfl)
    simp only at heven
    omega
  | release =>
    simp only [hpc, exec, Option.some.injEq] at he
    cases he
    exact h.keep (by rw [hpc]; rfl) (.inr rfl)
  | holding | done => simp [hpc, exec] at he

end Exec

section Step

variable {s t : State} {f : Nat} {pc : Pc}

theorem inv_new : Inv .new := .new rfl

theorem inv_start (h : Inv s) (hpc : pc = .lock ∨ pc = .tryLock) : Inv (s.start pc) := by
  rcases hpc with rfl | rfl <;> exact h.start rfl rfl rfl

theorem inv_dropGuard (h : Inv s) (hpc : s.calls f = .holding) : Inv (s.goto f .release) := by
  refine h.resume (h.fresh.lt (by simp [hpc])) ?_ ?_ ?_ ?_ ?_ <;> rw [hpc] <;> decide

theorem fresh_step {a : Act} (h : Fresh .done s.started s.calls) (ht : step s a = some t) :
    Fresh .done t.started t.calls := by
  cases a with
  | lock | tryLock =>
    cases ht
    exact h.start
  | dropGuard f =>
    simp only [step] at ht
    split at ht <;> rename_i hpc <;> cases ht
    exact h.update (h.lt (by simp [hpc]))
  | step f elapsed =>
    obtain ⟨⟨pc, sh⟩, he, rfl⟩ := Option.map_eq_some_iff.mp ht
    refine h.update (h.lt fun hpc => ?_)
    simp [hpc, exec] at he

theorem fresh_reachable (hs : system.Reachable s) : Fresh .done s.started s.calls :=
  System.Reachable.invariant (M := system) (I := fun s => Fresh .done s.started s.calls)
    (fun _ _ => rfl) (fun _ _ _ => fresh_step) hs

theorem inv_step {a : Act} (hok : TakenAtCheck s a) (h : Inv s) (ht : step s a = some t) :
    Inv t := by
  cases a with
  | lock =>
    cases ht
    exact inv_start h (.inl rfl)
  | tryLock =>
    cases ht
    exact inv_start h (.inr rfl)
  | dropGuard f =>
    simp only [step] at ht
    split at ht <;> cases ht
    exact inv_dropGuard h ‹_›
  | step f elapsed =>
    obtain ⟨⟨pc, sh⟩, he, rfl⟩ := Option.map_eq_some_iff.mp ht
    have hf : f < s.started := by
      apply h.fresh.lt
      intro hpc
      simp [hpc, exec] at he
    exact h.step hf (fun hs hh => exec_word hs hh he)
      (waiting_exec h.waiting (h.exact.two_le_of_starved hf) hok he)

theorem inv_reachable (hs : system.ReachableVia TakenAtCheck s) : Inv s :=
  System.ReachableVia.invariant (M := system) inv_new (fun _ _ _ => inv_step) hs

end Step

/-- As long as no starved thread finds the lock free and cannot take it, the
threads that wait are not forgotten. -/
theorem thread_mutex_not_stuck {s : State} (hs : system.ReachableVia TakenAtCheck s) :
    ¬Stuck s := by
  have h := inv_reachable hs
  rintro ⟨hfree, ⟨f, starved, hf⟩, hall⟩
  have hidle (g : Nat) : (s.calls g).busy = false := by
    rcases hall g with hout | ⟨⟨starved, hg⟩, -⟩
    · cases hg : s.calls g <;> simp_all [Pc.outside, Pc.busy]
    · rw [hg]
      rfl
  obtain ⟨g, hown, hmark⟩ := Intact.exists_notified h hfree hidle
    (f := f) (by rw [hf]; rfl) (by rw [hf]; rfl)
  rcases hall g with hout | ⟨-, hnot⟩
  · cases hg : s.calls g <;> simp_all [Pc.outside, Pc.owns, Pc.role]
  · exact hnot hmark

/-- Call 0 has the lock, call 1 waits and is notified by the release. -/
def releaseRun : List Act :=
  [.lock, .step 0 false, .lock, .step 1 false] ++ List.replicate 12 (.step 1 false) ++
    [.dropGuard 0, .step 0 false, .step 0 false]

theorem thread_mutex_not_stuck_release :
    ∃ s, system.ReachableVia TakenAtCheck s ∧
      (s.calls 1 = .wait false ∧ s.sh.word = 0 ∧ (1, true) ∈ s.sh.lockOps) ∧ ¬Stuck s := by
  obtain ⟨s, hs, hp⟩ := System.exists_of_runVia (M := system) TakenAtCheck
    (P := fun s => s.calls 1 = .wait false ∧ s.sh.word = 0 ∧ (1, true) ∈ s.sh.lockOps)
    releaseRun (by decide)
  exact ⟨s, hs, hp, thread_mutex_not_stuck hs⟩

/-- Two threads declare themselves starved while a third one has the lock; it is
released before they listen, and both wait for good. -/
def forgottenRun : List Act :=
  releaseRun ++
    [.tryLock, .step 2 false,
      -- call 1 is woken too late, and its clock has run out
      .step 1 false, .step 1 true, .step 1 false,
      .lock, .step 3 false, .step 3 false, .step 3 false, .step 3 false, .step 3 false,
      .step 3 false,
      .dropGuard 2, .step 2 false, .step 2 false,
      .step 1 false, .step 1 false, .step 3 false, .step 3 false]

theorem thread_mutex_stuck : ∃ s, system.Reachable s ∧ Stuck s := by
  obtain ⟨s, -, hs, hword, hwait, hall⟩ := System.exists_of_run (M := system)
    (P := fun s => s.sh.word = 4 ∧ s.calls 1 = .wait true ∧ ∀ f < s.started,
      (s.calls f).outside = true ∨ s.calls f = .wait true ∧ (f, true) ∉ s.sh.lockOps)
    forgottenRun (by decide)
  refine ⟨s, hs, by omega, ⟨1, true, hwait⟩, ?_⟩
  refine (fresh_reachable hs).forall (P := fun f pc => pc.outside = true ∨
    (∃ starved, pc = .wait starved) ∧ (f, true) ∉ s.sh.lockOps) (fun _ => .inl rfl) ?_
  intro f hf
  rcases hall f hf with hout | ⟨hpc, hnot⟩
  · exact .inl hout
  · exact .inr ⟨⟨true, hpc⟩, hnot⟩

end Cynthia.Lock.ThreadMutex
