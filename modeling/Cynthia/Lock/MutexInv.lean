import Cynthia.Lock.Intact
import Cynthia.Lock.Mutex

/-! The async mutex excludes, its state word is exact, and no wake-up is lost,
whichever futures are dropped at an await point. -/

namespace Cynthia.Lock.Mutex

open Transition Channels Census

/-- The call owns a listener of `lock_ops`. -/
def Pc.owns : Pc → Bool
  | .check _ | .await _ | .suspended _ | .owe true | .leave _ => true
  | _ => false

/-- The call has seen the lock taken and relies on a notification. -/
def Pc.waits : Pc → Bool
  | .await _ | .suspended _ => true
  | _ => false

/-- The call has used up a notification, or has to send one. -/
def Pc.busy : Pc → Bool
  | .recheck _ | .owe _ | .releaseNotify => true
  | _ => false

def Pc.role (pc : Pc) : Role := ⟨pc.owns, pc.waits, pc.busy⟩

def Inv (s : State) : Prop :=
  Intact .done Pc.starved Pc.holds Pc.role s.sh.word s.sh.lockOps s.started s.calls

section Exec

variable {sh sh' : Shared} {f n : Nat} {elapsed : Bool} {old pc : Pc} {calls : Nat → Pc}

/-- `fetch_or(1)`. -/
theorem lor_one (w : Nat) : w ||| 1 = 2 * (w / 2) + 1 := by
  have hdiv : (w ||| 1) / 2 = w / 2 := by
    rw [Nat.or_div_two]
    exact Nat.or_zero _
  have hmod : (w ||| 1) % 2 = 1 := by simp
  omega

theorem exec_word (hs : old.starved = true → 2 ≤ sh.word)
    (hh : old.holds = true → sh.word % 2 = 1)
    (he : exec sh f elapsed old = some (pc, sh')) :
    Follows Pc.starved Pc.holds sh.word old sh'.word pc := by
  unfold exec at he
  split at he
  all_goals try (rename Next => next; rcases next with _ | _ | ⟨_ | _⟩ | _)
  all_goals repeat' split at he
  all_goals simp only [Option.some.injEq, Prod.mk.injEq, reduceCtorEq] at he
  all_goals
    obtain ⟨rfl, rfl⟩ := he
    simp_all [Follows, Pc.starved, Pc.holds, Next.pc, lor_one]
  all_goals omega

theorem poll_eq_some :
    old.poll = some pc ↔ ∃ starved, old = .suspended starved ∧ pc = .await starved := by
  cases old <;> simp [Pc.poll, eq_comm]

theorem cancel_eq_some : old.cancel = some pc ↔ ∃ starved, old = .suspended starved ∧
    pc = .leave (if starved then .unstarve false else .done) := by
  cases old <;> simp [Pc.cancel, eq_comm]

theorem dropGuard_eq_some : old.dropGuard = some pc ↔ old = .holding ∧ pc = .release := by
  cases old <;> simp [Pc.dropGuard, eq_comm]

/-- The user polls or drops the future, or drops the guard: the call keeps its
part of the word and its listener. -/
def Pc.Resumes (old pc : Pc) : Prop :=
  old.poll = some pc ∨ old.cancel = some pc ∨ old.dropGuard = some pc

theorem Pc.Resumes.frame (h : Pc.Resumes old pc) :
    pc.starved = old.starved ∧ pc.holds = old.holds ∧ pc.owns = old.owns ∧
      (pc.waits = true → old.waits = true) ∧ old.busy = false ∧ old ≠ .done := by
  rcases h with h | h | h
  · obtain ⟨starved, rfl, rfl⟩ := poll_eq_some.mp h
    simp [Pc.starved, Pc.holds, Pc.owns, Pc.waits, Pc.busy]
  · obtain ⟨starved, rfl, rfl⟩ := cancel_eq_some.mp h
    cases starved <;> simp [Pc.starved, Pc.holds, Pc.owns, Pc.waits, Pc.busy]
  · obtain ⟨rfl, rfl⟩ := dropGuard_eq_some.mp h
    simp [Pc.starved, Pc.holds, Pc.owns, Pc.waits, Pc.busy]

theorem waiting_exec (h : Waiting (sh.word % 2 = 0) Pc.role sh.lockOps calls)
    (htwo : (calls f).starved = true → 2 ≤ sh.word)
    (he : exec sh f elapsed (calls f) = some (pc, sh')) :
    Waiting (sh'.word % 2 = 0) Pc.role sh'.lockOps (Function.update calls f pc) := by
  cases hpc : calls f with
  | tryLock | lock =>
    simp only [hpc, exec, Option.some.injEq] at he
    split at he <;> cases he
    · exact h.keep (by rw [hpc]; rfl) (.inl (by simp))
    · exact h.frame id (by rw [hpc]; rfl)
  | listen starved =>
    simp only [hpc, exec, Option.some.injEq] at he
    cases he
    exact h.listen (by rw [hpc]; rfl) rfl
  | check starved =>
    cases starved <;> simp only [hpc, exec, Option.some.injEq] at he
    · split at he
      · cases he
        exact h.keep (by rw [hpc]; rfl) (.inl (by simp))
      · split at he <;> rename_i hone <;> cases he
        · exact h.keep (by rw [hpc]; rfl) (.inl (by simp [hone]))
        · exact h.frame id (by rw [hpc]; rfl)
    · split at he
      · cases he
        exact h.keep (by rw [hpc]; rfl) (.inl (by simp))
      · split at he <;> rename_i hodd <;> cases he
        · exact h.keep (by rw [hpc]; rfl) (.inl (by omega))
        · exact h.keep (by rw [hpc]; rfl) (.inr rfl)
  | await starved =>
    simp only [hpc, exec, Option.some.injEq] at he
    split at he <;> cases he
    · exact h.woken rfl
    · exact h.frame id (by rw [hpc]; rfl)
  | recheck starved =>
    cases starved <;> simp only [hpc, exec, Option.some.injEq] at he
    · split at he
      · cases he
        exact h.keep (by rw [hpc]; rfl) (.inl (by simp))
      · split at he <;> rename_i hone <;> cases he
        · refine h.keep ?_ (.inl (by simp [hone]))
          rw [hpc]
          cases elapsed <;> rfl
        · exact h.keep (by rw [hpc]; rfl) (.inr rfl)
    · cases he
      refine h.keep ?_ (.inl ?_)
      · rw [hpc]
        split <;> rfl
      · simp only [lor_one]
        omega
  | owe starved =>
    simp only [hpc, exec, Option.some.injEq] at he
    cases he
    exact h.notify (by rw [hpc]; cases starved <;> rfl)
  | leave next =>
    simp only [hpc, exec, Option.some.injEq] at he
    cases he
    exact h.drop (by rw [hpc]; rfl) (by cases next <;> rfl)
  | starve =>
    simp only [hpc, exec] at he
    split at he <;> cases he
    exact h.frame (by simp) (by rw [hpc]; rfl)
  | unstarve acquired =>
    simp only [hpc, exec, Option.some.injEq] at he
    cases he
    rw [hpc] at htwo
    have hle := htwo rfl
    refine h.frame (fun heven => ?_) (by rw [hpc]; cases acquired <;> rfl)
    simp only at heven
    omega
  | release =>
    simp only [hpc, exec, Option.some.injEq] at he
    cases he
    exact h.keep (by rw [hpc]; rfl) (.inr rfl)
  | releaseNotify =>
    simp only [hpc, exec, Option.some.injEq] at he
    cases he
    exact h.notify (by rw [hpc]; rfl)
  | suspended starved | holding | done => simp [hpc, exec] at he

end Exec

section Step

variable {s t : State} {f : Nat} {pc : Pc}

theorem inv_new : Inv .new := .new rfl

theorem inv_start (h : Inv s) (hpc : pc = .lock ∨ pc = .tryLock) : Inv (s.start pc) := by
  rcases hpc with rfl | rfl <;> exact h.start rfl rfl rfl

theorem inv_resume (h : Inv s) (he : Pc.Resumes (s.calls f) pc) : Inv (s.goto f pc) := by
  obtain ⟨hs, hh, ho, hw, hb, hne⟩ := he.frame
  exact h.resume (h.fresh.lt hne) hs hh ho hw hb

/-- A call that is over locks again. -/
theorem inv_relock (h : Inv s) (hf : f < s.started) (hdone : s.calls f = .done) :
    Inv (s.goto f .lock) := by
  refine h.resume hf ?_ ?_ ?_ ?_ ?_ <;> rw [hdone] <;> decide

theorem inv_step {a : Act} (h : Inv s) (ht : step s a = some t) : Inv t := by
  cases a with
  | lock | lockArc =>
    cases ht
    exact inv_start h (.inl rfl)
  | tryLock | tryLockArc =>
    cases ht
    exact inv_start h (.inr rfl)
  | poll f =>
    obtain ⟨pc, he, rfl⟩ := Option.map_eq_some_iff.mp ht
    exact inv_resume h (.inl he)
  | cancel f =>
    obtain ⟨pc, he, rfl⟩ := Option.map_eq_some_iff.mp ht
    exact inv_resume h (.inr (.inl he))
  | dropGuard f =>
    obtain ⟨pc, he, rfl⟩ := Option.map_eq_some_iff.mp ht
    exact inv_resume h (.inr (.inr he))
  | step f elapsed =>
    obtain ⟨⟨pc, sh⟩, he, rfl⟩ := Option.map_eq_some_iff.mp ht
    have hf : f < s.started := by
      apply h.fresh.lt
      intro hpc
      simp [hpc, exec] at he
    exact h.step hf (fun hs hh => exec_word hs hh he)
      (waiting_exec h.waiting (h.exact.two_le_of_starved hf) he)

theorem inv_reachable (hs : system.Reachable s) : Inv s :=
  System.Reachable.invariant (M := system) inv_new (fun _ _ _ => inv_step) hs

end Step

/-- At most one guard exists; the word is odd exactly while some call has the
lock, and its other bits count the starved calls; when nothing is left it is 0. -/
theorem mutex_word_exact {s : State} (hs : system.Reachable s) :
    count Pc.isGuard s.started s.calls ≤ 1 ∧
      (s.sh.word % 2 = 1 ↔ ∃ f, (s.calls f).holds = true) ∧
      (∀ f g, (s.calls f).holds = true → (s.calls g).holds = true → f = g) ∧
      s.sh.word / 2 = count Pc.starved s.started s.calls ∧
      ((∀ f, s.calls f = .done) → s.sh.word = 0) := by
  have h := inv_reachable hs
  have hlt (f : Nat) (hf : (s.calls f).holds = true) : f < s.started := by
    apply h.fresh.lt
    intro hdone
    simp [hdone, Pc.holds] at hf
  refine ⟨?_, ?_, ?_, h.exact.div_eq, ?_⟩
  · have hle : count Pc.isGuard s.started s.calls ≤ count Pc.holds s.started s.calls := by
      apply count_le_count
      intro pc hpc
      cases pc <;> simp_all [Pc.isGuard, Pc.holds]
    exact Nat.le_trans hle h.exact.holds_le
  · constructor
    · intro hodd
      rw [h.exact.odd_iff] at hodd
      obtain ⟨f, _, hf⟩ := exists_of_count_pos (hodd ▸ Nat.one_pos)
      exact ⟨f, hf⟩
    · rintro ⟨f, hf⟩
      exact h.exact.odd_of_holds (hlt f hf) hf
  · intro f g hf hg
    exact h.exact.unique (hlt f hf) (hlt g hg) hf hg
  · intro hdone
    rw [h.exact.word_eq, count_eq_zero fun f _ => by rw [hdone f]; rfl,
      count_eq_zero fun f _ => by rw [hdone f]; rfl]

/-- Call 0 holds the lock, call 1 is starved and suspended: it was woken while a
`try_lock` had the lock, and its clock had run out. -/
def starvedRun : List Act :=
  [.lock, .step 0 false, .lock, .step 1 false, .step 1 false, .step 1 false, .step 1 false,
    .dropGuard 0, .step 0 false, .step 0 false, .tryLock, .step 2 false,
    .poll 1, .step 1 false, .step 1 true, .step 1 false, .step 1 false, .step 1 false,
    .step 1 false]

theorem mutex_word_exact_starved :
    ∃ s, system.Reachable s ∧ (s.calls 1 = .suspended true ∧ s.sh.word = 3) ∧
      s.sh.word / 2 = count Pc.starved s.started s.calls := by
  obtain ⟨s, -, hs, hp⟩ := System.exists_of_run (M := system)
    (P := fun s => s.calls 1 = .suspended true ∧ s.sh.word = 3) starvedRun (by decide)
  exact ⟨s, hs, hp, (mutex_word_exact hs).2.2.2.1⟩

/-- A suspended call is notified, in every state that keeps the invariant. -/
theorem Inv.exists_notified {s : State} (h : Inv s) (hrest : ∀ f, (s.calls f).atRest = true)
    (hfree : s.sh.word % 2 = 0) (hwait : ∃ f starved, s.calls f = .suspended starved) :
    ∃ f starved, s.calls f = .suspended starved ∧ (f, true) ∈ s.sh.lockOps := by
  obtain ⟨f, starved, hf⟩ := hwait
  have hidle (g : Nat) : (s.calls g).busy = false := by
    have := hrest g
    cases hg : s.calls g <;> simp_all [Pc.atRest, Pc.busy]
  obtain ⟨g, hown, hmark⟩ := Intact.exists_notified h hfree hidle
    (f := f) (by rw [hf]; rfl) (by rw [hf]; rfl)
  have hg := hrest g
  cases hpc : s.calls g with
  | suspended starved => exact ⟨g, starved, hpc, hmark⟩
  | _ => simp_all [Pc.atRest, Pc.owns, Pc.role]

/-- No call is inside a poll or a drop, the lock is free, and a `lock` future is
suspended: then a suspended one is notified. -/
theorem mutex_no_lost_wakeup {s : State} (hs : system.Reachable s)
    (hrest : ∀ f, (s.calls f).atRest = true) (hfree : s.sh.word % 2 = 0)
    (hwait : ∃ f starved, s.calls f = .suspended starved) :
    ∃ f starved, s.calls f = .suspended starved ∧ (f, true) ∈ s.sh.lockOps :=
  (inv_reachable hs).exists_notified hrest hfree hwait

/-- A release wakes the future that is suspended. -/
def releaseRun : List Act :=
  [.lock, .step 0 false, .lock, .step 1 false, .step 1 false, .step 1 false, .step 1 false,
    .dropGuard 0, .step 0 false, .step 0 false]

theorem mutex_no_lost_wakeup_release :
    ∃ s, system.Reachable s ∧ ∃ f starved, s.calls f = .suspended starved ∧
      (f, true) ∈ s.sh.lockOps := by
  obtain ⟨s, -, hs, hone, hfree, hcalls⟩ := System.exists_of_run (M := system)
    (P := fun s => s.started = 2 ∧ s.sh.word % 2 = 0 ∧ s.calls 0 = .done ∧
      s.calls 1 = .suspended false) releaseRun (by decide)
  refine ⟨s, hs, mutex_no_lost_wakeup hs ?_ hfree ⟨1, false, hcalls.2⟩⟩
  refine (inv_reachable hs).fresh.forall (P := fun _ pc => pc.atRest = true) (fun _ => rfl) ?_
  intro f hlt
  obtain rfl | rfl : f = 0 ∨ f = 1 := by omega
  · rw [hcalls.1]
    rfl
  · rw [hcalls.2]
    rfl

end Cynthia.Lock.Mutex
