import Cynthia.Lock.RwLock

/-! The reader-writer lock excludes through all conversions and cancellations. The
state word is again a count with a bit: readers, and one writer. That there is one
comes from the inner mutex, to which every call projects. -/

namespace Cynthia.Lock.RwLock

open Transition Channels Census

/-- `Exact` of the inner mutex, of the calls as the mutex sees them. -/
abbrev MutexExact (sh : Shared) (n : Nat) (calls : Nat → Pc) : Prop :=
  Exact Mutex.Pc.starved Mutex.Pc.holds sh.mutex.word n (Pc.mutexPc ∘ calls)

abbrev WordExact (sh : Shared) (n : Nat) (calls : Nat → Pc) : Prop :=
  Exact Pc.isReader Pc.isWriter sh.state n calls

structure Inv (s : State) : Prop where
  fresh : Fresh .done s.started s.calls
  mutex : MutexExact s.sh s.started s.calls
  word : WordExact s.sh s.started s.calls
  even : ∀ f blocking state, s.calls f = .readCas blocking state → state % 2 = 0
  alone : ∀ f, s.calls f = .writeGuard → s.sh.state = 1

section Places

variable {pc old : Pc} {sh sh' : Shared} {f n : Nat} {elapsed : Bool} {calls : Nat → Pc}

theorem mutexPc_of_isWriter (h : pc.isWriter = true) : pc.mutexPc = .holding := by
  cases pc <;> simp [Pc.isWriter] at h <;> rfl

theorem mutexPc_of_isUnique (h : pc.isUnique = true) : pc.mutexPc = .holding := by
  cases pc with
  | readSub reserved =>
    cases reserved with
    | true => rfl
    | false => cases h
  | _ => first | rfl | simp [Pc.isUnique] at h

theorem mutexPc_seen (blocking : Bool) (state : Nat) : (seen blocking state).mutexPc = .done := by
  unfold seen
  split
  · rfl
  · split <;> rfl

theorem isReader_seen (blocking : Bool) (state : Nat) :
    (seen blocking state).isReader = false := by
  unfold seen
  split
  · rfl
  · split <;> rfl

theorem isWriter_seen (blocking : Bool) (state : Nat) :
    (seen blocking state).isWriter = false := by
  unfold seen
  split
  · rfl
  · split <;> rfl

theorem even_of_seen {b blocking : Bool} {state state' : Nat}
    (h : seen b state = .readCas blocking state') : state' % 2 = 0 := by
  unfold seen at h
  split at h
  · cases h
    assumption
  · split at h <;> cases h

theorem seen_ne_writeGuard (blocking : Bool) (state : Nat) :
    seen blocking state ≠ .writeGuard := by
  unfold seen
  split
  · exact Pc.noConfusion
  · split <;> exact Pc.noConfusion

theorem mutexPc_locked (use : Use) (pc : Mutex.Pc) : (locked use pc).mutexPc = pc := by
  cases pc <;> first | rfl | (cases use <;> rfl)

theorem mutexPc_released (after : After) (pc : Mutex.Pc) : (released after pc).mutexPc = pc := by
  cases pc <;> first | rfl | (cases after <;> rfl)

/-- A step is one of the four kinds. -/
theorem exec_cases {r : Pc × Shared} (he : exec sh f elapsed pc = some r) :
    execRead sh f pc = some r ∨ execMutex sh f elapsed pc = some r ∨
      execHolder sh pc = some r ∨ execWait sh f pc = some r := by
  unfold exec at he
  cases h₁ : execRead sh f pc with
  | some r₁ =>
    rw [h₁] at he
    exact .inl he
  | none =>
    rw [h₁] at he
    cases h₂ : execMutex sh f elapsed pc with
    | some r₂ =>
      rw [h₂] at he
      exact .inr (.inl he)
    | none =>
      rw [h₂] at he
      cases h₃ : execHolder sh pc with
      | some r₃ =>
        rw [h₃] at he
        exact .inr (.inr (.inl he))
      | none =>
        rw [h₃] at he
        exact .inr (.inr (.inr he))

/-- To the inner mutex a step is one of its own steps, or the call keeps its place
in the state word of the mutex. -/
theorem exec_mutex (he : exec sh f elapsed old = some (pc, sh')) :
    Mutex.exec sh.mutex f elapsed old.mutexPc = some (pc.mutexPc, sh'.mutex) ∨
      sh'.mutex = sh.mutex ∧ pc.mutexPc.starved = old.mutexPc.starved ∧
        pc.mutexPc.holds = old.mutexPc.holds := by
  rcases exec_cases he with h | h | h | h
  · right
    unfold execRead at h
    split at h
    all_goals try (rename Bool => b; cases b)
    all_goals repeat' split at h
    all_goals simp only [Option.some.injEq, Prod.mk.injEq, reduceCtorEq] at h
    all_goals
      obtain ⟨rfl, rfl⟩ := h
      first | exact ⟨rfl, rfl, rfl⟩ | (rw [mutexPc_seen]; exact ⟨rfl, rfl, rfl⟩)
  · left
    unfold execMutex at h
    split at h
    · obtain ⟨r, hr, heq⟩ := Option.map_eq_some_iff.mp h
      cases heq
      rw [mutexPc_locked]
      exact hr
    · obtain ⟨r, hr, heq⟩ := Option.map_eq_some_iff.mp h
      cases heq
      rw [mutexPc_released]
      exact hr
    · cases h
  · right
    unfold execHolder at h
    split at h
    all_goals repeat' split at h
    all_goals simp only [Option.some.injEq, Prod.mk.injEq, reduceCtorEq] at h
    all_goals
      obtain ⟨rfl, rfl⟩ := h
      exact ⟨rfl, rfl, rfl⟩
  · right
    unfold execWait at h
    split at h
    all_goals repeat' split at h
    all_goals simp only [Option.some.injEq, Prod.mk.injEq, reduceCtorEq] at h
    all_goals
      obtain ⟨rfl, rfl⟩ := h
      exact ⟨rfl, rfl, rfl⟩

theorem mutexExact_exec (h : MutexExact sh n calls) (hf : f < n)
    (he : exec sh f elapsed (calls f) = some (pc, sh')) :
    MutexExact sh' n (Function.update calls f pc) := by
  unfold MutexExact
  rw [Function.comp_update]
  rcases exec_mutex he with hm | ⟨hm, hs, hh⟩
  · exact h.follow hf fun hs hh => Mutex.exec_word hs hh hm
  · rw [hm]
    exact Exact.frame h hf hs hh

theorem isReader_locked (use : Use) (pc : Mutex.Pc) : (locked use pc).isReader = false := by
  cases pc <;> first | rfl | (cases use <;> rfl)

theorem isWriter_locked (use : Use) (pc : Mutex.Pc) : (locked use pc).isWriter = false := by
  cases pc <;> first | rfl | (cases use <;> rfl)

theorem isReader_released (after : After) (pc : Mutex.Pc) :
    (released after pc).isReader = (Pc.unlocking after pc).isReader := by
  cases after <;> cases pc <;> rfl

theorem isWriter_released (after : After) (pc : Mutex.Pc) :
    (released after pc).isWriter = false := by
  cases after <;> cases pc <;> rfl

/-- What a step does to the word is what it does to the call. The holder of the
inner mutex who is not a writer finds the writer bit clear. -/
theorem exec_word (hr : old.isReader = true → 2 ≤ sh.state)
    (hw : old.isWriter = true → sh.state % 2 = 1)
    (hm : old.mutexPc = .holding → old.isWriter = false → sh.state % 2 = 0)
    (he : exec sh f elapsed old = some (pc, sh')) :
    sh'.state + 2 * old.isReader.toNat + old.isWriter.toNat =
        sh.state + 2 * pc.isReader.toNat + pc.isWriter.toNat ∧
      (pc.isWriter = true → old.isWriter = true ∨ sh.state % 2 = 0) := by
  rcases exec_cases he with h | h | h | h
  · unfold execRead at h
    split at h
    all_goals try (rename Bool => b; cases b)
    all_goals repeat' split at h
    all_goals simp only [Option.some.injEq, Prod.mk.injEq, reduceCtorEq] at h
    all_goals
      obtain ⟨rfl, rfl⟩ := h
      first
        | (rw [isReader_seen, isWriter_seen]; exact ⟨rfl, fun hc => Bool.noConfusion hc⟩)
        | simp_all [Pc.isReader, Pc.isWriter, dropped, ONE_READER]
  · unfold execMutex at h
    split at h
    · obtain ⟨r, hr, heq⟩ := Option.map_eq_some_iff.mp h
      cases heq
      rw [isReader_locked, isWriter_locked]
      exact ⟨rfl, fun hc => Bool.noConfusion hc⟩
    · obtain ⟨r, hr, heq⟩ := Option.map_eq_some_iff.mp h
      cases heq
      rw [isReader_released, isWriter_released]
      refine ⟨?_, fun hc => Bool.noConfusion hc⟩
      rename After => after
      cases after <;> rfl
    · cases h
  · unfold execHolder at h
    split at h
    all_goals try (rename After => after; cases after)
    all_goals repeat' split at h
    all_goals simp only [Option.some.injEq, Prod.mk.injEq, reduceCtorEq] at h
    all_goals
      obtain ⟨rfl, rfl⟩ := h
      simp_all [Pc.isReader, Pc.isWriter, Pc.mutexPc, ONE_READER, WRITER_BIT, Mutex.lor_one]
    all_goals omega
  · unfold execWait at h
    split at h
    all_goals repeat' split at h
    all_goals simp only [Option.some.injEq, Prod.mk.injEq, reduceCtorEq] at h
    all_goals
      obtain ⟨rfl, rfl⟩ := h
      exact ⟨rfl, fun _ => .inl rfl⟩

theorem exec_even {blocking : Bool} {state : Nat} (he : exec sh f elapsed old = some (pc, sh'))
    (hpc : pc = .readCas blocking state) : state % 2 = 0 := by
  subst hpc
  rcases exec_cases he with h | h | h | h
  · unfold execRead at h
    split at h
    all_goals repeat' split at h
    all_goals simp only [Option.some.injEq, Prod.mk.injEq, reduceCtorEq, false_and, dropped] at h
    all_goals first
      | exact even_of_seen h.1
      | (split at h <;> simp at h)
  · unfold execMutex at h
    split at h
    · obtain ⟨⟨mpc, m⟩, hr, heq⟩ := Option.map_eq_some_iff.mp h
      obtain ⟨heq, -⟩ := Prod.mk.inj heq
      rename Use => use
      cases mpc <;> cases use <;> cases heq
    · obtain ⟨⟨mpc, m⟩, hr, heq⟩ := Option.map_eq_some_iff.mp h
      obtain ⟨heq, -⟩ := Prod.mk.inj heq
      rename After => after
      cases mpc <;> cases after <;> cases heq
    · cases h
  · unfold execHolder at h
    split at h
    all_goals repeat' split at h
    all_goals simp at h
  · unfold execWait at h
    split at h
    all_goals repeat' split at h
    all_goals simp at h

/-- A write guard is returned only for the exact value of the word. -/
theorem exec_writeGuard (he : exec sh f elapsed old = some (.writeGuard, sh')) :
    sh'.state = 1 := by
  rcases exec_cases he with h | h | h | h
  · unfold execRead at h
    split at h
    all_goals repeat' split at h
    all_goals simp only [Option.some.injEq, Prod.mk.injEq, reduceCtorEq, false_and, dropped] at h
    all_goals first
      | exact absurd h.1 (seen_ne_writeGuard _ _)
      | (split at h <;> simp at h)
  · unfold execMutex at h
    split at h
    · obtain ⟨⟨mpc, m⟩, hr, heq⟩ := Option.map_eq_some_iff.mp h
      obtain ⟨heq, -⟩ := Prod.mk.inj heq
      rename Use => use
      cases mpc <;> cases use <;> cases heq
    · obtain ⟨⟨mpc, m⟩, hr, heq⟩ := Option.map_eq_some_iff.mp h
      obtain ⟨heq, -⟩ := Prod.mk.inj heq
      rename After => after
      cases mpc <;> cases after <;> cases heq
    · cases h
  · unfold execHolder at h
    split at h
    all_goals repeat' split at h
    all_goals simp only [Option.some.injEq, Prod.mk.injEq, reduceCtorEq, false_and] at h
    all_goals
      obtain ⟨-, rfl⟩ := h
      rfl
  · unfold execWait at h
    split at h
    all_goals repeat' split at h
    all_goals simp only [Option.some.injEq, Prod.mk.injEq, reduceCtorEq, false_and] at h
    obtain ⟨-, rfl⟩ := h
    assumption

/-- While the writer bit is set, only readers and the holder of the inner mutex
change the word. -/
theorem exec_state (hw : sh.state % 2 = 1) (hr : old.isReader = false)
    (hm : old.mutexPc ≠ .holding)
    (heven : ∀ blocking state, old = .readCas blocking state → state % 2 = 0)
    (he : exec sh f elapsed old = some (pc, sh')) : sh'.state = sh.state := by
  rcases exec_cases he with h | h | h | h
  · cases old with
    | readCas blocking state =>
      have hst := heven blocking state rfl
      simp only [execRead] at h
      split at h
      · cases h
      · split at h <;> cases h
        · omega
        · rfl
    | readSub reserved => cases hr
    | readAwait =>
      simp only [execRead, Option.some.injEq] at h
      split at h <;> cases h <;> rfl
    | readLoad | readListen | readCheck | readNotify | readReload | readLeave | readersNotify =>
      simp only [execRead, Option.some.injEq, Prod.mk.injEq] at h
      rw [← h.2]
    | _ => cases h
  · unfold execMutex at h
    split at h
    · obtain ⟨r, hr, heq⟩ := Option.map_eq_some_iff.mp h
      cases heq
      rfl
    · obtain ⟨r, hr, heq⟩ := Option.map_eq_some_iff.mp h
      cases heq
      rfl
    · cases h
  · cases old <;> first | exact absurd rfl hm | cases h
  · cases old <;> first | exact absurd rfl hm | cases h

/-- The user acts on a future or a guard: the call keeps its part of both words. -/
theorem apply_frame {o : Op} (h : old.apply o = some pc) :
    pc.mutexPc.starved = old.mutexPc.starved ∧ pc.mutexPc.holds = old.mutexPc.holds ∧
      pc.isReader = old.isReader ∧ pc.isWriter = old.isWriter ∧
      (∀ blocking state, pc ≠ .readCas blocking state) ∧ pc ≠ .writeGuard ∧ old ≠ .done := by
  have hmutex (use : Use) {mpc mpc' : Mutex.Pc} (hm : Mutex.Pc.Resumes mpc mpc') :
      (Pc.locking use mpc').mutexPc.starved = (Pc.locking use mpc).mutexPc.starved ∧
        (Pc.locking use mpc').mutexPc.holds = (Pc.locking use mpc).mutexPc.holds :=
    ⟨hm.frame.1, hm.frame.2.1⟩
  cases o
  case poll =>
    cases old with
    | locking use mpc =>
      obtain ⟨mpc', hm, rfl⟩ := Option.map_eq_some_iff.mp h
      obtain ⟨hs, hh⟩ := hmutex use (.inl hm)
      refine ⟨hs, hh, rfl, rfl, ?_, ?_, ?_⟩ <;> simp
    | readSuspended | writeSuspended =>
      cases h
      refine ⟨rfl, rfl, rfl, rfl, ?_, ?_, ?_⟩ <;> simp
    | _ => cases h
  case cancel =>
    cases old with
    | locking use mpc =>
      obtain ⟨mpc', hm, rfl⟩ := Option.map_eq_some_iff.mp h
      obtain ⟨hs, hh⟩ := hmutex use (.inr (.inl hm))
      refine ⟨hs, hh, rfl, rfl, ?_, ?_, ?_⟩ <;> simp
    | readSuspended | writeSuspended =>
      cases h
      refine ⟨rfl, rfl, rfl, rfl, ?_, ?_, ?_⟩ <;> simp
    | _ => cases h
  all_goals
    cases old <;> cases h
    all_goals refine ⟨rfl, rfl, rfl, rfl, ?_, ?_, ?_⟩ <;> simp

end Places

section Step

variable {s t : State} {f g : Nat} {pc : Pc}

theorem inv_new : Inv .new where
  fresh _ _ := rfl
  mutex := ⟨rfl, Nat.zero_le 1⟩
  word := ⟨rfl, Nat.zero_le 1⟩
  even _ _ _ h := by cases h
  alone _ h := by cases h

theorem Inv.lt_of_holding (h : Inv s) (hf : (s.calls f).mutexPc = .holding) : f < s.started := by
  apply h.fresh.lt
  intro hdone
  rw [hdone] at hf
  cases hf

/-- The inner mutex has one holder. -/
theorem Inv.holder_unique (h : Inv s) (hf : (s.calls f).mutexPc = .holding)
    (hg : (s.calls g).mutexPc = .holding) : f = g := by
  refine h.mutex.unique (h.lt_of_holding hf) (h.lt_of_holding hg) ?_ ?_
  · rw [Function.comp_apply, hf]
    rfl
  · rw [Function.comp_apply, hg]
    rfl

theorem Inv.odd_of_writer (h : Inv s) (hf : (s.calls f).isWriter = true) :
    s.sh.state % 2 = 1 :=
  h.word.odd_of_holds (h.lt_of_holding (mutexPc_of_isWriter hf)) hf

/-- A holder who is not a writer keeps writers away. -/
theorem Inv.even_of_holder (h : Inv s) (hf : (s.calls f).mutexPc = .holding)
    (hw : (s.calls f).isWriter = false) : s.sh.state % 2 = 0 := by
  by_contra hodd
  have hcount := h.word.odd_iff.mp (by omega)
  obtain ⟨g, -, hg⟩ := exists_of_count_pos (hcount ▸ Nat.one_pos)
  have heq := h.holder_unique hf (mutexPc_of_isWriter hg)
  rw [← heq, hw] at hg
  cases hg

theorem Inv.two_le_of_reader (h : Inv s) (hf : (s.calls f).isReader = true) :
    2 ≤ s.sh.state := by
  refine h.word.two_le_of_starved (h.fresh.lt ?_) hf
  intro hdone
  rw [hdone] at hf
  cases hf

theorem even_update (h : Inv s) (hpc : ∀ blocking state, pc = .readCas blocking state →
    state % 2 = 0) : ∀ g blocking state, Function.update s.calls f pc g = .readCas blocking state →
      state % 2 = 0 := by
  intro g blocking state
  rcases eq_or_ne g f with rfl | hne
  · rw [Function.update_self]
    exact hpc blocking state
  · rw [Function.update_of_ne hne]
    exact h.even g blocking state

theorem inv_exec {elapsed : Bool} {sh : Shared} (h : Inv s)
    (he : exec s.sh f elapsed (s.calls f) = some (pc, sh)) :
    Inv { s.goto f pc with sh := sh } := by
  have hf : f < s.started := by
    apply h.fresh.lt
    intro hdone
    rw [hdone] at he
    cases he
  refine ⟨h.fresh.update hf, mutexExact_exec h.mutex hf he, ?_, ?_, ?_⟩
  · obtain ⟨hword, hfree⟩ := exec_word h.two_le_of_reader h.odd_of_writer h.even_of_holder he
    exact h.word.move hf hword hfree
  · exact even_update h fun _ _ => exec_even he
  · intro g
    change Function.update s.calls f pc g = .writeGuard → sh.state = 1
    rcases eq_or_ne g f with rfl | hne
    · rw [Function.update_self]
      rintro rfl
      exact exec_writeGuard he
    · -- another call moves while `g` has its write guard
      rw [Function.update_of_ne hne]
      intro hg
      have hone := h.alone g hg
      rw [← hone]
      refine exec_state (by omega) ?_ ?_ (h.even f) he
      · by_contra hr
        have := h.two_le_of_reader (Bool.of_not_eq_false hr)
        omega
      · intro hm
        exact hne (h.holder_unique (by rw [hg]; rfl) hm)

theorem inv_apply {o : Op} (h : Inv s) (ha : (s.calls f).apply o = some pc) :
    Inv (s.goto f pc) := by
  obtain ⟨hs, hh, hr, hw, hcas, hguard, hne⟩ := apply_frame ha
  have hf := h.fresh.lt hne
  refine ⟨h.fresh.update hf, ?_, h.word.frame hf hr hw, ?_, ?_⟩
  · change MutexExact s.sh s.started (Function.update s.calls f pc)
    unfold MutexExact
    rw [Function.comp_update]
    exact Exact.frame h.mutex hf hs hh
  · exact even_update h fun blocking state heq => absurd heq (hcas blocking state)
  · intro g
    change Function.update s.calls f pc g = .writeGuard → s.sh.state = 1
    rcases eq_or_ne g f with rfl | hg
    · rw [Function.update_self]
      intro heq
      exact absurd heq hguard
    · rw [Function.update_of_ne hg]
      exact h.alone g

theorem inv_start {a : Act} (h : Inv s) (ha : a.entry = some pc) : Inv (s.start pc) := by
  have hentry : pc.mutexPc.starved = false ∧ pc.mutexPc.holds = false ∧ pc.isReader = false ∧
      pc.isWriter = false ∧ (∀ blocking state, pc ≠ .readCas blocking state) ∧
      pc ≠ .writeGuard := by
    cases a <;> cases ha <;> refine ⟨rfl, rfl, rfl, rfl, ?_, ?_⟩ <;> simp
  obtain ⟨hs, hh, hr, hw, hcas, hguard⟩ := hentry
  refine ⟨h.fresh.start, ?_, h.word.start hr hw, ?_, ?_⟩
  · change MutexExact s.sh (s.started + 1) (Function.update s.calls s.started pc)
    unfold MutexExact
    rw [Function.comp_update]
    exact Exact.start h.mutex hs hh
  · exact even_update h fun blocking state heq => absurd heq (hcas blocking state)
  · intro g
    change Function.update s.calls s.started pc g = .writeGuard → s.sh.state = 1
    rcases eq_or_ne g s.started with rfl | hg
    · rw [Function.update_self]
      intro heq
      exact absurd heq hguard
    · rw [Function.update_of_ne hg]
      exact h.alone g

/-- What a step of the system can be. -/
theorem step_cases {a : Act} (ht : step s a = some t) :
    (∃ pc, a.entry = some pc ∧ t = s.start pc) ∨
      (∃ f o pc, a = .op f o ∧ (s.calls f).apply o = some pc ∧ t = s.goto f pc) ∨
      ∃ f elapsed pc sh, a = .step f elapsed ∧
        exec s.sh f elapsed (s.calls f) = some (pc, sh) ∧ t = { s.goto f pc with sh := sh } := by
  cases a with
  | op f o =>
    obtain ⟨pc, ha, rfl⟩ := Option.map_eq_some_iff.mp ht
    exact .inr (.inl ⟨f, o, pc, rfl, ha, rfl⟩)
  | step f elapsed =>
    obtain ⟨⟨pc, sh⟩, he, rfl⟩ := Option.map_eq_some_iff.mp ht
    exact .inr (.inr ⟨f, elapsed, pc, sh, rfl, he, rfl⟩)
  | tryRead | read | tryUpgradableRead | upgradableRead | tryWrite | write =>
    cases ht
    exact .inl ⟨_, rfl, rfl⟩

theorem inv_step {a : Act} (h : Inv s) (ht : step s a = some t) : Inv t := by
  rcases step_cases ht with ⟨pc, ha, rfl⟩ | ⟨f, o, pc, -, ha, rfl⟩ |
    ⟨f, elapsed, pc, sh, -, he, rfl⟩
  · exact inv_start h ha
  · exact inv_apply h ha
  · exact inv_exec h he

theorem inv_reachable (hs : system.Reachable s) : Inv s :=
  System.Reachable.invariant (M := system) inv_new (fun _ _ _ => inv_step) hs

end Step

/-- The word counts the readers above the writer bit; the bit is set exactly while
one call that holds the inner mutex is a writer; at most one upgradable or write
guard exists; and a write guard with its caller excludes all readers. -/
theorem rwlock_excludes {s : State} (hs : system.Reachable s) :
    s.sh.state = 2 * count Pc.isReader s.started s.calls + s.sh.state % 2 ∧
      (s.sh.state % 2 = 1 ↔ ∃ f, (s.calls f).isWriter = true) ∧
      (∀ f, (s.calls f).isWriter = true → (s.calls f).mutexPc = .holding) ∧
      (∀ f g, (s.calls f).mutexPc = .holding → (s.calls g).mutexPc = .holding → f = g) ∧
      count Pc.isUnique s.started s.calls ≤ 1 ∧
      (∀ f, s.calls f = .writeGuard → ∀ g, (s.calls g).isReader = false) := by
  have h := inv_reachable hs
  refine ⟨?_, ?_, fun f => mutexPc_of_isWriter, fun f g => h.holder_unique, ?_, ?_⟩
  · have := h.word.div_eq
    omega
  · constructor
    · intro hodd
      have hcount := h.word.odd_iff.mp hodd
      obtain ⟨f, -, hf⟩ := exists_of_count_pos (hcount ▸ Nat.one_pos)
      exact ⟨f, hf⟩
    · rintro ⟨f, hf⟩
      exact h.odd_of_writer hf
  · have hle : count Pc.isUnique s.started s.calls ≤
        count Mutex.Pc.holds s.started (Pc.mutexPc ∘ s.calls) := by
      rw [count_comp]
      apply count_le_count
      intro pc hpc
      rw [mutexPc_of_isUnique hpc]
      rfl
    exact Nat.le_trans hle h.mutex.holds_le
  · intro f hf g
    have hone := h.alone f hf
    by_contra hr
    have := h.two_le_of_reader (Bool.of_not_eq_false hr)
    omega

/-- Call 0 has a read guard; call 1 takes an upgradable guard and upgrades it, and
is suspended. -/
def upgradeRun : List Act :=
  [.read, .step 0 false, .step 0 false, .upgradableRead, .step 1 false, .step 1 false,
    .step 1 false, .op 1 .upgrade, .step 1 false, .step 1 false, .step 1 false, .step 1 false,
    .step 1 false]

theorem rwlock_excludes_upgrade :
    ∃ s, system.Reachable s ∧ (s.calls 1 = .writeSuspended ∧ s.sh.state = 3) ∧
      s.sh.state = 2 * count Pc.isReader s.started s.calls + s.sh.state % 2 := by
  obtain ⟨s, -, hs, hp⟩ := System.exists_of_run (M := system)
    (P := fun s => s.calls 1 = .writeSuspended ∧ s.sh.state = 3) upgradeRun (by decide)
  exact ⟨s, hs, hp, (rwlock_excludes hs).1⟩

end Cynthia.Lock.RwLock
