import Cynthia.Lock.RwLockInv

/-! Who waits for the two events of the reader-writer lock is woken: readers when
the writer bit is clear, writers when the last reader is gone. -/

namespace Cynthia.Lock.RwLock

open Transition Channels Census

/-- The part of a place for `no_writer`. -/
def Pc.asReader : Pc → Role
  | .readCheck | .readReload true | .readLeave _ => ⟨true, false, false⟩
  | .readAwait | .readSuspended => ⟨true, true, false⟩
  | .readNotify | .writerNotify _ => ⟨false, false, true⟩
  | _ => .none

/-- The part of a place for `no_readers`. -/
def Pc.asWriter : Pc → Role
  | .writeCheck | .writeLeave _ => ⟨true, false, false⟩
  | .writeAwait | .writeSuspended => ⟨true, true, false⟩
  | .readersNotify _ => ⟨false, false, true⟩
  | _ => .none

/-- The invariant of `no_writer`. -/
abbrev ReadersWait (sh : Shared) (calls : Nat → Pc) : Prop :=
  Waiting (sh.state % 2 = 0) Pc.asReader sh.noWriter calls

/-- The invariant of `no_readers`. -/
abbrev WritersWait (sh : Shared) (calls : Nat → Pc) : Prop :=
  Waiting (sh.state < 2) Pc.asWriter sh.noReaders calls

/-- `downgrade_to_upgradable` clears the writer bit only while no reader that waits
is left unserved. -/
def ReadersServed (s : State) : Act → Prop
  | .step f _ => s.calls f = .downgradeUpAdd →
      ¬Unserved (fun pc => pc.asReader.waits) (fun pc => pc.asReader.busy) s.sh.noWriter
        s.started f s.calls
  | _ => True

instance (s : State) (a : Act) : Decidable (ReadersServed s a) :=
  match a with
  | .step f _ => inferInstanceAs (Decidable (s.calls f = .downgradeUpAdd →
      ¬Unserved (fun pc => pc.asReader.waits) (fun pc => pc.asReader.busy) s.sh.noWriter
        s.started f s.calls))
  | .tryRead | .read | .tryUpgradableRead | .upgradableRead | .tryWrite | .write | .op _ _ =>
    isTrue trivial

section Places

variable {pc old : Pc}

theorem asReader_seen (blocking : Bool) (state : Nat) : (seen blocking state).asReader = .none := by
  unfold seen
  split
  · rfl
  · split <;> rfl

theorem asWriter_seen (blocking : Bool) (state : Nat) : (seen blocking state).asWriter = .none := by
  unfold seen
  split
  · rfl
  · split <;> rfl

theorem asReader_dropped (reserved : Bool) : (dropped reserved).asReader = .none := by
  cases reserved <;> rfl

theorem asWriter_dropped (reserved : Bool) : (dropped reserved).asWriter = .none := by
  cases reserved <;> rfl

theorem roles_locked (use : Use) (pc : Mutex.Pc) :
    (locked use pc).asReader = .none ∧ (locked use pc).asWriter = .none := by
  cases pc <;> cases use <;> exact ⟨rfl, rfl⟩

theorem roles_released (after : After) (pc : Mutex.Pc) :
    (released after pc).asReader = .none ∧ (released after pc).asWriter = .none := by
  cases pc <;> cases after <;> exact ⟨rfl, rfl⟩

/-- Only a writer waits for `no_readers`. -/
theorem isWriter_of_owns (h : pc.asWriter.owns = true) : pc.isWriter = true := by
  cases pc <;> first | rfl | cases h

theorem isWriter_of_waits (h : pc.asWriter.waits = true) : pc.isWriter = true := by
  cases pc <;> first | rfl | cases h

/-- The user's operations neither start a wait nor lose a listener. -/
theorem apply_roles {o : Op} (h : old.apply o = some pc) :
    (pc.asReader.owns = old.asReader.owns ∧
        (pc.asReader.waits = true → old.asReader.waits = true) ∧ old.asReader.busy = false) ∧
      pc.asWriter.owns = old.asWriter.owns ∧
        (pc.asWriter.waits = true → old.asWriter.waits = true) ∧ old.asWriter.busy = false := by
  cases o
  case poll | cancel =>
    cases old with
    | locking use mpc =>
      obtain ⟨mpc', hm, rfl⟩ := Option.map_eq_some_iff.mp h
      exact ⟨⟨rfl, id, rfl⟩, rfl, id, rfl⟩
    | readSuspended =>
      cases h
      exact ⟨⟨rfl, fun _ => rfl, rfl⟩, rfl, id, rfl⟩
    | writeSuspended =>
      cases h
      exact ⟨⟨rfl, id, rfl⟩, rfl, fun _ => rfl, rfl⟩
    | _ => cases h
  all_goals
    cases old <;> cases h
    all_goals exact ⟨⟨rfl, id, rfl⟩, rfl, id, rfl⟩

end Places

section Readers

variable {s : State} {sh : Shared} {f : Nat} {elapsed : Bool} {pc : Pc}

theorem readers_execRead (hi : Inv s) (h : ReadersWait s.sh s.calls)
    (he : execRead s.sh f (s.calls f) = some (pc, sh)) :
    ReadersWait sh (Function.update s.calls f pc) := by
  cases hpc : s.calls f with
  | readLoad blocking =>
    simp only [hpc, execRead, Option.some.injEq] at he
    cases he
    exact h.frame id (by rw [hpc, asReader_seen]; rfl)
  | readCas blocking state =>
    simp only [hpc, execRead] at he
    split at he
    · cases he
    · split at he <;> rename_i heq <;> cases he
      · refine h.frame ?_ (by rw [hpc]; rfl)
        simp only [ONE_READER]
        omega
      · exact h.frame id (by rw [hpc, asReader_seen]; rfl)
  | readListen =>
    simp only [hpc, execRead, Option.some.injEq] at he
    cases he
    exact h.listen (by rw [hpc]; rfl) rfl
  | readCheck =>
    simp only [hpc, execRead, Option.some.injEq] at he
    cases he
    split
    · exact h.keep (by rw [hpc]; rfl) (.inl (by omega))
    · exact h.frame id (by rw [hpc]; rfl)
  | readAwait =>
    simp only [hpc, execRead, Option.some.injEq] at he
    split at he <;> cases he
    · exact h.woken rfl
    · exact h.frame id (by rw [hpc]; rfl)
  | readNotify =>
    simp only [hpc, execRead, Option.some.injEq] at he
    cases he
    exact h.notify (by rw [hpc]; rfl)
  | readReload listening =>
    simp only [hpc, execRead, Option.some.injEq] at he
    cases he
    cases listening with
    | true => exact h.frame id (by rw [hpc]; rfl)
    | false =>
      refine h.frame id ?_
      rw [hpc]
      exact asReader_seen true s.sh.state
  | readLeave state =>
    simp only [hpc, execRead, Option.some.injEq] at he
    cases he
    refine h.drop (by rw [hpc]; rfl) ?_
    cases state with
    | none => rfl
    | some state => exact asReader_seen true state
  | readSub reserved =>
    have htwo := hi.two_le_of_reader (f := f) (by rw [hpc]; rfl)
    simp only [hpc, execRead, Option.some.injEq] at he
    cases he
    refine h.frame ?_ ?_
    · simp only [ONE_READER]
      omega
    · rw [hpc]
      split
      · rfl
      · exact asReader_dropped reserved
  | readersNotify reserved =>
    simp only [hpc, execRead, Option.some.injEq] at he
    cases he
    exact h.frame id (by rw [hpc, asReader_dropped]; rfl)
  | _ => simp [hpc, execRead] at he

theorem readers_execHolder (hi : Inv s) (h : ReadersWait s.sh s.calls)
    (hok : s.calls f = .downgradeUpAdd →
      ¬Unserved (fun pc => pc.asReader.waits) (fun pc => pc.asReader.busy) s.sh.noWriter
        s.started f s.calls)
    (he : execHolder s.sh (s.calls f) = some (pc, sh)) :
    ReadersWait sh (Function.update s.calls f pc) := by
  cases hpc : s.calls f with
  | upLoad =>
    simp only [hpc, execHolder] at he
    split at he <;> cases he
    exact h.frame id (by rw [hpc]; rfl)
  | upCas state =>
    simp only [hpc, execHolder, Option.some.injEq] at he
    split at he <;> rename_i heq <;> cases he
    · refine h.frame ?_ (by rw [hpc]; rfl)
      simp only [ONE_READER]
      omega
    · exact h.frame id (by rw [hpc]; rfl)
  | tryWriteCas | tryUpgradeCas =>
    simp only [hpc, execHolder, Option.some.injEq] at he
    split at he <;> cases he
    · exact h.keep (by rw [hpc]; rfl) (.inl (by simp [WRITER_BIT]))
    · exact h.frame id (by rw [hpc]; rfl)
  | writeOr =>
    simp only [hpc, execHolder, Option.some.injEq] at he
    cases he
    refine h.keep (by rw [hpc]; rfl) (.inl ?_)
    simp only [WRITER_BIT, Mutex.lor_one]
    omega
  | upgradeSub =>
    have htwo := hi.two_le_of_reader (f := f) (by rw [hpc]; rfl)
    have heven := hi.even_of_holder (f := f) (by rw [hpc]; rfl) (by rw [hpc]; rfl)
    simp only [hpc, execHolder, Option.some.injEq] at he
    cases he
    refine h.keep (by rw [hpc]; rfl) (.inl ?_)
    simp only [ONE_READER, WRITER_BIT]
    omega
  | writeAnd | downgradeAdd =>
    simp only [hpc, execHolder, Option.some.injEq] at he
    cases he
    exact h.keep (by rw [hpc]; rfl) (.inr rfl)
  | downgradeUpAdd =>
    simp only [hpc, execHolder, Option.some.injEq] at he
    cases he
    -- the writer bit is cleared and nobody is told: the condition is about this step
    exact ⟨h.registered.frame rfl (by rw [hpc]; rfl), .of_served (hok hpc) rfl⟩
  | writerNotify after =>
    simp only [hpc, execHolder, Option.some.injEq] at he
    cases he
    exact h.notify (by rw [hpc]; rfl)
  | _ => simp [hpc, execHolder] at he

theorem readers_exec (hi : Inv s) (h : ReadersWait s.sh s.calls)
    (hok : ReadersServed s (.step f elapsed))
    (he : exec s.sh f elapsed (s.calls f) = some (pc, sh)) :
    ReadersWait sh (Function.update s.calls f pc) := by
  rcases exec_cases he with he | he | he | he
  · exact readers_execRead hi h he
  · unfold execMutex at he
    split at he
    · rename_i hpc
      obtain ⟨r, -, heq⟩ := Option.map_eq_some_iff.mp he
      cases heq
      exact h.frame id (by rw [hpc, (roles_locked _ _).1]; rfl)
    · rename_i hpc
      obtain ⟨r, -, heq⟩ := Option.map_eq_some_iff.mp he
      cases heq
      exact h.frame id (by rw [hpc, (roles_released _ _).1]; rfl)
    · cases he
  · exact readers_execHolder hi h hok he
  · unfold execWait at he
    split at he <;> rename_i hpc
    all_goals repeat' split at he
    all_goals simp only [Option.some.injEq, Prod.mk.injEq, reduceCtorEq] at he
    all_goals
      obtain ⟨rfl, rfl⟩ := he
      refine h.frame id ?_
      rw [hpc]
      rfl

end Readers

section Writers

variable {s : State} {sh : Shared} {f : Nat} {elapsed : Bool} {pc : Pc}

/-- The holder of the inner mutex is the only one who can wait for `no_readers`. -/
theorem covered_of_holder (hi : Inv s) (hf : (s.calls f).mutexPc = .holding) {p : Prop} {e : Event}
    (hc : pc.asWriter.waits = false) :
    Covered p (fun pc => pc.asWriter.waits) (fun pc => pc.asWriter.busy) e
      (Function.update s.calls f pc) := by
  rintro - ⟨g, -, hwait⟩
  rcases eq_or_ne g f with rfl | hne
  · rw [Function.update_self] at hwait
    exact absurd hwait (by simp [hc])
  · rw [Function.update_of_ne hne] at hwait
    have hholding := mutexPc_of_isWriter (isWriter_of_waits hwait)
    exact absurd (hi.holder_unique hholding hf) hne

theorem writers_execRead (hi : Inv s) (h : WritersWait s.sh s.calls)
    (he : execRead s.sh f (s.calls f) = some (pc, sh)) :
    WritersWait sh (Function.update s.calls f pc) := by
  cases hpc : s.calls f with
  | readLoad blocking =>
    simp only [hpc, execRead, Option.some.injEq] at he
    cases he
    exact h.frame id (by rw [hpc, asWriter_seen]; rfl)
  | readCas blocking state =>
    simp only [hpc, execRead] at he
    split at he
    · cases he
    · split at he <;> cases he
      · refine h.keep (by rw [hpc]; rfl) (.inl ?_)
        simp only [ONE_READER]
        omega
      · exact h.frame id (by rw [hpc, asWriter_seen]; rfl)
  | readListen | readNotify =>
    simp only [hpc, execRead, Option.some.injEq] at he
    cases he
    exact h.frame id (by rw [hpc]; rfl)
  | readCheck =>
    simp only [hpc, execRead, Option.some.injEq] at he
    cases he
    refine h.frame id ?_
    rw [hpc]
    split <;> rfl
  | readAwait =>
    simp only [hpc, execRead, Option.some.injEq] at he
    split at he <;> cases he <;> exact h.frame id (by rw [hpc]; rfl)
  | readReload listening =>
    simp only [hpc, execRead, Option.some.injEq] at he
    cases he
    cases listening with
    | true => exact h.frame id (by rw [hpc]; rfl)
    | false =>
      refine h.frame id ?_
      rw [hpc]
      exact asWriter_seen true s.sh.state
  | readLeave state =>
    simp only [hpc, execRead, Option.some.injEq] at he
    cases he
    refine h.frame id ?_
    rw [hpc]
    cases state with
    | none => rfl
    | some state => exact asWriter_seen true state
  | readSub reserved =>
    have htwo := hi.two_le_of_reader (f := f) (by rw [hpc]; rfl)
    simp only [hpc, execRead, Option.some.injEq] at he
    cases he
    split
    · exact h.keep (by rw [hpc]; rfl) (.inr rfl)
    · -- not the last reader
      rename_i hlast
      refine h.keep (by rw [hpc, asWriter_dropped]; rfl) (.inl ?_)
      simp only [ONE_READER] at hlast ⊢
      omega
  | readersNotify reserved =>
    simp only [hpc, execRead, Option.some.injEq] at he
    cases he
    exact h.notify (by rw [hpc, asWriter_dropped]; rfl)
  | _ => simp [hpc, execRead] at he

theorem writers_execHolder (hi : Inv s) (h : WritersWait s.sh s.calls)
    (he : execHolder s.sh (s.calls f) = some (pc, sh)) :
    WritersWait sh (Function.update s.calls f pc) := by
  have hmove : (s.calls f).mutexPc = .holding ∧ sh.noReaders = s.sh.noReaders ∧
      pc.asWriter = .none ∧ (s.calls f).asWriter = .none := by
    unfold execHolder at he
    split at he <;> rename_i hpc
    all_goals repeat' split at he
    all_goals simp only [Option.some.injEq, Prod.mk.injEq, reduceCtorEq] at he
    all_goals
      obtain ⟨rfl, rfl⟩ := he
      rw [hpc]
      exact ⟨rfl, rfl, rfl, rfl⟩
  obtain ⟨hholding, hevent, hnew, hold⟩ := hmove
  unfold WritersWait
  rw [hevent]
  refine ⟨h.registered.frame rfl (by rw [hnew, hold]), ?_⟩
  exact covered_of_holder hi hholding (by rw [hnew]; rfl)

theorem writers_execWait (hi : Inv s) (h : WritersWait s.sh s.calls)
    (he : execWait s.sh f (s.calls f) = some (pc, sh)) :
    WritersWait sh (Function.update s.calls f pc) := by
  cases hpc : s.calls f with
  | writeLoad =>
    simp only [hpc, execWait, Option.some.injEq] at he
    cases he
    refine h.frame id ?_
    rw [hpc]
    split <;> rfl
  | writeListen =>
    simp only [hpc, execWait, Option.some.injEq] at he
    cases he
    exact h.listen (by rw [hpc]; rfl) rfl
  | writeCheck =>
    have hodd := hi.odd_of_writer (f := f) (by rw [hpc]; rfl)
    simp only [hpc, execWait, Option.some.injEq] at he
    cases he
    split
    · exact h.frame id (by rw [hpc]; rfl)
    · rename_i hne
      rw [WRITER_BIT] at hne
      exact h.keep (by rw [hpc]; rfl) (.inl (by omega))
  | writeAwait =>
    simp only [hpc, execWait, Option.some.injEq] at he
    split at he <;> cases he
    · exact ⟨h.registered.remove rfl, covered_of_holder hi (by rw [hpc]; rfl) rfl⟩
    · exact h.frame id (by rw [hpc]; rfl)
  | writeLeave cancelled =>
    simp only [hpc, execWait, Option.some.injEq] at he
    cases he
    exact h.drop (by rw [hpc]; rfl) (by cases cancelled <;> rfl)
  | _ => simp [hpc, execWait] at he

theorem writers_exec (hi : Inv s) (h : WritersWait s.sh s.calls)
    (he : exec s.sh f elapsed (s.calls f) = some (pc, sh)) :
    WritersWait sh (Function.update s.calls f pc) := by
  rcases exec_cases he with he | he | he | he
  · exact writers_execRead hi h he
  · unfold execMutex at he
    split at he
    · rename_i hpc
      obtain ⟨r, -, heq⟩ := Option.map_eq_some_iff.mp he
      cases heq
      exact h.frame id (by rw [hpc, (roles_locked _ _).2]; rfl)
    · rename_i hpc
      obtain ⟨r, -, heq⟩ := Option.map_eq_some_iff.mp he
      cases heq
      exact h.frame id (by rw [hpc, (roles_released _ _).2]; rfl)
    · cases he
  · exact writers_execHolder hi h he
  · exact writers_execWait hi h he

end Writers

section Step

variable {s t : State} {a : Act} {f : Nat} {pc : Pc}

theorem roles_entry (ha : a.entry = some pc) : pc.asReader = .none ∧ pc.asWriter = .none := by
  cases a <;> cases ha <;> exact ⟨rfl, rfl⟩

theorem readers_step (hi : Inv s) (hok : ReadersServed s a) (h : ReadersWait s.sh s.calls)
    (ht : step s a = some t) : ReadersWait t.sh t.calls := by
  rcases step_cases ht with ⟨pc, ha, rfl⟩ | ⟨f, o, pc, -, ha, rfl⟩ |
    ⟨f, elapsed, pc, sh, rfl, he, rfl⟩
  · refine h.frame id ?_
    rw [(roles_entry ha).1, hi.fresh _ (Nat.le_refl _)]
    rfl
  · obtain ⟨⟨ho, hw, hb⟩, -⟩ := apply_roles ha
    exact h.move id ho hw (by rw [hb]; exact Bool.noConfusion)
  · exact readers_exec hi h hok he

theorem writers_step (hi : Inv s) (h : WritersWait s.sh s.calls) (ht : step s a = some t) :
    WritersWait t.sh t.calls := by
  rcases step_cases ht with ⟨pc, ha, rfl⟩ | ⟨f, o, pc, -, ha, rfl⟩ |
    ⟨f, elapsed, pc, sh, -, he, rfl⟩
  · refine h.frame id ?_
    rw [(roles_entry ha).2, hi.fresh _ (Nat.le_refl _)]
    rfl
  · obtain ⟨-, ho, hw, hb⟩ := apply_roles ha
    exact h.move id ho hw (by rw [hb]; exact Bool.noConfusion)
  · exact writers_exec hi h he

theorem readers_reachable (hs : system.ReachableVia ReadersServed s) :
    ReadersWait s.sh s.calls := by
  have h : Inv s ∧ ReadersWait s.sh s.calls := by
    refine System.ReachableVia.invariant (M := system)
      (I := fun s => Inv s ∧ ReadersWait s.sh s.calls) ⟨inv_new, .empty fun _ => rfl⟩ ?_ hs
    intro s a t hok h ht
    exact ⟨inv_step h.1 ht, readers_step h.1 hok h.2 ht⟩
  exact h.2

theorem writers_reachable (hs : system.Reachable s) : WritersWait s.sh s.calls := by
  have h : Inv s ∧ WritersWait s.sh s.calls := by
    refine System.Reachable.invariant (M := system)
      (I := fun s => Inv s ∧ WritersWait s.sh s.calls) ⟨inv_new, .empty fun _ => rfl⟩ ?_ hs
    intro s a t h ht
    exact ⟨inv_step h.1 ht, writers_step h.1 h.2 ht⟩
  exact h.2

theorem reader_of_owns (h : pc.atRest = true) (ho : pc.asReader.owns = true) :
    pc = .readSuspended := by
  cases pc <;> first | rfl | exact Bool.noConfusion h | exact Bool.noConfusion ho

theorem not_busy_of_atRest (h : pc.atRest = true) :
    pc.asReader.busy = false ∧ pc.asWriter.busy = false := by
  cases pc <;> first | exact ⟨rfl, rfl⟩ | cases h

end Step

/-- At rest with the writer bit clear, a reader that is suspended means a suspended
reader that is notified. -/
def ReadersWoken (s : State) : Prop :=
  (∀ f, (s.calls f).atRest = true) → s.sh.state % 2 = 0 → (∃ f, s.calls f = .readSuspended) →
    ∃ f, s.calls f = .readSuspended ∧ (f, true) ∈ s.sh.noWriter

/-- Readers are woken, unless `downgrade_to_upgradable` has left them unserved. -/
theorem rwlock_readers_woken {s : State} (hs : system.ReachableVia ReadersServed s) :
    ReadersWoken s := by
  rintro hrest hclear ⟨f, hf⟩
  have h := readers_reachable hs
  obtain ⟨g, hown, hmark⟩ := h.covered.exists_notified h.registered hclear
    (fun g => (not_busy_of_atRest (hrest g)).1) (f := f) (by rw [hf]; rfl) (by rw [hf]; rfl)
  exact ⟨g, reader_of_owns (hrest g) hown, hmark⟩

/-- Call 0 has a write guard and call 1, a reader, is suspended. -/
def readerWaitsRun : List Act :=
  [.write, .step 0 false, .step 0 false, .step 0 false, .read, .step 1 false, .step 1 false,
    .step 1 false, .step 1 false]

theorem rwlock_readers_woken_drop :
    ∃ s, system.ReachableVia ReadersServed s ∧
      (s.calls 1 = .readSuspended ∧ s.sh.state = 0 ∧ (1, true) ∈ s.sh.noWriter) ∧
      ReadersWoken s := by
  obtain ⟨s, hs, hp⟩ := System.exists_of_runVia (M := system) ReadersServed
    (P := fun s => s.calls 1 = .readSuspended ∧ s.sh.state = 0 ∧ (1, true) ∈ s.sh.noWriter)
    (readerWaitsRun ++ [.op 0 .dropGuard, .step 0 false, .step 0 false]) (by decide)
  exact ⟨s, hs, hp, rwlock_readers_woken hs⟩

/-- The write guard is downgraded to an upgradable one: the reader sleeps on. -/
theorem rwlock_reader_forgotten : ∃ s, system.Reachable s ∧ ¬ReadersWoken s := by
  obtain ⟨s, -, hs, hstate, hwait, hevent, hall⟩ := System.exists_of_run (M := system)
    (P := fun s => s.sh.state = 2 ∧ s.calls 1 = .readSuspended ∧ s.sh.noWriter = [(1, false)] ∧
      ∀ f < s.started, (s.calls f).atRest = true)
    (readerWaitsRun ++ [.op 0 .downgradeToUpgradable, .step 0 false]) (by decide)
  refine ⟨s, hs, fun hwoken => ?_⟩
  have hrest := (inv_reachable hs).fresh.forall (P := fun _ pc => pc.atRest = true)
    (fun _ => rfl) hall
  obtain ⟨f, -, hmark⟩ := hwoken hrest (by omega) ⟨1, hwait⟩
  simp [hevent] at hmark

/-- At rest, a writer or upgrader that is suspended without being notified waits for
a read guard that is alive. -/
theorem rwlock_writer_woken {s : State} (hs : system.Reachable s)
    (hrest : ∀ f, (s.calls f).atRest = true) {f : Nat} (hf : s.calls f = .writeSuspended)
    (hmark : (f, true) ∉ s.sh.noReaders) : ∃ g, s.calls g = .readGuard := by
  have hi := inv_reachable hs
  have h := writers_reachable hs
  have hfalse : (f, false) ∈ s.sh.noReaders := by
    rcases h.registered.exists_mark (f := f) (by rw [hf]; rfl) with htrue | hfalse
    · exact absurd htrue hmark
    · exact hfalse
  have hholding : (s.calls f).mutexPc = .holding := by
    rw [hf]
    rfl
  have htwo : ¬s.sh.state < 2 := by
    intro hlt
    rcases h.covered hlt ⟨f, hfalse, by rw [hf]; rfl⟩ with ⟨g, hg⟩ | ⟨g, hg⟩
    · -- whoever is notified is a writer too
      have hgw := mutexPc_of_isWriter (isWriter_of_owns (h.registered.owner hg))
      rw [hi.holder_unique hgw hholding] at hg
      exact hmark hg
    · exact absurd hg (by simp [(not_busy_of_atRest (hrest g)).2])
  have hpos : 0 < count Pc.isReader s.started s.calls := by
    rw [← hi.word.div_eq]
    omega
  obtain ⟨g, -, hg⟩ := exists_of_count_pos hpos
  refine ⟨g, ?_⟩
  have hgrest := hrest g
  cases hpc : s.calls g with
  | readGuard => rfl
  | upGuard =>
    have hfg := hi.holder_unique (f := g) (by rw [hpc]; rfl) hholding
    rw [hfg, hf] at hpc
    cases hpc
  | _ => simp_all [Pc.isReader, Pc.atRest]

/-- The upgrader of `upgradeRun` waits for the reader. -/
theorem rwlock_writer_woken_upgrade :
    ∃ s, system.Reachable s ∧ s.calls 1 = .writeSuspended ∧ ∃ g, s.calls g = .readGuard := by
  obtain ⟨s, -, hs, hwait, hevent, hall⟩ := System.exists_of_run (M := system)
    (P := fun s => s.calls 1 = .writeSuspended ∧ s.sh.noReaders = [(1, false)] ∧
      ∀ f < s.started, (s.calls f).atRest = true) upgradeRun (by decide)
  refine ⟨s, hs, hwait, rwlock_writer_woken hs ?_ hwait (by simp [hevent])⟩
  exact (inv_reachable hs).fresh.forall (P := fun _ pc => pc.atRest = true) (fun _ => rfl) hall

end Cynthia.Lock.RwLock
