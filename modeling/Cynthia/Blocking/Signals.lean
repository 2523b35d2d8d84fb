import Cynthia.Blocking.Pipe

/-! What one end of the pipe sees of an access of the other: an index it goes by moves just
before its waker is taken out, `closed` is only set, and the rest of its state is left alone. -/

namespace Cynthia.Blocking

/-- The reading side leaves the writing side alone. -/
structure SameWriter (p q : State) : Prop where
  published : q.published = p.published
  wpc : q.wpc = p.wpc
  wret : q.wret = p.wret
  headSeen : q.headSeen = p.headSeen
  cap : q.pipe.cap = p.pipe.cap

structure SameReader (p q : State) : Prop where
  handed : q.handed = p.handed
  rpc : q.rpc = p.rpc
  rret : q.rret = p.rret
  refused : q.refused = p.refused

/-- The accesses of the reading side. -/
def Act.ofReader : Act → Bool
  | .drain _ | .readerStep | .readerYield _ | .destWrite _ | .dropReader => true
  | .fill _ | .writerStep | .writerYield _ | .srcRead _ | .dropWriter => false

/-- The next access takes the waker of the writing end, or there is none. -/
def DrainPc.waking : DrainPc → Bool
  | .wakeWriter _ | .closeWake | .dropped => true
  | _ => false

def FillPc.waking : FillPc → Bool
  | .wakeReader _ | .closeWake | .dropped => true
  | _ => false

/-- An access of the reading end, as the writing end sees it. -/
structure ReaderSignals (p q : State) : Prop extends SameWriter p q where
  closed : q.pipe.closed = p.pipe.closed ∨ q.pipe.closed = true ∧ q.rpc = .closeWake
  freed : q.freed = p.freed ∨ ∃ count, q.rpc = .wakeWriter count
  writer : q.pipe.writer = none ∨ q.pipe.writer = p.pipe.writer ∧ p.rpc.waking = false
  gone : p.rpc = .closeWake ∨ p.rpc = .dropped → q.rpc = .dropped

/-- An access of the writing end, as the reading end sees it. -/
structure WriterSignals (p q : State) : Prop extends SameReader p q where
  rcx : q.rcx = p.rcx
  cap : q.pipe.cap = p.pipe.cap
  closed : q.pipe.closed = p.pipe.closed ∨ q.pipe.closed = true ∧ q.wpc = .closeWake
  published : q.published = p.published ∨ ∃ count, q.wpc = .wakeReader count
  reader : q.pipe.reader = none ∨ q.pipe.reader = p.pipe.reader ∧ p.wpc.waking = false
  gone : p.wpc = .closeWake ∨ p.wpc = .dropped → q.wpc = .dropped ∧ q.published = p.published

variable {p q : State} {a : Act}

/-! ## The reading end -/

theorem DrainPc.not_gone {pc : DrainPc} (h : pc.waking = false) :
    ¬(pc = .closeWake ∨ pc = .dropped) := by
  rintro (rfl | rfl) <;> cases h

/-- An access to the reader's own fields and to its own waker. -/
theorem ReaderSignals.own {pc rpc : DrainPc} {slot : Option Waker} {r : Reader} {rcx : Waker}
    {rret : Option (Poll (Except IoError Nat))} {handed : List (Option UInt8)} {tailSeen : Nat}
    {refused : Bool} (hpc : p.rpc = pc) (hwaking : pc.waking = false) :
    ReaderSignals p { p with
      pipe := { p.pipe with reader := slot }, r := r, rpc := rpc, rcx := rcx, rret := rret
      handed := handed, tailSeen := tailSeen, refused := refused } where
  published := rfl
  wpc := rfl
  wret := rfl
  headSeen := rfl
  cap := rfl
  closed := .inl rfl
  freed := .inl rfl
  writer := .inr ⟨rfl, by rw [hpc, hwaking]⟩
  gone hgone := absurd (hpc ▸ hgone) (DrainPc.not_gone hwaking)

theorem readerSignals_readerStep (ht : readerStep p = some q) : ReaderSignals p q := by
  unfold readerStep at ht
  split at ht
  case h_1 hpc =>
    split at ht <;> cases ht
    · exact .own hpc rfl
    · exact .own hpc rfl
  case h_2 hpc | h_3 hpc | h_4 hpc | h_5 hpc =>
    cases ht
    exact .own hpc rfl
  case h_6 count hpc =>
    cases ht
    exact ⟨⟨rfl, rfl, rfl, rfl, rfl⟩, .inl rfl, .inr ⟨count, rfl⟩, .inr ⟨rfl, by rw [hpc]; rfl⟩,
      by simp [hpc]⟩
  case h_7 count hpc =>
    cases ht
    exact ⟨⟨rfl, rfl, rfl, rfl, rfl⟩, .inl rfl, .inl rfl, .inl rfl, by simp [hpc]⟩
  case h_8 hpc =>
    cases ht
    exact ⟨⟨rfl, rfl, rfl, rfl, rfl⟩, .inr ⟨rfl, rfl⟩, .inl rfl, .inr ⟨rfl, by rw [hpc]; rfl⟩,
      by simp [hpc]⟩
  case h_9 =>
    cases ht
    exact ⟨⟨rfl, rfl, rfl, rfl, rfl⟩, .inl rfl, .inl rfl, .inl rfl, fun _ => rfl⟩
  case h_10 => cases ht

theorem readerSignals_step (ha : a.ofReader = true) (ht : step p a = some q) :
    ReaderSignals p q := by
  cases a with
  | readerStep => exact readerSignals_readerStep ht
  | drain cx =>
    simp only [step] at ht
    split at ht
    · rename_i hpc
      cases ht
      exact .own hpc rfl
    · cases ht
  | readerYield yields =>
    simp only [step] at ht
    split at ht
    · rename_i hpc
      cases ht
      cases yields <;> exact .own hpc rfl
    · cases ht
  | destWrite res =>
    simp only [step, destWrite] at ht
    split at ht
    · rename_i count hpc
      split at ht
      · cases ht
        exact .own hpc rfl
      · split at ht
        · split at ht <;> cases ht <;> exact .own hpc rfl
        · cases ht
    · cases ht
  | dropReader =>
    simp only [step] at ht
    split at ht
    · rename_i hpc
      cases ht
      exact .own hpc rfl
    · cases ht
  | fill | writerStep | writerYield | srcRead | dropWriter => exact Bool.noConfusion ha

/-! ## The writing end -/

theorem FillPc.not_gone {pc : FillPc} (h : pc.waking = false) :
    ¬(pc = .closeWake ∨ pc = .dropped) := by
  rintro (rfl | rfl) <;> cases h

/-- An access to the writer's own fields, its own waker and the buffer. -/
theorem WriterSignals.own {pc wpc : FillPc} {slot : Option Waker} {buffer : Nat → Option UInt8}
    {w : Writer} {wcx : Waker} {wret : Option (Poll (Except IoError Nat))} {headSeen : Nat}
    (hpc : p.wpc = pc) (hwaking : pc.waking = false) :
    WriterSignals p { p with
      pipe := { p.pipe with writer := slot, buffer := buffer }, w := w, wpc := wpc, wcx := wcx
      wret := wret, headSeen := headSeen } where
  handed := rfl
  rpc := rfl
  rret := rfl
  refused := rfl
  rcx := rfl
  cap := rfl
  closed := .inl rfl
  published := .inl rfl
  reader := .inr ⟨rfl, by rw [hpc, hwaking]⟩
  gone hgone := absurd (hpc ▸ hgone) (FillPc.not_gone hwaking)

theorem zeroSlice_eq (p : State) : ∃ buffer w,
    zeroSlice p = { p with pipe := { p.pipe with buffer := buffer }, w := w } := by
  unfold zeroSlice
  split
  · exact ⟨_, _, rfl⟩
  · exact ⟨p.pipe.buffer, p.w, rfl⟩

theorem writerSignals_writerStep (ht : writerStep p = some q) : WriterSignals p q := by
  unfold writerStep at ht
  split at ht
  case h_1 hpc | h_2 hpc =>
    split at ht <;> cases ht
    · exact .own hpc rfl
    · exact .own hpc rfl
  case h_7 count data hpc =>
    split at ht <;> cases ht
    · exact .own hpc rfl
    · exact .own hpc rfl
  case h_3 hpc | h_4 hpc | h_5 hpc | h_6 hpc =>
    cases ht
    exact .own hpc rfl
  case h_8 count data hpc =>
    cases ht
    exact ⟨⟨rfl, rfl, rfl, rfl⟩, rfl, rfl, .inl rfl, .inr ⟨count, rfl⟩,
      .inr ⟨rfl, by rw [hpc]; rfl⟩, by simp [hpc]⟩
  case h_9 count hpc =>
    cases ht
    exact ⟨⟨rfl, rfl, rfl, rfl⟩, rfl, rfl, .inl rfl, .inl rfl, .inl rfl, by simp [hpc]⟩
  case h_10 hpc =>
    cases ht
    exact ⟨⟨rfl, rfl, rfl, rfl⟩, rfl, rfl, .inr ⟨rfl, rfl⟩, .inl rfl,
      .inr ⟨rfl, by rw [hpc]; rfl⟩, by simp [hpc]⟩
  case h_11 =>
    cases ht
    exact ⟨⟨rfl, rfl, rfl, rfl⟩, rfl, rfl, .inl rfl, .inl rfl, .inl rfl, fun _ => ⟨rfl, rfl⟩⟩
  case h_12 => cases ht

theorem writerSignals_step (ha : a.ofReader = false) (ht : step p a = some q) :
    WriterSignals p q := by
  cases a with
  | writerStep => exact writerSignals_writerStep ht
  | fill cx =>
    simp only [step] at ht
    split at ht
    · rename_i hpc
      cases ht
      exact .own hpc rfl
    · cases ht
  | writerYield yields =>
    simp only [step] at ht
    split at ht
    · rename_i hpc
      cases ht
      cases yields <;> exact .own hpc rfl
    · cases ht
  | srcRead res =>
    obtain ⟨buffer, w, hzero⟩ := zeroSlice_eq p
    simp only [step, srcRead, hzero] at ht
    split at ht
    · rename_i count hpc
      split at ht
      · cases ht
        exact .own hpc rfl
      · split at ht
        · split at ht <;> cases ht <;> exact .own hpc rfl
        · cases ht
    · cases ht
  | dropWriter =>
    simp only [step] at ht
    split at ht
    · rename_i hpc
      cases ht
      exact .own hpc rfl
    · cases ht
  | drain | readerStep | readerYield | destWrite | dropReader => exact Bool.noConfusion ha

/-! ## Both ends -/

theorem cap_step (ht : step p a = some q) : q.pipe.cap = p.pipe.cap := by
  cases ha : a.ofReader with
  | true => exact (readerSignals_step ha ht).cap
  | false => exact (writerSignals_step ha ht).cap

/-- Once closed, a pipe stays closed. -/
theorem closed_step (hclosed : p.pipe.closed = true) (ht : step p a = some q) :
    q.pipe.closed = true := by
  have hset : q.pipe.closed = p.pipe.closed ∨ q.pipe.closed = true := by
    cases ha : a.ofReader with
    | true => exact (readerSignals_step ha ht).closed.imp_right And.left
    | false => exact (writerSignals_step ha ht).closed.imp_right And.left
  rcases hset with hsame | hset
  · rw [hsame, hclosed]
  · exact hset

end Cynthia.Blocking
