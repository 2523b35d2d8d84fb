import Cynthia.Blocking.Transfer

/-! Nobody sleeps at the pipe while there is something to do: `drain` and `fill` leave a waker
behind when they return `Pending`, and the other end takes it out to wake it. -/

namespace Cynthia.Blocking

open Transition

/-- The last `drain` has returned `Pending`, and nobody has woken its waker. -/
def ReaderAsleep (p : State) : Prop :=
  p.rpc = .idle ∧ p.rret = some .pending ∧ p.pipe.reader ≠ none

def WriterAsleep (p : State) : Prop :=
  p.wpc = .idle ∧ p.wret = some .pending ∧ p.pipe.writer ≠ none

/-- An end that sleeps has nothing to do, or the next access of the other end wakes it. -/
structure Wakes (p : State) : Prop where
  reader : ReaderAsleep p → p.handed = p.published.map some ∧ p.pipe.closed = false ∨
    p.wpc = .closeWake ∨ ∃ count, p.wpc = .wakeReader count
  writer : WriterAsleep p → p.published.length = p.freed + p.pipe.cap ∧
    p.pipe.closed = false ∨ p.rpc = .closeWake ∨ ∃ count, p.rpc = .wakeWriter count

/-- The waker of the reading end, from the second load of the tail on. -/
structure ReaderTold (p : State) : Prop where
  yields : p.rpc = .maybeYield → p.pipe.reader = none
  drained : p.rpc = .loadClosed ∨ p.rpc = .idle ∧ p.rret = some .pending →
    p.pipe.reader ≠ none → p.handed.length = p.published.length ∨ ∃ count, p.wpc = .wakeReader count
  isOpen : p.rpc = .idle ∧ p.rret = some .pending → p.pipe.reader ≠ none →
    p.pipe.closed = false ∨ p.wpc = .closeWake

structure WriterTold (p : State) : Prop where
  yields : p.wpc = .maybeYield → p.pipe.writer = none
  full : p.wpc = .loadClosedFull ∨ p.wpc = .idle ∧ p.wret = some .pending →
    p.pipe.writer ≠ none →
      p.published.length = p.freed + p.pipe.cap ∨ ∃ count, p.rpc = .wakeWriter count
  isOpen : p.wpc = .idle ∧ p.wret = some .pending → p.pipe.writer ≠ none →
    p.pipe.closed = false ∨ p.rpc = .closeWake
  gone : p.wpc = .closeWake ∨ p.wpc = .dropped → p.pipe.closed = true

variable {p q : State} {a : Act}

/-! ## The waker of the reading end -/

/-- The reading end may rely on its waker. -/
def DrainPc.relies : DrainPc → Bool
  | .maybeYield | .loadClosed | .idle => true
  | _ => false

theorem readerTold_of_pc (hpc : q.rpc.relies = false) : ReaderTold q where
  yields h := by
    rw [h] at hpc
    cases hpc
  drained h _ := by
    rcases h with h | ⟨h, -⟩
    · rw [h] at hpc
      cases hpc
    · rw [h] at hpc
      cases hpc
  isOpen h _ := by
    rw [h.1] at hpc
    cases hpc

theorem readerTold_taken (hslot : q.pipe.reader = none) : ReaderTold q :=
  ⟨fun _ => hslot, fun _ hkept => absurd hslot hkept, fun _ hkept => absurd hslot hkept⟩

/-- `drain` has returned a result. -/
theorem readerTold_returnR {res : Poll (Except IoError Nat)} (hres : res ≠ .pending) :
    ReaderTold (returnR p res) where
  yields h := by cases h
  drained h _ := by
    rcases h with h | ⟨-, hret⟩
    · cases h
    · exact absurd (Option.some.inj hret) hres
  isOpen h _ := absurd (Option.some.inj h.2) hres

/-- What the writing end does to the tail and to `closed`, it makes known. -/
theorem ReaderTold.signals (h : ReaderTold p) (hs : WriterSignals p q) : ReaderTold q where
  yields hpc := by
    rw [hs.rpc] at hpc
    rcases hs.reader with hnone | ⟨hsame, -⟩
    · exact hnone
    · rw [hsame, h.yields hpc]
  drained hat hslot := by
    rw [hs.rpc, hs.rret] at hat
    rcases hs.reader with hnone | ⟨hsame, hwaking⟩
    · exact absurd hnone hslot
    · rw [hsame] at hslot
      rcases h.drained hat hslot with hall | ⟨count, hpc⟩
      · rcases hs.published with hpub | hmoved
        · rw [hs.handed, hpub]
          exact .inl hall
        · exact .inr hmoved
      · rw [hpc] at hwaking
        cases hwaking
  isOpen hat hslot := by
    rw [hs.rpc, hs.rret] at hat
    rcases hs.reader with hnone | ⟨hsame, hwaking⟩
    · exact absurd hnone hslot
    · rw [hsame] at hslot
      rcases h.isOpen hat hslot with hopen | hpc
      · rcases hs.closed with hclosed | ⟨-, hclosing⟩
        · exact .inl (hclosed.trans hopen)
        · exact .inr hclosing
      · rw [hpc] at hwaking
        cases hwaking

theorem readerTold_readerStep (h : ReaderTold p) (hf : Fifo p) (ht : readerStep p = some q) :
    ReaderTold q := by
  unfold readerStep at ht
  split at ht
  case h_1 =>
    split at ht <;> cases ht
    · by_cases hempty : empty (loadTail p)
      · rw [if_pos hempty]
        exact readerTold_of_pc rfl
      · rw [if_neg hempty]
        exact readerTold_of_pc rfl
    · exact readerTold_of_pc rfl
  case h_3 hpc =>
    cases ht
    by_cases hempty : empty (loadTail p)
    · -- the second load still finds nothing
      rw [if_pos hempty]
      refine ⟨fun hx => ?_, fun _ _ => .inl (hf.drained hpc hempty), fun hx => ?_⟩
      · cases hx
      · cases hx.1
    · rw [if_neg hempty]
      exact readerTold_of_pc rfl
  case h_4 hpc =>
    cases ht
    by_cases hclosed : p.pipe.closed = true
    · rw [if_pos hclosed]
      exact readerTold_returnR (by simp)
    · rw [if_neg hclosed]
      refine ⟨fun hx => ?_, fun _ hslot => h.drained (.inl hpc) hslot,
        fun _ _ => .inl (Bool.eq_false_iff.mpr hclosed)⟩
      cases hx
  case h_5 =>
    cases ht
    exact readerTold_taken rfl
  case h_2 | h_6 | h_7 | h_8 | h_9 =>
    cases ht
    exact readerTold_of_pc rfl
  case h_10 => cases ht

theorem readerTold_reader (h : ReaderTold p) (hf : Fifo p) (ha : a.ofReader = true)
    (ht : step p a = some q) : ReaderTold q := by
  cases a with
  | readerStep => exact readerTold_readerStep h hf ht
  | drain cx =>
    obtain ⟨-, rfl⟩ := drain_eq ht
    exact readerTold_of_pc rfl
  | dropReader =>
    obtain ⟨-, rfl⟩ := dropReader_eq ht
    exact readerTold_of_pc rfl
  | readerYield yields =>
    simp only [step] at ht
    split at ht
    · rename_i hpc
      cases yields with
      | true =>
        -- `drain` has taken its own waker before
        obtain rfl := Option.some.inj ht
        exact readerTold_taken (h.yields hpc)
      | false =>
        obtain rfl := Option.some.inj ht
        exact readerTold_of_pc rfl
    · cases ht
  | destWrite res =>
    simp only [step, destWrite] at ht
    split at ht
    · split at ht
      · cases ht
        exact readerTold_returnR (by simp)
      · split at ht
        · split at ht <;> cases ht
          · exact readerTold_returnR (p := { p with refused := decide (0 < offered p) }) (by simp)
          · exact readerTold_of_pc rfl
        · cases ht
    · cases ht
  | fill | writerStep | writerYield | srcRead | dropWriter => exact Bool.noConfusion ha

theorem readerTold_step (h : ReaderTold p) (hf : Fifo p) (ht : step p a = some q) :
    ReaderTold q := by
  cases ha : a.ofReader with
  | true => exact readerTold_reader h hf ha ht
  | false => exact h.signals (writerSignals_step ha ht)

/-! ## The waker of the writing end -/

theorem full_of_reload (h : Fifo p) (hpc : p.wpc = .reload) (hfull : full (loadHead p)) :
    p.published.length = p.freed + p.pipe.cap := by
  have hahead : ahead (loadHead p).wpc = 0 := by
    rw [show (loadHead p).wpc = p.wpc from rfl, hpc]
    rfl
  have hroom := h.loadHead.distance_writer hahead
  have hcap := h.cap_pos
  unfold full at hfull
  rw [hroom] at hfull
  have hsub : p.published.length - p.freed = p.pipe.cap := hfull
  omega

def FillPc.relies : FillPc → Bool
  | .maybeYield | .loadClosedFull | .idle => true
  | _ => false

theorem writerTold_of_pc (hpc : q.wpc.relies = false)
    (hgone : q.wpc = .closeWake ∨ q.wpc = .dropped → q.pipe.closed = true) : WriterTold q where
  yields h := by
    rw [h] at hpc
    cases hpc
  full h _ := by
    rcases h with h | ⟨h, -⟩
    · rw [h] at hpc
      cases hpc
    · rw [h] at hpc
      cases hpc
  isOpen h _ := by
    rw [h.1] at hpc
    cases hpc
  gone := hgone

theorem writerTold_goesOn (hpc : q.wpc.relies = false) (hgone : q.wpc.waking = false) :
    WriterTold q :=
  writerTold_of_pc hpc fun h => absurd h (FillPc.not_gone hgone)

theorem writerTold_taken (hslot : q.pipe.writer = none) (hgone : q.wpc.waking = false) :
    WriterTold q :=
  ⟨fun _ => hslot, fun _ hkept => absurd hslot hkept, fun _ hkept => absurd hslot hkept,
    fun h => absurd h (FillPc.not_gone hgone)⟩

theorem writerTold_returnW {res : Poll (Except IoError Nat)} (hres : res ≠ .pending) :
    WriterTold (returnW p res) where
  yields h := by cases h
  full h _ := by
    rcases h with h | ⟨-, hret⟩
    · cases h
    · exact absurd (Option.some.inj hret) hres
  isOpen h _ := absurd (Option.some.inj h.2) hres
  gone h := absurd h (FillPc.not_gone rfl)

/-- What the reading end does to the head and to `closed`, it makes known. -/
theorem WriterTold.signals (h : WriterTold p) (hs : ReaderSignals p q) : WriterTold q where
  yields hpc := by
    rw [hs.wpc] at hpc
    rcases hs.writer with hnone | ⟨hsame, -⟩
    · exact hnone
    · rw [hsame, h.yields hpc]
  full hat hslot := by
    rw [hs.wpc, hs.wret] at hat
    rcases hs.writer with hnone | ⟨hsame, hwaking⟩
    · exact absurd hnone hslot
    · rw [hsame] at hslot
      rcases h.full hat hslot with hall | ⟨count, hpc⟩
      · rcases hs.freed with hfreed | hmoved
        · rw [hs.published, hfreed, hs.cap]
          exact .inl hall
        · exact .inr hmoved
      · rw [hpc] at hwaking
        cases hwaking
  isOpen hat hslot := by
    rw [hs.wpc, hs.wret] at hat
    rcases hs.writer with hnone | ⟨hsame, hwaking⟩
    · exact absurd hnone hslot
    · rw [hsame] at hslot
      rcases h.isOpen hat hslot with hopen | hpc
      · rcases hs.closed with hclosed | ⟨-, hclosing⟩
        · exact .inl (hclosed.trans hopen)
        · exact .inr hclosing
      · rw [hpc] at hwaking
        cases hwaking
  gone hpc := by
    rw [hs.wpc] at hpc
    rcases hs.closed with hclosed | ⟨hclosed, -⟩
    · exact hclosed.trans (h.gone hpc)
    · exact hclosed

theorem writerTold_writerStep (h : WriterTold p) (hf : Fifo p) (ht : writerStep p = some q) :
    WriterTold q := by
  unfold writerStep at ht
  split at ht
  case h_1 | h_7 =>
    split at ht <;> cases ht
    · exact writerTold_returnW (by simp)
    · exact writerTold_goesOn rfl rfl
  case h_2 =>
    split at ht <;> cases ht
    · by_cases hfull : full (loadHead p)
      · rw [if_pos hfull]
        exact writerTold_goesOn rfl rfl
      · rw [if_neg hfull]
        exact writerTold_goesOn rfl rfl
    · exact writerTold_goesOn rfl rfl
  case h_4 hpc =>
    cases ht
    by_cases hfull : full (loadHead p)
    · have hall := full_of_reload hf hpc hfull
      rw [if_pos hfull]
      refine ⟨fun hx => ?_, fun _ _ => .inl hall, fun hx => ?_,
        fun hx => absurd hx (FillPc.not_gone rfl)⟩
      · cases hx
      · cases hx.1
    · rw [if_neg hfull]
      exact writerTold_goesOn rfl rfl
  case h_5 hpc =>
    cases ht
    by_cases hclosed : p.pipe.closed = true
    · rw [if_pos hclosed]
      exact writerTold_returnW (by simp)
    · rw [if_neg hclosed]
      refine ⟨fun hx => ?_, fun _ hslot => h.full (.inl hpc) hslot,
        fun _ _ => .inl (Bool.eq_false_iff.mpr hclosed), fun hx => absurd hx (FillPc.not_gone rfl)⟩
      cases hx
  case h_6 =>
    cases ht
    exact writerTold_taken rfl rfl
  case h_3 | h_9 =>
    cases ht
    exact writerTold_goesOn rfl rfl
  case h_8 =>
    cases ht
    refine writerTold_of_pc rfl ?_
    rintro (hx | hx) <;> cases hx
  case h_10 =>
    cases ht
    exact writerTold_of_pc rfl fun _ => rfl
  case h_11 hpc =>
    cases ht
    exact writerTold_of_pc rfl fun _ => h.gone (.inl hpc)
  case h_12 => cases ht

theorem writerTold_writer (h : WriterTold p) (hf : Fifo p) (ha : a.ofReader = false)
    (ht : step p a = some q) : WriterTold q := by
  cases a with
  | writerStep => exact writerTold_writerStep h hf ht
  | fill cx =>
    obtain ⟨-, rfl⟩ := fill_eq ht
    exact writerTold_goesOn rfl rfl
  | dropWriter =>
    obtain ⟨-, rfl⟩ := dropWriter_eq ht
    exact writerTold_goesOn rfl rfl
  | writerYield yields =>
    simp only [step] at ht
    split at ht
    · rename_i hpc
      cases yields with
      | true =>
        obtain rfl := Option.some.inj ht
        exact writerTold_taken (h.yields hpc) rfl
      | false =>
        obtain rfl := Option.some.inj ht
        exact writerTold_goesOn rfl rfl
    · cases ht
  | srcRead res =>
    obtain ⟨buffer, w, hzero⟩ := zeroSlice_eq p
    simp only [step, srcRead, hzero] at ht
    split at ht
    · split at ht
      · cases ht
        exact writerTold_returnW (p := { p with pipe := { p.pipe with buffer := buffer }, w := w })
          (by simp)
      · split at ht
        · split at ht <;> cases ht
          · exact writerTold_returnW
              (p := { p with pipe := { p.pipe with buffer := buffer }, w := w }) (by simp)
          · exact writerTold_goesOn rfl rfl
        · cases ht
    · cases ht
  | drain | readerStep | readerYield | destWrite | dropReader => exact Bool.noConfusion ha

theorem writerTold_step (h : WriterTold p) (hf : Fifo p) (ht : step p a = some q) :
    WriterTold q := by
  cases ha : a.ofReader with
  | true => exact h.signals (readerSignals_step ha ht)
  | false => exact writerTold_writer h hf ha ht

/-! ## Nobody sleeps -/

theorem told_of_reachable {cap : Capacity} (hp : (system cap).Reachable p) :
    Fifo p ∧ ReaderTold p ∧ WriterTold p := by
  refine hp.invariant (I := fun p => Fifo p ∧ ReaderTold p ∧ WriterTold p)
    ⟨fifo_pipe cap, ⟨?_, ?_, ?_⟩, ⟨?_, ?_, ?_, ?_⟩⟩ ?_
  · exact fun _ => rfl
  · exact fun _ hx => absurd rfl hx
  · exact fun _ hx => absurd rfl hx
  · exact fun _ => rfl
  · exact fun _ hx => absurd rfl hx
  · exact fun _ hx => absurd rfl hx
  · rintro (hx | hx) <;> cases hx
  · rintro p a q ⟨hf, hr, hw⟩ ht
    exact ⟨fifo_step hf ht, readerTold_step hr hf ht, writerTold_step hw hf ht⟩

/-- No wakeup is lost at the pipe, and its two ends never sleep both. -/
theorem pipe_wakes (cap : Capacity) (p : State) (hp : (system cap).Reachable p) :
    Wakes p ∧ ¬(ReaderAsleep p ∧ WriterAsleep p) := by
  obtain ⟨hf, hr, hw⟩ := told_of_reachable hp
  have hwakes : Wakes p := by
    constructor
    · rintro ⟨hpc, hret, hslot⟩
      rcases hr.drained (.inr ⟨hpc, hret⟩) hslot with hdrained | hwake
      · rcases hr.isOpen ⟨hpc, hret⟩ hslot with hopen | hclose
        · exact .inl ⟨hf.handed_eq_iff.mpr hdrained, hopen⟩
        · exact .inr (.inl hclose)
      · exact .inr (.inr hwake)
    · rintro ⟨hpc, hret, hslot⟩
      rcases hw.full (.inr ⟨hpc, hret⟩) hslot with hfull | hwake
      · rcases hw.isOpen ⟨hpc, hret⟩ hslot with hopen | hclose
        · exact .inl ⟨hfull, hopen⟩
        · exact .inr (.inl hclose)
      · exact .inr (.inr hwake)
  refine ⟨hwakes, fun ⟨hreader, hwriter⟩ => ?_⟩
  have hrpc := hreader.1
  have hwpc := hwriter.1
  have hfreed := hf.reader.freed (by simp [hrpc])
  rcases hwakes.reader hreader with ⟨hdrained, -⟩ | hx | ⟨count, hx⟩
  · rcases hwakes.writer hwriter with ⟨hfull, -⟩ | hx | ⟨count, hx⟩
    · have hcap := hf.cap_pos
      rw [hf.handed_eq_iff] at hdrained
      omega
    · cases hrpc.symm.trans hx
    · cases hrpc.symm.trans hx
  · cases hwpc.symm.trans hx
  · cases hwpc.symm.trans hx

/-- A `drain` that finds nothing, and a `fill` that has published a byte. -/
def drainThenFill : List Act :=
  [.drain 1, .readerStep, .readerStep, .readerStep, .readerStep,
   .fill 2, .writerStep, .writerStep, .writerStep, .writerYield false, .srcRead (.ok [7]),
   .writerStep, .writerStep]

theorem pipe_wakes_drainThenFill : ∃ p, (system fourBytes).Reachable p ∧ ReaderAsleep p ∧
    p.published = [7] ∧ Wakes p ∧ ¬(ReaderAsleep p ∧ WriterAsleep p) := by
  obtain ⟨p, -, hp, ⟨hrpc, hret, hslot⟩, hpub⟩ := (system fourBytes).exists_of_run
    (P := fun p => (p.rpc = .idle ∧ p.rret = some .pending ∧ p.pipe.reader ≠ none) ∧
      p.published = [7])
    drainThenFill (by decide)
  exact ⟨p, hp, ⟨hrpc, hret, hslot⟩, hpub, pipe_wakes fourBytes p hp⟩

end Cynthia.Blocking
