import Cynthia.Blocking.Transfer

/-! The end of the stream: when `drain` answers `Ok(0)`, and what is then left in the pipe. -/

namespace Cynthia.Blocking

open Transition

/-- The last `drain` returned `Ready(Ok(0))` although its destination never
turned bytes away. -/
def EndReported (s : State) : Prop := s.rret = some (.ready (.ok 0)) ∧ s.refused = false

/-- The end is reported only after every published byte was handed over, in order. -/
def EndComplete (s : State) : Prop := EndReported s → s.handed = s.published.map some

/-- No publication slipped in between the second load of `tail` and the load of
`closed`: when `drain` finds the pipe closed, `tail` is still what it loaded. -/
def TailFresh (s : State) (a : Act) : Prop :=
  a = .readerStep → s.rpc = .loadClosed → s.pipe.closed = true → s.pipe.tail = s.r.tail

instance (s : State) (a : Act) : Decidable (TailFresh s a) :=
  inferInstanceAs (Decidable (_ → _ → _ → _))

instance (s : State) : Decidable (EndReported s) := inferInstanceAs (Decidable (_ ∧ _))

def AtRest (pc : DrainPc) : Prop := pc = .idle ∨ pc = .close ∨ pc = .closeWake ∨ pc = .dropped

/-- Only a dropped end closes the pipe, a result stands only while `drain` is not
running, and after the end was reported the writing side is gone. -/
structure EndInv (s : State) : Prop where
  byDrop : s.pipe.closed = true →
    (s.wpc = .closeWake ∨ s.wpc = .dropped) ∨ (s.rpc = .closeWake ∨ s.rpc = .dropped)
  resting : s.rret ≠ none → AtRest s.rpc
  final : EndReported s → s.pipe.closed = true ∧ (s.wpc = .closeWake ∨ s.wpc = .dropped)

/-- A step of `drain` reports the end, or the report stood before and the logs
did not move. -/
def ReportStep (s : State) (a : Act) (t : State) : Prop :=
  EndReported t →
    (a = .readerStep ∧ s.rpc = .loadClosed ∧ s.pipe.closed = true ∧
      t = returnR s (.ready (.ok 0))) ∨
    (EndReported s ∧ t.handed = s.handed ∧ t.published = s.published)

section Report

variable {s t : State} {a : Act}

theorem DrainPc.Next.atRest {pc pc' : DrainPc} (h : DrainPc.Next pc pc') (hrest : AtRest pc) :
    AtRest pc' := by
  cases h with
  | close => exact .inr (.inr (.inl rfl))
  | closeWake => exact .inr (.inr (.inr rfl))
  | load | register | reload | take | storeHead | wakeWriter => simp [AtRest] at hrest

theorem EndInv.running (h : EndInv s) (hpc : ¬AtRest s.rpc) : s.rret = none := by
  by_contra hret
  exact hpc (h.resting hret)

/-- Only the access that closes the pipe sets the flag, and its end goes nowhere else. -/
theorem EndInv.byDrop_step (h : EndInv s) (ht : step s a = some t)
    (hclosed : t.pipe.closed = true) :
    (t.wpc = .closeWake ∨ t.wpc = .dropped) ∨ (t.rpc = .closeWake ∨ t.rpc = .dropped) := by
  cases ha : a.ofReader with
  | true =>
    have hs := readerSignals_step ha ht
    rcases hs.closed with hsame | ⟨-, hpc⟩
    · rw [hsame] at hclosed
      rw [hs.wpc]
      exact (h.byDrop hclosed).imp_right fun hgone => .inr (hs.gone hgone)
    · exact .inr (.inl hpc)
  | false =>
    have hs := writerSignals_step ha ht
    rcases hs.closed with hsame | ⟨-, hpc⟩
    · rw [hsame] at hclosed
      rw [hs.rpc]
      exact (h.byDrop hclosed).imp_left fun hgone => .inr (hs.gone hgone).1
    · exact .inl (.inl hpc)

/-- A step after which `drain` is running, or has returned something else. -/
theorem EndInv.silent (h : EndInv s) (ht : step s a = some t)
    (hrest : t.rret ≠ none → AtRest t.rpc) (hnot : ¬EndReported t) :
    EndInv t ∧ ReportStep s a t :=
  ⟨⟨h.byDrop_step ht, hrest, fun hend => absurd hend hnot⟩, fun hend => absurd hend hnot⟩

theorem not_reported_of_none (hret : t.rret = none) : ¬EndReported t := fun hend => by
  rw [hend.1] at hret
  cases hret

/-- A step of the reading side before or after its calls. -/
theorem EndInv.idle (h : EndInv s) (ht : step s a = some t) (hs : SameWriter s t)
    (hrpc : AtRest t.rpc) (hret : t.rret = s.rret) (href : t.refused = s.refused)
    (hhanded : t.handed = s.handed) : EndInv t ∧ ReportStep s a t := by
  have hreport : EndReported t → EndReported s := by
    rintro ⟨hend, hrefused⟩
    exact ⟨hret ▸ hend, href ▸ hrefused⟩
  refine ⟨⟨h.byDrop_step ht, fun _ => hrpc, fun hend => ?_⟩, fun hend => ?_⟩
  · obtain ⟨hclosed, hgone⟩ := h.final (hreport hend)
    rw [hs.wpc]
    exact ⟨closed_step hclosed ht, hgone⟩
  · exact .inr ⟨hreport hend, hhanded, hs.published⟩

theorem end_readerStep (hi : EndInv s) (ht : step s .readerStep = some t) :
    EndInv t ∧ ReportStep s .readerStep t := by
  rcases readerStep_cases ht with hm | ⟨hpc, rfl⟩
  · by_cases hrest : AtRest s.rpc
    · exact hi.idle ht hm.same (hm.next.atRest hrest) hm.rret hm.refused hm.handed
    · have hnone := hm.rret.trans (hi.running hrest)
      exact hi.silent ht (fun hret => absurd hnone hret) (not_reported_of_none hnone)
  · -- the only access that can report the end
    by_cases hclosed : s.pipe.closed = true
    · rw [if_pos hclosed] at ht ⊢
      refine ⟨⟨hi.byDrop_step ht, fun _ => .inl rfl, fun _ => ⟨hclosed, ?_⟩⟩,
        fun _ => .inl ⟨rfl, hpc, hclosed, rfl⟩⟩
      rcases hi.byDrop hclosed with hgone | hgone | hgone
      · exact hgone
      · cases hpc.symm.trans hgone
      · cases hpc.symm.trans hgone
    · rw [if_neg hclosed] at ht ⊢
      exact hi.silent ht (fun _ => .inl rfl) fun hend => by cases hend.1

theorem end_destWrite {res : Except IoError Nat} (h : Fifo s) (hi : EndInv s)
    (ht : step s (.destWrite res) = some t) : EndInv t ∧ ReportStep s (.destWrite res) t := by
  have hstep := ht
  simp only [step, destWrite] at hstep
  split at hstep
  · rename_i count hpc
    have hnone := hi.running (by simp [AtRest, hpc])
    split at hstep
    · obtain rfl := Option.some.inj hstep
      exact hi.silent ht (fun _ => .inl rfl) fun hend => by cases hend.1
    · rename_i n
      split at hstep
      · split at hstep
        · rename_i hzero
          obtain rfl := Option.some.inj hstep
          refine hi.silent ht (fun _ => .inl rfl) ?_
          -- `0` is the answer only if nothing was written, and then the destination refused
          rintro ⟨hret, hrefused⟩
          have hcount : count + n = 0 := by simpa [returnR] using hret
          have hpos := h.offered_pos (by rw [hpc, Nat.eq_zero_of_add_eq_zero_right hcount])
          exact of_decide_eq_false hrefused hpos
        · obtain rfl := Option.some.inj hstep
          exact hi.silent ht (fun hret => absurd hnone hret) (not_reported_of_none hnone)
      · cases hstep
  · cases hstep

theorem end_reader (h : Fifo s) (hi : EndInv s) (ha : a.ofReader = true)
    (ht : step s a = some t) : EndInv t ∧ ReportStep s a t := by
  cases a with
  | readerStep => exact end_readerStep hi ht
  | destWrite res => exact end_destWrite h hi ht
  | drain cx =>
    obtain ⟨-, rfl⟩ := drain_eq ht
    exact hi.silent ht (fun hret => absurd rfl hret) (not_reported_of_none rfl)
  | dropReader =>
    obtain ⟨-, rfl⟩ := dropReader_eq ht
    exact hi.idle ht ⟨rfl, rfl, rfl, rfl, rfl⟩ (.inr (.inl rfl)) rfl rfl rfl
  | readerYield yields =>
    have hstep := ht
    simp only [step] at hstep
    split at hstep
    · rename_i hpc
      have hnone := hi.running (by simp [AtRest, hpc])
      cases yields with
      | true =>
        obtain rfl := Option.some.inj hstep
        exact hi.silent ht (fun _ => .inl rfl) fun hend => by cases hend.1
      | false =>
        obtain rfl := Option.some.inj hstep
        exact hi.silent ht (fun hret => absurd hnone hret) (not_reported_of_none hnone)
    · cases hstep
  | fill | writerStep | writerYield | srcRead | dropWriter => exact Bool.noConfusion ha

/-- After the end was reported the writing end publishes nothing any more. -/
theorem end_writer (hi : EndInv s) (ha : a.ofReader = false) (ht : step s a = some t) :
    EndInv t ∧ ReportStep s a t := by
  have hs := writerSignals_step ha ht
  have hreport : EndReported t → EndReported s := by
    rintro ⟨hret, hrefused⟩
    exact ⟨hs.rret ▸ hret, hs.refused ▸ hrefused⟩
  refine ⟨⟨hi.byDrop_step ht, fun hret => ?_, fun hend => ?_⟩, fun hend => ?_⟩
  · rw [hs.rret] at hret
    rw [hs.rpc]
    exact hi.resting hret
  · obtain ⟨hclosed, hgone⟩ := hi.final (hreport hend)
    exact ⟨closed_step hclosed ht, .inr (hs.gone hgone).1⟩
  · have hold := hreport hend
    exact .inr ⟨hold, hs.handed, (hs.gone (hi.final hold).2).2⟩

theorem end_step (h : Fifo s) (hi : EndInv s) (ht : step s a = some t) :
    EndInv t ∧ ReportStep s a t := by
  cases ha : a.ofReader with
  | true => exact end_reader h hi ha ht
  | false => exact end_writer hi ha ht

end Report

theorem end_of_reachable {cap : Capacity} {s : State} (hs : (system cap).Reachable s) :
    EndInv s := by
  have hboth : Fifo s ∧ EndInv s := by
    refine hs.invariant (I := fun s => Fifo s ∧ EndInv s) ⟨fifo_pipe cap, ?_⟩ ?_
    · constructor <;> simp [system, pipe, EndReported]
    · intro s a t hi ht
      exact ⟨fifo_step hi.1 ht, (end_step hi.1 hi.2 ht).1⟩
  exact hboth.2

theorem report_complete_iff {s : State} (h : Fifo s) (hpc : s.rpc = .loadClosed)
    (hclosed : s.pipe.closed = true) :
    s.handed = s.published.map some ↔ TailFresh s .readerStep := by
  rw [h.handed_eq_iff, ← h.tail_eq_iff hpc]
  exact ⟨fun e _ _ _ => e, fun e => e rfl hpc hclosed⟩

theorem endComplete_of_reachableVia {cap : Capacity} {s : State}
    (hs : (system cap).ReachableVia TailFresh s) : EndComplete s := by
  have hinv : (system cap).Reachable s ∧ EndComplete s := by
    refine hs.invariant (I := fun s => (system cap).Reachable s ∧ EndComplete s)
      ⟨.init, ?_⟩ ?_
    · simp [EndComplete, EndReported, system, pipe]
    · rintro s a t hfresh ⟨hr, hcomplete⟩ ht
      refine ⟨hr.next ht, fun hend => ?_⟩
      have hf := fifo_of_reachable hr
      rcases (end_step hf (end_of_reachable hr) ht).2 hend with
        ⟨rfl, hpc, hclosed, rfl⟩ | ⟨hold, hh, hp⟩
      · exact (report_complete_iff hf hpc hclosed).mpr hfresh
      · rw [hh, hp]
        exact hcomplete hold
  exact hinv.2

/-- In every run in which no publication slips in between the two loads that the
report of `drain` rests on, the end is reported only when everything went
through; and in any run a report is right exactly if its own step meets that
condition. -/
theorem drain_end_complete (cap : Capacity) :
    (∀ s, (system cap).ReachableVia TailFresh s → EndComplete s) ∧
    ∀ s a t, (system cap).Reachable s → step s a = some t → ¬EndReported s → EndReported t →
      (t.handed = t.published.map some ↔ TailFresh s a) := by
  constructor
  · intro s hs
    exact endComplete_of_reachableVia hs
  · intro s a t hr ht hnew hend
    have hf := fifo_of_reachable hr
    rcases (end_step hf (end_of_reachable hr) ht).2 hend with
      ⟨rfl, hpc, hclosed, rfl⟩ | ⟨hold, -, -⟩
    · exact report_complete_iff hf hpc hclosed
    · exact absurd hold hnew

/-- The writer publishes a byte and is dropped; then the reader drains twice. -/
def drainAfterClose : List Act :=
  [.fill 2, .writerStep, .writerStep, .writerStep, .writerYield false, .srcRead (.ok [7]),
   .writerStep, .writerStep, .writerStep, .srcRead (.ok []), .dropWriter, .writerStep, .writerStep,
   .drain 1, .readerStep, .readerStep, .readerYield false, .destWrite (.ok 1), .readerStep,
   .readerStep, .destWrite (.ok 0),
   .drain 1, .readerStep, .readerStep, .readerStep, .readerStep]

theorem drain_end_complete_afterClose : ∃ s, (system fourBytes).ReachableVia TailFresh s ∧
    EndReported s ∧ s.published = [7] ∧ s.handed = s.published.map some := by
  obtain ⟨s, hs, hend, hpub⟩ := (system fourBytes).exists_of_runVia TailFresh
    (P := fun s => EndReported s ∧ s.published = [7]) drainAfterClose (by decide)
  exact ⟨s, hs, hend, hpub, (drain_end_complete fourBytes).1 s hs hend⟩

/-- The writer publishes a byte and is dropped between the reader's second load
of `tail` and its load of `closed`. -/
def latePublication : List Act :=
  [.drain 1, .readerStep, .readerStep, .readerStep,
   .fill 2, .writerStep, .writerStep, .writerStep, .writerYield false, .srcRead (.ok [7]),
   .writerStep, .writerStep, .writerStep, .srcRead (.ok []),
   .dropWriter, .writerStep, .writerStep, .readerStep]

theorem drain_end_loses_byte :
    ∃ s, (system fourBytes).run latePublication = some s ∧
      s.rret = some (.ready (.ok 0)) ∧ s.refused = false ∧ s.published = [7] ∧ s.handed = [] ∧
      ¬∀ s, (system fourBytes).Reachable s → EndComplete s := by
  refine ⟨_, rfl, rfl, rfl, rfl, rfl, fun h => ?_⟩
  have hlost := h _ (System.reachable_of_run latePublication rfl) ⟨rfl, rfl⟩
  cases hlost

end Cynthia.Blocking
