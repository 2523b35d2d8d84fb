import Cynthia.Blocking.EndOfStream

/-! Pipes between a caller and a file that does not fail: when `drain` and `fill` answer 0,
and everything that is known of such a pipe, or of one whose source may fail. -/

namespace Cynthia.Blocking

open Transition

variable {p q : State} {a : Act} {yields : Bool} {n : Nat} {data : List UInt8}

/-! ## Answers of 0 -/

/-- Before its first `src.read` a `fill` has found room, and a count that it carries
on from there is not 0. -/
structure Roomy (p : State) : Prop where
  notFull : p.wpc = .take ∨ p.wpc = .maybeYield ∨ p.wpc = .read 0 →
    p.published.length < p.headSeen + p.pipe.cap
  counted : ∀ count, p.wpc = .wakeReader count ∨
    (∃ data, p.wpc = .checkClosed count data ∨ p.wpc = .storeTail count data) → 0 < count

theorem Roomy.of_same (h : Roomy p) (hs : SameWriter p q) : Roomy q := by
  obtain ⟨hpub, hwpc, -, hseen, hcap⟩ := hs
  constructor
  · rw [hpub, hwpc, hseen, hcap]
    exact h.notFull
  · rw [hwpc]
    exact h.counted

/-- At the other program points there is nothing to show. -/
theorem Roomy.of_pc (hnot : q.wpc ≠ .take ∧ q.wpc ≠ .maybeYield ∧ q.wpc ≠ .read 0)
    (hcount : ∀ count, q.wpc ≠ .wakeReader count ∧
      ∀ data, q.wpc ≠ .checkClosed count data ∧ q.wpc ≠ .storeTail count data) : Roomy q := by
  constructor
  · rintro (h | h | h)
    · exact absurd h hnot.1
    · exact absurd h hnot.2.1
    · exact absurd h hnot.2.2
  · rintro count (h | ⟨data, h | h⟩)
    · exact absurd h (hcount count).1
    · exact absurd h ((hcount count).2 data).1
    · exact absurd h ((hcount count).2 data).2

theorem Fifo.lt_of_not_full (h : Fifo p) (ha : ahead p.wpc = 0) (hfull : ¬full p) :
    p.published.length < p.headSeen + p.pipe.cap := by
  have hroom := h.writer.room
  have hlen := Fifo.produced_length p
  rw [full, h.distance_writer ha] at hfull
  omega

theorem Roomy.writerStep (h : Roomy p) (hf : Fifo p) (ht : writerStep p = some q) : Roomy q := by
  unfold Blocking.writerStep at ht
  split at ht
  case h_12 => cases ht
  case h_1 hpc =>
    split at ht <;> cases ht <;> exact .of_pc (by simp [returnW]) (by simp [returnW])
  case h_2 hpc =>
    have ha : ahead p.wpc = 0 := by rw [hpc]; rfl
    split at ht
    · cases ht
      by_cases hfull : full (loadHead p)
      · rw [if_pos hfull]
        exact .of_pc (by simp) (by simp)
      · rw [if_neg hfull]
        exact ⟨fun _ => hf.loadHead.lt_of_not_full ha hfull, by simp⟩
    · rename_i hfull
      cases ht
      exact ⟨fun _ => hf.lt_of_not_full ha hfull, by simp⟩
  case h_4 hpc =>
    have ha : ahead p.wpc = 0 := by rw [hpc]; rfl
    cases ht
    by_cases hfull : full (loadHead p)
    · rw [if_pos hfull]
      exact .of_pc (by simp) (by simp)
    · rw [if_neg hfull]
      exact ⟨fun _ => hf.loadHead.lt_of_not_full ha hfull, by simp⟩
  case h_6 hpc =>
    cases ht
    exact ⟨fun _ => h.notFull (.inl hpc), by simp⟩
  case h_7 count data hpc =>
    have hpos := h.counted count (.inr ⟨data, .inl hpc⟩)
    split at ht
    · cases ht
      exact .of_pc (by simp [returnW]) (by simp [returnW])
    · cases ht
      exact ⟨by simp, by simp [hpos]⟩
  case h_8 count data hpc =>
    have hpos := h.counted count (.inr ⟨data, .inr hpc⟩)
    cases ht
    exact ⟨by simp, by simp [hpos]⟩
  case h_9 count hpc =>
    have hpos := h.counted count (.inl hpc)
    cases ht
    exact ⟨by simp; omega, by simp⟩
  all_goals
    cases ht
    exact .of_pc (by simp [returnW]) (by simp [returnW])

theorem Roomy.srcRead {res : Except IoError (List UInt8)} (ht : srcRead p res = some q) :
    Roomy q := by
  unfold Blocking.srcRead at ht
  split at ht
  · split at ht
    · obtain rfl := Option.some.inj ht
      exact .of_pc (by simp [returnW]) (by simp [returnW])
    · split at ht
      · split at ht
        · obtain rfl := Option.some.inj ht
          exact .of_pc (by simp [returnW]) (by simp [returnW])
        · obtain rfl := Option.some.inj ht
          exact ⟨by simp, by simp; omega⟩
      · cases ht
  · cases ht

theorem roomy_step (h : Roomy p) (hf : Fifo p) (ht : step p a = some q) : Roomy q := by
  cases a with
  | writerStep => exact h.writerStep hf ht
  | srcRead res => exact Roomy.srcRead ht
  | fill cx =>
    obtain ⟨-, rfl⟩ := fill_eq ht
    exact .of_pc (by simp) (by simp)
  | dropWriter =>
    obtain ⟨-, rfl⟩ := dropWriter_eq ht
    exact .of_pc (by simp) (by simp)
  | writerYield yields =>
    simp only [step] at ht
    split at ht
    · rename_i hpc
      cases ht
      cases yields with
      | true => exact .of_pc (by simp [returnW]) (by simp [returnW])
      | false => exact ⟨fun _ => h.notFull (.inr (.inl hpc)), by simp⟩
    · cases ht
  | drain | readerStep | readerYield | destWrite | dropReader =>
    exact h.of_same (sameWriter_step rfl ht)

theorem roomy_of_reachable {cap : Capacity} (hp : (system cap).Reachable p) : Roomy p := by
  have hboth : Fifo p ∧ Roomy p := by
    refine hp.invariant (I := fun p => Fifo p ∧ Roomy p) ⟨fifo_pipe cap, ?_⟩ ?_
    · exact .of_pc (by simp [system, pipe]) (by simp [system, pipe])
    · intro p a q h ht
      exact ⟨fifo_step h.1 ht, roomy_step h.2 h.1 ht⟩
  exact hboth.2

theorem Roomy.requested_pos (h : Roomy p) (hf : Fifo p) (hpc : p.wpc = .read 0) :
    0 < requested p := by
  have hlt := h.notFull (.inr (.inr hpc))
  have hmod := Nat.mod_lt p.published.length hf.cap_pos
  rw [hf.requested_eq (by rw [hpc]; rfl)]
  simp only [lt_min_iff]
  omega

/-- A `fill` answers 0 only if it finds the pipe closed or its source empty. -/
theorem Roomy.fillAct_zero (h : Roomy p) (hf : Fifo p) (hopen : p.pipe.closed = false)
    (ht : step p (fillAct p yields data) = some q) (hpc : q.wpc = .idle)
    (hret : q.wret = some (.ready (.ok 0))) :
    p.wpc = .read 0 ∧ data = [] ∧ 0 < requested p := by
  rcases fillAct_cases ht with ⟨-, rfl⟩ | ⟨count, hread, -, rfl⟩ | ⟨ht, -⟩
  · cases yields with
    | true => cases hret
    | false => cases hpc
  · unfold filled at hpc hret
    split at hret
    · rename_i hzero
      simp only [returnW, Option.some.injEq, Poll.ready.injEq, Except.ok.injEq] at hret
      have hcount : count = 0 := by omega
      rw [hcount] at hread
      exact ⟨hread, List.length_eq_zero_iff.mp hzero, h.requested_pos hf hread⟩
    · rename_i hpos
      rw [if_neg hpos] at hpc
      cases hpc
  · -- in an open pipe these accesses return `Pending` at most
    rcases writerStep_cases ht with hm | ⟨res, hreturns, rfl⟩
    · exact absurd hpc hm.next.ne_idle
    · rw [hopen] at hreturns
      generalize p.wpc = pc at hreturns
      cases hreturns with
      | loadClosed h => cases h
      | loadClosedFull => cases hret
      | checkClosed count data h => cases h

/-- A destination that turned bytes away had taken some before. -/
def Unrefused (p : State) : Prop :=
  p.refused = true → ∃ n, p.rret = some (.ready (.ok (n + 1)))

theorem Unrefused.endReported (h : Unrefused p) (hret : p.rret = some (.ready (.ok 0))) :
    EndReported p := by
  refine ⟨hret, ?_⟩
  by_contra hrefused
  obtain ⟨n, hn⟩ := h (Bool.not_eq_false _ |>.mp hrefused)
  rw [hret] at hn
  cases hn

theorem Unrefused.readerStep (h : Unrefused p) (hi : EndInv p) (ht : readerStep p = some q) :
    Unrefused q := by
  -- a `drain` that is running has no result yet, so nothing was refused
  have hrunning : ¬AtRest p.rpc → p.refused = false := by
    intro hrun
    by_contra hrefused
    obtain ⟨n, hn⟩ := h (Bool.not_eq_false _ |>.mp hrefused)
    exact hrun (hi.resting (by simp [hn]))
  rcases readerStep_cases ht with hm | ⟨hpc, rfl⟩
  · intro htrue
    rw [hm.rret]
    exact h (hm.refused ▸ htrue)
  · have hfalse := hrunning (by simp [hpc, AtRest])
    intro htrue
    exact Bool.noConfusion (hfalse.symm.trans htrue)

/-! ## Calm use -/

/-- No destination fails or refuses the first slice, and no end of the stream is
reported on a stale tail. -/
def Steady (p : State) (a : Act) : Prop :=
  TailFresh p a ∧ (a = .destWrite (.ok 0) → p.rpc ≠ .write 0) ∧ ∀ e, a ≠ .destWrite (.error e)

/-- No destination or source fails, none refuses the first slice, and no end of the
stream is reported on a stale tail. -/
def Calm (p : State) (a : Act) : Prop :=
  TailFresh p a ∧ (a = .destWrite (.ok 0) → p.rpc ≠ .write 0) ∧
    (∀ e, a ≠ .destWrite (.error e)) ∧ ∀ e, a ≠ .srcRead (.error e)

def NoError (p : State) : Prop :=
  (∀ e, p.rret ≠ some (.ready (.error e))) ∧ ∀ e, p.wret ≠ some (.ready (.error e))

theorem Unrefused.destWrite (h : Unrefused p) (hn : p.rpc = .write 0 → n ≠ 0)
    (ht : destWrite p (.ok n) = some q) : Unrefused q := by
  unfold Blocking.destWrite at ht
  split at ht
  · rename_i count hpc
    dsimp only at ht
    split at ht
    · split at ht
      · rename_i hzero
        cases ht
        cases count with
        | zero => exact absurd hzero (hn hpc)
        | succ count =>
          intro _
          exact ⟨count, by rw [hzero]; rfl⟩
      · cases ht
        exact h
    · cases ht
  · cases ht

theorem unrefused_step (h : Unrefused p) (hi : EndInv p) (hsteady : Steady p a)
    (ht : step p a = some q) : Unrefused q := by
  obtain ⟨-, hzero, hdest⟩ := hsteady
  cases a with
  | readerStep => exact h.readerStep hi ht
  | destWrite res =>
    cases res with
    | error e => exact absurd rfl (hdest e)
    | ok n =>
      refine h.destWrite ?_ ht
      rintro hpc rfl
      exact hzero rfl hpc
  | drain cx =>
    obtain ⟨-, rfl⟩ := drain_eq ht
    intro hrefused
    cases hrefused
  | dropReader =>
    obtain ⟨-, rfl⟩ := dropReader_eq ht
    exact h
  | readerYield yields =>
    simp only [step] at ht
    split at ht
    · rename_i hpc
      have hfalse : p.refused = false := by
        by_contra hrefused
        obtain ⟨n, hn⟩ := h (Bool.not_eq_false _ |>.mp hrefused)
        have hrest := hi.resting (by simp [hn])
        simp [hpc, AtRest] at hrest
      cases ht
      intro htrue
      cases yields <;> exact Bool.noConfusion (hfalse.symm.trans htrue)
    · cases ht
  | fill | writerStep | writerYield | srcRead | dropWriter =>
    obtain ⟨-, -, hrret, hrefused⟩ := sameReader_step rfl ht
    intro htrue
    rw [hrret]
    exact h (hrefused ▸ htrue)

/-- Without errors from outside, an answer is no error. -/
theorem rret_step (hdest : ∀ e, a ≠ .destWrite (.error e)) (ht : step p a = some q) :
    q.rret = p.rret ∨ ∀ e, q.rret ≠ some (.ready (.error e)) := by
  cases a with
  | readerStep =>
    rcases readerStep_cases ht with h | ⟨-, rfl⟩
    · exact .inl h.rret
    · refine .inr fun e he => ?_
      dsimp only [returnR] at he
      split at he <;> cases he
  | destWrite res =>
    cases res with
    | error e => exact absurd rfl (hdest e)
    | ok n =>
      simp only [step] at ht
      unfold destWrite at ht
      split at ht
      · dsimp only at ht
        split at ht
        · split at ht
          · cases ht
            exact .inr fun e he => by cases he
          · cases ht
            exact .inl rfl
        · cases ht
      · cases ht
  | drain cx =>
    obtain ⟨-, rfl⟩ := drain_eq ht
    exact .inr fun e he => by cases he
  | dropReader =>
    obtain ⟨-, rfl⟩ := dropReader_eq ht
    exact .inl rfl
  | readerYield yields =>
    simp only [step] at ht
    split at ht
    · cases ht
      cases yields with
      | true => exact .inr fun e he => by cases he
      | false => exact .inl rfl
    · cases ht
  | fill | writerStep | writerYield | srcRead | dropWriter =>
    exact .inl (sameReader_step rfl ht).rret

theorem wret_step (hsrc : ∀ e, a ≠ .srcRead (.error e)) (ht : step p a = some q) :
    q.wret = p.wret ∨ ∀ e, q.wret ≠ some (.ready (.error e)) := by
  cases a with
  | writerStep =>
    rcases writerStep_cases ht with h | ⟨res, -, rfl⟩
    · exact .inl h.wret
    · cases res <;> exact .inr fun e he => by cases he
  | srcRead res =>
    cases res with
    | error e => exact absurd rfl (hsrc e)
    | ok data =>
      have hwret : (zeroSlice p).wret = p.wret := by
        unfold zeroSlice
        split <;> rfl
      simp only [step] at ht
      unfold srcRead at ht
      generalize zeroSlice p = z at ht hwret
      split at ht
      · dsimp only at ht
        split at ht
        · split at ht
          · cases ht
            exact .inr fun e he => by cases he
          · cases ht
            exact .inl hwret
        · cases ht
      · cases ht
  | fill cx =>
    obtain ⟨-, rfl⟩ := fill_eq ht
    exact .inr fun e he => by cases he
  | dropWriter =>
    obtain ⟨-, rfl⟩ := dropWriter_eq ht
    exact .inl rfl
  | writerYield yields =>
    simp only [step] at ht
    split at ht
    · cases ht
      cases yields with
      | true => exact .inr fun e he => by cases he
      | false => exact .inl rfl
    · cases ht
  | drain | readerStep | readerYield | destWrite | dropReader =>
    exact .inl (sameWriter_step rfl ht).wret

theorem noError_step (h : NoError p) (hcalm : Calm p a) (ht : step p a = some q) : NoError q := by
  obtain ⟨-, -, hdest, hsrc⟩ := hcalm
  obtain ⟨hr, hw⟩ := h
  refine ⟨?_, ?_⟩
  · rcases rret_step hdest ht with hsame | hok
    · rw [hsame]
      exact hr
    · exact hok
  · rcases wret_step hsrc ht with hsame | hok
    · rw [hsame]
      exact hw
    · exact hok

theorem Calm.steady (h : Calm p a) : Steady p a := ⟨h.1, h.2.1, h.2.2.1⟩

theorem steady_next {cap : Capacity} (hp : (system cap).ReachableVia Steady p) (hsteady : Steady p a)
    (ht : step p a = some q) : (system cap).ReachableVia Steady q :=
  .next hp hsteady ht

theorem steady_of_ne (hstep : a ≠ .readerStep) (hdest : ∀ res, a ≠ .destWrite res) : Steady p a :=
  ⟨fun hx => absurd hx hstep, fun hx => absurd hx (hdest _), fun _ => hdest _⟩

theorem calm_next {cap : Capacity} (hp : (system cap).ReachableVia Calm p)
    (ht : step p a = some q) (hcalm : Calm p a) : (system cap).ReachableVia Calm q :=
  .next hp hcalm ht

theorem calm_of_ne (hstep : a ≠ .readerStep) (hdest : ∀ res, a ≠ .destWrite res)
    (hsrc : ∀ e, a ≠ .srcRead (.error e)) : Calm p a :=
  ⟨fun h => absurd h hstep, fun h => absurd h (hdest _), fun _ => hdest _, hsrc⟩

theorem calm_readerStep (hfresh : TailFresh p .readerStep) : Calm p .readerStep :=
  ⟨hfresh, by simp, by simp, by simp⟩

theorem calm_drainAct (hfresh : TailFresh p .readerStep) (hn : p.rpc = .write 0 → n ≠ 0) :
    Calm p (drainAct p yields n) := by
  unfold drainAct
  split
  · exact calm_of_ne (by simp) (by simp) (by simp)
  · refine ⟨by simp [TailFresh], ?_, by simp, by simp⟩
    intro h hpc
    cases h
    exact hn hpc rfl
  · exact calm_readerStep hfresh

theorem calm_fillAct : Calm p (fillAct p yields data) := by
  unfold fillAct
  split <;> exact calm_of_ne (by simp) (by simp) (by simp)

/-- A reader without errors of its own reads none. -/
theorem rret_of_steady {cap : Capacity} (hp : (system cap).ReachableVia Steady p) (e : IoError) :
    p.rret ≠ some (.ready (.error e)) := by
  refine hp.invariant (I := fun p => ∀ e, p.rret ≠ some (.ready (.error e))) ?_ ?_ e
  · exact fun e he => by cases he
  · intro p a q hsteady hno ht
    rcases rret_step hsteady.2.2 ht with hsame | hok
    · rw [hsame]
      exact hno
    · exact hok

/-- What is known of a pipe that was only used steadily. -/
structure Settled (p : State) : Prop where
  fifo : Fifo p
  ends : EndInv p
  complete : EndComplete p
  roomy : Roomy p
  unrefused : Unrefused p

theorem settled_of_reachableVia {cap : Capacity} (hp : (system cap).ReachableVia Steady p) :
    Settled p := by
  have hinv : (system cap).Reachable p ∧ Unrefused p := by
    refine hp.invariant (I := fun p => (system cap).Reachable p ∧ Unrefused p) ⟨.init, ?_⟩ ?_
    · intro hrefused
      cases hrefused
    · rintro p a q hsteady ⟨hr, hunrefused⟩ ht
      exact ⟨hr.next ht, unrefused_step hunrefused (end_of_reachable hr) hsteady ht⟩
  obtain ⟨hr, hunrefused⟩ := hinv
  exact ⟨fifo_of_reachable hr, end_of_reachable hr,
    endComplete_of_reachableVia (hp.mono fun _ _ h => h.1), roomy_of_reachable hr, hunrefused⟩

/-- An answer of 0 from `drain` is the end of a stream that went through. -/
theorem Settled.ended (h : Settled p) (hret : p.rret = some (.ready (.ok 0))) :
    p.handed = p.published.map some ∧ (p.wpc = .closeWake ∨ p.wpc = .dropped) := by
  have hend := h.unrefused.endReported hret
  exact ⟨h.complete hend, (h.ends.final hend).2⟩

/-- Only a dropped end closes the pipe. -/
theorem Settled.isOpen (h : Settled p) (hr : p.rpc.closing = false) (hw : p.wpc.closing = false) :
    p.pipe.closed = false := by
  by_contra hclosed
  rcases h.ends.byDrop (Bool.not_eq_false _ |>.mp hclosed) with (hpc | hpc) | (hpc | hpc)
  · rw [hpc] at hw
    cases hw
  · rw [hpc] at hw
    cases hw
  · rw [hpc] at hr
    cases hr
  · rw [hpc] at hr
    cases hr

/-- What is known of a pipe that was only used calmly. -/
structure Sound (p : State) : Prop where
  fifo : Fifo p
  ends : EndInv p
  complete : EndComplete p
  roomy : Roomy p
  unrefused : Unrefused p
  noError : NoError p

theorem Sound.settled (h : Sound p) : Settled p :=
  ⟨h.fifo, h.ends, h.complete, h.roomy, h.unrefused⟩

theorem sound_of_reachableVia {cap : Capacity} (hp : (system cap).ReachableVia Calm p) :
    Sound p := by
  have hno : NoError p := by
    refine hp.invariant (I := NoError) ?_ fun _ _ _ hcalm hno ht => noError_step hno hcalm ht
    constructor <;> simp [system, pipe]
  have hs := settled_of_reachableVia (hp.mono fun _ _ h => h.steady)
  exact ⟨hs.fifo, hs.ends, hs.complete, hs.roomy, hs.unrefused, hno⟩

theorem Sound.ended (h : Sound p) (hret : p.rret = some (.ready (.ok 0))) :
    p.handed = p.published.map some ∧ (p.wpc = .closeWake ∨ p.wpc = .dropped) :=
  h.settled.ended hret

theorem Sound.isOpen (h : Sound p) (hr : p.rpc.closing = false) (hw : p.wpc.closing = false) :
    p.pipe.closed = false := h.settled.isOpen hr hw

end Cynthia.Blocking
