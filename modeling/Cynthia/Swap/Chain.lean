import Cynthia.Lib.Transition
import Cynthia.Swap.Adapters

/-! Reads through `Chain` of `future/swap.rs`: which of its readers it asks. -/

namespace Cynthia.AsyncIo.Chain

open Polling Transition

variable {R1 R2 : Type}

/-! ## One call -/

section Call

variable {isEnd : Data → Bool} {pollFirst : R1 → Outcome R1 (Result Data)}
  {pollSecond : R2 → Outcome R2 (Result Data)} {this this' : Chain R1 R2}
  {res : Poll (Result Data)}

/-- The first reader is done for, or it answers what is no end, or its end is reached and
the second one answers. -/
theorem pollWith_cases (h : pollWith isEnd pollFirst pollSecond this = .ok (res, this')) :
    (this.doneFirst = true ∧ ∃ second, pollSecond this.second = .ok (res, second) ∧
      this' = { this with second }) ∨
    (this.doneFirst = false ∧ ∃ first, pollFirst this.first = .ok (res, first) ∧
      this' = { this with first } ∧ ∀ bs, res = .ready (.ok bs) → isEnd bs = false) ∨
    (this.doneFirst = false ∧ ∃ bs first second,
      pollFirst this.first = .ok (.ready (.ok bs), first) ∧ isEnd bs = true ∧
      pollSecond this.second = .ok (res, second) ∧ this' = ⟨first, second, true⟩) := by
  rw [pollWith] at h
  split at h
  · rename_i hdone
    obtain ⟨second, hsecond, rfl⟩ := through_cases h
    exact .inl ⟨hdone, second, hsecond, rfl⟩
  · rename_i hdone
    have hdone : this.doneFirst = false := Bool.eq_false_iff.mpr hdone
    refine .inr ?_
    generalize hfirst : pollFirst this.first = answer at h
    rcases answer with e | ⟨_ | e | bs, first⟩
    · cases h
    · cases h
      exact .inl ⟨hdone, first, rfl, rfl, fun _ h => by cases h⟩
    · cases h
      exact .inl ⟨hdone, first, rfl, rfl, fun _ h => by cases h⟩
    · change (if isEnd bs then _ else _) = _ at h
      split at h
      · rename_i hend
        obtain ⟨second, hsecond, rfl⟩ := through_cases h
        exact .inr ⟨hdone, bs, first, second, rfl, hend, hsecond, rfl⟩
      · rename_i hend
        cases h
        refine .inl ⟨hdone, first, rfl, rfl, fun bs' hbs => ?_⟩
        cases hbs
        exact Bool.eq_false_iff.mpr hend

end Call

/-! ## Runs -/

inductive Call where
  | pollRead (cx : Context) (len : Nat)
  | pollReadVectored (cx : Context) (lens : List Nat)
  deriving DecidableEq

def Call.run {R : Type} [AsyncRead R] : Call → R → Outcome R (Result Data)
  | .pollRead cx len => AsyncRead.pollRead cx len
  | .pollReadVectored cx lens => AsyncRead.pollReadVectored cx lens

/-- The room in all buffers together. -/
def Call.room : Call → Nat
  | .pollRead _ len => len
  | .pollReadVectored _ lens => lens.sum

/-- The two tests of `Chain` for the end of its first reader. -/
def Call.isEnd : Call → Data → Bool
  | .pollRead _ len, bs => bs.length == 0 && len != 0
  | .pollReadVectored _ lens, bs => bs.length == 0 && !lens.isEmpty

structure State (R1 R2 : Type) where
  chain : Chain (Asked R1) (Asked R2)
  /-- What the caller has got. -/
  delivered : Data

section Runs

variable [AsyncRead R1] [AsyncRead R2]

def step (s : State R1 R2) (c : Call) : Option (State R1 R2) :=
  match c.run s.chain with
  | .ok (res, chain) => some ⟨chain, s.delivered ++ given res⟩
  | .error _ => none

def system (first : R1) (second : R2) : System (State R1 R2) Call :=
  ⟨⟨chain (asked first) (asked second), []⟩, step⟩

/-- Asked for at least one byte, the reader has answered `Ok(0)`. -/
def Ended (asks : List Ask) : Prop := ∃ ask ∈ asks, 0 < ask.room ∧ ask.answer = .ready (.ok [])

/-- The second reader is asked only behind the end of the first one, and the caller has all
bytes of both in this order. -/
structure Faithful (s : State R1 R2) : Prop where
  ended : s.chain.second.asks ≠ [] → Ended s.chain.first.asks
  delivered : s.delivered = taken s.chain.first.asks ++ taken s.chain.second.asks

/-- The first reader, not done yet, gets a list of buffers that are all empty, and answers
`Ok(0)`. -/
def Misread (s : State R1 R2) : Call → Prop
  | .pollRead _ _ => False
  | .pollReadVectored cx lens => s.chain.doneFirst = false ∧ lens ≠ [] ∧ lens.sum = 0 ∧
      ∃ first, pollReadVectored cx lens s.chain.first.inner = .ok (.ready (.ok []), first)

structure Inv (s : State R1 R2) : Prop extends Faithful s where
  first : s.chain.doneFirst = false → ¬Ended s.chain.first.asks ∧ s.chain.second.asks = []
  second : s.chain.doneFirst = true → Ended s.chain.first.asks

end Runs

section Steps

variable {S1 S2 : Type} [AsyncRead R1] [AsyncRead S1] [AsyncRead S2] {c : Call} {bs : Data}
  {asks : List Ask} {ask : Ask}

theorem run_chain (this : Chain S1 S2) : c.run this = pollWith c.isEnd c.run c.run this := by
  cases c <;> rfl

theorem run_asked_cases {this this' : Asked R1} {res : Poll (Result Data)}
    (h : c.run this = .ok (res, this')) :
    ∃ inner, c.run this.inner = .ok (res, inner) ∧
      this' = ⟨inner, this.asks ++ [⟨c.room, res⟩]⟩ := by
  have h : this.record c.room (c.run this.inner) = .ok (res, this') := by
    rw [← h]
    cases c <;> rfl
  generalize c.run this.inner = answer at h
  rcases answer with e | ⟨answer, inner⟩
  · cases h
  · cases h
    exact ⟨inner, rfl, rfl⟩

theorem Call.isEnd_eq_nil (h : c.isEnd bs = true) : bs = [] := by
  cases c with
  | pollRead | pollReadVectored =>
    exact List.length_eq_zero_iff.mp (beq_iff_eq.mp (Bool.and_eq_true_iff.mp h).1)

/-- A request for at least one byte is always told from the end. -/
theorem Call.room_eq_zero (h : c.isEnd [] = false) : c.room = 0 := by
  cases c with
  | pollRead cx len => exact Nat.eq_zero_of_not_pos fun hlen =>
      Bool.false_ne_true (h.symm.trans (bne_iff_ne.mpr (Nat.ne_of_gt hlen)))
  | pollReadVectored cx lens => cases lens with
    | nil => rfl
    | cons => cases h

theorem ended_append : Ended (asks ++ [ask]) ↔
    Ended asks ∨ 0 < ask.room ∧ ask.answer = .ready (.ok []) := by
  constructor
  · rintro ⟨a, hmem, ha⟩
    rcases List.mem_append.mp hmem with hmem | hmem
    · exact .inl ⟨a, hmem, ha⟩
    · rw [List.mem_singleton.mp hmem] at ha
      exact .inr ha
  · rintro (⟨a, hmem, ha⟩ | hask)
    · exact ⟨a, List.mem_append_left _ hmem, ha⟩
    · exact ⟨ask, List.mem_append_right _ (List.mem_singleton_self ask), hask⟩

/-- A call for no bytes that `Chain` takes to have reached the end. -/
theorem misread_iff {s : State R1 R2} :
    Misread s c ↔ s.chain.doneFirst = false ∧ c.isEnd [] = true ∧ c.room = 0 ∧
      ∃ first, c.run s.chain.first.inner = .ok (.ready (.ok []), first) := by
  cases c with
  | pollRead cx len =>
    refine iff_of_false id fun ⟨_, hend, hroom, _⟩ => ?_
    rw [show len = 0 from hroom] at hend
    cases hend
  | pollReadVectored cx lens =>
    refine and_congr_right fun _ => and_congr_left fun _ => ?_
    cases lens with
    | nil => exact iff_of_false (fun h => h rfl) Bool.false_ne_true
    | cons => exact iff_of_true (List.cons_ne_nil _ _) rfl

variable [AsyncRead R2] {s t : State R1 R2}

theorem inv_step (h : Inv s) (ht : step s c = some t) :
    (¬Misread s c → Inv t) ∧ (Misread s c → ¬Faithful t) := by
  obtain ⟨⟨first, second, doneFirst⟩, delivered⟩ := s
  rw [step] at ht
  split at ht
  · rename_i res chain hrun
    obtain rfl := Option.some.inj ht
    rw [run_chain] at hrun
    rw [misread_iff]
    have hdelivered := h.delivered
    rcases pollWith_cases hrun with ⟨hdone, second', hsecond, rfl⟩ |
      ⟨hdone, first', hfirst, rfl, hnot⟩ | ⟨hdone, bs, first', second', hfirst, hend, hsecond, rfl⟩
    · obtain ⟨inner, -, rfl⟩ := run_asked_cases hsecond
      obtain rfl : doneFirst = true := hdone
      refine ⟨fun _ => ?_, fun hmisread => by cases hmisread.1⟩
      refine ⟨⟨fun _ => h.second rfl, ?_⟩, fun hdone => (by cases hdone), fun _ => h.second rfl⟩
      dsimp only at hdelivered ⊢
      rw [hdelivered, taken_append, List.append_assoc]
    · obtain ⟨inner, hinner, rfl⟩ := run_asked_cases hfirst
      obtain rfl : doneFirst = false := hdone
      obtain ⟨hended, hasks⟩ := h.first rfl
      dsimp only at hasks hended hdelivered
      refine ⟨fun _ => ?_, fun ⟨_, hend, _, first', hnil⟩ _ => ?_⟩
      · refine ⟨⟨fun hne => absurd hasks hne, ?_⟩, fun _ => ⟨?_, hasks⟩,
          fun hdone => (by cases hdone)⟩
        · dsimp only
          rw [hdelivered, hasks, taken_append]
          exact (List.append_nil _).symm ▸ (List.append_nil _).symm ▸ rfl
        · rw [ended_append]
          rintro (hold | ⟨hroom, hanswer⟩)
          · exact hended hold
          · exact absurd (Call.room_eq_zero (hnot [] hanswer)) (Nat.ne_of_gt hroom)
      · cases hinner.symm.trans hnil
        exact Bool.false_ne_true ((hnot [] rfl).symm.trans hend)
    · obtain ⟨inner, hinner, rfl⟩ := run_asked_cases hfirst
      obtain ⟨inner', -, rfl⟩ := run_asked_cases hsecond
      obtain rfl := Call.isEnd_eq_nil hend
      obtain rfl : doneFirst = false := hdone
      obtain ⟨hended, hasks⟩ := h.first rfl
      dsimp only at hasks hended hdelivered
      refine ⟨fun hmisread => ?_, fun ⟨_, _, hroom, _⟩ hfaithful => ?_⟩
      · have hroom : 0 < c.room :=
          Nat.pos_of_ne_zero fun hroom => hmisread ⟨rfl, hend, hroom, inner, hinner⟩
        have hnow : Ended (first.asks ++ [⟨c.room, .ready (.ok [])⟩]) :=
          ended_append.mpr (.inr ⟨hroom, rfl⟩)
        refine ⟨⟨fun _ => hnow, ?_⟩, fun hdone => (by cases hdone), fun _ => hnow⟩
        dsimp only
        rw [hdelivered, taken_append, taken_append, given, List.append_nil, List.append_assoc]
      · rcases ended_append.mp (hfaithful.ended (List.append_ne_nil_of_right_ne_nil _
          (List.cons_ne_nil _ _))) with hold | ⟨hpos, -⟩
        · exact hended hold
        · exact absurd hroom (Nat.ne_of_gt hpos)
  · cases ht

theorem inv_of_reachable {first : R1} {second : R2}
    (hs : (system first second).ReachableVia (fun s c => ¬Misread s c) s) : Inv s := by
  refine hs.invariant ?_ fun s c t hok h ht => (inv_step h ht).1 hok
  refine ⟨⟨fun hne => absurd rfl hne, rfl⟩, fun _ => ⟨?_, rfl⟩, fun hdone => (by cases hdone)⟩
  rintro ⟨ask, hmem, -⟩
  cases hmem

end Steps

/-- As long as no call is misread, `Chain` is faithful to its first reader. The call that is
misread ends this. -/
theorem chain_faithful_iff [AsyncRead R1] [AsyncRead R2] (first : R1) (second : R2)
    (s : State R1 R2)
    (hs : (system first second).ReachableVia (fun s c => ¬Misread s c) s) :
    Faithful s ∧ ∀ c t, step s c = some t → (Faithful t ↔ ¬Misread s c) := by
  have h := inv_of_reachable hs
  refine ⟨h.toFaithful, fun c t ht => ⟨fun hfaithful hmisread => ?_, fun hok => ?_⟩⟩
  · exact (inv_step h ht).2 hmisread hfaithful
  · exact ((inv_step h ht).1 hok).toFaithful

/-- Lists of buffers with room in the second one, with no buffer, and with room in the first. -/
theorem chain_faithful_vectored : ∃ s : State Slice Slice,
    (system (Slice.mk [1, 2]) (Slice.mk [3])).Reachable s ∧ s.chain.doneFirst = true ∧
      s.delivered = [1, 2, 3] ∧ Faithful s := by
  have hfirst : (system (Slice.mk [1, 2]) (Slice.mk [3])).ReachableVia
      (fun s c => ¬Misread s c) _ :=
    .next .init (a := .pollReadVectored ⟨0, 0⟩ [0, 2]) (fun h => absurd h.2.2.1 (by decide)) rfl
  have hempty : (system (Slice.mk [1, 2]) (Slice.mk [3])).ReachableVia
      (fun s c => ¬Misread s c) _ :=
    .next hfirst (a := .pollReadVectored ⟨0, 0⟩ []) (fun h => h.2.1 rfl) rfl
  have hsecond : (system (Slice.mk [1, 2]) (Slice.mk [3])).ReachableVia
      (fun s c => ¬Misread s c) _ :=
    .next hempty (a := .pollReadVectored ⟨0, 0⟩ [3, 0]) (fun h => absurd h.2.2.1 (by decide)) rfl
  exact ⟨_, hsecond.reachable, rfl, rfl, (chain_faithful_iff _ _ _ hsecond).1⟩

/-- One list with one empty buffer, and a read of eight bytes: 1 and 2 are skipped. -/
theorem chain_skips_first : ∃ s, (system (Slice.mk [1, 2]) (Slice.mk [3])).Reachable s ∧
    s.delivered = [3] ∧ s.chain.first.inner = ⟨[1, 2]⟩ ∧ ¬Faithful s := by
  obtain ⟨s, -, hs, hdelivered, hinner, hfirst, hsecond⟩ :=
    (system (Slice.mk [1, 2]) (Slice.mk [3])).exists_of_run
      (P := fun s => s.delivered = [3] ∧ s.chain.first.inner = ⟨[1, 2]⟩ ∧
        s.chain.first.asks = [⟨0, .ready (.ok [])⟩] ∧ s.chain.second.asks.length = 2)
      [.pollReadVectored ⟨0, 0⟩ [0], .pollRead ⟨0, 0⟩ 8] (by decide)
  refine ⟨s, hs, hdelivered, hinner, fun h => ?_⟩
  obtain ⟨ask, hmem, hroom, -⟩ := h.ended fun hnil => by
    rw [hnil] at hsecond
    cases hsecond
  rw [hfirst, List.mem_singleton] at hmem
  rw [hmem] at hroom
  exact Nat.lt_irrefl 0 hroom

end Cynthia.AsyncIo.Chain
