import Cynthia.Queue.BoundedFifo
import Cynthia.Queue.Reads
import Mathlib.Data.Nat.PSub

/-! `Bounded::len`, `is_empty` and `is_full`, beside pushes, pops and closes. -/

namespace Cynthia.Queue

open Transition

namespace Capacity

variable (cap : Capacity)

theorem marked_and_index (n : Nat) (closed : Bool) :
    cap.marked n closed &&& (cap.markBit - 1) = n % cap.val := by
  have hword := cap.word_and_index n
  rw [markBit_eq, Nat.and_two_pow_sub_one_eq_mod] at hword ⊢
  rw [marked, markBit_eq, ← hword]
  cases closed <;> simp

/-- The mark of a closed queue makes no difference to `len`. -/
theorem lenOf_marked (n m : Nat) (closed : Bool) :
    cap.lenOf (cap.marked n closed) (cap.word m) = cap.lenOf (cap.word n) (cap.word m) := by
  have hplain := cap.marked_and_complement n false
  rw [marked_false] at hplain
  simp only [lenOf, marked_and_index, word_and_index, marked_and_complement, hplain]

end Capacity

namespace Bounded

variable {α : Type} (cap : Capacity)

/-- What `len` returns, from the words that it has loaded. -/
def lenFrom (tail head : Nat) : Option Nat :=
  let hix := indexOf cap head
  let tix := indexOf cap tail
  if hix < tix then Nat.psub tix hix
  else if hix > tix then (Nat.psub cap.val hix).map (· + tix)
  else some (if tail &&& complement cap.markBit = head then 0 else cap.val)

/-- Program points, each before one load, with the words loaded so far. -/
inductive ReadPc where
  | lenTail
  | lenHead (tail : Nat)
  | lenCheck (tail head : Nat)
  | isEmptyHead
  | isEmptyTail (head : Nat)
  | isFullTail
  | isFullHead (tail : Nat)
  deriving DecidableEq

def reader : Reader (State α) Query ReadPc Answer where
  enter
    | .len => .lenTail
    | .isEmpty => .isEmptyHead
    | .isFull => .isFullTail
  read s
    | .lenTail => .inl (.lenHead s.queue.tail)
    | .lenHead tail => .inl (.lenCheck tail s.queue.head)
    | .lenCheck tail head =>
      if s.queue.tail = tail then .inr (.len (lenFrom cap tail head)) else .inl .lenTail
    | .isEmptyHead => .inl (.isEmptyTail s.queue.head)
    | .isEmptyTail head =>
      .inr (.isEmpty (s.queue.tail &&& complement cap.markBit = head))
    | .isFullTail => .inl (.isFullHead s.queue.tail)
    | .isFullHead tail =>
      .inr (.isFull (wrappingAdd s.queue.head cap.oneLap = tail &&& complement cap.markBit))

/-- The queue with its calls, and a thread that calls the functions that only read. -/
def watched : System (Watched (State α) ReadPc Answer) (Watch (Act α) Query) :=
  (system cap).watch (reader cap)

def State.counts (s : State α) : Counts := ⟨s.pushed, s.popped⟩

/-- From one read to a later one fewer pushes than take `tail` once around. -/
def Fresh (slack : Nat) (t s : State α) : Prop := t.pushed + slack < s.pushed + cap.period

instance (slack : Nat) (t s : State α) : Decidable (Fresh cap slack t s) :=
  inferInstanceAs (Decidable (_ < _))

/-- What the loads of a call have been. -/
def Loaded : List (State α) → ReadPc → Prop
  | reads, .lenHead tail => ∃ u rest, reads = u :: rest ∧ tail = u.queue.tail
  | reads, .lenCheck tail head =>
    ∃ v u rest, reads = v :: u :: rest ∧ tail = u.queue.tail ∧ head = v.queue.head
  | reads, .isEmptyTail head => ∃ u, reads = [u] ∧ head = u.queue.head
  | reads, .isFullHead tail => ∃ u, reads = [u] ∧ tail = u.queue.tail
  | _, .lenTail => True
  | reads, .isEmptyHead | reads, .isFullTail => reads = []

def Answered : List (State α) → Answer → Prop
  | reads, .len n => ∃ t v u rest, reads = t :: v :: u :: rest ∧ t.queue.tail = u.queue.tail ∧
    n = lenFrom cap u.queue.tail v.queue.head
  | reads, .isEmpty b => ∃ v u, reads = [v, u] ∧
    b = decide (v.queue.tail &&& complement cap.markBit = u.queue.head)
  | reads, .isFull b => ∃ v u, reads = [v, u] ∧ b = decide
    (wrappingAdd v.queue.head cap.oneLap = u.queue.tail &&& complement cap.markBit)

section Spec

variable {cap} {s t : State α} {slack : Nat} {w : Watched (State α) ReadPc Answer}

theorem pushLoop_counts {id : Nat} {value : α} : (pushLoop cap s id value).counts = s.counts := by
  unfold pushLoop
  split <;> rfl

theorem exec_counts {id : Nat} {weak : Bool} (h : exec cap s id weak = some t) :
    s.counts.Next t.counts := by
  cases hpc : s.calls id <;> simp only [exec, hpc, reduceCtorEq, Option.some.injEq] at h <;> subst h
  case pushLoad => exact .inl pushLoop_counts
  case pushCas value tail =>
    split
    · exact .inr (.inl rfl)
    · exact .inl pushLoop_counts
  case popCas head =>
    split
    · exact .inr (.inr rfl)
    · exact .inl rfl
  case pushHead value tail =>
    split <;> exact .inl rfl
  case popTail head =>
    split <;> exact .inl rfl
  all_goals exact .inl rfl

theorem step_counts {a : Act α} (h : step cap s a = some t) : s.counts.Next t.counts := by
  cases a with
  | call id op =>
    simp only [step] at h
    split at h
    · cases h
      exact .inl rfl
    · cases h
  | step id weak => exact exec_counts h

theorem lenFrom_word {n m : Nat} (closed : Bool) (hle : m ≤ n) (hcap : n ≤ m + cap.val) :
    lenFrom cap (cap.marked n closed) (cap.word m) = some (n - m) := by
  have hlen := cap.lenOf_word hle hcap
  rw [← cap.lenOf_marked n m closed] at hlen
  have hm := cap.mod_lt m
  simp only [lenFrom, Capacity.lenOf, indexOf, cap.marked_and_index, cap.word_and_index] at hlen ⊢
  split
  · rename_i hlt
    rw [if_pos hlt] at hlen
    rw [← hlen]
    exact Nat.psub_eq_sub hlt.le
  · rename_i hlt
    rw [if_neg hlt] at hlen
    split
    · rename_i hgt
      rw [if_pos hgt] at hlen
      rw [Nat.psub_eq_sub hm.le, ← hlen]
      rfl
    · rename_i hgt
      rw [if_neg hgt] at hlen
      rw [hlen]

theorem loaded (hw : (watched cap).ReachableVia (Permits (NoStall cap) (Fresh cap slack)) w) :
    Explains Loaded (Answered cap) w.reads w.phase := by
  refine Watched.explained ?_ ?_ hw
  · intro query
    cases query
    · trivial
    · rfl
    · rfl
  · intro reads s point h
    cases point with
    | lenTail => exact ⟨s, reads, rfl, rfl⟩
    | lenHead tail =>
      obtain ⟨u, rest, rfl, rfl⟩ := h
      exact ⟨s, u, rest, rfl, rfl, rfl⟩
    | lenCheck tail head =>
      obtain ⟨v, u, rest, rfl, rfl, rfl⟩ := h
      simp only [reader]
      split
      · rename_i heq
        exact ⟨s, v, u, rest, rfl, heq, rfl⟩
      · trivial
    | isEmptyHead =>
      obtain rfl : reads = [] := h
      exact ⟨s, rfl, rfl⟩
    | isEmptyTail head =>
      obtain ⟨u, rfl, rfl⟩ := h
      exact ⟨s, u, rfl, rfl⟩
    | isFullTail =>
      obtain rfl : reads = [] := h
      exact ⟨s, rfl, rfl⟩
    | isFullHead tail =>
      obtain ⟨u, rfl, rfl⟩ := h
      exact ⟨s, u, rfl, rfl⟩

/-- The words of a state in the past of a call. -/
theorem past_words (hw : (watched cap).ReachableVia (Permits (NoStall cap) (Fresh cap slack)) w)
    {u : State α} (hu : u ∈ w.past) : (∃ closed, u.queue.tail = cap.marked u.pushed closed) ∧
      u.queue.head = cap.word u.popped ∧ u.popped ≤ u.pushed ∧ u.pushed ≤ u.popped + cap.val := by
  obtain ⟨g, hinv⟩ := inv_reachable ((Watched.coherent hw).past u hu)
  exact ⟨⟨g.closed, hinv.tail⟩, hinv.head, hinv.ordered, hinv.bounded⟩

theorem reads_ordered
    (hw : (watched cap).ReachableVia (Permits (NoStall cap) (Fresh cap slack)) w) :
    w.reads.Pairwise fun t s => s.counts.Before t.counts ∧ Fresh cap slack t s := by
  have hok := Watched.coherent hw
  have hpast : w.past.Pairwise fun t s => s.counts.Before t.counts :=
    past_ordered (fun s a t _ _ ht => step_counts ht) hw
  exact (hpast.sublist hok.reads).and hok.near

/-- The answer of `len` is the number of elements when it loaded `head`. -/
theorem len_eq (hw : (watched cap).ReachableVia (Permits (NoStall cap) (Fresh cap slack)) w)
    {n : Option Nat} (hphase : w.phase = .answered (.len n)) :
    ∃ u ∈ w.past, u.popped ≤ u.pushed ∧ n = some (u.pushed - u.popped) ∧
      u.pushed - u.popped ≤ cap.val := by
  have hreads := loaded hw
  rw [hphase] at hreads
  obtain ⟨t, v, u, rest, hreads, htail, rfl⟩ := hreads
  have hmem (s : State α) (hs : s ∈ w.reads) : s ∈ w.past := (Watched.coherent hw).reads.subset hs
  have hord := reads_ordered hw
  rw [hreads] at hord hmem
  simp only [List.pairwise_cons, List.mem_cons, forall_eq_or_imp] at hord
  obtain ⟨⟨⟨htv, -⟩, ⟨-, hfresh⟩, -⟩, ⟨⟨hvu, -⟩, -⟩, -⟩ := hord
  obtain ⟨⟨tclosed, hmt⟩, -⟩ := past_words hw (hmem t (by simp))
  obtain ⟨⟨uclosed, hmu⟩, -⟩ := past_words hw (hmem u (by simp))
  obtain ⟨-, hhead, hle, hcap⟩ := past_words hw (hmem v (by simp))
  -- no push was claimed between the two loads of `tail`
  have hword : cap.word t.pushed = cap.word u.pushed := by
    rw [← cap.marked_and_complement t.pushed tclosed, ← hmt, htail, hmu, cap.marked_and_complement]
  simp only [Fresh] at hfresh
  have htv : v.pushed ≤ t.pushed := htv.1
  have hvu : u.pushed ≤ v.pushed := hvu.1
  have heq : t.pushed = u.pushed := cap.eq_of_word_eq hword (by omega) (by omega)
  obtain hpushed : u.pushed = v.pushed := by omega
  refine ⟨v, hmem v (by simp), hle, ?_, by omega⟩
  rw [hmu, hhead, hpushed]
  exact lenFrom_word uclosed hle hcap

theorem isEmpty_truthful
    (hw : (watched cap).ReachableVia (Permits (NoStall cap) (Fresh cap cap.val)) w) {b : Bool}
    (hphase : w.phase = .answered (.isEmpty b)) : Truthful (w.past.map State.counts) 0 b := by
  have hreads := loaded hw
  rw [hphase] at hreads
  obtain ⟨v, u, hreads, rfl⟩ := hreads
  have hmem (s : State α) (hs : s ∈ w.reads) : s ∈ w.past := (Watched.coherent hw).reads.subset hs
  have hord := reads_ordered hw
  rw [hreads] at hord hmem
  obtain ⟨⟨-, hpopped⟩, hfresh⟩ := (List.pairwise_cons.mp hord).1 u (by simp)
  simp only [State.counts, Fresh] at hpopped hfresh
  obtain ⟨⟨closed, hmv⟩, -, hlev, -⟩ := past_words hw (hmem v (by simp))
  obtain ⟨-, hhead, hleu, hcap⟩ := past_words hw (hmem u (by simp))
  rw [hmv, hhead, cap.marked_and_complement]
  refine truthful_of (fun s a t _ _ ht => step_counts ht) hw ?_ ?_
  · intro hyes
    have heq : v.pushed = u.popped :=
      cap.eq_of_word_eq (of_decide_eq_true hyes) (by omega) (by omega)
    refine ⟨v, hmem v (by simp), ?_⟩
    simp only [State.counts]
    omega
  · intro hall hsame
    have hu := hall u (hmem u (by simp))
    have huv := hsame v (hmem v (by simp)) u (hmem u (by simp))
    simp only [State.counts, Counts.mk.injEq] at hu huv
    rw [huv.1, hu]
    simp

theorem isFull_truthful
    (hw : (watched cap).ReachableVia (Permits (NoStall cap) (Fresh cap cap.val)) w) {b : Bool}
    (hphase : w.phase = .answered (.isFull b)) :
    Truthful (w.past.map State.counts) cap.val b := by
  have hreads := loaded hw
  rw [hphase] at hreads
  obtain ⟨v, u, hreads, rfl⟩ := hreads
  have hmem (s : State α) (hs : s ∈ w.reads) : s ∈ w.past := (Watched.coherent hw).reads.subset hs
  have hord := reads_ordered hw
  rw [hreads] at hord hmem
  obtain ⟨⟨hpushed, hpopped⟩, hfresh⟩ := (List.pairwise_cons.mp hord).1 u (by simp)
  simp only [State.counts, Fresh] at hpushed hpopped hfresh
  obtain ⟨-, hhead, hlev, hcapv⟩ := past_words hw (hmem v (by simp))
  obtain ⟨⟨closed, hmu⟩, -, hleu, hcapu⟩ := past_words hw (hmem u (by simp))
  rw [hmu, hhead, cap.marked_and_complement, cap.word_add_oneLap]
  refine truthful_of (fun s a t _ _ ht => step_counts ht) hw ?_ ?_
  · intro hyes
    have heq : v.popped + cap.val = u.pushed :=
      cap.eq_of_word_eq (of_decide_eq_true hyes) (by omega) (by omega)
    refine ⟨u, hmem u (by simp), ?_⟩
    simp only [State.counts]
    omega
  · intro hall hsame
    have hu := hall u (hmem u (by simp))
    have huv := hsame v (hmem v (by simp)) u (hmem u (by simp))
    simp only [State.counts, Counts.mk.injEq] at hu huv
    rw [huv.2, hu]
    simp

end Spec

end Bounded

end Cynthia.Queue
