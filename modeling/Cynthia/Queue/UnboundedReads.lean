import Cynthia.Queue.UnboundedFifo
import Cynthia.Queue.Reads
import Mathlib.Data.Nat.PSub

/-! `Unbounded::len` and `is_empty`, beside pushes, pops and closes. -/

namespace Cynthia.Queue.Unbounded

open Transition

variable {α : Type}

/-- Over the index at the end of a block, to the first one of the next. -/
def overEnd (w : Nat) : Nat := if (w >>> shift) &&& (lap - 1) = lap - 1 then w + 1 <<< shift else w

/-- What `len` returns, from the indices that it has loaded. -/
def lenFrom (tail head : Nat) : Option Nat := do
  let tail := overEnd (unmark tail)
  let head := overEnd (unmark head)
  let l := (head >>> shift) / lap
  let tail ← Nat.psub tail ((l * lap) <<< shift)
  let head ← Nat.psub head ((l * lap) <<< shift)
  let tail := tail >>> shift
  let head := head >>> shift
  let n ← Nat.psub tail head
  Nat.psub n (tail / lap)

/-- Program points, each before one load, with the indices loaded so far. `is_full`
loads nothing. -/
inductive ReadPc where
  | lenTail
  | lenHead (tail : Nat)
  | lenCheck (tail head : Nat)
  | isEmptyHead
  | isEmptyTail (head : Nat)
  | isFull
  deriving DecidableEq

def reader : Reader (State α) Query ReadPc Answer where
  enter
    | .len => .lenTail
    | .isEmpty => .isEmptyHead
    | .isFull => .isFull
  read s
    | .lenTail => .inl (.lenHead s.queue.tail.index)
    | .lenHead tail => .inl (.lenCheck tail s.queue.head.index)
    | .lenCheck tail head =>
      if s.queue.tail.index = tail then .inr (.len (lenFrom tail head)) else .inl .lenTail
    | .isEmptyHead => .inl (.isEmptyTail s.queue.head.index)
    | .isEmptyTail head => .inr (.isEmpty (head >>> shift = s.queue.tail.index >>> shift))
    | .isFull => .inr (.isFull false)

/-- The queue with its calls, and a thread that calls the functions that only read. -/
def watched : System (Watched (State α) ReadPc Answer) (Watch (Act α) Query) :=
  system.watch reader

def State.counts (s : State α) : Counts := ⟨s.claims.length, s.popped⟩

/-- What the loads of a call have been. -/
def Loaded : List (State α) → ReadPc → Prop
  | reads, .lenHead tail => ∃ u rest, reads = u :: rest ∧ tail = u.queue.tail.index
  | reads, .lenCheck tail head =>
    ∃ v u rest, reads = v :: u :: rest ∧ tail = u.queue.tail.index ∧ head = v.queue.head.index
  | reads, .isEmptyTail head => ∃ u, reads = [u] ∧ head = u.queue.head.index
  | _, .lenTail | _, .isFull => True
  | reads, .isEmptyHead => reads = []

def Answered : List (State α) → Answer → Prop
  | reads, .len n => ∃ t v u rest, reads = t :: v :: u :: rest ∧
    t.queue.tail.index = u.queue.tail.index ∧ n = lenFrom u.queue.tail.index v.queue.head.index
  | reads, .isEmpty b => ∃ v u, reads = [v, u] ∧
    b = decide (u.queue.head.index >>> shift = v.queue.tail.index >>> shift)
  | _, .isFull b => b = false

/-- `is_empty` loads `head` at the end of a block, which a pop is about to leave, and
`tail` at the first index of the next block. -/
def AtBlockEnd (w : Watched (State α) ReadPc Answer) : Prop :=
  ∃ v u, w.reads = [v, u] ∧ offset u.queue.head.index = blockCap ∧
    v.queue.tail.index >>> shift = u.queue.head.index >>> shift + 1

/-- Nothing is claimed during the call. -/
def Calm (w : Watched (State α) ReadPc Answer) : Prop :=
  ∀ u ∈ w.past, ∀ v ∈ w.past, u.counts = v.counts

section Spec

variable {s t : State α} {w : Watched (State α) ReadPc Answer}

theorem pushLoop_counts {id tail : Nat} {value : α} {next : Bool} {block : Option Nat} :
    (pushLoop s id value next tail block).counts = s.counts := by
  unfold pushLoop
  split_ifs
  · rfl
  · rfl
  · cases block <;> rfl

theorem popLoop_counts {id head : Nat} {block : Option Nat} :
    (popLoop s id head block).counts = s.counts := by
  unfold popLoop
  split_ifs
  · rfl
  · cases block <;> rfl
  · rfl

theorem popCheck_counts {id head tail : Nat} {block : Option Nat} :
    (popCheck s id head tail block).counts = s.counts := by
  unfold popCheck
  split_ifs
  · rfl
  all_goals cases block <;> rfl

/-- A step claims at most once, and `tail` never goes back. -/
theorem exec_counts {id : Nat} {weak : Bool} (h : exec s id weak = some t) :
    s.counts.Next t.counts ∧ s.queue.tail.index ≤ t.queue.tail.index := by
  cases hpc : s.calls id <;> simp only [exec, hpc, reduceCtorEq, Option.some.injEq] at h
  case pushBlock value next tail =>
    subst h
    rw [pushLoop_queue, pushLoop_counts]
    exact ⟨.inl rfl, le_rfl⟩
  case pushInstall value next tail =>
    subst h
    split <;> exact ⟨.inl rfl, le_rfl⟩
  case pushCas value next tail block =>
    subst h
    split
    · rename_i hcas
      refine ⟨.inr (.inl ?_), ?_⟩
      · simp [State.goto, State.setTail, State.counts]
      · simp only [State.goto, State.setTail, hcas.2]
        exact Nat.le_add_right _ _
    · exact ⟨.inl rfl, le_rfl⟩
  case pushAdd value tail block new =>
    subst h
    exact ⟨.inl rfl, Nat.le_add_right _ _⟩
  case popBlock head =>
    subst h
    rw [popLoop_queue, popLoop_counts]
    exact ⟨.inl rfl, le_rfl⟩
  case popTail head block =>
    subst h
    rw [popCheck_queue, popCheck_counts]
    exact ⟨.inl rfl, le_rfl⟩
  case popCas head newHead block =>
    subst h
    split
    · exact ⟨.inr (.inr rfl), le_rfl⟩
    · exact ⟨.inl rfl, le_rfl⟩
  case popNext head newHead block =>
    split at h <;> cases h <;> exact ⟨.inl rfl, le_rfl⟩
  case popWait head block =>
    split at h <;> cases h <;> exact ⟨.inl rfl, le_rfl⟩
  case popSet head block value =>
    subst h
    split <;> exact ⟨.inl rfl, le_rfl⟩
  case destroyLoad block i value =>
    subst h
    split <;> exact ⟨.inl rfl, le_rfl⟩
  case destroyOr block i value =>
    subst h
    split <;> exact ⟨.inl rfl, le_rfl⟩
  case closeOr =>
    subst h
    exact ⟨.inl rfl, Nat.left_le_or⟩
  all_goals
    subst h
    exact ⟨.inl rfl, le_rfl⟩

theorem step_counts {a : Act α} (h : step s a = some t) :
    s.counts.Next t.counts ∧ s.queue.tail.index ≤ t.queue.tail.index := by
  cases a with
  | call id op =>
    simp only [step] at h
    split at h
    · cases h
      exact ⟨.inl rfl, le_rfl⟩
    · cases h
  | step id weak => exact exec_counts h

theorem Inv.pushed_eq {g : Ghost α} (h : Inv s g) :
    s.claims.length = ticket s.queue.tail.index := by
  have htail := h.tail
  cases hm : g.tailMover <;> simp only [hm, TailOk, raw] at htail <;> unfold ticket <;> omega

theorem Inv.popped_eq {g : Ghost α} (h : Inv s g) : s.popped = ticket s.queue.head.index := by
  have hhead := h.head
  cases hm : g.headMover <;> simp only [hm, HeadOk, raw] at hhead <;> unfold ticket <;> omega

theorem overEnd_unmark (w : Nat) : overEnd (unmark w) = 2 * raw (ticket w) := by
  have hand : (unmark w >>> shift) &&& (lap - 1) = w / 2 % 32 := by
    rw [lap_eq, show 32 - 1 = 2 ^ 5 - 1 from rfl, Nat.and_two_pow_sub_one_eq_mod, shiftRight_eq,
      unmark_eq, Nat.mul_div_cancel _ Nat.two_pos]
  rw [overEnd, hand]
  simp only [lap_eq, one_shift, unmark_eq, raw, ticket]
  split <;> omega

theorem shiftLeft_eq (w : Nat) : w <<< shift = 2 * w := by
  rw [Nat.shiftLeft_eq, shift, pow_one, Nat.mul_comm]

/-- The formula is right for any two indices of a run, wherever they are in their blocks. -/
theorem lenFrom_eq {tail head : Nat} (hle : ticket head ≤ ticket tail) :
    lenFrom tail head = some (ticket tail - ticket head) := by
  simp only [lenFrom, overEnd_unmark, shiftRight_eq, shiftLeft_eq, lap_eq,
    Nat.mul_div_cancel_left _ Nat.two_pos, Option.bind_eq_bind]
  generalize ticket tail = n at *
  generalize ticket head = m at *
  have hraw : raw m ≤ raw n := by
    unfold raw
    omega
  have htail : Nat.psub (2 * raw n) (2 * (raw m / 32 * 32)) =
      some (2 * (raw n - raw m / 32 * 32)) := by
    rw [Nat.psub_eq_sub (by omega), Nat.mul_sub]
  have hhead : Nat.psub (2 * raw m) (2 * (raw m / 32 * 32)) = some (2 * (raw m % 32)) := by
    rw [Nat.psub_eq_sub (by omega)]
    congr 1
    omega
  rw [htail, Option.bind_some, hhead, Option.bind_some, Nat.mul_div_cancel_left _ Nat.two_pos,
    Nat.mul_div_cancel_left _ Nat.two_pos, Nat.psub_eq_sub (by omega), Option.bind_some]
  unfold raw
  rw [Nat.psub_eq_sub (by omega)]
  congr 1
  omega

theorem loaded (hw : watched.Reachable w) : Explains Loaded Answered w.reads w.phase := by
  refine Watched.explained ?_ ?_ (Watched.permitted hw)
  · intro query
    cases query
    · trivial
    · rfl
    · trivial
  · intro reads s point h
    cases point with
    | lenTail => exact ⟨s, reads, rfl, rfl⟩
    | lenHead tail =>
      obtain ⟨u, rest, rfl, rfl⟩ := h
      exact ⟨s, u, rest, rfl, rfl, rfl⟩
    | lenCheck tail head =>
      obtain ⟨v, u, rest, rfl, rfl, rfl⟩ := h
      simp only [reader]
      split
      · rename_i heq
        exact ⟨s, v, u, rest, rfl, heq, rfl⟩
      · trivial
    | isEmptyHead =>
      obtain rfl : reads = [] := h
      exact ⟨s, rfl, rfl⟩
    | isEmptyTail head =>
      obtain ⟨u, rfl, rfl⟩ := h
      exact ⟨s, u, rfl, rfl⟩
    | isFull => rfl

theorem past_in_order (hw : watched.Reachable w) : w.past.Pairwise fun t s =>
    s.counts.Before t.counts ∧ s.queue.tail.index ≤ t.queue.tail.index := by
  have hcounts : w.past.Pairwise fun t s => s.counts.Before t.counts :=
    past_ordered (fun s a t _ _ ht => (step_counts ht).1) (Watched.permitted hw)
  exact hcounts.and (Watched.ordered (fun _ => le_rfl) (fun _ _ _ => le_trans)
    (fun s a t _ _ ht => (step_counts ht).2) (Watched.permitted hw))

theorem reads_past (hw : watched.Reachable w) {u : State α} (hu : u ∈ w.reads) : u ∈ w.past :=
  (Watched.coherent (Watched.permitted hw)).reads.subset hu

/-- The indices of a state in the past of a call. -/
theorem past_indices (hw : watched.Reachable w) {u : State α} (hu : u ∈ w.past) :
    u.claims.length = ticket u.queue.tail.index ∧ u.popped = ticket u.queue.head.index ∧
      u.popped ≤ u.claims.length ∧ u.queue.head.index / 2 ≤ u.queue.tail.index / 2 := by
  obtain ⟨g, hinv⟩ := inv_reachable ((Watched.coherent (Watched.permitted hw)).past u hu)
  exact ⟨hinv.pushed_eq, hinv.popped_eq, hinv.ordered, hinv.behind⟩

/-- The answer of `len` is the number of elements when it loaded `head`. -/
theorem len_eq (hw : watched.Reachable w) {n : Option Nat}
    (hphase : w.phase = .answered (.len n)) :
    ∃ u ∈ w.past, u.popped ≤ u.claims.length ∧ n = some (u.claims.length - u.popped) := by
  have hreads := loaded hw
  rw [hphase] at hreads
  obtain ⟨t, v, u, rest, hreads, htail, rfl⟩ := hreads
  have hmem (s : State α) (hs : s ∈ w.reads) : s ∈ w.past := reads_past hw hs
  have hord := (past_in_order hw).sublist (Watched.coherent (Watched.permitted hw)).reads
  rw [hreads] at hord hmem
  simp only [List.pairwise_cons, List.mem_cons, forall_eq_or_imp] at hord
  obtain ⟨⟨⟨-, htv⟩, -⟩, ⟨⟨-, hvu⟩, -⟩, -⟩ := hord
  obtain ⟨hpushed, hpopped, hle, -⟩ := past_indices hw (hmem v (by simp))
  -- the index did not change between the two loads of `tail`
  have hsame : u.queue.tail.index = v.queue.tail.index := by omega
  refine ⟨v, hmem v (by simp), hle, ?_⟩
  rw [hsame, lenFrom_eq (by omega), hpushed, hpopped]

theorem isEmpty_truthful_iff (hw : watched.Reachable w) {b : Bool}
    (hphase : w.phase = .answered (.isEmpty b)) :
    Truthful (w.past.map State.counts) 0 b ↔ ¬(AtBlockEnd w ∧ Calm w) := by
  have hreads := loaded hw
  rw [hphase] at hreads
  obtain ⟨v, u, hreads, rfl⟩ := hreads
  have hmem (s : State α) (hs : s ∈ w.reads) : s ∈ w.past := reads_past hw hs
  have hord := (past_in_order hw).sublist (Watched.coherent (Watched.permitted hw)).reads
  rw [hreads] at hord hmem
  obtain ⟨⟨-, hpopped⟩, hle⟩ := (List.pairwise_cons.mp hord).1 u (by simp)
  have hu := hmem u (by simp)
  have hv := hmem v (by simp)
  obtain ⟨hpushedu, hpoppedu, hleu, hbehindu⟩ := past_indices hw hu
  obtain ⟨hpushedv, hpoppedv, hlev, -⟩ := past_indices hw hv
  simp only [shiftRight_eq]
  simp only [State.counts] at hpopped
  constructor
  · rintro ⟨-, hno⟩ ⟨⟨v', u', hreads', hend, hnext⟩, hcalm⟩
    obtain ⟨rfl, rfl⟩ : v = v' ∧ u = u' := by simpa [hreads] using hreads'
    simp only [offset_eq, blockCap_eq, shiftRight_eq] at hend hnext
    obtain ⟨c, hc, hne⟩ := hno (by simp [hnext])
    obtain ⟨x, hx, rfl⟩ := List.mem_map.mp hc
    have hxu := hcalm x hx u hu
    have hxv := hcalm x hx v hv
    simp only [State.counts, Counts.mk.injEq] at hne hxu hxv
    unfold ticket at hpoppedu hpushedv
    omega
  · intro hnot
    refine truthful_of (fun s a t _ _ ht => (step_counts ht).1) (Watched.permitted hw) ?_ ?_
    · intro hyes
      have heq := of_decide_eq_true hyes
      refine ⟨v, hv, ?_⟩
      simp only [State.counts]
      unfold ticket at hpoppedu hpushedv
      rw [heq] at hpoppedu
      omega
    · intro hall hsame
      by_contra hno
      have hne : u.queue.head.index / 2 ≠ v.queue.tail.index / 2 := by simpa using hno
      have huv := hsame u hu v hv
      have hempty := hall u hu
      simp only [State.counts, Counts.mk.injEq] at huv hempty
      unfold ticket at hpoppedu hpushedv
      refine hnot ⟨⟨v, u, hreads, ?_, ?_⟩, hsame⟩
      · rw [offset_eq, blockCap_eq]
        omega
      · rw [shiftRight_eq, shiftRight_eq]
        omega

end Spec

end Cynthia.Queue.Unbounded
