import Cynthia.Queue.BoundedDrop
import Cynthia.Queue.UnboundedDebts

/-! `Drop` of `Unbounded`, and what `Drop` of both queues releases. -/

namespace Cynthia.Queue

open Transition Linearizability

namespace Unbounded

variable {α : Type}

/-- The block without the value of a slot, which was moved out. -/
def Block.moveOut (block : Block α) (i : Nat) : Block α :=
  { block with slots := Function.update block.slots i { block.slots i with value := none } }

/-- The loop of `drop`. It gives the values that it has dropped and the blocks that it
has freed. `none`: a null pointer or a freed block is used, a slot that holds no value
is read, or the rounds do not suffice. -/
def dropLoop : Nat → Nat → Nat → Option Nat → (Nat → Block α) → Option (List α × List Nat)
  | 0, _, _, _, _ => none
  | rounds + 1, head, tail, block, blocks =>
    if head ≠ tail then do
      let b ← block
      if (blocks b).freed then none
      else if offset head < blockCap then
        let value ← ((blocks b).slots (offset head)).value
        let rest ← dropLoop rounds (head + 1 <<< shift) tail block
          (Function.update blocks b ((blocks b).moveOut (offset head)))
        some (value :: rest.1, rest.2)
      else
        let rest ← dropLoop rounds (head + 1 <<< shift) tail (blocks b).next
          (Function.update blocks b { blocks b with freed := true })
        some (rest.1, b :: rest.2)
    else match block with
      | none => some ([], [])
      | some b => if (blocks b).freed then none else some ([], [b])

/-- `Drop::drop`. -/
def drop (rounds : Nat) (q : Unbounded α) : Option (List α × List Nat) :=
  dropLoop rounds (unmark q.head.index) (unmark q.tail.index) q.head.block q.blocks

/-- What the loop relies on at the index `p`, on the way to the last one `q`. -/
structure Ahead (blocks : Nat → Block α) (claims : List α) (p q : Nat) : Prop where
  freed : ∀ b, p / 32 ≤ b → b ≤ q / 32 → (blocks b).freed = false
  next : ∀ b, p / 32 ≤ b → b < q / 32 → (blocks b).next = some (b + 1)
  value : ∀ n, ticket (2 * p) ≤ n → n < claims.length →
    ((blocks (n / 31)).slots (n % 31)).value = claims[n]?

theorem ticket_even (p : Nat) : ticket (2 * p) = p / 32 * 31 + p % 32 := by
  rw [ticket, Nat.mul_div_cancel_left _ Nat.two_pos]

theorem raw_lap (n : Nat) : raw n / 32 = n / 31 := by
  unfold raw
  omega

theorem ticket_raw (n : Nat) : ticket (2 * raw n) = n := by
  rw [ticket_even]
  unfold raw
  omega

/-- The index of a slot, after its value was taken. -/
theorem Ahead.take {blocks : Nat → Block α} {claims : List α} {p q : Nat}
    (h : Ahead blocks claims p q) (hmid : p % 32 < 31) :
    Ahead (Function.update blocks (p / 32) ((blocks (p / 32)).moveOut (p % 32))) claims
      (p + 1) q := by
  have hlap : (p + 1) / 32 = p / 32 := by omega
  refine ⟨fun b hle hlt => ?_, fun b hle hlt => ?_, fun n hle hlt => ?_⟩
  · rw [hlap] at hle
    by_cases hb : b = p / 32
    · rw [hb, Function.update_self]
      exact h.freed _ le_rfl (hb ▸ hlt)
    · rw [Function.update_of_ne hb]
      exact h.freed b hle hlt
  · rw [hlap] at hle
    by_cases hb : b = p / 32
    · subst hb
      rw [Function.update_self]
      exact h.next _ le_rfl hlt
    · rw [Function.update_of_ne hb]
      exact h.next b hle hlt
  · rw [ticket_even] at hle
    have hold := h.value n (by rw [ticket_even]; omega) hlt
    by_cases hb : n / 31 = p / 32
    · rw [hb] at hold ⊢
      have hne : n % 31 ≠ p % 32 := by omega
      rw [Function.update_self]
      simpa only [Block.moveOut, Function.update_of_ne hne] using hold
    · rw [Function.update_of_ne hb]
      exact hold

/-- The index at the end of a block, after the block was freed. -/
theorem Ahead.free {blocks : Nat → Block α} {claims : List α} {p q : Nat}
    (h : Ahead blocks claims p q) (hend : p % 32 = 31) (block : Block α) :
    Ahead (Function.update blocks (p / 32) block) claims (p + 1) q := by
  refine ⟨fun b hle hlt => ?_, fun b hle hlt => ?_, fun n hle hlt => ?_⟩
  · rw [Function.update_of_ne (by omega)]
    exact h.freed b (by omega) hlt
  · rw [Function.update_of_ne (by omega)]
    exact h.next b (by omega) hlt
  · rw [ticket_even] at hle
    rw [Function.update_of_ne (by omega)]
    exact h.value n (by rw [ticket_even]; omega) hlt

/-- From the index `p` on the loop drops the values that are left and frees the blocks
from that of `p` to that of the last index. -/
theorem dropLoop_eq {claims : List α} {q : Nat} (hq : q = raw claims.length) (d : Nat) {p : Nat}
    {blocks : Nat → Block α} {rounds : Nat} (hd : p + d = q) (hrounds : d < rounds)
    (h : Ahead blocks claims p q) :
    dropLoop rounds (2 * p) (2 * q) (some (p / 32)) blocks =
      some (claims.drop (ticket (2 * p)), List.range' (p / 32) (q / 32 + 1 - p / 32)) := by
  obtain ⟨rounds, rfl⟩ : ∃ r, rounds = r + 1 := ⟨rounds - 1, by omega⟩
  induction d generalizing p blocks rounds with
  | zero =>
    obtain rfl : p = q := by omega
    have hlen : claims.length = ticket (2 * p) := by rw [hq, ticket_raw]
    rw [dropLoop, if_neg (by simp), Nat.add_sub_cancel_left, ← hlen, List.drop_length]
    simp [h.freed (p / 32) le_rfl le_rfl]
  | succ d ih =>
    obtain ⟨rounds, rfl⟩ : ∃ r, rounds = r + 1 := ⟨rounds - 1, by omega⟩
    have hfreed := h.freed (p / 32) le_rfl (Nat.div_le_div_right (by omega))
    have hstep : 2 * p + 1 <<< shift = 2 * (p + 1) := by
      rw [one_shift]
      omega
    have hoff : offset (2 * p) = p % 32 := by
      rw [offset_eq, Nat.mul_div_cancel_left _ Nat.two_pos]
    rw [dropLoop, if_pos (by omega), Option.bind_eq_bind, Option.bind_some, hfreed,
      if_neg (by simp), hstep, hoff, blockCap_eq]
    have hticket := ticket_even p
    have hticket' := ticket_even (p + 1)
    split
    · rename_i hmid
      have hlt : ticket (2 * p) < claims.length := by
        rw [hticket]
        unfold raw at hq
        omega
      have hvalue := h.value _ le_rfl hlt
      rw [show ticket (2 * p) / 31 = p / 32 by omega, show ticket (2 * p) % 31 = p % 32 by omega,
        List.getElem?_eq_getElem hlt] at hvalue
      have hrest := ih (by omega) (h.take hmid) rounds (by omega)
      rw [show (p + 1) / 32 = p / 32 by omega,
        show ticket (2 * (p + 1)) = ticket (2 * p) + 1 by omega] at hrest
      rw [hvalue, hrest, List.drop_eq_getElem_cons hlt]
      rfl
    · rename_i hmid
      have hend : p % 32 = 31 := by omega
      have hrest := ih (by omega) (h.free hend { blocks (p / 32) with freed := true }) rounds
        (by omega)
      rw [show (p + 1) / 32 = p / 32 + 1 by omega,
        show ticket (2 * (p + 1)) = ticket (2 * p) by omega] at hrest
      rw [h.next (p / 32) le_rfl (by omega), hrest,
        show q / 32 + 1 - p / 32 = q / 32 + 1 - (p / 32 + 1) + 1 by omega, List.range'_succ]
      rfl

theorem Rested.ahead {s : State α} (h : Rested s) :
    Ahead s.queue.blocks s.claims (raw s.popped) (raw s.claims.length) := by
  refine ⟨fun b hle hlt => ?_, fun b hle hlt => ?_, fun n hle hlt => ?_⟩
  · rw [raw_lap] at hle
    by_contra hfreed
    have := (h.freed b).mp (by simpa using hfreed)
    omega
  · rw [raw_lap] at hlt
    refine h.next b ?_
    rcases h.blocks with ⟨-, -, hlen⟩ | ⟨-, hpub⟩
    · omega
    · omega
  · rw [ticket_raw] at hle
    exact h.value n hle hlt

/-- What `drop` drops was pushed and not popped, each value once; it frees the blocks
that the pops have left, each once. -/
theorem drop_eq {s : State α} (h : system.Reachable s) (hc : Complete s.hist) :
    ∃ order values freed, Linearization (fifo none) s.hist order ∧
      (∀ e ∈ order, .ret e.id e.res ∈ s.hist) ∧
      (pushes order).map some = pops order ++ values.map some ∧
      (∀ rounds, s.queue.tail.index / 2 - s.queue.head.index / 2 < rounds →
        drop rounds s.queue = some (values, freed)) ∧
      freed.Nodup ∧ ∀ b, b ∈ freed ↔ b < s.queue.published ∧ (s.queue.blocks b).freed = false := by
  obtain ⟨g, hinv⟩ := inv_reachable h
  have hrest := (owed_reachable h).rested hinv hc
  have hlin := hinv.logged.linearization
  have hvalues : (pushes g.log).map some = pops g.log ++ (s.claims.drop s.popped).map some := by
    rw [pushes_eq hlin.legal, hinv.final]
  have hunfreed (b : Nat) : (s.queue.blocks b).freed = false ↔ s.popped / 31 ≤ b := by
    rw [← Bool.not_eq_true, hrest.freed]
    omega
  have hle := hrest.ordered
  rcases hrest.blocks with ⟨hnone, hpub, hlen⟩ | ⟨hsome, hpub⟩
  · refine ⟨g.log, s.claims.drop s.popped, [], hlin, fun e he => hlin.returned hc he, hvalues,
      fun rounds hrounds => ?_, .nil, fun b => ?_⟩
    · have hhead := hrest.head
      have htail := hrest.tail
      obtain ⟨rounds, rfl⟩ : ∃ r, rounds = r + 1 := ⟨rounds - 1, by omega⟩
      unfold raw at hhead htail
      rw [drop, hnone, unmark_eq, unmark_eq, dropLoop, if_neg (by omega),
        List.eq_nil_of_length_eq_zero hlen, List.drop_nil]
    · simp [hpub]
  · refine ⟨g.log, s.claims.drop s.popped,
      List.range' (s.popped / 31) (s.queue.published - s.popped / 31), hlin,
      fun e he => hlin.returned hc he, hvalues, fun rounds hrounds => ?_, List.nodup_range',
      fun b => ?_⟩
    · have hraw : raw s.popped ≤ raw s.claims.length := by
        unfold raw
        omega
      have hdrop := dropLoop_eq rfl (raw s.claims.length - raw s.popped) (by omega)
        (by rwa [hrest.tail, hrest.head] at hrounds) hrest.ahead
      rw [raw_lap, raw_lap, ticket_raw] at hdrop
      rw [drop, unmark_eq, unmark_eq, hrest.head, hrest.tail, hsome, hpub, Nat.mul_comm,
        Nat.mul_comm (raw s.claims.length)]
      exact hdrop
    · rw [List.mem_range'_1, hunfreed]
      omega

end Unbounded

/-- When all calls have returned `Drop` releases what is left: the values that were
pushed and not popped, once each and from slots that hold them, and of `Unbounded`
the blocks that are not freed yet. -/
theorem drop_releases_once (α : Type) :
    (∀ (cap : Capacity) (s : Bounded.State α),
      (Bounded.system cap).ReachableVia (Bounded.NoStall cap) s ∨
        (Bounded.system cap).ReachableVia Bounded.Alone s → Complete s.hist →
      ∃ order values, Linearization (fifo (some cap.val)) s.hist order ∧
        (∀ e ∈ order, .ret e.id e.res ∈ s.hist) ∧
        (pushes order).map some = pops order ++ values.map some ∧
        Bounded.drop cap s.queue = some values) ∧
    ∀ s : Unbounded.State α, Unbounded.system.Reachable s → Complete s.hist →
      ∃ order values freed, Linearization (fifo none) s.hist order ∧
        (∀ e ∈ order, .ret e.id e.res ∈ s.hist) ∧
        (pushes order).map some = pops order ++ values.map some ∧
        (∀ rounds, s.queue.tail.index / 2 - s.queue.head.index / 2 < rounds →
          Unbounded.drop rounds s.queue = some (values, freed)) ∧
        freed.Nodup ∧
        ∀ b, b ∈ freed ↔ b < s.queue.published ∧ (s.queue.blocks b).freed = false := by
  refine ⟨fun cap s h hc => ?_, fun s h hc => Unbounded.drop_eq h hc⟩
  rcases h with hnoStall | halone
  · exact Bounded.drop_eq hnoStall hc
  · exact Bounded.drop_eq (Bounded.noStall_of_alone halone) hc

def threeSlots : Capacity := ⟨3, by decide, by decide⟩

/-- Five pushes and two pops, one after another, so that the last two pushes are in the
slots of the first two. -/
def wrapped : List (Bounded.Act Nat) :=
  let whole (op : Op Nat) (id : Nat) : List (Bounded.Act Nat) :=
    .call id op :: List.replicate 5 (.step id false)
  whole (.push 1) 0 ++ whole (.push 2) 1 ++ whole (.push 3) 2 ++ whole .pop 3 ++ whole .pop 4 ++
    whole (.push 4) 5 ++ whole (.push 5) 6

/-- Pushes of one block and of two slots of the next one, and pops that empty and free
the first block. -/
def nextBlock : List (Unbounded.Act Nat) :=
  let whole (op : Op Nat) (n id : Nat) : List (Unbounded.Act Nat) :=
    .call id op :: List.replicate n (.step id false)
  whole (.push 0) 7 0 ++ (List.range' 1 29).flatMap (whole (.push 0) 5) ++ whole (.push 0) 8 30 ++
    whole (.push 1) 5 31 ++ whole (.push 2) 5 32 ++ whole .pop 7 33 ++
    (List.range' 34 29).flatMap (whole .pop 6) ++ whole .pop 40 63

theorem drop_releases_once_wrapped :
    (∃ s : Bounded.State Nat, Complete s.hist ∧ Bounded.drop threeSlots s.queue = some [3, 4, 5] ∧
      ∃ order, Linearization (fifo (some 3)) s.hist order ∧
        (pushes order).map some = pops order ++ [some 3, some 4, some 5]) ∧
    ∃ s : Unbounded.State Nat, Complete s.hist ∧ s.queue.published = 2 ∧
      (s.queue.blocks 0).freed = true ∧ Unbounded.drop 3 s.queue = some ([1, 2], [1]) ∧
      ∃ order, Linearization (fifo none) s.hist order ∧
        (pushes order).map some = pops order ++ [some 1, some 2] := by
  constructor
  · obtain ⟨s, hs, hc, hdrop⟩ := (Bounded.system threeSlots).exists_of_runVia
      (Bounded.NoStall threeSlots)
      (P := fun s => Complete s.hist ∧ Bounded.drop threeSlots s.queue = some [3, 4, 5])
      wrapped (by decide +kernel)
    obtain ⟨order, values, hlin, -, hvalues, hdrop'⟩ :=
      (drop_releases_once Nat).1 threeSlots s (.inl hs) hc
    obtain rfl := Option.some.inj (hdrop.symm.trans hdrop')
    exact ⟨s, hc, hdrop, order, hlin, hvalues⟩
  · obtain ⟨s, -, hs, hc, hpub, hfreed, hends, hdrop⟩ := System.exists_of_run
      (M := Unbounded.system)
      (P := fun s => Complete s.hist ∧ s.queue.published = 2 ∧ (s.queue.blocks 0).freed = true ∧
        s.queue.tail.index / 2 - s.queue.head.index / 2 < 3 ∧
        Unbounded.drop 3 s.queue = some ([1, 2], [1])) nextBlock (by decide +kernel)
    obtain ⟨order, values, freed, hlin, -, hvalues, hdrop', -⟩ :=
      (drop_releases_once Nat).2 s hs hc
    obtain ⟨rfl, -⟩ := Prod.mk.inj (Option.some.inj (hdrop.symm.trans (hdrop' 3 hends)))
    exact ⟨s, hc, hpub, hfreed, hdrop, order, hlin, hvalues⟩

end Cynthia.Queue
