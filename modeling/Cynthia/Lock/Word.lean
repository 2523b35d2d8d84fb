import Cynthia.Lib.Census

/-! The state word of a mutex: bit 0 says that the lock is taken, the rest counts
the calls in the starved phase. -/

namespace Cynthia.Lock

open Census

variable {π : Type*} {starved holds : π → Bool} {word word' n f : Nat} {calls : Nat → π} {c : π}

structure Exact (starved holds : π → Bool) (word n : Nat) (calls : Nat → π) : Prop where
  word_eq : word = 2 * count starved n calls + count holds n calls
  holds_le : count holds n calls ≤ 1

theorem Exact.odd_iff (h : Exact starved holds word n calls) :
    word % 2 = 1 ↔ count holds n calls = 1 := by
  have := h.word_eq
  have := h.holds_le
  omega

theorem Exact.div_eq (h : Exact starved holds word n calls) :
    word / 2 = count starved n calls := by
  have := h.word_eq
  have := h.holds_le
  omega

theorem Exact.odd_of_holds (h : Exact starved holds word n calls) (hf : f < n)
    (hc : holds (calls f) = true) : word % 2 = 1 := by
  have := count_pos hf hc
  have := h.holds_le
  rw [h.odd_iff]
  omega

theorem Exact.two_le_of_starved (h : Exact starved holds word n calls) (hf : f < n)
    (hc : starved (calls f) = true) : 2 ≤ word := by
  have := count_pos hf hc
  have := h.word_eq
  omega

theorem Exact.unique (h : Exact starved holds word n calls) {g : Nat} (hf : f < n) (hg : g < n)
    (hcf : holds (calls f) = true) (hcg : holds (calls g) = true) : f = g :=
  eq_of_count_le_one h.holds_le hf hg hcf hcg

/-- A call moves and the word follows it; whoever takes the lock found it free. -/
theorem Exact.move (h : Exact starved holds word n calls) (hf : f < n)
    (hword : word' + 2 * (starved (calls f)).toNat + (holds (calls f)).toNat =
      word + 2 * (starved c).toNat + (holds c).toNat)
    (hfree : holds c = true → holds (calls f) = true ∨ word % 2 = 0) :
    Exact starved holds word' n (Function.update calls f c) := by
  have hs := @count_update π starved n f calls c hf
  have hh := @count_update π holds n f calls c hf
  have hle := h.holds_le
  have heq := h.word_eq
  constructor
  · omega
  · cases hc : holds c with
    | false =>
      rw [hc, Bool.toNat_false] at hh
      omega
    | true =>
      rw [hc, Bool.toNat_true] at hh
      rcases hfree hc with hold | hzero
      · rw [hold, Bool.toNat_true] at hh
        omega
      · omega

/-- What a step does to the word is what it does to the call, and whoever takes the lock
found it free. -/
def Follows (starved holds : π → Bool) (word : Nat) (old : π) (word' : Nat) (new : π) : Prop :=
  word' + 2 * (starved old).toNat + (holds old).toNat =
      word + 2 * (starved new).toNat + (holds new).toNat ∧
    (holds new = true → holds old = true ∨ word % 2 = 0)

/-- A step may rely on what the word says of the call that takes it. -/
theorem Exact.follow (h : Exact starved holds word n calls) (hf : f < n)
    (hword : (starved (calls f) = true → 2 ≤ word) → (holds (calls f) = true → word % 2 = 1) →
      Follows starved holds word (calls f) word' c) :
    Exact starved holds word' n (Function.update calls f c) := by
  obtain ⟨heq, hfree⟩ := hword (h.two_le_of_starved hf) (h.odd_of_holds hf)
  exact h.move hf heq hfree

/-- The word and the call's part in it stay as they are. -/
theorem Exact.frame (h : Exact starved holds word n calls) (hf : f < n)
    (hs : starved c = starved (calls f)) (hh : holds c = holds (calls f)) :
    Exact starved holds word n (Function.update calls f c) := by
  refine h.move hf ?_ ?_
  · rw [hs, hh]
  · intro hc
    rw [hh] at hc
    exact .inl hc

theorem Exact.start (h : Exact starved holds word n calls) (hs : starved c = false)
    (hh : holds c = false) : Exact starved holds word (n + 1) (Function.update calls n c) := by
  constructor
  · rw [count_start, count_start, hs, hh, Bool.toNat_false]
    exact h.word_eq
  · rw [count_start, hh, Bool.toNat_false]
    exact h.holds_le

end Cynthia.Lock
