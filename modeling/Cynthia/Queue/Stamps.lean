import Mathlib.Data.Nat.Bitwise
import Mathlib.Data.Nat.Size
import Mathlib.Data.Nat.ModEq
import Mathlib.Tactic.Ring

/-! The words in which `platform/queue/bounded.rs` keeps its counters: the lap in
the high bits, then the mark bit, then the index. The `n`-th push and the `n`-th pop
go by the word of the ticket `n`. -/

namespace Cynthia.Queue

/-- A capacity with which `Bounded::new` returns: it is positive, and a buffer of
slots of at least eight bytes each fits into an allocation. -/
structure Capacity where
  val : Nat
  pos : 0 < val
  fits : val < 2 ^ 60

/-- `usize::wrapping_add`. -/
def wrappingAdd (a b : Nat) : Nat := (a + b) % 2 ^ 64

/-- `!a` on `usize`. -/
def complement (a : Nat) : Nat := 2 ^ 64 - (a + 1)

/-- `usize::next_power_of_two`: the least power of two that is at least `n`. -/
def nextPowerOfTwo (n : Nat) : Nat := 2 ^ (n - 1).size

namespace Capacity

variable (cap : Capacity)

def markBit : Nat := nextPowerOfTwo (cap.val + 1)

def oneLap : Nat := cap.markBit * 2

/-- After so many laps a counter starts again at zero. -/
def laps : Nat := 2 ^ 64 / cap.oneLap

/-- So many pushes take `tail` once around. -/
def period : Nat := cap.laps * cap.val

/-- The word of a ticket. -/
def word (n : Nat) : Nat := n / cap.val % cap.laps * cap.oneLap + n % cap.val

/-- The word of a ticket with the mark of a closed queue, or without. -/
def marked (n : Nat) (closed : Bool) : Nat := cap.word n + if closed then cap.markBit else 0

theorem markBit_eq : cap.markBit = 2 ^ cap.val.size := rfl

theorem size_le : cap.val.size ≤ 60 := Nat.size_le.mpr cap.fits

theorem lt_markBit : cap.val < cap.markBit := Nat.lt_size_self cap.val

theorem oneLap_eq : cap.oneLap = 2 ^ (cap.val.size + 1) := by
  rw [oneLap, markBit_eq, pow_succ]

theorem laps_eq : cap.laps = 2 ^ (63 - cap.val.size) := by
  have hle := cap.size_le
  rw [laps, oneLap_eq, Nat.pow_div (by omega) (by omega)]
  congr 1
  omega

theorem laps_mul : cap.laps * cap.oneLap = 2 ^ 64 := by
  have hle := cap.size_le
  rw [laps_eq, oneLap_eq, ← pow_add]
  congr 1
  omega

theorem eight_le_laps : 8 ≤ cap.laps := by
  have hle := cap.size_le
  rw [laps_eq]
  have h : 2 ^ 3 ≤ 2 ^ (63 - cap.val.size) := Nat.pow_le_pow_right (by omega) (by omega)
  omega

theorem mod_lt (n : Nat) : n % cap.val < cap.val := Nat.mod_lt _ cap.pos

theorem lap_lt (n : Nat) : n / cap.val % cap.laps < cap.laps :=
  Nat.mod_lt _ (by have := cap.eight_le_laps; omega)

/-- There is room for the mark and the index above the lap. -/
theorem lap_room (n : Nat) : n / cap.val % cap.laps * cap.oneLap + cap.oneLap ≤ 2 ^ 64 := by
  rw [← laps_mul, ← Nat.succ_mul]
  exact Nat.mul_le_mul_right _ (cap.lap_lt n)

theorem word_lt (n : Nat) : cap.word n + cap.markBit < 2 ^ 64 := by
  have h₁ := cap.lap_room n
  have h₂ := cap.mod_lt n
  have h₃ := cap.lt_markBit
  have h₄ : cap.oneLap = cap.markBit * 2 := rfl
  unfold word
  omega

/-- The bits of a word. -/
theorem testBit_marked (n : Nat) (closed : Bool) (j : Nat) :
    (cap.marked n closed).testBit j =
      if j < cap.val.size then (n % cap.val).testBit j
      else if j = cap.val.size then closed
      else (n / cap.val % cap.laps).testBit (j - (cap.val.size + 1)) := by
  have hr : n % cap.val < 2 ^ cap.val.size := (cap.mod_lt n).trans cap.lt_markBit
  have hlow : (if closed then 2 ^ cap.val.size else 0) + n % cap.val < 2 ^ (cap.val.size + 1) := by
    rw [pow_succ]
    split <;> omega
  have heq : cap.marked n closed = 2 ^ (cap.val.size + 1) * (n / cap.val % cap.laps) +
      ((if closed then 2 ^ cap.val.size else 0) + n % cap.val) := by
    rw [marked, word, oneLap_eq, markBit_eq]
    ring
  rw [heq, Nat.testBit_two_pow_mul_add _ hlow]
  have hmark : (if closed then 2 ^ cap.val.size else 0) = 2 ^ cap.val.size * closed.toNat := by
    cases closed <;> simp
  rw [hmark, Nat.testBit_two_pow_mul_add _ hr]
  by_cases hj : j < cap.val.size
  · simp [hj, Nat.lt_succ_of_lt hj]
  · by_cases hjeq : j = cap.val.size
    · subst hjeq
      cases closed <;> simp
    · have : ¬j < cap.val.size + 1 := by omega
      simp [hj, hjeq, this]

@[simp] theorem marked_false (n : Nat) : cap.marked n false = cap.word n := by simp [marked]

theorem marked_and_markBit (n : Nat) (closed : Bool) :
    cap.marked n closed &&& cap.markBit = if closed then cap.markBit else 0 := by
  rw [markBit_eq, Nat.and_two_pow, testBit_marked]
  cases closed <;> simp

theorem marked_or_markBit (n : Nat) (closed : Bool) :
    cap.marked n closed ||| cap.markBit = cap.marked n true := by
  refine Nat.eq_of_testBit_eq fun j => ?_
  rw [Nat.testBit_or, testBit_marked, testBit_marked, markBit_eq, Nat.testBit_two_pow]
  by_cases hj : j = cap.val.size
  · simp [hj]
  · simp [hj, Ne.symm hj]

theorem marked_and_complement (n : Nat) (closed : Bool) :
    cap.marked n closed &&& complement cap.markBit = cap.word n := by
  have hle := cap.size_le
  have hlt : cap.markBit < 2 ^ 64 := by
    rw [markBit_eq]
    exact Nat.pow_lt_pow_right (by omega) (by omega)
  have hword : cap.word n < 2 ^ 64 := by
    have := cap.word_lt n
    omega
  refine Nat.eq_of_testBit_eq fun j => ?_
  rw [Nat.testBit_and, complement, Nat.testBit_two_pow_sub_succ hlt, ← marked_false,
    testBit_marked, testBit_marked, markBit_eq, Nat.testBit_two_pow]
  by_cases hj : j = cap.val.size
  · simp [hj]
  · by_cases h64 : j < 64
    · simp [hj, Ne.symm hj, h64]
    · have hzero : (cap.word n).testBit j = false :=
        Nat.testBit_lt_two_pow (hword.trans_le (Nat.pow_le_pow_right (by omega) (by omega)))
      rw [← marked_false, testBit_marked] at hzero
      simp only [hj, ↓reduceIte] at hzero ⊢
      simp [h64, hzero]

theorem word_and_index (n : Nat) : cap.word n &&& (cap.markBit - 1) = n % cap.val := by
  have hr : n % cap.val < 2 ^ cap.val.size := (cap.mod_lt n).trans cap.lt_markBit
  rw [markBit_eq, Nat.and_two_pow_sub_one_eq_mod, word, oneLap_eq, pow_succ', ← mul_assoc,
    Nat.mul_add_mod_self_right, Nat.mod_eq_of_lt hr]

theorem and_complement_low {x k : Nat} (hx : x < 2 ^ 64) (hk : k < 64) :
    x &&& complement (2 ^ k - 1) = 2 ^ k * (x / 2 ^ k) := by
  have hlt : 2 ^ k - 1 < 2 ^ 64 :=
    (Nat.sub_le _ _).trans_lt (Nat.pow_lt_pow_right (by omega) (by omega))
  refine Nat.eq_of_testBit_eq fun j => ?_
  rw [Nat.testBit_and, complement, Nat.testBit_two_pow_sub_succ hlt, Nat.testBit_two_pow_sub_one,
    Nat.testBit_two_pow_mul, Nat.testBit_div_two_pow]
  by_cases hj : j < k
  · have : ¬k ≤ j := by omega
    simp [hj, this]
  · have hle : k ≤ j := by omega
    have hadd : j - k + k = j := by omega
    by_cases h64 : j < 64
    · simp [hj, hle, hadd, h64]
    · have hzero : x.testBit j = false :=
        Nat.testBit_lt_two_pow (hx.trans_le (Nat.pow_le_pow_right (by omega) (by omega)))
      simp [hle, hadd, hzero]

theorem word_div (n : Nat) : cap.word n / cap.oneLap = n / cap.val % cap.laps := by
  have hlt : n % cap.val < cap.oneLap := by
    have h₁ := cap.mod_lt n
    have h₂ := cap.lt_markBit
    have h₃ : cap.oneLap = cap.markBit * 2 := rfl
    omega
  rw [word, mul_comm, Nat.mul_add_div (by omega), Nat.div_eq_of_lt hlt, add_zero]

theorem word_and_lap (n : Nat) :
    cap.word n &&& complement (cap.oneLap - 1) = n / cap.val % cap.laps * cap.oneLap := by
  have hle := cap.size_le
  have hlt : cap.word n < 2 ^ 64 := by
    have := cap.word_lt n
    omega
  rw [oneLap_eq, and_complement_low hlt (by omega), ← oneLap_eq, word_div, mul_comm]

theorem word_add_oneLap (n : Nat) : wrappingAdd (cap.word n) cap.oneLap = cap.word (n + cap.val) := by
  have hr := cap.mod_lt n
  have hm := cap.lt_markBit
  have hlap : cap.oneLap = cap.markBit * 2 := rfl
  have hroom := cap.lap_room n
  have hlt := cap.lap_lt n
  have hmul := cap.laps_mul
  rw [wrappingAdd, word, word, Nat.add_div_right _ cap.pos, Nat.add_mod_right]
  rcases Nat.lt_or_ge (n / cap.val % cap.laps + 1) cap.laps with hlast | hlast
  · have hnext : (n / cap.val).succ % cap.laps = n / cap.val % cap.laps + 1 := by
      rw [Nat.succ_eq_add_one, ← Nat.mod_add_mod, Nat.mod_eq_of_lt hlast]
    have hle : (n / cap.val % cap.laps + 2) * cap.oneLap ≤ cap.laps * cap.oneLap :=
      Nat.mul_le_mul_right _ hlast
    rw [hnext]
    rw [add_mul] at hle ⊢
    rw [Nat.mod_eq_of_lt (by omega)]
    omega
  · have heq : n / cap.val % cap.laps + 1 = cap.laps := by omega
    have hnext : (n / cap.val).succ % cap.laps = 0 := by
      rw [Nat.succ_eq_add_one, ← Nat.mod_add_mod, heq, Nat.mod_self]
    have hwrap : n / cap.val % cap.laps * cap.oneLap + n % cap.val + cap.oneLap =
        n % cap.val + 2 ^ 64 := by
      rw [← hmul, ← heq, add_mul, one_mul]
      simp only [heq]
      omega
    rw [hnext, hwrap, Nat.add_mod_right, zero_mul, zero_add, Nat.mod_eq_of_lt (by omega)]

/-- The word that a claim of the ticket `n` stores. -/
theorem word_next (n : Nat) :
    (if n % cap.val + 1 < cap.val then wrappingAdd (cap.word n) 1
      else wrappingAdd (n / cap.val % cap.laps * cap.oneLap) cap.oneLap) = cap.word (n + 1) := by
  have hp := cap.pos
  have hsplit := Nat.div_add_mod n cap.val
  split
  · rename_i hlt
    have hlt64 := cap.word_lt n
    have hm := cap.lt_markBit
    have hdiv : (n + 1) / cap.val = n / cap.val := by
      rw [Nat.succ_div_of_not_dvd]
      intro hdvd
      have := Nat.mod_eq_zero_of_dvd hdvd
      rw [← Nat.mod_add_mod, Nat.mod_eq_of_lt hlt] at this
      omega
    have hmod : (n + 1) % cap.val = n % cap.val + 1 := by
      rw [← Nat.mod_add_mod, Nat.mod_eq_of_lt hlt]
    rw [wrappingAdd, Nat.mod_eq_of_lt (by omega), word, word, hdiv, hmod]
    omega
  · rename_i hlast
    have hr := cap.mod_lt n
    have hzero : (n - n % cap.val) % cap.val = 0 := by
      rw [← Nat.mul_div_self_eq_mod_sub_self]
      exact Nat.mul_mod_right _ _
    have hbase : cap.word (n - n % cap.val) = n / cap.val % cap.laps * cap.oneLap := by
      rw [word, hzero, add_zero, ← Nat.mul_div_self_eq_mod_sub_self,
        Nat.mul_div_cancel_left _ cap.pos]
    rw [← hbase, word_add_oneLap]
    congr 1
    have := Nat.mod_le n cap.val
    omega

/-- Tickets less than a period apart have different words. -/
theorem eq_of_word_eq {n m : Nat} (h : cap.word n = cap.word m) (hn : n < m + cap.period)
    (hm : m < n + cap.period) : n = m := by
  have hlap : n / cap.val ≡ m / cap.val [MOD cap.laps] := by
    have := congrArg (· / cap.oneLap) h
    simp only [word_div] at this
    exact this
  have hindex : n % cap.val = m % cap.val := by
    rw [← word_and_index, h, word_and_index]
  have hmod : n ≡ m [MOD cap.period] := by
    have hmul := hlap.mul_right' cap.val
    have hsum := hmul.add_right (n % cap.val)
    nth_rewrite 2 [hindex] at hsum
    rwa [Nat.div_add_mod', Nat.div_add_mod'] at hsum
  rcases Nat.le_total n m with hle | hle
  · have hdvd := (Nat.modEq_iff_dvd' hle).mp hmod
    have := Nat.eq_zero_of_dvd_of_lt hdvd (by omega)
    omega
  · have hdvd := (Nat.modEq_iff_dvd' hle).mp hmod.symm
    have := Nat.eq_zero_of_dvd_of_lt hdvd (by omega)
    omega

/-- A stamp that says written is no stamp that says free. -/
theorem word_succ_ne {n m : Nat} (h : n % cap.val = m % cap.val) :
    cap.word n + 1 ≠ cap.word m := by
  intro heq
  have hmod : (cap.word n + 1) % cap.markBit = cap.word m % cap.markBit := by rw [heq]
  have hlow (i : Nat) : cap.word i % cap.markBit = i % cap.val := by
    rw [← word_and_index, markBit_eq, Nat.and_two_pow_sub_one_eq_mod]
  have hr := cap.mod_lt m
  have hm := cap.lt_markBit
  rw [← Nat.mod_add_mod, hlow, hlow, h, Nat.mod_eq_of_lt (by omega)] at hmod
  omega

theorem val_lt_period : cap.val < cap.period := by
  have h₁ := cap.eight_le_laps
  have h₂ := cap.pos
  have h₃ : 8 * cap.val ≤ cap.laps * cap.val := Nat.mul_le_mul_right _ h₁
  unfold period
  omega

/-- What `Bounded::len` returns, from the words of `tail` and `head` that it has loaded. -/
def lenOf (tail head : Nat) : Nat :=
  let hix := head &&& (cap.markBit - 1)
  let tix := tail &&& (cap.markBit - 1)
  if hix < tix then tix - hix
  else if hix > tix then cap.val - hix + tix
  else if tail &&& complement cap.markBit = head then 0
  else cap.val

/-- The words of two tickets at most a buffer apart tell how far they are apart. -/
theorem lenOf_word {n m : Nat} (hle : m ≤ n) (hcap : n ≤ m + cap.val) :
    cap.lenOf (cap.word n) (cap.word m) = n - m := by
  have hmark := cap.marked_and_complement n false
  rw [marked_false] at hmark
  simp only [lenOf, word_and_index, hmark]
  obtain ⟨d, rfl⟩ := Nat.exists_eq_add_of_le hle
  have hd : d ≤ cap.val := by omega
  have hm := cap.mod_lt m
  have hmod : (m + d) % cap.val = (m % cap.val + d) % cap.val := (Nat.mod_add_mod m cap.val d).symm
  rw [Nat.add_sub_cancel_left]
  rcases Nat.lt_or_ge (m % cap.val + d) cap.val with hlt | hge
  · rw [hmod, Nat.mod_eq_of_lt hlt]
    split
    · omega
    · obtain rfl : d = 0 := by omega
      simp
  · have hwrap : (m % cap.val + d) % cap.val = m % cap.val + d - cap.val := by
      rw [Nat.mod_eq_sub_mod hge, Nat.mod_eq_of_lt (by omega)]
    rw [hmod, hwrap]
    rcases Nat.lt_or_ge d cap.val with hlt | hfull
    · rw [if_neg (by omega), if_pos (by omega)]
      omega
    · obtain rfl : d = cap.val := by omega
      have hne : cap.word (m + cap.val) ≠ cap.word m := by
        intro heq
        have hperiod : cap.val < cap.period := cap.val_lt_period
        have := cap.eq_of_word_eq heq (by omega) (by omega)
        have := cap.pos
        omega
      rw [if_neg (by omega), if_neg (by omega), if_neg hne]

end Capacity
end Cynthia.Queue
