import Mathlib.Algebra.Group.Nat.Defs

/-! Machine words: operations that report a result that does not fit, and rounding up to
a multiple of an alignment. -/

namespace Cynthia.Words

variable {w : Nat} {x y z : BitVec w}

def checkedAdd (x y : BitVec w) : Option (BitVec w) :=
  if x.uaddOverflow y then none else some (x + y)

def checkedSub (x y : BitVec w) : Option (BitVec w) :=
  if x.usubOverflow y then none else some (x - y)

def checkedMul (x y : BitVec w) : Option (BitVec w) :=
  if x.umulOverflow y then none else some (x * y)

theorem checkedAdd_of_lt (h : x.toNat + y.toNat < 2 ^ w) : checkedAdd x y = some (x + y) := by
  simp [checkedAdd, BitVec.uaddOverflow, h]

theorem checkedSub_of_le (h : y.toNat ≤ x.toNat) : checkedSub x y = some (x - y) := by
  simp [checkedSub, BitVec.usubOverflow, h]

theorem checkedMul_of_lt (h : x.toNat * y.toNat < 2 ^ w) : checkedMul x y = some (x * y) := by
  simp [checkedMul, BitVec.umulOverflow, h]

/-- What the checked operations give is exact. -/
theorem checkedAdd_eq_some : checkedAdd x y = some z ↔ z.toNat = x.toNat + y.toNat := by
  constructor
  · intro h
    unfold checkedAdd at h
    split at h <;> cases h
    exact BitVec.toNat_add_of_not_uaddOverflow ‹_›
  · intro h
    have hlt : x.toNat + y.toNat < 2 ^ w := h ▸ z.isLt
    rw [checkedAdd_of_lt hlt, Option.some_inj]
    exact BitVec.eq_of_toNat_eq ((BitVec.toNat_add_of_lt hlt).trans h.symm)

theorem checkedMul_eq_some : checkedMul x y = some z ↔ z.toNat = x.toNat * y.toNat := by
  constructor
  · intro h
    unfold checkedMul at h
    split at h <;> cases h
    exact BitVec.toNat_mul_of_not_umulOverflow ‹_›
  · intro h
    have hlt : x.toNat * y.toNat < 2 ^ w := h ▸ z.isLt
    rw [checkedMul_of_lt hlt, Option.some_inj]
    exact BitVec.eq_of_toNat_eq ((BitVec.toNat_mul_of_lt hlt).trans h.symm)

/-- A sum of three that fits. -/
theorem checkedAdd_bind (h : x.toNat + y.toNat + z.toNat < 2 ^ w) :
    ((checkedAdd x y).bind fun u => checkedAdd u z) = some (x + y + z) := by
  have hxy : x.toNat + y.toNat < 2 ^ w := Nat.lt_of_le_of_lt (Nat.le_add_right _ _) h
  rw [checkedAdd_of_lt hxy, Option.bind_some, checkedAdd_of_lt]
  rwa [BitVec.toNat_add_of_lt hxy]

theorem toNat_of_checkedAdd_bind {u : BitVec w}
    (h : ((checkedAdd x y).bind fun v => checkedAdd v z) = some u) :
    u.toNat = x.toNat + y.toNat + z.toNat := by
  obtain ⟨v, hv, hu⟩ := Option.bind_eq_some_iff.mp h
  rw [checkedAdd_eq_some.mp hu, checkedAdd_eq_some.mp hv]

/-- `Ord::max`. -/
def umax (x y : BitVec w) : BitVec w := if x ≤ y then y else x

theorem toNat_umax : (umax x y).toNat = max x.toNat y.toNat := by
  unfold umax
  split
  · exact (Nat.max_eq_right ‹_›).symm
  · rename_i h
    exact (Nat.max_eq_left (Nat.le_of_not_le h)).symm

/-! ## Rounding up -/

/-- The least multiple of `a` from `n` on. -/
def roundUp (n a : Nat) : Nat := (n + (a - 1)) / a * a

section RoundUp

variable {n a b m : Nat}

theorem dvd_roundUp (n a : Nat) : a ∣ roundUp n a := Nat.dvd_mul_left _ _

theorem le_roundUp (ha : 0 < a) (n : Nat) : n ≤ roundUp n a := by
  have hmod := Nat.mod_lt (n + (a - 1)) ha
  have hdiv := Nat.div_add_mod' (n + (a - 1)) a
  unfold roundUp
  omega

theorem roundUp_lt (ha : 0 < a) (n : Nat) : roundUp n a < n + a := by
  have hle := Nat.div_mul_le_self (n + (a - 1)) a
  unfold roundUp
  omega

theorem roundUp_le (ha : 0 < a) (hn : n ≤ m) (hm : a ∣ m) : roundUp n a ≤ m := by
  obtain ⟨q, rfl⟩ := hm
  unfold roundUp
  have hdiv : (n + (a - 1)) / a < q + 1 := by
    apply Nat.div_lt_of_lt_mul
    rw [Nat.mul_add, Nat.mul_one]
    omega
  rw [Nat.mul_comm a q]
  exact Nat.mul_le_mul_right a (Nat.lt_succ_iff.mp hdiv)

theorem roundUp_mono (ha : 0 < a) (hb : 0 < b) (hn : n ≤ m) (hab : a ∣ b) :
    roundUp n a ≤ roundUp m b :=
  roundUp_le ha (Nat.le_trans hn (le_roundUp hb m)) (Nat.dvd_trans hab (dvd_roundUp m b))

end RoundUp

/-! ## Powers of two -/

theorem dvd_of_le {a b : Nat} (ha : a.isPowerOfTwo) (hb : b.isPowerOfTwo) (h : a ≤ b) :
    a ∣ b := by
  obtain ⟨i, rfl⟩ := ha
  obtain ⟨j, rfl⟩ := hb
  exact Nat.pow_dvd_pow 2 ((Nat.pow_le_pow_iff_right (by decide)).mp h)

theorem isPowerOfTwo_max {a b : Nat} (ha : a.isPowerOfTwo) (hb : b.isPowerOfTwo) :
    (max a b).isPowerOfTwo := by
  rcases Nat.le_total a b with h | h
  · rwa [Nat.max_eq_right h]
  · rwa [Nat.max_eq_left h]

/-- A word that is a power of two is at most the one with the top bit. -/
theorem le_half (hx : x.toNat.isPowerOfTwo) : x.toNat ≤ 2 ^ (w - 1) := by
  obtain ⟨k, hk⟩ := hx
  have hlt : 2 ^ k < 2 ^ w := hk ▸ x.isLt
  have hkw : k < w := (Nat.pow_lt_pow_iff_right (by decide)).mp hlt
  rw [hk]
  exact Nat.pow_le_pow_right (by decide) (by omega)

theorem two_halves (hx : x.toNat.isPowerOfTwo) : 2 ^ w = 2 ^ (w - 1) + 2 ^ (w - 1) := by
  have hpos := Nat.pos_of_isPowerOfTwo hx
  have hlt := x.isLt
  cases w with
  | zero => omega
  | succ v => rw [Nat.add_sub_cancel, Nat.pow_succ, Nat.mul_two]

theorem toNat_one (hx : x.toNat.isPowerOfTwo) : (1 : BitVec w).toNat = 1 := by
  have hpos := Nat.pos_of_isPowerOfTwo hx
  have hlt := x.isLt
  rw [BitVec.ofNat_eq_ofNat, BitVec.toNat_ofNat]
  exact Nat.mod_eq_of_lt (Nat.lt_of_le_of_lt hpos hlt)

theorem toNat_pred (hx : x.toNat.isPowerOfTwo) : (x - 1).toNat = x.toNat - 1 := by
  have hone := toNat_one hx
  have hpos := Nat.pos_of_isPowerOfTwo hx
  rw [BitVec.toNat_sub_of_le (by rw [BitVec.le_def, hone]; exact hpos), hone]

/-- Clearing the bits below the alignment rounds down. -/
theorem and_not_pred (x : BitVec w) (hy : y.toNat.isPowerOfTwo) :
    (x &&& ~~~(y - 1)).toNat = x.toNat / y.toNat * y.toNat := by
  have hpred := toNat_pred hy
  obtain ⟨k, hk⟩ := hy
  rw [hk] at hpred ⊢
  have hbits : x &&& ~~~(y - 1) = (x >>> k) <<< k := by
    apply BitVec.eq_of_getLsbD_eq
    intro i hi
    have hmask : (y - 1).getLsbD i = decide (i < k) := by
      rw [BitVec.getLsbD, hpred, Nat.testBit_two_pow_sub_one]
    simp only [BitVec.getLsbD_and, BitVec.getLsbD_not, BitVec.getLsbD_shiftLeft,
      BitVec.getLsbD_ushiftRight, hmask, hi]
    by_cases hik : i < k
    · simp [hik]
    · simp [hik, Nat.add_sub_of_le (Nat.le_of_not_lt hik)]
  have hle := Nat.div_mul_le_self x.toNat (2 ^ k)
  rw [hbits, BitVec.toNat_shiftLeft, BitVec.toNat_ushiftRight, Nat.shiftRight_eq_div_pow,
    Nat.shiftLeft_eq, Nat.mod_eq_of_lt (Nat.lt_of_le_of_lt hle x.isLt)]

end Cynthia.Words
