import Cynthia.Utils.Rander
import Mathlib.Data.BitVec

/-! The methods that `rand_integer!` of `utils/rander.rs` defines: a random integer of a
range. `usize` and `isize` have 64 bits. -/

namespace Cynthia.Utils.Rander

open MultiplyReject

/-- The types of `rand_integer!`. -/
inductive IntType where
  | i8 | i16 | i32 | i64 | i128 | isize
  | u8 | u16 | u32 | u64 | u128 | usize
  deriving DecidableEq, Repr

/-- The bounds of `RangeBounds`. -/
inductive Bound (α : Type) where
  | unbounded
  | included (x : α)
  | excluded (x : α)
  deriving DecidableEq, Repr

/-- `running` when the fuel is used up. -/
inductive Outcome (α : Type) where
  | panic
  | running
  | done (a : α)
  deriving DecidableEq, Repr

namespace IntType

def bits : IntType → Nat
  | .i8 | .u8 => 8
  | .i16 | .u16 => 16
  | .i32 | .u32 => 32
  | .i64 | .u64 | .isize | .usize => 64
  | .i128 | .u128 => 128

def signed : IntType → Bool
  | .i8 | .i16 | .i32 | .i64 | .i128 | .isize => true
  | .u8 | .u16 | .u32 | .u64 | .u128 | .usize => false

/-- The second and third argument of the macro. -/
def word : IntType → Word
  | .i8 | .i16 | .i32 | .u8 | .u16 | .u32 => .u32
  | .i64 | .isize | .u64 | .usize => .u64
  | .i128 | .u128 => .u128

variable (t : IntType)

/-- A value of the type. -/
abbrev Val := BitVec t.bits

def min : t.Val := if t.signed then BitVec.intMin t.bits else 0

def max : t.Val := if t.signed then BitVec.intMax t.bits else BitVec.allOnes t.bits

def lt (x y : t.Val) : Bool := if t.signed then x.slt y else x.ult y

/-- `checked_add(1)`. -/
def checkedSucc (x : t.Val) : Option t.Val := if x = t.max then none else some (x + 1)

/-- `checked_sub(1)`. -/
def checkedPred (x : t.Val) : Option t.Val := if x = t.min then none else some (x - 1)

/-- `as` to the type of the words. -/
def toWord (x : t.Val) : BitVec t.word.bits :=
  if t.signed then x.signExtend t.word.bits else x.setWidth t.word.bits

/-- `as` from the type of the words. -/
def ofWord (r : BitVec t.word.bits) : t.Val := r.setWidth t.bits

def low : Bound t.Val → Option t.Val
  | .unbounded => some t.min
  | .included x => some x
  | .excluded x => t.checkedSucc x

def high : Bound t.Val → Option t.Val
  | .unbounded => some t.max
  | .included x => some x
  | .excluded x => t.checkedPred x

end IntType

/-- The body of `rand_integer!`. -/
def randInteger (t : IntType) (start stop : Bound t.Val) (fuel : Nat) (s : State) :
    Outcome (t.Val × State) :=
  match t.low start, t.high stop with
  | some low, some high =>
    if t.lt high low then .panic
    else if low = t.min ∧ high = t.max then
      let (r, s) := t.word.gen s
      .done (t.ofWord r, s)
    else
      let len := high - low + 1
      match t.word.genMod (t.toWord len) fuel s with
      | some (r, s) => .done (low + t.ofWord r, s)
      | none => .running
  | _, _ => .panic

def i8 := randInteger .i8
def i16 := randInteger .i16
def i32 := randInteger .i32
def i64 := randInteger .i64
def i128 := randInteger .i128
def isize := randInteger .isize
def u8 := randInteger .u8
def u16 := randInteger .u16
def u32 := randInteger .u32
def u64 := randInteger .u64
def u128 := randInteger .u128
def usize := randInteger .usize

namespace IntType

variable (t : IntType) {x y : t.Val} {start stop : Bound t.Val}

/-- The number that a value is. -/
def value (x : t.Val) : Int := if t.signed then x.toInt else x.toNat

def minValue : Int := if t.signed then -2 ^ (t.bits - 1) else 0

def maxValue : Int := if t.signed then 2 ^ (t.bits - 1) - 1 else 2 ^ t.bits - 1

/-- The least number that the lower bound lets through. -/
def lowest : Bound t.Val → Int
  | .unbounded => t.minValue
  | .included x => t.value x
  | .excluded x => t.value x + 1

def highest : Bound t.Val → Int
  | .unbounded => t.maxValue
  | .included x => t.value x
  | .excluded x => t.value x - 1

/-- The value lies in the range. -/
def Within (start stop : Bound t.Val) (x : t.Val) : Prop :=
  (match start with
    | .unbounded => True
    | .included a => t.value a ≤ t.value x
    | .excluded a => t.value a < t.value x) ∧
  match stop with
  | .unbounded => True
  | .included b => t.value x ≤ t.value b
  | .excluded b => t.value x < t.value b

theorem bits_pos : 0 < t.bits := by cases t <;> decide

theorem bits_le : t.bits ≤ t.word.bits := by cases t <;> decide

theorem two_pow_bits : (2 : Int) ^ t.bits = 2 * 2 ^ (t.bits - 1) := by
  obtain ⟨b, hb⟩ := Nat.exists_eq_add_of_lt t.bits_pos
  rw [hb, Nat.zero_add, Nat.add_sub_cancel, Int.pow_succ, Int.mul_comm]

theorem two_pow_pos : (0 : Int) < 2 ^ t.bits := Int.pow_pos (by decide)

theorem minValue_add : t.minValue + 2 ^ t.bits = t.maxValue + 1 := by
  have hpow := t.two_pow_bits
  unfold minValue maxValue
  split <;> omega

theorem minValue_le_maxValue : t.minValue ≤ t.maxValue := by
  have hpos := t.two_pow_pos
  have hle := t.minValue_add
  omega

theorem value_bounds (x : t.Val) : t.minValue ≤ t.value x ∧ t.value x ≤ t.maxValue := by
  unfold minValue maxValue value
  split
  · have hle := BitVec.le_toInt x
    have hlt := BitVec.toInt_lt (x := x)
    omega
  · have hlt : (x.toNat : Int) < 2 ^ t.bits := by exact_mod_cast x.isLt
    omega

theorem ofInt_value (x : t.Val) : BitVec.ofInt t.bits (t.value x) = x := by
  unfold value
  split
  · exact BitVec.ofInt_toInt
  · rw [BitVec.ofInt_natCast, BitVec.ofNat_toNat, BitVec.setWidth_eq]

theorem value_ofInt {i : Int} (hmin : t.minValue ≤ i) (hmax : i ≤ t.maxValue) :
    t.value (BitVec.ofInt t.bits i) = i := by
  unfold minValue at hmin
  unfold maxValue at hmax
  unfold value
  split
  · rename_i hsigned
    rw [if_pos hsigned] at hmin hmax
    exact BitVec.toInt_ofInt_eq_self t.bits_pos hmin (by omega)
  · rename_i hsigned
    rw [if_neg hsigned] at hmin hmax
    have hcast : ((2 ^ t.bits : Nat) : Int) = 2 ^ t.bits := by push_cast; rfl
    rw [BitVec.toNat_ofInt, hcast,
      Int.toNat_of_nonneg (Int.emod_nonneg _ (Int.ne_of_gt t.two_pow_pos)),
      Int.emod_eq_of_lt hmin (Int.lt_of_le_sub_one hmax)]

theorem value_inj (h : t.value x = t.value y) : x = y := by
  rw [← t.ofInt_value x, h, t.ofInt_value]

theorem value_min : t.value t.min = t.minValue := by
  unfold value min minValue
  split
  · exact BitVec.toInt_intMin_of_pos t.bits_pos
  · exact congrArg Nat.cast BitVec.toNat_zero

theorem value_max : t.value t.max = t.maxValue := by
  unfold value max maxValue
  split
  · exact BitVec.toInt_intMax
  · rw [BitVec.toNat_allOnes]
    have hpos : 1 ≤ 2 ^ t.bits := Nat.one_le_two_pow
    push_cast [hpos]
    rfl

theorem lt_iff : t.lt x y = true ↔ t.value x < t.value y := by
  unfold lt value
  split
  · exact BitVec.slt_iff_toInt_lt
  · rw [BitVec.ult_iff_lt, BitVec.lt_def, Int.ofNat_lt]

theorem ofInt_sub {w : Nat} (i j : Int) :
    BitVec.ofInt w (i - j) = BitVec.ofInt w i - BitVec.ofInt w j := by
  refine eq_sub_of_add_eq ?_
  rw [← BitVec.ofInt_add, Int.sub_add_cancel]

/-! ## The bounds -/

theorem minValue_le_lowest (start : Bound t.Val) : t.minValue ≤ t.lowest start := by
  cases start with
  | unbounded => exact Int.le_refl _
  | included x => exact (t.value_bounds x).1
  | excluded x => exact Int.le_add_one (t.value_bounds x).1

theorem highest_le_maxValue (stop : Bound t.Val) : t.highest stop ≤ t.maxValue := by
  cases stop with
  | unbounded => exact Int.le_refl _
  | included x => exact (t.value_bounds x).2
  | excluded x =>
    have hle := (t.value_bounds x).2
    show t.value x - 1 ≤ t.maxValue
    omega

theorem low_eq (start : Bound t.Val) : t.low start =
    if t.lowest start ≤ t.maxValue then some (BitVec.ofInt t.bits (t.lowest start)) else none := by
  cases start with
  | unbounded =>
    rw [lowest, if_pos t.minValue_le_maxValue, ← t.value_min, t.ofInt_value]
    rfl
  | included x =>
    rw [lowest, if_pos (t.value_bounds x).2, t.ofInt_value]
    rfl
  | excluded x =>
    have hmax := (t.value_bounds x).2
    rw [low, checkedSucc, lowest]
    by_cases hx : x = t.max
    · rw [if_pos hx, if_neg]
      rw [hx, t.value_max]
      omega
    · have hne : t.value x ≠ t.maxValue := fun h => hx (t.value_inj (h.trans t.value_max.symm))
      rw [if_neg hx, if_pos (by omega), BitVec.ofInt_add, t.ofInt_value]
      rfl

theorem high_eq (stop : Bound t.Val) : t.high stop =
    if t.minValue ≤ t.highest stop then some (BitVec.ofInt t.bits (t.highest stop)) else none := by
  cases stop with
  | unbounded =>
    rw [highest, if_pos t.minValue_le_maxValue, ← t.value_max, t.ofInt_value]
    rfl
  | included x =>
    rw [highest, if_pos (t.value_bounds x).1, t.ofInt_value]
    rfl
  | excluded x =>
    have hmin := (t.value_bounds x).1
    rw [high, checkedPred, highest]
    by_cases hx : x = t.min
    · rw [if_pos hx, if_neg]
      rw [hx, t.value_min]
      omega
    · have hne : t.value x ≠ t.minValue := fun h => hx (t.value_inj (h.trans t.value_min.symm))
      rw [if_neg hx, if_pos (by omega), ofInt_sub, t.ofInt_value]
      rfl

theorem within_iff : t.Within start stop x ↔
    t.lowest start ≤ t.value x ∧ t.value x ≤ t.highest stop := by
  have hbounds := t.value_bounds x
  refine and_congr ?_ ?_
  · cases start with
    | unbounded => exact iff_of_true trivial hbounds.1
    | included a => exact Iff.rfl
    | excluded a => exact Int.lt_iff_add_one_le
  · cases stop with
    | unbounded => exact iff_of_true trivial hbounds.2
    | included b => exact Iff.rfl
    | excluded b =>
      dsimp only [highest]
      omega

theorem exists_within : (∃ x, t.Within start stop x) ↔ t.lowest start ≤ t.highest stop := by
  constructor
  · rintro ⟨x, hx⟩
    obtain ⟨hlow, hhigh⟩ := t.within_iff.mp hx
    exact Int.le_trans hlow hhigh
  · intro hle
    have hmin := t.minValue_le_lowest start
    have hmax := t.highest_le_maxValue stop
    refine ⟨BitVec.ofInt t.bits (t.lowest start), t.within_iff.mpr ?_⟩
    rw [t.value_ofInt hmin (Int.le_trans hle hmax)]
    exact ⟨Int.le_refl _, hle⟩

/-- How many values lie in the range, if any do. -/
def size (start stop : Bound t.Val) : Int := t.highest stop - t.lowest start + 1

/-! ## The cast of the length -/

theorem toNat_ofInt {i : Int} (h0 : 0 ≤ i) (hi : i < 2 ^ t.bits) :
    ((BitVec.ofInt t.bits i).toNat : Int) = i := by
  have hcast : ((2 ^ t.bits : Nat) : Int) = 2 ^ t.bits := by push_cast; rfl
  rw [BitVec.toNat_ofInt, hcast, Int.emod_eq_of_lt h0 hi, Int.toNat_of_nonneg h0]

/-- A length of half the type or more is negative in a signed type, and stays so in the
wider word. -/
theorem toNat_toWord {i : Int} (h0 : 0 ≤ i) (hi : i < 2 ^ t.bits) :
    ((t.toWord (BitVec.ofInt t.bits i)).toNat : Int) =
      if t.signed = true ∧ 2 ^ (t.bits - 1) ≤ i then i + 2 ^ t.word.bits - 2 ^ t.bits else i := by
  have hnat := t.toNat_ofInt h0 hi
  have hwide : 2 ^ t.bits ≤ 2 ^ t.word.bits := Nat.pow_le_pow_right (by decide) t.bits_le
  have hset : ((BitVec.ofInt t.bits i).setWidth t.word.bits).toNat =
      (BitVec.ofInt t.bits i).toNat := by
    rw [BitVec.toNat_setWidth, Nat.mod_eq_of_lt (Nat.lt_of_lt_of_le (BitVec.isLt _) hwide)]
  unfold toWord
  cases hsigned : t.signed with
  | false => simpa [hset] using hnat
  | true =>
    have hmsb : (BitVec.ofInt t.bits i).msb = decide (2 ^ (t.bits - 1) ≤ i) := by
      rw [BitVec.msb_eq_decide, decide_eq_decide]
      conv_rhs => rw [← hnat]
      exact_mod_cast Iff.rfl
    rw [if_pos rfl, BitVec.toNat_signExtend, hset, hmsb]
    by_cases hhalf : 2 ^ (t.bits - 1) ≤ i
    · simp only [hhalf, decide_true, if_true, and_self]
      push_cast [hwide]
      omega
    · simpa [hhalf] using hnat

/-- The value at a distance from another one, if it does not wrap around. -/
theorem value_offset {i : Int} {r : BitVec t.word.bits} (hmin : t.minValue ≤ i)
    (hmax : i + r.toNat ≤ t.maxValue) :
    t.value (BitVec.ofInt t.bits i + t.ofWord r) = i + r.toNat := by
  have hr : t.ofWord r = BitVec.ofInt t.bits r.toNat := by
    rw [BitVec.ofInt_natCast, BitVec.ofNat_toNat]
    rfl
  rw [hr, ← BitVec.ofInt_add, t.value_ofInt (by omega) hmax]

end IntType

section Range

variable {t : IntType} {start stop : Bound t.Val} {fuel : Nat} {s s' : State} {x : t.Val}

theorem randInteger_of_empty (h : t.highest stop < t.lowest start) :
    randInteger t start stop fuel s = .panic := by
  unfold randInteger
  rw [t.low_eq, t.high_eq]
  by_cases hmax : t.lowest start ≤ t.maxValue
  · by_cases hmin : t.minValue ≤ t.highest stop
    · rw [if_pos hmax, if_pos hmin]
      dsimp only
      rw [if_pos]
      rw [t.lt_iff, t.value_ofInt hmin (t.highest_le_maxValue stop),
        t.value_ofInt (t.minValue_le_lowest start) hmax]
      exact h
    · rw [if_pos hmax, if_neg hmin]
  · rw [if_neg hmax]

theorem randInteger_eq (h : t.lowest start ≤ t.highest stop) :
    randInteger t start stop fuel s =
      if t.lowest start = t.minValue ∧ t.highest stop = t.maxValue then
        .done (t.ofWord (t.word.gen s).1, (t.word.gen s).2)
      else match t.word.genMod (t.toWord (BitVec.ofInt t.bits (t.size start stop))) fuel s with
        | some (r, s) => .done (BitVec.ofInt t.bits (t.lowest start) + t.ofWord r, s)
        | none => .running := by
  have hmin := t.minValue_le_lowest start
  have hmax := t.highest_le_maxValue stop
  have hlow := t.value_ofInt hmin (Int.le_trans h hmax)
  have hhigh := t.value_ofInt (Int.le_trans hmin h) hmax
  have hfull : (BitVec.ofInt t.bits (t.lowest start) = t.min ∧
      BitVec.ofInt t.bits (t.highest stop) = t.max) ↔
      t.lowest start = t.minValue ∧ t.highest stop = t.maxValue := by
    rw [← hlow, ← hhigh, ← t.value_min, ← t.value_max, t.ofInt_value, t.ofInt_value]
    exact and_congr ⟨congrArg _, fun h => t.value_inj h⟩ ⟨congrArg _, fun h => t.value_inj h⟩
  have hlen : BitVec.ofInt t.bits (t.highest stop) - BitVec.ofInt t.bits (t.lowest start) + 1 =
      BitVec.ofInt t.bits (t.size start stop) := by
    rw [IntType.size, BitVec.ofInt_add, IntType.ofInt_sub]
    rfl
  unfold randInteger
  rw [t.low_eq, t.high_eq, if_pos (Int.le_trans h hmax), if_pos (Int.le_trans hmin h)]
  dsimp only
  rw [if_neg]
  · simp only [hfull, hlen]
  · rw [t.lt_iff, hlow, hhigh]
    exact Int.not_lt.mpr h

theorem randInteger_panic_iff :
    randInteger t start stop fuel s = .panic ↔ ¬∃ x, t.Within start stop x := by
  rw [t.exists_within]
  constructor
  · intro hpanic hle
    rw [randInteger_eq hle] at hpanic
    split at hpanic
    · cases hpanic
    · split at hpanic <;> cases hpanic
  · intro hempty
    exact randInteger_of_empty (Int.not_le.mp hempty)

/-- The cast of the length to a word keeps it. -/
def Kept (t : IntType) (start stop : Bound t.Val) : Prop :=
  t = .i8 ∨ t = .i16 → t.size start stop < 2 ^ (t.bits - 1) ∨ t.size start stop = 2 ^ t.bits

theorem bits_eq_of_signed (h8 : t ≠ .i8) (h16 : t ≠ .i16) (hsigned : t.signed = true) :
    t.word.bits = t.bits := by
  cases t <;> first | rfl | exact absurd rfl h8 | exact absurd rfl h16 | cases hsigned

/-- The length of a range that is neither empty nor full. -/
theorem size_bounds (h : t.lowest start ≤ t.highest stop)
    (hpart : ¬(t.lowest start = t.minValue ∧ t.highest stop = t.maxValue)) :
    0 < t.size start stop ∧ t.size start stop < 2 ^ t.bits := by
  have hmin := t.minValue_le_lowest start
  have hmax := t.highest_le_maxValue stop
  have hall := t.minValue_add
  unfold IntType.size
  omega

theorem toNat_length (hkept : Kept t start stop) (h : t.lowest start ≤ t.highest stop)
    (hpart : ¬(t.lowest start = t.minValue ∧ t.highest stop = t.maxValue)) :
    ((t.toWord (BitVec.ofInt t.bits (t.size start stop))).toNat : Int) = t.size start stop := by
  obtain ⟨hpos, hlt⟩ := size_bounds h hpart
  rw [t.toNat_toWord (Int.le_of_lt hpos) hlt]
  split
  · rename_i hhalf
    by_cases hnarrow : t = .i8 ∨ t = .i16
    · have hcases := hkept hnarrow
      omega
    · obtain ⟨h8, h16⟩ := not_or.mp hnarrow
      rw [bits_eq_of_signed h8 h16 hhalf.1, Int.add_sub_cancel]
  · rfl

theorem within_of_done (hkept : Kept t start stop)
    (h : randInteger t start stop fuel s = .done (x, s')) : t.Within start stop x := by
  by_cases hle : t.lowest start ≤ t.highest stop
  · rw [t.within_iff]
    rw [randInteger_eq hle] at h
    split at h
    · rename_i hfull
      rw [hfull.1, hfull.2]
      exact t.value_bounds x
    · rename_i hpart
      have hlen := toNat_length hkept hle hpart
      obtain ⟨hpos, -⟩ := size_bounds hle hpart
      split at h
      · rename_i r s'' hmod
        cases h
        have hn : t.toWord (BitVec.ofInt t.bits (t.size start stop)) ≠ 0 := by
          intro hzero
          rw [hzero, show (0 : BitVec t.word.bits).toNat = 0 from BitVec.toNat_zero] at hlen
          omega
        have hr := lt_of_genMod hn hmod
        have hmax := t.highest_le_maxValue stop
        have hsize : t.size start stop = t.highest stop - t.lowest start + 1 := rfl
        rw [t.value_offset (t.minValue_le_lowest start) (by omega)]
        omega
      · cases h
  · rw [randInteger_of_empty (Int.not_le.mp hle)] at h
    cases h

/-! ## A length that the cast does not keep -/

theorem exists_gen (hnarrow : t = .i8 ∨ t = .i16) (r : BitVec t.word.bits) :
    ∃ s, (t.word.gen s).1 = r := by
  rcases hnarrow with rfl | rfl
  · exact exists_genU32 r
  · exact exists_genU32 r

theorem bits_lt_of_narrow (hnarrow : t = .i8 ∨ t = .i16) :
    t.signed = true ∧ 2 ^ t.bits < 2 ^ t.word.bits := by
  rcases hnarrow with rfl | rfl
  · decide
  · decide

/-- The value after the highest one, also where it wraps around. -/
theorem not_within_succ (hpart : ¬(t.lowest start = t.minValue ∧ t.highest stop = t.maxValue))
    (hmin : t.minValue ≤ t.highest stop + 1) :
    ¬t.Within start stop (BitVec.ofInt t.bits (t.highest stop + 1)) := by
  rw [t.within_iff]
  rintro ⟨hlow, hhigh⟩
  have hmax := t.highest_le_maxValue stop
  by_cases htop : t.highest stop = t.maxValue
  · have hwrap : BitVec.ofInt t.bits (t.highest stop + 1) = BitVec.ofInt t.bits t.minValue := by
      have hzero : BitVec.ofInt t.bits (2 ^ t.bits) = 0 := by
        rw [show (2 : Int) ^ t.bits = ((2 ^ t.bits : Nat) : Int) by push_cast; rfl,
          BitVec.ofInt_natCast]
        refine BitVec.eq_of_toNat_eq ?_
        rw [BitVec.toNat_ofNat, Nat.mod_self]
        exact BitVec.toNat_zero.symm
      rw [htop, ← t.minValue_add, BitVec.ofInt_add, hzero]
      exact BitVec.add_zero _
    rw [hwrap, t.value_ofInt (Int.le_refl _) t.minValue_le_maxValue] at hlow
    have hge := t.minValue_le_lowest start
    exact hpart ⟨by omega, htop⟩
  · rw [t.value_ofInt hmin (by omega)] at hhigh
    omega

/-- Where the length becomes negative, one generator state gives the value after the
highest one. -/
theorem exists_outside (h : ¬Kept t start stop) :
    ∃ s x s', randInteger t start stop 0 s = .done (x, s') ∧ ¬t.Within start stop x := by
  obtain ⟨hnarrow, hsize⟩ := Classical.not_imp.mp h
  obtain ⟨hhalf, hall⟩ := not_or.mp hsize
  obtain ⟨hsigned, hword⟩ := bits_lt_of_narrow hnarrow
  have hmin := t.minValue_le_lowest start
  have hmax := t.highest_le_maxValue stop
  have hadd := t.minValue_add
  have hpos : (0 : Int) < 2 ^ (t.bits - 1) := Int.pow_pos (by decide)
  have hdef : t.size start stop = t.highest stop - t.lowest start + 1 := rfl
  have hle : t.lowest start ≤ t.highest stop := by omega
  have hpart : ¬(t.lowest start = t.minValue ∧ t.highest stop = t.maxValue) := by omega
  obtain ⟨-, hlt⟩ := size_bounds hle hpart
  have hlen := t.toNat_toWord (by omega : 0 ≤ t.size start stop) hlt
  rw [if_pos ⟨hsigned, Int.not_lt.mp hhalf⟩] at hlen
  generalize hn : t.toWord (BitVec.ofInt t.bits (t.size start stop)) = n at hlen
  have hword' : (2 : Int) ^ t.bits < 2 ^ t.word.bits := by exact_mod_cast hword
  have hk : (t.size start stop).toNat < n.toNat := by omega
  have hn0 : n ≠ 0 := by
    rintro rfl
    rw [show (0 : BitVec t.word.bits).toNat = 0 from BitVec.toNat_zero] at hk
    omega
  obtain ⟨m, hm, hacc, hres⟩ :=
    exists_accepted (Nat.two_pow_pos t.word.bits) hk (Nat.le_of_lt n.isLt)
  obtain ⟨s, hs⟩ := exists_gen hnarrow (BitVec.ofNatLT m hm)
  have huse : Usable n (t.word.gen s).1 := by
    rw [hs]
    exact hacc
  have hmul : (t.word.mulHigh (t.word.gen s).1 n).toNat = (t.size start stop).toNat := by
    rw [t.word.toNat_mulHigh, hs]
    exact hres
  have hmod : t.word.genMod n 0 s =
      some (t.word.mulHigh (t.word.gen s).1 n, (t.word.gen s).2) := by
    rw [t.word.genMod_eq, genMod_eq_draw hn0, draw_eq_of_accept huse]
    rfl
  refine ⟨s, BitVec.ofInt t.bits (t.highest stop + 1), (t.word.gen s).2, ?_, ?_⟩
  · have hofWord : t.ofWord (t.word.mulHigh (t.word.gen s).1 n) =
        BitVec.ofInt t.bits (t.size start stop) := by
      have hcast : ((t.word.mulHigh (t.word.gen s).1 n).toNat : Int) = t.size start stop := by
        omega
      rw [← hcast, BitVec.ofInt_natCast, BitVec.ofNat_toNat]
      rfl
    rw [randInteger_eq hle, if_neg hpart, hn, hmod]
    dsimp only
    rw [hofWord, ← BitVec.ofInt_add]
    congr 3
    omega
  · exact not_within_succ hpart (by omega)

end Range

/-- The methods keep to the range exactly where the cast keeps the length of the range. -/
theorem rand_integer_in_range_iff (t : IntType) (start stop : Bound t.Val) :
    (∀ fuel s, (randInteger t start stop fuel s = .panic ↔ ¬∃ x, t.Within start stop x) ∧
      ∀ x s', randInteger t start stop fuel s = .done (x, s') → t.Within start stop x) ↔
    Kept t start stop := by
  constructor
  · intro h
    by_contra hlost
    obtain ⟨s, x, s', hdone, hout⟩ := exists_outside hlost
    exact hout ((h 0 s).2 x s' hdone)
  · intro hkept fuel s
    exact ⟨randInteger_panic_iff, fun x s' hdone => within_of_done hkept hdone⟩

/-- A length of 255 is `-1` in an `i8`. -/
theorem i8_below_127_returns_127 :
    ∃ s', i8 .unbounded (.excluded 127) 0 (2 ^ 35) = .done (127, s') ∧
      ¬IntType.Within .i8 .unbounded (.excluded 127) 127 := by
  refine ⟨(genU32 (2 ^ 35)).2, by decide, ?_⟩
  rw [IntType.within_iff]
  decide

end Cynthia.Utils.Rander
