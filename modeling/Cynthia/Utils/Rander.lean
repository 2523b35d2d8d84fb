import Cynthia.Lib.MultiplyReject
import Cynthia.Lib.Words
import Mathlib.Tactic.Ring

/-! The generator `Rander` of `utils/rander.rs`, and its reduction of a word to a number
below `n`. A loop that draws again has fuel for so many draws. -/

namespace Cynthia.Utils.Rander

open MultiplyReject Words

/-- The word in the `Cell`. -/
abbrev State := BitVec 64

def genU32 (s : State) : BitVec 32 × State :=
  ((((s ^^^ (s >>> 18)) >>> 27).setWidth 32).rotateRight (s >>> 59).toNat,
    s * 6364136223846793005 + 1442695040888963407)

def genU64 (s : State) : BitVec 64 × State :=
  let (hi, s) := genU32 s
  let (lo, s) := genU32 s
  (hi.setWidth 64 <<< 32 ||| lo.setWidth 64, s)

def genU128 (s : State) : BitVec 128 × State :=
  let (hi, s) := genU64 s
  let (lo, s) := genU64 s
  (hi.setWidth 128 <<< 64 ||| lo.setWidth 128, s)

def mulHighU32 (a b : BitVec 32) : BitVec 32 :=
  ((a.setWidth 64 * b.setWidth 64) >>> 32).setWidth 32

def mulHighU64 (a b : BitVec 64) : BitVec 64 :=
  ((a.setWidth 128 * b.setWidth 128) >>> 64).setWidth 64

def mulHighU128 (a b : BitVec 128) : BitVec 128 :=
  let aLo := (a.setWidth 64).setWidth 128
  let aHi := ((a >>> 64).setWidth 64).setWidth 128
  let bLo := (b.setWidth 64).setWidth 128
  let bHi := ((b >>> 64).setWidth 64).setWidth 128
  let carry := (aLo * bLo) >>> 64
  let carry := (((aHi * bLo).setWidth 64).setWidth 128 +
    ((aLo * bHi).setWidth 64).setWidth 128 + carry) >>> 64
  aHi * bHi + ((aHi * bLo) >>> 64) + ((aLo * bHi) >>> 64) + carry

section GenMod

variable {σ : Type} {w : Nat} (gen : σ → BitVec w × σ) (mulHigh : BitVec w → BitVec w → BitVec w)

/-- The `while` loop of `gen_mod`. -/
def genModLoop (n t : BitVec w) : Nat → BitVec w → BitVec w → σ → Option (BitVec w × σ)
  | fuel, hi, lo, s =>
    if lo < t then
      match fuel with
      | 0 => none
      | fuel + 1 =>
        let (r, s) := gen s
        genModLoop n t fuel (mulHigh r n) (r * n) s
    else some (hi, s)

/-- The body of `gen_mod_u32`, `gen_mod_u64` and `gen_mod_u128`. -/
def genMod (n : BitVec w) (fuel : Nat) (s : σ) : Option (BitVec w × σ) :=
  let (r, s) := gen s
  let hi := mulHigh r n
  let lo := r * n
  if lo < n then
    let t := -n % n
    genModLoop gen mulHigh n t fuel hi lo s
  else some (hi, s)

end GenMod

def genModU32 : BitVec 32 → Nat → State → Option (BitVec 32 × State) := genMod genU32 mulHighU32

def genModU64 : BitVec 64 → Nat → State → Option (BitVec 64 × State) := genMod genU64 mulHighU64

def genModU128 : BitVec 128 → Nat → State → Option (BitVec 128 × State) :=
  genMod genU128 mulHighU128

/-! ## The high word of a product -/

/-- The product in words of twice the size. -/
theorem toNat_mulHigh {w : Nat} (a b : BitVec w) :
    (((a.setWidth (w + w) * b.setWidth (w + w)) >>> w).setWidth w).toNat =
      a.toNat * b.toNat / 2 ^ w := by
  have ha := a.isLt
  have hb := b.isLt
  have hwide : 2 ^ w ≤ 2 ^ (w + w) := Nat.pow_le_pow_right (by decide) (Nat.le_add_left w w)
  have hprod : a.toNat * b.toNat < 2 ^ w * 2 ^ w := Nat.mul_lt_mul'' ha hb
  have hquot : a.toNat * b.toNat / 2 ^ w < 2 ^ w := Nat.div_lt_of_lt_mul hprod
  rw [BitVec.toNat_setWidth, BitVec.toNat_ushiftRight, BitVec.toNat_mul, BitVec.toNat_setWidth,
    BitVec.toNat_setWidth, Nat.mod_eq_of_lt (Nat.lt_of_lt_of_le ha hwide),
    Nat.mod_eq_of_lt (Nat.lt_of_lt_of_le hb hwide), Nat.shiftRight_eq_div_pow,
    Nat.mod_eq_of_lt (b := 2 ^ (w + w)), Nat.mod_eq_of_lt hquot]
  rw [Nat.pow_add]
  exact hprod

theorem toNat_mulHighU32 (a b : BitVec 32) :
    (mulHighU32 a b).toNat = a.toNat * b.toNat / 2 ^ 32 := toNat_mulHigh a b

theorem toNat_mulHighU64 (a b : BitVec 64) :
    (mulHighU64 a b).toNat = a.toNat * b.toNat / 2 ^ 64 := toNat_mulHigh a b

/-- The product of numbers of two digits, by the products of their digits. -/
theorem mul_div_square {B : Nat} (hB : 0 < B) (a₁ a₀ b₁ b₀ : Nat) :
    (B * a₁ + a₀) * (B * b₁ + b₀) / (B * B) =
      a₁ * b₁ + a₁ * b₀ / B + a₀ * b₁ / B +
        (a₁ * b₀ % B + a₀ * b₁ % B + a₀ * b₀ / B) / B := by
  generalize hmid : a₁ * b₀ % B + a₀ * b₁ % B + a₀ * b₀ / B = mid
  have h₁ := Nat.div_add_mod (a₁ * b₀) B
  have h₂ := Nat.div_add_mod (a₀ * b₁) B
  have h₃ := Nat.div_add_mod (a₀ * b₀) B
  have h₄ := Nat.div_add_mod mid B
  have hlow : B * (mid % B) + a₀ * b₀ % B < B * B := by
    have hd : mid % B + 1 ≤ B := Nat.mod_lt _ hB
    have hm : a₀ * b₀ % B < B := Nat.mod_lt _ hB
    calc B * (mid % B) + a₀ * b₀ % B < B * (mid % B) + B := Nat.add_lt_add_left hm _
      _ = B * (mid % B + 1) := by rw [Nat.mul_add, Nat.mul_one]
      _ ≤ B * B := Nat.mul_le_mul_left B hd
  have hprod : (B * a₁ + a₀) * (B * b₁ + b₀) = B * (mid % B) + a₀ * b₀ % B +
      (a₁ * b₁ + a₁ * b₀ / B + a₀ * b₁ / B + mid / B) * (B * B) := by
    calc (B * a₁ + a₀) * (B * b₁ + b₀)
        = B * B * (a₁ * b₁) + B * (a₁ * b₀) + B * (a₀ * b₁) + a₀ * b₀ := by ring
      _ = B * B * (a₁ * b₁) + B * (B * (a₁ * b₀ / B)) + B * (B * (a₀ * b₁ / B)) +
          B * mid + a₀ * b₀ % B := by
        rw [← hmid]
        conv_lhs => rw [← h₁, ← h₂, ← h₃]
        ring
      _ = _ := by
        conv_lhs => rw [← h₄]
        ring
  rw [hprod, Nat.add_mul_div_right _ _ (Nat.mul_pos hB hB), Nat.div_eq_of_lt hlow, Nat.zero_add]

section Digits

variable {x y : BitVec 128}

theorem toNat_lo (x : BitVec 128) :
    ((x.setWidth 64).setWidth 128).toNat = x.toNat % 2 ^ 64 := by
  rw [BitVec.toNat_setWidth, BitVec.toNat_setWidth, Nat.mod_eq_of_lt]
  exact Nat.lt_trans (Nat.mod_lt _ (by decide)) (by decide)

theorem toNat_lo_lt (x : BitVec 128) : ((x.setWidth 64).setWidth 128).toNat < 2 ^ 64 := by
  rw [toNat_lo]
  exact Nat.mod_lt _ (by decide)

theorem toNat_shift (x : BitVec 128) : (x >>> 64).toNat = x.toNat / 2 ^ 64 := by
  rw [BitVec.toNat_ushiftRight, Nat.shiftRight_eq_div_pow]

theorem toNat_hi (x : BitVec 128) :
    (((x >>> 64).setWidth 64).setWidth 128).toNat = x.toNat / 2 ^ 64 := by
  rw [toNat_lo, toNat_shift]
  exact Nat.mod_eq_of_lt (Nat.div_lt_of_lt_mul x.isLt)

/-- Products of digits fit. -/
theorem checkedMul_digits (hx : x.toNat < 2 ^ 64) (hy : y.toNat < 2 ^ 64) :
    checkedMul x y = some (x * y) := by
  have hlt : x.toNat * y.toNat < 2 ^ 64 * 2 ^ 64 := Nat.mul_lt_mul'' hx hy
  exact checkedMul_of_lt hlt

theorem toNat_digits (hx : x.toNat < 2 ^ 64) (hy : y.toNat < 2 ^ 64) :
    (x * y).toNat = x.toNat * y.toNat :=
  checkedMul_eq_some.mp (checkedMul_digits hx hy)

end Digits

section Sums

variable {low mid₁ mid₂ high carry : BitVec 128}

/-- The sum of the middle digits and the carry of the low product. -/
theorem checkedAdd_carry :
    ((checkedAdd ((mid₁.setWidth 64).setWidth 128) ((mid₂.setWidth 64).setWidth 128)).bind
      fun u => checkedAdd u (low >>> 64)) =
      some ((mid₁.setWidth 64).setWidth 128 + (mid₂.setWidth 64).setWidth 128 + low >>> 64) := by
  have h₁ := toNat_lo_lt mid₁
  have h₂ := toNat_lo_lt mid₂
  have h₃ := toNat_shift low
  have hlow := low.isLt
  exact checkedAdd_bind (by omega)

theorem toNat_carry :
    ((mid₁.setWidth 64).setWidth 128 + (mid₂.setWidth 64).setWidth 128 + low >>> 64).toNat =
      mid₁.toNat % 2 ^ 64 + mid₂.toNat % 2 ^ 64 + low.toNat / 2 ^ 64 := by
  rw [toNat_of_checkedAdd_bind checkedAdd_carry, toNat_lo, toNat_lo, toNat_shift]

/-- The last sum, if its exact value fits. -/
theorem checkedAdd_high (hfits : high.toNat + mid₁.toNat / 2 ^ 64 + mid₂.toNat / 2 ^ 64 +
    carry.toNat / 2 ^ 64 < 2 ^ 128) :
    (((checkedAdd high (mid₁ >>> 64)).bind fun u => checkedAdd u (mid₂ >>> 64)).bind fun v =>
      checkedAdd v (carry >>> 64)) =
      some (high + mid₁ >>> 64 + mid₂ >>> 64 + carry >>> 64) := by
  rw [← toNat_shift, ← toNat_shift, ← toNat_shift] at hfits
  have hthree := checkedAdd_bind (Nat.lt_of_le_of_lt (Nat.le_add_right _ _) hfits)
  rw [hthree, Option.bind_some, checkedAdd_of_lt]
  rwa [toNat_of_checkedAdd_bind hthree]

end Sums

/-- The exact value of the last sum, which fits. -/
theorem toNat_digits_sum (a b : BitVec 128) :
    let aLo := (a.setWidth 64).setWidth 128
    let aHi := ((a >>> 64).setWidth 64).setWidth 128
    let bLo := (b.setWidth 64).setWidth 128
    let bHi := ((b >>> 64).setWidth 64).setWidth 128
    (aHi * bHi).toNat + (aHi * bLo).toNat / 2 ^ 64 + (aLo * bHi).toNat / 2 ^ 64 +
        (((aHi * bLo).setWidth 64).setWidth 128 + ((aLo * bHi).setWidth 64).setWidth 128 +
          (aLo * bLo) >>> 64).toNat / 2 ^ 64 = a.toNat * b.toNat / 2 ^ 128 := by
  have hsquare := mul_div_square (B := 2 ^ 64) (by decide) (a.toNat / 2 ^ 64) (a.toNat % 2 ^ 64)
    (b.toNat / 2 ^ 64) (b.toNat % 2 ^ 64)
  rw [Nat.div_add_mod, Nat.div_add_mod] at hsquare
  dsimp only
  rw [toNat_carry, toNat_digits (toNat_lo_lt _) (toNat_lo_lt _),
    toNat_digits (toNat_lo_lt _) (toNat_lo_lt _), toNat_digits (toNat_lo_lt _) (toNat_lo_lt _),
    toNat_digits (toNat_lo_lt _) (toNat_lo_lt _), toNat_hi, toNat_hi, toNat_lo, toNat_lo]
  exact hsquare.symm

theorem high_lt (a b : BitVec 128) : a.toNat * b.toNat / 2 ^ 128 < 2 ^ 128 :=
  Nat.div_lt_of_lt_mul (Nat.mul_lt_mul'' a.isLt b.isLt)

theorem toNat_mulHighU128 (a b : BitVec 128) :
    (mulHighU128 a b).toNat = a.toNat * b.toNat / 2 ^ 128 := by
  have hsum := toNat_digits_sum a b
  have hhigh := checkedAdd_high (hsum ▸ high_lt a b)
  obtain ⟨sum, hthree, hlast⟩ := Option.bind_eq_some_iff.mp hhigh
  unfold mulHighU128
  rw [checkedAdd_eq_some.mp hlast, toNat_of_checkedAdd_bind hthree, toNat_shift, toNat_shift,
    toNat_shift]
  exact hsum

/-- `mul_high_u128` with sums and products that report an overflow. -/
def mulHighU128Checked (a b : BitVec 128) : Option (BitVec 128) := do
  let aLo := (a.setWidth 64).setWidth 128
  let aHi := ((a >>> 64).setWidth 64).setWidth 128
  let bLo := (b.setWidth 64).setWidth 128
  let bHi := ((b >>> 64).setWidth 64).setWidth 128
  let carry := (← checkedMul aLo bLo) >>> 64
  let carry := (← checkedAdd (← checkedAdd (((← checkedMul aHi bLo).setWidth 64).setWidth 128)
    (((← checkedMul aLo bHi).setWidth 64).setWidth 128)) carry) >>> 64
  checkedAdd (← checkedAdd (← checkedAdd (← checkedMul aHi bHi) ((← checkedMul aHi bLo) >>> 64))
    ((← checkedMul aLo bHi) >>> 64)) carry

/-- The high half of a product is exact, and nothing overflows on the way to it. -/
theorem mul_high_exact (a b : BitVec 128) :
    (mulHighU128 a b).toNat = a.toNat * b.toNat / 2 ^ 128 ∧
      mulHighU128Checked a b = some (mulHighU128 a b) := by
  refine ⟨toNat_mulHighU128 a b, ?_⟩
  have haLo := toNat_lo_lt a
  have haHi := toNat_lo_lt (a >>> 64)
  have hbLo := toNat_lo_lt b
  have hbHi := toNat_lo_lt (b >>> 64)
  have hhigh := checkedAdd_high (toNat_digits_sum a b ▸ high_lt a b)
  unfold mulHighU128Checked mulHighU128
  simp only [Option.bind_eq_bind, checkedMul_digits haLo hbLo, checkedMul_digits haHi hbLo,
    checkedMul_digits haLo hbHi, checkedMul_digits haHi hbHi, Option.bind_some]
  rw [← Option.bind_assoc, checkedAdd_carry, Option.bind_some, ← Option.bind_assoc]
  exact hhigh

/-! ## `gen_mod` draws until a word is accepted -/

section Uniform

variable {σ : Type} {w : Nat} {gen : σ → BitVec w × σ} {mulHigh : BitVec w → BitVec w → BitVec w}
  {n r t : BitVec w}

/-- The word `r` may be used for the reduction to a number below `n`. -/
def Usable (n r : BitVec w) : Prop := Accepted (2 ^ w) n.toNat r.toNat

instance (n r : BitVec w) : Decidable (Usable n r) := inferInstanceAs (Decidable (_ ≤ _))

theorem toNat_pos (hn : n ≠ 0) : 0 < n.toNat := by
  rw [Nat.pos_iff_ne_zero]
  exact fun h => hn (BitVec.eq_of_toNat_eq (h.trans (BitVec.toNat_zero).symm))

/-- `n.wrapping_neg() % n`. -/
theorem toNat_threshold (hn : n ≠ 0) : (-n % n).toNat = 2 ^ w % n.toNat := by
  have hpos := toNat_pos hn
  have hlt := n.isLt
  rw [BitVec.toNat_umod, BitVec.toNat_neg, Nat.mod_eq_of_lt (show 2 ^ w - n.toNat < 2 ^ w by omega),
    Nat.mod_eq_sub_mod (Nat.le_of_lt hlt)]

theorem usable_iff (ht : t.toNat = 2 ^ w % n.toNat) : Usable n r ↔ ¬r * n < t := by
  rw [Usable, Accepted, BitVec.lt_def, BitVec.toNat_mul, ht, Nat.not_lt]

theorem genModLoop_eq_draw (ht : t.toNat = 2 ^ w % n.toNat) (fuel : Nat) (s : σ) :
    genModLoop gen mulHigh n t fuel (mulHigh (gen s).1 n) ((gen s).1 * n) (gen s).2 =
      (draw gen (Usable n) fuel s).map fun (r, s) => (mulHigh r n, s) := by
  induction fuel generalizing s with
  | zero =>
    unfold genModLoop draw
    split
    · rw [if_neg ((usable_iff ht).not_left.mpr ‹_›)]
      rfl
    · rw [if_pos ((usable_iff ht).mpr ‹_›)]
      rfl
  | succ fuel ih =>
    unfold genModLoop draw
    split
    · rw [if_neg ((usable_iff ht).not_left.mpr ‹_›)]
      exact ih (gen s).2
    · rw [if_pos ((usable_iff ht).mpr ‹_›)]
      rfl

/-- The shortcut `lo >= n` accepts no word that the loop would reject. -/
theorem usable_of_le (hn : n ≠ 0) (hlo : ¬r * n < n) : Usable n r := by
  have ht := toNat_threshold hn
  refine (usable_iff ht).mpr fun hlt => hlo ?_
  rw [BitVec.lt_def] at hlt ⊢
  have hpos := toNat_pos hn
  have hmod := Nat.mod_lt (2 ^ w) hpos
  omega

theorem genMod_eq_draw (hn : n ≠ 0) (fuel : Nat) (s : σ) :
    genMod gen mulHigh n fuel s =
      (draw gen (Usable n) fuel s).map fun (r, s) => (mulHigh r n, s) := by
  unfold genMod
  dsimp only
  split
  · exact genModLoop_eq_draw (toNat_threshold hn) fuel s
  · rw [draw_eq_of_accept (usable_of_le hn ‹_›)]
    rfl

end Uniform

/-! ## The three word sizes -/

inductive Word where
  | u32 | u64 | u128
  deriving DecidableEq, Repr

namespace Word

def bits : Word → Nat
  | .u32 => 32
  | .u64 => 64
  | .u128 => 128

def gen : (w : Word) → State → BitVec w.bits × State
  | .u32 => genU32
  | .u64 => genU64
  | .u128 => genU128

def mulHigh : (w : Word) → BitVec w.bits → BitVec w.bits → BitVec w.bits
  | .u32 => mulHighU32
  | .u64 => mulHighU64
  | .u128 => mulHighU128

def genMod : (w : Word) → BitVec w.bits → Nat → State → Option (BitVec w.bits × State)
  | .u32 => genModU32
  | .u64 => genModU64
  | .u128 => genModU128

theorem genMod_eq (w : Word) : w.genMod = Rander.genMod w.gen w.mulHigh := by
  cases w <;> rfl

theorem toNat_mulHigh (w : Word) (a b : BitVec w.bits) :
    (w.mulHigh a b).toNat = a.toNat * b.toNat / 2 ^ w.bits := by
  cases w with
  | u32 => exact toNat_mulHighU32 a b
  | u64 => exact toNat_mulHighU64 a b
  | u128 => exact toNat_mulHighU128 a b

end Word

theorem mulHigh_lt (w : Word) {n : BitVec w.bits} (hn : n ≠ 0) (r : BitVec w.bits) :
    (w.mulHigh r n).toNat < n.toNat := by
  rw [w.toNat_mulHigh]
  exact result_lt (Nat.two_pow_pos w.bits) r.isLt (toNat_pos hn)

theorem lt_of_genMod {w : Word} {n r : BitVec w.bits} {fuel : Nat} {s s' : State} (hn : n ≠ 0)
    (h : w.genMod n fuel s = some (r, s')) : r.toNat < n.toNat := by
  rw [w.genMod_eq, genMod_eq_draw hn] at h
  obtain ⟨⟨r', s''⟩, -, hr⟩ := Option.map_eq_some_iff.mp h
  cases hr
  exact mulHigh_lt w hn r'

/-- The words that are accepted with the result `k`. -/
theorem ncard_usable (w : Word) {n : BitVec w.bits} {k : Nat} (hk : k < n.toNat) :
    {r | Usable n r ∧ (w.mulHigh r n).toNat = k}.ncard = 2 ^ w.bits / n.toNat := by
  rw [← ncard_accepted (Nat.two_pow_pos w.bits) hk,
    ← Set.ncard_image_of_injective _ (fun _ _ => BitVec.eq_of_toNat_eq)]
  congr 1
  ext r
  simp only [Set.mem_image, Set.mem_ofPred_eq]
  constructor
  · rintro ⟨r, ⟨huse, rfl⟩, rfl⟩
    exact ⟨r.isLt, huse, (w.toNat_mulHigh r n).symm⟩
  · rintro ⟨hlt, hacc, rfl⟩
    refine ⟨BitVec.ofNatLT r hlt, ⟨hacc, ?_⟩, rfl⟩
    rw [w.toNat_mulHigh]
    rfl

/-! ## Any word can be drawn -/

theorem shifted_top (x : BitVec 32) : (x.setWidth 64 <<< 27) >>> 59 = 0#64 := by
  have hx := x.isLt
  apply BitVec.eq_of_toNat_eq
  rw [BitVec.toNat_ushiftRight, BitVec.toNat_shiftLeft, BitVec.toNat_setWidth,
    Nat.shiftRight_eq_div_pow, Nat.shiftLeft_eq, BitVec.toNat_zero]
  omega

/-- Any word can be drawn first. -/
theorem exists_genU32 (r : BitVec 32) : ∃ s, (genU32 s).1 = r := by
  refine ⟨(r ^^^ (r >>> 18)).setWidth 64 <<< 27, ?_⟩
  unfold genU32
  dsimp only
  rw [shifted_top, BitVec.toNat_zero]
  have hrotate : ∀ x : BitVec 32, x.rotateRight 0 = x := fun x => by
    rw [BitVec.rotateRight_def, Nat.zero_mod, BitVec.ushiftRight_zero, Nat.sub_zero,
      BitVec.shiftLeft_eq_zero (Nat.le_refl _), BitVec.or_zero]
  rw [hrotate]
  apply BitVec.eq_of_getLsbD_eq
  intro i hi
  have hshift : ∀ j, ((r ^^^ (r >>> 18)).setWidth 64 <<< 27).getLsbD (27 + j) =
      (r.getLsbD j ^^ r.getLsbD (18 + j)) := by
    intro j
    rw [BitVec.getLsbD_shiftLeft, BitVec.getLsbD_setWidth, Nat.add_sub_cancel_left,
      BitVec.getLsbD_xor, BitVec.getLsbD_ushiftRight]
    rcases Nat.lt_or_ge j 32 with hj | hj
    · simp [show 27 + j < 64 by omega, show j < 64 by omega]
    · simp [BitVec.getLsbD_of_ge r j hj, BitVec.getLsbD_of_ge r (18 + j) (by omega)]
  rw [BitVec.getLsbD_setWidth, BitVec.getLsbD_ushiftRight, BitVec.getLsbD_xor, hshift,
    BitVec.getLsbD_ushiftRight, show 18 + (27 + i) = 27 + (18 + i) by omega, hshift,
    BitVec.getLsbD_of_ge r (18 + (18 + i)) (by omega)]
  simp [hi]

/-- The reduction is exactly uniform: the code takes the first drawn word that is usable,
whatever is drawn, and each result has the same number of usable words. -/
theorem gen_mod_uniform (w : Word) (n : BitVec w.bits) (hn : n ≠ 0) :
    w.genMod = genMod w.gen w.mulHigh ∧
    (∀ (σ : Type) (gen : σ → BitVec w.bits × σ) (fuel : Nat) (s : σ),
      genMod gen w.mulHigh n fuel s =
        (draw gen (Usable n) fuel s).map fun (r, s) => (w.mulHigh r n, s)) ∧
    (∀ r, Usable n r ↔ 2 ^ w.bits % n.toNat ≤ r.toNat * n.toNat % 2 ^ w.bits) ∧
    (∀ fuel s r s', w.genMod n fuel s = some (r, s') → r.toNat < n.toNat) ∧
    ∀ k < n.toNat, {r | Usable n r ∧ (w.mulHigh r n).toNat = k}.ncard =
      2 ^ w.bits / n.toNat := by
  refine ⟨w.genMod_eq, fun σ gen fuel s => genMod_eq_draw hn fuel s, fun r => Iff.rfl,
    fun fuel s r s' h => lt_of_genMod hn h, fun k hk => ncard_usable w hk⟩

theorem gen_mod_uniform_six :
    {r : BitVec 32 | Usable 6 r ∧ (mulHighU32 r 6).toNat = 5}.ncard = 715827882 :=
  (gen_mod_uniform .u32 6 (by decide)).2.2.2.2 5 (by decide)

end Cynthia.Utils.Rander
