import Mathlib.Data.Nat.ModEq

/-! Arithmetic of circular counters: two unbounded counters that never drift a
whole turn apart are determined by their residues. -/

namespace Cynthia.Ring

/-- The number of increments that lead from the residue `a` to the residue `b`. -/
def dist (m a b : Nat) : Nat := if a ≤ b then b - a else m - (a - b)

theorem add_mod_eq_ite {m k : Nat} (a : Nat) (hm : 0 < m) (hk : k ≤ m) :
    (a + k) % m = if a % m + k < m then a % m + k else a % m + k - m := by
  have ha := Nat.mod_lt a hm
  rw [← Nat.mod_add_mod]
  split
  · rename_i h
    exact Nat.mod_eq_of_lt h
  · rename_i h
    rw [Nat.mod_eq_sub_mod (by omega)]
    exact Nat.mod_eq_of_lt (by omega)

theorem dist_mod {m a b : Nat} (hab : a ≤ b) (hlt : b < a + m) :
    dist m (a % m) (b % m) = b - a := by
  obtain ⟨k, rfl⟩ := Nat.exists_eq_add_of_le hab
  have hm : 0 < m := by omega
  have ha := Nat.mod_lt a hm
  rw [add_mod_eq_ite a hm (by omega), dist]
  split <;> split <;> omega

theorem mod_inj {m a b : Nat} (hab : a ≤ b) (hlt : b < a + m) (h : a % m = b % m) : a = b := by
  have hd := dist_mod hab hlt
  rw [h] at hd
  simp [dist] at hd
  omega

/-- Counters in one window of length `m` have distinct residues. -/
theorem mod_ne {m lo a b : Nat} (ha : lo ≤ a) (hab : a < b) (hb : b < lo + m) :
    a % m ≠ b % m := by
  intro h
  have := mod_inj (le_of_lt hab) (by omega) h
  omega

theorem mod_mod_two_mul (c a : Nat) : a % (2 * c) % c = a % c :=
  Nat.mod_mod_of_dvd a ⟨2, Nat.mul_comm 2 c⟩

/-- A run of `k` slots that does not cross the end of the array. -/
theorem add_mod_of_fit {c a j : Nat} (hc : 0 < c) (h : a % c + j < c) :
    (a + j) % c = a % c + j := by
  rw [add_mod_eq_ite a hc (by omega)]
  simp [h]

end Cynthia.Ring
