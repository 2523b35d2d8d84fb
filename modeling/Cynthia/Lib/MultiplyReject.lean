import Mathlib.Data.Set.Card
import Mathlib.Order.Interval.Finset.Nat

/-! Drawing a number below `n` from the numbers below `M`: a draw `r` gives the quotient
`r * n / M` and is rejected if the remainder of that division is below `M % n`. Each result
then has the same number of draws. -/

namespace MultiplyReject

/-- The draw is not rejected. -/
def Accepted (M n r : Nat) : Prop := M % n ≤ r * n % M

instance (M n r : Nat) : Decidable (Accepted M n r) := inferInstanceAs (Decidable (_ ≤ _))

/-- The first draw that gives `k`. -/
def first (M n k : Nat) : Nat := (M * k + M % n + (n - 1)) / n

variable {M n k r : Nat}

theorem first_le_iff (hn : 0 < n) : first M n k ≤ r ↔ M * k + M % n ≤ r * n := by
  rw [first, Nat.div_le_iff_le_mul_add_pred hn, Nat.mul_comm r n]
  omega

/-- The draws that give `k` are `M / n` numbers in a row. -/
theorem accepted_iff (hM : 0 < M) (hn : 0 < n) :
    Accepted M n r ∧ r * n / M = k ↔ first M n k ≤ r ∧ r < first M n k + M / n := by
  have hdraw : M * (r * n / M) + r * n % M = r * n := Nat.div_add_mod ..
  have hmod : r * n % M < M := Nat.mod_lt _ hM
  have hall : n * (M / n) + M % n = M := Nat.div_add_mod ..
  have hlt : r < first M n k + M / n ↔ r * n < M * k + M := by
    rcases Nat.lt_or_ge r (M / n) with hr | hr
    · have hsmall : r * n < n * (M / n) := by
        rw [Nat.mul_comm]
        exact Nat.mul_lt_mul_of_pos_left hr hn
      exact iff_of_true (by omega) (by omega)
    · obtain ⟨q, rfl⟩ := Nat.exists_eq_add_of_le hr
      have hq : (M / n + q) * n = n * (M / n) + q * n := by
        rw [Nat.add_mul, Nat.mul_comm (M / n) n]
      have hfirst := (first_le_iff (M := M) (k := k) (r := q) hn).not
      rw [hq]
      omega
  rw [first_le_iff hn, hlt, Accepted]
  constructor
  · rintro ⟨hacc, rfl⟩
    omega
  · rintro ⟨hge, hbelow⟩
    have hk : r * n / M = k := by
      refine Nat.div_eq_of_lt_le ?_ ?_
      · rw [Nat.mul_comm k M]
        omega
      · rw [Nat.mul_comm (k + 1) M, Nat.mul_add, Nat.mul_one]
        exact hbelow
    rw [hk] at hdraw
    exact ⟨by omega, hk⟩

/-- A draw that gives a number below `n` is one of the numbers below `M`. -/
theorem lt_of_accepted (hM : 0 < M) (hk : k < n) (h : r * n / M = k) : r < M := by
  have hn : 0 < n := Nat.zero_lt_of_lt hk
  have hlt : r * n < n * M := (Nat.div_lt_iff_lt_mul hM).mp (h.trans_lt hk)
  rw [Nat.mul_comm n M] at hlt
  exact Nat.lt_of_mul_lt_mul_right hlt

theorem result_lt (hM : 0 < M) (hr : r < M) (hn : 0 < n) : r * n / M < n := by
  rw [Nat.div_lt_iff_lt_mul hM, Nat.mul_comm n M]
  exact Nat.mul_lt_mul_of_pos_right hr hn

/-- Every result has exactly `M / n` draws. -/
theorem ncard_accepted (hM : 0 < M) (hk : k < n) :
    {r | r < M ∧ Accepted M n r ∧ r * n / M = k}.ncard = M / n := by
  have hn : 0 < n := Nat.zero_lt_of_lt hk
  have hset : {r | r < M ∧ Accepted M n r ∧ r * n / M = k} =
      ↑(Finset.Ico (first M n k) (first M n k + M / n)) := by
    ext r
    rw [Set.mem_ofPred_eq, Finset.coe_Ico, Set.mem_Ico, ← accepted_iff hM hn]
    exact and_iff_right_of_imp fun h => lt_of_accepted hM hk h.2
  rw [hset, Set.ncard_coe_finset, Nat.card_Ico, Nat.add_sub_cancel_left]

theorem exists_accepted (hM : 0 < M) (hk : k < n) (hnM : n ≤ M) :
    ∃ r, r < M ∧ Accepted M n r ∧ r * n / M = k := by
  have hn : 0 < n := Nat.zero_lt_of_lt hk
  have hpos : 0 < M / n := Nat.div_pos hnM hn
  obtain ⟨hacc, hres⟩ := (accepted_iff (r := first M n k) hM hn).mpr ⟨Nat.le_refl _, by omega⟩
  exact ⟨_, lt_of_accepted hM hk hres, hacc, hres⟩

/-! ## Draws in turn -/

section Draw

variable {σ α : Type*} (gen : σ → α × σ) (accept : α → Prop) [DecidablePred accept]

/-- The first accepted value, if it is among the next `fuel + 1`. -/
def draw : Nat → σ → Option (α × σ)
  | 0, s => if accept (gen s).1 then some (gen s) else none
  | fuel + 1, s => if accept (gen s).1 then some (gen s) else draw fuel (gen s).2

variable {gen accept}

theorem draw_eq_of_accept {s : σ} (h : accept (gen s).1) (fuel : Nat) :
    draw gen accept fuel s = some (gen s) := by
  cases fuel <;> exact if_pos h

end Draw

end MultiplyReject
