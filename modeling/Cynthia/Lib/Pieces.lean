import Mathlib.Data.List.Basic

/-! The pieces of a list between the occurrences of a delimiter. What stands behind the
last one is a piece unless it is empty. -/

namespace Pieces

variable {α : Type*} [DecidableEq α] {d : α} {f : List α → List α} {l r : List α}

/-- The pieces in order. Those that the delimiter ends go through `f`. -/
def pieces (d : α) (f : List α → List α) (xs : List α) : List (List α) :=
  (xs.splitOn d).dropLast.map f ++ (xs.splitOn d).getLast?.toList.filter (· ≠ [])

theorem pieces_of_not_mem (h : d ∉ l) (hne : l ≠ []) : pieces d f l = [l] := by
  rw [pieces, List.splitOn_eq_singleton h]
  simp [hne]

theorem pieces_append_cons (h : d ∉ l) : pieces d f (l ++ d :: r) = f l :: pieces d f r := by
  rw [pieces, pieces, List.splitOn_append_cons_self_of_not_mem h,
    List.dropLast_cons_of_ne_nil (List.splitOn_ne_nil d r), List.map_cons, List.cons_append,
    List.getLast?_cons_of_ne_nil (List.splitOn_ne_nil d r)]

/-- Piece after piece. -/
theorem cut_induction {motive : List α → Prop} (d : α) (nil : motive [])
    (last : ∀ l, d ∉ l → l ≠ [] → motive l)
    (cut : ∀ l r, d ∉ l → motive r → motive (l ++ d :: r)) (xs : List α) : motive xs := by
  induction hn : xs.length using Nat.strongRecOn generalizing xs with
  | ind n ih =>
  subst hn
  by_cases hmem : d ∈ xs
  · obtain ⟨l, r, rfl, hl⟩ := List.eq_append_cons_of_mem hmem
    refine cut l r hl (ih r.length ?_ r rfl)
    rw [List.length_append, List.length_cons]
    omega
  · by_cases hxs : xs = []
    · rw [hxs]
      exact nil
    · exact last xs hmem hxs

end Pieces
