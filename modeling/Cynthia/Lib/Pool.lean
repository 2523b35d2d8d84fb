import Mathlib.Algebra.BigOperators.Group.Multiset.Basic
import Mathlib.Tactic.Push

/-! A pool of calls in progress, each at some program point. Weights summed over
the pool count the calls that hold a resource or stand at a kind of program
point; a step that moves one call changes every such sum by the difference of
two weights. -/

namespace Cynthia.Pool

variable {π : Type*}

/-- Sum of a weight over the calls in progress. -/
def total (f : π → Nat) (calls : Multiset π) : Nat := (calls.map f).sum

@[simp] theorem total_zero (f : π → Nat) : total f 0 = 0 := rfl

@[simp] theorem total_cons (f : π → Nat) (pc : π) (calls : Multiset π) :
    total f (pc ::ₘ calls) = f pc + total f calls := by
  simp [total]

theorem le_total {f : π → Nat} {pc : π} {calls : Multiset π} (h : pc ∈ calls) :
    f pc ≤ total f calls := by
  obtain ⟨rest, rfl⟩ := Multiset.exists_cons_of_mem h
  simp

theorem total_eq_zero {f : π → Nat} {calls : Multiset π} (h : ∀ pc ∈ calls, f pc = 0) :
    total f calls = 0 := by
  rw [total, Multiset.map_congr rfl h]
  simp

/-- A weight dominated by another one, call by call. -/
theorem total_le_total {f g : π → Nat} (h : ∀ pc, f pc ≤ g pc) (calls : Multiset π) :
    total f calls ≤ total g calls := by
  induction calls using Multiset.induction_on with
  | empty => exact le_refl _
  | cons pc calls ih =>
    simp only [total_cons]
    exact Nat.add_le_add (h pc) ih

end Cynthia.Pool
