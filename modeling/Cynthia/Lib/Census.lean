import Mathlib.Algebra.GroupWithZero.Nat
import Mathlib.Data.List.Basic
import Mathlib.Logic.Function.Basic

/-! Counting the parties of a protocol. The parties are numbered, `n` of them
have been started, and `calls` says where each one stands; a step moves one
party, so it changes a count by the difference of two indicators. -/

namespace Cynthia.Census

variable {π ρ : Type*} (p : π → Bool) {n f : Nat} {calls : Nat → π} {c : π}

/-- The number of started parties that stand at a place where `p` holds. -/
def count (n : Nat) (calls : Nat → π) : Nat := (List.range n).countP fun f => p (calls f)

@[simp] theorem count_zero (calls : Nat → π) : count p 0 calls = 0 := rfl

theorem count_succ (n : Nat) (calls : Nat → π) :
    count p (n + 1) calls = count p n calls + (p (calls n)).toNat := by
  cases h : p (calls n) <;> simp [count, List.range_succ, h]

theorem count_congr {calls' : Nat → π} (h : ∀ f < n, p (calls' f) = p (calls f)) :
    count p n calls' = count p n calls := by
  induction n with
  | zero => rfl
  | succ n ih => rw [count_succ, count_succ, ih fun f hf => h f (by omega), h n (by omega)]

/-- A party that has not been started is not counted. -/
theorem count_update_of_le (hf : n ≤ f) :
    count p n (Function.update calls f c) = count p n calls := by
  apply count_congr
  intro g hg
  rw [Function.update_of_ne (by omega)]

/-- One party moves. -/
theorem count_update (hf : f < n) :
    count p n (Function.update calls f c) + (p (calls f)).toNat =
      count p n calls + (p c).toNat := by
  induction n with
  | zero => omega
  | succ n ih =>
    rw [count_succ, count_succ]
    rcases Nat.lt_or_ge f n with hlt | hge
    · have := ih hlt
      rw [Function.update_of_ne (by omega)]
      omega
    · obtain rfl : f = n := by omega
      rw [count_update_of_le p (Nat.le_refl f), Function.update_self]
      omega

theorem count_update_same (hf : f < n) (hc : p c = p (calls f)) :
    count p n (Function.update calls f c) = count p n calls := by
  have := @count_update π p n f calls c hf
  rw [hc] at this
  omega

/-- The next party starts. -/
theorem count_start (c : π) :
    count p (n + 1) (Function.update calls n c) = count p n calls + (p c).toNat := by
  rw [count_succ, count_update_of_le p (Nat.le_refl n), Function.update_self]

variable {p}

theorem count_pos (hf : f < n) (h : p (calls f) = true) : 0 < count p n calls :=
  List.countP_pos_iff.mpr ⟨f, List.mem_range.mpr hf, h⟩

theorem exists_of_count_pos (h : 0 < count p n calls) : ∃ f < n, p (calls f) = true := by
  obtain ⟨f, hf, hp⟩ := List.countP_pos_iff.mp h
  exact ⟨f, List.mem_range.mp hf, hp⟩

theorem count_eq_zero (h : ∀ f < n, p (calls f) = false) : count p n calls = 0 := by
  by_contra hne
  obtain ⟨f, hf, hp⟩ := exists_of_count_pos (Nat.pos_of_ne_zero hne)
  rw [h f hf] at hp
  cases hp

/-- Where at most one party is counted, two that count are the same. -/
theorem eq_of_count_le_one {g : Nat} (h : count p n calls ≤ 1) (hf : f < n) (hg : g < n)
    (hpf : p (calls f) = true) (hpg : p (calls g) = true) : f = g := by
  by_contra hne
  induction n with
  | zero => omega
  | succ n ih =>
    rw [count_succ] at h
    rcases Nat.lt_or_ge f n with hf' | hf'
    · have hpos := count_pos (p := p) hf' hpf
      rcases Nat.lt_or_ge g n with hg' | hg'
      · exact ih (by omega) hf' hg'
      · obtain rfl : g = n := by omega
        rw [hpg, Bool.toNat_true] at h
        omega
    · obtain rfl : f = n := by omega
      have hpos := count_pos (p := p) (f := g) (n := f) (by omega) hpg
      rw [hpf, Bool.toNat_true] at h
      omega

theorem count_le_count {q : π → Bool} (h : ∀ c, p c = true → q c = true) (n : Nat)
    (calls : Nat → π) : count p n calls ≤ count q n calls := by
  apply List.countP_mono_left
  intro f _ hp
  exact h _ hp

section Total

variable (w : π → Nat) (calls : Nat → π) (c : π)

/-- What the started parties have together. -/
def total (n : Nat) (calls : Nat → π) : Nat := ((List.range n).map fun f => w (calls f)).sum

theorem total_succ (n : Nat) :
    total w (n + 1) calls = total w n calls + w (calls n) := by
  simp [total, List.range_succ]

theorem total_update_of_le (hf : n ≤ f) :
    total w n (Function.update calls f c) = total w n calls := by
  induction n with
  | zero => rfl
  | succ n ih => rw [total_succ, total_succ, ih (by omega), Function.update_of_ne (by omega)]

theorem total_update (hf : f < n) :
    total w n (Function.update calls f c) + w (calls f) = total w n calls + w c := by
  induction n with
  | zero => omega
  | succ n ih =>
    rw [total_succ, total_succ]
    rcases Nat.lt_or_ge f n with hlt | hge
    · have := ih hlt
      rw [Function.update_of_ne (by omega)]
      omega
    · obtain rfl : f = n := by omega
      rw [total_update_of_le w calls c (Nat.le_refl f), Function.update_self]
      omega

theorem total_start :
    total w (n + 1) (Function.update calls n c) = total w n calls + w c := by
  rw [total_succ, total_update_of_le w calls c (Nat.le_refl n), Function.update_self]

theorem total_eq_zero (h : ∀ f < n, w (calls f) = 0) : total w n calls = 0 := by
  induction n with
  | zero => rfl
  | succ n ih => rw [total_succ, ih fun f hf => h f (by omega), h n (by omega)]

theorem le_total (hf : f < n) : w (calls f) ≤ total w n calls := by
  induction n with
  | zero => omega
  | succ n ih =>
    rw [total_succ]
    rcases Nat.lt_or_ge f n with hlt | hge
    · exact Nat.le_trans (ih hlt) (Nat.le_add_right _ _)
    · obtain rfl : f = n := by omega
      exact Nat.le_add_left _ _

end Total

/-- The parties that have not been started stand at `idle`. -/
def Fresh (idle : π) (n : Nat) (calls : Nat → π) : Prop := ∀ f, n ≤ f → calls f = idle

section Fresh

variable {idle : π}

theorem Fresh.lt (h : Fresh idle n calls) (hne : calls f ≠ idle) : f < n := by
  by_contra hlt
  exact hne (h f (by omega))

theorem Fresh.update (h : Fresh idle n calls) (hf : f < n) :
    Fresh idle n (Function.update calls f c) := by
  intro g hg
  rw [Function.update_of_ne (by omega)]
  exact h g hg

theorem Fresh.start (h : Fresh idle n calls) : Fresh idle (n + 1) (Function.update calls n c) := by
  intro g hg
  rw [Function.update_of_ne (by omega)]
  exact h g (by omega)

/-- What holds of the started parties and of `idle` holds of all. -/
theorem Fresh.forall (h : Fresh idle n calls) {P : Nat → π → Prop} (hidle : ∀ f, P f idle)
    (hlt : ∀ f < n, P f (calls f)) (f : Nat) : P f (calls f) := by
  rcases Nat.lt_or_ge f n with hf | hf
  · exact hlt f hf
  · rw [h f hf]
    exact hidle f

end Fresh

theorem count_comp (q : ρ → Bool) (g : π → ρ) (n : Nat) (calls : Nat → π) :
    count q n (g ∘ calls) = count (fun c => q (g c)) n calls := rfl

end Cynthia.Census
