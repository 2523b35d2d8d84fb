import Cynthia.Lib.Exchange
import Cynthia.Utils.RandInteger

/-! `Rander::shuffle` of `utils/rander.rs`: the arrangement of the slice is made by the places
that it draws, and each arrangement by as many draws as any other. -/

namespace Cynthia.Utils.Rander

open Exchange

variable {α : Type}

/-- `self.usize(..=i)`. -/
def place (fuel i : Nat) : State → Outcome (IntType.usize.Val × State) :=
  usize .unbounded (.included (BitVec.ofNat _ i)) fuel

/-- The loop over the `is`. `swap` panics if the slice has not both places. -/
def shuffleLoop (fuel : Nat) : List Nat → List α → State → Outcome (List α × State)
  | [], slice, s => .done (slice, s)
  | i :: is, slice, s =>
    match place fuel i s with
    | .panic => .panic
    | .running => .running
    | .done (j, s) =>
      match swap slice i j.toNat with
      | none => .panic
      | some slice => shuffleLoop fuel is slice s

def shuffle (fuel : Nat) (slice : List α) : State → Outcome (List α × State) :=
  shuffleLoop fuel (List.range' 1 (slice.length - 1)) slice

/-! ## The places -/

/-- The places that the loop draws from the `i`th on. -/
def places (fuel : Nat) : Nat → Nat → State → Outcome (List Nat × State)
  | _, 0, s => .done ([], s)
  | i, n + 1, s =>
    match place fuel i s with
    | .panic => .panic
    | .running => .running
    | .done (j, s) =>
      match places fuel (i + 1) n s with
      | .panic => .panic
      | .running => .running
      | .done (js, s) => .done (j.toNat :: js, s)

section Places

variable {fuel i n : Nat} {s s' : State} {j : IntType.usize.Val} {js : List Nat}

theorem within_place (hi : i < 2 ^ 64) :
    IntType.usize.Within .unbounded (.included (BitVec.ofNat _ i)) j ↔ j.toNat ≤ i := by
  have hval : IntType.usize.value (BitVec.ofNat _ i) = i := by
    change ((BitVec.ofNat 64 i).toNat : Int) = i
    rw [BitVec.toNat_ofNat, Nat.mod_eq_of_lt hi]
  have hj : IntType.usize.value j = (j.toNat : Int) := rfl
  simp only [IntType.Within, hval, hj, true_and, Int.ofNat_le]

theorem place_no_panic (hi : i < 2 ^ 64) : place fuel i s ≠ .panic := by
  intro hpanic
  rw [place, usize, randInteger_panic_iff] at hpanic
  exact hpanic ⟨(0#64 : IntType.usize.Val), (within_place hi).mpr (Nat.zero_le i)⟩

theorem place_le (hi : i < 2 ^ 64) (h : place fuel i s = .done (j, s')) : j.toNat ≤ i :=
  (within_place hi).mp (within_of_done (by rintro (h | h) <;> cases h) h)

theorem places_no_panic (hn : i + n ≤ 2 ^ 64) : places fuel i n s ≠ .panic := by
  induction n generalizing i s with
  | zero => nofun
  | succ n ih =>
    rw [places]
    have hplace : place fuel i s ≠ .panic := place_no_panic (by omega)
    split
    · exact fun _ => hplace ‹_›
    · nofun
    · rename_i s₁ _
      have hrest := ih (i := i + 1) (s := s₁) (by omega)
      split
      · exact fun _ => hrest ‹_›
      · nofun
      · nofun

theorem places_done (hn : i + n ≤ 2 ^ 64) (h : places fuel i n s = .done (js, s')) :
    js.length = n ∧ Places i js := by
  induction n generalizing i s js with
  | zero =>
    cases h
    exact ⟨rfl, trivial⟩
  | succ n ih =>
    rw [places] at h
    split at h
    · cases h
    · cases h
    · rename_i j s₁ hj
      split at h
      · cases h
      · cases h
      · rename_i js s₂ hjs
        cases h
        obtain ⟨hlen, hplaces⟩ := ih (by omega) hjs
        exact ⟨congrArg (· + 1) hlen, place_le (by omega) hj, hplaces⟩

/-- The loop draws its places whatever the slice, and makes the exchanges. -/
theorem shuffleLoop_eq {slice : List α} (hn : i + n ≤ 2 ^ 64) (hlen : n ≠ 0 → i + n ≤ slice.length) :
    shuffleLoop fuel (List.range' i n) slice s = match places fuel i n s with
      | .panic => .panic
      | .running => .running
      | .done (js, s) => match swaps i js slice with
        | none => .panic
        | some slice => .done (slice, s) := by
  induction n generalizing i s slice with
  | zero => rfl
  | succ n ih =>
    have hfit := hlen (Nat.succ_ne_zero n)
    rw [List.range'_succ, shuffleLoop, places]
    cases hj : place fuel i s with
    | panic => rfl
    | running => rfl
    | done r =>
      obtain ⟨j, s⟩ := r
      have hle := place_le (by omega) hj
      have hroom : i + [j.toNat].length ≤ slice.length := by
        simp only [List.length_singleton]
        omega
      have hplaces : Places i [j.toNat] := ⟨hle, trivial⟩
      obtain ⟨slice', hswap⟩ := exists_swaps hplaces hroom
      simp only [swaps, Option.bind_fun_some] at hswap
      simp only [hswap]
      rw [ih (by omega) fun _ => by rw [(swap_perm hswap).length_eq]; omega]
      cases places fuel (i + 1) n s with
      | panic => rfl
      | running => rfl
      | done r => simp only [swaps, hswap, Option.bind_some]

end Places

end Cynthia.Utils.Rander
