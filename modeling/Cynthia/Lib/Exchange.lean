import Mathlib.Data.List.Perm.Basic
import Mathlib.Data.List.Induction
import Mathlib.Data.List.Nodup

/-! Lists whose elements change places: the exchange of two of them, the removal of one whose
place the last one takes, and exchanges of one place after the other with a place that is
not behind it. -/

namespace Exchange

variable {α : Type*} {l m r : List α} {x : α} {i j n : Nat} {js : List Nat}

/-- The list has both places. -/
def swap (l : List α) (i j : Nat) : Option (List α) :=
  match l[i]?, l[j]? with
  | some x, some y => some ((l.set i y).set j x)
  | _, _ => none

/-- The last element takes the place of the one that goes. -/
def swapRemove (l : List α) (i : Nat) : List α :=
  match l.getLast? with
  | some last => (l.set i last).dropLast
  | none => []

/-- The places from `i` on are exchanged, one after the other, with those of the list. -/
def swaps : Nat → List Nat → List α → Option (List α)
  | _, [], l => some l
  | i, j :: js, l => (swap l i j).bind (swaps (i + 1) js)

/-- No place is exchanged with one behind it. -/
def Places (i : Nat) : List Nat → Prop
  | [] => True
  | j :: js => j ≤ i ∧ Places (i + 1) js

/-! ## Removal -/

theorem swapRemove_concat (init : List α) (last : α) (h : i < init.length) :
    swapRemove (init ++ [last]) i = init.set i last := by
  simp only [swapRemove, List.getLast?_concat, List.set_append_left _ _ h, List.dropLast_concat]

theorem swapRemove_last (init : List α) (last : α) :
    swapRemove (init ++ [last]) init.length = init := by
  simp [swapRemove]

theorem take_swapRemove (h : i < l.length) : (swapRemove l i).take i = l.take i := by
  obtain rfl | ⟨init, last, rfl⟩ := List.eq_nil_or_concat' l
  · cases h
  · rw [List.length_append, List.length_singleton] at h
    rcases Nat.lt_succ_iff_lt_or_eq.mp h with hlt | rfl
    · rw [swapRemove_concat _ _ hlt, List.take_set_of_le (Nat.le_refl i),
        List.take_append_of_le_length (Nat.le_of_lt hlt)]
    · rw [swapRemove_last, List.take_append_of_le_length (Nat.le_refl _)]

theorem swapRemove_perm (h : i < l.length) : (l[i] :: swapRemove l i).Perm l := by
  obtain rfl | ⟨init, last, rfl⟩ := List.eq_nil_or_concat' l
  · cases h
  · have hlen := h
    rw [List.length_append, List.length_singleton] at hlen
    rcases Nat.lt_succ_iff_lt_or_eq.mp hlen with hlt | rfl
    · rw [swapRemove_concat _ _ hlt, List.getElem_append_left hlt]
      have hset := (List.set_perm_cons_eraseIdx hlt last).cons init[i]
      have hinit := (List.getElem_cons_eraseIdx_perm hlt).cons last
      exact (hset.trans (.swap _ _ _)).trans (hinit.trans (List.perm_append_singleton _ _).symm)
    · rw [swapRemove_last]
      simpa using (List.perm_append_singleton last init).symm

theorem drop_swapRemove_perm (h : i < l.length) :
    ((swapRemove l i).drop i).Perm (l.drop (i + 1)) := by
  have hperm := swapRemove_perm h
  rw [← List.take_append_drop i (swapRemove l i), take_swapRemove h] at hperm
  have hl : l = l.take i ++ l[i] :: l.drop (i + 1) := by
    rw [← List.drop_eq_getElem_cons h, List.take_append_drop]
  have hsplit := (List.perm_middle.trans hperm).trans (List.Perm.of_eq hl)
  exact (List.perm_cons _).mp ((List.perm_append_left_iff _).mp hsplit)

/-- The elements behind the index, but for the one that goes, stay behind it. -/
theorem mem_drop_swapRemove (h : i < l.length) (hx : x ∈ l.drop i) (hne : x ≠ l[i]) :
    x ∈ (swapRemove l i).drop i := by
  rw [(drop_swapRemove_perm h).mem_iff]
  rw [List.drop_eq_getElem_cons h] at hx
  exact (List.mem_cons.mp hx).resolve_left hne

/-! ## Exchange -/

theorem swap_perm (h : swap l i j = some m) : m.Perm l := by
  unfold swap at h
  split at h
  · rename_i x y hi hj
    cases h
    obtain ⟨hi', rfl⟩ := List.getElem?_eq_some_iff.mp hi
    obtain ⟨hj', rfl⟩ := List.getElem?_eq_some_iff.mp hj
    exact List.set_set_perm hi' hj'
  · cases h

theorem swap_append (hi : i < l.length) (hj : j < l.length) :
    swap (l ++ r) i j = (swap l i j).map (· ++ r) := by
  simp [swap, hi, hj, List.getElem?_append_left]

theorem swap_last_lt (hj : j < l.length) :
    swap (l ++ [x]) l.length j = some (l.set j x ++ [l[j]]) := by
  have hlast : (l ++ [x])[l.length]? = some x := by simp
  have hat : (l ++ [x])[j]? = some l[j] := by
    rw [List.getElem?_append_left hj, List.getElem?_eq_getElem hj]
  simp only [swap, hlast, hat]
  rw [List.set_append_right _ _ (Nat.le_refl _), Nat.sub_self, List.set_cons_zero,
    List.set_append_left _ _ hj]

theorem swap_last_self : swap (l ++ [x]) l.length l.length = some (l ++ [x]) := by
  simp [swap]

/-- The last element goes to the place `j`, and the one that was there comes last. -/
theorem last_of_swap (hj : j ≤ l.length) (h : swap (l ++ [x]) l.length j = some m) :
    m[j]? = some x ∧ swapRemove m j = l := by
  rcases Nat.lt_or_eq_of_le hj with hlt | rfl
  · rw [swap_last_lt hlt] at h
    cases h
    rw [swapRemove_concat _ _ (by simpa using hlt), List.set_set, List.set_getElem_self,
      List.getElem?_append_left (by simpa using hlt), List.getElem?_set_self hlt]
    exact ⟨rfl, rfl⟩
  · rw [swap_last_self] at h
    cases h
    exact ⟨by simp, swapRemove_last l x⟩

theorem swap_swapRemove (hj : j < m.length) :
    swap (swapRemove m j ++ [m[j]]) (swapRemove m j).length j = some m := by
  obtain rfl | ⟨init, last, rfl⟩ := List.eq_nil_or_concat' m
  · cases hj
  · have hlen := hj
    rw [List.length_append, List.length_singleton] at hlen
    rcases Nat.lt_succ_iff_lt_or_eq.mp hlen with hlt | rfl
    · rw [swapRemove_concat _ _ hlt, swap_last_lt (by simpa using hlt), List.set_set]
      simp [List.getElem_append_left hlt]
    · rw [swapRemove_last]
      simp [swap_last_self]

/-! ## Exchanges in a row -/

theorem places_concat : Places i (js ++ [j]) ↔ Places i js ∧ j ≤ i + js.length := by
  induction js generalizing i with
  | nil => simp [Places]
  | cons k js ih =>
    simp only [List.cons_append, Places, ih, List.length_cons, and_assoc, Nat.add_assoc,
      Nat.add_comm 1]

theorem swaps_concat : swaps i (js ++ [j]) l = (swaps i js l).bind (swap · (i + js.length) j) := by
  induction js generalizing i l with
  | nil => simp [swaps]
  | cons k js ih =>
    rw [List.cons_append, swaps, swaps, List.length_cons, Option.bind_assoc]
    cases swap l i k with
    | none => rfl
    | some l =>
      rw [Option.bind_some, Option.bind_some, ih, Nat.add_assoc, Nat.add_comm 1]

theorem swaps_perm (h : swaps i js l = some m) : m.Perm l := by
  induction js generalizing i l with
  | nil =>
    cases h
    exact .refl _
  | cons j js ih =>
    obtain ⟨k, hk, hm⟩ := Option.bind_eq_some_iff.mp h
    exact (ih hm).trans (swap_perm hk)

theorem swaps_append (hjs : Places i js) (hlen : i + js.length ≤ l.length) :
    swaps i js (l ++ r) = (swaps i js l).map (· ++ r) := by
  induction js generalizing i l with
  | nil => rfl
  | cons j js ih =>
    rw [List.length_cons] at hlen
    rw [swaps, swaps, swap_append (by omega) (by have := hjs.1; omega)]
    cases hswap : swap l i j with
    | none => rfl
    | some k => exact ih hjs.2 (by rw [(swap_perm hswap).length_eq]; omega)

theorem exists_swaps (hjs : Places i js) (hlen : i + js.length ≤ l.length) :
    ∃ m, swaps i js l = some m := by
  induction js generalizing i l with
  | nil => exact ⟨l, rfl⟩
  | cons j js ih =>
    rw [List.length_cons] at hlen
    have hi : i < l.length := by omega
    have hj : j < l.length := Nat.lt_of_le_of_lt hjs.1 hi
    have hswap : swap l i j = some ((l.set i l[j]).set j l[i]) := by
      simp only [swap, List.getElem?_eq_getElem hi, List.getElem?_eq_getElem hj]
    rw [swaps, hswap]
    refine ih hjs.2 ?_
    rw [List.length_set, List.length_set]
    omega

/-- Each arrangement of different elements comes from one sequence of places. -/
theorem exists_unique_places (hl : l.Nodup) (hm : m.Perm l) :
    ∃! js, js.length = l.length - 1 ∧ Places 1 js ∧ swaps 1 js l = some m := by
  induction l using List.reverseRecOn generalizing m with
  | nil =>
    rw [List.perm_nil.mp hm]
    exact ⟨[], ⟨rfl, trivial, rfl⟩, fun js h => List.length_eq_zero_iff.mp h.1⟩
  | append_singleton init x ih =>
    rcases List.eq_nil_or_concat' init with rfl | hinit
    · rw [List.perm_singleton.mp hm]
      exact ⟨[], ⟨rfl, trivial, rfl⟩, fun js h => List.length_eq_zero_iff.mp h.1⟩
    · have hpos : 0 < init.length := by
        obtain ⟨init, last, rfl⟩ := hinit
        simp
      have hnodup := (List.nodup_append.mp hl).1
      obtain ⟨j, hj, hx⟩ := List.getElem_of_mem (hm.mem_iff.mpr (List.mem_concat_self ..))
      have hlen : m.length = init.length + 1 := by simpa using hm.length_eq
      have hrem : (swapRemove m j).Perm init := by
        have hcons := (swapRemove_perm hj).trans (hm.trans (List.perm_append_singleton x init))
        rw [hx] at hcons
        exact (List.perm_cons x).mp hcons
      obtain ⟨js, ⟨hcount, hplaces, hswaps⟩, huniq⟩ := ih hnodup hrem
      have hend : 1 + js.length = init.length := by omega
      -- The last exchange takes the last element to where it is in the arrangement.
      refine ⟨js ++ [j], ⟨by simp; omega, places_concat.mpr ⟨hplaces, by omega⟩, ?_⟩, ?_⟩
      · have hlast := swap_swapRemove hj
        rw [hx, hrem.length_eq] at hlast
        rw [swaps_concat, swaps_append hplaces (Nat.le_of_eq hend), hswaps, hend]
        exact hlast
      · rintro js' ⟨hcount', hplaces', hswaps'⟩
        obtain rfl | ⟨js', j', rfl⟩ := List.eq_nil_or_concat' js'
        · rw [List.length_append, List.length_singleton] at hcount'
          exact absurd hcount' (by simp; omega)
        · obtain ⟨hplaces', hj'⟩ := places_concat.mp hplaces'
          have hend' : 1 + js'.length = init.length := by
            simp at hcount'
            omega
          rw [swaps_concat, swaps_append hplaces' (Nat.le_of_eq hend'), hend'] at hswaps'
          obtain ⟨k, hk, hswap⟩ := Option.bind_eq_some_iff.mp hswaps'
          obtain ⟨init', hinit', rfl⟩ := Option.map_eq_some_iff.mp hk
          have hsame := (swaps_perm hinit').length_eq
          rw [← hsame] at hswap
          obtain ⟨hat, hback⟩ := last_of_swap (by omega) hswap
          have hjj : j' = j := by
            obtain ⟨hlt, hat⟩ := List.getElem?_eq_some_iff.mp hat
            exact (List.Nodup.getElem_inj_iff (hm.nodup_iff.mpr hl)).mp (hat.trans hx.symm)
          subst hjj
          rw [← huniq js' ⟨by omega, hplaces', by rw [hinit', hback]⟩]

end Exchange
