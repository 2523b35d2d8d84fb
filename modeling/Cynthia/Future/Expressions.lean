import Cynthia.Future.Adapters
import Mathlib.Order.Filter.AtTopBot.Basic
import Mathlib.Order.Filter.Finite

/-! Expressions of adapters, and the lists they stand for. -/

namespace Cynthia.Streams

open Polling

/-- The stream is an expression, just built, and the list functions give the list. An
expression whose items are streams, or whose closure makes streams or futures, comes with
what each of those stands for. -/
inductive Denotes : {S α : Type} → [Stream S α] → S → List α → Prop
  | source {α : Type} (script : List (Option α)) : Denotes (source script) (script.filterMap id)
  | map {S F α β : Type} [Stream S α] [FnMut F α β] {s : S} {xs : List α} (f : F) :
    Denotes s xs → Denotes (map s f) (mapped f xs)
  | inspect {S F α : Type} [Stream S α] [FnMut F α Unit] {s : S} {xs : List α} (f : F) :
    Denotes s xs → Denotes (inspect s f) xs
  | enumerate {S α : Type} [Stream S α] {s : S} {xs : List α} :
    Denotes s xs → Denotes (enumerate s) (enumerated xs)
  | scan {S St F α β : Type} [Stream S α] [FnMut F (St × α) (Option β × St)] {s : S}
    {xs : List α} (state : St) (f : F) :
    Denotes s xs → Denotes (scan s state f) (scanned state f xs)
  | take {S α : Type} [Stream S α] {s : S} {xs : List α} (n : Nat) :
    Denotes s xs → Denotes (take s n) (xs.take n)
  | takeWhile {S P α : Type} [Stream S α] [FnMut P α Bool] {s : S} {xs : List α} (p : P) :
    Denotes s xs → Denotes (takeWhile s p) (takenWhile p xs)
  | fuse {S α : Type} [Stream S α] {s : S} {xs : List α} : Denotes s xs → Denotes (fuse s) xs
  | filter {S P α : Type} [Stream S α] [FnMut P α Bool] {s : S} {xs : List α} (p : P) :
    Denotes s xs → Denotes (filter s p) (filtered p xs)
  | filterMap {S F α β : Type} [Stream S α] [FnMut F α (Option β)] {s : S} {xs : List α} (f : F) :
    Denotes s xs → Denotes (filterMap s f) ((mapped f xs).filterMap id)
  | skip {S α : Type} [Stream S α] {s : S} {xs : List α} (n : Nat) :
    Denotes s xs → Denotes (skip s n) (xs.drop n)
  | skipWhile {S P α : Type} [Stream S α] [FnMut P α Bool] {s : S} {xs : List α} (p : P) :
    Denotes s xs → Denotes (skipWhile s p) (droppedWhile p xs)
  | stepBy {S α : Type} [Stream S α] {s : S} {xs : List α} {step : Nat} {r : StepBy S} :
    stepBy s step = .ok r → Denotes s xs → Denotes r (everyNth step xs)
  | chain {S U α : Type} [Stream S α] [Stream U α] {s : S} {t : U} {xs ys : List α} :
    Denotes s xs → Denotes t ys → Denotes (chain s t) (xs ++ ys)
  | zip {S U α β : Type} [Stream S α] [Stream U β] {s : S} {t : U} {xs : List α} {ys : List β} :
    Denotes s xs → Denotes t ys → Denotes (zip s t) (xs.zip ys)
  | flatMap {S F U α β : Type} [Stream S α] [FnMut F α U] [Stream U β] {s : S} {xs : List α} (f : F)
    (g : U → List β) : Denotes s xs → (∀ u ∈ mapped f xs, Denotes u (g u)) →
    Denotes (flatMap s f) ((mapped f xs).flatMap g)
  | flatten {S U β : Type} [Stream S U] [Stream U β] {s : S} {us : List U} (g : U → List β) :
    Denotes s us → (∀ u ∈ us, Denotes u (g u)) → Denotes (flatten s) (us.flatMap g)
  | «then» {S F Fut α β : Type} [Stream S α] [FnMut F α Fut] [Future Fut β] {s : S} {xs : List α}
    (f : F) (output : Fut → β) : Denotes s xs →
    (∀ fut ∈ mapped f xs, Resolves Future.poll fut (output fut)) →
    Denotes («then» s f) ((mapped f xs).map output)

theorem source_yields {α : Type} {fuel : Nat} (script : List (Option α)) :
    Yields (pollNext fuel) (source script) (script.filterMap id) := by
  induction script with
  | nil => exact .done rfl
  | cons a script ih =>
    cases a with
    | none => exact .pending rfl ih
    | some a => exact .item rfl ih

theorem delay_resolves {β : Type} (left : Nat) (output : β) :
    Resolves Future.poll (delay left output) output := by
  induction left with
  | zero => exact .ready rfl
  | succ left ih => exact .pending rfl ih

theorem eventually_mem {U β : Type} [Stream U β] {us : List U} {g : U → List β}
    (h : ∀ u ∈ us, ∀ᶠ fuel in Filter.atTop, Yields (pollNext fuel) u (g u)) :
    ∀ᶠ fuel in Filter.atTop, ∀ u ∈ us, Yields (pollNext fuel) u (g u) :=
  (Filter.eventually_all_finite us.finite_toSet).mpr h

theorem Denotes.yields {S α : Type} [Stream S α] {s : S} {xs : List α} (h : Denotes s xs) :
    ∀ᶠ fuel in Filter.atTop, Yields (pollNext fuel) s xs := by
  induction h with
  | source script => exact .of_forall fun _ => source_yields script
  | map f _ ih => exact ih.mono fun _ h => map_yields h f
  | inspect f _ ih => exact ih.mono fun _ h => inspect_yields h f
  | enumerate _ ih => exact ih.mono fun _ h => enumerate_yields h
  | scan state f _ ih => exact ih.mono fun _ h => scan_yields h state f
  | take n _ ih => exact ih.mono fun _ h => take_yields h n
  | takeWhile p _ ih => exact ih.mono fun _ h => takeWhile_yields h p
  | fuse _ ih => exact ih.mono fun _ h => fuse_yields h
  | filter p _ ih =>
    filter_upwards [ih, Filter.eventually_gt_atTop _] with fuel h hfuel
    exact filter_yields h hfuel p
  | filterMap f _ ih =>
    filter_upwards [ih, Filter.eventually_gt_atTop _] with fuel h hfuel
    exact filterMap_yields h hfuel f
  | skip n _ ih =>
    filter_upwards [ih, Filter.eventually_gt_atTop _] with fuel h hfuel
    exact skip_yields h hfuel n
  | skipWhile p _ ih =>
    filter_upwards [ih, Filter.eventually_gt_atTop _] with fuel h hfuel
    exact skipWhile_yields h hfuel p
  | stepBy hr _ ih =>
    filter_upwards [ih, Filter.eventually_gt_atTop _] with fuel h hfuel
    exact stepBy_yields h hfuel hr
  | chain _ _ ih ih' =>
    filter_upwards [ih, ih'] with fuel h h'
    exact chain_yields h h'
  | zip _ _ ih ih' =>
    filter_upwards [ih, ih'] with fuel h h'
    exact zip_yields h h'
  | flatMap f g _ _ ih ih' =>
    filter_upwards [ih, eventually_mem ih', Filter.eventually_gt_atTop _] with fuel h hinner hfuel
    exact flatMap_yields h f g hinner hfuel
  | flatten g _ _ ih ih' =>
    filter_upwards [ih, eventually_mem ih', Filter.eventually_gt_atTop _] with fuel h hinner hfuel
    exact flatten_yields h g hinner hfuel
  | «then» f output _ hout ih =>
    filter_upwards [ih, Filter.eventually_gt_atTop 1] with fuel h hfuel
    exact then_yields h f output hout hfuel

/-- With enough fuel for its loops, an expression that is polled until its first `None`
gives the items of its list. No poll fails, so no source is polled again after its end. -/
theorem adapters_mean_lists {S α : Type} [Stream S α] {s : S} {xs : List α} (h : Denotes s xs) :
    ∃ n, ∀ fuel, n ≤ fuel → ∃ k, ∀ polls, k ≤ polls →
      drain (pollNext fuel) polls s = .ok (xs, true) := by
  obtain ⟨n, hn⟩ := Filter.eventually_atTop.mp h.yields
  exact ⟨n, fun fuel hfuel => (hn fuel hfuel).drain⟩

/-- `a.filter(odd).chain(b.flat_map(|n| once(n).take(n))).zip(c.then(|n| delay(n)))`. -/
theorem adapters_mean_lists_zip :
    ∃ n, ∀ fuel, n ≤ fuel → ∃ k, ∀ polls, k ≤ polls →
      drain (pollNext fuel) polls
        (zip
          (chain (filter (source [some 1, none, some 2, some 3]) fun n : Nat => n % 2 == 1)
            (flatMap (source [some 0, none, some 5]) fun n : Nat => take (source [none, some n]) n))
          («then» (source [some 7, some 8, some 9]) fun n : Nat => delay n n)) =
        .ok ([(1, 7), (3, 8), (5, 9)], true) := by
  have h1 := (Denotes.source [some 1, none, some 2, some 3]).filter fun n : Nat => n % 2 == 1
  have h2 := (Denotes.source [some 0, none, some 5]).flatMap
    (fun n : Nat => take (source [none, some n]) n)
    (fun u => (u.stream.script.filterMap id).take u.n) fun u hu => ?_
  have h3 := (Denotes.source [some 7, some 8, some 9]).then (fun n : Nat => delay n n) Delay.output
    fun fut hfut => ?_
  · exact adapters_mean_lists ((h1.chain h2).zip h3)
  · rw [mapped_pure] at hfut
    obtain ⟨n, -, rfl⟩ := List.mem_map.mp hfut
    exact delay_resolves n n
  · rw [mapped_pure] at hu
    obtain ⟨n, -, rfl⟩ := List.mem_map.mp hu
    exact (Denotes.source [none, some n]).take n

end Cynthia.Streams
