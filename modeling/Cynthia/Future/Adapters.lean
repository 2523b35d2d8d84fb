import Cynthia.Future.Stream
import Mathlib.Data.List.TakeWhile

/-! What each adapter gives, from what its streams give. -/

namespace Cynthia.Streams

open Polling

variable {S U T C F P Fut St α β : Type} {fuel : Nat} {s : S} {t : U} {xs : List α}

/-! ## Lists -/

/-- The answers of a closure that is called with each item in turn. -/
def mapped [FnMut F α β] (f : F) : List α → List β
  | [] => []
  | x :: xs => (call f x).1 :: mapped (call f x).2 xs

def filtered [FnMut P α Bool] (p : P) : List α → List α
  | [] => []
  | x :: xs => if (call p x).1 then x :: filtered (call p x).2 xs else filtered (call p x).2 xs

def takenWhile [FnMut P α Bool] (p : P) : List α → List α
  | [] => []
  | x :: xs => if (call p x).1 then x :: takenWhile (call p x).2 xs else []

def droppedWhile [FnMut P α Bool] (p : P) : List α → List α
  | [] => []
  | x :: xs => if (call p x).1 then droppedWhile (call p x).2 xs else x :: xs

/-- The results of `f`, which threads the state, up to its first `None`. -/
def scanned [FnMut F (St × α) (Option β × St)] (state : St) (f : F) : List α → List β
  | [] => []
  | x :: xs => match call f (state, x) with
    | ((some y, state), f) => y :: scanned state f xs
    | ((none, _), _) => []

def enumerated (xs : List α) : List (Nat × α) := xs.zipIdx.map fun p => (p.2 % 2 ^ 64, p.1)

/-- The items whose index is a multiple of `step`. -/
def everyNth (step : Nat) (xs : List α) : List α :=
  (xs.zipIdx.filter fun p => p.2 % step = 0).map Prod.fst

/-! Without state these are the functions of the library. -/

theorem mapped_pure (f : α → β) (xs : List α) : mapped f xs = xs.map f := by
  induction xs with
  | nil => rfl
  | cons x xs ih => exact congrArg (f x :: ·) ih

theorem filtered_pure (p : α → Bool) (xs : List α) : filtered p xs = xs.filter p := by
  induction xs with
  | nil => rfl
  | cons x xs ih =>
    have hcall : call p x = (p x, p) := rfl
    simp only [filtered, hcall, ih, List.filter_cons]

theorem takenWhile_pure (p : α → Bool) (xs : List α) : takenWhile p xs = xs.takeWhile p := by
  induction xs with
  | nil => rfl
  | cons x xs ih =>
    have hcall : call p x = (p x, p) := rfl
    simp only [takenWhile, hcall, ih, List.takeWhile_cons]

theorem droppedWhile_pure (p : α → Bool) (xs : List α) : droppedWhile p xs = xs.dropWhile p := by
  induction xs with
  | nil => rfl
  | cons x xs ih =>
    have hcall : call p x = (p x, p) := rfl
    simp only [droppedWhile, hcall, ih, List.dropWhile_cons]

/-! ## One poll of the stream -/

/-- The list that `pollOnce` gives. -/
def cut (f : C → α → Option β × C) : C → List α → List β
  | _, [] => []
  | c, x :: xs => match f c x with
    | (some y, c) => y :: cut f c xs
    | (none, _) => []

/-- The list that `pollUntil` gives. -/
def sift (f : C → α → Option β × C) : C → List α → List β
  | _, [] => []
  | c, x :: xs => match f c x with
    | (some y, c) => y :: sift f c xs
    | (none, c) => sift f c xs

section Generic

variable [Stream S α] [Stream T β] {f : C → α → Option β × C} (mk : S → C → T)

theorem yields_pollOnce (hpoll : ∀ s c, pollNext fuel (mk s c) = pollOnce fuel f mk s c)
    (h : Yields (pollNext fuel) s xs) (c : C) :
    Yields (pollNext fuel) (mk s c) (cut f c xs) := by
  induction h generalizing c with
  | done hr =>
    apply Yields.of_begins
    rw [hpoll, pollOnce, hr]
    exact .done
  | @item s s' x xs hr _ ih =>
    apply Yields.of_begins
    rw [hpoll, pollOnce, hr, cut]
    rcases hf : f c x with ⟨_ | y, c'⟩
    · simp only [ok_bind, hf]
      exact .done
    · simp only [ok_bind, hf]
      exact .item (ih c')
  | pending hr _ ih =>
    apply Yields.of_begins
    rw [hpoll, pollOnce, hr]
    exact .pending (ih c)

/-- The loop goes round at most once for every item, and once for the end. -/
theorem yields_pollUntil (hpoll : ∀ s c, pollNext fuel (mk s c) = pollUntil fuel f mk fuel s c)
    (h : Yields (pollNext fuel) s xs) (hfuel : xs.length < fuel) (c : C) :
    Yields (pollNext fuel) (mk s c) (sift f c xs) := by
  suffices hloop : ∀ n, xs.length < n →
      Begins (pollNext fuel) (pollUntil fuel f mk n s c) (sift f c xs) by
    apply Yields.of_begins
    rw [hpoll]
    exact hloop fuel hfuel
  induction h generalizing c with
  | done hr =>
    intro n hn
    obtain ⟨n, rfl⟩ := Nat.exists_eq_add_of_le' (Nat.one_le_of_lt hn)
    rw [pollUntil, hr]
    exact .done
  | @item s s' x xs hr _ ih =>
    intro n hn
    have hlt : xs.length < fuel := Nat.lt_of_succ_lt hfuel
    obtain ⟨n, rfl⟩ := Nat.exists_eq_add_of_le' (Nat.one_le_of_lt hn)
    rw [pollUntil, hr, sift]
    rcases hf : f c x with ⟨_ | y, c'⟩
    · simp only [ok_bind, hf]
      exact ih hlt c' n (Nat.lt_of_succ_lt_succ hn)
    · simp only [ok_bind, hf]
      refine .item (Yields.of_begins ?_)
      rw [hpoll]
      exact ih hlt c' fuel hlt
  | pending hr _ ih =>
    intro n hn
    obtain ⟨n, rfl⟩ := Nat.exists_eq_add_of_le' (Nat.one_le_of_lt hn)
    rw [pollUntil, hr]
    refine .pending (Yields.of_begins ?_)
    rw [hpoll]
    exact ih hfuel c fuel hfuel

end Generic

section Once

variable [Stream S α]

theorem map_yields [FnMut F α β] (h : Yields (pollNext fuel) s xs) (f : F) :
    Yields (pollNext fuel) (map s f) (mapped f xs) := by
  have hcut : cut (fun f v => (some (call f v).1, (call f v).2)) f xs = mapped f xs := by
    clear h
    induction xs generalizing f with
    | nil => rfl
    | cons x xs ih => exact congrArg ((call f x).1 :: ·) (ih (call f x).2)
  rw [← hcut]
  exact yields_pollOnce Map.mk (fun _ _ => rfl) h f

theorem inspect_yields [FnMut F α Unit] (h : Yields (pollNext fuel) s xs) (f : F) :
    Yields (pollNext fuel) (inspect s f) xs := by
  have hcut : cut (fun f v => (some v, (call f v).2)) f xs = xs := by
    clear h
    induction xs generalizing f with
    | nil => rfl
    | cons x xs ih => exact congrArg (x :: ·) (ih (call f x).2)
  have := yields_pollOnce Inspect.mk (fun _ _ => rfl) h f
  rwa [hcut] at this

theorem enumerate_yields (h : Yields (pollNext fuel) s xs) :
    Yields (pollNext fuel) (enumerate s) (enumerated xs) := by
  have hcut : ∀ k, cut (fun i v => (some (i, v), (i + 1) % 2 ^ 64)) (k % 2 ^ 64) xs =
      (xs.zipIdx k).map fun p => (p.2 % 2 ^ 64, p.1) := by
    clear h
    induction xs with
    | nil => exact fun _ => rfl
    | cons x xs ih =>
      intro k
      simp only [cut, List.zipIdx_cons, List.map_cons, Nat.mod_add_mod, ih (k + 1)]
  rw [enumerated, ← hcut 0]
  exact yields_pollOnce Enumerate.mk (fun _ _ => rfl) h 0

theorem scan_yields [FnMut F (St × α) (Option β × St)] (h : Yields (pollNext fuel) s xs)
    (state : St) (f : F) : Yields (pollNext fuel) (scan s state f) (scanned state f xs) := by
  have hcut : cut Scan.next (state, f) xs = scanned state f xs := by
    clear h
    induction xs generalizing state f with
    | nil => rfl
    | cons x xs ih =>
      rcases hcall : call f (state, x) with ⟨⟨_ | y, state'⟩, f'⟩
      · simp only [cut, scanned, Scan.next, hcall]
      · simp only [cut, scanned, Scan.next, hcall, ih state' f']
  rw [← hcut]
  exact yields_pollOnce Scan.mk (fun _ _ => rfl) h (state, f)

theorem takeWhile_yields [FnMut P α Bool] (h : Yields (pollNext fuel) s xs) (p : P) :
    Yields (pollNext fuel) (takeWhile s p) (takenWhile p xs) := by
  have hcut : cut keepIf p xs = takenWhile p xs := by
    clear h
    induction xs generalizing p with
    | nil => rfl
    | cons x xs ih =>
      rcases hcall : call p x with ⟨_ | _, p'⟩
      · simp [cut, takenWhile, keepIf, hcall]
      · simp [cut, takenWhile, keepIf, hcall, ih p']
  rw [← hcut]
  exact yields_pollOnce TakeWhile.mk (fun _ _ => rfl) h p

theorem take_yields (h : Yields (pollNext fuel) s xs) (n : Nat) :
    Yields (pollNext fuel) (take s n) (xs.take n) := by
  induction h generalizing n with
  | done hr =>
    rw [List.take_nil]
    cases n with
    | zero => exact .done rfl
    | succ n => exact .done (by simp [take, pollNext, hr]; rfl)
  | @item s s' x xs hr _ ih =>
    cases n with
    | zero => exact .done rfl
    | succ n => exact .item (by simp [take, pollNext, hr]; rfl) (ih n)
  | pending hr _ ih =>
    cases n with
    | zero => exact .done rfl
    | succ n => exact .pending (by simp [take, pollNext, hr]; rfl) (ih (n + 1))

theorem fuse_yields (h : Yields (pollNext fuel) s xs) : Yields (pollNext fuel) (fuse s) xs := by
  induction h with
  | done hr => exact .done (by simp [fuse, pollNext, hr]; rfl)
  | item hr _ ih => exact .item (by simp [fuse, pollNext, hr]; rfl) ih
  | pending hr _ ih => exact .pending (by simp [fuse, pollNext, hr]; rfl) ih

end Once

/-! ## Loops over the stream -/

section Until

variable [Stream S α]

theorem filter_yields [FnMut P α Bool] (h : Yields (pollNext fuel) s xs)
    (hfuel : xs.length < fuel) (p : P) :
    Yields (pollNext fuel) (filter s p) (filtered p xs) := by
  have hsift : sift keepIf p xs = filtered p xs := by
    clear h hfuel
    induction xs generalizing p with
    | nil => rfl
    | cons x xs ih =>
      rcases hcall : call p x with ⟨_ | _, p'⟩
      · simp [sift, filtered, keepIf, hcall, ih p']
      · simp [sift, filtered, keepIf, hcall, ih p']
  rw [← hsift]
  exact yields_pollUntil Filter.mk (fun _ _ => rfl) h hfuel p

theorem filterMap_yields [FnMut F α (Option β)] (h : Yields (pollNext fuel) s xs)
    (hfuel : xs.length < fuel) (f : F) :
    Yields (pollNext fuel) (filterMap s f) ((mapped f xs).filterMap id) := by
  have hsift : sift call f xs = (mapped f xs).filterMap id := by
    clear h hfuel
    induction xs generalizing f with
    | nil => rfl
    | cons x xs ih =>
      rcases hcall : call f x with ⟨_ | y, f'⟩
      · simp [sift, mapped, hcall, ih f']
      · simp [sift, mapped, hcall, ih f']
  rw [← hsift]
  exact yields_pollUntil FilterMap.mk (fun _ _ => rfl) h hfuel f

/-- Once nothing is skipped any more, all items are kept. -/
theorem sift_all {c : C} {f : C → α → Option α × C} (h : ∀ x, f c x = (some x, c)) (xs : List α) :
    sift f c xs = xs := by
  induction xs with
  | nil => rfl
  | cons x xs ih => simp only [sift, h, ih]

theorem skip_yields (h : Yields (pollNext fuel) s xs) (hfuel : xs.length < fuel) (n : Nat) :
    Yields (pollNext fuel) (skip s n) (xs.drop n) := by
  have hsift : sift Skip.keep n xs = xs.drop n := by
    clear h hfuel
    induction xs generalizing n with
    | nil => exact List.drop_nil.symm
    | cons x xs ih =>
      cases n with
      | zero => exact sift_all (fun _ => rfl) (x :: xs)
      | succ n => exact ih n
  rw [← hsift]
  exact yields_pollUntil Skip.mk (fun _ _ => rfl) h hfuel n

theorem skipWhile_yields [FnMut P α Bool] (h : Yields (pollNext fuel) s xs)
    (hfuel : xs.length < fuel) (p : P) :
    Yields (pollNext fuel) (skipWhile s p) (droppedWhile p xs) := by
  have hsift : sift SkipWhile.keep (some p) xs = droppedWhile p xs := by
    clear h hfuel
    induction xs generalizing p with
    | nil => rfl
    | cons x xs ih =>
      rcases hcall : call p x with ⟨_ | _, p'⟩
      · simp only [sift, droppedWhile, SkipWhile.keep, hcall, Bool.false_eq_true, ↓reduceIte]
        rw [sift_all fun _ => rfl]
      · simp only [sift, droppedWhile, SkipWhile.keep, hcall, ↓reduceIte, ih p']
  rw [← hsift]
  exact yields_pollUntil SkipWhile.mk (fun _ _ => rfl) h hfuel (some p)

/-- `i` counts down from the item at index `k` to the next one that is kept. -/
theorem sift_stepBy {step : Nat} (hstep : step > 0) (xs : List α) {i k : Nat} (hi : i < step)
    (hk : (k + i) % step = 0) : sift (StepBy.keep step) i xs =
      ((xs.zipIdx k).filter fun p => p.2 % step = 0).map Prod.fst := by
  induction xs generalizing i k with
  | nil => rfl
  | cons x xs ih =>
    rw [List.zipIdx_cons, List.filter_cons]
    cases i with
    | zero =>
      have hnext : (k + 1 + (step - 1)) % step = 0 := by
        rw [show k + 1 + (step - 1) = k + step by omega, Nat.add_mod_right]
        exact hk
      rw [Nat.add_zero] at hk
      simp only [sift, StepBy.keep, hk, ↓reduceIte, decide_true, List.map_cons]
      rw [ih (Nat.sub_lt hstep Nat.one_pos) hnext]
    | succ i =>
      have hne : k % step ≠ 0 := by
        intro hzero
        rw [Nat.add_mod, hzero, Nat.zero_add, Nat.mod_mod, Nat.mod_eq_of_lt hi] at hk
        cases hk
      have hnext : (k + 1 + i) % step = 0 := by
        rw [Nat.add_right_comm]
        exact hk
      simp only [sift, StepBy.keep, hne, Nat.add_one_ne_zero, ↓reduceIte, decide_false,
        Bool.false_eq_true, Nat.add_sub_cancel]
      rw [ih (Nat.lt_of_succ_lt hi) hnext]

theorem stepBy_yields (h : Yields (pollNext fuel) s xs) (hfuel : xs.length < fuel)
    {step : Nat} {r : StepBy S} (hr : stepBy s step = .ok r) :
    Yields (pollNext fuel) r (everyNth step xs) := by
  unfold stepBy at hr
  split at hr
  · rename_i hstep
    cases hr
    rw [everyNth, ← sift_stepBy hstep xs hstep (Nat.zero_mod step)]
    exact yields_pollUntil (StepBy.mk · step hstep ·) (fun _ _ => rfl) h hfuel 0
  · cases hr

end Until

/-! ## Several streams -/

section Several

variable [Stream S α]

theorem chain_second_yields [Stream U α] {ys : List α} (h : Yields (pollNext fuel) t ys) (s : S) :
    Yields (pollNext fuel) (Chain.mk ⟨s, true⟩ (fuse t)) ys := by
  induction h with
  | done hr => exact .done (by simp [fuse, pollNext, Chain.pollSecond, hr]; rfl)
  | item hr _ ih => exact .item (by simp [fuse, pollNext, Chain.pollSecond, hr]; rfl) ih
  | pending hr _ ih => exact .pending (by simp [fuse, pollNext, Chain.pollSecond, hr]; rfl) ih

theorem chain_yields [Stream U α] {ys : List α} (h : Yields (pollNext fuel) s xs)
    (h' : Yields (pollNext fuel) t ys) : Yields (pollNext fuel) (chain s t) (xs ++ ys) := by
  induction h with
  | @done s s' hr =>
    -- the poll that finds the first stream at its end goes on with the second
    refine .of_poll_eq ?_ (chain_second_yields h' s')
    simp [chain, fuse, pollNext, hr]
  | item hr _ ih => exact .item (by simp [chain, fuse, pollNext, hr]; rfl) ih
  | pending hr _ ih => exact .pending (by simp [chain, fuse, pollNext, hr]; rfl) ih

/-- The item in the slot waits for its partner. -/
theorem zip_second_yields [Stream U β] {ys : List β} {x : α}
    (ih : ∀ {t : U} {ys : List β}, Yields (pollNext fuel) t ys →
      Yields (pollNext fuel) (zip s t) (xs.zip ys)) (h : Yields (pollNext fuel) t ys) :
    Yields (pollNext fuel) (Zip.mk (some x) s t) ((x :: xs).zip ys) := by
  induction h with
  | done hr => exact .done (by simp [pollNext, Zip.pollSecond, hr]; rfl)
  | item hr h _ => exact .item (by simp [pollNext, Zip.pollSecond, hr]; rfl) (ih h)
  | pending hr _ ih' => exact .pending (by simp [pollNext, Zip.pollSecond, hr]; rfl) ih'

theorem zip_yields [Stream U β] {ys : List β} (h : Yields (pollNext fuel) s xs)
    (h' : Yields (pollNext fuel) t ys) : Yields (pollNext fuel) (zip s t) (xs.zip ys) := by
  induction h generalizing t ys with
  | done hr => exact .done (by simp [zip, pollNext, hr]; rfl)
  | item hr _ ih =>
    refine .of_poll_eq ?_ (zip_second_yields ih h')
    simp [zip, pollNext, hr]
  | pending hr _ ih => exact .pending (by simp [zip, pollNext, hr]; rfl) (ih h')

end Several

section Inner

variable [Stream S U] [Stream U β] [Stream T β] (mk : S → Option U → T)

/-- An inner stream is at hand, and `zs` comes after it. -/
theorem begins_pollInner {ys zs : List β} {m n : Nat}
    (hpoll : ∀ s inner, pollNext fuel (mk s inner) = pollInner fuel mk fuel s inner)
    (h : Yields (pollNext fuel) t ys)
    (hrest : ∀ n, m < n → Begins (pollNext fuel) (pollInner fuel mk n s none) zs)
    (hfuel : m < fuel) (hn : m < n) :
    Begins (pollNext fuel) (pollInner fuel mk n s (some t)) (ys ++ zs) := by
  induction h generalizing n with
  | done hr =>
    have := hrest n hn
    obtain ⟨n, rfl⟩ := Nat.exists_eq_add_of_le' (Nat.one_le_of_lt hn)
    rw [pollInner] at this
    rw [pollInner, hr]
    exact this
  | item hr _ ih =>
    obtain ⟨n, rfl⟩ := Nat.exists_eq_add_of_le' (Nat.one_le_of_lt hn)
    rw [pollInner, hr]
    refine .item (Yields.of_begins ?_)
    rw [hpoll]
    exact ih hfuel
  | pending hr _ ih =>
    obtain ⟨n, rfl⟩ := Nat.exists_eq_add_of_le' (Nat.one_le_of_lt hn)
    rw [pollInner, hr]
    refine .pending (Yields.of_begins ?_)
    rw [hpoll]
    exact ih hfuel

/-- The loop goes round once for every inner stream, and once for the end. -/
theorem yields_pollInner {us : List U} {g : U → List β}
    (hpoll : ∀ s inner, pollNext fuel (mk s inner) = pollInner fuel mk fuel s inner)
    (h : Yields (pollNext fuel) s us) (hinner : ∀ u ∈ us, Yields (pollNext fuel) u (g u))
    (hfuel : us.length < fuel) : Yields (pollNext fuel) (mk s none) (us.flatMap g) := by
  suffices hloop : ∀ n, us.length < n →
      Begins (pollNext fuel) (pollInner fuel mk n s none) (us.flatMap g) by
    apply Yields.of_begins
    rw [hpoll]
    exact hloop fuel hfuel
  induction h with
  | done hr =>
    intro n hn
    obtain ⟨n, rfl⟩ := Nat.exists_eq_add_of_le' (Nat.one_le_of_lt hn)
    rw [pollInner, hr]
    exact .done
  | @item s s' u us hr _ ih =>
    intro n hn
    have hlt : us.length < fuel := Nat.lt_of_succ_lt hfuel
    have ih := ih (fun u hu => hinner u (List.mem_cons_of_mem _ hu)) hlt
    obtain ⟨n, rfl⟩ := Nat.exists_eq_add_of_le' (Nat.one_le_of_lt hn)
    rw [pollInner, hr, List.flatMap_cons]
    exact begins_pollInner mk hpoll (hinner u List.mem_cons_self) ih hlt (Nat.lt_of_succ_lt_succ hn)
  | pending hr _ ih =>
    intro n hn
    obtain ⟨n, rfl⟩ := Nat.exists_eq_add_of_le' (Nat.one_le_of_lt hn)
    rw [pollInner, hr]
    refine .pending (Yields.of_begins ?_)
    rw [hpoll]
    exact ih hinner hfuel fuel hfuel

theorem flatten_yields {us : List U} (h : Yields (pollNext fuel) s us) (g : U → List β)
    (hinner : ∀ u ∈ us, Yields (pollNext fuel) u (g u)) (hfuel : us.length < fuel) :
    Yields (pollNext fuel) (flatten s) (us.flatMap g) :=
  yields_pollInner Flatten.mk (fun _ _ => rfl) h hinner hfuel

end Inner

theorem flatMap_yields [Stream S α] [FnMut F α U] [Stream U β] (h : Yields (pollNext fuel) s xs)
    (f : F) (g : U → List β) (hinner : ∀ u ∈ mapped f xs, Yields (pollNext fuel) u (g u))
    (hfuel : (mapped f xs).length < fuel) :
    Yields (pollNext fuel) (flatMap s f) ((mapped f xs).flatMap g) :=
  yields_pollInner FlatMap.mk (fun _ _ => rfl) (map_yields h f) hinner hfuel

section Then

variable [Stream S α] [FnMut F α Fut] [Future Fut β]

/-- A future is at hand, and `ys` comes after its output. -/
theorem begins_then {fut : Fut} {y : β} {ys : List β} {f : F} {n : Nat}
    (h : Resolves Future.poll fut y)
    (hrest : Yields (pollNext fuel) (Then.mk s (none : Option Fut) f) ys)
    (hfuel : 0 < fuel) (hn : 0 < n) :
    Begins (pollNext fuel) (Then.loop fuel n ⟨s, some fut, f⟩) (y :: ys) := by
  induction h generalizing n with
  | ready hr =>
    obtain ⟨n, rfl⟩ := Nat.exists_eq_add_of_le' hn
    rw [Then.loop]
    dsimp only
    rw [hr]
    exact .item hrest
  | pending hr _ ih =>
    obtain ⟨n, rfl⟩ := Nat.exists_eq_add_of_le' hn
    rw [Then.loop]
    dsimp only
    rw [hr]
    exact .pending (Yields.of_begins (ih hfuel))

/-- The loop goes round twice at most. -/
theorem then_yields (h : Yields (pollNext fuel) s xs) (f : F) (output : Fut → β)
    (hout : ∀ fut ∈ mapped f xs, Resolves Future.poll fut (output fut)) (hfuel : 1 < fuel) :
    Yields (pollNext fuel) («then» s f) ((mapped f xs).map output) := by
  obtain ⟨n, rfl⟩ := Nat.exists_eq_add_of_le' (Nat.le_of_lt hfuel)
  have hn : 0 < n := by omega
  induction h generalizing f with
  | done hr => exact .done (by simp [«then», pollNext, Then.loop, hr]; rfl)
  | @item s s' x xs hr _ ih =>
    have hrest := ih (call f x).2 fun fut hfut => hout fut (List.mem_cons_of_mem _ hfut)
    have hbegin := begins_then (hout _ List.mem_cons_self) hrest (Nat.succ_pos n) hn
    have hpoll : pollNext (n + 1) («then» s f) =
        Then.loop (n + 1) n ⟨s', some (call f x).1, (call f x).2⟩ := by
      simp [«then», pollNext, Then.loop, hr]
    apply Yields.of_begins
    rw [hpoll]
    exact hbegin
  | pending hr _ ih => exact .pending (by simp [«then», pollNext, Then.loop, hr]; rfl) (ih f hout)

end Then

end Cynthia.Streams
