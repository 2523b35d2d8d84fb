import Cynthia.Future.Expressions
import Cynthia.Future.StreamFutures

/-! What the futures of a stream answer, from what the stream gives. -/

namespace Cynthia.Streams

open Polling

section Loop

variable {S T C α β : Type} {fuel : Nat} {s : S} {c c' : C} {b : β} {xs : List α}
  {left : Option (List α)} {onItem : C → α → Except Fault (Option β × C)}
  {onEnd : C → Except Fault (β × C)} {mk : S → C → T}

/-- What the loop makes of a list: its answer, what the future keeps, and the items behind the
one at which it answers. -/
def answer (onItem : C → α → Except Fault (Option β × C)) (onEnd : C → Except Fault (β × C)) :
    C → List α → Except Fault (β × C × Option (List α))
  | c, [] => (onEnd c).map fun (b, c) => (b, c, none)
  | c, x :: xs =>
    match onItem c x with
    | .error e => .error e
    | .ok (some b, c) => .ok (b, c, some xs)
    | .ok (none, c) => answer onItem onEnd c xs

/-- The loop goes round at most once for every item, and once for the end. -/
theorem completes_pollAnswer [Stream S α] {poll : T → Except Fault (Poll β × T)}
    (hpoll : ∀ s c, poll (mk s c) = pollAnswer fuel onItem onEnd mk fuel s c)
    (h : Yields (pollNext fuel) s xs) (hfuel : xs.length < fuel)
    (hans : answer onItem onEnd c xs = .ok (b, c', left)) :
    ∃ s', Completes poll (mk s c) b (mk s' c') ∧
      ∀ ys, left = some ys → Yields (pollNext fuel) s' ys := by
  suffices hloop : ∀ n, xs.length < n →
      ∃ s', Concludes poll (pollAnswer fuel onItem onEnd mk n s c) b (mk s' c') ∧
        ∀ ys, left = some ys → Yields (pollNext fuel) s' ys by
    obtain ⟨s', hs', hleft⟩ := hloop fuel hfuel
    exact ⟨s', .of_concludes (by rwa [hpoll]), hleft⟩
  induction h generalizing c with
  | @done s s' hr =>
    intro n hn
    obtain ⟨n, rfl⟩ := Nat.exists_eq_add_of_le' (Nat.one_le_of_lt hn)
    rw [answer] at hans
    rcases hend : onEnd c with e | ⟨b, c⟩
    · rw [hend] at hans
      cases hans
    · rw [hend] at hans
      cases hans
      refine ⟨s', ?_, nofun⟩
      rw [pollAnswer, hr]
      simp only [ok_bind, hend]
      exact .ready
  | @item s s' x xs hr hrest ih =>
    intro n hn
    have hlt : xs.length < fuel := Nat.lt_of_succ_lt hfuel
    obtain ⟨n, rfl⟩ := Nat.exists_eq_add_of_le' (Nat.one_le_of_lt hn)
    rw [pollAnswer, hr]
    rw [answer] at hans
    rcases hitem : onItem c x with e | ⟨_ | b, c⟩
    · rw [hitem] at hans
      cases hans
    · rw [hitem] at hans
      simp only [ok_bind, hitem]
      exact ih hlt hans n (Nat.lt_of_succ_lt_succ hn)
    · rw [hitem] at hans
      cases hans
      simp only [ok_bind, hitem]
      refine ⟨s', .ready, ?_⟩
      rintro ys ⟨⟩
      exact hrest
  | pending hr _ ih =>
    intro n hn
    obtain ⟨n, rfl⟩ := Nat.exists_eq_add_of_le' (Nat.one_le_of_lt hn)
    obtain ⟨s', hs', hleft⟩ := ih hfuel hans fuel hfuel
    refine ⟨s', ?_, hleft⟩
    rw [pollAnswer, hr]
    exact .pending (.of_concludes (by rwa [hpoll]))

end Loop

/-! ## Lists -/

section Lists

variable {S T C F P α β ε : Type} {xs : List α}

/-- The items behind the one with the index. -/
def behind (i : Option Nat) (xs : List α) : Option (List α) := i.map fun i => xs.drop (i + 1)

def gathered [Collection C α] (xs : List α) : C :=
  xs.foldl Collection.extend (Collection.default α)

def folded [FnMut F (T × α) T] (f : F) (acc : T) : List α → T
  | [] => acc
  | x :: xs => folded (call f (acc, x)).2 (call f (acc, x)).1 xs

/-- The first error, of an item or of the closure, or what the closure makes of all items. -/
def tryFolded [FnMut F (β × α) (Except ε β)] (f : F) (acc : β) :
    List (Except ε α) → Except ε β × Option (List (Except ε α))
  | [] => (.ok acc, none)
  | .error e :: xs => (.error e, some xs)
  | .ok x :: xs => match call f (acc, x) with
    | (.ok acc, f) => tryFolded f acc xs
    | (.error e, _) => (.error e, some xs)

/-- The items of which the closure returns `false`. -/
def filteredOut [FnMut P α Bool] (p : P) (xs : List α) : List α :=
  ((xs.zip (mapped p xs)).filter fun r => !r.2).map Prod.fst

def isError : Except ε α → Bool
  | .error _ => true
  | .ok _ => false

@[simp] theorem behind_none : behind none xs = none := rfl

@[simp] theorem behind_zero (x : α) : behind (some 0) (x :: xs) = some xs := rfl

@[simp] theorem behind_succ (i : Option Nat) (x : α) :
    behind (i.map (· + 1)) (x :: xs) = behind i xs := by
  cases i <;> rfl

/-! Without state these are the functions of the library. -/

theorem folded_pure (f : T × α → T) (acc : T) (xs : List α) :
    folded f acc xs = xs.foldl (fun acc x => f (acc, x)) acc := by
  induction xs generalizing acc with
  | nil => rfl
  | cons x xs ih => exact ih (f (acc, x))

theorem tryFolded_pure (f : β × α → Except ε β) (acc : β) (xs : List (Except ε α)) :
    (tryFolded f acc xs).1 = xs.foldlM (fun acc r => r >>= fun x => f (acc, x)) acc := by
  induction xs generalizing acc with
  | nil => rfl
  | cons r xs ih =>
    rw [List.foldlM_cons]
    cases r with
    | error e => rfl
    | ok x =>
      have hcall : call f (acc, x) = (f (acc, x), f) := rfl
      rw [tryFolded, hcall, ok_bind]
      cases hf : f (acc, x) with
      | error e => rfl
      | ok acc' => exact ih acc'

theorem filteredOut_pure (p : α → Bool) (xs : List α) :
    filteredOut p xs = xs.filter fun x => !p x := by
  rw [filteredOut, mapped_pure]
  induction xs with
  | nil => rfl
  | cons x xs ih =>
    rw [List.map_cons, List.zip_cons_cons, List.filter_cons, List.filter_cons]
    cases hp : p x <;> simp [ih]

theorem gathered_vec (xs : List α) : (gathered xs : List α) = xs := by
  have hfold : ∀ ys : List α, xs.foldl Collection.extend ys = ys ++ xs := by
    induction xs with
    | nil => exact fun ys => (List.append_nil ys).symm
    | cons x xs ih => exact fun ys => (ih _).trans (List.append_assoc ys [x] xs)
  exact hfold []

end Lists

/-! ## Expressions -/

/-- The future is of an expression, just built: what the list functions answer, and what they
leave of the list if they answer before its end. -/
inductive Answers : {S T α β : Type} → [Stream S α] → [StreamFuture T β] → (T → S) → T → β →
    Option (List α) → Prop
  | next {S α : Type} [Stream S α] {s : S} {xs : List α} :
    Denotes s xs → Answers NextFuture.stream (next s) xs.head? xs.tail?
  | tryNext {S α ε : Type} [Stream S (Except ε α)] {s : S} {xs : List (Except ε α)} :
    Denotes s xs → Answers TryNextFuture.stream (tryNext s) (transpose xs.head?) xs.tail?
  | count {S α : Type} [Stream S α] {s : S} {xs : List α} :
    Denotes s xs → Answers CountFuture.stream (count s) (xs.length % 2 ^ 64) none
  | collect {S C α : Type} [Stream S α] [Collection C α] {s : S} {xs : List α} :
    Denotes s xs →
    Answers CollectFuture.stream (collect s : CollectFuture S C) (gathered xs) none
  | partition {S P C α : Type} [Stream S α] [Collection C α] [FnMut P α Bool] {s : S}
    {xs : List α} (p : P) : Denotes s xs →
    Answers PartitionFuture.stream (partition s p : PartitionFuture S P C)
      (gathered (filtered p xs), gathered (filteredOut p xs)) none
  | fold {S F T α : Type} [Stream S α] [FnMut F (T × α) T] {s : S} {xs : List α} (init : T)
    (f : F) : Denotes s xs → Answers FoldFuture.stream (fold s init f) (folded f init xs) none
  | last {S α : Type} [Stream S α] {s : S} {xs : List α} :
    Denotes s xs → Answers LastFuture.stream (last s) xs.getLast? none
  | forEach {S F α : Type} [Stream S α] [FnMut F α Unit] {s : S} {xs : List α} (f : F) :
    Denotes s xs → Answers ForEachFuture.stream (forEach s f) () none
  | unzip {S A B α β : Type} [Stream S (α × β)] [Collection A α] [Collection B β] {s : S}
    {xs : List (α × β)} : Denotes s xs →
    Answers UnzipFuture.stream (unzip s : UnzipFuture S A B)
      (gathered xs.unzip.1, gathered xs.unzip.2) none
  | tryCollect {S C α ε : Type} [Stream S (Except ε α)] [Collection C α] {s : S}
    {xs : List (Except ε α)} : Denotes s xs →
    Answers TryCollectFuture.stream (tryCollect s : TryCollectFuture S C)
      ((xs.mapM id).map gathered) (behind (xs.findIdx? isError) xs)
  | tryFold {S F α β ε : Type} [Stream S (Except ε α)] [FnMut F (β × α) (Except ε β)] {s : S}
    {xs : List (Except ε α)} (init : β) (f : F) : Denotes s xs →
    Answers TryFoldFuture.stream (tryFold s init f) (tryFolded f init xs).1
      (tryFolded f init xs).2
  | nth {S α : Type} [Stream S α] {s : S} {xs : List α} (n : Nat) : Denotes s xs →
    Answers NthFuture.stream (nth s n) xs[n]? (xs[n]?.map fun _ => xs.drop (n + 1))
  | find {S P α : Type} [Stream S α] [FnMut P α Bool] {s : S} {xs : List α} (p : P) :
    Denotes s xs →
    Answers FindFuture.stream (find s p) (((xs.zip (mapped p xs)).find? Prod.snd).map Prod.fst)
      (behind ((mapped p xs).findIdx? id) xs)
  | findMap {S F α β : Type} [Stream S α] [FnMut F α (Option β)] {s : S} {xs : List α} (f : F) :
    Denotes s xs →
    Answers FindMapFuture.stream (findMap s f) ((mapped f xs).findSome? id)
      (behind ((mapped f xs).findIdx? Option.isSome) xs)
  | all {S P α : Type} [Stream S α] [FnMut P α Bool] {s : S} {xs : List α} (p : P) :
    Denotes s xs →
    Answers AllFuture.stream (all s p) ((mapped p xs).all id)
      (behind ((mapped p xs).findIdx? not) xs)
  | any {S P α : Type} [Stream S α] [FnMut P α Bool] {s : S} {xs : List α} (p : P) :
    Denotes s xs →
    Answers AnyFuture.stream (any s p) ((mapped p xs).any id)
      (behind ((mapped p xs).findIdx? id) xs)
  | tryForEach {S F α ε : Type} [Stream S α] [FnMut F α (Except ε Unit)] {s : S} {xs : List α}
    (f : F) : Denotes s xs →
    Answers TryForEachFuture.stream (tryForEach s f) ((mapped f xs).forM id)
      (behind ((mapped f xs).findIdx? isError) xs)
  | position {S P α : Type} [Stream S α] [FnMut P α Bool] {s : S} {xs : List α} (p : P) :
    Denotes s xs →
    Answers PositionFuture.stream (position s p)
      (((mapped p xs).findIdx? id).map (· % 2 ^ 64)) (behind ((mapped p xs).findIdx? id) xs)

section Lists

variable {S T C F P α β ε : Type}

theorem answer_count (k : Nat) (xs : List α) :
    answer (fun count _ => .ok (none, (count + 1) % 2 ^ 64)) (fun count => .ok (count, count))
      (k % 2 ^ 64) xs = .ok ((k + xs.length) % 2 ^ 64, (k + xs.length) % 2 ^ 64, none) := by
  induction xs generalizing k with
  | nil => rfl
  | cons x xs ih =>
    simp only [answer, Nat.mod_add_mod, ih (k + 1), List.length_cons]
    rw [Nat.add_assoc, Nat.add_comm 1]

theorem answer_extend [Collection C α] (c c' : C) (xs : List α) :
    answer (fun collection e => .ok (none, Collection.extend collection e))
      (fun collection => .ok (collection, c')) c xs =
      .ok (xs.foldl Collection.extend c, c', none) := by
  induction xs generalizing c with
  | nil => rfl
  | cons x xs ih => exact ih (Collection.extend c x)

theorem answer_partition [Collection C α] [FnMut P α Bool] (p : P) (l r : C) (xs : List α) :
    ∃ c, answer
      (fun ((predicate, res) : P × Option (C × C)) v => do
        let res ← unwrap res
        let (left, predicate) := call predicate v
        let res := if left then (Collection.extend res.1 v, res.2)
          else (res.1, Collection.extend res.2 v)
        pure (none, (predicate, some res)))
      (fun (predicate, res) => do
        let res ← unwrap res
        pure (res, (predicate, none))) (p, some (l, r)) xs =
      .ok (((filtered p xs).foldl Collection.extend l,
        (filteredOut p xs).foldl Collection.extend r), c, none) := by
  induction xs generalizing p l r with
  | nil => exact ⟨_, rfl⟩
  | cons x xs ih =>
    rcases hcall : call p x with ⟨_ | _, p'⟩
    · obtain ⟨c, hc⟩ := ih p' l (Collection.extend r x)
      refine ⟨c, ?_⟩
      simp only [answer, unwrap, ok_bind, hcall, filtered, filteredOut, mapped]
      exact hc
    · obtain ⟨c, hc⟩ := ih p' (Collection.extend l x) r
      refine ⟨c, ?_⟩
      simp only [answer, unwrap, ok_bind, hcall, filtered, filteredOut, mapped]
      exact hc

theorem answer_fold [FnMut F (T × α) T] (f : F) (acc : T) (xs : List α) :
    ∃ c, answer
      (fun ((f, acc) : F × Option T) v => do
        let old ← unwrap acc
        let (new, f) := call f (old, v)
        pure (none, (f, some new)))
      (fun (f, acc) => do
        let acc ← unwrap acc
        pure (acc, (f, none))) (f, some acc) xs = .ok (folded f acc xs, c, none) := by
  induction xs generalizing f acc with
  | nil => exact ⟨_, rfl⟩
  | cons x xs ih => exact ih (call f (acc, x)).2 (call f (acc, x)).1

theorem answer_last (c : Option α) (xs : List α) :
    answer (fun _ new => .ok (none, some new)) (fun last => .ok (last, none)) c xs =
      .ok (xs.getLast?.or c, none, none) := by
  induction xs generalizing c with
  | nil => rfl
  | cons x xs ih =>
    refine (ih (some x)).trans ?_
    rw [List.getLast?_cons]
    cases xs.getLast? <;> rfl

theorem answer_forEach [FnMut F α Unit] (f : F) (xs : List α) :
    answer (fun f v => .ok (none, (call f v).2)) (fun f => .ok ((), f)) f xs =
      .ok ((), xs.foldl (fun f x => (call f x).2) f, none) := by
  induction xs generalizing f with
  | nil => rfl
  | cons x xs ih => exact ih (call f x).2

theorem answer_unzip {A B : Type} [Collection A α] [Collection B β] (a : A) (b : B)
    (xs : List (α × β)) :
    answer
      (fun (res : Option (A × B)) (v : α × β) => do
        let res ← unwrap res
        pure (none, some (Collection.extend res.1 v.1, Collection.extend res.2 v.2)))
      (fun res => do
        let res ← unwrap res
        pure (res, none)) (some (a, b)) xs =
      .ok ((xs.unzip.1.foldl Collection.extend a, xs.unzip.2.foldl Collection.extend b), none,
        none) := by
  induction xs generalizing a b with
  | nil => rfl
  | cons x xs ih =>
    rw [List.unzip_cons]
    exact ih (Collection.extend a x.1) (Collection.extend b x.2)

theorem answer_tryCollect [Collection C α] (c c' : C) (xs : List (Except ε α)) :
    ∃ d, answer
      (fun items res => match res with
        | .error e => .ok (some (.error e), items)
        | .ok x => .ok (none, Collection.extend items x))
      (fun items => .ok (.ok items, c')) c xs =
      .ok ((xs.mapM id).map (·.foldl Collection.extend c), d, behind (xs.findIdx? isError) xs) := by
  induction xs generalizing c with
  | nil => exact ⟨_, rfl⟩
  | cons r xs ih =>
    rw [List.mapM_cons, List.findIdx?_cons]
    cases r with
    | error e => exact ⟨c, rfl⟩
    | ok x =>
      obtain ⟨d, hd⟩ := ih (Collection.extend c x)
      refine ⟨d, hd.trans ?_⟩
      simp only [id, ok_bind, isError, Bool.false_eq_true, ↓reduceIte, behind_succ]
      cases xs.mapM id <;> rfl

theorem answer_tryFold [FnMut F (β × α) (Except ε β)] (f : F) (acc : β) (xs : List (Except ε α)) :
    ∃ c, answer
      (fun ((f, acc) : F × Option β) (res : Except ε α) => match res with
        | .error e => .ok (some (.error e), (f, acc))
        | .ok t => do
          let old ← unwrap acc
          match call f (old, t) with
          | (.ok t, f) => pure (none, (f, some t))
          | (.error e, f) => pure (some (.error e), (f, none)))
      (fun (f, acc) => do
        let acc ← unwrap acc
        pure (.ok acc, (f, none))) (f, some acc) xs =
      .ok ((tryFolded f acc xs).1, c, (tryFolded f acc xs).2) := by
  induction xs generalizing f acc with
  | nil => exact ⟨_, rfl⟩
  | cons r xs ih =>
    cases r with
    | error e => exact ⟨_, rfl⟩
    | ok x =>
      rcases hcall : call f (acc, x) with ⟨e | acc', f'⟩
      · exact ⟨(f', none), by simp only [answer, unwrap, ok_bind, hcall, tryFolded]; rfl⟩
      · obtain ⟨c, hc⟩ := ih f' acc'
        refine ⟨c, ?_⟩
        simp only [answer, unwrap, ok_bind, hcall, tryFolded]
        exact hc

theorem answer_nth (n : Nat) (xs : List α) :
    ∃ c, answer
      (fun n v => match n with
        | 0 => .ok (some (some v), 0)
        | n + 1 => .ok (none, n))
      (fun n => .ok (none, n)) n xs =
      .ok (xs[n]?, c, xs[n]?.map fun _ => xs.drop (n + 1)) := by
  induction xs generalizing n with
  | nil => exact ⟨n, rfl⟩
  | cons x xs ih =>
    cases n with
    | zero => exact ⟨0, rfl⟩
    | succ n => exact ih n

theorem answer_position [FnMut P α Bool] (p : P) (k : Nat) (xs : List α) :
    ∃ c, answer
      (fun ((predicate, index) : P × Nat) v => match call predicate v with
        | (true, predicate) => .ok (some (some index), (predicate, index))
        | (false, predicate) => .ok (none, (predicate, (index + 1) % 2 ^ 64)))
      (fun (predicate, index) => .ok (none, (predicate, index))) (p, k % 2 ^ 64) xs =
      .ok (((mapped p xs).findIdx? id).map fun i => (k + i) % 2 ^ 64, c,
        behind ((mapped p xs).findIdx? id) xs) := by
  induction xs generalizing p k with
  | nil => exact ⟨_, rfl⟩
  | cons x xs ih =>
    rcases hcall : call p x with ⟨_ | _, p'⟩
    · obtain ⟨c, hc⟩ := ih p' (k + 1)
      refine ⟨c, ?_⟩
      simp only [answer, mapped, hcall, Nat.mod_add_mod, hc, List.findIdx?_cons, id,
        Bool.false_eq_true, ↓reduceIte, behind_succ, Option.map_map]
      congr 3
      funext i
      simp only [Function.comp, Nat.add_assoc, Nat.add_comm 1]
    · exact ⟨(p', k % 2 ^ 64), by simp [answer, mapped, hcall, List.findIdx?_cons]⟩

/-- The part of the loop that `pollCall` fills in. -/
def answerCall [FnMut F α C] (decide : α → C → Option β) (atEnd : β) :
    F → List α → Except Fault (β × F × Option (List α)) :=
  answer
    (fun f v =>
      let (r, f) := call f v
      .ok (decide v r, f))
    (fun f => .ok (atEnd, f))

/-- The first answer that what the closure returns gives. -/
theorem answerCall_eq [FnMut F α C] (decide : α → C → Option β) (atEnd : β) (f : F)
    (xs : List α) : ∃ f', answerCall decide atEnd f xs =
      .ok (((xs.zip (mapped f xs)).findSome? fun r => decide r.1 r.2).getD atEnd, f',
        behind ((xs.zip (mapped f xs)).findIdx? fun r => (decide r.1 r.2).isSome) xs) := by
  induction xs generalizing f with
  | nil => exact ⟨f, rfl⟩
  | cons x xs ih =>
    obtain ⟨f', hf'⟩ := ih (call f x).2
    rw [mapped, List.zip_cons_cons, List.findSome?_cons, List.findIdx?_cons]
    cases hd : decide x (call f x).1 with
    | none =>
      refine ⟨f', ?_⟩
      simp only [answerCall, answer, hd, Option.isSome_none, Bool.false_eq_true, ↓reduceIte,
        behind_succ]
      exact hf'
    | some b => exact ⟨(call f x).2, by simp [answerCall, answer, hd]⟩

theorem map_snd_zip_mapped [FnMut F α C] (f : F) (xs : List α) :
    (xs.zip (mapped f xs)).map Prod.snd = mapped f xs := by
  induction xs generalizing f with
  | nil => rfl
  | cons x xs ih => exact congrArg ((call f x).1 :: ·) (ih (call f x).2)

/-- The answer does not depend on the item itself. -/
theorem answerCall_mapped [FnMut F α C] (decide : C → Option β) (atEnd : β) (f : F)
    (xs : List α) : ∃ f', answerCall (fun _ => decide) atEnd f xs =
      .ok (((mapped f xs).findSome? decide).getD atEnd, f',
        behind ((mapped f xs).findIdx? fun r => (decide r).isSome) xs) := by
  obtain ⟨f', hf'⟩ := answerCall_eq (fun _ => decide) atEnd f xs
  refine ⟨f', hf'.trans ?_⟩
  have hsome := List.findSome?_map (f := Prod.snd) (p := decide) (l := xs.zip (mapped f xs))
  have hidx := List.findIdx?_map (f := Prod.snd) (p := fun r => (decide r).isSome)
    (l := xs.zip (mapped f xs))
  rw [map_snd_zip_mapped] at hsome hidx
  rw [hsome, hidx]
  rfl

theorem answer_find [FnMut P α Bool] (p : P) (xs : List α) :
    ∃ p', answerCall (fun v found => if found then some (some v) else none) none p xs =
      .ok (((xs.zip (mapped p xs)).find? Prod.snd).map Prod.fst, p',
        behind ((mapped p xs).findIdx? id) xs) := by
  obtain ⟨p', hp'⟩ :=
    answerCall_eq (fun v found => if found then some (some v) else none) none p xs
  refine ⟨p', hp'.trans ?_⟩
  have hfind : ∀ rs : List (α × Bool),
      (rs.findSome? fun r => if r.2 then some (some r.1) else none).getD none =
        (rs.find? Prod.snd).map Prod.fst := by
    intro rs
    induction rs with
    | nil => rfl
    | cons r rs ih => rcases r with ⟨x, _ | _⟩ <;> simp [ih]
  have hidx : ∀ r : α × Bool,
      (if r.2 then some (some r.1) else none : Option (Option α)).isSome = (id ∘ Prod.snd) r := by
    rintro ⟨x, _ | _⟩ <;> rfl
  rw [hfind, funext hidx, ← List.findIdx?_map, map_snd_zip_mapped]

theorem answer_findMap [FnMut F α (Option β)] (f : F) (xs : List α) :
    ∃ f', answerCall (fun _ found => found.map some) none f xs =
      .ok ((mapped f xs).findSome? id, f', behind ((mapped f xs).findIdx? Option.isSome) xs) := by
  obtain ⟨f', hf'⟩ := answerCall_mapped (fun found : Option β => found.map some) none f xs
  refine ⟨f', hf'.trans ?_⟩
  have hfind : ∀ rs : List (Option β),
      (rs.findSome? fun r => r.map some).getD none = rs.findSome? id := by
    intro rs
    induction rs with
    | nil => rfl
    | cons r rs ih => cases r <;> simp [ih]
  simp only [hfind, Option.isSome_map]

theorem answer_all [FnMut P α Bool] (p : P) (xs : List α) :
    ∃ p', answerCall (fun _ holds => if !holds then some false else none) true p xs =
      .ok ((mapped p xs).all id, p', behind ((mapped p xs).findIdx? not) xs) := by
  obtain ⟨p', hp'⟩ :=
    answerCall_mapped (fun holds => if !holds then some false else none) true p xs
  refine ⟨p', hp'.trans ?_⟩
  have hall : ∀ rs : List Bool,
      (rs.findSome? fun r => if !r then some false else none).getD true = rs.all id := by
    intro rs
    induction rs with
    | nil => rfl
    | cons r rs ih =>
      cases r with
      | false => rfl
      | true => exact ih
  have hidx : ∀ r : Bool, (if !r then some false else none : Option Bool).isSome = !r := by decide
  rw [hall, funext hidx]

theorem answer_any [FnMut P α Bool] (p : P) (xs : List α) :
    ∃ p', answerCall (fun _ holds => if holds then some true else none) false p xs =
      .ok ((mapped p xs).any id, p', behind ((mapped p xs).findIdx? id) xs) := by
  obtain ⟨p', hp'⟩ :=
    answerCall_mapped (fun holds => if holds then some true else none) false p xs
  refine ⟨p', hp'.trans ?_⟩
  have hany : ∀ rs : List Bool,
      (rs.findSome? fun r => if r then some true else none).getD false = rs.any id := by
    intro rs
    induction rs with
    | nil => rfl
    | cons r rs ih => cases r <;> simp [ih]
  have hidx : ∀ r : Bool, (if r then some true else none : Option Bool).isSome = id r := by decide
  rw [hany, funext hidx]

theorem answer_tryForEach [FnMut F α (Except ε Unit)] (f : F) (xs : List α) :
    ∃ f', answerCall
      (fun _ (res : Except ε Unit) => match res with
        | .ok () => none
        | .error e => some (.error e)) (.ok ()) f xs =
      .ok ((mapped f xs).forM id, f', behind ((mapped f xs).findIdx? isError) xs) := by
  obtain ⟨f', hf'⟩ := answerCall_mapped
    (fun (res : Except ε Unit) => match res with
      | .ok () => none
      | .error e => some (Except.error (α := Unit) e)) (.ok ()) f xs
  refine ⟨f', hf'.trans ?_⟩
  have hfor : ∀ rs : List (Except ε Unit),
      (rs.findSome? fun res => match res with
        | .ok () => none
        | .error e => some (.error e)).getD (.ok ()) = rs.forM id := by
    intro rs
    induction rs with
    | nil => rfl
    | cons r rs ih =>
      cases r with
      | error e => rfl
      | ok u => exact ih
  have hidx : ∀ r : Except ε Unit,
      (match r with
        | .ok () => none
        | .error e => some (Except.error (α := Unit) e)).isSome = isError r := by
    rintro (_ | _) <;> rfl
  rw [hfor, funext hidx]

end Lists

section Streams

variable {S T C F α β : Type} {s : S} {b : β} {xs : List α} {left : Option (List α)}

/-- The list is what an expression gives, so the loop comes to its answer. -/
theorem Denotes.answers [Stream S α] [StreamFuture T β] {c c' : C}
    {onItem : C → α → Except Fault (Option β × C)} {onEnd : C → Except Fault (β × C)}
    (h : Denotes s xs) (mk : S → C → T) (stream : T → S)
    (hpoll : ∀ fuel s c, StreamFuture.poll fuel (mk s c) = pollAnswer fuel onItem onEnd mk fuel s c)
    (hstream : ∀ s c, stream (mk s c) = s) (hans : answer onItem onEnd c xs = .ok (b, c', left)) :
    ∀ᶠ fuel in Filter.atTop, ∃ t, Completes (StreamFuture.poll fuel) (mk s c) b t ∧
      ∀ ys, left = some ys → Yields (pollNext fuel) (stream t) ys := by
  filter_upwards [h.yields, Filter.eventually_gt_atTop xs.length] with fuel hyields hfuel
  obtain ⟨s', hs', hleft⟩ := completes_pollAnswer (hpoll fuel) hyields hfuel hans
  exact ⟨_, hs', by rwa [hstream]⟩

/-- The closure is called with each item, in order. -/
theorem forEach_calls [Stream S α] [FnMut F α Unit] (h : Denotes s xs) (f : F) :
    ∀ᶠ fuel in Filter.atTop, ∃ s', Completes (StreamFuture.poll fuel) (forEach s f) ()
      (forEach s' (xs.foldl (fun f x => (call f x).2) f)) := by
  filter_upwards [h.yields, Filter.eventually_gt_atTop xs.length] with fuel hyields hfuel
  have hpoll : ∀ (s : S) (f : F), StreamFuture.poll fuel (ForEachFuture.mk s f) =
      pollAnswer fuel (fun f v => .ok (none, (call f v).2)) (fun f => .ok ((), f)) ForEachFuture.mk
        fuel s f := fun _ _ => rfl
  obtain ⟨s', hs', -⟩ := completes_pollAnswer hpoll hyields hfuel (answer_forEach f xs)
  exact ⟨s', hs'⟩

/-- The first poll that is not pending. -/
theorem Denotes.answers_first [Stream S α] [StreamFuture T β] (h : Denotes s xs)
    (f : Option α → β) (mk : S → T) (stream : T → S)
    (hpoll : ∀ fuel s, StreamFuture.poll fuel (mk s) = (pollNext fuel s).map fun
      | (.pending, s) => (.pending, mk s)
      | (.ready item, s) => (.ready (f item), mk s))
    (hstream : ∀ s, stream (mk s) = s) :
    ∀ᶠ fuel in Filter.atTop, ∃ t, Completes (StreamFuture.poll fuel) (mk s) (f xs.head?) t ∧
      ∀ ys, xs.tail? = some ys → Yields (pollNext fuel) (stream t) ys := by
  refine h.yields.mono fun fuel hyields => ?_
  clear h
  induction hyields with
  | done hr => exact ⟨_, .ready (by rw [hpoll, hr]; rfl), nofun⟩
  | item hr hrest =>
    refine ⟨_, .ready (by rw [hpoll, hr]; rfl), ?_⟩
    rintro ys ⟨⟩
    rwa [hstream]
  | pending hr _ ih =>
    obtain ⟨t, ht, hleft⟩ := ih
    exact ⟨t, .pending (by rw [hpoll, hr]; rfl) ht, hleft⟩

end Streams

end Cynthia.Streams
