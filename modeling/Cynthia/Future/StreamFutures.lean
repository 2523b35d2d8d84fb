import Cynthia.Future.Stream

/-! The futures of `StreamExt`, `future/stream.rs`: each polls a stream until it has an answer.
Those that borrow the stream leave it to its owner. -/

namespace Cynthia.Streams

open Polling

/-- `trait Future`, for a future that polls a stream. -/
class StreamFuture (Fut : Type) (Output : outParam Type) where
  poll (fuel : Nat) (fut : Fut) : Except Fault (Poll Output × Fut)

/-- `Default + Extend<α>`. Every call of `extend` is with one item. -/
class Collection (C α : Type) where
  default : C
  extend (collection : C) (e : α) : C

/-- `Vec`. -/
instance {α : Type} : Collection (List α) α where
  default := []
  extend collection e := collection ++ [e]

/-- `Option::unwrap`. -/
def unwrap {α : Type} : Option α → Except Fault α
  | some a => .ok a
  | none => .error .panicked

section Futures

variable {S T C F P α β ε : Type}

/-- The loop of the futures: an item is followed by the answer, or changes what the future
keeps. -/
def pollAnswer [Stream S α] (fuel : Nat) (onItem : C → α → Except Fault (Option β × C))
    (onEnd : C → Except Fault (β × C)) (mk : S → C → T) :
    Nat → S → C → Except Fault (Poll β × T)
  | 0, _, _ => .error .diverges
  | n + 1, s, c => do
    match ← pollNext fuel s with
    | (.pending, s) => pure (.pending, mk s c)
    | (.ready none, s) =>
      let (b, c) ← onEnd c
      pure (.ready b, mk s c)
    | (.ready (some v), s) =>
      match ← onItem c v with
      | (some b, c) => pure (.ready b, mk s c)
      | (none, c) => pollAnswer fuel onItem onEnd mk n s c

/-! ## One poll of the stream -/

structure NextFuture (S : Type) where
  stream : S

def next (s : S) : NextFuture S := ⟨s⟩

instance [Stream S α] : StreamFuture (NextFuture S) (Option α) where
  poll fuel this := do
    let (item, stream) ← pollNext fuel this.stream
    pure (item, ⟨stream⟩)

structure TryNextFuture (S : Type) where
  stream : S

def tryNext (s : S) : TryNextFuture S := ⟨s⟩

/-- `Option<Result<T, E>>::transpose`. -/
def transpose : Option (Except ε α) → Except ε (Option α)
  | none => .ok none
  | some (.ok a) => .ok (some a)
  | some (.error e) => .error e

instance [Stream S (Except ε α)] : StreamFuture (TryNextFuture S) (Except ε (Option α)) where
  poll fuel this := do
    match ← pollNext fuel this.stream with
    | (.pending, stream) => pure (.pending, ⟨stream⟩)
    | (.ready res, stream) => pure (.ready (transpose res), ⟨stream⟩)

/-! ## Answers at the end of the stream -/

structure CountFuture (S : Type) where
  stream : S
  count : Nat

def count (s : S) : CountFuture S := ⟨s, 0⟩

/-- The counter is a `usize` and wraps, as it does in a release build. -/
instance [Stream S α] : StreamFuture (CountFuture S) Nat where
  poll fuel this :=
    pollAnswer fuel (fun count _ => .ok (none, (count + 1) % 2 ^ 64)) (fun count => .ok (count, count))
      CountFuture.mk fuel this.stream this.count

structure CollectFuture (S C : Type) where
  stream : S
  collection : C

def collect [Stream S α] [Collection C α] (s : S) : CollectFuture S C :=
  ⟨s, Collection.default α⟩

instance [Stream S α] [Collection C α] : StreamFuture (CollectFuture S C) C where
  poll fuel this :=
    pollAnswer fuel (fun collection e => .ok (none, Collection.extend collection e))
      (fun collection => .ok (collection, Collection.default α)) CollectFuture.mk fuel this.stream
      this.collection

structure PartitionFuture (S P B : Type) where
  stream : S
  predicate : P
  res : Option (B × B)

def partition [Stream S α] [Collection C α] (s : S) (predicate : P) : PartitionFuture S P C :=
  ⟨s, predicate, some (Collection.default α, Collection.default α)⟩

instance [Stream S α] [Collection C α] [FnMut P α Bool] :
    StreamFuture (PartitionFuture S P C) (C × C) where
  poll fuel this :=
    pollAnswer fuel
      (fun (predicate, res) v => do
        let res ← unwrap res
        let (left, predicate) := call predicate v
        let res := if left then (Collection.extend res.1 v, res.2)
          else (res.1, Collection.extend res.2 v)
        pure (none, (predicate, some res)))
      (fun (predicate, res) => do
        let res ← unwrap res
        pure (res, (predicate, none)))
      (fun stream (predicate, res) => ⟨stream, predicate, res⟩) fuel this.stream
      (this.predicate, this.res)

structure FoldFuture (S F T : Type) where
  stream : S
  f : F
  acc : Option T

def fold (s : S) (init : T) (f : F) : FoldFuture S F T := ⟨s, f, some init⟩

instance [Stream S α] [FnMut F (T × α) T] : StreamFuture (FoldFuture S F T) T where
  poll fuel this :=
    pollAnswer fuel
      (fun (f, acc) v => do
        let old ← unwrap acc
        let (new, f) := call f (old, v)
        pure (none, (f, some new)))
      (fun (f, acc) => do
        let acc ← unwrap acc
        pure (acc, (f, none)))
      (fun stream (f, acc) => ⟨stream, f, acc⟩) fuel this.stream (this.f, this.acc)

structure LastFuture (S α : Type) where
  stream : S
  last : Option α

def last [Stream S α] (s : S) : LastFuture S α := ⟨s, none⟩

instance [Stream S α] : StreamFuture (LastFuture S α) (Option α) where
  poll fuel this :=
    pollAnswer fuel (fun _ new => .ok (none, some new)) (fun last => .ok (last, none))
      LastFuture.mk fuel this.stream this.last

structure ForEachFuture (S F : Type) where
  stream : S
  f : F

def forEach (s : S) (f : F) : ForEachFuture S F := ⟨s, f⟩

instance [Stream S α] [FnMut F α Unit] : StreamFuture (ForEachFuture S F) Unit where
  poll fuel this :=
    pollAnswer fuel (fun f v => .ok (none, (call f v).2)) (fun f => .ok ((), f)) ForEachFuture.mk
      fuel this.stream this.f

structure UnzipFuture (S A B : Type) where
  stream : S
  res : Option (A × B)

def unzip {A B : Type} [Stream S (α × β)] [Collection A α] [Collection B β] (s : S) :
    UnzipFuture S A B :=
  ⟨s, some (Collection.default α, Collection.default β)⟩

instance {A B : Type} [Stream S (α × β)] [Collection A α] [Collection B β] :
    StreamFuture (UnzipFuture S A B) (A × B) where
  poll fuel this :=
    pollAnswer fuel
      (fun res (a, b) => do
        let res ← unwrap res
        pure (none, some (Collection.extend res.1 a, Collection.extend res.2 b)))
      (fun res => do
        let res ← unwrap res
        pure (res, none))
      UnzipFuture.mk fuel this.stream this.res

/-! ## Answers before the end -/

structure TryCollectFuture (S C : Type) where
  stream : S
  items : C

def tryCollect [Stream S (Except ε α)] [Collection C α] (s : S) : TryCollectFuture S C :=
  ⟨s, Collection.default α⟩

instance [Stream S (Except ε α)] [Collection C α] :
    StreamFuture (TryCollectFuture S C) (Except ε C) where
  poll fuel this :=
    pollAnswer fuel
      (fun items res => match res with
        | .error e => .ok (some (.error e), items)
        | .ok x => .ok (none, Collection.extend items x))
      (fun items => .ok (.ok items, Collection.default α)) TryCollectFuture.mk fuel this.stream
      this.items

structure TryFoldFuture (S F B : Type) where
  stream : S
  f : F
  acc : Option B

def tryFold (s : S) (init : β) (f : F) : TryFoldFuture S F β := ⟨s, f, some init⟩

instance [Stream S (Except ε α)] [FnMut F (β × α) (Except ε β)] :
    StreamFuture (TryFoldFuture S F β) (Except ε β) where
  poll fuel this :=
    pollAnswer fuel
      (fun (f, acc) res => match res with
        | .error e => .ok (some (.error e), (f, acc))
        | .ok t => do
          let old ← unwrap acc
          match call f (old, t) with
          | (.ok t, f) => pure (none, (f, some t))
          | (.error e, f) => pure (some (.error e), (f, none)))
      (fun (f, acc) => do
        let acc ← unwrap acc
        pure (.ok acc, (f, none)))
      (fun stream (f, acc) => ⟨stream, f, acc⟩) fuel this.stream (this.f, this.acc)

structure NthFuture (S : Type) where
  stream : S
  n : Nat

def nth (s : S) (n : Nat) : NthFuture S := ⟨s, n⟩

instance [Stream S α] : StreamFuture (NthFuture S) (Option α) where
  poll fuel this :=
    pollAnswer fuel
      (fun n v => match n with
        | 0 => .ok (some (some v), 0)
        | n + 1 => .ok (none, n))
      (fun n => .ok (none, n)) NthFuture.mk fuel this.stream this.n

/-- The loop of the futures that call a closure with every item: `decide` makes the answer
from what the closure returns. -/
def pollCall [Stream S α] [FnMut F α C] (fuel : Nat) (decide : α → C → Option β) (atEnd : β)
    (mk : S → F → T) : S → F → Except Fault (Poll β × T) :=
  pollAnswer fuel
    (fun f v =>
      let (r, f) := call f v
      .ok (decide v r, f))
    (fun f => .ok (atEnd, f)) mk fuel

structure FindFuture (S P : Type) where
  stream : S
  predicate : P

def find (s : S) (predicate : P) : FindFuture S P := ⟨s, predicate⟩

instance [Stream S α] [FnMut P α Bool] : StreamFuture (FindFuture S P) (Option α) where
  poll fuel this :=
    pollCall fuel (fun v found => if found then some (some v) else none) none FindFuture.mk
      this.stream this.predicate

structure FindMapFuture (S F : Type) where
  stream : S
  f : F

def findMap (s : S) (f : F) : FindMapFuture S F := ⟨s, f⟩

instance [Stream S α] [FnMut F α (Option β)] : StreamFuture (FindMapFuture S F) (Option β) where
  poll fuel this :=
    pollCall fuel (fun _ found => found.map some) none FindMapFuture.mk this.stream this.f

structure AllFuture (S P : Type) where
  stream : S
  predicate : P

def all (s : S) (predicate : P) : AllFuture S P := ⟨s, predicate⟩

instance [Stream S α] [FnMut P α Bool] : StreamFuture (AllFuture S P) Bool where
  poll fuel this :=
    pollCall fuel (fun _ holds => if !holds then some false else none) true AllFuture.mk this.stream
      this.predicate

structure AnyFuture (S P : Type) where
  stream : S
  predicate : P

def any (s : S) (predicate : P) : AnyFuture S P := ⟨s, predicate⟩

instance [Stream S α] [FnMut P α Bool] : StreamFuture (AnyFuture S P) Bool where
  poll fuel this :=
    pollCall fuel (fun _ holds => if holds then some true else none) false AnyFuture.mk this.stream
      this.predicate

structure TryForEachFuture (S F : Type) where
  stream : S
  f : F

def tryForEach (s : S) (f : F) : TryForEachFuture S F := ⟨s, f⟩

instance [Stream S α] [FnMut F α (Except ε Unit)] :
    StreamFuture (TryForEachFuture S F) (Except ε Unit) where
  poll fuel this :=
    pollCall fuel
      (fun _ res => match res with
        | .ok () => none
        | .error e => some (.error e))
      (.ok ()) TryForEachFuture.mk this.stream this.f

structure PositionFuture (S P : Type) where
  stream : S
  predicate : P
  index : Nat

def position (s : S) (predicate : P) : PositionFuture S P := ⟨s, predicate, 0⟩

/-- The index is a `usize` and wraps, as it does in a release build. -/
instance [Stream S α] [FnMut P α Bool] : StreamFuture (PositionFuture S P) (Option Nat) where
  poll fuel this :=
    pollAnswer fuel
      (fun (predicate, index) v => match call predicate v with
        | (true, predicate) => .ok (some (some index), (predicate, index))
        | (false, predicate) => .ok (none, (predicate, (index + 1) % 2 ^ 64)))
      (fun (predicate, index) => .ok (none, (predicate, index)))
      (fun stream (predicate, index) => ⟨stream, predicate, index⟩) fuel this.stream
      (this.predicate, this.index)

end Futures

end Cynthia.Streams
