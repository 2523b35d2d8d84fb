import Cynthia.Lib.Polling
import Mathlib.Algebra.Group.Nat.Defs

/-! The stream adapters, `future/stream.rs`. The traits are classes and the adapters are
structures with the fields of the source, so they nest as the types of the source do.
A loop is given fuel. What a poll registers with its waker is left out. -/

namespace Cynthia.Streams

open Polling

/-- Why a poll does not return. -/
inductive Fault where
  /-- A loop has gone round more often than its fuel allows. -/
  | diverges
  /-- A stream is polled after it has returned `None`, or a future after its output. -/
  | exhausted
  | panicked
  deriving DecidableEq, Repr

/-- `trait Stream`. -/
class Stream (S : Type) (Item : outParam Type) where
  pollNext (fuel : Nat) (s : S) : Except Fault (Poll (Option Item) × S)

/-- `trait Future`. -/
class Future (Fut : Type) (Output : outParam Type) where
  poll (fut : Fut) : Except Fault (Poll Output × Fut)

/-- `trait FnMut`: a call may change what the closure has captured. -/
class FnMut (F Arg : Type) (Output : outParam Type) where
  call (f : F) (a : Arg) : Output × F

export Stream (pollNext)

export FnMut (call)

/-- A closure that captures nothing it changes. -/
instance {α β : Type} : FnMut (α → β) α β where
  call f a := (f a, f)

/-! ## Sources -/

/-- A stream that somebody else has written: what it answers to each poll, where `none` is
`Pending`, and then `None`. -/
structure Source (α : Type) where
  script : List (Option α)
  ended : Bool
  deriving DecidableEq, Repr

def source {α : Type} (script : List (Option α)) : Source α := ⟨script, false⟩

instance {α : Type} : Stream (Source α) α where
  pollNext _ s := match s.script with
    | none :: script => .ok (.pending, { s with script })
    | some a :: script => .ok (.ready (some a), { s with script })
    | [] => if s.ended then .error .exhausted else .ok (.ready none, { s with ended := true })

/-- A future that somebody else has written: it is pending `left` times. -/
structure Delay (β : Type) where
  left : Nat
  output : β
  ended : Bool
  deriving DecidableEq, Repr

def delay {β : Type} (left : Nat) (output : β) : Delay β := ⟨left, output, false⟩

instance {β : Type} : Future (Delay β) β where
  poll fut := match fut.left with
    | left + 1 => .ok (.pending, { fut with left })
    | 0 => if fut.ended then .error .exhausted
      else .ok (.ready fut.output, { fut with ended := true })

/-! ## One poll of the stream -/

section Adapters

variable {S U T C F P Fut St α β : Type}

/-- The adapters that poll their stream once: an item becomes an item or the end. `c` is
what the adapter keeps, and `mk` puts it together again. -/
def pollOnce [Stream S α] (fuel : Nat) (f : C → α → Option β × C) (mk : S → C → T) (s : S) (c : C) :
    Except Fault (Poll (Option β) × T) := do
  match ← pollNext fuel s with
  | (.pending, s) => pure (.pending, mk s c)
  | (.ready none, s) => pure (.ready none, mk s c)
  | (.ready (some v), s) =>
    let (next, c) := f c v
    pure (.ready next, mk s c)

structure Map (S F : Type) where
  stream : S
  f : F

def map (s : S) (f : F) : Map S F := ⟨s, f⟩

instance [Stream S α] [FnMut F α β] : Stream (Map S F) β where
  pollNext fuel this :=
    pollOnce fuel (fun f v =>
      let (item, f) := call f v
      (some item, f)) Map.mk this.stream this.f

structure Inspect (S F : Type) where
  stream : S
  f : F

def inspect (s : S) (f : F) : Inspect S F := ⟨s, f⟩

instance [Stream S α] [FnMut F α Unit] : Stream (Inspect S F) α where
  pollNext fuel this :=
    pollOnce fuel (fun f v => (some v, (call f v).2)) Inspect.mk this.stream this.f

structure Enumerate (S : Type) where
  stream : S
  i : Nat

def enumerate (s : S) : Enumerate S := ⟨s, 0⟩

/-- The counter is a `usize` and wraps, as it does in a release build. -/
instance [Stream S α] : Stream (Enumerate S) (Nat × α) where
  pollNext fuel this :=
    pollOnce fuel (fun i v => (some (i, v), (i + 1) % 2 ^ 64)) Enumerate.mk this.stream this.i

structure Scan (S St F : Type) where
  stream : S
  stateF : St × F

def scan (s : S) (initialState : St) (f : F) : Scan S St F := ⟨s, (initialState, f)⟩

/-- `FnMut(&mut St, S::Item) -> Option<B>` returns the new state beside its result. -/
def Scan.next [FnMut F (St × α) (Option β × St)] (stateF : St × F) (v : α) :
    Option β × St × F :=
  let ((item, state), f) := call stateF.2 (stateF.1, v)
  (item, (state, f))

instance [Stream S α] [FnMut F (St × α) (Option β × St)] : Stream (Scan S St F) β where
  pollNext fuel this := pollOnce fuel Scan.next Scan.mk this.stream this.stateF

/-- The item, if the predicate holds of it. -/
def keepIf [FnMut P α Bool] (p : P) (v : α) : Option α × P :=
  let (keep, p) := call p v
  (if keep then some v else none, p)

structure TakeWhile (S P : Type) where
  stream : S
  predicate : P

def takeWhile (s : S) (predicate : P) : TakeWhile S P := ⟨s, predicate⟩

instance [Stream S α] [FnMut P α Bool] : Stream (TakeWhile S P) α where
  pollNext fuel this := pollOnce fuel keepIf TakeWhile.mk this.stream this.predicate

structure Take (S : Type) where
  stream : S
  n : Nat

def take (s : S) (n : Nat) : Take S := ⟨s, n⟩

instance [Stream S α] : Stream (Take S) α where
  pollNext fuel this :=
    if this.n = 0 then .ok (.ready none, this)
    else do
      match ← pollNext fuel this.stream with
      | (.pending, stream) => pure (.pending, { this with stream })
      | (.ready none, stream) => pure (.ready none, ⟨stream, 0⟩)
      | (.ready (some v), stream) => pure (.ready (some v), ⟨stream, this.n - 1⟩)

structure Fuse (S : Type) where
  stream : S
  done : Bool

def fuse (s : S) : Fuse S := ⟨s, false⟩

instance [Stream S α] : Stream (Fuse S) α where
  pollNext fuel this :=
    if this.done then .ok (.ready none, this)
    else do
      match ← pollNext fuel this.stream with
      | (.pending, stream) => pure (.pending, { this with stream })
      | (.ready none, stream) => pure (.ready none, ⟨stream, true⟩)
      | (.ready (some v), stream) => pure (.ready (some v), { this with stream })

/-! ## Loops over the stream -/

/-- The adapters that poll their stream until they keep an item. -/
def pollUntil [Stream S α] (fuel : Nat) (f : C → α → Option β × C) (mk : S → C → T) :
    Nat → S → C → Except Fault (Poll (Option β) × T)
  | 0, _, _ => .error .diverges
  | n + 1, s, c => do
    match ← pollNext fuel s with
    | (.pending, s) => pure (.pending, mk s c)
    | (.ready none, s) => pure (.ready none, mk s c)
    | (.ready (some v), s) =>
      match f c v with
      | (some item, c) => pure (.ready (some item), mk s c)
      | (none, c) => pollUntil fuel f mk n s c

structure Filter (S P : Type) where
  stream : S
  predicate : P

def filter (s : S) (predicate : P) : Filter S P := ⟨s, predicate⟩

instance [Stream S α] [FnMut P α Bool] : Stream (Filter S P) α where
  pollNext fuel this := pollUntil fuel keepIf Filter.mk fuel this.stream this.predicate

structure FilterMap (S F : Type) where
  stream : S
  f : F

def filterMap (s : S) (f : F) : FilterMap S F := ⟨s, f⟩

instance [Stream S α] [FnMut F α (Option β)] : Stream (FilterMap S F) β where
  pollNext fuel this := pollUntil fuel call FilterMap.mk fuel this.stream this.f

structure Skip (S : Type) where
  stream : S
  n : Nat

def skip (s : S) (n : Nat) : Skip S := ⟨s, n⟩

def Skip.keep (n : Nat) (v : α) : Option α × Nat :=
  match n with
  | 0 => (some v, 0)
  | n + 1 => (none, n)

instance [Stream S α] : Stream (Skip S) α where
  pollNext fuel this := pollUntil fuel Skip.keep Skip.mk fuel this.stream this.n

structure SkipWhile (S P : Type) where
  stream : S
  predicate : Option P

def skipWhile (s : S) (predicate : P) : SkipWhile S P := ⟨s, some predicate⟩

def SkipWhile.keep [FnMut P α Bool] (predicate : Option P) (v : α) : Option α × Option P :=
  match predicate with
  | some p =>
    let (skips, p) := call p v
    if skips then (none, some p) else (some v, none)
  | none => (some v, none)

instance [Stream S α] [FnMut P α Bool] : Stream (SkipWhile S P) α where
  pollNext fuel this :=
    pollUntil fuel SkipWhile.keep SkipWhile.mk fuel this.stream this.predicate

structure StepBy (S : Type) where
  stream : S
  step : Nat
  step_pos : step > 0
  i : Nat

/-- The assertion is the proof that the structure asks for. -/
def stepBy (s : S) (step : Nat) : Except Fault (StepBy S) :=
  if h : step > 0 then .ok ⟨s, step, h, 0⟩ else .error .panicked

def StepBy.keep (step i : Nat) (v : α) : Option α × Nat :=
  if i = 0 then (some v, step - 1) else (none, i - 1)

instance [Stream S α] : Stream (StepBy S) α where
  pollNext fuel this :=
    pollUntil fuel (StepBy.keep this.step) (StepBy.mk · this.step this.step_pos ·) fuel this.stream
      this.i

/-! ## Several streams -/

structure Chain (S U : Type) where
  first : Fuse S
  second : Fuse U

def chain (s : S) (other : U) : Chain S U := ⟨fuse s, fuse other⟩

/-- What is left of a poll when the first stream has no item for it. -/
def Chain.pollSecond [Stream U α] (fuel : Nat) (this : Chain S U) :
    Except Fault (Poll (Option α) × Chain S U) := do
  if this.second.done then
    pure (if this.first.done && this.second.done then .ready none else .pending, this)
  else
    match ← pollNext fuel this.second with
    | (.pending, second) => pure (.pending, { this with second })
    | (.ready (some next), second) => pure (.ready (some next), { this with second })
    | (.ready none, second) =>
      pure (if this.first.done && second.done then .ready none else .pending, { this with second })

instance [Stream S α] [Stream U α] : Stream (Chain S U) α where
  pollNext fuel this :=
    if this.first.done then this.pollSecond fuel
    else do
      match ← pollNext fuel this.first with
      | (.pending, first) => pure (.pending, { this with first })
      | (.ready (some next), first) => pure (.ready (some next), { this with first })
      | (.ready none, first) => Chain.pollSecond fuel { this with first }

structure Zip (S U Item : Type) where
  itemSlot : Option Item
  first : S
  second : U

def zip [Stream S α] (s : S) (other : U) : Zip S U α := ⟨none, s, other⟩

def Zip.pollSecond [Stream U β] (fuel : Nat) (this : Zip S U α) :
    Except Fault (Poll (Option (α × β)) × Zip S U α) := do
  match ← pollNext fuel this.second with
  | (.pending, second) => pure (.pending, { this with second })
  | (.ready secondItem, second) =>
    match this.itemSlot with
    | none => .error .panicked
    | some firstItem =>
      pure (.ready (secondItem.map fun secondItem => (firstItem, secondItem)),
        ⟨none, this.first, second⟩)

instance [Stream S α] [Stream U β] : Stream (Zip S U α) (α × β) where
  pollNext fuel this :=
    if this.itemSlot.isNone then do
      match ← pollNext fuel this.first with
      | (.pending, first) => pure (.pending, { this with first })
      | (.ready none, first) => pure (.ready none, { this with first })
      | (.ready (some item), first) => Zip.pollSecond fuel ⟨some item, first, this.second⟩
    else this.pollSecond fuel

/-- The loop of `FlatMap` and of `Flatten`. -/
def pollInner [Stream S U] [Stream U β] (fuel : Nat) (mk : S → Option U → T) :
    Nat → S → Option U → Except Fault (Poll (Option β) × T)
  | 0, _, _ => .error .diverges
  | n + 1, stream, innerStream =>
    let pollOuter : Except Fault (Poll (Option β) × T) := do
      match ← pollNext fuel stream with
      | (.pending, stream) => pure (.pending, mk stream none)
      | (.ready none, stream) => pure (.ready none, mk stream none)
      | (.ready (some inner), stream) => pollInner fuel mk n stream (some inner)
    match innerStream with
    | none => pollOuter
    | some inner => do
      match ← pollNext fuel inner with
      | (.pending, inner) => pure (.pending, mk stream (some inner))
      | (.ready (some item), inner) => pure (.ready (some item), mk stream (some inner))
      | (.ready none, _) => pollOuter

structure FlatMap (S U F : Type) where
  stream : Map S F
  innerStream : Option U

def flatMap [Stream S α] [FnMut F α U] (s : S) (f : F) : FlatMap S U F := ⟨map s f, none⟩

instance [Stream S α] [FnMut F α U] [Stream U β] : Stream (FlatMap S U F) β where
  pollNext fuel this := pollInner fuel FlatMap.mk fuel this.stream this.innerStream

structure Flatten (S U : Type) where
  stream : S
  innerStream : Option U

def flatten [Stream S U] (s : S) : Flatten S U := ⟨s, none⟩

instance [Stream S U] [Stream U β] : Stream (Flatten S U) β where
  pollNext fuel this := pollInner fuel Flatten.mk fuel this.stream this.innerStream

structure Then (S F Fut : Type) where
  stream : S
  future : Option Fut
  f : F

def «then» [Stream S α] [FnMut F α Fut] (s : S) (f : F) : Then S F Fut := ⟨s, none, f⟩

def Then.loop [Stream S α] [FnMut F α Fut] [Future Fut β] (fuel : Nat) :
    Nat → Then S F Fut → Except Fault (Poll (Option β) × Then S F Fut)
  | 0, _ => .error .diverges
  | n + 1, this => do
    match this.future with
    | some fut =>
      match ← Future.poll fut with
      | (.pending, fut) => pure (.pending, { this with future := some fut })
      | (.ready item, _) => pure (.ready (some item), { this with future := none })
    | none =>
      match ← pollNext fuel this.stream with
      | (.pending, stream) => pure (.pending, { this with stream })
      | (.ready none, stream) => pure (.ready none, { this with stream })
      | (.ready (some item), stream) =>
        let (fut, f) := call this.f item
        loop fuel n ⟨stream, some fut, f⟩

instance [Stream S α] [FnMut F α Fut] [Future Fut β] : Stream (Then S F Fut) β where
  pollNext fuel this := this.loop fuel fuel

end Adapters

end Cynthia.Streams
