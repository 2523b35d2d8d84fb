import Cynthia.Future.Stream
import Cynthia.Lib.Outcomes

/-! The futures of `future/future.rs`, and `TimeoutFuture` of `future/timeout.rs`. They are
structures with the fields of the source, so they nest as the types of the source do. What a poll
registers with its waker is left out. -/

namespace Cynthia.Futures

open Polling
open Streams (Future Fault)

section Futures

variable {F1 F2 F D T T1 T2 E : Type}

/-! ## Futures of their own -/

structure Ready (T : Type) where
  val : Option T

def ready (val : T) : Ready T := ⟨some val⟩

instance : Future (Ready T) T where
  poll this :=
    match this.val with
    | some t => .ok (.ready t, ⟨none⟩)
    | none => .error .panicked

structure Pending (T : Type) where

def pending : Pending T := ⟨⟩

instance : Future (Pending T) T where
  poll this := .ok (.pending, this)

structure YieldNow where
  yielded : Bool

def yieldNow : YieldNow := ⟨false⟩

instance : Future YieldNow Unit where
  poll this := if this.yielded then .ok (.ready (), this) else .ok (.pending, ⟨true⟩)

/-! ## Both -/

/-- The poll of one of two futures, if it has no output yet. -/
def pollOutput [Future F T] (future : F) (output : Option T) : Except Fault (F × Option T) :=
  match output with
  | some out => pure (future, some out)
  | none => do
    match ← Future.poll future with
    | (.ready out, future) => pure (future, some out)
    | (.pending, future) => pure (future, none)

structure Zip (F1 F2 T1 T2 : Type) where
  future1 : F1
  output1 : Option T1
  future2 : F2
  output2 : Option T2

def zip [Future F1 T1] [Future F2 T2] (future1 : F1) (future2 : F2) : Zip F1 F2 T1 T2 :=
  ⟨future1, none, future2, none⟩

instance [Future F1 T1] [Future F2 T2] : Future (Zip F1 F2 T1 T2) (T1 × T2) where
  poll this := do
    let (future1, output1) ← pollOutput this.future1 this.output1
    let (future2, output2) ← pollOutput this.future2 this.output2
    match output1, output2 with
    | some out1, some out2 => pure (.ready (out1, out2), ⟨future1, none, future2, none⟩)
    | output1, output2 => pure (.pending, ⟨future1, output1, future2, output2⟩)

/-- The poll of one of two futures that may fail, if it has no output yet; an error is not
kept. -/
def pollTry [Future F (Except E T)] (future : F) (output : Option (Except E T)) :
    Except Fault (F × Except E (Option (Except E T))) :=
  match output with
  | some res => pure (future, .ok (some res))
  | none => do
    match ← Future.poll future with
    | (.ready (.ok t), future) => pure (future, .ok (some (.ok t)))
    | (.ready (.error err), future) => pure (future, .error err)
    | (.pending, future) => pure (future, .ok none)

structure TryZip (F1 F2 T1 T2 E : Type) where
  future1 : F1
  output1 : Option (Except E T1)
  future2 : F2
  output2 : Option (Except E T2)

def tryZip [Future F1 (Except E T1)] [Future F2 (Except E T2)] (future1 : F1) (future2 : F2) :
    TryZip F1 F2 T1 T2 E := ⟨future1, none, future2, none⟩

instance [Future F1 (Except E T1)] [Future F2 (Except E T2)] :
    Future (TryZip F1 F2 T1 T2 E) (Except E (T1 × T2)) where
  poll this := do
    match ← pollTry this.future1 this.output1 with
    | (future1, .error err) => pure (.ready (.error err), { this with future1 })
    | (future1, .ok output1) =>
      match ← pollTry this.future2 this.output2 with
      | (future2, .error err) => pure (.ready (.error err), { this with future1, output1, future2 })
      | (future2, .ok output2) =>
        match output1, output2 with
        | some (.ok t1), some (.ok t2) =>
          pure (.ready (.ok (t1, t2)), ⟨future1, none, future2, none⟩)
        | some _, some _ => .error .panicked
        | output1, output2 => pure (.pending, ⟨future1, output1, future2, output2⟩)

/-! ## Either -/

/-- The first future that is ready when they are polled in this order. -/
def pollOr [Future F1 T] [Future F2 T] (future1 : F1) (future2 : F2) :
    Except Fault (Poll T × F1 × F2) := do
  match ← Future.poll future1 with
  | (.ready t, future1) => pure (.ready t, future1, future2)
  | (.pending, future1) =>
    let (res, future2) ← Future.poll future2
    pure (res, future1, future2)

structure Or (F1 F2 : Type) where
  future1 : F1
  future2 : F2

def or (future1 : F1) (future2 : F2) : Or F1 F2 := ⟨future1, future2⟩

instance [Future F1 T] [Future F2 T] : Future (Or F1 F2) T where
  poll this := do
    let (res, future1, future2) ← pollOr this.future1 this.future2
    pure (res, ⟨future1, future2⟩)

/-- `coins` is what `rander::bool` is going to return. -/
structure Race (F1 F2 : Type) where
  future1 : F1
  future2 : F2
  coins : Nat → Bool

def race (future1 : F1) (future2 : F2) (coins : Nat → Bool) : Race F1 F2 :=
  ⟨future1, future2, coins⟩

instance [Future F1 T] [Future F2 T] : Future (Race F1 F2) T where
  poll this := do
    if this.coins 0 then
      let (res, future1, future2) ← pollOr this.future1 this.future2
      pure (res, ⟨future1, future2, fun n => this.coins (n + 1)⟩)
    else
      let (res, future2, future1) ← pollOr this.future2 this.future1
      pure (res, ⟨future1, future2, fun n => this.coins (n + 1)⟩)

inductive TimeoutError where
  | timedOut
  deriving DecidableEq, Repr

structure TimeoutFuture (F D : Type) where
  future : F
  delay : D

/-- `delay` is the timer. -/
def timeout (future : F) (delay : D) : TimeoutFuture F D := ⟨future, delay⟩

instance [Future F T] [Future D T1] : Future (TimeoutFuture F D) (Except TimeoutError T) where
  poll this := do
    match ← Future.poll this.future with
    | (.ready v, future) => pure (.ready (.ok v), { this with future })
    | (.pending, future) =>
      match ← Future.poll this.delay with
      | (.ready _, delay) => pure (.ready (.error .timedOut), ⟨future, delay⟩)
      | (.pending, delay) => pure (.pending, ⟨future, delay⟩)

/-! ## One future -/

structure PollOnce (F : Type) where
  f : F

def pollOnce (f : F) : PollOnce F := ⟨f⟩

instance [Future F T] : Future (PollOnce F) (Option T) where
  poll this := do
    match ← Future.poll this.f with
    | (.ready t, f) => pure (.ready (some t), ⟨f⟩)
    | (.pending, f) => pure (.ready none, ⟨f⟩)

end Futures

end Cynthia.Futures
