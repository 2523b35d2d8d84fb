import Cynthia.Lib.Ring
import Cynthia.Lib.Transition
import Mathlib.Data.List.TakeDrop

/-! The byte pipe of `runtime/blocking/blocking.rs`: `pipe`, `Reader::drain`,
`Writer::fill` and the two `Drop` implementations, at the granularity of their
atomic loads and stores. `AtomicWaker` is a slot with atomic `register`, `take`
and `wake`; the answer of `dest.write`, the data of `src.read` and the random
choice of `maybe_yield` are carried by the labels. -/

namespace Cynthia.Blocking

open Transition

abbrev Waker := Nat
abbrev IoError := Nat

inductive Poll (α : Type) where
  | pending
  | ready (a : α)
  deriving DecidableEq, Repr

/-- `Pipe`. `none` in the buffer is memory that was never written. -/
structure Pipe where
  head : Nat
  tail : Nat
  reader : Option Waker
  writer : Option Waker
  closed : Bool
  buffer : Nat → Option UInt8
  cap : Nat

structure Reader where
  head : Nat
  tail : Nat
  deriving DecidableEq

structure Writer where
  head : Nat
  tail : Nat
  zeroedUntil : Nat
  deriving DecidableEq

/-- Program points of the reading side, each before one shared access. -/
inductive DrainPc where
  | idle | load | register | reload | loadClosed | take | maybeYield
  | write (count : Nat)
  | storeHead (count : Nat)
  | wakeWriter (count : Nat)
  | close | closeWake | dropped
  deriving DecidableEq, Repr

/-- Program points of the writing side. `data` is what the last `src.read` put
into the buffer and `fill` has not published yet. -/
inductive FillPc where
  | idle | loadClosed | load | register | reload | loadClosedFull | take | maybeYield
  | read (count : Nat)
  | checkClosed (count : Nat) (data : List UInt8)
  | storeTail (count : Nat) (data : List UInt8)
  | wakeReader (count : Nat)
  | close | closeWake | dropped
  deriving DecidableEq, Repr

/-- The pipe with its two ends. The last six fields are history: the bytes
stored into `tail` so far, the bytes accepted by destinations so far, the number
of bytes given back by `head` stores, how far each end has seen the other, and
whether the destination of the last `drain` answered `0` to a slice with bytes. -/
structure State where
  pipe : Pipe
  r : Reader
  rpc : DrainPc
  rcx : Waker
  rret : Option (Poll (Except IoError Nat))
  w : Writer
  wpc : FillPc
  wcx : Waker
  wret : Option (Poll (Except IoError Nat))
  published : List UInt8
  handed : List (Option UInt8)
  freed : Nat
  tailSeen : Nat
  headSeen : Nat
  refused : Bool

/-- A capacity that passes the two assertions of `pipe`. -/
structure Capacity where
  val : Nat
  pos : 0 < val
  fits : 2 * val < 2 ^ 64

def pipe (cap : Capacity) : State where
  pipe := ⟨0, 0, none, none, false, fun _ => none, cap.val⟩
  r := ⟨0, 0⟩
  rpc := .idle
  rcx := 0
  rret := none
  w := ⟨0, 0, 0⟩
  wpc := .idle
  wcx := 0
  wret := none
  published := []
  handed := []
  freed := 0
  tailSeen := 0
  headSeen := 0
  refused := false

def distance (cap a b : Nat) : Nat := if a ≤ b then b - a else 2 * cap - (a - b)

def realIndex (cap i : Nat) : Nat := if i < cap then i else i - cap

def slice (buffer : Nat → Option UInt8) (start n : Nat) : List (Option UInt8) :=
  (List.range n).map fun i => buffer (start + i)

/-- `write_bytes(0u8, to - from)` at `from`. -/
def zero (buffer : Nat → Option UInt8) (start stop : Nat) : Nat → Option UInt8 := fun i =>
  if start ≤ i ∧ i < stop then some 0 else buffer i

def store (buffer : Nat → Option UInt8) (start : Nat) (data : List UInt8) : Nat → Option UInt8 :=
  fun i => if start ≤ i ∧ i < start + data.length then data[i - start]? else buffer i

/-- Advance a local index by `n`, back to `0` at the end of the second lap. -/
def advance (cap i n : Nat) : Nat := if i + n < 2 * cap then i + n else 0

/-- Length of the slice that `drain` offers to its destination. -/
def offered (s : State) : Nat :=
  min (min (128 * 1024) (distance s.pipe.cap s.r.head s.r.tail))
    (s.pipe.cap - realIndex s.pipe.cap s.r.head)

/-- Length of the slice that `fill` passes to its source. -/
def requested (s : State) : Nat :=
  min (min (min (128 * 1024) (s.w.zeroedUntil * 2 + 4096))
    (s.pipe.cap - distance s.pipe.cap s.w.head s.w.tail))
    (s.pipe.cap - realIndex s.pipe.cap s.w.tail)

inductive Act where
  | drain (cx : Waker)
  | readerStep
  | readerYield (yields : Bool)
  | destWrite (res : Except IoError Nat)
  | dropReader
  | fill (cx : Waker)
  | writerStep
  | writerYield (yields : Bool)
  | srcRead (res : Except IoError (List UInt8))
  | dropWriter
  deriving DecidableEq

def returnR (s : State) (res : Poll (Except IoError Nat)) : State :=
  { s with rpc := .idle, rret := some res }

def returnW (s : State) (res : Poll (Except IoError Nat)) : State :=
  { s with wpc := .idle, wret := some res }

/-- `self.tail = self.inner.tail.load(..)`. -/
def loadTail (s : State) : State :=
  { s with r := { s.r with tail := s.pipe.tail }, tailSeen := s.published.length }

/-- `self.head = self.inner.head.load(..)`. -/
def loadHead (s : State) : State :=
  { s with w := { s.w with head := s.pipe.head }, headSeen := s.freed }

def empty (s : State) : Prop := distance s.pipe.cap s.r.head s.r.tail = 0

def full (s : State) : Prop := distance s.pipe.cap s.w.head s.w.tail = s.pipe.cap

instance (s : State) : Decidable (empty s) := inferInstanceAs (Decidable (_ = _))
instance (s : State) : Decidable (full s) := inferInstanceAs (Decidable (_ = _))

/-- One step of `Reader::drain` or of `Drop for Reader` that needs no answer. -/
def readerStep (s : State) : Option State :=
  match s.rpc with
  | .load =>
    if empty s then
      let s := loadTail s
      some { s with rpc := if empty s then .register else .take }
    else some { s with rpc := .take }
  | .register => some { s with pipe := { s.pipe with reader := some s.rcx }, rpc := .reload }
  | .reload =>
    let s := loadTail s
    some { s with rpc := if empty s then .loadClosed else .take }
  | .loadClosed => some (returnR s (if s.pipe.closed then .ready (.ok 0) else .pending))
  | .take => some { s with pipe := { s.pipe with reader := none }, rpc := .maybeYield }
  | .storeHead count =>
    some { s with pipe := { s.pipe with head := s.r.head }, rpc := .wakeWriter count,
                  freed := s.handed.length }
  | .wakeWriter count => some { s with pipe := { s.pipe with writer := none }, rpc := .write count }
  | .close => some { s with pipe := { s.pipe with closed := true }, rpc := .closeWake }
  | .closeWake => some { s with pipe := { s.pipe with writer := none }, rpc := .dropped }
  | _ => none

/-- The body of the copy loop of `drain`, given the answer of `dest.write`. -/
def destWrite (s : State) (res : Except IoError Nat) : Option State :=
  match s.rpc with
  | .write count =>
    match res with
    | .error e => some (returnR s (.ready (.error e)))
    | .ok n =>
      if n ≤ offered s then
        if n = 0 then
          some { returnR s (.ready (.ok (count + n))) with refused := decide (0 < offered s) }
        else some { s with
          r := { s.r with head := advance s.pipe.cap s.r.head n }
          rpc := .storeHead (count + n)
          handed := s.handed ++
            (slice s.pipe.buffer (realIndex s.pipe.cap s.r.head) (offered s)).take n }
      else none
  | _ => none

/-- One step of `Writer::fill` or of `Drop for Writer` that needs no answer. -/
def writerStep (s : State) : Option State :=
  match s.wpc with
  | .loadClosed =>
    if s.pipe.closed then some (returnW s (.ready (.ok 0))) else some { s with wpc := .load }
  | .load =>
    if full s then
      let s := loadHead s
      some { s with wpc := if full s then .register else .take }
    else some { s with wpc := .take }
  | .register => some { s with pipe := { s.pipe with writer := some s.wcx }, wpc := .reload }
  | .reload =>
    let s := loadHead s
    some { s with wpc := if full s then .loadClosedFull else .take }
  | .loadClosedFull => some (returnW s (if s.pipe.closed then .ready (.ok 0) else .pending))
  | .take => some { s with pipe := { s.pipe with writer := none }, wpc := .maybeYield }
  | .checkClosed count data =>
    if s.pipe.closed then some (returnW s (.ready (.ok count)))
    else some { s with w := { s.w with tail := advance s.pipe.cap s.w.tail data.length }
                       wpc := .storeTail count data }
  | .storeTail count data =>
    some { s with pipe := { s.pipe with tail := s.w.tail }, wpc := .wakeReader count,
                  published := s.published ++ data }
  | .wakeReader count => some { s with pipe := { s.pipe with reader := none }, wpc := .read count }
  | .close => some { s with pipe := { s.pipe with closed := true }, wpc := .closeWake }
  | .closeWake => some { s with pipe := { s.pipe with reader := none }, wpc := .dropped }
  | _ => none

/-- Where the slice that `fill` passes to its source ends. -/
def sliceEnd (s : State) : Nat := realIndex s.pipe.cap s.w.tail + requested s

/-- Zero the part of the slice that was never written. -/
def zeroSlice (s : State) : State :=
  if s.w.zeroedUntil < sliceEnd s then
    { s with
      pipe := { s.pipe with buffer := zero s.pipe.buffer s.w.zeroedUntil (sliceEnd s) }
      w := { s.w with zeroedUntil := sliceEnd s } }
  else s

/-- The body of the copy loop of `fill`, given the answer of `src.read`. -/
def srcRead (s : State) (res : Except IoError (List UInt8)) : Option State :=
  match s.wpc with
  | .read count =>
    let z := zeroSlice s
    match res with
    | .error e => some (returnW z (.ready (.error e)))
    | .ok data =>
      if data.length ≤ requested s then
        if data.length = 0 then some (returnW z (.ready (.ok (count + data.length))))
        else some { z with
          pipe := { z.pipe with
            buffer := store z.pipe.buffer (realIndex z.pipe.cap z.w.tail) data }
          wpc := .checkClosed (count + data.length) data }
      else none
  | _ => none

def step (s : State) : Act → Option State
  | .drain cx =>
    if s.rpc = .idle then
      some { s with rpc := .load, rcx := cx, rret := none, refused := false }
    else none
  | .readerStep => readerStep s
  | .readerYield yields =>
    if s.rpc = .maybeYield then
      some (if yields then returnR s .pending else { s with rpc := .write 0 })
    else none
  | .destWrite res => destWrite s res
  | .dropReader => if s.rpc = .idle then some { s with rpc := .close } else none
  | .fill cx =>
    if s.wpc = .idle then some { s with wpc := .loadClosed, wcx := cx, wret := none } else none
  | .writerStep => writerStep s
  | .writerYield yields =>
    if s.wpc = .maybeYield then
      some (if yields then returnW s .pending else { s with wpc := .read 0 })
    else none
  | .srcRead res => srcRead s res
  | .dropWriter => if s.wpc = .idle then some { s with wpc := .close } else none

def system (cap : Capacity) : System State Act := ⟨pipe cap, step⟩

end Cynthia.Blocking
