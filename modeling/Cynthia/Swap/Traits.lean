import Cynthia.Lib.Polling
import Cynthia.Swap.Io
import Mathlib.Algebra.GroupWithZero.Nat

/-! The traits of `futures_io` that `future/swap.rs` is written against, as classes. A read
gives the bytes that it has put into the buffer, so that their number is the `n` of
`Ok(n)`. -/

namespace Cynthia.AsyncIo

open Polling

export Swap (SeekFrom)

/-- Whom to wake. The fuel says how often a loop may go round in one call. -/
structure Context where
  waker : Nat
  fuel : Nat
  deriving DecidableEq, Repr

/-- Why a call does not return. -/
inductive Fault where
  | diverges
  /-- A slice out of range, or an `expect` or assertion that fails. -/
  | panicked
  /-- A subtraction that would be negative. -/
  | underflow
  deriving DecidableEq, Repr

inductive ErrorKind where
  | interrupted
  | writeZero
  | unexpectedEof
  | invalidData
  | other (code : Nat)
  deriving DecidableEq, Repr

structure Error where
  kind : ErrorKind
  message : Option String
  deriving DecidableEq, Repr

/-- `ErrorKind::into`. -/
def ErrorKind.into (kind : ErrorKind) : Error := ⟨kind, none⟩

abbrev Result (α : Type) := Except Error α

/-- What a call that polls gives, and the state behind it. -/
abbrev Outcome (S α : Type) := Except Fault (Poll α × S)

abbrev Data := List UInt8

section Ready

variable {R S α β : Type}

/-- `ready!`, in a function on `S` that polls its part `R`. -/
def ready (poll : Outcome R α) (put : R → S) (next : α → S → Outcome S β) : Outcome S β :=
  match poll with
  | .ok (.pending, r) => .ok (.pending, put r)
  | .ok (.ready a, r) => next a (put r)
  | .error e => .error e

/-- `ready!(..)?`. -/
def readyOk (poll : Outcome R (Result α)) (put : R → S)
    (next : α → S → Outcome S (Result β)) : Outcome S (Result β) :=
  ready poll put fun res s => match res with
    | .ok a => next a s
    | .error e => .ok (.ready (.error e), s)

/-- The poll of a part, handed on. -/
def through (poll : Outcome R α) (put : R → S) : Outcome S α :=
  ready poll put fun a s => .ok (.ready a, s)

theorem through_cases {poll : Outcome R α} {put : R → S} {res : Poll α} {s : S}
    (h : through poll put = .ok (res, s)) : ∃ r, poll = .ok (res, r) ∧ s = put r := by
  rcases poll with e | ⟨_ | a, r⟩
  · cases h
  · cases h
    exact ⟨r, rfl, rfl⟩
  · cases h
    exact ⟨r, rfl, rfl⟩

theorem through_error {poll : Outcome R α} {put : R → S} {f : Fault}
    (h : through poll put = .error f) : poll = .error f := by
  rcases poll with e | ⟨_ | a, r⟩
  · cases h
    rfl
  · cases h
  · cases h

theorem bind_cases {x : Except Fault α} {f : α → Except Fault β} {b : β}
    (h : x >>= f = .ok b) : ∃ a, x = .ok a ∧ f a = .ok b := by
  cases x with
  | error e => cases h
  | ok a => exact ⟨a, rfl, h⟩

end Ready

/-- The first buffer that is not empty, which the default methods for several buffers take. -/
def firstNonEmpty (bufs : List Data) : Data := (bufs.find? (!·.isEmpty)).getD []

def firstRoom (lens : List Nat) : Nat := (lens.find? (· != 0)).getD 0

class AsyncRead (R : Type) where
  pollRead (cx : Context) (len : Nat) (this : R) : Outcome R (Result Data)
  pollReadVectored (cx : Context) (lens : List Nat) (this : R) : Outcome R (Result Data) :=
    pollRead cx (firstRoom lens) this

class AsyncBufRead (R : Type) where
  pollFillBuf (cx : Context) (this : R) : Outcome R (Result Data)
  consume (amt : Nat) (this : R) : Except Fault R

class AsyncWrite (W : Type) where
  pollWrite (cx : Context) (buf : Data) (this : W) : Outcome W (Result Nat)
  pollWriteVectored (cx : Context) (bufs : List Data) (this : W) : Outcome W (Result Nat) :=
    pollWrite cx (firstNonEmpty bufs) this
  pollFlush (cx : Context) (this : W) : Outcome W (Result Unit)
  pollClose (cx : Context) (this : W) : Outcome W (Result Unit)

class AsyncSeek (S : Type) where
  pollSeek (cx : Context) (pos : SeekFrom) (this : S) : Outcome S (Result Nat)

export AsyncRead (pollRead pollReadVectored)

export AsyncBufRead (pollFillBuf consume)

export AsyncWrite (pollWrite pollWriteVectored pollFlush pollClose)

export AsyncSeek (pollSeek)

/-- The reader `&[u8]`, which is never pending. -/
structure Slice where
  data : Data
  deriving DecidableEq

def Slice.read (len : Nat) (this : Slice) : Outcome Slice (Result Data) :=
  .ok (.ready (.ok (this.data.take len)), ⟨this.data.drop len⟩)

instance : AsyncRead Slice where
  pollRead _ len := Slice.read len
  pollReadVectored _ lens := Slice.read lens.sum

/-! ## Readers that keep a record -/

/-- One request to a reader: the room in the buffers, and what it has answered. -/
structure Ask where
  room : Nat
  answer : Poll (Result Data)
  deriving DecidableEq

/-- A reader and the requests to it, in their order. -/
structure Asked (R : Type) where
  inner : R
  asks : List Ask

def asked {R : Type} (inner : R) : Asked R := ⟨inner, []⟩

def Asked.record {R : Type} (this : Asked R) (room : Nat) :
    Outcome R (Result Data) → Outcome (Asked R) (Result Data)
  | .ok (answer, inner) => .ok (answer, ⟨inner, this.asks ++ [⟨room, answer⟩]⟩)
  | .error e => .error e

instance {R : Type} [AsyncRead R] : AsyncRead (Asked R) where
  pollRead cx len this := this.record len (pollRead cx len this.inner)
  pollReadVectored cx lens this := this.record lens.sum (pollReadVectored cx lens this.inner)

/-- The bytes that a poll has given. -/
def given : Poll (Result Data) → Data
  | .ready (.ok bs) => bs
  | _ => []

/-- All bytes that the requests have got. -/
def taken (asks : List Ask) : Data := asks.flatMap fun ask => given ask.answer

theorem taken_append (asks : List Ask) (ask : Ask) :
    taken (asks ++ [ask]) = taken asks ++ given ask.answer := by
  rw [taken, List.flatMap_append, List.flatMap_singleton, taken]

end Cynthia.AsyncIo
