import Cynthia.Swap.BufferReader
import Cynthia.Swap.Traits

/-! The readers and writers of `future/swap.rs` that wrap others, over the traits, in a
release build: there are no debug assertions. -/

namespace Cynthia.AsyncIo

open Polling

variable {R R1 R2 W T S α : Type}

/-! ## `BufferReader` -/

structure BufferReader (R : Type) where
  inner : R
  buf : Data
  pos : Nat
  cap : Nat

namespace BufferReader

def withCapacity (capacity : Nat) (inner : R) : BufferReader R :=
  ⟨inner, List.replicate capacity 0, 0, 0⟩

def buffer (this : BufferReader R) : Data := (this.buf.take this.cap).drop this.pos

def discardBuffer (this : BufferReader R) : BufferReader R := { this with pos := 0, cap := 0 }

/-- `&this.buf[*this.pos..*this.cap]`. -/
def slice (this : BufferReader R) : Outcome (BufferReader R) (Result Data) :=
  if this.pos ≤ this.cap ∧ this.cap ≤ this.buf.length then .ok (.ready (.ok this.buffer), this)
  else .error .panicked

/-- The inner read has overwritten the front of the buffer. -/
def filled (this : BufferReader R) (bs : Data) : BufferReader R :=
  { this with
    buf := bs.take this.buf.length ++ this.buf.drop bs.length
    pos := 0
    cap := bs.length }

def pollFillBuf [AsyncRead R] (cx : Context) (this : BufferReader R) :
    Outcome (BufferReader R) (Result Data) :=
  if this.pos ≥ this.cap then
    readyOk (pollRead cx this.buf.length this.inner) (fun inner => { this with inner })
      fun bs this => (this.filled bs).slice
  else this.slice

/-- The sum is a `usize` and wraps, as it does in a release build. -/
def consume (length : Nat) (this : BufferReader R) : BufferReader R :=
  { this with pos := min ((this.pos + length) % 2 ^ 64) this.cap }

instance [AsyncRead R] : AsyncBufRead (BufferReader R) where
  pollFillBuf := pollFillBuf
  consume amt this := .ok (consume amt this)

/-- Both reads: `direct` is the read of the inner reader, into buffers for `len` bytes. -/
def pollReadWith [AsyncRead R] (direct : R → Outcome R (Result Data)) (cx : Context) (len : Nat)
    (this : BufferReader R) : Outcome (BufferReader R) (Result Data) :=
  if this.pos = this.cap ∧ len ≥ this.buf.length then
    ready (direct this.inner) (fun inner => { this with inner })
      fun res this => .ok (.ready res, this.discardBuffer)
  else
    readyOk (pollFillBuf cx this) id fun rem this =>
      .ok (.ready (.ok (rem.take len)), consume (rem.take len).length this)

instance [AsyncRead R] : AsyncRead (BufferReader R) where
  pollRead cx len := pollReadWith (pollRead cx len) cx len
  pollReadVectored cx lens := pollReadWith (pollReadVectored cx lens) cx lens.sum

/-- The last request to the inner reader, and the discarded buffer behind it. -/
def seekThrough [AsyncSeek R] (cx : Context) (pos : SeekFrom) (this : BufferReader R) :
    Outcome (BufferReader R) (Result Nat) :=
  readyOk (pollSeek cx pos this.inner) (fun inner => { this with inner })
    fun result this => .ok (.ready (.ok result), this.discardBuffer)

instance [AsyncSeek R] : AsyncSeek (BufferReader R) where
  pollSeek cx pos this := match pos with
    | .current n =>
      let remainder : Int := (this.cap : Int) - this.pos
      match Swap.BufferReader.checkedSub n remainder with
      | some offset => seekThrough cx (.current offset) this
      | none => readyOk (seekThrough cx (.current (-remainder)) this) id
        fun _ this => seekThrough cx (.current n) this
    | pos => seekThrough cx pos this

end BufferReader

/-! ## `BufferWriter` -/

structure BufferWriter (W : Type) where
  inner : W
  buf : Data
  written : Nat
  /-- Of the vector `buf`. -/
  capacity : Nat

namespace BufferWriter

def withCapacity (capacity : Nat) (inner : W) : BufferWriter W := ⟨inner, [], 0, capacity⟩

/-- The loop of `poll_flush_buf`. -/
def flushLoop [AsyncWrite W] (cx : Context) :
    Nat → BufferWriter W → Outcome (BufferWriter W) (Result Unit)
  | 0, _ => .error .diverges
  | fuel + 1, this =>
    if this.written < this.buf.length then
      ready (pollWrite cx (this.buf.drop this.written) this.inner)
        (fun inner => { this with inner }) fun res this => match res with
          | .ok 0 =>
            .ok (.ready (.error ⟨.writeZero, some "Failed to write buffered data"⟩), this)
          | .ok n => flushLoop cx fuel { this with written := this.written + n }
          | .error e =>
            if e.kind = .interrupted then flushLoop cx fuel this
            else .ok (.ready (.error e), this)
    else .ok (.ready (.ok ()), this)

def pollFlushBuf [AsyncWrite W] (cx : Context) (this : BufferWriter W) :
    Outcome (BufferWriter W) (Result Unit) :=
  ready (flushLoop cx cx.fuel this) id fun ret this =>
    if this.written ≤ this.buf.length then
      .ok (.ready ret, { this with buf := this.buf.drop this.written, written := 0 })
    else .error .panicked

/-- There is room in the vector for `buf`, or else it is written through. -/
def write [AsyncWrite W] (cx : Context) (buf : Data) (this : BufferWriter W) :
    Outcome (BufferWriter W) (Result Nat) :=
  if buf.length ≥ this.capacity then
    through (pollWrite cx buf this.inner) fun inner => { this with inner }
  else .ok (.ready (.ok buf.length), { this with buf := this.buf ++ buf })

instance [AsyncWrite W] : AsyncWrite (BufferWriter W) where
  pollWrite cx buf this :=
    if this.buf.length + buf.length > this.capacity then
      readyOk (pollFlushBuf cx this) id fun _ this => this.write cx buf
    else this.write cx buf
  pollFlush cx this := readyOk (pollFlushBuf cx this) id fun _ this =>
    through (pollFlush cx this.inner) fun inner => { this with inner }
  pollClose cx this := readyOk (pollFlushBuf cx this) id fun _ this =>
    through (pollClose cx this.inner) fun inner => { this with inner }

instance [AsyncWrite W] [AsyncSeek W] : AsyncSeek (BufferWriter W) where
  pollSeek cx pos this := readyOk (pollFlushBuf cx this) id fun _ this =>
    through (pollSeek cx pos this.inner) fun inner => { this with inner }

end BufferWriter

/-! ## `Take` -/

structure Take (R : Type) where
  inner : R
  limit : Nat

def take (inner : R) (limit : Nat) : Take R := ⟨inner, limit⟩

def takeReadInternal [AsyncRead R] (cx : Context) (len : Nat) (this : Take R) :
    Outcome (Take R) (Result Data) :=
  if this.limit = 0 then .ok (.ready (.ok []), this)
  else
    readyOk (pollRead cx (min len this.limit) this.inner) (fun inner => { this with inner })
      fun bs this =>
        if bs.length ≤ this.limit then
          .ok (.ready (.ok bs), { this with limit := this.limit - bs.length })
        else .error .underflow

instance [AsyncRead R] : AsyncRead (Take R) where
  pollRead := takeReadInternal

instance [AsyncBufRead R] : AsyncBufRead (Take R) where
  pollFillBuf cx this :=
    if this.limit = 0 then .ok (.ready (.ok []), this)
    else
      readyOk (pollFillBuf cx this.inner) (fun inner => { this with inner }) fun buf this =>
        .ok (.ready (.ok (buf.take (min buf.length this.limit))), this)
  consume amt this := do
    let length := min amt this.limit
    let inner ← consume length this.inner
    pure ⟨inner, this.limit - length⟩

/-! ## `Chain` -/

structure Chain (R1 R2 : Type) where
  first : R1
  second : R2
  doneFirst : Bool

def chain (first : R1) (second : R2) : Chain R1 R2 := ⟨first, second, false⟩

namespace Chain

/-- All methods that poll: `isEnd` says which `Ok` of the first reader is its end. -/
def pollWith (isEnd : Data → Bool) (pollFirst : R1 → Outcome R1 (Result Data))
    (pollSecond : R2 → Outcome R2 (Result Data)) (this : Chain R1 R2) :
    Outcome (Chain R1 R2) (Result Data) :=
  let askSecond (this : Chain R1 R2) :=
    through (pollSecond this.second) fun second => { this with second }
  if this.doneFirst then askSecond this
  else
    readyOk (pollFirst this.first) (fun first => { this with first }) fun bs this =>
      if isEnd bs then askSecond { this with doneFirst := true }
      else .ok (.ready (.ok bs), this)

theorem pollWith_first {isEnd : Data → Bool} {pollFirst : R1 → Outcome R1 (Result Data)}
    {pollSecond : R2 → Outcome R2 (Result Data)} {first : R1} {second : R2} :
    pollWith isEnd pollFirst pollSecond ⟨first, second, false⟩ =
      readyOk (pollFirst first) (fun first => ⟨first, second, false⟩) fun bs this =>
        if isEnd bs then through (pollSecond this.second) (Chain.mk this.first · true)
        else .ok (.ready (.ok bs), this) := rfl

instance [AsyncRead R1] [AsyncRead R2] : AsyncRead (Chain R1 R2) where
  pollRead cx len :=
    pollWith (fun bs => bs.length == 0 && len != 0) (pollRead cx len) (pollRead cx len)
  pollReadVectored cx lens :=
    pollWith (fun bs => bs.length == 0 && !lens.isEmpty) (pollReadVectored cx lens)
      (pollReadVectored cx lens)

instance [AsyncBufRead R1] [AsyncBufRead R2] : AsyncBufRead (Chain R1 R2) where
  pollFillBuf cx := pollWith (fun buf => buf.isEmpty) (pollFillBuf cx) (pollFillBuf cx)
  consume amt this :=
    if this.doneFirst then do
      let second ← consume amt this.second
      pure { this with second }
    else do
      let first ← consume amt this.first
      pure { this with first }

end Chain

/-! ## `Bytes` -/

structure Bytes (R : Type) where
  inner : R

def Bytes.pollNext [AsyncRead R] (cx : Context) (this : Bytes R) :
    Outcome (Bytes R) (Option (Result UInt8)) :=
  ready (pollRead cx 1 this.inner) Bytes.mk fun res this => match res with
    | .ok [] => .ok (.ready none, this)
    | .ok (byte :: _) => .ok (.ready (some (.ok byte)), this)
    | .error e =>
      if e.kind = .interrupted then .ok (.pending, this)
      else .ok (.ready (some (.error e)), this)

instance [AsyncRead R] : AsyncRead (Bytes R) where
  pollRead cx len this := through (pollRead cx len this.inner) Bytes.mk
  pollReadVectored cx lens this := through (pollReadVectored cx lens this.inner) Bytes.mk

/-! ## `split`. The mutex is never held across a poll. -/

structure ReadHalf (T : Type) where
  inner : T

structure WriteHalf (T : Type) where
  inner : T

instance [AsyncRead T] : AsyncRead (ReadHalf T) where
  pollRead cx len this := through (pollRead cx len this.inner) ReadHalf.mk
  pollReadVectored cx lens this := through (pollReadVectored cx lens this.inner) ReadHalf.mk

instance [AsyncWrite T] : AsyncWrite (WriteHalf T) where
  pollWrite cx buf this := through (pollWrite cx buf this.inner) WriteHalf.mk
  pollFlush cx this := through (pollFlush cx this.inner) WriteHalf.mk
  pollClose cx this := through (pollClose cx this.inner) WriteHalf.mk

/-! ## `AssertAsync`, over the traits of `std::io` -/

class Read (T : Type) where
  read (len : Nat) (this : T) : Except Fault (Result Data × T)
  readVectored (lens : List Nat) (this : T) : Except Fault (Result Data × T) :=
    read (firstRoom lens) this

class Write (T : Type) where
  write (buf : Data) (this : T) : Except Fault (Result Nat × T)
  writeVectored (bufs : List Data) (this : T) : Except Fault (Result Nat × T) :=
    write (firstNonEmpty bufs) this
  flush (this : T) : Except Fault (Result Unit × T)

class Seek (T : Type) where
  seek (pos : SeekFrom) (this : T) : Except Fault (Result Nat × T)

structure AssertAsync (T : Type) where
  io : T

/-- All its loops. -/
def AssertAsync.retry (op : T → Except Fault (Result α × T)) :
    Nat → AssertAsync T → Outcome (AssertAsync T) (Result α)
  | 0, _ => .error .diverges
  | fuel + 1, this => match op this.io with
    | .ok (.error e, io) =>
      if e.kind = .interrupted then retry op fuel ⟨io⟩ else .ok (.ready (.error e), ⟨io⟩)
    | .ok (.ok a, io) => .ok (.ready (.ok a), ⟨io⟩)
    | .error f => .error f

instance [Read T] : AsyncRead (AssertAsync T) where
  pollRead cx len := AssertAsync.retry (Read.read len) cx.fuel
  pollReadVectored cx lens := AssertAsync.retry (Read.readVectored lens) cx.fuel

instance [Write T] : AsyncWrite (AssertAsync T) where
  pollWrite cx buf := AssertAsync.retry (Write.write buf) cx.fuel
  pollWriteVectored cx bufs := AssertAsync.retry (Write.writeVectored bufs) cx.fuel
  pollFlush cx := AssertAsync.retry Write.flush cx.fuel
  pollClose cx := AssertAsync.retry Write.flush cx.fuel

instance [Seek T] : AsyncSeek (AssertAsync T) where
  pollSeek cx pos := AssertAsync.retry (Seek.seek pos) cx.fuel

end Cynthia.AsyncIo
