import Cynthia.Swap.Adapters
import Cynthia.Swap.Lines
import Cynthia.Swap.ReadToEnd

/-! The futures of `future/swap.rs` and the streams `Lines` and `Split`, over the traits, in
a release build. A loop goes round as often as the fuel of the context allows. -/

namespace Cynthia.AsyncIo

open Polling

open Swap.ReadUntil (memchr)

open Swap.ReadLine (trim)

open Swap.ReadToEnd (Allocator Vec Guard)

open Utf8 (decode)

variable {R W S : Type}

/-! ## Lines and pieces -/

structure FillBuf (R : Type) where
  reader : R
  /-- The future has returned and does not hold its reader any more. -/
  taken : Bool

def fillBuf (reader : R) : FillBuf R := ⟨reader, false⟩

def FillBuf.poll [AsyncBufRead R] (cx : Context) (this : FillBuf R) :
    Outcome (FillBuf R) (Result Data) :=
  if this.taken then .error .panicked
  else
    ready (pollFillBuf cx this.reader) (fun reader => ⟨reader, false⟩) fun res this =>
      match res with
      | .error e => .ok (.ready (.error e), { this with taken := true })
      | .ok _ => match pollFillBuf cx this.reader with
        | .ok (.ready (.ok slice), reader) => .ok (.ready (.ok slice), ⟨reader, true⟩)
        | .ok _ => .error .panicked
        | .error e => .error e

/-- What `read_until_internal` borrows. -/
structure Reading (R : Type) where
  reader : R
  buf : Data
  read : Nat

/-- Whether the byte is there, and the number of bytes up to it. -/
def cut (byte : UInt8) (available : Data) : Bool × Nat :=
  match memchr byte available with
  | some i => (true, i + 1)
  | none => (false, available.length)

/-- The loop of `read_until_internal`. -/
def readUntilLoop [AsyncBufRead R] (cx : Context) (byte : UInt8) :
    Nat → Reading R → Outcome (Reading R) (Result Nat)
  | 0, _ => .error .diverges
  | fuel + 1, this =>
    readyOk (pollFillBuf cx this.reader) (fun reader => { this with reader })
      fun available this =>
        let (done, used) := cut byte available
        match consume used this.reader with
        | .ok reader =>
          let this := ⟨reader, this.buf ++ available.take used, this.read + used⟩
          if done || used == 0 then .ok (.ready (.ok this.read), { this with read := 0 })
          else readUntilLoop cx byte fuel this
        | .error e => .error e

def readUntilInternal [AsyncBufRead R] (cx : Context) (byte : UInt8) (this : Reading R) :
    Outcome (Reading R) (Result Nat) := readUntilLoop cx byte cx.fuel this

structure ReadUntilFuture (R : Type) where
  reading : Reading R
  byte : UInt8

def readUntil (reader : R) (byte : UInt8) (buf : Data) : ReadUntilFuture R :=
  ⟨⟨reader, buf, 0⟩, byte⟩

def ReadUntilFuture.poll [AsyncBufRead R] (cx : Context) (this : ReadUntilFuture R) :
    Outcome (ReadUntilFuture R) (Result Nat) :=
  through (readUntilInternal cx this.byte this.reading) fun reading => { this with reading }

/-- What `read_line_internal` borrows: the bytes are the `buf` of `read_until_internal`. -/
structure ReadingLine (R : Type) where
  bytes : Reading R
  buf : String

def notUtf8 : Error := ⟨.invalidData, some "stream did not contain valid UTF-8"⟩

def readLineInternal [AsyncBufRead R] (cx : Context) (this : ReadingLine R) :
    Outcome (ReadingLine R) (Result Nat) :=
  ready (readUntilInternal cx 10 this.bytes) (fun bytes => { this with bytes }) fun ret this =>
    let bytes := { this.bytes with buf := [] }
    match decode this.bytes.buf with
    | some s => .ok (.ready ret, ⟨bytes, s⟩)
    | none => .ok (.ready (ret.bind fun _ => .error notUtf8), { this with bytes })

structure ReadLineFuture (R : Type) where
  line : ReadingLine R

def readLine (reader : R) (buf : String) : ReadLineFuture R := ⟨⟨⟨reader, [], 0⟩, buf⟩⟩

def ReadLineFuture.poll [AsyncBufRead R] (cx : Context) (this : ReadLineFuture R) :
    Outcome (ReadLineFuture R) (Result Nat) :=
  through (readLineInternal cx this.line) ReadLineFuture.mk

structure Lines (R : Type) where
  line : ReadingLine R

def lines (reader : R) : Lines R := ⟨⟨⟨reader, [], 0⟩, ""⟩⟩

def Lines.pollNext [AsyncBufRead R] (cx : Context) (this : Lines R) :
    Outcome (Lines R) (Option (Result String)) :=
  ready (readLineInternal cx this.line) Lines.mk fun n this => match n with
    | .error e => .ok (.ready (some (.error e)), this)
    | .ok n =>
      if n = 0 ∧ this.line.buf = "" then .ok (.ready none, this)
      else .ok (.ready (some (.ok (trim this.line.buf))), ⟨{ this.line with buf := "" }⟩)

structure Split (R : Type) where
  reading : Reading R
  delim : UInt8

def split (reader : R) (delim : UInt8) : Split R := ⟨⟨reader, [], 0⟩, delim⟩

def Split.pollNext [AsyncBufRead R] (cx : Context) (this : Split R) :
    Outcome (Split R) (Option (Result Data)) :=
  ready (readUntilInternal cx this.delim this.reading) (fun reading => { this with reading })
    fun n this => match n with
      | .error e => .ok (.ready (some (.error e)), this)
      | .ok n =>
        if n = 0 ∧ this.reading.buf = [] then .ok (.ready none, this)
        else match this.reading.buf.getLast? with
          | none => .error .panicked
          | some last =>
            let piece :=
              if last = this.delim then this.reading.buf.dropLast else this.reading.buf
            let reading := { this.reading with buf := [] }
            .ok (.ready (some (.ok piece)), { this with reading })

/-! ## Reads -/

structure ReadFuture (R : Type) where
  reader : R
  len : Nat

def ReadFuture.poll [AsyncRead R] (cx : Context) (this : ReadFuture R) :
    Outcome (ReadFuture R) (Result Data) :=
  through (pollRead cx this.len this.reader) fun reader => { this with reader }

structure ReadVectoredFuture (R : Type) where
  reader : R
  lens : List Nat

def ReadVectoredFuture.poll [AsyncRead R] (cx : Context) (this : ReadVectoredFuture R) :
    Outcome (ReadVectoredFuture R) (Result Data) :=
  through (pollReadVectored cx this.lens this.reader) fun reader => { this with reader }

/-- The loop of `read_to_end_internal`. -/
def readToEndLoop [AsyncRead R] (a : Allocator) (cx : Context) (startLen : Nat) :
    Nat → R × Guard → Outcome (R × Guard) (Result Nat)
  | 0, _ => .error .diverges
  | fuel + 1, (rd, g) =>
    let g := g.makeRoom a
    if g.len ≤ g.buf.data.length then
      readyOk (pollRead cx (g.buf.data.length - g.len) rd) (fun rd => (rd, g)) fun bs (rd, g) =>
        let buf := g.buf.fill g.len bs
        if bs.length = 0 then
          if startLen ≤ g.len then .ok (.ready (.ok (g.len - startLen)), (rd, { g with buf }))
          else .error .underflow
        else readToEndLoop a cx startLen fuel (rd, ⟨buf, g.len + bs.length⟩)
    else .error .panicked

/-- However the loop is left, the guard is dropped and cuts the vector. -/
def readToEndInternal [AsyncRead R] (a : Allocator) (cx : Context) (startLen : Nat) (rd : R)
    (buf : Vec) : Outcome (R × Vec) (Result Nat) :=
  through (readToEndLoop a cx startLen cx.fuel (rd, ⟨buf, buf.data.length⟩))
    fun (rd, g) => (rd, g.buf.resize a g.len 0)

structure ReadToEndFuture (R : Type) where
  reader : R
  buf : Vec
  startLen : Nat

def readToEnd (reader : R) (buf : Vec) : ReadToEndFuture R := ⟨reader, buf, buf.data.length⟩

def ReadToEndFuture.poll [AsyncRead R] (a : Allocator) (cx : Context) (this : ReadToEndFuture R) :
    Outcome (ReadToEndFuture R) (Result Nat) :=
  through (readToEndInternal a cx this.startLen this.reader this.buf)
    fun (reader, buf) => { this with reader, buf }

structure ReadToStringFuture (R : Type) where
  reader : R
  buf : String
  bytes : Vec
  startLen : Nat

def readToString (reader : R) (buf : String) : ReadToStringFuture R := ⟨reader, buf, .new, 0⟩

def ReadToStringFuture.poll [AsyncRead R] (a : Allocator) (cx : Context)
    (this : ReadToStringFuture R) : Outcome (ReadToStringFuture R) (Result Nat) :=
  ready (readToEndInternal a cx this.startLen this.reader this.bytes)
    (fun (reader, bytes) => { this with reader, bytes }) fun ret this =>
      match decode this.bytes.data with
      | some s => .ok (.ready ret, { this with buf := s, bytes := .new })
      | none => .ok (.ready (ret.bind fun _ => .error notUtf8), { this with bytes := .new })

structure ReadExactFuture (R : Type) where
  reader : R
  /-- The length of the buffer that is still to be filled. -/
  len : Nat

def ReadExactFuture.loop [AsyncRead R] (cx : Context) :
    Nat → ReadExactFuture R → Outcome (ReadExactFuture R) (Result Unit)
  | 0, _ => .error .diverges
  | fuel + 1, this =>
    if this.len = 0 then .ok (.ready (.ok ()), this)
    else
      readyOk (pollRead cx this.len this.reader) (fun reader => { this with reader })
        fun bs this =>
          if this.len < bs.length then .error .panicked
          else
            let this := { this with len := this.len - bs.length }
            if bs.length = 0 then .ok (.ready (.error ErrorKind.unexpectedEof.into), this)
            else loop cx fuel this

def ReadExactFuture.poll [AsyncRead R] (cx : Context) (this : ReadExactFuture R) :
    Outcome (ReadExactFuture R) (Result Unit) := loop cx cx.fuel this

/-! ## Seeks and writes -/

structure SeekFuture (S : Type) where
  seeker : S
  pos : SeekFrom

def SeekFuture.poll [AsyncSeek S] (cx : Context) (this : SeekFuture S) :
    Outcome (SeekFuture S) (Result Nat) :=
  through (pollSeek cx this.pos this.seeker) fun seeker => { this with seeker }

structure WriteFuture (W : Type) where
  writer : W
  buf : Data

def WriteFuture.poll [AsyncWrite W] (cx : Context) (this : WriteFuture W) :
    Outcome (WriteFuture W) (Result Nat) :=
  through (pollWrite cx this.buf this.writer) fun writer => { this with writer }

structure WriteVectoredFuture (W : Type) where
  writer : W
  bufs : List Data

def WriteVectoredFuture.poll [AsyncWrite W] (cx : Context) (this : WriteVectoredFuture W) :
    Outcome (WriteVectoredFuture W) (Result Nat) :=
  through (pollWriteVectored cx this.bufs this.writer) fun writer => { this with writer }

structure WriteAllFuture (W : Type) where
  writer : W
  buf : Data

def WriteAllFuture.loop [AsyncWrite W] (cx : Context) :
    Nat → WriteAllFuture W → Outcome (WriteAllFuture W) (Result Unit)
  | 0, _ => .error .diverges
  | fuel + 1, this =>
    if this.buf = [] then .ok (.ready (.ok ()), this)
    else
      readyOk (pollWrite cx this.buf this.writer) (fun writer => { this with writer })
        fun n this =>
          if this.buf.length < n then .error .panicked
          else
            let this := { this with buf := this.buf.drop n }
            if n = 0 then .ok (.ready (.error ErrorKind.writeZero.into), this)
            else loop cx fuel this

def WriteAllFuture.poll [AsyncWrite W] (cx : Context) (this : WriteAllFuture W) :
    Outcome (WriteAllFuture W) (Result Unit) := loop cx cx.fuel this

structure FlushFuture (W : Type) where
  writer : W

def FlushFuture.poll [AsyncWrite W] (cx : Context) (this : FlushFuture W) :
    Outcome (FlushFuture W) (Result Unit) := through (pollFlush cx this.writer) FlushFuture.mk

structure CloseFuture (W : Type) where
  writer : W

def CloseFuture.poll [AsyncWrite W] (cx : Context) (this : CloseFuture W) :
    Outcome (CloseFuture W) (Result Unit) := through (pollClose cx this.writer) CloseFuture.mk

/-! ## `copy` -/

structure CopyFuture (R W : Type) where
  reader : R
  writer : W
  amt : Nat

def copy (reader : R) (writer : W) : CopyFuture (BufferReader R) W :=
  ⟨.withCapacity (8 * 1024) reader, writer, 0⟩

def CopyFuture.loop [AsyncBufRead R] [AsyncWrite W] (cx : Context) :
    Nat → CopyFuture R W → Outcome (CopyFuture R W) (Result Nat)
  | 0, _ => .error .diverges
  | fuel + 1, this =>
    readyOk (pollFillBuf cx this.reader) (fun reader => { this with reader }) fun buffer this =>
      if buffer = [] then
        readyOk (pollFlush cx this.writer) (fun writer => { this with writer })
          fun _ this => .ok (.ready (.ok this.amt), this)
      else
        readyOk (pollWrite cx buffer this.writer) (fun writer => { this with writer })
          fun i this =>
            if i = 0 then .ok (.ready (.error ErrorKind.writeZero.into), this)
            else match consume i this.reader with
              | .ok reader => loop cx fuel { this with reader, amt := this.amt + i }
              | .error e => .error e

def CopyFuture.poll [AsyncBufRead R] [AsyncWrite W] (cx : Context) (this : CopyFuture R W) :
    Outcome (CopyFuture R W) (Result Nat) := loop cx cx.fuel this

/-! ## A reader of events -/

section Events

open Swap.ReadUntil (Reader)

def answer {α : Type} : Swap.Poll α → Poll (Result α)
  | .pending => .pending
  | .ok a => .ready (.ok a)
  | .error .interrupted => .ready (.error ErrorKind.interrupted.into)
  | .error .writeZero => .ready (.error ErrorKind.writeZero.into)
  | .error (.other code) => .ready (.error (ErrorKind.other code).into)

instance : AsyncRead Reader where
  pollRead _ len this :=
    let (this, res) := Swap.ReadToEnd.pollRead this len
    .ok (answer res, this)

instance : AsyncBufRead Reader where
  pollFillBuf _ this :=
    let (this, res) := Swap.ReadUntil.pollFillBuf this
    .ok (answer res, this)
  consume amt this := .ok (Swap.ReadUntil.consume this amt)

end Events

end Cynthia.AsyncIo
