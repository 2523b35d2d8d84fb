import Cynthia.Swap.Futures

/-! Who wakes a task that `future/swap.rs` suspends: a poll that is pending has polled an
inner reader or writer, with the same context, that was pending. -/

namespace Cynthia.AsyncIo

open Polling

open Swap.ReadToEnd (Allocator Vec Guard)

open Utf8 (decode)

variable {R R1 R2 W T S α β : Type}

/-! ## Inner polls -/

/-- How often a poll with the context `cx` has been pending somewhere inside. -/
class Counted (S : Type) where
  pendings (cx : Context) (s : S) : Nat

export Counted (pendings)

/-- A reader, writer or seeker and the contexts with which it has been pending. -/
structure Logged (R : Type) where
  inner : R
  log : List Context

namespace Logged

def watch (this : Logged R) (cx : Context) : Outcome R α → Outcome (Logged R) α
  | .ok (.pending, inner) => .ok (.pending, ⟨inner, cx :: this.log⟩)
  | .ok (.ready a, inner) => .ok (.ready a, ⟨inner, this.log⟩)
  | .error f => .error f

instance : Counted (Logged R) where
  pendings cx s := s.log.count cx

instance [AsyncRead R] : AsyncRead (Logged R) where
  pollRead cx len this := this.watch cx (pollRead cx len this.inner)
  pollReadVectored cx lens this := this.watch cx (pollReadVectored cx lens this.inner)

instance [AsyncBufRead R] : AsyncBufRead (Logged R) where
  pollFillBuf cx this := this.watch cx (pollFillBuf cx this.inner)
  consume amt this := do
    let inner ← consume amt this.inner
    pure { this with inner }

instance [AsyncWrite R] : AsyncWrite (Logged R) where
  pollWrite cx buf this := this.watch cx (pollWrite cx buf this.inner)
  pollWriteVectored cx bufs this := this.watch cx (pollWriteVectored cx bufs this.inner)
  pollFlush cx this := this.watch cx (pollFlush cx this.inner)
  pollClose cx this := this.watch cx (pollClose cx this.inner)

instance [AsyncSeek R] : AsyncSeek (Logged R) where
  pollSeek cx pos this := this.watch cx (pollSeek cx pos this.inner)

end Logged

/-- A call that started at `n` and is pending has had an inner poll that was pending. -/
def Registers [Counted S] (cx : Context) (n : Nat) : Outcome S α → Prop
  | .ok (.pending, s) => n < pendings cx s
  | .ok (.ready _, s) => n ≤ pendings cx s
  | .error _ => True

section Rules

variable [Counted R] [Counted S] {cx : Context} {n m : Nat} {poll : Outcome R α} {put : R → S}

/-- `ready!`, where `put` keeps the difference of `n` and `m`. -/
theorem Registers.ready {next : α → S → Outcome S β} (h : Registers cx n poll)
    (hput : ∀ r k, n + k ≤ pendings cx r → m + k ≤ pendings cx (put r))
    (hnext : ∀ a s, m ≤ pendings cx s → Registers cx m (next a s)) :
    Registers cx m (ready poll put next) := by
  rcases poll with f | ⟨_ | a, r⟩
  · trivial
  · exact hput r 1 h
  · exact hnext a _ (hput r 0 h)

theorem Registers.readyOk {poll : Outcome R (Result α)} {next : α → S → Outcome S (Result β)}
    (h : Registers cx n poll)
    (hput : ∀ r k, n + k ≤ pendings cx r → m + k ≤ pendings cx (put r))
    (hnext : ∀ a s, m ≤ pendings cx s → Registers cx m (next a s)) :
    Registers cx m (readyOk poll put next) := by
  refine h.ready hput fun res s hs => ?_
  cases res with
  | error e => exact hs
  | ok a => exact hnext a s hs

theorem Registers.through (h : Registers cx n poll)
    (hput : ∀ r k, n + k ≤ pendings cx r → m + k ≤ pendings cx (put r)) :
    Registers cx m (through poll put) :=
  h.ready hput fun _ _ hs => hs

omit [Counted R] in
/-- The call may have started earlier. -/
theorem Registers.mono {x : Outcome S α} (hle : n ≤ m) (h : Registers cx m x) :
    Registers cx n x := by
  rcases x with f | ⟨_ | a, s⟩
  · trivial
  · exact Nat.lt_of_le_of_lt hle h
  · exact hle.trans h

omit [Counted R] in
theorem Registers.ite {p : Prop} [Decidable p] {x y : Outcome S α} (hx : p → Registers cx n x)
    (hy : ¬p → Registers cx n y) : Registers cx n (if p then x else y) := by
  split
  · exact hx ‹_›
  · exact hy ‹_›

end Rules

structure ReadRegisters (R : Type) [AsyncRead R] [Counted R] : Prop where
  pollRead (cx : Context) (len : Nat) (r : R) :
    Registers cx (pendings cx r) (pollRead cx len r)
  pollReadVectored (cx : Context) (lens : List Nat) (r : R) :
    Registers cx (pendings cx r) (pollReadVectored cx lens r)

structure BufReadRegisters (R : Type) [AsyncBufRead R] [Counted R] : Prop where
  pollFillBuf (cx : Context) (r : R) : Registers cx (pendings cx r) (pollFillBuf cx r)
  consume (cx : Context) {amt : Nat} {r r' : R} :
    AsyncBufRead.consume amt r = .ok r' → pendings cx r ≤ pendings cx r'

structure WriteRegisters (W : Type) [AsyncWrite W] [Counted W] : Prop where
  pollWrite (cx : Context) (buf : Data) (w : W) :
    Registers cx (pendings cx w) (pollWrite cx buf w)
  pollWriteVectored (cx : Context) (bufs : List Data) (w : W) :
    Registers cx (pendings cx w) (pollWriteVectored cx bufs w)
  pollFlush (cx : Context) (w : W) : Registers cx (pendings cx w) (pollFlush cx w)
  pollClose (cx : Context) (w : W) : Registers cx (pendings cx w) (pollClose cx w)

structure SeekRegisters (S : Type) [AsyncSeek S] [Counted S] : Prop where
  pollSeek (cx : Context) (pos : SeekFrom) (s : S) :
    Registers cx (pendings cx s) (pollSeek cx pos s)

/-- The poll function of a future or stream. -/
def Polls [Counted S] (poll : Context → S → Outcome S α) : Prop :=
  ∀ cx s, Registers cx (pendings cx s) (poll cx s)

section Leaves

theorem Logged.watch_registers {cx : Context} {this : Logged R} {poll : Outcome R α} :
    Registers cx (pendings cx this) (this.watch cx poll) := by
  rcases poll with f | ⟨_ | a, inner⟩
  · trivial
  · change this.log.count cx < (cx :: this.log).count cx
    rw [List.count_cons_self]
    exact Nat.lt_succ_self _
  · exact Nat.le_refl _

theorem readRegisters_logged [AsyncRead R] : ReadRegisters (Logged R) where
  pollRead _ _ _ := Logged.watch_registers
  pollReadVectored _ _ _ := Logged.watch_registers

theorem bufReadRegisters_logged [AsyncBufRead R] : BufReadRegisters (Logged R) where
  pollFillBuf _ _ := Logged.watch_registers
  consume cx {amt r r'} h := by
    obtain ⟨inner, -, hr⟩ := bind_cases h
    cases hr
    exact Nat.le_refl _

theorem writeRegisters_logged [AsyncWrite R] : WriteRegisters (Logged R) where
  pollWrite _ _ _ := Logged.watch_registers
  pollWriteVectored _ _ _ := Logged.watch_registers
  pollFlush _ _ := Logged.watch_registers
  pollClose _ _ := Logged.watch_registers

theorem seekRegisters_logged [AsyncSeek R] : SeekRegisters (Logged R) where
  pollSeek _ _ _ := Logged.watch_registers

end Leaves

/-! ## The adapters -/

section BufferReader

instance [Counted R] : Counted (BufferReader R) where
  pendings cx s := pendings cx s.inner

variable [Counted R]

theorem slice_registers {cx : Context} {n : Nat} {s : BufferReader R} (h : n ≤ pendings cx s) :
    Registers cx n s.slice := .ite (fun _ => h) fun _ => trivial

theorem bufReadRegisters_bufferReader [AsyncRead R] (h : ReadRegisters R) :
    BufReadRegisters (BufferReader R) where
  pollFillBuf cx s := .ite
    (fun _ => (h.pollRead cx _ _).readyOk (fun _ _ => id) fun _ _ hs => slice_registers hs)
    fun _ => slice_registers (Nat.le_refl _)
  consume cx {amt r r'} hconsume := by
    cases hconsume
    exact Nat.le_refl _

theorem pollReadWith_registers [AsyncRead R] (h : ReadRegisters R)
    {direct : R → Outcome R (Result Data)} {cx : Context}
    (hdirect : ∀ r, Registers cx (pendings cx r) (direct r)) (len : Nat) (s : BufferReader R) :
    Registers cx (pendings cx s) (BufferReader.pollReadWith direct cx len s) := .ite
  (fun _ => (hdirect _).ready (fun _ _ => id) fun _ _ hs => hs)
  fun _ => ((bufReadRegisters_bufferReader h).pollFillBuf cx s).readyOk (fun _ _ => id)
    fun _ _ hs => hs

theorem readRegisters_bufferReader [AsyncRead R] (h : ReadRegisters R) :
    ReadRegisters (BufferReader R) where
  pollRead cx len := pollReadWith_registers h (h.pollRead cx len) len
  pollReadVectored cx lens := pollReadWith_registers h (h.pollReadVectored cx lens) lens.sum

theorem seekThrough_registers [AsyncSeek R] (h : SeekRegisters R) (cx : Context) (pos : SeekFrom)
    (s : BufferReader R) : Registers cx (pendings cx s) (s.seekThrough cx pos) :=
  (h.pollSeek cx pos s.inner).readyOk (fun _ _ => id) fun _ _ hs => hs

theorem seekRegisters_bufferReader [AsyncSeek R] (h : SeekRegisters R) :
    SeekRegisters (BufferReader R) where
  pollSeek cx pos s := by
    cases pos with
    | start | «end» => exact seekThrough_registers h cx _ s
    | current n =>
      simp only [pollSeek]
      split
      · exact seekThrough_registers h cx _ s
      · refine (seekThrough_registers h cx _ s).readyOk (fun _ _ => id) fun _ t ht => ?_
        exact (seekThrough_registers h cx _ t).mono ht

end BufferReader

section BufferWriter

instance [Counted W] : Counted (BufferWriter W) where
  pendings cx s := pendings cx s.inner

variable [Counted W] [AsyncWrite W] (h : WriteRegisters W) (cx : Context)

include h

theorem flushLoop_registers (fuel : Nat) (s : BufferWriter W) :
    Registers cx (pendings cx s) (BufferWriter.flushLoop cx fuel s) := by
  induction fuel generalizing s with
  | zero => trivial
  | succ fuel ih =>
    refine .ite (fun _ => ?_) fun _ => Nat.le_refl _
    refine (h.pollWrite cx _ s.inner).ready (fun _ _ => id) fun res t ht => ?_
    rcases res with e | _ | n
    · exact .ite (fun _ => (ih t).mono ht) fun _ => ht
    · exact ht
    · exact (ih _).mono ht

theorem pollFlushBuf_registers (s : BufferWriter W) :
    Registers cx (pendings cx s) (s.pollFlushBuf cx) :=
  (flushLoop_registers h cx cx.fuel s).ready (fun _ _ => id)
    fun _ _ hs => .ite (fun _ => hs) fun _ => trivial

theorem write_registers (buf : Data) (s : BufferWriter W) :
    Registers cx (pendings cx s) (s.write cx buf) := .ite
  (fun _ => (h.pollWrite cx buf s.inner).through fun _ _ => id) fun _ => Nat.le_refl _

/-- Another operation of the inner writer, behind the flush of the buffer. -/
theorem behindFlush_registers {op : W → Outcome W (Result α)}
    (hop : ∀ w, Registers cx (pendings cx w) (op w)) (s : BufferWriter W) :
    Registers cx (pendings cx s) (readyOk (s.pollFlushBuf cx) id fun _ this =>
      through (op this.inner) fun inner => { this with inner }) :=
  (pollFlushBuf_registers h cx s).readyOk (fun _ _ => id)
    fun _ t ht => .mono ht ((hop t.inner).through fun _ _ => id)

omit cx in
theorem writeRegisters_bufferWriter : WriteRegisters (BufferWriter W) := by
  have hwrite : ∀ cx buf (s : BufferWriter W), Registers cx (pendings cx s) (pollWrite cx buf s) :=
    fun cx buf s => .ite
      (fun _ => (pollFlushBuf_registers h cx s).readyOk (fun _ _ => id)
        fun _ t ht => (write_registers h cx buf t).mono ht)
      fun _ => write_registers h cx buf s
  exact {
    pollWrite := hwrite
    pollWriteVectored := fun cx bufs => hwrite cx _
    pollFlush := fun cx => behindFlush_registers h cx (h.pollFlush cx)
    pollClose := fun cx => behindFlush_registers h cx (h.pollClose cx) }

omit cx in
theorem seekRegisters_bufferWriter [AsyncSeek W] (hseek : SeekRegisters W) :
    SeekRegisters (BufferWriter W) where
  pollSeek cx pos := behindFlush_registers h cx (hseek.pollSeek cx pos)

end BufferWriter

section Take

instance [Counted R] : Counted (Take R) where
  pendings cx s := pendings cx s.inner

variable [Counted R]

theorem readRegisters_take [AsyncRead R] (h : ReadRegisters R) : ReadRegisters (Take R) := by
  have hread : ∀ cx len (s : Take R), Registers cx (pendings cx s) (pollRead cx len s) :=
    fun cx len s => .ite (fun _ => Nat.le_refl _) fun _ =>
      (h.pollRead cx _ s.inner).readyOk (fun _ _ => id)
        fun _ _ hs => .ite (fun _ => hs) fun _ => trivial
  exact ⟨hread, fun cx lens => hread cx _⟩

theorem bufReadRegisters_take [AsyncBufRead R] (h : BufReadRegisters R) :
    BufReadRegisters (Take R) where
  pollFillBuf cx s := .ite (fun _ => Nat.le_refl _) fun _ =>
    (h.pollFillBuf cx s.inner).readyOk (fun _ _ => id) fun _ _ hs => hs
  consume cx {amt r r'} hconsume := by
    obtain ⟨inner, hinner, hr⟩ := bind_cases hconsume
    cases hr
    exact h.consume cx hinner

end Take

section Chain

instance [Counted R1] [Counted R2] : Counted (Chain R1 R2) where
  pendings cx s := pendings cx s.first + pendings cx s.second

variable [Counted R1] [Counted R2]

theorem pollWith_registers {isEnd : Data → Bool} {pollFirst : R1 → Outcome R1 (Result Data)}
    {pollSecond : R2 → Outcome R2 (Result Data)} {cx : Context}
    (hfirst : ∀ r, Registers cx (pendings cx r) (pollFirst r))
    (hsecond : ∀ r, Registers cx (pendings cx r) (pollSecond r)) (s : Chain R1 R2) :
    Registers cx (pendings cx s) (Chain.pollWith isEnd pollFirst pollSecond s) := by
  have hask : ∀ t : Chain R1 R2, Registers cx (pendings cx t)
      (through (pollSecond t.second) fun second => { t with second }) := by
    intro t
    refine (hsecond t.second).through fun r k hr => ?_
    change pendings cx t.first + pendings cx t.second + k ≤ pendings cx t.first + pendings cx r
    omega
  refine .ite (fun _ => hask s) fun _ => ?_
  refine (hfirst s.first).readyOk (fun r k hr => ?_) fun bs t ht => ?_
  · change pendings cx s.first + pendings cx s.second + k ≤ pendings cx r + pendings cx s.second
    omega
  · exact .ite (fun _ => (hask { t with doneFirst := true }).mono ht) fun _ => ht

theorem readRegisters_chain [AsyncRead R1] [AsyncRead R2] (h1 : ReadRegisters R1)
    (h2 : ReadRegisters R2) : ReadRegisters (Chain R1 R2) where
  pollRead cx len := pollWith_registers (h1.pollRead cx len) (h2.pollRead cx len)
  pollReadVectored cx lens :=
    pollWith_registers (h1.pollReadVectored cx lens) (h2.pollReadVectored cx lens)

theorem bufReadRegisters_chain [AsyncBufRead R1] [AsyncBufRead R2] (h1 : BufReadRegisters R1)
    (h2 : BufReadRegisters R2) : BufReadRegisters (Chain R1 R2) where
  pollFillBuf cx := pollWith_registers (h1.pollFillBuf cx) (h2.pollFillBuf cx)
  consume cx {amt r r'} hconsume := by
    obtain ⟨first, second, done⟩ := r
    cases done with
    | true =>
      obtain ⟨second', hsecond, hr⟩ := bind_cases hconsume
      cases hr
      exact Nat.add_le_add_left (h2.consume cx hsecond) _
    | false =>
      obtain ⟨first', hfirst, hr⟩ := bind_cases hconsume
      cases hr
      exact Nat.add_le_add_right (h1.consume cx hfirst) _

end Chain

section Others

instance [Counted R] : Counted (Bytes R) where
  pendings cx s := pendings cx s.inner

instance [Counted R] : Counted (ReadHalf R) where
  pendings cx s := pendings cx s.inner

instance [Counted R] : Counted (WriteHalf R) where
  pendings cx s := pendings cx s.inner

/-- What is inside is not polled. -/
instance : Counted (AssertAsync T) where
  pendings _ _ := 0

variable [Counted R]

theorem readRegisters_bytes [AsyncRead R] (h : ReadRegisters R) : ReadRegisters (Bytes R) where
  pollRead cx len s := (h.pollRead cx len s.inner).through fun _ _ => id
  pollReadVectored cx lens s := (h.pollReadVectored cx lens s.inner).through fun _ _ => id

theorem readRegisters_readHalf [AsyncRead R] (h : ReadRegisters R) :
    ReadRegisters (ReadHalf R) where
  pollRead cx len s := (h.pollRead cx len s.inner).through fun _ _ => id
  pollReadVectored cx lens s := (h.pollReadVectored cx lens s.inner).through fun _ _ => id

theorem writeRegisters_writeHalf [AsyncWrite R] (h : WriteRegisters R) :
    WriteRegisters (WriteHalf R) where
  pollWrite cx buf s := (h.pollWrite cx buf s.inner).through fun _ _ => id
  pollWriteVectored cx _ s := (h.pollWrite cx _ s.inner).through fun _ _ => id
  pollFlush cx s := (h.pollFlush cx s.inner).through fun _ _ => id
  pollClose cx s := (h.pollClose cx s.inner).through fun _ _ => id

/-- The operation blocks. -/
theorem retry_registers {op : T → Except Fault (Result α × T)} {cx : Context} (fuel : Nat)
    (s : AssertAsync T) : Registers cx 0 (AssertAsync.retry op fuel s) := by
  induction fuel generalizing s with
  | zero => trivial
  | succ fuel ih =>
    rw [AssertAsync.retry]
    rcases op s.io with f | ⟨e | a, io⟩
    · trivial
    · exact .ite (fun _ => ih _) fun _ => Nat.le_refl 0
    · exact Nat.le_refl 0

theorem readRegisters_assertAsync [Read T] : ReadRegisters (AssertAsync T) where
  pollRead _ _ := retry_registers _
  pollReadVectored _ _ := retry_registers _

theorem writeRegisters_assertAsync [Write T] : WriteRegisters (AssertAsync T) where
  pollWrite _ _ := retry_registers _
  pollWriteVectored _ _ := retry_registers _
  pollFlush _ := retry_registers _
  pollClose _ := retry_registers _

theorem seekRegisters_assertAsync [Seek T] : SeekRegisters (AssertAsync T) where
  pollSeek _ _ := retry_registers _

end Others

/-! ## The streams and futures over a buffered reader -/

section Buffered

instance [Counted R] : Counted (FillBuf R) where
  pendings cx s := pendings cx s.reader

instance [Counted R] : Counted (Reading R) where
  pendings cx s := pendings cx s.reader

instance [Counted R] : Counted (ReadUntilFuture R) where
  pendings cx s := pendings cx s.reading

instance [Counted R] : Counted (ReadingLine R) where
  pendings cx s := pendings cx s.bytes

instance [Counted R] : Counted (ReadLineFuture R) where
  pendings cx s := pendings cx s.line

instance [Counted R] : Counted (Lines R) where
  pendings cx s := pendings cx s.line

instance [Counted R] : Counted (Split R) where
  pendings cx s := pendings cx s.reading

variable [Counted R] [AsyncBufRead R] (h : BufReadRegisters R)

include h

theorem polls_fillBuf : Polls (FillBuf.poll (R := R)) := by
  intro cx s
  refine .ite (fun _ => trivial) fun _ => ?_
  refine (h.pollFillBuf cx s.reader).ready (fun _ _ => id) fun res t ht => ?_
  cases res with
  | error e => exact ht
  | ok _ =>
    have hagain := h.pollFillBuf cx t.reader
    generalize pollFillBuf cx t.reader = out at hagain
    rcases out with f | ⟨_ | e | slice, reader⟩
    · trivial
    · trivial
    · trivial
    · exact Nat.le_trans ht hagain

theorem readUntilLoop_registers (cx : Context) (byte : UInt8) (fuel : Nat) (s : Reading R) :
    Registers cx (pendings cx s) (readUntilLoop cx byte fuel s) := by
  induction fuel generalizing s with
  | zero => trivial
  | succ fuel ih =>
    refine (h.pollFillBuf cx s.reader).readyOk (fun _ _ => id) fun available t ht => ?_
    rcases cut byte available with ⟨done, used⟩
    cases hconsume : AsyncBufRead.consume used t.reader with
    | error f =>
      simp only [hconsume]
      trivial
    | ok reader =>
      simp only [hconsume]
      have hreader : pendings cx s ≤ pendings cx reader := Nat.le_trans ht (h.consume cx hconsume)
      exact .ite (fun _ => hreader) fun _ => .mono hreader (ih _)

theorem readUntilInternal_registers (cx : Context) (byte : UInt8) (s : Reading R) :
    Registers cx (pendings cx s) (readUntilInternal cx byte s) :=
  readUntilLoop_registers h cx byte cx.fuel s

theorem polls_readUntil : Polls (ReadUntilFuture.poll (R := R)) := fun cx s =>
  (readUntilInternal_registers h cx s.byte s.reading).through fun _ _ => id

theorem readLineInternal_registers (cx : Context) (s : ReadingLine R) :
    Registers cx (pendings cx s) (readLineInternal cx s) := by
  refine (readUntilInternal_registers h cx 10 s.bytes).ready (fun _ _ => id) fun ret t ht => ?_
  rcases decode t.bytes.buf with _ | text
  · exact ht
  · exact ht

theorem polls_readLine : Polls (ReadLineFuture.poll (R := R)) := fun cx s =>
  (readLineInternal_registers h cx s.line).through fun _ _ => id

theorem polls_lines : Polls (Lines.pollNext (R := R)) := by
  intro cx s
  refine (readLineInternal_registers h cx s.line).ready (fun _ _ => id) fun n t ht => ?_
  cases n with
  | error e => exact ht
  | ok n => exact .ite (fun _ => ht) fun _ => ht

theorem polls_split : Polls (Split.pollNext (R := R)) := by
  intro cx s
  refine (readUntilInternal_registers h cx s.delim s.reading).ready (fun _ _ => id)
    fun n t ht => ?_
  cases n with
  | error e => exact ht
  | ok n =>
    refine .ite (fun _ => ht) fun _ => ?_
    rcases t.reading.buf.getLast? with _ | last
    · trivial
    · exact ht

end Buffered

/-! ## The other futures -/

section Reads

instance [Counted R] : Counted (ReadFuture R) where
  pendings cx s := pendings cx s.reader

instance [Counted R] : Counted (ReadVectoredFuture R) where
  pendings cx s := pendings cx s.reader

/-- A reader and what it is read into. -/
instance [Counted R] : Counted (R × α) where
  pendings cx s := pendings cx s.1

instance [Counted R] : Counted (ReadToEndFuture R) where
  pendings cx s := pendings cx s.reader

instance [Counted R] : Counted (ReadToStringFuture R) where
  pendings cx s := pendings cx s.reader

instance [Counted R] : Counted (ReadExactFuture R) where
  pendings cx s := pendings cx s.reader

variable [Counted R] [AsyncRead R] (h : ReadRegisters R) (a : Allocator)

include h

theorem polls_read : Polls (ReadFuture.poll (R := R)) := fun cx s =>
  (h.pollRead cx s.len s.reader).through fun _ _ => id

theorem polls_readVectored : Polls (ReadVectoredFuture.poll (R := R)) := fun cx s =>
  (h.pollReadVectored cx s.lens s.reader).through fun _ _ => id

theorem readToEndLoop_registers (cx : Context) (startLen fuel : Nat) (s : R × Guard) :
    Registers cx (pendings cx s) (readToEndLoop a cx startLen fuel s) := by
  induction fuel generalizing s with
  | zero => trivial
  | succ fuel ih =>
    obtain ⟨rd, g⟩ := s
    refine .ite (fun _ => ?_) fun _ => trivial
    refine (h.pollRead cx _ rd).readyOk (fun _ _ => id) fun bs t ht => ?_
    obtain ⟨rd', g'⟩ := t
    refine .ite (fun _ => .ite (fun _ => ht) fun _ => trivial) fun _ => .mono ht (ih _)

theorem readToEndInternal_registers (cx : Context) (startLen : Nat) (rd : R) (buf : Vec) :
    Registers cx (pendings cx rd) (readToEndInternal a cx startLen rd buf) :=
  (readToEndLoop_registers h a cx startLen cx.fuel (rd, ⟨buf, buf.data.length⟩)).through
    fun _ _ => id

theorem polls_readToEnd : Polls (ReadToEndFuture.poll (R := R) a) := fun cx s =>
  (readToEndInternal_registers h a cx s.startLen s.reader s.buf).through fun _ _ => id

theorem polls_readToString : Polls (ReadToStringFuture.poll (R := R) a) := by
  intro cx s
  refine (readToEndInternal_registers h a cx s.startLen s.reader s.bytes).ready (fun _ _ => id)
    fun ret t ht => ?_
  rcases decode t.bytes.data with _ | text
  · exact ht
  · exact ht

omit a in
theorem polls_readExact : Polls (ReadExactFuture.poll (R := R)) := by
  intro cx s
  rw [ReadExactFuture.poll]
  generalize cx.fuel = fuel
  induction fuel generalizing s with
  | zero => trivial
  | succ fuel ih =>
    refine .ite (fun _ => Nat.le_refl _) fun _ => ?_
    refine (h.pollRead cx s.len s.reader).readyOk (fun _ _ => id) fun bs t ht => ?_
    exact .ite (fun _ => trivial) fun _ => .ite (fun _ => ht) fun _ => .mono ht (ih _)

end Reads

section Writes

instance [Counted S] : Counted (SeekFuture S) where
  pendings cx s := pendings cx s.seeker

instance [Counted W] : Counted (WriteFuture W) where
  pendings cx s := pendings cx s.writer

instance [Counted W] : Counted (WriteVectoredFuture W) where
  pendings cx s := pendings cx s.writer

instance [Counted W] : Counted (WriteAllFuture W) where
  pendings cx s := pendings cx s.writer

instance [Counted W] : Counted (FlushFuture W) where
  pendings cx s := pendings cx s.writer

instance [Counted W] : Counted (CloseFuture W) where
  pendings cx s := pendings cx s.writer

theorem polls_seek [Counted S] [AsyncSeek S] (h : SeekRegisters S) :
    Polls (SeekFuture.poll (S := S)) := fun cx s =>
  (h.pollSeek cx s.pos s.seeker).through fun _ _ => id

variable [Counted W] [AsyncWrite W] (h : WriteRegisters W)

include h

theorem polls_write : Polls (WriteFuture.poll (W := W)) := fun cx s =>
  (h.pollWrite cx s.buf s.writer).through fun _ _ => id

theorem polls_writeVectored : Polls (WriteVectoredFuture.poll (W := W)) := fun cx s =>
  (h.pollWriteVectored cx s.bufs s.writer).through fun _ _ => id

theorem polls_writeAll : Polls (WriteAllFuture.poll (W := W)) := by
  intro cx s
  rw [WriteAllFuture.poll]
  generalize cx.fuel = fuel
  induction fuel generalizing s with
  | zero => trivial
  | succ fuel ih =>
    refine .ite (fun _ => Nat.le_refl _) fun _ => ?_
    refine (h.pollWrite cx s.buf s.writer).readyOk (fun _ _ => id) fun n t ht => ?_
    exact .ite (fun _ => trivial) fun _ => .ite (fun _ => ht) fun _ => .mono ht (ih _)

theorem polls_flush : Polls (FlushFuture.poll (W := W)) := fun cx s =>
  (h.pollFlush cx s.writer).through fun _ _ => id

theorem polls_close : Polls (CloseFuture.poll (W := W)) := fun cx s =>
  (h.pollClose cx s.writer).through fun _ _ => id

end Writes

section Copy

instance [Counted R] [Counted W] : Counted (CopyFuture R W) where
  pendings cx s := pendings cx s.reader + pendings cx s.writer

variable [Counted R] [Counted W] [AsyncBufRead R] [AsyncWrite W]

theorem polls_copy (hr : BufReadRegisters R) (hw : WriteRegisters W) :
    Polls (CopyFuture.poll (R := R) (W := W)) := by
  intro cx s
  rw [CopyFuture.poll]
  generalize cx.fuel = fuel
  -- What the other side has counted is kept.
  have hwriter : ∀ n (t : CopyFuture R W) (w : W) k, n ≤ pendings cx t →
      pendings cx t.writer + k ≤ pendings cx w → n + k ≤ pendings cx { t with writer := w } := by
    intro n t w k ht hk
    change n ≤ pendings cx t.reader + pendings cx t.writer at ht
    change _ ≤ pendings cx t.reader + pendings cx w
    omega
  induction fuel generalizing s with
  | zero => trivial
  | succ fuel ih =>
    refine (hr.pollFillBuf cx s.reader).readyOk (fun r k hk => ?_) fun buffer t ht => ?_
    · change pendings cx s.reader + pendings cx s.writer + k ≤ pendings cx r + pendings cx s.writer
      omega
    · refine .ite (fun _ => ?_) fun _ => ?_
      · exact (hw.pollFlush cx t.writer).readyOk (fun w k => hwriter _ t w k ht) fun _ _ hu => hu
      · refine (hw.pollWrite cx buffer t.writer).readyOk (fun w k => hwriter _ t w k ht)
          fun n u hu => ?_
        refine .ite (fun _ => hu) fun _ => ?_
        cases hconsume : AsyncBufRead.consume n u.reader with
        | error f => trivial
        | ok reader =>
          have hle : pendings cx s ≤ pendings cx { u with reader, amt := u.amt + n } :=
            Nat.le_trans hu (Nat.add_le_add_right (hr.consume cx hconsume) _)
          exact .mono hle (ih _)

end Copy

/-! ## Every poll -/

/-- Asked for one byte, the reader answers `Interrupted`. -/
def Interrupted [AsyncRead R] (cx : Context) (r : R) : Prop :=
  ∃ e r', pollRead cx 1 r = .ok (.ready (.error e), r') ∧ e.kind = .interrupted

/-- `Bytes` turns `Interrupted` into `Pending`. -/
theorem bytes_registers_iff [AsyncRead R] (cx : Context) (s : Bytes (Logged R)) :
    Registers cx (pendings cx s) (s.pollNext cx) ↔ ¬Interrupted cx s.inner.inner := by
  obtain ⟨⟨inner, log⟩⟩ := s
  rw [Bytes.pollNext, Interrupted]
  change Registers cx _ (ready (Logged.watch ⟨inner, log⟩ cx (pollRead cx 1 inner)) _ _) ↔ _
  have hlogged : Registers cx (pendings cx (⟨inner, log⟩ : Logged R))
      (Logged.watch ⟨inner, log⟩ cx (pollRead cx 1 inner)) := Logged.watch_registers
  dsimp only
  generalize pollRead cx 1 inner = out at hlogged
  rcases out with f | ⟨_ | e | _ | ⟨byte, bs⟩, inner'⟩
  · exact iff_of_true trivial fun ⟨_, _, h, _⟩ => by cases h
  · exact iff_of_true hlogged fun ⟨_, _, h, _⟩ => by cases h
  · constructor
    · rintro h ⟨e', r', heq, hkind⟩
      cases heq
      change Registers cx _ (if e.kind = .interrupted then _ else _) at h
      rw [if_pos hkind] at h
      exact Nat.lt_irrefl _ h
    · exact fun h => .ite (fun hkind => absurd ⟨e, inner', rfl, hkind⟩ h) fun _ => Nat.le_refl _
  · exact iff_of_true (Nat.le_refl _) fun ⟨_, _, h, _⟩ => by cases h
  · exact iff_of_true (Nat.le_refl _) fun ⟨_, _, h, _⟩ => by cases h

section All

variable (R R' B B' W V S T : Type) [AsyncRead R] [AsyncRead R'] [AsyncBufRead B]
  [AsyncBufRead B'] [AsyncWrite W] [AsyncWrite V] [AsyncSeek V] [AsyncSeek S] [Read T] [Write T]
  [Seek T]

structure AdaptersRegister : Prop where
  bufferReader : ReadRegisters (BufferReader (Logged R))
  bufferReaderFill : BufReadRegisters (BufferReader (Logged R))
  bufferReaderSeek : SeekRegisters (BufferReader (Logged S))
  bufferWriter : WriteRegisters (BufferWriter (Logged W))
  bufferWriterSeek : SeekRegisters (BufferWriter (Logged V))
  take : ReadRegisters (Take (Logged R))
  takeFill : BufReadRegisters (Take (Logged B))
  chain : ReadRegisters (Chain (Logged R) (Logged R'))
  chainFill : BufReadRegisters (Chain (Logged B) (Logged B'))
  bytes : ReadRegisters (Bytes (Logged R))
  readHalf : ReadRegisters (ReadHalf (Logged R))
  writeHalf : WriteRegisters (WriteHalf (Logged W))
  assertAsyncRead : ReadRegisters (AssertAsync T)
  assertAsyncWrite : WriteRegisters (AssertAsync T)
  assertAsyncSeek : SeekRegisters (AssertAsync T)

structure FuturesRegister (a : Allocator) : Prop where
  fillBuf : Polls (FillBuf.poll (R := Logged B))
  readUntil : Polls (ReadUntilFuture.poll (R := Logged B))
  readLine : Polls (ReadLineFuture.poll (R := Logged B))
  lines : Polls (Lines.pollNext (R := Logged B))
  split : Polls (Split.pollNext (R := Logged B))
  read : Polls (ReadFuture.poll (R := Logged R))
  readVectored : Polls (ReadVectoredFuture.poll (R := Logged R))
  readToEnd : Polls (ReadToEndFuture.poll (R := Logged R) a)
  readToString : Polls (ReadToStringFuture.poll (R := Logged R) a)
  readExact : Polls (ReadExactFuture.poll (R := Logged R))
  seek : Polls (SeekFuture.poll (S := Logged S))
  write : Polls (WriteFuture.poll (W := Logged W))
  writeVectored : Polls (WriteVectoredFuture.poll (W := Logged W))
  writeAll : Polls (WriteAllFuture.poll (W := Logged W))
  flush : Polls (FlushFuture.poll (W := Logged W))
  close : Polls (CloseFuture.poll (W := Logged W))
  copy : Polls (CopyFuture.poll (R := BufferReader (Logged R)) (W := Logged W))

/-- On every reader, writer and seeker, whatever they answer, a poll is pending only if an
inner poll with its context is. The one exception is `Bytes`, just if its reader answers
`Interrupted`. -/
theorem pending_is_registered_iff (a : Allocator) :
    AdaptersRegister R R' B B' W V S T ∧ FuturesRegister R B W S a ∧
      ∀ cx (s : Bytes (Logged R)),
        Registers cx (pendings cx s) (s.pollNext cx) ↔ ¬Interrupted cx s.inner.inner := by
  refine ⟨?_, ?_, bytes_registers_iff⟩
  · exact {
      bufferReader := readRegisters_bufferReader readRegisters_logged
      bufferReaderFill := bufReadRegisters_bufferReader readRegisters_logged
      bufferReaderSeek := seekRegisters_bufferReader seekRegisters_logged
      bufferWriter := writeRegisters_bufferWriter writeRegisters_logged
      bufferWriterSeek := seekRegisters_bufferWriter writeRegisters_logged seekRegisters_logged
      take := readRegisters_take readRegisters_logged
      takeFill := bufReadRegisters_take bufReadRegisters_logged
      chain := readRegisters_chain readRegisters_logged readRegisters_logged
      chainFill := bufReadRegisters_chain bufReadRegisters_logged bufReadRegisters_logged
      bytes := readRegisters_bytes readRegisters_logged
      readHalf := readRegisters_readHalf readRegisters_logged
      writeHalf := writeRegisters_writeHalf writeRegisters_logged
      assertAsyncRead := readRegisters_assertAsync
      assertAsyncWrite := writeRegisters_assertAsync
      assertAsyncSeek := seekRegisters_assertAsync }
  · exact {
      fillBuf := polls_fillBuf bufReadRegisters_logged
      readUntil := polls_readUntil bufReadRegisters_logged
      readLine := polls_readLine bufReadRegisters_logged
      lines := polls_lines bufReadRegisters_logged
      split := polls_split bufReadRegisters_logged
      read := polls_read readRegisters_logged
      readVectored := polls_readVectored readRegisters_logged
      readToEnd := polls_readToEnd readRegisters_logged a
      readToString := polls_readToString readRegisters_logged a
      readExact := polls_readExact readRegisters_logged
      seek := polls_seek seekRegisters_logged
      write := polls_write writeRegisters_logged
      writeVectored := polls_writeVectored writeRegisters_logged
      writeAll := polls_writeAll writeRegisters_logged
      flush := polls_flush writeRegisters_logged
      close := polls_close writeRegisters_logged
      copy := polls_copy (bufReadRegisters_bufferReader readRegisters_logged)
        writeRegisters_logged }

end All

/-- The only event is an interruption. `Bytes` is pending, and nobody will wake its task. -/
theorem bytes_pending_unregistered :
    let s : Bytes (Logged Swap.ReadUntil.Reader) := ⟨⟨[.error .interrupted], []⟩⟩
    Bytes.pollNext ⟨0, 0⟩ s = .ok (.pending, ⟨⟨[], []⟩⟩) ∧
      ¬Registers ⟨0, 0⟩ (pendings ⟨0, 0⟩ s) (Bytes.pollNext ⟨0, 0⟩ s) :=
  ⟨rfl, Nat.lt_irrefl 0⟩

end Cynthia.AsyncIo
