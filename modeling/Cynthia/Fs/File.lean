import Cynthia.Blocking.Calm
import Cynthia.Fs.Plain

/-! `File` of `fs/fs.rs` over `Unblock` of `runtime/blocking/blocking.rs`: the call in
progress and the background task take turns in any order, one access to the pipe or
to the file at a time. A poll that returns `Pending` is started over, so that a call
is at the point that its next poll reaches. The file itself is a plain one. -/

namespace Cynthia.Fs

open Transition Blocking

/-- The states of `Unblock` that a `File` uses. The flag of `reading` and `writing`
says whether the `Option` of this end of the pipe still has it; the task is where the
other end of the pipe is. A `seeking` task has its result once it has run. -/
inductive Unblock where
  | idle
  | reading (reader : Bool) (p : Blocking.State)
  | writing (writer : Bool) (p : Blocking.State)
  | seeking (pos : SeekFrom) (res : Option (Option Nat))

/-- Program points of a call: in `File::poll_reposition`; in `Unblock::poll_seek`;
in `Unblock::poll_read`, in its `drain` with what this has put into the buffer, or
polling the task at the end of the stream; in `Unblock::poll_write` or in its `fill`
with the number of bytes that this has taken; in `Unblock::poll_flush`; in the closure
that `sync_all`, `sync_data` and `set_len` run. -/
inductive Pc where
  | rest
  | reposition (op : Op)
  | seek (pos : SeekFrom) (op : Op)
  | read (len : Nat)
  | drain (len : Nat) (got : List (Option UInt8))
  | ended (len : Nat)
  | write (buf : List UInt8)
  | fill (buf : List UInt8) (taken : Nat)
  | flush (op : Op)
  | sync (op : Op)
  deriving DecidableEq, Repr

/-- `log` is history: the completed operations with their results. In `readPos` an
inner `none` is an error. -/
structure File where
  std : Plain
  unblock : Unblock
  readPos : Option (Option Nat)
  isDirty : Bool
  pc : Pc
  log : List (Op × Res)

def File.new (std : Plain) (isDirty : Bool) : File := ⟨std, .idle, none, isDirty, .rest, []⟩

/-! ## Unblock -/

/-- One round of the loop of `poll_stop`, with whether it returns an error. An end that
is taken out is dropped; the task is then waited for. -/
def stop : Unblock → Option (Unblock × Bool)
  | .idle => none
  | .reading true p => (Blocking.step p .dropReader).map fun p => (.reading false p, false)
  | .reading false p =>
    if p.rpc = .dropped then
      if p.wpc = .dropped then some (.idle, false) else none
    else (Blocking.step p .readerStep).map fun p => (.reading false p, false)
  | .writing true p => (Blocking.step p .dropWriter).map fun p => (.writing false p, false)
  | .writing false p =>
    if p.wpc = .dropped then
      if p.rpc = .dropped then some (.idle, false) else none
    else (Blocking.step p .writerStep).map fun p => (.writing false p, false)
  | .seeking _ res => res.map fun res => (.idle, decide (res = none))

/-- One round of the loop of `poll_seek`, with its result when it returns. -/
def pollSeek (pos : SeekFrom) : Unblock → Option (Unblock × Option (Option Nat))
  | .idle => some (.seeking pos none, none)
  | .seeking pos' res => res.map fun res =>
    (.idle, if res = none ∨ pos' = pos then some res else none)
  | u => (stop u).map fun (u, failed) => (u, if failed then some none else none)

namespace File

def finish (s : File) (op : Op) (res : Res) : File :=
  { s with pc := .rest, log := s.log ++ [(op, res)] }

/-- A round of `poll_stop` inside the loop of another function. -/
def pollStop (s : File) (op : Op) : Option File :=
  (stop s.unblock).map fun (u, failed) =>
    if failed then { s with unblock := u }.finish op .error else { s with unblock := u }

def start (s : File) (op : Op) : Option File :=
  if s.pc = .rest then
    match op with
    | .read len =>
      if len = 0 then none
      else some { s with pc := if s.readPos = none then .reposition op else .read len }
    | .write _ | .seek _ => some { s with pc := .reposition op }
    | .flush => some (if s.isDirty then { s with pc := .flush op } else s.finish op .unit)
    | .syncAll | .syncData | .setLen _ => some { s with pc := .flush op }
  else none

/-- What follows `poll_reposition` in `poll_write` and in `poll_seek`; the latter is
also the first part of `poll_read`. -/
def repositioned (s : File) (op : Op) : File :=
  match op with
  | .write buf => { s with readPos := none, isDirty := true, pc := .write buf }
  | .seek pos => { s with readPos := none, pc := .seek pos op }
  | _ => { s with readPos := none, pc := .seek (.current 0) op }

def reposition (s : File) (op : Op) : Option File :=
  match s.readPos with
  | some (some pos) => (pollSeek (.start pos) s.unblock).map fun
    | (u, none) => { s with unblock := u }
    | (u, some none) => { s with unblock := u }.finish op .error
    | (u, some (some _)) => { s with unblock := u }.repositioned op
  | _ => some (s.repositioned op)

/-- The result of `poll_seek` is the caller's, or the `read_pos` of a read. -/
def seek (s : File) (pos : SeekFrom) (op : Op) : Option File :=
  (pollSeek pos s.unblock).map fun
  | (u, none) => { s with unblock := u }
  | (u, some res) => match op with
    | .read len => { s with unblock := u, readPos := some res, pc := .read len }
    | _ => { s with unblock := u }.finish op (.pos res)

def read (cap : Capacity) (s : File) (cx : Waker) (len : Nat) : Option File :=
  match s.unblock with
  | .idle => some { s with unblock := .reading true (Blocking.pipe cap) }
  | .reading true p => (Blocking.step p (.drain cx)).map fun p =>
      { s with unblock := .reading true p, pc := .drain len [] }
  | _ => s.pollStop (.read len)

/-- `*pos += n`. -/
def advance (s : File) (n : Nat) : File :=
  { s with readPos := s.readPos.map fun pos => pos.map fun pos => pos + n }

/-- Inside `drain`, or just after it has returned. The destination takes what it has
room for. -/
def drain (s : File) (yields : Bool) (len : Nat) (got : List (Option UInt8)) : Option File :=
  match s.unblock with
  | .reading true p =>
    if p.rpc = .idle then
      match p.rret with
      | some (.ready (.ok 0)) => some { s with pc := .ended len }
      | some (.ready (.ok n)) => some ((s.advance n).finish (.read len) (.read n got))
      | some (.ready (.error _)) => some (s.finish (.read len) .error)
      | _ => some { s with pc := .read len }
    else
      (Blocking.step p (drainAct p yields (min (offered p) (len - got.length)))).map fun q =>
        { s with
          unblock := .reading true q
          pc := .drain len (got ++ copied p (min (offered p) (len - got.length))) }
  | _ => none

/-- `drain` has returned `0`: the task is polled, and the read is over once it is. -/
def ended (s : File) (len : Nat) : Option File :=
  match s.unblock with
  | .reading true p =>
    if p.wpc = .dropped then
      some (({ s with unblock := .idle }.advance 0).finish (.read len) (.read 0 []))
    else some { s with pc := .read len }
  | _ => none

def write (cap : Capacity) (s : File) (cx : Waker) (buf : List UInt8) : Option File :=
  match s.unblock with
  | .idle => some { s with unblock := .writing true (Blocking.pipe cap) }
  | .writing true p => (Blocking.step p (.fill cx)).map fun p =>
      { s with unblock := .writing true p, pc := .fill buf 0 }
  | _ => s.pollStop (.write buf)

/-- Inside `fill`, or just after it has returned. The source is what is left of `buf`. -/
def fill (s : File) (yields : Bool) (buf : List UInt8) (taken : Nat) : Option File :=
  match s.unblock with
  | .writing true p =>
    if p.wpc = .idle then
      match p.wret with
      | some (.ready (.ok n)) => some (s.finish (.write buf) (.wrote n))
      | some (.ready (.error _)) => some (s.finish (.write buf) .error)
      | _ => some { s with pc := .write buf }
    else
      (Blocking.step p (fillAct p yields ((buf.drop taken).take (requested p)))).map fun q =>
        { s with
          unblock := .writing true q
          pc := .fill buf (taken + (supplied p ((buf.drop taken).take (requested p))).length) }
  | _ => none

def flush (s : File) (op : Op) : Option File :=
  match s.unblock with
  | .idle => match op with
    | .flush => some ({ s with isDirty := false }.finish op .unit)
    | _ => some { s with pc := .sync op }
  | _ => s.pollStop op

def sync (s : File) (op : Op) : File :=
  match op with
  | .setLen size => { s with std := s.std.setLen size }.finish op .unit
  | _ => s.finish op .unit

/-- The next step of the call in progress. -/
def front (cap : Capacity) (s : File) (cx : Waker) (yields : Bool) : Option File :=
  match s.pc with
  | .rest => none
  | .reposition op => s.reposition op
  | .seek pos op => s.seek pos op
  | .read len => s.read cap cx len
  | .drain len got => s.drain yields len got
  | .ended len => s.ended len
  | .write buf => s.write cap cx buf
  | .fill buf taken => s.fill yields buf taken
  | .flush op => s.flush op
  | .sync op => some (s.sync op)

/-- The loop around `fill` in the task that reads ahead; the file answers with at most
`n` bytes, and with none only at its end or where it is asked for none. -/
def readAhead (s : File) (cx : Waker) (yields : Bool) (n : Nat) (p : Blocking.State) :
    Option (Plain × Blocking.State) :=
  if p.wpc = .idle then
    match p.wret with
    | some (.ready (.ok 0)) | some (.ready (.error _)) =>
      (Blocking.step p .dropWriter).map fun q => (s.std, q)
    | _ => (Blocking.step p (.fill cx)).map fun q => (s.std, q)
  else if n = 0 ∧ requested p ≠ 0 then none
  else (Blocking.step p (fillAct p yields (s.std.rest.take n))).map fun q =>
    ({ s.std with cursor := s.std.cursor + (supplied p (s.std.rest.take n)).length }, q)

/-- The loop around `drain` in the task that writes; the file takes `n` bytes, and none
only where it is given none. For memory without a value it would take anything. -/
def writeBehind (s : File) (cx : Waker) (yields : Bool) (n : Nat) (p : Blocking.State) :
    Option (Plain × Blocking.State) :=
  if p.rpc = .idle then
    match p.rret with
    | some (.ready (.ok 0)) | some (.ready (.error _)) =>
      (Blocking.step p .dropReader).map fun q => (s.std, q)
    | _ => (Blocking.step p (.drain cx)).map fun q => (s.std, q)
  else if n = 0 ∧ offered p ≠ 0 then none
  else (Blocking.step p (drainAct p yields n)).map fun q =>
    (s.std.write ((copied p n).map fun b => b.getD 0), q)

/-- The next step of the background task. -/
def back (s : File) (cx : Waker) (yields : Bool) (n : Nat) : Option File :=
  match s.unblock with
  | .idle => none
  | .reading reader p => (s.readAhead cx yields n p).map fun (std, q) =>
      { s with std := std, unblock := .reading reader q }
  | .writing writer p => (s.writeBehind cx yields n p).map fun (std, q) =>
      { s with std := std, unblock := .writing writer q }
  | .seeking pos none =>
      some { s with std := (s.std.seek pos).2, unblock := .seeking pos (some (s.std.seek pos).1) }
  | .seeking _ (some _) => none

end File

inductive Act where
  | start (op : Op)
  | front (cx : Waker) (yields : Bool)
  | back (cx : Waker) (yields : Bool) (n : Nat)
  deriving DecidableEq, Repr

def step (cap : Capacity) (s : File) : Act → Option File
  | .start op => s.start op
  | .front cx yields => s.front cap cx yields
  | .back cx yields n => s.back cx yields n

def system (cap : Capacity) (std : Plain) (isDirty : Bool) : System File Act :=
  ⟨.new std isDirty, step cap⟩

/-- The capacity of the pipe that `Unblock` makes for a `File`. -/
def eightMiB : Capacity := ⟨8 * 1024 * 1024, by decide, by decide⟩

/-- Where `read_pos` is known, the cursor of the file itself does not count. -/
def positioned (std : Plain) : Option (Option Nat) → Plain
  | some (some pos) => { std with cursor := pos }
  | _ => std

/-- The plain file that a `File` at rest stands for: what is in the pipe of a writing
task is already written, and what was read ahead is not yet read. -/
def File.logical (s : File) : Plain :=
  match s.unblock with
  | .writing _ p => s.std.write (p.published.drop p.handed.length)
  | _ => positioned s.std s.readPos

/-- The step loses nothing. A read does not start a new task while the file's own cursor
is elsewhere than `read_pos`, as it is after a `poll_flush` that stopped a task which had
read ahead; and a `drain` that finds the pipe closed has loaded its last tail. -/
def losesNothing (s : File) : Act → Bool
  | .start _ => true
  | .front _ _ => match s.pc, s.unblock with
    | .read _, .idle => decide (s.readPos = some (some s.std.cursor))
    | .drain _ _, .reading true p => decide (TailFresh p .readerStep)
    | _, _ => true
  | .back _ _ _ => match s.unblock with
    | .writing _ p => decide (TailFresh p .readerStep)
    | _ => true

def Faithful (s : File) (a : Act) : Prop := losesNothing s a = true

instance (s : File) (a : Act) : Decidable (Faithful s a) := inferInstanceAs (Decidable (_ = _))

end Cynthia.Fs
