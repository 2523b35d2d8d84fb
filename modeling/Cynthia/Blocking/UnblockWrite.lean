import Cynthia.Blocking.Calm

/-! `AsyncWrite for Unblock` of `runtime/blocking/blocking.rs`: an inner writer that gets its
bytes through a pipe, by calls of `poll_write`, `poll_flush` and `poll_close` on one side and by a
background task on the other. The two take turns in any order, one access to the pipe or to the
inner writer at a time. Only these calls are made, so `Unblock` is idle or writing. -/

namespace Cynthia.Blocking.UnblockWrite

open Transition

/-- The block of the background task. -/
inductive TaskPc where
  | drain
  /-- In front of `io.flush()`, with the error of `drain`. -/
  | flush (err : Option IoError)
  /-- The result is there, and `reader` is dropped. -/
  | leave (res : Except IoError Unit)

/-- `State::Idle(Some(io))`, `State::Idle(None)` and `State::Writing(any, task)`; `writer` says
that `any` is `Some`. -/
inductive Unblock where
  | idle
  | closed
  | writing (writer : Bool) (p : Blocking.State) (task : TaskPc)

/-- Program points of a call: at the top of the loop of `poll_write`; in its `fill`, which has
taken so many bytes; in `poll_flush`, for itself or for `poll_close`. -/
inductive Pc where
  | rest
  | write (buf : List UInt8)
  | fill (buf : List UInt8) (taken : Nat)
  | flush (close : Bool)
  deriving DecidableEq, Repr

/-- The inner writer has taken `written`, and its last `flush` that did not fail came after
`flushed` bytes. The last three fields are history: the bytes that `poll_write` has answered
for, where the last call has returned and with what, and whether a call has returned an
error. -/
structure State where
  unblock : Unblock
  pc : Pc
  cx : Waker
  written : List (Option UInt8)
  flushed : Nat
  accepted : List UInt8
  answer : Option (Pc × Poll (Except IoError Nat))
  failed : Bool

def new : State := ⟨.idle, .rest, 0, [], 0, [], none, false⟩

def isError : Poll (Except IoError Nat) → Bool
  | .ready (.error _) => true
  | _ => false

def State.finish (s : State) (res : Poll (Except IoError Nat)) : State :=
  { s with pc := .rest, answer := some (s.pc, res), failed := s.failed || isError res }

/-- What the task has returned. -/
def TaskPc.result (p : Blocking.State) : TaskPc → Option (Except IoError Unit)
  | .leave res => if p.rpc = .dropped then some res else none
  | _ => none

/-- The next step of `poll_stop`: `any` is taken, its writer is dropped, and then the task is
polled. -/
def stop (s : State) (writer : Bool) (p : Blocking.State) (task : TaskPc) : Option State :=
  if writer then (step p .dropWriter).map fun q => { s with unblock := .writing false q task }
  else if p.wpc = .dropped then
    match task.result p with
    | some (.ok ()) => some { s with unblock := .idle }
    | some (.error e) => some (State.finish { s with unblock := .idle } (.ready (.error e)))
    | none => some (s.finish .pending)
  else (step p .writerStep).map fun q => { s with unblock := .writing false q task }

/-- What `fill` gets of `buf` next. -/
def source (p : Blocking.State) (buf : List UInt8) (taken : Nat) : List UInt8 :=
  (buf.drop taken).take (requested p)

/-- Inside `fill`, or just after it has returned. -/
def fill (s : State) (yields : Bool) (buf : List UInt8) (taken : Nat) (p : Blocking.State)
    (task : TaskPc) : Option State :=
  if p.wpc = .idle then
    match p.wret with
    | some (.ready (.ok n)) =>
      some { s.finish (.ready (.ok n)) with accepted := s.accepted ++ buf.take n }
    | some (.ready (.error e)) => some (s.finish (.ready (.error e)))
    | _ => some (s.finish .pending)
  else
    (step p (fillAct p yields (source p buf taken))).map fun q =>
      { s with
        unblock := .writing true q task
        pc := .fill buf (taken + (supplied p (source p buf taken)).length) }

/-- The next step of a call. A `poll_write` after `poll_close` panics. -/
def front (cap : Capacity) (s : State) (yields : Bool) : Option State :=
  match s.pc, s.unblock with
  | .write _, .idle => some { s with unblock := .writing true (pipe cap) .drain }
  | .write buf, .writing true p task => (step p (.fill s.cx)).map fun q =>
      { s with unblock := .writing true q task, pc := .fill buf 0 }
  | .write _, .writing false p task => stop s false p task
  | .fill buf taken, .writing _ p task => fill s yields buf taken p task
  | .flush close, .idle => some
      (State.finish { s with unblock := if close then .closed else .idle } (.ready (.ok 0)))
  | .flush _, .closed => some (s.finish (.ready (.ok 0)))
  | .flush _, .writing writer p task => stop s writer p task
  | .rest, _ | .write _, .closed | .fill _ _, .idle | .fill _ _, .closed => none

/-- The loop around `drain`; the inner writer answers `res`. -/
def drain (s : State) (cx : Waker) (yields : Bool) (res : Except IoError Nat) (writer : Bool)
    (p : Blocking.State) : Option State :=
  let goto (task : TaskPc) : State := { s with unblock := .writing writer p task }
  let on (a : Blocking.Act) : Option State :=
    (step p a).map fun q => { s with unblock := .writing writer q .drain }
  match p.rpc with
  | .idle =>
    match p.rret with
    | some (.ready (.ok 0)) => some (goto (.flush none))
    | some (.ready (.error e)) => some (goto (.flush (some e)))
    | _ => on (.drain cx)
  | .write _ =>
    match res with
    | .ok n => (on (drainAct p yields n)).map fun t => { t with written := s.written ++ copied p n }
    | .error e => on (.destWrite (.error e))
  | _ => on (drainAct p yields 0)

/-- The next step of the background task; `flush` of the inner writer answers `res`, too. -/
def back (s : State) (cx : Waker) (yields : Bool) (res : Except IoError Nat) : Option State :=
  match s.unblock with
  | .idle | .closed => none
  | .writing writer p .drain => drain s cx yields res writer p
  | .writing writer p (.flush err) =>
    match err, res with
    | none, .error e => some { s with unblock := .writing writer p (.leave (.error e)) }
    | some err, .error _ => some { s with unblock := .writing writer p (.leave (.error err)) }
    | none, .ok _ => some
        { s with unblock := .writing writer p (.leave (.ok ())), flushed := s.written.length }
    | some err, .ok _ => some
        { s with unblock := .writing writer p (.leave (.error err)), flushed := s.written.length }
  | .writing writer p (.leave res) =>
    (step p (if p.rpc = .idle then .dropReader else .readerStep)).map fun q =>
      { s with unblock := .writing writer q (.leave res) }

inductive Act where
  | pollWrite (buf : List UInt8) (cx : Waker)
  | pollFlush (cx : Waker)
  | pollClose (cx : Waker)
  | front (yields : Bool)
  | back (cx : Waker) (yields : Bool) (res : Except IoError Nat)
  deriving DecidableEq

def call (s : State) (pc : Pc) (cx : Waker) : Option State :=
  if s.pc = .rest then some { s with pc := pc, cx := cx, answer := none } else none

def act (cap : Capacity) (s : State) : Act → Option State
  | .pollWrite buf cx => call s (.write buf) cx
  | .pollFlush cx => call s (.flush false) cx
  | .pollClose cx => call s (.flush true) cx
  | .front yields => front cap s yields
  | .back cx yields res => back s cx yields res

def system (cap : Capacity) : System State Act := ⟨new, act cap⟩

end Cynthia.Blocking.UnblockWrite
