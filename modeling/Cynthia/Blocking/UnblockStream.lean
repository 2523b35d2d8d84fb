import Cynthia.Channel.Wakeups

/-! `Stream for Unblock` of `runtime/blocking/blocking.rs`: an iterator whose items a background
task sends through a channel, with calls of `poll_next` on the other side. `poll_stop` is
called by `poll_next` and by `get_mut`, and may be left at any `Pending`. The two sides take
turns in any order, one step of the channel or of the iterator at a time. -/

namespace Cynthia.Blocking.UnblockStream

open Transition Channels

/-- The block of the background task. -/
inductive TaskPc where
  /-- In front of `next` of the iterator. -/
  | next
  /-- In `sender.send(item).await`. -/
  | send
  /-- The loop is left. -/
  | leave
  /-- `sender` is being dropped. -/
  | close
  | done
  deriving DecidableEq, Repr

/-- `State::Idle(Some(iter))` and `State::Streaming(any, task)`; `receiver` says that `any` is
`Some`. The calls on the channel are `0` for `send`, `1` for `poll_next`, and `2` and `3` for
the two `close`. -/
inductive Unblock (α : Type) where
  | idle
  | streaming (receiver : Bool) (channel : Channel α) (task : TaskPc)

inductive Pc where
  | rest
  /-- At the top of the loop of `poll_next`. -/
  | top
  /-- In `poll_next` of the receiver. -/
  | receive
  /-- The receiver has returned `None`. -/
  | ended
  /-- In `poll_stop`, for `poll_next` or for `get_mut`. -/
  | stop (next : Bool)
  deriving DecidableEq, Repr

/-- `asked` counts the calls of `next` of the iterator. The other fields are history: whether
the last call has returned `Pending`; which of the iterator's answers `poll_next` has
returned, and which are lost; and what it has returned. -/
structure State (α : Type) where
  asked : Nat
  unblock : Unblock α
  pc : Pc
  pending : Bool
  passed : List Bool
  answers : List (Option α)

variable {α : Type}

def new : State α := ⟨0, .idle, .rest, false, [], []⟩

/-- The call returns `Pending`. -/
def State.wait (s : State α) : State α := { s with pc := .rest, pending := true }

/-- `poll_next` returns. -/
def State.ready (s : State α) (answer : Option α) : State α :=
  { s with pc := .rest, passed := s.passed ++ [true], answers := s.answers ++ [answer] }

/-- The next step of `poll_stop`: `any` is taken, its receiver is dropped, and then the task is
polled. -/
def stop (s : State α) (next receiver : Bool) (ch : Channel α) (task : TaskPc) : Option (State α) :=
  let on (a : Channels.Act α) : Option (State α) :=
    (Channels.step ch a).map fun ch => { s with unblock := .streaming false ch task }
  if receiver then on (.dropReceiver 3)
  else if (ch.calls 3).pc ≠ .done then on (.step 3)
  else match (ch.calls 1).pc with
    | .suspended => on (.drop 1)
    | .done =>
      match task with
      | .done => some { s with
          unblock := .idle
          pc := if next then .top else .rest
          passed := s.passed ++ List.replicate (s.asked - s.passed.length) false }
      | _ => some s.wait
    | _ => on (.step 1)

/-- The next step of a call. -/
def front (cap : Nat) (s : State α) : Option (State α) :=
  match s.pc, s.unblock with
  | .top, .idle => some { s with unblock := .streaming true (.new (some cap)) .next }
  | .top, .streaming true ch task =>
    (Channels.step ch (if (ch.calls 1).pc = .suspended then .poll 1 else .start 1 .next)).map
      fun ch => { s with unblock := .streaming true ch task, pc := .receive }
  | .top, .streaming false _ _ => some { s with pc := .stop true }
  | .receive, .streaming receiver ch task =>
    match (ch.calls 1).pc with
    | .suspended => some s.wait
    | .done =>
      match (ch.calls 1).out with
      | some (.received msg) => some (s.ready (some msg))
      | _ => some { s with pc := .ended }
    | _ => (Channels.step ch (.step 1)).map fun ch =>
      { s with unblock := .streaming receiver ch task }
  | .ended, .streaming _ _ .done => some { s.ready none with unblock := .idle }
  | .ended, .streaming _ _ _ => some s.wait
  | .stop next, .idle => some { s with pc := if next then .top else .rest }
  | .stop next, .streaming receiver ch task => stop s next receiver ch task
  | .rest, _ | .receive, .idle | .ended, .idle => none

/-- The next step of the background task; `iter` is what the calls of `next` return. -/
def back (iter : Nat → Option α) (s : State α) : Option (State α) :=
  match s.unblock with
  | .idle => none
  | .streaming receiver ch task =>
    let on (a : Channels.Act α) (task : TaskPc) : Option (State α) :=
      (Channels.step ch a).map fun ch => { s with unblock := .streaming receiver ch task }
    let goto (task : TaskPc) : State α := { s with unblock := .streaming receiver ch task }
    match task with
    | .next =>
      match iter s.asked with
      | some item => (on (.start 0 (.send item)) .send).map fun s => { s with asked := s.asked + 1 }
      | none => some { goto .leave with asked := s.asked + 1 }
    | .send =>
      match (ch.calls 0).pc with
      | .suspended => on (.poll 0) .send
      | .done =>
        match (ch.calls 0).out with
        | some .sent => some (goto .next)
        | _ => some (goto .leave)
      | _ => on (.step 0) .send
    | .leave => on (.dropSender 2) .close
    | .close => if (ch.calls 2).pc = .done then some (goto .done) else on (.step 2) .close
    | .done => none

inductive Act where
  | pollNext
  /-- A poll of the future of `get_mut`. -/
  | getMut
  | front
  | back
  deriving DecidableEq, Repr

def step (cap : Nat) (iter : Nat → Option α) (s : State α) : Act → Option (State α)
  | .pollNext => if s.pc = .rest then some { s with pc := .top, pending := false } else none
  | .getMut => if s.pc = .rest then some { s with pc := .stop false, pending := false } else none
  | .front => front cap s
  | .back => back iter s

def system (cap : Nat) (iter : Nat → Option α) : System (State α) Act := ⟨new, step cap iter⟩

end Cynthia.Blocking.UnblockStream
