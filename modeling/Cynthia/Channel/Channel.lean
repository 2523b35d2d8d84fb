import Cynthia.Channel.Event
import Cynthia.Lib.Transition

/-! The channel, `platform/channel/channel.rs`: any number of calls of `send`,
`try_send`, `recv`, `try_recv`, `poll_next` and `close`. A step is one operation
on the queue or on one of the three events. -/

namespace Cynthia.Channels

open Transition

/-- Which function a call is in. A call of `recv`, `send` or `poll_next` lasts
from its first poll until it is ready or dropped. -/
inductive Kind (α : Type) where
  | send (msg : α)
  | trySend (msg : α)
  | recv
  | tryRecv
  | next
  | close
  deriving DecidableEq, Repr

inductive Pc where
  /-- In front of `queue.push`, `queue.pop` or `queue.close`. -/
  | attempt
  | listen
  /-- In front of the poll of its listener. -/
  | await
  /-- Not polled at the moment: the last poll returned `Pending`. -/
  | suspended
  -- in front of a `notify` on the event named
  | oweSend
  | oweRecv
  | oweStream
  /-- In front of the check of the capacity and the second `notify` of `send` and `recv`. -/
  | chain
  /-- In front of the drop of its listener, if it has one. -/
  | finish
  | done
  deriving DecidableEq, Repr

inductive Outcome (α : Type) where
  | sent
  | full (msg : α)
  | sendClosed (msg : α)
  | received (msg : α)
  | empty
  | recvClosed
  | closed (first : Bool)
  deriving DecidableEq, Repr

structure Call (α : Type) where
  kind : Kind α
  pc : Pc
  out : Option (Outcome α)
  deriving DecidableEq, Repr

structure Channel (α : Type) where
  /-- `queue.capacity()`, `None` for an unbounded queue. -/
  capacity : Option Nat
  queue : List α
  closed : Bool
  sendOps : Event
  recvOps : Event
  streamOps : Event
  senderCount : Nat
  receiverCount : Nat
  calls : Nat → Call α

variable {α : Type}

/-- `bounded(cap)` or `unbounded()`. -/
def Channel.new (capacity : Option Nat) : Channel α where
  capacity := capacity
  queue := []
  closed := false
  sendOps := []
  recvOps := []
  streamOps := []
  senderCount := 1
  receiverCount := 1
  calls := fun _ => ⟨.close, .done, none⟩

namespace Channel

def isFull (s : Channel α) : Prop := ∃ cap, s.capacity = some cap ∧ cap ≤ s.queue.length

instance (s : Channel α) : Decidable s.isFull :=
  match h : s.capacity with
  | none => isFalse (by simp [isFull, h])
  | some cap => decidable_of_iff (cap ≤ s.queue.length) (by simp [isFull, h])

def setCall (s : Channel α) (f : Nat) (c : Call α) : Channel α :=
  { s with calls := Function.update s.calls f c }

def goto (s : Channel α) (f : Nat) (pc : Pc) : Channel α := s.setCall f { s.calls f with pc := pc }

/-- The call is about to return. -/
def finish (s : Channel α) (f : Nat) (pc : Pc) (out : Outcome α) : Channel α :=
  s.setCall f { s.calls f with pc := pc, out := some out }

/-- The event on which calls of this kind listen. -/
def event (s : Channel α) : Kind α → Event
  | .send _ | .trySend _ => s.sendOps
  | .recv | .tryRecv | .close => s.recvOps
  | .next => s.streamOps

def setEvent (s : Channel α) (e : Event) : Kind α → Channel α
  | .send _ | .trySend _ => { s with sendOps := e }
  | .recv | .tryRecv | .close => { s with recvOps := e }
  | .next => { s with streamOps := e }

/-- `Full` or `Empty`: the second time the call has a listener and awaits it. -/
def retry (s : Channel α) (f : Nat) : Channel α :=
  s.goto f (if f ∈ (s.event (s.calls f).kind).map Prod.fst then .await else .listen)

/-- One operation on the queue. -/
def attempt (s : Channel α) (f : Nat) : Channel α :=
  match (s.calls f).kind with
  | .send msg =>
    if s.closed then s.finish f .finish (.sendClosed msg)
    else if s.isFull then s.retry f
    else { s with queue := s.queue ++ [msg] }.finish f .oweRecv .sent
  | .trySend msg =>
    if s.closed then s.finish f .finish (.sendClosed msg)
    else if s.isFull then s.finish f .finish (.full msg)
    else { s with queue := s.queue ++ [msg] }.finish f .oweRecv .sent
  | .recv | .next => match s.queue with
    | msg :: rest => { s with queue := rest }.finish f .oweSend (.received msg)
    | [] => if s.closed then s.finish f .finish .recvClosed else s.retry f
  | .tryRecv => match s.queue with
    | msg :: rest => { s with queue := rest }.finish f .oweSend (.received msg)
    | [] => s.finish f .finish (if s.closed then .recvClosed else .empty)
  | .close =>
    if s.closed then s.finish f .finish (.closed false)
    else { s with closed := true }.finish f .oweSend (.closed true)

/-- The next step of a call. -/
def exec (s : Channel α) (f : Nat) : Option (Channel α) :=
  let kind := (s.calls f).kind
  match (s.calls f).pc with
  | .attempt => some (s.attempt f)
  | .listen => some ((s.setEvent ((s.event kind).listen f) kind).goto f .attempt)
  | .await => some <|
    if (f, true) ∈ s.event kind then
      (s.setEvent ((s.event kind).remove f) kind).goto f .attempt
    else s.goto f .suspended
  | .oweSend => some <| match kind with
    | .close => { s with sendOps := s.sendOps.notifyAll }.goto f .oweRecv
    | .recv => { s with sendOps := s.sendOps.notify 1 }.goto f .chain
    | _ => { s with sendOps := s.sendOps.notify 1 }.goto f .finish
  | .oweRecv => some <| match kind with
    | .close => { s with recvOps := s.recvOps.notifyAll }.goto f .oweStream
    | _ => { s with recvOps := s.recvOps.notify 1 }.goto f .oweStream
  | .oweStream => some <| { s with streamOps := s.streamOps.notifyAll }.goto f <|
    match kind with
    | .send _ => .chain
    | _ => .finish
  | .chain => some <| match kind with
    | .send _ =>
      if s.capacity = some 1 then s.goto f .finish
      else { s with sendOps := s.sendOps.notify 1 }.goto f .finish
    | _ =>
      if s.capacity = some 1 then s.goto f .finish
      else { s with recvOps := s.recvOps.notify 1 }.goto f .finish
  | .finish => some ((s.setEvent ((s.event kind).drop f) kind).goto f .done)
  | .suspended | .done => none

end Channel

inductive Act (α : Type) where
  | start (f : Nat) (kind : Kind α)
  /-- Poll a suspended call again. -/
  | poll (f : Nat)
  /-- Drop a suspended call. -/
  | drop (f : Nat)
  | step (f : Nat)
  | cloneSender
  | cloneReceiver
  /-- Drop a handle; the last one of its side calls `close` as the call named. -/
  | dropSender (f : Nat)
  | dropReceiver (f : Nat)
  deriving DecidableEq, Repr

/-- Start a call under a name that is not in use. -/
def Channel.start (s : Channel α) (f : Nat) (kind : Kind α) : Option (Channel α) :=
  if (s.calls f).pc = .done then some (s.setCall f ⟨kind, .attempt, none⟩) else none

def step (s : Channel α) : Act α → Option (Channel α)
  | .start f kind => s.start f kind
  | .poll f => if (s.calls f).pc = .suspended then some (s.goto f .await) else none
  | .drop f => if (s.calls f).pc = .suspended then some (s.goto f .finish) else none
  | .step f => s.exec f
  | .cloneSender => some { s with senderCount := s.senderCount + 1 }
  | .cloneReceiver => some { s with receiverCount := s.receiverCount + 1 }
  | .dropSender f =>
    let t := { s with senderCount := s.senderCount - 1 }
    if s.senderCount = 0 then none else if s.senderCount = 1 then t.start f .close else some t
  | .dropReceiver f =>
    let t := { s with receiverCount := s.receiverCount - 1 }
    if s.receiverCount = 0 then none else if s.receiverCount = 1 then t.start f .close else some t

def system (capacity : Option Nat) : System (Channel α) (Act α) := ⟨.new capacity, step⟩

end Cynthia.Channels
