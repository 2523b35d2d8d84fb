import Cynthia.Channel.Event
import Cynthia.Lib.Exchange
import Cynthia.Lib.Transition

/-! Child processes, `process/mod.rs` on Unix: `Child::new`, `Child::status`, `try_status`,
the two `Drop` implementations and the thread `cynthia-process`. A step is one system
call, one critical section or one forcing of a `Lazy`. A process may end at any time, so
`kill` is no step of its own; the crate `signal_hook` keeps one mark for all signals
that have come in since they were last asked for. -/

namespace Cynthia.Process

open Transition Channels Exchange

/-- `exited` is a zombie of the operating system; a process that was waited for is `reaped`,
and its `std::process::Child` keeps the status. -/
inductive Phase where
  | running
  | exited (status : Nat)
  | reaped (status : Nat)
  deriving DecidableEq

/-- `std::process::Child::try_wait`. -/
def Phase.tryWait : Phase → Option Nat × Phase
  | .running => (none, .running)
  | .exited status | .reaped status => (some status, .reaped status)

/-- Where `Child::new`, and later `Drop for ChildGuard`, has come to. -/
inductive GuardPc where
  | free
  | spawned
  /-- `wrap` has failed: the process is dropped before it is in a guard. -/
  | failed
  | signals
  | live
  | dropLock
  | dropWait
  | dropPush
  | gone
  deriving DecidableEq

structure Proc where
  phase : Phase
  reapOnDrop : Bool
  /-- The `Child` has not been dropped. -/
  owned : Bool
  guard : GuardPc

/-- The points of the future that `status` returns; `listening` says that `listener` is `Some`. -/
inductive CallPc where
  | free
  | fresh
  | tryWait (listening : Bool)
  | listen
  | await
  /-- The last poll has returned `Pending`. -/
  | asleep
  | done (status : Nat)
  | dropped
  deriving DecidableEq

structure Call where
  child : Nat
  pc : CallPc

inductive ThreadPc where
  | absent
  | wait
  | notify
  | lock
  | scan (i : Nat)
  deriving DecidableEq

/-- Who has locked `ZOMBIES`. -/
inductive Locker where
  | thread
  | guard (c : Nat)
  deriving DecidableEq

structure State where
  procs : Nat → Proc
  spawned : Nat
  calls : Nat → Call
  started : Nat
  /-- `SIGNALS` is forced: the handler is installed. -/
  handler : Bool
  pending : Bool
  sigchld : Event
  thread : ThreadPc
  zombies : List Nat
  lock : Option Locker

def State.new : State where
  procs _ := ⟨.running, false, false, .free⟩
  spawned := 0
  calls _ := ⟨0, .free⟩
  started := 0
  handler := false
  pending := false
  sigchld := []
  thread := .absent
  zombies := []
  lock := none

/-- The call has a clone of the `Arc` that the guard is in. -/
def Call.holds (call : Call) (c : Nat) : Bool :=
  call.child == c && match call.pc with
    | .free | .done _ | .dropped => false
    | _ => true

namespace State

def setGuard (s : State) (c : Nat) (guard : GuardPc) : State :=
  { s with procs := Function.update s.procs c { s.procs c with guard } }

def setPhase (s : State) (c : Nat) (phase : Phase) : State :=
  { s with procs := Function.update s.procs c { s.procs c with phase } }

def setPc (s : State) (f : Nat) (pc : CallPc) : State :=
  { s with calls := Function.update s.calls f { s.calls f with pc } }

def spawn (s : State) (reapOnDrop : Bool) : State :=
  { s with
    procs := Function.update s.procs s.spawned ⟨.running, reapOnDrop, true, .spawned⟩
    spawned := s.spawned + 1 }

/-- The operating system sends `SIGCHLD`. It is lost while there is no handler. -/
def exit (s : State) (c status : Nat) : State :=
  { s.setPhase c (.exited status) with pending := s.pending || s.handler }

def status (s : State) (c : Nat) : State :=
  { s with calls := Function.update s.calls s.started ⟨c, .fresh⟩, started := s.started + 1 }

/-- Somebody has a clone of the `Arc` that the guard is in. -/
def held (s : State) (c : Nat) : Bool :=
  (s.procs c).owned || (List.range s.started).any fun f => (s.calls f).holds c

/-- `try_wait` of the loop of `status`. When it returns, `listener` goes out of scope. -/
def checkStatus (s : State) (f : Nat) (listening : Bool) : State :=
  let c := (s.calls f).child
  match (s.procs c).phase.tryWait with
  | (some status, phase) =>
    { (s.setPhase c phase).setPc f (.done status) with
      sigchld := if listening then s.sigchld.drop f else s.sigchld }
  | (none, _) => s.setPc f (if listening then .await else .listen)

/-- One access of a poll of the future. -/
def poll (s : State) (f : Nat) : Option State :=
  match (s.calls f).pc with
  | .fresh => some (s.checkStatus f false)
  | .tryWait listening => some (s.checkStatus f listening)
  | .listen => some ({ s with sigchld := s.sigchld.listen f }.setPc f (.tryWait true))
  | .await | .asleep =>
    if (f, true) ∈ s.sigchld then
      some ({ s with sigchld := s.sigchld.remove f }.setPc f (.tryWait false))
    else some (s.setPc f .asleep)
  | .free | .done _ | .dropped => none

/-- The future is dropped between two polls. -/
def dropCall (s : State) (f : Nat) : Option State :=
  match (s.calls f).pc with
  | .fresh => some (s.setPc f .dropped)
  | .asleep => some { s.setPc f .dropped with sigchld := s.sigchld.drop f }
  | _ => none

/-- One access of `Drop for ChildGuard`, by the thread that drops the last `Arc`. -/
def dropGuard (s : State) (c : Nat) : Option State :=
  match (s.procs c).guard with
  | .live =>
    if s.held c then none
    else some (s.setGuard c (if (s.procs c).reapOnDrop then .dropLock else .gone))
  | .dropLock =>
    if s.lock = none then some { s.setGuard c .dropWait with lock := some (.guard c) } else none
  | .dropWait =>
    match (s.procs c).phase.tryWait with
    | (none, _) => some (s.setGuard c .dropPush)
    | (some _, phase) => some { (s.setPhase c phase).setGuard c .gone with lock := none }
  | .dropPush => some { s.setGuard c .gone with zombies := s.zombies ++ [c], lock := none }
  | _ => none

/-- One access of the thread `cynthia-process`. -/
def process (s : State) : Option State :=
  match s.thread with
  | .absent => none
  | .wait => if s.pending then some { s with pending := false, thread := .notify } else none
  | .notify => some { s with sigchld := s.sigchld.notifyAll, thread := .lock }
  | .lock =>
    if s.lock = none then some { s with lock := some .thread, thread := .scan 0 } else none
  | .scan i =>
    match s.zombies[i]? with
    | none => some { s with lock := none, thread := .wait }
    | some c =>
      match (s.procs c).phase.tryWait with
      | (none, _) => some { s with thread := .scan (i + 1) }
      | (some _, phase) => some { s.setPhase c phase with zombies := swapRemove s.zombies i }

end State

inductive Act where
  /-- `cmd.inner.spawn()` in `Child::new`. -/
  | spawn (reapOnDrop : Bool)
  /-- `wrap` returns an error. -/
  | wrapFails (c : Nat)
  /-- `Lazy::force(&SIGNALS)`. -/
  | forceSignals (c : Nat)
  /-- `Lazy::force(&ZOMBIES)`, and `Child::new` returns. -/
  | forceZombies (c : Nat)
  /-- The process ends. -/
  | exit (c status : Nat)
  /-- Another `SIGCHLD`. -/
  | signal
  | tryStatus (c : Nat)
  | status (c : Nat)
  | poll (f : Nat)
  | dropCall (f : Nat)
  | dropChild (c : Nat)
  | dropGuard (c : Nat)
  | process
  deriving DecidableEq

def step (s : State) : Act → Option State
  | .spawn reapOnDrop => some (s.spawn reapOnDrop)
  | .wrapFails c => if (s.procs c).guard = .spawned then some (s.setGuard c .failed) else none
  | .forceSignals c =>
    if (s.procs c).guard = .spawned then some { s.setGuard c .signals with handler := true }
    else none
  | .forceZombies c =>
    if (s.procs c).guard = .signals then
      some { s.setGuard c .live with thread := if s.thread = .absent then .wait else s.thread }
    else none
  | .exit c status =>
    if (s.procs c).guard ≠ .free ∧ (s.procs c).phase = .running then some (s.exit c status)
    else none
  | .signal => if s.handler then some { s with pending := true } else none
  | .tryStatus c =>
    if (s.procs c).guard = .live ∧ (s.procs c).owned then
      some (s.setPhase c (s.procs c).phase.tryWait.2)
    else none
  | .status c =>
    if (s.procs c).guard = .live ∧ (s.procs c).owned then some (s.status c) else none
  | .poll f => s.poll f
  | .dropCall f => s.dropCall f
  | .dropChild c =>
    if (s.procs c).guard = .live ∧ (s.procs c).owned then
      some { s with procs := Function.update s.procs c { s.procs c with owned := false } }
    else none
  | .dropGuard c => s.dropGuard c
  | .process => s.process

def system : System State Act := ⟨.new, step⟩

end Cynthia.Process
