import Cynthia.Channel.Event
import Cynthia.Lib.Census
import Cynthia.Lib.Transition

/-! The async mutex, `platform/lock/mutex.rs`: any number of `lock` and `lock_arc`
futures, of `try_lock` and `try_lock_arc` calls and of guards. A step is one
operation on the state word or on `lock_ops`. -/

namespace Cynthia.Lock.Mutex

open Transition Channels

/-- `usize::MAX`. -/
def usizeMax : Nat := 2 ^ 64 - 1

/-- Where a call goes on after the drop of its listener. -/
inductive Next where
  | hold
  | starve
  | unstarve (acquired : Bool)
  | done
  deriving DecidableEq, Repr

/-- The place a call has reached, up to the drop of its guard. The flag `starved`
tells the second loop of `acquire_slow` from the first. -/
inductive Pc where
  | tryLock
  | lock
  | listen (starved : Bool)
  /-- In front of the compare-exchange between `listen` and `await`. -/
  | check (starved : Bool)
  /-- In front of the poll of its listener. -/
  | await (starved : Bool)
  /-- Not polled at the moment: the last poll returned `Pending`. -/
  | suspended (starved : Bool)
  /-- Behind `await`: in front of the compare-exchange, or of `fetch_or`. -/
  | recheck (starved : Bool)
  /-- In front of `lock_ops.notify(1)` inside `acquire_slow`. -/
  | owe (starved : Bool)
  /-- In front of the drop of its listener. -/
  | leave (next : Next)
  /-- In front of `fetch_add(2)`. -/
  | starve
  /-- In front of the `fetch_sub(2)` of `CallOnDrop`. -/
  | unstarve (acquired : Bool)
  /-- The guard is with the caller. -/
  | holding
  | release
  | releaseNotify
  | done
  deriving DecidableEq, Repr

structure Shared where
  word : Nat
  lockOps : Event
  deriving DecidableEq, Repr

def Next.pc : Next → Pc
  | .hold => .holding
  | .starve => .starve
  | .unstarve acquired => .unstarve acquired
  | .done => .done

/-- The next step of the call `f`. `elapsed` is the answer of the clock to
`start.elapsed() > 500µs`. There is no step when the process aborts. -/
def exec (sh : Shared) (f : Nat) (elapsed : Bool) : Pc → Option (Pc × Shared)
  | .tryLock => some <|
    if sh.word = 0 then (.holding, { sh with word := 1 }) else (.done, sh)
  | .lock => some <|
    if sh.word = 0 then (.holding, { sh with word := 1 }) else (.listen false, sh)
  | .listen starved => some (.check starved, { sh with lockOps := sh.lockOps.listen f })
  | .check false => some <|
    if sh.word = 0 then (.leave .hold, { sh with word := 1 })
    else if sh.word = 1 then (.await false, sh)
    else (.leave .starve, sh)
  | .check true => some <|
    if sh.word = 2 then (.leave (.unstarve true), { sh with word := 2 ||| 1 })
    else if sh.word % 2 = 1 then (.await true, sh)
    else (.owe true, sh)
  | .await starved => some <|
    if (f, true) ∈ sh.lockOps then
      (.recheck starved, { sh with lockOps := sh.lockOps.remove f })
    else (.suspended starved, sh)
  | .recheck false => some <|
    if sh.word = 0 then (.holding, { sh with word := 1 })
    else if sh.word = 1 then (if elapsed then .starve else .listen false, sh)
    else (.owe false, sh)
  | .recheck true => some
    (if sh.word % 2 = 0 then .unstarve true else .listen true, { sh with word := sh.word ||| 1 })
  | .owe starved => some
    (if starved then .await true else .starve, { sh with lockOps := sh.lockOps.notify 1 })
  | .leave next => some (next.pc, { sh with lockOps := sh.lockOps.drop f })
  | .starve =>
    if sh.word > usizeMax / 2 then none else some (.listen true, { sh with word := sh.word + 2 })
  | .unstarve acquired => some
    (if acquired then .holding else .done, { sh with word := sh.word - 2 })
  | .release => some (.releaseNotify, { sh with word := sh.word - 1 })
  | .releaseNotify => some (.done, { sh with lockOps := sh.lockOps.notify 1 })
  | .suspended _ | .holding | .done => none

/-- The future is polled again. -/
def Pc.poll : Pc → Option Pc
  | .suspended starved => some (.await starved)
  | _ => none

/-- The future is dropped at its await point: first the listener, then `CallOnDrop`. -/
def Pc.cancel : Pc → Option Pc
  | .suspended starved => some (.leave (if starved then .unstarve false else .done))
  | _ => none

/-- `Drop for MutexGuard` and `Drop for MutexGuardArc`. -/
def Pc.dropGuard : Pc → Option Pc
  | .holding => some .release
  | _ => none

structure State where
  sh : Shared
  started : Nat
  calls : Nat → Pc

/-- `Mutex::new`. -/
def State.new : State where
  sh := ⟨0, []⟩
  started := 0
  calls := fun _ => .done

/-- The arc variants clone an `Arc` and take the same steps on the mutex. -/
inductive Act where
  | lock
  | lockArc
  | tryLock
  | tryLockArc
  | poll (f : Nat)
  | cancel (f : Nat)
  | dropGuard (f : Nat)
  | step (f : Nat) (elapsed : Bool)
  deriving DecidableEq, Repr

namespace State

def goto (s : State) (f : Nat) (pc : Pc) : State :=
  { s with calls := Function.update s.calls f pc }

def start (s : State) (pc : Pc) : State :=
  { s with started := s.started + 1, calls := Function.update s.calls s.started pc }

end State

def step (s : State) : Act → Option State
  | .lock | .lockArc => some (s.start .lock)
  | .tryLock | .tryLockArc => some (s.start .tryLock)
  | .poll f => (s.calls f).poll.map (s.goto f)
  | .cancel f => (s.calls f).cancel.map (s.goto f)
  | .dropGuard f => (s.calls f).dropGuard.map (s.goto f)
  | .step f elapsed =>
    (exec s.sh f elapsed (s.calls f)).map fun r => { s.goto f r.1 with sh := r.2 }

def system : System State Act := ⟨.new, step⟩

/-- The call has the lock: its guard exists, or is about to be returned or released. -/
def Pc.holds : Pc → Bool
  | .leave .hold | .leave (.unstarve true) | .unstarve true | .holding | .release => true
  | _ => false

/-- The call is in the starved phase, between `fetch_add(2)` and `fetch_sub(2)`. -/
def Pc.starved : Pc → Bool
  | .listen starved | .check starved | .await starved | .suspended starved | .recheck starved
  | .owe starved => starved
  | .leave (.unstarve _) | .unstarve _ => true
  | _ => false

/-- A guard exists: it is with the caller or its drop has begun. -/
def Pc.isGuard : Pc → Bool
  | .holding | .release => true
  | _ => false

/-- Neither inside a poll nor inside the drop of a guard or of a future. -/
def Pc.atRest : Pc → Bool
  | .suspended _ | .holding | .done => true
  | _ => false

end Cynthia.Lock.Mutex
