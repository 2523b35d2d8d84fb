import Cynthia.Executor.Sleeper
import Cynthia.Lib.Transition
import Mathlib.Data.Multiset.Basic

/-! The executor, `runtime/executor.rs`: the shared `State`, any number of
tickers and runners, and calls of `schedule` and `try_tick` from outside. Every
step is one access to the queues, to `notified`, to a ticker's `sleeping` field
or to what a lock protects. -/

namespace Cynthia.Executor

open Transition

abbrev Runnable := Nat

/-- Identifies a ticker; for a runner also its local queue. -/
abbrev Tid := Nat

/-- Positions inside `State::notify`. -/
inductive Notify where
  | cas
  | lock
  | wake (w : Waker)
  deriving DecidableEq, Repr

/-- What follows a call of `State::notify` made by a ticker. -/
inductive After where
  | ready
  | drain
  | gone
  deriving DecidableEq, Repr

/-- What follows a call of `steal`. -/
inductive StealFor where
  | found
  | scan (rest : List Tid)
  | ticks
  deriving DecidableEq, Repr

inductive Pc where
  /-- Not polled at the moment. -/
  | idle
  -- the search of `runnable` and `runnable_with`
  | popLocal
  | popQueue
  | scanRead
  | scan (rest : List Tid)
  | scanPop (rest : List Tid)
  -- `steal`, from the queue of the executor (`none`) or a local one
  | stealLen (src : Option Tid) (f : StealFor)
  | stealRoom (src : Option Tid) (f : StealFor) (count : Nat)
  | stealPop (src : Option Tid) (f : StealFor) (count : Nat)
  | stealPush (src : Option Tid) (f : StealFor) (count : Nat) (r : Runnable)
  | stealPanic
  -- Ticker::sleep
  | sleepLock
  | sleepSwap
  | sleepUnlock
  -- Ticker::wake
  | wakeSwap
  | wakeLock (id : Nat)
  | wakeFlag
  | wakeUnlock
  | notify (n : Notify) (after : After)
  -- Runner::runnable after the search
  | tick
  -- Drop for Runner, Drop for Ticker
  | dropRetain
  | drainPop
  | drainPush (r : Runnable)
  | dropSwap
  | dropLock (id : Nat)
  | dropFlag (notified : Bool)
  | dropUnlock (notified : Bool)
  /-- Dropped, or not created yet. -/
  | gone
  deriving DecidableEq, Repr

structure Ticker where
  runner : Bool
  pc : Pc
  sleeping : Nat
  /-- `cx.waker()` of the last poll. -/
  waker : Waker
  /-- What the search of the last poll found. -/
  found : Option Runnable
  ticks : Nat
  deriving DecidableEq, Repr

/-- Calls made outside of the tickers: `schedule` and `try_tick`. -/
inductive Call where
  | push (r : Runnable)
  | tryPop
  | notify (n : Notify)
  deriving DecidableEq, Repr

structure State where
  queue : List Runnable
  localQueues : List Tid
  /-- Readers in `local_queues`. -/
  readers : Nat
  locals : Tid → List Runnable
  notified : Bool
  sleepers : Sleeper
  /-- `sleepers` is locked across a step. -/
  locked : Bool
  tickers : Tid → Ticker
  /-- The waker of the ticker's last poll was woken since that poll began. -/
  woken : Tid → Bool
  calls : Multiset Call

def Ticker.gone : Ticker := ⟨false, .gone, 0, 0, none, 0⟩

def State.new : State where
  queue := []
  localQueues := []
  readers := 0
  locals := fun _ => []
  notified := true
  sleepers := .new
  locked := false
  tickers := fun _ => .gone
  woken := fun _ => false
  calls := 0

namespace State

def setTicker (s : State) (t : Tid) (k : Ticker) : State :=
  { s with tickers := Function.update s.tickers t k }

def setLocal (s : State) (t : Tid) (l : List Runnable) : State :=
  { s with locals := Function.update s.locals t l }

def goto (s : State) (t : Tid) (pc : Pc) : State := s.setTicker t { s.tickers t with pc := pc }

def find (s : State) (t : Tid) (r : Runnable) (pc : Pc) : State :=
  s.setTicker t { s.tickers t with pc := pc, found := some r }

def wake (s : State) (w : Waker) : State :=
  { s with woken := fun t => s.woken t || (s.tickers t).waker == w }

def execNotify (s : State) : Notify → Option (Option Notify × State)
  | .cas => some (if s.notified then (none, s) else (some .lock, { s with notified := true }))
  | .lock => if s.locked then none else
    some (s.sleepers.notify.1.map .wake, { s with sleepers := s.sleepers.notify.2 })
  | .wake w => some (none, s.wake w)

def execCall (s : State) : Call → Option (Option Call × State)
  | .push r => some (some (.notify .cas), { s with queue := s.queue ++ [r] })
  | .tryPop => some <| match s.queue with
    | [] => (none, s)
    | _ :: rest => (some (.notify .cas), { s with queue := rest })
  | .notify n => (s.execNotify n).map fun (next, s) => (next.map .notify, s)

/-- The start of `search`. -/
def searchPc (runner : Bool) : Pc := if runner then .popLocal else .popQueue

def afterNotify (runner : Bool) : After → Pc
  | .ready => if runner then .tick else .idle
  | .drain => .drainPop
  | .gone => .gone

def afterSteal : StealFor → Pc
  | .found => .wakeSwap
  | .scan rest => .scanPop rest
  | .ticks => .idle

def source (s : State) : Option Tid → List Runnable
  | none => s.queue
  | some u => s.locals u

def setSource (s : State) (l : List Runnable) : Option Tid → State
  | none => { s with queue := l }
  | some u => s.setLocal u l

/-- `local_queues.iter().chain(local_queues.iter()).skip(start).take(n)` without the own one. -/
def scanOrder (t start : Nat) (l : List Tid) : List Tid :=
  (((l ++ l).drop start).take l.length).filter (· ≠ t)

/-- The search of `runnable` and `steal`; `choice` is the random start of the scan. -/
def execSearch (s : State) (t : Tid) (choice : Nat) : Option State :=
  let k := s.tickers t
  match k.pc with
  | .popLocal => some <| match s.locals t with
    | [] => s.goto t .popQueue
    | r :: rest => (s.setLocal t rest).find t r .wakeSwap
  | .popQueue => some <| match s.queue with
    | [] => s.goto t (if k.runner then .scanRead else .sleepLock)
    | r :: rest =>
      { s with queue := rest }.find t r (if k.runner then .stealLen none .found else .wakeSwap)
  | .scanRead => some <| { s with readers := s.readers + 1 }.goto t
      (.scan (scanOrder t (choice % s.localQueues.length) s.localQueues))
  | .scan rest => some <| match rest with
    | [] => { s with readers := s.readers - 1 }.goto t .sleepLock
    | u :: rest => s.goto t (.stealLen (some u) (.scan rest))
  | .scanPop rest => some <| match s.locals t with
    | [] => s.goto t (.scan rest)
    | r :: l => { s.setLocal t l with readers := s.readers - 1 }.find t r .wakeSwap
  | .stealLen src f =>
    let count := ((s.source src).length + 1) / 2
    some (s.goto t (if 0 < count then .stealRoom src f count else afterSteal f))
  | .stealRoom src f count =>
    some (s.goto t (.stealPop src f (min count (512 - (s.locals t).length))))
  | .stealPop src f count => some <| match count, s.source src with
    | n + 1, r :: rest => (s.setSource rest src).goto t (.stealPush src f n r)
    | _, _ => s.goto t (afterSteal f)
  | .stealPush src f n r => some <|
    if (s.locals t).length < 512 then
      (s.setLocal t (s.locals t ++ [r])).goto t (.stealPop src f n)
    else s.goto t .stealPanic
  | _ => none

/-- `Ticker::sleep`; it holds the lock until it returns. -/
def execSleep (s : State) (t : Tid) : Option State :=
  let k := s.tickers t
  match k.pc with
  | .sleepLock =>
    if s.locked then none
    else if k.sleeping = 0 then
      let (id, sleepers) := s.sleepers.insert k.waker
      some ({ s with sleepers := sleepers, locked := true }.setTicker t
        { k with sleeping := id, pc := .sleepSwap })
    else
      let (again, sleepers) := s.sleepers.update k.sleeping k.waker
      if again then some ({ s with sleepers := sleepers, locked := true }.goto t .sleepSwap)
      else some ({ s with sleepers := sleepers }.goto t .idle)
  | .sleepSwap => some ({ s with notified := s.sleepers.isNotified }.goto t .sleepUnlock)
  | .sleepUnlock => some ({ s with locked := false }.goto t (searchPc k.runner))
  | _ => none

/-- `Ticker::wake`, `State::notify` and the rest of `Runner::runnable`. -/
def execWake (s : State) (t : Tid) : Option State :=
  let k := s.tickers t
  match k.pc with
  | .wakeSwap => some (s.setTicker t
      { k with sleeping := 0,
               pc := if k.sleeping = 0 then .notify .cas .ready else .wakeLock k.sleeping })
  | .wakeLock id =>
    if s.locked then none
    else some ({ s with sleepers := (s.sleepers.remove id).2, locked := true }.goto t .wakeFlag)
  | .wakeFlag => some ({ s with notified := s.sleepers.isNotified }.goto t .wakeUnlock)
  | .wakeUnlock => some ({ s with locked := false }.goto t (.notify .cas .ready))
  | .notify n after => (s.execNotify n).map fun (next, s) =>
      s.goto t (next.elim (afterNotify k.runner after) fun n => .notify n after)
  | .tick => some (s.setTicker t
      { k with ticks := k.ticks + 1,
               pc := if k.ticks % 64 = 0 then .stealLen none .ticks else .idle })
  | _ => none

/-- `Drop for Runner`, then `Drop for Ticker`. -/
def execDrop (s : State) (t : Tid) : Option State :=
  let k := s.tickers t
  match k.pc with
  | .dropRetain =>
    if s.readers = 0 then
      some ({ s with localQueues := s.localQueues.filter (· ≠ t) }.goto t .drainPop)
    else none
  | .drainPop => some <| match s.locals t with
    | [] => s.goto t .dropSwap
    | r :: rest => (s.setLocal t rest).goto t (.drainPush r)
  | .drainPush r => some ({ s with queue := s.queue ++ [r] }.goto t (.notify .cas .drain))
  | .dropSwap => some (s.setTicker t
      { k with sleeping := 0, pc := if k.sleeping = 0 then .gone else .dropLock k.sleeping })
  | .dropLock id =>
    if s.locked then none
    else
      let (notified, sleepers) := s.sleepers.remove id
      some ({ s with sleepers := sleepers, locked := true }.goto t (.dropFlag notified))
  | .dropFlag notified =>
    some ({ s with notified := s.sleepers.isNotified }.goto t (.dropUnlock notified))
  | .dropUnlock notified =>
    some ({ s with locked := false }.goto t (if notified then .notify .cas .gone else .gone))
  | _ => none

end State

inductive Act where
  /-- The schedule function of a task is called. -/
  | schedule (r : Runnable)
  | tryTick
  | newTicker (t : Tid)
  | newRunner (t : Tid)
  | poll (t : Tid) (w : Waker)
  | drop (t : Tid)
  /-- The next step of a ticker or a call. -/
  | ticker (t : Tid) (choice : Nat)
  | call (c : Call)
  deriving DecidableEq, Repr

def step (s : State) : Act → Option State
  | .schedule r => some { s with calls := .push r ::ₘ s.calls }
  | .tryTick => some { s with calls := .tryPop ::ₘ s.calls }
  | .newTicker t =>
    if (s.tickers t).pc = .gone then some (s.setTicker t ⟨false, .idle, 0, 0, none, 0⟩) else none
  | .newRunner t =>
    if (s.tickers t).pc = .gone ∧ s.readers = 0 then
      some ({ s.setLocal t [] with localQueues := s.localQueues ++ [t] }.setTicker t
        ⟨true, .idle, 0, 0, none, 0⟩)
    else none
  | .poll t w =>
    let k := s.tickers t
    if k.pc = .idle then
      some ({ s with woken := Function.update s.woken t false }.setTicker t
        { k with pc := State.searchPc k.runner, waker := w, found := none })
    else none
  | .drop t =>
    if (s.tickers t).pc = .idle then
      some (s.goto t (if (s.tickers t).runner then .dropRetain else .dropSwap))
    else none
  | .ticker t choice =>
    s.execSearch t choice <|> s.execSleep t <|> s.execWake t <|> s.execDrop t
  | .call c =>
    if c ∈ s.calls then
      (s.execCall c).map fun (next, s) =>
        { s with calls := next.elim (s.calls.erase c) fun d => d ::ₘ s.calls.erase c }
    else none

def system : System State Act := ⟨.new, step⟩

end Cynthia.Executor
