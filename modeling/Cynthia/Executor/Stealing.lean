import Cynthia.Executor.State
import Cynthia.Lib.Census
import Cynthia.Queue.Stamps

/-! Work stealing, `runtime/executor.rs`: any number of runners, the queue of the executor
and the local queues. A push and a pop are a step each, since the queues are linearizable;
`len` of a local queue is the loads that it makes. How a runner sleeps is left out: a
search that finds nothing is made again at some later time. -/

namespace Cynthia.Executor.Stealing

open Transition Queue Census

/-- `ConcurrentQueue::bounded(512)`. -/
def capacity : Capacity := ⟨512, by decide, by decide⟩

/-- A local queue: what is in it, and how often it has been popped. -/
structure Local where
  items : List Runnable
  popped : Nat
  deriving DecidableEq, Repr

namespace Local

def new : Local := ⟨[], 0⟩

def pushed (q : Local) : Nat := q.popped + q.items.length

/-- The words of `tail` and `head`. -/
def tail (q : Local) : Nat := capacity.word q.pushed

def head (q : Local) : Nat := capacity.word q.popped

def pop (q : Local) : Option (Runnable × Local) :=
  match q.items with
  | [] => none
  | r :: items => some (r, ⟨items, q.popped + 1⟩)

def push (q : Local) (r : Runnable) : Option Local :=
  if q.items.length < capacity.val then some { q with items := q.items ++ [r] } else none

end Local

/-- The loads of `Bounded::len`. -/
inductive Len where
  | tail
  | head (tail : Nat)
  | again (tail head : Nat)
  deriving DecidableEq, Repr

/-- One load, and the result if it was the last one. -/
def Len.exec (q : Local) : Len → Len ⊕ Nat
  | .tail => .inl (.head q.tail)
  | .head tl => .inl (.again tl q.head)
  | .again tl hd => if q.tail = tl then .inr (capacity.lenOf tl hd) else .inl .tail

/-- Why `steal` is called: it fills the local queue from the queue of the executor, after a
pop of that or on some ticks, or from the local queue `u`, in the scan of those. -/
inductive Job where
  | found (r : Runnable)
  | tick (r : Runnable)
  | scan (u : Tid) (rest : List Tid)
  deriving DecidableEq, Repr

/-- Positions inside `steal`. -/
inductive Steal where
  | srcLen (len : Len)
  | destLen (count : Nat) (len : Len)
  | pop (count : Nat)
  | push (count : Nat) (r : Runnable)
  deriving DecidableEq, Repr

inductive Pc where
  | unborn
  /-- `Runner::new`, in front of `local_queues.write()`. -/
  | register
  /-- Not inside a search: between polls, or while it runs what it was handed. -/
  | idle
  | popLocal
  | popQueue
  | scanRead
  | steal (job : Job) (pos : Steal)
  /-- `self.local.pop()` after a steal from another local queue. -/
  | scanPop (rest : List Tid)
  /-- The search has found `r`, in front of `ticks.fetch_add`. -/
  | tick (r : Runnable)
  | hand (r : Runnable)
  /-- `Drop for Runner`, in front of `local_queues.write()`. -/
  | dropRetain
  | drainPop
  | drainPush (r : Runnable)
  | dropped
  | panicked
  deriving DecidableEq, Repr

/-- The last three fields are history: what has been handed out to be run, what was left in
the local queue of a runner when it left `local_queues`, and what its drop has scheduled. -/
structure State where
  queue : List Runnable
  scheduled : Nat
  localQueues : List Tid
  started : Nat
  locals : Tid → Local
  ticks : Tid → Nat
  runners : Tid → Pc
  handed : List Runnable
  left : Tid → List Runnable
  again : Tid → List Runnable

def State.new : State where
  queue := []
  scheduled := 0
  localQueues := []
  started := 0
  locals _ := .new
  ticks _ := 0
  runners _ := .unborn
  handed := []
  left _ := []
  again _ := []

/-- The runner holds a guard of `local_queues.read()`. -/
def Pc.reads : Pc → Bool
  | .steal (.scan _ _) _ | .scanPop _ => true
  | _ => false

/-- The scan goes on with the next local queue, or is over. -/
def scan : List Tid → Pc
  | [] => .idle
  | u :: rest => .steal (.scan u rest) (.srcLen .tail)

def afterSteal : Job → Pc
  | .found r => .tick r
  | .tick r => .hand r
  | .scan _ rest => .scanPop rest

namespace State

def goto (s : State) (t : Tid) (pc : Pc) : State :=
  { s with runners := Function.update s.runners t pc }

def setLocal (s : State) (t : Tid) (q : Local) : State :=
  { s with locals := Function.update s.locals t q }

/-- Somebody reads `local_queues`. -/
def read (s : State) : Bool := (List.range s.started).any fun t => (s.runners t).reads

/-- `src.pop()`. -/
def popSource (s : State) : Job → Option (Runnable × State)
  | .found _ | .tick _ => match s.queue with
    | [] => none
    | r :: queue => some (r, { s with queue })
  | .scan u _ => (s.locals u).pop.map fun (r, q) => (r, s.setLocal u q)

/-- `src.len()` is known. -/
def counted (s : State) (t : Tid) (job : Job) (len : Nat) : State :=
  let count := (len + 1) / 2
  s.goto t (if count > 0 then .steal job (.destLen count .tail) else afterSteal job)

/-- `steal`. The length of the queue of the executor is any number, `choice`. -/
def execSteal (s : State) (t : Tid) (choice : Nat) (job : Job) : Steal → State
  | .srcLen len => match job with
    | .found _ | .tick _ => s.counted t job choice
    | .scan u _ => match len.exec (s.locals u) with
      | .inl len => s.goto t (.steal job (.srcLen len))
      | .inr n => s.counted t job n
  | .destLen count len => match len.exec (s.locals t) with
    | .inl len => s.goto t (.steal job (.destLen count len))
    | .inr n =>
      if n ≤ capacity.val then s.goto t (.steal job (.pop (min count (capacity.val - n))))
      else s.goto t .panicked
  | .pop 0 => s.goto t (afterSteal job)
  | .pop (count + 1) => match s.popSource job with
    | none => s.goto t (afterSteal job)
    | some (r, s) => s.goto t (.steal job (.push count r))
  | .push count r => match (s.locals t).push r with
    | none => s.goto t .panicked
    | some q => (s.setLocal t q).goto t (.steal job (.pop count))

/-- The next step of a runner; `choice` is also the random start of the scan. -/
def exec (s : State) (t : Tid) (choice : Nat) : Option State :=
  match s.runners t with
  | .register =>
    if s.read then none else some ({ s with localQueues := s.localQueues ++ [t] }.goto t .idle)
  | .idle => some (s.goto t .popLocal)
  | .popLocal => some <| match (s.locals t).pop with
    | none => s.goto t .popQueue
    | some (r, q) => (s.setLocal t q).goto t (.tick r)
  | .popQueue => some <| match s.queue with
    | [] => s.goto t .scanRead
    | r :: queue => { s with queue }.goto t (.steal (.found r) (.srcLen .tail))
  | .scanRead => some <|
    if s.localQueues = [] then s.goto t .panicked
    else s.goto t (scan
      (Executor.State.scanOrder t (choice % s.localQueues.length) s.localQueues))
  | .steal job pos => some (s.execSteal t choice job pos)
  | .scanPop rest => some <| match (s.locals t).pop with
    | none => s.goto t (scan rest)
    | some (r, q) => (s.setLocal t q).goto t (.tick r)
  | .tick r => some
    ({ s with ticks := Function.update s.ticks t ((s.ticks t + 1) % 2 ^ 64) }.goto t
      (if s.ticks t % 64 = 0 then .steal (.tick r) (.srcLen .tail) else .hand r))
  | .hand r => some ({ s with handed := s.handed ++ [r] }.goto t .idle)
  | .dropRetain =>
    if s.read then none
    else some ({ s with
      localQueues := s.localQueues.filter (· ≠ t)
      left := Function.update s.left t (s.locals t).items }.goto t .drainPop)
  | .drainPop => some <| match (s.locals t).pop with
    | none => s.goto t .dropped
    | some (r, q) => (s.setLocal t q).goto t (.drainPush r)
  | .drainPush r => some ({ s with
      queue := s.queue ++ [r]
      again := Function.update s.again t (s.again t ++ [r]) }.goto t .drainPop)
  | .unborn | .dropped | .panicked => none

end State

inductive Act where
  /-- The schedule function of a task is called with a new runnable. -/
  | schedule
  | tryTick
  | newRunner
  | drop (t : Tid)
  | runner (t : Tid) (choice : Nat)
  deriving DecidableEq, Repr

def step (s : State) : Act → Option State
  | .schedule => some { s with queue := s.queue ++ [s.scheduled], scheduled := s.scheduled + 1 }
  | .tryTick => match s.queue with
    | [] => none
    | r :: queue => some { s with queue, handed := s.handed ++ [r] }
  | .newRunner => some
    ({ s.setLocal s.started .new with started := s.started + 1 }.goto s.started .register)
  | .drop t => if s.runners t = .idle then some (s.goto t .dropRetain) else none
  | .runner t choice => s.exec t choice

def system : System State Act := ⟨.new, step⟩

/-- What the runner has popped and not yet passed on. -/
def Pc.held : Pc → List Runnable
  | .steal job pos =>
    (match pos with
      | .push _ r => [r]
      | _ => []) ++
    (match job with
      | .found r | .tick r => [r]
      | .scan _ _ => [])
  | .tick r | .hand r | .drainPush r => [r]
  | _ => []

/-- How often `r` is in some queue, held by some runner, or handed out. -/
def State.copies (s : State) (r : Runnable) : Nat :=
  s.queue.count r + s.handed.count r + total (fun q => q.items.count r) s.started s.locals +
    total (fun pc => pc.held.count r) s.started s.runners

end Cynthia.Executor.Stealing
