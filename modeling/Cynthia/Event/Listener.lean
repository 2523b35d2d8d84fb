import Cynthia.Lib.LinkedList
import Cynthia.Lib.Transition
import Mathlib.Algebra.Group.Nat.Defs

/-! `platform/event/listener.rs`: the list of entries with its pointers, and the
operations on an `Event` and its `EventListener`s. An operation takes the lock of the
list once, so it is one step; `notify` reads the atomic count first, and a thread that
waits takes the lock again each time it comes out of `park`. An operation that follows
a dangling pointer or takes one from a count of zero has no result. -/

namespace Cynthia.Listener

open Transition LinkedList

abbrev Addr := Nat

abbrev Waker := Nat

abbrev Thread := Nat

/-- `usize::MAX`. -/
def usizeMax : Nat := 2 ^ 64 - 1

/-- `State` of an entry. -/
inductive Mark where
  | created
  | notified (additional : Bool)
  | polling (w : Waker)
  | waiting (t : Thread)
  deriving DecidableEq, Repr

def Mark.isNotified : Mark → Bool
  | .notified _ => true
  | .created | .polling _ | .waiting _ => false

/-- `Entry`. -/
abbrev Entry := Node Addr Mark

/-- `List`. -/
structure EntryList where
  head : Option Addr
  tail : Option Addr
  start : Option Addr
  len : Nat
  notified : Nat
  cacheUsed : Bool

/-- The entries in memory and the list that the lock protects. -/
structure Memory where
  heap : Heap Addr Mark
  list : EntryList

/-- The address of the cached entry in `Inner`. -/
def cache : Addr := 0

/-- What a notified entry makes known to its owner. -/
inductive Signal where
  | wake (w : Waker)
  | unpark (t : Thread)
  deriving DecidableEq, Repr

def Mark.signal : Mark → List Signal
  | .notified _ | .created => []
  | .polling w => [.wake w]
  | .waiting t => [.unpark t]

/-- Subtract one from an unsigned count. -/
def decrement : Nat → Option Nat
  | 0 => none
  | n + 1 => some n

namespace Memory

/-- `List::insert`; `box` is the address that a new box would get. -/
def insert (m : Memory) (box : Addr) : Option (Addr × Memory) := do
  let l := m.list
  let entry := if l.cacheUsed then box else cache
  let heap := Function.update m.heap entry (some ⟨.created, l.tail, none⟩)
  let heap ← setNext heap l.tail (some entry)
  some (entry, ⟨heap, { l with
    head := match l.tail with
      | none => some entry
      | some _ => l.head
    tail := some entry
    start := match l.start with
      | none => some entry
      | some _ => l.start
    len := l.len + 1
    cacheUsed := true }⟩)

/-- `List::remove`. -/
def remove (m : Memory) (entry : Addr) : Option (Mark × Memory) := do
  let l := m.list
  let node ← m.heap entry
  let prev := node.prev
  let next := node.next
  let heap ← setNext m.heap prev next
  let heap ← setPrev heap next prev
  let node ← heap entry
  let notified ← (if node.val.isNotified then decrement l.notified else some l.notified)
  let len ← decrement l.len
  some (node.val, ⟨Function.update heap entry
      (if entry = cache then some { node with val := .created } else none),
    { head := match prev with
        | none => next
        | some _ => l.head
      tail := match next with
        | none => prev
        | some _ => l.tail
      start := if l.start = some entry then next else l.start
      len := len
      notified := notified
      cacheUsed := if entry = cache then false else l.cacheUsed }⟩)

/-- The loop of `List::notify` and of `List::notify_additional`. -/
def notifyLoop (additional : Bool) : Nat → Memory → Option (Memory × List Signal)
  | 0, m => some (m, [])
  | n + 1, m =>
    match m.list.start with
    | none => some (m, [])
    | some e => do
      let node ← m.heap e
      let (m, signals) ← notifyLoop additional n
        ⟨Function.update m.heap e (some { node with val := .notified additional }),
          { m.list with start := node.next, notified := m.list.notified + 1 }⟩
      some (m, node.val.signal ++ signals)

/-- `List::notify`. -/
def notify (m : Memory) (n : Nat) : Option (Memory × List Signal) :=
  if n ≤ m.list.notified then some (m, []) else notifyLoop false (n - m.list.notified) m

/-- `List::notify_additional`. -/
def notifyAdditional (m : Memory) (n : Nat) : Option (Memory × List Signal) :=
  notifyLoop true n m

/-- Write the state of an entry. -/
def setMark (m : Memory) (entry : Addr) (mark : Mark) : Option Memory :=
  (modify m.heap entry fun node => { node with val := mark }).map fun heap => { m with heap := heap }

end Memory

/-- Where the call of an `EventListener`'s owner is: it holds the listener, it waits
on it, with a deadline or without, or the entry is gone. -/
inductive Phase where
  | unborn
  | held (entry : Addr)
  | waiting (entry : Addr) (deadline : Bool)
  | done
  deriving DecidableEq, Repr

def Phase.entry : Phase → Option Addr
  | .held entry | .waiting entry _ => some entry
  | .unborn | .done => none

/-- The listeners are numbered in the order of `listen`. `passed` are the calls of
`notify` and `notify_additional` that have read the count and go on to take the lock;
`signals` is history. -/
structure State where
  notified : Nat
  mem : Memory
  listeners : Nat → Phase
  created : Nat
  passed : List (Bool × Nat)
  signals : List Signal

/-- An event without `Inner` is like one whose list is empty. -/
def new : State where
  notified := usizeMax
  mem := ⟨Function.update (fun _ => none) cache (some ⟨.created, none, none⟩),
    ⟨none, none, none, 0, 0, false⟩⟩
  listeners _ := .unborn
  created := 0
  passed := []
  signals := []

/-- `Drop for ListGuard`. -/
def unlock (s : State) (m : Memory) : State :=
  { s with
    mem := m
    notified := if m.list.notified < m.list.len then m.list.notified else usizeMax }

def setPhase (s : State) (f : Nat) (phase : Phase) : State :=
  { s with listeners := Function.update s.listeners f phase }

/-- `Event::listen`. Entries are larger than a byte, so fewer than `usize::MAX` fit
into memory. -/
def listen (s : State) (box : Addr) : Option State :=
  if s.mem.heap box = none ∧ s.mem.list.len + 1 < usizeMax then do
    let (entry, m) ← s.mem.insert box
    some { setPhase (unlock s m) s.created (.held entry) with created := s.created + 1 }
  else none

/-- `Event::notify` up to the lock. -/
def notify (s : State) (n : Nat) : Option State :=
  if n ≤ usizeMax then
    if s.notified < n then some { s with passed := s.passed ++ [(false, n)] } else some s
  else none

/-- `Event::notify_additional` up to the lock. -/
def notifyAdditional (s : State) (n : Nat) : Option State :=
  if n ≤ usizeMax then
    if s.notified < usizeMax then some { s with passed := s.passed ++ [(true, n)] } else some s
  else none

/-- The rest of one of these calls. -/
def notifyLocked (s : State) (k : Nat) : Option State :=
  match s.passed[k]? with
  | some (additional, n) => do
    let (m, signals) ← (if additional then s.mem.notifyAdditional n else s.mem.notify n)
    some { unlock s m with passed := s.passed.eraseIdx k, signals := s.signals ++ signals }
  | none => none

/-- A call that finds its entry notified takes it out; the others write `mark`. -/
def takeOr (s : State) (f : Nat) (entry : Addr) (mark : Mark → Option Mark) (phase : Phase) :
    Option State := do
  let node ← s.mem.heap entry
  let m ← s.mem.setMark entry (.notified false)
  if node.val.isNotified then
    let (_, m) ← m.remove entry
    some (setPhase (unlock s m) f .done)
  else
    let mark ← mark node.val
    let m ← m.setMark entry mark
    some (setPhase (unlock s m) f phase)

/-- `Future::poll`; a listener cannot be polled while it is waited for. -/
def poll (s : State) (f : Nat) (w : Waker) : Option State :=
  match s.listeners f with
  | .held entry => takeOr s f entry
    (fun mark => match mark with
      | .waiting _ => none
      | .polling w' => some (if w' = w then .polling w' else .polling w)
      | _ => some (.polling w)) (.held entry)
  | _ => none

/-- `wait_internal` up to the first `park`. -/
def wait (s : State) (f : Nat) (t : Thread) (deadline : Bool) : Option State :=
  match s.listeners f with
  | .held entry => takeOr s f entry (fun _ => some (.waiting t)) (.waiting entry deadline)
  | _ => none

/-- `wait_internal` after `park`, which may also return for no reason. -/
def woken (s : State) (f : Nat) : Option State :=
  match s.listeners f with
  | .waiting entry deadline => takeOr s f entry some (.waiting entry deadline)
  | _ => none

/-- `wait_internal` after the deadline. -/
def expired (s : State) (f : Nat) : Option State :=
  match s.listeners f with
  | .waiting entry true => do
    let (_, m) ← s.mem.remove entry
    some (setPhase (unlock s m) f .done)
  | _ => none

def discard (s : State) (f : Nat) : Option State :=
  match s.listeners f with
  | .held entry => do
    let (_, m) ← s.mem.remove entry
    some (setPhase (unlock s m) f .done)
  | _ => none

/-- What the drop of a listener does with the notification of its entry. -/
def handOn (mark : Mark) (m : Memory) : Option (Memory × List Signal) :=
  match mark with
  | .notified true => m.notifyAdditional 1
  | .notified false => m.notify 1
  | _ => some (m, [])

/-- `Drop for EventListener`. -/
def drop (s : State) (f : Nat) : Option State :=
  match s.listeners f with
  | .held entry => do
    let (mark, m) ← s.mem.remove entry
    let (m, signals) ← handOn mark m
    some { setPhase (unlock s m) f .done with signals := s.signals ++ signals }
  | _ => none

inductive Act where
  | listen (box : Addr)
  | notify (n : Nat)
  | notifyAdditional (n : Nat)
  | notifyLocked (k : Nat)
  | poll (f : Nat) (w : Waker)
  | wait (f : Nat) (t : Thread) (deadline : Bool)
  | woken (f : Nat)
  | expired (f : Nat)
  | discard (f : Nat)
  | drop (f : Nat)
  deriving DecidableEq, Repr

def step (s : State) : Act → Option State
  | .listen box => listen s box
  | .notify n => notify s n
  | .notifyAdditional n => notifyAdditional s n
  | .notifyLocked k => notifyLocked s k
  | .poll f w => poll s f w
  | .wait f t deadline => wait s f t deadline
  | .woken f => woken s f
  | .expired f => expired s f
  | .discard f => discard s f
  | .drop f => drop s f

def system : System State Act := ⟨new, step⟩

end Cynthia.Listener
