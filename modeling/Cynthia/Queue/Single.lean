import Cynthia.Lib.Transition
import Cynthia.Queue.Fifo

/-! `Single` of `platform/queue/single.rs`, the queue that `ConcurrentQueue::bounded` makes
for a capacity of one: `push`, `pop` and `close`, at the granularity of their atomic
operations and of the accesses to the slot. -/

namespace Cynthia.Queue

open Transition Linearizability

/-- `none` is memory that was never written, or whose value was moved out. -/
structure Single (α : Type) where
  state : BitVec 64
  slot : Option α
  deriving DecidableEq

namespace Single

variable {α : Type}

def LOCKED : BitVec 64 := 1
def PUSHED : BitVec 64 := 2
def CLOSED : BitVec 64 := 4

/-- Program points, each before one access to the shared memory. `state` is what a pop
expects. -/
inductive Pc (α : Type) where
  | idle
  | pushCas (value : α)
  | pushWrite (value : α)
  | pushUnlock
  | popCas (state : BitVec 64)
  | popRead
  | popUnlock (value : Option α)
  | closeOr
  | done
  deriving DecidableEq

/-- The queue and the calls on it. The last three fields are history: the calls and returns
so far, whether a pop has found the slot free since a value was last claimed, and which
calls were made after that. -/
structure State (α : Type) where
  queue : Single α
  calls : Nat → Pc α
  hist : List (Event (Op α) (Res α))
  emptied : Bool
  late : Nat → Bool

/-- `Single::new`. -/
def new : State α where
  queue := ⟨0, none⟩
  calls _ := .idle
  hist := []
  emptied := false
  late _ := false

namespace State

variable (s : State α)

def goto (id : Nat) (pc : Pc α) : State α :=
  { s with calls := Function.update s.calls id pc }

def ret (id : Nat) (res : Res α) : State α :=
  { s with calls := Function.update s.calls id .done, hist := s.hist ++ [.ret id res] }

def setState (state : BitVec 64) : State α := { s with queue := { s.queue with state } }

def setSlot (slot : Option α) : State α := { s with queue := { s.queue with slot } }

end State

/-- One step of a call. -/
def exec (s : State α) (id : Nat) : Option (State α) :=
  let state := s.queue.state
  match s.calls id with
  | .idle | .done => none
  | .pushCas value => some <|
    if state = 0 then (s.setState (LOCKED ||| PUSHED)).goto id (.pushWrite value)
    else if state &&& CLOSED ≠ 0 then s.ret id (.pushClosed value)
    else s.ret id (.full value)
  | .pushWrite value => some ((s.setSlot (some value)).goto id .pushUnlock)
  | .pushUnlock => some ((s.setState (state &&& ~~~LOCKED)).ret id .pushed)
  | .popCas expected => some <|
    if state = expected then
      { s.setState ((expected ||| LOCKED) &&& ~~~PUSHED) with
        emptied := false
        late := fun _ => false }.goto id .popRead
    else if state &&& PUSHED = 0 then
      { s with emptied := true }.ret id (if state &&& CLOSED = 0 then .empty else .popClosed)
    else if state &&& LOCKED = 0 then s.goto id (.popCas state)
    else s.goto id (.popCas (state &&& ~~~LOCKED))
  | .popRead => some ((s.setSlot none).goto id (.popUnlock s.queue.slot))
  | .popUnlock value => some ((s.setState (state &&& ~~~LOCKED)).ret id (.popped value))
  | .closeOr => some ((s.setState (state ||| CLOSED)).ret id (.closed (state &&& CLOSED = 0)))

inductive Act (α : Type) where
  | call (id : Nat) (op : Op α)
  | step (id : Nat)
  deriving DecidableEq

def entry : Op α → Pc α
  | .push value => .pushCas value
  | .pop => .popCas PUSHED
  | .close => .closeOr

/-- Any number of calls, each under a name of its own. -/
def step (s : State α) : Act α → Option (State α)
  | .call id op => match s.calls id with
    | .idle => some { s.goto id (entry op) with
        hist := s.hist ++ [.call id op]
        late := Function.update s.late id s.emptied }
    | _ => none
  | .step id => exec s id

def system : System (State α) (Act α) := ⟨new, step⟩

end Single

end Cynthia.Queue
