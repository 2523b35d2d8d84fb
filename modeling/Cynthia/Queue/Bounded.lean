import Cynthia.Lib.Transition
import Cynthia.Queue.Fifo
import Cynthia.Queue.Stamps

/-! `Bounded` of `platform/queue/bounded.rs`: `push`, `pop` and `close`, at the
granularity of their atomic operations and of the accesses to a slot's value. -/

namespace Cynthia.Queue

open Transition Linearizability

/-- A slot. `none` is memory that was never written, or whose value was moved out. -/
structure Bounded.Slot (α : Type) where
  stamp : Nat
  value : Option α
  deriving DecidableEq

structure Bounded (α : Type) where
  head : Nat
  tail : Nat
  buffer : Nat → Bounded.Slot α

namespace Bounded

variable {α : Type}

/-- Program points, each before one access to the shared memory. The words are the
values that the call has loaded. -/
inductive Pc (α : Type) where
  | idle
  | pushLoad (value : α)
  | pushStamp (value : α) (tail : Nat)
  | pushCas (value : α) (tail : Nat)
  | pushHead (value : α) (tail : Nat)
  | pushWrite (value : α) (tail : Nat)
  | pushStore (tail : Nat)
  | popLoad
  | popStamp (head : Nat)
  | popCas (head : Nat)
  | popTail (head : Nat)
  | popRead (head : Nat)
  | popStore (head : Nat) (value : Option α)
  | closeOr
  | done
  deriving DecidableEq

/-- The queue and the calls on it. The last four fields are history: the calls and
returns so far, how many pushes and pops have claimed a slot, and what that number
was when a call last loaded `tail` (for a push) or `head` (for a pop). -/
structure State (α : Type) where
  queue : Bounded α
  calls : Nat → Pc α
  hist : List (Event (Op α) (Res α))
  pushed : Nat
  popped : Nat
  seen : Nat → Nat

/-- `Bounded::new`. -/
def new : State α where
  queue := ⟨0, 0, fun i => ⟨i, none⟩⟩
  calls := fun _ => .idle
  hist := []
  pushed := 0
  popped := 0
  seen := fun _ => 0

namespace State

variable (s : State α)

def goto (id : Nat) (pc : Pc α) : State α :=
  { s with calls := Function.update s.calls id pc }

def ret (id : Nat) (res : Res α) : State α :=
  { s with calls := Function.update s.calls id .done, hist := s.hist ++ [.ret id res] }

/-- Remember which ticket the word just loaded is for. -/
def look (id ticket : Nat) : State α := { s with seen := Function.update s.seen id ticket }

def setTail (tail : Nat) : State α := { s with queue := { s.queue with tail := tail } }

def setHead (head : Nat) : State α := { s with queue := { s.queue with head := head } }

def setSlot (i : Nat) (slot : Slot α) : State α :=
  { s with queue := { s.queue with buffer := Function.update s.queue.buffer i slot } }

end State

variable (cap : Capacity)

/-- The index of a word that is not marked. -/
def indexOf (w : Nat) : Nat := w &&& (cap.markBit - 1)

/-- `new_tail` and `new`. -/
def claimed (w : Nat) : Nat :=
  let lap := w &&& complement (cap.oneLap - 1)
  if indexOf cap w + 1 < cap.val then wrappingAdd w 1 else wrappingAdd lap cap.oneLap

/-- The head of the loop of `push`, with the value just loaded from `tail`. -/
def pushLoop (s : State α) (id : Nat) (value : α) : State α :=
  if s.queue.tail &&& cap.markBit ≠ 0 then s.ret id (.pushClosed value)
  else (s.look id s.pushed).goto id (.pushStamp value s.queue.tail)

/-- The head of the loop of `pop`, with the value just loaded from `head`. -/
def popLoop (s : State α) (id : Nat) : State α :=
  (s.look id s.popped).goto id (.popStamp s.queue.head)

/-- One step of a call. `compare_exchange_weak` may fail for no reason (`weak`). -/
def exec (s : State α) (id : Nat) (weak : Bool) : Option (State α) :=
  match s.calls id with
  | .idle | .done => none
  | .pushLoad value => some (pushLoop cap s id value)
  | .pushStamp value tail =>
    let stamp := (s.queue.buffer (indexOf cap tail)).stamp
    some <| s.goto id <|
      if tail = stamp then .pushCas value tail
      else if wrappingAdd stamp cap.oneLap = wrappingAdd tail 1 then .pushHead value tail
      else .pushLoad value
  | .pushCas value tail => some <|
    if weak = false ∧ s.queue.tail = tail then
      { s.setTail (claimed cap tail) with pushed := s.pushed + 1 }.goto id (.pushWrite value tail)
    else pushLoop cap s id value
  | .pushHead value tail => some <|
    if wrappingAdd s.queue.head cap.oneLap = tail then s.ret id (.full value)
    else s.goto id (.pushLoad value)
  | .pushWrite value tail =>
    let i := indexOf cap tail
    some <| (s.setSlot i { s.queue.buffer i with value := some value }).goto id (.pushStore tail)
  | .pushStore tail =>
    let i := indexOf cap tail
    some <| (s.setSlot i { s.queue.buffer i with stamp := wrappingAdd tail 1 }).ret id .pushed
  | .popLoad => some (popLoop s id)
  | .popStamp head =>
    let stamp := (s.queue.buffer (indexOf cap head)).stamp
    some <| s.goto id <|
      if wrappingAdd head 1 = stamp then .popCas head
      else if stamp = head then .popTail head
      else .popLoad
  | .popCas head => some <|
    if weak = false ∧ s.queue.head = head then
      { s.setHead (claimed cap head) with popped := s.popped + 1 }.goto id (.popRead head)
    else popLoop s id
  | .popTail head => some <|
    if s.queue.tail &&& complement cap.markBit = head then
      s.ret id (if s.queue.tail &&& cap.markBit ≠ 0 then .popClosed else .empty)
    else s.goto id .popLoad
  | .popRead head =>
    let i := indexOf cap head
    let slot := s.queue.buffer i
    some <| (s.setSlot i { slot with value := none }).goto id (.popStore head slot.value)
  | .popStore head value =>
    let i := indexOf cap head
    some <| (s.setSlot i { s.queue.buffer i with stamp := wrappingAdd head cap.oneLap }).ret id
      (.popped value)
  | .closeOr =>
    some <| (s.setTail (s.queue.tail ||| cap.markBit)).ret id
      (.closed (s.queue.tail &&& cap.markBit = 0))

inductive Act (α : Type) where
  | call (id : Nat) (op : Op α)
  | step (id : Nat) (weak : Bool)
  deriving DecidableEq

def entry : Op α → Pc α
  | .push value => .pushLoad value
  | .pop => .popLoad
  | .close => .closeOr

/-- Any number of calls, each under a name of its own. -/
def step (s : State α) : Act α → Option (State α)
  | .call id op => match s.calls id with
    | .idle => some { s.goto id (entry op) with hist := s.hist ++ [.call id op] }
    | _ => none
  | .step id weak => exec cap s id weak

def system : System (State α) (Act α) := ⟨new, step cap⟩

end Bounded

end Cynthia.Queue
