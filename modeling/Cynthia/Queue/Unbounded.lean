import Cynthia.Lib.Transition
import Cynthia.Queue.Fifo

/-! `Unbounded` of `platform/queue/unbounded.rs`: `push`, `pop` and `close`, at the
granularity of their atomic operations and of the accesses to a slot's value. The
indices are natural numbers, as those of the source are while fewer than `31 * 2 ^ 58`
pushes have claimed a slot. A block gets its name, the number of blocks before it,
when `Box::into_raw` makes it a pointer that others can see; it is not used again when
the block is freed. -/

namespace Cynthia.Queue

open Transition Linearizability

namespace Unbounded

def lap : Nat := 32

def blockCap : Nat := lap - 1

def shift : Nat := 1

def markBit : Nat := 1

/-- A slot: its value (`none` if it was never written, or moved out) and the three
bits of its state. -/
structure Slot (α : Type) where
  value : Option α
  write : Bool
  read : Bool
  destroy : Bool
  deriving DecidableEq

structure Block (α : Type) where
  next : Option Nat
  slots : Nat → Slot α
  freed : Bool

def Block.new {α : Type} : Block α := ⟨none, fun _ => ⟨none, false, false, false⟩, false⟩

structure Position where
  index : Nat
  block : Option Nat
  deriving DecidableEq

end Unbounded

structure Unbounded (α : Type) where
  head : Unbounded.Position
  tail : Unbounded.Position
  blocks : Nat → Unbounded.Block α
  /-- How many blocks were made public. -/
  published : Nat

namespace Unbounded

variable {α : Type}

/-- Program points, each before one access to the shared memory. `next` says whether
the call has a block of its own in `next_block`. -/
inductive Pc (α : Type) where
  | idle
  | pushIndex (value : α) (next : Bool)
  | pushBlock (value : α) (next : Bool) (tail : Nat)
  | pushInstall (value : α) (next : Bool) (tail : Nat)
  | pushHead (value : α) (next : Bool) (tail block : Nat)
  | pushCas (value : α) (next : Bool) (tail block : Nat)
  -- at the end of a block
  | pushStoreBlock (value : α) (tail block : Nat)
  | pushAdd (value : α) (tail block new : Nat)
  | pushNext (value : α) (tail block new : Nat)
  | pushWrite (value : α) (tail block : Nat)
  | pushSet (tail block : Nat)
  | popIndex
  | popBlock (head : Nat)
  | popTail (head : Nat) (block : Option Nat)
  | popCas (head newHead block : Nat)
  -- at the end of a block
  | popNext (head newHead block : Nat)
  | popPeek (head newHead block next : Nat)
  | popStoreBlock (head nextIndex block next : Nat)
  | popStoreIndex (head nextIndex block : Nat)
  | popWait (head block : Nat)
  | popRead (head block : Nat)
  | popSet (head block : Nat) (value : Option α)
  | destroyLoad (block i : Nat) (value : Option α)
  | destroyOr (block i : Nat) (value : Option α)
  | closeOr
  | panicked
  | done
  deriving DecidableEq

/-- The queue and the calls on it. The last three fields are history: the calls and
returns so far, the values in the order in which their pushes claimed `tail`, and the
number of pops that claimed `head`. -/
structure State (α : Type) where
  queue : Unbounded α
  calls : Nat → Pc α
  hist : List (Event (Op α) (Res α))
  claims : List α
  popped : Nat

/-- `Unbounded::new`. -/
def new : State α where
  queue := ⟨⟨0, none⟩, ⟨0, none⟩, fun _ => .new, 0⟩
  calls := fun _ => .idle
  hist := []
  claims := []
  popped := 0

namespace State

variable (s : State α)

def goto (id : Nat) (pc : Pc α) : State α :=
  { s with calls := Function.update s.calls id pc }

def ret (id : Nat) (res : Res α) : State α :=
  { s with calls := Function.update s.calls id .done, hist := s.hist ++ [.ret id res] }

def setTail (tail : Position) : State α := { s with queue := { s.queue with tail := tail } }

def setHead (head : Position) : State α := { s with queue := { s.queue with head := head } }

def setBlock (b : Nat) (block : Block α) : State α :=
  { s with queue := { s.queue with blocks := Function.update s.queue.blocks b block } }

def setSlot (b i : Nat) (slot : Slot α) : State α :=
  s.setBlock b { s.queue.blocks b with
    slots := Function.update (s.queue.blocks b).slots i slot }

def slot (b i : Nat) : Slot α := (s.queue.blocks b).slots i

/-- `Box::into_raw` of a new block. -/
def publish : State α :=
  { s with queue := { s.queue with
      blocks := Function.update s.queue.blocks s.queue.published .new
      published := s.queue.published + 1 } }

end State

def offset (w : Nat) : Nat := (w >>> shift) % lap

def isMarked (w : Nat) : Bool := w &&& markBit ≠ 0

/-- `w & !MARK_BIT`. -/
def unmark (w : Nat) : Nat := w >>> shift <<< shift

/-- The loop of `push` from its head to the next access, with both parts of the
position loaded. -/
def pushLoop (s : State α) (id : Nat) (value : α) (next : Bool) (tail : Nat)
    (block : Option Nat) : State α :=
  if isMarked tail then s.ret id (.pushClosed value)
  else if offset tail = blockCap then s.goto id (.pushIndex value next)
  else
    let next := next || offset tail + 1 = blockCap
    match block with
    | none => s.goto id (.pushInstall value next tail)
    | some b => s.goto id (.pushCas value next tail b)

/-- The loop of `pop` from its head to the next access. -/
def popLoop (s : State α) (id : Nat) (head : Nat) (block : Option Nat) : State α :=
  if offset head = blockCap then s.goto id .popIndex
  else if isMarked (head + 1 <<< shift) then
    match block with
    | none => s.goto id .popIndex
    | some b => s.goto id (.popCas head (head + 1 <<< shift) b)
  else s.goto id (.popTail head block)

/-- The rest of the body, with the value just loaded from `tail`. -/
def popCheck (s : State α) (id : Nat) (head tail : Nat) (block : Option Nat) : State α :=
  if head >>> shift = tail >>> shift then
    s.ret id (if isMarked tail then .popClosed else .empty)
  else
    let newHead := head + 1 <<< shift
    let newHead :=
      if (head >>> shift) / lap ≠ (tail >>> shift) / lap then newHead ||| markBit else newHead
    match block with
    | none => s.goto id .popIndex
    | some b => s.goto id (.popCas head newHead b)

/-- One step of a call. `compare_exchange_weak` may fail for no reason (`weak`). -/
def exec (s : State α) (id : Nat) (weak : Bool) : Option (State α) :=
  match s.calls id with
  | .idle | .done | .panicked => none
  | .pushIndex value next => some (s.goto id (.pushBlock value next s.queue.tail.index))
  | .pushBlock value next tail => some (pushLoop s id value next tail s.queue.tail.block)
  | .pushInstall value next tail => some <| match s.queue.tail.block with
    | none =>
      (s.publish.setTail { s.queue.tail with block := some s.queue.published }).goto id
        (.pushHead value next tail s.queue.published)
    | some _ => s.goto id (.pushIndex value true)
  | .pushHead value next tail block => some <|
    (s.setHead { s.queue.head with block := some block }).goto id (.pushCas value next tail block)
  | .pushCas value next tail block => some <|
    if weak = false ∧ s.queue.tail.index = tail then
      { s.setTail { s.queue.tail with index := tail + 1 <<< shift } with
          claims := s.claims ++ [value] }.goto id <|
        if offset tail + 1 = blockCap then
          if next then .pushStoreBlock value tail block else .panicked
        else .pushWrite value tail block
    else s.goto id (.pushBlock value next s.queue.tail.index)
  | .pushStoreBlock value tail block => some <|
    (s.publish.setTail { s.queue.tail with block := some s.queue.published }).goto id
      (.pushAdd value tail block s.queue.published)
  | .pushAdd value tail block new => some <|
    (s.setTail { s.queue.tail with index := s.queue.tail.index + 1 <<< shift }).goto id
      (.pushNext value tail block new)
  | .pushNext value tail block new => some <|
    (s.setBlock block { s.queue.blocks block with next := some new }).goto id
      (.pushWrite value tail block)
  | .pushWrite value tail block => some <|
    (s.setSlot block (offset tail)
      { s.slot block (offset tail) with value := some value }).goto id (.pushSet tail block)
  | .pushSet tail block => some <|
    (s.setSlot block (offset tail) { s.slot block (offset tail) with write := true }).ret id
      .pushed
  | .popIndex => some (s.goto id (.popBlock s.queue.head.index))
  | .popBlock head => some (popLoop s id head s.queue.head.block)
  | .popTail head block => some (popCheck s id head s.queue.tail.index block)
  | .popCas head newHead block => some <|
    if weak = false ∧ s.queue.head.index = head then
      { s.setHead { s.queue.head with index := newHead } with popped := s.popped + 1 }.goto id <|
        if offset head + 1 = blockCap then .popNext head newHead block else .popWait head block
    else s.goto id (.popBlock s.queue.head.index)
  | .popNext head newHead block => match (s.queue.blocks block).next with
    | none => some s
    | some next => some (s.goto id (.popPeek head newHead block next))
  | .popPeek head newHead block next =>
    let nextIndex := unmark newHead + 1 <<< shift
    some <| s.goto id <| .popStoreBlock head
      (if (s.queue.blocks next).next = none then nextIndex else nextIndex ||| markBit) block next
  | .popStoreBlock head nextIndex block next => some <|
    (s.setHead { s.queue.head with block := some next }).goto id
      (.popStoreIndex head nextIndex block)
  | .popStoreIndex head nextIndex block => some <|
    (s.setHead { s.queue.head with index := nextIndex }).goto id (.popWait head block)
  | .popWait head block =>
    if (s.slot block (offset head)).write then some (s.goto id (.popRead head block)) else some s
  | .popRead head block =>
    let slot := s.slot block (offset head)
    some <| (s.setSlot block (offset head) { slot with value := none }).goto id <|
      if offset head + 1 = blockCap then .destroyLoad block 0 slot.value
      else .popSet head block slot.value
  | .popSet head block value =>
    let slot := s.slot block (offset head)
    let t := s.setSlot block (offset head) { slot with read := true }
    some <| if slot.destroy then t.goto id (.destroyLoad block (offset head + 1) value)
      else t.ret id (.popped value)
  | .destroyLoad block i value => some <|
    if i < blockCap - 1 then
      s.goto id <| if (s.slot block i).read then .destroyLoad block (i + 1) value
        else .destroyOr block i value
    else (s.setBlock block { s.queue.blocks block with freed := true }).ret id (.popped value)
  | .destroyOr block i value =>
    let slot := s.slot block i
    let t := s.setSlot block i { slot with destroy := true }
    some <| if slot.read then t.goto id (.destroyLoad block (i + 1) value)
      else t.ret id (.popped value)
  | .closeOr => some <|
    (s.setTail { s.queue.tail with index := s.queue.tail.index ||| markBit }).ret id
      (.closed (!isMarked s.queue.tail.index))

inductive Act (α : Type) where
  | call (id : Nat) (op : Op α)
  | step (id : Nat) (weak : Bool)
  deriving DecidableEq

def entry : Op α → Pc α
  | .push value => .pushIndex value false
  | .pop => .popIndex
  | .close => .closeOr

/-- Any number of calls, each under a name of its own. -/
def step (s : State α) : Act α → Option (State α)
  | .call id op => match s.calls id with
    | .idle => some { s.goto id (entry op) with hist := s.hist ++ [.call id op] }
    | _ => none
  | .step id weak => exec s id weak

def system : System (State α) (Act α) := ⟨new, step⟩

end Unbounded

end Cynthia.Queue
