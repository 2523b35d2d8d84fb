import Cynthia.Io.Source
import Cynthia.Lib.Transition

/-! The I/O side of `io/reactor.rs` as a system of threads: `add_io`, `remove_io`,
`Source::poll_ready`, the futures of `Source::ready`, and `react` with the poller
between them. A source is used through the `Async` that owns it, so calls on it are
made between `add_io` and `remove_io`. The poller has one registration for each
descriptor, which a delivered event disables until it is modified; `modify` and
`delete` of a registered descriptor succeed, and `FailedModify` adds the calls of
`modify` that do not. A step is one access to shared state outside of the source's own
lock, or what is done under that lock between two such accesses. -/

namespace Cynthia.Io.Reactor

open Transition Utils

/-- A source from `add_io` to `remove_io`; `failed` is the way back out of `add_io`
when the poller refused the descriptor. -/
inductive Stage where
  | unborn | adding | failed | live | removing | removed
  deriving DecidableEq, Repr

def Stage.inSlab : Stage → Bool
  | .adding | .failed | .live => true
  | .unborn | .removing | .removed => false

/-- What the holder of a source's lock does next. -/
inductive Crit where
  | free
  | pollTicks (dir : Dir) (wasEmpty : Bool)
  | futureTicks (dir : Dir) (future index : Nat) (wasEmpty : Bool) (cx : Waker)
  | modify
  | react
  deriving DecidableEq, Repr

/-- A source with its lock. `born` is history: how many `react` calls had incremented
the ticker when the source was made. -/
structure Cell where
  src : Source
  stage : Stage
  crit : Crit
  born : Nat

/-- A future of `ready`: its local variables and its place. -/
inductive FutureStage where
  | unborn | live | ready | dropped
  deriving DecidableEq, Repr

structure Future where
  source : Nat
  dir : Dir
  ticks : Option Ticks
  index : Option Nat
  stage : FutureStage

/-- The registration of a descriptor. `owner` is history: the source it was added for. -/
structure Registration where
  event : Event
  enabled : Bool
  owner : Nat
  deriving DecidableEq, Repr

/-- An event that `poller.wait` has collected. `owner` is history. -/
structure Collected where
  ev : Event
  owner : Nat
  deriving DecidableEq, Repr

/-- Who holds the lock of the slab. -/
inductive SlabLock where
  | free | react
  | removing (id : Nat)
  deriving DecidableEq, Repr

inductive ReactPc where
  | idle | increment | wait | lockSources | loop
  | modify (id : Nat)
  deriving DecidableEq, Repr

def ReactPc.inLoop : ReactPc → Bool
  | .loop | .modify _ => true
  | _ => false

/-- A direction of a source with a number of `react` calls. -/
structure Record where
  source : Nat
  dir : Dir
  reacts : Nat
  deriving DecidableEq, Repr

/-- The last three fields are history: the number of times the ticker was
incremented, the directions that `react` stamped for an event of theirs, each with
the number of that `react`, and the `Ready(Ok)` answers, each with the number of
`react` calls that had started when the compared ticks were recorded. -/
structure State where
  ticker : Nat
  sources : Colo Nat
  lock : SlabLock
  cells : Nat → Cell
  created : Nat
  poller : Nat → Option Registration
  react : ReactPc
  tick : Nat
  events : List Collected
  futures : Nat → Future
  reacts : Nat
  delivered : List Record
  answers : List Record

def new : State where
  ticker := 0
  sources := .new
  lock := .free
  cells _ := ⟨⟨0, 0, fun _ => .new⟩, .unborn, .free, 0⟩
  created := 0
  poller _ := none
  react := .idle
  tick := 0
  events := []
  futures _ := ⟨0, .read, none, none, .unborn⟩
  reacts := 0
  delivered := []
  answers := []

def setCell (s : State) (id : Nat) (cell : Cell) : State :=
  { s with cells := Function.update s.cells id cell }

def setFuture (s : State) (f : Nat) (future : Future) : State :=
  { s with futures := Function.update s.futures f future }

/-- `poller.modify`. -/
def modifyPoller (poller : Nat → Option Registration) (fd : Nat) (event : Event) :
    Nat → Option Registration :=
  match poller fd with
  | some reg => Function.update poller fd (some { reg with event := event, enabled := true })
  | none => poller

/-- The ticks that a registration records now for a direction. -/
def record (s : State) (p : Private) : Ticks := ⟨s.ticker, p.tick, s.reacts⟩

/-- `add_io` up to the release of the slab's lock. -/
def addIo (s : State) (raw : Nat) : Option State :=
  if s.lock = .free then
    let key := s.sources.nextVacant
    match s.sources.insert s.created with
    | some (_, sources) =>
      some (setCell { s with sources := sources, created := s.created + 1 } s.created
        ⟨⟨raw, key, fun _ => .new⟩, .adding, .free, s.reacts⟩)
    | none => none
  else none

/-- `poller.add` in `add_io`, which fails if the descriptor is registered already. -/
def addPoller (s : State) (id : Nat) (ok : Bool) : Option State :=
  let cell := s.cells id
  if cell.stage = .adding then
    if ok = true ∧ s.poller cell.src.raw = none then
      let reg : Registration := ⟨.none cell.src.key, true, id⟩
      some (setCell { s with poller := Function.update s.poller cell.src.raw (some reg) } id
        { cell with stage := .live })
    else some (setCell s id { cell with stage := .failed })
  else none

/-- The error path of `add_io`. -/
def addUndo (s : State) (id : Nat) : Option State :=
  let cell := s.cells id
  if cell.stage = .failed ∧ s.lock = .free then
    some (setCell { s with sources := (s.sources.remove cell.src.key).2 } id
      { cell with stage := .removed })
  else none

/-- `remove_io` with the slab's lock taken. -/
def removeIo (s : State) (id : Nat) : Option State :=
  let cell := s.cells id
  if cell.stage = .live ∧ cell.crit = .free ∧ s.lock = .free then
    some (setCell { s with sources := (s.sources.remove cell.src.key).2, lock := .removing id } id
      { cell with stage := .removing })
  else none

/-- `poller.delete` in `remove_io`. -/
def removePoller (s : State) : Option State :=
  match s.lock with
  | .removing id =>
    let cell := s.cells id
    some (setCell { s with poller := Function.update s.poller cell.src.raw none, lock := .free } id
      { cell with stage := .removed })
  | _ => none

/-- `poll_ready` up to the load of the ticker. -/
def pollReady (s : State) (id : Nat) (dir : Dir) (cx : Waker) : Option State :=
  let cell := s.cells id
  if cell.stage = .live ∧ cell.crit = .free then
    let p := cell.src.state dir
    match p.ticks.filter fun t => t.passed p.tick with
    | some t =>
      some { setCell s id { cell with src := cell.src.setDir dir { p with ticks := none } } with
        answers := ⟨id, dir, t.since⟩ :: s.answers }
    | none =>
      if p.waker = some cx then some s
      else some (setCell s id { cell with
        src := cell.src.setDir dir { p with waker := some cx }
        crit := .pollTicks dir p.isEmpty })
  else none

/-- A call of `ready`. -/
def newFuture (s : State) (f id : Nat) (dir : Dir) : Option State :=
  if (s.futures f).stage = .unborn ∧ (s.cells id).stage = .live then
    some (setFuture s f ⟨id, dir, none, none, .live⟩)
  else none

/-- A poll of a future of `ready`, up to the load of the ticker. -/
def pollFuture (s : State) (f : Nat) (cx : Waker) : Option State :=
  let future := s.futures f
  let cell := s.cells future.source
  if future.stage = .live ∧ cell.stage = .live ∧ cell.crit = .free then
    let p := cell.src.state future.dir
    match future.ticks.filter fun t => t.passed p.tick with
    | some t =>
      some { setFuture s f { future with stage := .ready } with
        answers := ⟨future.source, future.dir, t.since⟩ :: s.answers }
    | none =>
      match future.index with
      | some i =>
        some (setCell s future.source { cell with
          src := cell.src.setDir future.dir { p with wakers := p.wakers.set i (some cx) }
          crit := if p.isEmpty then .modify else .free })
      | none =>
        match p.wakers.insert none with
        | some (i, wakers) =>
          some (setFuture (setCell s future.source { cell with
            src := cell.src.setDir future.dir { p with wakers := wakers }
            crit := .futureTicks future.dir f i p.isEmpty cx }) f { future with index := some i })
        | none => none
  else none

/-- The drop of a future, and with it of its guard. -/
def dropFuture (s : State) (f : Nat) : Option State :=
  let future := s.futures f
  let cell := s.cells future.source
  if future.stage = .live ∨ future.stage = .ready then
    match future.index with
    | none => some (setFuture s f { future with stage := .dropped })
    | some i =>
      if cell.crit = .free then
        let p := cell.src.state future.dir
        some (setFuture (setCell s future.source { cell with
          src := cell.src.setDir future.dir { p with wakers := (p.wakers.remove i).2 } }) f
          { future with stage := .dropped })
      else none
  else none

/-- The load of the ticker in `poll_ready` and in `ready`. -/
def ticksStep (s : State) (id : Nat) : Option State :=
  let cell := s.cells id
  match cell.crit with
  | .pollTicks dir wasEmpty =>
    let p := cell.src.state dir
    some (setCell s id { cell with
      src := cell.src.setDir dir { p with ticks := some (record s p) }
      crit := if wasEmpty then .modify else .free })
  | .futureTicks dir f i wasEmpty cx =>
    let p := cell.src.state dir
    some (setFuture (setCell s id { cell with
      src := cell.src.setDir dir { p with wakers := p.wakers.set i (some cx) }
      crit := if wasEmpty then .modify else .free }) f
      { s.futures f with ticks := some (record s p) })
  | _ => none

/-- `poller.modify` in `poll_ready` and in `ready`. -/
def modifyStep (s : State) (id : Nat) : Option State :=
  let cell := s.cells id
  if cell.crit = .modify then
    some (setCell { s with poller := modifyPoller s.poller cell.src.raw cell.src.interest } id
      { cell with crit := .free })
  else none

/-- An event is delivered to the thread in `poller.wait`. Errors and hang-ups are
reported for directions that nobody asked for, so any flags may be set. -/
def collect (s : State) (fd : Nat) (readable writable : Bool) : Option State :=
  if s.react = .wait then
    match s.poller fd with
    | some reg =>
      if reg.enabled then
        some { s with
          poller := Function.update s.poller fd (some { reg with enabled := false })
          events := s.events ++ [⟨⟨reg.event.key, readable, writable⟩, reg.owner⟩] }
      else none
    | none => none
  else none

/-- What the history keeps of an event that is handled for the source `id`. -/
def deliveries (s : State) (id : Nat) (c : Collected) : List Record :=
  if c.owner = id then
    [Dir.write, .read].filterMap fun dir =>
      if c.ev.emitted dir then some ⟨id, dir, s.reacts⟩ else none
  else []

/-- One step of `react`, whose timers and wakers are left out here. -/
def reactStep (s : State) : Option State :=
  match s.react with
  | .idle => some { s with react := .increment }
  | .increment =>
    let tick := (s.ticker + 1) % 2 ^ 64
    some { s with ticker := tick, tick := tick, reacts := s.reacts + 1, events := []
                  react := .wait }
  | .wait => some { s with react := if s.events = [] then .idle else .lockSources }
  | .lockSources => if s.lock = .free then some { s with lock := .react, react := .loop } else none
  | .loop =>
    match s.events with
    | [] => some { s with lock := .free, react := .idle }
    | c :: rest =>
      match s.sources.get c.ev.key with
      | none => some { s with events := rest }
      | some id =>
        let cell := s.cells id
        if cell.crit = .free then
          some { setCell s id { cell with src := (cell.src.emit s.tick c.ev []).1, crit := .react } with
            events := rest
            react := .modify id
            delivered := deliveries s id c ++ s.delivered }
        else none
  | .modify id =>
    let cell := s.cells id
    let poller :=
      if cell.src.waiting then modifyPoller s.poller cell.src.raw cell.src.interest else s.poller
    some (setCell { s with poller := poller, react := .loop } id { cell with crit := .free })

inductive Act where
  | addIo (raw : Nat)
  | addPoller (id : Nat) (ok : Bool)
  | addUndo (id : Nat)
  | removeIo (id : Nat)
  | removePoller
  | pollReady (id : Nat) (dir : Dir) (cx : Waker)
  | newFuture (f id : Nat) (dir : Dir)
  | pollFuture (f : Nat) (cx : Waker)
  | dropFuture (f : Nat)
  | ticks (id : Nat)
  | modify (id : Nat)
  | collect (fd : Nat) (readable writable : Bool)
  | react
  deriving DecidableEq, Repr

def step (s : State) : Act → Option State
  | .addIo raw => addIo s raw
  | .addPoller id ok => addPoller s id ok
  | .addUndo id => addUndo s id
  | .removeIo id => removeIo s id
  | .removePoller => removePoller s
  | .pollReady id dir cx => pollReady s id dir cx
  | .newFuture f id dir => newFuture s f id dir
  | .pollFuture f cx => pollFuture s f cx
  | .dropFuture f => dropFuture s f
  | .ticks id => ticksStep s id
  | .modify id => modifyStep s id
  | .collect fd readable writable => collect s fd readable writable
  | .react => reactStep s

def system : System State Act := ⟨new, step⟩

end Cynthia.Io.Reactor
