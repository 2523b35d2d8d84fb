import Cynthia.Lib.Pool
import Cynthia.Lib.Transition
import Cynthia.Task.State

/-! One task and every call in progress on it: `runtime/task/{raw,header,task,runnable}.rs`.
A call is the program point it has reached; it makes one access to the header,
the future or the output per step, so that all interleavings of the calls are
runs of `system`. The parameter `sized` is `size_of::<S>() > 0`. -/

namespace Cynthia.Task

open Transition Pool

/-- The identity of a waker passed to `Task::poll`, up to `will_wake`. -/
abbrev Waker := Nat

/-- What keeps the task alive while a `&Waker` or `&Runnable` is in use: a live
waker, a live `Runnable`, or the context of a poll in progress. -/
inductive Borrow where
  | waker | runnable | context
  deriving DecidableEq, Repr

/-- `wake_by_ref` on its own, or as the first half of `wake` for a sized `S`. -/
inductive WakeBy where
  | ref (b : Borrow)
  | val
  deriving DecidableEq, Repr

/-- What is left to do when `schedule`, `drop_waker`, `drop_ref` or `destroy` returns. -/
inductive Cont where
  | ret
  | wakeAwaiter (w : Waker)
  | canceled (awaiter dropping : Bool)
  | detached
  deriving DecidableEq, Repr

/-- The caller of `Header::take`; all but `runner` go through `Header::notify`. -/
inductive TakeFor where
  | runner
  | runnable
  | canceled (dropping : Bool)
  | pollClosed (w : Waker)
  | pollOutput (w : Waker)
  deriving DecidableEq, Repr

/-- The two places where `poll_task` registers its waker. -/
inductive Site where
  | closed | open
  deriving DecidableEq, Repr

inductive Pc where
  -- RawTask::clone_waker
  | cloneWaker (b : Borrow)
  | cloneAbort (b : Borrow)
  -- RawTask::wake_by_ref
  | wakeRefLoad (k : WakeBy)
  | wakeRefLoop (k : WakeBy) (state : Word)
  | wakeRefCall (k : WakeBy)
  | wakeRefReturn (k : WakeBy)
  | wakeRefAbort (k : WakeBy)
  -- RawTask::wake for a zero-sized S
  | wakeLoad
  | wakeLoop (state : Word)
  -- RawTask::schedule
  | schedule (k : Cont)
  | scheduleCall (k : Cont)
  | scheduleReturn (k : Cont)
  | scheduleAbort (k : Cont)
  -- RawTask::drop_waker, drop_ref, destroy
  | dropWaker (k : Cont)
  | dropWakerStore (k : Cont)
  | dropRef (k : Cont)
  | destroy (k : Cont)
  | wakeAwaiter (w : Waker)
  -- Header::take, Header::notify
  | takeOr (f : TakeFor)
  | takeCell (f : TakeFor)
  | takeAnd (f : TakeFor) (got : Option Waker)
  | notifyWake (f : TakeFor) (w : Waker)
  -- RawTask::run
  | runLoad
  | runLoop (state : Word)
  | runClosedDrop
  | runClosedAnd
  | polling (state : Word)
  | readyDrop (state : Word)
  | readyWrite (state : Word)
  | readyLoop (state : Word)
  | readyDropOutput (awaiter : Bool)
  | pendingLoop (state : Word) (dropped : Bool)
  | pendingDrop (state : Word)
  -- Drop for Guard
  | guardLoad
  | guardLoop (state : Word)
  | guardClosedDrop (state : Word)
  | guardClosedAnd (state : Word)
  | guardDrop (awaiter : Bool)
  -- Drop for Runnable
  | runnableLoad
  | runnableLoop (state : Word)
  | runnableDrop
  | runnableAnd
  -- Task::set_canceled, from `cancel` or from `drop`
  | cancelLoad (dropping : Bool)
  | cancelLoop (dropping : Bool) (state : Word)
  -- Task::set_detached
  | detachFast
  | detachLoop (state : Word)
  | detachRead (state : Word)
  -- Task::poll_task
  | pollLoad (w : Waker)
  | pollLoop (w : Waker) (state : Word)
  | pollReload (w : Waker) (site : Site)
  | pollRead
  -- Header::register
  | registerLoad (w : Waker) (site : Site)
  | registerLoop (w : Waker) (site : Site) (state : Word)
  | registerWrite (w : Waker) (site : Site) (state : Word)
  | registerCheck (w : Waker) (site : Site) (state : Word) (got : Option Waker)
  | registerSwap (w : Waker) (site : Site) (state : Word) (got : Option Waker)
  | registerWake (w : Waker) (site : Site) (got : Waker)
  deriving DecidableEq, Repr

/-- The `Task` value: not in use, inside one of its methods, or consumed. -/
inductive Handle where
  | idle | busy | gone
  deriving DecidableEq, Repr

/-- Header, handles and history. `wakers` and `runnables` count the live values
that no call has consumed. The history counts executions of `drop_future`,
polls that returned `Ready`, uses of the output slot and executions of `destroy`;
`woken` says whether a wake took effect since the last poll of the future began. -/
structure Shared where
  word : Word
  awaiter : Option Waker
  wakers : Nat
  runnables : Nat
  handle : Handle
  futureDrops : Nat
  readies : Nat
  written : Nat
  moved : Nat
  dropped : Nat
  destroys : Nat
  woken : Bool
  /-- The waker of the last poll of the `Task`, and whether it was woken since. -/
  pollWaker : Waker
  pollWoken : Bool
  /-- The last poll of the `Task` has put its waker up for notification. -/
  armed : Bool
  /-- The last poll of the `Task` returned `Pending`. -/
  pollPending : Bool
  deriving DecidableEq, Repr

/-- `spawn_unchecked`: one `Runnable`, one `Task`. -/
def spawn : Shared where
  word := .spawned
  awaiter := none
  wakers := 0
  runnables := 1
  handle := .idle
  futureDrops := 0
  readies := 0
  written := 0
  moved := 0
  dropped := 0
  destroys := 0
  woken := false
  pollWaker := 0
  pollWoken := false
  armed := false
  pollPending := false

/-- What the scheduler and the future decide: whether a weak compare-exchange
fails spuriously, and how a poll of the future ends. -/
inductive Choice where
  | go | spurious | ready | pending | panic
  deriving DecidableEq, Repr

abbrev Next := Option Pc × Shared

def Shared.wake (sh : Shared) (w : Waker) : Shared :=
  { sh with pollWoken := sh.pollWoken || w == sh.pollWaker }

/-- `compare_exchange_weak(state, new)`; a strong one never fails spuriously. -/
def cas (sh : Shared) (c : Choice) (state new : Word) (ok : Shared → Next) (err : Word → Pc) :
    Next :=
  if sh.word = state ∧ c ≠ .spurious then ok { sh with word := new } else (some (err sh.word), sh)

/-- `state > isize::max_value() as usize`. -/
def overflows (state : Word) : Bool := decide (2 ^ 63 - 1 < state.toNat)

def afterCancel (sh : Shared) (dropping : Bool) : Next :=
  if dropping then (some .detachFast, sh) else (none, { sh with handle := .idle })

def finish (sh : Shared) : Cont → Next
  | .ret => (none, sh)
  | .wakeAwaiter w => (some (.wakeAwaiter w), sh)
  | .canceled awaiter dropping =>
    if awaiter then (some (.takeOr (.canceled dropping)), sh) else afterCancel sh dropping
  | .detached => (none, sh)

def finishWakeRef (sh : Shared) : WakeBy → Next
  | .ref _ => (none, sh)
  | .val => (some (.dropWaker .ret), sh)

def returnPoll (sh : Shared) (pending : Bool) : Next :=
  (none, { sh with handle := .idle, pollPending := pending })

def notifyDone (sh : Shared) : TakeFor → Next
  | .runner | .runnable => (some (.dropRef .ret), sh)
  | .canceled dropping => afterCancel sh dropping
  | .pollClosed _ => returnPoll sh false
  | .pollOutput _ => (some .pollRead, sh)

/-- `Header::take` returns: `run` first drops its reference, `notify` wakes. -/
def takeDone (sh : Shared) (f : TakeFor) (got : Option Waker) : Next :=
  match f, got with
  | .runner, some w => (some (.dropRef (.wakeAwaiter w)), sh)
  | .runner, none => (some (.dropRef .ret), sh)
  | f, some w => (some (.notifyWake f w), sh)
  | f, none => notifyDone sh f

/-- The waker that `take` keeps: not the caller's own one. -/
def keep (f : TakeFor) (got : Option Waker) : Option Waker :=
  match f, got with
  | .pollClosed c, some w | .pollOutput c, some w => if w = c then none else some w
  | _, got => got

/-- The tail of `run`: notify the awaiter if the snapshot had one, drop the reference. -/
def finishRun (sh : Shared) (awaiter : Bool) : Next :=
  (some (if awaiter then .takeOr .runner else .dropRef .ret), sh)

/-- `RawTask::clone_waker` and `RawTask::wake_by_ref`. -/
def execWakeByRef (sh : Shared) (c : Choice) : Pc → Option Next
  | .cloneWaker b =>
    let word := { sh.word with refs := sh.word.refs + 1 }
    some <| if overflows sh.word then (some (.cloneAbort b), { sh with word := word })
      else (none, { sh with word := word, wakers := sh.wakers + 1 })
  | .wakeRefLoad k => some (some (.wakeRefLoop k sh.word), sh)
  | .wakeRefLoop k state =>
    some <| if state.completed || state.closed then finishWakeRef sh k
      else if state.scheduled then
        cas sh c state state (fun sh => finishWakeRef { sh with woken := true } k) (.wakeRefLoop k)
      else if state.running then
        cas sh c state { state with scheduled := true }
          (fun sh => finishWakeRef { sh with woken := true } k) (.wakeRefLoop k)
      else
        cas sh c state { state with scheduled := true, refs := state.refs + 1 }
          (fun sh => (some (if overflows state then .wakeRefAbort k else .wakeRefCall k),
            { sh with woken := true })) (.wakeRefLoop k)
  | .wakeRefCall k => some (some (.wakeRefReturn k), { sh with runnables := sh.runnables + 1 })
  | .wakeRefReturn k => some (finishWakeRef sh k)
  | _ => none

/-- `RawTask::wake` and `RawTask::schedule`. -/
def execWake (sized : Bool) (sh : Shared) (c : Choice) : Pc → Option Next
  | .wakeLoad => some (some (.wakeLoop sh.word), sh)
  | .wakeLoop state =>
    some <| if state.completed || state.closed then (some (.dropWaker .ret), sh)
      else if state.scheduled then
        cas sh c state state (fun sh => (some (.dropWaker .ret), { sh with woken := true })) .wakeLoop
      else
        cas sh c state { state with scheduled := true }
          (fun sh => (some (if state.running then .dropWaker .ret else .schedule .ret),
            { sh with woken := true })) .wakeLoop
  | .schedule k =>
    some <| if sized then
        (some (if overflows sh.word then .scheduleAbort k else .scheduleCall k),
          { sh with word := { sh.word with refs := sh.word.refs + 1 } })
      else (some (.scheduleCall k), sh)
  | .scheduleCall k => some (some (.scheduleReturn k), { sh with runnables := sh.runnables + 1 })
  | .scheduleReturn k => some (if sized then (some (.dropWaker k), sh) else finish sh k)
  | _ => none

/-- `RawTask::drop_waker`, `drop_ref` and `destroy`. -/
def execDrop (sh : Shared) : Pc → Option Next
  | .dropWaker k =>
    let word := { sh.word with refs := sh.word.refs - 1 }
    let sh := { sh with word := word }
    some <| if word.refs = 0 ∧ word.task = false then
        if word.completed = false ∧ word.closed = false then (some (.dropWakerStore k), sh)
        else (some (.destroy k), sh)
      else finish sh k
  | .dropWakerStore k => some (some (.schedule k), { sh with word := .lastRun })
  | .dropRef k =>
    let word := { sh.word with refs := sh.word.refs - 1 }
    let sh := { sh with word := word }
    some <| if word.refs = 0 ∧ word.task = false then (some (.destroy k), sh) else finish sh k
  | .destroy k => some (finish { sh with destroys := sh.destroys + 1 } k)
  | .wakeAwaiter w => some (none, sh.wake w)
  | _ => none

/-- `Header::take` and `Header::notify`. -/
def execTake (sh : Shared) : Pc → Option Next
  | .takeOr f =>
    let old := sh.word
    let sh := { sh with word := { old with notifying := true } }
    some <| if old.notifying = false ∧ old.registering = false then (some (.takeCell f), sh)
      else takeDone sh f none
  | .takeCell f => some (some (.takeAnd f sh.awaiter), { sh with awaiter := none })
  | .takeAnd f got =>
    some (takeDone { sh with word := { sh.word with notifying := false, awaiter := false } } f
      (keep f got))
  | .notifyWake f w => some (notifyDone (sh.wake w) f)
  | _ => none

/-- `RawTask::run` up to the end of a poll that is `Ready`. -/
def execRun (sh : Shared) (c : Choice) : Pc → Option Next
  | .runLoad => some (some (.runLoop sh.word), sh)
  | .runLoop state =>
    let new := { state with scheduled := false, running := true }
    some <| if state.closed then (some .runClosedDrop, sh)
      else cas sh c state new (fun sh => (some (.polling new), { sh with woken := false })) .runLoop
  | .runClosedDrop => some (some .runClosedAnd, { sh with futureDrops := sh.futureDrops + 1 })
  | .runClosedAnd =>
    some (finishRun { sh with word := { sh.word with scheduled := false } } sh.word.awaiter)
  | .polling state =>
    match c with
    | .ready => some (some (.readyDrop state), { sh with readies := sh.readies + 1 })
    | .pending => some (some (.pendingLoop state false), sh)
    | .panic => some (some .guardLoad, sh)
    | _ => none
  | .readyDrop state =>
    some (some (.readyWrite state), { sh with futureDrops := sh.futureDrops + 1 })
  | .readyWrite state => some (some (.readyLoop state), { sh with written := sh.written + 1 })
  | .readyLoop state =>
    some <| cas sh c state
      { state with running := false, scheduled := false, completed := true,
                   closed := state.closed || !state.task }
      (fun sh => if !state.task || state.closed then (some (.readyDropOutput state.awaiter), sh)
        else finishRun sh state.awaiter) .readyLoop
  | .readyDropOutput awaiter => some (finishRun { sh with dropped := sh.dropped + 1 } awaiter)
  | _ => none

/-- `RawTask::run` after a poll that is `Pending`. -/
def execPending (sh : Shared) (c : Choice) : Pc → Option Next
  | .pendingLoop state dropped =>
    some <| if state.closed && !dropped then (some (.pendingDrop state), sh)
      else if state.closed then
        cas sh c state { state with running := false, scheduled := false }
          (fun sh => finishRun sh state.awaiter) (.pendingLoop · dropped)
      else
        cas sh c state { state with running := false }
          (fun sh => (some (if state.scheduled then .schedule .ret else .dropRef .ret), sh))
          (.pendingLoop · dropped)
  | .pendingDrop state =>
    some (some (.pendingLoop state true), { sh with futureDrops := sh.futureDrops + 1 })
  | _ => none

/-- `Drop for Guard`: the poll panicked. -/
def execGuard (sh : Shared) (c : Choice) : Pc → Option Next
  | .guardLoad => some (some (.guardLoop sh.word), sh)
  | .guardLoop state =>
    some <| if state.closed then (some (.guardClosedDrop state), sh)
      else cas sh c state { state with running := false, scheduled := false, closed := true }
        (fun sh => (some (.guardDrop state.awaiter), sh)) .guardLoop
  | .guardClosedDrop state =>
    some (some (.guardClosedAnd state), { sh with futureDrops := sh.futureDrops + 1 })
  | .guardClosedAnd state =>
    some (finishRun { sh with word := { sh.word with running := false, scheduled := false } }
      state.awaiter)
  | .guardDrop awaiter => some (finishRun { sh with futureDrops := sh.futureDrops + 1 } awaiter)
  | _ => none

/-- `Drop for Runnable`. -/
def execRunnable (sh : Shared) (c : Choice) : Pc → Option Next
  | .runnableLoad => some (some (.runnableLoop sh.word), sh)
  | .runnableLoop state =>
    some <| if state.completed || state.closed then (some .runnableDrop, sh)
      else cas sh c state { state with closed := true } (fun sh => (some .runnableDrop, sh))
        .runnableLoop
  | .runnableDrop => some (some .runnableAnd, { sh with futureDrops := sh.futureDrops + 1 })
  | .runnableAnd =>
    some (some (if sh.word.awaiter then .takeOr .runnable else .dropRef .ret),
      { sh with word := { sh.word with scheduled := false } })
  | _ => none

/-- `Task::set_canceled` and `Task::set_detached`. -/
def execTask (sh : Shared) (c : Choice) : Pc → Option Next
  | .cancelLoad dropping => some (some (.cancelLoop dropping sh.word), sh)
  | .cancelLoop dropping state =>
    some <| if state.completed || state.closed then afterCancel sh dropping
      else if state.scheduled || state.running then
        cas sh c state { state with closed := true }
          (fun sh => if state.awaiter then (some (.takeOr (.canceled dropping)), sh)
            else afterCancel sh dropping) (.cancelLoop dropping)
      else
        cas sh c state { state with scheduled := true, closed := true, refs := state.refs + 1 }
          (fun sh => (some (.schedule (.canceled state.awaiter dropping)), sh))
          (.cancelLoop dropping)
  | .detachFast =>
    some <| cas sh c .spawned { Word.spawned with task := false }
      (fun sh => (none, { sh with handle := .gone })) .detachLoop
  | .detachLoop state =>
    some <| if state.completed && !state.closed then
        cas sh c state { state with closed := true }
          (fun sh => (some (.detachRead { state with closed := true }), sh)) .detachLoop
      else if state.refs = 0 ∧ state.closed = false then
        cas sh c state .lastRun
          (fun sh => (some (.schedule .detached), { sh with handle := .gone })) .detachLoop
      else
        cas sh c state { state with task := false }
          (fun sh => (if state.refs = 0 then some (.destroy .detached) else none,
            { sh with handle := .gone })) .detachLoop
  | .detachRead state => some (some (.detachLoop state), { sh with moved := sh.moved + 1 })
  | _ => none

/-- `Task::poll_task`. -/
def execPoll (sh : Shared) : Pc → Option Next
  | .pollLoad w => some (some (.pollLoop w sh.word), sh)
  | .pollLoop w state =>
    some <| if state.closed then
        if state.scheduled || state.running then (some (.registerLoad w .closed), sh)
        else (some (.takeOr (.pollClosed w)), { sh with armed := false })
      else if state.completed then
        cas sh .go state { state with closed := true }
          (fun sh => (some (if state.awaiter then .takeOr (.pollOutput w) else .pollRead),
            { sh with armed := false })) (.pollLoop w)
      else (some (.registerLoad w .open), sh)
  | .pollReload w .closed =>
    some <| if sh.word.scheduled || sh.word.running then returnPoll sh true
      else (some (.takeOr (.pollClosed w)), { sh with armed := false })
  | .pollReload w .open =>
    some <| if sh.word.closed || sh.word.completed then (some (.pollLoop w sh.word), sh)
      else returnPoll sh true
  | .pollRead => some (returnPoll { sh with moved := sh.moved + 1 } false)
  | _ => none

/-- `Header::register`. -/
def execRegister (sh : Shared) (c : Choice) : Pc → Option Next
  | .registerLoad w site => some (some (.registerLoop w site sh.word), sh)
  | .registerLoop w site state =>
    some <| if state.notifying then
        (some (.pollReload w site), { sh.wake w with armed := true })
      else
        cas sh c state { state with registering := true }
          (fun sh => (some (.registerWrite w site { state with registering := true }), sh))
          (.registerLoop w site)
  | .registerWrite w site state =>
    some (some (.registerCheck w site state none), { sh with awaiter := some w })
  | .registerCheck w site state got =>
    some <| if state.notifying then
        (some (.registerSwap w site state (sh.awaiter.or got)), { sh with awaiter := none })
      else (some (.registerSwap w site state got), sh)
  | .registerSwap w site state got =>
    some <| match got with
      | none =>
        cas sh c state { state with notifying := false, registering := false, awaiter := true }
          (fun sh => (some (.pollReload w site), { sh with armed := true }))
          (.registerCheck w site · got)
      | some g =>
        cas sh c state { state with notifying := false, registering := false, awaiter := false }
          (fun sh => (some (.registerWake w site g), { sh with armed := true }))
          (.registerCheck w site · got)
  | .registerWake w site g => some (some (.pollReload w site), sh.wake g)
  | _ => none

/-- One access of the call at `pc`: where it goes on, `none` when it returns. -/
def exec (sized : Bool) (sh : Shared) (c : Choice) (pc : Pc) : Option Next :=
  execWakeByRef sh c pc <|> execWake sized sh c pc <|> execDrop sh pc <|> execTake sh pc <|>
    execRun sh c pc <|> execPending sh c pc <|> execGuard sh c pc <|> execRunnable sh c pc <|>
    execTask sh c pc <|> execPoll sh pc <|> execRegister sh c pc

/-- The task with its calls in progress. -/
structure Sys where
  sh : Shared
  calls : Multiset Pc

def WakeBy.borrows (b : Borrow) : WakeBy → Nat
  | .ref b' => if b' = b then 1 else 0
  | .val => 0

/-- Calls that use a borrowed waker or `Runnable`. -/
def Pc.borrows (b : Borrow) : Pc → Nat
  | .cloneWaker b' | .cloneAbort b' => if b' = b then 1 else 0
  | .wakeRefLoad k | .wakeRefLoop k _ | .wakeRefCall k | .wakeRefReturn k | .wakeRefAbort k =>
    k.borrows b
  | _ => 0

def Pc.polls : Pc → Nat
  | .polling _ => 1
  | _ => 0

inductive Op where
  | clone (b : Borrow)
  | wakeByRef (b : Borrow)
  | wake
  | dropWaker
  | schedule
  | run
  | dropRunnable
  | poll (w : Waker)
  | cancel
  | detach
  | dropTask
  deriving DecidableEq, Repr

inductive Act where
  | start (op : Op)
  | exec (pc : Pc) (c : Choice)
  deriving DecidableEq, Repr

/-- There is something to borrow from. -/
def lends (s : Sys) : Borrow → Prop
  | .waker => 0 < s.sh.wakers
  | .runnable => 0 < s.sh.runnables
  | .context => 0 < total Pc.polls s.calls

instance (s : Sys) (b : Borrow) : Decidable (lends s b) := by
  cases b <;> exact inferInstanceAs (Decidable (_ < _))

/-- A waker that nobody borrows can be given away. -/
def spareWaker (s : Sys) : Prop :=
  0 < s.sh.wakers ∧ (total (Pc.borrows .waker) s.calls = 0 ∨ 1 < s.sh.wakers)

def spareRunnable (s : Sys) : Prop :=
  0 < s.sh.runnables ∧ (total (Pc.borrows .runnable) s.calls = 0 ∨ 1 < s.sh.runnables)

instance (s : Sys) : Decidable (spareWaker s) := inferInstanceAs (Decidable (_ ∧ _))
instance (s : Sys) : Decidable (spareRunnable s) := inferInstanceAs (Decidable (_ ∧ _))

/-- Start an operation on one of the handles. -/
def start (sized : Bool) (s : Sys) : Op → Option (Pc × Shared)
  | .clone b => if lends s b then some (.cloneWaker b, s.sh) else none
  | .wakeByRef b =>
    if lends s b ∧ b ≠ .runnable then some (.wakeRefLoad (.ref b), s.sh) else none
  | .wake =>
    if spareWaker s then
      some (if sized then .wakeRefLoad .val else .wakeLoad,
        { s.sh with wakers := s.sh.wakers - 1 })
    else none
  | .dropWaker =>
    if spareWaker s then some (.dropWaker .ret, { s.sh with wakers := s.sh.wakers - 1 }) else none
  | .schedule =>
    if spareRunnable s then
      some (.schedule .ret, { s.sh with runnables := s.sh.runnables - 1 })
    else none
  | .run =>
    if spareRunnable s then some (.runLoad, { s.sh with runnables := s.sh.runnables - 1 }) else none
  | .dropRunnable =>
    if spareRunnable s then
      some (.runnableLoad, { s.sh with runnables := s.sh.runnables - 1 })
    else none
  | .poll w =>
    if s.sh.handle = .idle then
      some (.pollLoad w, { s.sh with handle := .busy, pollWaker := w, pollWoken := false,
                                     armed := false, pollPending := false })
    else none
  | .cancel =>
    if s.sh.handle = .idle then some (.cancelLoad false, { s.sh with handle := .busy }) else none
  | .detach => if s.sh.handle = .idle then some (.detachFast, { s.sh with handle := .busy }) else none
  | .dropTask =>
    if s.sh.handle = .idle then some (.cancelLoad true, { s.sh with handle := .busy }) else none

/-- A poll of the future does not end while its context is borrowed. -/
def ready (s : Sys) (pc : Pc) : Prop :=
  pc.polls = 1 → total (Pc.borrows .context) s.calls = 0

instance (s : Sys) (pc : Pc) : Decidable (ready s pc) := inferInstanceAs (Decidable (_ → _))

/-- The calls in progress when one of them went on to `next`. -/
def resume (next : Option Pc) (rest : Multiset Pc) : Multiset Pc :=
  next.elim rest fun pc => pc ::ₘ rest

@[simp] theorem total_resume_none (f : Pc → Nat) (rest : Multiset Pc) :
    total f (resume none rest) = total f rest := rfl

@[simp] theorem total_resume_some (f : Pc → Nat) (pc : Pc) (rest : Multiset Pc) :
    total f (resume (some pc) rest) = f pc + total f rest := total_cons f pc rest

theorem total_resume (f : Pc → Nat) (next : Option Pc) (rest : Multiset Pc) :
    total f (resume next rest) = next.elim 0 f + total f rest := by
  cases next with
  | none => exact (Nat.zero_add _).symm
  | some pc => exact total_cons f pc rest

def step (sized : Bool) (s : Sys) : Act → Option Sys
  | .start op => (start sized s op).map fun (pc, sh) => ⟨sh, pc ::ₘ s.calls⟩
  | .exec pc c =>
    if pc ∈ s.calls ∧ ready s pc then
      (exec sized s.sh c pc).map fun (next, sh) => ⟨sh, resume next (s.calls.erase pc)⟩
    else none

def system (sized : Bool) : System Sys Act := ⟨⟨spawn, 0⟩, step sized⟩

/-- What a step can do: start an operation on a handle, or one access of a call. -/
theorem step_cases {sized : Bool} {s t : Sys} {a : Act} (h : step sized s a = some t) :
    (∃ op pc sh, a = .start op ∧ start sized s op = some (pc, sh) ∧ t = ⟨sh, pc ::ₘ s.calls⟩) ∨
    ∃ pc c next sh rest, a = .exec pc c ∧ s.calls = pc ::ₘ rest ∧ ready s pc ∧
      exec sized s.sh c pc = some (next, sh) ∧ t = ⟨sh, resume next rest⟩ := by
  cases a with
  | start op =>
    obtain ⟨⟨pc, sh⟩, hstart, rfl⟩ := Option.map_eq_some_iff.mp h
    exact .inl ⟨op, pc, sh, rfl, hstart, rfl⟩
  | exec pc c =>
    simp only [step] at h
    split at h
    · rename_i hpc
      obtain ⟨⟨next, sh⟩, hexec, rfl⟩ := Option.map_eq_some_iff.mp h
      refine .inr ⟨pc, c, next, sh, s.calls.erase pc, rfl, ?_, hpc.2, hexec, rfl⟩
      exact (Multiset.cons_erase hpc.1).symm
    · cases h

/-- The function of the source that the call is in. -/
theorem exec_cases {sized : Bool} {sh : Shared} {c : Choice} {pc : Pc} {r : Next}
    (h : exec sized sh c pc = some r) :
    execWakeByRef sh c pc = some r ∨ execWake sized sh c pc = some r ∨ execDrop sh pc = some r ∨
      execTake sh pc = some r ∨ execRun sh c pc = some r ∨ execPending sh c pc = some r ∨
      execGuard sh c pc = some r ∨ execRunnable sh c pc = some r ∨ execTask sh c pc = some r ∨
      execPoll sh pc = some r ∨ execRegister sh c pc = some r := by
  simp only [exec, Option.orElse_eq_orElse, Option.orElse_eq_or, Option.or_eq_some_iff] at h
  tauto

end Cynthia.Task
