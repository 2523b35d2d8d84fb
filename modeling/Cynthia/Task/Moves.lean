import Cynthia.Task.Machine

/-! What one access of a call can do, function by function. A compare-exchange that succeeds
has found the word it expects, so its snapshot is the word itself; one that fails looks again. -/

namespace Cynthia.Task

variable {sized : Bool} {sh : Shared} {c : Choice} {pc : Pc} {r : Next}

/-! ## The moves -/

/-- `clone_waker` and `wake_by_ref`. -/
inductive WakeRefMoves (sh : Shared) : Pc → Next → Prop
  | cloneAbort (b : Borrow) :
    WakeRefMoves sh (.cloneWaker b)
      (some (.cloneAbort b), { sh with word := { sh.word with refs := sh.word.refs + 1 } })
  | clone (b : Borrow) :
    WakeRefMoves sh (.cloneWaker b)
      (none, { sh with word := { sh.word with refs := sh.word.refs + 1 }, wakers := sh.wakers + 1 })
  | load (k : WakeBy) : WakeRefMoves sh (.wakeRefLoad k) (some (.wakeRefLoop k sh.word), sh)
  | retry (k : WakeBy) (state : Word) :
    WakeRefMoves sh (.wakeRefLoop k state) (some (.wakeRefLoop k sh.word), sh)
  | ended (k : WakeBy) (state : Word) : WakeRefMoves sh (.wakeRefLoop k state) (finishWakeRef sh k)
  | scheduled (k : WakeBy) (hs : sh.word.scheduled = true) :
    WakeRefMoves sh (.wakeRefLoop k sh.word) (finishWakeRef { sh with woken := true } k)
  | running (k : WakeBy) (hcompleted : sh.word.completed = false) (hclosed : sh.word.closed = false)
      (hr : sh.word.running = true) :
    WakeRefMoves sh (.wakeRefLoop k sh.word)
      (finishWakeRef { sh with word := { sh.word with scheduled := true }, woken := true } k)
  | idle (k : WakeBy) (pc' : Pc) (hcompleted : sh.word.completed = false)
      (hclosed : sh.word.closed = false) (hs : sh.word.scheduled = false)
      (hr : sh.word.running = false) (hpc' : pc' = .wakeRefAbort k ∨ pc' = .wakeRefCall k) :
    WakeRefMoves sh (.wakeRefLoop k sh.word)
      (some pc', { sh with
        word := { sh.word with scheduled := true, refs := sh.word.refs + 1 }
        woken := true })
  | call (k : WakeBy) :
    WakeRefMoves sh (.wakeRefCall k)
      (some (.wakeRefReturn k), { sh with runnables := sh.runnables + 1 })
  | returns (k : WakeBy) : WakeRefMoves sh (.wakeRefReturn k) (finishWakeRef sh k)

/-- `wake` for a zero-sized `S`, and `schedule`. -/
inductive WakeMoves (sized : Bool) (sh : Shared) : Pc → Next → Prop
  | load : WakeMoves sized sh .wakeLoad (some (.wakeLoop sh.word), sh)
  | retry (state : Word) : WakeMoves sized sh (.wakeLoop state) (some (.wakeLoop sh.word), sh)
  | ended (state : Word) : WakeMoves sized sh (.wakeLoop state) (some (.dropWaker .ret), sh)
  | scheduled (hs : sh.word.scheduled = true) :
    WakeMoves sized sh (.wakeLoop sh.word) (some (.dropWaker .ret), { sh with woken := true })
  | running (hcompleted : sh.word.completed = false) (hclosed : sh.word.closed = false)
      (hr : sh.word.running = true) :
    WakeMoves sized sh (.wakeLoop sh.word)
      (some (.dropWaker .ret),
        { sh with word := { sh.word with scheduled := true }, woken := true })
  | idle (hcompleted : sh.word.completed = false) (hclosed : sh.word.closed = false)
      (hs : sh.word.scheduled = false) (hr : sh.word.running = false) :
    WakeMoves sized sh (.wakeLoop sh.word)
      (some (.schedule .ret),
        { sh with word := { sh.word with scheduled := true }, woken := true })
  | acquire (k : Cont) (pc' : Pc) (hsized : sized = true)
      (hpc' : pc' = .scheduleAbort k ∨ pc' = .scheduleCall k) :
    WakeMoves sized sh (.schedule k)
      (some pc', { sh with word := { sh.word with refs := sh.word.refs + 1 } })
  | pass (k : Cont) (hsized : sized = false) :
    WakeMoves sized sh (.schedule k) (some (.scheduleCall k), sh)
  | call (k : Cont) :
    WakeMoves sized sh (.scheduleCall k)
      (some (.scheduleReturn k), { sh with runnables := sh.runnables + 1 })
  | release (k : Cont) (hsized : sized = true) :
    WakeMoves sized sh (.scheduleReturn k) (some (.dropWaker k), sh)
  | returns (k : Cont) (hsized : sized = false) :
    WakeMoves sized sh (.scheduleReturn k) (finish sh k)

/-- `drop_waker`, `drop_ref` and `destroy`. -/
inductive DropMoves (sh : Shared) : Pc → Next → Prop
  | toStore (k : Cont) (hrefs : sh.word.refs - 1 = 0) (htask : sh.word.task = false)
      (hcompleted : sh.word.completed = false) (hclosed : sh.word.closed = false) :
    DropMoves sh (.dropWaker k)
      (some (.dropWakerStore k), { sh with word := { sh.word with refs := sh.word.refs - 1 } })
  | wakerLast (k : Cont) (hrefs : sh.word.refs - 1 = 0) (htask : sh.word.task = false)
      (hended : sh.word.completed = true ∨ sh.word.closed = true) :
    DropMoves sh (.dropWaker k)
      (some (.destroy k), { sh with word := { sh.word with refs := sh.word.refs - 1 } })
  | waker (k : Cont) (hkept : ¬(sh.word.refs - 1 = 0 ∧ sh.word.task = false)) :
    DropMoves sh (.dropWaker k)
      (finish { sh with word := { sh.word with refs := sh.word.refs - 1 } } k)
  | store (k : Cont) :
    DropMoves sh (.dropWakerStore k) (some (.schedule k), { sh with word := .lastRun })
  | refLast (k : Cont) (hrefs : sh.word.refs - 1 = 0) (htask : sh.word.task = false) :
    DropMoves sh (.dropRef k)
      (some (.destroy k), { sh with word := { sh.word with refs := sh.word.refs - 1 } })
  | ref (k : Cont) (hkept : ¬(sh.word.refs - 1 = 0 ∧ sh.word.task = false)) :
    DropMoves sh (.dropRef k)
      (finish { sh with word := { sh.word with refs := sh.word.refs - 1 } } k)
  | destroy (k : Cont) :
    DropMoves sh (.destroy k) (finish { sh with destroys := sh.destroys + 1 } k)
  | wakeAwaiter (w : Waker) : DropMoves sh (.wakeAwaiter w) (none, sh.wake w)

/-- `Header::take` and `Header::notify`. -/
inductive TakeMoves (sh : Shared) : Pc → Next → Prop
  | won (f : TakeFor) (hn : sh.word.notifying = false) (hr : sh.word.registering = false) :
    TakeMoves sh (.takeOr f)
      (some (.takeCell f), { sh with word := { sh.word with notifying := true } })
  | lost (f : TakeFor) (hbusy : sh.word.notifying = true ∨ sh.word.registering = true) :
    TakeMoves sh (.takeOr f) (takeDone { sh with word := { sh.word with notifying := true } } f none)
  | cell (f : TakeFor) :
    TakeMoves sh (.takeCell f) (some (.takeAnd f sh.awaiter), { sh with awaiter := none })
  | release (f : TakeFor) (got : Option Waker) :
    TakeMoves sh (.takeAnd f got)
      (takeDone { sh with word := { sh.word with notifying := false, awaiter := false } } f
        (keep f got))
  | wake (f : TakeFor) (w : Waker) : TakeMoves sh (.notifyWake f w) (notifyDone (sh.wake w) f)

/-- The word that a finished poll leaves behind. -/
def Word.finishPoll (w : Word) : Word :=
  { w with running := false, scheduled := false, completed := true, closed := w.closed || !w.task }

/-- `run` up to the end of a poll that is `Ready`. -/
inductive RunMoves (sh : Shared) : Pc → Next → Prop
  | load : RunMoves sh .runLoad (some (.runLoop sh.word), sh)
  | retry (state : Word) : RunMoves sh (.runLoop state) (some (.runLoop sh.word), sh)
  | closed (state : Word) (hclosed : state.closed = true) :
    RunMoves sh (.runLoop state) (some .runClosedDrop, sh)
  | poll (hclosed : sh.word.closed = false) :
    RunMoves sh (.runLoop sh.word)
      (some (.polling { sh.word with scheduled := false, running := true }),
        { sh with word := { sh.word with scheduled := false, running := true }, woken := false })
  | closedDrop :
    RunMoves sh .runClosedDrop (some .runClosedAnd, { sh with futureDrops := sh.futureDrops + 1 })
  | closedAnd :
    RunMoves sh .runClosedAnd
      (finishRun { sh with word := { sh.word with scheduled := false } } sh.word.awaiter)
  | ready (state : Word) :
    RunMoves sh (.polling state) (some (.readyDrop state), { sh with readies := sh.readies + 1 })
  | pending (state : Word) : RunMoves sh (.polling state) (some (.pendingLoop state false), sh)
  | panic (state : Word) : RunMoves sh (.polling state) (some .guardLoad, sh)
  | readyDrop (state : Word) :
    RunMoves sh (.readyDrop state)
      (some (.readyWrite state), { sh with futureDrops := sh.futureDrops + 1 })
  | readyWrite (state : Word) :
    RunMoves sh (.readyWrite state) (some (.readyLoop state), { sh with written := sh.written + 1 })
  | readyRetry (state : Word) : RunMoves sh (.readyLoop state) (some (.readyLoop sh.word), sh)
  | unclaimed (hclosed : (sh.word.closed || !sh.word.task) = true) :
    RunMoves sh (.readyLoop sh.word)
      (some (.readyDropOutput sh.word.awaiter), { sh with word := sh.word.finishPoll })
  | completed (hclosed : (sh.word.closed || !sh.word.task) = false) :
    RunMoves sh (.readyLoop sh.word) (finishRun { sh with word := sh.word.finishPoll } sh.word.awaiter)
  | dropOutput (awaiter : Bool) :
    RunMoves sh (.readyDropOutput awaiter) (finishRun { sh with dropped := sh.dropped + 1 } awaiter)

/-- `run` after a poll that is `Pending`. -/
inductive PendingMoves (sh : Shared) : Pc → Next → Prop
  | closed (state : Word) (hclosed : state.closed = true) :
    PendingMoves sh (.pendingLoop state false) (some (.pendingDrop state), sh)
  | retry (state : Word) (dropped : Bool) :
    PendingMoves sh (.pendingLoop state dropped) (some (.pendingLoop sh.word dropped), sh)
  | ended (hclosed : sh.word.closed = true) :
    PendingMoves sh (.pendingLoop sh.word true)
      (finishRun { sh with word := { sh.word with running := false, scheduled := false } }
        sh.word.awaiter)
  | again (dropped : Bool) (hclosed : sh.word.closed = false) (hs : sh.word.scheduled = true) :
    PendingMoves sh (.pendingLoop sh.word dropped)
      (some (.schedule .ret), { sh with word := { sh.word with running := false } })
  | idle (dropped : Bool) (hclosed : sh.word.closed = false) (hs : sh.word.scheduled = false) :
    PendingMoves sh (.pendingLoop sh.word dropped)
      (some (.dropRef .ret), { sh with word := { sh.word with running := false } })
  | drop (state : Word) :
    PendingMoves sh (.pendingDrop state)
      (some (.pendingLoop state true), { sh with futureDrops := sh.futureDrops + 1 })

/-- `Drop for Guard`. -/
inductive GuardMoves (sh : Shared) : Pc → Next → Prop
  | load : GuardMoves sh .guardLoad (some (.guardLoop sh.word), sh)
  | retry (state : Word) : GuardMoves sh (.guardLoop state) (some (.guardLoop sh.word), sh)
  | closed (state : Word) (hclosed : state.closed = true) :
    GuardMoves sh (.guardLoop state) (some (.guardClosedDrop state), sh)
  | close (hclosed : sh.word.closed = false) :
    GuardMoves sh (.guardLoop sh.word)
      (some (.guardDrop sh.word.awaiter), { sh with
        word := { sh.word with running := false, scheduled := false, closed := true } })
  | closedDrop (state : Word) :
    GuardMoves sh (.guardClosedDrop state)
      (some (.guardClosedAnd state), { sh with futureDrops := sh.futureDrops + 1 })
  | closedAnd (state : Word) :
    GuardMoves sh (.guardClosedAnd state)
      (finishRun { sh with word := { sh.word with running := false, scheduled := false } }
        state.awaiter)
  | drop (awaiter : Bool) :
    GuardMoves sh (.guardDrop awaiter)
      (finishRun { sh with futureDrops := sh.futureDrops + 1 } awaiter)

/-- `Drop for Runnable`. -/
inductive RunnableMoves (sh : Shared) : Pc → Next → Prop
  | load : RunnableMoves sh .runnableLoad (some (.runnableLoop sh.word), sh)
  | retry (state : Word) : RunnableMoves sh (.runnableLoop state) (some (.runnableLoop sh.word), sh)
  | ended (state : Word) (hended : (state.completed || state.closed) = true) :
    RunnableMoves sh (.runnableLoop state) (some .runnableDrop, sh)
  | close (hcompleted : sh.word.completed = false) (hclosed : sh.word.closed = false) :
    RunnableMoves sh (.runnableLoop sh.word)
      (some .runnableDrop, { sh with word := { sh.word with closed := true } })
  | drop :
    RunnableMoves sh .runnableDrop (some .runnableAnd, { sh with futureDrops := sh.futureDrops + 1 })
  | notify (ha : sh.word.awaiter = true) :
    RunnableMoves sh .runnableAnd
      (some (.takeOr .runnable), { sh with word := { sh.word with scheduled := false } })
  | release (ha : sh.word.awaiter = false) :
    RunnableMoves sh .runnableAnd
      (some (.dropRef .ret), { sh with word := { sh.word with scheduled := false } })

/-- `set_canceled` and `set_detached`. -/
inductive TaskMoves (sh : Shared) : Pc → Next → Prop
  | load (dropping : Bool) :
    TaskMoves sh (.cancelLoad dropping) (some (.cancelLoop dropping sh.word), sh)
  | retry (dropping : Bool) (state : Word) :
    TaskMoves sh (.cancelLoop dropping state) (some (.cancelLoop dropping sh.word), sh)
  | ended (dropping : Bool) (state : Word) :
    TaskMoves sh (.cancelLoop dropping state) (afterCancel sh dropping)
  | closeNotify (dropping : Bool) (hcompleted : sh.word.completed = false)
      (hclosed : sh.word.closed = false)
      (hbusy : sh.word.scheduled = true ∨ sh.word.running = true) (ha : sh.word.awaiter = true) :
    TaskMoves sh (.cancelLoop dropping sh.word)
      (some (.takeOr (.canceled dropping)), { sh with word := { sh.word with closed := true } })
  | close (dropping : Bool) (hcompleted : sh.word.completed = false)
      (hclosed : sh.word.closed = false)
      (hbusy : sh.word.scheduled = true ∨ sh.word.running = true) (ha : sh.word.awaiter = false) :
    TaskMoves sh (.cancelLoop dropping sh.word)
      (afterCancel { sh with word := { sh.word with closed := true } } dropping)
  | closeIdle (dropping : Bool) (hcompleted : sh.word.completed = false)
      (hclosed : sh.word.closed = false) (hs : sh.word.scheduled = false)
      (hr : sh.word.running = false) :
    TaskMoves sh (.cancelLoop dropping sh.word)
      (some (.schedule (.canceled sh.word.awaiter dropping)), { sh with
        word := { sh.word with scheduled := true, closed := true, refs := sh.word.refs + 1 } })
  | fast (hspawned : sh.word = .spawned) :
    TaskMoves sh .detachFast
      (none, { sh with word := { sh.word with task := false }, handle := .gone })
  | missed : TaskMoves sh .detachFast (some (.detachLoop sh.word), sh)
  | again (state : Word) : TaskMoves sh (.detachLoop state) (some (.detachLoop sh.word), sh)
  | claim (hcompleted : sh.word.completed = true) (hclosed : sh.word.closed = false) :
    TaskMoves sh (.detachLoop sh.word)
      (some (.detachRead { sh.word with closed := true }),
        { sh with word := { sh.word with closed := true } })
  | lastRun (hrefs : sh.word.refs = 0) (hcompleted : sh.word.completed = false)
      (hclosed : sh.word.closed = false) :
    TaskMoves sh (.detachLoop sh.word)
      (some (.schedule .detached), { sh with word := .lastRun, handle := .gone })
  | destroy (hrefs : sh.word.refs = 0) (hclosed : sh.word.closed = true) :
    TaskMoves sh (.detachLoop sh.word)
      (some (.destroy .detached), { sh with word := { sh.word with task := false }, handle := .gone })
  | detach (hrefs : sh.word.refs ≠ 0) (hopen : sh.word.completed = true → sh.word.closed = true) :
    TaskMoves sh (.detachLoop sh.word)
      (none, { sh with word := { sh.word with task := false }, handle := .gone })
  | read (state : Word) :
    TaskMoves sh (.detachRead state) (some (.detachLoop state), { sh with moved := sh.moved + 1 })

/-- `poll_task`. -/
inductive PollMoves (sh : Shared) : Pc → Next → Prop
  | load (w : Waker) : PollMoves sh (.pollLoad w) (some (.pollLoop w sh.word), sh)
  | wait (w : Waker) (state : Word) (hclosed : state.closed = true) :
    PollMoves sh (.pollLoop w state) (some (.registerLoad w .closed), sh)
  | closed (w : Waker) (state : Word) (hclosed : state.closed = true)
      (hs : state.scheduled = false) (hr : state.running = false) :
    PollMoves sh (.pollLoop w state) (some (.takeOr (.pollClosed w)), { sh with armed := false })
  | retry (w : Waker) (state : Word) (hclosed : state.closed = false)
      (hcompleted : state.completed = true) :
    PollMoves sh (.pollLoop w state) (some (.pollLoop w sh.word), sh)
  | claimNotify (w : Waker) (hclosed : sh.word.closed = false)
      (hcompleted : sh.word.completed = true) (ha : sh.word.awaiter = true) :
    PollMoves sh (.pollLoop w sh.word)
      (some (.takeOr (.pollOutput w)),
        { sh with word := { sh.word with closed := true }, armed := false })
  | claim (w : Waker) (hclosed : sh.word.closed = false)
      (hcompleted : sh.word.completed = true) (ha : sh.word.awaiter = false) :
    PollMoves sh (.pollLoop w sh.word)
      (some .pollRead, { sh with word := { sh.word with closed := true }, armed := false })
  | waitOpen (w : Waker) (state : Word) (hclosed : state.closed = false) :
    PollMoves sh (.pollLoop w state) (some (.registerLoad w .open), sh)
  | pendingClosed (w : Waker) (hbusy : sh.word.scheduled = true ∨ sh.word.running = true) :
    PollMoves sh (.pollReload w .closed) (returnPoll sh true)
  | pendingOpen (w : Waker) (hclosed : sh.word.closed = false)
      (hcompleted : sh.word.completed = false) :
    PollMoves sh (.pollReload w .open) (returnPoll sh true)
  | seenClosed (w : Waker) (hs : sh.word.scheduled = false) (hr : sh.word.running = false) :
    PollMoves sh (.pollReload w .closed) (some (.takeOr (.pollClosed w)), { sh with armed := false })
  | seenOpen (w : Waker) (hended : sh.word.closed = true ∨ sh.word.completed = true) :
    PollMoves sh (.pollReload w .open) (some (.pollLoop w sh.word), sh)
  | read : PollMoves sh .pollRead (returnPoll { sh with moved := sh.moved + 1 } false)

/-- `Header::register`. -/
inductive RegisterMoves (sh : Shared) : Pc → Next → Prop
  | load (w : Waker) (site : Site) :
    RegisterMoves sh (.registerLoad w site) (some (.registerLoop w site sh.word), sh)
  | wakeOwn (w : Waker) (site : Site) (state : Word) :
    RegisterMoves sh (.registerLoop w site state)
      (some (.pollReload w site), { sh.wake w with armed := true })
  | retry (w : Waker) (site : Site) (state : Word) :
    RegisterMoves sh (.registerLoop w site state) (some (.registerLoop w site sh.word), sh)
  | lock (w : Waker) (site : Site) (hn : sh.word.notifying = false) :
    RegisterMoves sh (.registerLoop w site sh.word)
      (some (.registerWrite w site { sh.word with registering := true }),
        { sh with word := { sh.word with registering := true } })
  | write (w : Waker) (site : Site) (state : Word) :
    RegisterMoves sh (.registerWrite w site state)
      (some (.registerCheck w site state none), { sh with awaiter := some w })
  | takeBack (w : Waker) (site : Site) (state : Word) (got : Option Waker) :
    RegisterMoves sh (.registerCheck w site state got)
      (some (.registerSwap w site state (sh.awaiter.or got)), { sh with awaiter := none })
  | leave (w : Waker) (site : Site) (state : Word) (got : Option Waker) :
    RegisterMoves sh (.registerCheck w site state got) (some (.registerSwap w site state got), sh)
  | recheck (w : Waker) (site : Site) (state : Word) (got : Option Waker) :
    RegisterMoves sh (.registerSwap w site state got) (some (.registerCheck w site sh.word got), sh)
  | store (w : Waker) (site : Site) :
    RegisterMoves sh (.registerSwap w site sh.word none)
      (some (.pollReload w site), { sh with
        word := { sh.word with notifying := false, registering := false, awaiter := true }
        armed := true })
  | unlock (w : Waker) (site : Site) (g : Waker) :
    RegisterMoves sh (.registerSwap w site sh.word (some g))
      (some (.registerWake w site g), { sh with
        word := { sh.word with notifying := false, registering := false, awaiter := false }
        armed := true })
  | wake (w : Waker) (site : Site) (g : Waker) :
    RegisterMoves sh (.registerWake w site g) (some (.pollReload w site), sh.wake g)

/-- What an operation on a handle starts with. -/
inductive Starts (s : Sys) : Pc → Shared → Prop
  | clone (b : Borrow) (hlends : lends s b) : Starts s (.cloneWaker b) s.sh
  | wakeByRef (b : Borrow) (hlends : lends s b) : Starts s (.wakeRefLoad (.ref b)) s.sh
  | waker (pc : Pc) (hspare : spareWaker s)
      (hpc : pc = .wakeRefLoad .val ∨ pc = .wakeLoad ∨ pc = .dropWaker .ret) :
    Starts s pc { s.sh with wakers := s.sh.wakers - 1 }
  | runnable (pc : Pc) (hspare : spareRunnable s)
      (hpc : pc = .schedule .ret ∨ pc = .runLoad ∨ pc = .runnableLoad) :
    Starts s pc { s.sh with runnables := s.sh.runnables - 1 }
  | poll (w : Waker) (hidle : s.sh.handle = .idle) :
    Starts s (.pollLoad w) { s.sh with
      handle := .busy, pollWaker := w, pollWoken := false, armed := false, pollPending := false }
  | task (pc : Pc) (hidle : s.sh.handle = .idle)
      (hpc : pc = .cancelLoad false ∨ pc = .detachFast ∨ pc = .cancelLoad true) :
    Starts s pc { s.sh with handle := .busy }

/-! ## Every access is one of them -/

theorem cas_cases {state new : Word} {ok : Shared → Next} {err : Word → Pc}
    (he : some (cas sh c state new ok err) = some r) :
    state = sh.word ∧ r = ok { sh with word := new } ∨ r = (some (err sh.word), sh) := by
  unfold cas at he
  split at he <;> cases he
  · rename_i hword
    exact .inl ⟨hword.1.symm, rfl⟩
  · exact .inr rfl

theorem wakeRefMoves_of_exec (he : execWakeByRef sh c pc = some r) : WakeRefMoves sh pc r := by
  unfold execWakeByRef at he
  split at he
  case h_1 b =>
    split at he <;> cases he
    · exact .cloneAbort b
    · exact .clone b
  case h_2 k =>
    cases he
    exact .load k
  case h_3 k state =>
    split at he
    · cases he
      exact .ended k state
    rename_i hopen
    obtain ⟨hcompleted, hclosed⟩ : state.completed = false ∧ state.closed = false := by
      simpa using hopen
    split at he
    · rename_i hs
      obtain ⟨rfl, rfl⟩ | rfl := cas_cases he
      · exact .scheduled k hs
      · exact .retry k state
    rename_i hs
    split at he
    · rename_i hr
      obtain ⟨rfl, rfl⟩ | rfl := cas_cases he
      · exact .running k hcompleted hclosed hr
      · exact .retry k state
    · rename_i hr
      obtain ⟨rfl, rfl⟩ | rfl := cas_cases he
      · refine .idle k _ hcompleted hclosed (Bool.eq_false_iff.mpr hs) (Bool.eq_false_iff.mpr hr) ?_
        exact ite_eq_or_eq _ _ _
      · exact .retry k state
  case h_4 k =>
    cases he
    exact .call k
  case h_5 k =>
    cases he
    exact .returns k
  case h_6 => cases he

theorem wakeMoves_of_exec (he : execWake sized sh c pc = some r) : WakeMoves sized sh pc r := by
  unfold execWake at he
  split at he
  case h_1 =>
    cases he
    exact .load
  case h_2 state =>
    split at he
    · cases he
      exact .ended state
    rename_i hopen
    obtain ⟨hcompleted, hclosed⟩ : state.completed = false ∧ state.closed = false := by
      simpa using hopen
    split at he
    · rename_i hs
      obtain ⟨rfl, rfl⟩ | rfl := cas_cases he
      · exact .scheduled hs
      · exact .retry state
    · rename_i hs
      obtain ⟨rfl, rfl⟩ | rfl := cas_cases he
      · by_cases hr : sh.word.running = true
        · simp only [if_pos hr]
          exact .running hcompleted hclosed hr
        · simp only [if_neg hr]
          exact .idle hcompleted hclosed (Bool.eq_false_iff.mpr hs) (Bool.eq_false_iff.mpr hr)
      · exact .retry state
  case h_3 k =>
    split at he
    · rename_i hsized
      cases he
      exact .acquire k _ hsized (ite_eq_or_eq _ _ _)
    · rename_i hsized
      cases he
      exact .pass k (Bool.eq_false_iff.mpr hsized)
  case h_4 k =>
    cases he
    exact .call k
  case h_5 k =>
    split at he
    · rename_i hsized
      cases he
      exact .release k hsized
    · rename_i hsized
      cases he
      exact .returns k (Bool.eq_false_iff.mpr hsized)
  case h_6 => cases he

theorem dropMoves_of_exec (he : execDrop sh pc = some r) : DropMoves sh pc r := by
  unfold execDrop at he
  split at he
  case h_1 k =>
    dsimp only at he
    split at he
    · rename_i hlast
      split at he
      · rename_i hended
        cases he
        exact .toStore k hlast.1 hlast.2 hended.1 hended.2
      · rename_i hended
        cases he
        refine .wakerLast k hlast.1 hlast.2 ?_
        rw [← Bool.not_eq_false, ← Bool.not_eq_false, ← not_and_or]
        exact hended
    · rename_i hkept
      cases he
      exact .waker k hkept
  case h_2 k =>
    cases he
    exact .store k
  case h_3 k =>
    dsimp only at he
    split at he
    · rename_i hlast
      cases he
      exact .refLast k hlast.1 hlast.2
    · rename_i hkept
      cases he
      exact .ref k hkept
  case h_4 k =>
    cases he
    exact .destroy k
  case h_5 w =>
    cases he
    exact .wakeAwaiter w
  case h_6 => cases he

theorem takeMoves_of_exec (he : execTake sh pc = some r) : TakeMoves sh pc r := by
  unfold execTake at he
  split at he
  case h_1 f =>
    dsimp only at he
    split at he
    · rename_i hwon
      cases he
      exact .won f hwon.1 hwon.2
    · rename_i hlost
      cases he
      refine .lost f ?_
      rw [← Bool.not_eq_false, ← Bool.not_eq_false, ← not_and_or]
      exact hlost
  case h_2 f =>
    cases he
    exact .cell f
  case h_3 f got =>
    cases he
    exact .release f got
  case h_4 f w =>
    cases he
    exact .wake f w
  case h_5 => cases he

theorem runMoves_of_exec (he : execRun sh c pc = some r) : RunMoves sh pc r := by
  unfold execRun at he
  split at he
  case h_1 =>
    cases he
    exact .load
  case h_2 state =>
    split at he
    · rename_i hclosed
      cases he
      exact .closed state hclosed
    · rename_i hclosed
      obtain ⟨rfl, rfl⟩ | rfl := cas_cases he
      · exact .poll (Bool.eq_false_iff.mpr hclosed)
      · exact .retry state
  case h_3 =>
    cases he
    exact .closedDrop
  case h_4 =>
    cases he
    exact .closedAnd
  case h_5 state =>
    cases c <;> cases he
    · exact .ready state
    · exact .pending state
    · exact .panic state
  case h_6 state =>
    cases he
    exact .readyDrop state
  case h_7 state =>
    cases he
    exact .readyWrite state
  case h_8 state =>
    obtain ⟨rfl, rfl⟩ | rfl := cas_cases he
    · rw [Bool.or_comm]
      by_cases hclosed : (sh.word.closed || !sh.word.task) = true
      · simp only [if_pos hclosed]
        exact .unclaimed hclosed
      · simp only [if_neg hclosed]
        exact .completed (Bool.eq_false_iff.mpr hclosed)
    · exact .readyRetry state
  case h_9 awaiter =>
    cases he
    exact .dropOutput awaiter
  case h_10 => cases he

theorem pendingMoves_of_exec (he : execPending sh c pc = some r) : PendingMoves sh pc r := by
  unfold execPending at he
  split at he
  case h_1 state dropped =>
    split at he
    · rename_i hkept
      obtain ⟨hclosed, rfl⟩ : state.closed = true ∧ dropped = false := by simpa using hkept
      cases he
      exact .closed state hclosed
    rename_i hkept
    split at he
    · rename_i hclosed
      obtain rfl : dropped = true := by simpa [hclosed] using hkept
      obtain ⟨rfl, rfl⟩ | rfl := cas_cases he
      · exact .ended hclosed
      · exact .retry state true
    · rename_i hclosed
      obtain ⟨rfl, rfl⟩ | rfl := cas_cases he
      · have hclosed := Bool.eq_false_iff.mpr hclosed
        by_cases hs : sh.word.scheduled = true
        · simp only [if_pos hs]
          exact .again dropped hclosed hs
        · simp only [if_neg hs]
          exact .idle dropped hclosed (Bool.eq_false_iff.mpr hs)
      · exact .retry state dropped
  case h_2 state =>
    cases he
    exact .drop state
  case h_3 => cases he

theorem guardMoves_of_exec (he : execGuard sh c pc = some r) : GuardMoves sh pc r := by
  unfold execGuard at he
  split at he
  case h_1 =>
    cases he
    exact .load
  case h_2 state =>
    split at he
    · rename_i hclosed
      cases he
      exact .closed state hclosed
    · rename_i hclosed
      obtain ⟨rfl, rfl⟩ | rfl := cas_cases he
      · exact .close (Bool.eq_false_iff.mpr hclosed)
      · exact .retry state
  case h_3 state =>
    cases he
    exact .closedDrop state
  case h_4 state =>
    cases he
    exact .closedAnd state
  case h_5 awaiter =>
    cases he
    exact .drop awaiter
  case h_6 => cases he

theorem runnableMoves_of_exec (he : execRunnable sh c pc = some r) : RunnableMoves sh pc r := by
  unfold execRunnable at he
  split at he
  case h_1 =>
    cases he
    exact .load
  case h_2 state =>
    split at he
    · rename_i hended
      cases he
      exact .ended state hended
    · rename_i hopen
      obtain ⟨hcompleted, hclosed⟩ : state.completed = false ∧ state.closed = false := by
        simpa using hopen
      obtain ⟨rfl, rfl⟩ | rfl := cas_cases he
      · exact .close hcompleted hclosed
      · exact .retry state
  case h_3 =>
    cases he
    exact .drop
  case h_4 =>
    cases he
    by_cases ha : sh.word.awaiter = true
    · simp only [if_pos ha]
      exact .notify ha
    · simp only [if_neg ha]
      exact .release (Bool.eq_false_iff.mpr ha)
  case h_5 => cases he

theorem taskMoves_of_exec (he : execTask sh c pc = some r) : TaskMoves sh pc r := by
  unfold execTask at he
  split at he
  case h_1 dropping =>
    cases he
    exact .load dropping
  case h_2 dropping state =>
    split at he
    · cases he
      exact .ended dropping state
    rename_i hopen
    obtain ⟨hcompleted, hclosed⟩ : state.completed = false ∧ state.closed = false := by
      simpa using hopen
    split at he
    · rename_i hbusy
      obtain ⟨rfl, rfl⟩ | rfl := cas_cases he
      · have hbusy : sh.word.scheduled = true ∨ sh.word.running = true := by simpa using hbusy
        by_cases ha : sh.word.awaiter = true
        · simp only [if_pos ha]
          exact .closeNotify dropping hcompleted hclosed hbusy ha
        · simp only [if_neg ha]
          exact .close dropping hcompleted hclosed hbusy (Bool.eq_false_iff.mpr ha)
      · exact .retry dropping state
    · rename_i hidle
      obtain ⟨rfl, rfl⟩ | rfl := cas_cases he
      · obtain ⟨hs, hr⟩ : sh.word.scheduled = false ∧ sh.word.running = false := by
          simpa using hidle
        exact .closeIdle dropping hcompleted hclosed hs hr
      · exact .retry dropping state
  case h_3 =>
    obtain ⟨hspawned, rfl⟩ | rfl := cas_cases he
    · rw [hspawned]
      exact .fast hspawned.symm
    · exact .missed
  case h_4 state =>
    split at he
    · rename_i hclaim
      obtain ⟨hcompleted, hclosed⟩ : state.completed = true ∧ state.closed = false := by
        simpa using hclaim
      obtain ⟨rfl, rfl⟩ | rfl := cas_cases he
      · exact .claim hcompleted hclosed
      · exact .again state
    rename_i hclaim
    have hopen : state.completed = true → state.closed = true := by simpa using hclaim
    split at he
    · rename_i hlast
      obtain ⟨rfl, rfl⟩ | rfl := cas_cases he
      · refine .lastRun hlast.1 (Bool.eq_false_iff.mpr fun hcompleted => ?_) hlast.2
        exact Bool.false_ne_true (hlast.2.symm.trans (hopen hcompleted))
      · exact .again state
    · rename_i hlast
      obtain ⟨rfl, rfl⟩ | rfl := cas_cases he
      · by_cases hrefs : sh.word.refs = 0
        · have hclosed : sh.word.closed = true := by simpa [hrefs] using hlast
          simp only [if_pos hrefs]
          exact .destroy hrefs hclosed
        · simp only [if_neg hrefs]
          exact .detach hrefs hopen
      · exact .again state
  case h_5 state =>
    cases he
    exact .read state
  case h_6 => cases he

theorem pollMoves_of_exec (he : execPoll sh pc = some r) : PollMoves sh pc r := by
  unfold execPoll at he
  split at he
  case h_1 w =>
    cases he
    exact .load w
  case h_2 w state =>
    split at he
    · rename_i hclosed
      split at he
      · cases he
        exact .wait w state hclosed
      · rename_i hidle
        obtain ⟨hs, hr⟩ : state.scheduled = false ∧ state.running = false := by simpa using hidle
        cases he
        exact .closed w state hclosed hs hr
    rename_i hclosed
    have hclosed := Bool.eq_false_iff.mpr hclosed
    split at he
    · rename_i hcompleted
      obtain ⟨rfl, rfl⟩ | rfl := cas_cases he
      · by_cases ha : sh.word.awaiter = true
        · simp only [if_pos ha]
          exact .claimNotify w hclosed hcompleted ha
        · simp only [if_neg ha]
          exact .claim w hclosed hcompleted (Bool.eq_false_iff.mpr ha)
      · exact .retry w state hclosed hcompleted
    · cases he
      exact .waitOpen w state hclosed
  case h_3 w =>
    split at he
    · rename_i hbusy
      cases he
      exact .pendingClosed w (by simpa using hbusy)
    · rename_i hidle
      obtain ⟨hs, hr⟩ : sh.word.scheduled = false ∧ sh.word.running = false := by simpa using hidle
      cases he
      exact .seenClosed w hs hr
  case h_4 w =>
    split at he
    · rename_i hended
      cases he
      exact .seenOpen w (by simpa using hended)
    · rename_i hopen
      obtain ⟨hclosed, hcompleted⟩ : sh.word.closed = false ∧ sh.word.completed = false := by
        simpa using hopen
      cases he
      exact .pendingOpen w hclosed hcompleted
  case h_5 =>
    cases he
    exact .read
  case h_6 => cases he

theorem registerMoves_of_exec (he : execRegister sh c pc = some r) : RegisterMoves sh pc r := by
  unfold execRegister at he
  split at he
  case h_1 w site =>
    cases he
    exact .load w site
  case h_2 w site state =>
    split at he
    · cases he
      exact .wakeOwn w site state
    · rename_i hn
      obtain ⟨rfl, rfl⟩ | rfl := cas_cases he
      · exact .lock w site (Bool.eq_false_iff.mpr hn)
      · exact .retry w site state
  case h_3 w site state =>
    cases he
    exact .write w site state
  case h_4 w site state got =>
    split at he <;> cases he
    · exact .takeBack w site state got
    · exact .leave w site state got
  case h_5 w site state got =>
    split at he
    · obtain ⟨rfl, rfl⟩ | rfl := cas_cases he
      · exact .store w site
      · exact .recheck w site state none
    · rename_i g
      obtain ⟨rfl, rfl⟩ | rfl := cas_cases he
      · exact .unlock w site g
      · exact .recheck w site state (some g)
  case h_6 w site g =>
    cases he
    exact .wake w site g
  case h_7 => cases he

/-- What a call can do next, by the function of the source it is in. -/
theorem moves_of_exec (he : exec sized sh c pc = some r) :
    WakeRefMoves sh pc r ∨ WakeMoves sized sh pc r ∨ DropMoves sh pc r ∨ TakeMoves sh pc r ∨
      RunMoves sh pc r ∨ PendingMoves sh pc r ∨ GuardMoves sh pc r ∨ RunnableMoves sh pc r ∨
      TaskMoves sh pc r ∨ PollMoves sh pc r ∨ RegisterMoves sh pc r := by
  rcases exec_cases he with he | he | he | he | he | he | he | he | he | he | he
  · exact .inl (wakeRefMoves_of_exec he)
  · exact .inr (.inl (wakeMoves_of_exec he))
  · exact .inr (.inr (.inl (dropMoves_of_exec he)))
  · exact .inr (.inr (.inr (.inl (takeMoves_of_exec he))))
  · exact .inr (.inr (.inr (.inr (.inl (runMoves_of_exec he)))))
  · exact .inr (.inr (.inr (.inr (.inr (.inl (pendingMoves_of_exec he))))))
  · exact .inr (.inr (.inr (.inr (.inr (.inr (.inl (guardMoves_of_exec he)))))))
  · exact .inr (.inr (.inr (.inr (.inr (.inr (.inr (.inl (runnableMoves_of_exec he))))))))
  · exact .inr (.inr (.inr (.inr (.inr (.inr (.inr (.inr (.inl (taskMoves_of_exec he)))))))))
  · exact .inr (.inr (.inr (.inr (.inr (.inr (.inr (.inr (.inr (.inl
      (pollMoves_of_exec he))))))))))
  · exact .inr (.inr (.inr (.inr (.inr (.inr (.inr (.inr (.inr (.inr
      (registerMoves_of_exec he))))))))))

theorem starts_of_start {s : Sys} {op : Op} (hs : start sized s op = some (pc, sh)) :
    Starts s pc sh := by
  unfold start at hs
  split at hs
  case h_1 b =>
    split at hs <;> cases hs
    rename_i hlends
    exact .clone b hlends
  case h_2 b =>
    split at hs <;> cases hs
    rename_i hlends
    exact .wakeByRef b hlends.1
  case h_3 =>
    split at hs <;> cases hs
    rename_i hspare
    refine .waker _ hspare ?_
    cases sized with
    | true => exact .inl rfl
    | false => exact .inr (.inl rfl)
  case h_4 =>
    split at hs <;> cases hs
    rename_i hspare
    exact .waker _ hspare (.inr (.inr rfl))
  case h_5 =>
    split at hs <;> cases hs
    rename_i hspare
    exact .runnable _ hspare (.inl rfl)
  case h_6 =>
    split at hs <;> cases hs
    rename_i hspare
    exact .runnable _ hspare (.inr (.inl rfl))
  case h_7 =>
    split at hs <;> cases hs
    rename_i hspare
    exact .runnable _ hspare (.inr (.inr rfl))
  case h_8 w =>
    split at hs <;> cases hs
    rename_i hidle
    exact .poll w hidle
  case h_9 =>
    split at hs <;> cases hs
    rename_i hidle
    exact .task _ hidle (.inl rfl)
  case h_10 =>
    split at hs <;> cases hs
    rename_i hidle
    exact .task _ hidle (.inr (.inl rfl))
  case h_11 =>
    split at hs <;> cases hs
    rename_i hidle
    exact .task _ hidle (.inr (.inr rfl))

/-! ## What the functions that end an operation can do -/

section Endings

variable {P : Next → Prop}

theorem afterCancel_of (dropping : Bool) (hidle : P (none, { sh with handle := .idle }))
    (hdetach : P (some .detachFast, sh)) : P (afterCancel sh dropping) := by
  cases dropping with
  | true => exact hdetach
  | false => exact hidle

theorem finish_of (k : Cont) (hret : P (none, sh)) (hidle : P (none, { sh with handle := .idle }))
    (hdetach : P (some .detachFast, sh)) (hwake : ∀ w, P (some (.wakeAwaiter w), sh))
    (htake : ∀ f, P (some (.takeOr (.canceled f)), sh)) : P (finish sh k) := by
  cases k with
  | ret | detached => exact hret
  | wakeAwaiter w => exact hwake w
  | canceled awaiter dropping =>
    cases awaiter with
    | true => exact htake dropping
    | false => exact afterCancel_of dropping hidle hdetach

theorem finishWakeRef_of (k : WakeBy) (hret : P (none, sh))
    (hdrop : P (some (.dropWaker .ret), sh)) : P (finishWakeRef sh k) := by
  cases k with
  | ref b => exact hret
  | val => exact hdrop

theorem finishRun_of (awaiter : Bool) (htake : P (some (.takeOr .runner), sh))
    (hdrop : P (some (.dropRef .ret), sh)) : P (finishRun sh awaiter) := by
  cases awaiter with
  | true => exact htake
  | false => exact hdrop

theorem notifyDone_of (f : TakeFor) (hdrop : P (some (.dropRef .ret), sh))
    (hidle : P (none, { sh with handle := .idle })) (hdetach : P (some .detachFast, sh))
    (hpoll : P (returnPoll sh false)) (hread : P (some .pollRead, sh)) : P (notifyDone sh f) := by
  cases f with
  | runner | runnable => exact hdrop
  | canceled dropping => exact afterCancel_of dropping hidle hdetach
  | pollClosed w => exact hpoll
  | pollOutput w => exact hread

theorem takeDone_of (f : TakeFor) (got : Option Waker)
    (hwake : ∀ w, P (some (.dropRef (.wakeAwaiter w)), sh))
    (hnotify : ∀ w, P (some (.notifyWake f w), sh)) (hdrop : P (some (.dropRef .ret), sh))
    (hidle : P (none, { sh with handle := .idle })) (hdetach : P (some .detachFast, sh))
    (hpoll : P (returnPoll sh false)) (hread : P (some .pollRead, sh)) : P (takeDone sh f got) := by
  unfold takeDone
  split
  · exact hwake _
  · exact hdrop
  · exact hnotify _
  · exact notifyDone_of f hdrop hidle hdetach hpoll hread

end Endings

end Cynthia.Task
