import Cynthia.Lib.Census
import Cynthia.Lib.Transition

/-! `block_on` of `io/worker.rs` with its waker and with `Inner::park` and
`Inner::unpark` of `platform/parking/parking.rs`, at the granularity of their
atomic accesses. The waker is invoked any number of times, by threads outside of
the reactor or by the thread that is waking in its `react`; other threads take the
reactor's lock and wait in the poller as they like. A poller notification stays
pending until the next wait in the poller returns. -/

namespace Cynthia.Io.BlockOn

open Transition Census

/-- `EMPTY`, `PARKED` and `NOTIFIED`. -/
inductive Token where
  | empty | parked | notified
  deriving DecidableEq, Repr

/-- Who holds the lock of the reactor; `cached` is the `CACHED_IO` of another thread. -/
inductive Holder where
  | blockOn
  | other (cached : Bool)
  deriving DecidableEq, Repr

/-- Points of the thread in `block_on`. The first `react` is the one without a
timeout to wait for; `park` and what follows carries whether the guard that resets
`block_stub` is still alive. -/
inductive Pc where
  | poll | polling | checkFirst
  | tryLockNow | reactNow | wakingNow | resetNow | unlockNow
  | tryLock | setStub | checkStub | wait | waking | checkWoken | elapsed
  | resetLoop | resetBreak | unlock
  | park (guarded : Bool)
  | parkLock (guarded : Bool)
  | parkSet (guarded : Bool)
  | parkSwap (guarded : Bool)
  | parkEnter (guarded : Bool)
  | waiting (guarded : Bool)
  | woken (guarded : Bool)
  | recheck (guarded : Bool)
  | parkReturn (guarded : Bool)
  | done
  deriving DecidableEq, Repr

/-- Points of an invocation of the waker: the swap in `unpark`, the passage through
the parker's lock and `notify_one`, then the look at `CACHED_IO`, at `block_stub`,
and `Reactor::notify`. -/
inductive WakePc where
  | swap | lock | signal | cached | stub | notify | returned
  deriving DecidableEq, Repr

inductive Invoker where
  | outside | inReact
  deriving DecidableEq, Repr

structure Wake where
  invoker : Invoker
  pc : WakePc
  deriving DecidableEq, Repr

/-- `invoked` is history: the waker was invoked after the last poll began. -/
structure State where
  token : Token
  pc : Pc
  blockStub : Bool
  cachedIo : Bool
  holder : Option Holder
  notified : Bool
  wakes : Nat → Wake
  started : Nat
  invoked : Bool

def new : State where
  token := .empty
  pc := .poll
  blockStub := false
  cachedIo := false
  holder := none
  notified := false
  wakes _ := ⟨.outside, .returned⟩
  started := 0
  invoked := false

/-- The parker's lock is held. -/
def Pc.holdsLock : Pc → Bool
  | .parkSet _ | .parkSwap _ | .parkEnter _ | .recheck _ => true
  | _ => false

/-- The thread wakes wakers at the end of its `react`. -/
def Pc.isWaking : Pc → Bool
  | .waking | .wakingNow => true
  | _ => false

/-- No invocation made by the thread that holds the reactor is under way. -/
def Quiet (s : State) : Prop :=
  ∀ i < s.started, (s.wakes i).invoker = .inReact → (s.wakes i).pc = .returned

instance (s : State) : Decidable (Quiet s) :=
  inferInstanceAs (Decidable (∀ i < s.started, _))

/-- `park_timeout(0)`: where to go with a token and where without. -/
def parkNow (s : State) (yes no : Pc) : State :=
  if s.token = .notified then { s with token := .empty, pc := yes } else { s with pc := no }

/-- One step of the thread in `block_on`; `choice` is the outcome of the poll, or
that more than 500 microseconds have passed. -/
def blockOnStep (s : State) (choice : Bool) : Option State :=
  match s.pc with
  | .poll => some { s with invoked := false, pc := .polling }
  | .polling => some { s with pc := if choice then .done else .checkFirst }
  | .checkFirst => some (parkNow s .tryLockNow .tryLock)
  | .tryLockNow =>
    if s.holder = none then
      some { s with holder := some .blockOn, cachedIo := true, pc := .reactNow }
    else some { s with pc := .poll }
  | .reactNow => some { s with notified := false, pc := .wakingNow }
  | .wakingNow => if Quiet s then some { s with pc := .resetNow } else none
  | .resetNow => some { s with cachedIo := false, pc := .unlockNow }
  | .unlockNow => some { s with holder := none, pc := .poll }
  | .tryLock =>
    if s.holder = none then some { s with holder := some .blockOn, pc := .setStub }
    else some { s with pc := .park false }
  | .setStub => some { s with cachedIo := true, blockStub := true, pc := .checkStub }
  | .checkStub => some (parkNow s .resetBreak .wait)
  | .wait => some { s with notified := false, pc := .waking }
  | .waking => if Quiet s then some { s with pc := .checkWoken } else none
  | .checkWoken => some (parkNow s .resetBreak .elapsed)
  | .elapsed =>
    if choice then some { s with holder := none, pc := .park true }
    else some { s with pc := .resetLoop }
  | .resetLoop => some { s with cachedIo := false, blockStub := false, pc := .setStub }
  | .resetBreak => some { s with cachedIo := false, blockStub := false, pc := .unlock }
  | .unlock => some { s with holder := none, pc := .poll }
  | .park guarded => some (parkNow s (.parkReturn guarded) (.parkLock guarded))
  | .parkLock guarded => some { s with pc := .parkSet guarded }
  | .parkSet guarded =>
    match s.token with
    | .empty => some { s with token := .parked, pc := .parkEnter guarded }
    | .notified => some { s with pc := .parkSwap guarded }
    | .parked => none
  | .parkSwap guarded => some { s with token := .empty, pc := .parkReturn guarded }
  | .parkEnter guarded => some { s with pc := .waiting guarded }
  | .waiting _ => none
  | .woken guarded => some { s with pc := .recheck guarded }
  | .recheck guarded => some (parkNow s (.parkReturn guarded) (.parkEnter guarded))
  | .parkReturn guarded =>
    if guarded then some { s with cachedIo := false, blockStub := false, pc := .poll }
    else some { s with pc := .poll }
  | .done => none

def moveWake (s : State) (i : Nat) (pc : WakePc) : State :=
  { s with wakes := Function.update s.wakes i { s.wakes i with pc := pc } }

/-- A blocked thread leaves the wait on the condition variable. -/
def stir (s : State) : State :=
  match s.pc with
  | .waiting guarded => { s with pc := .woken guarded }
  | _ => s

/-- `CACHED_IO` as the invoking thread sees it. -/
def cachedOf (s : State) : Invoker → Bool
  | .outside => false
  | .inReact =>
    match s.holder with
    | some (.other cached) => cached
    | some .blockOn => s.cachedIo
    | none => false

/-- One step of an invocation of the waker. -/
def wakeStep (s : State) (i : Nat) : Option State :=
  match (s.wakes i).pc with
  | .swap =>
    match s.token with
    | .empty => some (moveWake { s with token := .notified } i .cached)
    | .notified => some (moveWake s i .returned)
    | .parked => some (moveWake { s with token := .notified } i .lock)
  | .lock => if s.pc.holdsLock then none else some (moveWake s i .signal)
  | .signal => some (moveWake (stir s) i .cached)
  | .cached => some (moveWake s i (if cachedOf s (s.wakes i).invoker then .returned else .stub))
  | .stub => some (moveWake s i (if s.blockStub then .notify else .returned))
  | .notify => some (moveWake { s with notified := true } i .returned)
  | .returned => none

inductive Act where
  | blockOn (choice : Bool)
  | spurious
  | invoke (invoker : Invoker)
  | wake (i : Nat)
  | otherLock (cached : Bool)
  | otherWait
  | otherUnlock
  deriving DecidableEq, Repr

/-- Whether a thread can be invoking the waker from inside a `react`. -/
def mayInvoke (s : State) : Invoker → Prop
  | .outside => True
  | .inReact => (∃ cached ∈ [false, true], s.holder = some (.other cached)) ∨ s.pc.isWaking = true

instance (s : State) (invoker : Invoker) : Decidable (mayInvoke s invoker) :=
  match invoker with
  | .outside => inferInstanceAs (Decidable True)
  | .inReact => inferInstanceAs (Decidable (_ ∨ _))

def step (s : State) : Act → Option State
  | .blockOn choice => blockOnStep s choice
  | .spurious => some (stir s)
  | .invoke invoker =>
    if mayInvoke s invoker then
      some { s with wakes := Function.update s.wakes s.started ⟨invoker, .swap⟩
                    started := s.started + 1
                    invoked := true }
    else none
  | .wake i => wakeStep s i
  | .otherLock cached =>
    if s.holder = none then some { s with holder := some (.other cached) } else none
  | .otherWait =>
    if s.holder = some (.other false) ∨ s.holder = some (.other true) then
      some { s with notified := false }
    else none
  | .otherUnlock =>
    if (s.holder = some (.other false) ∨ s.holder = some (.other true)) ∧ Quiet s then
      some { s with holder := none }
    else none

def system : System State Act := ⟨new, step⟩

/-! ## The invariant -/

/-- The thread took the token and is on its way to the next poll. -/
def Pc.isGoing : Pc → Bool
  | .poll | .tryLockNow | .reactNow | .wakingNow | .resetNow | .unlockNow | .resetBreak | .unlock
  | .parkReturn _ => true
  | _ => false

def Pc.holdsReactor : Pc → Bool
  | .reactNow | .wakingNow | .resetNow | .unlockNow | .setStub | .checkStub | .wait | .waking
  | .checkWoken | .elapsed | .resetLoop | .resetBreak | .unlock => true
  | _ => false

def Pc.isParked : Pc → Bool
  | .parkEnter _ | .waiting _ | .woken _ | .recheck _ => true
  | _ => false

/-- An invocation that is going to notify the poller if `block_stub` is set. -/
def Wake.willNotify (w : Wake) : Bool :=
  match w.pc with
  | .cached => w.invoker = .outside
  | .stub | .notify => true
  | _ => false

/-- Who holds what at each point of the thread. -/
structure Shape (s : State) : Prop where
  locked : s.pc.holdsReactor = true → s.holder = some .blockOn
  stubbed : s.pc = .checkStub ∨ s.pc = .wait → s.blockStub = true
  parked : s.token = .parked → s.pc.isParked = true
  present : s.pc.isParked = true → s.token ≠ .empty

/-- An invocation from inside a `react` is made by the thread that holds the reactor. -/
structure Reacting (s : State) : Prop where
  fresh : Fresh ⟨.outside, .returned⟩ s.started s.wakes
  inReact : ∀ i, (s.wakes i).invoker = .inReact → (s.wakes i).pc ≠ .returned →
    (∃ cached, s.holder = some (.other cached)) ∨ s.pc.isWaking = true

/-- The waker was invoked only if the token is there, is about to be put there, or
was taken; and a token put there while the thread is blocked is followed by what
ends the wait. -/
structure Delivery (s : State) : Prop where
  token : s.invoked = true →
    (∃ i, (s.wakes i).pc = .swap) ∨ s.token = .notified ∨ s.pc.isGoing = true
  entering : ∀ guarded, s.pc = .parkEnter guarded → s.token = .notified →
    ∃ i, (s.wakes i).pc = .lock
  blocked : ∀ guarded, s.pc = .waiting guarded → s.token = .notified →
    ∃ i, (s.wakes i).pc = .lock ∨ (s.wakes i).pc = .signal
  polling : s.pc = .wait → s.token = .notified →
    s.notified = true ∨ ∃ i, (s.wakes i).willNotify = true

theorem shape_new : Shape new := by
  constructor <;> simp [new, Pc.holdsReactor, Pc.isParked]

theorem reacting_new : Reacting new := by
  constructor <;> simp [new, Fresh]

theorem delivery_new : Delivery new := by
  constructor <;> simp [new]

/-! ## The thread in `block_on` -/

/-- The steps of the thread that touch neither the token nor the reactor's lock, other than
those that go to sleep or to the poller. -/
inductive Walks : Pc → Pc → Prop
  | ready : Walks .polling .done
  | pending : Walks .polling .checkFirst
  | notNow : Walks .checkFirst .tryLock
  | busyNow : Walks .tryLockNow .poll
  | reactNow : Walks .reactNow .wakingNow
  | resetNow : Walks .resetNow .unlockNow
  | busy : Walks .tryLock (.park false)
  | wait : Walks .wait .waking
  | notWoken : Walks .checkWoken .elapsed
  | again : Walks .elapsed .resetLoop
  | resetLoop : Walks .resetLoop .setStub
  | resetBreak : Walks .resetBreak .unlock
  | park (guarded : Bool) : Walks (.park guarded) (.parkLock guarded)
  | parkLock (guarded : Bool) : Walks (.parkLock guarded) (.parkSet guarded)
  | parkSet (guarded : Bool) : Walks (.parkSet guarded) (.parkSwap guarded)
  | woken (guarded : Bool) : Walks (.woken guarded) (.recheck guarded)
  | parkReturn (guarded : Bool) : Walks (.parkReturn guarded) .poll

/-- Where the thread takes the token, and where it goes with it. -/
inductive Takes : Pc → Pc → Prop
  | checkFirst : Takes .checkFirst .tryLockNow
  | checkStub : Takes .checkStub .resetBreak
  | checkWoken : Takes .checkWoken .resetBreak
  | park (guarded : Bool) : Takes (.park guarded) (.parkReturn guarded)
  | parkSwap (guarded : Bool) : Takes (.parkSwap guarded) (.parkReturn guarded)
  | recheck (guarded : Bool) : Takes (.recheck guarded) (.parkReturn guarded)

/-- Where the thread gives the reactor back. -/
inductive Unlocks : Pc → Pc → Prop
  | unlockNow : Unlocks .unlockNow .poll
  | elapsed : Unlocks .elapsed (.park true)
  | unlock : Unlocks .unlock .poll

/-- What the thread does in a step. -/
inductive BlockOnMoves (s : State) : State → Prop
  | poll (hpc : s.pc = .poll) : BlockOnMoves s { s with invoked := false, pc := .polling }
  | walk (pc : Pc) (cachedIo blockStub notified : Bool) (hwalk : Walks s.pc pc) :
    BlockOnMoves s { s with cachedIo, blockStub, notified, pc }
  | setStub (hpc : s.pc = .setStub) :
    BlockOnMoves s { s with cachedIo := true, blockStub := true, pc := .checkStub }
  | wait (hpc : s.pc = .checkStub) (htoken : s.token ≠ .notified) :
    BlockOnMoves s { s with pc := .wait }
  | lockNow (hpc : s.pc = .tryLockNow) (hfree : s.holder = none) :
    BlockOnMoves s { s with holder := some .blockOn, cachedIo := true, pc := .reactNow }
  | lock (hpc : s.pc = .tryLock) (hfree : s.holder = none) :
    BlockOnMoves s { s with holder := some .blockOn, pc := .setStub }
  | wokeNow (hpc : s.pc = .wakingNow) (hquiet : Quiet s) : BlockOnMoves s { s with pc := .resetNow }
  | woke (hpc : s.pc = .waking) (hquiet : Quiet s) : BlockOnMoves s { s with pc := .checkWoken }
  | unlock (pc : Pc) (hpc : Unlocks s.pc pc) : BlockOnMoves s { s with holder := none, pc }
  | take (pc : Pc) (htake : Takes s.pc pc) : BlockOnMoves s { s with token := .empty, pc }
  | sleep (guarded : Bool) (hpc : s.pc = .parkSet guarded) (hempty : s.token = .empty) :
    BlockOnMoves s { s with token := .parked, pc := .parkEnter guarded }
  | enter (guarded : Bool) (hpc : s.pc = .parkEnter guarded) :
    BlockOnMoves s { s with pc := .waiting guarded }
  | reenter (guarded : Bool) (hpc : s.pc = .recheck guarded) (htoken : s.token ≠ .notified) :
    BlockOnMoves s { s with pc := .parkEnter guarded }

theorem moves_parkNow {s : State} {yes no : Pc} (hyes : Takes s.pc yes)
    (hno : s.token ≠ .notified → BlockOnMoves s { s with pc := no }) :
    BlockOnMoves s (parkNow s yes no) := by
  unfold parkNow
  split
  · exact .take yes hyes
  · rename_i htoken
    exact hno htoken

theorem blockOnStep_moves {s t : State} {choice : Bool} (ht : blockOnStep s choice = some t) :
    BlockOnMoves s t := by
  -- the steps that change nothing but the point, and perhaps the flags
  have walks {p pc : Pc} (cachedIo blockStub notified : Bool) (hpc : s.pc = p) (h : Walks p pc) :
      BlockOnMoves s { s with cachedIo, blockStub, notified, pc } :=
    .walk pc cachedIo blockStub notified (hpc ▸ h)
  have takes {p pc : Pc} (hpc : s.pc = p) (h : Takes p pc) : Takes s.pc pc := hpc ▸ h
  cases hpc : s.pc <;> simp only [blockOnStep, hpc] at ht
  case poll =>
    cases ht
    exact .poll hpc
  case polling =>
    cases ht
    cases choice
    · exact walks _ _ _ hpc .pending
    · exact walks _ _ _ hpc .ready
  case checkFirst =>
    cases ht
    exact moves_parkNow (takes hpc .checkFirst) fun _ => walks _ _ _ hpc .notNow
  case tryLockNow =>
    split at ht <;> cases ht
    · rename_i hfree
      exact .lockNow hpc hfree
    · exact walks _ _ _ hpc .busyNow
  case reactNow =>
    cases ht
    exact walks _ _ _ hpc .reactNow
  case wakingNow =>
    split at ht <;> cases ht
    rename_i hquiet
    exact .wokeNow hpc hquiet
  case resetNow =>
    cases ht
    exact walks _ _ _ hpc .resetNow
  case unlockNow =>
    cases ht
    exact .unlock _ (hpc ▸ .unlockNow)
  case tryLock =>
    split at ht <;> cases ht
    · rename_i hfree
      exact .lock hpc hfree
    · exact walks _ _ _ hpc .busy
  case setStub =>
    cases ht
    exact .setStub hpc
  case checkStub =>
    cases ht
    exact moves_parkNow (takes hpc .checkStub) (.wait hpc)
  case wait =>
    cases ht
    exact walks _ _ _ hpc .wait
  case waking =>
    split at ht <;> cases ht
    rename_i hquiet
    exact .woke hpc hquiet
  case checkWoken =>
    cases ht
    exact moves_parkNow (takes hpc .checkWoken) fun _ => walks _ _ _ hpc .notWoken
  case elapsed =>
    split at ht <;> cases ht
    · exact .unlock _ (hpc ▸ .elapsed)
    · exact walks _ _ _ hpc .again
  case resetLoop =>
    cases ht
    exact walks _ _ _ hpc .resetLoop
  case resetBreak =>
    cases ht
    exact walks _ _ _ hpc .resetBreak
  case unlock =>
    cases ht
    exact .unlock _ (hpc ▸ .unlock)
  case park guarded =>
    cases ht
    exact moves_parkNow (takes hpc (.park guarded)) fun _ => walks _ _ _ hpc (.park guarded)
  case parkLock guarded =>
    cases ht
    exact walks _ _ _ hpc (.parkLock guarded)
  case parkSet guarded =>
    split at ht <;> cases ht
    · rename_i hempty
      exact .sleep guarded hpc hempty
    · exact walks _ _ _ hpc (.parkSet guarded)
  case parkSwap guarded =>
    cases ht
    exact .take _ (takes hpc (.parkSwap guarded))
  case parkEnter guarded =>
    cases ht
    exact .enter guarded hpc
  case waiting => cases ht
  case woken guarded =>
    cases ht
    exact walks _ _ _ hpc (.woken guarded)
  case recheck guarded =>
    cases ht
    exact moves_parkNow (takes hpc (.recheck guarded)) (.reenter guarded hpc)
  case parkReturn guarded =>
    split at ht <;> cases ht
    · exact walks _ _ _ hpc (.parkReturn _)
    · exact walks _ _ _ hpc (.parkReturn _)
  case done => cases ht

/-- What such steps keep of the place of the thread. -/
theorem Walks.keeps {p q : Pc} (h : Walks p q) :
    q.holdsReactor = p.holdsReactor ∧ q.isParked = p.isParked ∧ p.isWaking = false ∧
      (p.isGoing = true → q.isGoing = true) := by
  cases h
  all_goals exact ⟨rfl, rfl, rfl, by simp [Pc.isGoing]⟩

theorem Walks.awake {p q : Pc} (h : Walks p q) :
    q ≠ .checkStub ∧ q ≠ .wait ∧ ∀ guarded, q ≠ .parkEnter guarded ∧ q ≠ .waiting guarded := by
  cases h
  all_goals simp

theorem Takes.keeps {p q : Pc} (h : Takes p q) :
    (q.holdsReactor = true → p.holdsReactor = true) ∧ q.isParked = false ∧ p.isWaking = false ∧
      q.isGoing = true := by
  cases h
  all_goals exact ⟨by simp [Pc.holdsReactor], rfl, rfl, rfl⟩

theorem Takes.awake {p q : Pc} (h : Takes p q) :
    q ≠ .checkStub ∧ q ≠ .wait ∧ ∀ guarded, q ≠ .parkEnter guarded ∧ q ≠ .waiting guarded := by
  cases h
  all_goals simp

theorem Unlocks.keeps {p q : Pc} (h : Unlocks p q) :
    p.holdsReactor = true ∧ q.holdsReactor = false ∧ p.isParked = false ∧ q.isParked = false ∧
      p.isWaking = false ∧ (p.isGoing = true → q.isGoing = true) := by
  cases h
  all_goals exact ⟨rfl, rfl, rfl, rfl, rfl, by simp [Pc.isGoing]⟩

theorem Unlocks.awake {p q : Pc} (h : Unlocks p q) :
    q ≠ .checkStub ∧ q ≠ .wait ∧ ∀ guarded, q ≠ .parkEnter guarded ∧ q ≠ .waiting guarded := by
  cases h
  all_goals simp

/-- A step that leaves the token and the reactor alone. -/
theorem Shape.keep {s t : State} (h : Shape s) (hholder : t.holder = s.holder)
    (htoken : t.token = s.token)
    (hlocked : t.pc.holdsReactor = true → s.pc.holdsReactor = true)
    (hparked : t.pc.isParked = s.pc.isParked) (hcheck : t.pc ≠ .checkStub) (hwait : t.pc ≠ .wait) :
    Shape t := by
  constructor
  · rw [hholder]
    exact fun hpc => h.locked (hlocked hpc)
  · rintro (hpc | hpc)
    · exact absurd hpc hcheck
    · exact absurd hpc hwait
  · rw [htoken, hparked]
    exact h.parked
  · rw [htoken, hparked]
    exact h.present

theorem Shape.not_parked {s : State} (h : Shape s) (hpc : s.pc.isParked = false) :
    s.token ≠ .parked := fun hx => by
  rw [h.parked hx] at hpc
  cases hpc

theorem shape_blockOnStep {s t : State} {choice : Bool} (h : Shape s)
    (ht : blockOnStep s choice = some t) : Shape t := by
  cases blockOnStep_moves ht with
  | poll hpc | wokeNow hpc | woke hpc =>
    refine h.keep rfl rfl ?_ ?_ ?_ ?_ <;> simp [hpc, Pc.holdsReactor, Pc.isParked]
  | walk pc cachedIo blockStub notified hwalk =>
    obtain ⟨hholds, hparked, -, -⟩ := hwalk.keeps
    obtain ⟨hcheck, hwait, -⟩ := hwalk.awake
    exact h.keep rfl rfl (fun hx => hholds ▸ hx) hparked hcheck hwait
  | setStub hpc =>
    have hnot := h.not_parked (by rw [hpc]; rfl)
    exact ⟨fun _ => h.locked (by rw [hpc]; rfl), fun _ => rfl, fun hx => absurd hx hnot,
      Bool.noConfusion⟩
  | wait hpc htoken =>
    have hnot := h.not_parked (by rw [hpc]; rfl)
    exact ⟨fun _ => h.locked (by rw [hpc]; rfl), fun _ => h.stubbed (.inl hpc),
      fun hx => absurd hx hnot, Bool.noConfusion⟩
  | lockNow hpc hfree | lock hpc hfree =>
    have hnot := h.not_parked (by rw [hpc]; rfl)
    exact ⟨fun _ => rfl, by simp, fun hx => absurd hx hnot, Bool.noConfusion⟩
  | unlock pc hunlock =>
    obtain ⟨-, hholds, hparked, hparked', -⟩ := hunlock.keeps
    obtain ⟨hcheck, hwait, -⟩ := hunlock.awake
    refine ⟨fun hx => ?_, fun hx => ?_, fun hx => absurd hx (h.not_parked hparked), fun hx => ?_⟩
    · exact absurd (hx.symm.trans hholds) Bool.noConfusion
    · exact absurd hx (not_or.mpr ⟨hcheck, hwait⟩)
    · exact absurd (hx.symm.trans hparked') Bool.noConfusion
  | take pc htake =>
    obtain ⟨hholds, hparked, -⟩ := htake.keeps
    obtain ⟨hcheck, hwait, -⟩ := htake.awake
    refine ⟨fun hx => h.locked (hholds hx), fun hx => ?_, Token.noConfusion, fun hx => ?_⟩
    · exact absurd hx (not_or.mpr ⟨hcheck, hwait⟩)
    · exact absurd (hx.symm.trans hparked) Bool.noConfusion
  | sleep guarded hpc =>
    exact ⟨Bool.noConfusion, by simp, fun _ => rfl, fun _ => Token.noConfusion⟩
  | enter guarded hpc | reenter guarded hpc =>
    exact ⟨Bool.noConfusion, by simp, fun _ => rfl, fun _ => h.present (by rw [hpc]; rfl)⟩

theorem Reacting.quiet {s : State} (h : Reacting s) (hq : Quiet s) (i : Nat)
    (hi : (s.wakes i).invoker = .inReact) : (s.wakes i).pc = .returned := by
  rcases Nat.lt_or_ge i s.started with hlt | hge
  · exact hq i hlt hi
  · rw [h.fresh i hge]

/-- A step that leaves the reactor with the one who has it. -/
theorem Reacting.keep {s t : State} (h : Reacting s) (hwakes : t.wakes = s.wakes)
    (hstarted : t.started = s.started) (hholder : t.holder = s.holder)
    (hwaking : s.pc.isWaking = true → t.pc.isWaking = true) : Reacting t := by
  obtain ⟨hfresh, hreact⟩ := h
  constructor
  · rw [hstarted, hwakes]
    exact hfresh
  · rw [hwakes, hholder]
    exact fun i hi hne => (hreact i hi hne).imp_right hwaking

/-- A step from where the thread wakes nobody, with the reactor not in other hands. -/
theorem Reacting.alone {s t : State} (h : Reacting s) (hwakes : t.wakes = s.wakes)
    (hstarted : t.started = s.started) (hholder : ∀ cached, s.holder ≠ some (.other cached))
    (hwaking : s.pc.isWaking = false) : Reacting t := by
  obtain ⟨hfresh, hreact⟩ := h
  constructor
  · rw [hstarted, hwakes]
    exact hfresh
  · rw [hwakes]
    intro i hi hne
    obtain ⟨cached, hx⟩ | hx := hreact i hi hne
    · exact absurd hx (hholder cached)
    · exact absurd (hx.symm.trans hwaking) Bool.noConfusion

/-- A step from where all wakers of the `react` have been woken. -/
theorem Reacting.woken {s t : State} (h : Reacting s) (hwakes : t.wakes = s.wakes)
    (hstarted : t.started = s.started) (hquiet : Quiet s) : Reacting t := by
  constructor
  · rw [hstarted, hwakes]
    exact h.fresh
  · rw [hwakes]
    exact fun i hi hne => absurd (h.quiet hquiet i hi) hne

theorem reacting_blockOnStep {s t : State} {choice : Bool} (h : Reacting s) (hs : Shape s)
    (ht : blockOnStep s choice = some t) : Reacting t := by
  cases blockOnStep_moves ht with
  | poll hpc | setStub hpc | wait hpc | sleep guarded hpc | enter guarded hpc
  | reenter guarded hpc =>
    exact h.keep rfl rfl rfl (by simp [hpc, Pc.isWaking])
  | walk pc cachedIo blockStub notified hwalk =>
    obtain ⟨-, -, hwaking, -⟩ := hwalk.keeps
    exact h.keep rfl rfl rfl (by simp [hwaking])
  | take pc htake =>
    obtain ⟨-, -, hwaking, -⟩ := htake.keeps
    exact h.keep rfl rfl rfl (by simp [hwaking])
  | lockNow hpc hfree | lock hpc hfree =>
    exact h.alone rfl rfl (by simp [hfree]) (by rw [hpc]; rfl)
  | wokeNow hpc hquiet | woke hpc hquiet => exact h.woken rfl rfl hquiet
  | unlock pc hunlock =>
    obtain ⟨hholds, -, -, -, hwaking, -⟩ := hunlock.keeps
    exact h.alone rfl rfl (by simp [hs.locked hholds]) hwaking

/-- A step that leaves the token alone and does not go to sleep. -/
theorem Delivery.keep {s t : State} (h : Delivery s) (hwakes : t.wakes = s.wakes)
    (hinvoked : t.invoked = s.invoked) (htoken : t.token = s.token)
    (hgoing : s.pc.isGoing = true → t.pc.isGoing = true)
    (hentering : ∀ guarded, t.pc ≠ .parkEnter guarded)
    (hblocked : ∀ guarded, t.pc ≠ .waiting guarded) (hpolling : t.pc ≠ .wait) : Delivery t := by
  constructor
  · rw [hinvoked, hwakes, htoken]
    exact fun hi => (h.token hi).imp_right (Or.imp_right hgoing)
  · exact fun guarded hpc => absurd hpc (hentering guarded)
  · exact fun guarded hpc => absurd hpc (hblocked guarded)
  · exact fun hpc => absurd hpc hpolling

/-- The thread goes to sleep, or to the poller, where it finds no token. -/
theorem Delivery.rest {s t : State} (h : Delivery s) (hwakes : t.wakes = s.wakes)
    (hinvoked : t.invoked = s.invoked) (hgoing : s.pc.isGoing = false)
    (htoken : s.token ≠ .notified) (htoken' : t.token ≠ .notified) : Delivery t := by
  constructor
  · rw [hinvoked, hwakes]
    intro hi
    obtain hswap | hx | hx := h.token hi
    · exact .inl hswap
    · exact absurd hx htoken
    · exact absurd (hx.symm.trans hgoing) Bool.noConfusion
  · exact fun _ _ hx => absurd hx htoken'
  · exact fun _ _ hx => absurd hx htoken'
  · exact fun _ hx => absurd hx htoken'

theorem delivery_blockOnStep {s t : State} {choice : Bool} (h : Delivery s)
    (ht : blockOnStep s choice = some t) : Delivery t := by
  cases blockOnStep_moves ht with
  | poll hpc => exact ⟨Bool.noConfusion, by simp, by simp, by simp⟩
  | walk pc cachedIo blockStub notified hwalk =>
    obtain ⟨-, -, -, hgoing⟩ := hwalk.keeps
    obtain ⟨-, hwait, hsleep⟩ := hwalk.awake
    exact h.keep rfl rfl rfl hgoing (fun g => (hsleep g).1) (fun g => (hsleep g).2) hwait
  | unlock pc hunlock =>
    obtain ⟨-, -, -, -, -, hgoing⟩ := hunlock.keeps
    obtain ⟨-, hwait, hsleep⟩ := hunlock.awake
    exact h.keep rfl rfl rfl hgoing (fun g => (hsleep g).1) (fun g => (hsleep g).2) hwait
  | setStub hpc | lockNow hpc | lock hpc | wokeNow hpc | woke hpc =>
    refine h.keep rfl rfl rfl ?_ ?_ ?_ ?_ <;> simp [hpc, Pc.isGoing]
  | take pc htake =>
    obtain ⟨-, -, -, hgoing⟩ := htake.keeps
    exact ⟨fun _ => .inr (.inr hgoing), fun _ _ => Token.noConfusion, fun _ _ => Token.noConfusion,
      fun _ => Token.noConfusion⟩
  | wait hpc htoken | reenter guarded hpc htoken =>
    exact h.rest rfl rfl (by rw [hpc]; rfl) htoken htoken
  | sleep guarded hpc hempty =>
    exact h.rest rfl rfl (by rw [hpc]; rfl) (by rw [hempty]; decide) Token.noConfusion
  | enter guarded hpc =>
    refine ⟨fun hi => (h.token hi).imp_right (Or.imp_right fun hx => ?_), by simp, ?_, by simp⟩
    · rw [hpc] at hx
      cases hx
    · exact fun g _ htoken => (h.entering guarded hpc htoken).imp fun _ => .inl

/-! ## The invocations of the waker -/

theorem moveWake_self (s : State) (i : Nat) (pc : WakePc) :
    (moveWake s i pc).wakes i = { s.wakes i with pc := pc } := Function.update_self ..

theorem moveWake_of_ne (s : State) {i j : Nat} (pc : WakePc) (h : j ≠ i) :
    (moveWake s i pc).wakes j = s.wakes j := Function.update_of_ne h ..

theorem Reacting.moveWake {s : State} (h : Reacting s) {i : Nat} (hi : (s.wakes i).pc ≠ .returned)
    (pc : WakePc) : Reacting (moveWake s i pc) where
  fresh := by
    refine h.fresh.update (h.fresh.lt fun hidle => hi ?_)
    rw [hidle]
  inReact j hj hpc := by
    by_cases he : j = i
    · subst he
      rw [moveWake_self] at hj
      exact h.inReact j hj hi
    · rw [moveWake_of_ne s pc he] at hj hpc
      exact h.inReact j hj hpc

/-- The end of a wait on the condition variable. -/
theorem shape_stir {s : State} (h : Shape s) : Shape (stir s) := by
  unfold stir
  split
  · rename_i guarded hpc
    refine ⟨fun hx => Bool.noConfusion hx, fun hx => by simp at hx, fun _ => rfl, fun _ => ?_⟩
    exact h.present (by rw [hpc]; rfl)
  · exact h

theorem reacting_stir {s : State} (h : Reacting s) : Reacting (stir s) := by
  unfold stir
  split
  · rename_i guarded hpc
    refine ⟨h.fresh, fun i hi hret => ?_⟩
    rcases h.inReact i hi hret with hother | hwaking
    · exact .inl hother
    · rw [hpc] at hwaking
      cases hwaking
  · exact h

theorem delivery_stir {s : State} (h : Delivery s) : Delivery (stir s) := by
  unfold stir
  split
  · rename_i guarded hpc
    refine ⟨fun hinv => ?_, fun _ hx => by simp at hx, fun _ hx => by simp at hx,
      fun hx => by simp at hx⟩
    have hold := h.token hinv
    rw [hpc] at hold
    exact hold
  · exact h

theorem Shape.setToken {s : State} (h : Shape s) : Shape { s with token := .notified } :=
  ⟨h.locked, h.stubbed, fun hx => Token.noConfusion hx, fun _ => Token.noConfusion⟩

/-- At the swap: whoever finds the thread parked or about to wait goes on to end the wait. -/
theorem delivery_swap {s t : State} {i : Nat} (h : Delivery s) (hs : Shape s) (hr : Reacting s)
    (hi : (s.wakes i).pc = .swap) (ht : wakeStep s i = some t) : Delivery t := by
  simp only [wakeStep, hi] at ht
  split at ht
  · rename_i hempty
    obtain rfl := Option.some.inj ht
    have hnot : s.pc.isParked = false := by
      rw [← Bool.not_eq_true]
      exact fun hx => hs.present hx hempty
    refine ⟨fun _ => .inr (.inl rfl), fun g hpc => ?_, fun g hpc => ?_, fun hpc _ => .inr ⟨i, ?_⟩⟩
    · rw [show s.pc = _ from hpc] at hnot
      cases hnot
    · rw [show s.pc = _ from hpc] at hnot
      cases hnot
    · -- A thread in the poller's wait holds the reactor and wakes nobody.
      have hholder := hs.locked (by rw [show s.pc = _ from hpc]; rfl)
      have hout : (s.wakes i).invoker = .outside := by
        cases hinv : (s.wakes i).invoker with
        | outside => rfl
        | inReact =>
          rcases hr.inReact i hinv (by rw [hi]; exact WakePc.noConfusion) with ⟨c, hc⟩ | hwaking
          · rw [hholder] at hc
            cases hc
          · rw [show s.pc = _ from hpc] at hwaking
            cases hwaking
      rw [moveWake_self]
      simp [Wake.willNotify, hout]
  · rename_i hset
    obtain rfl := Option.some.inj ht
    refine ⟨fun _ => .inr (.inl hset), fun g hpc htok => ?_, fun g hpc htok => ?_,
      fun hpc htok => ?_⟩
    · exact exists_update (P := fun w : Wake => w.pc = .lock) (h.entering g hpc htok)
        fun hx => absurd hx (by rw [hi]; decide)
    · exact exists_update (P := fun w : Wake => w.pc = .lock ∨ w.pc = .signal) (h.blocked g hpc htok)
        fun hx => absurd hx (by rw [hi]; decide)
    · exact (h.polling hpc htok).imp_right fun hw =>
        exists_update (P := fun w : Wake => w.willNotify = true) hw fun hx =>
          absurd hx (by simp [Wake.willNotify, hi])
  · rename_i hpark
    obtain rfl := Option.some.inj ht
    have hlock : ((moveWake { s with token := .notified } i .lock).wakes i).pc = .lock := by
      rw [moveWake_self]
    refine ⟨fun _ => .inr (.inl rfl), fun g _ _ => ⟨i, hlock⟩, fun g _ _ => ⟨i, .inl hlock⟩,
      fun hpc _ => ?_⟩
    have hparked := hs.parked hpark
    rw [show s.pc = _ from hpc] at hparked
    cases hparked

/-- An invocation that is past its swap and reaches neither the condition variable
nor the poller in this step. -/
theorem Delivery.moveWake {s : State} (h : Delivery s) {i : Nat} {pc : WakePc}
    (hswap : (s.wakes i).pc ≠ .swap) (hlock : (s.wakes i).pc ≠ .lock)
    (hsignal : (s.wakes i).pc ≠ .signal)
    (hnotify : s.pc = .wait → (s.wakes i).willNotify = true →
      s.notified = true ∨ Wake.willNotify { s.wakes i with pc := pc } = true) :
    Delivery (moveWake s i pc) where
  token hinv := (h.token hinv).imp_left fun hw =>
    exists_update (P := fun w : Wake => w.pc = .swap) hw fun hx => absurd hx hswap
  entering g hpc htok := exists_update (P := fun w : Wake => w.pc = .lock) (h.entering g hpc htok)
    fun hx => absurd hx hlock
  blocked g hpc htok := exists_update (P := fun w : Wake => w.pc = .lock ∨ w.pc = .signal)
    (h.blocked g hpc htok) fun hx => absurd hx (not_or.mpr ⟨hlock, hsignal⟩)
  polling hpc htok := by
    by_cases hset : s.notified = true
    · exact .inl hset
    · refine (h.polling hpc htok).imp_right fun hw => ?_
      exact exists_update (P := fun w : Wake => w.willNotify = true) hw fun hi =>
        (hnotify hpc hi).resolve_left hset

theorem delivery_lock {s : State} {i : Nat} (h : Delivery s) (hi : (s.wakes i).pc = .lock)
    (hfree : s.pc.holdsLock = false) : Delivery (moveWake s i .signal) where
  token hinv := (h.token hinv).imp_left fun hw =>
    exists_update (P := fun w : Wake => w.pc = .swap) hw fun hx => absurd hx (by rw [hi]; decide)
  entering g hpc _ := by
    rw [show s.pc = _ from hpc] at hfree
    cases hfree
  blocked g hpc htok := exists_update (P := fun w : Wake => w.pc = .lock ∨ w.pc = .signal)
    (h.blocked g hpc htok) fun _ => .inr rfl
  polling hpc htok := (h.polling hpc htok).imp_right fun hw =>
    exists_update (P := fun w : Wake => w.willNotify = true) hw fun hx =>
          absurd hx (by simp [Wake.willNotify, hi])

/-- After `notify_one` the thread is not blocked any more. -/
theorem delivery_signal {s : State} {i : Nat} (h : Delivery s) (hi : (s.wakes i).pc = .signal) :
    Delivery (moveWake (stir s) i .cached) := by
  have hwakes : (stir s).wakes = s.wakes := by
    unfold stir
    split <;> rfl
  have hstir := delivery_stir h
  refine ⟨fun hinv => ?_, fun g hpc htok => ?_, fun g hpc _ => ?_, fun hpc htok => ?_⟩
  · exact (hstir.token hinv).imp_left fun hw =>
      exists_update (P := fun w : Wake => w.pc = .swap) hw fun hx =>
        absurd hx (by rw [hwakes, hi]; decide)
  · exact exists_update (P := fun w : Wake => w.pc = .lock) (hstir.entering g hpc htok)
      fun hx => absurd hx (by rw [hwakes, hi]; decide)
  · have hpc' : (stir s).pc = .waiting g := hpc
    unfold stir at hpc'
    split at hpc'
    · cases hpc'
    · rename_i hnot
      exact absurd hpc' (hnot g)
  · exact (hstir.polling hpc htok).imp_right fun hw =>
      exists_update (P := fun w : Wake => w.willNotify = true) hw fun hx =>
        absurd hx (by simp [Wake.willNotify, hwakes, hi])

/-! ## Every step -/

structure Inv (s : State) : Prop where
  shape : Shape s
  reacting : Reacting s
  delivery : Delivery s

theorem inv_wakeStep {s t : State} {i : Nat} (h : Inv s) (ht : wakeStep s i = some t) : Inv t := by
  obtain ⟨hs, hr, hd⟩ := h
  cases hi : (s.wakes i).pc with
  | swap =>
    have hlive : (s.wakes i).pc ≠ .returned := by rw [hi]; exact WakePc.noConfusion
    refine ⟨?_, ?_, delivery_swap hd hs hr hi ht⟩
    · simp only [wakeStep, hi] at ht
      split at ht <;> obtain rfl := Option.some.inj ht
      · exact { hs.setToken with }
      · exact { hs with }
      · exact { hs.setToken with }
    · simp only [wakeStep, hi] at ht
      split at ht <;> obtain rfl := Option.some.inj ht
      · exact { hr.moveWake hlive .cached with }
      · exact hr.moveWake hlive .returned
      · exact { hr.moveWake hlive .lock with }
  | lock =>
    simp only [wakeStep, hi] at ht
    split at ht
    · cases ht
    · rename_i hfree
      obtain rfl := Option.some.inj ht
      exact ⟨{ hs with }, hr.moveWake (by rw [hi]; exact WakePc.noConfusion) _,
        delivery_lock hd hi (Bool.not_eq_true _ ▸ hfree)⟩
  | signal =>
    simp only [wakeStep, hi] at ht
    obtain rfl := Option.some.inj ht
    have hwakes : (stir s).wakes = s.wakes := by
      unfold stir
      split <;> rfl
    exact ⟨{ shape_stir hs with },
      (reacting_stir hr).moveWake (by rw [hwakes, hi]; exact WakePc.noConfusion) _,
      delivery_signal hd hi⟩
  | cached =>
    simp only [wakeStep, hi] at ht
    obtain rfl := Option.some.inj ht
    refine ⟨{ hs with }, hr.moveWake (by rw [hi]; exact WakePc.noConfusion) _,
      hd.moveWake (by rw [hi]; decide) (by rw [hi]; decide) (by rw [hi]; decide) fun _ hw => ?_⟩
    have hout : (s.wakes i).invoker = .outside := by simpa [Wake.willNotify, hi] using hw
    exact .inr (by simp [Wake.willNotify, hout, cachedOf])
  | stub =>
    simp only [wakeStep, hi] at ht
    obtain rfl := Option.some.inj ht
    refine ⟨{ hs with }, hr.moveWake (by rw [hi]; exact WakePc.noConfusion) _,
      hd.moveWake (by rw [hi]; decide) (by rw [hi]; decide) (by rw [hi]; decide) fun hpc _ => ?_⟩
    exact .inr (by simp [Wake.willNotify, hs.stubbed (.inr hpc)])
  | notify =>
    simp only [wakeStep, hi] at ht
    obtain rfl := Option.some.inj ht
    have hd' : Delivery { s with notified := true } := { hd with polling := fun _ _ => .inl rfl }
    refine ⟨{ hs with }, { hr.moveWake (by rw [hi]; exact WakePc.noConfusion) .returned with }, ?_⟩
    exact hd'.moveWake (by rw [hi]; decide) (by rw [hi]; decide) (by rw [hi]; decide)
      fun _ _ => .inl rfl
  | returned =>
    simp only [wakeStep, hi] at ht
    cases ht

theorem inv_invoke {s : State} {invoker : Invoker} (h : Inv s) (hmay : mayInvoke s invoker) :
    Inv { s with
      wakes := Function.update s.wakes s.started ⟨invoker, .swap⟩
      started := s.started + 1
      invoked := true } := by
  obtain ⟨hs, hr, hd⟩ := h
  have hslot := hr.fresh s.started (Nat.le_refl _)
  have hnew : Function.update s.wakes s.started ⟨invoker, .swap⟩ s.started = ⟨invoker, .swap⟩ :=
    Function.update_self ..
  refine ⟨{ hs with }, ⟨hr.fresh.start, fun i hi hret => ?_⟩,
    ⟨fun _ => .inl ⟨s.started, ?_⟩, fun g hpc htok => ?_, fun g hpc htok => ?_, fun hpc htok => ?_⟩⟩
  · by_cases he : i = s.started
    · subst he
      obtain rfl : invoker = .inReact := (congrArg Wake.invoker hnew).symm.trans hi
      rcases hmay with ⟨c, -, hc⟩ | hwaking
      · exact .inl ⟨c, hc⟩
      · exact .inr hwaking
    · have hold : Function.update s.wakes s.started ⟨invoker, .swap⟩ i = s.wakes i :=
        Function.update_of_ne he ..
      exact hr.inReact i ((congrArg Wake.invoker hold).symm.trans hi)
        fun hx => hret ((congrArg Wake.pc hold).trans hx)
  · exact congrArg Wake.pc hnew
  · exact exists_update (P := fun w : Wake => w.pc = .lock) (hd.entering g hpc htok)
      fun hx => absurd hx (by rw [hslot]; decide)
  · exact exists_update (P := fun w : Wake => w.pc = .lock ∨ w.pc = .signal) (hd.blocked g hpc htok)
      fun hx => absurd hx (by rw [hslot]; decide)
  · exact (hd.polling hpc htok).imp_right fun hw =>
      exists_update (P := fun w : Wake => w.willNotify = true) hw fun hx =>
        absurd hx (by rw [hslot]; decide)

theorem inv_step {s t : State} {a : Act} (h : Inv s) (ht : step s a = some t) : Inv t := by
  cases a with
  | blockOn choice =>
    exact ⟨shape_blockOnStep h.shape ht, reacting_blockOnStep h.reacting h.shape ht,
      delivery_blockOnStep h.delivery ht⟩
  | spurious =>
    obtain rfl := Option.some.inj ht
    exact ⟨shape_stir h.shape, reacting_stir h.reacting, delivery_stir h.delivery⟩
  | invoke invoker =>
    simp only [step] at ht
    split at ht
    · rename_i hmay
      obtain rfl := Option.some.inj ht
      exact inv_invoke h hmay
    · cases ht
  | wake i => exact inv_wakeStep h ht
  | otherLock cached =>
    simp only [step] at ht
    split at ht
    · rename_i hfree
      obtain rfl := Option.some.inj ht
      have hnot : s.pc.holdsReactor = false := by
        rw [← Bool.not_eq_true]
        intro hx
        cases hfree.symm.trans (h.shape.locked hx)
      exact ⟨{ h.shape with locked := fun hx => absurd hx (by rw [hnot]; decide) },
        ⟨h.reacting.fresh, fun _ _ _ => .inl ⟨cached, rfl⟩⟩, { h.delivery with }⟩
    · cases ht
  | otherWait =>
    simp only [step] at ht
    split at ht
    · rename_i hother
      obtain rfl := Option.some.inj ht
      refine ⟨{ h.shape with }, { h.reacting with },
        { h.delivery with polling := fun hpc _ => absurd hother ?_ }⟩
      rw [h.shape.locked (by rw [show s.pc = _ from hpc]; rfl)]
      decide
    · cases ht
  | otherUnlock =>
    simp only [step] at ht
    split at ht
    · rename_i hother
      obtain rfl := Option.some.inj ht
      refine ⟨{ h.shape with locked := fun hx => absurd hother.1 ?_ },
        ⟨h.reacting.fresh, fun i hi hret => absurd (h.reacting.quiet hother.2 i hi) hret⟩,
        { h.delivery with }⟩
      rw [h.shape.locked hx]
      decide
    · cases ht

theorem inv_of_reachable {s : State} (hs : system.Reachable s) : Inv s :=
  hs.invariant (M := system) ⟨shape_new, reacting_new, delivery_new⟩ fun _ _ _ => inv_step

section Woken

variable {s : State}

/-- The assertions of `park` hold: a thread that is about to park never finds
`PARKED`, and one that found `NOTIFIED` swaps it out. -/
theorem park_consistent (h : Shape s) (guarded : Bool)
    (hpc : s.pc = .parkSet guarded ∨ s.pc = .parkSwap guarded) : s.token ≠ .parked := by
  intro htoken
  have hparked := h.parked htoken
  rcases hpc with hpc | hpc <;> rw [hpc] at hparked <;> cases hparked

/-- The token of the last invocation is there until the thread takes it. -/
theorem Delivery.notified (h : Delivery s) (hinvoked : s.invoked = true)
    (hreturned : ∀ i, (s.wakes i).pc = .returned) (hnot : s.pc.isGoing = false) :
    s.token = .notified := by
  rcases h.token hinvoked with ⟨i, hi⟩ | htoken | hgoing
  · rw [hreturned i] at hi
    cases hi
  · exact htoken
  · rw [hnot] at hgoing
    cases hgoing

theorem Delivery.not_waiting (h : Delivery s) (hinvoked : s.invoked = true)
    (hreturned : ∀ i, (s.wakes i).pc = .returned) (guarded : Bool) : s.pc ≠ .waiting guarded := by
  intro hpc
  obtain ⟨i, hi⟩ := h.blocked guarded hpc (h.notified hinvoked hreturned (by rw [hpc]; rfl))
  rw [hreturned i] at hi
  simp at hi

end Woken

/-- The waker was invoked after the last poll began, every invocation has returned,
and the thread is blocked: on the condition variable of its parker, with or without
a token, or in the wait of `react(None)` without a poller notification. -/
def Stuck (s : State) : Prop :=
  s.invoked = true ∧ (∀ i, (s.wakes i).pc = .returned) ∧
    ((∃ guarded, s.pc = .waiting guarded) ∨ s.pc = .wait ∧ s.notified = false)

/-- An invocation of the waker that has returned leaves the thread of `block_on` awake or
on its way out of the wait. -/
theorem block_on_not_stuck (s : State) (hs : system.Reachable s) : ¬Stuck s := by
  rintro ⟨hinvoked, hreturned, hblocked⟩
  obtain ⟨-, -, hd⟩ := inv_of_reachable hs
  rcases hblocked with ⟨guarded, hpc⟩ | ⟨hpc, hquiet⟩
  · exact hd.not_waiting hinvoked hreturned guarded hpc
  · rcases hd.polling hpc (hd.notified hinvoked hreturned (by rw [hpc]; rfl)) with hset | ⟨i, hi⟩
    · rw [hquiet] at hset
      cases hset
    · simp [Wake.willNotify, hreturned i] at hi

/-- The thread goes into the poller's wait, and the waker is invoked from outside:
the invocation finds `block_stub` set and notifies. -/
def wokenInWait : List Act :=
  [.blockOn false, .blockOn false, .blockOn false, .blockOn false, .blockOn false, .blockOn false,
   .invoke .outside, .wake 0, .wake 0, .wake 0, .wake 0]

theorem block_on_not_stuck_wokenInWait : ∃ s, system.Reachable s ∧ s.pc = .wait ∧
    s.invoked = true ∧ (s.wakes 0).pc = .returned ∧ s.notified = true ∧ ¬Stuck s := by
  obtain ⟨s, -, hs, hpc, hinvoked, hret, hset⟩ := system.exists_of_run
    (P := fun s => s.pc = .wait ∧ s.invoked = true ∧ (s.wakes 0).pc = .returned ∧
      s.notified = true) wokenInWait (by decide +kernel)
  exact ⟨s, hs, hpc, hinvoked, hret, hset, block_on_not_stuck s hs⟩

/-- Nor does an assertion fail: behind an invocation that has returned, the thread has a step
until the future is done. -/
theorem blockOn_steps (s : State) (hs : system.Reachable s) (hinvoked : s.invoked = true)
    (hreturned : ∀ i, (s.wakes i).pc = .returned) (choice : Bool) :
    s.pc = .done ∨ (blockOnStep s choice).isSome = true := by
  obtain ⟨hshape, -, hd⟩ := inv_of_reachable hs
  have hquiet : Quiet s := fun i _ _ => hreturned i
  cases hpc : s.pc with
  | done => exact .inl rfl
  | waiting guarded => exact absurd hpc (hd.not_waiting hinvoked hreturned guarded)
  | parkSet guarded =>
    have htoken := park_consistent hshape guarded (.inl hpc)
    right
    cases htok : s.token with
    | parked => exact absurd htok htoken
    | empty | notified => simp [blockOnStep, hpc, htok]
  | wakingNow | waking => simp [blockOnStep, hpc, hquiet]
  | tryLockNow | tryLock | elapsed | parkReturn =>
    right
    simp only [blockOnStep, hpc]
    split <;> rfl
  | _ => simp [blockOnStep, hpc]

end Cynthia.Io.BlockOn
