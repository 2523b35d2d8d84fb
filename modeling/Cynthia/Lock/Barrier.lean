import Cynthia.Lock.MutexInv

/-! The barrier, `platform/lock/barrier.rs`: any number of `wait` futures, none of which is
dropped before it returns. A step is one operation on the event or on the mutex, whose
steps are those of the async mutex, or what is done to the data under the lock. -/

namespace Cynthia.Lock.Barrier

open Transition Channels Census

/-- The place a call of `wait` has reached. `gen` is its `local_gen`. -/
inductive Pc where
  | unborn
  /-- Inside `state.lock().await`, for the first time if there is no `local_gen` yet. -/
  | locking (gen : Option Nat) (pc : Mutex.Pc)
  /-- The lock is taken for the first time. -/
  | enter
  /-- In front of the condition of the loop. -/
  | check (gen : Nat)
  | listen (gen : Nat)
  /-- Inside `drop(state)`, with a listener. -/
  | unlocking (gen : Nat) (pc : Mutex.Pc)
  | await (gen : Nat)
  /-- Not polled at the moment: the last poll returned `Pending` at the listener. -/
  | suspended (gen : Nat)
  /-- In front of `event.notify(usize::MAX)`. -/
  | notify
  /-- Inside the drop of the guard at the end. -/
  | returning (isLeader : Bool) (pc : Mutex.Pc)
  | returned (isLeader : Bool)
  deriving DecidableEq, Repr

structure Shared where
  mutex : Mutex.Shared
  event : Event
  count : Nat
  generationId : Nat
  deriving DecidableEq, Repr

/-- A call of `lock` has come to `pc`: it has the lock, or goes on. -/
def locked (gen : Option Nat) : Mutex.Pc → Pc
  | .holding => match gen with
    | none => .enter
    | some gen => .check gen
  | pc => .locking gen pc

def unlocked (gen : Nat) : Mutex.Pc → Pc
  | .done => .await gen
  | pc => .unlocking gen pc

def finished (isLeader : Bool) : Mutex.Pc → Pc
  | .done => .returned isLeader
  | pc => .returning isLeader pc

variable (n : Nat)

/-- The next step of the call `f`. -/
def exec (sh : Shared) (f : Nat) (elapsed : Bool) : Pc → Option (Pc × Shared)
  | .locking gen pc =>
    (Mutex.exec sh.mutex f elapsed pc).map fun r => (locked gen r.1, { sh with mutex := r.2 })
  | .enter => some <|
    let count := sh.count + 1
    if count < n then (.check sh.generationId, { sh with count })
    else (.notify, { sh with count := 0, generationId := (sh.generationId + 1) % 2 ^ 64 })
  | .check gen => some
    (if gen = sh.generationId ∧ sh.count < n then .listen gen else .returning false .release, sh)
  | .listen gen => some (.unlocking gen .release, { sh with event := sh.event.listen f })
  | .unlocking gen pc =>
    (Mutex.exec sh.mutex f elapsed pc).map fun r => (unlocked gen r.1, { sh with mutex := r.2 })
  | .await gen => some <|
    if (f, true) ∈ sh.event then
      (.locking (some gen) .lock, { sh with event := sh.event.remove f })
    else (.suspended gen, sh)
  | .notify => some (.returning true .release, { sh with event := sh.event.notifyAll })
  | .returning isLeader pc =>
    (Mutex.exec sh.mutex f elapsed pc).map fun r =>
      (finished isLeader r.1, { sh with mutex := r.2 })
  | .unborn | .suspended _ | .returned _ => none

/-- The future is polled again. -/
def Pc.poll : Pc → Option Pc
  | .suspended gen => some (.await gen)
  | .locking gen pc => pc.poll.map (.locking gen)
  | _ => none

/-- The last two fields are history: the calls in the order in which they took the lock for
the first time, and how many of them have counted themselves. -/
structure State where
  sh : Shared
  started : Nat
  calls : Nat → Pc
  arrivals : List Nat
  entered : Nat

/-- `Barrier::new`. -/
def State.new : State where
  sh := ⟨⟨0, []⟩, [], 0, 0⟩
  started := 0
  calls _ := .unborn
  arrivals := []
  entered := 0

inductive Act where
  | wait
  | poll (f : Nat)
  | step (f : Nat) (elapsed : Bool)
  deriving DecidableEq, Repr

def State.goto (s : State) (f : Nat) (pc : Pc) : State :=
  { s with calls := Function.update s.calls f pc }

def step (s : State) : Act → Option State
  | .wait => some
    { s with
      started := s.started + 1
      calls := Function.update s.calls s.started (.locking none .lock) }
  | .poll f => (s.calls f).poll.map (s.goto f)
  | .step f elapsed =>
    (exec n s.sh f elapsed (s.calls f)).map fun r =>
      { s.goto f r.1 with
        sh := r.2
        arrivals := if r.1 = .enter then s.arrivals ++ [f] else s.arrivals
        entered := if s.calls f = .enter then s.entered + 1 else s.entered }

def system : System State Act := ⟨.new, step n⟩

namespace Pc

/-- Where the call stands with the mutex. -/
def mutexPc : Pc → Mutex.Pc
  | .locking _ pc | .unlocking _ pc | .returning _ pc => pc
  | .enter | .check _ | .listen _ | .notify => .holding
  | .unborn | .await _ | .suspended _ | .returned _ => .done

/-- The call owns a listener of the event. -/
def listens : Pc → Bool
  | .unlocking _ _ | .await _ | .suspended _ => true
  | _ => false

/-- The call has taken the lock. -/
def arrived : Pc → Bool
  | .unborn | .locking none _ => false
  | _ => true

/-- Not in the middle of a poll. -/
def atRest : Pc → Bool
  | .unborn | .locking _ (.suspended _) | .suspended _ | .returned _ => true
  | _ => false

end Pc

end Cynthia.Lock.Barrier
