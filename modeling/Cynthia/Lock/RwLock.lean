import Cynthia.Lock.MutexInv

/-! The reader-writer lock, `platform/lock/rwlock.rs`: any number of futures, calls
and guards. A step is one operation on the state word, on one of the two events or
on the inner mutex, whose steps are those of the async mutex. -/

namespace Cynthia.Lock.RwLock

open Transition Channels Census

def WRITER_BIT : Nat := 1

def ONE_READER : Nat := 2

/-- `isize::MAX as usize`. -/
def isizeMax : Nat := 2 ^ 63 - 1

/-- What the inner mutex is taken for. -/
inductive Use where
  | tryUpgradable
  | upgradable
  | tryWrite
  | write
  deriving DecidableEq, Repr

/-- What is left when the inner mutex is released. -/
inductive After where
  | done
  | readGuard
  deriving DecidableEq, Repr

inductive Pc where
  -- try_read and read; the flag says that it is read
  | readLoad (blocking : Bool)
  | readCas (blocking : Bool) (state : Nat)
  | readListen
  /-- In front of the second look at the writer bit. -/
  | readCheck
  | readAwait
  | readSuspended
  | readNotify
  /-- In front of the load at the end of the loop; the flag says that the listener is left. -/
  | readReload (listening : Bool)
  /-- In front of the drop of the listener; `none` if the future is dropped. -/
  | readLeave (state : Option Nat)
  | readGuard
  -- Drop for RwLockReadGuard; the flag says that it is part of an upgradable guard
  | readSub (reserved : Bool)
  | readersNotify (reserved : Bool)
  -- inside mutex.lock() or mutex.try_lock(), and inside the drop of its guard
  | locking (use : Use) (pc : Mutex.Pc)
  | unlocking (after : After) (pc : Mutex.Pc)
  -- try_upgradable_read and upgradable_read behind the mutex
  | upLoad
  | upCas (state : Nat)
  | upGuard
  -- try_write behind the mutex, try_upgrade
  | tryWriteCas
  | tryUpgradeCas
  -- write behind the mutex and upgrade, with their common loop
  | writeOr
  | upgradeSub
  | writeLoad
  | writeListen
  | writeCheck
  | writeAwait
  | writeSuspended
  /-- In front of the drop of the listener; the flag says that the future is dropped. -/
  | writeLeave (cancelled : Bool)
  | writeGuard
  -- Drop for RwLockWriteGuardInner, downgrade, downgrade_to_upgradable
  | writeAnd
  | downgradeAdd
  | downgradeUpAdd
  | writerNotify (after : After)
  | done
  deriving DecidableEq, Repr

structure Shared where
  mutex : Mutex.Shared
  noReaders : Event
  noWriter : Event
  state : Nat
  deriving DecidableEq, Repr

/-- `try_read` or `read` has loaded the state word. -/
def seen (blocking : Bool) (state : Nat) : Pc :=
  if state % 2 = 0 then .readCas blocking state else if blocking then .readListen else .done

/-- The drop of the read part of a guard is over. -/
def dropped (reserved : Bool) : Pc := if reserved then .unlocking .done .release else .done

def Use.pc : Use → Pc
  | .tryUpgradable | .upgradable => .upLoad
  | .tryWrite => .tryWriteCas
  | .write => .writeOr

/-- A call of the inner mutex has come to `pc`: it has the lock, is over, or goes on. -/
def locked (use : Use) : Mutex.Pc → Pc
  | .holding => use.pc
  | .done => .done
  | pc => .locking use pc

def After.pc : After → Pc
  | .done => .done
  | .readGuard => .readGuard

def released (after : After) : Mutex.Pc → Pc
  | .done => after.pc
  | pc => .unlocking after pc

/-- `try_read`, `read` and the drop of a read guard. -/
def execRead (sh : Shared) (f : Nat) : Pc → Option (Pc × Shared)
  | .readLoad blocking => some (seen blocking sh.state, sh)
  | .readCas blocking state =>
    if state > isizeMax then none
    else if sh.state = state then some (.readGuard, { sh with state := state + ONE_READER })
    else some (seen blocking sh.state, sh)
  | .readListen => some (.readCheck, { sh with noWriter := sh.noWriter.listen f })
  | .readCheck => some (if sh.state % 2 = 1 then .readAwait else .readReload true, sh)
  | .readAwait => some <|
    if (f, true) ∈ sh.noWriter then (.readNotify, { sh with noWriter := sh.noWriter.remove f })
    else (.readSuspended, sh)
  | .readNotify => some (.readReload false, { sh with noWriter := sh.noWriter.notify 1 })
  | .readReload listening => some
    (if listening then .readLeave (some sh.state) else seen true sh.state, sh)
  | .readLeave state => some
    (match state with
      | some state => seen true state
      | none => .done, { sh with noWriter := sh.noWriter.drop f })
  -- `fetch_sub(ONE_READER) & !WRITER_BIT == ONE_READER`
  | .readSub reserved => some
    (if sh.state - sh.state % 2 = ONE_READER then .readersNotify reserved else dropped reserved,
      { sh with state := sh.state - ONE_READER })
  | .readersNotify reserved => some
    (dropped reserved, { sh with noReaders := sh.noReaders.notify 1 })
  | _ => none

/-- The calls of the inner mutex. -/
def execMutex (sh : Shared) (f : Nat) (elapsed : Bool) : Pc → Option (Pc × Shared)
  | .locking use pc =>
    (Mutex.exec sh.mutex f elapsed pc).map fun r => (locked use r.1, { sh with mutex := r.2 })
  | .unlocking after pc =>
    (Mutex.exec sh.mutex f elapsed pc).map fun r => (released after r.1, { sh with mutex := r.2 })
  | _ => none

/-- What is done under the inner mutex, except for waiting. -/
def execHolder (sh : Shared) : Pc → Option (Pc × Shared)
  | .upLoad => if sh.state > isizeMax then none else some (.upCas sh.state, sh)
  | .upCas state => some <|
    if sh.state = state then (.upGuard, { sh with state := state + ONE_READER })
    else (.upCas sh.state, sh)
  | .tryWriteCas => some <|
    if sh.state = 0 then (.writeGuard, { sh with state := WRITER_BIT })
    else (.unlocking .done .release, sh)
  | .tryUpgradeCas => some <|
    if sh.state = ONE_READER then (.writeGuard, { sh with state := WRITER_BIT })
    else (.upGuard, sh)
  | .writeOr => some (.writeLoad, { sh with state := sh.state ||| WRITER_BIT })
  | .upgradeSub => some
    (.writeLoad, { sh with state := sh.state - (ONE_READER - WRITER_BIT) })
  -- `fetch_and(!WRITER_BIT)`
  | .writeAnd => some (.writerNotify .done, { sh with state := sh.state - sh.state % 2 })
  | .downgradeAdd => some
    (.writerNotify .readGuard, { sh with state := sh.state + (ONE_READER - WRITER_BIT) })
  | .downgradeUpAdd => some
    (.upGuard, { sh with state := sh.state + (ONE_READER - WRITER_BIT) })
  | .writerNotify after => some
    (.unlocking after .release, { sh with noWriter := sh.noWriter.notify 1 })
  | _ => none

/-- The loop of `write` and `upgrade`. -/
def execWait (sh : Shared) (f : Nat) : Pc → Option (Pc × Shared)
  | .writeLoad => some (if sh.state = WRITER_BIT then .writeGuard else .writeListen, sh)
  | .writeListen => some (.writeCheck, { sh with noReaders := sh.noReaders.listen f })
  | .writeCheck => some
    (if sh.state = WRITER_BIT then .writeLeave false else .writeAwait, sh)
  | .writeAwait => some <|
    if (f, true) ∈ sh.noReaders then (.writeLoad, { sh with noReaders := sh.noReaders.remove f })
    else (.writeSuspended, sh)
  | .writeLeave cancelled => some
    (if cancelled then .writeAnd else .writeLoad, { sh with noReaders := sh.noReaders.drop f })
  | _ => none

/-- The next step of the call `f`. -/
def exec (sh : Shared) (f : Nat) (elapsed : Bool) (pc : Pc) : Option (Pc × Shared) :=
  execRead sh f pc <|> execMutex sh f elapsed pc <|> execHolder sh pc <|> execWait sh f pc

namespace Pc

/-- The future is polled again. -/
def poll : Pc → Option Pc
  | .readSuspended => some .readAwait
  | .writeSuspended => some .writeAwait
  | .locking use pc => pc.poll.map (.locking use)
  | _ => none

/-- The future is dropped at its await point: first the listener, then, in `write`
and `upgrade`, the guard that is already made. -/
def cancel : Pc → Option Pc
  | .readSuspended => some (.readLeave none)
  | .writeSuspended => some (.writeLeave true)
  | .locking use pc => pc.cancel.map (.locking use)
  | _ => none

def dropGuard : Pc → Option Pc
  | .readGuard => some (.readSub false)
  | .upGuard => some (.readSub true)
  | .writeGuard => some .writeAnd
  | _ => none

def upgrade : Pc → Option Pc
  | .upGuard => some .upgradeSub
  | _ => none

def tryUpgrade : Pc → Option Pc
  | .upGuard => some .tryUpgradeCas
  | _ => none

/-- `downgrade` of an upgradable guard keeps the reader and drops `reserved`. -/
def downgrade : Pc → Option Pc
  | .upGuard => some (.unlocking .readGuard .release)
  | .writeGuard => some .downgradeAdd
  | _ => none

def downgradeToUpgradable : Pc → Option Pc
  | .writeGuard => some .downgradeUpAdd
  | _ => none

end Pc

structure State where
  sh : Shared
  started : Nat
  calls : Nat → Pc

/-- `RwLock::new`. -/
def State.new : State where
  sh := ⟨⟨0, []⟩, [], [], 0⟩
  started := 0
  calls := fun _ => .done

/-- What the user of the lock does to a future or a guard. -/
inductive Op where
  | poll
  | cancel
  | dropGuard
  | upgrade
  | tryUpgrade
  | downgrade
  | downgradeToUpgradable
  deriving DecidableEq, Repr

inductive Act where
  | tryRead
  | read
  | tryUpgradableRead
  | upgradableRead
  | tryWrite
  | write
  | op (f : Nat) (o : Op)
  | step (f : Nat) (elapsed : Bool)
  deriving DecidableEq, Repr

def Pc.apply (pc : Pc) : Op → Option Pc
  | .poll => pc.poll
  | .cancel => pc.cancel
  | .dropGuard => pc.dropGuard
  | .upgrade => pc.upgrade
  | .tryUpgrade => pc.tryUpgrade
  | .downgrade => pc.downgrade
  | .downgradeToUpgradable => pc.downgradeToUpgradable

def State.goto (s : State) (f : Nat) (pc : Pc) : State :=
  { s with calls := Function.update s.calls f pc }

def State.start (s : State) (pc : Pc) : State :=
  { s with started := s.started + 1, calls := Function.update s.calls s.started pc }

/-- Where a call starts. -/
def Act.entry : Act → Option Pc
  | .tryRead => some (.readLoad false)
  | .read => some (.readLoad true)
  | .tryUpgradableRead => some (.locking .tryUpgradable .tryLock)
  | .upgradableRead => some (.locking .upgradable .lock)
  | .tryWrite => some (.locking .tryWrite .tryLock)
  | .write => some (.locking .write .lock)
  | .op _ _ | .step _ _ => none

def step (s : State) (a : Act) : Option State :=
  match a with
  | .op f o => ((s.calls f).apply o).map (s.goto f)
  | .step f elapsed =>
    (exec s.sh f elapsed (s.calls f)).map fun r => { s.goto f r.1 with sh := r.2 }
  | _ => a.entry.map s.start

def system : System State Act := ⟨.new, step⟩

namespace Pc

/-- Where the call stands with the inner mutex. -/
def mutexPc : Pc → Mutex.Pc
  | .locking _ pc | .unlocking _ pc => pc
  | .readSub true | .readersNotify true => .holding
  | .readLoad _ | .readCas _ _ | .readListen | .readCheck | .readAwait | .readSuspended
  | .readNotify | .readReload _ | .readLeave _ | .readGuard | .readSub false
  | .readersNotify false | .done => .done
  | _ => .holding

/-- The call counts as a reader: it has a read guard or an upgradable guard. -/
def isReader : Pc → Bool
  | .readGuard | .readSub _ | .upGuard | .upgradeSub | .tryUpgradeCas
  | .writerNotify .readGuard | .unlocking .readGuard _ => true
  | _ => false

/-- The call has set the writer bit: it is a writer or an upgrader, waiting or not. -/
def isWriter : Pc → Bool
  | .writeLoad | .writeListen | .writeCheck | .writeAwait | .writeSuspended | .writeLeave _
  | .writeGuard | .writeAnd | .downgradeAdd | .downgradeUpAdd => true
  | _ => false

/-- An upgradable guard or a write guard exists. -/
def isUnique : Pc → Bool
  | .upGuard | .readSub true | .upgradeSub | .tryUpgradeCas | .writeGuard | .writeAnd
  | .downgradeAdd | .downgradeUpAdd => true
  | _ => false

/-- Neither inside a poll nor inside a synchronous operation. -/
def atRest : Pc → Bool
  | .readSuspended | .readGuard | .locking _ (.suspended _) | .upGuard | .writeSuspended
  | .writeGuard | .done => true
  | _ => false

end Pc

end Cynthia.Lock.RwLock
