import Cynthia.Lib.Census
import Cynthia.Lib.Transition
import Mathlib.Data.List.Basic

/-! The thread pool of `runtime/blocking/blocking.rs`: `Executor::schedule`,
`Executor::grow_pool` and `Executor::cycle_entry`. Everything these do to `Inner`
and to the condition variable happens under the one lock, so a step is a whole
critical section; between two of them a worker is about to lock for the first
time, runs a task, is blocked in `wait_timeout`, or has left the wait and is
about to lock again. -/

namespace Cynthia.Blocking.ThreadPool

open Transition Census

abbrev Runnable := Nat

/-- Where a worker thread stands while it does not hold the lock. -/
inductive Worker where
  | starting
  | running (runnable : Runnable)
  | waiting
  | woken (timedOut : Bool)
  | exited
  deriving DecidableEq, Repr

/-- A worker that `idle_count` stands for. -/
def Worker.isIdle : Worker → Bool
  | .starting | .waiting | .woken _ => true
  | .running _ | .exited => false

def Worker.isLive : Worker → Bool
  | .exited => false
  | _ => true

/-- A worker that will take the lock without anybody's help. -/
def Worker.isActive : Worker → Bool
  | .waiting | .exited => false
  | _ => true

/-- `Inner` with the worker threads. `spawned` is what the static `ID` counts, and
`underflow` records that a counter was decremented at `0`. -/
structure State where
  idleCount : Nat
  threadCount : Nat
  queue : List Runnable
  workers : Nat → Worker
  spawned : Nat
  underflow : Bool

def new : State := ⟨0, 0, [], fun _ => .exited, 0, false⟩

namespace State

def move (s : State) (w : Nat) (c : Worker) : State :=
  { s with workers := Function.update s.workers w c }

/-- `inner.idle_count -= 1`. -/
def decIdle (s : State) : State :=
  { s with idleCount := s.idleCount - 1, underflow := s.underflow || s.idleCount == 0 }

/-- `inner.thread_count -= 1`. -/
def decThreads (s : State) : State :=
  { s with threadCount := s.threadCount - 1, underflow := s.underflow || s.threadCount == 0 }

def notifyAll (s : State) : State :=
  { s with workers := fun w => if s.workers w = .waiting then .woken false else s.workers w }

/-- `notify_one` ends the wait of one blocked worker, and does nothing only if none
is blocked. -/
def notifyOne (s : State) : Option Nat → Option State
  | some w => if s.workers w = .waiting then some (s.move w (.woken false)) else none
  | none => if ∀ w < s.spawned, s.workers w ≠ .waiting then some s else none

/-- The body of the loop of `grow_pool`. -/
def spawn (s : State) : State :=
  let s := { s with idleCount := s.idleCount + 1, threadCount := s.threadCount + 1 }
  let s := s.notifyAll
  { s with workers := Function.update s.workers s.spawned .starting, spawned := s.spawned + 1 }

/-- The condition of the loop of `grow_pool`. -/
def short (s : State) : Prop := s.idleCount * 5 < s.queue.length ∧ s.threadCount < 500

instance (s : State) : Decidable s.short := inferInstanceAs (Decidable (_ ∧ _))

def growLoop : Nat → State → State
  | 0, s => s
  | fuel + 1, s => if s.short then growLoop fuel s.spawn else s

/-- Every round starts a thread, so there are at most `500 - thread_count` rounds. -/
def growPool (s : State) : State := growLoop (500 - s.threadCount) s

/-- The inner loop of `cycle_entry`, with the lock held, up to the next point at
which the lock is released. -/
def serve (s : State) (w : Nat) : State :=
  match s.queue with
  | runnable :: queue => growPool ({ s with queue := queue }.move w (.running runnable))
  | [] => { s with idleCount := s.idleCount + 1 }.move w .waiting

/-- The outer loop of `cycle_entry` from its top. -/
def enter (s : State) (w : Nat) : State := s.decIdle.serve w

end State

inductive Act where
  | schedule (runnable : Runnable) (notified : Option Nat)
  | start (w : Nat)
  | finish (w : Nat)
  | leave (w : Nat) (timedOut : Bool)
  | relock (w : Nat)
  deriving DecidableEq, Repr

/-- `leave` is the end of a wait by its timeout or spuriously; `finish` is the end
of `runnable.run()`, by return or by a panic that is caught. -/
def step (s : State) : Act → Option State
  | .schedule runnable notified =>
    ({ s with queue := s.queue ++ [runnable] }.notifyOne notified).map State.growPool
  | .start w => if s.workers w = .starting then some (s.enter w) else none
  | .finish w =>
    match s.workers w with
    | .running _ => some (s.serve w)
    | _ => none
  | .leave w timedOut =>
    if s.workers w = .waiting then some (s.move w (.woken timedOut)) else none
  | .relock w =>
    match s.workers w with
    | .woken timedOut =>
      if timedOut = true ∧ s.queue = [] then some (s.decIdle.decThreads.move w .exited)
      else some (s.enter w)
    | _ => none

def system : System State Act := ⟨new, step⟩

/-! ## `grow_pool` -/

namespace State

theorem growLoop_eq (s : State) (fuel : Nat) (hfuel : 500 - s.threadCount ≤ fuel) :
    s.growLoop fuel = s.growPool := by
  unfold growPool
  induction fuel generalizing s with
  | zero => rw [Nat.le_zero.mp hfuel]
  | succ fuel ih =>
    cases hrest : 500 - s.threadCount with
    | zero =>
      have hlong : ¬s.short := fun h => absurd h.2 (by omega)
      simp only [growLoop, hlong, if_false]
    | succ rest =>
      have hnext : 500 - s.spawn.threadCount = rest := by
        show 500 - (s.threadCount + 1) = rest
        omega
      simp only [growLoop]
      rw [ih s.spawn (by omega), hnext]

/-- `grow_pool` is the loop of the source. -/
theorem growPool_eq (s : State) :
    s.growPool = if s.short then s.spawn.growPool else s := by
  by_cases h : s.short
  · rw [if_pos h]
    have hstep := growLoop_eq s (500 - s.threadCount + 1) (by omega)
    rw [← hstep, growLoop, if_pos h]
    refine growLoop_eq s.spawn _ ?_
    show 500 - (s.threadCount + 1) ≤ _
    omega
  · rw [if_neg h, growPool]
    cases 500 - s.threadCount with
    | zero => rfl
    | succ fuel => rw [growLoop, if_neg h]

/-- The rule for `grow_pool`: what every round keeps holds after the loop, where
its condition is false. -/
theorem growPool_rule {I : State → Prop} (hspawn : ∀ s : State, I s → s.short → I s.spawn)
    {s : State} (hs : I s) : I s.growPool ∧ ¬s.growPool.short := by
  induction hrest : 500 - s.threadCount generalizing s with
  | zero =>
    have hlong : ¬s.short := fun h => absurd h.2 (by omega)
    rw [growPool_eq, if_neg hlong]
    exact ⟨hs, hlong⟩
  | succ rest ih =>
    rw [growPool_eq]
    split
    · rename_i hshort
      refine ih (hspawn s hs hshort) ?_
      show 500 - (s.threadCount + 1) = rest
      omega
    · rename_i hlong
      exact ⟨hs, hlong⟩

end State

/-! ## The counters -/

/-- Both counters count the workers they are about. -/
structure Counted (s : State) : Prop where
  fresh : Fresh .exited s.spawned s.workers
  idle : s.idleCount = count Worker.isIdle s.spawned s.workers
  threads : s.threadCount = count Worker.isLive s.spawned s.workers
  bound : s.threadCount ≤ 500
  noUnderflow : s.underflow = false

theorem Counted.idle_le {s : State} (h : Counted s) : s.idleCount ≤ s.threadCount := by
  rw [h.idle, h.threads]
  apply count_le_count
  intro c hc
  cases c <;> first | rfl | cases hc

theorem Counted.lt {s : State} (h : Counted s) {w : Nat} (hw : s.workers w ≠ .exited) :
    w < s.spawned := h.fresh.lt hw

theorem counted_new : Counted new := ⟨fun _ _ => rfl, rfl, rfl, by decide, rfl⟩

/-- A queue step moves no counter. -/
theorem Counted.setQueue {s : State} (h : Counted s) (queue : List Runnable) :
    Counted { s with queue := queue } := { h with }

/-- A worker moves and the counters follow it. -/
theorem Counted.move {s : State} (h : Counted s) {w : Nat} (hw : s.workers w ≠ .exited)
    {c : Worker} {t : State} (hworkers : t.workers = Function.update s.workers w c)
    (hspawned : t.spawned = s.spawned) (hunder : t.underflow = false)
    (hidle : t.idleCount + (s.workers w).isIdle.toNat = s.idleCount + c.isIdle.toNat)
    (hthreads : t.threadCount + (s.workers w).isLive.toNat = s.threadCount + c.isLive.toNat)
    (hbound : t.threadCount ≤ 500) : Counted t := by
  have hlt := h.lt hw
  refine ⟨?_, ?_, ?_, hbound, hunder⟩
  · rw [hworkers, hspawned]
    exact h.fresh.update hlt
  · have hcount : count Worker.isIdle s.spawned (Function.update s.workers w c) +
        (s.workers w).isIdle.toNat = count Worker.isIdle s.spawned s.workers + c.isIdle.toNat :=
      count_update _ hlt
    have := h.idle
    rw [hworkers, hspawned]
    omega
  · have hcount : count Worker.isLive s.spawned (Function.update s.workers w c) +
        (s.workers w).isLive.toNat = count Worker.isLive s.spawned s.workers + c.isLive.toNat :=
      count_update _ hlt
    have := h.threads
    rw [hworkers, hspawned]
    omega

theorem Counted.notifyAll {s : State} (h : Counted s) : Counted s.notifyAll := by
  refine ⟨?_, ?_, ?_, h.bound, h.noUnderflow⟩
  · intro w hw
    simp [State.notifyAll, h.fresh w hw]
  · rw [show s.notifyAll.idleCount = s.idleCount from rfl, h.idle]
    refine (count_congr _ fun w _ => ?_).symm
    by_cases hw : s.workers w = .waiting <;> simp [State.notifyAll, hw, Worker.isIdle]
  · rw [show s.notifyAll.threadCount = s.threadCount from rfl, h.threads]
    refine (count_congr _ fun w _ => ?_).symm
    by_cases hw : s.workers w = .waiting <;> simp [State.notifyAll, hw, Worker.isLive]

theorem Counted.spawn {s : State} (h : Counted s) (hshort : s.short) : Counted s.spawn := by
  have hall := h.notifyAll
  refine ⟨hall.fresh.start, ?_, ?_, hshort.2, h.noUnderflow⟩
  · rw [show s.spawn.idleCount = s.notifyAll.idleCount + 1 from rfl, hall.idle]
    exact (count_start Worker.isIdle .starting).symm
  · rw [show s.spawn.threadCount = s.notifyAll.threadCount + 1 from rfl, hall.threads]
    exact (count_start Worker.isLive .starting).symm

/-! ## Nobody is left asleep over a task -/

/-- Some worker is going to take the lock, or none is asleep. -/
def Stirred (s : State) : Prop :=
  (∃ w, (s.workers w).isActive = true) ∨ ∀ w, s.workers w ≠ .waiting

/-- The invariant of the pool while the lock is free. -/
structure Inv (s : State) : Prop where
  counted : Counted s
  covered : ¬s.short
  stirred : s.queue ≠ [] → Stirred s

theorem inv_new : Inv new := ⟨counted_new, fun h => absurd h.1 (by decide), fun h => absurd rfl h⟩

theorem stirred_move {s : State} {w : Nat} {c : Worker} (hc : c.isActive = true) :
    Stirred (s.move w c) := by
  refine .inl ⟨w, ?_⟩
  rw [show (s.move w c).workers w = c from Function.update_self ..]
  exact hc

theorem stirred_spawn (s : State) : Stirred s.spawn := by
  refine .inl ⟨s.spawned, ?_⟩
  rw [show s.spawn.workers s.spawned = .starting from Function.update_self ..]
  rfl

theorem Inv.growPool {s : State} (h : Counted s) (hs : s.queue ≠ [] → Stirred s) :
    Inv s.growPool := by
  obtain ⟨⟨hcounted, hstirred⟩, hlong⟩ :=
    State.growPool_rule (I := fun s => Counted s ∧ (s.queue ≠ [] → Stirred s))
      (fun s hi hshort => ⟨hi.1.spawn hshort, fun _ => stirred_spawn s⟩) ⟨h, hs⟩
  exact ⟨hcounted, hlong, hstirred⟩

/-- A worker that holds the lock and stands outside of `idle_count`. -/
theorem Inv.serve {s t : State} (h : Counted s) {w : Nat} (hw : s.workers w ≠ .exited)
    (hidle : t.idleCount + (s.workers w).isIdle.toNat = s.idleCount)
    (hlive : (s.workers w).isLive = true) (hthreads : t.threadCount = s.threadCount)
    (hworkers : t.workers = s.workers) (hspawned : t.spawned = s.spawned)
    (hunder : t.underflow = false) : Inv (t.serve w) := by
  unfold State.serve
  split
  · rename_i runnable queue hq
    refine Inv.growPool ?_ fun _ => stirred_move rfl
    refine h.move hw (c := .running runnable) ?_ hspawned hunder hidle ?_ ?_
    · show Function.update t.workers w _ = _
      rw [hworkers]
    · rw [hlive]
      exact congrArg (· + 1) hthreads
    · exact Nat.le_trans (Nat.le_of_eq hthreads) h.bound
  · rename_i hq
    refine ⟨?_, ?_, fun hne => absurd hq hne⟩
    · refine h.move hw (c := .waiting) ?_ hspawned hunder ?_ ?_ ?_
      · show Function.update t.workers w _ = _
        rw [hworkers]
      · show t.idleCount + 1 + _ = s.idleCount + 1
        omega
      · rw [hlive]
        exact congrArg (· + 1) hthreads
      · exact Nat.le_trans (Nat.le_of_eq hthreads) h.bound
    · rintro ⟨hlt, -⟩
      have hnil : t.queue.length = 0 := by rw [hq]; rfl
      exact absurd hlt (by show ¬(_ < t.queue.length); omega)

theorem Counted.idle_pos {s : State} (h : Counted s) {w : Nat}
    (hw : (s.workers w).isIdle = true) : 0 < s.idleCount := by
  rw [h.idle]
  refine count_pos (h.lt fun hx => ?_) hw
  rw [hx] at hw
  cases hw

theorem Inv.enter {s : State} (h : Counted s) {w : Nat} (hw : (s.workers w).isIdle = true) :
    Inv (s.enter w) := by
  have hpos := h.idle_pos hw
  refine Inv.serve h ?_ ?_ ?_ rfl rfl rfl ?_
  · intro hx
    rw [hx] at hw
    cases hw
  · rw [hw]
    show s.idleCount - 1 + 1 = s.idleCount
    omega
  · cases hc : s.workers w <;> rw [hc] at hw <;> first | rfl | cases hw
  · show (s.underflow || s.idleCount == 0) = false
    rw [h.noUnderflow, Bool.false_or, beq_eq_false_iff_ne]
    omega

/-- The last worker to leave finds both counters positive. -/
theorem Counted.exit {s : State} (h : Counted s) {w : Nat} {timedOut : Bool}
    (hw : s.workers w = .woken timedOut) : Counted (s.decIdle.decThreads.move w .exited) := by
  have hpos := h.idle_pos (w := w) (by rw [hw]; rfl)
  have hle := h.idle_le
  have hbound := h.bound
  refine h.move (w := w) (c := .exited) (by rw [hw]; exact Worker.noConfusion) rfl rfl ?_ ?_ ?_ ?_
  · show (s.underflow || s.idleCount == 0 || s.threadCount == 0) = false
    rw [h.noUnderflow, Bool.false_or, Bool.or_eq_false_iff, beq_eq_false_iff_ne,
      beq_eq_false_iff_ne]
    omega
  · rw [hw]
    show s.idleCount - 1 + 1 = s.idleCount + 0
    omega
  · rw [hw]
    show s.threadCount - 1 + 1 = s.threadCount + 0
    omega
  · show s.threadCount - 1 ≤ 500
    omega

theorem Counted.wake {s : State} (h : Counted s) {w : Nat} {timedOut : Bool}
    (hw : s.workers w = .waiting) : Counted (s.move w (.woken timedOut)) := by
  refine h.move (w := w) (by rw [hw]; decide) rfl rfl h.noUnderflow ?_ ?_ h.bound
  · rw [hw]
    rfl
  · rw [hw]
    rfl

theorem Inv.schedule {s t : State} (h : Inv s) {runnable : Runnable} {notified : Option Nat}
    (ht : { s with queue := s.queue ++ [runnable] }.notifyOne notified = some t) :
    Inv t.growPool := by
  have hpushed := h.counted.setQueue (s.queue ++ [runnable])
  cases notified with
  | some w =>
    simp only [State.notifyOne] at ht
    split at ht
    · rename_i hw
      obtain rfl := Option.some.inj ht
      exact Inv.growPool (hpushed.wake hw) fun _ => stirred_move rfl
    · cases ht
  | none =>
    simp only [State.notifyOne] at ht
    split at ht
    · rename_i hnone
      obtain rfl := Option.some.inj ht
      refine Inv.growPool hpushed fun _ => .inr fun w hw => ?_
      exact hnone w (hpushed.lt (by rw [hw]; decide)) hw
    · cases ht

theorem inv_step {s t : State} {a : Act} (h : Inv s) (ht : step s a = some t) : Inv t := by
  cases a with
  | schedule runnable notified =>
    obtain ⟨u, hu, rfl⟩ := Option.map_eq_some_iff.mp ht
    exact h.schedule hu
  | start w =>
    simp only [step] at ht
    split at ht
    · rename_i hw
      obtain rfl := Option.some.inj ht
      exact Inv.enter h.counted (by rw [hw]; rfl)
    · cases ht
  | finish w =>
    simp only [step] at ht
    split at ht
    · rename_i runnable hw
      obtain rfl := Option.some.inj ht
      exact Inv.serve h.counted (by rw [hw]; exact Worker.noConfusion) (by rw [hw]; rfl)
        (by rw [hw]; rfl) rfl rfl rfl h.counted.noUnderflow
    · cases ht
  | leave w timedOut =>
    simp only [step] at ht
    split at ht
    · rename_i hw
      obtain rfl := Option.some.inj ht
      exact ⟨h.counted.wake hw, h.covered, fun _ => stirred_move rfl⟩
    · cases ht
  | relock w =>
    simp only [step] at ht
    split at ht
    · rename_i timedOut hw
      split at ht
      · rename_i hexit
        obtain rfl := Option.some.inj ht
        refine ⟨h.counted.exit hw, ?_, fun hne => absurd hexit.2 hne⟩
        rintro ⟨hlt, -⟩
        have hnil : s.queue.length = 0 := by rw [hexit.2]; rfl
        exact absurd hlt (by show ¬(_ < s.queue.length); omega)
      · obtain rfl := Option.some.inj ht
        exact Inv.enter h.counted (by rw [hw]; rfl)
    · cases ht

theorem inv_of_reachable {s : State} (hs : system.Reachable s) : Inv s :=
  hs.invariant (M := system) inv_new fun _ _ _ => inv_step

/-- The step by which a worker that holds no lock and is not blocked takes it. -/
def lockAct (w : Nat) : Worker → Act
  | .running _ => .finish w
  | .woken _ => .relock w
  | _ => .start w

theorem growPool_keeps {s : State} :
    s.growPool.queue = s.queue ∧
      ∀ w runnable, s.workers w = .running runnable → w < s.spawned →
        s.growPool.workers w = .running runnable := by
  refine ⟨?_, fun w runnable hw hlt => ?_⟩
  · exact (State.growPool_rule (I := fun t => t.queue = s.queue) (fun _ h _ => h) rfl).1
  · refine (State.growPool_rule
      (I := fun t => w < t.spawned ∧ t.workers w = .running runnable) ?_ ⟨hlt, hw⟩).1.2
    rintro t ⟨hlt, ht⟩ -
    refine ⟨Nat.lt_succ_of_lt hlt, ?_⟩
    show Function.update t.notifyAll.workers t.spawned .starting w = _
    rw [Function.update_of_ne (Nat.ne_of_lt hlt)]
    simp [State.notifyAll, ht]

/-- A worker that takes the lock while a task is queued pops it. -/
theorem serve_pops {s : State} {w : Nat} {runnable : Runnable} {queue : List Runnable}
    (hlt : w < s.spawned) (hq : s.queue = runnable :: queue) :
    (s.serve w).queue = queue ∧ (s.serve w).workers w = .running runnable := by
  simp only [State.serve, hq]
  refine ⟨growPool_keeps.1, growPool_keeps.2 w runnable ?_ hlt⟩
  exact Function.update_self ..

theorem Counted.lock_pops {s : State} (h : Counted s) {w : Nat} {runnable : Runnable}
    {queue : List Runnable} (hw : (s.workers w).isActive = true)
    (hq : s.queue = runnable :: queue) :
    ∃ t, step s (lockAct w (s.workers w)) = some t ∧ t.queue = queue ∧
      t.workers w = .running runnable := by
  have hlt : w < s.spawned := h.lt fun hx => by
    rw [hx] at hw
    cases hw
  cases hc : s.workers w with
  | starting => exact ⟨s.enter w, by simp [step, lockAct, hc], serve_pops hlt hq⟩
  | running r => exact ⟨s.serve w, by simp [step, lockAct, hc], serve_pops hlt hq⟩
  | woken timedOut =>
    refine ⟨s.enter w, ?_, serve_pops hlt hq⟩
    have hne : ¬(timedOut = true ∧ s.queue = []) := by
      rintro ⟨-, hnil⟩
      rw [hq] at hnil
      cases hnil
    simp only [step, lockAct, hc, if_neg hne]
  | waiting | exited =>
    rw [hc] at hw
    cases hw

theorem Inv.exists_active {s : State} (h : Inv s) (hq : s.queue ≠ []) :
    ∃ w, (s.workers w).isActive = true := by
  rcases h.stirred hq with hactive | hnone
  · exact hactive
  · -- With no worker at all the pool would have been grown.
    have hlen : 0 < s.queue.length := List.length_pos_iff.mpr hq
    have hlive : 0 < s.threadCount := by
      by_contra hzero
      have := h.counted.idle_le
      exact h.covered ⟨by omega, by omega⟩
    rw [h.counted.threads] at hlive
    obtain ⟨w, -, hw⟩ := exists_of_count_pos hlive
    refine ⟨w, ?_⟩
    have hnw := hnone w
    cases hc : s.workers w with
    | starting | running | woken => rfl
    | waiting => exact absurd hc hnw
    | exited =>
      rw [hc] at hw
      cases hw

/-- What the pool guarantees while the lock is free. -/
structure Sound (s : State) : Prop where
  idle_le : s.idleCount ≤ s.threadCount
  threads_le : s.threadCount ≤ 500
  idle_eq : s.idleCount = count Worker.isIdle s.spawned s.workers
  noUnderflow : s.underflow = false
  covered : s.queue.length ≤ 5 * s.idleCount ∨ s.threadCount = 500
  served : ∀ runnable queue, s.queue = runnable :: queue →
    ∃ w, (s.workers w).isActive = true ∧
      ∃ t, step s (lockAct w (s.workers w)) = some t ∧ t.queue = queue ∧
        t.workers w = .running runnable

/-- The counters of the pool are those of its threads, and a queued task has a thread that
will take it. -/
theorem pool_sound (s : State) (hs : system.Reachable s) : Sound s := by
  have h := inv_of_reachable hs
  refine ⟨h.counted.idle_le, h.counted.bound, h.counted.idle, h.counted.noUnderflow, ?_, ?_⟩
  · have hbound := h.counted.bound
    by_contra hno
    exact h.covered ⟨by omega, by omega⟩
  · intro runnable queue hq
    obtain ⟨w, hw⟩ := h.exists_active (by rw [hq]; exact List.cons_ne_nil _ _)
    exact ⟨w, hw, h.counted.lock_pops hw hq⟩

/-- A worker is started for the first task, runs it and goes to sleep; the next task
wakes it, and a third one comes before it has the lock again. -/
def sleepAndWake : List Act :=
  [.schedule 7 none, .start 0, .finish 0, .schedule 8 (some 0), .schedule 9 none]

theorem pool_sound_sleepAndWake : ∃ s, system.Reachable s ∧ s.queue = [8, 9] ∧
    s.workers 0 = .woken false ∧ s.idleCount = 1 ∧ Sound s := by
  obtain ⟨s, -, hs, hq, hw, hidle⟩ := system.exists_of_run
    (P := fun s => s.queue = [8, 9] ∧ s.workers 0 = .woken false ∧ s.idleCount = 1)
    sleepAndWake (by decide +kernel)
  exact ⟨s, hs, hq, hw, hidle, pool_sound s hs⟩

end Cynthia.Blocking.ThreadPool
