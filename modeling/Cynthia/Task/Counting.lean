import Cynthia.Task.Moves
import Mathlib.Algebra.Order.Group.Nat
import Mathlib.Tactic.MkIffOfInductiveProp

/-! Reference counting: what the state word says about the handles and the
calls in progress. -/

namespace Cynthia.Task

open Transition Pool

/-! ## Weights of program points -/

def WakeBy.refs : WakeBy → Nat
  | .ref _ => 0
  | .val => 1

def TakeFor.refs : TakeFor → Nat
  | .runner | .runnable => 1
  | _ => 0

/-- References held by a call. -/
def Pc.refs (sized : Bool) : Pc → Nat
  | .wakeRefLoad k | .wakeRefLoop k _ | .wakeRefReturn k => k.refs
  | .wakeRefCall k | .wakeRefAbort k => 1 + k.refs
  | .scheduleCall _ => 1 + sized.toNat
  | .scheduleReturn _ => sized.toNat
  | .scheduleAbort _ => 2
  | .takeOr f | .takeCell f | .takeAnd f _ | .notifyWake f _ => f.refs
  | .cloneAbort _ | .wakeLoad | .wakeLoop _ | .schedule _ | .dropWaker _ | .dropRef _
  | .runLoad | .runLoop _ | .runClosedDrop | .runClosedAnd | .polling _ | .readyDrop _
  | .readyWrite _ | .readyLoop _ | .readyDropOutput _ | .pendingLoop _ _ | .pendingDrop _
  | .guardLoad | .guardLoop _ | .guardClosedDrop _ | .guardClosedAnd _ | .guardDrop _
  | .runnableLoad | .runnableLoop _ | .runnableDrop | .runnableAnd => 1
  | _ => 0

/-- A call that has the `Runnable`: it is about to hand it to the schedule
function, or it is running or dropping it and has not cleared `SCHEDULED` yet. -/
def Pc.tokens : Pc → Nat
  | .wakeRefCall _ | .wakeRefAbort _ | .schedule _ | .scheduleCall _ | .scheduleAbort _
  | .runLoad | .runLoop _ | .runClosedDrop | .runClosedAnd
  | .runnableLoad | .runnableLoop _ | .runnableDrop | .runnableAnd => 1
  | _ => 0

/-- A call of `run` between setting and clearing `RUNNING`. -/
def Pc.runs : Pc → Nat
  | .polling _ | .readyDrop _ | .readyWrite _ | .readyLoop _ | .pendingLoop _ _ | .pendingDrop _
  | .guardLoad | .guardLoop _ | .guardClosedDrop _ | .guardClosedAnd _ => 1
  | _ => 0

def Cont.tasks : Cont → Nat
  | .canceled _ _ => 1
  | _ => 0

def TakeFor.tasks : TakeFor → Nat
  | .canceled _ | .pollClosed _ | .pollOutput _ => 1
  | _ => 0

/-- A method of the `Task` that still owns it. -/
def Pc.tasks : Pc → Nat
  | .schedule k | .scheduleCall k | .scheduleReturn k | .scheduleAbort k
  | .dropWaker k | .dropWakerStore k | .dropRef k | .destroy k => k.tasks
  | .takeOr f | .takeCell f | .takeAnd f _ | .notifyWake f _ => f.tasks
  | .cancelLoad _ | .cancelLoop _ _ | .detachFast | .detachLoop _ | .detachRead _
  | .pollLoad _ | .pollLoop _ _ | .pollReload _ _ | .pollRead
  | .registerLoad _ _ | .registerLoop _ _ _ | .registerWrite _ _ _ | .registerCheck _ _ _ _
  | .registerSwap _ _ _ _ | .registerWake _ _ _ => 1
  | _ => 0

/-- A call that found no reference and no `Task` left and finishes the task off. -/
def Pc.ending : Pc → Nat
  | .dropWakerStore _ | .destroy _ => 1
  | _ => 0

attribute [local simp] Pc.refs Pc.tokens Pc.runs Pc.tasks Pc.ending Pc.borrows Pc.polls

/-- The state word is exact. -/
@[mk_iff]
structure Counted (sized : Bool) (sh : Shared) (calls : Multiset Pc) : Prop where
  refs : sh.word.refs = sh.wakers + sh.runnables + total (Pc.refs sized) calls
  token : sh.runnables + total Pc.tokens calls =
    if sh.word.scheduled = true ∧ sh.word.running = false then 1 else 0
  running : total Pc.runs calls = if sh.word.running = true then 1 else 0
  task : (if sh.handle = .idle then 1 else 0) + total Pc.tasks calls =
    if sh.word.task = true then 1 else 0
  ending : sh.destroys + total Pc.ending calls =
    if sh.word.refs = 0 ∧ sh.word.task = false then 1 else 0
  ofWaker : 0 < total (Pc.borrows .waker) calls → 0 < sh.wakers
  ofRunnable : 0 < total (Pc.borrows .runnable) calls → 0 < sh.runnables
  ofContext : 0 < total (Pc.borrows .context) calls → 0 < total Pc.polls calls

theorem tokens_le_refs (sized : Bool) (calls : Multiset Pc) :
    total Pc.tokens calls ≤ total (Pc.refs sized) calls := by
  apply total_le_total
  intro pc
  cases pc <;> simp [Pc.tokens, Pc.refs]

theorem runs_le_refs (sized : Bool) (calls : Multiset Pc) :
    total Pc.runs calls ≤ total (Pc.refs sized) calls := by
  apply total_le_total
  intro pc
  cases pc <;> simp [Pc.runs, Pc.refs]

theorem polls_le_runs (calls : Multiset Pc) : total Pc.polls calls ≤ total Pc.runs calls := by
  apply total_le_total
  intro pc
  cases pc <;> simp [Pc.polls, Pc.runs]

/-! ## One access of a call -/

section Exec

variable {sized : Bool} {sh sh' : Shared} {c : Choice} {pc : Pc} {n : Next} {rest : Multiset Pc}

/-- What is borrowed is referred to. -/
theorem Counted.refs_pos {b : Borrow} (h : Counted sized sh rest)
    (hb : 0 < total (Pc.borrows b) rest) : 0 < sh.word.refs := by
  have hrefs := h.refs
  have hpolls := polls_le_runs rest
  have hruns := runs_le_refs sized rest
  cases b with
  | waker =>
    have := h.ofWaker hb
    omega
  | runnable =>
    have := h.ofRunnable hb
    omega
  | context =>
    have := h.ofContext hb
    omega

theorem WakeBy.holds (k : WakeBy) : 0 < k.refs ∨ ∃ b, 0 < k.borrows b := by
  cases k with
  | ref b => exact .inr ⟨b, by simp [WakeBy.borrows]⟩
  | val => exact .inl Nat.one_pos

theorem WakeRefMoves.holds (sized : Bool) (hm : WakeRefMoves sh pc n) :
    0 < pc.refs sized ∨ ∃ b, 0 < pc.borrows b := by
  cases hm with
  | cloneAbort b | clone b => exact .inr ⟨b, by simp [Pc.borrows]⟩
  | call k => exact .inl (Nat.add_pos_left Nat.one_pos _)
  | load k | retry k | ended k | scheduled k | running k | idle k | returns k =>
    exact WakeBy.holds k

theorem Counted.holds_pos (h : Counted sized sh (pc ::ₘ rest))
    (hpc : 0 < pc.refs sized ∨ ∃ b, 0 < pc.borrows b) : 0 < sh.word.refs := by
  obtain hp | ⟨b, hb⟩ := hpc
  · have hrefs := h.refs
    rw [total_cons] at hrefs
    omega
  · exact h.refs_pos (b := b) (by rw [total_cons]; omega)

/-- The part of `Counted` that does not speak of what is borrowed. -/
@[mk_iff]
structure Numbers (sized : Bool) (sh : Shared) (calls : Multiset Pc) : Prop where
  refs : sh.word.refs = sh.wakers + sh.runnables + total (Pc.refs sized) calls
  token : sh.runnables + total Pc.tokens calls =
    if sh.word.scheduled = true ∧ sh.word.running = false then 1 else 0
  running : total Pc.runs calls = if sh.word.running = true then 1 else 0
  task : (if sh.handle = .idle then 1 else 0) + total Pc.tasks calls =
    if sh.word.task = true then 1 else 0
  ending : sh.destroys + total Pc.ending calls =
    if sh.word.refs = 0 ∧ sh.word.task = false then 1 else 0

theorem Counted.numbers (h : Counted sized sh rest) : Numbers sized sh rest :=
  ⟨h.refs, h.token, h.running, h.task, h.ending⟩

/-- `Numbers` while a call moves: it has `r` references, `t` tokens, `u` runs, `k` tasks and
`e` endings in hand, and the other calls are `rest`. -/
@[mk_iff]
structure Balanced (sized : Bool) (sh : Shared) (r t u k e : Nat) (rest : Multiset Pc) : Prop where
  refs : sh.word.refs = sh.wakers + sh.runnables + (r + total (Pc.refs sized) rest)
  token : sh.runnables + (t + total Pc.tokens rest) =
    if sh.word.scheduled = true ∧ sh.word.running = false then 1 else 0
  running : u + total Pc.runs rest = if sh.word.running = true then 1 else 0
  task : (if sh.handle = .idle then 1 else 0) + (k + total Pc.tasks rest) =
    if sh.word.task = true then 1 else 0
  ending : sh.destroys + (e + total Pc.ending rest) =
    if sh.word.refs = 0 ∧ sh.word.task = false then 1 else 0

/-- What the call at `pc` has in hand. -/
abbrev Holding (sized : Bool) (sh : Shared) (pc : Pc) (rest : Multiset Pc) : Prop :=
  Balanced sized sh (pc.refs sized) pc.tokens pc.runs pc.tasks pc.ending rest

theorem numbers_cons : Numbers sized sh (pc ::ₘ rest) ↔ Holding sized sh pc rest := by
  simp only [numbers_iff, balanced_iff, total_cons]

section Balanced

variable {r t u k e : Nat}

theorem Balanced.goesOn (h : Holding sized sh pc rest) : Numbers sized sh (resume (some pc) rest) :=
  numbers_cons.mpr h

theorem Balanced.returns (h : Balanced sized sh 0 0 0 0 0 rest) :
    Numbers sized sh (resume none rest) := by
  simp only [balanced_iff, Nat.zero_add] at h
  exact (numbers_iff _ _ _).mpr h

theorem not_last {n : Nat} {task : Bool} (h : 0 < n ∨ task = true) :
    (if n = 0 ∧ task = false then 1 else 0) = 0 := by
  refine if_neg fun hlast => ?_
  rcases h with hpos | hset
  · exact hpos.ne' hlast.1
  · exact Bool.false_ne_true (hlast.2.symm.trans hset)

/-! What a hand tells. -/

theorem Balanced.refs_pos (h : Balanced sized sh (r + 1) t u k e rest) : 0 < sh.word.refs := by
  have hrefs := h.refs
  omega

theorem Balanced.token_held (h : Balanced sized sh r (t + 1) u k e rest) :
    sh.word.scheduled = true ∧ sh.word.running = false := by
  have htoken := h.token
  by_contra hnot
  rw [if_neg hnot] at htoken
  omega

theorem Balanced.run_held (h : Balanced sized sh r t (u + 1) k e rest) :
    sh.word.running = true := by
  have hrunning := h.running
  by_contra hnot
  rw [if_neg hnot] at hrunning
  omega

theorem Balanced.task_held (h : Balanced sized sh r t u (k + 1) e rest) :
    sh.word.task = true ∧ sh.handle ≠ .idle := by
  have htask := h.task
  split at htask
  · split at htask <;> omega
  · rename_i hhandle
    split at htask
    · rename_i hset
      exact ⟨hset, hhandle⟩
    · omega

theorem Balanced.ending_held (h : Balanced sized sh r t u k (e + 1) rest) :
    sh.word.refs = 0 ∧ sh.word.task = false := by
  have hending := h.ending
  by_contra hnot
  rw [if_neg hnot] at hending
  omega

/-- Nobody has a task that nobody refers to. -/
theorem Balanced.deserted (h : Balanced sized sh r t u k e rest) (hrefs : sh.word.refs = 0) :
    sh.wakers = 0 ∧ sh.runnables = 0 ∧ total (Pc.refs sized) rest = 0 ∧
      total Pc.tokens rest = 0 ∧ total Pc.runs rest = 0 := by
  have hall := h.refs
  have htokens := tokens_le_refs sized rest
  have hruns := runs_le_refs sized rest
  omega

theorem Balanced.deserted_idle (h : Balanced sized sh 0 0 0 k e rest)
    (hrefs : sh.word.refs = 0) : sh.word.scheduled = false ∧ sh.word.running = false := by
  obtain ⟨-, hrunnables, -, htokens, hruns⟩ := h.deserted hrefs
  have hr : sh.word.running = false := by
    by_contra hset
    have hrunning := h.running
    rw [if_pos (Bool.not_eq_false _ ▸ hset)] at hrunning
    omega
  have hs : sh.word.scheduled = false := by
    by_contra hset
    have htoken := h.token
    rw [if_pos ⟨Bool.not_eq_false _ ▸ hset, hr⟩] at htoken
    omega
  exact ⟨hs, hr⟩

/-! What a step does to a hand. -/

/-- What `Numbers` reads of the task. -/
def Shared.counts (sh : Shared) : Nat × Bool × Bool × Bool × Nat × Nat × Handle × Nat :=
  (sh.word.refs, sh.word.scheduled, sh.word.running, sh.word.task, sh.wakers, sh.runnables,
    sh.handle, sh.destroys)

theorem Balanced.congr (h : Balanced sized sh r t u k e rest) (hsh : sh'.counts = sh.counts) :
    Balanced sized sh' r t u k e rest := by
  simp only [Shared.counts, Prod.mk.injEq] at hsh
  simpa only [balanced_iff, hsh] using h

theorem Balanced.acquire (h : Balanced sized sh r t u k e rest)
    (hlive : 0 < sh.word.refs ∨ sh.word.task = true) :
    Balanced sized { sh with word := { sh.word with refs := sh.word.refs + 1 } }
      (1 + r) t u k e rest :=
  { h with
    refs := by
      have hrefs := h.refs
      dsimp only
      omega
    ending := (h.ending.trans (not_last hlive)).trans (not_last (.inl (Nat.succ_pos _))).symm }

theorem Balanced.release (h : Balanced sized sh (r + 1) t u k e rest)
    (hkept : ¬(sh.word.refs - 1 = 0 ∧ sh.word.task = false)) :
    Balanced sized { sh with word := { sh.word with refs := sh.word.refs - 1 } }
      r t u k e rest :=
  { h with
    refs := by
      have hrefs := h.refs
      dsimp only
      omega
    ending := (h.ending.trans (not_last (.inl h.refs_pos))).trans (if_neg hkept).symm }

/-- The last reference to a task without `Task` is given up. -/
theorem Balanced.releaseLast (h : Balanced sized sh (r + 1) t u k e rest)
    (hrefs : sh.word.refs - 1 = 0) (htask : sh.word.task = false) :
    Balanced sized { sh with word := { sh.word with refs := sh.word.refs - 1 } }
      r t u k (e + 1) rest :=
  { h with
    refs := by
      have hrefs := h.refs
      dsimp only
      omega
    ending := by
      have hending := h.ending.trans (not_last (.inl h.refs_pos))
      rw [if_pos ⟨hrefs, htask⟩]
      dsimp only
      omega }

theorem Balanced.destroy (h : Balanced sized sh r t u k (e + 1) rest) :
    Balanced sized { sh with destroys := sh.destroys + 1 } r t u k e rest :=
  { h with
    ending := by
      have hending := h.ending
      dsimp only
      omega }

theorem Balanced.giveWaker (h : Balanced sized sh (1 + r) t u k e rest) :
    Balanced sized { sh with wakers := sh.wakers + 1 } r t u k e rest :=
  { h with
    refs := by
      have hrefs := h.refs
      dsimp only
      omega }

theorem Balanced.giveRunnable (h : Balanced sized sh (1 + r) (t + 1) u k e rest) :
    Balanced sized { sh with runnables := sh.runnables + 1 } r t u k e rest :=
  { h with
    refs := by
      have hrefs := h.refs
      dsimp only
      omega
    token := by
      have htoken := h.token
      dsimp only
      omega }

theorem Balanced.schedule (h : Balanced sized sh r t u k e rest) (hs : sh.word.scheduled = false)
    (hr : sh.word.running = false) :
    Balanced sized { sh with word := { sh.word with scheduled := true } } r (t + 1) u k e rest :=
  { h with
    token := by
      have htoken := h.token
      rw [if_neg (by simp [hs])] at htoken
      rw [if_pos ⟨rfl, hr⟩]
      dsimp only
      omega }

/-- A task that is polled keeps the note that it was woken. -/
theorem Balanced.note (h : Balanced sized sh r t u k e rest) (hr : sh.word.running = true) :
    Balanced sized { sh with word := { sh.word with scheduled := true } } r t u k e rest :=
  { h with
    token := by
      have htoken := h.token
      rw [if_neg (by simp [hr])] at htoken ⊢
      exact htoken }

theorem Balanced.unschedule (h : Balanced sized sh r (t + 1) u k e rest) :
    Balanced sized { sh with word := { sh.word with scheduled := false } } r t u k e rest :=
  { h with
    token := by
      have htoken := h.token
      rw [if_pos h.token_held] at htoken
      rw [if_neg (by simp)]
      dsimp only
      omega }

theorem Balanced.beginRun (h : Balanced sized sh r (t + 1) u k e rest) :
    Balanced sized { sh with word := { sh.word with scheduled := false, running := true } }
      r t (u + 1) k e rest :=
  { h with
    token := by
      have htoken := h.token
      rw [if_pos h.token_held] at htoken
      rw [if_neg (by simp)]
      dsimp only
      omega
    running := by
      have hrunning := h.running
      rw [if_neg (by simp [h.token_held.2])] at hrunning
      rw [if_pos rfl]
      omega }

theorem Balanced.endRun (h : Balanced sized sh r t (u + 1) k e rest) :
    Balanced sized { sh with word := { sh.word with running := false, scheduled := false } }
      r t u k e rest :=
  { h with
    token := by
      have htoken := h.token
      rw [if_neg (by simp [h.run_held])] at htoken
      rw [if_neg (by simp)]
      exact htoken
    running := by
      have hrunning := h.running
      rw [if_pos h.run_held] at hrunning
      rw [if_neg (by simp)]
      omega }

/-- The task was woken while it was polled: the runner has the `Runnable` again. -/
theorem Balanced.runAgain (h : Balanced sized sh r t (u + 1) k e rest)
    (hs : sh.word.scheduled = true) :
    Balanced sized { sh with word := { sh.word with running := false } } r (t + 1) u k e rest :=
  { h with
    token := by
      have htoken := h.token
      rw [if_neg (by simp [h.run_held])] at htoken
      rw [if_pos ⟨hs, rfl⟩]
      dsimp only
      omega
    running := by
      have hrunning := h.running
      rw [if_pos h.run_held] at hrunning
      rw [if_neg (by simp)]
      omega }

theorem Balanced.runIdle (h : Balanced sized sh r t (u + 1) k e rest)
    (hs : sh.word.scheduled = false) :
    Balanced sized { sh with word := { sh.word with running := false } } r t u k e rest :=
  h.endRun.congr (by simp only [Shared.counts, hs])

theorem Balanced.returnTask (h : Balanced sized sh r t u (k + 1) e rest) :
    Balanced sized { sh with handle := .idle } r t u k e rest :=
  { h with
    task := by
      have htask := h.task
      rw [if_neg h.task_held.2] at htask
      rw [if_pos rfl]
      dsimp only
      omega }

theorem Balanced.detach (h : Balanced sized sh r t u (k + 1) e rest) (hrefs : sh.word.refs ≠ 0) :
    Balanced sized { sh with word := { sh.word with task := false }, handle := .gone }
      r t u k e rest :=
  { h with
    task := by
      have htask := h.task
      rw [if_pos h.task_held.1] at htask
      rw [if_neg (by simp), if_neg (by simp)]
      omega
    ending := (h.ending.trans (not_last (.inr h.task_held.1))).trans
      (if_neg fun hlast => hrefs hlast.1).symm }

theorem Balanced.detachLast (h : Balanced sized sh r t u (k + 1) e rest)
    (hrefs : sh.word.refs = 0) :
    Balanced sized { sh with word := { sh.word with task := false }, handle := .gone }
      r t u k (e + 1) rest :=
  { h with
    task := by
      have htask := h.task
      rw [if_pos h.task_held.1] at htask
      rw [if_neg (by simp), if_neg (by simp)]
      omega
    ending := by
      have hending := h.ending.trans (not_last (.inr h.task_held.1))
      rw [if_pos ⟨hrefs, rfl⟩]
      dsimp only
      omega }

/-- Nobody refers to the task, and it is scheduled a last time. -/
theorem Balanced.lastRun (h : Balanced sized sh 0 0 0 k (e + 1) rest) :
    Balanced sized { sh with word := .lastRun } 1 1 0 k e rest := by
  obtain ⟨hrefs, htask⟩ := h.ending_held
  obtain ⟨hwakers, hrunnables, href, htokens, hruns⟩ := h.deserted hrefs
  have hending := h.ending
  rw [if_pos ⟨hrefs, htask⟩] at hending
  constructor
  case refs => simp [Word.lastRun, hwakers, hrunnables, href]
  case token => simp [Word.lastRun, hrunnables, htokens]
  case running => simp [Word.lastRun, hruns]
  case task =>
    have howned := h.task
    rw [htask] at howned
    exact howned
  case ending =>
    rw [if_neg (by simp [Word.lastRun])]
    dsimp only
    omega

theorem Balanced.detachToRun (h : Balanced sized sh 0 0 0 (k + 1) e rest)
    (hrefs : sh.word.refs = 0) :
    Balanced sized { sh with word := .lastRun, handle := .gone } 1 1 0 k e rest :=
  (h.detachLast hrefs).lastRun

/-! What the functions that end an operation make of a hand. -/

theorem Balanced.afterCancel (dropping : Bool) (h : Balanced sized sh 0 0 0 1 0 rest) :
    Numbers sized (afterCancel sh dropping).2 (resume (afterCancel sh dropping).1 rest) := by
  cases dropping with
  | true => exact Balanced.goesOn h
  | false => exact Balanced.returns h.returnTask

theorem Balanced.finish (c : Cont) (h : Balanced sized sh 0 0 0 c.tasks 0 rest) :
    Numbers sized (finish sh c).2 (resume (finish sh c).1 rest) := by
  cases c with
  | ret | detached => exact Balanced.returns h
  | wakeAwaiter w => exact Balanced.goesOn h
  | canceled awaiter dropping =>
    cases awaiter with
    | true => exact Balanced.goesOn h
    | false => exact Balanced.afterCancel dropping h

theorem Balanced.finishWakeRef (k : WakeBy) (h : Balanced sized sh k.refs 0 0 0 0 rest) :
    Numbers sized (finishWakeRef sh k).2 (resume (finishWakeRef sh k).1 rest) := by
  cases k with
  | ref b => exact Balanced.returns h
  | val => exact Balanced.goesOn h

theorem Balanced.finishRun (awaiter : Bool) (h : Balanced sized sh 1 0 0 0 0 rest) :
    Numbers sized (finishRun sh awaiter).2 (resume (finishRun sh awaiter).1 rest) := by
  cases awaiter <;> exact Balanced.goesOn h

theorem Balanced.notifyDone (f : TakeFor) (h : Balanced sized sh f.refs 0 0 f.tasks 0 rest) :
    Numbers sized (notifyDone sh f).2 (resume (notifyDone sh f).1 rest) := by
  cases f with
  | runner | runnable | pollOutput => exact Balanced.goesOn h
  | canceled dropping => exact Balanced.afterCancel dropping h
  | pollClosed w => exact Balanced.returns (h.returnTask.congr rfl)

theorem Balanced.takeDone (f : TakeFor) (got : Option Waker)
    (h : Balanced sized sh f.refs 0 0 f.tasks 0 rest) :
    Numbers sized (takeDone sh f got).2 (resume (takeDone sh f got).1 rest) := by
  unfold Task.takeDone
  split
  · exact Balanced.goesOn h
  · exact Balanced.goesOn h
  · exact Balanced.goesOn h
  · exact Balanced.notifyDone f h

end Balanced

/-! The moves. -/

variable {n : Next}

theorem numbers_wakeRef (hpos : 0 < sh.word.refs) (h : Holding sized sh pc rest)
    (hm : WakeRefMoves sh pc n) : Numbers sized n.2 (resume n.1 rest) := by
  cases hm with
  | cloneAbort b => exact Balanced.goesOn (h.acquire (.inl hpos))
  | clone b => exact Balanced.returns (h.acquire (.inl hpos)).giveWaker
  | load k | retry k => exact Balanced.goesOn h
  | ended k | returns k => exact Balanced.finishWakeRef k h
  | scheduled k hs => exact Balanced.finishWakeRef k (h.congr rfl)
  | running k _ _ hr => exact Balanced.finishWakeRef k ((h.note hr).congr rfl)
  | idle k pc' _ _ hs hr hpc' =>
    have hnew := (h.acquire (.inl hpos)).schedule hs hr
    rcases hpc' with rfl | rfl
    · exact Balanced.goesOn (hnew.congr rfl)
    · exact Balanced.goesOn (hnew.congr rfl)
  | call k => exact Balanced.goesOn (Balanced.giveRunnable h)

theorem numbers_wake (h : Holding sized sh pc rest) (hm : WakeMoves sized sh pc n) :
    Numbers sized n.2 (resume n.1 rest) := by
  cases hm with
  | load | retry | ended => exact Balanced.goesOn h
  | scheduled => exact Balanced.goesOn (h.congr rfl)
  | running _ _ hr => exact Balanced.goesOn ((h.note hr).congr rfl)
  | idle _ _ hs hr => exact Balanced.goesOn ((h.schedule hs hr).congr rfl)
  | acquire k pc' hsized hpc' =>
    subst hsized
    rcases hpc' with rfl | rfl
    · exact Balanced.goesOn (h.acquire (.inl h.refs_pos))
    · exact Balanced.goesOn (h.acquire (.inl h.refs_pos))
  | pass k hsized =>
    subst hsized
    exact Balanced.goesOn h
  | call k => exact Balanced.goesOn (Balanced.giveRunnable h)
  | release k hsized =>
    subst hsized
    exact Balanced.goesOn h
  | returns k hsized =>
    subst hsized
    exact Balanced.finish k h

theorem numbers_drop (h : Holding sized sh pc rest) (hm : DropMoves sh pc n) :
    Numbers sized n.2 (resume n.1 rest) := by
  cases hm with
  | toStore k hrefs htask | wakerLast k hrefs htask | refLast k hrefs htask =>
    exact Balanced.goesOn (h.releaseLast hrefs htask)
  | waker k hkept | ref k hkept => exact Balanced.finish k (h.release hkept)
  | store k => exact Balanced.goesOn h.lastRun
  | destroy k => exact Balanced.finish k h.destroy
  | wakeAwaiter w => exact Balanced.returns (h.congr rfl)

theorem numbers_take (h : Holding sized sh pc rest) (hm : TakeMoves sh pc n) :
    Numbers sized n.2 (resume n.1 rest) := by
  cases hm with
  | won f | cell f => exact Balanced.goesOn (h.congr rfl)
  | lost f => exact Balanced.takeDone f none (h.congr rfl)
  | release f got => exact Balanced.takeDone f (keep f got) (h.congr rfl)
  | wake f w => exact Balanced.notifyDone f (h.congr rfl)

theorem numbers_run (h : Holding sized sh pc rest) (hm : RunMoves sh pc n) :
    Numbers sized n.2 (resume n.1 rest) := by
  cases hm with
  | load | retry | closed | pending | panic | readyRetry => exact Balanced.goesOn h
  | closedDrop | ready | readyDrop | readyWrite => exact Balanced.goesOn (h.congr rfl)
  | poll => exact Balanced.goesOn (h.beginRun.congr rfl)
  | closedAnd => exact Balanced.finishRun _ h.unschedule
  | unclaimed => exact Balanced.goesOn (h.endRun.congr rfl)
  | completed => exact Balanced.finishRun _ (h.endRun.congr rfl)
  | dropOutput awaiter => exact Balanced.finishRun awaiter (h.congr rfl)

theorem numbers_pending (h : Holding sized sh pc rest) (hm : PendingMoves sh pc n) :
    Numbers sized n.2 (resume n.1 rest) := by
  cases hm with
  | closed | retry => exact Balanced.goesOn h
  | ended => exact Balanced.finishRun _ h.endRun
  | again _ _ hs => exact Balanced.goesOn (h.runAgain hs)
  | idle _ _ hs => exact Balanced.goesOn (h.runIdle hs)
  | drop => exact Balanced.goesOn (h.congr rfl)

theorem numbers_guard (h : Holding sized sh pc rest) (hm : GuardMoves sh pc n) :
    Numbers sized n.2 (resume n.1 rest) := by
  cases hm with
  | load | retry | closed => exact Balanced.goesOn h
  | close => exact Balanced.goesOn (h.endRun.congr rfl)
  | closedDrop => exact Balanced.goesOn (h.congr rfl)
  | closedAnd state => exact Balanced.finishRun _ h.endRun
  | drop awaiter => exact Balanced.finishRun awaiter (h.congr rfl)

theorem numbers_runnable (h : Holding sized sh pc rest) (hm : RunnableMoves sh pc n) :
    Numbers sized n.2 (resume n.1 rest) := by
  cases hm with
  | load | retry | ended => exact Balanced.goesOn h
  | close | drop => exact Balanced.goesOn (h.congr rfl)
  | notify | release => exact Balanced.goesOn h.unschedule

theorem numbers_task (h : Holding sized sh pc rest) (hm : TaskMoves sh pc n) :
    Numbers sized n.2 (resume n.1 rest) := by
  cases hm with
  | load | retry | missed | again => exact Balanced.goesOn h
  | ended dropping => exact Balanced.afterCancel dropping h
  | closeNotify | claim | read => exact Balanced.goesOn (h.congr rfl)
  | close dropping => exact Balanced.afterCancel dropping (h.congr rfl)
  | closeIdle dropping _ _ hs hr =>
    have hnew := (h.acquire (.inr h.task_held.1)).schedule hs hr
    exact Balanced.goesOn (hnew.congr rfl)
  | fast hspawned => exact Balanced.returns (h.detach (by simp [hspawned, Word.spawned]))
  | lastRun hrefs => exact Balanced.goesOn (h.detachToRun hrefs)
  | destroy hrefs => exact Balanced.goesOn (h.detachLast hrefs)
  | detach hrefs => exact Balanced.returns (h.detach hrefs)

theorem numbers_poll (h : Holding sized sh pc rest) (hm : PollMoves sh pc n) :
    Numbers sized n.2 (resume n.1 rest) := by
  cases hm with
  | load | wait | retry | waitOpen | seenOpen => exact Balanced.goesOn h
  | closed | claimNotify | claim | seenClosed => exact Balanced.goesOn (h.congr rfl)
  | pendingClosed | pendingOpen | read => exact Balanced.returns (h.returnTask.congr rfl)

theorem numbers_register (h : Holding sized sh pc rest) (hm : RegisterMoves sh pc n) :
    Numbers sized n.2 (resume n.1 rest) := by
  cases hm with
  | load | retry | leave | recheck => exact Balanced.goesOn h
  | wakeOwn | lock | write | takeBack | store | unlock | wake => exact Balanced.goesOn (h.congr rfl)

theorem numbers_exec (hpos : 0 < pc.refs sized ∨ (∃ b, 0 < pc.borrows b) → 0 < sh.word.refs)
    (h : Numbers sized sh (pc ::ₘ rest)) (he : exec sized sh c pc = some n) :
    Numbers sized n.2 (resume n.1 rest) := by
  have h := numbers_cons.mp h
  rcases moves_of_exec he with hm | hm | hm | hm | hm | hm | hm | hm | hm | hm | hm
  · exact numbers_wakeRef (hpos (hm.holds sized)) h hm
  · exact numbers_wake h hm
  · exact numbers_drop h hm
  · exact numbers_take h hm
  · exact numbers_run h hm
  · exact numbers_pending h hm
  · exact numbers_guard h hm
  · exact numbers_runnable h hm
  · exact numbers_task h hm
  · exact numbers_poll h hm
  · exact numbers_register h hm

/-- No access borrows, and no access uses up a handle. -/
def Keeps (sh : Shared) (pc : Pc) (n : Next) : Prop :=
  (∀ b, n.1.elim 0 (Pc.borrows b) ≤ pc.borrows b) ∧
    sh.wakers ≤ n.2.wakers ∧ sh.runnables ≤ n.2.runnables

theorem keeps_free (hn : ∀ b, n.1.elim 0 (Pc.borrows b) = 0) (hw : sh.wakers ≤ n.2.wakers)
    (hr : sh.runnables ≤ n.2.runnables) : Keeps sh pc n :=
  ⟨fun b => (hn b).trans_le (Nat.zero_le _), hw, hr⟩

theorem keeps_finish (k : Cont) (hw : sh.wakers ≤ sh'.wakers) (hr : sh.runnables ≤ sh'.runnables) :
    Keeps sh pc (finish sh' k) := by
  apply finish_of
  case hwake | htake => exact fun _ => keeps_free (fun _ => rfl) hw hr
  all_goals exact keeps_free (fun _ => rfl) hw hr

theorem keeps_takeDone (f : TakeFor) (got : Option Waker) (hw : sh.wakers ≤ sh'.wakers)
    (hr : sh.runnables ≤ sh'.runnables) : Keeps sh pc (takeDone sh' f got) := by
  apply takeDone_of
  case hwake | hnotify => exact fun _ => keeps_free (fun _ => rfl) hw hr
  all_goals exact keeps_free (fun _ => rfl) hw hr

theorem keeps_finishRun (awaiter : Bool) (hw : sh.wakers ≤ sh'.wakers)
    (hr : sh.runnables ≤ sh'.runnables) : Keeps sh pc (finishRun sh' awaiter) := by
  apply finishRun_of
  all_goals exact keeps_free (fun _ => rfl) hw hr

theorem keeps_wakeRef (hm : WakeRefMoves sh pc n) : Keeps sh pc n := by
  cases hm with
  | cloneAbort | load | retry => exact ⟨fun _ => le_rfl, le_rfl, le_rfl⟩
  | call => exact ⟨fun _ => le_rfl, le_rfl, Nat.le_succ _⟩
  | clone => exact keeps_free (fun _ => rfl) (Nat.le_succ _) le_rfl
  | ended k | scheduled k | running k | returns k =>
    apply finishWakeRef_of
    · exact keeps_free (fun _ => rfl) le_rfl le_rfl
    · exact keeps_free (fun _ => rfl) le_rfl le_rfl
  | idle k pc' _ _ _ _ hpc' =>
    rcases hpc' with rfl | rfl
    · exact ⟨fun _ => le_rfl, le_rfl, le_rfl⟩
    · exact ⟨fun _ => le_rfl, le_rfl, le_rfl⟩

theorem keeps_exec (he : exec sized sh c pc = some n) : Keeps sh pc n := by
  rcases moves_of_exec he with hm | hm | hm | hm | hm | hm | hm | hm | hm | hm | hm
  · exact keeps_wakeRef hm
  · cases hm with
    | acquire k pc' _ hpc' =>
      rcases hpc' with rfl | rfl
      · exact keeps_free (fun _ => rfl) le_rfl le_rfl
      · exact keeps_free (fun _ => rfl) le_rfl le_rfl
    | call => exact keeps_free (fun _ => rfl) le_rfl (Nat.le_succ _)
    | returns k => exact keeps_finish k le_rfl le_rfl
    | _ => exact keeps_free (fun _ => rfl) le_rfl le_rfl
  · cases hm with
    | waker k | ref k | destroy k => exact keeps_finish k le_rfl le_rfl
    | _ => exact keeps_free (fun _ => rfl) le_rfl le_rfl
  · cases hm with
    | lost f => exact keeps_takeDone f none le_rfl le_rfl
    | release f got => exact keeps_takeDone f (keep f got) le_rfl le_rfl
    | wake f w =>
      apply notifyDone_of
      all_goals exact keeps_free (fun _ => rfl) le_rfl le_rfl
    | won | cell => exact keeps_free (fun _ => rfl) le_rfl le_rfl
  · cases hm with
    | closedAnd => exact keeps_finishRun _ le_rfl le_rfl
    | completed => exact keeps_finishRun _ le_rfl le_rfl
    | dropOutput awaiter => exact keeps_finishRun awaiter le_rfl le_rfl
    | _ => exact keeps_free (fun _ => rfl) le_rfl le_rfl
  · cases hm with
    | ended => exact keeps_finishRun _ le_rfl le_rfl
    | _ => exact keeps_free (fun _ => rfl) le_rfl le_rfl
  · cases hm with
    | closedAnd state => exact keeps_finishRun _ le_rfl le_rfl
    | drop awaiter => exact keeps_finishRun awaiter le_rfl le_rfl
    | _ => exact keeps_free (fun _ => rfl) le_rfl le_rfl
  · cases hm with
    | _ => exact keeps_free (fun _ => rfl) le_rfl le_rfl
  · cases hm with
    | ended dropping | close dropping =>
      apply afterCancel_of
      · exact keeps_free (fun _ => rfl) le_rfl le_rfl
      · exact keeps_free (fun _ => rfl) le_rfl le_rfl
    | _ => exact keeps_free (fun _ => rfl) le_rfl le_rfl
  · cases hm with
    | _ => exact keeps_free (fun _ => rfl) le_rfl le_rfl
  · cases hm with
    | _ => exact keeps_free (fun _ => rfl) le_rfl le_rfl

theorem Numbers.counted (h : Numbers sized n.2 (resume n.1 rest))
    (hold : Counted sized sh (pc ::ₘ rest))
    (hready : pc.polls = 1 → total (Pc.borrows .context) (pc ::ₘ rest) = 0)
    (he : exec sized sh c pc = some n) : Counted sized n.2 (resume n.1 rest) := by
  obtain ⟨hborrows, hwakers, hrunnables⟩ := keeps_exec he
  have hlent (b : Borrow) :
      total (Pc.borrows b) (resume n.1 rest) ≤ total (Pc.borrows b) (pc ::ₘ rest) := by
    rw [total_resume, total_cons]
    exact Nat.add_le_add_right (hborrows b) _
  refine ⟨h.refs, h.token, h.running, h.task, h.ending, fun hb => ?_, fun hb => ?_, fun hb => ?_⟩
  · exact (hold.ofWaker (hb.trans_le (hlent _))).trans_le hwakers
  · exact (hold.ofRunnable (hb.trans_le (hlent _))).trans_le hrunnables
  · -- a poll that ends lends its context to nobody
    have hb' := hb.trans_le (hlent _)
    have hpolls : pc.polls = 0 := by
      by_contra hp
      have hone : pc.polls = 1 := by
        revert hp
        cases pc <;> simp [Pc.polls]
      exact absurd (hready hone) hb'.ne'
    have hcontext := hold.ofContext hb'
    rw [total_cons, hpolls, Nat.zero_add] at hcontext
    rw [total_resume]
    exact Nat.add_pos_right _ hcontext

theorem counted_exec (h : Counted sized sh (pc ::ₘ rest))
    (hready : pc.polls = 1 → total (Pc.borrows .context) (pc ::ₘ rest) = 0)
    (he : exec sized sh c pc = some n) : Counted sized n.2 (resume n.1 rest) :=
  (numbers_exec h.holds_pos h.numbers he).counted h hready he

end Exec

/-! ## Whole runs -/

section Run

variable {sized : Bool} {s t : Sys} {a : Act} {pc : Pc} {sh : Shared}

theorem numbers_hand : Numbers sized s.sh s.calls ↔ Balanced sized s.sh 0 0 0 0 0 s.calls := by
  simp only [numbers_iff, balanced_iff, Nat.zero_add]

theorem Balanced.takeWaker (h : Balanced sized s.sh 0 0 0 0 0 s.calls) (hw : 0 < s.sh.wakers) :
    Balanced sized { s.sh with wakers := s.sh.wakers - 1 } 1 0 0 0 0 s.calls :=
  { h with
    refs := by
      have hrefs := h.refs
      dsimp only
      omega }

theorem Balanced.takeRunnable (h : Balanced sized s.sh 0 0 0 0 0 s.calls)
    (hr : 0 < s.sh.runnables) :
    Balanced sized { s.sh with runnables := s.sh.runnables - 1 } 1 1 0 0 0 s.calls :=
  { h with
    refs := by
      have hrefs := h.refs
      dsimp only
      omega
    token := by
      have htoken := h.token
      dsimp only
      omega }

theorem Balanced.takeTask (h : Balanced sized s.sh 0 0 0 0 0 s.calls)
    (hidle : s.sh.handle = .idle) :
    Balanced sized { s.sh with handle := .busy } 0 0 0 1 0 s.calls :=
  { h with
    task := by
      have htask := h.task
      rw [if_pos hidle] at htask
      rw [if_neg (by simp)]
      dsimp only
      omega }

/-- A call that starts on a handle that is lent to it. -/
theorem Counted.lend {b : Borrow} (h : Counted sized s.sh s.calls) (hlends : lends s b)
    (hn : Holding sized s.sh pc s.calls) (hb : ∀ b', pc.borrows b' = if b = b' then 1 else 0) :
    Counted sized s.sh (pc ::ₘ s.calls) := by
  have hn := numbers_cons.mpr hn
  refine ⟨hn.refs, hn.token, hn.running, hn.task, hn.ending, fun hpos => ?_, fun hpos => ?_,
    fun hpos => ?_⟩
  all_goals rw [total_cons, hb] at hpos
  · by_cases hw : b = .waker
    · subst hw
      exact hlends
    · rw [if_neg hw, Nat.zero_add] at hpos
      exact h.ofWaker hpos
  · by_cases hr : b = .runnable
    · subst hr
      exact hlends
    · rw [if_neg hr, Nat.zero_add] at hpos
      exact h.ofRunnable hpos
  · rw [total_cons]
    by_cases hc : b = .context
    · subst hc
      exact Nat.add_pos_right _ hlends
    · rw [if_neg hc, Nat.zero_add] at hpos
      exact Nat.add_pos_right _ (h.ofContext hpos)

/-- A call that starts with a handle of its own. -/
theorem Counted.begin (h : Counted sized s.sh s.calls) (hn : Holding sized sh pc s.calls)
    (hb : ∀ b, pc.borrows b = 0)
    (hw : total (Pc.borrows .waker) s.calls = 0 ∨ 1 < s.sh.wakers ∨ sh.wakers = s.sh.wakers)
    (hr : total (Pc.borrows .runnable) s.calls = 0 ∨ 1 < s.sh.runnables ∨
      sh.runnables = s.sh.runnables)
    (hwakers : s.sh.wakers - 1 ≤ sh.wakers) (hrunnables : s.sh.runnables - 1 ≤ sh.runnables) :
    Counted sized sh (pc ::ₘ s.calls) := by
  have hn := numbers_cons.mpr hn
  refine ⟨hn.refs, hn.token, hn.running, hn.task, hn.ending, fun hpos => ?_, fun hpos => ?_,
    fun hpos => ?_⟩
  all_goals rw [total_cons, hb, Nat.zero_add] at hpos
  · have hlive := h.ofWaker hpos
    omega
  · have hlive := h.ofRunnable hpos
    omega
  · rw [total_cons]
    exact Nat.add_pos_right _ (h.ofContext hpos)

theorem counted_start {op : Op} (h : Counted sized s.sh s.calls)
    (hs : start sized s op = some (pc, sh)) : Counted sized sh (pc ::ₘ s.calls) := by
  have hn := numbers_hand.mp h.numbers
  cases starts_of_start hs with
  | clone b hlends | wakeByRef b hlends => exact h.lend hlends hn fun _ => rfl
  | waker pc hspare hpc =>
    have hn := hn.takeWaker hspare.1
    rcases hpc with rfl | rfl | rfl
    all_goals
      exact h.begin hn (fun _ => rfl) (hspare.2.imp_right .inl) (.inr (.inr rfl)) le_rfl
        (Nat.sub_le _ _)
  | runnable pc hspare hpc =>
    have hn := hn.takeRunnable hspare.1
    rcases hpc with rfl | rfl | rfl
    all_goals
      exact h.begin hn (fun _ => rfl) (.inr (.inr rfl)) (hspare.2.imp_right .inl) (Nat.sub_le _ _)
        le_rfl
  | poll w hidle =>
    exact h.begin ((hn.takeTask hidle).congr rfl) (fun _ => rfl) (.inr (.inr rfl))
      (.inr (.inr rfl)) (Nat.sub_le _ _) (Nat.sub_le _ _)
  | task pc hidle hpc =>
    have hn := hn.takeTask hidle
    rcases hpc with rfl | rfl | rfl
    all_goals
      exact h.begin hn (fun _ => rfl) (.inr (.inr rfl)) (.inr (.inr rfl)) (Nat.sub_le _ _)
        (Nat.sub_le _ _)

theorem counted_step (h : Counted sized s.sh s.calls) (ht : step sized s a = some t) :
    Counted sized t.sh t.calls := by
  obtain ⟨op, pc, sh, rfl, hstart, rfl⟩ | ⟨pc, c, next, sh, rest, rfl, hcalls, hready, hexec, rfl⟩ :=
    step_cases ht
  · exact counted_start h hstart
  · rw [hcalls] at h
    unfold ready at hready
    rw [hcalls] at hready
    exact counted_exec h hready hexec

theorem counted_of_reachable (hs : (system sized).Reachable s) : Counted sized s.sh s.calls := by
  refine hs.invariant (I := fun s => Counted sized s.sh s.calls) ?_ fun s a t => counted_step
  constructor <;> simp [system, spawn, Word.spawned]

end Run

/-! ## The end of the task -/

/-- The next step of the call accesses the header, the future, the output or the
schedule function in the allocation. -/
def Pc.touches : Pc → Bool
  | .cloneAbort _ | .wakeRefReturn _ | .wakeRefAbort _ | .scheduleReturn _ | .scheduleAbort _
  | .wakeAwaiter _ | .notifyWake _ _ | .registerWake _ _ _ => false
  | _ => true

/-- All handles are gone and no call is in progress. -/
def Complete (s : Sys) : Prop :=
  s.sh.wakers = 0 ∧ s.sh.runnables = 0 ∧ s.sh.handle = .gone ∧ s.calls = 0

instance (s : Sys) : Decidable (Complete s) := inferInstanceAs (Decidable (_ ∧ _))

section Destroy

variable {sized : Bool} {s t : Sys} {a : Act}

/-- A call in its allocation holds a reference, owns the `Task`, borrows a handle
or is the one that frees the allocation. -/
theorem touches_holds (sized : Bool) {pc : Pc} (h : pc.touches = true) :
    0 < pc.refs sized ∨ 0 < pc.tasks ∨ 0 < pc.ending ∨ ∃ b, 0 < pc.borrows b := by
  have hself (b : Borrow) : ∃ b', 0 < if b = b' then 1 else 0 := ⟨b, by simp⟩
  have hwake := WakeBy.holds
  have htake (f : TakeFor) : 0 < f.refs ∨ 0 < f.tasks := by
    cases f <;> simp [TakeFor.refs, TakeFor.tasks]
  revert h
  cases pc <;> simp [Pc.touches, Pc.refs, Pc.tasks, Pc.ending, Pc.borrows, hself, hwake, htake]

theorem Counted.destroyed (h : Counted sized s.sh s.calls) (hd : 0 < s.sh.destroys) :
    s.sh.word.refs = 0 ∧ s.sh.word.task = false ∧ s.sh.destroys = 1 ∧
      total Pc.ending s.calls = 0 := by
  have hending := h.ending
  split at hending
  · rename_i hlast
    exact ⟨hlast.1, hlast.2, by omega⟩
  · omega

theorem Counted.handles_gone (h : Counted sized s.sh s.calls) (hrefs : s.sh.word.refs = 0)
    (htask : s.sh.word.task = false) :
    s.sh.wakers = 0 ∧ s.sh.runnables = 0 ∧ s.sh.handle ≠ .idle ∧
      total (Pc.refs sized) s.calls = 0 ∧ total Pc.tasks s.calls = 0 := by
  have href := h.refs
  have hown := h.task
  rw [htask] at hown
  refine ⟨by omega, by omega, fun hidle => ?_, by omega, ?_⟩
  · simp [hidle] at hown
  · simp at hown
    exact hown.2

/-- After `destroy` no call stands in front of an access to the allocation. -/
theorem Counted.untouched (h : Counted sized s.sh s.calls) (hd : 0 < s.sh.destroys) {pc : Pc}
    (hpc : pc ∈ s.calls) : pc.touches = false := by
  obtain ⟨hrefs, htask, -, hending⟩ := h.destroyed hd
  obtain ⟨hw, hr, -, hcrefs, hctasks⟩ := h.handles_gone hrefs htask
  by_contra htouch
  rcases touches_holds sized (Bool.not_eq_false _ ▸ htouch) with hp | hp | hp | ⟨b, hp⟩
  · have := le_total (f := Pc.refs sized) hpc
    omega
  · have := le_total (f := Pc.tasks) hpc
    omega
  · have := le_total (f := Pc.ending) hpc
    omega
  · have hb := le_total (f := Pc.borrows b) hpc
    have := h.refs_pos (b := b) (by omega)
    omega

theorem start_none (hw : s.sh.wakers = 0) (hr : s.sh.runnables = 0) (hh : s.sh.handle ≠ .idle)
    (hp : total Pc.polls s.calls = 0) (op : Op) : start sized s op = none := by
  cases op <;> simp [start, spareWaker, spareRunnable, hw, hr, hh]
  all_goals rename_i b; cases b <;> simp [lends, hw, hr, hp]

theorem Counted.complete (h : Counted sized s.sh s.calls) (hcomplete : Complete s) :
    s.sh.word.refs = 0 ∧ s.sh.destroys = 1 := by
  obtain ⟨hw, hr, hh, hc⟩ := hcomplete
  have hrefs := h.refs
  have htask := h.task
  have hending := h.ending
  rw [hc] at hrefs htask hending
  simp only [total_zero, hw, hr, hh, reduceCtorEq, if_false] at hrefs htask hending
  have hclear : s.sh.word.task = false := by
    by_contra hset
    simp [hset] at htask
  exact ⟨hrefs, by simpa [hrefs, hclear] using hending⟩

/-- The reference field is exact at every point of every run; `destroy` runs
once, when nothing refers to the task any more, and nothing touches the
allocation afterwards. -/
theorem references_exact (hs : (system sized).Reachable s) :
    s.sh.word.refs = s.sh.wakers + s.sh.runnables + total (Pc.refs sized) s.calls ∧
    s.sh.destroys ≤ 1 ∧
    (∀ k, .destroy k ∈ s.calls →
      s.sh.destroys = 0 ∧ s.sh.word.refs = 0 ∧ s.sh.word.task = false) ∧
    (s.sh.destroys = 1 → s.sh.word.refs = 0 ∧ s.sh.word.task = false ∧
      ∀ a t, step sized s a = some t → ∃ pc c, a = .exec pc c ∧ pc.touches = false) ∧
    (Complete s → s.sh.destroys = 1) := by
  have h := counted_of_reachable hs
  refine ⟨h.refs, ?_, ?_, ?_, ?_⟩
  · have hending := h.ending
    split at hending <;> omega
  · intro k hk
    have hle := le_total (f := Pc.ending) hk
    have hending := h.ending
    rw [show (Pc.destroy k).ending = 1 from rfl] at hle
    split at hending
    · rename_i hlast
      exact ⟨by omega, hlast⟩
    · omega
  · intro hd
    have hpos : 0 < s.sh.destroys := by omega
    obtain ⟨hrefs, htask, -, -⟩ := h.destroyed hpos
    obtain ⟨hw, hr, hh, hcrefs, -⟩ := h.handles_gone hrefs htask
    refine ⟨hrefs, htask, fun a t ht => ?_⟩
    obtain ⟨op, pc, sh, rfl, hstart, -⟩ | ⟨pc, c, next, sh, rest, rfl, hcalls, -⟩ := step_cases ht
    · have hpolls := polls_le_runs s.calls
      have hruns := runs_le_refs sized s.calls
      rw [start_none hw hr hh (by omega)] at hstart
      cases hstart
    · exact ⟨pc, c, rfl, h.untouched hpos (by rw [hcalls]; exact Multiset.mem_cons_self _ _)⟩
  · exact fun hcomplete => (h.complete hcomplete).2

/-- The `Task` is dropped, then the `Runnable`: the last reference destroys the task. -/
def dropBoth : List Act :=
  let closed : Word := { Word.spawned with closed := true }
  [.start .dropTask, .exec (.cancelLoad true) .go, .exec (.cancelLoop true .spawned) .go,
   .exec .detachFast .go, .exec (.detachLoop closed) .go,
   .start .dropRunnable, .exec .runnableLoad .go, .exec (.runnableLoop { closed with task := false }) .go,
   .exec .runnableDrop .go, .exec .runnableAnd .go, .exec (.dropRef .ret) .go,
   .exec (.destroy .ret) .go]

theorem references_exact_dropBoth :
    ∃ s, (system true).run dropBoth = some s ∧ Complete s ∧ s.sh.destroys = 1 := by
  obtain ⟨s, hrun, hs, hc⟩ := (system true).exists_of_run (P := Complete) dropBoth (by decide)
  exact ⟨s, hrun, hc, (references_exact hs).2.2.2.2 hc⟩

end Destroy

end Cynthia.Task
