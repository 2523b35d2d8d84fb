import Cynthia.Task.Duties

/-! The future is dropped once and its output is used once, in every run. -/

namespace Cynthia.Task

open Transition Pool

/-! ## Whole runs -/

section Run

variable {sized : Bool} {s t : Sys} {a : Act}

/-- `Bound` when no call moves. -/
theorem Lifetime.at_rest {sh : Shared} {calls : Multiset Pc} (hc : Numbers sized sh calls)
    (h : Lifetime sh calls) : Bound sh .none calls := by
  have howed := h.owed hc
  obtain ⟨hclosing, hstale, hguard, hguards, hcompleted, hstores, hwoken, -, hreadies, hwritten,
    houtput, howner⟩ := h
  constructor
  case woken => exact hwoken
  case owner => exact howner
  all_goals
    simp only [Duties.none, Nat.zero_add]
    assumption

theorem Bound.takeRunnable (h : Bound s.sh .none s.calls) (hr : 0 < s.sh.runnables) :
    Bound { s.sh with runnables := s.sh.runnables - 1 } { Duties.none with owes := 1 } s.calls :=
  { h with
    future := by
      have hfuture := h.future
      simp only [Duties.none] at hfuture ⊢
      omega }

theorem lifetime_start {op : Op} {pc : Pc} {sh : Shared} (hc : Counted sized s.sh s.calls)
    (h : Lifetime s.sh s.calls) (hs : start sized s op = some (pc, sh)) :
    Lifetime sh (pc ::ₘ s.calls) := by
  have hb := h.at_rest hc.numbers
  cases starts_of_start hs with
  | clone | wakeByRef => exact Bound.goesOn hb
  | waker pc hspare hpc =>
    rcases hpc with rfl | rfl | rfl
    all_goals exact Bound.goesOn (hb.congr rfl)
  | runnable pc hspare hpc =>
    have hb := hb.takeRunnable hspare.1
    rcases hpc with rfl | rfl | rfl
    all_goals exact Bound.goesOn hb
  | poll w hidle => exact Bound.goesOn (hb.congr rfl)
  | task pc hidle hpc =>
    rcases hpc with rfl | rfl | rfl
    all_goals exact Bound.goesOn (hb.congr rfl)

theorem lifetime_step (hc : Counted sized s.sh s.calls) (h : Lifetime s.sh s.calls)
    (ht : step sized s a = some t) : Lifetime t.sh t.calls := by
  obtain ⟨op, pc, sh, rfl, hstart, rfl⟩ | ⟨pc, c, next, sh, rest, rfl, hcalls, -, hexec, rfl⟩ :=
    step_cases ht
  · exact lifetime_start hc h hstart
  · rw [hcalls] at h hc
    exact lifetime_exec hc h hexec

theorem lifetime_of_reachable (hs : (system sized).Reachable s) : Lifetime s.sh s.calls := by
  have hboth : Counted sized s.sh s.calls ∧ Lifetime s.sh s.calls := by
    refine hs.invariant (I := fun s => Counted sized s.sh s.calls ∧ Lifetime s.sh s.calls)
      ⟨counted_of_reachable System.ReachableVia.init, ?_⟩ ?_
    · constructor <;> simp [system, spawn, Word.spawned]
    · intro s a t h ht
      exact ⟨counted_step h.1 ht, lifetime_step h.1 h.2 ht⟩
  exact hboth.2

/-- At most one `Runnable` exists and at most one thread polls the future,
`SCHEDULED` without `RUNNING` says that there is one, and a wake that took
effect is not forgotten. -/
theorem scheduled_once (hs : (system sized).Reachable s) :
    s.sh.runnables + total Pc.tokens s.calls + total Pc.runs s.calls ≤ 1 ∧
    total Pc.polls s.calls ≤ 1 ∧
    (s.sh.word.scheduled = true ∧ s.sh.word.running = false ↔
      s.sh.runnables + total Pc.tokens s.calls = 1) ∧
    (s.sh.woken = true → s.sh.word.completed = false → s.sh.word.closed = false →
      s.sh.word.scheduled = true) := by
  have hc := counted_of_reachable hs
  have htoken := hc.token
  have hrunning := hc.running
  have hpolls := polls_le_runs s.calls
  have hruns : total Pc.runs s.calls ≤ 1 := by
    rw [hrunning]
    split <;> omega
  refine ⟨?_, hpolls.trans hruns, ?_, fun hwoken hcompleted hclosed => ?_⟩
  · cases hr : s.sh.word.running with
    | true =>
      rw [if_neg (by simp [hr])] at htoken
      omega
    | false =>
      rw [if_neg (by simp [hr])] at hrunning
      split at htoken <;> omega
  · constructor
    · intro hw
      rw [htoken, if_pos hw]
    · intro hone
      by_contra hw
      rw [if_neg hw] at htoken
      omega
  · rcases (lifetime_of_reachable hs).woken hwoken with hset | hset | hset
    · exact absurd hset (Bool.eq_false_iff.mp hcompleted)
    · exact absurd hset (Bool.eq_false_iff.mp hclosed)
    · exact hset

/-- The future wakes itself while it is polled. -/
def wokenWhilePolled : List Act :=
  let running : Word := { Word.spawned with scheduled := false, running := true }
  [.start .run, .exec .runLoad .go, .exec (.runLoop .spawned) .go, .start (.wakeByRef .context),
   .exec (.wakeRefLoad (.ref .context)) .go, .exec (.wakeRefLoop (.ref .context) running) .go]

/-- The poll ends, and the runner finds out when it tries to make the task idle. -/
def handedBack : List Act :=
  let running : Word := { Word.spawned with scheduled := false, running := true }
  wokenWhilePolled ++
    [.exec (.polling running) .pending, .exec (.pendingLoop running false) .go,
     .exec (.pendingLoop { running with scheduled := true } false) .go]

theorem scheduled_once_woken : ∃ s t : Sys,
    (system true).run wokenWhilePolled = some s ∧ (system true).run handedBack = some t ∧
    total Pc.polls s.calls = 1 ∧ s.sh.woken = true ∧ s.sh.word.scheduled = true ∧
    t.sh.word.running = false ∧ t.sh.runnables + total Pc.tokens t.calls = 1 := by
  obtain ⟨s, hs, hreach, hpolls, hwoken, hcompleted, hclosed⟩ := (system true).exists_of_run
    (P := fun s => total Pc.polls s.calls = 1 ∧ s.sh.woken = true ∧
      s.sh.word.completed = false ∧ s.sh.word.closed = false) wokenWhilePolled (by decide)
  obtain ⟨t, ht, htreach, hscheduled, hrunning⟩ := (system true).exists_of_run
    (P := fun t => t.sh.word.scheduled = true ∧ t.sh.word.running = false) handedBack
    (by decide)
  obtain ⟨-, -, -, hkept⟩ := scheduled_once hreach
  obtain ⟨-, -, htoken, -⟩ := scheduled_once htreach
  exact ⟨s, t, hs, ht, hpolls, hwoken, hkept hwoken hcompleted hclosed, hrunning,
    htoken.mp ⟨hscheduled, hrunning⟩⟩

end Run

/-! ## Dropping the future -/

section Future

variable {sized : Bool} {s t : Sys} {a : Act}

/-- The next step of the call is `drop_future`. -/
def Pc.dropsFuture : Pc → Bool
  | .runClosedDrop | .readyDrop _ | .pendingDrop _ | .guardClosedDrop _ | .guardDrop _
  | .runnableDrop => true
  | _ => false

theorem Pc.dropsFuture_owes {pc : Pc} (hd : pc.dropsFuture = true) :
    pc.owes = 1 ∧ pc.polls = 0 ∧ (pc.tokens = 1 ∨ pc.runs = 1 ∨ pc.guards = 1) := by
  revert hd
  cases pc <;> simp [Pc.dropsFuture, Pc.owes, Pc.polls, Pc.tokens, Pc.runs, Pc.guards]

theorem Lifetime.alone (hc : Counted sized s.sh s.calls) (h : Lifetime s.sh s.calls) {pc : Pc}
    (hpc : pc ∈ s.calls) (hd : pc.dropsFuture = true) :
    total Pc.polls s.calls = 0 ∧ s.sh.futureDrops = 0 := by
  obtain ⟨howes, hpolls, hwhere⟩ := Pc.dropsFuture_owes hd
  have hfuture := h.owed hc.numbers
  have hle := le_total (f := Pc.owes) hpc
  refine ⟨?_, by split at hfuture <;> omega⟩
  have hrunning := hc.running
  have hidle (hr : s.sh.word.running = false) : total Pc.polls s.calls = 0 := by
    have hruns := polls_le_runs s.calls
    rw [if_neg (by simp [hr])] at hrunning
    omega
  rcases hwhere with htoken | hruns | hguards
  · -- it has the `Runnable`, so that nobody runs the task
    have hle := le_total (f := Pc.tokens) hpc
    have htokens := hc.token
    split at htokens
    · rename_i hw
      exact hidle hw.2
    · omega
  · -- it runs the task itself, and its poll is over
    obtain ⟨rest, hcalls⟩ := Multiset.exists_cons_of_mem hpc
    have hrest := polls_le_runs rest
    rw [hcalls, total_cons] at hrunning ⊢
    split at hrunning <;> omega
  · have hle := le_total (f := Pc.guards) hpc
    exact hidle (h.guard (by omega)).2

/-- `destroy` stands at the call. -/
def Pc.destroying : Pc → Nat
  | .destroy _ => 1
  | _ => 0

/-- `drop_ref` does not give up the last reference to a task that is neither
completed nor closed. -/
def KeepsFuture (s : Sys) : Act → Prop
  | .exec (.dropRef _) _ => s.sh.word.refs = 1 → s.sh.word.task = false →
    s.sh.word.completed = true ∨ s.sh.word.closed = true
  | _ => True

instance (s : Sys) (a : Act) : Decidable (KeepsFuture s a) := by
  unfold KeepsFuture
  split <;> infer_instance

/-- The task is completed or closed by the time it is destroyed. -/
def Ended (sh : Shared) (calls : Multiset Pc) : Prop :=
  0 < sh.destroys + total Pc.destroying calls → sh.word.completed = true ∨ sh.word.closed = true

section Step

variable {sh sh' : Shared} {c : Choice} {pc : Pc} {next : Option Pc} {n : Next} {rest : Multiset Pc}

theorem Ended.step (h : Ended sh (pc ::ₘ rest))
    (hdestroys : sh'.destroys + next.elim 0 Pc.destroying = sh.destroys + pc.destroying)
    (hcompleted : sh.word.completed = true → sh'.word.completed = true)
    (hclosed : sh.word.closed = true → sh'.word.closed = true) : Ended sh' (resume next rest) := by
  intro hd
  rw [total_resume, ← Nat.add_assoc, hdestroys, Nat.add_assoc, ← total_cons] at hd
  exact (h hd).imp hcompleted hclosed

theorem Ended.finish (k : Cont) (h : Ended sh (pc ::ₘ rest))
    (hdestroys : sh'.destroys = sh.destroys + pc.destroying)
    (hcompleted : sh.word.completed = true → sh'.word.completed = true)
    (hclosed : sh.word.closed = true → sh'.word.closed = true) :
    Ended (finish sh' k).2 (resume (finish sh' k).1 rest) := by
  apply finish_of (P := fun n => Ended n.2 (resume n.1 rest))
  case hwake | htake => exact fun _ => h.step hdestroys hcompleted hclosed
  all_goals exact h.step hdestroys hcompleted hclosed

theorem Ended.takeDone (f : TakeFor) (got : Option Waker) (h : Ended sh (pc ::ₘ rest))
    (hdestroys : sh'.destroys = sh.destroys + pc.destroying)
    (hcompleted : sh.word.completed = true → sh'.word.completed = true)
    (hclosed : sh.word.closed = true → sh'.word.closed = true) :
    Ended (takeDone sh' f got).2 (resume (takeDone sh' f got).1 rest) := by
  apply takeDone_of (P := fun n => Ended n.2 (resume n.1 rest))
  case hwake | hnotify => exact fun _ => h.step hdestroys hcompleted hclosed
  all_goals exact h.step hdestroys hcompleted hclosed

theorem Ended.finishRun (awaiter : Bool) (h : Ended sh (pc ::ₘ rest))
    (hdestroys : sh'.destroys = sh.destroys + pc.destroying)
    (hcompleted : sh.word.completed = true → sh'.word.completed = true)
    (hclosed : sh.word.closed = true → sh'.word.closed = true) :
    Ended (finishRun sh' awaiter).2 (resume (finishRun sh' awaiter).1 rest) := by
  cases awaiter <;> exact h.step hdestroys hcompleted hclosed

theorem Ended.afterCancel (dropping : Bool) (h : Ended sh (pc ::ₘ rest))
    (hdestroys : sh'.destroys = sh.destroys + pc.destroying)
    (hcompleted : sh.word.completed = true → sh'.word.completed = true)
    (hclosed : sh.word.closed = true → sh'.word.closed = true) :
    Ended (afterCancel sh' dropping).2 (resume (afterCancel sh' dropping).1 rest) := by
  cases dropping <;> exact h.step hdestroys hcompleted hclosed

theorem ended_wakeRef (h : Ended sh (pc ::ₘ rest)) (hm : WakeRefMoves sh pc n) :
    Ended n.2 (resume n.1 rest) := by
  cases hm with
  | cloneAbort | clone | load | retry | call => exact h.step rfl id id
  | ended k | scheduled k | running k | returns k =>
    apply finishWakeRef_of (P := fun n => Ended n.2 (resume n.1 rest))
    · exact h.step rfl id id
    · exact h.step rfl id id
  | idle k pc' _ _ _ _ hpc' => rcases hpc' with rfl | rfl <;> exact h.step rfl id id

theorem ended_wake (h : Ended sh (pc ::ₘ rest)) (hm : WakeMoves sized sh pc n) :
    Ended n.2 (resume n.1 rest) := by
  cases hm with
  | acquire k pc' _ hpc' => rcases hpc' with rfl | rfl <;> exact h.step rfl id id
  | returns k => exact h.finish k rfl id id
  | _ => exact h.step rfl id id

/-- Only `drop_ref` may destroy a task that has not ended. -/
theorem ended_drop (hrefs : pc.refs sized ≤ sh.word.refs) (h : Ended sh (pc ::ₘ rest))
    (hok : ∀ k, pc = .dropRef k → sh.word.refs = 1 → sh.word.task = false →
      sh.word.completed = true ∨ sh.word.closed = true)
    (hm : DropMoves sh pc n) : Ended n.2 (resume n.1 rest) := by
  cases hm with
  | toStore | wakeAwaiter => exact h.step rfl id id
  | wakerLast k _ _ hended => exact fun _ => hended
  | store => exact fun _ => .inr rfl
  | refLast k hlast htask =>
    have hone : 1 ≤ sh.word.refs := hrefs
    exact fun _ => hok k rfl (by omega) htask
  | waker k | ref k | destroy k => exact h.finish k rfl id id

theorem ended_take (h : Ended sh (pc ::ₘ rest)) (hm : TakeMoves sh pc n) :
    Ended n.2 (resume n.1 rest) := by
  cases hm with
  | won | cell => exact h.step rfl id id
  | lost f => exact h.takeDone f none rfl id id
  | release f got => exact h.takeDone f (keep f got) rfl id id
  | wake f w =>
    apply notifyDone_of (P := fun n => Ended n.2 (resume n.1 rest))
    all_goals exact h.step rfl id id

theorem ended_run (h : Ended sh (pc ::ₘ rest)) (hm : RunMoves sh pc n) :
    Ended n.2 (resume n.1 rest) := by
  have hkept (hset : sh.word.closed = true) : sh.word.finishPoll.closed = true := by
    simp [Word.finishPoll, hset]
  cases hm with
  | closedAnd => exact h.finishRun _ rfl id id
  | unclaimed => exact h.step rfl (fun _ => rfl) hkept
  | completed => exact h.finishRun _ rfl (fun _ => rfl) hkept
  | dropOutput awaiter => exact h.finishRun awaiter rfl id id
  | _ => exact h.step rfl id id

theorem ended_pending (h : Ended sh (pc ::ₘ rest)) (hm : PendingMoves sh pc n) :
    Ended n.2 (resume n.1 rest) := by
  cases hm with
  | ended => exact h.finishRun _ rfl id id
  | _ => exact h.step rfl id id

theorem ended_guard (h : Ended sh (pc ::ₘ rest)) (hm : GuardMoves sh pc n) :
    Ended n.2 (resume n.1 rest) := by
  cases hm with
  | load | retry | closed | closedDrop => exact h.step rfl id id
  | close => exact h.step rfl id fun _ => rfl
  | closedAnd state => exact h.finishRun _ rfl id id
  | drop awaiter => exact h.finishRun awaiter rfl id id

theorem ended_runnable (h : Ended sh (pc ::ₘ rest)) (hm : RunnableMoves sh pc n) :
    Ended n.2 (resume n.1 rest) := by
  cases hm with
  | close => exact h.step rfl id fun _ => rfl
  | _ => exact h.step rfl id id

theorem ended_task (h : Ended sh (pc ::ₘ rest)) (hm : TaskMoves sh pc n) :
    Ended n.2 (resume n.1 rest) := by
  cases hm with
  | ended dropping => exact h.afterCancel dropping rfl id id
  | closeNotify | closeIdle | claim => exact h.step rfl id fun _ => rfl
  | close dropping => exact h.afterCancel dropping rfl id fun _ => rfl
  | lastRun => exact fun _ => .inr rfl
  | destroy _ hclosed => exact fun _ => .inr hclosed
  | _ => exact h.step rfl id id

theorem ended_poll (h : Ended sh (pc ::ₘ rest)) (hm : PollMoves sh pc n) :
    Ended n.2 (resume n.1 rest) := by
  cases hm with
  | claimNotify | claim => exact h.step rfl id fun _ => rfl
  | _ => exact h.step rfl id id

theorem ended_register (h : Ended sh (pc ::ₘ rest)) (hm : RegisterMoves sh pc n) :
    Ended n.2 (resume n.1 rest) := by
  cases hm with
  | _ => exact h.step rfl id id

theorem ended_exec (hrefs : pc.refs sized ≤ sh.word.refs) (h : Ended sh (pc ::ₘ rest))
    (hok : ∀ k, pc = .dropRef k → sh.word.refs = 1 → sh.word.task = false →
      sh.word.completed = true ∨ sh.word.closed = true)
    (he : exec sized sh c pc = some n) : Ended n.2 (resume n.1 rest) := by
  rcases moves_of_exec he with hm | hm | hm | hm | hm | hm | hm | hm | hm | hm | hm
  · exact ended_wakeRef h hm
  · exact ended_wake h hm
  · exact ended_drop hrefs h hok hm
  · exact ended_take h hm
  · exact ended_run h hm
  · exact ended_pending h hm
  · exact ended_guard h hm
  · exact ended_runnable h hm
  · exact ended_task h hm
  · exact ended_poll h hm
  · exact ended_register h hm

theorem ended_start {op : Op} (h : Ended s.sh s.calls) (hs : start sized s op = some (pc, sh)) :
    Ended sh (pc ::ₘ s.calls) := by
  cases starts_of_start hs with
  | clone | wakeByRef | poll => simpa only [Ended, total_cons, Pc.destroying, zero_add] using h
  | waker pc _ hpc | runnable pc _ hpc | task pc _ hpc =>
    rcases hpc with rfl | rfl | rfl
    all_goals simpa only [Ended, total_cons, Pc.destroying, zero_add] using h

end Step

theorem ended_step (hc : Counted sized s.sh s.calls) (h : Ended s.sh s.calls)
    (hok : KeepsFuture s a) (ht : step sized s a = some t) : Ended t.sh t.calls := by
  obtain ⟨op, pc, sh, rfl, hstart, rfl⟩ | ⟨pc, c, next, sh, rest, rfl, hcalls, -, hexec, rfl⟩ :=
    step_cases ht
  · exact ended_start h hstart
  · have hrefs := hc.refs
    rw [hcalls] at h hrefs
    rw [total_cons] at hrefs
    refine ended_exec (by omega) h ?_ hexec
    rintro k rfl
    exact hok

theorem ended_of_reachableVia (hs : (system sized).ReachableVia KeepsFuture s) :
    Ended s.sh s.calls := by
  have hboth : Counted sized s.sh s.calls ∧ Ended s.sh s.calls := by
    refine hs.invariant (I := fun s => Counted sized s.sh s.calls ∧ Ended s.sh s.calls)
      ⟨counted_of_reachable System.ReachableVia.init, ?_⟩ ?_
    · simp [Ended, system, spawn]
    · intro s a t hok h ht
      exact ⟨counted_step h.1 ht, ended_step h.1 h.2 hok ht⟩
  exact hboth.2

/-- Once the task has ended, has no handles and no call uses it, the future is gone. -/
theorem Lifetime.future_gone (hc : Counted sized s.sh s.calls) (h : Lifetime s.sh s.calls)
    (hrefs : s.sh.word.refs = 0) (hended : s.sh.word.completed = true ∨ s.sh.word.closed = true) :
    s.sh.futureDrops = 1 := by
  have href := hc.refs
  have howes := owes_le s.calls
  have htokens := tokens_le_refs sized s.calls
  have hruns := runs_le_refs sized s.calls
  have hguards := guards_le_refs sized s.calls
  rw [h.future, if_pos]
  refine ⟨by omega, ?_⟩
  rcases hended with hset | hset
  · exact .inr (.inr (.inr hset))
  · exact .inr (.inr (.inl hset))

theorem Lifetime.readies_le (hc : Counted sized s.sh s.calls) (h : Lifetime s.sh s.calls) :
    s.sh.readies ≤ 1 := by
  have hready := h.readies
  have hrunning := hc.running
  have hfin := finishing_le_runs s.calls
  cases hdone : s.sh.word.completed with
  | true =>
    -- nobody runs a completed task
    have hidle := (h.completed hdone).2.1
    rw [if_pos hdone] at hready
    rw [if_neg (by simp [hidle])] at hrunning
    omega
  | false =>
    rw [if_neg (by simp [hdone])] at hready
    split at hrunning <;> omega

/-- A complete run has used the output that a poll returned. -/
theorem Lifetime.output_used (hc : Counted sized s.sh s.calls) (h : Lifetime s.sh s.calls)
    (hcomplete : Complete s) : s.sh.moved + s.sh.dropped = s.sh.readies := by
  obtain ⟨hw, hr, hh, hcalls⟩ := hcomplete
  have hout := h.output
  have hwritten := h.written
  have howner := h.owner
  have htask := hc.task
  rw [hcalls] at hout hwritten htask
  simp only [total_zero, hh, reduceCtorEq, if_false] at hout hwritten htask
  -- an output that still waits has a `Task` to wait for
  have hused : ¬(s.sh.word.completed = true ∧ s.sh.word.closed = false) := by
    rintro ⟨hcompleted, hclosed⟩
    rw [if_pos (howner hcompleted hclosed)] at htask
    omega
  rw [if_neg hused] at hout
  omega

/-- In every run in which no last reference to an unfinished task is dropped by
`drop_ref`: the future is dropped once, before `destroy` and never during a
poll; and the output is used once if there is one. -/
theorem future_once (hs : (system sized).ReachableVia KeepsFuture s) :
    s.sh.futureDrops ≤ 1 ∧
    (∀ pc ∈ s.calls, pc.dropsFuture = true →
      s.sh.futureDrops = 0 ∧ total Pc.polls s.calls = 0) ∧
    (∀ k, .destroy k ∈ s.calls → s.sh.futureDrops = 1) ∧
    (Complete s → s.sh.futureDrops = 1) ∧
    s.sh.readies ≤ 1 ∧ s.sh.moved + s.sh.dropped ≤ s.sh.readies ∧
    (Complete s → s.sh.moved + s.sh.dropped = s.sh.readies) := by
  have hc := counted_of_reachable hs.reachable
  have h := lifetime_of_reachable hs.reachable
  have hended := ended_of_reachableVia hs
  unfold Ended at hended
  refine ⟨?_, ?_, ?_, ?_, h.readies_le hc, ?_, h.output_used hc⟩
  · rw [h.future]
    split <;> omega
  · intro pc hpc hd
    exact (h.alone hc hpc hd).symm
  · intro k hk
    have hle := le_total (f := Pc.destroying) hk
    have hle' := le_total (f := Pc.ending) hk
    rw [show (Pc.destroy k).destroying = 1 from rfl] at hle
    rw [show (Pc.destroy k).ending = 1 from rfl] at hle'
    have hending := hc.ending
    refine h.future_gone hc ?_ (hended (by omega))
    split at hending
    · rename_i hlast
      exact hlast.1
    · omega
  · intro hcomplete
    have hd := hc.complete hcomplete
    exact h.future_gone hc hd.1 (hended (by omega))
  · have hout := h.output
    have hwritten := h.written
    omega

theorem future_once_dropBoth : ∃ s, (system true).ReachableVia KeepsFuture s ∧ Complete s ∧
    s.sh.futureDrops = 1 ∧ s.sh.moved + s.sh.dropped = s.sh.readies := by
  obtain ⟨s, hs, hc⟩ := (system true).exists_of_runVia KeepsFuture (P := Complete)
    dropBoth (by decide)
  have h := future_once hs
  exact ⟨s, hs, hc, h.2.2.2.1 hc, h.2.2.2.2.2.2 hc⟩

/-- The `Task` is detached, the future returns `Pending` and keeps no waker. -/
def forgottenFuture : List Act :=
  let detached : Word := { Word.spawned with task := false }
  let running : Word := { detached with scheduled := false, running := true }
  [.start .detach, .exec .detachFast .go,
   .start .run, .exec .runLoad .go, .exec (.runLoop detached) .go,
   .exec (.polling running) .pending, .exec (.pendingLoop running false) .go,
   .exec (.dropRef .ret) .go, .exec (.destroy .ret) .go]

theorem future_never_dropped :
    ∃ s, (system true).Reachable s ∧ Complete s ∧ s.sh.destroys = 1 ∧ s.sh.futureDrops = 0 := by
  obtain ⟨s, -, hs, hlost⟩ := (system true).exists_of_run
    (P := fun s => Complete s ∧ s.sh.destroys = 1 ∧ s.sh.futureDrops = 0)
    forgottenFuture (by decide)
  exact ⟨s, hs, hlost⟩

end Future

end Cynthia.Task
