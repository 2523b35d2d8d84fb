import Cynthia.Task.Lifetime

/-! What the answer `Ready(None)` of `poll_task` says about the future: the state word was
seen closed, with neither `SCHEDULED` nor `RUNNING`, and everybody who clears these two
bits has dropped the future before, except for the panic guard of an open task. -/

namespace Cynthia.Task

open Transition Pool

def TakeFor.answersNone : TakeFor → Bool
  | .pollClosed _ => true
  | _ => false

/-- `poll_task` is at the `notify` after which it returns `Ready(None)`. -/
def Pc.answersNone : Pc → Bool
  | .takeOr f | .takeCell f | .takeAnd f _ | .notifyWake f _ => f.answersNone
  | _ => false

/-- The next step of `poll_task` reads the state word. -/
def Pc.looks : Pc → Bool
  | .pollLoad _ | .pollReload _ _ => true
  | .pollLoop _ state => state.completed && !state.closed
  | _ => false

/-- `poll_task` has seen the word with `SCHEDULED` and `RUNNING` clear, and closed. -/
def Pc.idleSeen : Pc → Nat
  | .pollLoop _ state => if state.closed && !(state.scheduled || state.running) then 1 else 0
  | .takeOr f | .takeCell f | .takeAnd f _ | .notifyWake f _ => f.answersNone.toNat
  | _ => 0

def Site.closedSeen : Site → Nat
  | .closed => 1
  | .open => 0

/-- `poll_task` has seen the word closed. -/
def Pc.closedSeen : Pc → Nat
  | .pollLoop _ state => state.closed.toNat
  | .pollReload _ site | .registerLoad _ site | .registerLoop _ site _ | .registerWrite _ site _
  | .registerCheck _ site _ _ | .registerSwap _ site _ _ | .registerWake _ site _ => site.closedSeen
  | _ => 0

@[mk_iff]
structure Seen (sh : Shared) (calls : Multiset Pc) : Prop where
  closed : 0 < total Pc.closedSeen calls → sh.word.closed = true
  idle : 0 < total Pc.idleSeen calls → 0 < sh.futureDrops

/-! ## One access of a call -/

section Exec

variable {sized : Bool} {sh sh' : Shared} {c : Choice} {pc : Pc} {n : Next} {rest : Multiset Pc}

/-- Nobody opens a closed task again or brings the future back. -/
structure Onward (sh sh' : Shared) : Prop where
  closed : sh.word.closed = true → sh'.word.closed = true
  futureDrops : sh.futureDrops ≤ sh'.futureDrops

/-- Only steps of `poll_task` that read the word learn something. -/
structure Learns (sh : Shared) (pc : Pc) (next : Option Pc) : Prop where
  closed : next.elim 0 Pc.closedSeen ≤ pc.closedSeen ∨ sh.word.closed = true
  idle : next.elim 0 Pc.idleSeen ≤ pc.idleSeen ∨ pc.looks = true ∧ sh.word.scheduled = false ∧
    sh.word.running = false ∧ (sh.word.closed = true ∨ 0 < pc.closedSeen)

/-- Most steps learn nothing. -/
theorem learns_nothing (hclosed : sh.word.closed = true → n.2.word.closed = true)
    (hdrops : sh.futureDrops ≤ n.2.futureDrops) (hseen : n.1.elim 0 Pc.closedSeen = 0)
    (hidle : n.1.elim 0 Pc.idleSeen = 0) : Onward sh n.2 ∧ Learns sh pc n.1 :=
  ⟨⟨hclosed, hdrops⟩, .inl (hseen.trans_le (Nat.zero_le _)), .inl (hidle.trans_le (Nat.zero_le _))⟩

theorem learns_look {w : Waker} (hlooks : pc.looks = true) :
    Learns sh pc (some (.pollLoop w sh.word)) := by
  constructor
  · cases hclosed : sh.word.closed with
    | true => exact .inr rfl
    | false =>
      refine .inl ?_
      simp [Pc.closedSeen, hclosed]
  · cases hidle : sh.word.closed && !(sh.word.scheduled || sh.word.running) with
    | true =>
      have hw : sh.word.closed = true ∧ sh.word.scheduled = false ∧ sh.word.running = false := by
        simpa using hidle
      exact .inr ⟨hlooks, hw.2.1, hw.2.2, .inl hw.1⟩
    | false =>
      have hnone : (Pc.pollLoop w sh.word).idleSeen = 0 := if_neg (Bool.eq_false_iff.mp hidle)
      exact .inl (hnone.trans_le (Nat.zero_le _))

theorem onward_wakeRef (hm : WakeRefMoves sh pc n) : Onward sh n.2 ∧ Learns sh pc n.1 := by
  cases hm with
  | ended k | scheduled k | running k | returns k =>
    apply finishWakeRef_of (P := fun n => Onward sh n.2 ∧ Learns sh _ n.1)
    · exact learns_nothing id le_rfl rfl rfl
    · exact learns_nothing id le_rfl rfl rfl
  | idle k pc' _ _ _ _ hpc' => rcases hpc' with rfl | rfl <;> exact learns_nothing id le_rfl rfl rfl
  | _ => exact learns_nothing id le_rfl rfl rfl

theorem onward_finish (k : Cont) (hword : sh'.word.closed = sh.word.closed)
    (hdrops : sh'.futureDrops = sh.futureDrops) :
    Onward sh (finish sh' k).2 ∧ Learns sh pc (finish sh' k).1 := by
  apply finish_of (P := fun n => Onward sh n.2 ∧ Learns sh pc n.1)
  case hwake | htake =>
    exact fun _ => learns_nothing (fun hset => hword.trans hset) hdrops.ge rfl rfl
  all_goals exact learns_nothing (fun hset => hword.trans hset) hdrops.ge rfl rfl

theorem onward_wake (hm : WakeMoves sized sh pc n) : Onward sh n.2 ∧ Learns sh pc n.1 := by
  cases hm with
  | acquire k pc' _ hpc' => rcases hpc' with rfl | rfl <;> exact learns_nothing id le_rfl rfl rfl
  | returns k => exact onward_finish k rfl rfl
  | _ => exact learns_nothing id le_rfl rfl rfl

theorem onward_drop (hm : DropMoves sh pc n) : Onward sh n.2 ∧ Learns sh pc n.1 := by
  cases hm with
  | waker k | ref k | destroy k => exact onward_finish k rfl rfl
  | store => exact learns_nothing (fun _ => rfl) le_rfl rfl rfl
  | _ => exact learns_nothing id le_rfl rfl rfl

/-- What `take` is for does not change while it runs. -/
theorem onward_take (hm : TakeMoves sh pc n) : Onward sh n.2 ∧ Learns sh pc n.1 := by
  cases hm with
  | won | cell => exact ⟨⟨id, le_rfl⟩, .inl le_rfl, .inl le_rfl⟩
  | lost f | release f got =>
    apply takeDone_of (P := fun n => Onward sh n.2 ∧ Learns sh _ n.1)
    case hnotify => exact fun _ => ⟨⟨id, le_rfl⟩, .inl le_rfl, .inl le_rfl⟩
    case hwake => exact fun _ => learns_nothing id le_rfl rfl rfl
    all_goals exact learns_nothing id le_rfl rfl rfl
  | wake f w =>
    apply notifyDone_of (P := fun n => Onward sh n.2 ∧ Learns sh _ n.1)
    all_goals exact learns_nothing id le_rfl rfl rfl

theorem onward_finishRun (awaiter : Bool) (hclosed : sh.word.closed = true → sh'.word.closed = true)
    (hdrops : sh.futureDrops ≤ sh'.futureDrops) :
    Onward sh (finishRun sh' awaiter).2 ∧ Learns sh pc (finishRun sh' awaiter).1 := by
  apply finishRun_of (P := fun n => Onward sh n.2 ∧ Learns sh pc n.1)
  all_goals exact learns_nothing hclosed hdrops rfl rfl

theorem onward_run (hm : RunMoves sh pc n) : Onward sh n.2 ∧ Learns sh pc n.1 := by
  have hkept (hset : sh.word.closed = true) : sh.word.finishPoll.closed = true := by
    simp [Word.finishPoll, hset]
  cases hm with
  | closedDrop | readyDrop => exact learns_nothing id (Nat.le_succ _) rfl rfl
  | closedAnd | dropOutput awaiter => exact onward_finishRun _ id le_rfl
  | unclaimed => exact learns_nothing hkept le_rfl rfl rfl
  | completed => exact onward_finishRun _ hkept le_rfl
  | _ => exact learns_nothing id le_rfl rfl rfl

theorem onward_pending (hm : PendingMoves sh pc n) : Onward sh n.2 ∧ Learns sh pc n.1 := by
  cases hm with
  | ended => exact onward_finishRun _ id le_rfl
  | drop => exact learns_nothing id (Nat.le_succ _) rfl rfl
  | _ => exact learns_nothing id le_rfl rfl rfl

theorem onward_guard (hm : GuardMoves sh pc n) : Onward sh n.2 ∧ Learns sh pc n.1 := by
  cases hm with
  | close => exact learns_nothing (fun _ => rfl) le_rfl rfl rfl
  | closedDrop => exact learns_nothing id (Nat.le_succ _) rfl rfl
  | closedAnd => exact onward_finishRun _ id le_rfl
  | drop => exact onward_finishRun _ id (Nat.le_succ _)
  | _ => exact learns_nothing id le_rfl rfl rfl

theorem onward_runnable (hm : RunnableMoves sh pc n) : Onward sh n.2 ∧ Learns sh pc n.1 := by
  cases hm with
  | close => exact learns_nothing (fun _ => rfl) le_rfl rfl rfl
  | drop => exact learns_nothing id (Nat.le_succ _) rfl rfl
  | _ => exact learns_nothing id le_rfl rfl rfl

theorem onward_task (hm : TaskMoves sh pc n) : Onward sh n.2 ∧ Learns sh pc n.1 := by
  cases hm with
  | ended dropping =>
    apply afterCancel_of (P := fun n => Onward sh n.2 ∧ Learns sh _ n.1)
    all_goals exact learns_nothing id le_rfl rfl rfl
  | close dropping =>
    apply afterCancel_of (P := fun n => Onward sh n.2 ∧ Learns sh _ n.1)
    all_goals exact learns_nothing (fun _ => rfl) le_rfl rfl rfl
  | closeNotify | closeIdle | claim | lastRun =>
    exact learns_nothing (fun _ => rfl) le_rfl rfl rfl
  | _ => exact learns_nothing id le_rfl rfl rfl

/-- Only steps of `poll_task` that read the word learn what it says. -/
theorem onward_poll (hm : PollMoves sh pc n) : Onward sh n.2 ∧ Learns sh pc n.1 := by
  cases hm with
  | load w => exact ⟨⟨id, le_rfl⟩, learns_look rfl⟩
  | retry w state hclosed hcompleted =>
    exact ⟨⟨id, le_rfl⟩, learns_look (by simp [Pc.looks, hclosed, hcompleted])⟩
  | seenOpen => exact ⟨⟨id, le_rfl⟩, learns_look rfl⟩
  | wait w state hclosed =>
    exact ⟨⟨id, le_rfl⟩, .inl (by simp [Pc.closedSeen, Site.closedSeen, hclosed]),
      .inl (Nat.zero_le _)⟩
  | closed w state hclosed hs hr =>
    refine ⟨⟨id, le_rfl⟩, .inl (Nat.zero_le _), .inl ?_⟩
    simp [Pc.idleSeen, TakeFor.answersNone, hclosed, hs, hr]
  | seenClosed w hs hr =>
    exact ⟨⟨id, le_rfl⟩, .inl (Nat.zero_le _), .inr ⟨rfl, hs, hr, .inr Nat.one_pos⟩⟩
  | claimNotify | claim => exact learns_nothing (fun _ => rfl) le_rfl rfl rfl
  | waitOpen | pendingClosed | pendingOpen | read => exact learns_nothing id le_rfl rfl rfl

theorem onward_register (hm : RegisterMoves sh pc n) : Onward sh n.2 ∧ Learns sh pc n.1 := by
  cases hm with
  | _ => exact ⟨⟨id, le_rfl⟩, .inl le_rfl, .inl (Nat.zero_le _)⟩

theorem onward_exec (he : exec sized sh c pc = some n) : Onward sh n.2 ∧ Learns sh pc n.1 := by
  rcases moves_of_exec he with hm | hm | hm | hm | hm | hm | hm | hm | hm | hm | hm
  · exact onward_wakeRef hm
  · exact onward_wake hm
  · exact onward_drop hm
  · exact onward_take hm
  · exact onward_run hm
  · exact onward_pending hm
  · exact onward_guard hm
  · exact onward_runnable hm
  · exact onward_task hm
  · exact onward_poll hm
  · exact onward_register hm

/-- A closed task that is neither scheduled nor running has no future any more, unless the
guard of a panic still has it. -/
theorem Lifetime.idle_gone {calls : Multiset Pc} (hc : Counted sized sh calls)
    (h : Lifetime sh calls) (hclosed : sh.word.closed = true) (hs : sh.word.scheduled = false)
    (hr : sh.word.running = false) (hguards : total Pc.guards calls = 0) :
    sh.futureDrops = 1 := by
  have htoken := hc.token
  have hrunning := hc.running
  have howes := owes_le calls
  rw [if_neg (by simp [hs])] at htoken
  rw [if_neg (by simp [hr])] at hrunning
  rw [h.future, if_pos]
  exact ⟨by omega, .inr (.inr (.inl hclosed))⟩

theorem seen_exec (hc : Counted sized sh (pc ::ₘ rest)) (hl : Lifetime sh (pc ::ₘ rest))
    (h : Seen sh (pc ::ₘ rest))
    (hok : pc.looks = true → total Pc.guards (pc ::ₘ rest) = 0)
    (he : exec sized sh c pc = some n) : Seen n.2 (resume n.1 rest) := by
  obtain ⟨honward, hlearns⟩ := onward_exec he
  have hclosed := h.closed
  have hidle := h.idle
  rw [total_cons] at hclosed hidle
  constructor
  · rw [total_resume]
    intro hpos
    obtain hle | hnow := hlearns.closed
    · exact honward.closed (hclosed (by omega))
    · exact honward.closed hnow
  · rw [total_resume]
    intro hpos
    refine Nat.lt_of_lt_of_le ?_ honward.futureDrops
    obtain hle | ⟨hlooks, hs, hr, hnow⟩ := hlearns.idle
    · exact hidle (by omega)
    · have hword : sh.word.closed = true := by
        obtain hnow | hseen := hnow
        · exact hnow
        · exact hclosed (by omega)
      rw [hl.idle_gone hc hword hs hr (hok hlooks)]
      exact Nat.zero_lt_one

end Exec

/-! ## Whole runs -/

section Run

variable {sized : Bool} {s t : Sys} {a : Act}

/-- `poll_task` does not read the word while the guard of a panic has closed the task and
not dropped the future. -/
def GuardFirst (s : Sys) : Act → Prop
  | .exec pc _ => pc.looks = true → total Pc.guards s.calls = 0
  | .start _ => True

instance (s : Sys) : (a : Act) → Decidable (GuardFirst s a)
  | .exec _ _ => inferInstanceAs (Decidable (_ → _))
  | .start _ => isTrue trivial

theorem seen_start {op : Op} {pc : Pc} {sh : Shared} (h : Seen s.sh s.calls)
    (hs : start sized s op = some (pc, sh)) : Seen sh (pc ::ₘ s.calls) := by
  cases starts_of_start hs with
  | clone | wakeByRef | poll =>
    simpa only [seen_iff, total_cons, Pc.closedSeen, Pc.idleSeen, zero_add] using h
  | waker pc _ hpc | runnable pc _ hpc | task pc _ hpc =>
    rcases hpc with rfl | rfl | rfl
    all_goals simpa only [seen_iff, total_cons, Pc.closedSeen, Pc.idleSeen, zero_add] using h

theorem seen_of_reachableVia (hs : (system sized).ReachableVia GuardFirst s) :
    Seen s.sh s.calls := by
  have hall : (system sized).Reachable s ∧ Seen s.sh s.calls := by
    refine hs.invariant (I := fun s => (system sized).Reachable s ∧ Seen s.sh s.calls)
      ⟨.init, ?_⟩ ?_
    · constructor <;> simp [system]
    · rintro s a t hok ⟨hr, h⟩ ht
      refine ⟨hr.next ht, ?_⟩
      have hc := counted_of_reachable hr
      have hl := lifetime_of_reachable hr
      obtain ⟨op, pc, sh, rfl, hstart, rfl⟩ | ⟨pc, c, next, sh, rest, rfl, hcalls, -, hexec, rfl⟩ :=
        step_cases ht
      · exact seen_start h hstart
      · replace hok : pc.looks = true → total Pc.guards s.calls = 0 := hok
        rw [hcalls] at h hc hl hok
        exact seen_exec hc hl h hok hexec
  exact hall.2

/-- In every run in which `poll_task` leaves the guard of a panic its time: when `poll_task`
is about to return `Ready(None)`, the future was dropped. -/
theorem none_after_drop (hs : (system sized).ReachableVia GuardFirst s) {pc : Pc}
    (hpc : pc ∈ s.calls) (hnone : pc.answersNone = true) : s.sh.futureDrops = 1 := by
  have hseen := seen_of_reachableVia hs
  have hl := lifetime_of_reachable hs.reachable
  have hle := le_total (f := Pc.idleSeen) hpc
  have hone : pc.idleSeen = 1 := by
    cases pc <;> simp only [Pc.answersNone, reduceCtorEq] at hnone <;>
      simp [Pc.idleSeen, hnone]
  have hpos := hseen.idle (by omega)
  have hfuture := hl.future
  split at hfuture <;> omega

/-- The `Task` is cancelled before its future is polled, and the `Runnable` is run. -/
def cancelThenRun : List Act :=
  let closed : Word := { Word.spawned with closed := true }
  [.start .cancel, .exec (.cancelLoad false) .go, .exec (.cancelLoop false .spawned) .go,
   .start .run, .exec .runLoad .go, .exec (.runLoop closed) .go, .exec .runClosedDrop .go,
   .exec .runClosedAnd .go, .exec (.dropRef .ret) .go,
   .start (.poll 5), .exec (.pollLoad 5) .go,
   .exec (.pollLoop 5 { closed with scheduled := false, refs := 0 }) .go,
   .exec (.takeOr (.pollClosed 5)) .go, .exec (.takeCell (.pollClosed 5)) .go]

theorem none_after_drop_cancel : ∃ s, (system true).ReachableVia GuardFirst s ∧
    .takeAnd (.pollClosed 5) none ∈ s.calls ∧ s.sh.futureDrops = 1 := by
  obtain ⟨s, hs, hpc⟩ := (system true).exists_of_runVia GuardFirst
    (P := fun s => .takeAnd (.pollClosed 5) none ∈ s.calls) cancelThenRun (by decide)
  exact ⟨s, hs, hpc, none_after_drop hs hpc rfl⟩

/-- The poll of the future panics, and `poll_task` reads the word before the guard has
dropped the future. -/
def panicThenPoll : List Act :=
  let running : Word := { Word.spawned with scheduled := false, running := true }
  let closed : Word := { running with running := false, closed := true }
  [.start .run, .exec .runLoad .go, .exec (.runLoop .spawned) .go, .exec (.polling running) .panic,
   .exec .guardLoad .go, .exec (.guardLoop running) .go,
   .start (.poll 5), .exec (.pollLoad 5) .go, .exec (.pollLoop 5 closed) .go,
   .exec (.takeOr (.pollClosed 5)) .go, .exec (.takeCell (.pollClosed 5)) .go]

theorem none_before_drop : ∃ s sh, (system true).Reachable s ∧
    .takeAnd (.pollClosed 5) none ∈ s.calls ∧
    exec true s.sh .go (.takeAnd (.pollClosed 5) none) = some (none, sh) ∧
    s.sh.futureDrops = 0 ∧ sh.futureDrops = 0 := by
  obtain ⟨s, -, hs, hpc, hdrops⟩ := (system true).exists_of_run
    (P := fun s => .takeAnd (.pollClosed 5) none ∈ s.calls ∧ s.sh.futureDrops = 0)
    panicThenPoll (by decide)
  exact ⟨s, _, hs, hpc, rfl, hdrops, hdrops⟩

end Run

end Cynthia.Task
