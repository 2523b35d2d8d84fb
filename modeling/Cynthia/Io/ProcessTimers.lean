import Cynthia.Io.React

/-! `Reactor::process_timers` of `io/reactor.rs` by itself: the loop that applies the
queued operations, the cut of the map at `(now, 0)`, and the duration until the next
timer. What it should fire are the timers that `Timer::poll_next` takes for due. -/

namespace Cynthia.Io

namespace TimerMap

/-- The entries of a `BTreeMap` are in the order of their keys. -/
def Sorted (m : TimerMap) : Prop := m.Pairwise fun e e' => keyLe e.1 e'.1

instance : IsTrans Entry fun e e' => keyLe e.1 e'.1 := by
  refine ⟨fun a b c hab hbc => ?_⟩
  unfold keyLe at *
  rcases hab with hab | ⟨hab, hid⟩
  · rcases hbc with hbc | ⟨hbc, -⟩
    · exact .inl (Nat.lt_trans hab hbc)
    · exact .inl (hbc ▸ hab)
  · rcases hbc with hbc | ⟨hbc, hid'⟩
    · exact .inl (hab ▸ hbc)
    · exact .inr ⟨hab.trans hbc, hid.trans hid'⟩

instance : Std.Total fun e e' : Entry => keyLe e.1 e'.1 := by
  refine ⟨fun a b => ?_⟩
  rcases Nat.lt_trichotomy a.1.1 b.1.1 with hlt | heq | hgt
  · exact .inl (.inl hlt)
  · exact (Nat.le_total a.1.2 b.1.2).imp (fun h => .inr ⟨heq, h⟩) fun h => .inr ⟨heq.symm, h⟩
  · exact .inr (.inl hgt)

variable {m : TimerMap} {now : Instant}

theorem Sorted.apply (h : m.Sorted) (op : TimerOp) : (m.apply op).Sorted := by
  cases op with
  | insert when id waker => exact List.Pairwise.orderedInsert _ _ (List.Pairwise.filter _ h)
  | remove when id => exact List.Pairwise.filter _ h

theorem Sorted.applyOps (h : m.Sorted) (ops : List TimerOp) : (m.applyOps ops).Sorted := by
  induction ops generalizing m with
  | nil => exact h
  | cons op ops ih => exact ih (h.apply op)

/-- The first deadline of a map is the earliest one. -/
theorem Sorted.head?_eq_min? (h : m.Sorted) :
    m.head?.map (fun e => e.1.1) = (m.map fun e => e.1.1).min? := by
  rw [List.min?_eq_head?, List.head?_map]
  refine List.pairwise_map.mpr (h.imp fun {e e'} hle => Nat.min_eq_left ?_)
  rcases hle with hlt | ⟨heq, -⟩
  · exact Nat.le_of_lt hlt
  · exact Nat.le_of_eq heq

end TimerMap

namespace ProcessTimers

variable {cap : Nat} {m : TimerMap} {ops : List TimerOp} {now : Instant} {wakers : List Waker}

/-- The loop of `process_timer_ops`, with as many turns as the queue has room. -/
def processTimerOps : Nat → TimerMap → List TimerOp → TimerMap × List TimerOp
  | 0, m, ops => (m, ops)
  | _ + 1, m, [] => (m, [])
  | turns + 1, m, op :: ops => processTimerOps turns (m.apply op) ops

structure Result where
  timers : TimerMap
  timerOps : List TimerOp
  wakers : List Waker
  dur : Option Nat
  deriving DecidableEq

def processTimers (cap : Nat) (m : TimerMap) (ops : List TimerOp) (now : Instant)
    (wakers : List Waker) : Result :=
  let (timers, ops) := processTimerOps cap m ops
  let pending := timers.pending now
  let ready := timers.ready now
  let dur := if ready = [] then pending.head?.map fun e => e.1.1 - now else some 0
  ⟨pending, ops, wakers ++ ready.map Prod.snd, dur⟩

theorem processTimerOps_eq (h : ops.length ≤ cap) :
    processTimerOps cap m ops = (m.applyOps ops, []) := by
  induction cap generalizing m ops with
  | zero =>
    obtain rfl := List.length_eq_zero_iff.mp (Nat.le_zero.mp h)
    rfl
  | succ turns ih =>
    cases ops with
    | nil => rfl
    | cons op ops => exact ih (Nat.le_of_succ_le_succ h)

/-- A queue that holds no more than its capacity is emptied, as `react` relies on. -/
theorem processTimers_eq (r : React.Reactor) (h : r.timerOps.length ≤ cap) :
    React.processTimers r now wakers =
      let res := processTimers cap r.timers r.timerOps now wakers
      ({ r with timers := res.timers, timerOps := res.timerOps }, res.wakers, res.dur) := by
  simp only [React.processTimers, processTimers, processTimerOps_eq h]

/-- The test `Instant::now() >= self.when` of `Timer::poll_next`. -/
def isDue (now when : Instant) : Bool := when ≤ now

def due (m : TimerMap) (now : Instant) : TimerMap := m.filter fun e => isDue now e.1.1

def notDue (m : TimerMap) (now : Instant) : TimerMap := m.filter fun e => !isDue now e.1.1

/-- The due entries of `m` fired, in the order of their keys, and the others are left. -/
structure FiresDue (m : TimerMap) (now : Instant) (wakers : List Waker) (res : Result) : Prop where
  fired : res.wakers = wakers ++ (due m now).map Prod.snd
  left : res.timers = notDue m now
  emptied : res.timerOps = []
  dur : res.dur =
    if due m now = [] then ((notDue m now).map fun e => e.1.1).min?.map fun when => when - now
    else some 0

/-- No entry on the boundary, no difference between the two tests. -/
theorem ready_eq_due (h : ∀ e ∈ m, e.1.1 ≠ now) : m.ready now = due m now := by
  refine List.filter_congr fun e he => ?_
  rw [isDue, decide_eq_decide, TimerMap.keyLe_now_iff, Nat.not_le]
  exact ⟨Nat.le_of_lt, fun hle => Nat.lt_of_le_of_ne hle (h e he)⟩

theorem pending_eq_notDue (h : ∀ e ∈ m, e.1.1 ≠ now) : m.pending now = notDue m now := by
  refine List.filter_congr fun e he => ?_
  rw [isDue, ← decide_not, decide_eq_decide, TimerMap.keyLe_now_iff, Nat.not_le]
  exact ⟨fun hle => Nat.lt_of_le_of_ne hle (h e he).symm, Nat.le_of_lt⟩

/-- `process_timers` fires exactly the timers that are due, unless one is due right now. -/
theorem process_timers_fires_due_iff (hm : m.Sorted) (hcap : ops.length ≤ cap) :
    FiresDue (m.applyOps ops) now wakers (processTimers cap m ops now wakers) ↔
      ∀ e ∈ m.applyOps ops, e.1.1 ≠ now := by
  have hsorted := hm.applyOps ops
  simp only [processTimers, processTimerOps_eq hcap]
  generalize m.applyOps ops = m at hsorted
  constructor
  · -- An entry on the boundary stays in the map.
    intro h e he hnow
    have hin : e ∈ m.pending now := TimerMap.mem_pending.mpr ⟨he, hnow.ge⟩
    rw [show m.pending now = notDue m now from h.left] at hin
    simp [notDue, isDue, hnow] at hin
  · intro h
    refine ⟨?_, pending_eq_notDue h, rfl, ?_⟩
    · rw [ready_eq_due h]
    · have hleft : TimerMap.Sorted (notDue m now) := List.Pairwise.filter _ hsorted
      dsimp only
      rw [ready_eq_due h, pending_eq_notDue h, ← hleft.head?_eq_min?, Option.map_map]
      rfl

theorem process_timers_fires_due_queued :
    FiresDue (TimerMap.applyOps [((3, 1), 7), ((9, 2), 8)] [.insert 4 3 9]) 5 []
        (processTimers 1000 [((3, 1), 7), ((9, 2), 8)] [.insert 4 3 9] 5 []) ∧
      (processTimers 1000 [((3, 1), 7), ((9, 2), 8)] [.insert 4 3 9] 5 []).wakers = [7, 9] := by
  refine ⟨?_, by decide⟩
  refine (process_timers_fires_due_iff ?_ (by decide)).mpr (by decide)
  exact List.pairwise_pair.mpr (.inl (by decide))

/-- A timer whose deadline is the sampled instant is due for `poll_next`, and stays in
the map. -/
theorem process_timers_keeps_due : TimerMap.Sorted [((5, 1), 7)] ∧
    processTimers 1000 [((5, 1), 7)] [] 5 [] = ⟨[((5, 1), 7)], [], [], some 0⟩ ∧
    due [((5, 1), 7)] 5 = [((5, 1), 7)] ∧
    ¬FiresDue (TimerMap.applyOps [((5, 1), 7)] []) 5 []
      (processTimers 1000 [((5, 1), 7)] [] 5 []) := by
  refine ⟨List.pairwise_singleton .., by decide, by decide, fun h => ?_⟩
  cases h.left

end ProcessTimers

end Cynthia.Io
