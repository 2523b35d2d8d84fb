import Cynthia.Task.Counting

/-! The duty to drop the future and the duty to use the output, through one access of a call. -/

namespace Cynthia.Task

open Transition Pool

/-! ## Weights of program points -/

/-- A call that will drop the future, or hands it over to one that will. -/
def Pc.owes : Pc → Nat
  | .wakeRefCall _ | .wakeRefAbort _ | .schedule _ | .scheduleCall _ | .scheduleAbort _
  | .runLoad | .runLoop _ | .runClosedDrop | .polling _ | .readyDrop _ | .pendingDrop _
  | .guardLoad | .guardLoop _ | .guardClosedDrop _ | .guardDrop _
  | .runnableLoad | .runnableLoop _ | .runnableDrop => 1
  | .pendingLoop _ dropped => if dropped then 0 else 1
  | _ => 0

/-- The guard has closed the task and has the future to itself. -/
def Pc.guards : Pc → Nat
  | .guardDrop _ => 1
  | _ => 0

/-- A call that goes on because it found the task closed, or closed it. -/
def Pc.closing : Pc → Nat
  | .runLoop state | .polling state | .guardLoop state => if state.closed then 1 else 0
  | .runnableLoop state => if state.completed || state.closed then 1 else 0
  | .pendingLoop state dropped => if state.closed || dropped then 1 else 0
  | .runClosedDrop | .runClosedAnd | .pendingDrop _ | .guardClosedDrop _ | .guardClosedAnd _
  | .guardDrop _ | .runnableDrop | .runnableAnd => 1
  | _ => 0

/-- A snapshot that forgot that the future is gone. -/
def Pc.stale : Pc → Nat
  | .pendingLoop state dropped => if dropped && !state.closed then 1 else 0
  | .pendingDrop state => if state.closed then 0 else 1
  | _ => 0

/-- `drop_waker` is about to schedule the task a last time. -/
def Pc.stores : Pc → Nat
  | .dropWakerStore _ => 1
  | _ => 0

/-- The poll returned `Ready` and `COMPLETED` is not set yet. -/
def Pc.finishing : Pc → Nat
  | .readyDrop _ | .readyWrite _ | .readyLoop _ => 1
  | _ => 0

/-- The poll returned `Ready` and the output is not in its slot yet. -/
def Pc.unwritten : Pc → Nat
  | .readyDrop _ | .readyWrite _ => 1
  | _ => 0

def TakeFor.uses : TakeFor → Nat
  | .pollOutput _ => 1
  | _ => 0

/-- A call that will move the output out or drop it, or `run` still deciding. -/
def Pc.uses : Pc → Nat
  | .readyLoop _ | .readyDropOutput _ | .detachRead _ | .pollRead => 1
  | .takeOr f | .takeCell f | .takeAnd f _ | .notifyWake f _ => f.uses
  | _ => 0

attribute [local simp] Pc.owes Pc.guards Pc.closing Pc.stale Pc.stores Pc.finishing Pc.unwritten
  Pc.uses

@[mk_iff]
structure Lifetime (sh : Shared) (calls : Multiset Pc) : Prop where
  closing : 0 < total Pc.closing calls → sh.word.closed = true
  stale : total Pc.stale calls = 0
  guard : 0 < total Pc.guards calls → sh.word.scheduled = false ∧ sh.word.running = false
  guards_le : total Pc.guards calls ≤ 1
  completed : sh.word.completed = true →
    sh.word.scheduled = false ∧ sh.word.running = false ∧ total Pc.guards calls = 0
  stores : 0 < total Pc.stores calls → sh.word.completed = false ∧ sh.word.closed = false
  woken : sh.woken = true →
    sh.word.completed = true ∨ sh.word.closed = true ∨ sh.word.scheduled = true
  future : sh.futureDrops =
    if sh.runnables + total Pc.owes calls = 0 ∧ (sh.word.scheduled = true ∨ sh.word.running = true ∨
      sh.word.closed = true ∨ sh.word.completed = true) then 1 else 0
  readies : sh.readies = total Pc.finishing calls + if sh.word.completed = true then 1 else 0
  written : sh.written + total Pc.unwritten calls = sh.readies
  output : sh.moved + sh.dropped + total Pc.uses calls +
    (if sh.word.completed = true ∧ sh.word.closed = false then 1 else 0) = sh.written
  owner : sh.word.completed = true → sh.word.closed = false → sh.word.task = true

theorem owes_le (calls : Multiset Pc) :
    total Pc.owes calls ≤ total Pc.tokens calls + total Pc.runs calls + total Pc.guards calls := by
  induction calls using Multiset.induction_on with
  | empty => exact Nat.zero_le _
  | cons pc calls ih =>
    have : pc.owes ≤ pc.tokens + pc.runs + pc.guards := by
      cases pc with
      | pendingLoop state dropped =>
        cases dropped <;> simp [Pc.owes, Pc.tokens, Pc.runs, Pc.guards]
      | _ => simp [Pc.owes, Pc.tokens, Pc.runs, Pc.guards]
    simp only [total_cons]
    omega

theorem finishing_le_runs (calls : Multiset Pc) :
    total Pc.finishing calls ≤ total Pc.runs calls := by
  apply total_le_total
  intro pc
  cases pc <;> simp [Pc.finishing, Pc.runs]

theorem guards_le_refs (sized : Bool) (calls : Multiset Pc) :
    total Pc.guards calls ≤ total (Pc.refs sized) calls := by
  apply total_le_total
  intro pc
  cases pc <;> simp [Pc.guards, Pc.refs]

theorem guards_le_closing (calls : Multiset Pc) :
    total Pc.guards calls ≤ total Pc.closing calls := by
  apply total_le_total
  intro pc
  cases pc <;> simp [Pc.guards, Pc.closing]

theorem stores_le_ending (calls : Multiset Pc) :
    total Pc.stores calls ≤ total Pc.ending calls := by
  apply total_le_total
  intro pc
  cases pc <;> simp [Pc.stores, Pc.ending]

section Exec

variable {sized : Bool} {sh sh' : Shared} {c : Choice} {pc : Pc} {n : Next} {rest : Multiset Pc}

/-- The task was scheduled, or it has ended. -/
def Word.begun (w : Word) : Prop :=
  w.scheduled = true ∨ w.running = true ∨ w.closed = true ∨ w.completed = true

instance (w : Word) : Decidable w.begun := inferInstanceAs (Decidable (_ ∨ _))

/-- What a call that moves has to do with the future and the output. -/
structure Duties where
  owes : Nat
  guards : Nat
  closing : Nat
  stale : Nat
  stores : Nat
  finishing : Nat
  unwritten : Nat
  uses : Nat

def Pc.duties (pc : Pc) : Duties :=
  ⟨pc.owes, pc.guards, pc.closing, pc.stale, pc.stores, pc.finishing, pc.unwritten, pc.uses⟩

def Duties.none : Duties := ⟨0, 0, 0, 0, 0, 0, 0, 0⟩

/-- `Lifetime` while a call with the duties `d` moves and the other calls are `rest`. Here
`future` says that the future is dropped, or one call or one `Runnable` is there to drop it. -/
structure Bound (sh : Shared) (d : Duties) (rest : Multiset Pc) : Prop where
  closing : 0 < d.closing + total Pc.closing rest → sh.word.closed = true
  stale : d.stale + total Pc.stale rest = 0
  guard : 0 < d.guards + total Pc.guards rest →
    sh.word.scheduled = false ∧ sh.word.running = false
  guards_le : d.guards + total Pc.guards rest ≤ 1
  completed : sh.word.completed = true →
    sh.word.scheduled = false ∧ sh.word.running = false ∧ d.guards + total Pc.guards rest = 0
  stores : 0 < d.stores + total Pc.stores rest →
    sh.word.completed = false ∧ sh.word.closed = false
  woken : sh.woken = true →
    sh.word.completed = true ∨ sh.word.closed = true ∨ sh.word.scheduled = true
  future : sh.futureDrops + (sh.runnables + (d.owes + total Pc.owes rest)) =
    if sh.word.begun then 1 else 0
  readies : sh.readies = d.finishing + total Pc.finishing rest +
    if sh.word.completed = true then 1 else 0
  written : sh.written + (d.unwritten + total Pc.unwritten rest) = sh.readies
  output : sh.moved + sh.dropped + (d.uses + total Pc.uses rest) +
    (if sh.word.completed = true ∧ sh.word.closed = false then 1 else 0) = sh.written
  owner : sh.word.completed = true → sh.word.closed = false → sh.word.task = true

/-- Whoever has a token, runs or guards is alone, and the word says so. -/
theorem Lifetime.owed {calls : Multiset Pc} (hc : Numbers sized sh calls) (h : Lifetime sh calls) :
    sh.futureDrops + (sh.runnables + total Pc.owes calls) = if sh.word.begun then 1 else 0 := by
  have hfuture := h.future
  have howes := owes_le calls
  have htoken := hc.token
  have hrunning := hc.running
  by_cases hnone : sh.runnables + total Pc.owes calls = 0
  · rw [hnone, Nat.add_zero, hfuture]
    by_cases hbegun : sh.word.begun
    · rw [if_pos ⟨hnone, hbegun⟩, if_pos hbegun]
    · rw [if_neg fun hw => hbegun hw.2, if_neg hbegun]
  · rw [if_neg fun hw => hnone hw.1] at hfuture
    rw [hfuture, Nat.zero_add]
    cases hr : sh.word.running with
    | true =>
      have hguards : total Pc.guards calls = 0 := by
        by_contra hpos
        have hidle := (h.guard (Nat.pos_of_ne_zero hpos)).2
        rw [hr] at hidle
        cases hidle
      rw [if_neg (by simp [hr])] at htoken
      rw [if_pos hr] at hrunning
      rw [if_pos (show sh.word.begun from .inr (.inl hr))]
      omega
    | false =>
      rw [if_neg (by simp [hr])] at hrunning
      cases hs : sh.word.scheduled with
      | true =>
        have hguards : total Pc.guards calls = 0 := by
          by_contra hpos
          have hidle := (h.guard (Nat.pos_of_ne_zero hpos)).1
          rw [hs] at hidle
          cases hidle
        rw [if_pos ⟨hs, hr⟩] at htoken
        rw [if_pos (show sh.word.begun from .inl hs)]
        omega
      | false =>
        rw [if_neg (by simp [hs])] at htoken
        have hguards := h.guards_le
        have hclosing := guards_le_closing calls
        have hclosed := h.closing (by omega)
        rw [if_pos (show sh.word.begun from .inr (.inr (.inl hclosed)))]
        omega

theorem Lifetime.bound (hc : Numbers sized sh (pc ::ₘ rest)) (h : Lifetime sh (pc ::ₘ rest)) :
    Bound sh pc.duties rest := by
  have howed := h.owed hc
  rw [lifetime_iff] at h
  simp only [total_cons] at h howed
  obtain ⟨hclosing, hstale, hguard, hguards, hcompleted, hstores, hwoken, -, hreadies, hwritten,
    houtput, howner⟩ := h
  exact ⟨hclosing, hstale, hguard, hguards, hcompleted, hstores, hwoken, howed, hreadies, hwritten,
    houtput, howner⟩

theorem Bound.future_iff {o : Nat} {w : Word}
    (h : sh.futureDrops + (sh.runnables + o) = if w.begun then 1 else 0) :
    sh.futureDrops = if sh.runnables + o = 0 ∧ w.begun then 1 else 0 := by
  by_cases hbegun : w.begun
  · rw [if_pos hbegun] at h
    split
    · omega
    · rename_i hnot
      have : sh.runnables + o ≠ 0 := fun hnone => hnot ⟨hnone, hbegun⟩
      omega
  · rw [if_neg hbegun] at h
    rw [if_neg fun hw => hbegun hw.2]
    omega

theorem Bound.stays_begun {d : Duties} {w : Word} (h : Bound sh d rest) (hbegun : sh.word.begun)
    (hw : w.begun) : sh.futureDrops + (sh.runnables + (d.owes + total Pc.owes rest)) =
      if w.begun then 1 else 0 := by
  rw [h.future, if_pos hbegun, if_pos hw]

theorem Bound.goesOn (h : Bound sh pc.duties rest) : Lifetime sh (resume (some pc) rest) := by
  have hfuture := Bound.future_iff h.future
  obtain ⟨hclosing, hstale, hguard, hguards, hcompleted, hstores, hwoken, -, hreadies, hwritten,
    houtput, howner⟩ := h
  rw [lifetime_iff]
  simp only [total_resume_some]
  exact ⟨hclosing, hstale, hguard, hguards, hcompleted, hstores, hwoken, hfuture, hreadies,
    hwritten, houtput, howner⟩

theorem Bound.returns (h : Bound sh .none rest) : Lifetime sh (resume none rest) := by
  have hfuture := Bound.future_iff h.future
  obtain ⟨hclosing, hstale, hguard, hguards, hcompleted, hstores, hwoken, -, hreadies, hwritten,
    houtput, howner⟩ := h
  simp only [Duties.none, Nat.zero_add] at *
  exact ⟨hclosing, hstale, hguard, hguards, hcompleted, hstores, hwoken, hfuture, hreadies,
    hwritten, houtput, howner⟩

/-! What the word and the other calls tell. -/

variable {d : Duties}

theorem Bound.closed (h : Bound sh d rest) (hd : 0 < d.closing) : sh.word.closed = true :=
  h.closing (Nat.add_pos_left hd _)

theorem Bound.open_running (h : Bound sh d rest) (hr : sh.word.running = true) :
    sh.word.completed = false ∧ d.guards + total Pc.guards rest = 0 := by
  constructor
  · refine Bool.eq_false_iff.mpr fun hcompleted => ?_
    exact Bool.false_ne_true ((h.completed hcompleted).2.1.symm.trans hr)
  · by_contra hpos
    exact Bool.false_ne_true ((h.guard (Nat.pos_of_ne_zero hpos)).2.symm.trans hr)

theorem Bound.open_scheduled (h : Bound sh d rest) (hs : sh.word.scheduled = true) :
    sh.word.completed = false ∧ d.guards + total Pc.guards rest = 0 := by
  constructor
  · refine Bool.eq_false_iff.mpr fun hcompleted => ?_
    exact Bool.false_ne_true ((h.completed hcompleted).1.symm.trans hs)
  · by_contra hpos
    exact Bool.false_ne_true ((h.guard (Nat.pos_of_ne_zero hpos)).1.symm.trans hs)

/-- The guard of a panic works on a closed task. -/
theorem Bound.no_guards (h : Bound sh d rest) (hclosed : sh.word.closed = false) :
    total Pc.guards rest = 0 := by
  have hle := guards_le_closing rest
  have hnone : ¬0 < d.closing + total Pc.closing rest := fun hpos =>
    Bool.false_ne_true (hclosed.symm.trans (h.closing hpos))
  omega

theorem Balanced.no_stores {r t u k e : Nat} (h : Balanced sized sh r t u k e rest)
    (hlive : 0 < sh.word.refs ∨ sh.word.task = true) : total Pc.stores rest = 0 := by
  have hending := h.ending.trans (not_last hlive)
  have hle := stores_le_ending rest
  omega

/-! What a step does to the duties. -/

/-- What `Lifetime` reads of the task. -/
def Shared.progress (sh : Shared) :
    (Bool × Bool × Bool × Bool × Bool) × Bool × Nat × Nat × Nat × Nat × Nat × Nat :=
  ((sh.word.scheduled, sh.word.running, sh.word.completed, sh.word.closed, sh.word.task),
    sh.woken, sh.runnables, sh.futureDrops, sh.readies, sh.written, sh.moved, sh.dropped)

theorem Bound.congr (h : Bound sh d rest) (hsh : sh'.progress = sh.progress) :
    Bound sh' d rest := by
  simp only [Shared.progress, Prod.mk.injEq] at hsh
  obtain ⟨⟨hs, hr, hcompleted, hclosed, htask⟩, hwoken, hrunnables, hdrops, hreadies, hwritten,
    hmoved, hdropped⟩ := hsh
  have hbegun : sh'.word.begun ↔ sh.word.begun := by
    simp only [Word.begun, hs, hr, hcompleted, hclosed]
  constructor
  case closing => exact hclosed ▸ h.closing
  case stale => exact h.stale
  case guard =>
    rw [hs, hr]
    exact h.guard
  case guards_le => exact h.guards_le
  case completed =>
    rw [hcompleted, hs, hr]
    exact h.completed
  case stores =>
    rw [hcompleted, hclosed]
    exact h.stores
  case woken =>
    rw [hwoken, hcompleted, hclosed, hs]
    exact h.woken
  case future =>
    simp only [hdrops, hrunnables, hbegun]
    exact h.future
  case readies =>
    rw [hreadies, hcompleted]
    exact h.readies
  case written =>
    rw [hwritten, hreadies]
    exact h.written
  case output =>
    rw [hmoved, hdropped, hcompleted, hclosed, hwritten]
    exact h.output
  case owner =>
    rw [hcompleted, hclosed, htask]
    exact h.owner

theorem Bound.setClosing {k : Nat} (h : Bound sh d rest) (hk : 0 < k → sh.word.closed = true) :
    Bound sh { d with closing := k } rest :=
  { h with
    closing := by
      intro hpos
      rcases Nat.eq_zero_or_pos k with rfl | hk'
      · exact h.closing (hpos.trans_le (Nat.add_le_add_right (Nat.zero_le _) _))
      · exact hk hk' }

theorem Bound.ceaseClosing (h : Bound sh d rest) : Bound sh { d with closing := 0 } rest :=
  h.setClosing fun hk => absurd hk (lt_irrefl 0)

theorem Bound.wake (h : Bound sh d rest) (hs : sh.word.scheduled = true) :
    Bound { sh with woken := true } d rest :=
  { h with woken := fun _ => .inr (.inr hs) }

theorem Bound.note (h : Bound sh d rest) (hr : sh.word.running = true) :
    Bound { sh with word := { sh.word with scheduled := true } } d rest := by
  obtain ⟨hcompleted, hguards⟩ := h.open_running hr
  exact
    { h with
      guard := fun hpos => absurd hguards hpos.ne'
      completed := fun hset => absurd hset (Bool.eq_false_iff.mp hcompleted)
      woken := fun _ => .inr (.inr rfl)
      future := h.stays_begun (.inr (.inl hr)) (.inl rfl) }

/-- A task at rest has nobody to drop its future. -/
theorem Bound.future_idle (h : Bound sh d rest) (hs : sh.word.scheduled = false)
    (hr : sh.word.running = false) (hclosed : sh.word.closed = false)
    (hcompleted : sh.word.completed = false) :
    sh.futureDrops + (sh.runnables + (d.owes + total Pc.owes rest)) = 0 := by
  rw [h.future, if_neg]
  simp [Word.begun, hs, hr, hclosed, hcompleted]

theorem Bound.schedule (h : Bound sh d rest) (hd : d.guards = 0)
    (hcompleted : sh.word.completed = false) (hclosed : sh.word.closed = false)
    (hs : sh.word.scheduled = false) (hr : sh.word.running = false) :
    Bound { sh with word := { sh.word with scheduled := true } }
      { d with owes := d.owes + 1 } rest := by
  have hguards := h.no_guards hclosed
  have hidle := h.future_idle hs hr hclosed hcompleted
  exact
    { h with
      guard := fun hpos => by
        dsimp only at hpos
        omega
      completed := fun hset => absurd hset (Bool.eq_false_iff.mp hcompleted)
      woken := fun _ => .inr (.inr rfl)
      future := by
        rw [if_pos (show Word.begun _ from .inl rfl)]
        dsimp only
        omega }

theorem Bound.giveRunnable (h : Bound sh { d with owes := d.owes + 1 } rest) :
    Bound { sh with runnables := sh.runnables + 1 } d rest :=
  { h with
    future := by
      have hfuture := h.future
      dsimp only at hfuture ⊢
      omega }

theorem Bound.toStore (h : Bound sh d rest) (hcompleted : sh.word.completed = false)
    (hclosed : sh.word.closed = false) : Bound sh { d with stores := 1 } rest :=
  { h with stores := fun _ => ⟨hcompleted, hclosed⟩ }

/-- A task at rest that nobody refers to is scheduled a last time, and closed. -/
theorem Bound.lastRun (h : Bound sh d rest) (hd : d.guards = 0)
    (hcompleted : sh.word.completed = false) (hclosed : sh.word.closed = false)
    (hs : sh.word.scheduled = false) (hr : sh.word.running = false)
    (hstores : total Pc.stores rest = 0) :
    Bound { sh with word := .lastRun } { d with owes := d.owes + 1, stores := 0 } rest := by
  have hguards := h.no_guards hclosed
  have hidle := h.future_idle hs hr hclosed hcompleted
  exact
    { h with
      closing := fun _ => rfl
      guard := fun hpos => by
        dsimp only at hpos
        omega
      completed := fun hset => absurd hset Bool.false_ne_true
      stores := fun hpos => by
        dsimp only at hpos
        omega
      woken := fun _ => .inr (.inl rfl)
      future := by
        rw [if_pos (show Word.begun _ from .inl rfl)]
        dsimp only
        omega
      readies := by
        rw [h.readies, hcompleted]
        rfl
      output := by
        have houtput := h.output
        rw [hcompleted] at houtput
        exact houtput
      owner := fun hset => absurd hset Bool.false_ne_true }

theorem Bound.beginRun (h : Bound sh d rest) (hs : sh.word.scheduled = true) :
    Bound { sh with word := { sh.word with scheduled := false, running := true }, woken := false }
      d rest := by
  obtain ⟨hcompleted, hguards⟩ := h.open_scheduled hs
  exact
    { h with
      guard := fun hpos => absurd hguards hpos.ne'
      completed := fun hset => absurd hset (Bool.eq_false_iff.mp hcompleted)
      woken := fun hset => absurd hset Bool.false_ne_true
      future := h.stays_begun (.inl hs) (.inr (.inl rfl)) }

theorem Bound.dropFuture (h : Bound sh { d with owes := d.owes + 1 } rest) :
    Bound { sh with futureDrops := sh.futureDrops + 1 } d rest :=
  { h with
    future := by
      have hfuture := h.future
      dsimp only at hfuture ⊢
      omega }

/-- A closed task comes to rest. -/
theorem Bound.unschedule (h : Bound sh d rest) (hclosed : sh.word.closed = true) :
    Bound { sh with word := { sh.word with scheduled := false } } d rest :=
  { h with
    guard := fun hpos => ⟨rfl, (h.guard hpos).2⟩
    completed := fun hset => ⟨rfl, (h.completed hset).2⟩
    woken := fun _ => .inr (.inl hclosed)
    future := h.stays_begun (.inr (.inr (.inl hclosed))) (.inr (.inr (.inl hclosed))) }

theorem Bound.endRun (h : Bound sh d rest) (hclosed : sh.word.closed = true) :
    Bound { sh with word := { sh.word with running := false, scheduled := false } } d rest :=
  { h with
    guard := fun _ => ⟨rfl, rfl⟩
    completed := fun hset => ⟨rfl, rfl, (h.completed hset).2.2⟩
    woken := fun _ => .inr (.inl hclosed)
    future := h.stays_begun (.inr (.inr (.inl hclosed))) (.inr (.inr (.inl hclosed))) }

theorem Bound.ready (h : Bound sh d rest) :
    Bound { sh with readies := sh.readies + 1 }
      { d with finishing := d.finishing + 1, unwritten := d.unwritten + 1 } rest :=
  { h with
    readies := by
      have hreadies := h.readies
      dsimp only
      omega
    written := by
      have hwritten := h.written
      dsimp only
      omega }

theorem Bound.write (h : Bound sh { d with unwritten := d.unwritten + 1 } rest) :
    Bound { sh with written := sh.written + 1 } { d with uses := d.uses + 1 } rest :=
  { h with
    written := by
      have hwritten := h.written
      dsimp only at hwritten ⊢
      omega
    output := by
      have houtput := h.output
      dsimp only at houtput ⊢
      omega }

/-- A finished poll completes the task; the output waits if the `Task` is there and the task
is open. -/
theorem Bound.finishPoll {v : Nat}
    (h : Bound sh { d with finishing := d.finishing + 1, uses := v } rest)
    (hr : sh.word.running = true) (hd : d.stores = 0) (hstores : total Pc.stores rest = 0)
    (huses : v = d.uses + if (sh.word.closed || !sh.word.task) = true then 0 else 1) :
    Bound { sh with word := sh.word.finishPoll } d rest := by
  obtain ⟨hcompleted, hguards⟩ := h.open_running hr
  exact
    { h with
      closing := fun hpos => by
        have hclosed := h.closing hpos
        simp [Word.finishPoll, hclosed]
      guard := fun _ => ⟨rfl, rfl⟩
      completed := fun _ => ⟨rfl, rfl, hguards⟩
      stores := fun hpos => by
        omega
      woken := fun _ => .inl rfl
      future := h.stays_begun (.inr (.inl hr)) (.inr (.inr (.inr rfl)))
      readies := by
        have hreadies := h.readies
        rw [if_neg (Bool.eq_false_iff.mp hcompleted)] at hreadies
        rw [if_pos (show sh.word.finishPoll.completed = true from rfl)]
        dsimp only at hreadies ⊢
        omega
      output := by
        have houtput := h.output
        rw [if_neg (by simp [hcompleted])] at houtput
        dsimp only at houtput
        cases hover : sh.word.closed || !sh.word.task with
        | true =>
          rw [if_pos hover] at huses
          rw [if_neg (by simp [Word.finishPoll, hover])]
          dsimp only
          omega
        | false =>
          rw [if_neg (by simp [hover])] at huses
          rw [if_pos ⟨rfl, hover⟩]
          dsimp only
          omega
      owner := fun _ hopen => by
        have hover : (sh.word.closed || !sh.word.task) = false := hopen
        have htask : sh.word.task = true := by simpa using (Bool.or_eq_false_iff.mp hover).2
        exact htask }

theorem Bound.dropOutput (h : Bound sh { d with uses := d.uses + 1 } rest) :
    Bound { sh with dropped := sh.dropped + 1 } d rest :=
  { h with
    output := by
      have houtput := h.output
      dsimp only at houtput ⊢
      omega }

theorem Bound.moveOutput (h : Bound sh { d with uses := d.uses + 1 } rest) :
    Bound { sh with moved := sh.moved + 1 } d rest :=
  { h with
    output := by
      have houtput := h.output
      dsimp only at houtput ⊢
      omega }

theorem Bound.runAgain (h : Bound sh d rest) (hr : sh.word.running = true)
    (hs : sh.word.scheduled = true) :
    Bound { sh with word := { sh.word with running := false } } d rest := by
  obtain ⟨hcompleted, hguards⟩ := h.open_running hr
  exact
    { h with
      guard := fun hpos => absurd hguards hpos.ne'
      completed := fun hset => absurd hset (Bool.eq_false_iff.mp hcompleted)
      future := h.stays_begun (.inl hs) (.inl hs) }

/-- The future stays with a task at rest. -/
theorem Bound.runIdle (h : Bound sh { d with owes := d.owes + 1 } rest)
    (hr : sh.word.running = true) (hclosed : sh.word.closed = false)
    (hs : sh.word.scheduled = false) :
    Bound { sh with word := { sh.word with running := false } } d rest := by
  obtain ⟨hcompleted, hguards⟩ := h.open_running hr
  exact
    { h with
      guard := fun hpos => absurd hguards hpos.ne'
      completed := fun hset => absurd hset (Bool.eq_false_iff.mp hcompleted)
      future := by
        have hfuture := h.future
        rw [if_pos (show sh.word.begun from .inr (.inl hr))] at hfuture
        rw [if_neg (by simp [Word.begun, hs, hclosed, hcompleted])]
        dsimp only at hfuture ⊢
        omega }

/-- The poll has panicked: the guard closes the task and has the future to itself. -/
theorem Bound.guardClose (h : Bound sh d rest) (hr : sh.word.running = true) (hd : d.stores = 0)
    (hstores : total Pc.stores rest = 0) :
    Bound { sh with word := { sh.word with running := false, scheduled := false, closed := true } }
      { d with guards := 1, closing := 1 } rest := by
  obtain ⟨hcompleted, hguards⟩ := h.open_running hr
  exact
    { h with
      closing := fun _ => rfl
      guard := fun _ => ⟨rfl, rfl⟩
      guards_le := by
        dsimp only
        omega
      completed := fun hset => absurd hset (Bool.eq_false_iff.mp hcompleted)
      stores := fun hpos => by
        dsimp only at hpos
        omega
      woken := fun _ => .inr (.inl rfl)
      future := h.stays_begun (.inr (.inl hr)) (.inr (.inr (.inl rfl)))
      output := by
        have houtput := h.output
        rw [if_neg (by simp [hcompleted])] at houtput
        rw [if_neg (by simp)]
        exact houtput
      owner := fun _ hopen => absurd hopen.symm Bool.false_ne_true }

theorem Bound.guardDone (h : Bound sh { d with guards := d.guards + 1 } rest) : Bound sh d rest :=
  { h with
    guard := fun hpos => h.guard (by
      dsimp only
      omega)
    guards_le := by
      have hguards := h.guards_le
      dsimp only at hguards
      omega
    completed := fun hset => by
      obtain ⟨hs, hr, hguards⟩ := h.completed hset
      dsimp only at hguards
      omega }

theorem Bound.close (h : Bound sh d rest) (hcompleted : sh.word.completed = false)
    (hbegun : sh.word.begun) (hd : d.stores = 0) (hstores : total Pc.stores rest = 0) :
    Bound { sh with word := { sh.word with closed := true } } d rest :=
  { h with
    closing := fun _ => rfl
    stores := fun hpos => by
      omega
    woken := fun _ => .inr (.inl rfl)
    future := h.stays_begun hbegun (.inr (.inr (.inl rfl)))
    output := by
      have houtput := h.output
      rw [if_neg (by simp [hcompleted])] at houtput
      rw [if_neg (by simp)]
      exact houtput
    owner := fun _ hopen => absurd hopen.symm Bool.false_ne_true }

/-- The output of a completed task goes to the one who closes it. -/
theorem Bound.claim (h : Bound sh d rest) (hcompleted : sh.word.completed = true)
    (hclosed : sh.word.closed = false) :
    Bound { sh with word := { sh.word with closed := true } }
      { d with uses := d.uses + 1 } rest :=
  { h with
    closing := fun _ => rfl
    stores := fun hpos => absurd hcompleted (Bool.eq_false_iff.mp (h.stores hpos).1)
    woken := fun _ => .inr (.inl rfl)
    future := h.stays_begun (.inr (.inr (.inr hcompleted))) (.inr (.inr (.inl rfl)))
    output := by
      have houtput := h.output
      rw [if_pos ⟨hcompleted, hclosed⟩] at houtput
      rw [if_neg (by simp)]
      dsimp only
      omega
    owner := fun _ hopen => absurd hopen.symm Bool.false_ne_true }

theorem Bound.detach (h : Bound sh d rest)
    (hopen : sh.word.completed = true → sh.word.closed = true) :
    Bound { sh with word := { sh.word with task := false } } d rest :=
  { h with
    owner := fun hcompleted hclosed =>
      absurd (hopen hcompleted) (Bool.eq_false_iff.mp hclosed) }

/-! What the functions that end an operation make of the duties. -/

theorem Bound.afterCancel (dropping : Bool) (h : Bound sh .none rest) :
    Lifetime (afterCancel sh dropping).2 (resume (afterCancel sh dropping).1 rest) := by
  cases dropping with
  | true => exact Bound.goesOn h
  | false => exact Bound.returns (h.congr rfl)

theorem Bound.finish (k : Cont) (h : Bound sh .none rest) :
    Lifetime (finish sh k).2 (resume (finish sh k).1 rest) := by
  cases k with
  | ret | detached => exact h.returns
  | wakeAwaiter w => exact Bound.goesOn h
  | canceled awaiter dropping =>
    cases awaiter with
    | true => exact Bound.goesOn h
    | false => exact Bound.afterCancel dropping h

theorem Bound.finishWakeRef (k : WakeBy) (h : Bound sh .none rest) :
    Lifetime (finishWakeRef sh k).2 (resume (finishWakeRef sh k).1 rest) := by
  cases k with
  | ref b => exact h.returns
  | val => exact Bound.goesOn h

theorem Bound.finishRun {k : Nat} (awaiter : Bool)
    (h : Bound sh { Duties.none with closing := k } rest) : Lifetime (finishRun sh awaiter).2 (resume (finishRun sh awaiter).1 rest) := by
  have hdone := h.ceaseClosing
  cases awaiter with
  | true => exact Bound.goesOn hdone
  | false => exact Bound.goesOn hdone

theorem Bound.notifyDone (f : TakeFor) (h : Bound sh { Duties.none with uses := f.uses } rest) :
    Lifetime (notifyDone sh f).2 (resume (notifyDone sh f).1 rest) := by
  cases f with
  | runner | runnable | pollOutput => exact Bound.goesOn h
  | canceled dropping => exact Bound.afterCancel dropping h
  | pollClosed w => exact Bound.returns (h.congr rfl)

theorem Bound.takeDone (f : TakeFor) (got : Option Waker)
    (h : Bound sh { Duties.none with uses := f.uses } rest) :
    Lifetime (takeDone sh f got).2 (resume (takeDone sh f got).1 rest) := by
  unfold Task.takeDone
  split
  · exact Bound.goesOn h
  · exact Bound.goesOn h
  · exact Bound.goesOn h
  · exact h.notifyDone f

theorem pos_of_ite {b : Bool} (h : 0 < if b = true then 1 else 0) : b = true := by
  by_contra hb
  rw [if_neg hb] at h
  exact lt_irrefl 0 h

/-! The moves. -/

theorem lifetime_wakeRef (h : Bound sh pc.duties rest) (hm : WakeRefMoves sh pc n) :
    Lifetime n.2 (resume n.1 rest) := by
  cases hm with
  | cloneAbort b => exact Bound.goesOn (h.congr rfl)
  | clone b => exact Bound.returns (h.congr rfl)
  | load k | retry k => exact Bound.goesOn h
  | ended k | returns k => exact Bound.finishWakeRef k h
  | scheduled k hs => exact Bound.finishWakeRef k (h.wake hs)
  | running k _ _ hr => exact Bound.finishWakeRef k ((h.note hr).wake rfl)
  | idle k pc' hcompleted hclosed hs hr hpc' =>
    have hnew := (h.schedule rfl hcompleted hclosed hs hr).wake rfl
    rcases hpc' with rfl | rfl
    · exact Bound.goesOn (hnew.congr rfl)
    · exact Bound.goesOn (hnew.congr rfl)
  | call k => exact Bound.goesOn (Bound.giveRunnable h)

theorem lifetime_wake (h : Bound sh pc.duties rest) (hm : WakeMoves sized sh pc n) :
    Lifetime n.2 (resume n.1 rest) := by
  cases hm with
  | load | retry | ended | pass | release => exact Bound.goesOn h
  | scheduled hs => exact Bound.goesOn (h.wake hs)
  | running _ _ hr => exact Bound.goesOn ((h.note hr).wake rfl)
  | idle hcompleted hclosed hs hr =>
    exact Bound.goesOn ((h.schedule rfl hcompleted hclosed hs hr).wake rfl)
  | acquire k pc' _ hpc' =>
    rcases hpc' with rfl | rfl
    · exact Bound.goesOn (h.congr rfl)
    · exact Bound.goesOn (h.congr rfl)
  | call k => exact Bound.goesOn (Bound.giveRunnable h)
  | returns k => exact Bound.finish k h

theorem lifetime_drop (hc : Holding sized sh pc rest) (h : Bound sh pc.duties rest)
    (hm : DropMoves sh pc n) : Lifetime n.2 (resume n.1 rest) := by
  cases hm with
  | toStore k _ _ hcompleted hclosed =>
    exact Bound.goesOn ((h.toStore hcompleted hclosed).congr rfl)
  | wakerLast | refLast => exact Bound.goesOn (h.congr rfl)
  | waker k | ref k | destroy k => exact Bound.finish k (h.congr rfl)
  | store k =>
    obtain ⟨hcompleted, hclosed⟩ := h.stores (Nat.add_pos_left Nat.one_pos _)
    obtain ⟨hs, hr⟩ := hc.deserted_idle hc.ending_held.1
    have hstores : total Pc.stores rest = 0 := by
      have hending := hc.ending
      rw [if_pos hc.ending_held] at hending
      have hle := stores_le_ending rest
      have hone : (Pc.dropWakerStore k).ending = 1 := rfl
      omega
    exact Bound.goesOn (h.lastRun rfl hcompleted hclosed hs hr hstores)
  | wakeAwaiter w => exact Bound.returns (h.congr rfl)

theorem lifetime_take (h : Bound sh pc.duties rest) (hm : TakeMoves sh pc n) :
    Lifetime n.2 (resume n.1 rest) := by
  cases hm with
  | won f | cell f => exact Bound.goesOn (h.congr rfl)
  | lost f => exact Bound.takeDone f none (h.congr rfl)
  | release f got => exact Bound.takeDone f (keep f got) (h.congr rfl)
  | wake f w => exact Bound.notifyDone f (h.congr rfl)

theorem lifetime_run (hc : Holding sized sh pc rest) (h : Bound sh pc.duties rest)
    (hm : RunMoves sh pc n) : Lifetime n.2 (resume n.1 rest) := by
  cases hm with
  | load | retry => exact Bound.goesOn (h.setClosing pos_of_ite)
  | closed state hclosed =>
    have hset := h.closed (by simp [Pc.duties, Pc.closing, hclosed])
    exact Bound.goesOn (h.setClosing fun _ => hset)
  | poll hclosed =>
    exact Bound.goesOn ((h.beginRun hc.token_held.1).setClosing pos_of_ite)
  | closedDrop => exact Bound.goesOn (Bound.dropFuture h)
  | closedAnd => exact Bound.finishRun _ (h.unschedule (h.closed Nat.one_pos))
  | ready state => exact Bound.goesOn h.ready.ceaseClosing
  | pending state =>
    refine Bound.goesOn (h.setClosing fun hk => h.closed ?_)
    simpa [Pc.duties, Pc.closing] using hk
  | panic state => exact Bound.goesOn h.ceaseClosing
  | readyDrop state => exact Bound.goesOn (Bound.dropFuture h)
  | readyWrite state =>
    exact Bound.goesOn (Bound.write (d := { Duties.none with finishing := 1 }) h)
  | readyRetry state => exact Bound.goesOn h
  | unclaimed hclosed =>
    have hstores := hc.no_stores (.inl hc.refs_pos)
    exact Bound.goesOn (Bound.finishPoll h hc.run_held rfl hstores (by rw [if_pos hclosed]; rfl))
  | completed hopen =>
    have hstores := hc.no_stores (.inl hc.refs_pos)
    exact Bound.finishRun (k := 0) _
      (Bound.finishPoll h hc.run_held rfl hstores (by rw [if_neg (by simp [hopen])]; rfl))
  | dropOutput awaiter => exact Bound.finishRun awaiter (Bound.dropOutput h)

/-- A snapshot that has seen the future dropped is closed. -/
theorem Bound.dropped_closed {state : Word} (h : Bound sh (Pc.pendingLoop state true).duties rest) :
    state.closed = true := by
  by_contra hopen
  have hnone := h.stale
  simp [Pc.duties, Pc.stale, hopen] at hnone

theorem duties_dropped {state : Word} (hclosed : state.closed = true) :
    (Pc.pendingLoop state true).duties = { Duties.none with closing := 1 } := by
  simp [Pc.duties, Duties.none, hclosed]

theorem lifetime_pending (hc : Holding sized sh pc rest) (h : Bound sh pc.duties rest)
    (hm : PendingMoves sh pc n) : Lifetime n.2 (resume n.1 rest) := by
  cases hm with
  | closed state hclosed =>
    have hset := h.closed (by simp [Pc.duties, Pc.closing, hclosed])
    have hduties : (Pc.pendingDrop state).duties =
        { (Pc.pendingLoop state false).duties with closing := 1 } := by
      simp [Pc.duties, hclosed]
    refine Bound.goesOn ?_
    rw [hduties]
    exact h.setClosing fun _ => hset
  | retry state dropped =>
    cases dropped with
    | true =>
      have hstate := h.dropped_closed
      have hset := h.closed (by simp [Pc.duties, Pc.closing])
      rw [duties_dropped hstate] at h
      refine Bound.goesOn ?_
      rw [duties_dropped hset]
      exact h
    | false =>
      exact Bound.goesOn (h.setClosing fun hk => pos_of_ite (by simpa [Pc.closing] using hk))
  | ended hclosed =>
    rw [duties_dropped hclosed] at h
    exact Bound.finishRun _ (h.endRun hclosed)
  | again dropped hclosed hs =>
    cases dropped with
    | true => exact absurd h.dropped_closed (Bool.eq_false_iff.mp hclosed)
    | false => exact Bound.goesOn (h.runAgain hc.run_held hs).ceaseClosing
  | idle dropped hclosed hs =>
    cases dropped with
    | true => exact absurd h.dropped_closed (Bool.eq_false_iff.mp hclosed)
    | false => exact Bound.goesOn (Bound.runIdle h.ceaseClosing hc.run_held hclosed hs)
  | drop state =>
    have hclosed : state.closed = true := by
      by_contra hopen
      have hnone := h.stale
      simp [Pc.duties, Pc.stale, hopen] at hnone
    have hduties : (Pc.pendingDrop state).duties =
        { Duties.none with owes := 1, closing := 1 } := by
      simp [Pc.duties, Duties.none, hclosed]
    rw [hduties] at h
    refine Bound.goesOn ?_
    rw [duties_dropped hclosed]
    exact Bound.dropFuture h

theorem lifetime_guard (hc : Holding sized sh pc rest) (h : Bound sh pc.duties rest)
    (hm : GuardMoves sh pc n) : Lifetime n.2 (resume n.1 rest) := by
  cases hm with
  | load | retry => exact Bound.goesOn (h.setClosing pos_of_ite)
  | closed state hclosed =>
    have hset := h.closed (by simp [Pc.duties, Pc.closing, hclosed])
    exact Bound.goesOn (h.setClosing fun _ => hset)
  | close hclosed =>
    exact Bound.goesOn (h.guardClose hc.run_held rfl (hc.no_stores (.inl hc.refs_pos)))
  | closedDrop state => exact Bound.goesOn (Bound.dropFuture h)
  | closedAnd state => exact Bound.finishRun _ (h.endRun (h.closed Nat.one_pos))
  | drop awaiter =>
    have hdropped : Bound { sh with futureDrops := sh.futureDrops + 1 }
        { Duties.none with guards := 1, closing := 1 } rest := Bound.dropFuture h
    exact Bound.finishRun awaiter (Bound.guardDone (d := { Duties.none with closing := 1 }) hdropped)

theorem lifetime_runnable (hc : Holding sized sh pc rest) (h : Bound sh pc.duties rest)
    (hm : RunnableMoves sh pc n) : Lifetime n.2 (resume n.1 rest) := by
  cases hm with
  | load | retry =>
    -- whoever has the `Runnable` finds the task unfinished
    have hcompleted := (h.open_scheduled hc.token_held.1).1
    exact Bound.goesOn
      (h.setClosing fun hk => pos_of_ite (by simpa [Pc.closing, hcompleted] using hk))
  | ended state hended =>
    have hset := h.closed (by simp only [Pc.duties, Pc.closing, if_pos hended, Nat.one_pos])
    exact Bound.goesOn (h.setClosing fun _ => hset)
  | close hcompleted =>
    have hstores := hc.no_stores (.inl hc.refs_pos)
    have hclose := h.close hcompleted (.inl hc.token_held.1) rfl hstores
    exact Bound.goesOn (hclose.setClosing fun _ => rfl)
  | drop => exact Bound.goesOn (Bound.dropFuture h)
  | notify | release => exact Bound.goesOn (h.unschedule (h.closed Nat.one_pos)).ceaseClosing

theorem lifetime_task (hc : Holding sized sh pc rest) (h : Bound sh pc.duties rest)
    (hm : TaskMoves sh pc n) : Lifetime n.2 (resume n.1 rest) := by
  cases hm with
  | load | retry | missed | again => exact Bound.goesOn h
  | ended dropping => exact Bound.afterCancel dropping h
  | closeNotify dropping hcompleted _ hbusy =>
    have hstores := hc.no_stores (.inr hc.task_held.1)
    exact Bound.goesOn (h.close hcompleted (hbusy.imp_right .inl) rfl hstores)
  | close dropping hcompleted _ hbusy =>
    have hstores := hc.no_stores (.inr hc.task_held.1)
    exact Bound.afterCancel dropping (h.close hcompleted (hbusy.imp_right .inl) rfl hstores)
  | closeIdle dropping hcompleted hclosed hs hr =>
    have hstores := hc.no_stores (.inr hc.task_held.1)
    have hnew := (h.schedule rfl hcompleted hclosed hs hr).close hcompleted (.inl rfl) rfl hstores
    exact Bound.goesOn (hnew.congr rfl)
  | fast hspawned =>
    exact Bound.returns ((h.detach (by simp [hspawned, Word.spawned])).congr rfl)
  | claim hcompleted hclosed => exact Bound.goesOn (h.claim hcompleted hclosed)
  | lastRun hrefs hcompleted hclosed =>
    have hstores := hc.no_stores (.inr hc.task_held.1)
    obtain ⟨hs, hr⟩ := hc.deserted_idle hrefs
    exact Bound.goesOn ((h.lastRun rfl hcompleted hclosed hs hr hstores).congr rfl)
  | destroy _ hclosed => exact Bound.goesOn ((h.detach fun _ => hclosed).congr rfl)
  | detach _ hopen => exact Bound.returns ((h.detach hopen).congr rfl)
  | read state => exact Bound.goesOn (Bound.moveOutput h)

theorem lifetime_poll (h : Bound sh pc.duties rest) (hm : PollMoves sh pc n) :
    Lifetime n.2 (resume n.1 rest) := by
  cases hm with
  | load | wait | retry | waitOpen | seenOpen => exact Bound.goesOn h
  | closed | seenClosed => exact Bound.goesOn (h.congr rfl)
  | claimNotify w hclosed hcompleted | claim w hclosed hcompleted =>
    exact Bound.goesOn ((h.claim hcompleted hclosed).congr rfl)
  | pendingClosed | pendingOpen => exact Bound.returns (h.congr rfl)
  | read => exact Bound.returns ((Bound.moveOutput h).congr rfl)

theorem lifetime_register (h : Bound sh pc.duties rest) (hm : RegisterMoves sh pc n) :
    Lifetime n.2 (resume n.1 rest) := by
  cases hm with
  | load | retry | leave | recheck => exact Bound.goesOn h
  | wakeOwn | lock | write | takeBack | store | unlock | wake => exact Bound.goesOn (h.congr rfl)

theorem lifetime_exec (hc : Counted sized sh (pc ::ₘ rest)) (h : Lifetime sh (pc ::ₘ rest))
    (he : exec sized sh c pc = some n) : Lifetime n.2 (resume n.1 rest) := by
  have hn := hc.numbers
  have hb := h.bound hn
  have hn := numbers_cons.mp hn
  rcases moves_of_exec he with hm | hm | hm | hm | hm | hm | hm | hm | hm | hm | hm
  · exact lifetime_wakeRef hb hm
  · exact lifetime_wake hb hm
  · exact lifetime_drop hn hb hm
  · exact lifetime_take hb hm
  · exact lifetime_run hn hb hm
  · exact lifetime_pending hn hb hm
  · exact lifetime_guard hn hb hm
  · exact lifetime_runnable hn hb hm
  · exact lifetime_task hn hb hm
  · exact lifetime_poll hb hm
  · exact lifetime_register hb hm

end Exec

end Cynthia.Task
