import Cynthia.Task.Lifetime

/-! The handshake between `Header::register` and `Header::take`, and the waker of
the last poll of the `Task`. -/

namespace Cynthia.Task

open Transition Pool

/-! ## Weights of program points -/

/-- `register` between setting and clearing `REGISTERING`. -/
def Pc.registers : Pc → Nat
  | .registerWrite _ _ _ | .registerCheck _ _ _ _ | .registerSwap _ _ _ _ => 1
  | _ => 0

/-- `take` after winning the cell of the awaiter. -/
def Pc.wins : Pc → Nat
  | .takeCell _ | .takeAnd _ _ => 1
  | _ => 0

/-- `register` has its waker in the cell. -/
def Pc.offers : Pc → Nat
  | .registerCheck _ _ _ got | .registerSwap _ _ _ got => if got = none then 1 else 0
  | _ => 0

/-- `take`, or `register` for another `take`, has emptied the cell. -/
def Pc.emptied : Pc → Nat
  | .takeAnd _ _ => 1
  | .registerCheck _ _ _ got | .registerSwap _ _ _ got => if got = none then 0 else 1
  | _ => 0

/-- A poll of the `Task` that has not decided to return `Ready`. -/
def Pc.awaits : Pc → Nat
  | .pollLoad _ | .pollLoop _ _ | .pollReload _ _ | .registerLoad _ _ | .registerLoop _ _ _
  | .registerWrite _ _ _ | .registerCheck _ _ _ _ | .registerSwap _ _ _ _
  | .registerWake _ _ _ => 1
  | _ => 0

/-- A poll of the `Task` that has put its waker up and not looked at the state since. -/
def Pc.arms : Pc → Nat
  | .pollReload _ _ | .registerWake _ _ _ => 1
  | _ => 0

def TakeFor.resolves : TakeFor → Nat
  | .pollClosed _ | .pollOutput _ => 1
  | _ => 0

/-- A poll of the `Task` that will return `Ready`. -/
def Pc.resolves : Pc → Nat
  | .takeOr f | .takeCell f | .takeAnd f _ | .notifyWake f _ => f.resolves
  | .pollRead => 1
  | _ => 0

/-- The waker `w` is not that of the last poll. -/
def other (p w : Waker) : Nat := if w = p then 0 else 1

/-- A poll of the `Task` with a waker that is not that of the last poll. -/
def Pc.astray (p : Waker) : Pc → Nat
  | .pollLoad w | .pollLoop w _ | .pollReload w _ | .registerLoad w _ | .registerLoop w _ _
  | .registerWrite w _ _ => other p w
  | .registerCheck w _ _ got | .registerSwap w _ _ got =>
    other p w + if got = none ∨ got = some p then 0 else 1
  | .registerWake w _ g => other p w + other p g
  | _ => 0

def same (p w : Waker) : Nat := if w = p then 1 else 0

def Cont.holds (p : Waker) : Cont → Nat
  | .wakeAwaiter w => same p w
  | _ => 0

/-- A call that will wake the waker of the last poll. -/
def Pc.holds (p : Waker) : Pc → Nat
  | .takeAnd f got => if f.resolves = 0 ∧ got = some p then 1 else 0
  | .notifyWake _ w | .wakeAwaiter w | .registerWake _ _ w => same p w
  | .registerCheck _ _ _ got | .registerSwap _ _ _ got => if got = some p then 1 else 0
  | .schedule k | .scheduleCall k | .scheduleReturn k | .scheduleAbort k
  | .dropWaker k | .dropWakerStore k | .dropRef k | .destroy k => k.holds p
  | _ => 0

/-- A call that will empty the cell of the awaiter, or find someone else at it. -/
def Pc.notifies : Pc → Nat
  | .takeOr _ | .takeCell _ | .takeAnd _ _ => 1
  | .readyDropOutput awaiter | .guardDrop awaiter => if awaiter then 1 else 0
  | _ => 0

attribute [local simp] Pc.registers Pc.wins Pc.offers Pc.emptied Pc.awaits Pc.arms Pc.resolves
  Pc.astray Pc.holds Pc.notifies

/-- The `Task` can be resolved: completed, or closed and out of the executor. -/
def Word.finished (w : Word) : Prop :=
  w.completed = true ∨ (w.closed = true ∧ w.scheduled = false ∧ w.running = false)

instance (w : Word) : Decidable w.finished := inferInstanceAs (Decidable (_ ∨ _))

@[mk_iff]
structure Awaited (sh : Shared) (calls : Multiset Pc) : Prop where
  registering : total Pc.registers calls = if sh.word.registering = true then 1 else 0
  winning : total Pc.wins calls =
    if sh.word.notifying = true ∧ sh.word.registering = false then 1 else 0
  astray : total (Pc.astray sh.pollWaker) calls = 0
  offered : 0 < total Pc.offers calls → sh.awaiter = some sh.pollWaker
  emptied : 0 < total Pc.emptied calls → sh.awaiter = none
  arming : 0 < total Pc.arms calls → sh.armed = true
  resolving : 0 < total Pc.resolves calls → sh.armed = false
  awaiting : 0 < total Pc.awaits calls + total Pc.resolves calls → sh.pollPending = false
  pending : sh.pollPending = true → sh.armed = true
  held : sh.armed = true → sh.pollWoken = false →
    (sh.word.awaiter = true ∧ sh.awaiter = some sh.pollWaker) ∨
      0 < total (Pc.holds sh.pollWaker) calls
  noticed : sh.word.finished → sh.word.awaiter = true → sh.armed = true → sh.pollWoken = false →
    0 < total Pc.notifies calls + total Pc.awaits calls

theorem awaits_add_resolves_le (calls : Multiset Pc) :
    total Pc.awaits calls + total Pc.resolves calls ≤ total Pc.tasks calls := by
  induction calls using Multiset.induction_on with
  | empty => exact Nat.zero_le _
  | cons pc calls ih =>
    have htake (f : TakeFor) : f.resolves ≤ f.tasks := by
      cases f <;> simp [TakeFor.resolves, TakeFor.tasks]
    have : pc.awaits + pc.resolves ≤ pc.tasks := by
      cases pc <;> simp [Pc.awaits, Pc.resolves, Pc.tasks, htake]
    simp only [total_cons]
    omega

theorem registers_le_awaits (calls : Multiset Pc) :
    total Pc.registers calls ≤ total Pc.awaits calls := by
  apply total_le_total
  intro pc
  cases pc <;> simp [Pc.registers, Pc.awaits]

theorem arms_le_awaits (calls : Multiset Pc) :
    total Pc.arms calls ≤ total Pc.awaits calls := by
  apply total_le_total
  intro pc
  cases pc <;> simp [Pc.arms, Pc.awaits]

theorem offers_le_registers (calls : Multiset Pc) :
    total Pc.offers calls ≤ total Pc.registers calls := by
  apply total_le_total
  intro pc
  cases pc with
  | registerCheck w site state got | registerSwap w site state got =>
    cases got <;> simp [Pc.offers, Pc.registers]
  | _ => simp [Pc.offers, Pc.registers]

theorem emptied_le (calls : Multiset Pc) :
    total Pc.emptied calls ≤ total Pc.wins calls + total Pc.registers calls := by
  induction calls using Multiset.induction_on with
  | empty => exact Nat.zero_le _
  | cons pc calls ih =>
    have : pc.emptied ≤ pc.wins + pc.registers := by
      cases pc with
      | registerCheck w site state got | registerSwap w site state got =>
        cases got <;> simp [Pc.emptied, Pc.wins, Pc.registers]
      | _ => simp [Pc.emptied, Pc.wins, Pc.registers]
    simp only [total_cons]
    omega

theorem wins_le_notifies (calls : Multiset Pc) :
    total Pc.wins calls ≤ total Pc.notifies calls := by
  apply total_le_total
  intro pc
  cases pc <;> simp [Pc.wins, Pc.notifies]

theorem wins_le (sized : Bool) (calls : Multiset Pc) :
    total Pc.wins calls ≤ total (Pc.refs sized) calls + total Pc.tasks calls := by
  induction calls using Multiset.induction_on with
  | empty => exact Nat.zero_le _
  | cons pc calls ih =>
    have htake (f : TakeFor) : 1 ≤ f.refs + f.tasks := by
      cases f <;> simp [TakeFor.refs, TakeFor.tasks]
    have : pc.wins ≤ pc.refs sized + pc.tasks := by
      cases pc <;> simp [Pc.wins, Pc.refs, Pc.tasks, htake]
    simp only [total_cons]
    omega

section Exec

variable {sized : Bool} {sh sh' : Shared} {c : Choice} {pc : Pc} {n : Next} {rest : Multiset Pc}

/-- The part of a call that moves in the handshake. -/
structure Parts where
  registers : Nat
  wins : Nat
  offers : Nat
  emptied : Nat
  awaits : Nat
  arms : Nat
  resolves : Nat
  astray : Nat
  holds : Nat
  notifies : Nat

def Pc.parts (p : Waker) (pc : Pc) : Parts :=
  ⟨pc.registers, pc.wins, pc.offers, pc.emptied, pc.awaits, pc.arms, pc.resolves, pc.astray p,
    pc.holds p, pc.notifies⟩

def Parts.none : Parts := ⟨0, 0, 0, 0, 0, 0, 0, 0, 0, 0⟩

/-- `Awaited` while a call with the part `d` moves and the other calls are `rest`. -/
@[mk_iff]
structure Handshake (sh : Shared) (d : Parts) (rest : Multiset Pc) : Prop where
  registering : d.registers + total Pc.registers rest = if sh.word.registering = true then 1 else 0
  winning : d.wins + total Pc.wins rest =
    if sh.word.notifying = true ∧ sh.word.registering = false then 1 else 0
  astray : d.astray + total (Pc.astray sh.pollWaker) rest = 0
  offered : 0 < d.offers + total Pc.offers rest → sh.awaiter = some sh.pollWaker
  emptied : 0 < d.emptied + total Pc.emptied rest → sh.awaiter = none
  arming : 0 < d.arms + total Pc.arms rest → sh.armed = true
  resolving : 0 < d.resolves + total Pc.resolves rest → sh.armed = false
  awaiting : 0 < d.awaits + total Pc.awaits rest + (d.resolves + total Pc.resolves rest) →
    sh.pollPending = false
  pending : sh.pollPending = true → sh.armed = true
  held : sh.armed = true → sh.pollWoken = false →
    (sh.word.awaiter = true ∧ sh.awaiter = some sh.pollWaker) ∨
      0 < d.holds + total (Pc.holds sh.pollWaker) rest
  noticed : sh.word.finished → sh.word.awaiter = true → sh.armed = true → sh.pollWoken = false →
    0 < d.notifies + total Pc.notifies rest + (d.awaits + total Pc.awaits rest)

theorem awaited_cons :
    Awaited sh (pc ::ₘ rest) ↔ Handshake sh (pc.parts sh.pollWaker) rest := by
  simp only [awaited_iff, handshake_iff, total_cons, Pc.parts]

theorem awaited_hand : Awaited sh rest ↔ Handshake sh .none rest := by
  simp only [awaited_iff, handshake_iff, Parts.none, Nat.zero_add]

theorem Handshake.goesOn (h : Handshake sh (pc.parts sh.pollWaker) rest) :
    Awaited sh (resume (some pc) rest) :=
  awaited_cons.mpr h

theorem Handshake.returns (h : Handshake sh .none rest) : Awaited sh (resume none rest) :=
  awaited_hand.mpr h

/-! What the word and the other calls tell. -/

theorem finished_of_scheduled {w w' : Word} (hf : w'.finished) (hs : w'.scheduled = true)
    (hw : w'.completed = w.completed) : w.finished :=
  .inl (hw.symm.trans (hf.resolve_right fun hout =>
    Bool.false_ne_true (hout.2.1.symm.trans hs)))

theorem finished_of_running {w w' : Word} (hf : w'.finished) (hr : w'.running = true)
    (hw : w'.completed = w.completed) : w.finished :=
  .inl (hw.symm.trans (hf.resolve_right fun hout =>
    Bool.false_ne_true (hout.2.2.symm.trans hr)))

theorem finished_of_open {w w' : Word} (hf : w'.finished) (hclosed : w'.closed = false)
    (hw : w'.completed = w.completed) : w.finished :=
  .inl (hw.symm.trans (hf.resolve_right fun hout =>
    Bool.false_ne_true (hclosed.symm.trans hout.1)))

/-- Nobody else has the `Task` that a call is in. -/
theorem Balanced.solo {r t u k e : Nat} (h : Balanced sized sh r t u (k + 1) e rest) :
    total Pc.tasks rest = 0 := by
  have htask := h.task
  rw [if_pos h.task_held.1] at htask
  omega

theorem Balanced.no_tasks {r t u k e : Nat} (h : Balanced sized sh r t u k e rest)
    (htask : sh.word.task = false) : total Pc.tasks rest = 0 := by
  have hall := h.task
  rw [htask, if_neg Bool.false_ne_true] at hall
  omega

/-- A poll of the `Task` has nobody beside it that polls. -/
theorem solo_polls (hsolo : total Pc.tasks rest = 0) :
    total Pc.awaits rest = 0 ∧ total Pc.resolves rest = 0 ∧ total Pc.arms rest = 0 ∧
      total Pc.registers rest = 0 ∧ total Pc.offers rest = 0 := by
  have hpolls := awaits_add_resolves_le rest
  have harms := arms_le_awaits rest
  have hregisters := registers_le_awaits rest
  have hoffers := offers_le_registers rest
  omega

variable {d : Parts}

theorem Handshake.free (h : Handshake sh d rest) (hd : d.registers = 0)
    (hrest : total Pc.registers rest = 0) : sh.word.registering = false := by
  by_contra hset
  have hregistering := h.registering
  rw [if_pos (Bool.not_eq_false _ ▸ hset)] at hregistering
  omega

theorem Handshake.locked (h : Handshake sh d rest) (hd : d.registers = 1) :
    sh.word.registering = true := by
  by_contra hclear
  have hregistering := h.registering
  rw [if_neg hclear] at hregistering
  omega

/-- Whoever registers has the cell to itself. -/
theorem Handshake.no_wins (h : Handshake sh d rest) (hlocked : sh.word.registering = true) :
    total Pc.wins rest = 0 := by
  have hwinning := h.winning
  rw [if_neg (by simp [hlocked])] at hwinning
  omega

theorem Handshake.no_registers (h : Handshake sh d rest) (hd : 0 < d.wins) :
    total Pc.registers rest = 0 := by
  have hwinning := h.winning
  have hregistering := h.registering
  split at hwinning
  · rename_i hw
    rw [if_neg (by simp [hw.2])] at hregistering
    omega
  · omega

/-! What a step does to the handshake. -/

/-- What `Awaited` reads of the task, besides whether the task can be resolved. -/
def Shared.handshake (sh : Shared) :
    (Bool × Bool × Bool) × Option Waker × Waker × Bool × Bool × Bool :=
  ((sh.word.registering, sh.word.notifying, sh.word.awaiter), sh.awaiter, sh.pollWaker,
    sh.pollWoken, sh.armed, sh.pollPending)

theorem Handshake.rebase {k : Nat} (h : Handshake sh d rest) (hsh : sh'.handshake = sh.handshake)
    (hnoticed : sh'.word.finished → sh.word.awaiter = true → sh.armed = true →
      sh.pollWoken = false → 0 < k + total Pc.notifies rest + (d.awaits + total Pc.awaits rest)) :
    Handshake sh' { d with notifies := k } rest := by
  simp only [Shared.handshake, Prod.mk.injEq] at hsh
  obtain ⟨⟨hregistering, hnotifying, hawaiter⟩, hcell, hwaker, hwoken, harmed, hpending⟩ := hsh
  rw [handshake_iff] at h ⊢
  simp only [hregistering, hnotifying, hawaiter, hcell, hwaker, hwoken, harmed, hpending]
  obtain ⟨h1, h2, h3, h4, h5, h6, h7, h8, h9, h10, -⟩ := h
  exact ⟨h1, h2, h3, h4, h5, h6, h7, h8, h9, h10, hnoticed⟩

/-- A step that has no part in the handshake. -/
theorem Handshake.congr (h : Handshake sh d rest) (hsh : sh'.handshake = sh.handshake)
    (hfinished : sh'.word.finished → sh.word.finished) : Handshake sh' d rest :=
  h.rebase hsh fun hf => h.noticed (hfinished hf)

/-- The task may be finished now: the call sees to the awaiter, if there is one. -/
theorem Handshake.settle {k : Nat} (h : Handshake sh d rest) (hsh : sh'.handshake = sh.handshake)
    (hk : sh.word.awaiter = true → 0 < k) : Handshake sh' { d with notifies := k } rest :=
  h.rebase hsh fun _ ha _ _ => Nat.add_pos_left (Nat.add_pos_left (hk ha) _) _

theorem Handshake.wakeUp {w : Waker}
    (h : Handshake sh { d with holds := same sh.pollWaker w } rest) :
    Handshake (sh.wake w) d rest := by
  have hcold (hwoken : (sh.pollWoken || w == sh.pollWaker) = false) :
      sh.pollWoken = false ∧ same sh.pollWaker w = 0 := by
    obtain ⟨hwoken, hw⟩ := Bool.or_eq_false_iff.mp hwoken
    exact ⟨hwoken, if_neg (by simpa using hw)⟩
  exact
    { h with
      held := fun harmed hwoken => by
        obtain ⟨hwoken, hsame⟩ := hcold hwoken
        refine (h.held harmed hwoken).imp_right fun hholds => ?_
        rw [hsame, Nat.zero_add] at hholds
        exact Nat.add_pos_right _ hholds
      noticed := fun hf ha harmed hwoken => h.noticed hf ha harmed (hcold hwoken).1 }

/-- Nobody is left at the cell, and no awaiter is told of. -/
theorem Handshake.lastRun (h : Handshake sh d rest) (hregisters : d.registers = 0)
    (hwins : d.wins = 0) (hsolo : total Pc.tasks rest = 0) (hrefs : total (Pc.refs sized) rest = 0)
    (ha : sh.word.awaiter = false) : Handshake { sh with word := .lastRun } d rest := by
  obtain ⟨-, -, -, hrest, -⟩ := solo_polls hsolo
  have hothers := wins_le sized rest
  exact
    { h with
      registering := by
        rw [hregisters, hrest]
        rfl
      winning := by
        rw [if_neg (by simp [Word.lastRun])]
        omega
      held := fun harmed hwoken =>
        .inr ((h.held harmed hwoken).resolve_left fun hw => Bool.false_ne_true (ha.symm.trans hw.1))
      noticed := fun _ hset => absurd hset Bool.false_ne_true }

theorem Handshake.won (h : Handshake sh d rest) (hn : sh.word.notifying = false)
    (hr : sh.word.registering = false) :
    Handshake { sh with word := { sh.word with notifying := true } } { d with wins := d.wins + 1 }
      rest :=
  { h with
    winning := by
      have hwinning := h.winning
      rw [if_neg (by simp [hn])] at hwinning
      rw [if_pos ⟨rfl, hr⟩]
      dsimp only
      omega }

/-- Somebody else is at the cell, and will empty it. -/
theorem Handshake.lost {k : Nat} (h : Handshake sh { d with notifies := k } rest)
    (hbusy : sh.word.notifying = true ∨ sh.word.registering = true) (hregisters : d.registers = 0)
    (hwins : d.wins = 0) :
    Handshake { sh with word := { sh.word with notifying := true } } d rest := by
  have hregistering := h.registering
  have hwinning := h.winning
  dsimp only at hregistering hwinning
  have hother : 0 < total Pc.notifies rest + total Pc.awaits rest := by
    have hpolls := registers_le_awaits rest
    have hnotifies := wins_le_notifies rest
    cases hr : sh.word.registering with
    | true =>
      rw [if_pos hr] at hregistering
      omega
    | false =>
      have hn := hbusy.resolve_right (Bool.eq_false_iff.mp hr)
      rw [if_pos ⟨hn, hr⟩] at hwinning
      omega
  exact
    { h with
      winning := by
        rw [hwinning]
        cases hr : sh.word.registering with
        | true => simp
        | false =>
          have hn := hbusy.resolve_right (Bool.eq_false_iff.mp hr)
          rw [if_pos ⟨hn, rfl⟩, if_pos ⟨rfl, rfl⟩]
      noticed := fun _ _ _ _ => by omega }

/-- The winner takes the waker out of the cell; it keeps it unless it is polling itself. -/
theorem Handshake.cell (f : TakeFor)
    (h : Handshake sh ((Pc.takeCell f).parts sh.pollWaker) rest) :
    Handshake { sh with awaiter := none } ((Pc.takeAnd f sh.awaiter).parts sh.pollWaker) rest :=
  { h with
    offered := fun hpos => by
      have hnone := h.no_registers Nat.one_pos
      have hoffers := offers_le_registers rest
      simp only [Pc.parts, Pc.offers] at hpos
      omega
    emptied := fun _ => rfl
    held := fun harmed hwoken => by
      rcases h.held harmed hwoken with ⟨-, hcell⟩ | hholds
      · have hself : f.resolves = 0 := by
          by_contra hpos
          have hcold := h.resolving (Nat.add_pos_left (Nat.pos_of_ne_zero hpos) _)
          exact Bool.false_ne_true (hcold.symm.trans harmed)
        have hone : (Pc.takeAnd f sh.awaiter).holds sh.pollWaker = 1 := if_pos ⟨hself, hcell⟩
        exact .inr (Nat.add_pos_left (Nat.one_pos.trans_eq hone.symm) _)
      · simp only [Pc.parts, Pc.holds, Nat.zero_add] at hholds
        exact .inr (Nat.add_pos_right _ hholds) }

/-- The winner leaves the cell empty and goes on with what it keeps. -/
theorem Handshake.release (f : TakeFor) (got : Option Waker)
    (h : Handshake sh ((Pc.takeAnd f got).parts sh.pollWaker) rest) :
    Handshake { sh with word := { sh.word with notifying := false, awaiter := false } }
      { Parts.none with
        resolves := f.resolves
        holds := (keep f got).elim 0 (same sh.pollWaker) } rest := by
  have hkept : (Pc.takeAnd f got).holds sh.pollWaker ≤
      (keep f got).elim 0 (same sh.pollWaker) := by
    cases f <;> cases got <;> simp [Pc.holds, keep, same, TakeFor.resolves]
  have hcell := h.emptied (Nat.add_pos_left Nat.one_pos _)
  exact
    { h with
      winning := by
        have hwinning := h.winning
        rw [if_neg (by simp)]
        simp only [Pc.parts, Pc.wins, Parts.none] at hwinning ⊢
        split at hwinning <;> omega
      emptied := fun _ => hcell
      held := fun harmed hwoken => by
        rcases h.held harmed hwoken with ⟨-, hoffered⟩ | hholds
        · rw [hcell] at hoffered
          cases hoffered
        · exact .inr (hholds.trans_le (Nat.add_le_add_right hkept _))
      noticed := fun _ hset => absurd hset Bool.false_ne_true }

/-- A poll of the `Task` has decided to return `Ready`. -/
theorem Handshake.disarm {a x k : Nat}
    (h : Handshake sh { Parts.none with awaits := 1, arms := a, astray := x } rest)
    (hsolo : total Pc.tasks rest = 0) :
    Handshake { sh with armed := false } { Parts.none with resolves := 1, notifies := k } rest := by
  obtain ⟨-, -, harms, -, -⟩ := solo_polls hsolo
  have hpending := h.awaiting (Nat.add_pos_left (Nat.add_pos_left Nat.one_pos _) _)
  exact
    { h with
      astray := by
        rw [(Nat.add_eq_zero_iff.mp h.astray).2]
        rfl
      arming := fun hpos => by
        rw [harms] at hpos
        exact absurd hpos (lt_irrefl 0)
      resolving := fun _ => rfl
      awaiting := fun _ => hpending
      pending := fun hset => absurd (hpending.symm.trans hset) Bool.false_ne_true
      held := fun hset => absurd hset Bool.false_ne_true
      noticed := fun _ _ hset => absurd hset Bool.false_ne_true }

/-- A poll of the `Task` looks at the state again. -/
theorem Handshake.lookAgain {a : Nat} (h : Handshake sh { d with arms := a } rest)
    (hd : d.arms = 0) : Handshake sh d rest :=
  { h with
    arming := fun hpos => h.arming (by
      dsimp only
      omega) }

theorem Handshake.resolved {v : Nat} (h : Handshake sh { d with resolves := v } rest)
    (hd : d.resolves = 0) : Handshake { sh with pollPending := false } d rest :=
  { h with
    resolving := fun hpos => h.resolving (by
      dsimp only
      omega)
    awaiting := fun _ => rfl
    pending := fun hset => absurd hset Bool.false_ne_true }

/-- A poll of the `Task` that finds nothing to return leaves its waker up. -/
theorem Handshake.suspend {x : Nat}
    (h : Handshake sh { Parts.none with awaits := 1, arms := 1, astray := x } rest)
    (hsolo : total Pc.tasks rest = 0) (hopen : ¬sh.word.finished) :
    Handshake { sh with pollPending := true } .none rest := by
  obtain ⟨hawaits, hresolves, hrest, -, -⟩ := solo_polls hsolo
  have harmed := h.arming (Nat.add_pos_left Nat.one_pos _)
  exact
    { h with
      astray := by
        have hnone := h.astray
        dsimp only [Parts.none] at hnone ⊢
        omega
      arming := fun _ => harmed
      awaiting := fun hpos => by
        dsimp only [Parts.none] at hpos
        omega
      pending := fun _ => harmed
      noticed := fun hf => absurd hf hopen }

/-! What `register` does to it. -/

/-- The waker of a poll is that of the last poll. -/
theorem eq_of_other {p w : Waker} (h : other p w = 0) : w = p := by
  by_contra hw
  rw [other, if_neg hw] at h
  exact Nat.one_ne_zero h

theorem Handshake.wakeOwn (w : Waker) (site : Site) (state : Word)
    (h : Handshake sh ((Pc.registerLoop w site state).parts sh.pollWaker) rest)
    (hsolo : total Pc.tasks rest = 0) :
    Handshake { sh.wake w with armed := true } ((Pc.pollReload w site).parts sh.pollWaker) rest := by
  obtain ⟨-, hresolves, -, -, -⟩ := solo_polls hsolo
  obtain rfl : w = sh.pollWaker := eq_of_other (Nat.add_eq_zero_iff.mp h.astray).1
  have hwoken : (sh.wake sh.pollWaker).pollWoken = true := by simp [Shared.wake]
  exact
    { h with
      arming := fun _ => rfl
      resolving := fun hpos => by
        simp only [Pc.parts, Pc.resolves, Nat.zero_add] at hpos
        exact absurd hresolves hpos.ne'
      pending := fun _ => rfl
      held := fun _ hcold => absurd (hcold.symm.trans hwoken) Bool.false_ne_true
      noticed := fun _ _ _ hcold => absurd (hcold.symm.trans hwoken) Bool.false_ne_true }

theorem Handshake.lock (w : Waker) (site : Site) (state state' : Word)
    (h : Handshake sh ((Pc.registerLoop w site state).parts sh.pollWaker) rest)
    (hsolo : total Pc.tasks rest = 0) (hn : sh.word.notifying = false) :
    Handshake { sh with word := { sh.word with registering := true } }
      ((Pc.registerWrite w site state').parts sh.pollWaker) rest := by
  obtain ⟨-, -, -, hregisters, -⟩ := solo_polls hsolo
  exact
    { h with
      registering := by
        rw [hregisters]
        rfl
      winning := by
        have hwinning := h.winning
        rw [if_neg (by simp [hn])] at hwinning
        rw [if_neg (by simp)]
        exact hwinning }

theorem Handshake.write (w : Waker) (site : Site) (state : Word)
    (h : Handshake sh ((Pc.registerWrite w site state).parts sh.pollWaker) rest)
    (hsolo : total Pc.tasks rest = 0) :
    Handshake { sh with awaiter := some w }
      ((Pc.registerCheck w site state none).parts sh.pollWaker) rest := by
  obtain ⟨-, -, -, hregisters, -⟩ := solo_polls hsolo
  have hwins := h.no_wins (h.locked rfl)
  have hemptied := emptied_le rest
  have hself : w = sh.pollWaker := eq_of_other (Nat.add_eq_zero_iff.mp h.astray).1
  have hcell : some w = some sh.pollWaker := congrArg some hself
  exact
    { h with
      offered := fun _ => hcell
      emptied := fun hpos => by
        simp only [Pc.parts, Pc.emptied, if_true, Nat.zero_add] at hpos
        omega
      held := fun harmed hwoken => (h.held harmed hwoken).imp_left fun hw => ⟨hw.1, hcell⟩ }

/-- `register` takes its waker back for the `take` that was there in between. -/
theorem Handshake.takeBack (w : Waker) (site : Site) (state : Word) (got : Option Waker)
    (h : Handshake sh ((Pc.registerCheck w site state got).parts sh.pollWaker) rest)
    (hsolo : total Pc.tasks rest = 0) :
    Handshake { sh with awaiter := none }
      ((Pc.registerSwap w site state (sh.awaiter.or got)).parts sh.pollWaker) rest := by
  obtain ⟨-, -, -, -, hoffers⟩ := solo_polls hsolo
  cases got with
  | none =>
    have hcell := h.offered (Nat.add_pos_left Nat.one_pos _)
    obtain ⟨hself, hrest⟩ := Nat.add_eq_zero_iff.mp h.astray
    rw [hcell]
    exact
      { h with
        astray := by
          have hkept : (if some sh.pollWaker = none ∨ some sh.pollWaker = some sh.pollWaker then 0
            else 1) = 0 := if_pos (.inr rfl)
          have hown := (Nat.add_eq_zero_iff.mp hself).1
          exact Nat.add_eq_zero_iff.mpr ⟨Nat.add_eq_zero_iff.mpr ⟨hown, hkept⟩, hrest⟩
        offered := fun hpos => by
          simp only [Pc.parts, Pc.offers, Option.some_or, reduceCtorEq, if_false,
            Nat.zero_add] at hpos
          omega
        emptied := fun _ => rfl
        held := fun _ _ => .inr (Nat.add_pos_left (by simp [Pc.parts, Pc.holds]) _) }
  | some g =>
    have hcell := h.emptied (Nat.add_pos_left Nat.one_pos _)
    rw [hcell]
    refine h.congr ?_ id
    simp only [Shared.handshake, hcell]

theorem Handshake.store (w : Waker) (site : Site) (state : Word)
    (h : Handshake sh ((Pc.registerSwap w site state none).parts sh.pollWaker) rest)
    (hsolo : total Pc.tasks rest = 0) :
    Handshake { sh with
        word := { sh.word with notifying := false, registering := false, awaiter := true }
        armed := true } ((Pc.pollReload w site).parts sh.pollWaker) rest := by
  obtain ⟨-, hresolves, -, hregisters, hoffers⟩ := solo_polls hsolo
  have hwins := h.no_wins (h.locked rfl)
  have hcell := h.offered (Nat.add_pos_left Nat.one_pos _)
  exact
    { h with
      registering := by
        rw [hregisters]
        rfl
      winning := by
        rw [hwins]
        rfl
      offered := fun _ => hcell
      arming := fun _ => rfl
      resolving := fun hpos => by
        simp only [Pc.parts, Pc.resolves, Nat.zero_add] at hpos
        exact absurd hresolves hpos.ne'
      pending := fun _ => rfl
      held := fun _ _ => .inl ⟨rfl, hcell⟩
      noticed := fun _ _ _ _ => Nat.add_pos_right _ (Nat.add_pos_left Nat.one_pos _) }

theorem Handshake.unlock (w : Waker) (site : Site) (state : Word) (g : Waker)
    (h : Handshake sh ((Pc.registerSwap w site state (some g)).parts sh.pollWaker) rest)
    (hsolo : total Pc.tasks rest = 0) :
    Handshake { sh with
        word := { sh.word with notifying := false, registering := false, awaiter := false }
        armed := true } ((Pc.registerWake w site g).parts sh.pollWaker) rest := by
  obtain ⟨-, hresolves, -, hregisters, hoffers⟩ := solo_polls hsolo
  have hwins := h.no_wins (h.locked rfl)
  obtain ⟨hastray, hothers⟩ := Nat.add_eq_zero_iff.mp h.astray
  obtain ⟨hw, hg⟩ := Nat.add_eq_zero_iff.mp hastray
  have hgot : g = sh.pollWaker := by simpa using hg
  have hcell := h.emptied (Nat.add_pos_left Nat.one_pos _)
  exact
    { h with
      registering := by
        rw [hregisters]
        rfl
      winning := by
        rw [hwins]
        rfl
      astray := by
        simp only [Pc.parts, Pc.astray, other, if_pos hgot]
        rw [hothers]
        exact hw
      emptied := fun _ => hcell
      arming := fun _ => rfl
      resolving := fun hpos => by
        simp only [Pc.parts, Pc.resolves, Nat.zero_add] at hpos
        exact absurd hresolves hpos.ne'
      pending := fun _ => rfl
      held := fun _ _ => .inr (Nat.add_pos_left (by simp [Pc.parts, Pc.holds, same, hgot]) _)
      noticed := fun _ hset => absurd hset Bool.false_ne_true }

/-! What the functions that end an operation make of it. -/

theorem Handshake.afterCancel (dropping : Bool) (h : Handshake sh .none rest) :
    Awaited (afterCancel sh dropping).2 (resume (afterCancel sh dropping).1 rest) := by
  cases dropping with
  | true => exact Handshake.goesOn h
  | false => exact Handshake.returns (h.congr rfl id)

theorem Handshake.finish (k : Cont)
    (h : Handshake sh { Parts.none with holds := k.holds sh.pollWaker } rest) :
    Awaited (finish sh k).2 (resume (finish sh k).1 rest) := by
  cases k with
  | ret | detached => exact Handshake.returns h
  | wakeAwaiter w => exact Handshake.goesOn h
  | canceled awaiter dropping =>
    cases awaiter with
    | true => exact Handshake.goesOn (h.settle (k := 1) rfl fun _ => Nat.one_pos)
    | false => exact Handshake.afterCancel dropping h

theorem Handshake.finishWakeRef (k : WakeBy) (h : Handshake sh .none rest) :
    Awaited (finishWakeRef sh k).2 (resume (finishWakeRef sh k).1 rest) := by
  cases k with
  | ref b => exact Handshake.returns h
  | val => exact Handshake.goesOn h

theorem Handshake.finishRun (awaiter : Bool)
    (h : Handshake sh { Parts.none with notifies := if awaiter = true then 1 else 0 } rest) :
    Awaited (finishRun sh awaiter).2 (resume (finishRun sh awaiter).1 rest) := by
  cases awaiter with
  | true => exact Handshake.goesOn h
  | false => exact Handshake.goesOn h

theorem Handshake.notifyDone (f : TakeFor)
    (h : Handshake sh { Parts.none with resolves := f.resolves } rest) :
    Awaited (notifyDone sh f).2 (resume (notifyDone sh f).1 rest) := by
  cases f with
  | runner | runnable | pollOutput w => exact Handshake.goesOn h
  | canceled dropping => exact Handshake.afterCancel dropping h
  | pollClosed w => exact Handshake.returns ((Handshake.resolved h rfl).congr rfl id)

theorem Handshake.takeDone (f : TakeFor) (got : Option Waker)
    (h : Handshake sh { Parts.none with
      resolves := f.resolves, holds := got.elim 0 (same sh.pollWaker) } rest) :
    Awaited (takeDone sh f got).2 (resume (takeDone sh f got).1 rest) := by
  unfold Task.takeDone
  split
  · exact Handshake.goesOn h
  · exact Handshake.goesOn h
  · exact Handshake.goesOn h
  · exact Handshake.notifyDone f h

theorem pos_of_awaiter {awaiter : Bool} (ha : awaiter = true) :
    0 < if awaiter = true then 1 else 0 := by
  rw [if_pos ha]
  exact Nat.one_pos

/-! The moves. -/

theorem awaited_wakeRef (h : Handshake sh (pc.parts sh.pollWaker) rest)
    (hm : WakeRefMoves sh pc n) : Awaited n.2 (resume n.1 rest) := by
  cases hm with
  | cloneAbort b => exact Handshake.goesOn (h.congr rfl id)
  | clone b => exact Handshake.returns (h.congr rfl id)
  | load k | retry k => exact Handshake.goesOn h
  | ended k | returns k => exact Handshake.finishWakeRef k h
  | scheduled k hs => exact Handshake.finishWakeRef k (h.congr rfl id)
  | running k =>
    exact Handshake.finishWakeRef k (h.congr rfl fun hf => finished_of_scheduled hf rfl rfl)
  | idle k pc' _ _ _ _ hpc' =>
    rcases hpc' with rfl | rfl
    all_goals
      exact Handshake.goesOn (h.congr rfl fun hf => finished_of_scheduled hf rfl rfl)
  | call k => exact Handshake.goesOn (h.congr rfl id)

theorem awaited_wake (h : Handshake sh (pc.parts sh.pollWaker) rest)
    (hm : WakeMoves sized sh pc n) : Awaited n.2 (resume n.1 rest) := by
  cases hm with
  | load | retry | ended | pass | release => exact Handshake.goesOn h
  | scheduled => exact Handshake.goesOn (h.congr rfl id)
  | running | idle =>
    exact Handshake.goesOn (h.congr rfl fun hf => finished_of_scheduled hf rfl rfl)
  | acquire k pc' _ hpc' =>
    rcases hpc' with rfl | rfl
    all_goals exact Handshake.goesOn (h.congr rfl id)
  | call => exact Handshake.goesOn (h.congr rfl id)
  | returns k => exact Handshake.finish k h

theorem awaited_drop (hc : Holding sized sh pc rest) (h : Handshake sh (pc.parts sh.pollWaker) rest)
    (hok : ∀ k, pc = .dropWakerStore k → sh.word.awaiter = false)
    (hm : DropMoves sh pc n) : Awaited n.2 (resume n.1 rest) := by
  cases hm with
  | toStore | wakerLast | refLast => exact Handshake.goesOn (h.congr rfl id)
  | waker k | ref k | destroy k => exact Handshake.finish k (h.congr rfl id)
  | store k =>
    obtain ⟨hrefs, htask⟩ := hc.ending_held
    obtain ⟨-, -, hothers, -, -⟩ := hc.deserted hrefs
    exact Handshake.goesOn (h.lastRun rfl rfl (hc.no_tasks htask) hothers (hok k rfl))
  | wakeAwaiter w => exact Handshake.returns (Handshake.wakeUp h)

theorem awaited_take (h : Handshake sh (pc.parts sh.pollWaker) rest) (hm : TakeMoves sh pc n) :
    Awaited n.2 (resume n.1 rest) := by
  cases hm with
  | won f hn hr => exact Handshake.goesOn (Handshake.won h hn hr)
  | lost f hbusy => exact Handshake.takeDone f none (Handshake.lost h hbusy rfl rfl)
  | cell f => exact Handshake.goesOn (Handshake.cell f h)
  | release f got => exact Handshake.takeDone f (keep f got) (Handshake.release f got h)
  | wake f w => exact Handshake.notifyDone f (Handshake.wakeUp h)

theorem awaited_run (h : Handshake sh (pc.parts sh.pollWaker) rest) (hm : RunMoves sh pc n) :
    Awaited n.2 (resume n.1 rest) := by
  cases hm with
  | load | retry | closed | pending | panic | readyRetry => exact Handshake.goesOn h
  | poll => exact Handshake.goesOn (h.congr rfl fun hf => finished_of_running hf rfl rfl)
  | closedDrop | ready | readyDrop | readyWrite => exact Handshake.goesOn (h.congr rfl id)
  | closedAnd => exact Handshake.finishRun _ (h.settle rfl pos_of_awaiter)
  | unclaimed => exact Handshake.goesOn (h.settle rfl pos_of_awaiter)
  | completed => exact Handshake.finishRun _ (h.settle rfl pos_of_awaiter)
  | dropOutput awaiter => exact Handshake.finishRun awaiter (h.congr rfl id)

theorem awaited_pending (h : Handshake sh (pc.parts sh.pollWaker) rest)
    (hm : PendingMoves sh pc n) : Awaited n.2 (resume n.1 rest) := by
  cases hm with
  | closed | retry => exact Handshake.goesOn h
  | ended => exact Handshake.finishRun _ (h.settle rfl pos_of_awaiter)
  | again _ _ hs =>
    exact Handshake.goesOn (h.congr rfl fun hf => finished_of_scheduled hf hs rfl)
  | idle _ hclosed =>
    exact Handshake.goesOn (h.congr rfl fun hf => finished_of_open hf hclosed rfl)
  | drop => exact Handshake.goesOn (h.congr rfl id)

theorem awaited_guard (h : Handshake sh (pc.parts sh.pollWaker) rest)
    (hok : ∀ state, pc = .guardClosedAnd state → sh.word.awaiter = true → state.awaiter = true)
    (hm : GuardMoves sh pc n) : Awaited n.2 (resume n.1 rest) := by
  cases hm with
  | load | retry | closed => exact Handshake.goesOn h
  | close => exact Handshake.goesOn (h.settle rfl pos_of_awaiter)
  | closedDrop => exact Handshake.goesOn (h.congr rfl id)
  | closedAnd state =>
    exact Handshake.finishRun _ (h.settle rfl fun ha => pos_of_awaiter (hok state rfl ha))
  | drop awaiter => exact Handshake.finishRun awaiter (h.congr rfl id)

theorem awaited_runnable (hc : Holding sized sh pc rest)
    (h : Handshake sh (pc.parts sh.pollWaker) rest) (hm : RunnableMoves sh pc n) :
    Awaited n.2 (resume n.1 rest) := by
  cases hm with
  | load | retry | ended => exact Handshake.goesOn h
  | close =>
    have hs := hc.token_held.1
    exact Handshake.goesOn (h.congr rfl fun hf => finished_of_scheduled hf hs rfl)
  | drop => exact Handshake.goesOn (h.congr rfl id)
  | notify => exact Handshake.goesOn (h.settle (k := 1) rfl fun _ => Nat.one_pos)
  | release ha =>
    exact Handshake.goesOn
      (h.settle (k := 0) rfl fun hset => absurd (ha.symm.trans hset) Bool.false_ne_true)

theorem awaited_task (hc : Holding sized sh pc rest) (h : Handshake sh (pc.parts sh.pollWaker) rest)
    (hok : ∀ state, pc = .detachLoop state → sh.word = state → state.completed = false →
      state.closed = false → state.refs = 0 → state.awaiter = false)
    (hm : TaskMoves sh pc n) : Awaited n.2 (resume n.1 rest) := by
  cases hm with
  | load | retry | missed | again => exact Handshake.goesOn h
  | ended dropping => exact Handshake.afterCancel dropping h
  | closeNotify => exact Handshake.goesOn (h.settle (k := 1) rfl fun _ => Nat.one_pos)
  | close dropping _ _ hbusy =>
    refine Handshake.afterCancel dropping (h.congr rfl fun hf => ?_)
    rcases hbusy with hs | hr
    · exact finished_of_scheduled hf hs rfl
    · exact finished_of_running hf hr rfl
  | closeIdle =>
    exact Handshake.goesOn (h.congr rfl fun hf => finished_of_scheduled hf rfl rfl)
  | claim hcompleted => exact Handshake.goesOn (h.congr rfl fun _ => .inl hcompleted)
  | lastRun hrefs hcompleted hclosed =>
    obtain ⟨-, -, hothers, -, -⟩ := hc.deserted hrefs
    have ha := hok _ rfl rfl hcompleted hclosed hrefs
    exact Handshake.goesOn ((h.lastRun rfl rfl hc.solo hothers ha).congr rfl id)
  | destroy | read => exact Handshake.goesOn (h.congr rfl id)
  | fast | detach => exact Handshake.returns (h.congr rfl id)

theorem awaited_poll (hc : Holding sized sh pc rest)
    (hidle : sh.word.completed = true → sh.word.scheduled = false ∧ sh.word.running = false)
    (h : Handshake sh (pc.parts sh.pollWaker) rest) (hm : PollMoves sh pc n) :
    Awaited n.2 (resume n.1 rest) := by
  cases hm with
  | load | wait | retry | waitOpen => exact Handshake.goesOn h
  | closed | seenClosed => exact Handshake.goesOn (Handshake.disarm h hc.solo)
  | claimNotify w _ hcompleted | claim w _ hcompleted =>
    exact Handshake.goesOn ((Handshake.disarm h hc.solo).congr rfl fun _ => .inl hcompleted)
  | pendingClosed w hbusy =>
    have hopen : ¬sh.word.finished := by
      rintro (hcompleted | ⟨-, hs, hr⟩)
      · simp [hidle hcompleted] at hbusy
      · simp [hs, hr] at hbusy
    exact Handshake.returns ((Handshake.suspend h hc.solo hopen).congr rfl id)
  | pendingOpen w hclosed hcompleted =>
    have hopen : ¬sh.word.finished := by
      rintro (hset | ⟨hset, -⟩)
      · exact Bool.false_ne_true (hcompleted.symm.trans hset)
      · exact Bool.false_ne_true (hclosed.symm.trans hset)
    exact Handshake.returns ((Handshake.suspend h hc.solo hopen).congr rfl id)
  | seenOpen => exact Handshake.goesOn (Handshake.lookAgain h rfl)
  | read =>
    have hdone := Handshake.resolved (d := .none) h rfl
    exact Handshake.returns (hdone.congr rfl id)

theorem awaited_register (hc : Holding sized sh pc rest)
    (h : Handshake sh (pc.parts sh.pollWaker) rest) (hm : RegisterMoves sh pc n) :
    Awaited n.2 (resume n.1 rest) := by
  cases hm with
  | load | retry | leave | recheck => exact Handshake.goesOn h
  | wakeOwn w site state => exact Handshake.goesOn (h.wakeOwn w site state hc.solo)
  | lock w site hn => exact Handshake.goesOn (h.lock w site _ _ hc.solo hn)
  | write w site state => exact Handshake.goesOn (h.write w site state hc.solo)
  | takeBack w site state got => exact Handshake.goesOn (h.takeBack w site state got hc.solo)
  | store w site => exact Handshake.goesOn (h.store w site _ hc.solo)
  | unlock w site g => exact Handshake.goesOn (h.unlock w site _ g hc.solo)
  | wake w site g =>
    have hself : Handshake sh
        { (Pc.pollReload w site).parts sh.pollWaker with holds := same sh.pollWaker g } rest :=
      { h with
        astray := by
          obtain ⟨hastray, hrest⟩ := Nat.add_eq_zero_iff.mp h.astray
          exact Nat.add_eq_zero_iff.mpr ⟨(Nat.add_eq_zero_iff.mp hastray).1, hrest⟩ }
    exact Handshake.goesOn hself.wakeUp

end Exec

/-! ## Whole runs -/

section Run

variable {sized : Bool} {s t : Sys} {a : Act}

/-- The panic guard does not miss an awaiter that registered after its snapshot,
and no awaiter is erased when a detached task is scheduled a last time. -/
def KeepsAwaiter (s : Sys) : Act → Prop
  | .exec (.guardClosedAnd state) _ => s.sh.word.awaiter = true → state.awaiter = true
  | .exec (.dropWakerStore _) _ => s.sh.word.awaiter = false
  | .exec (.detachLoop state) _ => s.sh.word = state → state.completed = false →
    state.closed = false → state.refs = 0 → state.awaiter = false
  | _ => True

instance (s : Sys) (a : Act) : Decidable (KeepsAwaiter s a) := by
  unfold KeepsAwaiter
  split <;> infer_instance

theorem awaited_exec {pc : Pc} {c : Choice} {n : Next} {rest : Multiset Pc}
    (hc : Counted sized s.sh (pc ::ₘ rest)) (hl : Lifetime s.sh (pc ::ₘ rest))
    (h : Awaited s.sh (pc ::ₘ rest)) (hok : KeepsAwaiter s (.exec pc c))
    (he : exec sized s.sh c pc = some n) : Awaited n.2 (resume n.1 rest) := by
  have hc := numbers_cons.mp hc.numbers
  have h := awaited_cons.mp h
  rcases moves_of_exec he with hm | hm | hm | hm | hm | hm | hm | hm | hm | hm | hm
  · exact awaited_wakeRef h hm
  · exact awaited_wake h hm
  · exact awaited_drop hc h (by rintro k rfl; exact hok) hm
  · exact awaited_take h hm
  · exact awaited_run h hm
  · exact awaited_pending h hm
  · exact awaited_guard h (by rintro state rfl; exact hok) hm
  · exact awaited_runnable hc h hm
  · exact awaited_task hc h (by rintro state rfl; exact hok) hm
  · exact awaited_poll hc (fun hset => ⟨(hl.completed hset).1, (hl.completed hset).2.1⟩) h hm
  · exact awaited_register hc h hm

theorem astray_le_tasks (p : Waker) (calls : Multiset Pc) (h : total Pc.tasks calls = 0) :
    total (Pc.astray p) calls = 0 := by
  apply total_eq_zero
  intro pc hpc
  have hzero := le_total (f := Pc.tasks) hpc
  cases pc <;> simp_all [Pc.astray, Pc.tasks]

theorem Counted.idle_solo (hc : Counted sized s.sh s.calls) (hidle : s.sh.handle = .idle) :
    total Pc.tasks s.calls = 0 := by
  have htask := hc.task
  rw [if_pos hidle] at htask
  split at htask <;> omega

/-- A new poll of the `Task` has nothing to do with the waker of the last one. -/
theorem Handshake.poll (w : Waker) (h : Handshake s.sh .none s.calls)
    (hsolo : total Pc.tasks s.calls = 0) :
    Handshake { s.sh with
        handle := .busy, pollWaker := w, pollWoken := false, armed := false, pollPending := false }
      ((Pc.pollLoad w).parts w) s.calls := by
  obtain ⟨-, -, harms, -, hoffers⟩ := solo_polls hsolo
  exact
    { h with
      astray := by
        rw [astray_le_tasks w s.calls hsolo]
        exact if_pos rfl
      offered := fun hpos => by
        rw [hoffers] at hpos
        exact absurd hpos (lt_irrefl 0)
      arming := fun hpos => by
        rw [harms] at hpos
        exact absurd hpos (lt_irrefl 0)
      resolving := fun _ => rfl
      awaiting := fun _ => rfl
      pending := fun hset => absurd hset Bool.false_ne_true
      held := fun hset => absurd hset Bool.false_ne_true
      noticed := fun _ _ hset => absurd hset Bool.false_ne_true }

theorem awaited_start {op : Op} {pc : Pc} {sh : Shared} (hc : Counted sized s.sh s.calls)
    (h : Awaited s.sh s.calls) (hs : start sized s op = some (pc, sh)) :
    Awaited sh (pc ::ₘ s.calls) := by
  have h := awaited_hand.mp h
  cases starts_of_start hs with
  | clone | wakeByRef => exact Handshake.goesOn h
  | waker pc _ hpc | runnable pc _ hpc | task pc _ hpc =>
    rcases hpc with rfl | rfl | rfl
    all_goals exact Handshake.goesOn (h.congr rfl id)
  | poll w hidle => exact Handshake.goesOn (h.poll w (hc.idle_solo hidle))

theorem awaited_of_reachableVia (hs : (system sized).ReachableVia KeepsAwaiter s) :
    Awaited s.sh s.calls := by
  have hall : (system sized).Reachable s ∧ Awaited s.sh s.calls := by
    refine hs.invariant (I := fun s => (system sized).Reachable s ∧ Awaited s.sh s.calls)
      ⟨.init, ?_⟩ ?_
    · constructor <;> simp [system, spawn, Word.spawned]
    · rintro s a t hok ⟨hr, h⟩ ht
      refine ⟨hr.next ht, ?_⟩
      have hc := counted_of_reachable hr
      have hl := lifetime_of_reachable hr
      obtain ⟨op, pc, sh, rfl, hstart, rfl⟩ | ⟨pc, c, next, sh, rest, rfl, hcalls, -, hexec, rfl⟩ :=
        step_cases ht
      · exact awaited_start hc h hstart
      · rw [hcalls] at h hc hl
        exact awaited_exec hc hl h hok hexec
  exact hall.2

/-- In every run that keeps the awaiter: when nothing is going on, the last poll
of the `Task` returned `Pending` and the task is finished, its waker was woken. -/
theorem awaiter_woken (hs : (system sized).ReachableVia KeepsAwaiter s) (hidle : s.calls = 0)
    (hpending : s.sh.pollPending = true) (hfinished : s.sh.word.finished) :
    s.sh.pollWoken = true := by
  have h := awaited_of_reachableVia hs
  by_contra hwoken
  have hcold : s.sh.pollWoken = false := by simpa using hwoken
  have harmed := h.pending hpending
  rcases h.held harmed hcold with ⟨hawaiter, -⟩ | hholds
  · have hnoticed := h.noticed hfinished hawaiter harmed hcold
    simp [hidle] at hnoticed
  · simp [hidle] at hholds

/-- The `Task` is polled and then the future returns `Ready`. -/
def polledThenReady : List Act :=
  let registering : Word := { Word.spawned with registering := true }
  let awaited : Word := { Word.spawned with awaiter := true }
  let running : Word := { awaited with scheduled := false, running := true }
  [.start (.poll 5), .exec (.pollLoad 5) .go, .exec (.pollLoop 5 .spawned) .go,
   .exec (.registerLoad 5 .open) .go, .exec (.registerLoop 5 .open .spawned) .go,
   .exec (.registerWrite 5 .open registering) .go,
   .exec (.registerCheck 5 .open registering none) .go,
   .exec (.registerSwap 5 .open registering none) .go, .exec (.pollReload 5 .open) .go,
   .start .run, .exec .runLoad .go, .exec (.runLoop awaited) .go, .exec (.polling running) .ready,
   .exec (.readyDrop running) .go, .exec (.readyWrite running) .go, .exec (.readyLoop running) .go,
   .exec (.takeOr .runner) .go, .exec (.takeCell .runner) .go, .exec (.takeAnd .runner (some 5)) .go,
   .exec (.dropRef (.wakeAwaiter 5)) .go, .exec (.wakeAwaiter 5) .go]

theorem awaiter_woken_ready : ∃ s, (system true).ReachableVia KeepsAwaiter s ∧
    s.sh.word.completed = true ∧ s.sh.pollPending = true ∧ s.sh.pollWoken = true := by
  obtain ⟨s, hs, hidle, hpending, hdone⟩ := (system true).exists_of_runVia KeepsAwaiter
    (P := fun s => s.calls = 0 ∧ s.sh.pollPending = true ∧ s.sh.word.completed = true)
    polledThenReady (by decide)
  exact ⟨s, hs, hdone, hpending, awaiter_woken hs hidle hpending (.inl hdone)⟩

/-- The task is cancelled while its future is being polled, the poll panics, and
the `Task` is polled after the guard has taken its snapshot. -/
def lateAwaiter : List Act :=
  let running : Word := { Word.spawned with scheduled := false, running := true }
  let closed : Word := { running with closed := true }
  let registering : Word := { closed with registering := true }
  [.start .run, .exec .runLoad .go, .exec (.runLoop .spawned) .go,
   .start .cancel, .exec (.cancelLoad false) .go, .exec (.cancelLoop false running) .go,
   .exec (.polling running) .panic, .exec .guardLoad .go, .exec (.guardLoop closed) .go,
   .start (.poll 5), .exec (.pollLoad 5) .go, .exec (.pollLoop 5 closed) .go,
   .exec (.registerLoad 5 .closed) .go, .exec (.registerLoop 5 .closed closed) .go,
   .exec (.registerWrite 5 .closed registering) .go,
   .exec (.registerCheck 5 .closed registering none) .go,
   .exec (.registerSwap 5 .closed registering none) .go, .exec (.pollReload 5 .closed) .go,
   .exec (.guardClosedDrop closed) .go, .exec (.guardClosedAnd closed) .go,
   .exec (.dropRef .ret) .go]

theorem awaiter_forgotten : ∃ s, (system true).Reachable s ∧ s.calls = 0 ∧
    s.sh.pollPending = true ∧ s.sh.word.finished ∧ s.sh.pollWoken = false := by
  obtain ⟨s, -, hs, hlost⟩ := (system true).exists_of_run
    (P := fun s => s.calls = 0 ∧ s.sh.pollPending = true ∧ s.sh.word.finished ∧
      s.sh.pollWoken = false)
    lateAwaiter (by decide)
  exact ⟨s, hs, hlost⟩

end Run

end Cynthia.Task
