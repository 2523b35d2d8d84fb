import Cynthia.Lib.Transition

/-! `AtomicWaker` of `platform/atomic_waker/waker.rs` at the granularity of its atomic
accesses and of its accesses to the waker cell. One thread registers, any number of calls
of `wake` and `take` are under way. The waker of a call of `register` is known by the
number of that call. -/

namespace Cynthia.AtomicWaker

open Transition

def WAITING : BitVec 64 := 0
def REGISTERING : BitVec 64 := 1
def WAKING : BitVec 64 := 2

/-- Points of `register`: the first exchange, the write to the cell, the second exchange,
the cell again when a call came in between, the way out of the cell, and the two ways to
wake. -/
inductive RegisterPc where
  | idle | cas | write | finish | take
  | swap (w : Nat)
  | wake (w : Nat)
  | wakeByRef
  | panicked
  deriving DecidableEq, Repr

inductive Kind where
  | wake | take
  deriving DecidableEq, Repr

/-- Points of `take`, and of `wake` after it. -/
inductive CallPc where
  | unborn | fetchOr | take
  | clear (waker : Option Nat)
  | wake (w : Nat)
  | returned
  | panicked
  deriving DecidableEq, Repr

structure Call where
  kind : Kind
  pc : CallPc
  /-- How many calls of `register` had returned when this one started. -/
  since : Nat
  began : Nat
  ended : Nat
  deriving DecidableEq, Repr

/-- The call of `register` in progress has the number `registered`. The last four fields
are history: the wakers that were woken, given away by `take`, and overwritten in the cell,
and the time. -/
structure State where
  word : BitVec 64
  cell : Option Nat
  pc : RegisterPc
  registered : Nat
  calls : Nat → Call
  woken : List Nat
  removed : List Nat
  replaced : List Nat
  clock : Nat

def new : State where
  word := WAITING
  cell := none
  pc := .idle
  registered := 0
  calls _ := ⟨.wake, .unborn, 0, 0, 0⟩
  woken := []
  removed := []
  replaced := []
  clock := 0

def register (s : State) : Option State :=
  if s.pc = .idle then some { s with pc := .cas } else none

def State.registerReturns (s : State) : State :=
  { s with pc := .idle, registered := s.registered + 1 }

/-- One step of `register`. -/
def registerStep (s : State) : Option State :=
  match s.pc with
  | .cas =>
    if s.word = WAITING then some { s with word := REGISTERING, pc := .write }
    else if s.word = WAKING then some { s with pc := .wakeByRef }
    else if s.word = REGISTERING ∨ s.word = REGISTERING ||| WAKING then some s.registerReturns
    else some { s with pc := .panicked }
  | .write =>
    some { s with
      cell := some s.registered
      replaced := s.cell.toList ++ s.replaced
      pc := .finish }
  | .finish =>
    if s.word = REGISTERING then some { s with word := WAITING }.registerReturns
    else if s.word = REGISTERING ||| WAKING then some { s with pc := .take }
    else some { s with pc := .panicked }
  | .take =>
    match s.cell with
    | some w => some { s with cell := none, pc := .swap w }
    | none => some { s with pc := .panicked }
  | .swap w => some { s with word := WAITING, pc := .wake w }
  | .wake w => some { s with woken := w :: s.woken }.registerReturns
  | .wakeByRef => some { s with woken := s.registered :: s.woken }.registerReturns
  | .idle | .panicked => none

def State.setCall (s : State) (i : Nat) (c : Call) : State :=
  { s with calls := Function.update s.calls i c }

def State.moveCall (s : State) (i : Nat) (pc : CallPc) : State :=
  s.setCall i { s.calls i with pc }

def State.callReturns (s : State) (i : Nat) : State :=
  { s.setCall i { s.calls i with pc := .returned, ended := s.clock } with clock := s.clock + 1 }

def call (s : State) (i : Nat) (kind : Kind) : Option State :=
  if (s.calls i).pc = .unborn then
    some { s.setCall i ⟨kind, .fetchOr, s.registered, s.clock, 0⟩ with clock := s.clock + 1 }
  else none

def wake (s : State) (i : Nat) : Option State := call s i .wake

def take (s : State) (i : Nat) : Option State := call s i .take

/-- One step of `take` or `wake`. -/
def callStep (s : State) (i : Nat) : Option State :=
  match (s.calls i).pc with
  | .fetchOr =>
    let t := { s with word := s.word ||| WAKING }
    if s.word = WAITING then some (t.moveCall i .take)
    else if s.word = REGISTERING ∨ s.word = REGISTERING ||| WAKING ∨ s.word = WAKING then
      some (t.callReturns i)
    else some (t.moveCall i .panicked)
  | .take =>
    let removed := if (s.calls i).kind = .take then s.cell.toList ++ s.removed else s.removed
    some ({ s with cell := none, removed }.moveCall i (.clear s.cell))
  | .clear waker =>
    let t := { s with word := s.word &&& ~~~WAKING }
    match (s.calls i).kind, waker with
    | .wake, some w => some (t.moveCall i (.wake w))
    | .wake, none | .take, _ => some (t.callReturns i)
  | .wake w => some ({ s with woken := w :: s.woken }.callReturns i)
  | .unborn | .returned | .panicked => none

inductive Act where
  | register
  | registerStep
  | wake (i : Nat)
  | take (i : Nat)
  | callStep (i : Nat)
  deriving DecidableEq, Repr

def step (s : State) : Act → Option State
  | .register => register s
  | .registerStep => registerStep s
  | .wake i => wake s i
  | .take i => take s i
  | .callStep i => callStep s i

def system : System State Act := ⟨new, step⟩

/-! ## The cell -/

/-- The next step reads or writes the cell. -/
def RegisterPc.accesses : RegisterPc → Bool
  | .write | .take => true
  | _ => false

def CallPc.accesses : CallPc → Bool
  | .take => true
  | _ => false

/-- The `REGISTERING` bit is set. -/
def RegisterPc.owns : RegisterPc → Bool
  | .write | .finish | .take | .swap _ => true
  | _ => false

/-- The `WAKING` bit was set by this call, which found the word `WAITING`. -/
def CallPc.owns : CallPc → Bool
  | .take | .clear _ => true
  | _ => false

/-- Who owns the cell, by the word. -/
structure Owner (s : State) : Prop where
  registering : s.pc.owns = true ↔ s.word = REGISTERING ∨ s.word = REGISTERING ||| WAKING
  calls : ∀ i, (s.calls i).pc.owns = true → s.word = WAKING
  unique : ∀ i j, (s.calls i).pc.owns = true → (s.calls j).pc.owns = true → i = j
  waking : s.word = WAKING → ∃ i, (s.calls i).pc.owns = true
  word : s.word = WAITING ∨ s.word = REGISTERING ∨ s.word = REGISTERING ||| WAKING ∨
    s.word = WAKING
  retaking : s.pc = .take → s.word = REGISTERING ||| WAKING
  swapping : ∀ w, s.pc = .swap w → s.word = REGISTERING ||| WAKING
  written : s.pc = .finish ∨ s.pc = .take → s.cell = some s.registered
  inHand : ∀ w, s.pc = .swap w ∨ s.pc = .wake w → w = s.registered
  emptied : ∀ w, s.pc = .swap w → s.cell = none
  cleared : ∀ i w, (s.calls i).pc = .clear w → s.cell = none
  noPanic : s.pc ≠ .panicked
  noPanicCall : ∀ i, (s.calls i).pc ≠ .panicked

variable {s t : State} {i : Nat} {kind : Kind}

theorem owner_new : Owner new := by
  constructor <;> simp [new, WAITING, REGISTERING, WAKING, RegisterPc.owns, CallPc.owns]

theorem owner_register (h : Owner s) (ht : register s = some t) : Owner t := by
  unfold register at ht
  split at ht <;> cases ht
  rename_i hpc
  obtain ⟨hregistering, hcalls, hunique, hwaking, hword, -, -, -, -, -, hcleared, -, hnotC⟩ := h
  rw [hpc] at hregistering
  exact ⟨hregistering, hcalls, hunique, hwaking, hword, nofun, nofun, nofun, nofun, nofun,
    hcleared, nofun, hnotC⟩

theorem waiting_ne :
    ¬(WAITING = REGISTERING ∨ WAITING = REGISTERING ||| WAKING) ∧ WAITING ≠ WAKING := by
  decide

theorem registering_ne : REGISTERING ≠ WAKING ∧ REGISTERING ||| WAKING ≠ WAKING := by
  decide

/-- While `register` owns the cell no call does. -/
theorem Owner.not_owns (h : Owner s) (hpc : s.pc.owns = true) (j : Nat) :
    (s.calls j).pc.owns ≠ true := fun hj => by
  have hwaking := h.calls j hj
  rcases h.registering.mp hpc with hw | hw
  · exact registering_ne.1 (hw.symm.trans hwaking)
  · exact registering_ne.2 (hw.symm.trans hwaking)

/-- What `register` does at each of its points. -/
theorem registerStep_cases (h : Owner s) (ht : registerStep s = some t) :
    (s.pc = .cas ∧ s.word = WAITING ∧ t = { s with word := REGISTERING, pc := .write }) ∨
    (s.pc = .cas ∧ s.word = WAKING ∧ t = { s with pc := .wakeByRef }) ∨
    (s.pc = .write ∧ t = { s with
      cell := some s.registered, replaced := s.cell.toList ++ s.replaced, pc := .finish }) ∨
    (s.pc = .finish ∧ s.word = REGISTERING ∧
      t = { s with word := WAITING }.registerReturns) ∨
    (s.pc = .finish ∧ s.word = REGISTERING ||| WAKING ∧ t = { s with pc := .take }) ∨
    (s.pc = .take ∧ t = { s with cell := none, pc := .swap s.registered }) ∨
    (s.pc = .swap s.registered ∧ t = { s with word := WAITING, pc := .wake s.registered }) ∨
    ((s.pc = .wake s.registered ∨ s.pc = .wakeByRef) ∧
      t = { s with woken := s.registered :: s.woken }.registerReturns) := by
  unfold registerStep at ht
  have hregistering := h.registering
  have hwritten := h.written
  have hinHand := h.inHand
  cases hpc : s.pc <;> simp only [hpc, reduceCtorEq] at ht hregistering hwritten hinHand
  case cas =>
    have hnot : ¬(s.word = REGISTERING ∨ s.word = REGISTERING ||| WAKING) := fun hw => by
      cases hregistering.mpr hw
    split at ht
    · exact .inl ⟨rfl, ‹_›, (Option.some.inj ht).symm⟩
    · rename_i hwaiting
      have hw : s.word = WAKING := by
        rcases h.word with hw | hw | hw | hw
        · exact absurd hw hwaiting
        · exact absurd (.inl hw) hnot
        · exact absurd (.inr hw) hnot
        · exact hw
      rw [if_pos hw] at ht
      exact .inr (.inl ⟨rfl, hw, (Option.some.inj ht).symm⟩)
  case write => exact .inr (.inr (.inl ⟨rfl, (Option.some.inj ht).symm⟩))
  case finish =>
    split at ht
    · exact .inr (.inr (.inr (.inl ⟨rfl, ‹_›, (Option.some.inj ht).symm⟩)))
    · have hw := (hregistering.mp rfl).resolve_left ‹_›
      rw [if_pos hw] at ht
      exact .inr (.inr (.inr (.inr (.inl ⟨rfl, hw, (Option.some.inj ht).symm⟩))))
  case take =>
    rw [hwritten (.inr trivial)] at ht
    exact .inr (.inr (.inr (.inr (.inr (.inl ⟨rfl, (Option.some.inj ht).symm⟩)))))
  case swap w =>
    obtain rfl := hinHand w (.inl rfl)
    exact .inr (.inr (.inr (.inr (.inr (.inr (.inl ⟨rfl, (Option.some.inj ht).symm⟩))))))
  case wake w =>
    obtain rfl := hinHand w (.inr rfl)
    exact .inr (.inr (.inr (.inr (.inr (.inr (.inr ⟨.inl rfl, (Option.some.inj ht).symm⟩))))))
  case wakeByRef =>
    exact .inr (.inr (.inr (.inr (.inr (.inr (.inr ⟨.inr rfl, (Option.some.inj ht).symm⟩))))))

theorem owner_registerStep (h : Owner s) (ht : registerStep s = some t) : Owner t := by
  obtain ⟨hpc, hw, rfl⟩ | ⟨hpc, hw, rfl⟩ | ⟨hpc, rfl⟩ | ⟨hpc, hw, rfl⟩ | ⟨hpc, hw, rfl⟩ |
    ⟨hpc, rfl⟩ | ⟨hpc, rfl⟩ | ⟨hpc, rfl⟩ := registerStep_cases h ht
  · exact ⟨⟨fun _ => .inl rfl, fun _ => rfl⟩,
      fun i hi => absurd (hw.symm.trans (h.calls i hi)) waiting_ne.2, h.unique,
      fun hn => absurd hn registering_ne.1, .inr (.inl rfl), nofun, nofun, nofun, nofun, nofun,
      h.cleared, nofun, h.noPanicCall⟩
  · have hregistering := h.registering
    rw [hpc] at hregistering
    exact ⟨hregistering, h.calls, h.unique, h.waking, h.word, nofun, nofun, nofun, nofun, nofun,
      h.cleared, nofun, h.noPanicCall⟩
  · have hregistering := h.registering
    have hnot := h.not_owns (by rw [hpc]; rfl)
    rw [hpc] at hregistering
    exact ⟨hregistering, h.calls, h.unique, h.waking, h.word, nofun, nofun, fun _ => rfl, nofun,
      nofun, fun i w hi => absurd (by rw [hi]; rfl) (hnot i), nofun, h.noPanicCall⟩
  · have hnot := h.not_owns (by rw [hpc]; rfl)
    exact ⟨⟨nofun, fun hn => absurd hn waiting_ne.1⟩, fun i hi => absurd hi (hnot i), h.unique,
      fun hn => absurd hn waiting_ne.2, .inl rfl, nofun, nofun, nofun, nofun, nofun, h.cleared,
      nofun, h.noPanicCall⟩
  · have hregistering := h.registering
    have hcell := h.written (.inl hpc)
    rw [hpc] at hregistering
    exact ⟨hregistering, h.calls, h.unique, h.waking, h.word, fun _ => hw, nofun, fun _ => hcell,
      nofun, nofun, h.cleared, nofun, h.noPanicCall⟩
  · have hregistering := h.registering
    have hw := h.retaking hpc
    rw [hpc] at hregistering
    refine ⟨hregistering, h.calls, h.unique, h.waking, h.word, nofun, fun _ _ => hw, nofun, ?_,
      fun _ _ => rfl, fun _ _ _ => rfl, nofun, h.noPanicCall⟩
    rintro w (hp | hp) <;> cases hp
    rfl
  · have hnot := h.not_owns (by rw [hpc]; rfl)
    refine ⟨⟨nofun, fun hn => absurd hn waiting_ne.1⟩, fun i hi => absurd hi (hnot i), h.unique,
      fun hn => absurd hn waiting_ne.2, .inl rfl, nofun, nofun, nofun, ?_, nofun, h.cleared, nofun,
      h.noPanicCall⟩
    rintro w (hp | hp) <;> cases hp
    rfl
  · have hregistering := h.registering
    have howns : s.pc.owns = false := by rcases hpc with hpc | hpc <;> rw [hpc] <;> rfl
    rw [howns] at hregistering
    exact ⟨hregistering, h.calls, h.unique, h.waking, h.word, nofun, nofun, nofun, nofun, nofun,
      h.cleared, nofun, h.noPanicCall⟩

/-- What a call does at each of its points. -/
theorem callStep_cases (ht : callStep s i = some t) :
    ((s.calls i).pc = .fetchOr ∧ s.word = WAITING ∧
      t = { s with word := WAKING }.moveCall i .take) ∨
    ((s.calls i).pc = .fetchOr ∧ (s.word = REGISTERING ∨ s.word = REGISTERING ||| WAKING) ∧
      t = { s with word := REGISTERING ||| WAKING }.callReturns i) ∨
    ((s.calls i).pc = .fetchOr ∧ s.word = WAKING ∧ t = s.callReturns i) ∨
    ((s.calls i).pc = .fetchOr ∧
      ¬ (s.word = WAITING ∨ s.word = REGISTERING ∨ s.word = REGISTERING ||| WAKING ∨
        s.word = WAKING)) ∨
    ((s.calls i).pc = .take ∧ (s.calls i).kind = .take ∧
      t = { s with cell := none, removed := s.cell.toList ++ s.removed }.moveCall i
        (.clear s.cell)) ∨
    ((s.calls i).pc = .take ∧ (s.calls i).kind = .wake ∧
      t = { s with cell := none }.moveCall i (.clear s.cell)) ∨
    (∃ w, (s.calls i).pc = .clear (some w) ∧ (s.calls i).kind = .wake ∧
      t = { s with word := s.word &&& ~~~WAKING }.moveCall i (.wake w)) ∨
    (∃ waker, (s.calls i).pc = .clear waker ∧ ((s.calls i).kind = .take ∨ waker = none) ∧
      t = { s with word := s.word &&& ~~~WAKING }.callReturns i) ∨
    (∃ w, (s.calls i).pc = .wake w ∧ t = { s with woken := w :: s.woken }.callReturns i) := by
  unfold callStep at ht
  dsimp only at ht
  split at ht
  case h_1 hpc =>
    split at ht
    case isTrue hw =>
      cases ht
      exact .inl ⟨hpc, hw, by rw [hw]; rfl⟩
    split at ht
    · rename_i hw
      cases ht
      obtain hw | hw | hw := hw
      · exact .inr (.inl ⟨hpc, .inl hw, by rw [hw]⟩)
      · exact .inr (.inl ⟨hpc, .inr hw, by rw [hw]; rfl⟩)
      · exact .inr (.inr (.inl ⟨hpc, hw, by rw [hw]; simp [← hw]⟩))
    · rename_i h0 h1
      exact .inr (.inr (.inr (.inl ⟨hpc, fun h => h.elim h0 h1⟩)))
  case h_2 hpc =>
    cases ht
    cases hk : (s.calls i).kind with
    | take => exact .inr (.inr (.inr (.inr (.inl ⟨hpc, rfl, rfl⟩))))
    | wake => exact .inr (.inr (.inr (.inr (.inr (.inl ⟨hpc, rfl, rfl⟩)))))
  case h_3 waker hpc =>
    refine .inr (.inr (.inr (.inr (.inr (.inr ?_)))))
    cases hk : (s.calls i).kind with
    | take =>
      simp only [hk] at ht
      cases ht
      exact .inr (.inl ⟨waker, hpc, .inl rfl, rfl⟩)
    | wake =>
      cases waker with
      | none =>
        simp only [hk] at ht
        cases ht
        exact .inr (.inl ⟨none, hpc, .inr rfl, rfl⟩)
      | some w =>
        simp only [hk] at ht
        cases ht
        exact .inl ⟨w, hpc, rfl, rfl⟩
  case h_4 w hpc =>
    cases ht
    exact .inr (.inr (.inr (.inr (.inr (.inr (.inr (.inr ⟨w, hpc, rfl⟩)))))))
  all_goals cases ht

/-- A call of `wake` or `take` moves on: it may leave the cell empty if it owns it. -/
theorem Owner.move_call {c : Call} (h : Owner s) (hcalls : t.calls = Function.update s.calls i c)
    (hpc : t.pc = s.pc) (hregistered : t.registered = s.registered)
    (hcell : t.cell = s.cell ∨ t.cell = none ∧ s.word = WAKING)
    (hword : t.word = WAITING ∨ t.word = REGISTERING ∨ t.word = REGISTERING ||| WAKING ∨
      t.word = WAKING)
    (hregistering : t.word = REGISTERING ∨ t.word = REGISTERING ||| WAKING ↔
      s.word = REGISTERING ∨ s.word = REGISTERING ||| WAKING)
    (hboth : s.word = REGISTERING ||| WAKING → t.word = REGISTERING ||| WAKING)
    (howns : c.pc.owns = true → t.word = WAKING ∧ ∀ j, j ≠ i → (s.calls j).pc.owns ≠ true)
    (hothers : ∀ j, j ≠ i → (s.calls j).pc.owns = true → t.word = WAKING)
    (hwaking : t.word = WAKING → ∃ j, (t.calls j).pc.owns = true)
    (hclear : ∀ w, c.pc = .clear w → t.cell = none) (hpanic : c.pc ≠ .panicked) : Owner t := by
  have hself : t.calls i = c := by rw [hcalls, Function.update_self]
  have hother : ∀ j, j ≠ i → t.calls j = s.calls j := fun j hne => by
    rw [hcalls, Function.update_of_ne hne]
  have hempty : s.cell = none → t.cell = none := fun hn => hcell.elim (·.trans hn) And.left
  refine ⟨?_, fun j hj => ?_, fun j k hj hk => ?_, hwaking, hword, ?_, ?_, ?_, ?_, ?_, ?_, ?_, ?_⟩
  · rw [hpc, h.registering, hregistering]
  · rcases eq_or_ne j i with rfl | hne
    · exact (howns (hself ▸ hj)).1
    · exact hothers j hne (hother j hne ▸ hj)
  · rcases eq_or_ne j i with rfl | hji <;> rcases eq_or_ne k j with rfl | hkj
    · rfl
    · exact absurd (hother k hkj ▸ hk) ((howns (hself ▸ hj)).2 k hkj)
    · rfl
    · rcases eq_or_ne k i with rfl | hki
      · exact absurd (hother j hji ▸ hj) ((howns (hself ▸ hk)).2 j hji)
      · exact h.unique j k (hother j hji ▸ hj) (hother k hki ▸ hk)
  · exact fun hp => hboth (h.retaking (hpc ▸ hp))
  · exact fun w hp => hboth (h.swapping w (hpc ▸ hp))
  · intro hp
    rw [hpc] at hp
    rw [hregistered]
    rcases hcell with hcell | ⟨-, hw⟩
    · exact hcell.trans (h.written hp)
    · have hreg : s.pc.owns = true := by rcases hp with hp | hp <;> rw [hp] <;> rfl
      rcases h.registering.mp hreg with hw' | hw'
      · exact absurd (hw'.symm.trans hw) registering_ne.1
      · exact absurd (hw'.symm.trans hw) registering_ne.2
  · rw [hpc, hregistered]
    exact h.inHand
  · exact fun w hp => hempty (h.emptied w (hpc ▸ hp))
  · intro j w hj
    rcases eq_or_ne j i with rfl | hne
    · exact hclear w (hself ▸ hj)
    · exact hempty (h.cleared j w (hother j hne ▸ hj))
  · rw [hpc]
    exact h.noPanic
  · intro j
    rcases eq_or_ne j i with rfl | hne
    · rwa [hself]
    · rw [hother j hne]
      exact h.noPanicCall j

/-- Nobody else owns the cell. -/
theorem Owner.alone (h : Owner s) (hi : (s.calls i).pc.owns = true) (j : Nat) (hne : j ≠ i) :
    (s.calls j).pc.owns ≠ true :=
  fun hj => hne (h.unique j i hj hi)

theorem owner_call (h : Owner s) (ht : call s i kind = some t) : Owner t := by
  unfold call State.setCall at ht
  split at ht <;> cases ht
  rename_i hpc
  refine h.move_call (i := i) rfl rfl rfl (.inl rfl) h.word .rfl id nofun (fun j _ => h.calls j) ?_
    nofun nofun
  exact fun hw => exists_update (P := fun c : Call => c.pc.owns = true) (h.waking hw)
    (by simp [hpc, CallPc.owns])

/-- The `WAKING` bit alone always has an owner. -/
theorem waking_callStep (h : Owner s) (ht : callStep s i = some t) (hw' : t.word = WAKING) :
    ∃ j, (t.calls j).pc.owns = true := by
  have hkeep : ∀ c, s.word = WAKING → ((s.calls i).pc.owns = true → c.pc.owns = true) →
      ∃ j, (Function.update s.calls i c j).pc.owns = true :=
    fun c hw => exists_update (P := fun c : Call => c.pc.owns = true) (h.waking hw)
  obtain ⟨hpc, hw, rfl⟩ | ⟨hpc, hw, rfl⟩ | ⟨hpc, hw, rfl⟩ | ⟨hpc, hw⟩ | ⟨hpc, hk, rfl⟩ |
    ⟨hpc, hk, rfl⟩ | ⟨w, hpc, hk, rfl⟩ | ⟨waker, hpc, hk, rfl⟩ | ⟨w, hpc, rfl⟩ := callStep_cases ht
  · exact ⟨i, by simp [State.moveCall, State.setCall, CallPc.owns]⟩
  · exact absurd hw' (by simp [State.callReturns, State.setCall, REGISTERING, WAKING])
  · exact hkeep _ hw (by simp [hpc, CallPc.owns])
  · exact absurd h.word hw
  · exact hkeep _ hw' (by simp [CallPc.owns])
  · exact hkeep _ hw' (by simp [CallPc.owns])
  · have hw := h.calls i (by simp [hpc, CallPc.owns])
    exact absurd hw' (by simp [State.moveCall, State.setCall, hw, WAKING])
  · have hw := h.calls i (by simp [hpc, CallPc.owns])
    exact absurd hw' (by simp [State.callReturns, State.setCall, hw, WAKING])
  · exact hkeep _ hw' (by simp [hpc, CallPc.owns])

theorem owner_callStep (h : Owner s) (ht : callStep s i = some t) : Owner t := by
  have hwaking := waking_callStep h ht
  obtain ⟨hpc, hw, rfl⟩ | ⟨hpc, hw, rfl⟩ | ⟨hpc, hw, rfl⟩ | ⟨hpc, hw⟩ | ⟨hpc, hk, rfl⟩ |
    ⟨hpc, hk, rfl⟩ | ⟨w, hpc, hk, rfl⟩ | ⟨waker, hpc, hk, rfl⟩ | ⟨w, hpc, rfl⟩ := callStep_cases ht
  · -- the call takes the cell
    have hnot : ∀ j, (s.calls j).pc.owns ≠ true := fun j hj =>
      waiting_ne.2 (hw.symm.trans (h.calls j hj))
    refine h.move_call (i := i) rfl rfl rfl (.inl rfl) (.inr (.inr (.inr rfl))) ?_ ?_
      (fun _ => ⟨rfl, fun j _ => hnot j⟩) (fun _ _ _ => rfl) hwaking nofun nofun
    · simp [State.moveCall, State.setCall, hw, WAITING, REGISTERING, WAKING]
    · simp [hw, WAITING, REGISTERING, WAKING]
  · -- `register` owns it, and is told of the call
    have hnot := h.not_owns (h.registering.mpr hw)
    exact h.move_call (i := i) rfl rfl rfl (.inl rfl) (.inr (.inr (.inl rfl)))
      (iff_of_true (.inr rfl) hw) (fun _ => rfl) nofun (fun j _ hj => absurd hj (hnot j)) hwaking
      nofun nofun
  · exact h.move_call (i := i) rfl rfl rfl (.inl rfl) h.word .rfl id nofun (fun j _ => h.calls j)
      hwaking nofun nofun
  · exact absurd h.word hw
  · have howns : (s.calls i).pc.owns = true := by rw [hpc]; rfl
    have hw := h.calls i howns
    exact h.move_call (i := i) rfl rfl rfl (.inr ⟨rfl, hw⟩) h.word .rfl id
      (fun _ => ⟨hw, h.alone howns⟩) (fun j _ => h.calls j) hwaking (fun _ _ => rfl) nofun
  · have howns : (s.calls i).pc.owns = true := by rw [hpc]; rfl
    have hw := h.calls i howns
    exact h.move_call (i := i) rfl rfl rfl (.inr ⟨rfl, hw⟩) h.word .rfl id
      (fun _ => ⟨hw, h.alone howns⟩) (fun j _ => h.calls j) hwaking (fun _ _ => rfl) nofun
  · have howns : (s.calls i).pc.owns = true := by rw [hpc]; rfl
    have hw := h.calls i howns
    refine h.move_call (i := i) rfl rfl rfl (.inl rfl) (.inl ?_) ?_ ?_ nofun
      (fun j hne hj => absurd hj (h.alone howns j hne)) hwaking nofun nofun
    all_goals simp [State.moveCall, State.setCall, hw, WAITING, REGISTERING, WAKING]
  · have howns : (s.calls i).pc.owns = true := by rw [hpc]; rfl
    have hw := h.calls i howns
    refine h.move_call (i := i) rfl rfl rfl (.inl rfl) (.inl ?_) ?_ ?_ nofun
      (fun j hne hj => absurd hj (h.alone howns j hne)) hwaking nofun nofun
    all_goals simp [State.callReturns, State.setCall, hw, WAITING, REGISTERING, WAKING]
  · exact h.move_call (i := i) rfl rfl rfl (.inl rfl) h.word .rfl id nofun (fun j _ => h.calls j)
      hwaking nofun nofun

theorem owner_step {a : Act} (h : Owner s) (ht : step s a = some t) : Owner t := by
  cases a with
  | register => exact owner_register h ht
  | registerStep => exact owner_registerStep h ht
  | wake i | take i => exact owner_call h ht
  | callStep i => exact owner_callStep h ht

/-! ## Where a waker is -/

/-- The waker of call `k` was woken, given away or overwritten, or is just being
overwritten. -/
def Settled (s : State) (k : Nat) : Prop :=
  k ∈ s.woken ∨ k ∈ s.removed ∨ k ∈ s.replaced ∨ s.pc = .write ∧ s.cell = some k

/-- Call `j` has the waker of call `k`, or will have it with its next step. -/
def Holds (s : State) (j k : Nat) : Prop :=
  (s.calls j).pc = .take ∧ s.cell = some k ∨ (s.calls j).pc = .clear (some k) ∨
    (s.calls j).pc = .wake k

/-- The call has made its one access that decides who takes the waker. -/
def CallPc.past : CallPc → Bool
  | .unborn | .fetchOr => false
  | _ => true

structure Located (s : State) : Prop where
  registered : ∀ k < s.registered, Settled s k ∨ s.cell = some k ∨ ∃ j, Holds s j k
  called : ∀ i k, (s.calls i).pc.past = true → k < (s.calls i).since →
    Settled s k ∨ ∃ j, Holds s j k ∧
      ((s.calls i).pc = .returned → (s.calls j).began < (s.calls i).ended)
  since : ∀ i, (s.calls i).since ≤ s.registered
  began : ∀ i, (s.calls i).pc ≠ .unborn → (s.calls i).began < s.clock
  given : ∀ i w, (s.calls i).kind = .take → (s.calls i).pc = .clear (some w) → w ∈ s.removed

variable {a : Act} {j k : Nat}

theorem located_new : Located new := by
  constructor <;> simp [new, CallPc.past]

/-- A waker that is settled stays so; `register` finishes the write it has begun. -/
theorem Settled.mono (hk : Settled s k) (hwoken : s.woken ⊆ t.woken)
    (hremoved : s.removed ⊆ t.removed) (hreplaced : s.replaced ⊆ t.replaced)
    (hwrite : s.pc = .write → s.cell = some k → Settled t k) : Settled t k := by
  rcases hk with hk | hk | hk | ⟨hpc, hc⟩
  · exact .inl (hwoken hk)
  · exact .inr (.inl (hremoved hk))
  · exact .inr (.inr (.inl (hreplaced hk)))
  · exact hwrite hpc hc

theorem settled_registerStep (h : Owner s) (ht : registerStep s = some t) (hk : Settled s k) :
    Settled t k := by
  have hnil : ∀ l : List Nat, l ⊆ l := fun _ _ => id
  obtain ⟨hpc, -, rfl⟩ | ⟨hpc, -, rfl⟩ | ⟨hpc, rfl⟩ | ⟨hpc, -, rfl⟩ | ⟨hpc, -, rfl⟩ |
    ⟨hpc, rfl⟩ | ⟨hpc, rfl⟩ | ⟨hpc, rfl⟩ := registerStep_cases h ht
  case inr.inr.inl =>
    refine hk.mono (hnil _) (hnil _) (List.subset_append_right _ _) fun _ hc => ?_
    exact .inr (.inr (.inl (by simp [hc])))
  case inr.inr.inr.inr.inr.inr.inr =>
    refine hk.mono (List.subset_cons_self _ _) (hnil _) (hnil _) fun hw => ?_
    rcases hpc with hpc | hpc <;> cases hpc.symm.trans hw
  all_goals
    refine hk.mono (hnil _) (hnil _) (hnil _) fun hw => ?_
    cases hpc.symm.trans hw

theorem settled_callStep (h : Owner s) (ht : callStep s i = some t) (hk : Settled s k) :
    Settled t k := by
  have hnil : ∀ l : List Nat, l ⊆ l := fun _ _ => id
  -- a call that empties the cell does so while `register` does not write
  have hout : (s.calls i).pc = .take → s.pc ≠ .write := fun hi hpc =>
    h.not_owns (by rw [hpc]; rfl) i (by rw [hi]; rfl)
  obtain ⟨hpc, -, rfl⟩ | ⟨hpc, -, rfl⟩ | ⟨hpc, -, rfl⟩ | ⟨hpc, hw⟩ | ⟨hpc, -, rfl⟩ |
    ⟨hpc, -, rfl⟩ | ⟨w, hpc, -, rfl⟩ | ⟨waker, hpc, -, rfl⟩ | ⟨w, hpc, rfl⟩ := callStep_cases ht
  case inr.inr.inr.inl => exact absurd h.word hw
  case inr.inr.inr.inr.inl =>
    exact hk.mono (hnil _) (List.subset_append_right _ _) (hnil _) fun hw => absurd hw (hout hpc)
  case inr.inr.inr.inr.inr.inl =>
    exact hk.mono (hnil _) (hnil _) (hnil _) fun hw => absurd hw (hout hpc)
  case inr.inr.inr.inr.inr.inr.inr.inr =>
    exact hk.mono (List.subset_cons_self _ _) (hnil _) (hnil _)
      fun hw hc => .inr (.inr (.inr ⟨hw, hc⟩))
  all_goals exact hk.mono (hnil _) (hnil _) (hnil _) fun hw hc => .inr (.inr (.inr ⟨hw, hc⟩))

theorem settled_step (h : Owner s) (ht : step s a = some t) (hk : Settled s k) : Settled t k := by
  cases a with
  | register =>
    simp only [step, register] at ht
    split at ht <;> cases ht
    rename_i hpc
    refine hk.mono (fun _ => id) (fun _ => id) (fun _ => id) fun hw => ?_
    cases hpc.symm.trans hw
  | registerStep => exact settled_registerStep h ht hk
  | wake i | take i =>
    simp only [step, wake, take, call] at ht
    split at ht <;> cases ht
    exact hk
  | callStep i => exact settled_callStep h ht hk

theorem Holds.mono (hj : Holds s j k) (hpc : (t.calls j).pc = (s.calls j).pc)
    (hcell : (s.calls j).pc = .take → t.cell = s.cell) : Holds t j k := by
  rw [Holds, hpc]
  rcases hj with ⟨htake, hc⟩ | hj
  · exact .inl ⟨htake, (hcell htake).trans hc⟩
  · exact .inr hj

theorem holds_registerStep (h : Owner s) (ht : registerStep s = some t) (hj : Holds s j k) :
    Holds t j k ∧ t.calls = s.calls := by
  have hout : s.pc.owns = true → (s.calls j).pc ≠ .take := fun hpc hi =>
    h.not_owns hpc j (by rw [hi]; rfl)
  obtain ⟨hpc, -, rfl⟩ | ⟨hpc, -, rfl⟩ | ⟨hpc, rfl⟩ | ⟨hpc, -, rfl⟩ | ⟨hpc, -, rfl⟩ |
    ⟨hpc, rfl⟩ | ⟨hpc, rfl⟩ | ⟨hpc, rfl⟩ := registerStep_cases h ht
  case inr.inr.inl | inr.inr.inr.inr.inr.inl =>
    exact ⟨hj.mono rfl fun htake => absurd htake (hout (by rw [hpc]; rfl)), rfl⟩
  all_goals exact ⟨hj.mono rfl fun _ => rfl, rfl⟩

/-- The call hands the waker on to its own next point, or wakes it. -/
theorem holds_callStep_self (h : Owner s) (hl : Located s) (ht : callStep s i = some t)
    (hi : Holds s i k) :
    Settled t k ∨ Holds t i k ∧ (t.calls i).began = (s.calls i).began := by
  obtain ⟨hpc, -, rfl⟩ | ⟨hpc, -, rfl⟩ | ⟨hpc, -, rfl⟩ | ⟨hpc, hw⟩ | ⟨hpc, hkd, rfl⟩ |
    ⟨hpc, hkd, rfl⟩ | ⟨w, hpc, hkd, rfl⟩ | ⟨waker, hpc, hkd, rfl⟩ | ⟨w, hpc, rfl⟩ :=
    callStep_cases ht
  case inr.inr.inr.inl => exact absurd h.word hw
  case inr.inr.inr.inr.inl | inr.inr.inr.inr.inr.inl =>
    have hc : s.cell = some k := by simpa [Holds, hpc] using hi
    exact .inr ⟨.inr (.inl (by simp [State.moveCall, State.setCall, hc])),
      by simp [State.moveCall, State.setCall]⟩
  case inr.inr.inr.inr.inr.inr.inl =>
    obtain rfl : w = k := by simpa [Holds, hpc] using hi
    exact .inr ⟨.inr (.inr (by simp [State.moveCall, State.setCall])),
      by simp [State.moveCall, State.setCall]⟩
  case inr.inr.inr.inr.inr.inr.inr.inl =>
    obtain rfl : waker = some k := by simpa [Holds, hpc] using hi
    exact .inl (.inr (.inl (hl.given i k (hkd.resolve_right nofun) hpc)))
  case inr.inr.inr.inr.inr.inr.inr.inr =>
    obtain rfl : w = k := by simpa [Holds, hpc] using hi
    exact .inl (.inl (List.mem_cons_self ..))
  all_goals simp [Holds, hpc] at hi

theorem holds_callStep_of_ne (h : Owner s) (ht : callStep s i = some t) (hne : j ≠ i)
    (hj : Holds s j k) : Holds t j k ∧ (t.calls j).began = (s.calls j).began := by
  have hout : (s.calls i).pc = .take → (s.calls j).pc ≠ .take := fun hi hj' =>
    h.alone (by rw [hi]; rfl) j hne (by rw [hj']; rfl)
  have hother : ∀ c, Function.update s.calls i c j = s.calls j := fun c =>
    Function.update_of_ne hne _ _
  obtain ⟨hpc, -, rfl⟩ | ⟨hpc, -, rfl⟩ | ⟨hpc, -, rfl⟩ | ⟨hpc, hw⟩ | ⟨hpc, hkd, rfl⟩ |
    ⟨hpc, hkd, rfl⟩ | ⟨w, hpc, hkd, rfl⟩ | ⟨waker, hpc, hkd, rfl⟩ | ⟨w, hpc, rfl⟩ :=
    callStep_cases ht
  case inr.inr.inr.inl => exact absurd h.word hw
  case inr.inr.inr.inr.inl | inr.inr.inr.inr.inr.inl =>
    exact ⟨hj.mono (congrArg Call.pc (hother _)) fun htake => absurd htake (hout hpc),
      congrArg Call.began (hother _)⟩
  all_goals
    exact ⟨hj.mono (congrArg Call.pc (hother _)) fun _ => rfl, congrArg Call.began (hother _)⟩

theorem holds_callStep (h : Owner s) (hl : Located s) (ht : callStep s i = some t)
    (hj : Holds s j k) :
    Settled t k ∨ Holds t j k ∧ (t.calls j).began = (s.calls j).began := by
  rcases eq_or_ne j i with rfl | hne
  · exact holds_callStep_self h hl ht hj
  · exact .inr (holds_callStep_of_ne h ht hne hj)

theorem holds_step (h : Owner s) (hl : Located s) (ht : step s a = some t) (hj : Holds s j k) :
    Settled t k ∨ Holds t j k ∧ (t.calls j).began = (s.calls j).began := by
  cases a with
  | register =>
    simp only [step, register] at ht
    split at ht <;> cases ht
    exact .inr ⟨hj, rfl⟩
  | registerStep =>
    obtain ⟨hj', hcalls⟩ := holds_registerStep h ht hj
    exact .inr ⟨hj', by rw [hcalls]⟩
  | wake i | take i =>
    simp only [step, wake, take, call] at ht
    split at ht <;> cases ht
    rename_i hpc
    have hji : j ≠ i := by
      rintro rfl
      simp [Holds, hpc] at hj
    simpa [State.setCall, Holds, hji] using Or.inr hj
  | callStep i => exact holds_callStep h hl ht hj

/-- A waker in the cell stays there until somebody takes it or overwrites it. -/
theorem cell_step (h : Owner s) (ht : step s a = some t) (hk : k < s.registered)
    (hc : s.cell = some k) : Settled t k ∨ t.cell = some k ∨ ∃ j, Holds t j k := by
  cases a with
  | register =>
    simp only [step, register] at ht
    split at ht <;> cases ht
    exact .inr (.inl hc)
  | registerStep =>
    obtain ⟨hpc, -, rfl⟩ | ⟨hpc, -, rfl⟩ | ⟨hpc, rfl⟩ | ⟨hpc, -, rfl⟩ | ⟨hpc, -, rfl⟩ |
      ⟨hpc, rfl⟩ | ⟨hpc, rfl⟩ | ⟨hpc, rfl⟩ := registerStep_cases h ht
    case inr.inr.inl => exact .inl (.inr (.inr (.inl (by simp [hc]))))
    case inr.inr.inr.inr.inr.inl =>
      have hown := h.written (.inr hpc)
      exact absurd (Option.some.inj (hc.symm.trans hown)) (Nat.ne_of_lt hk)
    all_goals exact .inr (.inl hc)
  | wake i | take i =>
    simp only [step, wake, take, call] at ht
    split at ht <;> cases ht
    exact .inr (.inl hc)
  | callStep i =>
    obtain ⟨hpc, hw, rfl⟩ | ⟨hpc, hw, rfl⟩ | ⟨hpc, hw, rfl⟩ | ⟨hpc, hw⟩ | ⟨hpc, hkd, rfl⟩ |
      ⟨hpc, hkd, rfl⟩ | ⟨w, hpc, hkd, rfl⟩ | ⟨waker, hpc, hkd, rfl⟩ | ⟨w, hpc, rfl⟩ :=
      callStep_cases ht
    case inr.inr.inr.inl => exact absurd h.word hw
    case inr.inr.inr.inr.inl =>
      exact .inr (.inr ⟨i, .inr (.inl (by simp [State.moveCall, State.setCall, hc]))⟩)
    case inr.inr.inr.inr.inr.inl =>
      exact .inr (.inr ⟨i, .inr (.inl (by simp [State.moveCall, State.setCall, hc]))⟩)
    all_goals exact .inr (.inl hc)

/-- A call of `register` returns with its waker in the cell or woken. -/
theorem registered_step (h : Owner s) (ht : step s a = some t) :
    t.registered = s.registered ∨ t.registered = s.registered + 1 ∧
      (s.registered ∈ t.woken ∨ t.cell = some s.registered) := by
  cases a with
  | register =>
    simp only [step, register] at ht
    split at ht <;> cases ht
    exact .inl rfl
  | registerStep =>
    obtain ⟨hpc, -, rfl⟩ | ⟨hpc, -, rfl⟩ | ⟨hpc, rfl⟩ | ⟨hpc, -, rfl⟩ | ⟨hpc, -, rfl⟩ |
      ⟨hpc, rfl⟩ | ⟨hpc, rfl⟩ | ⟨hpc, rfl⟩ := registerStep_cases h ht
    case inr.inr.inr.inl => exact .inr ⟨rfl, .inr (h.written (.inl hpc))⟩
    case inr.inr.inr.inr.inr.inr.inr => exact .inr ⟨rfl, .inl (List.mem_cons_self ..)⟩
    all_goals exact .inl rfl
  | wake i | take i =>
    simp only [step, wake, take, call] at ht
    split at ht <;> cases ht
    exact .inl rfl
  | callStep i =>
    obtain ⟨hpc, hw, rfl⟩ | ⟨hpc, hw, rfl⟩ | ⟨hpc, hw, rfl⟩ | ⟨hpc, hw⟩ | ⟨hpc, hkd, rfl⟩ |
      ⟨hpc, hkd, rfl⟩ | ⟨w, hpc, hkd, rfl⟩ | ⟨waker, hpc, hkd, rfl⟩ | ⟨w, hpc, rfl⟩ :=
      callStep_cases ht
    case inr.inr.inr.inl => exact absurd h.word hw
    all_goals exact .inl rfl

/-- Outside of `WAITING` a waker in the cell has an owner who takes it out or overwrites
it. -/
theorem settled_or_holds (h : Owner s) (hl : Located s) (hk : k < s.registered)
    (hw : s.word ≠ WAITING) : Settled s k ∨ ∃ j, Holds s j k := by
  obtain hset | hc | hj := hl.registered k hk
  · exact .inl hset
  · have howner : s.pc.owns = true ∨ s.word = WAKING := by
      obtain hw0 | hw1 | hw3 | hw2 := h.word
      · exact absurd hw0 hw
      · exact .inl (h.registering.2 (.inl hw1))
      · exact .inl (h.registering.2 (.inr hw3))
      · exact .inr hw2
    obtain hreg | hwaking := howner
    · have hne : s.cell ≠ some s.registered := by
        rw [hc]
        exact fun he => absurd (Option.some.inj he) (Nat.ne_of_lt hk)
      cases hpc : s.pc with
      | write => exact .inl (.inr (.inr (.inr ⟨hpc, hc⟩)))
      | finish => exact absurd (h.written (.inl hpc)) hne
      | take => exact absurd (h.written (.inr hpc)) hne
      | swap w => exact absurd (h.emptied w hpc) (by simp [hc])
      | idle | cas | wake w | wakeByRef | panicked => simp [hpc, RegisterPc.owns] at hreg
    · obtain ⟨j, hj⟩ := h.waking hwaking
      cases hpc : (s.calls j).pc with
      | take => exact .inr ⟨j, .inl ⟨hpc, hc⟩⟩
      | clear w => exact absurd (h.cleared j w hpc) (by simp [hc])
      | unborn | fetchOr | wake w | returned | panicked => simp [hpc, CallPc.owns] at hj
  · exact .inr hj

/-- What a step of a call does to its record: it enters the time of its return, and a waker that
`take` is about to give away. -/
structure Advances (i : Nat) (s t : State) : Prop where
  others : ∀ j, j ≠ i → t.calls j = s.calls j
  kind : (t.calls i).kind = (s.calls i).kind
  since : (t.calls i).since = (s.calls i).since
  began : (t.calls i).began = (s.calls i).began
  born : (s.calls i).pc ≠ .unborn
  past : (t.calls i).pc.past = true
  ended : (t.calls i).pc = .returned → (t.calls i).ended = s.clock
  clock : s.clock ≤ t.clock
  registered : t.registered = s.registered
  removed : s.removed ⊆ t.removed
  given : ∀ w, (s.calls i).kind = .take → (t.calls i).pc = .clear (some w) → w ∈ t.removed
  first : (s.calls i).pc.past = false → s.word ≠ WAITING ∨ t.cell = s.cell ∧ (t.calls i).pc = .take

theorem Advances.move {pc : CallPc}
    (hcalls : t.calls = Function.update s.calls i { s.calls i with pc })
    (hborn : (s.calls i).pc ≠ .unborn) (hpast : pc.past = true) (hpc : pc ≠ .returned)
    (hclock : t.clock = s.clock) (hregistered : t.registered = s.registered)
    (hremoved : s.removed ⊆ t.removed)
    (hgiven : ∀ w, (s.calls i).kind = .take → pc = .clear (some w) → w ∈ t.removed)
    (hfirst : (s.calls i).pc.past = false → t.cell = s.cell ∧ pc = .take) : Advances i s t := by
  have hself : t.calls i = { s.calls i with pc } := by rw [hcalls, Function.update_self]
  exact {
    others := fun j hne => by rw [hcalls, Function.update_of_ne hne]
    kind := by rw [hself]
    since := by rw [hself]
    began := by rw [hself]
    born := hborn
    past := by rw [hself]; exact hpast
    ended := fun hr => absurd (by rwa [hself] at hr) hpc
    clock := Nat.le_of_eq hclock.symm
    registered := hregistered
    removed := hremoved
    given := fun w hk hw => hgiven w hk (by rwa [hself] at hw)
    first := fun hp => .inr (by rw [hself]; exact hfirst hp) }

theorem Advances.return
    (hcalls : t.calls = Function.update s.calls i
      { s.calls i with pc := .returned, ended := s.clock })
    (hborn : (s.calls i).pc ≠ .unborn) (hclock : t.clock = s.clock + 1)
    (hregistered : t.registered = s.registered) (hremoved : t.removed = s.removed)
    (hfirst : (s.calls i).pc.past = false → s.word ≠ WAITING) : Advances i s t := by
  have hself : t.calls i = { s.calls i with pc := .returned, ended := s.clock } := by
    rw [hcalls, Function.update_self]
  exact {
    others := fun j hne => by rw [hcalls, Function.update_of_ne hne]
    kind := by rw [hself]
    since := by rw [hself]
    began := by rw [hself]
    born := hborn
    past := by rw [hself]; rfl
    ended := fun _ => by rw [hself]
    clock := hclock ▸ Nat.le_succ _
    registered := hregistered
    removed := fun x hx => hremoved ▸ hx
    given := fun w _ hw => by
      rw [hself] at hw
      cases hw
    first := fun hp => .inl (hfirst hp) }

theorem advances_callStep (h : Owner s) (ht : callStep s i = some t) : Advances i s t := by
  have hnil : ∀ l : List Nat, l ⊆ l := fun _ _ => id
  have hbusy : s.word = REGISTERING ∨ s.word = REGISTERING ||| WAKING ∨ s.word = WAKING →
      s.word ≠ WAITING := by
    rintro (hw | hw | hw) <;> rw [hw] <;> decide
  obtain ⟨hpc, -, rfl⟩ | ⟨hpc, hw, rfl⟩ | ⟨hpc, hw, rfl⟩ | ⟨hpc, hw⟩ | ⟨hpc, hkd, rfl⟩ |
    ⟨hpc, hkd, rfl⟩ | ⟨w, hpc, hkd, rfl⟩ | ⟨waker, hpc, hkd, rfl⟩ | ⟨w, hpc, rfl⟩ :=
    callStep_cases ht
  · exact .move rfl (by simp [hpc]) rfl nofun rfl rfl (hnil _) nofun fun _ => ⟨rfl, rfl⟩
  · exact .return rfl (by simp [hpc]) rfl rfl rfl fun _ => hbusy (hw.imp_right .inl)
  · exact .return rfl (by simp [hpc]) rfl rfl rfl fun _ => hbusy (.inr (.inr hw))
  · exact absurd h.word hw
  · refine .move rfl (by simp [hpc]) rfl nofun rfl rfl (List.subset_append_right _ _) ?_
      (by simp [hpc, CallPc.past])
    intro w _ hw
    have hc : s.cell = some w := by simpa using hw
    simp [State.moveCall, State.setCall, hc]
  · refine .move rfl (by simp [hpc]) rfl nofun rfl rfl (hnil _) (fun w hk => ?_)
      (by simp [hpc, CallPc.past])
    cases hkd.symm.trans hk
  · exact .move rfl (by simp [hpc]) rfl nofun rfl rfl (hnil _) nofun (by simp [hpc, CallPc.past])
  · exact .return rfl (by simp [hpc]) rfl rfl rfl (by simp [hpc, CallPc.past])
  · exact .return rfl (by simp [hpc]) rfl rfl rfl (by simp [hpc, CallPc.past])

/-- What a step leaves of the record of a call, and when it enters its time. -/
theorem calls_step (h : Owner s) (ht : step s a = some t) (hi : (s.calls i).pc ≠ .unborn) :
    (t.calls i).since = (s.calls i).since ∧ (t.calls i).began = (s.calls i).began ∧
    (t.calls i).kind = (s.calls i).kind ∧ (t.calls i).pc ≠ .unborn ∧ s.clock ≤ t.clock ∧
    ((t.calls i).pc = .returned → (s.calls i).pc = .returned ∧
      (t.calls i).ended = (s.calls i).ended ∨ (t.calls i).ended = s.clock) := by
  cases a with
  | register =>
    simp only [step, register] at ht
    split at ht <;> cases ht
    exact ⟨rfl, rfl, rfl, hi, Nat.le_refl _, fun hr => .inl ⟨hr, rfl⟩⟩
  | registerStep =>
    have hcalls : t.calls = s.calls ∧ t.clock = s.clock := by
      simp only [step, registerStep, State.registerReturns] at ht
      split at ht
      all_goals
        (repeat' split at ht) <;> cases ht
      all_goals exact ⟨rfl, rfl⟩
    rw [hcalls.1, hcalls.2]
    exact ⟨rfl, rfl, rfl, hi, Nat.le_refl _, fun hr => .inl ⟨hr, rfl⟩⟩
  | wake l | take l =>
    simp only [step, wake, take, call] at ht
    split at ht <;> cases ht
    rename_i hpc
    have hil : i ≠ l := by
      rintro rfl
      exact hi hpc
    refine ⟨?_, ?_, ?_, ?_, Nat.le_succ _, ?_⟩
    all_goals
      dsimp only [State.setCall]
      rw [Function.update_of_ne hil]
    · exact hi
    · exact fun hr => .inl ⟨hr, rfl⟩
  | callStep l =>
    have hadv := advances_callStep h ht
    rcases eq_or_ne i l with rfl | hne
    · refine ⟨hadv.since, hadv.began, hadv.kind, fun hpc => ?_, hadv.clock,
        fun hr => .inr (hadv.ended hr)⟩
      have hpast := hadv.past
      rw [hpc] at hpast
      cases hpast
    · rw [hadv.others i hne]
      exact ⟨rfl, rfl, rfl, hi, hadv.clock, fun hr => .inl ⟨hr, rfl⟩⟩

/-- The first access of a call: it gets the cell, or somebody has it. -/
theorem past_step (h : Owner s) (ht : step s a = some t) (hi : (s.calls i).pc.past = false)
    (hi' : (t.calls i).pc.past = true) :
    (s.calls i).pc ≠ .unborn ∧
      (s.word ≠ WAITING ∨ t.cell = s.cell ∧ (t.calls i).pc = .take) := by
  cases a with
  | register =>
    simp only [step, register] at ht
    split at ht <;> cases ht
    exact absurd hi' (by simp [hi])
  | registerStep =>
    have hcalls : t.calls = s.calls := by
      simp only [step, registerStep, State.registerReturns] at ht
      split at ht
      all_goals
        (repeat' split at ht) <;> cases ht
      all_goals rfl
    rw [hcalls] at hi'
    exact absurd hi' (by simp [hi])
  | wake l | take l =>
    simp only [step, wake, take, call] at ht
    split at ht <;> cases ht
    dsimp only [State.setCall] at hi'
    rcases eq_or_ne i l with rfl | hne
    · simp [CallPc.past] at hi'
    · rw [Function.update_of_ne hne] at hi'
      exact absurd hi' (by simp [hi])
  | callStep l =>
    have hadv := advances_callStep h ht
    rcases eq_or_ne i l with rfl | hne
    · exact ⟨hadv.born, hadv.first hi⟩
    · rw [hadv.others i hne] at hi'
      exact absurd hi' (by simp [hi])

/-- The parts of `Located` that speak of one call. -/
theorem records_step (h : Owner s) (hl : Located s) (ht : step s a = some t) :
    (t.calls i).since ≤ t.registered ∧
    ((t.calls i).pc ≠ .unborn → (t.calls i).began < t.clock) ∧
    (∀ w, (t.calls i).kind = .take → (t.calls i).pc = .clear (some w) → w ∈ t.removed) := by
  have hsince := hl.since i
  have hbegan := hl.began i
  have hgiven := hl.given i
  cases a with
  | register =>
    simp only [step, register] at ht
    split at ht <;> cases ht
    exact ⟨hsince, hbegan, hgiven⟩
  | registerStep =>
    simp only [step, registerStep, State.registerReturns] at ht
    split at ht
    all_goals
      (repeat' split at ht) <;> cases ht
    all_goals exact ⟨by dsimp only; omega, hbegan, hgiven⟩
  | wake l | take l =>
    simp only [step, wake, take, call] at ht
    split at ht <;> cases ht
    rcases eq_or_ne i l with rfl | hne
    · simp [State.setCall]
    · dsimp only [State.setCall]
      rw [Function.update_of_ne hne]
      exact ⟨hsince, fun hpc => Nat.lt_succ_of_lt (hbegan hpc), hgiven⟩
  | callStep l =>
    have hadv := advances_callStep h ht
    rcases eq_or_ne i l with rfl | hne
    · rw [hadv.since, hadv.began, hadv.kind, hadv.registered]
      exact ⟨hsince, fun _ => Nat.lt_of_lt_of_le (hbegan hadv.born) hadv.clock, hadv.given⟩
    · rw [hadv.others i hne, hadv.registered]
      exact ⟨hsince, fun hpc => Nat.lt_of_lt_of_le (hbegan hpc) hadv.clock,
        fun w hk hw => hadv.removed (hgiven w hk hw)⟩

theorem holds_began (hl : Located s) (hj : Holds s j k) : (s.calls j).began < s.clock := by
  refine hl.began j fun hpc => ?_
  simp [Holds, hpc] at hj

theorem called_step (h : Owner s) (hl : Located s) (ht : step s a = some t)
    (hi : (t.calls i).pc.past = true) (hk : k < (t.calls i).since) :
    Settled t k ∨ ∃ j, Holds t j k ∧
      ((t.calls i).pc = .returned → (t.calls j).began < (t.calls i).ended) := by
  cases hp : (s.calls i).pc.past with
  | true =>
    have hborn : (s.calls i).pc ≠ .unborn := by
      intro hpc
      simp [hpc, CallPc.past] at hp
    obtain ⟨hsince, -, -, -, -, hended⟩ := calls_step h ht hborn
    rw [hsince] at hk
    obtain hset | ⟨j, hj, hover⟩ := hl.called i k hp hk
    · exact .inl (settled_step h ht hset)
    · obtain hset | ⟨hj', hbegan⟩ := holds_step h hl ht hj
      · exact .inl hset
      · refine .inr ⟨j, hj', fun hr => ?_⟩
        rw [hbegan]
        obtain ⟨hr', he⟩ | he := hended hr
        · rw [he]
          exact hover hr'
        · rw [he]
          exact holds_began hl hj
  | false =>
    obtain ⟨hborn, hcase⟩ := past_step h ht hp hi
    obtain ⟨hsince, -, -, -, -, hended⟩ := calls_step h ht hborn
    have hreg : k < s.registered := by
      rw [hsince] at hk
      exact Nat.lt_of_lt_of_le hk (hl.since i)
    -- whoever has the waker began before this call returns
    have hcarry : Settled s k ∨ (∃ j, Holds s j k) → Settled t k ∨ ∃ j, Holds t j k ∧
        ((t.calls i).pc = .returned → (t.calls j).began < (t.calls i).ended) := by
      rintro (hset | ⟨j, hj⟩)
      · exact .inl (settled_step h ht hset)
      · obtain hset | ⟨hj', hbegan⟩ := holds_step h hl ht hj
        · exact .inl hset
        · refine .inr ⟨j, hj', fun hr => ?_⟩
          rw [hbegan]
          obtain ⟨hr', -⟩ | he := hended hr
          · simp [hr', CallPc.past] at hp
          · rw [he]
            exact holds_began hl hj
    obtain hw | ⟨hcell, hpc⟩ := hcase
    · exact hcarry (settled_or_holds h hl hreg hw)
    · obtain hset | hc | hj := hl.registered k hreg
      · exact hcarry (.inl hset)
      · exact .inr ⟨i, .inl ⟨hpc, hcell.trans hc⟩, fun hr => by simp [hpc] at hr⟩
      · exact hcarry (.inr hj)

theorem located_step (h : Owner s) (hl : Located s) (ht : step s a = some t) : Located t := by
  refine ⟨?_, fun i k => called_step h hl ht, fun i => (records_step h hl ht).1,
    fun i => (records_step h hl ht).2.1, fun i => (records_step h hl ht).2.2⟩
  have hold : ∀ k < s.registered, Settled t k ∨ t.cell = some k ∨ ∃ j, Holds t j k := by
    intro k hk
    obtain hset | hc | ⟨j, hj⟩ := hl.registered k hk
    · exact .inl (settled_step h ht hset)
    · exact cell_step h ht hk hc
    · obtain hset | ⟨hj', -⟩ := holds_step h hl ht hj
      · exact .inl hset
      · exact .inr (.inr ⟨j, hj'⟩)
  intro k hk
  obtain heq | ⟨heq, hnew⟩ := registered_step h ht
  · exact hold k (heq ▸ hk)
  · obtain hlt | rfl := Nat.lt_succ_iff_lt_or_eq.mp (heq ▸ hk)
    · exact hold k hlt
    · obtain hwoken | hc := hnew
      · exact .inl (.inl hwoken)
      · exact .inr (.inl hc)

theorem inv_of_reachable (hs : system.Reachable s) : Owner s ∧ Located s :=
  hs.invariant (I := fun s => Owner s ∧ Located s) ⟨owner_new, located_new⟩
    fun _ _ _ h ht => ⟨owner_step h.1 ht, located_step h.1 h.2 ht⟩

/-! ## Wakes -/

/-- The cell is accessed by at most one thread at a time. -/
theorem accesses_exclusive (h : Owner s) :
    (∀ i j, (s.calls i).pc.accesses = true → (s.calls j).pc.accesses = true → i = j) ∧
    (s.pc.accesses = true → ∀ i, (s.calls i).pc.accesses = false) := by
  have howns : ∀ i, (s.calls i).pc.accesses = true → (s.calls i).pc.owns = true := by
    intro i hi
    cases hpc : (s.calls i).pc <;> simp [hpc, CallPc.accesses] at hi
    rfl
  refine ⟨fun i j hi hj => h.unique i j (howns i hi) (howns j hj), fun hpc i => ?_⟩
  have hreg : s.pc.owns = true := by
    cases hp : s.pc <;> simp [hp, RegisterPc.accesses] at hpc <;> rfl
  cases hi : (s.calls i).pc.accesses with
  | false => rfl
  | true =>
    have hw := h.calls i (howns i hi)
    obtain hw' | hw' := h.registering.1 hreg <;> exact absurd (hw.symm.trans hw') (by decide)

/-- Two calls of `wake` after a call of `register`: the second returns while the first has
the waker in hand. -/
def handover : List Act :=
  [.register, .registerStep, .registerStep, .registerStep, .wake 0, .callStep 0, .callStep 0,
    .wake 1, .callStep 1]

/-- A call of `wake` that starts after `register` can return before the waker is woken. -/
theorem wake_returns_early :
    ∃ s, system.Reachable s ∧ (s.calls 1).kind = .wake ∧ (s.calls 1).pc = .returned ∧
      0 < (s.calls 1).since ∧ 0 ∉ s.woken ∧ 0 ∉ s.removed ∧ 0 ∉ s.replaced := by
  obtain ⟨s, -, hs, h⟩ := system.exists_of_run
    (P := fun s => (s.calls 1).kind = .wake ∧ (s.calls 1).pc = .returned ∧
      0 < (s.calls 1).since ∧ 0 ∉ s.woken ∧ 0 ∉ s.removed ∧ 0 ∉ s.replaced)
    handover (by decide)
  exact ⟨s, hs, h⟩

/-- In every state reached the cell has at most one user and nobody has panicked. When a
call of `wake` has returned, every waker whose `register` had returned before it started
was woken, given away or replaced, or it is with a call that overlaps this one or with a
`register` about to replace it; and when all these have returned it is not. -/
theorem wake_loses_none (hs : system.Reachable s) :
    ((∀ i j, (s.calls i).pc.accesses = true → (s.calls j).pc.accesses = true → i = j) ∧
      (s.pc.accesses = true → ∀ i, (s.calls i).pc.accesses = false)) ∧
    (s.pc ≠ .panicked ∧ ∀ i, (s.calls i).pc ≠ .panicked) ∧
    (∀ i k, (s.calls i).kind = .wake → (s.calls i).pc = .returned → k < (s.calls i).since →
      k ∈ s.woken ∨ k ∈ s.removed ∨ k ∈ s.replaced ∨ (s.pc = .write ∧ s.cell = some k) ∨
        ∃ j, Holds s j k ∧ (s.calls j).began < (s.calls i).ended) ∧
    (∀ i k, (s.calls i).kind = .wake → (s.calls i).pc = .returned → k < (s.calls i).since →
      s.pc ≠ .write →
      (∀ j, (s.calls j).pc ≠ .unborn → (s.calls j).began < (s.calls i).ended →
        (s.calls j).pc = .returned) →
      k ∈ s.woken ∨ k ∈ s.removed ∨ k ∈ s.replaced) := by
  obtain ⟨howner, hlocated⟩ := inv_of_reachable hs
  have hcalled : ∀ i k, (s.calls i).pc = .returned → k < (s.calls i).since →
      Settled s k ∨ ∃ j, Holds s j k ∧ (s.calls j).began < (s.calls i).ended := by
    intro i k hr hk
    obtain hset | ⟨j, hj, hover⟩ := hlocated.called i k (by simp [hr, CallPc.past]) hk
    · exact .inl hset
    · exact .inr ⟨j, hj, hover hr⟩
  refine ⟨accesses_exclusive howner, ⟨howner.noPanic, howner.noPanicCall⟩, ?_, ?_⟩
  · intro i k _ hr hk
    obtain (h | h | h | h) | h := hcalled i k hr hk
    · exact .inl h
    · exact .inr (.inl h)
    · exact .inr (.inr (.inl h))
    · exact .inr (.inr (.inr (.inl h)))
    · exact .inr (.inr (.inr (.inr h)))
  · intro i k _ hr hk hwrite hdone
    obtain (h | h | h | ⟨h, -⟩) | ⟨j, hj, hover⟩ := hcalled i k hr hk
    · exact .inl h
    · exact .inr (.inl h)
    · exact .inr (.inr h)
    · exact absurd h hwrite
    · have hborn : (s.calls j).pc ≠ .unborn := by
        intro hpc
        simp [Holds, hpc] at hj
      simp [Holds, hdone j hborn hover] at hj

/-- The same run with the first call at its end. -/
theorem wake_loses_none_handover :
    ∃ s, system.Reachable s ∧ (s.calls 1).pc = .returned ∧
      (0 ∈ s.woken ∨ 0 ∈ s.removed ∨ 0 ∈ s.replaced ∨ (s.pc = .write ∧ s.cell = some 0) ∨
        ∃ j, Holds s j 0 ∧ (s.calls j).began < (s.calls 1).ended) := by
  obtain ⟨s, -, hs, hk, hr, hsince⟩ := system.exists_of_run
    (P := fun s => (s.calls 1).kind = .wake ∧ (s.calls 1).pc = .returned ∧ 0 < (s.calls 1).since)
    (handover ++ [.callStep 0, .callStep 0]) (by decide)
  exact ⟨s, hs, hr, (wake_loses_none hs).2.2.1 1 0 hk hr hsince⟩

end Cynthia.AtomicWaker
