import Cynthia.Task.Moves

/-! The slot of the awaiter in a task header, `runtime/task/header.rs`, on its own. One
thread registers at a time, any number of calls of `take` and `notify` are under way, and
every other operation on the task changes the rest of the state word as it likes. -/

namespace Cynthia.Task.Header

open Transition

/-- A waker in the cell, with the number of the call of `register` it was passed to. -/
structure Entry where
  waker : Waker
  call : Nat
  deriving DecidableEq, Repr

/-- Points of `register`. The word is the local `state`, `got` is the local `waker` of the
second loop. -/
inductive RegisterPc where
  | idle | load
  | loop (state : Word)
  | write (state : Word)
  | check (state : Word) (got : Option Entry)
  | swap (state : Word) (got : Option Entry)
  | wake (w : Entry)
  | returning
  | panicked
  deriving DecidableEq, Repr

inductive Kind where
  | take | notify
  deriving DecidableEq, Repr

/-- Points of `take`, and of `notify` after it. -/
inductive CallPc where
  | unborn | fetchOr | takeCell
  | fetchAnd (waker : Option Entry)
  | wake (w : Entry)
  | returned (result : Option Entry)
  deriving DecidableEq, Repr

structure Call where
  kind : Kind
  current : Option Waker
  pc : CallPc
  /-- What it found in the cell. -/
  took : Option Entry
  deriving DecidableEq, Repr

/-- The call of `register` in progress has the number `registered` and the waker `passed`.
The last two fields are history: the wakers woken by `register` and by `notify`. -/
structure State where
  word : Word
  awaiter : Option Entry
  pc : RegisterPc
  passed : Waker
  registered : Nat
  calls : Nat → Call
  woken : List Entry
  notified : List Entry

def new : State where
  word := .spawned
  awaiter := none
  pc := .idle
  passed := 0
  registered := 0
  calls _ := ⟨.take, none, .unborn, none⟩
  woken := []
  notified := []

/-- The waker of the call of `register` in progress. -/
def State.own (s : State) : Entry := ⟨s.passed, s.registered⟩

def register (s : State) (waker : Waker) : Option State :=
  if s.pc = .idle then some { s with pc := .load, passed := waker } else none

/-- `compare_exchange_weak` on the state word, which may fail for no reason. -/
def State.compareExchangeWeak (s : State) (spurious : Bool) (state new : Word) (ok : RegisterPc)
    (err : Word → RegisterPc) : State :=
  if spurious = false ∧ s.word = state then { s with word := new, pc := ok }
  else { s with pc := err s.word }

/-- One step of `register`. -/
def registerStep (s : State) (spurious : Bool) : Option State :=
  match s.pc with
  | .load => some { s with pc := .loop s.word }
  | .loop state =>
    some <| if state.registering then { s with pc := .panicked }
      else if state.notifying then { s with woken := s.own :: s.woken, pc := .returning }
      else
        s.compareExchangeWeak spurious state { state with registering := true }
          (.write { state with registering := true }) .loop
  | .write state => some { s with awaiter := some s.own, pc := .check state none }
  | .check state got =>
    some <| if state.notifying then
        { s with awaiter := none, pc := .swap state (s.awaiter.or got) }
      else { s with pc := .swap state got }
  | .swap state none =>
    some <| s.compareExchangeWeak spurious state
      { state with notifying := false, registering := false, awaiter := true }
      .returning (.check · none)
  | .swap state (some w) =>
    some <| s.compareExchangeWeak spurious state
      { state with notifying := false, registering := false, awaiter := false }
      (.wake w) (.check · (some w))
  | .wake w => some { s with woken := w :: s.woken, pc := .returning }
  | .returning => some { s with pc := .idle, registered := s.registered + 1 }
  | .idle | .panicked => none

def State.setCall (s : State) (i : Nat) (c : Call) : State :=
  { s with calls := Function.update s.calls i c }

def State.moveCall (s : State) (i : Nat) (pc : CallPc) : State :=
  s.setCall i { s.calls i with pc }

def call (s : State) (i : Nat) (kind : Kind) (current : Option Waker) : Option State :=
  if (s.calls i).pc = .unborn then some (s.setCall i ⟨kind, current, .fetchOr, none⟩) else none

def take (s : State) (i : Nat) (current : Option Waker) : Option State := call s i .take current

def notify (s : State) (i : Nat) (current : Option Waker) : Option State :=
  call s i .notify current

/-- What `take` returns of the waker it took: one that would wake the caller is dropped. -/
def keep (current : Option Waker) (waker : Option Entry) : Option Entry :=
  match waker, current with
  | some w, none => some w
  | some w, some c => if w.waker = c then none else some w
  | none, _ => none

/-- One step of `take` or `notify`. -/
def callStep (s : State) (i : Nat) : Option State :=
  match (s.calls i).pc with
  | .fetchOr =>
    let t := { s with word := { s.word with notifying := true } }
    some <| if s.word.notifying = false ∧ s.word.registering = false then t.moveCall i .takeCell
      else t.moveCall i (.returned none)
  | .takeCell =>
    some <| { s with awaiter := none }.setCall i
      { s.calls i with pc := .fetchAnd s.awaiter, took := s.awaiter }
  | .fetchAnd waker =>
    let t := { s with word := { s.word with notifying := false, awaiter := false } }
    some <| match (s.calls i).kind, keep (s.calls i).current waker with
      | .notify, some w => t.moveCall i (.wake w)
      | _, result => t.moveCall i (.returned result)
  | .wake w => some <| { s with notified := w :: s.notified }.moveCall i (.returned none)
  | .unborn | .returned _ => none

/-- Any change of the state word outside of the three bits of the slot. -/
def other (s : State) (w : Word) : State :=
  { s with word :=
      { w with
        awaiter := s.word.awaiter
        registering := s.word.registering
        notifying := s.word.notifying } }

inductive Act where
  | other (w : Word)
  | register (waker : Waker)
  | registerStep (spurious : Bool)
  | take (i : Nat) (current : Option Waker)
  | notify (i : Nat) (current : Option Waker)
  | callStep (i : Nat)
  deriving DecidableEq, Repr

def step (s : State) : Act → Option State
  | .other w => some (other s w)
  | .register waker => register s waker
  | .registerStep spurious => registerStep s spurious
  | .take i current => take s i current
  | .notify i current => notify s i current
  | .callStep i => callStep s i

def system : System State Act := ⟨new, step⟩

/-! ## The cell -/

/-- The next step reads or writes the cell. -/
def RegisterPc.accesses : RegisterPc → Bool
  | .write _ => true
  | .check state _ => state.notifying
  | _ => false

def CallPc.accesses : CallPc → Bool
  | .takeCell => true
  | _ => false

/-- `register` has set `REGISTERING` and not cleared it. -/
def RegisterPc.owns : RegisterPc → Bool
  | .write _ | .check _ _ | .swap _ _ => true
  | _ => false

/-- This call has set `NOTIFYING` where neither bit was set, and not cleared it. -/
def CallPc.owns : CallPc → Bool
  | .takeCell | .fetchAnd _ => true
  | _ => false

/-- Who owns the cell, and what is in it. -/
structure Owner (s : State) : Prop where
  registering : s.pc.owns = true ↔ s.word.registering = true
  calls : ∀ i, (s.calls i).pc.owns = true →
    s.word.notifying = true ∧ s.word.registering = false
  unique : ∀ i j, (s.calls i).pc.owns = true → (s.calls j).pc.owns = true → i = j
  notifying : s.word.notifying = true → s.word.registering = false →
    ∃ i, (s.calls i).pc.owns = true
  free : s.word.registering = false → s.word.notifying = false →
    s.word.awaiter = s.awaiter.isSome
  taking : ∀ i, (s.calls i).pc = .takeCell → s.word.awaiter = s.awaiter.isSome
  cleared : ∀ i w, (s.calls i).pc = .fetchAnd w → s.awaiter = none
  loaded : ∀ state, s.pc = .loop state → state.registering = false
  written : ∀ state, s.pc = .check state none ∨ s.pc = .swap state none →
    s.awaiter = some s.own
  emptied : ∀ state w, s.pc = .check state (some w) ∨ s.pc = .swap state (some w) →
    s.awaiter = none ∧ w = s.own
  inHand : ∀ w, s.pc = .wake w → w = s.own
  noPanic : s.pc ≠ .panicked

variable {s t : State} {i : Nat}

theorem owner_new : Owner new := by
  constructor <;> simp [new, Word.spawned, RegisterPc.owns, CallPc.owns]

theorem owner_other (h : Owner s) (w : Word) : Owner (other s w) :=
  ⟨h.registering, h.calls, h.unique, h.notifying, h.free, h.taking, h.cleared, h.loaded,
    h.written, h.emptied, h.inHand, h.noPanic⟩

theorem owner_register {waker : Waker} (h : Owner s) (ht : register s waker = some t) :
    Owner t := by
  unfold register at ht
  split at ht <;> cases ht
  rename_i hpc
  have hregistering := h.registering
  rw [hpc] at hregistering
  constructor
  case registering => exact hregistering
  case calls => exact h.calls
  case unique => exact h.unique
  case notifying => exact h.notifying
  case free => exact h.free
  case taking => exact h.taking
  case cleared => exact h.cleared
  all_goals simp

/-- What `register` does at each of its points. -/
inductive RegisterMoves (s : State) : State → Prop
  | load (hpc : s.pc = .load) : RegisterMoves s { s with pc := .loop s.word }
  | panic (state : Word) (hr : state.registering = true) (hpc : s.pc = .loop state) :
    RegisterMoves s { s with pc := .panicked }
  | wakeOwn (state : Word) (hn : state.notifying = true) (hpc : s.pc = .loop state) :
    RegisterMoves s { s with woken := s.own :: s.woken, pc := .returning }
  | reload (state : Word) (hpc : s.pc = .loop state) :
    RegisterMoves s { s with pc := .loop s.word }
  | lock (hr : s.word.registering = false) (hn : s.word.notifying = false)
      (hpc : s.pc = .loop s.word) :
    RegisterMoves s { s with
      word := { s.word with registering := true }
      pc := .write { s.word with registering := true } }
  | write (state : Word) (hpc : s.pc = .write state) :
    RegisterMoves s { s with awaiter := some s.own, pc := .check state none }
  | takeBack (state : Word) (got : Option Entry) (hn : state.notifying = true)
      (hpc : s.pc = .check state got) :
    RegisterMoves s { s with awaiter := none, pc := .swap state (s.awaiter.or got) }
  | leave (state : Word) (got : Option Entry) (hpc : s.pc = .check state got) :
    RegisterMoves s { s with pc := .swap state got }
  | recheck (state : Word) (got : Option Entry) (hpc : s.pc = .swap state got) :
    RegisterMoves s { s with pc := .check s.word got }
  | store (hpc : s.pc = .swap s.word none) :
    RegisterMoves s { s with
      word := { s.word with notifying := false, registering := false, awaiter := true }
      pc := .returning }
  | unlock (w : Entry) (hpc : s.pc = .swap s.word (some w)) :
    RegisterMoves s { s with
      word := { s.word with notifying := false, registering := false, awaiter := false }
      pc := .wake w }
  | wake (w : Entry) (hpc : s.pc = .wake w) :
    RegisterMoves s { s with woken := w :: s.woken, pc := .returning }
  | ret (hpc : s.pc = .returning) :
    RegisterMoves s { s with pc := .idle, registered := s.registered + 1 }

theorem registerStep_moves {spurious : Bool} (ht : registerStep s spurious = some t) :
    RegisterMoves s t := by
  unfold registerStep at ht
  split at ht
  case h_1 hpc =>
    cases ht
    exact .load hpc
  case h_2 state hpc =>
    split at ht
    case isTrue hr =>
      cases ht
      exact .panic state hr hpc
    split at ht
    case isTrue hn =>
      cases ht
      exact .wakeOwn state hn hpc
    unfold State.compareExchangeWeak at ht
    split at ht <;> cases ht
    · rename_i hr hn h
      obtain ⟨-, rfl⟩ := h
      exact .lock (by simpa using hr) (by simpa using hn) hpc
    · exact .reload state hpc
  case h_3 state hpc =>
    cases ht
    exact .write state hpc
  case h_4 state got hpc =>
    split at ht <;> cases ht
    · rename_i hn
      exact .takeBack state got hn hpc
    · exact .leave state got hpc
  case h_5 state hpc =>
    unfold State.compareExchangeWeak at ht
    split at ht <;> cases ht
    · rename_i h
      obtain ⟨-, rfl⟩ := h
      exact .store hpc
    · exact .recheck state none hpc
  case h_6 state w hpc =>
    unfold State.compareExchangeWeak at ht
    split at ht <;> cases ht
    · rename_i h
      obtain ⟨-, rfl⟩ := h
      exact .unlock w hpc
    · exact .recheck state (some w) hpc
  case h_7 w hpc =>
    cases ht
    exact .wake w hpc
  case h_8 hpc =>
    cases ht
    exact .ret hpc
  all_goals cases ht

/-- In the second loop the waker is in the cell or in hand. -/
theorem or_own (h : Owner s) (state : Word) (got : Option Entry) (hpc : s.pc = .check state got) :
    s.awaiter.or got = some s.own := by
  cases got with
  | none =>
    rw [h.written state (.inl hpc)]
    rfl
  | some w =>
    obtain ⟨hc, rfl⟩ := h.emptied state w (.inl hpc)
    rw [hc]
    rfl

/-- A step of `register` that leaves the word, the cell and the other calls alone. -/
theorem Owner.moveOn (h : Owner s) (hcalls : t.calls = s.calls) (hword : t.word = s.word)
    (hcell : t.awaiter = s.awaiter) (howns : t.pc.owns = s.pc.owns)
    (hloaded : ∀ state, t.pc = .loop state → state.registering = false)
    (hwritten : ∀ state, t.pc = .check state none ∨ t.pc = .swap state none →
      t.awaiter = some t.own)
    (hemptied : ∀ state w, t.pc = .check state (some w) ∨ t.pc = .swap state (some w) →
      t.awaiter = none ∧ w = t.own)
    (hinHand : ∀ w, t.pc = .wake w → w = t.own) (hnot : t.pc ≠ .panicked) : Owner t := by
  constructor
  case registering =>
    rw [howns, hword]
    exact h.registering
  case calls =>
    rw [hcalls, hword]
    exact h.calls
  case unique =>
    rw [hcalls]
    exact h.unique
  case notifying =>
    rw [hcalls, hword]
    exact h.notifying
  case free =>
    rw [hcell, hword]
    exact h.free
  case taking =>
    rw [hcalls, hcell, hword]
    exact h.taking
  case cleared =>
    rw [hcalls, hcell]
    exact h.cleared
  case loaded => exact hloaded
  case written => exact hwritten
  case emptied => exact hemptied
  case inHand => exact hinHand
  case noPanic => exact hnot

theorem Owner.no_calls (h : Owner s)
    (hword : s.word.notifying = false ∨ s.word.registering = true) :
    ∀ i, (s.calls i).pc.owns = false := by
  intro i
  refine Bool.eq_false_iff.mpr fun hi => ?_
  obtain ⟨hn, hr⟩ := h.calls i hi
  rcases hword with hclear | hset
  · exact Bool.false_ne_true (hclear.symm.trans hn)
  · exact Bool.false_ne_true (hr.symm.trans hset)

theorem Owner.locked (h : Owner s) (howns : s.pc.owns = true) :
    ∀ i, (s.calls i).pc.owns = false :=
  h.no_calls (.inr (h.registering.mp howns))

/-- A step of `register` while no call of `take` or `notify` has the cell. -/
theorem Owner.alone (hnone : ∀ i, (s.calls i).pc.owns = false) (hcalls : t.calls = s.calls)
    (hregistering : t.pc.owns = true ↔ t.word.registering = true)
    (hnotifying : t.word.registering = false → t.word.notifying = false)
    (hfree : t.word.registering = false → t.word.awaiter = t.awaiter.isSome)
    (hloaded : ∀ state, t.pc = .loop state → state.registering = false)
    (hwritten : ∀ state, t.pc = .check state none ∨ t.pc = .swap state none →
      t.awaiter = some t.own)
    (hemptied : ∀ state w, t.pc = .check state (some w) ∨ t.pc = .swap state (some w) →
      t.awaiter = none ∧ w = t.own)
    (hinHand : ∀ w, t.pc = .wake w → w = t.own) (hnot : t.pc ≠ .panicked) : Owner t := by
  have hnobody (i : Nat) : ¬(t.calls i).pc.owns = true := by
    rw [hcalls, hnone i]
    exact Bool.false_ne_true
  constructor
  case registering => exact hregistering
  case calls => exact fun i hi => absurd hi (hnobody i)
  case unique => exact fun i j hi => absurd hi (hnobody i)
  case notifying => exact fun hn hr => absurd ((hnotifying hr).symm.trans hn) Bool.false_ne_true
  case free => exact fun hr _ => hfree hr
  case taking => exact fun i hpc => absurd (by rw [hpc]; rfl) (hnobody i)
  case cleared => exact fun i w hpc => absurd (by rw [hpc]; rfl) (hnobody i)
  case loaded => exact hloaded
  case written => exact hwritten
  case emptied => exact hemptied
  case inHand => exact hinHand
  case noPanic => exact hnot

theorem owner_registerStep {spurious : Bool} (h : Owner s)
    (ht : registerStep s spurious = some t) : Owner t := by
  have hregistering := h.registering
  cases registerStep_moves ht
  -- `REGISTERING` was clear in the snapshot that `debug_assert!` looks at
  case panic state hr hpc => exact absurd (h.loaded state hpc) (by simp [hr])
  case load hpc =>
    rw [hpc] at hregistering
    refine h.moveOn rfl rfl rfl (by rw [hpc]; rfl) ?_ (by simp) (by simp) (by simp) (by simp)
    rintro _ ⟨⟩
    exact Bool.eq_false_iff.mpr fun hw => nomatch hregistering.2 hw
  case reload state hpc =>
    rw [hpc] at hregistering
    refine h.moveOn rfl rfl rfl (by rw [hpc]; rfl) ?_ (by simp) (by simp) (by simp) (by simp)
    rintro _ ⟨⟩
    exact Bool.eq_false_iff.mpr fun hw => nomatch hregistering.2 hw
  case wakeOwn state hn hpc =>
    exact h.moveOn rfl rfl rfl (by rw [hpc]; rfl) (by simp) (by simp) (by simp) (by simp) (by simp)
  case wake w hpc =>
    exact h.moveOn rfl rfl rfl (by rw [hpc]; rfl) (by simp) (by simp) (by simp) (by simp) (by simp)
  case ret hpc =>
    exact h.moveOn rfl rfl rfl (by rw [hpc]; rfl) (by simp) (by simp) (by simp) (by simp) (by simp)
  case leave state got hpc =>
    refine h.moveOn rfl rfl rfl (by rw [hpc]; rfl) (by simp) ?_ ?_ (by simp) (by simp)
    · rintro _ (h' | h') <;> cases h'
      exact h.written _ (.inl hpc)
    · rintro _ w (h' | h') <;> cases h'
      exact h.emptied _ w (.inl hpc)
  case recheck state got hpc =>
    refine h.moveOn rfl rfl rfl (by rw [hpc]; rfl) (by simp) ?_ ?_ (by simp) (by simp)
    · rintro _ (h' | h') <;> cases h'
      exact h.written _ (.inr hpc)
    · rintro _ w (h' | h') <;> cases h'
      exact h.emptied _ w (.inr hpc)
  case lock hr hn hpc =>
    exact Owner.alone (h.no_calls (.inl hn)) rfl (iff_of_true rfl rfl) (by simp) (by simp) (by simp)
      (by simp) (by simp) (by simp) (by simp)
  case write state hpc =>
    have howns : s.pc.owns = true := by rw [hpc]; rfl
    have hset := h.registering.mp howns
    exact Owner.alone (h.locked howns) rfl (iff_of_true rfl hset) (by simp [hset]) (by simp [hset])
      (by simp) (fun _ _ => rfl) (by simp) (by simp) (by simp)
  case takeBack state got hn hpc =>
    have howns : s.pc.owns = true := by rw [hpc]; rfl
    have hset := h.registering.mp howns
    have hor := or_own h state got hpc
    refine Owner.alone (h.locked howns) rfl (iff_of_true rfl hset) (by simp [hset]) (by simp [hset])
      (by simp) ?_ ?_ (by simp) (by simp)
    · rintro _ (h' | h') <;> simp [hor] at h'
    · rintro _ w (h' | h')
      · cases h'
      · rw [hor] at h'
        cases h'
        exact ⟨rfl, rfl⟩
  case store hpc =>
    have howns : s.pc.owns = true := by rw [hpc]; rfl
    have hcell := h.written s.word (.inr hpc)
    exact Owner.alone (h.locked howns) rfl (by simp [RegisterPc.owns]) (fun _ => rfl)
      (fun _ => by rw [hcell]; rfl) (by simp) (by simp) (by simp) (by simp) (by simp)
  case unlock w hpc =>
    have howns : s.pc.owns = true := by rw [hpc]; rfl
    obtain ⟨hcell, hown⟩ := h.emptied s.word w (.inr hpc)
    refine Owner.alone (h.locked howns) rfl (by simp [RegisterPc.owns]) (fun _ => rfl)
      (fun _ => by rw [hcell]; rfl) (by simp) (by simp) (by simp) ?_ (by simp)
    rintro _ ⟨⟩
    exact hown

/-- What `take` or `notify` does at each of its points. -/
inductive CallMoves (s : State) (i : Nat) : State → Prop
  | enter (hpc : (s.calls i).pc = .fetchOr) (hn : s.word.notifying = false)
      (hr : s.word.registering = false) :
    CallMoves s i ({ s with word := { s.word with notifying := true } }.moveCall i .takeCell)
  | leave (hpc : (s.calls i).pc = .fetchOr)
      (hor : s.word.notifying = true ∨ s.word.registering = true) :
    CallMoves s i ({ s with word := { s.word with notifying := true } }.moveCall i (.returned none))
  | takeCell (hpc : (s.calls i).pc = .takeCell) :
    CallMoves s i ({ s with awaiter := none }.setCall i
      { s.calls i with pc := .fetchAnd s.awaiter, took := s.awaiter })
  | fetchAnd (waker : Option Entry) (pc : CallPc) (hpc : (s.calls i).pc = .fetchAnd waker)
      (hpc' : (∃ w, pc = .wake w ∧ (s.calls i).kind = .notify ∧
          keep (s.calls i).current waker = some w) ∨
        pc = .returned (keep (s.calls i).current waker) ∧
          ((s.calls i).kind = .take ∨ keep (s.calls i).current waker = none)) :
    CallMoves s i
      ({ s with word := { s.word with notifying := false, awaiter := false } }.moveCall i pc)
  | wake (w : Entry) (hpc : (s.calls i).pc = .wake w) :
    CallMoves s i ({ s with notified := w :: s.notified }.moveCall i (.returned none))

theorem callStep_moves (ht : callStep s i = some t) : CallMoves s i t := by
  unfold callStep at ht
  dsimp only at ht
  split at ht
  case h_1 hpc =>
    split at ht <;> cases ht
    · rename_i h
      exact .enter hpc h.1 h.2
    · rename_i h
      refine .leave hpc ?_
      obtain hn | hr := Decidable.not_and_iff_or_not.mp h
      · exact .inl (by simpa using hn)
      · exact .inr (by simpa using hr)
  case h_2 hpc =>
    cases ht
    exact .takeCell hpc
  case h_3 waker hpc =>
    split at ht <;> cases ht
    · rename_i w hk hw
      exact .fetchAnd waker _ hpc (.inl ⟨w, rfl, hk, hw⟩)
    · rename_i h
      refine .fetchAnd waker _ hpc (.inr ⟨rfl, ?_⟩)
      cases hk : (s.calls i).kind with
      | take => exact .inl rfl
      | notify =>
        cases hw : keep (s.calls i).current waker with
        | none => exact .inr rfl
        | some w => exact absurd hw (h w hk)
  case h_4 w hpc =>
    cases ht
    exact .wake w hpc
  all_goals cases ht

/-- A call that does not own the cell has nothing to do with the one that does. -/
theorem owns_update {calls : Nat → Call} {c : Call} {j : Nat} (hc : c.pc.owns = false)
    (hj : (Function.update calls i c j).pc.owns = true) : j ≠ i ∧ (calls j).pc.owns = true := by
  by_cases he : j = i
  · rw [he, Function.update_self, hc] at hj
    cases hj
  · rw [Function.update_of_ne he] at hj
    exact ⟨he, hj⟩

/-- A step of a call that does not own the cell afterwards. -/
theorem Owner.leaves {c : Call} {word : Word} {notified : List Entry} (h : Owner s)
    (hc : c.pc.owns = false) (hregistering : word.registering = s.word.registering)
    (hnotifying : word.notifying = true → word.registering = false →
      ∃ j, (Function.update s.calls i c j).pc.owns = true)
    (hfree : word.registering = false → word.notifying = false →
      word.awaiter = s.awaiter.isSome)
    (hkept : ∀ j, j ≠ i → (s.calls j).pc.owns = true →
      word.notifying = true ∧ word.awaiter = s.word.awaiter) :
    Owner { s with word := word, notified := notified, calls := Function.update s.calls i c } := by
  have hothers {j : Nat} {pc : CallPc} (hpc : (Function.update s.calls i c j).pc = pc)
      (howns : pc.owns = true) : j ≠ i ∧ (s.calls j).pc = pc := by
    obtain ⟨hj, -⟩ := owns_update hc (hpc ▸ howns)
    rw [Function.update_of_ne hj] at hpc
    exact ⟨hj, hpc⟩
  exact
    { h with
      registering := by
        dsimp only
        rw [hregistering]
        exact h.registering
      calls := fun j hj => by
        obtain ⟨hne, howns⟩ := owns_update hc hj
        exact ⟨(hkept j hne howns).1, hregistering.trans (h.calls j howns).2⟩
      unique := fun j k hj hk => h.unique j k (owns_update hc hj).2 (owns_update hc hk).2
      notifying := hnotifying
      free := hfree
      taking := fun j hj => by
        obtain ⟨hne, hpc⟩ := hothers hj rfl
        exact (hkept j hne (by rw [hpc]; rfl)).2.trans (h.taking j hpc)
      cleared := fun j w hj => h.cleared j w (hothers hj rfl).2 }

theorem owner_call {kind : Kind} {current : Option Waker} (h : Owner s)
    (ht : call s i kind current = some t) : Owner t := by
  unfold call State.setCall at ht
  split at ht <;> cases ht
  rename_i hpc
  refine h.leaves rfl rfl (fun hn hr => ?_) h.free fun j _ hj => ⟨(h.calls j hj).1, rfl⟩
  exact exists_update (P := fun c : Call => c.pc.owns = true) (h.notifying hn hr)
    (by simp [hpc, CallPc.owns])

/-- `NOTIFYING` without `REGISTERING` always has an owner. -/
theorem notifying_callStep (h : Owner s) (ht : callStep s i = some t)
    (hn : t.word.notifying = true) (hr : t.word.registering = false) :
    ∃ j, (t.calls j).pc.owns = true := by
  have hkeep : ∀ c, s.word.notifying = true → s.word.registering = false →
      ((s.calls i).pc.owns = true → c.pc.owns = true) →
      ∃ j, (Function.update s.calls i c j).pc.owns = true :=
    fun c hn hr => exists_update (P := fun c : Call => c.pc.owns = true) (h.notifying hn hr)
  cases callStep_moves ht with
  | enter hpc hn0 hr0 => exact ⟨i, by simp [State.moveCall, State.setCall, CallPc.owns]⟩
  | leave hpc hor =>
    obtain hn' | hr' := hor
    · exact hkeep _ hn' hr (by simp [hpc, CallPc.owns])
    · exact absurd hr (by simp [State.moveCall, State.setCall, hr'])
  | takeCell hpc => exact hkeep _ hn hr (by simp [CallPc.owns])
  | fetchAnd waker pc hpc hpc' => exact absurd hn (by simp [State.moveCall, State.setCall])
  | wake w hpc => exact hkeep _ hn hr (by simp [hpc, CallPc.owns])

/-- A call finds neither bit set, and has the cell from now on. -/
theorem owner_enter (h : Owner s) (hn : s.word.notifying = false)
    (hr : s.word.registering = false) :
    Owner ({ s with word := { s.word with notifying := true } }.moveCall i .takeCell) := by
  have hnone := h.no_calls (.inl hn)
  have hself {j : Nat} (hj : (Function.update s.calls i { s.calls i with pc := .takeCell } j).pc.owns =
      true) : j = i := by
    by_contra hne
    rw [Function.update_of_ne hne, hnone j] at hj
    cases hj
  exact
    { h with
      calls := fun _ _ => ⟨rfl, hr⟩
      unique := fun j k hj hk => (hself hj).trans (hself hk).symm
      notifying := fun _ _ => ⟨i, by simp [State.moveCall, State.setCall, CallPc.owns]⟩
      free := fun _ hclear => absurd hclear.symm Bool.false_ne_true
      taking := fun _ _ => h.free hr hn
      cleared := fun j w hj => by
        obtain rfl := hself (by
          rw [show (Function.update s.calls i _ j).pc = _ from hj]
          rfl)
        simp [State.moveCall, State.setCall] at hj }

/-- The owner takes the waker out of the cell. -/
theorem owner_takeCell (h : Owner s) (hpc : (s.calls i).pc = .takeCell) :
    Owner ({ s with awaiter := none }.setCall i
      { s.calls i with pc := .fetchAnd s.awaiter, took := s.awaiter }) := by
  have hi : (s.calls i).pc.owns = true := by rw [hpc]; rfl
  obtain ⟨hn, hr⟩ := h.calls i hi
  have howns (j : Nat) (hj : (Function.update s.calls i
      { s.calls i with pc := .fetchAnd s.awaiter, took := s.awaiter } j).pc.owns = true) :
      (s.calls j).pc.owns = true := by
    by_cases he : j = i
    · rw [he]
      exact hi
    · rwa [Function.update_of_ne he] at hj
  -- `register` does not have the cell
  have hout : ¬s.pc.owns = true := fun hpc =>
    Bool.false_ne_true (hr.symm.trans (h.registering.mp hpc))
  exact
    { h with
      calls := fun _ _ => ⟨hn, hr⟩
      unique := fun j k hj hk => h.unique j k (howns j hj) (howns k hk)
      notifying := fun _ _ => ⟨i, by simp [State.setCall, CallPc.owns]⟩
      free := fun _ hclear => absurd (hclear.symm.trans hn) Bool.false_ne_true
      taking := fun j hj => by
        by_cases he : j = i
        · subst he
          simp [State.setCall] at hj
        · simp only [State.setCall, Function.update_of_ne he] at hj
          exact absurd (h.unique j i (by rw [hj]; rfl) hi) he
      cleared := fun _ _ _ => rfl
      written := fun state hst => by
        rcases hst with hst | hst
        · exact absurd (by rw [show s.pc = _ from hst]; rfl) hout
        · exact absurd (by rw [show s.pc = _ from hst]; rfl) hout
      emptied := fun state w hst => ⟨rfl, (h.emptied state w hst).2⟩ }

theorem owner_callStep (h : Owner s) (ht : callStep s i = some t) : Owner t := by
  have hnotifying' := notifying_callStep h ht
  cases callStep_moves ht with
  | enter hpc hn hr => exact owner_enter h hn hr
  | leave hpc hor =>
    exact h.leaves rfl rfl hnotifying' (fun _ hclear => absurd hclear.symm Bool.false_ne_true)
      fun j _ _ => ⟨rfl, rfl⟩
  | takeCell hpc => exact owner_takeCell h hpc
  | fetchAnd waker pc hpc hpc' =>
    have hout : pc.owns = false := by
      obtain ⟨w, rfl, -⟩ | ⟨rfl, -⟩ := hpc' <;> rfl
    refine h.leaves hout rfl hnotifying' (fun _ _ => ?_) fun j hne hj => ?_
    · rw [h.cleared i waker hpc]
      rfl
    · -- nobody else owns the cell
      exact absurd (h.unique j i hj (by rw [hpc]; rfl)) hne
  | wake w hpc =>
    exact h.leaves rfl rfl hnotifying' h.free fun j _ hj => ⟨(h.calls j hj).1, rfl⟩

variable {a : Act}

theorem owner_step (h : Owner s) (ht : step s a = some t) : Owner t := by
  cases a with
  | other w =>
    cases ht
    exact owner_other h w
  | register waker => exact owner_register h ht
  | registerStep spurious => exact owner_registerStep h ht
  | take i current | notify i current => exact owner_call h ht
  | callStep i => exact owner_callStep h ht

/-! ## The waker passed to `register` -/

/-- The waker of the call of `register` in progress is in the cell with `AWAITER` set, or was
woken by `register`, or was taken by a call of `take` or `notify` that has begun. -/
def Placed (s : State) : Prop :=
  (s.awaiter = some s.own ∧ s.word.awaiter = true) ∨ s.own ∈ s.woken ∨
    ∃ i, (s.calls i).pc ≠ .unborn ∧ (s.calls i).took = some s.own

/-- Where the wakers are: `register` returns with its own placed, and what a call took it
holds, or has returned, or has woken, or dropped because it is that of its caller. -/
structure Located (s : State) : Prop where
  returning : s.pc = .returning → Placed s
  taken : ∀ i e, (s.calls i).pc ≠ .unborn → (s.calls i).took = some e →
    (s.calls i).pc = .fetchAnd (some e) ∨ (s.calls i).pc = .wake e ∨
      (s.calls i).kind = .take ∧ (s.calls i).pc = .returned (some e) ∨
      e ∈ s.notified ∨ (s.calls i).current = some e.waker
  fresh : ∀ i, (s.calls i).pc = .fetchOr ∨ (s.calls i).pc = .takeCell → (s.calls i).took = none
  found : ∀ i w, (s.calls i).pc = .fetchAnd w → (s.calls i).took = w

theorem located_new : Located new := by
  constructor <;> simp [new]

theorem keep_some (current : Option Waker) (e : Entry) :
    keep current (some e) = some e ∨ keep current (some e) = none ∧ current = some e.waker := by
  cases current with
  | none => exact .inl rfl
  | some c =>
    by_cases he : e.waker = c
    · exact .inr ⟨if_pos he, congrArg some he.symm⟩
    · exact .inl (if_neg he)

theorem placed_registerStep {spurious : Bool} (h : Owner s)
    (ht : registerStep s spurious = some t) (hpc' : t.pc = .returning) : Placed t := by
  cases registerStep_moves ht
  case wakeOwn state hn hpc => exact .inr (.inl List.mem_cons_self)
  case store hpc => exact .inl ⟨h.written s.word (.inr hpc), rfl⟩
  case wake w hpc =>
    rw [h.inHand w hpc]
    exact .inr (.inl List.mem_cons_self)
  all_goals cases hpc'

/-- A call that empties the cell has taken what was in it. -/
theorem placed_callStep (h : Owner s) (hl : Located s) (ht : callStep s i = some t)
    (hp : Placed s) : Placed t := by
  have htook : ∀ c : Call, c.pc ≠ .unborn →
      ((s.calls i).took = some s.own → c.took = some s.own) →
      (∃ j, (s.calls j).pc ≠ .unborn ∧ (s.calls j).took = some s.own) →
      ∃ j, (Function.update s.calls i c j).pc ≠ .unborn ∧
        (Function.update s.calls i c j).took = some s.own :=
    fun c hc hi hj => exists_update (P := fun c : Call => c.pc ≠ .unborn ∧ c.took = some s.own) hj
      fun hi' => ⟨hc, hi hi'.2⟩
  cases callStep_moves ht with
  | enter hpc hn hr => exact hp.imp_right (Or.imp_right (htook _ (by simp) id))
  | leave hpc hor => exact hp.imp_right (Or.imp_right (htook _ (by simp) id))
  | takeCell hpc =>
    obtain ⟨hc, -⟩ | hwoken | hj := hp
    · exact .inr (.inr ⟨i, by simp [State.setCall], by simpa [State.setCall, State.own] using hc⟩)
    · exact .inr (.inl hwoken)
    · refine .inr (.inr (htook _ (by simp) (fun hi => ?_) hj))
      rw [hl.fresh i (.inr hpc)] at hi
      cases hi
  | fetchAnd waker pc hpc hpc' =>
    obtain ⟨hc, -⟩ | hwoken | hj := hp
    · rw [h.cleared i waker hpc] at hc
      cases hc
    · exact .inr (.inl hwoken)
    · refine .inr (.inr (htook _ ?_ id hj))
      obtain ⟨w, rfl, -⟩ | ⟨rfl, -⟩ := hpc' <;> simp
  | wake w hpc => exact hp.imp_right (Or.imp_right (htook _ (by simp) id))

theorem placed_call {kind : Kind} {current : Option Waker} (ht : call s i kind current = some t)
    (hp : Placed s) : Placed t := by
  unfold call at ht
  split at ht <;> cases ht
  rename_i hpc
  refine hp.imp_right (Or.imp_right fun hj => ?_)
  exact exists_update (P := fun c : Call => c.pc ≠ .unborn ∧ c.took = some s.own) hj
    fun hi => absurd hpc hi.1

/-- The parts of `Located` that speak of one call. -/
def Call.Located (notified : List Entry) (c : Call) : Prop :=
  (∀ e, c.pc ≠ .unborn → c.took = some e →
    c.pc = .fetchAnd (some e) ∨ c.pc = .wake e ∨ c.kind = .take ∧ c.pc = .returned (some e) ∨
      e ∈ notified ∨ c.current = some e.waker) ∧
  (c.pc = .fetchOr ∨ c.pc = .takeCell → c.took = none) ∧
  (∀ w, c.pc = .fetchAnd w → c.took = w)

theorem Located.call (hl : Located s) (i : Nat) : (s.calls i).Located s.notified :=
  ⟨hl.taken i, hl.fresh i, hl.found i⟩

/-- A call that has found nothing has nothing to account for. -/
theorem located_of_none {c : Call} {notified : List Entry} (htook : c.took = none)
    (hpc : ∀ w, c.pc ≠ .fetchAnd w) : c.Located notified := by
  refine ⟨fun e _ he => ?_, fun _ => htook, fun w hw => absurd hw (hpc w)⟩
  rw [htook] at he
  cases he

theorem located_moved (hl : Located s) (ht : CallMoves s i t) :
    (t.calls i).Located t.notified := by
  cases ht with
  | enter hpc | leave hpc =>
    have htook := hl.fresh i (.inl hpc)
    exact located_of_none (by simpa [State.moveCall, State.setCall] using htook)
      (by simp [State.moveCall, State.setCall])
  | takeCell hpc =>
    simp only [State.setCall, Function.update_self]
    refine ⟨fun e _ he => .inl (congrArg CallPc.fetchAnd he), by simp, fun w hw => ?_⟩
    exact CallPc.fetchAnd.inj hw
  | fetchAnd waker pc hpc hpc' =>
    have htook := hl.found i waker hpc
    simp only [State.moveCall, State.setCall, Function.update_self]
    refine ⟨fun e _ he => ?_, ?_, ?_⟩
    · obtain rfl : waker = some e := htook.symm.trans he
      rcases keep_some (s.calls i).current e with hkeep | ⟨hkeep, hcurrent⟩
      · rw [hkeep] at hpc'
        obtain ⟨w, rfl, -, hw⟩ | ⟨rfl, hkind | hnone⟩ := hpc'
        · obtain rfl := Option.some.inj hw
          exact .inr (.inl rfl)
        · exact .inr (.inr (.inl ⟨hkind, rfl⟩))
        · cases hnone
      · exact .inr (.inr (.inr (.inr hcurrent)))
    · obtain ⟨w, rfl, -⟩ | ⟨rfl, -⟩ := hpc' <;> simp
    · obtain ⟨w, rfl, -⟩ | ⟨rfl, -⟩ := hpc' <;> simp
  | wake w hpc =>
    have htaken := hl.taken i
    rw [hpc] at htaken
    simp only [State.moveCall, State.setCall, Function.update_self]
    refine ⟨fun e _ he => ?_, by simp, by simp⟩
    rcases htaken e (by simp) he with hf | hw | ⟨-, hret⟩ | hnotified | hcurrent
    · cases hf
    · obtain rfl := CallPc.wake.inj hw
      exact .inr (.inr (.inr (.inl List.mem_cons_self)))
    · cases hret
    · exact .inr (.inr (.inr (.inl (List.mem_cons_of_mem _ hnotified))))
    · exact .inr (.inr (.inr (.inr hcurrent)))

/-- The other calls stay as they are, and nobody forgets whom `notify` has woken. -/
theorem callStep_others {j : Nat} (ht : CallMoves s i t) (hj : j ≠ i) :
    t.calls j = s.calls j ∧ ∀ e, e ∈ s.notified → e ∈ t.notified := by
  cases ht with
  | wake w hpc =>
    exact ⟨Function.update_of_ne hj _ _, fun e he => List.mem_cons_of_mem _ he⟩
  | _ => exact ⟨Function.update_of_ne hj _ _, fun e he => he⟩

theorem located_callStep (hl : Located s) (ht : callStep s i = some t) (j : Nat) :
    (t.calls j).Located t.notified := by
  have hm := callStep_moves ht
  by_cases he : j = i
  · subst he
    exact located_moved hl hm
  · obtain ⟨hcall, hnotified⟩ := callStep_others hm he
    obtain ⟨htaken, hfresh, hfound⟩ := hl.call j
    rw [hcall]
    refine ⟨fun e hpc htook => ?_, hfresh, hfound⟩
    exact (htaken e hpc htook).imp_right (Or.imp_right (Or.imp_right (Or.imp_left (hnotified e))))

theorem located_started {kind : Kind} {current : Option Waker} (hl : Located s) (i j : Nat) :
    (Function.update s.calls i ⟨kind, current, .fetchOr, none⟩ j).Located s.notified := by
  by_cases he : j = i
  · rw [he, Function.update_self]
    exact located_of_none rfl (by simp)
  · rw [Function.update_of_ne he]
    exact hl.call j

theorem located_step (h : Owner s) (hl : Located s) (ht : step s a = some t) : Located t := by
  cases a with
  | other w =>
    cases ht
    exact ⟨hl.returning, hl.taken, hl.fresh, hl.found⟩
  | register waker =>
    simp only [step, register] at ht
    split at ht <;> cases ht
    exact ⟨nofun, hl.taken, hl.fresh, hl.found⟩
  | registerStep spurious =>
    have hcalls : t.calls = s.calls ∧ t.notified = s.notified := by
      cases registerStep_moves ht
      all_goals exact ⟨rfl, rfl⟩
    refine ⟨placed_registerStep h ht, ?_, ?_, ?_⟩
    all_goals rw [hcalls.1]
    · rw [hcalls.2]
      exact hl.taken
    · exact hl.fresh
    · exact hl.found
  | take i current | notify i current =>
    have hpc := ht
    simp only [step, take, notify, call] at ht
    split at ht <;> cases ht
    exact ⟨fun hr => placed_call hpc (hl.returning hr), fun j => (located_started hl i j).1,
      fun j => (located_started hl i j).2.1, fun j => (located_started hl i j).2.2⟩
  | callStep i =>
    have hpc : t.pc = s.pc := by
      cases callStep_moves ht
      all_goals rfl
    have hcall := located_callStep hl ht
    exact ⟨fun hr => placed_callStep h hl ht (hl.returning (hpc ▸ hr)), fun j => (hcall j).1,
      fun j => (hcall j).2.1, fun j => (hcall j).2.2⟩

theorem inv_of_reachable (hs : system.Reachable s) : Owner s ∧ Located s :=
  hs.invariant (I := fun s => Owner s ∧ Located s) ⟨owner_new, located_new⟩
    fun _ _ _ h ht => ⟨owner_step h.1 ht, located_step h.1 h.2 ht⟩

/-- A call of `register` returns from the point it says so. -/
theorem registered_step (ht : step s a = some t) (hr : t.registered ≠ s.registered) :
    s.pc = .returning ∧ t = { s with pc := .idle, registered := s.registered + 1 } := by
  cases a with
  | other w =>
    cases ht
    exact absurd rfl hr
  | register waker =>
    simp only [step, register] at ht
    split at ht <;> cases ht
    exact absurd rfl hr
  | registerStep spurious =>
    cases registerStep_moves ht
    case ret hpc => exact ⟨hpc, rfl⟩
    all_goals exact absurd rfl hr
  | take i current | notify i current =>
    simp only [step, take, notify, call] at ht
    split at ht <;> cases ht
    exact absurd rfl hr
  | callStep i =>
    cases callStep_moves ht
    all_goals exact absurd rfl hr

/-! ## `register` returns -/

/-- From here `register` returns by steps of its own. -/
def Returns (s : State) : Prop :=
  ∃ n t, system.runFrom s (List.replicate n (.registerStep false)) = some t ∧
    t.registered = s.registered + 1

theorem Returns.step (ht : registerStep s false = some t) (hr : t.registered = s.registered)
    (h : Returns t) : Returns s := by
  obtain ⟨n, u, hrun, hu⟩ := h
  refine ⟨n + 1, u, ?_, by rw [hu, hr]⟩
  simpa [List.replicate_succ, System.runFrom, system, Header.step, ht] using hrun

theorem returns_returning (hpc : s.pc = .returning) : Returns s :=
  ⟨1, _, by simp [List.replicate, System.runFrom, system, Header.step, registerStep, hpc]; rfl, rfl⟩

theorem returns_wake {w : Entry} (hpc : s.pc = .wake w) : Returns s :=
  .step (t := { s with woken := w :: s.woken, pc := .returning }) (by simp [registerStep, hpc]) rfl
    (returns_returning rfl)

theorem returns_swap {got : Option Entry} (hpc : s.pc = .swap s.word got) : Returns s := by
  cases got with
  | none =>
    refine .step (t := { s with
      word := { s.word with notifying := false, registering := false, awaiter := true }
      pc := .returning }) ?_ rfl (returns_returning rfl)
    simp [registerStep, hpc, State.compareExchangeWeak]
  | some w =>
    refine .step (t := { s with
      word := { s.word with notifying := false, registering := false, awaiter := false }
      pc := .wake w }) ?_ rfl (returns_wake rfl)
    simp [registerStep, hpc, State.compareExchangeWeak]

theorem returns_check_word {got : Option Entry} (hpc : s.pc = .check s.word got) : Returns s := by
  cases hn : s.word.notifying with
  | true =>
    exact .step (t := { s with awaiter := none, pc := .swap s.word (s.awaiter.or got) })
      (by simp [registerStep, hpc, hn]) rfl (returns_swap rfl)
  | false =>
    exact .step (t := { s with pc := .swap s.word got })
      (by simp [registerStep, hpc, hn]) rfl (returns_swap rfl)

theorem returns_swap_any {state : Word} {got : Option Entry} (hpc : s.pc = .swap state got) :
    Returns s := by
  by_cases hw : s.word = state
  · exact returns_swap (hw ▸ hpc)
  · refine .step (t := { s with pc := .check s.word got }) ?_ rfl (returns_check_word rfl)
    cases got <;> simp [registerStep, hpc, State.compareExchangeWeak, hw]

theorem returns_check {state : Word} {got : Option Entry} (hpc : s.pc = .check state got) :
    Returns s := by
  cases hn : state.notifying with
  | true =>
    exact .step (t := { s with awaiter := none, pc := .swap state (s.awaiter.or got) })
      (by simp [registerStep, hpc, hn]) rfl (returns_swap_any rfl)
  | false =>
    exact .step (t := { s with pc := .swap state got })
      (by simp [registerStep, hpc, hn]) rfl (returns_swap_any rfl)

theorem returns_write {state : Word} (hpc : s.pc = .write state) : Returns s :=
  .step (t := { s with awaiter := some s.own, pc := .check state none })
    (by simp [registerStep, hpc]) rfl (returns_check rfl)

theorem returns_loop_word (hpc : s.pc = .loop s.word) (hr : s.word.registering = false) :
    Returns s := by
  cases hn : s.word.notifying with
  | true =>
    exact .step (t := { s with woken := s.own :: s.woken, pc := .returning })
      (by simp [registerStep, hpc, hr, hn]) rfl (returns_returning rfl)
  | false =>
    refine .step (t := { s with
      word := { s.word with registering := true }
      pc := .write { s.word with registering := true } }) ?_ rfl (returns_write rfl)
    simp [registerStep, hpc, hr, hn, State.compareExchangeWeak]

theorem returns_loop {state : Word} (h : Owner s) (hpc : s.pc = .loop state) : Returns s := by
  have hr := h.loaded state hpc
  have hrw : s.word.registering = false := by
    have hregistering := h.registering
    rw [hpc] at hregistering
    exact Bool.eq_false_iff.mpr fun hw => nomatch hregistering.2 hw
  by_cases hw : s.word = state
  · exact returns_loop_word (hw ▸ hpc) hrw
  · cases hn : state.notifying with
    | true =>
      exact .step (t := { s with woken := s.own :: s.woken, pc := .returning })
        (by simp [registerStep, hpc, hr, hn]) rfl (returns_returning rfl)
    | false =>
      refine .step (t := { s with pc := .loop s.word }) ?_ rfl (returns_loop_word rfl hrw)
      simp [registerStep, hpc, hr, hn, State.compareExchangeWeak, hw]

/-- Both loops end when no one else changes the word: a call of `register` returns. -/
theorem returns_of_owner (h : Owner s) (hpc : s.pc ≠ .idle) : Returns s := by
  cases hp : s.pc with
  | idle => exact absurd hp hpc
  | load =>
    have hregistering := h.registering
    rw [hp] at hregistering
    exact .step (t := { s with pc := .loop s.word }) (by simp [registerStep, hp]) rfl
      (returns_loop_word rfl (Bool.eq_false_iff.mpr fun hw => nomatch hregistering.2 hw))
  | loop state => exact returns_loop h hp
  | write state => exact returns_write hp
  | check state got => exact returns_check hp
  | swap state got => exact returns_swap_any hp
  | wake w => exact returns_wake hp
  | returning => exact returns_returning hp
  | panicked => exact absurd hp h.noPanic

/-! ## The slot of the task

`Cynthia.Task.system` makes every access of every call on a task. Its accesses to the word
and to the cell of the awaiter are the steps of `system` here. -/

/-- `b` has the slot of `a`: the three bits and the cell. -/
structure SameSlot (a b : Shared) : Prop where
  awaiter : b.word.awaiter = a.word.awaiter
  registering : b.word.registering = a.word.registering
  notifying : b.word.notifying = a.word.notifying
  cell : b.awaiter = a.awaiter

/-- An access of `take` or `register` to the word or the cell. -/
def accessesSlot : Pc → Bool
  | .takeOr _ | .takeCell _ | .takeAnd _ _ | .registerLoop _ _ _ | .registerWrite _ _ _
  | .registerCheck _ _ _ _ | .registerSwap _ _ _ _ => true
  | _ => false

theorem SameSlot.refl (a : Shared) : SameSlot a a := ⟨rfl, rfl, rfl, rfl⟩

variable {sh : Shared} {c : Choice} {pc : Pc} {sized : Bool} {r : Next} {f : TakeFor} {site : Site}

theorem sameSlot_finish {sh' : Shared} (k : Cont) (h : SameSlot sh sh') :
    SameSlot sh (finish sh' k).2 := by
  apply finish_of (P := fun r => SameSlot sh r.2)
  case hwake | htake => exact fun _ => h
  case hidle => exact ⟨h.awaiter, h.registering, h.notifying, h.cell⟩
  all_goals exact h

theorem sameSlot_afterCancel {sh' : Shared} (dropping : Bool) (h : SameSlot sh sh') :
    SameSlot sh (afterCancel sh' dropping).2 := by
  apply afterCancel_of (P := fun r => SameSlot sh r.2)
  · exact ⟨h.awaiter, h.registering, h.notifying, h.cell⟩
  · exact h

theorem sameSlot_finishWakeRef {sh' : Shared} (k : WakeBy) (h : SameSlot sh sh') :
    SameSlot sh (finishWakeRef sh' k).2 := by
  cases k <;> exact h

/-- No access outside of `take` and `register` touches the slot, but for the two that reset
the word. -/
theorem slot_exec (h : exec sized sh c pc = some r) (hpc : accessesSlot pc = false) :
    SameSlot sh r.2 ∨ r.2.word = .lastRun := by
  have hslot {sh' : Shared} (hawaiter : sh'.word.awaiter = sh.word.awaiter)
      (hregistering : sh'.word.registering = sh.word.registering)
      (hnotifying : sh'.word.notifying = sh.word.notifying) (hcell : sh'.awaiter = sh.awaiter) :
      SameSlot sh sh' := ⟨hawaiter, hregistering, hnotifying, hcell⟩
  rcases moves_of_exec h with hm | hm | hm | hm | hm | hm | hm | hm | hm | hm | hm
  · cases hm with
    | ended k | scheduled k | running k | returns k =>
      exact .inl (sameSlot_finishWakeRef k (hslot rfl rfl rfl rfl))
    | _ => exact .inl (hslot rfl rfl rfl rfl)
  · cases hm with
    | returns k => exact .inl (sameSlot_finish k (hslot rfl rfl rfl rfl))
    | _ => exact .inl (hslot rfl rfl rfl rfl)
  · cases hm with
    | waker k | ref k | destroy k => exact .inl (sameSlot_finish k (hslot rfl rfl rfl rfl))
    | store => exact .inr rfl
    | _ => exact .inl (hslot rfl rfl rfl rfl)
  · cases hm with
    | wake f w =>
      refine .inl ?_
      apply notifyDone_of (P := fun r => SameSlot sh r.2)
      all_goals exact hslot rfl rfl rfl rfl
    | _ => cases hpc
  · cases hm with
    | _ => exact .inl (hslot rfl rfl rfl rfl)
  · cases hm with
    | _ => exact .inl (hslot rfl rfl rfl rfl)
  · cases hm with
    | _ => exact .inl (hslot rfl rfl rfl rfl)
  · cases hm with
    | _ => exact .inl (hslot rfl rfl rfl rfl)
  · cases hm with
    | ended dropping | close dropping =>
      exact .inl (sameSlot_afterCancel dropping (hslot rfl rfl rfl rfl))
    | lastRun => exact .inr rfl
    | _ => exact .inl (hslot rfl rfl rfl rfl)
  · cases hm with
    | _ => exact .inl (hslot rfl rfl rfl rfl)
  · cases hm with
    | load | wake => exact .inl (hslot rfl rfl rfl rfl)
    | _ => cases hpc

/-- `s` has the slot of the task. -/
structure Slot (sh : Shared) (s : State) : Prop where
  word : s.word = sh.word
  awaiter : s.awaiter.map Entry.waker = sh.awaiter

theorem other_inTask (h : Slot sh s) (he : exec sized sh c pc = some r)
    (hpc : accessesSlot pc = false) :
    Slot r.2 (other s r.2.word) ∨ r.2.word = .lastRun := by
  obtain hslot | hreset := slot_exec he hpc
  · refine .inl ⟨?_, h.awaiter.trans hslot.cell.symm⟩
    simp only [other, h.word, ← hslot.awaiter, ← hslot.registering, ← hslot.notifying]
  · exact .inr hreset

/-- Where a call of `poll` is when its `register` is at a point. -/
def RegisterPc.inTask (w : Waker) (site : Site) : RegisterPc → Option Pc
  | .load => some (.registerLoad w site)
  | .loop state => some (.registerLoop w site state)
  | .write state => some (.registerWrite w site state)
  | .check state got => some (.registerCheck w site state (got.map Entry.waker))
  | .swap state got => some (.registerSwap w site state (got.map Entry.waker))
  | .wake e => some (.registerWake w site e.waker)
  | .returning => some (.pollReload w site)
  | .idle | .panicked => none

/-- A step of `register` in the task that ends in `r` ends here in `t`. -/
def RegisterMatch (site : Site) (r : Next) (t : State) : Prop :=
  Slot r.2 t ∧ t.pc.inTask t.passed site = r.1

/-- An exchange of `register` succeeds in the task when it does here. -/
theorem match_compareExchangeWeak {state new : Word} {ok : RegisterPc} {err : Word → RegisterPc}
    {ok' : Shared → Next} {err' : Word → Pc} (h : Slot sh s)
    (hok : RegisterMatch site (ok' { sh with word := new }) { s with word := new, pc := ok })
    (herr : ∀ w, (err w).inTask s.passed site = some (err' w)) :
    RegisterMatch site (cas sh c state new ok' err')
      (s.compareExchangeWeak (c = .spurious) state new ok err) := by
  unfold cas State.compareExchangeWeak
  by_cases hw : sh.word = state ∧ c ≠ .spurious
  · rw [if_pos hw, if_pos ⟨decide_eq_false hw.2, h.word.trans hw.1⟩]
    exact hok
  · rw [if_neg hw, if_neg fun hw' => hw ⟨h.word.symm.trans hw'.2, of_decide_eq_false hw'.1⟩]
    exact ⟨⟨h.word, h.awaiter⟩, h.word ▸ herr s.word⟩

/-- `register` in the task does what it does here. -/
theorem registerStep_inTask (ho : Owner s) (h : Slot sh s)
    (hpc : s.pc.inTask s.passed site = some pc) (hret : s.pc ≠ .returning)
    (ht : registerStep s (c = .spurious) = some t) :
    ∃ r, execRegister sh c pc = some r ∧ RegisterMatch site r t := by
  obtain ⟨hword, hcell⟩ := h
  cases hp : s.pc
  all_goals
    simp only [hp, RegisterPc.inTask, Option.some.injEq, reduceCtorEq] at hpc
    try subst hpc
  case load =>
    simp only [registerStep, hp] at ht
    cases ht
    exact ⟨_, rfl, ⟨hword, hcell⟩, by rw [hword]; rfl⟩
  case loop state =>
    simp only [registerStep, hp, ho.loaded state hp] at ht
    cases hn : state.notifying
    all_goals
      simp only [hn] at ht
      cases ht
      refine ⟨_, rfl, ?_⟩
      simp only [hn]
    · exact match_compareExchangeWeak ⟨hword, hcell⟩ ⟨⟨rfl, hcell⟩, rfl⟩ fun _ => rfl
    · exact ⟨⟨hword, hcell⟩, rfl⟩
  case write state =>
    simp only [registerStep, hp] at ht
    cases ht
    exact ⟨_, rfl, ⟨hword, rfl⟩, rfl⟩
  case check state got =>
    simp only [registerStep, hp] at ht
    cases hn : state.notifying
    all_goals
      simp only [hn] at ht
      cases ht
      refine ⟨_, rfl, ?_⟩
      simp only [hn]
    · exact ⟨⟨hword, hcell⟩, rfl⟩
    · exact ⟨⟨hword, rfl⟩, by simp [RegisterPc.inTask, ← hcell, Option.map_or]⟩
  case swap state got =>
    cases got with
    | none =>
      simp only [registerStep, hp] at ht
      cases ht
      exact ⟨_, rfl, match_compareExchangeWeak ⟨hword, hcell⟩ ⟨⟨rfl, hcell⟩, rfl⟩ fun _ => rfl⟩
    | some w =>
      simp only [registerStep, hp] at ht
      cases ht
      exact ⟨_, rfl, match_compareExchangeWeak ⟨hword, hcell⟩ ⟨⟨rfl, hcell⟩, rfl⟩ fun _ => rfl⟩
  case wake w =>
    simp only [registerStep, hp] at ht
    cases ht
    exact ⟨_, rfl, ⟨hword, hcell⟩, rfl⟩
  case returning => exact absurd hp hret

def kindOf : TakeFor → Kind
  | .runner => .take
  | _ => .notify

def currentOf : TakeFor → Option Waker
  | .pollClosed w | .pollOutput w => some w
  | _ => none

/-- Where a caller of `take` is when it is at a point of `take` or `notify`. -/
def CallPc.inTask (f : TakeFor) : CallPc → Option Pc
  | .fetchOr => some (.takeOr f)
  | .takeCell => some (.takeCell f)
  | .fetchAnd waker => some (.takeAnd f (waker.map Entry.waker))
  | .wake e => some (.notifyWake f e.waker)
  | .unborn | .returned _ => none

theorem keep_inTask (f : TakeFor) (waker : Option Entry) :
    (keep (currentOf f) waker).map Entry.waker = Task.keep f (waker.map Entry.waker) := by
  cases waker <;> cases f <;> simp [keep, Task.keep, currentOf, apply_ite]

theorem word_notifyDone (sh : Shared) (f : TakeFor) :
    (notifyDone sh f).2.word = sh.word ∧ (notifyDone sh f).2.awaiter = sh.awaiter := by
  cases f
  case canceled dropping => cases dropping <;> exact ⟨rfl, rfl⟩
  all_goals exact ⟨rfl, rfl⟩

theorem word_takeDone (sh : Shared) (f : TakeFor) (got : Option Waker) :
    (takeDone sh f got).2.word = sh.word ∧ (takeDone sh f got).2.awaiter = sh.awaiter := by
  unfold takeDone
  split
  case h_4 => exact word_notifyDone sh f
  all_goals exact ⟨rfl, rfl⟩

/-- `take` and `notify` in the task do what they do here, until they return. -/
theorem callStep_inTask (h : Slot sh s) (hk : (s.calls i).kind = kindOf f)
    (hcur : (s.calls i).current = currentOf f) (hpc : (s.calls i).pc.inTask f = some pc)
    (ht : callStep s i = some t) :
    ∃ r, execTake sh pc = some r ∧ Slot r.2 t ∧
      ∀ pc', (t.calls i).pc.inTask f = some pc' → r.1 = some pc' := by
  obtain ⟨hword, hcell⟩ := h
  unfold callStep at ht
  cases hp : (s.calls i).pc
  all_goals
    simp only [hp, CallPc.inTask, Option.some.injEq, reduceCtorEq] at hpc ht
    try subst hpc
  case fetchOr =>
    refine ⟨_, rfl, ?_⟩
    rw [← hword]
    split
    case isTrue hw =>
      rw [if_pos hw] at ht
      cases ht
      exact ⟨⟨rfl, hcell⟩, by simp [State.moveCall, State.setCall, CallPc.inTask]⟩
    case isFalse hw =>
      rw [if_neg hw] at ht
      cases ht
      obtain ⟨hword', hcell'⟩ := word_takeDone
        { sh with word := { s.word with notifying := true } } f none
      exact ⟨⟨hword'.symm, hcell.trans hcell'.symm⟩,
        by simp [State.moveCall, State.setCall, CallPc.inTask]⟩
  case takeCell =>
    cases ht
    exact ⟨_, rfl, ⟨hword, rfl⟩, by simp [State.setCall, CallPc.inTask, hcell]⟩
  case fetchAnd waker =>
    obtain ⟨hword', hcell'⟩ := word_takeDone
      { sh with word := { s.word with notifying := false, awaiter := false } } f
      ((keep (currentOf f) waker).map Entry.waker)
    refine ⟨_, rfl, ?_⟩
    rw [← keep_inTask, ← hword]
    rw [hk, hcur] at ht
    split at ht
    case h_1 w hf hw =>
      cases ht
      refine ⟨⟨hword'.symm, hcell.trans hcell'.symm⟩, fun pc' hpc' => ?_⟩
      simp only [State.moveCall, State.setCall, Function.update_self, CallPc.inTask] at hpc'
      rw [hw, ← hpc']
      cases f <;> simp [kindOf] at hf <;> rfl
    case h_2 =>
      cases ht
      exact ⟨⟨hword'.symm, hcell.trans hcell'.symm⟩,
        by simp [State.moveCall, State.setCall, CallPc.inTask]⟩
  case wake w =>
    cases ht
    obtain ⟨hword', hcell'⟩ := word_notifyDone (sh.wake w.waker) f
    exact ⟨_, rfl, ⟨hword.trans hword'.symm, hcell.trans hcell'.symm⟩,
      by simp [State.moveCall, State.setCall, CallPc.inTask]⟩

/-! ## Reachable states -/

/-- The cell is accessed by at most one thread at a time. -/
theorem accesses_exclusive (h : Owner s) :
    (∀ i j, (s.calls i).pc.accesses = true → (s.calls j).pc.accesses = true → i = j) ∧
    (s.pc.accesses = true → ∀ i, (s.calls i).pc.accesses = false) := by
  have howns : ∀ i, (s.calls i).pc.accesses = true → (s.calls i).pc.owns = true := by
    intro i hi
    cases hpc : (s.calls i).pc <;> simp [hpc, CallPc.accesses] at hi
    rfl
  refine ⟨fun i j hi hj => h.unique i j (howns i hi) (howns j hj), fun hpc i => ?_⟩
  have hreg : s.pc.owns = true := by
    cases hp : s.pc <;> simp [hp, RegisterPc.accesses] at hpc <;> rfl
  refine Bool.eq_false_iff.mpr fun hi => ?_
  have hw := (h.calls i (howns i hi)).2
  rw [h.registering.1 hreg] at hw
  cases hw

/-- What a call took from the cell it holds, has returned, has woken, or has dropped because
it was the waker of its caller. -/
theorem taken_kept {e : Entry} (hs : system.Reachable s) (hi : (s.calls i).pc ≠ .unborn)
    (he : (s.calls i).took = some e) :
    (s.calls i).pc = .fetchAnd (some e) ∨ (s.calls i).pc = .wake e ∨
      (s.calls i).kind = .take ∧ (s.calls i).pc = .returned (some e) ∨
      e ∈ s.notified ∨ (s.calls i).current = some e.waker :=
  (inv_of_reachable hs).2.taken i e hi he

/-- In every state reached the cell has at most one user, the assertion of `register` has
not failed, and `AWAITER` says whether the cell is full whenever neither bit of the lock is
set. When a call of `register` returns, its waker is in the cell with `AWAITER` set, or
`register` has woken it, or a call of `take` or `notify` that has begun has taken it; and
a call of `register` in progress does return when it is left alone. -/
theorem awaiter_kept (hs : system.Reachable s) :
    ((∀ i j, (s.calls i).pc.accesses = true → (s.calls j).pc.accesses = true → i = j) ∧
      (s.pc.accesses = true → ∀ i, (s.calls i).pc.accesses = false)) ∧
    s.pc ≠ .panicked ∧
    (s.word.registering = false → s.word.notifying = false →
      (s.word.awaiter = true ↔ s.awaiter.isSome = true)) ∧
    (∀ a t, system.step s a = some t → t.registered ≠ s.registered →
      (t.awaiter = some ⟨s.passed, s.registered⟩ ∧ t.word.awaiter = true) ∨
        ⟨s.passed, s.registered⟩ ∈ t.woken ∨
        ∃ i, (t.calls i).pc ≠ .unborn ∧ (t.calls i).took = some ⟨s.passed, s.registered⟩) ∧
    (s.pc ≠ .idle → ∃ n t,
      system.runFrom s (List.replicate n (.registerStep false)) = some t ∧
        t.registered = s.registered + 1) := by
  obtain ⟨howner, hlocated⟩ := inv_of_reachable hs
  refine ⟨accesses_exclusive howner, howner.noPanic, fun hr hn => by rw [howner.free hr hn], ?_,
    returns_of_owner howner⟩
  intro a t ht hr
  obtain ⟨hpc, rfl⟩ := registered_step ht hr
  exact hlocated.returning hpc

/-- A call of `notify` comes while `register` has the cell: its bit makes `register` take
its own waker back. -/
def lateNotify : List Act :=
  [.register 5, .registerStep false, .registerStep false, .registerStep false, .notify 0 none,
    .callStep 0, .registerStep false, .registerStep false, .registerStep false,
    .registerStep false, .registerStep false]

/-- The run where `register` wakes for the call that came late. -/
theorem awaiter_kept_lateNotify :
    ∃ s t, system.run lateNotify = some s ∧ system.step s (.registerStep false) = some t ∧
      s.registered = 0 ∧ t.registered = 1 ∧
      ((t.awaiter = some ⟨s.passed, 0⟩ ∧ t.word.awaiter = true) ∨ ⟨s.passed, 0⟩ ∈ t.woken ∨
        ∃ i, (t.calls i).pc ≠ .unborn ∧ (t.calls i).took = some ⟨s.passed, 0⟩) := by
  obtain ⟨s, hrun, hs, hr, hpc⟩ := system.exists_of_run
    (P := fun s => s.registered = 0 ∧ s.pc = .returning) lateNotify (by decide)
  have ht : system.step s (.registerStep false) =
      some { s with pc := .idle, registered := s.registered + 1 } := by
    simp [system, step, registerStep, hpc]
  refine ⟨s, _, hrun, ht, hr, by simp [hr], ?_⟩
  have hplaced := (awaiter_kept hs).2.2.2.1 _ _ ht (by simp)
  rwa [hr] at hplaced

end Cynthia.Task.Header
