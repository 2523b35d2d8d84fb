import Cynthia.Lib.Transition

/-! `Parker` and `Unparker` of `platform/parking/parking.rs`, of which `utils/parking.rs`
is a copy: `Inner::park` and `Inner::unpark` at the granularity of their atomic accesses,
of the passages through the lock and of the condition variable. One thread parks, any
number of calls of `unpark` are under way. A wait may end at any point, because its time
is over or for no reason. -/

namespace Cynthia.Parking

open Transition

def EMPTY : Nat := 0
def PARKED : Nat := 1
def NOTIFIED : Nat := 2

/-- Points of the parking thread: the first look at the token, the lock, the change to
`PARKED`, the swap when the token came in between, on the way into the wait, in it, on the
way out, the second look, and the release of the lock with the result. -/
inductive Pc where
  | idle | take | lock | park | swap | enter | wait | relock | check
  | unlock (res : Bool)
  | panicked
  deriving DecidableEq, Repr

/-- Points of a call of `unpark`. -/
inductive UnparkPc where
  | unborn | swap | lock | unlock | notify
  | returned (res : Bool)
  | panicked
  deriving DecidableEq, Repr

inductive Holder where
  | parker
  | unpark (i : Nat)
  deriving DecidableEq, Repr

/-- `timeout` is that of the call in progress, whose number is `calls - 1`. The last three
fields are history: what the calls of `park` returned, the calls of `unpark` that set the
token and the calls of `park` that took it, in order. -/
structure State where
  word : Nat
  holder : Option Holder
  pc : Pc
  timeout : Option Nat
  unparks : Nat → UnparkPc
  calls : Nat
  results : Nat → Option Bool
  sets : List Nat
  takes : List Nat

def new : State where
  word := EMPTY
  holder := none
  pc := .idle
  timeout := none
  unparks _ := .unborn
  calls := 0
  results _ := none
  sets := []
  takes := []

/-- The call in progress returns. -/
def State.return (s : State) (res : Bool) : State :=
  { s with pc := .idle, results := Function.update s.results (s.calls - 1) (some res) }

/-- The token becomes `EMPTY` and the call in progress has it. -/
def State.taken (s : State) : State :=
  { s with word := EMPTY, takes := s.takes ++ [s.calls - 1] }

/-- `Inner::park`. -/
def start (s : State) (timeout : Option Nat) : Option State :=
  if s.pc = .idle then some { s with pc := .take, timeout := timeout, calls := s.calls + 1 }
  else none

def park (s : State) : Option State := start s none

def parkTimeout (s : State) (duration : Nat) : Option State := start s (some duration)

/-- The deadline is compared with the clock, `now`. -/
def parkDeadline (s : State) (instant now : Nat) : Option State := start s (some (instant - now))

/-- One step of the parking thread outside of the wait. -/
def parkStep (s : State) : Option State :=
  match s.pc with
  | .take =>
    if s.word = NOTIFIED then some (s.taken.return true)
    else if s.timeout = some 0 then some (s.return false)
    else some { s with pc := .lock }
  | .lock => if s.holder = none then some { s with holder := some .parker, pc := .park } else none
  | .park =>
    if s.word = EMPTY then some { s with word := PARKED, pc := .enter }
    else if s.word = NOTIFIED then some { s with pc := .swap }
    else some { s with pc := .panicked }
  | .swap =>
    if s.word = NOTIFIED then some { s.taken with pc := .unlock true }
    else some { s with word := EMPTY, pc := .panicked }
  | .enter => some { s with holder := none, pc := .wait }
  | .relock =>
    if s.holder = none then some { s with holder := some .parker, pc := .check } else none
  | .check =>
    match s.timeout with
    | none =>
      if s.word = NOTIFIED then some { s.taken with pc := .unlock true }
      else some { s with pc := .enter }
    | some _ =>
      if s.word = NOTIFIED then some { s.taken with pc := .unlock true }
      else if s.word = PARKED then some { s with word := EMPTY, pc := .unlock false }
      else some { s with word := EMPTY, pc := .panicked }
  | .unlock res => some ({ s with holder := none }.return res)
  | .idle | .wait | .panicked => none

/-- The wait is over, without a notification. -/
def wakeup (s : State) : Option State :=
  if s.pc = .wait then some { s with pc := .relock } else none

def moveUnpark (s : State) (i : Nat) (pc : UnparkPc) : State :=
  { s with unparks := Function.update s.unparks i pc }

def unpark (s : State) (i : Nat) : Option State :=
  if s.unparks i = .unborn then some (moveUnpark s i .swap) else none

/-- One step of a call of `unpark`. -/
def unparkStep (s : State) (i : Nat) : Option State :=
  match s.unparks i with
  | .swap =>
    let t := { s with word := NOTIFIED }
    if s.word = EMPTY then some (moveUnpark { t with sets := s.sets ++ [i] } i (.returned true))
    else if s.word = NOTIFIED then some (moveUnpark t i (.returned false))
    else if s.word = PARKED then some (moveUnpark { t with sets := s.sets ++ [i] } i .lock)
    else some (moveUnpark t i .panicked)
  | .lock =>
    if s.holder = none then some (moveUnpark { s with holder := some (.unpark i) } i .unlock)
    else none
  | .unlock => some (moveUnpark { s with holder := none } i .notify)
  | .notify =>
    some (moveUnpark { s with pc := if s.pc = .wait then .relock else s.pc } i (.returned true))
  | .unborn | .returned _ | .panicked => none

inductive Act where
  | park
  | parkTimeout (duration : Nat)
  | parkDeadline (instant now : Nat)
  | parkStep
  | wakeup
  | unpark (i : Nat)
  | unparkStep (i : Nat)
  deriving DecidableEq, Repr

def step (s : State) : Act → Option State
  | .park => park s
  | .parkTimeout duration => parkTimeout s duration
  | .parkDeadline instant now => parkDeadline s instant now
  | .parkStep => parkStep s
  | .wakeup => wakeup s
  | .unpark i => unpark s i
  | .unparkStep i => unparkStep s i

def system : System State Act := ⟨new, step⟩

/-! ## The token and the lock -/

/-- The thread has announced itself. -/
def Pc.isParked : Pc → Bool
  | .enter | .wait | .relock | .check => true
  | _ => false

def Pc.holdsLock : Pc → Bool
  | .park | .swap | .enter | .check | .unlock _ => true
  | _ => false

/-- The call of `unpark` found the thread parked and has not passed the notification on. -/
def UnparkPc.owes : UnparkPc → Bool
  | .lock | .unlock | .notify => true
  | _ => false

def UnparkPc.inProgress : UnparkPc → Bool
  | .unborn | .returned _ | .panicked => false
  | _ => true

/-- What the word can be at each point, and who holds the lock. -/
structure Shape (s : State) : Prop where
  parked : s.pc.isParked = true → s.word = PARKED ∨ s.word = NOTIFIED
  unparked : s.pc.isParked = false → s.word = EMPTY ∨ s.word = NOTIFIED
  swap : s.pc = .swap → s.word = NOTIFIED
  noPanic : s.pc ≠ .panicked
  noPanicUnpark : ∀ i, s.unparks i ≠ .panicked
  parker : s.holder = some .parker ↔ s.pc.holdsLock = true
  unparker : ∀ i, s.holder = some (.unpark i) ↔ s.unparks i = .unlock
  entering : s.pc = .enter → s.word = NOTIFIED → ∃ i, s.unparks i = .lock
  waiting : s.pc = .wait → s.word = NOTIFIED → ∃ i, (s.unparks i).owes = true

/-- Tokens are set and taken in turn. -/
structure Tokens (s : State) : Prop where
  count : s.sets.length = s.takes.length + if s.word = NOTIFIED then 1 else 0
  set : ∀ i, i ∈ s.sets ↔ s.unparks i = .returned true ∨ (s.unparks i).owes = true
  setOnce : s.sets.Nodup
  taken : ∀ j, j ∈ s.takes ↔ s.results j = some true ∨ s.pc = .unlock true ∧ j + 1 = s.calls
  takenOnce : s.takes.Nodup
  current : s.pc ≠ .idle → 0 < s.calls ∧ s.results (s.calls - 1) = none
  later : ∀ j, s.calls ≤ j → s.results j = none

variable {s t : State} {i : Nat} {timeout : Option Nat}

theorem shape_new : Shape new := by
  constructor <;> simp [new, Pc.isParked, Pc.holdsLock]

theorem tokens_new : Tokens new := by
  constructor <;> simp [new, UnparkPc.owes, EMPTY, NOTIFIED]

theorem shape_start (h : Shape s) (ht : start s timeout = some t) : Shape t := by
  unfold start at ht
  split at ht
  case isFalse => cases ht
  case isTrue hpc =>
    obtain rfl := Option.some.inj ht
    obtain ⟨hparked, hunparked, hswap, hnot, hnotU, hparker, hunparker, hentering, hwaiting⟩ := h
    rw [hpc] at hparked hunparked hparker
    exact ⟨hparked, hunparked, nofun, nofun, hnotU, hparker, hunparker, nofun, nofun⟩

/-- What the parking thread does at each of its points. -/
theorem parkStep_cases (h : Shape s) (ht : parkStep s = some t) :
    (s.pc = .take ∧ s.word = NOTIFIED ∧ t = s.taken.return true) ∨
    (s.pc = .take ∧ s.word ≠ NOTIFIED ∧ (t = s.return false ∨ t = { s with pc := .lock })) ∨
    (s.pc = .lock ∧ s.holder = none ∧ t = { s with holder := some .parker, pc := .park }) ∨
    (s.pc = .park ∧ s.word = EMPTY ∧ t = { s with word := PARKED, pc := .enter }) ∨
    (s.pc = .park ∧ s.word = NOTIFIED ∧ t = { s with pc := .swap }) ∨
    ((s.pc = .swap ∨ s.pc = .check) ∧ s.word = NOTIFIED ∧
      t = { s.taken with pc := .unlock true }) ∨
    (s.pc = .enter ∧ t = { s with holder := none, pc := .wait }) ∨
    (s.pc = .relock ∧ s.holder = none ∧ t = { s with holder := some .parker, pc := .check }) ∨
    (s.pc = .check ∧ s.word = PARKED ∧
      (t = { s with pc := .enter } ∨ t = { s with word := EMPTY, pc := .unlock false })) ∨
    ∃ res, s.pc = .unlock res ∧ t = ({ s with holder := none } : State).return res := by
  unfold parkStep at ht
  have hparked := h.parked
  have hunparked := h.unparked
  have hswap := h.swap
  cases hpc : s.pc <;> simp only [hpc, reduceCtorEq] at ht hparked hunparked hswap
  case take =>
    split at ht
    · exact .inl ⟨rfl, ‹_›, (Option.some.inj ht).symm⟩
    · rename_i hw
      split at ht
      · exact .inr (.inl ⟨rfl, hw, .inl (Option.some.inj ht).symm⟩)
      · exact .inr (.inl ⟨rfl, hw, .inr (Option.some.inj ht).symm⟩)
  case lock =>
    split at ht <;> cases ht
    exact .inr (.inr (.inl ⟨rfl, ‹_›, rfl⟩))
  case park =>
    split at ht
    · exact .inr (.inr (.inr (.inl ⟨rfl, ‹_›, (Option.some.inj ht).symm⟩)))
    · have hw := (hunparked rfl).resolve_left ‹_›
      rw [if_pos hw] at ht
      exact .inr (.inr (.inr (.inr (.inl ⟨rfl, hw, (Option.some.inj ht).symm⟩))))
  case swap =>
    rw [if_pos (hswap trivial)] at ht
    exact .inr (.inr (.inr (.inr (.inr (.inl
      ⟨.inl rfl, hswap trivial, (Option.some.inj ht).symm⟩)))))
  case enter =>
    exact .inr (.inr (.inr (.inr (.inr (.inr (.inl ⟨rfl, (Option.some.inj ht).symm⟩))))))
  case relock =>
    split at ht <;> cases ht
    exact .inr (.inr (.inr (.inr (.inr (.inr (.inr (.inl ⟨rfl, ‹_›, rfl⟩)))))))
  case check =>
    by_cases hw : s.word = NOTIFIED
    · refine .inr (.inr (.inr (.inr (.inr (.inl ⟨.inr rfl, hw, ?_⟩)))))
      simp only [if_pos hw] at ht
      split at ht <;> exact (Option.some.inj ht).symm
    · have hp := (hparked rfl).resolve_right hw
      refine .inr (.inr (.inr (.inr (.inr (.inr (.inr (.inr (.inl ⟨rfl, hp, ?_⟩))))))))
      simp only [if_neg hw, if_pos hp] at ht
      split at ht
      · exact .inl (Option.some.inj ht).symm
      · exact .inr (Option.some.inj ht).symm
  case unlock res =>
    exact .inr (.inr (.inr (.inr (.inr (.inr (.inr (.inr (.inr
      ⟨res, rfl, (Option.some.inj ht).symm⟩))))))))

theorem Shape.not_parker (h : Shape s) (hpc : s.pc.holdsLock = false) :
    s.holder ≠ some .parker := fun hl => by
  rw [h.parker.mp hl] at hpc
  cases hpc

/-- No call of `unpark` has the lock when the thread has it, or nobody. -/
theorem Shape.not_unparker (h : Shape s) (hfree : s.holder = none ∨ s.pc.holdsLock = true) (i : Nat) :
    s.unparks i ≠ .unlock := fun hu => by
  have hheld := (h.unparker i).mpr hu
  rcases hfree with hfree | hpc
  · cases hheld.symm.trans hfree
  · cases hheld.symm.trans (h.parker.mpr hpc)

theorem shape_parkStep (h : Shape s) (ht : parkStep s = some t) : Shape t := by
  have hnotU := h.noPanicUnpark
  obtain ⟨hpc, hw, rfl⟩ | ⟨hpc, hw, rfl | rfl⟩ | ⟨hpc, hfree, rfl⟩ | ⟨hpc, hw, rfl⟩ |
    ⟨hpc, hw, rfl⟩ | ⟨hpc, hw, rfl⟩ | ⟨hpc, rfl⟩ | ⟨hpc, hfree, rfl⟩ | ⟨hpc, hw, rfl | rfl⟩ |
    ⟨res, hpc, rfl⟩ := parkStep_cases h ht
  · have hparker := h.not_parker (by rw [hpc]; rfl)
    exact ⟨nofun, fun _ => .inl rfl, nofun, nofun, hnotU, ⟨fun hl => absurd hl hparker, nofun⟩,
      h.unparker, nofun, nofun⟩
  · have hparker := h.not_parker (by rw [hpc]; rfl)
    have hword := h.unparked (by rw [hpc]; rfl)
    exact ⟨nofun, fun _ => hword, nofun, nofun, hnotU, ⟨fun hl => absurd hl hparker, nofun⟩,
      h.unparker, nofun, nofun⟩
  · have hparker := h.not_parker (by rw [hpc]; rfl)
    have hword := h.unparked (by rw [hpc]; rfl)
    exact ⟨nofun, fun _ => hword, nofun, nofun, hnotU, ⟨fun hl => absurd hl hparker, nofun⟩,
      h.unparker, nofun, nofun⟩
  · have hword := h.unparked (by rw [hpc]; rfl)
    have hunlocked := h.not_unparker (.inl hfree)
    exact ⟨nofun, fun _ => hword, nofun, nofun, hnotU, ⟨fun _ => rfl, fun _ => rfl⟩,
      fun i => ⟨nofun, fun hu => absurd hu (hunlocked i)⟩, nofun, nofun⟩
  · have hparker := h.parker.mpr (by rw [hpc]; rfl)
    refine ⟨fun _ => .inl rfl, nofun, nofun, nofun, hnotU, ⟨fun _ => rfl, fun _ => hparker⟩,
      h.unparker, fun _ hn => ?_, nofun⟩
    cases hn
  · have hparker := h.parker.mpr (by rw [hpc]; rfl)
    exact ⟨nofun, fun _ => .inr hw, fun _ => hw, nofun, hnotU, ⟨fun _ => rfl, fun _ => hparker⟩,
      h.unparker, nofun, nofun⟩
  · have hparker := h.parker.mpr (by rcases hpc with hpc | hpc <;> rw [hpc] <;> rfl)
    exact ⟨nofun, fun _ => .inl rfl, nofun, nofun, hnotU, ⟨fun _ => rfl, fun _ => hparker⟩,
      h.unparker, nofun, nofun⟩
  · have hword := h.parked (by rw [hpc]; rfl)
    have hunlocked := h.not_unparker (.inr (by rw [hpc]; rfl))
    refine ⟨fun _ => hword, nofun, nofun, nofun, hnotU, ⟨nofun, nofun⟩,
      fun i => ⟨nofun, fun hu => absurd hu (hunlocked i)⟩, nofun, fun _ hn => ?_⟩
    obtain ⟨i, hi⟩ := h.entering hpc hn
    exact ⟨i, by rw [hi]; rfl⟩
  · have hword := h.parked (by rw [hpc]; rfl)
    have hunlocked := h.not_unparker (.inl hfree)
    exact ⟨fun _ => hword, nofun, nofun, nofun, hnotU, ⟨fun _ => rfl, fun _ => rfl⟩,
      fun i => ⟨nofun, fun hu => absurd hu (hunlocked i)⟩, nofun, nofun⟩
  · have hparker := h.parker.mpr (by rw [hpc]; rfl)
    refine ⟨fun _ => .inl hw, nofun, nofun, nofun, hnotU, ⟨fun _ => rfl, fun _ => hparker⟩,
      h.unparker, fun _ hn => ?_, nofun⟩
    cases hw.symm.trans hn
  · have hparker := h.parker.mpr (by rw [hpc]; rfl)
    exact ⟨nofun, fun _ => .inl rfl, nofun, nofun, hnotU, ⟨fun _ => rfl, fun _ => hparker⟩,
      h.unparker, nofun, nofun⟩
  · have hword := h.unparked (by rw [hpc]; rfl)
    have hunlocked := h.not_unparker (.inr (by rw [hpc]; rfl))
    exact ⟨nofun, fun _ => hword, nofun, nofun, hnotU, ⟨nofun, nofun⟩,
      fun i => ⟨nofun, fun hu => absurd hu (hunlocked i)⟩, nofun, nofun⟩

theorem shape_wakeup (h : Shape s) (ht : wakeup s = some t) : Shape t := by
  obtain ⟨hparked, hunparked, hswap, hnot, hnotU, hparker, hunparker, hentering, hwaiting⟩ := h
  unfold wakeup at ht
  split at ht <;> cases ht
  rename_i hpc
  rw [hpc] at hparked hparker
  exact ⟨hparked, nofun, nofun, nofun, hnotU, hparker, hunparker, nofun, nofun⟩

theorem moveUnpark_self {c : UnparkPc} : (moveUnpark s i c).unparks i = c :=
  Function.update_self ..

theorem moveUnpark_of_ne {c : UnparkPc} {j : Nat} (hne : j ≠ i) :
    (moveUnpark s i c).unparks j = s.unparks j :=
  Function.update_of_ne hne ..

theorem noPanic_move {c : UnparkPc} (h : ∀ j, s.unparks j ≠ .panicked) (hc : c ≠ .panicked)
    (j : Nat) : (moveUnpark s i c).unparks j ≠ .panicked := by
  rcases eq_or_ne j i with rfl | hne
  · rwa [moveUnpark_self]
  · rw [moveUnpark_of_ne hne]
    exact h j

/-- A call of `unpark` that neither has the lock nor gets it moves on. -/
theorem unlock_move {c : UnparkPc} (hold : s.unparks i ≠ .unlock) (hc : c ≠ .unlock) (j : Nat) :
    (moveUnpark s i c).unparks j = .unlock ↔ s.unparks j = .unlock := by
  rcases eq_or_ne j i with rfl | hne
  · rw [moveUnpark_self]
    exact iff_of_false hc hold
  · rw [moveUnpark_of_ne hne]

/-- A call of `unpark` moves on, to which neither the lock nor a notification is due. -/
theorem Shape.moveUnpark {c : UnparkPc} (h : Shape s) (hunlock : s.unparks i ≠ .unlock)
    (howes : (s.unparks i).owes = false) (hc : c ≠ .panicked) (hc' : c ≠ .unlock) :
    Shape (moveUnpark s i c) where
  parked := h.parked
  unparked := h.unparked
  swap := h.swap
  noPanic := h.noPanic
  noPanicUnpark := noPanic_move h.noPanicUnpark hc
  parker := h.parker
  unparker j := (h.unparker j).trans (unlock_move hunlock hc' j).symm
  entering hp hw := by
    refine exists_update (P := fun c : UnparkPc => c = .lock) (h.entering hp hw) fun hi => ?_
    rw [hi] at howes
    cases howes
  waiting hp hw := by
    refine exists_update (P := fun c : UnparkPc => c.owes = true) (h.waiting hp hw) fun hi => ?_
    rw [hi] at howes
    cases howes

theorem shape_unpark (h : Shape s) (ht : unpark s i = some t) : Shape t := by
  unfold unpark at ht
  split at ht <;> cases ht
  rename_i hpc
  exact h.moveUnpark (by simp [hpc]) (by rw [hpc]; rfl) nofun nofun

/-- What a call of `unpark` does to the token and the lock at each of its points. -/
theorem unparkStep_cases (ht : unparkStep s i = some t) :
    (s.unparks i = .swap ∧ s.word = EMPTY ∧
      t = moveUnpark { s with word := NOTIFIED, sets := s.sets ++ [i] } i (.returned true)) ∨
    (s.unparks i = .swap ∧ s.word = NOTIFIED ∧ t = moveUnpark s i (.returned false)) ∨
    (s.unparks i = .swap ∧ s.word = PARKED ∧
      t = moveUnpark { s with word := NOTIFIED, sets := s.sets ++ [i] } i .lock) ∨
    (s.unparks i = .swap ∧ s.word ≠ EMPTY ∧ s.word ≠ NOTIFIED ∧ s.word ≠ PARKED ∧
      t = moveUnpark { s with word := NOTIFIED } i .panicked) ∨
    (s.unparks i = .lock ∧ s.holder = none ∧
      t = moveUnpark { s with holder := some (.unpark i) } i .unlock) ∨
    (s.unparks i = .unlock ∧ t = moveUnpark { s with holder := none } i .notify) ∨
    (s.unparks i = .notify ∧
      t = moveUnpark { s with pc := if s.pc = .wait then .relock else s.pc } i
        (.returned true)) := by
  unfold unparkStep at ht
  dsimp only at ht
  split at ht
  case h_1 hpc =>
    split at ht
    · exact .inl ⟨hpc, ‹_›, (Option.some.inj ht).symm⟩
    split at ht
    · rename_i hw
      refine .inr (.inl ⟨hpc, hw, ?_⟩)
      rw [← Option.some.inj ht, ← hw]
    split at ht
    · exact .inr (.inr (.inl ⟨hpc, ‹_›, (Option.some.inj ht).symm⟩))
    · exact .inr (.inr (.inr (.inl ⟨hpc, ‹_›, ‹_›, ‹_›, (Option.some.inj ht).symm⟩)))
  case h_2 hpc =>
    split at ht
    · exact .inr (.inr (.inr (.inr (.inl ⟨hpc, ‹_›, (Option.some.inj ht).symm⟩))))
    · cases ht
  case h_3 hpc =>
    exact .inr (.inr (.inr (.inr (.inr (.inl ⟨hpc, (Option.some.inj ht).symm⟩)))))
  case h_4 hpc =>
    exact .inr (.inr (.inr (.inr (.inr (.inr ⟨hpc, (Option.some.inj ht).symm⟩)))))
  all_goals cases ht

theorem shape_unparkStep (h : Shape s) (ht : unparkStep s i = some t) : Shape t := by
  have hnotU := h.noPanicUnpark
  obtain ⟨hi, hw, rfl⟩ | ⟨hi, hw, rfl⟩ | ⟨hi, hw, rfl⟩ | ⟨hi, hw1, hw2, hw3, rfl⟩ |
    ⟨hi, hfree, rfl⟩ | ⟨hi, rfl⟩ | ⟨hi, rfl⟩ := unparkStep_cases ht
  · -- the thread is not parked: nobody to wake
    have hpc : s.pc.isParked = false := by
      cases hp : s.pc.isParked with
      | true => exact absurd (h.parked hp) (by simp [hw, EMPTY, PARKED, NOTIFIED])
      | false => rfl
    have hunlock := unlock_move (s := s) (i := i) (c := .returned true) (by simp [hi]) nofun
    refine ⟨fun _ => .inr rfl, fun _ => .inr rfl, fun _ => rfl, h.noPanic,
      noPanic_move hnotU nofun, h.parker, fun j => (h.unparker j).trans (hunlock j).symm,
      fun hp => ?_, fun hp => ?_⟩
    all_goals cases hpc.symm.trans (congrArg Pc.isParked hp)
  · exact h.moveUnpark (by simp [hi]) (by rw [hi]; rfl) nofun nofun
  · -- this call owes the notification from here on
    have hself : (moveUnpark s i .lock).unparks i = .lock := moveUnpark_self
    have hunlock := unlock_move (s := s) (i := i) (c := .lock) (by simp [hi]) nofun
    exact ⟨fun _ => .inr rfl, fun _ => .inr rfl, fun _ => rfl, h.noPanic, noPanic_move hnotU nofun,
      h.parker, fun j => (h.unparker j).trans (hunlock j).symm, fun _ _ => ⟨i, hself⟩,
      fun _ _ => ⟨i, congrArg UnparkPc.owes hself⟩⟩
  · -- the word has no fourth value
    cases hp : s.pc.isParked with
    | true => exact absurd (h.parked hp) (by simp [hw2, hw3])
    | false => exact absurd (h.unparked hp) (by simp [hw1, hw2])
  · have hparker : s.pc.holdsLock ≠ true := fun hp => by cases hfree.symm.trans (h.parker.mpr hp)
    have hunlocked := h.not_unparker (.inl hfree)
    refine ⟨h.parked, h.unparked, h.swap, h.noPanic, noPanic_move hnotU nofun,
      ⟨nofun, fun hp => absurd hp hparker⟩, fun j => ?_, fun hp _ => ?_, fun hp hw => ?_⟩
    · rcases eq_or_ne j i with rfl | hne
      · simp [moveUnpark]
      · simp [moveUnpark, hne, hne.symm, hunlocked j]
    · exact absurd (by rw [show s.pc = .enter from hp]; rfl) hparker
    · exact exists_update (P := fun c : UnparkPc => c.owes = true) (h.waiting hp hw) fun _ => rfl
  · have hheld : s.holder = some (.unpark i) := (h.unparker i).mpr hi
    have hparker : s.pc.holdsLock ≠ true := fun hp => by cases hheld.symm.trans (h.parker.mpr hp)
    refine ⟨h.parked, h.unparked, h.swap, h.noPanic, noPanic_move hnotU nofun,
      ⟨nofun, fun hp => absurd hp hparker⟩, fun j => ⟨nofun, fun hu => ?_⟩, fun hp _ => ?_,
      fun hp hw => ?_⟩
    · rcases eq_or_ne j i with rfl | hne
      · simp [moveUnpark] at hu
      · have hj : s.unparks j = .unlock := by simpa [moveUnpark, hne] using hu
        cases hheld.symm.trans ((h.unparker j).mpr hj)
        exact absurd rfl hne
    · exact absurd (by rw [show s.pc = .enter from hp]; rfl) hparker
    · exact exists_update (P := fun c : UnparkPc => c.owes = true) (h.waiting hp hw) fun _ => rfl
  · have hunlock := unlock_move (s := s) (i := i) (c := .returned true) (by simp [hi]) nofun
    by_cases hpc : s.pc = .wait
    · have hparked := h.parked (by rw [hpc]; rfl)
      have hparker := h.not_parker (by rw [hpc]; rfl)
      rw [if_pos hpc]
      exact ⟨fun _ => hparked, nofun, nofun, nofun, noPanic_move hnotU nofun,
        ⟨fun hl => absurd hl hparker, nofun⟩, fun j => (h.unparker j).trans (hunlock j).symm,
        nofun, nofun⟩
    · rw [if_neg hpc]
      refine ⟨h.parked, h.unparked, h.swap, h.noPanic, noPanic_move hnotU nofun, h.parker,
        fun j => (h.unparker j).trans (hunlock j).symm, ?_, fun hp => absurd hp hpc⟩
      exact fun hp hw => exists_update (P := fun c : UnparkPc => c = .lock) (h.entering hp hw)
        (by simp [hi])

theorem shape_step {a : Act} (h : Shape s) (ht : step s a = some t) : Shape t := by
  cases a with
  | park | parkTimeout _ | parkDeadline _ _ => exact shape_start h ht
  | parkStep => exact shape_parkStep h ht
  | wakeup => exact shape_wakeup h ht
  | unpark i => exact shape_unpark h ht
  | unparkStep i => exact shape_unparkStep h ht

theorem tokens_start (h : Tokens s) (ht : start s timeout = some t) : Tokens t := by
  obtain ⟨hcount, hset, hsetOnce, htaken, htakenOnce, hcurrent, hlater⟩ := h
  unfold start at ht
  split at ht <;> cases ht
  rename_i hpc
  refine ⟨hcount, hset, hsetOnce, fun j => ?_, htakenOnce, fun _ => ⟨by simp, ?_⟩, ?_⟩
  · simpa [hpc] using htaken j
  · exact hlater s.calls (Nat.le_refl _)
  · exact fun j hj => hlater j (Nat.le_of_succ_le hj)

/-- The parking thread, or the lock, moves on. -/
theorem Tokens.goto {pc : Pc} {holder : Option Holder} {word : Nat} (h : Tokens s)
    (hword : word = NOTIFIED ↔ s.word = NOTIFIED) (hpc : s.pc ≠ .idle ∨ pc = s.pc)
    (htrue : pc = .unlock true ↔ s.pc = .unlock true) : Tokens { s with word, holder, pc } where
  count := by
    simp only [hword]
    exact h.count
  set := h.set
  setOnce := h.setOnce
  taken j := by
    simp only [htrue]
    exact h.taken j
  takenOnce := h.takenOnce
  current hne := h.current (hpc.elim id fun heq => heq ▸ hne)
  later := h.later

/-- The call in progress returns. -/
theorem Tokens.return {res : Bool} (h : Tokens s) (hpc : s.pc ≠ .idle)
    (htrue : s.pc = .unlock true ↔ res = true) : Tokens (s.return res) := by
  obtain ⟨hpos, hnone⟩ := h.current hpc
  refine ⟨h.count, h.set, h.setOnce, fun j => (h.taken j).trans ?_, h.takenOnce, ?_, fun j hj => ?_⟩
  · rcases eq_or_ne j (s.calls - 1) with rfl | hne
    · have hlast : s.calls - 1 + 1 = s.calls := Nat.sub_add_cancel hpos
      simp [State.return, hnone, htrue, hlast]
    · have hne' : j + 1 ≠ s.calls := by omega
      simp [State.return, hne, hne']
  · exact fun hne => absurd rfl hne
  · have hne : j ≠ s.calls - 1 := by
      have hle : s.calls ≤ j := hj
      omega
    exact (Function.update_of_ne hne ..).trans (h.later j hj)

/-- The call in progress takes the token. -/
theorem Tokens.take (h : Tokens s) (hw : s.word = NOTIFIED) (hpc : s.pc ≠ .idle)
    (htrue : s.pc ≠ .unlock true) : Tokens { s.taken with pc := .unlock true } := by
  obtain ⟨hpos, hnone⟩ := h.current hpc
  have hcount := h.count
  rw [if_pos hw] at hcount
  have hout : s.calls - 1 ∉ s.takes := fun hmem => by
    simpa [hnone, htrue] using (h.taken _).mp hmem
  refine ⟨?_, h.set, h.setOnce, fun j => ?_, ?_, fun _ => ⟨hpos, hnone⟩, h.later⟩
  · simpa [State.taken, EMPTY, NOTIFIED] using hcount
  · have hlast : j = s.calls - 1 ↔ j + 1 = s.calls := by omega
    simp [State.taken, h.taken j, htrue, hlast]
  · refine List.nodup_append.mpr ⟨h.takenOnce, by simp, ?_⟩
    rintro j hj k hk rfl
    exact hout (List.mem_singleton.mp hk ▸ hj)

theorem tokens_parkStep (hs : Shape s) (h : Tokens s) (ht : parkStep s = some t) : Tokens t := by
  obtain ⟨hpc, hw, rfl⟩ | ⟨hpc, hw, rfl | rfl⟩ | ⟨hpc, hfree, rfl⟩ | ⟨hpc, hw, rfl⟩ |
    ⟨hpc, hw, rfl⟩ | ⟨hpc, hw, rfl⟩ | ⟨hpc, rfl⟩ | ⟨hpc, hfree, rfl⟩ | ⟨hpc, hw, rfl | rfl⟩ |
    ⟨res, hpc, rfl⟩ := parkStep_cases hs ht
  · exact (h.take hw (by simp [hpc]) (by simp [hpc])).return nofun (by simp)
  · exact h.return (by simp [hpc]) (by simp [hpc])
  · exact h.goto .rfl (by simp [hpc]) (by simp [hpc])
  · exact h.goto .rfl (by simp [hpc]) (by simp [hpc])
  · exact h.goto (by simp [hw, EMPTY, PARKED, NOTIFIED]) (by simp [hpc]) (by simp [hpc])
  · exact h.goto .rfl (by simp [hpc]) (by simp [hpc])
  · rcases hpc with hpc | hpc
    · exact h.take hw (by simp [hpc]) (by simp [hpc])
    · exact h.take hw (by simp [hpc]) (by simp [hpc])
  · exact h.goto .rfl (by simp [hpc]) (by simp [hpc])
  · exact h.goto .rfl (by simp [hpc]) (by simp [hpc])
  · exact h.goto .rfl (by simp [hpc]) (by simp [hpc])
  · exact h.goto (by simp [hw, EMPTY, PARKED, NOTIFIED]) (by simp [hpc]) (by simp [hpc])
  · have hgoto : Tokens { s with holder := none } := h.goto .rfl (.inr rfl) .rfl
    exact hgoto.return (by simp [hpc]) (by simp [hpc])

theorem tokens_wakeup (h : Tokens s) (ht : wakeup s = some t) : Tokens t := by
  unfold wakeup at ht
  split at ht <;> cases ht
  rename_i hpc
  exact h.goto .rfl (by simp [hpc]) (by simp [hpc])

/-- The call of `unpark` has set the token. -/
def UnparkPc.hasSet (c : UnparkPc) : Prop := c = .returned true ∨ c.owes = true

/-- A call of `unpark` moves on. -/
theorem Tokens.moveUnpark {c : UnparkPc} (h : Tokens s) (hset : c.hasSet ↔ (s.unparks i).hasSet) :
    Tokens (moveUnpark s i c) := by
  refine { h with set := fun j => (h.set j).trans ?_ }
  rcases eq_or_ne j i with rfl | hne
  · rw [moveUnpark_self]
    exact hset.symm
  · rw [moveUnpark_of_ne hne]

/-- A call of `unpark` sets the token. -/
theorem Tokens.set_token {c : UnparkPc} (h : Tokens s) (hw : s.word ≠ NOTIFIED)
    (hold : ¬(s.unparks i).hasSet) (hset : c.hasSet) :
    Tokens (Parking.moveUnpark { s with word := NOTIFIED, sets := s.sets ++ [i] } i c) := by
  have hcount := h.count
  rw [if_neg hw] at hcount
  have hout : i ∉ s.sets := fun hmem => hold ((h.set i).mp hmem)
  refine { h with count := ?_, set := fun j => ?_, setOnce := ?_ }
  · simpa [Parking.moveUnpark] using hcount
  · rcases eq_or_ne j i with rfl | hne
    · rw [moveUnpark_self]
      exact iff_of_true (List.mem_append_right _ (List.mem_singleton_self j)) hset
    · rw [moveUnpark_of_ne hne]
      simpa [Parking.moveUnpark, hne] using h.set j
  · refine List.nodup_append.mpr ⟨h.setOnce, by simp, ?_⟩
    rintro j hj k hk rfl
    exact hout (List.mem_singleton.mp hk ▸ hj)

theorem tokens_unpark (h : Tokens s) (ht : unpark s i = some t) : Tokens t := by
  unfold unpark at ht
  split at ht <;> cases ht
  rename_i hpc
  exact h.moveUnpark (by simp [hpc, UnparkPc.hasSet, UnparkPc.owes])

theorem tokens_unparkStep (hs : Shape s) (h : Tokens s) (ht : unparkStep s i = some t) :
    Tokens t := by
  have hnotU := shape_unparkStep hs ht
  obtain ⟨hi, hw, rfl⟩ | ⟨hi, hw, rfl⟩ | ⟨hi, hw, rfl⟩ | ⟨hi, hw1, hw2, hw3, rfl⟩ |
    ⟨hi, hfree, rfl⟩ | ⟨hi, rfl⟩ | ⟨hi, rfl⟩ := unparkStep_cases ht
  · exact h.set_token (by simp [hw, EMPTY, NOTIFIED]) (by simp [hi, UnparkPc.hasSet, UnparkPc.owes])
      (.inl rfl)
  · exact h.moveUnpark (by simp [hi, UnparkPc.hasSet, UnparkPc.owes])
  · exact h.set_token (by simp [hw, PARKED, NOTIFIED]) (by simp [hi, UnparkPc.hasSet, UnparkPc.owes])
      (.inr rfl)
  · exact absurd moveUnpark_self (hnotU.noPanicUnpark i)
  · have hgoto : Tokens { s with holder := some (.unpark i) } := h.goto .rfl (.inr rfl) .rfl
    exact hgoto.moveUnpark (by simp [hi, UnparkPc.hasSet, UnparkPc.owes])
  · have hgoto : Tokens { s with holder := none } := h.goto .rfl (.inr rfl) .rfl
    exact hgoto.moveUnpark (by simp [hi, UnparkPc.hasSet, UnparkPc.owes])
  · have hgoto : Tokens { s with pc := if s.pc = .wait then .relock else s.pc } := by
      split
      · exact h.goto .rfl (by simp [*]) (by simp [*])
      · exact h
    exact hgoto.moveUnpark (by simp [hi, UnparkPc.hasSet, UnparkPc.owes])

theorem tokens_step {a : Act} (hs : Shape s) (h : Tokens s) (ht : step s a = some t) :
    Tokens t := by
  cases a with
  | park | parkTimeout _ | parkDeadline _ _ => exact tokens_start h ht
  | parkStep => exact tokens_parkStep hs h ht
  | wakeup => exact tokens_wakeup h ht
  | unpark i => exact tokens_unpark h ht
  | unparkStep i => exact tokens_unparkStep hs h ht

theorem inv_of_reachable (hs : system.Reachable s) : Shape s ∧ Tokens s :=
  hs.invariant (I := fun s => Shape s ∧ Tokens s) ⟨shape_new, tokens_new⟩
    fun _ _ _ h ht => ⟨shape_step h.1 ht, tokens_step h.1 h.2 ht⟩

/-! ## The protocol -/

/-- The history follows the token: a call of `unpark` is recorded when it makes the word
`NOTIFIED` and it was not, a call of `park` when it ends that. -/
structure Recorded (s : State) (a : Act) (t : State) : Prop where
  sets : t.sets = s.sets ∧ (t.word = NOTIFIED → s.word = NOTIFIED) ∨
    ∃ i, a = .unparkStep i ∧ s.unparks i = .swap ∧ s.word ≠ NOTIFIED ∧ t.word = NOTIFIED ∧
      t.sets = s.sets ++ [i]
  takes : t.takes = s.takes ∧ (s.word = NOTIFIED → t.word = NOTIFIED) ∨
    a = .parkStep ∧ s.pc ≠ .idle ∧ s.word = NOTIFIED ∧ t.word ≠ NOTIFIED ∧
      t.takes = s.takes ++ [s.calls - 1]

theorem recorded_parkStep (hs : Shape s) (ht : parkStep s = some t) : Recorded s .parkStep t := by
  have hempty : EMPTY ≠ NOTIFIED := by decide
  obtain ⟨hpc, hw, rfl⟩ | ⟨hpc, hw, rfl | rfl⟩ | ⟨hpc, hfree, rfl⟩ | ⟨hpc, hw, rfl⟩ |
    ⟨hpc, hw, rfl⟩ | ⟨hpc, hw, rfl⟩ | ⟨hpc, rfl⟩ | ⟨hpc, hfree, rfl⟩ | ⟨hpc, hw, rfl | rfl⟩ |
    ⟨res, hpc, rfl⟩ := parkStep_cases hs ht
  · exact ⟨.inl ⟨rfl, fun hn => absurd hn hempty⟩, .inr ⟨rfl, by simp [hpc], hw, hempty, rfl⟩⟩
  · exact ⟨.inl ⟨rfl, id⟩, .inl ⟨rfl, id⟩⟩
  · exact ⟨.inl ⟨rfl, id⟩, .inl ⟨rfl, id⟩⟩
  · exact ⟨.inl ⟨rfl, id⟩, .inl ⟨rfl, id⟩⟩
  · refine ⟨.inl ⟨rfl, fun hn => ?_⟩, .inl ⟨rfl, fun hn => ?_⟩⟩
    · cases hn
    · cases hw.symm.trans hn
  · exact ⟨.inl ⟨rfl, id⟩, .inl ⟨rfl, id⟩⟩
  · have hne : s.pc ≠ .idle := by rcases hpc with hpc | hpc <;> simp [hpc]
    exact ⟨.inl ⟨rfl, fun hn => absurd hn hempty⟩, .inr ⟨rfl, hne, hw, hempty, rfl⟩⟩
  · exact ⟨.inl ⟨rfl, id⟩, .inl ⟨rfl, id⟩⟩
  · exact ⟨.inl ⟨rfl, id⟩, .inl ⟨rfl, id⟩⟩
  · exact ⟨.inl ⟨rfl, id⟩, .inl ⟨rfl, id⟩⟩
  · refine ⟨.inl ⟨rfl, fun hn => ?_⟩, .inl ⟨rfl, fun hn => ?_⟩⟩
    · cases hn
    · cases hw.symm.trans hn
  · exact ⟨.inl ⟨rfl, id⟩, .inl ⟨rfl, id⟩⟩

theorem recorded_unparkStep (hs : Shape s) (ht : unparkStep s i = some t) :
    Recorded s (.unparkStep i) t := by
  have hnotU := shape_unparkStep hs ht
  obtain ⟨hi, hw, rfl⟩ | ⟨hi, hw, rfl⟩ | ⟨hi, hw, rfl⟩ | ⟨hi, hw1, hw2, hw3, rfl⟩ |
    ⟨hi, hfree, rfl⟩ | ⟨hi, rfl⟩ | ⟨hi, rfl⟩ := unparkStep_cases ht
  · exact ⟨.inr ⟨i, rfl, hi, by rw [hw]; decide, rfl, rfl⟩, .inl ⟨rfl, fun _ => rfl⟩⟩
  · exact ⟨.inl ⟨rfl, id⟩, .inl ⟨rfl, id⟩⟩
  · exact ⟨.inr ⟨i, rfl, hi, by rw [hw]; decide, rfl, rfl⟩, .inl ⟨rfl, fun _ => rfl⟩⟩
  · exact absurd moveUnpark_self (hnotU.noPanicUnpark i)
  · exact ⟨.inl ⟨rfl, id⟩, .inl ⟨rfl, id⟩⟩
  · exact ⟨.inl ⟨rfl, id⟩, .inl ⟨rfl, id⟩⟩
  · exact ⟨.inl ⟨rfl, id⟩, .inl ⟨rfl, id⟩⟩

theorem recorded_step {a : Act} (hs : Shape s) (ht : step s a = some t) : Recorded s a t := by
  cases a with
  | park | parkTimeout _ | parkDeadline _ _ =>
    simp only [step, park, parkTimeout, parkDeadline, start] at ht
    split at ht <;> cases ht
    exact ⟨.inl ⟨rfl, id⟩, .inl ⟨rfl, id⟩⟩
  | parkStep => exact recorded_parkStep hs ht
  | wakeup =>
    simp only [step, wakeup] at ht
    split at ht <;> cases ht
    exact ⟨.inl ⟨rfl, id⟩, .inl ⟨rfl, id⟩⟩
  | unpark i =>
    simp only [step, unpark] at ht
    split at ht <;> cases ht
    exact ⟨.inl ⟨rfl, id⟩, .inl ⟨rfl, id⟩⟩
  | unparkStep i => exact recorded_unparkStep hs ht

theorem returned_iff (h : Tokens s) {b : Bool} (hi : s.unparks i = .returned b) :
    b = true ↔ i ∈ s.sets := by
  rw [h.set i, hi]
  simp [UnparkPc.owes]

/-- With the token set, only a call of `unpark` can stand between the thread and its next
step: it owes the notification, or holds the lock. -/
theorem exists_parkStep (h : Shape s) (hw : s.word = NOTIFIED)
    (hidle : ∀ i, (s.unparks i).inProgress = false) (hpc : s.pc ≠ .idle) :
    ∃ t, parkStep s = some t := by
  have hfree : s.pc.holdsLock = false → s.holder = none := by
    intro hl
    cases hh : s.holder with
    | none => rfl
    | some who =>
      cases who with
      | parker => exact absurd (h.parker.1 hh) (by simp [hl])
      | unpark i =>
        have hi := hidle i
        rw [(h.unparker i).1 hh] at hi
        cases hi
  cases hp : s.pc with
  | idle => exact absurd hp hpc
  | panicked => exact absurd hp h.noPanic
  | wait =>
    obtain ⟨i, hi⟩ := h.waiting hp hw
    have hprog := hidle i
    cases hu : s.unparks i <;> simp [hu, UnparkPc.owes, UnparkPc.inProgress] at hi hprog
  | lock | relock =>
    rw [hp] at hfree
    simp [parkStep, hp, hfree rfl]
  | take | swap => simp [parkStep, hp, hw]
  | park => simp [parkStep, hp, hw, EMPTY, NOTIFIED]
  | enter | unlock res => simp [parkStep, hp]
  | check => cases hto : s.timeout <;> simp [parkStep, hp, hto, hw]

/-- In every state reached: nobody has panicked; every step that sets or takes the token is
on record; a call of `unpark` returns `true` exactly when it set the token; the tokens set
are those taken, one call of `park` for each, and the one that is there; these are the
calls that return `true`; and with the token set and no `unpark` under way the thread is
not blocked. -/
theorem parker_tokens (hs : system.Reachable s) :
    (s.pc ≠ .panicked ∧ ∀ i, s.unparks i ≠ .panicked) ∧
    (∀ a t, step s a = some t → Recorded s a t) ∧
    (∀ i b, s.unparks i = .returned b → (b = true ↔ i ∈ s.sets)) ∧
    (s.sets.Nodup ∧ s.takes.Nodup ∧
      s.sets.length = s.takes.length + if s.word = NOTIFIED then 1 else 0) ∧
    (∀ j, j ∈ s.takes ↔ s.results j = some true ∨ s.pc = .unlock true ∧ j + 1 = s.calls) ∧
    (s.word = NOTIFIED → (∀ i, (s.unparks i).inProgress = false) → s.pc ≠ .idle →
      ∃ t, parkStep s = some t) := by
  obtain ⟨hshape, htokens⟩ := inv_of_reachable hs
  refine ⟨⟨hshape.noPanic, hshape.noPanicUnpark⟩, ?_, ?_, ?_, htokens.taken, ?_⟩
  · exact fun a t ht => recorded_step hshape ht
  · exact fun i b hi => returned_iff htokens hi
  · exact ⟨htokens.setOnce, htokens.takenOnce, htokens.count⟩
  · exact exists_parkStep hshape

/-- A call of `unpark` finds the thread parked and is overtaken: the wait ends by itself,
this call of `park` returns `true`, and the notification reaches the next one. -/
def overtaken : List Act :=
  [.parkTimeout 5, .parkStep, .parkStep, .parkStep, .parkStep, .unpark 0, .unparkStep 0, .wakeup,
    .parkStep, .parkStep, .parkStep, .park, .parkStep, .parkStep, .parkStep, .parkStep,
    .unparkStep 0, .unparkStep 0, .unparkStep 0, .parkStep]

theorem parker_tokens_overtaken :
    ∃ s, system.Reachable s ∧ s.pc = .check ∧ s.unparks 0 = .returned true ∧
      s.results 0 = some true ∧ s.sets.length = s.takes.length := by
  obtain ⟨s, -, hs, hpc, hu, hr, hw⟩ := system.exists_of_run
    (P := fun s => s.pc = .check ∧ s.unparks 0 = .returned true ∧ s.results 0 = some true ∧
      s.word = PARKED) overtaken (by decide)
  have h := (parker_tokens hs).2.2.2.1.2.2
  rw [hw] at h
  exact ⟨s, hs, hpc, hu, hr, h⟩

end Cynthia.Parking
