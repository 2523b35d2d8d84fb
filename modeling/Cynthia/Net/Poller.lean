import Cynthia.Lib.Census
import Cynthia.Lib.Transition

/-! `Poller::notify` and `Poller::wait` of `net/polling/mod.rs` and
`net/polling/epoll.rs`, one atomic access or system call at a step. The eventfd
is a counter with a oneshot registration for readability; any number of threads
call `notify`, one at a time is inside `wait`. Calls of `epoll_ctl` succeed. -/

namespace Cynthia.Net

open Transition Census

/-- A call of `notify`: before its compare-exchange, before the write to the
eventfd, and returned. -/
inductive NotifyPc where
  | cas | write | returned
  deriving DecidableEq, Repr

/-- `answered` is history: some `wait` returned `Ok` since the call began. -/
structure Notify where
  pc : NotifyPc
  answered : Bool
  deriving DecidableEq, Repr

/-- The thread in `wait`: before `epoll_wait` returns, then before the read of the
eventfd, before its registration is renewed, before `notified` is reset, and
before the return of `Ok`. -/
inductive WaitPc where
  | idle | epollWait | read | modify | reset | collect
  deriving DecidableEq, Repr

/-- The wait has nothing left that could block or fail. -/
def WaitPc.isPast : WaitPc → Bool
  | .idle | .epollWait => false
  | .read | .modify | .reset | .collect => true

structure Poller where
  notified : Bool
  eventFd : Nat
  armed : Bool
  wait : WaitPc
  calls : Nat → Notify
  started : Nat

def Poller.new : Poller := ⟨false, 0, true, .idle, fun _ => ⟨.returned, true⟩, 0⟩

/-- The largest value of an eventfd; a write that would pass it fails and changes nothing. -/
def eventFdMax : Nat := 2 ^ 64 - 2

def eventFdWrite (n : Nat) : Nat := if n < eventFdMax then n + 1 else n

theorem eventFdWrite_pos (n : Nat) : 0 < eventFdWrite n := by
  unfold eventFdWrite
  split
  · omega
  · rename_i hfull
    exact Nat.lt_of_lt_of_le (by decide) (Nat.le_of_not_lt hfull)

inductive Act where
  | notify
  | notifyStep (call : Nat)
  | wait
  | epollWait (delivered : Bool)
  | waitFails
  | waitStep
  deriving DecidableEq, Repr

namespace Poller

def moveCall (p : Poller) (call : Nat) (pc : NotifyPc) : Poller :=
  { p with calls := Function.update p.calls call { p.calls call with pc := pc } }

/-- `notify` after its first step. -/
def notifyStep (p : Poller) (call : Nat) : Option Poller :=
  match (p.calls call).pc with
  | .cas =>
    if p.notified then some (p.moveCall call .returned)
    else some ({ p with notified := true }.moveCall call .write)
  | .write => some ({ p with eventFd := eventFdWrite p.eventFd }.moveCall call .returned)
  | .returned => none

/-- The steps of `wait` after `epoll_wait`. -/
def waitStep (p : Poller) : Option Poller :=
  match p.wait with
  | .read => some { p with eventFd := 0, wait := .modify }
  | .modify => some { p with armed := true, wait := .reset }
  | .reset => some { p with notified := false, wait := .collect }
  | .collect =>
    some { p with wait := .idle, calls := fun call => { p.calls call with answered := true } }
  | .idle | .epollWait => none

/-- `epoll_wait` would not block for lack of a readable and armed eventfd. -/
def Ready (p : Poller) : Prop := 0 < p.eventFd ∧ p.armed = true

instance (p : Poller) : Decidable p.Ready := inferInstanceAs (Decidable (_ ∧ _))

/-- `epoll_wait` returns with the event of the eventfd among those delivered, which
ends its registration, or for another reason: another event or the timeout. It
fails by `EINTR`, and `wait` may fail before it when the timer is set. -/
def step (p : Poller) : Act → Option Poller
  | .notify =>
    some { p with calls := Function.update p.calls p.started ⟨.cas, false⟩, started := p.started + 1 }
  | .notifyStep call => p.notifyStep call
  | .wait => if p.wait = .idle then some { p with wait := .epollWait } else none
  | .epollWait delivered =>
    if p.wait = .epollWait then
      if delivered then
        if p.Ready then some { p with armed := false, wait := .read } else none
      else some { p with wait := .read }
    else none
  | .waitFails => if p.wait = .epollWait then some { p with wait := .idle } else none
  | .waitStep => p.waitStep

def system : System Poller Act := ⟨.new, step⟩

/-- A call that is past its compare-exchange. -/
def Swapped (p : Poller) (call : Nat) : Prop := (p.calls call).pc ≠ .cas

/-- Somebody has set `notified` and is about to write to the eventfd. -/
def Writing (p : Poller) : Prop := ∃ call, (p.calls call).pc = .write

/-- A set flag that no writer is about to back up stands for a readable eventfd or
for a wait that has drained it and is about to reset the flag; a disarmed
registration is renewed by the wait in progress; and the flag stays set from the
compare-exchange of a call up to the return of a wait. -/
structure Inv (p : Poller) : Prop where
  fresh : Fresh ⟨.returned, true⟩ p.started p.calls
  backed : p.notified = true → p.Writing ∨ 0 < p.eventFd ∨ p.wait = .modify ∨ p.wait = .reset
  rearmed : p.armed = false → p.wait = .read ∨ p.wait = .modify
  flagged : ∀ call, p.Swapped call → (p.calls call).answered = false →
    p.notified = true ∨ p.wait = .collect

theorem inv_new : Inv new where
  fresh _ _ := rfl
  backed h := by cases h
  rearmed h := by cases h
  flagged _ _ h := by cases h

theorem moveCall_pc (p : Poller) (call d : Nat) (pc : NotifyPc) :
    ((p.moveCall call pc).calls d).pc = if d = call then pc else (p.calls d).pc := by
  by_cases hd : d = call
  · subst hd
    simp [moveCall]
  · simp [moveCall, hd]

theorem moveCall_answered (p : Poller) (call d : Nat) (pc : NotifyPc) :
    ((p.moveCall call pc).calls d).answered = (p.calls d).answered := by
  by_cases hd : d = call
  · subst hd
    simp [moveCall]
  · simp [moveCall, hd]

theorem fresh_moveCall {p : Poller} (h : Inv p) {call : Nat} {pc : NotifyPc}
    (hpc : (p.calls call).pc ≠ .returned) :
    Fresh ⟨.returned, true⟩ p.started (p.moveCall call pc).calls := by
  refine h.fresh.update (h.fresh.lt fun hidle => hpc ?_)
  rw [hidle]

/-- A writer other than the one that moves still stands before its write. -/
theorem Writing.moveCall {p : Poller} (h : p.Writing) {call : Nat} {pc : NotifyPc}
    (hcall : (p.calls call).pc ≠ .write) : (p.moveCall call pc).Writing := by
  obtain ⟨d, hd⟩ := h
  refine ⟨d, ?_⟩
  have hne : d ≠ call := fun e => hcall (e ▸ hd)
  rw [moveCall_pc, if_neg hne, hd]

/-- A call that moves within its part after the compare-exchange, or makes it
while the flag is set. -/
theorem Inv.flagged_moveCall {p : Poller} (h : Inv p) {call : Nat} {pc : NotifyPc}
    (hset : p.notified = true ∨ p.Swapped call) (d : Nat)
    (hd : (p.moveCall call pc).Swapped d)
    (ha : ((p.moveCall call pc).calls d).answered = false) :
    p.notified = true ∨ p.wait = .collect := by
  rw [moveCall_answered] at ha
  rcases hset with hset | hset
  · exact .inl hset
  · refine h.flagged d ?_ ha
    rw [Swapped, moveCall_pc] at hd
    by_cases he : d = call
    · rwa [he]
    · rwa [if_neg he] at hd

theorem inv_notifyStep {p q : Poller} {call : Nat} (h : Inv p)
    (hq : p.notifyStep call = some q) : Inv q := by
  unfold notifyStep at hq
  split at hq
  · rename_i hpc
    have hnw : (p.calls call).pc ≠ .write := by rw [hpc]; decide
    have hnr : (p.calls call).pc ≠ .returned := by rw [hpc]; decide
    split at hq
    · rename_i hset
      obtain rfl := Option.some.inj hq
      refine ⟨fresh_moveCall h hnr, fun hn => ?_, h.rearmed, h.flagged_moveCall (.inl hset)⟩
      rcases h.backed hn with hw | hrest
      · exact .inl (hw.moveCall hnw)
      · exact .inr hrest
    · obtain rfl := Option.some.inj hq
      refine ⟨fresh_moveCall h hnr, fun _ => .inl ⟨call, ?_⟩, h.rearmed, fun _ _ _ => .inl rfl⟩
      rw [moveCall_pc, if_pos rfl]
  · rename_i hpc
    obtain rfl := Option.some.inj hq
    refine ⟨fresh_moveCall h (by rw [hpc]; decide),
      fun _ => .inr (.inl (eventFdWrite_pos p.eventFd)), h.rearmed, ?_⟩
    refine Inv.flagged_moveCall (p := p) h (.inr ?_)
    rw [Swapped, hpc]
    decide
  · cases hq

theorem inv_waitStep {p q : Poller} (h : Inv p) (hq : p.waitStep = some q) : Inv q := by
  obtain ⟨hfresh, hbacked, hrearmed, hflagged⟩ := h
  unfold waitStep at hq
  split at hq
  · rename_i hpc
    obtain rfl := Option.some.inj hq
    refine ⟨hfresh, fun _ => .inr (.inr (.inl rfl)), fun _ => .inr rfl, fun d hd ha => ?_⟩
    have := hflagged d hd ha
    rw [hpc] at this
    simpa using this
  · rename_i hpc
    obtain rfl := Option.some.inj hq
    refine ⟨hfresh, fun _ => .inr (.inr (.inr rfl)), fun harm => Bool.noConfusion harm,
      fun d hd ha => ?_⟩
    have := hflagged d hd ha
    rw [hpc] at this
    simpa using this
  · rename_i hpc
    obtain rfl := Option.some.inj hq
    refine ⟨hfresh, fun hn => Bool.noConfusion hn, fun harm => ?_, fun _ _ _ => .inr rfl⟩
    have := hrearmed harm
    rw [hpc] at this
    simp at this
  · rename_i hpc
    obtain rfl := Option.some.inj hq
    refine ⟨fun d hd => ?_, fun hn => ?_, fun harm => ?_, fun d hd ha => absurd ha (by simp)⟩
    · show Notify.mk (p.calls d).pc true = _
      rw [hfresh d hd]
    · have := hbacked hn
      rw [hpc] at this
      rcases this with hw | hfd | hx | hx
      · exact .inl hw
      · exact .inr (.inl hfd)
      · cases hx
      · cases hx
    · have := hrearmed harm
      rw [hpc] at this
      simp at this
  · cases hq
  · cases hq

theorem Inv.armed {p : Poller} (h : Inv p) (hpc : p.wait = .idle ∨ p.wait = .epollWait) :
    p.armed = true := by
  by_contra harm
  have hlate := h.rearmed (Bool.not_eq_true _ ▸ harm)
  rcases hpc with hpc | hpc <;> rw [hpc] at hlate <;> simp at hlate

/-- A step of `wait` up to and including `epoll_wait`. -/
theorem Inv.setWait {p : Poller} (h : Inv p) {armed : Bool} {pc : WaitPc}
    (hpc : p.wait = .idle ∨ p.wait = .epollWait) (harm : armed = false → pc = .read) :
    Inv { p with armed := armed, wait := pc } := by
  refine ⟨h.fresh, fun hn => ?_, fun ha => .inl (harm ha), fun d hd ha => ?_⟩
  · rcases h.backed hn with hw | hfd | hx | hx
    · exact .inl hw
    · exact .inr (.inl hfd)
    · rw [hx] at hpc
      simp at hpc
    · rw [hx] at hpc
      simp at hpc
  · rcases h.flagged d hd ha with hset | hx
    · exact .inl hset
    · rw [hx] at hpc
      simp at hpc

theorem inv_notify {p : Poller} (h : Inv p) : Inv { p with
    calls := Function.update p.calls p.started ⟨.cas, false⟩, started := p.started + 1 } := by
  have hslot := h.fresh p.started (Nat.le_refl _)
  refine ⟨h.fresh.start, fun hn => ?_, h.rearmed, fun d hd ha => ?_⟩
  · rcases h.backed hn with ⟨d, hd⟩ | hrest
    · refine .inl ⟨d, ?_⟩
      have hne : d ≠ p.started := by
        rintro rfl
        rw [hslot] at hd
        cases hd
      show (Function.update p.calls p.started _ d).pc = _
      rw [Function.update_of_ne hne, hd]
    · exact .inr hrest
  · have hne : d ≠ p.started := by
      rintro rfl
      exact hd (by simp)
    have heq : Function.update p.calls p.started ⟨.cas, false⟩ d = p.calls d :=
      Function.update_of_ne hne ..
    simp only [Swapped, heq] at hd ha
    exact h.flagged d hd ha

theorem inv_step {p q : Poller} {a : Act} (h : Inv p) (hq : step p a = some q) : Inv q := by
  cases a with
  | notify =>
    obtain rfl := Option.some.inj hq
    exact inv_notify h
  | notifyStep call => exact inv_notifyStep h hq
  | wait =>
    simp only [step] at hq
    split at hq
    · rename_i hpc
      obtain rfl := Option.some.inj hq
      exact h.setWait (.inl hpc) fun harm => absurd harm (by rw [h.armed (.inl hpc)]; decide)
    · cases hq
  | epollWait delivered =>
    simp only [step] at hq
    split at hq
    · rename_i hpc
      split at hq
      · split at hq
        · obtain rfl := Option.some.inj hq
          exact h.setWait (.inr hpc) fun _ => rfl
        · cases hq
      · obtain rfl := Option.some.inj hq
        exact h.setWait (.inr hpc) fun _ => rfl
    · cases hq
  | waitFails =>
    simp only [step] at hq
    split at hq
    · rename_i hpc
      obtain rfl := Option.some.inj hq
      exact h.setWait (.inr hpc) fun harm => absurd harm (by rw [h.armed (.inr hpc)]; decide)
    · cases hq
  | waitStep => exact inv_waitStep h hq

theorem inv_of_reachable {p : Poller} (hp : system.Reachable p) : Inv p :=
  hp.invariant (M := system) inv_new fun _ _ _ => inv_step

/-! ## No notification is lost -/

/-- The steps left to the wait in progress bring it to the return of `Ok`. -/
def Returns (p : Poller) (call : Nat) : Prop :=
  ∃ n q, system.runFrom p (List.replicate n .waitStep) = some q ∧ (q.calls call).answered = true

/-- The notification made by a call is not lost: a wait has returned `Ok` since the
call began, or the one in progress is past `epoll_wait` and on its way there, or
`epoll_wait` finds the eventfd readable and armed. -/
def Delivered (p : Poller) (call : Nat) : Prop :=
  (p.calls call).answered = true ∨ p.Returns call ∨ p.Ready

theorem Returns.next {p q : Poller} {call : Nat} (hq : p.waitStep = some q)
    (h : q.Returns call) : p.Returns call := by
  obtain ⟨n, r, hr, ha⟩ := h
  refine ⟨n + 1, r, ?_, ha⟩
  rw [List.replicate_succ]
  show (p.waitStep.bind fun t => system.runFrom t _) = _
  rw [hq]
  exact hr

theorem returns_collect {p : Poller} (h : p.wait = .collect) (call : Nat) : p.Returns call := by
  refine Returns.next (by rw [waitStep, h]) ?_
  exact ⟨0, _, rfl, rfl⟩

theorem returns_reset {p : Poller} (h : p.wait = .reset) (call : Nat) : p.Returns call :=
  Returns.next (by rw [waitStep, h]) (returns_collect rfl call)

theorem returns_modify {p : Poller} (h : p.wait = .modify) (call : Nat) : p.Returns call :=
  Returns.next (by rw [waitStep, h]) (returns_reset rfl call)

theorem returns_of_isPast {p : Poller} (h : p.wait.isPast = true) (call : Nat) :
    p.Returns call := by
  cases hpc : p.wait with
  | idle | epollWait =>
    rw [hpc] at h
    cases h
  | read => exact Returns.next (by rw [waitStep, hpc]) (returns_modify rfl call)
  | modify => exact returns_modify hpc call
  | reset => exact returns_reset hpc call
  | collect => exact returns_collect hpc call

/-- A wait that is not past `epoll_wait` leaves the registration armed. -/
theorem Inv.armed_of_not_past {p : Poller} (h : Inv p) (hpast : p.wait.isPast = false) :
    p.armed = true := by
  refine h.armed ?_
  cases hpc : p.wait <;> rw [hpc] at hpast <;> first | exact .inl rfl | exact .inr rfl | cases hpast

/-- The write of a call that holds the flag makes the eventfd readable. -/
theorem Inv.ready_write {p q : Poller} {call : Nat} (h : Inv p)
    (hpast : p.wait.isPast = false) (hw : (p.calls call).pc = .write)
    (hq : step p (.notifyStep call) = some q) : q.Ready := by
  have harm := h.armed_of_not_past hpast
  simp only [step, notifyStep, hw] at hq
  obtain rfl := Option.some.inj hq
  exact ⟨eventFdWrite_pos p.eventFd, harm⟩

/-- When `notify` has returned, the notification is delivered, or another call is about to
write and makes the poller ready with its next step. -/
theorem notify_not_lost (p : Poller) (hp : system.Reachable p) (call : Nat)
    (hret : (p.calls call).pc = .returned) :
    p.Delivered call ∨
      ∃ other, other ≠ call ∧ (p.calls other).pc = .write ∧
        ∀ q, step p (.notifyStep other) = some q → q.Ready := by
  have h := inv_of_reachable hp
  by_cases ha : (p.calls call).answered = true
  · exact .inl (.inl ha)
  by_cases hpast : p.wait.isPast = true
  · exact .inl (.inr (.inl (returns_of_isPast hpast call)))
  rw [Bool.not_eq_true] at hpast ha
  have hset : p.notified = true := by
    rcases h.flagged call (by rw [Swapped, hret]; decide) ha with hset | hpc
    · exact hset
    · rw [hpc] at hpast
      cases hpast
  rcases h.backed hset with ⟨other, hw⟩ | hfd | hpc | hpc
  · refine .inr ⟨other, ?_, hw, fun q hq => h.ready_write hpast hw hq⟩
    rintro rfl
    rw [hret] at hw
    cases hw
  · exact .inl (.inr (.inr ⟨hfd, h.armed_of_not_past hpast⟩))
  · rw [hpc] at hpast
    cases hpast
  · rw [hpc] at hpast
    cases hpast

/-- One call sets the flag and writes; a second one finds it set, also after a wait
was interrupted. -/
def suppressed : List Act :=
  [.wait, .notify, .notifyStep 0, .notifyStep 0, .waitFails, .notify, .notifyStep 1, .wait]

theorem notify_not_lost_suppressed : ∃ p, system.Reachable p ∧
    (p.calls 1).pc = .returned ∧ (p.calls 1).answered = false ∧ p.wait = .epollWait ∧
    (p.Delivered 1 ∨
      ∃ other, other ≠ 1 ∧ (p.calls other).pc = .write ∧
        ∀ q, step p (.notifyStep other) = some q → q.Ready) := by
  obtain ⟨p, -, hp, hret, ha, hpc⟩ := system.exists_of_run
    (P := fun p => (p.calls 1).pc = .returned ∧ (p.calls 1).answered = false ∧
      p.wait = .epollWait) suppressed (by decide +kernel)
  exact ⟨p, hp, hret, ha, hpc, notify_not_lost p hp 1 hret⟩

/-- The second call returns while the first one is between its compare-exchange and
its write. -/
def beforeWrite : List Act := [.wait, .notify, .notifyStep 0, .notify, .notifyStep 1]

theorem notify_returns_before_write :
    ¬∀ p, system.Reachable p → ∀ call < p.started, (p.calls call).pc = .returned →
      p.Delivered call := by
  intro h
  obtain ⟨p, -, hp, hstarted, hret, ha, hpc, hfd⟩ := system.exists_of_run
    (P := fun p => p.started = 2 ∧ (p.calls 1).pc = .returned ∧ (p.calls 1).answered = false ∧
      p.wait = .epollWait ∧ p.eventFd = 0) beforeWrite (by decide +kernel)
  rcases h p hp 1 (by omega) hret with hanswered | ⟨n, q, hq, hanswered⟩ | ⟨hpos, -⟩
  · rw [ha] at hanswered
    cases hanswered
  · cases n with
    | zero =>
      obtain rfl := Option.some.inj hq
      rw [ha] at hanswered
      cases hanswered
    | succ n =>
      have hblocked : p.waitStep = none := by rw [waitStep, hpc]
      rw [List.replicate_succ] at hq
      obtain ⟨t, ht, -⟩ := Option.bind_eq_some_iff.mp hq
      rw [show system.step p .waitStep = p.waitStep from rfl, hblocked] at ht
      cases ht
  · omega

end Poller

end Cynthia.Net
