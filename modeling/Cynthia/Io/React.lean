import Cynthia.Io.Source

/-! `LockedReactor::react` as a function of the reactor and of what the system
answers: the two readings of the clock, the outcome of `poller.wait`, and for each
event the outcome of the `poller.modify` that it may lead to. Beside the result it
returns the wakers it took out of the timer map and of the sources, and those it
has woken. -/

namespace Cynthia.Io.React

open Utils

abbrev IoError := Nat

inductive WaitError where
  | interrupted
  | other (err : IoError)
  deriving DecidableEq, Repr

structure Reactor where
  ticker : Nat
  sources : Colo Source
  timers : TimerMap
  timerOps : List TimerOp

/-- An event with the error of the `poller.modify` made for it, should there be one. -/
abbrev Outcome := Event × Option IoError

/-- `later` are the operations that other threads queue while `react` waits. -/
structure Env where
  now : Instant
  wait : Except WaitError (List Outcome)
  later : List TimerOp
  nowAfter : Instant
  timeout : Option Nat

/-- `process_timers` with the duration it returns. -/
def processTimers (r : Reactor) (now : Instant) (wakers : List Waker) :
    Reactor × List Waker × Option Nat :=
  let timers := r.timers.applyOps r.timerOps
  let ready := timers.ready now
  let timers := timers.pending now
  let dur := if ready = [] then timers.head?.map fun e => e.1.1 - now else some 0
  ({ r with timers := timers, timerOps := [] }, wakers ++ ready.map Prod.snd, dur)

def minTimeout : Option Nat → Option Nat → Option Nat
  | none, none => none
  | some t, none | none, some t => some t
  | some a, some b => some (min a b)

/-- The loop over the events. It stops at the first `poller.modify` that fails. -/
def eventLoop (tick : Nat) (sources : Colo Source) (wakers : List Waker) :
    List Outcome → Colo Source × List Waker × Option IoError
  | [] => (sources, wakers, none)
  | (ev, modify) :: rest =>
    match sources.get ev.key with
    | none => eventLoop tick sources wakers rest
    | some source =>
      let (source, wakers) := source.emit tick ev wakers
      let sources := sources.set ev.key source
      if source.waiting then
        match modify with
        | some err => (sources, wakers, some err)
        | none => eventLoop tick sources wakers rest
      else eventLoop tick sources wakers rest

structure Result where
  reactor : Reactor
  taken : List Waker
  woken : List Waker
  res : Except IoError Unit

/-- The end of `react` after the loop. The early return of `?` drops the wakers
collected so far. -/
def afterLoop (r : Reactor) (loop : Colo Source × List Waker × Option IoError) : Result :=
  let r := { r with sources := loop.1 }
  match loop.2.2 with
  | some err => ⟨r, loop.2.1, [], .error err⟩
  | none => ⟨r, loop.2.1, loop.2.1, .ok ()⟩

def react (r : Reactor) (env : Env) : Result :=
  let (r, wakers, nextTimer) := processTimers r env.now []
  let timeout := minTimeout nextTimer env.timeout
  let tick := (r.ticker + 1) % 2 ^ 64
  let r := { r with ticker := tick, timerOps := r.timerOps ++ env.later }
  match env.wait with
  | .ok [] =>
    if timeout ≠ some 0 then
      let (r, wakers, _) := processTimers r env.nowAfter wakers
      ⟨r, wakers, wakers, .ok ()⟩
    else ⟨r, wakers, wakers, .ok ()⟩
  | .ok events => afterLoop r (eventLoop tick r.sources wakers events)
  | .error .interrupted => ⟨r, wakers, wakers, .ok ()⟩
  | .error (.other err) => ⟨r, wakers, wakers, .error err⟩

/-! ## The wakers that are taken out -/

section Taken

variable {tick : Nat} {ev : Event} {sources : Colo Source} {wakers : List Waker} {w : Waker}

/-- The timers as they are once the operations in the queue and then `later` are processed. -/
def Reactor.table (r : Reactor) (later : List TimerOp) : TimerMap :=
  r.timers.applyOps (r.timerOps ++ later)

/-- What `process_timers` takes out of the map goes into the list. -/
theorem processTimers_taken (r : Reactor) (now : Instant) (wakers : List Waker)
    (later : List TimerOp) :
    ∀ e ∈ r.table later, e ∈ (processTimers r now wakers).1.table later ∨
      e.2 ∈ (processTimers r now wakers).2.1 := by
  have hkept : ∀ e ∈ r.timers.applyOps r.timerOps,
      e ∈ (processTimers r now wakers).1.timers ∨ e.2 ∈ (processTimers r now wakers).2.1 := by
    intro e he
    rcases Nat.lt_or_ge e.1.1 now with hlt | hge
    · refine .inr (List.mem_append_right _ (List.mem_map_of_mem ?_))
      exact TimerMap.mem_ready.mpr ⟨he, hlt⟩
    · exact .inl (TimerMap.mem_pending.mpr ⟨he, hge⟩)
  intro e he
  rw [Reactor.table, TimerMap.applyOps, List.foldl_append] at he
  exact TimerMap.applyOps_lost hkept later e he

theorem mem_emit_wakers {source : Source} {dir : Dir} (hw : w ∈ (source.state dir).stored) :
    w ∈ ((source.emit tick ev wakers).1.state dir).stored ∨ w ∈ (source.emit tick ev wakers).2 := by
  cases he : ev.emitted dir with
  | false =>
    rw [Source.emit_state, he]
    exact .inl hw
  | true =>
    rw [Source.emit_wakers]
    cases dir with
    | read =>
      rw [if_pos (show ev.readable = true from he)]
      exact .inr (List.mem_append_right _ hw)
    | write =>
      rw [if_pos (show ev.writable = true from he)]
      exact .inr (List.mem_append_left _ (List.mem_append_right _ hw))

theorem mem_emit_of_mem {source : Source} (hw : w ∈ wakers) :
    w ∈ (source.emit tick ev wakers).2 := by
  rw [Source.emit_wakers, List.append_assoc]
  exact List.mem_append_left _ hw

/-- What every event keeps, the loop keeps. -/
theorem eventLoop_keeps {P : Colo Source → List Waker → Prop}
    (hstep : ∀ {ev source sources wakers}, sources.get ev.key = some source → P sources wakers →
      P (sources.set ev.key (source.emit tick ev wakers).1) (source.emit tick ev wakers).2)
    (events : List Outcome) (h : P sources wakers) :
    P (eventLoop tick sources wakers events).1 (eventLoop tick sources wakers events).2.1 := by
  induction events generalizing sources wakers with
  | nil => exact h
  | cons outcome rest ih =>
    obtain ⟨ev, modify⟩ := outcome
    cases hget : sources.get ev.key with
    | none =>
      simp only [eventLoop, hget]
      exact ih h
    | some source =>
      have hnext := hstep hget h
      simp only [eventLoop, hget]
      split
      · split
        · exact hnext
        · exact ih hnext
      · exact ih hnext

theorem mem_eventLoop (events : List Outcome) (hw : w ∈ wakers) :
    w ∈ (eventLoop tick sources wakers events).2.1 :=
  eventLoop_keeps (P := fun _ wakers => w ∈ wakers) (fun _ => mem_emit_of_mem) events hw

/-- The waker is stored in a direction of a source. -/
def Stored (w : Waker) (key : Nat) (dir : Dir) (sources : Colo Source) : Prop :=
  ∃ source, sources.get key = some source ∧ w ∈ (source.state dir).stored

/-- What the loop takes out of a source goes into the list. -/
theorem eventLoop_taken {key : Nat} {dir : Dir} (events : List Outcome)
    (h : Stored w key dir sources) :
    Stored w key dir (eventLoop tick sources wakers events).1 ∨
      w ∈ (eventLoop tick sources wakers events).2.1 := by
  refine eventLoop_keeps (P := fun sources wakers => Stored w key dir sources ∨ w ∈ wakers)
    (fun {ev source sources wakers} hget hkept => ?_) events (.inl h)
  rcases hkept with ⟨src, hsrc, hw⟩ | hw
  · by_cases hkey : key = ev.key
    · subst hkey
      obtain rfl := Option.some.inj (hsrc.symm.trans hget)
      refine (mem_emit_wakers hw).imp_left fun hw' => ⟨_, ?_, hw'⟩
      rw [Colo.get_set_object, if_pos rfl, hget]
      rfl
    · refine .inl ⟨src, ?_, hw⟩
      rw [Colo.get_set_object, if_neg hkey]
      exact hsrc
  · exact .inr (mem_emit_of_mem hw)

/-- The reactor that `react` waits with, and the wakers that it has then. -/
def entered (r : Reactor) (env : Env) : Reactor × List Waker :=
  let (r', wakers, _) := processTimers r env.now []
  ({ r' with ticker := (r.ticker + 1) % 2 ^ 64, timerOps := r'.timerOps ++ env.later }, wakers)

theorem entered_taken (r : Reactor) (env : Env) :
    ∀ e ∈ r.table env.later,
      e ∈ (entered r env).1.table [] ∨ e.2 ∈ (entered r env).2 := by
  intro e he
  have hkept := processTimers_taken r env.now [] env.later e he
  rwa [Reactor.table, ← List.append_nil (_ ++ env.later)] at hkept

theorem afterLoop_taken {r : Reactor} {loop : Colo Source × List Waker × Option IoError} :
    (afterLoop r loop).reactor = { r with sources := loop.1 } ∧
      (afterLoop r loop).taken = loop.2.1 := by
  unfold afterLoop
  split <;> exact ⟨rfl, rfl⟩

/-- Every waker of a source and of a timer is in its place behind `react`, or was taken. -/
theorem react_loses_nothing (r : Reactor) (env : Env) :
    (∀ e ∈ r.table env.later,
      e ∈ (react r env).reactor.table [] ∨ e.2 ∈ (react r env).taken) ∧
    ∀ w key dir, Stored w key dir r.sources →
      Stored w key dir (react r env).reactor.sources ∨ w ∈ (react r env).taken := by
  have hentered := entered_taken r env
  cases hwait : env.wait with
  | error err =>
    cases err <;> simp only [react, hwait] <;> exact ⟨hentered, fun w key dir h => .inl h⟩
  | ok events =>
    cases events with
    | nil =>
      simp only [react, hwait]
      split
      · refine ⟨fun e he => ?_, fun w key dir h => .inl h⟩
        rcases hentered e he with htable | hwaker
        · exact processTimers_taken _ env.nowAfter _ [] e htable
        · exact .inr (List.mem_append_left _ hwaker)
      · exact ⟨hentered, fun w key dir h => .inl h⟩
    | cons outcome rest =>
      have hreact : react r env = afterLoop (entered r env).1
          (eventLoop ((r.ticker + 1) % 2 ^ 64) r.sources (entered r env).2 (outcome :: rest)) := by
        simp only [react, hwait]
        rfl
      obtain ⟨hreactor, htaken⟩ := @afterLoop_taken (entered r env).1
        (eventLoop ((r.ticker + 1) % 2 ^ 64) r.sources (entered r env).2 (outcome :: rest))
      rw [hreact, hreactor, htaken]
      refine ⟨fun e he => ?_, fun w key dir h => eventLoop_taken _ h⟩
      exact (hentered e he).imp_right (mem_eventLoop _)

end Taken

/-- The sources as they are after the events `seen`: a direction is empty if it was
so before or if one of these events emptied it. -/
structure After (sources : Colo Source) (seen : List Event) (current : Colo Source) : Prop where
  gone : ∀ key, sources.get key = none → current.get key = none
  live : ∀ key source, sources.get key = some source →
    ∃ now, current.get key = some now ∧ ∀ dir, (now.state dir).isEmpty =
      ((source.state dir).isEmpty || seen.any fun ev => ev.key == key && ev.emitted dir)

/-- The event leaves a waker in its source, so that `poller.modify` is called: one
that was stored in a direction which neither it nor an event before it is about. -/
def Leaves (sources : Colo Source) (seen : List Event) (ev : Event) : Bool :=
  match sources.get ev.key with
  | none => false
  | some source => [Dir.read, Dir.write].any fun dir =>
      !(source.state dir).isEmpty && !(ev.emitted dir) &&
        !(seen.any fun ev' => ev'.key == ev.key && ev'.emitted dir)

/-- The event is about a direction with a stored waker. -/
def Takes (sources : Colo Source) (ev : Event) : Bool :=
  match sources.get ev.key with
  | none => false
  | some source => [Dir.read, Dir.write].any fun dir =>
      ev.emitted dir && !(source.state dir).isEmpty

/-- The events up to the first one for which `poller.modify` is called and fails. -/
def upToFailure (sources : Colo Source) (seen : List Event) : List Outcome → Option (List Event)
  | [] => none
  | (ev, modify) :: rest =>
    if modify.isSome && Leaves sources seen ev then some (seen ++ [ev])
    else upToFailure sources (seen ++ [ev]) rest

theorem after_self (sources : Colo Source) : After sources [] sources where
  gone _ h := h
  live _ source h := ⟨source, h, fun dir => by simp⟩

variable {sources current : Colo Source} {seen : List Event} {ev : Event} {tick : Nat}
  {wakers : List Waker}

theorem After.skip (h : After sources seen current) (hget : sources.get ev.key = none) :
    After sources (seen ++ [ev]) current where
  gone := h.gone
  live key source hsource := by
    obtain ⟨now, hnow, hempty⟩ := h.live key source hsource
    refine ⟨now, hnow, fun dir => ?_⟩
    have hne : (ev.key == key) = false := by
      rw [beq_eq_false_iff_ne]
      rintro rfl
      rw [hget] at hsource
      cases hsource
    rw [hempty dir, List.any_append]
    simp [hne]

theorem After.emit (h : After sources seen current) {source now : Source}
    (hsource : sources.get ev.key = some source) (hnow : current.get ev.key = some now) :
    After sources (seen ++ [ev]) (current.set ev.key (now.emit tick ev wakers).1) where
  gone key hkey := by
    have hne : key ≠ ev.key := by
      rintro rfl
      rw [hkey] at hsource
      cases hsource
    rw [Colo.get_set_object, if_neg hne]
    exact h.gone key hkey
  live key other hother := by
    obtain ⟨cur, hcur, hempty⟩ := h.live key other hother
    by_cases hkey : key = ev.key
    · subst hkey
      obtain rfl := Option.some.inj (hcur.symm.trans hnow)
      refine ⟨_, by rw [Colo.get_set_object, if_pos rfl, hnow]; rfl, fun dir => ?_⟩
      rw [Source.emit_isEmpty, hempty dir, List.any_append]
      simp only [List.any_cons, List.any_nil, beq_self_eq_true, Bool.true_and, Bool.or_false]
      cases ev.emitted dir <;> simp
    · refine ⟨cur, by rw [Colo.get_set_object, if_neg hkey]; exact hcur, fun dir => ?_⟩
      have hne : (ev.key == key) = false := beq_eq_false_iff_ne.mpr (Ne.symm hkey)
      rw [hempty dir, List.any_append]
      simp [hne]

theorem waiting_emit (h : After sources seen current) {source now : Source}
    (hsource : sources.get ev.key = some source) (hnow : current.get ev.key = some now) :
    (now.emit tick ev wakers).1.waiting = Leaves sources seen ev := by
  obtain ⟨cur, hcur, hempty⟩ := h.live ev.key source hsource
  obtain rfl := Option.some.inj (hcur.symm.trans hnow)
  simp only [Source.waiting, Source.emit_isEmpty, hempty, Leaves, hsource, List.any_cons,
    List.any_nil, Bool.or_false, Bool.not_or]
  congr 1
  · rw [Bool.and_comm, Bool.and_right_comm]
  · rw [Bool.and_comm, Bool.and_right_comm]

/-- What was collected so far is empty if there was nothing `before` the loop and no
event was about a direction with a waker. -/
def Collected (sources : Colo Source) (before : List Waker) (seen : List Event)
    (wakers : List Waker) : Prop :=
  wakers = [] ↔ before = [] ∧ ∀ ev ∈ seen, Takes sources ev = false

theorem takes_eq_false {source : Source} (hsource : sources.get ev.key = some source) :
    Takes sources ev = false ↔
      ∀ dir, ev.emitted dir = true → (source.state dir).isEmpty = true := by
  simp only [Takes, hsource, List.any_cons, List.any_nil, Bool.or_false, Bool.or_eq_false_iff,
    Bool.and_eq_false_imp, Bool.not_eq_false']
  constructor
  · rintro ⟨hr, hw⟩ dir he
    cases dir with
    | read => exact hr he
    | write => exact hw he
  · intro h
    exact ⟨h .read, h .write⟩

theorem Collected.skip {before : List Waker} (hc : Collected sources before seen wakers)
    (hget : sources.get ev.key = none) : Collected sources before (seen ++ [ev]) wakers := by
  have hev : Takes sources ev = false := by rw [Takes, hget]
  unfold Collected at hc ⊢
  rw [hc]
  simp [or_imp, forall_and, hev]

theorem Collected.emit {before : List Waker} (h : After sources seen current)
    (hc : Collected sources before seen wakers) {source now : Source}
    (hsource : sources.get ev.key = some source) (hnow : current.get ev.key = some now) :
    Collected sources before (seen ++ [ev]) (now.emit tick ev wakers).2 := by
  obtain ⟨cur, hcur, hempty⟩ := h.live ev.key source hsource
  obtain rfl := Option.some.inj (hcur.symm.trans hnow)
  unfold Collected at hc ⊢
  rw [Source.emit_wakers_eq_nil, hc, and_assoc]
  refine and_congr_right fun _ => ?_
  simp only [List.mem_append, List.mem_singleton, or_imp, forall_and, forall_eq]
  refine and_congr_right fun hseen => ?_
  rw [takes_eq_false hsource]
  refine forall_congr' fun dir => imp_congr_right fun _ => ?_
  rw [hempty dir, Bool.or_eq_true]
  -- An earlier event that emptied this direction would have taken a waker.
  refine ⟨fun hor => hor.elim id fun hany => ?_, .inl⟩
  obtain ⟨ev', hmem, hev'⟩ := List.any_eq_true.mp hany
  rw [Bool.and_eq_true, beq_iff_eq] at hev'
  have hsource' : sources.get ev'.key = some source := by rw [hev'.1, hsource]
  exact (takes_eq_false hsource').mp (hseen ev' hmem) dir hev'.2

/-- The loop fails exactly at the first failing `poller.modify`, with what was
collected up to there. -/
theorem eventLoop_spec {before : List Waker} (events : List Outcome)
    (h : After sources seen current) (hc : Collected sources before seen wakers) :
    match upToFailure sources seen events with
    | none => (eventLoop tick current wakers events).2.2 = none
    | some upTo => (eventLoop tick current wakers events).2.2 ≠ none ∧
        Collected sources before upTo (eventLoop tick current wakers events).2.1 := by
  induction events generalizing seen current wakers with
  | nil => rfl
  | cons outcome rest ih =>
    obtain ⟨ev, modify⟩ := outcome
    cases hsource : sources.get ev.key with
    | none =>
      have hleaves : Leaves sources seen ev = false := by rw [Leaves, hsource]
      simp only [upToFailure, eventLoop, h.gone ev.key hsource, hleaves, Bool.and_false,
        Bool.false_eq_true, if_false]
      exact ih (h.skip hsource) (hc.skip hsource)
    | some source =>
      obtain ⟨now, hnow, -⟩ := h.live ev.key source hsource
      have hnext : After sources (seen ++ [ev]) (current.set ev.key (now.emit tick ev wakers).1) :=
        h.emit hsource hnow
      have hcol : Collected sources before (seen ++ [ev]) (now.emit tick ev wakers).2 :=
        hc.emit h hsource hnow
      have hwait : (now.emit tick ev wakers).1.waiting = Leaves sources seen ev :=
        waiting_emit h hsource hnow
      cases hleaves : Leaves sources seen ev with
      | false =>
        simp only [upToFailure, eventLoop, hnow, hwait, hleaves, Bool.and_false,
          Bool.false_eq_true, if_false]
        exact ih hnext hcol
      | true =>
        cases modify with
        | none =>
          simp only [upToFailure, eventLoop, hnow, hwait, hleaves, Option.isSome_none,
            Bool.false_and, Bool.false_eq_true, if_false, if_true]
          exact ih hnext hcol
        | some err =>
          simp only [upToFailure, eventLoop, hnow, hwait, hleaves, Option.isSome_some,
            Bool.and_self, if_true]
          exact ⟨Option.some_ne_none _, hcol⟩

/-- Every waker that `react` took out is woken. -/
def WakesTaken (res : Result) : Prop := ∀ w ∈ res.taken, w ∈ res.woken

/-- Either no `poller.modify` fails, or nothing was there to be collected up to the
first one that does: no timer is due, and no event up to it is about a direction
with a stored waker. -/
def Lossless (r : Reactor) (env : Env) : Prop :=
  match env.wait with
  | .error _ => True
  | .ok events =>
    match upToFailure r.sources [] events with
    | none => True
    | some upTo => (r.timers.applyOps r.timerOps).ready env.now = [] ∧
        ∀ ev ∈ upTo, Takes r.sources ev = false

/-- The loop as `react` enters it. -/
def loopOf (r : Reactor) (env : Env) (events : List Outcome) :
    Colo Source × List Waker × Option IoError :=
  eventLoop ((r.ticker + 1) % 2 ^ 64) r.sources (processTimers r env.now []).2.1 events

theorem react_events {r : Reactor} {env : Env} {outcome : Outcome} {rest : List Outcome}
    (hwait : env.wait = .ok (outcome :: rest)) :
    (react r env).taken = (loopOf r env (outcome :: rest)).2.1 ∧
    (react r env).woken = if (loopOf r env (outcome :: rest)).2.2 = none then
      (loopOf r env (outcome :: rest)).2.1 else [] := by
  have hreact : ∃ r', react r env = afterLoop r' (loopOf r env (outcome :: rest)) := by
    unfold react
    simp only [hwait]
    exact ⟨_, rfl⟩
  obtain ⟨r', hreact⟩ := hreact
  rw [hreact, afterLoop]
  cases (loopOf r env (outcome :: rest)).2.2 with
  | none => exact ⟨rfl, rfl⟩
  | some err => exact ⟨rfl, rfl⟩

/-- `react` wakes all wakers that it takes out unless arming a source again fails after
something was collected. -/
theorem react_wakes_taken_iff (r : Reactor) (env : Env) :
    WakesTaken (react r env) ↔ Lossless r env := by
  cases hwait : env.wait with
  | error err =>
    have hall : WakesTaken (react r env) := by
      cases err <;> simp [WakesTaken, react, hwait]
    simp [Lossless, hwait, hall]
  | ok events =>
    cases events with
    | nil =>
      have hall : WakesTaken (react r env) := by
        simp only [WakesTaken, react, hwait]
        split <;> exact fun w hw => hw
      simp [Lossless, hwait, upToFailure, hall]
    | cons outcome rest =>
      have hdue : Collected r.sources
          (((r.timers.applyOps r.timerOps).ready env.now).map Prod.snd) []
          (processTimers r env.now []).2.1 := by
        simp [Collected, processTimers]
      have hloop : match upToFailure r.sources [] (outcome :: rest) with
          | none => (loopOf r env (outcome :: rest)).2.2 = none
          | some upTo => (loopOf r env (outcome :: rest)).2.2 ≠ none ∧
              Collected r.sources _ upTo (loopOf r env (outcome :: rest)).2.1 :=
        eventLoop_spec (outcome :: rest) (after_self r.sources) hdue
      obtain ⟨htaken, hwoken⟩ := react_events hwait
      simp only [Lossless, hwait, WakesTaken]
      split at hloop
      · rw [htaken, hwoken, if_pos hloop]
        exact ⟨fun _ => trivial, fun _ w hw => hw⟩
      · obtain ⟨hfailed, hcol⟩ := hloop
        simp only [Collected, List.map_eq_nil_iff] at hcol
        rw [htaken, hwoken, if_neg hfailed, ← hcol, List.eq_nil_iff_forall_not_mem]
        exact forall_congr' fun w => imp_congr_right fun _ => by simp

/-- A source with a waker in each direction. -/
def twoDirections : Source where
  raw := 5
  key := 0
  state
    | .read => { Private.new with waker := some 1 }
    | .write => { Private.new with waker := some 2 }

/-- That source and a timer that is due. -/
def dueTimer : Reactor := ⟨0, ⟨[.occupied twoDirections], 0, 1, none⟩, [((3, 1), 7)], []⟩

/-- The source becomes readable, and arming it for writing again fails. -/
def rearmFails : Env := ⟨4, .ok [(⟨0, true, false⟩, some 9)], [], 5, none⟩

theorem react_drops_wakers : (react dueTimer rearmFails).taken = [7, 1] ∧
    (react dueTimer rearmFails).woken = [] ∧ ¬∀ r env, WakesTaken (react r env) := by
  refine ⟨by decide, by decide, fun h => ?_⟩
  have hlost := h dueTimer rearmFails 7 (by decide)
  exact absurd hlost (by decide)

end Cynthia.Io.React
