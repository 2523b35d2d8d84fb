import Cynthia.Io.TimerMap
import Cynthia.Lib.Transition

/-! `Timer` of `io/mod.rs` against the timer table of the reactor: any number of
timers, each used by one thread at a time, and the threads that process the queue
of operations, either because it is full or from `react`. A step of a timer is one
push into the queue or one `fetch_add` on the id counter; a step of a processing
thread is one pop, one change of the map, or the removal of the entries that are
due. -/

namespace Cynthia.Io.Timers

open Transition

inductive Poll (α : Type) where
  | pending
  | ready (a : α)
  deriving DecidableEq, Repr

structure Timer where
  idAndWaker : Option (Nat × Waker)
  when : Instant
  period : Nat
  deriving DecidableEq, Repr

def durationMax : Nat := (2 ^ 64 - 1) * 10 ^ 9 + (10 ^ 9 - 1)

/-- `Instant::checked_add`, for instants up to `max`. -/
def checkedAdd (max : Instant) (when : Instant) (period : Nat) : Option Instant :=
  if when + period ≤ max then some (when + period) else none

/-- How an operation on a timer ends. -/
inductive Outcome where
  | polled (cx : Waker) (res : Poll Instant)
  | done
  | dropped
  deriving DecidableEq, Repr

/-- What an operation does to the reactor and to its timer: the key it passes to
`remove_timer`, the fields it sets then, and the waker it passes to `add_timer`
with the new deadline, whose id it keeps together with the waker. -/
structure Plan where
  remove : Option Key
  timer : Timer
  add : Option Waker
  outcome : Outcome
  deriving DecidableEq, Repr

namespace Timer

def intervalAt (start : Instant) (period : Nat) : Timer := ⟨none, start, period⟩

def atInstant (instant : Instant) : Timer := intervalAt instant durationMax

def key? (t : Timer) : Option Key := t.idAndWaker.map fun p => (t.when, p.1)

def setAt (t : Timer) (instant : Instant) : Plan where
  remove := t.key?
  timer := { t with when := instant }
  add := t.idAndWaker.map Prod.snd
  outcome := .done

def setAfter (t : Timer) (now : Instant) (duration : Nat) : Plan := t.setAt (now + duration)

def setIntervalAt (t : Timer) (start : Instant) (period : Nat) : Plan where
  remove := t.key?
  timer := { t with when := start, period := period }
  add := t.idAndWaker.map Prod.snd
  outcome := .done

def setInterval (t : Timer) (now : Instant) (period : Nat) : Plan :=
  t.setIntervalAt (now + period) period

def drop (t : Timer) : Plan where
  remove := t.key?
  timer := { t with idAndWaker := none }
  add := none
  outcome := .dropped

def pollNext (max : Instant) (t : Timer) (now : Instant) (cx : Waker) : Plan :=
  if t.when ≤ now then
    match checkedAdd max t.when t.period with
    | some next =>
      { remove := t.key?, timer := { t with idAndWaker := none, when := next }, add := some cx,
        outcome := .polled cx (.ready t.when) }
    | none =>
      { remove := t.key?, timer := { t with idAndWaker := none }, add := none,
        outcome := .polled cx (.ready t.when) }
  else
    match t.idAndWaker with
    | none =>
      { remove := none, timer := t, add := some cx, outcome := .polled cx .pending }
    | some (id, w) =>
      if w ≠ cx then
        { remove := some (t.when, id), timer := t, add := some cx, outcome := .polled cx .pending }
      else { remove := none, timer := t, add := none, outcome := .polled cx .pending }

end Timer

/-- Where the operation on a timer stands: before the push in `remove_timer`, before
`add_timer` draws an id, and before its push. -/
inductive TimerPc where
  | unborn
  | idle
  | remove (key : Key) (plan : Plan)
  | fetchId (waker : Waker) (plan : Plan)
  | insert (id : Nat) (waker : Waker) (plan : Plan)
  | dropped
  deriving DecidableEq, Repr

/-- A timer with the thread that uses it. The last four fields are history: the
result and the waker of the last poll, the entry that the pushes made so far stand
for, and whether that entry was taken out as due. -/
structure Party where
  timer : Timer
  pc : TimerPc
  lastPoll : Option (Poll Instant)
  lastWaker : Waker
  entry : Option Entry
  fired : Bool

/-- The thread that holds the lock of the map: it has `left` rounds of
`process_timer_ops` left and holds the operation it popped last; if it is in
`process_timers` it then takes out what is due. -/
inductive Processor where
  | free
  | ops (left : Nat) (popped : Option TimerOp) (fires : Bool)
  | splitOff
  deriving DecidableEq, Repr

structure State where
  clock : Instant
  nextId : Nat
  queue : List TimerOp
  map : TimerMap
  processor : Processor
  parties : Nat → Party
  owner : Nat → Nat

/-- Capacity of `timer_ops`. -/
def timerOpsCap : Nat := 1000

def State.new : State where
  clock := 0
  nextId := 1
  queue := []
  map := []
  processor := .free
  parties _ := ⟨.atInstant 0, .unborn, none, 0, none, false⟩
  owner _ := 0

namespace State

def set (s : State) (t : Nat) (p : Party) : State :=
  { s with parties := Function.update s.parties t p }

end State

namespace Party

/-- The operation is over. -/
def finish (p : Party) (timer : Timer) : Outcome → Party
  | .polled cx res =>
    { p with timer := timer, pc := .idle, lastPoll := some res, lastWaker := cx }
  | .done => { p with timer := timer, pc := .idle }
  | .dropped => { p with timer := timer, pc := .dropped }

/-- The part of an operation after `remove_timer`. -/
def afterRemove (p : Party) (plan : Plan) : Party :=
  match plan.add with
  | some waker => { p with pc := .fetchId waker plan }
  | none => p.finish plan.timer plan.outcome

def start (p : Party) (plan : Plan) : Party :=
  match plan.remove with
  | some key => { p with pc := .remove key plan }
  | none => p.afterRemove plan

end Party

inductive Act where
  | tick (elapsed : Nat)
  | create (t : Nat) (start : Instant) (period : Nat)
  | poll (t : Nat) (cx : Waker)
  | setAt (t : Nat) (instant : Instant)
  | setAfter (t : Nat) (duration : Nat)
  | setIntervalAt (t : Nat) (start : Instant) (period : Nat)
  | setInterval (t : Nat) (period : Nat)
  | drop (t : Nat)
  | timerStep (t : Nat)
  | lock (fires : Bool)
  | processStep
  deriving DecidableEq, Repr

/-- An operation begins on a timer that no other one is using. -/
def begin (s : State) (t : Nat) (plan : Timer → Plan) : Option State :=
  let p := s.parties t
  if p.pc = .idle then some (s.set t (p.start (plan p.timer))) else none

/-- A push waits for room in the queue: while it is full the thread processes it. -/
def timerStep (s : State) (t : Nat) : Option State :=
  let p := s.parties t
  match p.pc with
  | .remove key plan =>
    if s.queue.length < timerOpsCap then
      some ({ s with queue := s.queue ++ [TimerOp.remove key.1 key.2] }.set t
        ({ p with entry := none }.afterRemove plan))
    else none
  | .fetchId waker plan =>
    some ({ s with nextId := s.nextId + 1, owner := Function.update s.owner s.nextId t }.set t
      { p with pc := .insert s.nextId waker plan })
  | .insert id waker plan =>
    if s.queue.length < timerOpsCap then
      some ({ s with queue := s.queue ++ [TimerOp.insert plan.timer.when id waker] }.set t
        ({ p with entry := some ((plan.timer.when, id), waker), fired := false }.finish
          { plan.timer with idAndWaker := some (id, waker) } plan.outcome))
    else none
  | .unborn | .idle | .dropped => none

/-- The entries before `now` leave the map. -/
def splitOff (s : State) : State :=
  { s with
    map := s.map.pending s.clock
    processor := .free
    parties := fun t =>
      let p := s.parties t
      { p with fired := p.fired || (s.map.ready s.clock).any fun e => p.entry = some e } }

def processStep (s : State) : Option State :=
  match s.processor with
  | .free => none
  | .ops left (some op) fires =>
    some { s with map := s.map.apply op, processor := .ops left none fires }
  | .ops 0 none fires => some { s with processor := if fires then .splitOff else .free }
  | .ops (left + 1) none fires =>
    match s.queue with
    | op :: queue => some { s with queue := queue, processor := .ops left (some op) fires }
    | [] => some { s with processor := if fires then .splitOff else .free }
  | .splitOff => some (splitOff s)

def step (max : Instant) (s : State) : Act → Option State
  | .tick elapsed => some { s with clock := s.clock + elapsed }
  | .create t start period =>
    if (s.parties t).pc = .unborn then
      some (s.set t { s.parties t with timer := .intervalAt start period, pc := .idle })
    else none
  | .poll t cx => begin s t fun timer => timer.pollNext max s.clock cx
  | .setAt t instant => begin s t fun timer => timer.setAt instant
  | .setAfter t duration => begin s t fun timer => timer.setAfter s.clock duration
  | .setIntervalAt t start period => begin s t fun timer => timer.setIntervalAt start period
  | .setInterval t period => begin s t fun timer => timer.setInterval s.clock period
  | .drop t => begin s t fun timer => timer.drop
  | .timerStep t => timerStep s t
  | .lock fires =>
    if s.processor = .free then some { s with processor := .ops timerOpsCap none fires } else none
  | .processStep => processStep s

def system (max : Instant) : System State Act := ⟨.new, step max⟩

/-! ## What is queued -/

def Processor.popped : Processor → List TimerOp
  | .ops _ (some op) _ => [op]
  | _ => []

/-- The operations that are not applied yet, in order. -/
def State.queued (s : State) : List TimerOp := s.processor.popped ++ s.queue

/-- The map after the queued operations. -/
def State.final (s : State) : TimerMap := s.map.applyOps s.queued

/-- The entry that the fields of a timer describe. -/
def Timer.entry? (t : Timer) : Option Entry := t.idAndWaker.map fun p => ((t.when, p.1), p.2)

/-- If the operation makes the last poll a pending one, or leaves it so, the timer
keeps that poll's waker. -/
def Registers (p : Party) (outcome : Outcome) (kept : Option Waker) : Prop :=
  match outcome with
  | .polled cx res => res = .pending → kept = some cx
  | .done => p.lastPoll = some .pending → kept = some p.lastWaker
  | .dropped => kept = none

/-- The waker that a timer has after the operation. -/
def Plan.kept (plan : Plan) : Option Waker :=
  plan.add.or (plan.timer.idAndWaker.map Prod.snd)

/-- What the entry of a timer is at each point of an operation. -/
def Standing (t : Nat) (owner : Nat → Nat) (p : Party) : Prop :=
  match p.pc with
  | .unborn => p.entry = none ∧ p.lastPoll = none
  | .dropped => p.entry = none
  | .idle => p.entry = p.timer.entry? ∧
      (p.lastPoll = some .pending → p.timer.idAndWaker.map Prod.snd = some p.lastWaker)
  | .remove key plan => (∃ w, p.entry = some (key, w)) ∧ Registers p plan.outcome plan.kept ∧
      (plan.add = none → plan.timer.idAndWaker = none)
  | .fetchId waker plan => p.entry = none ∧ Registers p plan.outcome (some waker)
  | .insert id waker plan => p.entry = none ∧ Registers p plan.outcome (some waker) ∧ owner id = t

/-- A plan of an operation on a timer that stands idle. -/
structure Plan.Fits (plan : Plan) (p : Party) : Prop where
  key : ∀ key, plan.remove = some key → ∃ w, p.entry = some (key, w)
  gone : plan.remove ≠ none → plan.add = none → plan.timer.idAndWaker = none
  fresh : plan.remove = none → plan.add ≠ none → p.entry = none
  same : plan.remove = none → plan.add = none → p.entry = plan.timer.entry?
  kept : Registers p plan.outcome plan.kept

theorem Timer.key?_eq_some {t : Timer} {key : Key} (h : t.key? = some key) :
    ∃ w, t.entry? = some (key, w) := by
  obtain ⟨⟨id, w⟩, hid, rfl⟩ := Option.map_eq_some_iff.mp h
  exact ⟨w, by rw [Timer.entry?, hid]; rfl⟩

theorem Timer.key?_eq_none {t : Timer} (h : t.key? = none) : t.idAndWaker = none :=
  Option.map_eq_none_iff.mp h

section Fits

variable {t : Nat} {owner : Nat → Nat} {p : Party} {max now : Instant}

theorem registers_ready {p : Party} {cx : Waker} {when : Instant} {kept : Option Waker} :
    Registers p (.polled cx (.ready when)) kept := by
  intro hres
  cases hres

/-- The setters give the entry a new deadline and keep its waker. -/
theorem fits_set (h : Standing t owner p) (hpc : p.pc = .idle) {timer : Timer}
    (hid : timer.idAndWaker = p.timer.idAndWaker) :
    Plan.Fits ⟨p.timer.key?, timer, p.timer.idAndWaker.map Prod.snd, .done⟩ p := by
  simp only [Standing, hpc] at h
  obtain ⟨hentry, hkept⟩ := h
  refine ⟨fun key hkey => ?_, fun _ hadd => ?_, fun hremove _ => ?_, fun hremove _ => ?_, ?_⟩
  · rw [hentry]
    exact Timer.key?_eq_some hkey
  · rw [hid]
    exact Option.map_eq_none_iff.mp hadd
  · rw [hentry, Timer.entry?, Timer.key?_eq_none hremove]
    rfl
  · rw [hentry, Timer.entry?, Timer.entry?, hid, Timer.key?_eq_none hremove]
    rfl
  · intro hpending
    rw [Plan.kept, hkept hpending]
    rfl

theorem fits_drop (h : Standing t owner p) (hpc : p.pc = .idle) : p.timer.drop.Fits p := by
  simp only [Standing, hpc] at h
  refine ⟨fun key hkey => ?_, fun _ _ => rfl, fun _ hadd => absurd rfl hadd, fun hremove _ => ?_,
    rfl⟩
  · rw [h.1]
    exact Timer.key?_eq_some hkey
  · rw [h.1, Timer.entry?, Timer.key?_eq_none hremove]
    rfl

theorem fits_pollNext (h : Standing t owner p) (hpc : p.pc = .idle) (cx : Waker) :
    (p.timer.pollNext max now cx).Fits p := by
  simp only [Standing, hpc] at h
  obtain ⟨hentry, -⟩ := h
  have hkey : ∀ key, p.timer.key? = some key → ∃ w, p.entry = some (key, w) := by
    intro key hkey
    rw [hentry]
    exact Timer.key?_eq_some hkey
  have hnone : p.timer.key? = none → p.entry = none := by
    intro hremove
    rw [hentry, Timer.entry?, Timer.key?_eq_none hremove]
    rfl
  unfold Timer.pollNext
  split
  · split
    · exact ⟨hkey, fun _ hadd => (nomatch hadd), fun hremove _ => hnone hremove,
        fun _ hadd => (nomatch hadd), registers_ready⟩
    · exact ⟨hkey, fun _ _ => rfl, fun hremove _ => hnone hremove,
        fun hremove _ => hnone hremove, registers_ready⟩
  · split
    · rename_i hid
      refine ⟨fun key hk => (nomatch hk), fun hr _ => absurd rfl hr, fun _ _ => ?_,
        fun _ hadd => (nomatch hadd), fun _ => rfl⟩
      rw [hentry, Timer.entry?, hid]
      rfl
    · rename_i id w hid
      split
      · refine ⟨fun key hk => hkey key ?_, fun _ hadd => (nomatch hadd), fun hr => (nomatch hr),
          fun hr => (nomatch hr), fun _ => rfl⟩
        rw [Timer.key?, hid]
        exact hk
      · rename_i hw
        refine ⟨fun key hk => (nomatch hk), fun hr _ => absurd rfl hr,
          fun _ hadd => absurd rfl hadd, fun _ _ => hentry, fun _ => ?_⟩
        rw [Plan.kept, hid]
        exact congrArg some (not_not.mp hw)

end Fits

/-! ## Moves of one timer -/

theorem Party.finish_entry (p : Party) (timer : Timer) (outcome : Outcome) :
    (p.finish timer outcome).entry = p.entry ∧ (p.finish timer outcome).fired = p.fired := by
  cases outcome <;> exact ⟨rfl, rfl⟩

theorem Party.afterRemove_entry (p : Party) (plan : Plan) :
    (p.afterRemove plan).entry = p.entry ∧ (p.afterRemove plan).fired = p.fired := by
  unfold Party.afterRemove
  split
  · exact ⟨rfl, rfl⟩
  · exact p.finish_entry _ _

theorem Party.start_entry (p : Party) (plan : Plan) :
    (p.start plan).entry = p.entry ∧ (p.start plan).fired = p.fired := by
  unfold Party.start
  split
  · exact ⟨rfl, rfl⟩
  · exact p.afterRemove_entry _

theorem standing_finish {t : Nat} {owner : Nat → Nat} {p : Party} {timer : Timer}
    {outcome : Outcome} (hentry : p.entry = timer.entry?)
    (hkept : Registers p outcome (timer.idAndWaker.map Prod.snd)) :
    Standing t owner (p.finish timer outcome) := by
  cases outcome with
  | polled cx res =>
    refine ⟨hentry, fun hpending => hkept ?_⟩
    exact Option.some.inj hpending
  | done => exact ⟨hentry, hkept⟩
  | dropped =>
    show p.entry = none
    rw [hentry, Timer.entry?, Option.map_eq_none_iff]
    exact Option.map_eq_none_iff.mp hkept

theorem standing_afterRemove {t : Nat} {owner : Nat → Nat} {p : Party} {plan : Plan}
    (hfresh : plan.add ≠ none → p.entry = none)
    (hsame : plan.add = none → p.entry = plan.timer.entry?)
    (hkept : Registers p plan.outcome plan.kept) : Standing t owner (p.afterRemove plan) := by
  unfold Party.afterRemove
  split
  · rename_i waker hadd
    refine ⟨hfresh (by rw [hadd]; exact Option.some_ne_none _), ?_⟩
    rw [Plan.kept, hadd] at hkept
    cases houtcome : plan.outcome <;> rw [houtcome] at hkept <;> exact hkept
  · rename_i hadd
    rw [Plan.kept, hadd] at hkept
    exact standing_finish (hsame hadd) hkept

theorem standing_start {t : Nat} {owner : Nat → Nat} {p : Party} {plan : Plan}
    (hfits : plan.Fits p) : Standing t owner (p.start plan) := by
  unfold Party.start
  split
  · rename_i key hremove
    refine ⟨hfits.key key hremove, ?_, hfits.gone (by rw [hremove]; exact Option.some_ne_none _)⟩
    have hkept := hfits.kept
    cases houtcome : plan.outcome <;> rw [houtcome] at hkept <;> exact hkept
  · rename_i hremove
    exact standing_afterRemove (hfits.fresh hremove) (hfits.same hremove) hfits.kept

/-! ## The invariant -/

/-- The entries of the final map are the registrations that stand, except for those
that have fired. -/
structure Inv (s : State) : Prop where
  distinct : s.map.Distinct
  standing : ∀ t, Standing t s.owner (s.parties t)
  owned : ∀ t e, (s.parties t).entry = some e → s.owner e.1.2 = t ∧ e.1.2 < s.nextId
  drawn : ∀ t id waker plan, (s.parties t).pc = .insert id waker plan → id < s.nextId
  sound : ∀ e ∈ s.final, (s.parties (s.owner e.1.2)).entry = some e
  complete : ∀ t e, (s.parties t).entry = some e → (s.parties t).fired = false → e ∈ s.final

theorem inv_new : Inv .new where
  distinct := List.nodup_nil
  standing _ := ⟨rfl, rfl⟩
  owned _ _ h := nomatch h
  drawn _ _ _ _ h := nomatch h
  sound _ h := nomatch h
  complete _ _ h := nomatch h

theorem Party.finish_pc_ne {p : Party} {timer : Timer} {outcome : Outcome} {id : Nat}
    {waker : Waker} {plan : Plan} : (p.finish timer outcome).pc ≠ .insert id waker plan := by
  cases outcome <;> exact TimerPc.noConfusion

theorem Party.afterRemove_pc_ne {p : Party} {plan' : Plan} {id : Nat}
    {waker : Waker} {plan : Plan} : (p.afterRemove plan').pc ≠ .insert id waker plan := by
  unfold Party.afterRemove
  split
  · exact TimerPc.noConfusion
  · exact Party.finish_pc_ne

theorem Party.start_pc_ne {p : Party} {plan' : Plan} {id : Nat}
    {waker : Waker} {plan : Plan} : (p.start plan').pc ≠ .insert id waker plan := by
  unfold Party.start
  split
  · exact TimerPc.noConfusion
  · exact Party.afterRemove_pc_ne

/-- A timer moves, and its entry with it as the final map does. -/
theorem Inv.move {s : State} (h : Inv s) {t : Nat} {p : Party} {queue : List TimerOp}
    (hstanding : Standing t s.owner p)
    (howned : ∀ e, p.entry = some e → s.owner e.1.2 = t ∧ e.1.2 < s.nextId)
    (hdrawn : ∀ id waker plan, p.pc = .insert id waker plan → id < s.nextId)
    (hsound : ∀ e ∈ s.map.applyOps (s.processor.popped ++ queue),
      if s.owner e.1.2 = t then p.entry = some e else e ∈ s.final)
    (hmine : ∀ e, p.entry = some e → p.fired = false →
      e ∈ s.map.applyOps (s.processor.popped ++ queue))
    (hothers : ∀ e ∈ s.final, s.owner e.1.2 ≠ t →
      e ∈ s.map.applyOps (s.processor.popped ++ queue)) :
    Inv ({ s with queue := queue }.set t p) := by
  have hself : ({ s with queue := queue }.set t p).parties t = p := Function.update_self ..
  have hother : ∀ u, u ≠ t → ({ s with queue := queue }.set t p).parties u = s.parties u :=
    fun u hu => Function.update_of_ne hu ..
  refine ⟨h.distinct, fun u => ?_, fun u e he => ?_, fun u id waker plan hpc => ?_,
    fun e he => ?_, fun u e he hfired => ?_⟩
  · by_cases hu : u = t
    · rw [hu, hself]
      exact hstanding
    · rw [hother u hu]
      exact h.standing u
  · by_cases hu : u = t
    · rw [hu, hself] at he
      rw [hu]
      exact howned e he
    · rw [hother u hu] at he
      exact h.owned u e he
  · by_cases hu : u = t
    · rw [hu, hself] at hpc
      exact hdrawn id waker plan hpc
    · rw [hother u hu] at hpc
      exact h.drawn u id waker plan hpc
  · have hold := hsound e he
    show (Function.update s.parties t p (s.owner e.1.2)).entry = some e
    split at hold
    · rename_i hmine
      rw [hmine, Function.update_self]
      exact hold
    · rename_i hne
      rw [Function.update_of_ne hne]
      exact h.sound e hold
  · by_cases hu : u = t
    · rw [hu, hself] at he hfired
      exact hmine e he hfired
    · rw [hother u hu] at he hfired
      refine hothers e (h.complete u e he hfired) ?_
      rw [(h.owned u e he).1]
      exact hu

/-- A step of a timer that pushes nothing. -/
theorem Inv.keep {s : State} (h : Inv s) {t : Nat} {p : Party}
    (hstanding : Standing t s.owner p)
    (hentry : p.entry = (s.parties t).entry) (hfired : p.fired = (s.parties t).fired)
    (hdrawn : ∀ id waker plan, p.pc = .insert id waker plan → id < s.nextId) :
    Inv (s.set t p) := by
  refine Inv.move h hstanding (fun e he => h.owned t e (hentry ▸ he)) hdrawn
    (fun e he => ?_) (fun e he hf => h.complete t e (hentry ▸ he) (hfired ▸ hf))
    (fun e he _ => he)
  split
  · rename_i hmine
    rw [hentry, ← hmine]
    exact h.sound e he
  · exact he

theorem State.applyOps_push (s : State) (op : TimerOp) :
    s.map.applyOps (s.processor.popped ++ (s.queue ++ [op])) = s.final.apply op := by
  rw [← List.append_assoc, TimerMap.applyOps_append]
  rfl

/-- The only entry of a timer has the key that is removed. -/
theorem Inv.pushRemove {s : State} (h : Inv s) {t : Nat} {key : Key} {waker : Waker} {p : Party}
    (hold : (s.parties t).entry = some (key, waker)) (hnew : p.entry = none)
    (hstanding : Standing t s.owner p)
    (hdrawn : ∀ id waker plan, p.pc = .insert id waker plan → id < s.nextId) :
    Inv ({ s with queue := s.queue ++ [TimerOp.remove key.1 key.2] }.set t p) := by
  have howner := (h.owned t _ hold).1
  refine h.move hstanding (fun e he => ?_) hdrawn (fun e he => ?_) (fun e he => ?_)
    (fun e he hne => ?_)
  · rw [hnew] at he
    cases he
  · rw [State.applyOps_push] at he
    obtain ⟨he, hkey⟩ := TimerMap.mem_remove.mp he
    split
    · rename_i hmine
      have hentry := h.sound e he
      rw [hmine, hold] at hentry
      exact absurd (congrArg Prod.fst (Option.some.inj hentry)).symm hkey
    · exact he
  · rw [hnew] at he
    cases he
  · rw [State.applyOps_push]
    refine TimerMap.mem_remove.mpr ⟨he, fun hkey => hne ?_⟩
    rw [hkey]
    exact howner

/-- A fresh id makes the only entry of a timer that has none. -/
theorem Inv.pushInsert {s : State} (h : Inv s) {t when id : Nat} {waker : Waker} {p : Party}
    (hold : (s.parties t).entry = none) (howner : s.owner id = t) (hid : id < s.nextId)
    (hnew : p.entry = some ((when, id), waker)) (hstanding : Standing t s.owner p)
    (hdrawn : ∀ id waker plan, p.pc = .insert id waker plan → id < s.nextId) :
    Inv ({ s with queue := s.queue ++ [TimerOp.insert when id waker] }.set t p) := by
  refine h.move hstanding (fun e he => ?_) hdrawn (fun e he => ?_) (fun e he _ => ?_)
    (fun e he hne => ?_)
  · rw [hnew] at he
    obtain rfl := Option.some.inj he
    exact ⟨howner, hid⟩
  · rw [State.applyOps_push] at he
    rcases TimerMap.mem_insert.mp he with rfl | ⟨he, -⟩
    · rw [if_pos howner]
      exact hnew
    · split
      · rename_i hmine
        have hentry := h.sound e he
        rw [hmine, hold] at hentry
        cases hentry
      · exact he
  · rw [hnew] at he
    obtain rfl := Option.some.inj he
    rw [State.applyOps_push]
    exact TimerMap.mem_insert.mpr (.inl rfl)
  · rw [State.applyOps_push]
    refine TimerMap.mem_insert.mpr (.inr ⟨he, fun hkey => hne ?_⟩)
    rw [hkey]
    exact howner

theorem inv_begin {s u : State} {t : Nat} {plan : Timer → Plan} (h : Inv s)
    (hu : begin s t plan = some u)
    (hfits : (s.parties t).pc = .idle → (plan (s.parties t).timer).Fits (s.parties t)) :
    Inv u := by
  simp only [begin] at hu
  split at hu
  · rename_i hpc
    obtain rfl := Option.some.inj hu
    obtain ⟨hentry, hfired⟩ := (s.parties t).start_entry (plan (s.parties t).timer)
    exact h.keep (standing_start (hfits hpc)) hentry hfired
      fun _ _ _ hpc => absurd hpc Party.start_pc_ne
  · cases hu

theorem Registers.congr {p q : Party} {outcome : Outcome} {kept : Option Waker}
    (h : Registers p outcome kept) (hpoll : q.lastPoll = p.lastPoll)
    (hwaker : q.lastWaker = p.lastWaker) : Registers q outcome kept := by
  cases outcome with
  | polled cx res => exact h
  | done =>
    intro hq
    rw [hwaker]
    exact h (hpoll ▸ hq)
  | dropped => exact h

/-- Drawing an id changes nothing for the ids drawn before. -/
theorem Inv.fetchId {s : State} (h : Inv s) {t : Nat} {waker : Waker} {plan : Plan}
    (hpc : (s.parties t).pc = .fetchId waker plan) :
    Inv ({ s with nextId := s.nextId + 1, owner := Function.update s.owner s.nextId t }.set t
      { s.parties t with pc := .insert s.nextId waker plan }) := by
  have hst := h.standing t
  simp only [Standing, hpc] at hst
  have hkeep : ∀ id, id < s.nextId → Function.update s.owner s.nextId t id = s.owner id :=
    fun id hid => Function.update_of_ne (Nat.ne_of_lt hid) ..
  have hparty : ∀ u, (Function.update s.parties t
      { s.parties t with pc := .insert s.nextId waker plan } u).entry = (s.parties u).entry ∧
      (Function.update s.parties t
        { s.parties t with pc := .insert s.nextId waker plan } u).fired = (s.parties u).fired := by
    intro u
    by_cases hu : u = t
    · rw [hu, Function.update_self]
      exact ⟨rfl, rfl⟩
    · rw [Function.update_of_ne hu]
      exact ⟨rfl, rfl⟩
  refine ⟨h.distinct, fun u => ?_, fun u e he => ?_, fun u id waker' plan' hu => ?_,
    fun e he => ?_, fun u e he hfired => ?_⟩
  · show Standing u (Function.update s.owner s.nextId t) (Function.update s.parties t _ u)
    by_cases hu : u = t
    · rw [hu, Function.update_self]
      refine ⟨hst.1, hst.2.congr rfl rfl, ?_⟩
      exact Function.update_self ..
    · rw [Function.update_of_ne hu]
      have hold := h.standing u
      cases hupc : (s.parties u).pc <;> simp only [Standing, hupc] at hold ⊢ <;> try exact hold
      exact ⟨hold.1, hold.2.1, (hkeep _ (h.drawn u _ _ _ hupc)).trans hold.2.2⟩
  · have hold := h.owned u e ((hparty u).1.symm.trans he)
    exact ⟨(hkeep _ hold.2).trans hold.1, Nat.lt_succ_of_lt hold.2⟩
  · show id < s.nextId + 1
    have hpcs : (Function.update s.parties t
        { s.parties t with pc := .insert s.nextId waker plan } u).pc = .insert id waker' plan' := hu
    by_cases hut : u = t
    · rw [hut, Function.update_self] at hpcs
      cases hpcs
      omega
    · rw [Function.update_of_ne hut] at hpcs
      exact Nat.lt_succ_of_lt (h.drawn u _ _ _ hpcs)
  · have hold := h.sound e he
    have hlt := (h.owned _ e hold).2
    show (Function.update s.parties t _ (Function.update s.owner s.nextId t e.1.2)).entry = _
    rw [hkeep _ hlt, (hparty _).1]
    exact hold
  · exact h.complete u e ((hparty u).1.symm.trans he) ((hparty u).2.symm.trans hfired)

theorem inv_timerStep {s u : State} {t : Nat} (h : Inv s) (hu : timerStep s t = some u) :
    Inv u := by
  have hst := h.standing t
  simp only [timerStep] at hu
  split at hu
  · rename_i key plan hpc
    simp only [Standing, hpc] at hst
    obtain ⟨⟨w, hentry⟩, hkept, hgone⟩ := hst
    split at hu
    · obtain rfl := Option.some.inj hu
      obtain ⟨hnone, -⟩ := Party.afterRemove_entry { s.parties t with entry := none } plan
      refine h.pushRemove hentry hnone ?_ fun _ _ _ hpc => absurd hpc Party.afterRemove_pc_ne
      refine standing_afterRemove (fun _ => rfl) (fun hadd => ?_) (hkept.congr rfl rfl)
      rw [Timer.entry?, hgone hadd]
      rfl
    · cases hu
  · rename_i waker plan hpc
    obtain rfl := Option.some.inj hu
    exact h.fetchId hpc
  · rename_i id waker plan hpc
    simp only [Standing, hpc] at hst
    obtain ⟨hentry, hkept, howner⟩ := hst
    split at hu
    · obtain rfl := Option.some.inj hu
      refine h.pushInsert hentry howner (h.drawn t _ _ _ hpc) ?_ ?_
        fun _ _ _ hpc => absurd hpc Party.finish_pc_ne
      · rw [(Party.finish_entry _ _ _).1]
      · exact standing_finish rfl (hkept.congr rfl rfl)
    · cases hu
  · cases hu
  · cases hu
  · cases hu

/-- Whoever has an entry that is taken out has fired. -/
theorem inv_splitOff {s : State} (h : Inv s) (hpc : s.processor = .splitOff) :
    Inv (splitOff s) := by
  have hqueued : (splitOff s).final = (s.map.pending s.clock).applyOps s.queued := by
    rw [State.final, State.queued, State.queued, hpc]
    rfl
  refine ⟨h.distinct.filter _, fun t => ?_, h.owned, h.drawn, fun e he => ?_,
    fun t e he hfired => ?_⟩
  · have hold := h.standing t
    show Standing t s.owner { s.parties t with fired := _ }
    cases htpc : (s.parties t).pc <;> simp only [Standing, htpc] at hold ⊢ <;> exact hold
  · rw [hqueued] at he
    exact h.sound e (TimerMap.mem_of_mem_applyOps_pending he)
  · obtain ⟨hstood, hleft⟩ := Bool.or_eq_false_iff.mp
      (show ((s.parties t).fired || (s.map.ready s.clock).any fun e =>
        decide ((s.parties t).entry = some e)) = false from hfired)
    rw [hqueued]
    rcases TimerMap.mem_applyOps_pending s.clock (h.complete t e he hstood) with
      hin | hready
    · exact hin
    · have hno := List.any_eq_false.mp hleft e hready
      exact absurd (decide_eq_true he) hno

theorem inv_processStep {s u : State} (h : Inv s) (hu : processStep s = some u) : Inv u := by
  -- Except for `split_off`, processing moves an operation along without changing the final map.
  have hsame : ∀ {map : TimerMap} {queue : List TimerOp} {processor : Processor},
      map.Distinct → map.applyOps (processor.popped ++ queue) = s.final →
      Inv { s with map := map, queue := queue, processor := processor } := by
    intro map queue processor hdistinct hfinal
    refine ⟨hdistinct, h.standing, h.owned, h.drawn, fun e he => h.sound e ?_,
      fun t e he hf => ?_⟩
    · rw [← hfinal]
      exact he
    · show e ∈ map.applyOps (processor.popped ++ queue)
      rw [hfinal]
      exact h.complete t e he hf
  unfold processStep at hu
  split at hu
  · cases hu
  · rename_i left op fires hpc
    obtain rfl := Option.some.inj hu
    refine hsame (h.distinct.apply op) ?_
    rw [State.final, State.queued, hpc]
    rfl
  · rename_i fires hpc
    obtain rfl := Option.some.inj hu
    refine hsame h.distinct ?_
    rw [State.final, State.queued, hpc]
    cases fires <;> rfl
  · rename_i left fires hpc
    split at hu
    · rename_i op queue hqueue
      obtain rfl := Option.some.inj hu
      refine hsame h.distinct ?_
      rw [State.final, State.queued, hpc, hqueue]
      rfl
    · obtain rfl := Option.some.inj hu
      refine hsame h.distinct ?_
      rw [State.final, State.queued, hpc]
      cases fires <;> rfl
  · rename_i hpc
    obtain rfl := Option.some.inj hu
    exact inv_splitOff h hpc

theorem inv_step {max : Instant} {s u : State} {a : Act} (h : Inv s)
    (hu : step max s a = some u) : Inv u := by
  cases a with
  | tick elapsed =>
    obtain rfl := Option.some.inj hu
    exact { h with }
  | create t start period =>
    simp only [step] at hu
    split at hu
    · rename_i hpc
      obtain rfl := Option.some.inj hu
      have hst := h.standing t
      simp only [Standing, hpc] at hst
      refine h.keep ⟨hst.1, fun hpending => ?_⟩ rfl rfl fun _ _ _ hpc => nomatch hpc
      cases hst.2.symm.trans hpending
    · cases hu
  | poll t cx =>
    simp only [step] at hu
    exact inv_begin h hu fun hpc => fits_pollNext (h.standing t) hpc cx
  | setAt t instant =>
    simp only [step] at hu
    exact inv_begin h hu fun hpc => fits_set (h.standing t) hpc rfl
  | setAfter t duration =>
    simp only [step] at hu
    exact inv_begin h hu fun hpc => fits_set (h.standing t) hpc rfl
  | setIntervalAt t start period =>
    simp only [step] at hu
    exact inv_begin h hu fun hpc => fits_set (h.standing t) hpc rfl
  | setInterval t period =>
    simp only [step] at hu
    exact inv_begin h hu fun hpc => fits_set (h.standing t) hpc rfl
  | drop t =>
    simp only [step] at hu
    exact inv_begin h hu fun hpc => fits_drop (h.standing t) hpc
  | timerStep t => exact inv_timerStep h hu
  | lock fires =>
    simp only [step] at hu
    split at hu
    · rename_i hpc
      obtain rfl := Option.some.inj hu
      have hfinal : State.final { s with processor := .ops timerOpsCap none fires } = s.final := by
        rw [State.final, State.final, State.queued, State.queued, hpc]
        rfl
      refine ⟨h.distinct, h.standing, h.owned, h.drawn, fun e he => h.sound e ?_,
        fun t e he hf => ?_⟩
      · rw [← hfinal]
        exact he
      · rw [hfinal]
        exact h.complete t e he hf
    · cases hu
  | processStep => exact inv_processStep h hu

theorem inv_of_reachable {max : Instant} {s : State} (hs : (system max).Reachable s) : Inv s :=
  hs.invariant (M := system max) inv_new fun _ _ _ => inv_step

theorem nextId_begin {s u : State} {t : Nat} {plan : Timer → Plan}
    (hu : begin s t plan = some u) : u.nextId = s.nextId := by
  simp only [begin] at hu
  split at hu <;> cases hu
  rfl

theorem nextId_timerStep {s u : State} {t : Nat} (hu : timerStep s t = some u) :
    u.nextId ≤ s.nextId + 1 := by
  simp only [timerStep] at hu
  repeat' split at hu
  all_goals cases hu
  all_goals simp [State.set]

theorem nextId_processStep {s u : State} (hu : processStep s = some u) : u.nextId = s.nextId := by
  simp only [processStep] at hu
  repeat' split at hu
  all_goals cases hu
  all_goals rfl

theorem nextId_step {max : Instant} {s u : State} {a : Act} (hu : step max s a = some u) :
    u.nextId ≤ s.nextId + 1 := by
  cases a <;> simp only [step] at hu
  case poll | setAt | setAfter | setIntervalAt | setInterval | drop =>
    exact (nextId_begin hu).le.trans (Nat.le_succ _)
  case timerStep => exact nextId_timerStep hu
  case processStep => exact (nextId_processStep hu).le.trans (Nat.le_succ _)
  case tick | create | lock =>
    repeat' split at hu
    all_goals cases hu
    all_goals exact Nat.le_succ _

/-- The ids of the source wrap at `2 ^ 64`; a run of fewer steps draws those of the model. -/
theorem ids_fit {max : Instant} {s : State} (as : List Act) (hs : (system max).run as = some s)
    (hlen : as.length < 2 ^ 64 - 1) :
    s.nextId < 2 ^ 64 ∧ ∀ e ∈ s.final, e.1.2 < 2 ^ 64 := by
  have hle : s.nextId ≤ 1 + as.length :=
    System.le_of_runFrom (f := State.nextId) (fun _ _ _ => nextId_step) as hs
  have h := inv_of_reachable (System.reachable_of_run as hs)
  refine ⟨by omega, fun e he => ?_⟩
  have hid := (h.owned _ e (h.sound e he)).2
  omega

/-- The map after the queued operations, seen from one timer: no two entries are
its own; while no operation on it is under way, a timer whose last poll was pending
and whose entry has not fired since it was registered has exactly the entry of its
deadline, its id and the waker of that poll; a dropped timer has none. -/
structure Matches (s : State) (t : Nat) : Prop where
  atMostOne : ∀ e ∈ s.final, ∀ e' ∈ s.final, s.owner e.1.2 = t → s.owner e'.1.2 = t → e = e'
  exactlyOne : (s.parties t).pc = .idle → (s.parties t).lastPoll = some .pending →
    (s.parties t).fired = false →
    ∃ id, (s.parties t).timer.idAndWaker = some (id, (s.parties t).lastWaker) ∧
      ∀ e, e ∈ s.final ∧ s.owner e.1.2 = t ↔
        e = (((s.parties t).timer.when, id), (s.parties t).lastWaker)
  dropped : (s.parties t).pc = .dropped → ∀ e ∈ s.final, s.owner e.1.2 ≠ t

/-- Once the queued operations are done, the map has no entry for a dropped timer and at most
one for each other timer: that of its deadline, with the waker of its last poll. -/
theorem timer_table_matches (max : Instant) (s : State) (hs : (system max).Reachable s) :
    s.final.Distinct ∧ ∀ t, Matches s t := by
  have h := inv_of_reachable hs
  have hunique : ∀ t, ∀ e ∈ s.final, s.owner e.1.2 = t → (s.parties t).entry = some e := by
    intro t e he hown
    rw [← hown]
    exact h.sound e he
  refine ⟨h.distinct.applyOps _, fun t => ⟨fun e he e' he' hown hown' => ?_,
    fun hpc hpoll hfired => ?_, fun hpc e he hown => ?_⟩⟩
  · have hentry := hunique t e he hown
    rw [hunique t e' he' hown'] at hentry
    exact (Option.some.inj hentry).symm
  · have hst := h.standing t
    simp only [Standing, hpc] at hst
    obtain ⟨⟨id, w⟩, hid, hw⟩ := Option.map_eq_some_iff.mp (hst.2 hpoll)
    have hentry : (s.parties t).entry =
        some (((s.parties t).timer.when, id), (s.parties t).lastWaker) := by
      rw [hst.1, Timer.entry?, hid, ← hw]
      rfl
    refine ⟨id, by rw [hid, ← hw], fun e => ⟨fun ⟨he, hown⟩ => ?_, fun he => ?_⟩⟩
    · exact Option.some.inj ((hunique t e he hown).symm.trans hentry)
    · subst he
      exact ⟨h.complete t _ hentry hfired, (h.owned t _ hentry).1⟩
  · have hst := h.standing t
    simp only [Standing, hpc] at hst
    rw [hunique t e he hown] at hst
    cases hst

/-- A timer is polled, its entry is processed, and it is given a new deadline; the
removal of the old entry is popped and the new one is still queued. Another timer
is polled and dropped. -/
def rescheduled : List Act :=
  [.create 0 5 durationMax, .poll 0 70, .timerStep 0, .timerStep 0,
   .lock true, .processStep, .processStep, .processStep, .processStep,
   .create 1 6 10, .poll 1 80, .timerStep 1, .timerStep 1, .drop 1, .timerStep 1,
   .setAt 0 9, .timerStep 0, .timerStep 0, .timerStep 0,
   .lock false, .processStep, .processStep, .processStep]

theorem timer_table_matches_rescheduled : ∃ s, (system 1000).Reachable s ∧
    s.map = [((5, 1), 70), ((6, 2), 80)] ∧ s.final = [((9, 3), 70)] ∧
    (s.parties 0).lastPoll = some .pending ∧ (s.parties 1).pc = .dropped ∧
    s.final.Distinct ∧ Matches s 0 ∧ Matches s 1 := by
  obtain ⟨s, -, hs, hmap, hfinal, hpoll, hdropped⟩ := (system 1000).exists_of_run
    (P := fun s => s.map = [((5, 1), 70), ((6, 2), 80)] ∧ s.final = [((9, 3), 70)] ∧
      (s.parties 0).lastPoll = some .pending ∧ (s.parties 1).pc = .dropped)
    rescheduled (by decide +kernel)
  obtain ⟨hdistinct, hmatches⟩ := timer_table_matches 1000 s hs
  exact ⟨s, hs, hmap, hfinal, hpoll, hdropped, hdistinct, hmatches 0, hmatches 1⟩

end Cynthia.Io.Timers
