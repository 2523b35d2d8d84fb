import Cynthia.Blocking.Calm

/-! `AsyncRead for Unblock` of `runtime/blocking/blocking.rs`: an inner reader that is
read through a pipe, by a background task on one side and by calls of `poll_read` on
the other. The two take turns in any order, one access to the pipe or to the inner
reader at a time. Only `poll_read` is called, so `Unblock` is idle or reading. -/

namespace Cynthia.Blocking.UnblockRead

open Transition

/-- An inner reader: the bytes that are left, and the error behind them; `none` is the
end of the file. -/
structure Inner where
  rest : List UInt8
  ending : Option IoError
  deriving DecidableEq

/-- The answers of `read` to a slice of `k` bytes: some of the bytes, none only at the
end of the file or for an empty slice, and the error only behind the last byte. -/
def Inner.answers (io : Inner) (k : Nat) : Except IoError (List UInt8) → Bool
  | .ok data => data.isPrefixOf io.rest && decide (data.length ≤ k) &&
      (decide (data ≠ [] ∨ k = 0 ∨ (io.rest = [] ∧ io.ending = none)))
  | .error e => decide (io.rest = [] ∧ io.ending = some e)

/-- `State::Idle` and `State::Reading(Some(reader), task)`; the task is where the
writing end of the pipe is. -/
inductive Unblock where
  | idle
  | reading (p : Blocking.State)

/-- Program points of a `poll_read`, with the length of its buffer: at the top of its
loop; in `drain`, which has put `got` into the buffer; polling the task. -/
inductive Pc where
  | rest
  | read (len : Nat)
  | drain (len : Nat) (got : List (Option UInt8))
  | ended (len : Nat)
  deriving DecidableEq, Repr

/-- The last three fields are history: the bytes that the calls have returned, the
answer of the last call with the length of its buffer, and whether its waker was
woken since it began. -/
structure State where
  io : Inner
  unblock : Unblock
  pc : Pc
  cx : Waker
  returned : List (Option UInt8)
  answer : Option (Nat × Poll (Except IoError Nat))
  woken : Bool

def new (io : Inner) : State := ⟨io, .idle, .rest, 0, [], none, false⟩

def finish (s : State) (len : Nat) (res : Poll (Except IoError Nat)) : State :=
  { s with pc := .rest, answer := some (len, res) }

/-- A call of `poll_read`. -/
def pollRead (s : State) (len : Nat) (cx : Waker) : Option State :=
  if s.pc = .rest then
    some { s with pc := .read len, cx := cx, answer := none, woken := false }
  else none

/-- The top of the loop. -/
def read (cap : Capacity) (s : State) (len : Nat) : Option State :=
  match s.unblock with
  | .idle => some { s with unblock := .reading (pipe cap) }
  | .reading p => (step p (.drain s.cx)).map fun q =>
      { s with unblock := .reading q, pc := .drain len [] }

/-- Inside `drain`, or just after it has returned. The buffer takes what it has room
for. -/
def drain (s : State) (yields : Bool) (len : Nat) (got : List (Option UInt8)) : Option State :=
  match s.unblock with
  | .reading p =>
    if p.rpc = .idle then
      match p.rret with
      | some (.ready (.ok 0)) => some { s with pc := .ended len }
      | some (.ready (.ok n)) =>
        some { finish s len (.ready (.ok n)) with returned := s.returned ++ got }
      | some (.ready (.error e)) => some (finish s len (.ready (.error e)))
      | _ => some (finish s len .pending)
    else
      (step p (drainAct p yields (min (offered p) (len - got.length)))).map fun q =>
        { s with
          unblock := .reading q
          pc := .drain len (got ++ copied p (min (offered p) (len - got.length)))
          woken := s.woken || (decide (p.rpc = .maybeYield) && yields) }
  | .idle => none

/-- What the task of a reading `Unblock` has returned. -/
def taskResult (p : Blocking.State) : Except IoError Nat :=
  match p.wret with
  | some (.ready (.error e)) => .error e
  | _ => .ok 0

/-- `drain` has returned `0`: the task is polled, and its result is the call's. -/
def ended (s : State) (len : Nat) : Option State :=
  match s.unblock with
  | .reading p =>
    if p.wpc = .dropped then
      some (finish { s with unblock := .idle } len (.ready (taskResult p)))
    else some (finish s len .pending)
  | .idle => none

/-- The next step of the call. -/
def front (cap : Capacity) (s : State) (yields : Bool) : Option State :=
  match s.pc with
  | .rest => none
  | .read len => read cap s len
  | .drain len got => drain s yields len got
  | .ended len => ended s len

/-- What the inner reader has left after an answer. -/
def Inner.after (io : Inner) : Except IoError (List UInt8) → Inner
  | .ok data => { io with rest := io.rest.drop data.length }
  | .error _ => io

/-- The loop around `fill` in the background task; the inner reader answers `res`. -/
def task (io : Inner) (cx : Waker) (yields : Bool) (res : Except IoError (List UInt8))
    (p : Blocking.State) : Option (Inner × Blocking.State) :=
  match p.wpc with
  | .idle =>
    match p.wret with
    | some (.ready (.ok 0)) | some (.ready (.error _)) =>
      (step p .dropWriter).map fun q => (io, q)
    | _ => (step p (.fill cx)).map fun q => (io, q)
  | .read _ =>
    if io.answers (requested p) res then
      (step p (.srcRead res)).map fun q => (io.after res, q)
    else none
  | _ => (step p (fillAct p yields [])).map fun q => (io, q)

/-- The next step of the background task. It wakes the call whose waker it takes out of
the pipe. -/
def back (s : State) (cx : Waker) (yields : Bool) (res : Except IoError (List UInt8)) :
    Option State :=
  match s.unblock with
  | .idle => none
  | .reading p => (task s.io cx yields res p).map fun (io, q) =>
      { s with
        io := io
        unblock := .reading q
        woken := s.woken || decide (p.pipe.reader = some s.cx ∧ q.pipe.reader = none) }

inductive Act where
  | pollRead (len : Nat) (cx : Waker)
  | front (yields : Bool)
  | back (cx : Waker) (yields : Bool) (res : Except IoError (List UInt8))
  deriving DecidableEq

def act (cap : Capacity) (s : State) : Act → Option State
  | .pollRead len cx => pollRead s len cx
  | .front yields => front cap s yields
  | .back cx yields res => back s cx yields res

def system (cap : Capacity) (io : Inner) : System State Act := ⟨new io, act cap⟩

/-- The pipe reports its end only when it is drained. -/
def pipeEnds (s : State) : Act → Bool
  | .front _ => match s.unblock with
    | .reading p => decide (TailFresh p .readerStep)
    | .idle => true
  | _ => true

def PipeEnds (s : State) (a : Act) : Prop := pipeEnds s a = true

/-- The bytes that `drain` finds in the pipe are not offered to an empty buffer. -/
def bufferFits (s : State) : Act → Bool
  | .front _ => match s.pc, s.unblock with
    | .drain len _, .reading p => decide (p.rpc = .write 0 → 0 < len)
    | _, _ => true
  | _ => true

def BufferFits (s : State) (a : Act) : Prop := pipeEnds s a = true ∧ bufferFits s a = true

instance (s : State) (a : Act) : Decidable (PipeEnds s a) := inferInstanceAs (Decidable (_ = _))

instance (s : State) (a : Act) : Decidable (BufferFits s a) := inferInstanceAs (Decidable (_ ∧ _))

/-- The calls have returned the bytes of the inner reader in order. They answer
`Ok(0)` to a buffer with room, or the error of the inner reader, only once they have
returned them all. A call that is pending while there are bytes in the pipe was woken,
or the next step of the task wakes it. -/
structure LosesNothing (bytes : List UInt8) (s : State) : Prop where
  inOrder : s.returned <+: bytes.map some
  complete : ∀ len res, s.answer = some (len, .ready res) →
    (0 < len ∧ res = .ok 0 ∨ ∃ e, res = .error e) → s.returned = bytes.map some
  awake : ∀ len p, s.answer = some (len, .pending) → s.unblock = .reading p →
    p.handed.length < p.published.length →
      s.woken = true ∨ ∃ count, p.wpc = .wakeReader count ∧ p.pipe.reader = some s.cx

/-! ## Wakeups -/

section Wakeups

variable {p q : Blocking.State} {a : Blocking.Act} {cx : Waker} {woken yields : Bool} {n : Nat}

/-- `drain` has found nothing, and is about to return `Pending` or has done so. -/
def Listening (p : Blocking.State) : Prop :=
  p.rpc = .loadClosed ∨ p.rpc = .idle ∧ p.rret = some .pending

/-- Until it is woken, the waker is in the pipe, and what was published since `drain`
looked is about to be made known. -/
structure Watched (cx : Waker) (woken : Bool) (p : Blocking.State) : Prop where
  registered : p.rpc = .reload ∨ Listening p → woken = false → p.pipe.reader = some cx
  told : Listening p → woken = false → p.handed.length < p.published.length →
    ∃ count, p.wpc = .wakeReader count

theorem watched_of_pc (hreload : q.rpc ≠ .reload) (hclosed : q.rpc ≠ .loadClosed)
    (hidle : q.rpc = .idle → q.rret ≠ some .pending) : Watched cx woken q := by
  have hnot : ¬Listening q := by
    rintro (h | ⟨h, hret⟩)
    · exact hclosed h
    · exact hidle h hret
  exact ⟨fun h => h.elim (fun h => absurd h hreload) fun h => absurd h hnot,
    fun h => absurd h hnot⟩

theorem watched_readerStep (h : Watched cx woken p) (hf : Fifo p) (hcx : p.rcx = cx)
    (ht : readerStep p = some q) : Watched cx woken q := by
  unfold readerStep at ht
  split at ht
  case h_1 =>
    split at ht <;> cases ht
    · by_cases hempty : empty (loadTail p)
      · rw [if_pos hempty]
        exact watched_of_pc DrainPc.noConfusion DrainPc.noConfusion fun hx => DrainPc.noConfusion hx
      · rw [if_neg hempty]
        exact watched_of_pc DrainPc.noConfusion DrainPc.noConfusion fun hx => DrainPc.noConfusion hx
    · exact watched_of_pc DrainPc.noConfusion DrainPc.noConfusion fun hx => DrainPc.noConfusion hx
  case h_2 =>
    cases ht
    refine ⟨fun _ _ => congrArg some hcx, ?_⟩
    rintro (hpc | ⟨hpc, -⟩) <;> cases hpc
  case h_3 hpc =>
    cases ht
    by_cases hempty : empty (loadTail p)
    · rw [if_pos hempty]
      have hdrained := hf.drained hpc hempty
      exact ⟨fun _ hnot => h.registered (.inl hpc) hnot,
        fun _ _ hleft => absurd hdrained (Nat.ne_of_lt hleft)⟩
    · rw [if_neg hempty]
      exact watched_of_pc DrainPc.noConfusion DrainPc.noConfusion fun hx => DrainPc.noConfusion hx
  case h_4 hpc =>
    cases ht
    by_cases hclosed : p.pipe.closed = true
    · rw [if_pos hclosed]
      exact watched_of_pc DrainPc.noConfusion DrainPc.noConfusion fun _ hx => by cases hx
    · exact ⟨fun _ hnot => h.registered (.inr (.inl hpc)) hnot, fun _ => h.told (.inl hpc)⟩
  case h_5 | h_6 | h_7 | h_8 | h_9 =>
    cases ht
    exact watched_of_pc DrainPc.noConfusion DrainPc.noConfusion fun hx => DrainPc.noConfusion hx
  case h_10 => cases ht

theorem watched_drainAct (h : Watched cx woken p) (hf : Fifo p) (hcx : p.rcx = cx)
    (ht : step p (drainAct p yields n) = some q) :
    Watched cx (woken || (decide (p.rpc = .maybeYield) && yields)) q := by
  rcases drainAct_cases ht with ⟨hpc, rfl⟩ | ⟨count, hpc, -, rfl⟩ | hstep
  · cases yields with
    | true =>
      have hwoken : (woken || (decide (p.rpc = .maybeYield) && true)) = true := by simp [hpc]
      rw [hwoken]
      exact ⟨fun _ hx => Bool.noConfusion hx, fun _ hx => Bool.noConfusion hx⟩
    | false =>
      exact watched_of_pc DrainPc.noConfusion DrainPc.noConfusion fun hx => DrainPc.noConfusion hx
  · unfold delivered
    split
    · exact watched_of_pc DrainPc.noConfusion DrainPc.noConfusion fun _ hx => by cases hx
    · exact watched_of_pc DrainPc.noConfusion DrainPc.noConfusion fun hx => DrainPc.noConfusion hx
  · have hpc : p.rpc ≠ .maybeYield := by
      intro hpc
      simp [readerStep, hpc] at hstep
    rw [decide_eq_false hpc, Bool.false_and, Bool.or_false]
    exact watched_readerStep h hf hcx hstep

/-- The task takes the waker out of the pipe only to wake it. -/
theorem watched_writer (h : Watched cx woken p) (ha : a.ofReader = false)
    (ht : step p a = some q) :
    Watched cx (woken || decide (p.pipe.reader = some cx ∧ q.pipe.reader = none)) q ∧
      q.rcx = p.rcx := by
  have hs := writerSignals_step ha ht
  have hlisten : Listening q → Listening p := by
    unfold Listening
    rw [hs.rpc, hs.rret]
    exact id
  refine ⟨⟨fun hat hnot => ?_, fun hat hnot hleft => ?_⟩, hs.rcx⟩
  · obtain ⟨hwoken, hkept⟩ := Bool.or_eq_false_iff.mp hnot
    have hslot := h.registered (hat.imp (fun hpc => hs.rpc ▸ hpc) hlisten) hwoken
    rcases hs.reader with hnone | ⟨hsame, -⟩
    · exact absurd ⟨hslot, hnone⟩ (of_decide_eq_false hkept)
    · rw [hsame, hslot]
  · obtain ⟨hwoken, hkept⟩ := Bool.or_eq_false_iff.mp hnot
    have hslot := h.registered (.inr (hlisten hat)) hwoken
    rcases hs.reader with hnone | ⟨-, hwaking⟩
    · exact absurd ⟨hslot, hnone⟩ (of_decide_eq_false hkept)
    · rcases hs.published with hpub | hmoved
      · rw [hs.handed, hpub] at hleft
        obtain ⟨count, hpc⟩ := h.told (hlisten hat) hwoken hleft
        rw [hpc] at hwaking
        cases hwaking
      · exact hmoved

end Wakeups

/-! ## The bytes on their way -/

/-- What a call has put into its buffer so far. -/
def Pc.got : Pc → List (Option UInt8)
  | .drain _ got => got
  | _ => []

/-- The reading end of the pipe is where the program point says. -/
def Pc.Reads (p : Blocking.State) : Pc → Prop
  | .drain _ got => DrainOk p got ∧ (p.rpc = .idle → p.rret ≠ none)
  | .ended _ => p.rpc = .idle ∧ p.rret = some (.ready (.ok 0))
  | _ => p.rpc = .idle

/-- The last `fill` makes the task return. -/
def Over (p : Blocking.State) : Prop :=
  p.wpc = .idle ∧ (p.wret = some (.ready (.ok 0)) ∨ ∃ e, p.wret = some (.ready (.error e)))

/-- The bytes of the inner reader are those that went through earlier pipes, those that
were put into this one, and those that are left. -/
structure Reads (cap : Capacity) (bytes : List UInt8) (s : State) (p : Blocking.State) : Prop where
  steady : (Blocking.system cap).ReachableVia Steady p
  there : p.rpc.closing = false
  moved : ∃ base, bytes = base ++ produced p ++ s.io.rest ∧
    s.returned ++ s.pc.got = base.map some ++ p.handed
  spent : Over p ∨ p.wpc.closing = true → s.io.rest = []
  place : s.pc.Reads p
  watched : (∀ len, s.pc ≠ .read len) → Watched s.cx s.woken p ∧ p.rcx = s.cx
  pending : ∀ len, s.answer = some (len, .pending) →
    p.rret = some .pending ∨ p.rret = some (.ready (.ok 0))

def Stands (cap : Capacity) (bytes : List UInt8) (s : State) : Prop :=
  match s.unblock with
  | .idle => (∃ base, bytes = base ++ s.io.rest ∧ s.returned = base.map some) ∧
      (s.pc = .rest ∨ ∃ len, s.pc = .read len)
  | .reading p => Reads cap bytes s p

theorem stands_of_reading {cap : Capacity} {bytes : List UInt8} {s : State} {p : Blocking.State}
    (hu : s.unblock = .reading p) : Stands cap bytes s ↔ Reads cap bytes s p := by
  rw [Stands, hu]

structure Inv (cap : Capacity) (bytes : List UInt8) (s : State) : Prop where
  stands : Stands cap bytes s
  resting : s.answer ≠ none → s.pc = .rest
  complete : ∀ len res, s.answer = some (len, .ready res) →
    (0 < len ∧ res = .ok 0 ∨ ∃ e, res = .error e) → s.returned = bytes.map some

section Steps

variable {cap : Capacity} {bytes : List UInt8} {s t : State} {p q : Blocking.State}
  {a : Blocking.Act} {len n : Nat} {cx : Waker} {yields : Bool} {got : List (Option UInt8)}
  {res : Except IoError (List UInt8)}

theorem inv_new (io : Inner) : Inv cap io.rest (new io) where
  stands := ⟨⟨[], rfl, rfl⟩, .inl rfl⟩
  resting h := absurd rfl h
  complete _ _ h := by cases h

theorem Reads.settled (h : Reads cap bytes s p) : Settled p := settled_of_reachableVia h.steady

/-- What was returned so far is where the inner reader began. -/
theorem Reads.inOrder (h : Reads cap bytes s p) : s.returned <+: bytes.map some := by
  obtain ⟨base, hbytes, hmoved⟩ := h.moved
  have hhanded : p.handed <+: p.published.map some := by
    rw [h.settled.fifo.content.handed, List.map_take]
    exact List.take_prefix ..
  have hall : s.returned ++ s.pc.got <+: bytes.map some := by
    rw [hmoved, hbytes, produced, List.map_append, List.map_append, List.map_append,
      List.append_assoc, List.append_assoc]
    exact List.prefix_append_right_inj _ |>.mpr (hhanded.trans (List.prefix_append ..))
  exact (List.prefix_append ..).trans hall

theorem Inv.losesNothing (h : Inv cap bytes s) : LosesNothing bytes s := by
  refine ⟨?_, h.complete, fun len p hans hp hunread => ?_⟩
  · have hstands := h.stands
    unfold Stands at hstands
    split at hstands
    · obtain ⟨⟨base, hbytes, hreturned⟩, -⟩ := hstands
      rw [hreturned, hbytes, List.map_append]
      exact List.prefix_append ..
    · exact hstands.inOrder
  · have hreads := (stands_of_reading hp).mp h.stands
    have hrest := h.resting (by rw [hans]; exact Option.some_ne_none _)
    obtain ⟨⟨hregistered, htold⟩, -⟩ := hreads.watched (by rw [hrest]; exact fun _ => Pc.noConfusion)
    have hidle : p.rpc = .idle := by
      have hplace := hreads.place
      rw [hrest] at hplace
      exact hplace
    rcases hreads.pending len hans with hpending | hzero
    · cases hwoken : s.woken with
      | true => exact .inl rfl
      | false =>
        obtain ⟨count, hcount⟩ := htold (.inr ⟨hidle, hpending⟩) hwoken hunread
        exact .inr ⟨count, hcount, hregistered (.inr (.inr ⟨hidle, hpending⟩)) hwoken⟩
    · -- A call that waits for the task has drained the pipe.
      rw [(hreads.settled.ended hzero).1, List.length_map] at hunread
      exact absurd hunread (Nat.lt_irrefl _)

/-- A call that has not returned has no answer. -/
theorem Inv.unanswered (h : Inv cap bytes s) (hpc : s.pc ≠ .rest) : s.answer = none := by
  by_contra hne
  exact hpc (h.resting hne)

theorem inv_pollRead (h : Inv cap bytes s) (ht : pollRead s len cx = some t) : Inv cap bytes t := by
  unfold pollRead at ht
  split at ht
  · rename_i hrest
    obtain rfl := Option.some.inj ht
    refine ⟨?_, fun hx => absurd rfl hx, fun _ _ hx => by cases hx⟩
    have hstands := h.stands
    unfold Stands at hstands ⊢
    dsimp only
    split at hstands
    · exact ⟨hstands.1, .inr ⟨len, rfl⟩⟩
    · obtain ⟨hsteady, hthere, hmoved, hover, hplace, -, -⟩ := hstands
      rw [hrest] at hmoved hplace
      exact ⟨hsteady, hthere, hmoved, hover, hplace, fun hx => absurd rfl (hx len),
        fun _ hx => by cases hx⟩
  · cases ht

theorem inv_read (h : Inv cap bytes s) (hpc : s.pc = .read len) (ht : read cap s len = some t) :
    Inv cap bytes t := by
  have hnone := h.unanswered (by rw [hpc]; exact Pc.noConfusion)
  have hstands := h.stands
  unfold Stands at hstands
  unfold read at ht
  split at ht
  · rename_i hu
    obtain rfl := Option.some.inj ht
    rw [hu] at hstands
    obtain ⟨⟨base, hbytes, hreturned⟩, -⟩ := hstands
    refine ⟨?_, h.resting, h.complete⟩
    refine ⟨.init, rfl, ⟨base, ?_, ?_⟩, ?_, ?_, fun hx => absurd hpc (hx len), fun _ hx => ?_⟩
    · simpa [produced, pipe, pending] using hbytes
    · simpa [hpc, Pc.got, pipe] using hreturned
    · rintro (⟨-, hret | ⟨e, hret⟩⟩ | hclosing)
      · cases hret
      · cases hret
      · cases hclosing
    · show Pc.Reads (pipe cap) s.pc
      rw [hpc]
      rfl
    · rw [show s.answer = none from hnone] at hx
      cases hx
  · rename_i p hu
    rw [hu] at hstands
    obtain ⟨q, hq, rfl⟩ := Option.map_eq_some_iff.mp ht
    obtain ⟨hsteady, hthere, ⟨base, hbytes, hmoved⟩, hover, hplace, -, -⟩ := hstands
    have hnext := steady_next hsteady (steady_of_ne (by simp) (by simp)) hq
    obtain ⟨hidle, rfl⟩ := drain_eq hq
    rw [hpc] at hmoved
    refine ⟨?_, fun hx => absurd hnone hx, h.complete⟩
    refine ⟨hnext, rfl, ⟨base, hbytes, hmoved⟩, hover, ⟨rfl, fun hx => DrainPc.noConfusion hx⟩,
      fun _ => ⟨?_, rfl⟩, fun _ hx => ?_⟩
    · exact watched_of_pc DrainPc.noConfusion DrainPc.noConfusion fun hx => DrainPc.noConfusion hx
    · rw [show s.answer = none from hnone] at hx
      cases hx

/-- A call that returns leaves the pipe as it is. -/
theorem Reads.finish {returned : List (Option UInt8)} {answer : Poll (Except IoError Nat)}
    (h : Reads cap bytes s p) (hidle : p.rpc = .idle) (hpc : ∀ len, s.pc ≠ .read len)
    (hreturned : returned = s.returned ++ s.pc.got)
    (hpending : answer = .pending → p.rret = some .pending ∨ p.rret = some (.ready (.ok 0))) :
    Reads cap bytes { UnblockRead.finish s len answer with returned := returned } p := by
  obtain ⟨base, hbytes, hmoved⟩ := h.moved
  refine ⟨h.steady, h.there, ⟨base, hbytes, ?_⟩, h.spent, hidle, fun _ => h.watched hpc, ?_⟩
  · rw [← hmoved, ← hreturned]
    exact List.append_nil _
  · intro len hx
    exact hpending (Prod.mk.inj (Option.some.inj hx)).2

/-- A call that is pending, or answers with more than 0 bytes. -/
theorem Inv.finish {returned : List (Option UInt8)} {answer : Poll (Except IoError Nat)}
    (h : Inv cap bytes s) (hu : s.unblock = .reading p) (hidle : p.rpc = .idle)
    (hpc : ∀ len, s.pc ≠ .read len) (hreturned : returned = s.returned ++ s.pc.got)
    (hpending : answer = .pending → p.rret = some .pending ∨ p.rret = some (.ready (.ok 0)))
    (hready : ∀ res, answer = .ready res → ∃ n, res = .ok (n + 1)) :
    Inv cap bytes { UnblockRead.finish s len answer with returned := returned } := by
  have hreads := (stands_of_reading hu).mp h.stands
  refine ⟨(stands_of_reading (p := p) ?_).mpr ?_, fun _ => rfl, fun _ res hx hend => ?_⟩
  · exact hu
  · exact hreads.finish hidle hpc hreturned hpending
  · obtain ⟨n, rfl⟩ := hready res (Prod.mk.inj (Option.some.inj hx)).2
    rcases hend with ⟨-, hend⟩ | ⟨e, hend⟩
    · cases hend
    · cases hend

/-- The next access of `drain`. -/
theorem Reads.drainAct (h : Reads cap bytes s p) (hpc : s.pc = .drain len got)
    (hanswer : s.answer = none) (hfresh : TailFresh p .readerStep)
    (hn : p.rpc = .write 0 → n ≠ 0) (hq : step p (drainAct p yields n) = some q) :
    Reads cap bytes
      { s with
        unblock := .reading q
        pc := .drain len (got ++ copied p n)
        woken := s.woken || (decide (p.rpc = .maybeYield) && yields) } q := by
  obtain ⟨base, hbytes, hmoved⟩ := h.moved
  obtain ⟨hwatched, hcx⟩ := h.watched (by rw [hpc]; exact fun _ => Pc.noConfusion)
  have hplace := h.place
  rw [hpc] at hmoved hplace
  obtain ⟨hpub, hwpc, hwret, -, -⟩ := sameWriter_step (ofReader_drainAct ..) hq
  have hproduced : produced q = produced p := produced_congr hpub (by rw [hwpc])
  refine ⟨steady_next h.steady (calm_drainAct hfresh hn).steady hq, ?_, ⟨base, ?_, ?_⟩, ?_,
    ⟨hplace.1.drainAct hq, rret_drainAct hq⟩, fun _ => ⟨?_, ?_⟩, fun _ hx => ?_⟩
  · rw [closing_drainAct hq]
    exact h.there
  · rw [hproduced]
    exact hbytes
  · rw [handed_drainAct hq, ← List.append_assoc, ← hmoved]
    exact (List.append_assoc ..).symm
  · unfold Over
    rw [hwpc, hwret]
    exact h.spent
  · exact watched_drainAct hwatched h.settled.fifo hcx hq
  · rw [rcx_drainAct hq]
    exact hcx
  · cases hanswer.symm.trans hx

/-- The first slice of a `drain` goes into a buffer with room. -/
theorem first_slice_fits (h : Settled p) (hdrain : DrainOk p got) (hpc : p.rpc = .write 0)
    (hlen : 0 < len) : min (offered p) (len - got.length) ≠ 0 := by
  have hgot : 0 = got.length := by simpa [DrainOk, hpc] using hdrain
  have hoffered := h.fifo.offered_pos hpc
  omega

theorem inv_drain (h : Inv cap bytes s) (hpc : s.pc = .drain len got)
    (hok : BufferFits s (.front yields)) (ht : drain s yields len got = some t) :
    Inv cap bytes t := by
  have hnone := h.unanswered (by rw [hpc]; exact Pc.noConfusion)
  have hcalled : ∀ len, s.pc ≠ .read len := by
    rw [hpc]
    exact fun _ => Pc.noConfusion
  unfold drain at ht
  split at ht
  · rename_i p hu
    have hreads := (stands_of_reading hu).mp h.stands
    have hplace := hreads.place
    rw [hpc] at hplace
    obtain ⟨hdrain, hresult⟩ := hplace
    split at ht
    · rename_i hidle
      simp only [DrainOk, hidle] at hdrain
      obtain ⟨hcounted, hnothing⟩ := hdrain
      split at ht
      · rename_i hret
        obtain rfl := Option.some.inj ht
        have hgot : s.pc.got = [] := by
          rw [hpc]
          exact List.length_eq_zero_iff.mp (hcounted 0 hret).symm
        obtain ⟨base, hbytes, hmoved⟩ := hreads.moved
        rw [hgot] at hmoved
        refine ⟨(stands_of_reading (p := p) ?_).mpr ?_, fun hx => absurd hnone hx, h.complete⟩
        · exact hu
        exact ⟨hreads.steady, hreads.there, ⟨base, hbytes, hmoved⟩, hreads.spent, ⟨hidle, hret⟩,
          fun _ => hreads.watched hcalled, fun _ hx => by cases hnone.symm.trans hx⟩
      · rename_i n hzero hret
        obtain rfl := Option.some.inj ht
        refine h.finish hu hidle hcalled (by rw [hpc]; rfl) (fun hx => ?_) fun res hx => ?_
        · cases hx
        · obtain ⟨k, rfl⟩ := Nat.exists_eq_succ_of_ne_zero hzero
          exact ⟨k, (Poll.ready.inj hx).symm⟩
      · rename_i e hret
        exact absurd hret (rret_of_steady hreads.steady e)
      · rename_i hzero hsome herror
        obtain rfl := Option.some.inj ht
        have hret : p.rret = some .pending := by
          cases hret : p.rret with
          | none => exact absurd hret (hresult hidle)
          | some r =>
            rcases r with _ | (e | n)
            · rfl
            · exact absurd hret (herror e)
            · exact absurd hret (hsome n)
        have hgot : s.returned = s.returned ++ s.pc.got := by
          rw [hpc, show got = [] from hnothing fun res hx => by cases hret.symm.trans hx]
          exact (List.append_nil _).symm
        exact h.finish hu hidle hcalled hgot (fun _ => .inl hret) fun res hx => by cases hx
    · obtain ⟨q, hq, rfl⟩ := Option.map_eq_some_iff.mp ht
      obtain ⟨hfresh, hfits⟩ := hok
      simp only [pipeEnds, bufferFits, hu, hpc, decide_eq_true_eq] at hfresh hfits
      have hroom : p.rpc = .write 0 → min (offered p) (len - got.length) ≠ 0 :=
        fun hwrite => first_slice_fits hreads.settled hdrain hwrite (hfits hwrite)
      exact ⟨hreads.drainAct hpc hnone hfresh hroom hq, fun hx => absurd hnone hx, h.complete⟩
  · cases ht

theorem inv_ended (h : Inv cap bytes s) (hpc : s.pc = .ended len) (ht : ended s len = some t) :
    Inv cap bytes t := by
  have hcalled : ∀ len, s.pc ≠ .read len := by
    rw [hpc]
    exact fun _ => Pc.noConfusion
  have hgot : s.returned = s.returned ++ s.pc.got := by
    rw [hpc]
    exact (List.append_nil _).symm
  unfold ended at ht
  split at ht
  · rename_i p hu
    have hreads := (stands_of_reading hu).mp h.stands
    have hplace := hreads.place
    rw [hpc] at hplace
    obtain ⟨hidle, hret⟩ := hplace
    split at ht
    · rename_i hdropped
      obtain rfl := Option.some.inj ht
      -- The task has read to the end, and all that went into the pipe has come out of it.
      have hclosing : p.wpc.closing = true := by
        rw [hdropped]
        rfl
      have hrest := hreads.spent (.inr hclosing)
      obtain ⟨base, hbytes, hmoved⟩ := hreads.moved
      have hall : s.returned = bytes.map some := by
        rw [hgot, hmoved, (hreads.settled.ended hret).1, hbytes, hrest,
          produced_of_closing hclosing, List.append_nil, List.map_append]
      refine ⟨⟨⟨bytes, ?_, hall⟩, .inl rfl⟩, fun _ => rfl, fun _ _ _ _ => hall⟩
      dsimp only [UnblockRead.finish]
      rw [hrest, List.append_nil]
    · obtain rfl := Option.some.inj ht
      exact h.finish hu hidle hcalled hgot (fun _ => .inr hret) fun res hx => by cases hx
  · cases ht

theorem inv_front (h : Inv cap bytes s) (hok : BufferFits s (.front yields))
    (ht : front cap s yields = some t) : Inv cap bytes t := by
  unfold front at ht
  split at ht
  · cases ht
  · rename_i hpc
    exact inv_read h hpc ht
  · rename_i hpc
    exact inv_drain h hpc hok ht
  · rename_i hpc
    exact inv_ended h hpc ht

/-- The program point of the call does not depend on the writing end. -/
theorem Pc.Reads.of_same {pc : Pc} (h : pc.Reads p) (hs : SameReader p q) : pc.Reads q := by
  obtain ⟨-, hrpc, hrret, -⟩ := hs
  cases pc with
  | rest => exact hrpc.trans h
  | read len => exact hrpc.trans h
  | ended len => exact ⟨hrpc.trans h.1, hrret.trans h.2⟩
  | drain len got =>
    unfold Pc.Reads DrainOk at h ⊢
    rw [hrpc, hrret]
    exact h

/-- An access of the background task. -/
theorem Reads.writer {io : Inner} (h : Reads cap bytes s p) (ha : a.ofReader = false)
    (hq : step p a = some q) (hkept : produced q ++ io.rest = produced p ++ s.io.rest)
    (hover : Over q ∨ q.wpc.closing = true → io.rest = []) :
    Reads cap bytes
      { s with
        io := io
        unblock := .reading q
        woken := s.woken || decide (p.pipe.reader = some s.cx ∧ q.pipe.reader = none) } q := by
  have hsteady : Steady p a := by
    refine steady_of_ne ?_ ?_
    · rintro rfl
      exact Bool.noConfusion ha
    · rintro res rfl
      exact Bool.noConfusion ha
  have hsame := sameReader_step ha hq
  obtain ⟨base, hbytes, hmoved⟩ := h.moved
  refine ⟨steady_next h.steady hsteady hq, ?_, ⟨base, ?_, ?_⟩, hover, h.place.of_same hsame,
    fun hpc => ?_, fun len hx => ?_⟩
  · rw [hsame.rpc]
    exact h.there
  · rw [hbytes, List.append_assoc, List.append_assoc, hkept]
  · rw [hsame.handed]
    exact hmoved
  · obtain ⟨hwatched, hcx⟩ := h.watched hpc
    obtain ⟨hwatched, hrcx⟩ := watched_writer hwatched ha hq
    exact ⟨hwatched, hrcx.trans hcx⟩
  · rw [hsame.rret]
    exact h.pending len hx

/-- What an access of the task does with the inner reader. -/
theorem task_cases {io io' : Inner} (ht : task io cx yields res p = some (io', q)) :
    (Over p ∧ io' = io ∧ step p .dropWriter = some q) ∨
    (io' = io ∧ step p (.fill cx) = some q) ∨
    (∃ e, io.rest = [] ∧ io' = io ∧ step p (.srcRead (.error e)) = some q) ∨
    (∃ data, supplied p data ++ io'.rest = io.rest ∧
      (∀ count, p.wpc = .read count → data = [] → requested p = 0 ∨ io.rest = []) ∧
      step p (fillAct p yields data) = some q) := by
  unfold task at ht
  split at ht
  · rename_i hidle
    split at ht
    · rename_i hret
      obtain ⟨q, hq, hpair⟩ := Option.map_eq_some_iff.mp ht
      cases hpair
      exact .inl ⟨⟨hidle, .inl hret⟩, rfl, hq⟩
    · rename_i e hret
      obtain ⟨q, hq, hpair⟩ := Option.map_eq_some_iff.mp ht
      cases hpair
      exact .inl ⟨⟨hidle, .inr ⟨e, hret⟩⟩, rfl, hq⟩
    · obtain ⟨q, hq, hpair⟩ := Option.map_eq_some_iff.mp ht
      cases hpair
      exact .inr (.inl ⟨rfl, hq⟩)
  · rename_i count hread
    split at ht
    · rename_i hans
      obtain ⟨q, hq, hpair⟩ := Option.map_eq_some_iff.mp ht
      cases hpair
      cases res with
      | error e =>
        exact .inr (.inr (.inl ⟨e, (of_decide_eq_true hans).1, rfl, hq⟩))
      | ok data =>
        simp only [Inner.answers, Bool.and_eq_true, decide_eq_true_eq,
          List.isPrefixOf_iff_prefix] at hans
        obtain ⟨⟨hdata, -⟩, hsome⟩ := hans
        refine .inr (.inr (.inr ⟨data, ?_, fun _ _ hnil => ?_, ?_⟩))
        · have hsupplied : supplied p data = data := by simp only [supplied, hread]
          rw [hsupplied]
          exact (List.prefix_iff_eq_append.mp hdata)
        · rcases hsome with hne | hzero | ⟨hend, -⟩
          · exact absurd hnil hne
          · exact .inl hzero
          · exact .inr hend
        · simpa only [fillAct, hread] using hq
    · cases ht
  · rename_i hidle hread
    obtain ⟨q, hq, hpair⟩ := Option.map_eq_some_iff.mp ht
    cases hpair
    refine .inr (.inr (.inr ⟨[], ?_, fun count hpc => absurd hpc (hread count), hq⟩))
    rw [supplied_of_ne hread, List.nil_append]

theorem inv_back (h : Inv cap bytes s) (ht : back s cx yields res = some t) : Inv cap bytes t := by
  unfold back at ht
  split at ht
  · cases ht
  · rename_i p hu
    obtain ⟨⟨io, q⟩, htask, rfl⟩ := Option.map_eq_some_iff.mp ht
    have hreads := (stands_of_reading hu).mp h.stands
    refine ⟨?_, h.resting, h.complete⟩
    rcases task_cases htask with ⟨hover, rfl, hq⟩ | ⟨rfl, hq⟩ | ⟨e, hrest, rfl, hq⟩ |
      ⟨data, hdata, hzero, hq⟩
    · refine hreads.writer rfl hq ?_ fun _ => hreads.spent (.inl hover)
      obtain ⟨hidle, rfl⟩ := dropWriter_eq hq
      rw [produced_of_idle hidle, produced_of_closing rfl]
    · refine hreads.writer rfl hq ?_ ?_
      · rw [produced_fill hq]
      · obtain ⟨-, rfl⟩ := fill_eq hq
        rintro (⟨hx, -⟩ | hx) <;> cases hx
    · refine hreads.writer rfl hq ?_ fun _ => hrest
      rw [produced_srcRead_error hq]
    · refine hreads.writer (ofReader_fillAct ..) hq ?_ ?_
      · have hopen : ∀ count data, p.wpc = .checkClosed count data → p.pipe.closed = false := by
          intro count data hpc
          exact hreads.settled.isOpen hreads.there (by rw [hpc]; rfl)
        rw [produced_fillAct hopen hq, List.append_assoc, hdata]
      · -- An answer of 0 from `fill` is one of the inner reader.
        have hnil : s.io.rest = [] → io.rest = [] := by
          intro hrest
          rw [hrest] at hdata
          exact (List.append_eq_nil_iff.mp hdata).2
        rw [closing_fillAct hq]
        rintro (⟨hidle, hret | ⟨e, hret⟩⟩ | hclosing)
        · have hopen := hreads.settled.isOpen hreads.there (by rw [← closing_fillAct hq, hidle]; rfl)
          obtain ⟨hread, hempty, hpos⟩ :=
            hreads.settled.roomy.fillAct_zero hreads.settled.fifo hopen hq hidle hret
          rcases hzero 0 hread hempty with hrequested | hrest
          · exact absurd hrequested (Nat.ne_of_gt hpos)
          · exact hnil hrest
        · exact absurd hret (wret_fillAct hq hidle e)
        · exact hnil (hreads.spent (.inr hclosing))

theorem inv_act {a : Act} (h : Inv cap bytes s) (hok : BufferFits s a)
    (ht : act cap s a = some t) : Inv cap bytes t := by
  cases a with
  | pollRead len cx => exact inv_pollRead h ht
  | front yields => exact inv_front h hok ht
  | back cx yields res => exact inv_back h ht

end Steps

/-- Reading through `Unblock` loses nothing as long as no call with an empty buffer finds
bytes in the pipe. -/
theorem unblock_read_loses_nothing (cap : Capacity) (io : Inner) (s : State)
    (hs : (system cap io).ReachableVia BufferFits s) : LosesNothing io.rest s := by
  have hinv : Inv cap io.rest s :=
    hs.invariant (I := Inv cap io.rest) (inv_new io) fun _ _ _ hok h ht => inv_act h hok ht
  exact hinv.losesNothing

def fronts (k : Nat) : List Act := List.replicate k (.front false)

def backs (k : Nat) : List Act := List.replicate k (.back 2 false (.ok []))

/-- `fill` reads the byte of an inner reader that has no other, and publishes it. -/
def publishOne : List Act := backs 5 ++ .back 2 false (.ok [7]) :: backs 4

/-- `fill` finds the end of the file, and the task drops its end of the pipe. -/
def endTask : List Act := backs 9

/-- A call that is pending until the byte is there, one that returns it, and one that
finds the end. -/
theorem unblock_read_loses_nothing_oneByte :
    ∃ s, (system fourBytes ⟨[7], none⟩).ReachableVia BufferFits s ∧
      s.answer = some (4, .ready (.ok 0)) ∧ s.returned = [some 7] ∧ LosesNothing [7] s := by
  obtain ⟨s, hs, hanswer, hreturned⟩ := System.exists_of_runVia BufferFits
    (M := system fourBytes ⟨[7], none⟩)
    (P := fun s => s.answer = some (4, .ready (.ok 0)) ∧ s.returned = [some 7])
    (.pollRead 4 1 :: fronts 7 ++ publishOne ++ .pollRead 4 1 :: fronts 9 ++ endTask ++
      .pollRead 4 1 :: fronts 7)
    (by decide +kernel)
  exact ⟨s, hs, hanswer, hreturned, unblock_read_loses_nothing fourBytes ⟨[7], none⟩ s hs⟩

/-- A call with an empty buffer takes the `0` that `drain` answers for the end of the
stream, and drops the pipe with the byte in it; the next call answers `Ok(0)`. -/
theorem unblock_read_drops_pipe :
    ∃ s, (system fourBytes ⟨[7], none⟩).ReachableVia PipeEnds s ∧ ¬LosesNothing [7] s := by
  obtain ⟨s, hs, hanswer, hreturned⟩ := System.exists_of_runVia PipeEnds
    (M := system fourBytes ⟨[7], none⟩)
    (P := fun s => s.answer = some (4, .ready (.ok 0)) ∧ s.returned = [])
    (.pollRead 0 1 :: fronts 2 ++ publishOne ++ endTask ++ fronts 6 ++
      .pollRead 4 1 :: fronts 2 ++ endTask ++ fronts 6)
    (by decide +kernel)
  refine ⟨s, hs, fun h => ?_⟩
  have hall := h.complete 4 (.ok 0) hanswer (.inl ⟨by decide, rfl⟩)
  rw [hreturned] at hall
  cases hall

end Cynthia.Blocking.UnblockRead
