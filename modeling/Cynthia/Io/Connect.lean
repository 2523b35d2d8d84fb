import Cynthia.Lib.Polling

/-! `Async::<TcpStream>::connect` of `io/mod.rs` and `TcpStream::connect` of
`net/transport/tcp.rs`, from the resolved addresses on. They are futures that wait until
the socket of the address in turn is writable. -/

namespace Cynthia.Io.Connect

open Polling

variable {A ε : Type}

/-- What the system answers in an attempt at one address: `connect::tcp`, the registration
in `Async::new`, then how often `writable` is pending before it returns, and at last
`take_error`. -/
structure Attempt (A ε : Type) where
  addr : A
  tcp : Except ε Unit
  register : Except ε Unit
  pending : Nat
  writable : Except ε Unit
  takeError : Except ε (Option ε)

/-- Everything behind `writable().await`. -/
def Attempt.finish (x : Attempt A ε) : Except ε Unit :=
  match x.writable with
  | .error e => .error e
  | .ok () => match x.takeError with
    | .error e | .ok (some e) => .error e
    | .ok none => .ok ()

/-- Everything before it. -/
def Attempt.begin (x : Attempt A ε) : Except ε Unit :=
  match x.tcp with
  | .error e => .error e
  | .ok () => x.register

inductive Error (ε : Type) where
  | io (e : ε)
  | invalidInput (message : String)
  deriving DecidableEq

inductive Fault where
  /-- A future is polled after it has returned. -/
  | finished
  deriving DecidableEq

inductive Stage (A ε : Type) where
  | running
  | waiting (x : Attempt A ε) (pending : Nat)
  | finished

structure State (A ε : Type) where
  addrs : List (Attempt A ε)
  lastErr : Option ε
  stage : Stage A ε

def connect (addrs : List (Attempt A ε)) : State A ε := ⟨addrs, none, .running⟩

/-- How far a poll comes: an outcome, or the next `await`. -/
abbrev Outcome (A ε : Type) := Poll (Except (Error ε) A) × State A ε

def finished (res : Except (Error ε) A) : Outcome A ε := (.ready res, ⟨[], none, .finished⟩)

def noAddress (message : String) (lastErr : Option ε) : Except (Error ε) A :=
  .error (match lastErr with
    | some e => .io e
    | none => .invalidInput message)

namespace Async

def message : String := "could not resolve to any address"

/-- At `stream.writable().await?`. -/
def wait (x : Attempt A ε) (addrs : List (Attempt A ε)) (lastErr : Option ε) : Nat → Outcome A ε
  | pending + 1 => (.pending, ⟨addrs, lastErr, .waiting x pending⟩)
  | 0 => finished (match x.finish with
    | .ok () => .ok x.addr
    | .error e => .error (.io e))

def loop : List (Attempt A ε) → Option ε → Outcome A ε
  | [], lastErr => finished (noAddress message lastErr)
  | x :: addrs, lastErr => match x.tcp with
    | .ok () => match x.register with
      | .ok () => wait x addrs lastErr x.pending
      | .error e => finished (.error (.io e))
    | .error e => loop addrs (some e)

def poll (s : State A ε) : Except Fault (Outcome A ε) :=
  match s.stage with
  | .running => .ok (loop s.addrs s.lastErr)
  | .waiting x pending => .ok (wait x s.addrs s.lastErr pending)
  | .finished => .error .finished

end Async

namespace TcpStream

def message : String := "connect failed"

def loop : List (Attempt A ε) → Option ε → Outcome A ε
  | [], lastErr => finished (noAddress message lastErr)
  | x :: addrs, lastErr => match x.begin with
    | .ok () => match x.pending with
      | pending + 1 => (.pending, ⟨addrs, lastErr, .waiting x pending⟩)
      | 0 => match x.finish with
        | .ok () => finished (.ok x.addr)
        | .error e => loop addrs (some e)
    | .error e => loop addrs (some e)

/-- `connect_addr(addr).await`, which is waiting for its socket. -/
def wait (x : Attempt A ε) (addrs : List (Attempt A ε)) (lastErr : Option ε) : Nat → Outcome A ε
  | pending + 1 => (.pending, ⟨addrs, lastErr, .waiting x pending⟩)
  | 0 => match x.finish with
    | .ok () => finished (.ok x.addr)
    | .error e => loop addrs (some e)

def poll (s : State A ε) : Except Fault (Outcome A ε) :=
  match s.stage with
  | .running => .ok (loop s.addrs s.lastErr)
  | .waiting x pending => .ok (wait x s.addrs s.lastErr pending)
  | .finished => .error .finished

end TcpStream

/-! ## Every address in turn -/

/-- What becomes of an attempt that is carried through. -/
def Attempt.outcome (x : Attempt A ε) : Except ε Unit :=
  match x.begin with
  | .error e => .error e
  | .ok () => x.finish

def Attempt.error? (x : Attempt A ε) : Option ε :=
  match x.outcome with
  | .error e => some e
  | .ok () => none

/-- The first address that connects, or the error of the last one if none does. -/
def FirstOrLast (xs : List (Attempt A ε)) : Except (Error ε) A → Prop
  | .ok addr => ∃ pre x post, xs = pre ++ x :: post ∧ (∀ y ∈ pre, y.error?.isSome) ∧
      x.outcome = .ok () ∧ addr = x.addr
  | .error e => (∀ x ∈ xs, x.error?.isSome) ∧
      ∀ x, xs.getLast? = some x → ∀ e', x.error? = some e' → e = .io e'

/-- If the first address that passes `connect::tcp` fails later on, then all addresses
behind it fail too, the last one with the same error. -/
def Steady : List (Attempt A ε) → Prop
  | [] => True
  | x :: xs => match x.tcp, x.outcome with
    | .error _, _ => Steady xs
    | .ok (), .ok () => True
    | .ok (), .error e =>
      (∀ y ∈ xs, y.error?.isSome) ∧ ∀ y, xs.getLast? = some y → y.error? = some e

/-- The result of a loop, without the polls. -/
def Async.result : List (Attempt A ε) → Option ε → Except (Error ε) A
  | [], lastErr => noAddress message lastErr
  | x :: xs, _ => match x.tcp, x.outcome with
    | .error e, _ => result xs (some e)
    | .ok (), .ok () => .ok x.addr
    | .ok (), .error e => .error (.io e)

def TcpStream.result : List (Attempt A ε) → Option ε → Except (Error ε) A
  | [], lastErr => noAddress message lastErr
  | x :: xs, _ => match x.outcome with
    | .ok () => .ok x.addr
    | .error e => result xs (some e)

section Results

variable {x : Attempt A ε} {xs : List (Attempt A ε)} {lastErr : Option ε} {e : ε}
  {res : Except (Error ε) A}

theorem Async.resolves_wait {pending : Nat} {s : State A ε}
    (h : Async.poll s = .ok (Async.wait x xs lastErr pending)) :
    Resolves Async.poll s (match x.finish with
      | .ok () => .ok x.addr
      | .error e => .error (.io e)) := by
  induction pending generalizing s with
  | zero => exact .ready h
  | succ pending ih => exact .pending h (ih rfl)

theorem Async.resolves_loop {s : State A ε} (h : Async.poll s = .ok (Async.loop xs lastErr)) :
    Resolves Async.poll s (Async.result xs lastErr) := by
  induction xs generalizing s lastErr with
  | nil => exact .ready h
  | cons x xs ih =>
    rw [Async.loop] at h
    rw [Async.result]
    cases htcp : x.tcp with
    | error e =>
      rw [htcp] at h
      exact ih h
    | ok =>
      rw [htcp] at h
      dsimp only at h
      rw [Attempt.outcome, Attempt.begin, htcp]
      cases hreg : x.register with
      | error e =>
        rw [hreg] at h
        exact .ready h
      | ok =>
        rw [hreg] at h
        have hwait := Async.resolves_wait h
        dsimp only
        cases hfinish : x.finish with
        | ok => rwa [hfinish] at hwait
        | error e => rwa [hfinish] at hwait

theorem TcpStream.resolves_loop {s : State A ε}
    (h : TcpStream.poll s = .ok (TcpStream.loop xs lastErr)) :
    Resolves TcpStream.poll s (TcpStream.result xs lastErr) := by
  induction xs generalizing s lastErr with
  | nil => exact .ready h
  | cons x xs ih =>
    rw [TcpStream.loop] at h
    rw [TcpStream.result, Attempt.outcome]
    cases hbegin : x.begin with
    | error e =>
      rw [hbegin] at h
      exact ih h
    | ok =>
      rw [hbegin] at h
      dsimp only at h ⊢
      -- The polls while the socket is not writable, and then the one that goes on.
      have hwait : ∀ pending s, TcpStream.poll s = .ok (TcpStream.wait x xs lastErr pending) →
          Resolves TcpStream.poll s (match x.finish with
            | .ok () => .ok x.addr
            | .error e => TcpStream.result xs (some e)) := by
        intro pending
        induction pending with
        | zero =>
          intro s hs
          rw [TcpStream.wait] at hs
          cases hfinish : x.finish with
          | ok =>
            rw [hfinish] at hs
            exact .ready hs
          | error e =>
            rw [hfinish] at hs
            exact ih hs
        | succ pending ihp =>
          intro s hs
          exact .pending hs (ihp _ rfl)
      refine hwait x.pending s (h.trans ?_)
      cases x.pending <;> rfl

/-- An address that fails stays behind: the rest of the list decides. -/
theorem firstOrLast_cons (hx : x.error? = some e)
    (hres : xs = [] → res = .error (.io e)) :
    FirstOrLast (x :: xs) res ↔ FirstOrLast xs res := by
  cases res with
  | ok addr =>
    constructor
    · rintro ⟨pre, y, post, heq, hpre, hy, rfl⟩
      cases pre with
      | nil =>
        cases heq
        rw [Attempt.error?, hy] at hx
        cases hx
      | cons z pre =>
        cases heq
        exact ⟨pre, y, post, rfl, fun w hw => hpre w (List.mem_cons_of_mem _ hw), hy, rfl⟩
    · rintro ⟨pre, y, post, rfl, hpre, hy, rfl⟩
      refine ⟨x :: pre, y, post, rfl, ?_, hy, rfl⟩
      intro w hw
      rcases List.mem_cons.mp hw with rfl | hw
      · rw [hx, Option.isSome_some]
      · exact hpre w hw
  | error e' =>
    have hall : (∀ y ∈ x :: xs, y.error?.isSome) ↔ ∀ y ∈ xs, y.error?.isSome := by
      rw [List.forall_mem_cons, hx]
      exact and_iff_right rfl
    have hlast : (∀ y, (x :: xs).getLast? = some y → ∀ e'', y.error? = some e'' → e' = .io e'') ↔
        ∀ y, xs.getLast? = some y → ∀ e'', y.error? = some e'' → e' = .io e'' := by
      cases xs with
      | cons z zs => rw [List.getLast?_cons_cons]
      | nil =>
        cases hres rfl
        constructor
        · intro _ y hy
          cases hy
        · intro _ y hy e'' he''
          cases hy
          rw [Option.some.inj (hx.symm.trans he'')]
    exact and_congr hall hlast

theorem firstOrLast_nil (message : String) :
    FirstOrLast ([] : List (Attempt A ε)) (noAddress message lastErr) :=
  ⟨fun _ h => absurd h List.not_mem_nil, fun _ h => by cases h⟩

theorem firstOrLast_success (hx : x.outcome = .ok ()) : FirstOrLast (x :: xs) (.ok x.addr) :=
  ⟨[], x, xs, rfl, fun _ h => absurd h List.not_mem_nil, hx, rfl⟩

theorem TcpStream.firstOrLast_result : FirstOrLast xs (TcpStream.result xs lastErr) := by
  induction xs generalizing lastErr with
  | nil => exact firstOrLast_nil message
  | cons x xs ih =>
    rw [result]
    cases hx : x.outcome with
    | ok => exact firstOrLast_success hx
    | error e =>
      refine (firstOrLast_cons (by rw [Attempt.error?, hx]) ?_).mpr ih
      rintro rfl
      rfl

/-- An error for which the loop is left at once. -/
theorem firstOrLast_left (hx : x.error? = some e) :
    FirstOrLast (x :: xs) (.error (.io e)) ↔
      (∀ y ∈ xs, y.error?.isSome) ∧ ∀ y, xs.getLast? = some y → y.error? = some e := by
  rw [firstOrLast_cons hx fun _ => rfl]
  refine and_congr_right fun hall => forall_congr' fun y => imp_congr_right fun hy => ?_
  obtain ⟨e', he'⟩ := Option.isSome_iff_exists.mp (hall y (List.mem_of_getLast? hy))
  rw [he']
  constructor
  · intro h
    cases h e' rfl
    rfl
  · intro h e'' he''
    rw [Option.some.inj (h.symm.trans he'')]

theorem Async.firstOrLast_result : FirstOrLast xs (Async.result xs lastErr) ↔ Steady xs := by
  induction xs generalizing lastErr with
  | nil => exact iff_of_true (firstOrLast_nil message) trivial
  | cons x xs ih =>
    rw [result, Steady]
    cases htcp : x.tcp with
    | error e =>
      have hx : x.error? = some e := by rw [Attempt.error?, Attempt.outcome, Attempt.begin, htcp]
      refine (firstOrLast_cons hx ?_).trans ih
      rintro rfl
      rfl
    | ok =>
      cases hx : x.outcome with
      | ok => exact iff_of_true (firstOrLast_success hx) trivial
      | error e => exact firstOrLast_left (by rw [Attempt.error?, hx])

/-- Two results that are both right succeed together. -/
theorem FirstOrLast.isOk_iff {res' : Except (Error ε) A} (h : FirstOrLast xs res)
    (h' : FirstOrLast xs res') : (∃ addr, res = .ok addr) ↔ ∃ addr, res' = .ok addr := by
  have hfail : ∀ {addr e'}, FirstOrLast xs (.ok addr : Except (Error ε) A) →
      ¬FirstOrLast xs (.error e' : Except (Error ε) A) := by
    rintro addr e' ⟨pre, x, post, rfl, -, hx, -⟩ ⟨hall, -⟩
    have := hall x (List.mem_append_right pre List.mem_cons_self)
    rw [Attempt.error?, hx] at this
    cases this
  cases res with
  | ok addr => cases res' with
    | ok addr' => exact iff_of_true ⟨addr, rfl⟩ ⟨addr', rfl⟩
    | error e' => exact absurd h' (hfail h)
  | error e => cases res' with
    | ok addr' => exact absurd h (hfail h')
    | error e' => exact iff_of_false (fun ⟨_, h⟩ => by cases h) (fun ⟨_, h⟩ => by cases h)

end Results

/-- Both are polled until they return. `TcpStream::connect` gives the first address that
connects, or else the error of the last one; `Async::connect` does so, and succeeds on the
same lists, just if no address that fails late hides a later one. -/
theorem connect_tries_all_iff (xs : List (Attempt A ε)) :
    ∃ res res', Resolves Async.poll (connect xs) res ∧
      Resolves TcpStream.poll (connect xs) res' ∧ FirstOrLast xs res' ∧
      (FirstOrLast xs res ∧ ((∃ addr, res = .ok addr) ↔ ∃ addr, res' = .ok addr) ↔ Steady xs) := by
  refine ⟨Async.result xs none, TcpStream.result xs none, Async.resolves_loop rfl,
    TcpStream.resolves_loop rfl, TcpStream.firstOrLast_result, ?_⟩
  have hfirst : FirstOrLast xs (Async.result xs none) ↔ Steady xs := Async.firstOrLast_result
  rw [← hfirst]
  exact and_iff_left_of_imp fun h => h.isOk_iff TcpStream.firstOrLast_result

/-- Two addresses: the first refuses once its socket is writable, the second would connect. -/
def lateRefusal : List (Attempt Nat Nat) :=
  [⟨0, .ok (), .ok (), 1, .ok (), .ok (some 111)⟩, ⟨1, .ok (), .ok (), 1, .ok (), .ok none⟩]

theorem late_refusal_is_final :
    Resolves Async.poll (connect lateRefusal) (.error (.io 111)) ∧
      ¬FirstOrLast lateRefusal (.error (.io 111)) ∧
      Resolves TcpStream.poll (connect lateRefusal) (.ok 1) := by
  refine ⟨.pending rfl (.ready rfl), ?_, .pending rfl (.pending rfl (.ready rfl))⟩
  rintro ⟨hall, -⟩
  exact absurd (hall _ (List.mem_cons_of_mem _ List.mem_cons_self)) (by decide)

end Cynthia.Io.Connect
