import Cynthia.Future.Combinators

/-! What the futures of `future/future.rs` come to, however they are nested. -/

namespace Cynthia.Futures

open Polling Outcome
open Streams (Future)

section Futures

variable {F F1 F2 D T T1 T2 E : Type}

theorem ready_comesTo (val : T) : ComesTo Future.poll (ready val) (now val) :=
  ⟨ready val, ⟨none⟩, .refl _, rfl⟩

theorem pending_comesTo : ComesTo Future.poll (pending : Pending T) none := by
  refine .of_relation (R := fun _ b => b = none) (fun s b hb => ?_) rfl
  subst hb
  exact .pending (b := none) rfl

theorem yieldNow_comesTo : ComesTo Future.poll yieldNow (later (now ())) :=
  ⟨⟨true⟩, ⟨true⟩, .step rfl (.refl _), rfl⟩

/-! ## Both -/

/-- An output that is there, or what the future comes to. -/
def Holds [Future F T] (future : F) (output : Option T) (b : Outcome T) : Prop :=
  match output with
  | some out => b = now out
  | none => ComesTo Future.poll future b

theorem pollOutput_holds [Future F T] {future : F} {output : Option T} {b : Outcome T}
    (h : Holds future output b) : ∃ future' output',
      pollOutput future output = .ok (future', output') ∧
        ((∃ out, output' = some out ∧ b = now out) ∨
          output' = none ∧ ∃ b', b = later b' ∧ ComesTo Future.poll future' b') := by
  cases output with
  | some out => exact ⟨future, some out, rfl, .inl ⟨out, rfl, h⟩⟩
  | none =>
    have hagrees := ComesTo.agrees h
    simp only [pollOutput]
    generalize Future.poll future = r at hagrees
    cases hagrees with
    | ready => exact ⟨_, _, rfl, .inl ⟨_, rfl, rfl⟩⟩
    | pending hb => exact ⟨_, _, rfl, .inr ⟨rfl, _, rfl, hb⟩⟩

theorem zip_comesTo [Future F1 T1] [Future F2 T2] {future1 : F1} {future2 : F2} {b1 : Outcome T1}
    {b2 : Outcome T2} (h1 : ComesTo Future.poll future1 b1) (h2 : ComesTo Future.poll future2 b2) :
    ComesTo Future.poll (zip future1 future2) (both b1 b2) := by
  refine .of_relation (R := fun s b => ∃ b1 b2, b = both b1 b2 ∧
    Holds s.future1 s.output1 b1 ∧ Holds s.future2 s.output2 b2) ?_ ⟨b1, b2, rfl, h1, h2⟩
  rintro s b ⟨b1, b2, rfl, h1, h2⟩
  obtain ⟨future1, output1, hp1, hb1⟩ := pollOutput_holds h1
  obtain ⟨future2, output2, hp2, hb2⟩ := pollOutput_holds h2
  simp only [Future.poll, hp1, hp2, ok_bind]
  rcases hb1 with ⟨out1, rfl, rfl⟩ | ⟨rfl, b1, rfl, hb1⟩ <;>
    rcases hb2 with ⟨out2, rfl, rfl⟩ | ⟨rfl, b2, rfl, hb2⟩
  · exact .ready
  · rw [both_now_later]
    exact .pending ⟨_, _, rfl, rfl, hb2⟩
  · rw [both_later_now]
    exact .pending ⟨_, _, rfl, hb1, rfl⟩
  · rw [both_later]
    exact .pending ⟨_, _, rfl, hb1, hb2⟩

/-- An output that is there is no error. -/
def HoldsOk [Future F (Except E T)] (future : F) (output : Option (Except E T))
    (b : Outcome (Except E T)) : Prop :=
  Holds future output b ∧ ∀ err, output ≠ some (.error err)

theorem pollTry_holds [Future F (Except E T)] {future : F} {output : Option (Except E T)}
    {b : Outcome (Except E T)} (h : HoldsOk future output b) : ∃ future' res,
      pollTry future output = .ok (future', res) ∧
        ((∃ err, res = .error err ∧ b = now (.error err)) ∨
          (∃ t, res = .ok (some (.ok t)) ∧ b = now (.ok t)) ∨
          res = .ok none ∧ ∃ b', b = later b' ∧ ComesTo Future.poll future' b') := by
  obtain ⟨h, hok⟩ := h
  match output with
  | some (.ok t) => exact ⟨future, _, rfl, .inr (.inl ⟨t, rfl, h⟩)⟩
  | some (.error err) => exact absurd rfl (hok err)
  | none =>
    have hagrees := ComesTo.agrees h
    simp only [pollTry]
    generalize Future.poll future = r at hagrees
    cases hagrees with
    | ready =>
      rename_i future' res
      cases res with
      | error err => exact ⟨_, _, rfl, .inl ⟨err, rfl, rfl⟩⟩
      | ok t => exact ⟨_, _, rfl, .inr (.inl ⟨t, rfl, rfl⟩)⟩
    | pending hb => exact ⟨_, _, rfl, .inr (.inr ⟨rfl, _, rfl, hb⟩)⟩

theorem tryZip_comesTo [Future F1 (Except E T1)] [Future F2 (Except E T2)] {future1 : F1}
    {future2 : F2} {b1 : Outcome (Except E T1)} {b2 : Outcome (Except E T2)}
    (h1 : ComesTo Future.poll future1 b1) (h2 : ComesTo Future.poll future2 b2) :
    ComesTo Future.poll (tryZip future1 future2) (tried b1 b2) := by
  refine .of_relation (R := fun s b => ∃ b1 b2, b = tried b1 b2 ∧
    HoldsOk s.future1 s.output1 b1 ∧ HoldsOk s.future2 s.output2 b2) ?_
    ⟨b1, b2, rfl, ⟨h1, nofun⟩, h2, nofun⟩
  rintro s b ⟨b1, b2, rfl, h1, h2⟩
  obtain ⟨future1, res1, hp1, hb1⟩ := pollTry_holds h1
  obtain ⟨future2, res2, hp2, hb2⟩ := pollTry_holds h2
  simp only [Future.poll, hp1, hp2, ok_bind]
  rcases hb1 with ⟨err, rfl, rfl⟩ | ⟨t1, rfl, rfl⟩ | ⟨rfl, b1, rfl, hb1⟩
  · rw [tried_error]
    exact .ready
  · rcases hb2 with ⟨err, rfl, rfl⟩ | ⟨t2, rfl, rfl⟩ | ⟨rfl, b2, rfl, hb2⟩
    · exact .ready
    · exact .ready
    · rw [tried_now_later]
      exact .pending ⟨_, _, rfl, ⟨rfl, nofun⟩, hb2, nofun⟩
  · rcases hb2 with ⟨err, rfl, rfl⟩ | ⟨t2, rfl, rfl⟩ | ⟨rfl, b2, rfl, hb2⟩
    · rw [tried_later_error]
      exact .ready
    · rw [tried_later_now]
      exact .pending ⟨_, _, rfl, ⟨hb1, nofun⟩, rfl, nofun⟩
    · rw [tried_later]
      exact .pending ⟨_, _, rfl, ⟨hb1, nofun⟩, hb2, nofun⟩

/-! ## Either -/

/-- The first one that is ready, or both are polled later. -/
theorem pollOr_earlier [Future F1 T] [Future F2 T] {future1 : F1} {future2 : F2}
    {b1 b2 : Outcome T} (tie : Nat → Bool) (htie : tie 0 = true)
    (h1 : ComesTo Future.poll future1 b1) (h2 : ComesTo Future.poll future2 b2) :
    ∃ res future1' future2', pollOr future1 future2 = .ok (res, future1', future2') ∧
      ((∃ t, res = .ready t ∧ earlier tie b1 b2 = now t) ∨
        res = .pending ∧ ∃ b1' b2', earlier tie b1 b2 =
          later (earlier (fun n => tie (n + 1)) b1' b2') ∧
            ComesTo Future.poll future1' b1' ∧ ComesTo Future.poll future2' b2') := by
  have hagrees1 := h1.agrees
  have hagrees2 := h2.agrees
  simp only [pollOr]
  generalize Future.poll future1 = r1 at hagrees1
  generalize Future.poll future2 = r2 at hagrees2
  cases hagrees1 with
  | ready =>
    refine ⟨_, _, _, rfl, .inl ⟨_, rfl, ?_⟩⟩
    rcases now_or_later b2 with ⟨t2, rfl⟩ | ⟨b2, rfl⟩
    · rw [earlier_now, htie]
      rfl
    · rw [earlier_now_later]
  | pending hb1 =>
    cases hagrees2 with
    | ready => exact ⟨_, _, _, rfl, .inl ⟨_, rfl, earlier_later_now ..⟩⟩
    | pending hb2 => exact ⟨_, _, _, rfl, .inr ⟨rfl, _, _, earlier_later .., hb1, hb2⟩⟩

/-- `or` prefers the first future. -/
theorem or_comesTo [Future F1 T] [Future F2 T] {future1 : F1} {future2 : F2} {b1 b2 : Outcome T}
    (h1 : ComesTo Future.poll future1 b1) (h2 : ComesTo Future.poll future2 b2) :
    ComesTo Future.poll (or future1 future2) (earlier (fun _ => true) b1 b2) := by
  refine .of_relation (R := fun s b => ∃ b1 b2, b = earlier (fun _ => true) b1 b2 ∧
    ComesTo Future.poll s.future1 b1 ∧ ComesTo Future.poll s.future2 b2) ?_
    ⟨b1, b2, rfl, h1, h2⟩
  rintro ⟨future1, future2⟩ b ⟨b1, b2, rfl, h1, h2⟩
  obtain ⟨res, future1', future2', hp, hres⟩ := pollOr_earlier (fun _ => true) rfl h1 h2
  simp only [Future.poll, hp, ok_bind]
  rcases hres with ⟨t, rfl, ht⟩ | ⟨rfl, b1, b2, hb, hb1, hb2⟩
  · rw [ht]
    exact .ready
  · rw [hb]
    exact .pending ⟨_, _, rfl, hb1, hb2⟩

/-- `race` prefers the future that the coin of that poll shows. -/
theorem race_comesTo [Future F1 T] [Future F2 T] {future1 : F1} {future2 : F2}
    {b1 b2 : Outcome T} (coins : Nat → Bool) (h1 : ComesTo Future.poll future1 b1)
    (h2 : ComesTo Future.poll future2 b2) :
    ComesTo Future.poll (race future1 future2 coins) (earlier coins b1 b2) := by
  refine .of_relation (R := fun s b => ∃ b1 b2, b = earlier s.coins b1 b2 ∧
    ComesTo Future.poll s.future1 b1 ∧ ComesTo Future.poll s.future2 b2) ?_
    ⟨b1, b2, rfl, h1, h2⟩
  rintro ⟨future1, future2, coins⟩ b ⟨b1, b2, rfl, h1, h2⟩
  simp only [Future.poll]
  cases hcoin : coins 0 with
  | true =>
    obtain ⟨res, future1', future2', hp, hres⟩ := pollOr_earlier coins hcoin h1 h2
    simp only [hp, ok_bind, if_true]
    rcases hres with ⟨t, rfl, ht⟩ | ⟨rfl, b1, b2, hb, hb1, hb2⟩
    · rw [ht]
      exact .ready
    · rw [hb]
      exact .pending ⟨_, _, rfl, hb1, hb2⟩
  | false =>
    have htie : (!coins 0) = true := by rw [hcoin]; rfl
    obtain ⟨res, future2', future1', hp, hres⟩ :=
      pollOr_earlier (fun n => !coins n) htie h2 h1
    rw [earlier_swap coins]
    simp only [hp, ok_bind, Bool.false_eq_true, if_false]
    rcases hres with ⟨t, rfl, ht⟩ | ⟨rfl, b2, b1, hb, hb2, hb1⟩
    · rw [ht]
      exact .ready
    · rw [hb]
      exact .pending ⟨_, _, (earlier_swap _ b1 b2).symm, hb1, hb2⟩

/-- The output of the future, or the error from the timer when that is ready earlier. -/
def timedOut (b : Outcome T) (timer : Outcome T1) : Outcome (Except TimeoutError T) :=
  earlier (fun _ => true) (mapped .ok b) (mapped (fun _ => .error .timedOut) timer)

theorem timeout_comesTo [Future F T] [Future D T1] {future : F} {delay : D} {b : Outcome T}
    {timer : Outcome T1} (h : ComesTo Future.poll future b)
    (hd : ComesTo Future.poll delay timer) :
    ComesTo Future.poll (timeout future delay) (timedOut b timer) := by
  refine .of_relation (R := fun s b => ∃ b1 b2, b = timedOut b1 b2 ∧
    ComesTo Future.poll s.future b1 ∧ ComesTo Future.poll s.delay b2) ?_ ⟨b, timer, rfl, h, hd⟩
  rintro ⟨future, delay⟩ b ⟨b1, b2, rfl, h1, h2⟩
  have hagrees1 := h1.agrees
  have hagrees2 := h2.agrees
  simp only [Future.poll, timedOut]
  generalize Future.poll future = r1 at hagrees1
  generalize Future.poll delay = r2 at hagrees2
  cases hagrees1 with
  | ready =>
    rcases now_or_later b2 with ⟨t2, rfl⟩ | ⟨b2, rfl⟩
    · rw [mapped_now, mapped_now, earlier_now]
      exact .ready
    · rw [mapped_now, mapped_later, earlier_now_later]
      exact .ready
  | pending hb1 =>
    cases hagrees2 with
    | ready =>
      rw [mapped_now, mapped_later, earlier_later_now]
      exact .ready
    | pending hb2 =>
      rw [mapped_later, mapped_later, earlier_later]
      exact .pending ⟨_, _, rfl, hb1, hb2⟩

/-- The output, if the first poll has it. -/
def once : Outcome T → Outcome (Option T)
  | some (0, t) => now (some t)
  | _ => now none

theorem pollOnce_comesTo [Future F T] {f : F} {b : Outcome T} (h : ComesTo Future.poll f b) :
    ComesTo Future.poll (pollOnce f) (once b) := by
  have hagrees := h.agrees
  generalize hr : Future.poll f = r at hagrees
  cases hagrees with
  | @ready f' t =>
    refine ⟨pollOnce f, ⟨f'⟩, .refl _, ?_⟩
    change (Future.poll f >>= _) = _
    rw [hr]
    rfl
  | @pending f' b hb =>
    have hp : Future.poll (pollOnce f) = .ok (.ready none, ⟨f'⟩) := by
      change (Future.poll f >>= _) = _
      rw [hr]
      rfl
    rcases b with _ | ⟨n, t⟩ <;> exact ⟨_, _, .refl _, hp⟩

/-! ## Expressions -/

/-- The future is an expression, just built, whose leaves come to something. -/
inductive Denotes : {F T : Type} → [Future F T] → F → Outcome T → Prop
  | leaf {F T : Type} [Future F T] {future : F} {b : Outcome T} :
    ComesTo Future.poll future b → Denotes future b
  | ready {T : Type} (val : T) : Denotes (ready val) (now val)
  | pending {T : Type} : Denotes (pending : Pending T) none
  | yieldNow : Denotes yieldNow (later (now ()))
  | zip {F1 F2 T1 T2 : Type} [Future F1 T1] [Future F2 T2] {future1 : F1} {future2 : F2}
    {b1 : Outcome T1} {b2 : Outcome T2} :
    Denotes future1 b1 → Denotes future2 b2 → Denotes (zip future1 future2) (both b1 b2)
  | tryZip {F1 F2 T1 T2 E : Type} [Future F1 (Except E T1)] [Future F2 (Except E T2)]
    {future1 : F1} {future2 : F2} {b1 : Outcome (Except E T1)} {b2 : Outcome (Except E T2)} :
    Denotes future1 b1 → Denotes future2 b2 → Denotes (tryZip future1 future2) (tried b1 b2)
  | or {F1 F2 T : Type} [Future F1 T] [Future F2 T] {future1 : F1} {future2 : F2}
    {b1 b2 : Outcome T} : Denotes future1 b1 → Denotes future2 b2 →
    Denotes (or future1 future2) (earlier (fun _ => true) b1 b2)
  | race {F1 F2 T : Type} [Future F1 T] [Future F2 T] {future1 : F1} {future2 : F2}
    {b1 b2 : Outcome T} (coins : Nat → Bool) : Denotes future1 b1 → Denotes future2 b2 →
    Denotes (race future1 future2 coins) (earlier coins b1 b2)
  | timeout {F D T T1 : Type} [Future F T] [Future D T1] {future : F} {delay : D}
    {b : Outcome T} {timer : Outcome T1} : Denotes future b → Denotes delay timer →
    Denotes (timeout future delay) (timedOut b timer)
  | pollOnce {F T : Type} [Future F T] {f : F} {b : Outcome T} :
    Denotes f b → Denotes (pollOnce f) (once b)

/-- An expression of futures is ready exactly when its outcome says, or never. No poll fails, so
none of its leaves is polled again after its output. -/
theorem futures_come_to {F T : Type} [Future F T] {future : F} {b : Outcome T}
    (h : Denotes future b) : ComesTo Future.poll future b := by
  induction h with
  | leaf h => exact h
  | ready val => exact ready_comesTo val
  | pending => exact pending_comesTo
  | yieldNow => exact yieldNow_comesTo
  | zip _ _ h1 h2 => exact zip_comesTo h1 h2
  | tryZip _ _ h1 h2 => exact tryZip_comesTo h1 h2
  | or _ _ h1 h2 => exact or_comesTo h1 h2
  | race coins _ _ h1 h2 => exact race_comesTo coins h1 h2
  | timeout _ _ h hd => exact timeout_comesTo h hd
  | pollOnce _ h => exact pollOnce_comesTo h

theorem delay_comesTo (left : Nat) (output : T) :
    ComesTo Future.poll (Streams.delay left output) (some (left, output)) := by
  induction left with
  | zero => exact ⟨_, _, .refl _, rfl⟩
  | succ left ih =>
    obtain ⟨t, u, ht, hready⟩ := ih
    exact ⟨t, u, .step rfl ht, hready⟩

/-- `zip(timeout(delay(2, 7), delay(1, ())), race(pending(), or(delay(3, 8), ready(9))))`. -/
theorem futures_come_to_zip : ComesTo Future.poll
    (zip (timeout (Streams.delay 2 7) (Streams.delay 1 ()))
      (race (pending : Pending Nat) (or (Streams.delay 3 8) (ready 9)) fun _ => true))
    (some (1, .error .timedOut, 9)) :=
  futures_come_to (.zip (.timeout (.leaf (delay_comesTo 2 7)) (.leaf (delay_comesTo 1 ())))
    (.race _ .pending (.or (.leaf (delay_comesTo 3 8)) (.ready 9))))

end Futures

end Cynthia.Futures
