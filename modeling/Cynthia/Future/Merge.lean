import Cynthia.Future.Stream

/-! `or` and `race` of `future/stream.rs`, on streams that keep returning `None` once they
have ended. What `rander::bool` returns in turn is a field of `Race`. -/

namespace Cynthia.Streams

open Polling

/-- A stream that somebody else has written, like `Source`, but it may be polled on after
its end. -/
structure Fused (α : Type) where
  script : List (Option α)
  ended : Bool
  deriving DecidableEq, Repr

def fused {α : Type} (script : List (Option α)) : Fused α := ⟨script, false⟩

def Fused.next {α : Type} (s : Fused α) : Poll (Option α) × Fused α :=
  match s.script with
  | none :: script => (.pending, { s with script })
  | some a :: script => (.ready (some a), { s with script })
  | [] => (.ready none, { s with ended := true })

instance {α : Type} : Stream (Fused α) α where
  pollNext _ s := .ok s.next

structure Or (S U : Type) where
  stream1 : S
  stream2 : U

def or {S U : Type} (stream1 : S) (stream2 : U) : Or S U := ⟨stream1, stream2⟩

instance {S U α : Type} [Stream S α] [Stream U α] : Stream (Or S U) α where
  pollNext fuel this := do
    let (next, stream1) ← pollNext fuel this.stream1
    match next with
    | .ready (some t) => pure (.ready (some t), { this with stream1 })
    | .pending | .ready none =>
      let (next, stream2) ← pollNext fuel this.stream2
      pure (next, ⟨stream1, stream2⟩)

structure Race (S U : Type) where
  stream1 : S
  stream2 : U
  rander : Nat → Bool

def race {S U : Type} (stream1 : S) (stream2 : U) (rander : Nat → Bool) : Race S U :=
  ⟨stream1, stream2, rander⟩

/-- The two attempts of one branch, in its order. -/
def pollBoth {S U α : Type} [Stream S α] [Stream U α] (fuel : Nat) (s : S) (u : U) :
    Except Fault (Poll (Option α) × S × U) := do
  let (next, s) ← pollNext fuel s
  match next with
  | .ready (some t) => pure (.ready (some t), s, u)
  | .pending | .ready none =>
    let (next, u) ← pollNext fuel u
    match next with
    | .ready (some t) => pure (.ready (some t), s, u)
    | .pending | .ready none => pure (.pending, s, u)

instance {S U α : Type} [Stream S α] [Stream U α] : Stream (Race S U) α where
  pollNext fuel this :=
    let rander n := this.rander (n + 1)
    if this.rander 0 then do
      let (next, stream1, stream2) ← pollBoth fuel this.stream1 this.stream2
      pure (next, ⟨stream1, stream2, rander⟩)
    else do
      let (next, stream2, stream1) ← pollBoth fuel this.stream2 this.stream1
      pure (next, ⟨stream1, stream2, rander⟩)

/-! ## What a merge of two streams is -/

section Merge

variable {T α : Type} {fuel : Nat}

/-- `zs` has the items of `xs` and those of `ys`, each in their order. -/
inductive Interleaves : List α → List α → List α → Prop
  | nil : Interleaves [] [] []
  | left {xs ys zs : List α} (x : α) : Interleaves xs ys zs → Interleaves (x :: xs) ys (x :: zs)
  | right {xs ys zs : List α} (y : α) : Interleaves xs ys zs → Interleaves xs (y :: ys) (y :: zs)

/-- Some polls of `t` leave it as `t'`. -/
inductive Reaches [Stream T α] (fuel : Nat) : T → T → Prop
  | refl (t : T) : Reaches fuel t t
  | poll {t t' t'' : T} {next : Poll (Option α)} :
    pollNext fuel t = .ok (next, t') → Reaches fuel t' t'' → Reaches fuel t t''

/-- What a script holds. -/
def items (script : List (Option α)) : List α := script.filterMap id

def pendings (script : List (Option α)) : Nat := script.countP Option.isNone

/-- `t` merges the two streams that it polls. -/
structure Merges [Stream T α] (fuel : Nat) (t : T) (stream1 stream2 : T → Fused α) : Prop where
  yields : ∃ zs, Yields (pollNext fuel) t zs ∧
    Interleaves (items (stream1 t).script) (items (stream2 t).script) zs
  ends : ∀ t' t'', Reaches fuel t t' → pollNext fuel t' = .ok (.ready none, t'') →
    (stream1 t'').ended ∧ (stream2 t'').ended
  suspends : ∀ t' t'', Reaches fuel t t' → pollNext fuel t' = .ok (.pending, t'') →
    (stream1 t').next.1 = .pending ∨ (stream2 t').next.1 = .pending

end Merge

/-! ## `or` -/

section Or

variable {α : Type} {fuel : Nat} {script1 script2 : List (Option α)} {ended1 ended2 : Bool}
  {t t' : Or (Fused α) (Fused α)} {next : Poll (Option α)}

/-- A poll of the first stream that gives an item is all there is. -/
theorem or_poll_cases (h : pollNext fuel t = .ok (next, t')) :
    (∃ a script, t.stream1.script = some a :: script ∧ next = .ready (some a) ∧
      t' = { t with stream1 := { t.stream1 with script } }) ∨
    ((∀ a script, t.stream1.script ≠ some a :: script) ∧ next = t.stream2.next.1 ∧
      t' = ⟨t.stream1.next.2, t.stream2.next.2⟩) := by
  obtain ⟨⟨script1, ended1⟩, stream2⟩ := t
  rcases script1 with _ | ⟨_ | a, script1⟩
  · cases h
    exact .inr ⟨fun _ _ h => (by cases h), rfl, rfl⟩
  · cases h
    exact .inr ⟨fun _ _ h => (by cases h), rfl, rfl⟩
  · cases h
    exact .inl ⟨a, script1, rfl, rfl, rfl⟩

/-- While the first stream can still be pending, the second one has something to return. -/
def Covered (t : Or (Fused α) (Fused α)) : Prop :=
  pendings t.stream1.script ≤ t.stream2.script.length

theorem pendings_none (script : List (Option α)) :
    pendings (none :: script) = pendings script + 1 :=
  List.countP_cons_of_pos rfl

theorem pendings_some (a : α) (script : List (Option α)) :
    pendings (some a :: script) = pendings script :=
  List.countP_cons_of_neg (by rw [Option.isNone_some]; exact Bool.false_ne_true)

theorem Covered.poll (h : pollNext fuel t = .ok (next, t')) (ht : Covered t) : Covered t' := by
  rcases or_poll_cases h with ⟨a, script, hscript, -, rfl⟩ | ⟨hitem, -, rfl⟩
  · rw [Covered, hscript, pendings_some] at ht
    exact ht
  · obtain ⟨⟨script1, ended1⟩, ⟨script2, ended2⟩⟩ := t
    have htail : (Fused.next ⟨script2, ended2⟩).2.script = script2.tail := by
      rcases script2 with _ | ⟨_ | _, _⟩ <;> rfl
    rw [Covered, htail, List.length_tail]
    rcases script1 with _ | ⟨_ | a, script1⟩
    · exact Nat.zero_le _
    · rw [Covered, pendings_none] at ht
      exact Nat.le_sub_one_of_lt ht
    · exact absurd rfl (hitem a script1)

theorem Covered.reaches (h : Reaches fuel t t') (ht : Covered t) : Covered t' := by
  induction h with
  | refl => exact ht
  | poll h _ ih => exact ih (ht.poll h)

theorem Covered.ends (h : pollNext fuel t = .ok (.ready none, t')) (ht : Covered t) :
    t'.stream1.ended ∧ t'.stream2.ended := by
  rcases or_poll_cases h with ⟨a, script, -, hnext, -⟩ | ⟨hitem, hnext, rfl⟩
  · cases hnext
  · obtain ⟨⟨script1, ended1⟩, ⟨script2, ended2⟩⟩ := t
    rcases script2 with _ | ⟨_ | b, script2⟩
    · rcases script1 with _ | ⟨_ | a, script1⟩
      · exact ⟨rfl, rfl⟩
      · rw [Covered, pendings_none] at ht
        exact absurd ht (Nat.not_succ_le_zero _)
      · exact absurd rfl (hitem a script1)
    · cases hnext
    · cases hnext

/-- What suspends `or` is its second stream. -/
theorem or_suspends (h : pollNext fuel t = .ok (.pending, t')) : t.stream2.next.1 = .pending := by
  rcases or_poll_cases h with ⟨a, script, -, hnext, -⟩ | ⟨-, hnext, -⟩
  · cases hnext
  · exact hnext.symm

theorem or_yields (h : pendings script1 ≤ script2.length) :
    ∃ zs, Yields (pollNext fuel) (or (Fused.mk script1 ended1) (Fused.mk script2 ended2)) zs ∧
      Interleaves (items script1) (items script2) zs := by
  induction script1 generalizing script2 with
  | nil =>
    induction script2 generalizing ended1 with
    | nil => exact ⟨[], .done rfl, .nil⟩
    | cons answer script2 ih =>
      obtain ⟨zs, hzs, hitems⟩ := ih (Nat.zero_le _)
      cases answer with
      | none => exact ⟨zs, .pending rfl hzs, hitems⟩
      | some b => exact ⟨b :: zs, .item rfl hzs, .right b hitems⟩
  | cons answer script1 ih =>
    cases answer with
    | some a =>
      obtain ⟨zs, hzs, hitems⟩ := ih (pendings_some a script1 ▸ h)
      exact ⟨a :: zs, .item rfl hzs, .left a hitems⟩
    | none =>
      rw [pendings_none] at h
      cases script2 with
      | nil => exact absurd h (Nat.not_succ_le_zero _)
      | cons answer script2 =>
        obtain ⟨zs, hzs, hitems⟩ := ih (Nat.le_of_succ_le_succ h)
        cases answer with
        | none => exact ⟨zs, .pending rfl hzs, hitems⟩
        | some b => exact ⟨b :: zs, .item rfl hzs, .right b hitems⟩

/-- The second stream has ended, and the first one is pending once more. -/
theorem or_ends_early (h : script2.length < pendings script1) :
    ∃ t t', Reaches fuel (or (Fused.mk script1 false) (Fused.mk script2 ended2)) t ∧
      pollNext fuel t = .ok (.ready none, t') ∧ t'.stream1.ended = false := by
  induction script1 generalizing script2 with
  | nil => exact absurd h (Nat.not_lt_zero _)
  | cons answer script1 ih =>
    cases answer with
    | some a =>
      obtain ⟨t, t', hreach, hpoll, hended⟩ := ih (pendings_some a script1 ▸ h)
      exact ⟨t, t', .poll rfl hreach, hpoll, hended⟩
    | none =>
      cases script2 with
      | nil => exact ⟨_, _, .refl _, rfl, rfl⟩
      | cons answer script2 =>
        rw [pendings_none] at h
        obtain ⟨t, t', hreach, hpoll, hended⟩ := ih (Nat.lt_of_succ_lt_succ h)
        cases answer with
        | none => exact ⟨t, t', .poll rfl hreach, hpoll, hended⟩
        | some b => exact ⟨t, t', .poll rfl hreach, hpoll, hended⟩

end Or

/-! ## `race` -/

section Race

variable {α : Type} {fuel : Nat}

/-- What an attempt at both streams takes from their scripts. -/
structure Taken (next : Poll (Option α)) (s s' u u' : Fused α) : Prop where
  items : (next = .pending ∧ items s.script = items s'.script ∧ items u.script = items u'.script) ∨
    ∃ a, next = .ready (some a) ∧
      ((items s.script = a :: items s'.script ∧ items u.script = items u'.script) ∨
        (items s.script = items s'.script ∧ items u.script = a :: items u'.script))
  shrinks : s'.script.length + u'.script.length ≤ s.script.length + u.script.length - 1

theorem pollBoth_taken (s u : Fused α) :
    ∃ next s' u', pollBoth fuel s u = .ok (next, s', u') ∧ Taken next s s' u u' := by
  obtain ⟨script1, ended1⟩ := s
  obtain ⟨script2, ended2⟩ := u
  rcases script1 with _ | ⟨_ | a, script1⟩ <;> rcases script2 with _ | ⟨_ | b, script2⟩
  all_goals first
    | exact ⟨_, _, _, rfl, .inl ⟨rfl, rfl, rfl⟩, by simp only [List.length]; omega⟩
    | exact ⟨_, _, _, rfl, .inr ⟨_, rfl, .inl ⟨rfl, rfl⟩⟩, by simp only [List.length]; omega⟩
    | exact ⟨_, _, _, rfl, .inr ⟨_, rfl, .inr ⟨rfl, rfl⟩⟩, by simp only [List.length]; omega⟩

theorem Taken.symm {next : Poll (Option α)} {s s' u u' : Fused α} (h : Taken next s s' u u') :
    Taken next u u' s s' where
  items := h.items.imp (fun h => ⟨h.1, h.2.2, h.2.1⟩) fun ⟨a, hnext, h⟩ =>
    ⟨a, hnext, h.symm.imp And.symm And.symm⟩
  shrinks := by
    have := h.shrinks
    omega

theorem race_poll (fuel : Nat) (t : Race (Fused α) (Fused α)) :
    ∃ next t', pollNext fuel t = .ok (next, t') ∧
      Taken next t.stream1 t'.stream1 t.stream2 t'.stream2 := by
  obtain ⟨s, u, rander⟩ := t
  change ∃ next t', (if rander 0 then _ else _) = _ ∧ _
  split
  · obtain ⟨next, s', u', hboth, htaken⟩ : ∃ next s' u',
        pollBoth fuel s u = .ok (next, s', u') ∧ Taken next s s' u u' := pollBoth_taken s u
    exact ⟨next, _, congrArg (· >>= _) hboth, htaken⟩
  · obtain ⟨next, u', s', hboth, htaken⟩ : ∃ next u' s',
        pollBoth fuel u s = .ok (next, u', s') ∧ Taken next u u' s s' := pollBoth_taken u s
    exact ⟨next, _, congrArg (· >>= _) hboth, htaken.symm⟩

theorem race_never_ends {t t' : Race (Fused α) (Fused α)} :
    pollNext fuel t ≠ .ok (.ready none, t') := by
  intro h
  obtain ⟨next, t'', hpoll, htaken⟩ := race_poll fuel t
  cases h.symm.trans hpoll
  rcases htaken.items with ⟨hnext, -⟩ | ⟨a, hnext, -⟩ <;> cases hnext

/-- Only the end is missing: all items of both come, in an order that the choices decide. -/
theorem race_drains (n : Nat) {t : Race (Fused α) (Fused α)}
    (hn : t.stream1.script.length + t.stream2.script.length ≤ n) :
    ∃ zs, drain (pollNext fuel) n t = .ok (zs, false) ∧
      Interleaves (items t.stream1.script) (items t.stream2.script) zs := by
  induction n generalizing t with
  | zero =>
    have h1 : t.stream1.script = [] := List.length_eq_zero_iff.mp (by omega)
    have h2 : t.stream2.script = [] := List.length_eq_zero_iff.mp (by omega)
    rw [h1, h2]
    exact ⟨[], rfl, .nil⟩
  | succ n ih =>
    obtain ⟨next, t', hpoll, htaken⟩ := race_poll fuel t
    have hshrinks := htaken.shrinks
    obtain ⟨zs, hdrain, hzs⟩ := ih (t := t') (by omega)
    rw [drain, hpoll]
    rcases htaken.items with ⟨rfl, h1, h2⟩ | ⟨a, rfl, ⟨h1, h2⟩ | ⟨h1, h2⟩⟩
    · rw [h1, h2]
      exact ⟨zs, hdrain, hzs⟩
    · rw [h1, h2]
      exact ⟨a :: zs, by dsimp only; rw [hdrain]; rfl, .left a hzs⟩
    · rw [h1, h2]
      exact ⟨a :: zs, by dsimp only; rw [hdrain]; rfl, .right a hzs⟩

theorem race_never_merges {t : Race (Fused α) (Fused α)} :
    ¬Merges fuel t Race.stream1 Race.stream2 := by
  intro h
  obtain ⟨zs, hzs, -⟩ := h.yields
  clear h
  induction hzs with
  | done hpoll => exact race_never_ends hpoll
  | item _ _ ih => exact ih
  | pending _ _ ih => exact ih

end Race

/-! ## Both -/

/-- `or` merges its streams just if the first one is pending no more often than the second
one has anything to return before its end. `race` never does, because it never ends. -/
theorem merges_iff {α : Type} (fuel : Nat) (script1 script2 : List (Option α)) :
    (Merges fuel (or (fused script1) (fused script2)) Or.stream1 Or.stream2 ↔
      pendings script1 ≤ script2.length) ∧
    ∀ rander, ¬Merges fuel (race (fused script1) (fused script2) rander) Race.stream1
      Race.stream2 := by
  refine ⟨⟨fun h => ?_, fun h => ?_⟩, fun _ => race_never_merges⟩
  · by_contra hlt
    obtain ⟨t, t', hreach, hpoll, hended⟩ : ∃ t t',
        Reaches fuel (or (fused script1) (fused script2)) t ∧
          pollNext fuel t = .ok (.ready none, t') ∧ t'.stream1.ended = false :=
      or_ends_early (Nat.lt_of_not_le hlt)
    have := (h.ends t t' hreach hpoll).1
    rw [hended] at this
    cases this
  · exact {
      yields := or_yields h
      ends := fun t t' hreach hpoll => Covered.ends hpoll (Covered.reaches hreach h)
      suspends := fun t t' _ hpoll => .inr (or_suspends hpoll) }

/-- `or` ends while two items of its first stream are still to come. `race` gives both and
does not end. -/
theorem or_loses_items :
    let s : Fused Nat := fused [none, some 1, some 2]
    let u : Fused Nat := fused []
    drain (pollNext 0) 1 (or s u) = .ok ([], true) ∧ ¬Merges 0 (or s u) Or.stream1 Or.stream2 ∧
      ¬Merges 0 (race s u fun _ => true) Race.stream1 Race.stream2 := by
  refine ⟨rfl, fun h => ?_, race_never_merges⟩
  exact Bool.false_ne_true (h.ends _ _ (.refl _) rfl).1

end Cynthia.Streams
