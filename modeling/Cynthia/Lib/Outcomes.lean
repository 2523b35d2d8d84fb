import Cynthia.Lib.Polling

/-! What a future comes to when it is polled again and again: after how many polls that are
pending it is ready, and with what, or never. A relation between states and outcomes that every
poll respects shows it. -/

namespace Polling

/-- The value after so many polls that are pending; `none` is never. -/
abbrev Outcome (α : Type*) := Option (Nat × α)

namespace Outcome

variable {α β γ ε : Type*}

def now (a : α) : Outcome α := some (0, a)

/-- One poll later. -/
def later (b : Outcome α) : Outcome α := b.map fun (n, a) => (n + 1, a)

@[simp] theorem later_none : later (none : Outcome α) = none := rfl

@[simp] theorem later_some (n : Nat) (a : α) : later (some (n, a)) = some (n + 1, a) := rfl

theorem now_or_later (b : Outcome α) : (∃ a, b = now a) ∨ ∃ b', b = later b' := by
  match b with
  | none => exact .inr ⟨none, rfl⟩
  | some (0, a) => exact .inl ⟨a, rfl⟩
  | some (n + 1, a) => exact .inr ⟨some (n, a), rfl⟩

/-- The value is changed. -/
def mapped (f : α → β) (b : Outcome α) : Outcome β := b.map fun (n, a) => (n, f a)

@[simp] theorem mapped_now (f : α → β) (a : α) : mapped f (now a) = now (f a) := rfl

@[simp] theorem mapped_later (f : α → β) (b : Outcome α) :
    mapped f (later b) = later (mapped f b) := by
  cases b <;> rfl

/-- Both values, when both are there. -/
def both : Outcome α → Outcome β → Outcome (α × β)
  | some (n, a), some (m, b) => some (max n m, a, b)
  | _, _ => none

@[simp] theorem both_now (a : α) (b : β) : both (now a) (now b) = now (a, b) := rfl

@[simp] theorem both_now_later (a : α) (b : Outcome β) :
    both (now a) (later b) = later (both (now a) b) := by
  rcases b with _ | ⟨m, b⟩ <;> simp [both, now]

@[simp] theorem both_later_now (a : Outcome α) (b : β) :
    both (later a) (now b) = later (both a (now b)) := by
  rcases a with _ | ⟨n, a⟩ <;> simp [both, now]

@[simp] theorem both_later (a : Outcome α) (b : Outcome β) :
    both (later a) (later b) = later (both a b) := by
  rcases a with _ | ⟨n, a⟩ <;> rcases b with _ | ⟨m, b⟩ <;> simp [both]

/-- The value that is there first. At the same poll, `tie` says whether it is the first one. -/
def earlier (tie : Nat → Bool) : Outcome α → Outcome α → Outcome α
  | some (n, a), some (m, b) =>
    if n < m ∨ n = m ∧ tie n = true then some (n, a) else some (m, b)
  | some a, none => some a
  | none, b => b

@[simp] theorem earlier_now_later (tie : Nat → Bool) (a : α) (b : Outcome α) :
    earlier tie (now a) (later b) = now a := by
  rcases b with _ | ⟨m, b⟩ <;> simp [earlier, now]

@[simp] theorem earlier_later_now (tie : Nat → Bool) (a : Outcome α) (b : α) :
    earlier tie (later a) (now b) = now b := by
  rcases a with _ | ⟨n, a⟩ <;> simp [earlier, now]

@[simp] theorem earlier_now (tie : Nat → Bool) (a b : α) :
    earlier tie (now a) (now b) = now (if tie 0 then a else b) := by
  cases h : tie 0 <;> simp [earlier, now, h]

theorem earlier_later (tie : Nat → Bool) (a b : Outcome α) :
    earlier tie (later a) (later b) = later (earlier (fun n => tie (n + 1)) a b) := by
  match a, b with
  | none, none | none, some _ | some _, none => rfl
  | some (n, a), some (m, b) =>
    simp only [later_some, earlier, Nat.add_lt_add_iff_right, Nat.add_right_cancel_iff]
    split <;> rfl

theorem earlier_swap (tie : Nat → Bool) (a b : Outcome α) :
    earlier tie a b = earlier (fun n => !tie n) b a := by
  match a, b with
  | none, none | none, some _ | some _, none => rfl
  | some (n, a), some (m, b) =>
    simp only [earlier]
    rcases Nat.lt_trichotomy n m with hlt | rfl | hgt
    · rw [if_pos (.inl hlt), if_neg (by omega)]
    · by_cases htie : tie n = true <;> simp [htie]
    · rw [if_neg (by omega), if_pos (.inl hgt)]

/-- The first error there is, or both values. At the same poll, the error of the first one. -/
def tried : Outcome (Except ε α) → Outcome (Except ε β) → Outcome (Except ε (α × β))
  | some (n, .error e), some (m, .error e') =>
    if n ≤ m then some (n, .error e) else some (m, .error e')
  | some (n, .error e), _ => some (n, .error e)
  | _, some (m, .error e) => some (m, .error e)
  | some (n, .ok a), some (m, .ok b) => some (max n m, .ok (a, b))
  | some (_, .ok _), none | none, some (_, .ok _) | none, none => none

@[simp] theorem tried_error (e : ε) (b : Outcome (Except ε β)) :
    tried (now (.error e) : Outcome (Except ε α)) b = now (.error e) := by
  rcases b with _ | ⟨m, _ | b⟩ <;> simp [tried, now]

@[simp] theorem tried_now_error (a : α) (e : ε) :
    tried (now (.ok a)) (now (.error e) : Outcome (Except ε β)) = now (.error e) := rfl

@[simp] theorem tried_later_error (a : Outcome (Except ε α)) (e : ε) :
    tried (later a) (now (.error e) : Outcome (Except ε β)) = now (.error e) := by
  rcases a with _ | ⟨n, _ | a⟩ <;> simp [tried, now]

@[simp] theorem tried_now (a : α) (b : β) :
    tried (now (.ok a : Except ε α)) (now (.ok b)) = now (.ok (a, b)) := rfl

@[simp] theorem tried_now_later (a : α) (b : Outcome (Except ε β)) :
    tried (now (.ok a)) (later b) = later (tried (now (.ok a)) b) := by
  rcases b with _ | ⟨m, _ | b⟩ <;> simp [tried, now]

@[simp] theorem tried_later_now (a : Outcome (Except ε α)) (b : β) :
    tried (later a) (now (.ok b)) = later (tried a (now (.ok b))) := by
  rcases a with _ | ⟨n, _ | a⟩ <;> simp [tried, now]

@[simp] theorem tried_later (a : Outcome (Except ε α)) (b : Outcome (Except ε β)) :
    tried (later a) (later b) = later (tried a b) := by
  rcases a with _ | ⟨n, _ | a⟩ <;> rcases b with _ | ⟨m, _ | b⟩ <;> simp [tried]
  split <;> rfl

end Outcome

open Outcome

section ComesTo

variable {σ τ α β ε : Type*} (poll : σ → Except ε (Poll α × σ))

/-- So many polls are pending. -/
inductive Pends : Nat → σ → σ → Prop
  | refl (s : σ) : Pends 0 s s
  | step {n : Nat} {s s' t : σ} : poll s = .ok (.pending, s') → Pends n s' t → Pends (n + 1) s t

/-- The polls of `s` are pending until the time of the outcome, and then one is ready with its
value. -/
def ComesTo (s : σ) : Outcome α → Prop
  | none => ∀ n, ∃ t, Pends poll n s t
  | some (n, a) => ∃ t u, Pends poll n s t ∧ poll t = .ok (.ready a, u)

/-- One poll is as the outcome says, and leaves a state that has the rest of it. -/
inductive Agrees (R : σ → Outcome α → Prop) : Except ε (Poll α × σ) → Outcome α → Prop
  | ready {s : σ} {a : α} : Agrees R (.ok (.ready a, s)) (now a)
  | pending {s : σ} {b : Outcome α} : R s b → Agrees R (.ok (.pending, s)) (later b)

variable {poll} {s : σ} {b : Outcome α} {R : σ → Outcome α → Prop}

theorem ComesTo.agrees (h : ComesTo poll s b) : Agrees (ComesTo poll) (poll s) b := by
  match b with
  | none =>
    obtain ⟨t, ht⟩ := h 1
    cases ht with
    | step hs hrest =>
      rename_i s'
      rw [hs]
      refine .pending (b := none) fun n => ?_
      obtain ⟨t, ht⟩ := h (n + 1)
      cases ht with
      | step hs' ht =>
        cases hs.symm.trans hs'
        exact ⟨t, ht⟩
  | some (0, a) =>
    obtain ⟨t, u, ht, hready⟩ := h
    cases ht
    rw [hready]
    exact .ready
  | some (n + 1, a) =>
    obtain ⟨t, u, ht, hready⟩ := h
    cases ht with
    | step hs ht =>
      rw [hs]
      exact .pending (b := some (n, a)) ⟨t, u, ht, hready⟩

/-- Every poll respects the relation. -/
theorem ComesTo.of_relation (hR : ∀ s b, R s b → Agrees R (poll s) b) (h : R s b) :
    ComesTo poll s b := by
  have hnext : ∀ s b, R s (later b) → ∃ s', poll s = .ok (.pending, s') ∧ R s' b := by
    intro s b h
    have hagrees := hR s _ h
    generalize hp : poll s = r at hagrees
    generalize hb : later b = b' at hagrees
    cases hagrees with
    | ready => cases b <;> cases hb
    | pending hs =>
      rename_i s' b'
      have heq : b = b' := by
        match b, b' with
        | none, none => rfl
        | some (n, a), some (m, a') =>
          cases hb
          rfl
        | none, some _ => cases hb
        | some _, none => cases hb
      exact ⟨s', rfl, heq ▸ hs⟩
  match b with
  | none =>
    intro n
    induction n generalizing s with
    | zero => exact ⟨s, .refl s⟩
    | succ n ih =>
      obtain ⟨s', hs, hrest⟩ := hnext s none h
      obtain ⟨t, ht⟩ := ih hrest
      exact ⟨t, .step hs ht⟩
  | some (n, a) =>
    induction n generalizing s with
    | zero =>
      have hagrees := hR s _ h
      generalize hp : poll s = r at hagrees
      generalize hb : (some (0, a) : Outcome α) = b' at hagrees
      cases hagrees with
      | ready =>
        rename_i u a'
        cases hb
        exact ⟨s, u, .refl s, hp⟩
      | pending hs =>
        rename_i b'
        cases b' <;> cases hb
    | succ n ih =>
      obtain ⟨s', hs, hrest⟩ := hnext s (some (n, a)) h
      obtain ⟨t, u, ht, hready⟩ := ih hrest
      exact ⟨t, u, .step hs ht, hready⟩

end ComesTo

end Polling
