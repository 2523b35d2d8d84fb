import Mathlib.Data.List.Basic

/-! Things that are polled: a poll fails, is pending, or is ready with a value, and leaves
the thing in its next state. `Yields` is what a whole sequence of polls gives, up to the
first `none`; `Begins` is the same after the first poll of it has been made. -/

namespace Polling

inductive Poll (α : Type*) where
  | pending
  | ready (a : α)
  deriving DecidableEq, Repr

variable {σ τ α β ε ε' : Type*}

def Poll.map (f : α → β) : Poll α → Poll β
  | .pending => .pending
  | .ready a => .ready (f a)

@[simp] theorem ok_bind.{u, v} {ε : Type u} {α β : Type v} (a : α) (f : α → Except ε β) :
    (Except.ok a >>= f) = f a := rfl

section Stream

variable (poll : σ → Except ε (Poll (Option α) × σ))

/-- Polled until its first `none`, after finitely many `pending`, `s` gives the items `xs`. -/
inductive Yields : σ → List α → Prop
  | done {s s' : σ} : poll s = .ok (.ready none, s') → Yields s []
  | item {s s' : σ} {x : α} {xs : List α} :
    poll s = .ok (.ready (some x), s') → Yields s' xs → Yields s (x :: xs)
  | pending {s s' : σ} {xs : List α} : poll s = .ok (.pending, s') → Yields s' xs → Yields s xs

/-- What one poll has returned, and then the polls that follow, give the items `xs`. -/
inductive Begins : Except ε (Poll (Option α) × σ) → List α → Prop
  | done {s : σ} : Begins (.ok (.ready none, s)) []
  | item {s : σ} {x : α} {xs : List α} :
    Yields poll s xs → Begins (.ok (.ready (some x), s)) (x :: xs)
  | pending {s : σ} {xs : List α} : Yields poll s xs → Begins (.ok (.pending, s)) xs

/-- At most `n` polls: the items, and whether the last poll returned `none`. -/
def drain : Nat → σ → Except ε (List α × Bool)
  | 0, _ => .ok ([], false)
  | n + 1, s =>
    match poll s with
    | .error e => .error e
    | .ok (.pending, s) => drain n s
    | .ok (.ready none, _) => .ok ([], true)
    | .ok (.ready (some x), s) => (drain n s).map fun (xs, ended) => (x :: xs, ended)

variable {poll} {s : σ} {xs : List α}

theorem Yields.of_begins (h : Begins poll (poll s) xs) : Yields poll s xs := by
  generalize hr : poll s = r at h
  cases h with
  | done => exact .done hr
  | item h => exact .item hr h
  | pending h => exact .pending hr h

/-- The first poll of `s` is the first poll of `s'`. -/
theorem Yields.of_poll_eq {s' : σ} (hpoll : poll s = poll s') (h : Yields poll s' xs) :
    Yields poll s xs := by
  cases h with
  | done hr => exact .done (hpoll.trans hr)
  | item hr h => exact .item (hpoll.trans hr) h
  | pending hr h => exact .pending (hpoll.trans hr) h

theorem Yields.of_done {s' : σ} (hr : poll s = .ok (.ready none, s')) (h : Yields poll s xs) :
    xs = [] := by
  cases h with
  | done => rfl
  | item hr' | pending hr' => cases hr.symm.trans hr'

theorem Yields.of_item {s' : σ} {x : α} (hr : poll s = .ok (.ready (some x), s'))
    (h : Yields poll s xs) : ∃ ys, xs = x :: ys ∧ Yields poll s' ys := by
  cases h with
  | item hr' h =>
    cases hr.symm.trans hr'
    exact ⟨_, rfl, h⟩
  | done hr' | pending hr' => cases hr.symm.trans hr'

theorem Yields.of_pending {s' : σ} (hr : poll s = .ok (.pending, s')) (h : Yields poll s xs) :
    Yields poll s' xs := by
  cases h with
  | pending hr' h =>
    cases hr.symm.trans hr'
    exact h
  | done hr' | item hr' => cases hr.symm.trans hr'

theorem Yields.ne_error (h : Yields poll s xs) (e : ε) : poll s ≠ .error e := by
  intro he
  cases h with
  | done hr | item hr | pending hr => cases he.symm.trans hr

theorem Yields.unique {ys : List α} (h : Yields poll s xs) (h' : Yields poll s ys) : xs = ys := by
  induction h generalizing ys with
  | done hr => exact (h'.of_done hr).symm
  | item hr _ ih =>
    obtain ⟨ys, rfl, hrest⟩ := h'.of_item hr
    rw [ih hrest]
  | pending hr _ ih => exact ih (h'.of_pending hr)

/-- Poll for poll `t` returns what `s` returns, up to `f`. -/
theorem Yields.simulates {poll' : τ → Except ε' (Poll (Option β) × τ)} {r : σ → τ → Prop}
    {f : α → β} {t : τ}
    (hstep : ∀ {s s' t res}, r s t → poll s = .ok (res, s') →
      ∃ t', poll' t = .ok (res.map (Option.map f), t') ∧ r s' t')
    (h : Yields poll s xs) (hr : r s t) : Yields poll' t (xs.map f) := by
  induction h generalizing t with
  | done hs =>
    obtain ⟨t', ht, -⟩ := hstep hr hs
    exact .done ht
  | item hs _ ih =>
    obtain ⟨t', ht, hr'⟩ := hstep hr hs
    exact .item ht (ih hr')
  | pending hs _ ih =>
    obtain ⟨t', ht, hr'⟩ := hstep hr hs
    exact .pending ht (ih hr')

/-- Enough polls reach the end. -/
theorem Yields.drain (h : Yields poll s xs) :
    ∃ n, ∀ m, n ≤ m → drain poll m s = .ok (xs, true) := by
  induction h with
  | done hr =>
    refine ⟨1, fun m hm => ?_⟩
    obtain ⟨m, rfl⟩ := Nat.exists_eq_add_of_le' hm
    simp only [Polling.drain, hr]
  | item hr _ ih =>
    obtain ⟨n, ih⟩ := ih
    refine ⟨n + 1, fun m hm => ?_⟩
    obtain ⟨m, rfl⟩ := Nat.exists_eq_add_of_le' (Nat.le_trans (Nat.le_add_left 1 n) hm)
    have hm := ih m (Nat.le_of_succ_le_succ hm)
    simp only [Polling.drain, hr, hm]
    rfl
  | pending hr _ ih =>
    obtain ⟨n, ih⟩ := ih
    refine ⟨n + 1, fun m hm => ?_⟩
    obtain ⟨m, rfl⟩ := Nat.exists_eq_add_of_le' (Nat.le_trans (Nat.le_add_left 1 n) hm)
    have hm := ih m (Nat.le_of_succ_le_succ hm)
    simp only [Polling.drain, hr, hm]

end Stream

section Future

variable (poll : σ → Except ε (Poll α × σ))

/-- Polled until it is ready, after finitely many `pending`, `s` gives `a`. -/
inductive Resolves : σ → α → Prop
  | ready {s s' : σ} {a : α} : poll s = .ok (.ready a, s') → Resolves s a
  | pending {s s' : σ} {a : α} : poll s = .ok (.pending, s') → Resolves s' a → Resolves s a

/-- Polled until it is ready, `s` gives `a` and is left as the last state. -/
inductive Completes : σ → α → σ → Prop
  | ready {s s' : σ} {a : α} : poll s = .ok (.ready a, s') → Completes s a s'
  | pending {s s' t : σ} {a : α} : poll s = .ok (.pending, s') → Completes s' a t → Completes s a t

/-- What one poll has returned, and then the polls that follow, give `a` and the last state. -/
inductive Concludes : Except ε (Poll α × σ) → α → σ → Prop
  | ready {s : σ} {a : α} : Concludes (.ok (.ready a, s)) a s
  | pending {s t : σ} {a : α} : Completes poll s a t → Concludes (.ok (.pending, s)) a t

variable {poll} {s s' t : σ} {a b : α}

theorem Completes.of_concludes (h : Concludes poll (poll s) a t) : Completes poll s a t := by
  generalize hr : poll s = r at h
  cases h with
  | ready => exact .ready hr
  | pending h => exact .pending hr h

theorem completes_of_pending (hr : poll s = .ok (.pending, s')) :
    Completes poll s a t ↔ Completes poll s' a t := by
  constructor
  · intro h
    cases h with
    | ready hr' => cases hr.symm.trans hr'
    | pending hr' h =>
      cases hr.symm.trans hr'
      exact h
  · exact .pending hr

/-- Poll for poll `u` returns what `s` returns, up to `f`. -/
theorem Completes.simulates {poll' : τ → Except ε' (Poll β × τ)} {r : σ → τ → Prop} {f : α → β}
    {u : τ}
    (hstep : ∀ {s s' u res}, r s u → poll s = .ok (res, s') →
      ∃ u', poll' u = .ok (res.map f, u') ∧ r s' u')
    (h : Completes poll s a t) (hr : r s u) : ∃ u', Completes poll' u (f a) u' ∧ r t u' := by
  induction h generalizing u with
  | ready hs =>
    obtain ⟨u', hu, hr'⟩ := hstep hr hs
    exact ⟨u', .ready hu, hr'⟩
  | pending hs _ ih =>
    obtain ⟨u', hu, hr'⟩ := hstep hr hs
    obtain ⟨u'', hcompletes, hr''⟩ := ih hr'
    exact ⟨u'', .pending hu hcompletes, hr''⟩

theorem not_completes_of_error {e : ε} (hr : poll s = .error e) : ¬Completes poll s a t := by
  intro h
  cases h with
  | ready hr' | pending hr' => cases hr.symm.trans hr'

end Future

end Polling
