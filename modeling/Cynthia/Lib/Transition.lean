import Mathlib.Logic.Function.Basic

/-! Executable labelled transition systems. A label carries every choice the
scheduler or the environment makes, so that a run is a list of labels and a
concrete run is checked by evaluation. `ReachableVia ok` is reachability by
steps that all meet the condition `ok` in the state before them. -/

namespace Cynthia.Transition

structure System (σ ι : Type*) where
  init : σ
  step : σ → ι → Option σ

namespace System

variable {σ ι : Type*} (M : System σ ι)

inductive ReachableVia (ok : σ → ι → Prop) : σ → Prop
  | init : ReachableVia ok M.init
  | next {s t : σ} {a : ι} (hs : ReachableVia ok s) (hok : ok s a)
      (ht : M.step s a = some t) : ReachableVia ok t

def Reachable (s : σ) : Prop := M.ReachableVia (fun _ _ => True) s

/-- Execute a list of labels. -/
def runFrom (s : σ) : List ι → Option σ
  | [] => some s
  | a :: as => (M.step s a).bind fun t => runFrom t as

def run (as : List ι) : Option σ := M.runFrom M.init as

/-- Execute a list of labels as long as every step is permitted. -/
def runVia (ok : σ → ι → Prop) [∀ s a, Decidable (ok s a)] (s : σ) : List ι → Option σ
  | [] => some s
  | a :: as => if ok s a then (M.step s a).bind fun t => runVia ok t as else none

variable {M} {ok : σ → ι → Prop}

theorem ReachableVia.mono {ok' : σ → ι → Prop} (h : ∀ s a, ok s a → ok' s a) {s : σ}
    (hs : M.ReachableVia ok s) : M.ReachableVia ok' s := by
  induction hs with
  | init => exact .init
  | next _ hok ht ih => exact .next ih (h _ _ hok) ht

theorem ReachableVia.reachable {s : σ} (hs : M.ReachableVia ok s) : M.Reachable s :=
  hs.mono fun _ _ _ => trivial

theorem Reachable.next {s t : σ} {a : ι} (hs : M.Reachable s) (ht : M.step s a = some t) :
    M.Reachable t :=
  ReachableVia.next hs trivial ht

/-- The invariant rule: what holds at the start and is kept by every permitted
step holds in every state reached. -/
theorem ReachableVia.invariant {I : σ → Prop} (h0 : I M.init)
    (hstep : ∀ s a t, ok s a → I s → M.step s a = some t → I t) {s : σ}
    (hs : M.ReachableVia ok s) : I s := by
  induction hs with
  | init => exact h0
  | next _ hok ht ih => exact hstep _ _ _ hok ih ht

theorem Reachable.invariant {I : σ → Prop} (h0 : I M.init)
    (hstep : ∀ s a t, I s → M.step s a = some t → I t) {s : σ}
    (hs : M.Reachable s) : I s :=
  ReachableVia.invariant h0 (fun s a t _ => hstep s a t) hs

theorem reachable_of_runFrom {s t : σ} (as : List ι) (hs : M.Reachable s)
    (h : M.runFrom s as = some t) : M.Reachable t := by
  induction as generalizing s with
  | nil =>
    cases h
    exact hs
  | cons a as ih =>
    obtain ⟨u, hu, ht⟩ := Option.bind_eq_some_iff.mp h
    exact ih (hs.next hu) ht

theorem reachable_of_run {t : σ} (as : List ι) (h : M.run as = some t) : M.Reachable t :=
  reachable_of_runFrom as ReachableVia.init h

/-- A number that a step increases by one at most is bounded by the length of a run. -/
theorem le_of_runFrom {f : σ → Nat} (hstep : ∀ s t a, M.step s a = some t → f t ≤ f s + 1)
    {s t : σ} (as : List ι) (h : M.runFrom s as = some t) : f t ≤ f s + as.length := by
  induction as generalizing s with
  | nil =>
    cases h
    exact Nat.le_refl _
  | cons a as ih =>
    obtain ⟨u, hu, ht⟩ := Option.bind_eq_some_iff.mp h
    have hle := hstep s u a hu
    have hrest := ih ht
    rw [List.length_cons]
    omega

/-- A concrete run whose last state passes a test. -/
theorem exists_of_run {P : σ → Prop} [DecidablePred P] (as : List ι)
    (h : ((M.run as).any fun s => decide (P s)) = true) :
    ∃ s, M.run as = some s ∧ M.Reachable s ∧ P s := by
  cases hs : M.run as with
  | none =>
    rw [hs] at h
    cases h
  | some s =>
    rw [hs] at h
    exact ⟨s, rfl, reachable_of_run as hs, of_decide_eq_true h⟩

theorem reachable_of_runVia [∀ s a, Decidable (ok s a)] {s t : σ} (as : List ι)
    (hs : M.ReachableVia ok s) (h : M.runVia ok s as = some t) : M.ReachableVia ok t := by
  induction as generalizing s with
  | nil =>
    cases h
    exact hs
  | cons a as ih =>
    unfold runVia at h
    split at h
    · rename_i hok
      obtain ⟨u, hu, ht⟩ := Option.bind_eq_some_iff.mp h
      exact ih (.next hs hok hu) ht
    · cases h

variable (ok) in
/-- A concrete permitted run whose last state passes a test. -/
theorem exists_of_runVia [∀ s a, Decidable (ok s a)] {P : σ → Prop} [DecidablePred P]
    (as : List ι) (h : ((M.runVia ok M.init as).any fun s => decide (P s)) = true) :
    ∃ s, M.ReachableVia ok s ∧ P s := by
  cases hs : M.runVia ok M.init as with
  | none =>
    rw [hs] at h
    cases h
  | some s =>
    rw [hs] at h
    exact ⟨s, reachable_of_runVia as .init hs, of_decide_eq_true h⟩

end System

/-- Some party has a property, also after a step of one party that keeps it. -/
theorem exists_update {κ α : Type*} [DecidableEq κ] {f : κ → α} {P : α → Prop} {i : κ} {c : α}
    (h : ∃ j, P (f j)) (hi : P (f i) → P c) : ∃ j, P (Function.update f i c j) := by
  obtain ⟨j, hj⟩ := h
  by_cases hji : j = i
  · subst hji
    exact ⟨j, by rw [Function.update_self]; exact hi hj⟩
  · exact ⟨j, by rwa [Function.update_of_ne hji]⟩

/-- What is open is owed by some party, also after a step of one party which owes what
the step opens, and closes what it no longer owes. -/
theorem owed_update {κ π δ : Type*} [DecidableEq κ] {f : κ → π} {P : π → δ → Prop} {i : κ}
    {c : π} {d : δ} {before after : Prop} (h : before → ∃ j, P (f j) d)
    (hopen : after → before ∨ P c d) (hpaid : P (f i) d → after → P c d) :
    after → ∃ j, P (Function.update f i c j) d := by
  intro hafter
  rcases hopen hafter with hbefore | hc
  · exact exists_update (P := fun p => P p d) (h hbefore) fun hi => hpaid hi hafter
  · exact ⟨i, by rw [Function.update_self]; exact hc⟩

end Cynthia.Transition
