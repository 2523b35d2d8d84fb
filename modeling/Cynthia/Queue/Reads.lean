import Cynthia.Lib.Watch

/-! What the functions of the queues that only read (`len`, `is_empty`, `is_full`) answer,
and what the counts of claims are while they run. -/

namespace Cynthia.Queue

open Transition

inductive Query where
  | len
  | isEmpty
  | isFull
  deriving DecidableEq

/-- A length is `none` where a subtraction goes below zero. -/
inductive Answer where
  | len (n : Option Nat)
  | isEmpty (b : Bool)
  | isFull (b : Bool)
  deriving DecidableEq

/-- How many pushes and how many pops have made their claim. -/
structure Counts where
  pushed : Nat
  popped : Nat
  deriving DecidableEq

namespace Counts

/-- One step: at most one claim. -/
def Next (c d : Counts) : Prop :=
  d = c ∨ d = { c with pushed := c.pushed + 1 } ∨ d = { c with popped := c.popped + 1 }

/-- Later counts. -/
def Before (c d : Counts) : Prop := c.pushed ≤ d.pushed ∧ c.popped ≤ d.popped

theorem Next.before {c d : Counts} (h : Next c d) : Before c d := by
  rcases h with rfl | rfl | rfl
  · exact ⟨Nat.le_refl _, Nat.le_refl _⟩
  · exact ⟨Nat.le_succ _, Nat.le_refl _⟩
  · exact ⟨Nat.le_refl _, Nat.le_succ _⟩

/-- A claim changes the number of elements. -/
theorem Next.eq {c d : Counts} {n : Nat} (h : Next c d) (hc : c.pushed = c.popped + n)
    (hd : d.pushed = d.popped + n) : d = c := by
  rcases h with rfl | rfl | rfl
  · rfl
  all_goals
    simp only at hd
    omega

end Counts

/-- There is an instant at which the queue has `n` elements if the answer is yes, and
one at which it has not if the answer is no. -/
def Truthful (past : List Counts) (n : Nat) (b : Bool) : Prop :=
  (b = true → ∃ c ∈ past, c.pushed = c.popped + n) ∧
    (b = false → ∃ c ∈ past, c.pushed ≠ c.popped + n)

/-- With the same counts at all instants of a call of `is_empty` and of one of `len`,
the first is truthful just if it agrees with the second. -/
theorem agree_iff {past past' : List Counts} {b : Bool} {n : Option Nat} (hne : past ≠ [])
    (hlen : ∃ c ∈ past', c.popped ≤ c.pushed ∧ n = some (c.pushed - c.popped))
    (hsame : ∀ c ∈ past, ∀ d ∈ past', c = d) :
    (b = true ↔ n = some 0) ↔ Truthful past 0 b := by
  obtain ⟨d, hd, hle, rfl⟩ := hlen
  obtain ⟨c, hc⟩ := List.exists_mem_of_ne_nil _ hne
  have hzero : some (d.pushed - d.popped) = some 0 ↔ d.pushed = d.popped + 0 := by
    rw [Option.some.injEq]
    omega
  rw [hzero]
  constructor
  · intro hagree
    obtain rfl := hsame c hc d hd
    exact ⟨fun hb => ⟨c, hc, hagree.mp hb⟩,
      fun hb => ⟨c, hc, fun h => by rw [hagree.mpr h] at hb; cases hb⟩⟩
  · rintro ⟨hyes, hno⟩
    constructor
    · intro hb
      obtain ⟨c, hc, heq⟩ := hyes hb
      rwa [hsame c hc d hd] at heq
    · intro heq
      by_contra hb
      obtain ⟨c, hc, hne⟩ := hno (by simpa using hb)
      rw [hsame c hc d hd] at hne
      exact hne heq

section Watching

variable {σ ι κ ρ : Type*} {M : System σ ι} {R : Reader σ κ ρ Answer} {ok : σ → ι → Prop}
  {near : σ → σ → Prop} {w : Watched σ ρ Answer} {counts : σ → Counts}

theorem past_ordered
    (hstep : ∀ s a t, M.ReachableVia ok s → ok s a → M.step s a = some t →
      (counts s).Next (counts t))
    (hw : (M.watch R).ReachableVia (Permits ok near) w) :
    w.past.Pairwise fun t s => (counts s).Before (counts t) :=
  Watched.ordered (fun _ => ⟨Nat.le_refl _, Nat.le_refl _⟩)
    (fun _ _ _ h₁ h₂ => ⟨Nat.le_trans h₁.1 h₂.1, Nat.le_trans h₁.2 h₂.2⟩)
    (fun s a t hs hok ht => (hstep s a t hs hok ht).before) hw

/-- While the queue always has the same number of elements nothing is claimed. -/
theorem past_steady {n : Nat}
    (hstep : ∀ s a t, M.ReachableVia ok s → ok s a → M.step s a = some t →
      (counts s).Next (counts t))
    (hw : (M.watch R).ReachableVia (Permits ok near) w)
    (hall : ∀ u ∈ w.past, (counts u).pushed = (counts u).popped + n) :
    ∀ u ∈ w.past, ∀ v ∈ w.past, counts u = counts v :=
  Watched.steady (P := fun s => (counts s).pushed = (counts s).popped + n)
    (fun s a t hs hok ht hp hq => (hstep s a t hs hok ht).eq hp hq) hw hall

/-- An answer is truthful if it is yes only where the number is right, and is yes when
nothing is claimed from its reads on. -/
theorem truthful_of {n : Nat} {b : Bool}
    (hstep : ∀ s a t, M.ReachableVia ok s → ok s a → M.step s a = some t →
      (counts s).Next (counts t))
    (hw : (M.watch R).ReachableVia (Permits ok near) w)
    (hyes : b = true → ∃ u ∈ w.past, (counts u).pushed = (counts u).popped + n)
    (hno : (∀ u ∈ w.past, (counts u).pushed = (counts u).popped + n) →
      (∀ u ∈ w.past, ∀ v ∈ w.past, counts u = counts v) → b = true) :
    Truthful (w.past.map counts) n b := by
  constructor
  · intro hb
    obtain ⟨u, hu, heq⟩ := hyes hb
    exact ⟨counts u, List.mem_map_of_mem hu, heq⟩
  · intro hb
    by_contra hnone
    have hall : ∀ u ∈ w.past, (counts u).pushed = (counts u).popped + n := by
      intro u hu
      by_contra hne
      exact hnone ⟨counts u, List.mem_map_of_mem hu, hne⟩
    have := hno hall (past_steady hstep hw hall)
    rw [hb] at this
    cases this

end Watching

end Cynthia.Queue
