import Cynthia.Lib.Transition
import Mathlib.Data.List.Pairwise

/-! A party that only reads, beside a transition system: between two of its reads the
system takes any steps. `past` keeps the states of the system at every instant of
the call, newest first, and `reads` those in which the party has read. -/

namespace Cynthia.Transition

/-- Where a call begins, and what a read in a state leads to: the next read or the
answer. -/
structure Reader (σ κ ρ β : Type*) where
  enter : κ → ρ
  read : σ → ρ → ρ ⊕ β

namespace Reader

inductive Phase (ρ β : Type*) where
  | idle
  | reading (point : ρ)
  | answered (answer : β)
  deriving DecidableEq

/-- The phase after a read. -/
def Phase.of {ρ β : Type*} : ρ ⊕ β → Phase ρ β
  | .inl point => .reading point
  | .inr answer => .answered answer

end Reader

open Reader (Phase)

structure Watched (σ ρ β : Type*) where
  base : σ
  phase : Phase ρ β
  past : List σ
  reads : List σ

inductive Watch (ι κ : Type*) where
  | base (a : ι)
  | call (query : κ)
  | read
  deriving DecidableEq

variable {σ ι κ ρ β γ : Type*}

/-- The system moves. An instant belongs to the call until it has its answer. -/
def Watched.move (w : Watched σ ρ β) (t : σ) : Watched σ ρ β :=
  match w.phase with
  | .reading _ => { w with base := t, past := t :: w.past }
  | .idle | .answered _ => { w with base := t }

theorem Watched.move_reading {w : Watched σ ρ β} {point : ρ} (h : w.phase = .reading point)
    (t : σ) : w.move t = { w with base := t, past := t :: w.past } := by
  rw [move, h]

theorem Watched.move_rest {w : Watched σ ρ β} (h : ∀ point, w.phase ≠ .reading point) (t : σ) :
    w.move t = { w with base := t } := by
  cases hphase : w.phase with
  | reading point => exact absurd hphase (h point)
  | idle => rw [move, hphase]
  | answered answer => rw [move, hphase]

def System.watch (M : System σ ι) (R : Reader σ κ ρ β) :
    System (Watched σ ρ β) (Watch ι κ) where
  init := ⟨M.init, .idle, [], []⟩
  step w
    | .base a => (M.step w.base a).map w.move
    | .call query => match w.phase with
      | .reading _ => none
      | .idle | .answered _ => some ⟨w.base, .reading (R.enter query), [w.base], []⟩
    | .read => match w.phase with
      | .reading point =>
        some ⟨w.base, .of (R.read w.base point), w.base :: w.past, w.base :: w.reads⟩
      | .idle | .answered _ => none

/-- The steps of the system meet `ok`, and at every read `near` relates the state to
those of the earlier reads of the call. -/
def Permits (ok : σ → ι → Prop) (near : σ → σ → Prop) (w : Watched σ ρ β) :
    Watch ι κ → Prop
  | .base a => ok w.base a
  | .call _ => True
  | .read => ∀ u ∈ w.reads, near w.base u

instance {ok : σ → ι → Prop} {near : σ → σ → Prop} [∀ s a, Decidable (ok s a)]
    [∀ s t, Decidable (near s t)] (w : Watched σ ρ β) :
    (a : Watch ι κ) → Decidable (Permits ok near w a)
  | .base a => inferInstanceAs (Decidable (ok w.base a))
  | .call _ => isTrue trivial
  | .read => inferInstanceAs (Decidable (∀ u ∈ w.reads, near w.base u))

/-- What the reads of a call say about where it is. -/
def Explains (during : List σ → ρ → Prop) (after : List σ → β → Prop) (reads : List σ) :
    Phase ρ β → Prop
  | .idle => True
  | .reading point => during reads point
  | .answered answer => after reads answer

structure Watched.Coherent (M : System σ ι) (ok : σ → ι → Prop) (near : σ → σ → Prop)
    (w : Watched σ ρ β) : Prop where
  base : M.ReachableVia ok w.base
  past : ∀ u ∈ w.past, M.ReachableVia ok u
  now : ∀ point, w.phase = .reading point → w.past.head? = some w.base
  reads : w.reads.Sublist w.past
  near : w.reads.Pairwise near

section Rules

variable {M : System σ ι} {R : Reader σ κ ρ β} {ok : σ → ι → Prop} {near : σ → σ → Prop}
  {w : Watched σ ρ β}

/-- The rule for a property of watched states: the system moves during a call or
outside of one, a call begins, and the party reads. -/
theorem Watched.induct {I : Watched σ ρ β → Prop}
    (h0 : I ⟨M.init, .idle, [], []⟩)
    (hmove : ∀ w a t, w.Coherent M ok near → I w → ok w.base a → M.step w.base a = some t →
      (∃ point, w.phase = .reading point) → I { w with base := t, past := t :: w.past })
    (hrest : ∀ w t, I w → (∀ point, w.phase ≠ .reading point) → I { w with base := t })
    (hcall : ∀ w query, I w → I ⟨w.base, .reading (R.enter query), [w.base], []⟩)
    (hread : ∀ w point, w.Coherent M ok near → I w → w.phase = .reading point →
      I ⟨w.base, .of (R.read w.base point), w.base :: w.past, w.base :: w.reads⟩)
    (hw : (M.watch R).ReachableVia (Permits ok near) w) : w.Coherent M ok near ∧ I w := by
  refine hw.invariant (I := fun w => w.Coherent M ok near ∧ I w) ⟨?_, h0⟩ ?_
  · exact ⟨.init, by simp [System.watch], by simp [System.watch], .slnil, .nil⟩
  · rintro w a w' hok ⟨hinv, hi⟩ hstep
    cases a with
    | base a =>
      obtain ⟨t, ht, rfl⟩ := Option.map_eq_some_iff.mp hstep
      have hreach : M.ReachableVia ok t := .next hinv.base hok ht
      by_cases hphase : ∃ point, w.phase = .reading point
      · obtain ⟨point, hpoint⟩ := hphase
        rw [move_reading hpoint]
        refine ⟨⟨hreach, ?_, fun _ _ => rfl, hinv.reads.cons _, hinv.near⟩,
          hmove w a t hinv hi hok ht ⟨point, hpoint⟩⟩
        intro u hu
        rcases List.mem_cons.mp hu with rfl | hu
        · exact hreach
        · exact hinv.past u hu
      · have hrest' : ∀ point, w.phase ≠ .reading point := fun point h => hphase ⟨point, h⟩
        rw [move_rest hrest']
        exact ⟨⟨hreach, hinv.past, fun point h => absurd h (hrest' point), hinv.reads, hinv.near⟩,
          hrest w t hi hrest'⟩
    | call query =>
      have hbegin : w' = ⟨w.base, .reading (R.enter query), [w.base], []⟩ := by
        cases hphase : w.phase <;> simp [System.watch, hphase] at hstep <;> exact hstep.symm
      subst hbegin
      refine ⟨⟨hinv.base, ?_, fun _ _ => rfl, List.nil_sublist _, .nil⟩, hcall w query hi⟩
      simpa using hinv.base
    | read =>
      cases hphase : w.phase with
      | idle => simp [System.watch, hphase] at hstep
      | answered answer => simp [System.watch, hphase] at hstep
      | reading point =>
        simp only [System.watch, hphase, Option.some.injEq] at hstep
        subst hstep
        refine ⟨⟨hinv.base, ?_, fun _ _ => rfl, hinv.reads.cons_cons _, ?_⟩,
          hread w point hinv hi hphase⟩
        · intro u hu
          rcases List.mem_cons.mp hu with rfl | hu
          · exact hinv.base
          · exact hinv.past u hu
        · exact List.pairwise_cons.mpr ⟨hok, hinv.near⟩

/-- Where every step of the system is permitted. -/
theorem Watched.permitted (hw : (M.watch R).Reachable w) :
    (M.watch R).ReachableVia (Permits (fun _ _ => True) fun _ _ => True) w := by
  refine System.ReachableVia.mono (fun w a _ => ?_) hw
  cases a with
  | base a => trivial
  | call query => trivial
  | read => exact fun _ _ => trivial

theorem Watched.coherent (hw : (M.watch R).ReachableVia (Permits ok near) w) :
    w.Coherent M ok near :=
  (Watched.induct (I := fun _ => True) trivial (fun _ _ _ _ _ _ _ _ => trivial)
    (fun _ _ _ _ => trivial) (fun _ _ _ => trivial) (fun _ _ _ _ _ => trivial) hw).1

/-- A call has at least the instant at which it began. -/
theorem Watched.past_ne_nil (hw : (M.watch R).ReachableVia (Permits ok near) w)
    (hphase : w.phase ≠ .idle) : w.past ≠ [] := by
  refine (Watched.induct (I := fun w => w.phase ≠ .idle → w.past ≠ []) (fun h => absurd rfl h) ?_
    (fun _ _ hi _ => hi) ?_ ?_ hw).2 hphase
  · exact fun _ _ _ _ _ _ _ _ _ => List.cons_ne_nil _ _
  · exact fun _ _ _ _ => List.cons_ne_nil _ _
  · exact fun _ _ _ _ _ _ => List.cons_ne_nil _ _

/-- The instants of a call are in the order of the steps between them. -/
theorem Watched.ordered {before : σ → σ → Prop} (hrefl : ∀ s, before s s)
    (htrans : ∀ s t u, before s t → before t u → before s u)
    (hstep : ∀ s a t, M.ReachableVia ok s → ok s a → M.step s a = some t → before s t)
    (hw : (M.watch R).ReachableVia (Permits ok near) w) :
    w.past.Pairwise (fun t s => before s t) := by
  have hnow (w : Watched σ ρ β) (hinv : w.Coherent M ok near) {point : ρ}
      (hphase : w.phase = .reading point) (hpast : w.past.Pairwise fun t s => before s t) :
      ∀ u ∈ w.past, before u w.base := by
    obtain ⟨rest, hrest⟩ := List.head?_eq_some_iff.mp (hinv.now point hphase)
    rw [hrest] at hpast ⊢
    intro u hu
    rcases List.mem_cons.mp hu with heq | hu
    · rw [heq]
      exact hrefl w.base
    · exact (List.pairwise_cons.mp hpast).1 u hu
  refine (Watched.induct (I := fun w => w.past.Pairwise fun t s => before s t) .nil ?_
    (fun _ _ hi _ => hi) (fun _ _ _ => List.pairwise_singleton _ _) ?_ hw).2
  · rintro w a t hinv hi hok ht ⟨point, hphase⟩
    refine List.pairwise_cons.mpr ⟨fun u hu => ?_, hi⟩
    exact htrans _ _ _ (hnow w hinv hphase hi u hu) (hstep _ _ _ hinv.base hok ht)
  · intro w point hinv hi hphase
    exact List.pairwise_cons.mpr ⟨hnow w hinv hphase hi, hi⟩

/-- What no step between two states with the property changes is the same at all
instants of a call if they all have it. -/
theorem Watched.steady {P : σ → Prop} {f : σ → γ}
    (hstep : ∀ s a t, M.ReachableVia ok s → ok s a → M.step s a = some t → P s → P t → f t = f s)
    (hw : (M.watch R).ReachableVia (Permits ok near) w) (hall : ∀ u ∈ w.past, P u) :
    ∀ u ∈ w.past, ∀ v ∈ w.past, f u = f v := by
  have hnow (w : Watched σ ρ β) (hinv : w.Coherent M ok near) {point : ρ}
      (hphase : w.phase = .reading point) : w.base ∈ w.past :=
    List.mem_of_mem_head? (hinv.now point hphase)
  have hadd {past : List σ} {t s : σ} (hs : s ∈ past) (ht : f t = f s)
      (hpast : ∀ u ∈ past, ∀ v ∈ past, f u = f v) :
      ∀ u ∈ t :: past, ∀ v ∈ t :: past, f u = f v := by
    have hnew : ∀ u ∈ t :: past, f u = f s := by
      intro u hu
      rcases List.mem_cons.mp hu with rfl | hu
      · exact ht
      · exact hpast u hu s hs
    exact fun u hu v hv => (hnew u hu).trans (hnew v hv).symm
  refine (Watched.induct (I := fun w => (∀ u ∈ w.past, P u) →
    ∀ u ∈ w.past, ∀ v ∈ w.past, f u = f v) (by simp) ?_ (fun _ _ hi _ => hi) (by simp) ?_ hw).2 hall
  · rintro w a t hinv hi hok ht ⟨point, hphase⟩ hp
    have hmem := hnow w hinv hphase
    have hold := (List.forall_mem_cons.mp hp).2
    exact hadd hmem (hstep _ _ _ hinv.base hok ht (hold _ hmem) (hp t List.mem_cons_self)) (hi hold)
  · intro w point hinv hi hphase hp
    exact hadd (hnow w hinv hphase) rfl (hi (List.forall_mem_cons.mp hp).2)

/-- The reads of a call explain its phase. -/
theorem Watched.explained {during : List σ → ρ → Prop} {after : List σ → β → Prop}
    (henter : ∀ query, during [] (R.enter query))
    (hread : ∀ reads s point, during reads point →
      Explains during after (s :: reads) (.of (R.read s point)))
    (hw : (M.watch R).ReachableVia (Permits ok near) w) :
    Explains during after w.reads w.phase :=
  (Watched.induct (I := fun w => Explains during after w.reads w.phase) trivial
    (fun _ _ _ _ hi _ _ _ => hi) (fun _ _ hi _ => hi) (fun _ query _ => henter query)
    (fun w point _ hi hphase => hread w.reads w.base point (by rw [hphase] at hi; exact hi)) hw).2

end Rules

end Cynthia.Transition
