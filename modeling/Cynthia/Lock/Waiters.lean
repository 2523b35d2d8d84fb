import Cynthia.Channel.Event

/-! The two things a lock keeps about an event it blocks on. `Registered`: exactly
the calls at a place where they own a listener are on its list. `Covered`: while
the lock could be taken, a call that waits is not forgotten. Both are kept or
re-established by each operation on the event, whatever the places are. -/

namespace Cynthia.Lock

open Channels

variable {π : Type*} {e e' : Event} {calls : Nat → π} {f : Nat} {c : π}

structure Registered (owns : π → Bool) (e : Event) (calls : Nat → π) : Prop where
  nodup : (e.map Prod.fst).Nodup
  mem_iff : ∀ g, g ∈ e.map Prod.fst ↔ owns (calls g) = true

/-- While `p` holds and some call waits without being notified, somebody is
notified, or some call is at a place from where it makes up for it. -/
def Covered (p : Prop) (waits busy : π → Bool) (e : Event) (calls : Nat → π) : Prop :=
  p → (∃ g, (g, false) ∈ e ∧ waits (calls g) = true) →
    (∃ g, (g, true) ∈ e) ∨ ∃ g, busy (calls g) = true

section Registered

variable {owns : π → Bool}

theorem Registered.empty (h : ∀ g, owns (calls g) = false) : Registered owns [] calls := by
  constructor
  · exact List.nodup_nil
  · intro g
    simp [h g]

theorem Registered.frame (h : Registered owns e calls) (hids : e'.map Prod.fst = e.map Prod.fst)
    (hc : owns c = owns (calls f)) : Registered owns e' (Function.update calls f c) := by
  constructor
  · rw [hids]
    exact h.nodup
  · intro g
    rw [hids, h.mem_iff]
    rcases eq_or_ne g f with rfl | hne
    · rw [Function.update_self, hc]
    · rw [Function.update_of_ne hne]

theorem Registered.listen (h : Registered owns e calls) (hold : owns (calls f) = false)
    (hc : owns c = true) : Registered owns (e.listen f) (Function.update calls f c) := by
  have hnot : f ∉ e.map Prod.fst := by
    rw [h.mem_iff, hold]
    exact Bool.false_ne_true
  constructor
  · rw [Event.listen, List.map_append, List.map_singleton, ← List.concat_eq_append]
    exact h.nodup.concat hnot
  · intro g
    rcases eq_or_ne g f with rfl | hne
    · simp [Event.listen, hc]
    · rw [Function.update_of_ne hne, ← h.mem_iff]
      simp [Event.listen, hne]

/-- The listener of the call leaves the list. -/
theorem Registered.leave (h : Registered owns e calls)
    (hids : e'.map Prod.fst = (e.map Prod.fst).filter (· ≠ f)) (hc : owns c = false) :
    Registered owns e' (Function.update calls f c) := by
  constructor
  · rw [hids]
    exact h.nodup.filter _
  · intro g
    rw [hids]
    rcases eq_or_ne g f with rfl | hne
    · simp [hc]
    · rw [Function.update_of_ne hne, ← h.mem_iff]
      simp [hne]

theorem Registered.remove (h : Registered owns e calls) (hc : owns c = false) :
    Registered owns (e.remove f) (Function.update calls f c) :=
  h.leave Event.map_fst_remove hc

theorem Registered.drop (h : Registered owns e calls) (hc : owns c = false) :
    Registered owns (e.drop f) (Function.update calls f c) :=
  h.leave Event.map_fst_drop hc

theorem Registered.owner (h : Registered owns e calls) {b : Bool} (hmem : (f, b) ∈ e) :
    owns (calls f) = true :=
  (h.mem_iff f).mp (List.mem_map_of_mem (f := Prod.fst) hmem)

theorem Registered.exists_mark (h : Registered owns e calls) (hf : owns (calls f) = true) :
    (f, true) ∈ e ∨ (f, false) ∈ e := by
  obtain ⟨⟨g, b⟩, hmem, rfl⟩ := List.mem_map.mp ((h.mem_iff f).mpr hf)
  cases b with
  | false => exact .inr hmem
  | true => exact .inl hmem

end Registered

section Covered

variable {p p' : Prop} {waits busy : π → Bool}

theorem Covered.empty : Covered p waits busy [] calls := by
  rintro _ ⟨g, hg, _⟩
  cases hg

theorem Covered.of_not (h : ¬p) : Covered p waits busy e calls := fun hp => absurd hp h

theorem Covered.owed (hc : busy c = true) :
    Covered p waits busy e (Function.update calls f c) :=
  fun _ _ => .inr ⟨f, by rwa [Function.update_self]⟩

theorem Covered.notify : Covered p waits busy (e.notify 1) calls :=
  fun _ ⟨_, hg, _⟩ => .inl (Event.exists_notified hg)

/-- The general step: the marks of the event change so that no new call waits
and no notification is lost. -/
theorem Covered.move (h : Covered p waits busy e calls) (hp : p' → p)
    (hb : busy (calls f) = true → busy c = true)
    (hw : ∀ g, (g, false) ∈ e' → waits (Function.update calls f c g) = true →
      (∃ i, (i, true) ∈ e') ∨ (g, false) ∈ e ∧ waits (calls g) = true ∧
        ((∃ i, (i, true) ∈ e) → ∃ i, (i, true) ∈ e')) :
    Covered p' waits busy e' (Function.update calls f c) := by
  rintro hp' ⟨g, hg, hwait⟩
  rcases hw g hg hwait with htrue | ⟨hold, hwold, hkeep⟩
  · exact .inl htrue
  · rcases h (hp hp') ⟨g, hold, hwold⟩ with htrue | ⟨i, hi⟩
    · exact .inl (hkeep htrue)
    · refine .inr ⟨i, ?_⟩
      rcases eq_or_ne i f with rfl | hne
      · rw [Function.update_self]
        exact hb hi
      · rwa [Function.update_of_ne hne]

/-- The event is not touched. -/
theorem Covered.frame (h : Covered p waits busy e calls) (hp : p' → p)
    (hw : waits c = true → waits (calls f) = true)
    (hb : busy (calls f) = true → busy c = true) :
    Covered p' waits busy e (Function.update calls f c) := by
  refine h.move hp hb fun g hg hwait => .inr ⟨hg, ?_, id⟩
  rcases eq_or_ne g f with rfl | hne
  · rw [Function.update_self] at hwait
    exact hw hwait
  · rwa [Function.update_of_ne hne] at hwait

theorem Covered.listen (h : Covered p waits busy e calls) (hp : p' → p) (hw : waits c = false)
    (hb : busy (calls f) = true → busy c = true) :
    Covered p' waits busy (e.listen f) (Function.update calls f c) := by
  refine h.move hp hb fun g hg hwait => .inr ?_
  have hne : g ≠ f := by
    rintro rfl
    rw [Function.update_self, hw] at hwait
    cases hwait
  rw [Function.update_of_ne hne] at hwait
  refine ⟨by simpa [Event.listen, hne] using hg, hwait, ?_⟩
  rintro ⟨i, hi⟩
  exact ⟨i, by simp [Event.listen, hi]⟩

theorem Covered.drop (h : Covered p waits busy e calls) (hp : p' → p) (hw : waits c = false)
    (hb : busy (calls f) = true → busy c = true) :
    Covered p' waits busy (e.drop f) (Function.update calls f c) := by
  refine h.move hp hb fun g hg hwait => ?_
  have hne : g ≠ f := by
    rintro rfl
    rw [Function.update_self, hw] at hwait
    cases hwait
  rw [Function.update_of_ne hne] at hwait
  obtain ⟨hold, htrue | ⟨hnot, heq⟩⟩ := Event.drop_covered hg
  · exact .inl htrue
  · refine .inr ⟨hold, hwait, ?_⟩
    rintro ⟨i, hi⟩
    rw [heq]
    refine ⟨i, Event.mem_remove.mpr ⟨hi, ?_⟩⟩
    rintro rfl
    exact hnot hi

/-- Nothing is in progress: a call that waits means a call that is notified. -/
theorem Covered.exists_notified {owns : π → Bool} (h : Covered p waits busy e calls)
    (hreg : Registered owns e calls) (hp : p) (hidle : ∀ g, busy (calls g) = false)
    (hown : owns (calls f) = true) (hwait : waits (calls f) = true) :
    ∃ g, owns (calls g) = true ∧ (g, true) ∈ e := by
  rcases hreg.exists_mark hown with htrue | hfalse
  · exact ⟨f, hown, htrue⟩
  · rcases h hp ⟨f, hfalse, hwait⟩ with ⟨g, hg⟩ | ⟨g, hg⟩
    · exact ⟨g, hreg.owner hg, hg⟩
    · rw [hidle g] at hg
      cases hg

/-- Somebody waits, nobody is notified, and none of the `n` calls but `f` is going
to make up for it. -/
def Unserved (waits busy : π → Bool) (e : Event) (n f : Nat) (calls : Nat → π) : Prop :=
  (∃ q ∈ e, waits (calls q.1) = true) ∧ (∀ q ∈ e, q.2 = false) ∧
    ∀ g < n, g ≠ f → busy (calls g) = false

instance (waits busy : π → Bool) (e : Event) (n f : Nat) (calls : Nat → π) :
    Decidable (Unserved waits busy e n f calls) :=
  inferInstanceAs (Decidable (_ ∧ _ ∧ _))

/-- Where nobody is unserved, the call may go to any place where it does not wait. -/
theorem Covered.of_served {n : Nat} (h : ¬Unserved waits busy e n f calls)
    (hw : waits c = false) : Covered p waits busy e (Function.update calls f c) := by
  rintro - ⟨g, hg, hwait⟩
  have hne : g ≠ f := by
    rintro rfl
    rw [Function.update_self, hw] at hwait
    cases hwait
  rw [Function.update_of_ne hne] at hwait
  by_contra hnone
  push Not at hnone
  refine h ⟨⟨(g, false), hg, hwait⟩, ?_, ?_⟩
  · rintro ⟨i, b⟩ hi
    cases b with
    | false => rfl
    | true => exact absurd hi (hnone.1 i)
  · intro i _ hi
    have := hnone.2 i
    rw [Function.update_of_ne hi] at this
    simpa using this

end Covered

/-- The part that a place plays for an event. -/
structure Role where
  owns : Bool
  waits : Bool
  busy : Bool
  deriving DecidableEq, Repr

/-- The place has nothing to do with the event. -/
def Role.none : Role := ⟨false, false, false⟩

/-- Both invariants of an event, with the part that each place plays. -/
structure Waiting (p : Prop) (role : π → Role) (e : Event) (calls : Nat → π) : Prop where
  registered : Registered (fun c => (role c).owns) e calls
  covered : Covered p (fun c => (role c).waits) (fun c => (role c).busy) e calls

section Waiting

variable {p p' : Prop} {role : π → Role}

theorem Waiting.empty (h : ∀ g, role (calls g) = .none) : Waiting p role [] calls :=
  ⟨.empty fun g => by rw [h g]; rfl, .empty⟩

/-- The call keeps its listener and does not start to wait. -/
theorem Waiting.move (h : Waiting p role e calls) (hp : p' → p)
    (ho : (role c).owns = (role (calls f)).owns)
    (hw : (role c).waits = true → (role (calls f)).waits = true)
    (hb : (role (calls f)).busy = true → (role c).busy = true) :
    Waiting p' role e (Function.update calls f c) where
  registered := h.registered.frame rfl ho
  covered := h.covered.frame hp hw hb

theorem Waiting.frame (h : Waiting p role e calls) (hp : p' → p) (hr : role c = role (calls f)) :
    Waiting p' role e (Function.update calls f c) :=
  h.move hp (by rw [hr]) (by rw [hr]; exact id) (by rw [hr]; exact id)

/-- The same listeners, and either nothing is due or the call sees to it. -/
theorem Waiting.keep (h : Waiting p role e calls) (ho : (role c).owns = (role (calls f)).owns)
    (hp : ¬p' ∨ (role c).busy = true) : Waiting p' role e (Function.update calls f c) where
  registered := h.registered.frame rfl ho
  covered := by
    rcases hp with hp | hb
    · exact .of_not hp
    · exact .owed hb

theorem Waiting.notify (h : Waiting p role e calls)
    (ho : (role c).owns = (role (calls f)).owns) :
    Waiting p' role (e.notify 1) (Function.update calls f c) where
  registered := h.registered.frame (Event.map_fst_notify 1 e) ho
  covered := .notify

theorem Waiting.listen (h : Waiting p role e calls) (hold : role (calls f) = .none)
    (hc : role c = ⟨true, false, false⟩) :
    Waiting p role (e.listen f) (Function.update calls f c) where
  registered := h.registered.listen (by rw [hold]; rfl) (by rw [hc])
  covered := h.covered.listen id (by rw [hc]) (by rw [hold]; exact Bool.noConfusion)

theorem Waiting.woken (h : Waiting p role e calls) (hc : role c = ⟨false, false, true⟩) :
    Waiting p role (e.remove f) (Function.update calls f c) where
  registered := h.registered.remove (by rw [hc])
  covered := .owed (by rw [hc])

theorem Waiting.drop (h : Waiting p role e calls) (hold : (role (calls f)).busy = false)
    (hc : role c = .none) : Waiting p role (e.drop f) (Function.update calls f c) where
  registered := h.registered.drop (by rw [hc]; rfl)
  covered := h.covered.drop id (by rw [hc]; rfl) (by rw [hold]; exact Bool.noConfusion)

end Waiting

end Cynthia.Lock
