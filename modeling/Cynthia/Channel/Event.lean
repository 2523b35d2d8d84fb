import Mathlib.Data.List.Nodup
import Mathlib.Tactic.Push

/-! `Event` of `platform/event/listener.rs`, as its users see it: the listeners in
the order in which they were created, each with the mark that `notify` sets. An
operation takes the lock of the list once, so it is one step. -/

namespace Cynthia.Channels

/-- Listeners, each named by the future that owns it, and whether they are notified. -/
abbrev Event := List (Nat × Bool)

namespace Event

def notified (e : Event) : Nat := e.countP Prod.snd

/-- Notify the first `n` listeners that are not notified yet. -/
def mark : Nat → Event → Event
  | _, [] => []
  | n, (f, true) :: rest => (f, true) :: mark n rest
  | 0, (f, false) :: rest => (f, false) :: rest
  | n + 1, (f, false) :: rest => (f, true) :: mark n rest

/-- `Event::notify(n)`: listeners that are notified already count towards `n`. -/
def notify (n : Nat) (e : Event) : Event := mark (n - e.notified) e

/-- `Event::notify(usize::MAX)`. -/
def notifyAll (e : Event) : Event := e.map fun p => (p.1, true)

def listen (e : Event) (f : Nat) : Event := e ++ [(f, false)]

def remove (e : Event) (f : Nat) : Event := e.filter fun p => p.1 ≠ f

-- Membership in an event is decided by this instance in every module.
instance : LawfulBEq (Nat × Bool) := inferInstance

/-- `Drop for EventListener`: a notification is passed on. -/
def drop (e : Event) (f : Nat) : Event :=
  if (f, true) ∈ e then (e.remove f).notify 1 else e.remove f

variable {e : Event} {f g : Nat} {b : Bool} {n : Nat}

theorem map_fst_mark (n : Nat) (e : Event) : (mark n e).map Prod.fst = e.map Prod.fst := by
  fun_induction mark n e <;> simp_all

theorem mem_mark_true (h : (f, true) ∈ e) : (f, true) ∈ mark n e := by
  fun_induction mark n e with
  | case1 => cases h
  | case2 n g rest ih =>
    rcases List.mem_cons.mp h with heq | h
    · exact heq ▸ List.mem_cons_self
    · exact List.mem_cons_of_mem _ (ih h)
  | case3 => exact h
  | case4 n g rest ih =>
    rcases List.mem_cons.mp h with heq | h
    · cases heq
    · exact List.mem_cons_of_mem _ (ih h)

theorem mem_of_mem_mark_false (h : (f, false) ∈ mark n e) : (f, false) ∈ e := by
  fun_induction mark n e <;> simp_all

theorem exists_true_of_mark (hn : 0 < n) (h : (f, false) ∈ e) : ∃ g, (g, true) ∈ mark n e := by
  fun_induction mark n e with
  | case1 => cases h
  | case2 n g rest ih => exact ⟨g, List.mem_cons_self⟩
  | case3 => omega
  | case4 n g rest ih => exact ⟨g, List.mem_cons_self⟩

theorem map_fst_notify (n : Nat) (e : Event) : (notify n e).map Prod.fst = e.map Prod.fst :=
  map_fst_mark _ e

theorem mem_notify_true (h : (f, true) ∈ e) : (f, true) ∈ notify n e := mem_mark_true h

theorem mem_of_mem_notify_false (h : (f, false) ∈ notify n e) : (f, false) ∈ e :=
  mem_of_mem_mark_false h

/-- After `notify(1)` somebody is notified, if anybody listens. -/
theorem exists_notified (h : (f, false) ∈ notify 1 e) : ∃ g, (g, true) ∈ notify 1 e := by
  by_cases hn : e.notified = 0
  · refine exists_true_of_mark ?_ (mem_of_mem_notify_false h)
    omega
  · obtain ⟨⟨g, b⟩, hmem, hb⟩ := List.countP_pos_iff.mp (Nat.pos_of_ne_zero hn)
    cases hb
    exact ⟨g, mem_notify_true hmem⟩

theorem not_mem_notifyAll (f : Nat) : (f, false) ∉ e.notifyAll := by
  simp [notifyAll]

theorem map_fst_notifyAll (e : Event) : e.notifyAll.map Prod.fst = e.map Prod.fst := by
  simp [notifyAll, Function.comp_def]

theorem mem_remove : (g, b) ∈ e.remove f ↔ (g, b) ∈ e ∧ g ≠ f := by
  simp [remove]

theorem map_fst_remove : (e.remove f).map Prod.fst = (e.map Prod.fst).filter (· ≠ f) := by
  rw [remove, List.filter_map]
  rfl

theorem map_fst_drop : (e.drop f).map Prod.fst = (e.map Prod.fst).filter (· ≠ f) := by
  unfold drop
  split
  · rw [map_fst_notify, map_fst_remove]
  · exact map_fst_remove

/-- Dropping a listener leaves somebody notified, or takes nothing away. -/
theorem drop_covered (h : (g, false) ∈ e.drop f) :
    (g, false) ∈ e ∧ ((∃ i, (i, true) ∈ e.drop f) ∨ ((f, true) ∉ e ∧ e.drop f = e.remove f)) := by
  unfold drop at h ⊢
  split at h
  · rename_i hmem
    rw [if_pos hmem]
    exact ⟨(mem_remove.mp (mem_of_mem_notify_false h)).1, .inl (exists_notified h)⟩
  · rename_i hmem
    rw [if_neg hmem]
    exact ⟨(mem_remove.mp h).1, .inr ⟨hmem, rfl⟩⟩

end Event

end Cynthia.Channels
