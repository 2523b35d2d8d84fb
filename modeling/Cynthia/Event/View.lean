import Cynthia.Channel.Event
import Cynthia.Event.Listener

/-! What the users of an event see of its list: the listeners in order, first those that
are notified. The operations of the list are then those of `Channels.Event`. -/

namespace Cynthia.Listener

variable {ns us P Q : List (Nat × Addr)} {f k n : Nat} {a : Addr}

def view (ns us : List (Nat × Addr)) : Channels.Event :=
  (ns.map fun p => (p.1, true)) ++ us.map fun p => (p.1, false)

theorem mem_view_true : (f, true) ∈ view ns us ↔ ∃ a, (f, a) ∈ ns := by
  simp [view]

theorem notified_view : (view ns us).notified = ns.length := by
  simp [view, Channels.Event.notified, Function.comp_def]

theorem view_listen : view ns (us ++ [(f, a)]) = (view ns us).listen f := by
  simp [view, Channels.Event.listen]

theorem mark_map_false (k : Nat) (us : List (Nat × Addr)) :
    Channels.Event.mark k (us.map fun p => (p.1, false)) = view (us.take k) (us.drop k) := by
  induction us generalizing k with
  | nil =>
    rw [List.take_nil, List.drop_nil]
    cases k <;> rfl
  | cons p us ih =>
    cases k with
    | zero => rfl
    | succ k => exact congrArg _ (ih k)

/-- The first listeners that are not notified become so. -/
theorem mark_view (k : Nat) (ns us : List (Nat × Addr)) :
    Channels.Event.mark k (view ns us) = view (ns ++ us.take k) (us.drop k) := by
  induction ns with
  | nil => exact mark_map_false k us
  | cons p ns ih => cases k <;> exact congrArg _ ih

theorem remove_view : (view ns us).remove f =
    view (ns.filter fun p => p.1 ≠ f) (us.filter fun p => p.1 ≠ f) := by
  simp only [view, Channels.Event.remove, List.filter_append, List.filter_map]
  rfl

theorem filter_of_keys (h : ∀ p ∈ ns, p.1 ≠ f) : (ns.filter fun p => p.1 ≠ f) = ns :=
  List.filter_eq_self.mpr fun p hp => decide_eq_true (h p hp)

theorem filter_split (h : ∀ p ∈ P ++ Q, p.1 ≠ f) :
    ((P ++ (f, a) :: Q).filter fun p => p.1 ≠ f) = P ++ Q := by
  rw [List.filter_append, List.filter_cons_of_neg (by simp), ← List.filter_append]
  exact filter_of_keys h

/-- In a strict order a listener has one place. -/
theorem keys_ne (h : (P ++ (f, a) :: Q).Pairwise fun p q => p.1 < q.1) :
    ∀ p ∈ P ++ Q, p.1 ≠ f := by
  obtain ⟨-, hQ, hcross⟩ := List.pairwise_append.mp h
  intro p hp
  rcases List.mem_append.mp hp with hp | hp
  · exact Nat.ne_of_lt (hcross p hp (f, a) List.mem_cons_self)
  · exact Nat.ne_of_gt ((List.pairwise_cons.mp hQ).1 p hp)

theorem remove_view_notified (h : (P ++ (f, a) :: Q ++ us).Pairwise fun p q => p.1 < q.1) :
    (view (P ++ (f, a) :: Q) us).remove f = view (P ++ Q) us := by
  rw [List.append_assoc, List.cons_append] at h
  have hne := keys_ne h
  simp only [List.mem_append] at hne
  rw [remove_view, filter_split fun p hp => hne p ?_, filter_of_keys fun p hp => hne p ?_]
  · exact .inr (.inr hp)
  · exact (List.mem_append.mp hp).imp_right .inl

theorem remove_view_pending (h : (ns ++ (P ++ (f, a) :: Q)).Pairwise fun p q => p.1 < q.1) :
    (view ns (P ++ (f, a) :: Q)).remove f = view ns (P ++ Q) := by
  rw [← List.append_assoc] at h
  have hne := keys_ne h
  simp only [List.mem_append] at hne
  rw [remove_view, filter_of_keys fun p hp => hne p ?_, filter_split fun p hp => hne p ?_]
  · exact (List.mem_append.mp hp).imp_left .inr
  · exact .inl (.inl hp)

/-- How many more listeners a call notifies. -/
def more (additional : Bool) (n notified : Nat) : Nat :=
  if additional then n else n - notified

/-- `notify_additional` and `notify`. -/
def announce (additional : Bool) (n : Nat) (e : Channels.Event) : Channels.Event :=
  Channels.Event.mark (more additional n e.notified) e

theorem announce_false (n : Nat) (e : Channels.Event) : announce false n e = e.notify n := rfl

theorem announce_view (additional : Bool) (n : Nat) (ns us : List (Nat × Addr)) :
    announce additional n (view ns us) = view (ns ++ us.take (more additional n ns.length))
      (us.drop (more additional n ns.length)) := by
  rw [announce, notified_view, mark_view]

/-- There is nobody to notify. -/
theorem announce_view_self {additional : Bool}
    (h : us = [] ∨ more additional n ns.length = 0) :
    announce additional n (view ns us) = view ns us := by
  rw [announce_view]
  rcases h with rfl | h
  · rw [List.take_nil, List.drop_nil, List.append_nil]
  · rw [h, List.take_zero, List.drop_zero, List.append_nil]

/-- More are asked for than there are. -/
theorem announce_view_all (h : (ns ++ us).length ≤ n) :
    announce false n (view ns us) = (view ns us).notifyAll := by
  rw [List.length_append] at h
  have hmore : us.length ≤ more false n ns.length := by
    simp only [more, Bool.false_eq_true, if_false]
    omega
  rw [announce_view, List.take_of_length_le hmore, List.drop_eq_nil_of_le hmore]
  simp [view, Channels.Event.notifyAll, Function.comp_def]

/-- What is asked of a listener's entry when its owner looks at it. -/
def takeOwn (f : Nat) (e : Channels.Event) : Channels.Event :=
  if (f, true) ∈ e then e.remove f else e

end Cynthia.Listener
