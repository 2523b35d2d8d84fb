import Cynthia.Event.Delivery

/-! The calls of `notify` and `notify_additional` look at the published count before they
take the lock of the list. Without another thread in between, they do what `List::notify`
and `List::notify_additional` do under the lock. -/

namespace Cynthia.Listener

open Transition LinkedList

/-- `inner.lock().notify(n)`. -/
def lockedNotify (s : State) (n : Nat) : Option State := do
  let (m, signals) ← s.mem.notify n
  some { unlock s m with signals := s.signals ++ signals }

/-- `inner.lock().notify_additional(n)`. -/
def lockedNotifyAdditional (s : State) (n : Nat) : Option State := do
  let (m, signals) ← s.mem.notifyAdditional n
  some { unlock s m with signals := s.signals ++ signals }

/-- `full_fence`; memory is sequentially consistent here. -/
def fullFence (s : State) : State := s

namespace Event

/-- `Event::notify_relaxed`. -/
def notifyRelaxed (s : State) (n : Nat) : Option State :=
  if s.notified < n then lockedNotify s n else some s

/-- `Event::notify`. -/
def notify (s : State) (n : Nat) : Option State := notifyRelaxed (fullFence s) n

/-- `Event::notify_additional_relaxed`. -/
def notifyAdditionalRelaxed (s : State) (n : Nat) : Option State :=
  if s.notified < usizeMax then lockedNotifyAdditional s n else some s

/-- `Event::notify_additional`. -/
def notifyAdditional (s : State) (n : Nat) : Option State :=
  notifyAdditionalRelaxed (fullFence s) n

end Event

variable {s t : State} {ns us : List (Nat × Addr)} {m : Memory} {n : Nat}

/-- A call whose two steps follow each other is one of these. -/
theorem notify_notifyLocked (hn : n ≤ usizeMax) :
    ((notify s n).bind fun t =>
      if t.passed.length = s.passed.length then some t else notifyLocked t s.passed.length) =
    Event.notify s n := by
  unfold notify Event.notify Event.notifyRelaxed fullFence
  rw [if_pos hn]
  split
  · simp only [Option.bind_some, List.length_append, List.length_singleton, notifyLocked,
      List.getElem?_concat_length, lockedNotify]
    rw [if_neg (by omega)]
    cases s.mem.notify n with
    | none => rfl
    | some r => simp [unlock, List.eraseIdx_append_of_length_le]
  · simp

theorem notifyAdditional_notifyLocked (hn : n ≤ usizeMax) :
    ((notifyAdditional s n).bind fun t =>
      if t.passed.length = s.passed.length then some t else notifyLocked t s.passed.length) =
    Event.notifyAdditional s n := by
  unfold notifyAdditional Event.notifyAdditional Event.notifyAdditionalRelaxed fullFence
  rw [if_pos hn]
  split
  · simp only [Option.bind_some, List.length_append, List.length_singleton, notifyLocked,
      List.getElem?_concat_length, lockedNotifyAdditional]
    rw [if_neg (by omega)]
    cases s.mem.notifyAdditional n with
    | none => rfl
    | some r => simp [unlock, List.eraseIdx_append_of_length_le]
  · simp

/-- To the users of the event such a call is one operation. -/
theorem Shows.notify {e : Channels.Event} (h : Shows s e) (hn : n ≤ usizeMax)
    (ht : Event.notify s n = some t) : Shows t (e.notify n) := by
  rw [← notify_notifyLocked hn] at ht
  obtain ⟨u, hu, ht⟩ := Option.bind_eq_some_iff.mp ht
  have hcall : Listener.step s (.notify n) = some u := hu
  have hlooked := h.step hcall
  simp only [Listener.notify, if_pos hn] at hu
  split at hu <;> rename_i hlt <;> cases hu
  · rw [effect, if_pos hlt] at hlooked
    rw [if_neg (by simp)] at ht
    have hlock : Listener.step _ (.notifyLocked s.passed.length) = some t := ht
    have hlocked := hlooked.step hlock
    simp only [effect, List.getElem?_concat_length] at hlocked
    exact hlocked
  · rw [effect, if_neg hlt] at hlooked
    rw [if_pos rfl] at ht
    exact Option.some.inj ht ▸ hlooked

theorem Shows.notifyAdditional {e : Channels.Event} (h : Shows s e) (hn : n ≤ usizeMax)
    (ht : Event.notifyAdditional s n = some t) : Shows t (e.mark n) := by
  rw [← notifyAdditional_notifyLocked hn] at ht
  obtain ⟨u, hu, ht⟩ := Option.bind_eq_some_iff.mp ht
  have hcall : Listener.step s (.notifyAdditional n) = some u := hu
  have hlooked := h.step hcall
  simp only [Listener.notifyAdditional, if_pos hn] at hu
  split at hu <;> rename_i hlt <;> cases hu
  · rw [effect, if_pos hlt] at hlooked
    rw [if_neg (by simp)] at ht
    have hlock : Listener.step _ (.notifyLocked s.passed.length) = some t := ht
    have hlocked := hlooked.step hlock
    simp only [effect, List.getElem?_concat_length] at hlocked
    exact hlocked
  · rw [effect, if_neg hlt] at hlooked
    rw [if_pos rfl] at ht
    exact Option.some.inj ht ▸ hlooked

/-- `notify(usize::MAX)` is `notifyAll`. -/
theorem Shows.notifyAll {e : Channels.Event} (h : Shows s e)
    (ht : Event.notify s usizeMax = some t) : Shows t e.notifyAll := by
  have hshows := h.notify (Nat.le_refl _) ht
  obtain ⟨ns, us, hinv, rfl⟩ := h
  have hfits := hinv.fits
  rw [hinv.len_eq] at hfits
  rwa [← announce_false, announce_view_all (Nat.le_of_lt hfits)] at hshows

/-- Some listener is not notified. -/
def Pending (s : State) : Prop :=
  ∃ f a mark, (s.listeners f).entry = some a ∧ value s.mem.heap a = some mark ∧
    mark.isNotified = false

theorem Inv.pending_iff (h : Inv s ns us) : Pending s ↔ us ≠ [] := by
  constructor
  · rintro ⟨f, a, mark, hentry, hvalue, hno⟩ rfl
    have hin := (h.owned f a).mpr hentry
    rw [List.append_nil] at hin
    obtain ⟨additional, hmark⟩ := h.chain.marked a (List.mem_map_of_mem hin)
    obtain rfl := Option.some.inj (hvalue.symm.trans hmark)
    cases hno
  · intro hne
    obtain ⟨⟨f, a⟩, rest, rfl⟩ := List.exists_cons_of_ne_nil hne
    obtain ⟨mark, hmark, hno⟩ := h.chain.unmarked a List.mem_cons_self
    exact ⟨f, a, mark, (h.owned f a).mp (List.mem_append_right _ List.mem_cons_self), hmark, hno⟩

theorem Inv.count_of_pending (h : Inv s ns us) (hp : Pending s) :
    s.notified = s.mem.list.notified := by
  have hpos := List.length_pos_iff.mpr (h.pending_iff.mp hp)
  rw [h.count, if_pos]
  rw [h.notified_eq, h.len_eq, List.length_append]
  omega

theorem Inv.count_of_not (h : Inv s ns us) (hp : ¬Pending s) : s.notified = usizeMax := by
  have hnil : us = [] := not_not.mp (mt h.pending_iff.mpr hp)
  rw [h.count, if_neg]
  rw [h.notified_eq, h.len_eq, hnil, List.append_nil]
  exact Nat.lt_irrefl _

/-- The guard publishes what is published already. -/
theorem Inv.unlock_self (h : Inv s ns us) :
    { unlock s s.mem with signals := s.signals ++ [] } = s := by
  rw [unlock, List.append_nil, ← h.count]

theorem notifyLoop_of_start (additional : Bool) (hstart : m.list.start = none) (n : Nat) :
    Memory.notifyLoop additional n m = some (m, []) := by
  cases n with
  | zero => rfl
  | succ n => simp only [Memory.notifyLoop, hstart]

theorem Inv.start_of_not (h : Inv s ns us) (hp : ¬Pending s) : s.mem.list.start = none := by
  have hnil : us = [] := not_not.mp (mt h.pending_iff.mpr hp)
  rw [h.chain.start, hnil]
  rfl

/-- A call of `notify` that is turned away would have found nothing to do. -/
theorem Inv.lockedNotify_of_le (h : Inv s ns us) (hn : ¬s.notified < n) :
    lockedNotify s n = some s := by
  have hnothing : s.mem.notify n = some (s.mem, []) := by
    by_cases hp : Pending s
    · rw [h.count_of_pending hp] at hn
      rw [Memory.notify, if_pos (Nat.not_lt.mp hn)]
    · rw [Memory.notify, notifyLoop_of_start false (h.start_of_not hp), ite_self]
  unfold lockedNotify
  rw [hnothing]
  exact congrArg some h.unlock_self

theorem Inv.lockedNotifyAdditional_of_le (h : Inv s ns us) (hn : ¬s.notified < usizeMax) :
    lockedNotifyAdditional s n = some s := by
  have hp : ¬Pending s := by
    intro hp
    have hlt := h.fits
    rw [h.count_of_pending hp, h.notified_eq] at hn
    rw [h.len_eq, List.length_append] at hlt
    omega
  unfold lockedNotifyAdditional
  rw [Memory.notifyAdditional, notifyLoop_of_start true (h.start_of_not hp)]
  exact congrArg some h.unlock_self

theorem Inv.exists_lockedNotify (h : Inv s ns us) (n : Nat) : ∃ t, lockedNotify s n = some t := by
  obtain ⟨m, hm, -⟩ := notify_spec h.chain (n := n)
  exact ⟨_, by rw [lockedNotify, hm]; rfl⟩

theorem Inv.exists_lockedNotifyAdditional (h : Inv s ns us) (n : Nat) :
    ∃ t, lockedNotifyAdditional s n = some t := by
  obtain ⟨m, hm, -⟩ := notifyAdditional_spec h.chain (n := n)
  exact ⟨_, by rw [lockedNotifyAdditional, hm]; rfl⟩

/-- The four calls have the effect of the list's own operations, for every `n`, and the
published count is that of the list while some listener is not notified. -/
theorem event_fast_path (hs : system.Reachable s) :
    (∀ n, ∃ t, lockedNotify s n = some t ∧ Event.notify s n = some t ∧
      Event.notifyRelaxed s n = some t) ∧
    (∀ n, ∃ t, lockedNotifyAdditional s n = some t ∧ Event.notifyAdditional s n = some t ∧
      Event.notifyAdditionalRelaxed s n = some t) ∧
    (Pending s → s.notified = s.mem.list.notified) ∧ (¬Pending s → s.notified = usizeMax) := by
  obtain ⟨ns, us, h⟩ := inv_of_reachable hs
  refine ⟨fun n => ?_, fun n => ?_, h.count_of_pending, h.count_of_not⟩
  · obtain ⟨t, ht⟩ := h.exists_lockedNotify n
    have hfast : Event.notifyRelaxed s n = some t := by
      unfold Event.notifyRelaxed
      split
      · exact ht
      · exact (h.lockedNotify_of_le ‹_›).symm.trans ht
    exact ⟨t, ht, hfast, hfast⟩
  · obtain ⟨t, ht⟩ := h.exists_lockedNotifyAdditional n
    have hfast : Event.notifyAdditionalRelaxed s n = some t := by
      unfold Event.notifyAdditionalRelaxed
      split
      · exact ht
      · exact (h.lockedNotifyAdditional_of_le ‹_›).symm.trans ht
    exact ⟨t, ht, hfast, hfast⟩

/-- One of two listeners is notified: a second `notify(1)` is turned away. -/
theorem event_fast_path_turned_away : ∃ s, system.Reachable s ∧ s.mem.list.len = 2 ∧
    s.notified = 1 ∧ s.mem.list.notified = 1 ∧ lockedNotify s 1 = Event.notify s 1 := by
  obtain ⟨s, -, hs, hlen, hcount, hlist⟩ := system.exists_of_run
    (P := fun s => s.mem.list.len = 2 ∧ s.notified = 1 ∧ s.mem.list.notified = 1)
    [.listen 1, .listen 1, .notify 1, .notifyLocked 0] (by decide +kernel)
  obtain ⟨t, hlocked, hfast, -⟩ := (event_fast_path hs).1 1
  exact ⟨s, hs, hlen, hcount, hlist, hlocked.trans hfast.symm⟩

end Cynthia.Listener
