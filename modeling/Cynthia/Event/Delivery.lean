import Cynthia.Event.ListenerInv
import Cynthia.Event.View

/-! Runs of an event: in every state that its operations reach the list is well
formed, `notify` and `notify_additional` notify as many listeners as they should, and
a notified listener that is dropped hands its notification on. To its users the event
is the list of `Channels.Event` all along. -/

namespace Cynthia.Listener

open Transition LinkedList

variable {s t : State} {ns us L M : List (Nat × Addr)} {f k n : Nat} {a : Addr} {m : Memory}

/-- The entries of the list with the listeners that own them: `ns` are notified, `us`
are not, and they stand in the order of `listen`. -/
structure Inv (s : State) (ns us : List (Nat × Addr)) : Prop where
  chain : Chain s.mem (ns.map Prod.snd) (us.map Prod.snd)
  ordered : (ns ++ us).Pairwise fun p q => p.1 < q.1
  owned : ∀ f a, (f, a) ∈ ns ++ us ↔ (s.listeners f).entry = some a
  unborn : ∀ f, s.created ≤ f → s.listeners f = .unborn
  count : s.notified =
    if s.mem.list.notified < s.mem.list.len then s.mem.list.notified else usizeMax
  fits : s.mem.list.len < usizeMax
  held : ∀ f a, s.listeners f = .held a → ∀ t, value s.mem.heap a ≠ some (.waiting t)

/-- The users of the event see this list. -/
def Shows (s : State) (e : Channels.Event) : Prop := ∃ ns us, Inv s ns us ∧ view ns us = e

theorem inv_new : Inv new [] [] where
  chain := chain_new
  ordered := List.Pairwise.nil
  owned f a := ⟨fun h => by simp at h, fun h => by simp [new, Phase.entry] at h⟩
  unborn _ _ := rfl
  count := rfl
  fits := by decide
  held f a h := by cases h

theorem Inv.len_eq (h : Inv s ns us) : s.mem.list.len = (ns ++ us).length := by
  rw [h.chain.len, ← List.map_append, List.length_map]

theorem Inv.notified_eq (h : Inv s ns us) : s.mem.list.notified = ns.length := by
  rw [h.chain.notified, List.length_map]

/-- No two listeners have the same entry. -/
theorem Inv.entry_inj (h : Inv s ns us) {g : Nat} (hf : (f, a) ∈ ns ++ us)
    (hg : (g, a) ∈ ns ++ us) : f = g := by
  have hnodup := h.chain.nodup
  rw [← List.map_append] at hnodup
  exact congrArg Prod.fst (List.inj_on_of_nodup_map hnodup hf hg rfl)

/-- The list moves on with the same listeners, of which some were notified. -/
theorem Inv.regroup {ns' us' : List (Nat × Addr)} (h : Inv s ns us)
    (hsame : ns' ++ us' = ns ++ us) (hchain : Chain m (ns'.map Prod.snd) (us'.map Prod.snd))
    (hwait : ∀ a t, value m.heap a = some (.waiting t) → value s.mem.heap a = some (.waiting t))
    (hmem : t.mem = m) (hlisteners : t.listeners = s.listeners) (hcreated : t.created = s.created)
    (hcount : t.notified = (unlock s m).notified) : Inv t ns' us' := by
  subst hmem
  refine ⟨hchain, ?_, fun f a => ?_, fun f hf => ?_, hcount, ?_, fun f a hf t ht => ?_⟩
  · rw [hsame]
    exact h.ordered
  · rw [hsame, hlisteners]
    exact h.owned f a
  · rw [hlisteners]
    exact h.unborn f (hcreated ▸ hf)
  · rw [hchain.len, ← List.map_append, List.length_map, hsame, ← h.len_eq]
    exact h.fits
  · rw [hlisteners] at hf
    exact h.held f a hf t (hwait a t ht)

/-- The entry of a listener leaves the list. -/
theorem Inv.shrink {ns' us' : List (Nat × Addr)} (h : Inv s ns us)
    (hsplit : ns ++ us = L ++ (f, a) :: M) (hrest : ns' ++ us' = L ++ M)
    (hchain : Chain m (ns'.map Prod.snd) (us'.map Prod.snd))
    (hwait : ∀ x t, x ≠ a → value m.heap x = some (.waiting t) →
      value s.mem.heap x = some (.waiting t))
    (hmem : t.mem = m) (hlisteners : t.listeners = Function.update s.listeners f .done)
    (hcreated : t.created = s.created) (hcount : t.notified = (unlock s m).notified) :
    Inv t ns' us' := by
  subst hmem
  have hin : (f, a) ∈ ns ++ us := by
    rw [hsplit]
    exact List.mem_append_right _ List.mem_cons_self
  have hord := h.ordered
  rw [hsplit] at hord
  have hsub : (L ++ M).Sublist (L ++ (f, a) :: M) :=
    List.Sublist.append_left (List.sublist_cons_self _ _) L
  -- The order is strict, so the listener has no second place.
  have hother : ∀ g b, (g, b) ∈ L ++ M → g ≠ f := by
    rintro g b hg rfl
    obtain ⟨-, hM, hcross⟩ := List.pairwise_append.mp hord
    rcases List.mem_append.mp hg with hL | hM'
    · exact Nat.lt_irrefl g (hcross (g, b) hL (g, a) List.mem_cons_self)
    · exact Nat.lt_irrefl g ((List.pairwise_cons.mp hM).1 (g, b) hM')
  have hmem : ∀ g b, g ≠ f → ((g, b) ∈ L ++ M ↔ (g, b) ∈ ns ++ us) := by
    intro g b hne
    rw [hsplit]
    simp only [List.mem_append, List.mem_cons, Prod.mk.injEq, hne, false_and, false_or]
  refine ⟨hchain, ?_, fun g b => ?_, fun g hg => ?_, hcount, ?_, fun g b hg t ht => ?_⟩
  · rw [hrest]
    exact hord.sublist hsub
  · rw [hrest, hlisteners]
    by_cases he : g = f
    · rw [he, Function.update_self]
      exact ⟨fun hx => absurd rfl (hother f b hx), fun hx => by cases hx⟩
    · rw [Function.update_of_ne he, hmem g b he]
      exact h.owned g b
  · rw [hlisteners, Function.update_of_ne]
    · exact h.unborn g (hcreated ▸ hg)
    · rintro rfl
      have hentry := (h.owned g a).mp hin
      rw [h.unborn g (hcreated ▸ hg)] at hentry
      cases hentry
  · have hlt := h.fits
    rw [h.len_eq, hsplit, List.length_append, List.length_cons] at hlt
    rw [hchain.len, ← List.map_append, List.length_map, hrest, List.length_append]
    omega
  · have hne : g ≠ f := by
      rintro rfl
      rw [hlisteners, Function.update_self] at hg
      cases hg
    rw [hlisteners, Function.update_of_ne hne] at hg
    have hgb : (g, b) ∈ ns ++ us := (h.owned g b).mpr (by rw [hg]; rfl)
    refine h.held g b hg t (hwait b t (fun he => hne ?_) ht)
    exact h.entry_inj hgb (he ▸ hin)

/-- A call of the owner of an entry changes the state of the entry alone. -/
theorem Inv.rephase {phase : Phase} (h : Inv s ns us) (hentry : (s.listeners f).entry = some a)
    (hphase : phase.entry = some a) (hchain : Chain m (ns.map Prod.snd) (us.map Prod.snd))
    (hsame : SameBut s.mem m a)
    (hheld : ∀ b, phase = .held b → ∀ t, value m.heap a ≠ some (.waiting t))
    (hmem : t.mem = m) (hlisteners : t.listeners = Function.update s.listeners f phase)
    (hcreated : t.created = s.created) (hcount : t.notified = (unlock s m).notified) :
    Inv t ns us := by
  subst hmem
  refine ⟨hchain, h.ordered, fun g b => ?_, fun g hg => ?_, hcount, ?_, fun g b hg t => ?_⟩
  · rw [hlisteners, h.owned g b]
    by_cases he : g = f
    · rw [he, Function.update_self, hphase, hentry]
    · rw [Function.update_of_ne he]
  · rw [hlisteners, Function.update_of_ne]
    · exact h.unborn g (hcreated ▸ hg)
    · rintro rfl
      rw [h.unborn g (hcreated ▸ hg)] at hentry
      cases hentry
  · rw [hchain.len, ← h.chain.len]
    exact h.fits
  · rw [hlisteners] at hg
    by_cases he : g = f
    · rw [he, Function.update_self] at hg
      have hb : b = a := by
        rw [hg] at hphase
        exact Option.some.inj hphase
      rw [hb]
      exact hheld b hg t
    · rw [Function.update_of_ne he] at hg
      have hgb : (g, b) ∈ ns ++ us := (h.owned g b).mpr (by rw [hg]; rfl)
      rw [hsame b fun hb => he (h.entry_inj hgb (hb ▸ (h.owned f a).mpr hentry))]
      exact h.held g b hg t

/-! ## Entries that leave the list -/

/-- `remove` takes the entry out of the part of the list that it is in. -/
theorem remove_cases (h : Inv s ns us) (hentry : (s.listeners f).entry = some a) :
    (∃ P Q additional m', ns = P ++ (f, a) :: Q ∧
      value s.mem.heap a = some (.notified additional) ∧
      s.mem.remove a = some (.notified additional, m') ∧
      Chain m' ((P ++ Q).map Prod.snd) (us.map Prod.snd) ∧ SameBut s.mem m' a) ∨
    ∃ P Q mark m', us = P ++ (f, a) :: Q ∧ value s.mem.heap a = some mark ∧
      mark.isNotified = false ∧ s.mem.remove a = some (mark, m') ∧
      Chain m' (ns.map Prod.snd) ((P ++ Q).map Prod.snd) ∧ SameBut s.mem m' a := by
  have hchain := h.chain
  rcases List.mem_append.mp ((h.owned f a).mpr hentry) with hin | hin
  · obtain ⟨P, Q, rfl⟩ := List.append_of_mem hin
    rw [List.map_append, List.map_cons] at hchain
    obtain ⟨additional, m', hmark, hm', hchain', hsame⟩ := remove_notified hchain
    rw [← List.map_append] at hchain'
    exact .inl ⟨P, Q, additional, m', rfl, hmark, hm', hchain', hsame⟩
  · obtain ⟨P, Q, rfl⟩ := List.append_of_mem hin
    rw [List.map_append, List.map_cons] at hchain
    obtain ⟨mark, m', hmark, hno, hm', hchain', hsame⟩ := remove_unnotified hchain
    rw [← List.map_append] at hchain'
    exact .inr ⟨P, Q, mark, m', rfl, hmark, hno, hm', hchain', hsame⟩

/-- The owner of an entry gives it up. -/
theorem inv_remove (h : Inv s ns us) (hentry : (s.listeners f).entry = some a) :
    ∃ mark m', s.mem.remove a = some (mark, m') ∧
      Shows (setPhase (unlock s m') f .done) ((view ns us).remove f) := by
  have hord := h.ordered
  rcases remove_cases h hentry with ⟨P, Q, additional, m', rfl, -, hm', hchain, hsame⟩ |
    ⟨P, Q, mark, m', rfl, -, -, hm', hchain, hsame⟩
  · refine ⟨_, m', hm', P ++ Q, us, h.shrink (List.append_assoc ..) (List.append_assoc ..) hchain
      (fun x t hx hv => ?_) rfl rfl rfl rfl, (remove_view_notified hord).symm⟩
    rwa [← hsame x hx]
  · refine ⟨_, m', hm', ns, P ++ Q, h.shrink (List.append_assoc ..).symm
      (List.append_assoc ..).symm hchain (fun x t hx hv => ?_) rfl rfl rfl rfl,
      (remove_view_pending hord).symm⟩
    rwa [← hsame x hx]

/-- A call that finds its entry notified takes it out. -/
theorem inv_takeOr_notified {mark : Mark → Option Mark} {phase : Phase} (h : Inv s ns us)
    (hin : (f, a) ∈ ns) :
    ∃ t, takeOr s f a mark phase = some t ∧ Shows t (takeOwn f (view ns us)) := by
  have htake : takeOwn f (view ns us) = (view ns us).remove f :=
    if_pos (mem_view_true.mpr ⟨a, hin⟩)
  obtain ⟨P, Q, rfl⟩ := List.append_of_mem hin
  have hchain := h.chain
  rw [List.map_append, List.map_cons] at hchain
  obtain ⟨additional, hmark⟩ := hchain.marked a (List.mem_append_right _ List.mem_cons_self)
  obtain ⟨node, ha, hval⟩ := exists_node_of_value hmark
  have hset := hchain.setMark (.notified false) ha (fun _ => ⟨false, rfl⟩)
    fun hus => absurd hus (hchain.disjoint (List.mem_append_right _ List.mem_cons_self))
  obtain ⟨additional', m', -, hm', hchain', hsame⟩ := remove_notified hset
  rw [← List.map_append] at hchain'
  refine ⟨setPhase (unlock s m') f .done, ?_, P ++ Q, us, h.shrink (List.append_assoc ..)
    (List.append_assoc ..) hchain' (fun x t hx hv => ?_) rfl rfl rfl rfl, ?_⟩
  · have hno : node.val.isNotified = true := by rw [hval]; rfl
    simp only [takeOr, ha, setMark_eq _ ha, hno, hm', Option.bind_eq_bind, Option.bind_some, if_true]
  · rw [hsame x hx] at hv
    exact (value_update_of_ne hx).symm.trans hv
  · rw [htake, remove_view_notified h.ordered]

/-- A call that finds its entry not notified writes a state into it. -/
theorem inv_takeOr_pending {mark : Mark → Option Mark} {phase : Phase} {old new : Mark}
    (h : Inv s ns us) (hentry : (s.listeners f).entry = some a) (hin : (f, a) ∈ us)
    (hold : value s.mem.heap a = some old) (hnew : mark old = some new)
    (hno : new.isNotified = false) (hphase : phase.entry = some a)
    (hheld : ∀ b, phase = .held b → ∀ t, new ≠ .waiting t) :
    ∃ t, takeOr s f a mark phase = some t ∧ Inv t ns us := by
  have hus : a ∈ us.map Prod.snd := List.mem_map_of_mem hin
  obtain ⟨old', hold', hold_no⟩ := h.chain.unmarked a hus
  obtain rfl := Option.some.inj (hold.symm.trans hold')
  obtain ⟨node, ha, hval⟩ := exists_node_of_value hold
  have hset := h.chain.setMark new ha (fun hns => absurd hus (h.chain.disjoint hns)) fun _ => hno
  -- The state is written twice: `replace` leaves `Notified` behind, and `set` overwrites it.
  have hset₁ := setMark_eq (.notified false) ha
  have hset₂ := setMark_eq (m := { s.mem with
    heap := Function.update s.mem.heap a (some { node with val := .notified false }) }) new
    (Function.update_self ..)
  rw [Function.update_idem] at hset₂
  refine ⟨setPhase (unlock s { s.mem with
      heap := Function.update s.mem.heap a (some { node with val := new }) }) f phase, ?_,
    h.rephase hentry hphase hset (fun x hx => value_update_of_ne hx)
      (fun b hb t hv => hheld b hb t ?_) rfl rfl rfl rfl⟩
  · simp only [takeOr, ha, hset₁, hval, hold_no, hnew, hset₂, Option.bind_eq_bind, Option.bind_some,
      Bool.false_eq_true, if_false]
  · exact Option.some.inj (value_update_self.symm.trans hv)

/-- Both cases of such a call. -/
theorem inv_takeOr {mark : Mark → Option Mark} {phase : Phase} (h : Inv s ns us)
    (hentry : (s.listeners f).entry = some a) (hphase : phase.entry = some a)
    (hmark : ∀ old, value s.mem.heap a = some old → old.isNotified = false →
      ∃ new, mark old = some new ∧ new.isNotified = false ∧
        ∀ b, phase = .held b → ∀ t, new ≠ .waiting t) :
    ∃ t, takeOr s f a mark phase = some t ∧ Shows t (takeOwn f (view ns us)) := by
  rcases List.mem_append.mp ((h.owned f a).mpr hentry) with hin | hin
  · exact inv_takeOr_notified h hin
  · obtain ⟨old, hold, hold_no⟩ := h.chain.unmarked a (List.mem_map_of_mem hin)
    obtain ⟨new, hnew, hno, hheld⟩ := hmark old hold hold_no
    obtain ⟨t, ht, hinv⟩ := inv_takeOr_pending h hentry hin hold hnew hno hphase hheld
    have hnot : (f, true) ∉ view ns us := by
      rintro hmem
      obtain ⟨b, hb⟩ := mem_view_true.mp hmem
      obtain rfl : b = a := by
        have hown := (h.owned f b).mp (List.mem_append_left _ hb)
        exact Option.some.inj (hown.symm.trans hentry)
      exact h.chain.disjoint (List.mem_map_of_mem hb) (List.mem_map_of_mem hin)
    exact ⟨t, ht, ns, us, hinv, (if_neg hnot).symm⟩

theorem inv_poll {w : Waker} (h : Inv s ns us) (hheld : s.listeners f = .held a) :
    ∃ t, poll s f w = some t ∧ Shows t (takeOwn f (view ns us)) := by
  simp only [poll, hheld]
  refine inv_takeOr h (by rw [hheld]; rfl) rfl fun old hold hno => ?_
  cases old with
  | created => exact ⟨_, rfl, rfl, fun _ _ _ hx => Mark.noConfusion hx⟩
  | notified additional => cases hno
  | polling w' =>
    refine ⟨_, rfl, ?_, fun _ _ t hx => ?_⟩
    · split <;> rfl
    · split at hx <;> cases hx
  | waiting t => exact absurd hold (h.held f a hheld t)

theorem inv_wait {t : Thread} {deadline : Bool} (h : Inv s ns us)
    (hheld : s.listeners f = .held a) :
    ∃ s', wait s f t deadline = some s' ∧ Shows s' (takeOwn f (view ns us)) := by
  simp only [wait, hheld]
  exact inv_takeOr h (by rw [hheld]; rfl) rfl fun old _ _ =>
    ⟨_, rfl, rfl, fun _ hx => Phase.noConfusion hx⟩

theorem inv_woken {deadline : Bool} (h : Inv s ns us)
    (hwaiting : s.listeners f = .waiting a deadline) :
    ∃ t, woken s f = some t ∧ Shows t (takeOwn f (view ns us)) := by
  simp only [woken, hwaiting]
  exact inv_takeOr h (by rw [hwaiting]; rfl) rfl fun old _ hno =>
    ⟨old, rfl, hno, fun _ hx => Phase.noConfusion hx⟩

/-! ## Notifications -/

theorem Notifies.pairs {additional : Bool} {m' : Memory}
    (h : Notifies additional k m m' (ns.map Prod.snd) (us.map Prod.snd)) :
    Chain m' ((ns ++ us.take k).map Prod.snd) ((us.drop k).map Prod.snd) := by
  rw [List.map_append, List.map_take, List.map_drop]
  exact h.chain

theorem Notifies.waiting {additional : Bool} {m' : Memory} {as bs : List Addr} {t : Thread}
    (h : Notifies additional k m m' as bs) (hv : value m'.heap a = some (.waiting t)) :
    value m.heap a = some (.waiting t) := by
  by_cases hin : a ∈ bs.take k
  · rw [h.marked a hin] at hv
    cases hv
  · rw [← h.other a hin]
    exact hv

/-- The first `k` listeners of the list become notified, and each is signalled as it
asked for. -/
def Delivers (s t : State) (us : List (Nat × Addr)) (additional : Bool) (k : Nat) : Prop :=
  ∀ p ∈ us.take k, value t.mem.heap p.2 = some (.notified additional) ∧
    signalOf s.mem p.2 ⊆ t.signals

/-- The two functions that notify, at once. -/
theorem notifies_spec {as bs : List Addr} (additional : Bool) (h : Chain m as bs) :
    ∃ m', (if additional then m.notifyAdditional n else m.notify n) =
        some (m', (bs.take (more additional n as.length)).flatMap (signalOf m)) ∧
      Notifies additional (more additional n as.length) m m' as bs := by
  cases additional with
  | true => exact notifyAdditional_spec h
  | false => exact notify_spec h

theorem mem_signals {as : List Addr} (hin : a ∈ as.take k) (before : List Signal) :
    signalOf m a ⊆ before ++ (as.take k).flatMap (signalOf m) := by
  intro signal hsignal
  exact List.mem_append_right _ (List.mem_flatMap.mpr ⟨a, hin, hsignal⟩)

theorem inv_notifyLocked {additional : Bool} (h : Inv s ns us)
    (hk : s.passed[k]? = some (additional, n)) :
    ∃ t, notifyLocked s k = some t ∧
      Inv t (ns ++ us.take (more additional n ns.length)) (us.drop (more additional n ns.length)) ∧
      Delivers s t us additional (more additional n ns.length) := by
  obtain ⟨m', hm', hn⟩ := notifies_spec (n := n) additional h.chain
  rw [List.length_map] at hm' hn
  refine ⟨{ unlock s m' with
      passed := s.passed.eraseIdx k
      signals := s.signals ++ ((us.map Prod.snd).take (more additional n ns.length)).flatMap
        (signalOf s.mem) }, ?_,
    h.regroup ?_ hn.pairs (fun _ _ => hn.waiting) rfl rfl rfl rfl, fun p hp => ?_⟩
  · simp only [notifyLocked, hk, hm', Option.bind_eq_bind, Option.bind_some]
  · rw [List.append_assoc, List.take_append_drop]
  · have hin : p.2 ∈ (us.map Prod.snd).take (more additional n ns.length) := by
      rw [← List.map_take]
      exact List.mem_map_of_mem hp
    exact ⟨hn.marked p.2 hin, mem_signals hin s.signals⟩

/-- The drop of a notified listener notifies others, as its own notification says. -/
theorem inv_drop_notified {P Q : List (Nat × Addr)} (h : Inv s (P ++ (f, a) :: Q) us)
    (hheld : s.listeners f = .held a) :
    ∃ additional t, value s.mem.heap a = some (.notified additional) ∧ drop s f = some t ∧
      Inv t (P ++ Q ++ us.take (more additional 1 (P ++ Q).length))
        (us.drop (more additional 1 (P ++ Q).length)) ∧
      Delivers s t us additional (more additional 1 (P ++ Q).length) := by
  have hchain := h.chain
  rw [List.map_append, List.map_cons] at hchain
  obtain ⟨additional, m', hmark, hm', hchain', hsame⟩ := remove_notified hchain
  rw [← List.map_append] at hchain'
  obtain ⟨m'', hm'', hn⟩ := notifies_spec (n := 1) additional hchain'
  rw [List.length_map] at hm'' hn
  have hhand : handOn (.notified additional) m' =
      if additional then m'.notifyAdditional 1 else m'.notify 1 := by
    cases additional <;> rfl
  refine ⟨additional, { setPhase (unlock s m'') f .done with
      signals := s.signals ++ ((us.map Prod.snd).take (more additional 1 (P ++ Q).length)).flatMap
        (signalOf m') },
    hmark, ?_, h.shrink (List.append_assoc ..) ?_ hn.pairs (fun x t hx hv => ?_) rfl rfl rfl rfl,
    fun p hp => ?_⟩
  · simp only [drop, hheld, hm', hhand, hm'', Option.bind_eq_bind, Option.bind_some]
  · rw [List.append_assoc (P ++ Q), List.take_append_drop, List.append_assoc]
    rfl
  · rw [← hsame x hx]
    exact hn.waiting hv
  · have hin : p.2 ∈ (us.map Prod.snd).take (more additional 1 (P ++ Q).length) := by
      rw [← List.map_take]
      exact List.mem_map_of_mem hp
    have hne : p.2 ≠ a := by
      intro he
      exact hchain.disjoint (List.mem_append_right _ List.mem_cons_self)
        (he ▸ List.mem_of_mem_take hin)
    have hsignal : signalOf s.mem p.2 = signalOf m' p.2 := by
      rw [signalOf, signalOf, hsame p.2 hne]
    rw [hsignal]
    exact ⟨hn.marked p.2 hin, mem_signals hin s.signals⟩

/-- The drop of a listener that is not notified. -/
theorem inv_drop_pending {P Q : List (Nat × Addr)} (h : Inv s ns (P ++ (f, a) :: Q))
    (hheld : s.listeners f = .held a) : ∃ t, drop s f = some t ∧ Inv t ns (P ++ Q) := by
  have hchain := h.chain
  rw [List.map_append, List.map_cons] at hchain
  obtain ⟨mark, m', hmark, hno, hm', hchain', hsame⟩ := remove_unnotified hchain
  rw [← List.map_append] at hchain'
  have hkeep : handOn mark m' = some (m', []) := by
    cases mark with
    | notified additional => cases hno
    | created => rfl
    | polling w => rfl
    | waiting t => rfl
  refine ⟨{ setPhase (unlock s m') f .done with signals := s.signals ++ [] }, ?_,
    h.shrink (List.append_assoc ..).symm (List.append_assoc ..).symm hchain' (fun x t hx hv => ?_)
      rfl rfl rfl rfl⟩
  · simp only [drop, hheld, hm', hkeep, Option.bind_eq_bind, Option.bind_some]
  · rw [← hsame x hx]
    exact hv

theorem inv_listen {box : Addr} (h : Inv s ns us) (hbox : s.mem.heap box = none)
    (hfits : s.mem.list.len + 1 < usizeMax) :
    ∃ t e, listen s box = some t ∧ Inv t ns (us ++ [(s.created, e)]) := by
  obtain ⟨e, m', hm', hchain, hfresh, hval, hsame⟩ := insert_spec h.chain hbox
  rw [← List.map_append] at hfresh
  have hlt : ∀ g b, (g, b) ∈ ns ++ us → g < s.created := by
    intro g b hg
    by_contra hge
    have hentry := (h.owned g b).mp hg
    rw [h.unborn g (Nat.le_of_not_lt hge)] at hentry
    cases hentry
  have hother : ∀ g b, (g, b) ∈ ns ++ us → b ≠ e :=
    fun g b hg he => hfresh (he ▸ List.mem_map_of_mem hg)
  refine ⟨{ setPhase (unlock s m') s.created (.held e) with created := s.created + 1 }, e, ?_,
    ⟨?_, ?_, fun g b => ?_, fun g hg => ?_, rfl, ?_, fun g b hg t => ?_⟩⟩
  · rw [listen, if_pos ⟨hbox, hfits⟩, hm']
    rfl
  · rw [List.map_append]
    exact hchain
  · rw [← List.append_assoc]
    refine List.pairwise_append.mpr ⟨h.ordered, List.pairwise_singleton _ _, fun p hp q hq => ?_⟩
    rw [List.mem_singleton.mp hq]
    exact hlt p.1 p.2 hp
  · rw [← List.append_assoc, List.mem_append, List.mem_singleton, Prod.mk.injEq]
    show _ ↔ (Function.update s.listeners s.created (.held e) g).entry = some b
    by_cases he : g = s.created
    · rw [he, Function.update_self]
      constructor
      · rintro (hg | ⟨-, rfl⟩)
        · exact absurd (hlt _ _ hg) (Nat.lt_irrefl _)
        · rfl
      · exact fun hx => .inr ⟨rfl, (Option.some.inj hx).symm⟩
    · rw [Function.update_of_ne he, ← h.owned g b]
      exact ⟨fun hx => hx.resolve_right fun hx => he hx.1, .inl⟩
  · exact (Function.update_of_ne (by rintro rfl; exact Nat.not_succ_le_self _ hg) ..).trans
      (h.unborn g (Nat.le_of_succ_le hg))
  · have hlen := hchain.len
    have hold := h.chain.len
    simp only [List.length_append, List.length_singleton] at hlen hold
    show m'.list.len < usizeMax
    omega
  · have hg' : Function.update s.listeners s.created (.held e) g = .held b := hg
    by_cases he : g = s.created
    · rw [he, Function.update_self] at hg'
      obtain rfl := Phase.held.inj hg'
      exact fun hx => Mark.noConfusion (Option.some.inj (hval.symm.trans hx))
    · rw [Function.update_of_ne he] at hg'
      have hin : (g, b) ∈ ns ++ us := (h.owned g b).mpr (by rw [hg']; rfl)
      show value m'.heap b ≠ _
      rw [hsame b (hother g b hin)]
      exact h.held g b hg' t

/-! ## Runs -/

/-- What the types allow the callers to do. -/
def Allowed (s : State) : Act → Prop
  | .listen box => s.mem.heap box = none ∧ s.mem.list.len + 1 < usizeMax
  | .notify n | .notifyAdditional n => n ≤ usizeMax
  | .notifyLocked k => k < s.passed.length
  | .poll f _ | .wait f _ _ | .discard f | .drop f => ∃ a, s.listeners f = .held a
  | .woken f => ∃ a deadline, s.listeners f = .waiting a deadline
  | .expired f => ∃ a, s.listeners f = .waiting a true

theorem inv_notify {additional : Bool} (h : Inv s ns us) :
    Inv { s with passed := s.passed ++ [(additional, n)] } ns us := { h with }

/-- The entry of the listener was notified by `notify_additional`. -/
def additionally (s : State) (f : Nat) : Bool :=
  (s.listeners f).entry.bind (value s.mem.heap) == some (.notified true)

/-- What an operation is to the users of the event. A call of `notify` takes effect when it
looks at the count, or else under the lock. -/
def effect (s : State) (e : Channels.Event) : Act → Channels.Event
  | .listen _ => e.listen s.created
  | .notify n => if s.notified < n then e else announce false n e
  | .notifyAdditional n => if s.notified < usizeMax then e else announce true n e
  | .notifyLocked k => match s.passed[k]? with
    | some (additional, n) => announce additional n e
    | none => e
  | .poll f _ | .wait f _ _ | .woken f => takeOwn f e
  | .expired f | .discard f => e.remove f
  | .drop f =>
    if (f, true) ∈ e then announce (additionally s f) 1 (e.remove f) else e.remove f

/-- Where `notify` finds nothing to do, nobody is waiting or enough are notified. -/
theorem Inv.nothing (h : Inv s ns us) (hn : ¬s.notified < n) :
    us = [] ∨ more false n ns.length = 0 := by
  rw [h.count, h.notified_eq, h.len_eq, List.length_append] at hn
  split at hn
  · exact .inr (by simp only [more, Bool.false_eq_true, if_false]; omega)
  · exact .inl (List.length_eq_zero_iff.mp (by omega))

theorem Inv.nobody (h : Inv s ns us) (hn : ¬s.notified < usizeMax) : us = [] := by
  have hfits := h.fits
  rw [h.len_eq, List.length_append] at hfits
  rw [h.count, h.notified_eq, h.len_eq, List.length_append] at hn
  split at hn
  · omega
  · exact List.length_eq_zero_iff.mp (by omega)

theorem shows_drop (h : Inv s ns us) (hheld : s.listeners f = .held a) :
    ∃ t, drop s f = some t ∧ Shows t (effect s (view ns us) (.drop f)) := by
  have hin : (f, a) ∈ ns ++ us := (h.owned f a).mpr (by rw [hheld]; rfl)
  have hord := h.ordered
  rcases List.mem_append.mp hin with hin | hin
  · have hmem : (f, true) ∈ view ns us := mem_view_true.mpr ⟨a, hin⟩
    obtain ⟨P, Q, rfl⟩ := List.append_of_mem hin
    obtain ⟨additional, t, hmark, ht, hinv, -⟩ := inv_drop_notified h hheld
    have hadd : additionally s f = additional := by
      rw [additionally, hheld]
      cases additional <;> simp [Phase.entry, hmark]
    refine ⟨t, ht, _, _, hinv, ?_⟩
    rw [effect, if_pos hmem, hadd, remove_view_notified hord, announce_view]
  · obtain ⟨P, Q, rfl⟩ := List.append_of_mem hin
    obtain ⟨t, ht, hinv⟩ := inv_drop_pending h hheld
    have hnot : (f, true) ∉ view ns (P ++ (f, a) :: Q) := by
      rintro hmem
      obtain ⟨b, hb⟩ := mem_view_true.mp hmem
      rw [← List.append_assoc] at hord
      exact keys_ne hord (f, b) (List.mem_append_left _ (List.mem_append_left _ hb)) rfl
    refine ⟨t, ht, _, _, hinv, ?_⟩
    rw [effect, if_neg hnot, remove_view_pending hord]

/-- No operation follows a dangling pointer or takes one from a count of zero, and to the
users it is the operation on `Channels.Event`. -/
theorem step_spec {act : Act} (h : Inv s ns us) (hact : Allowed s act) :
    ∃ t, step s act = some t ∧ Shows t (effect s (view ns us) act) := by
  cases act with
  | listen box =>
    obtain ⟨t, e, ht, hinv⟩ := inv_listen h hact.1 hact.2
    exact ⟨t, ht, ns, _, hinv, view_listen⟩
  | notify n =>
    simp only [step, notify, effect, if_pos (show n ≤ usizeMax from hact)]
    split <;> rename_i hn
    · exact ⟨_, rfl, ns, us, inv_notify h, rfl⟩
    · exact ⟨_, rfl, ns, us, h, (announce_view_self (h.nothing hn)).symm⟩
  | notifyAdditional n =>
    simp only [step, notifyAdditional, effect, if_pos (show n ≤ usizeMax from hact)]
    split <;> rename_i hn
    · exact ⟨_, rfl, ns, us, inv_notify h, rfl⟩
    · exact ⟨_, rfl, ns, us, h, (announce_view_self (.inl (h.nobody hn))).symm⟩
  | notifyLocked k =>
    have hk := List.getElem?_eq_getElem (show k < s.passed.length from hact)
    obtain ⟨t, ht, hinv, -⟩ := inv_notifyLocked h hk
    refine ⟨t, ht, _, _, hinv, ?_⟩
    simp only [effect, hk]
    exact (announce_view ..).symm
  | poll f w =>
    obtain ⟨a, hheld⟩ := hact
    exact inv_poll h hheld
  | wait f t deadline =>
    obtain ⟨a, hheld⟩ := hact
    exact inv_wait h hheld
  | woken f =>
    obtain ⟨a, deadline, hwaiting⟩ := hact
    exact inv_woken h hwaiting
  | expired f =>
    obtain ⟨a, hwaiting⟩ := hact
    obtain ⟨mark, m', hm', hshows⟩ := inv_remove h (f := f) (a := a) (by rw [hwaiting]; rfl)
    refine ⟨_, ?_, hshows⟩
    simp only [step, expired, hwaiting, hm', Option.bind_eq_bind, Option.bind_some]
  | discard f =>
    obtain ⟨a, hheld⟩ := hact
    obtain ⟨mark, m', hm', hshows⟩ := inv_remove h (f := f) (a := a) (by rw [hheld]; rfl)
    refine ⟨_, ?_, hshows⟩
    simp only [step, discard, hheld, hm', Option.bind_eq_bind, Option.bind_some]
  | drop f =>
    obtain ⟨a, hheld⟩ := hact
    exact shows_drop h hheld

theorem allowed_of_step {act : Act} (ht : step s act = some t) : Allowed s act := by
  cases act with
  | listen box =>
    simp only [step, listen] at ht
    split at ht
    · assumption
    · cases ht
  | notify n =>
    simp only [step, notify] at ht
    split at ht
    · assumption
    · cases ht
  | notifyAdditional n =>
    simp only [step, notifyAdditional] at ht
    split at ht
    · assumption
    · cases ht
  | notifyLocked k =>
    simp only [step, notifyLocked] at ht
    split at ht
    · rename_i hk
      exact (List.getElem?_eq_some_iff.mp hk).1
    · cases ht
  | poll f w =>
    simp only [step, poll] at ht
    split at ht
    · exact ⟨_, by assumption⟩
    · cases ht
  | wait f t deadline =>
    simp only [step, wait] at ht
    split at ht
    · exact ⟨_, by assumption⟩
    · cases ht
  | woken f =>
    simp only [step, woken] at ht
    split at ht
    · exact ⟨_, _, by assumption⟩
    · cases ht
  | expired f =>
    simp only [step, expired] at ht
    split at ht
    · exact ⟨_, by assumption⟩
    · cases ht
  | discard f =>
    simp only [step, discard] at ht
    split at ht
    · exact ⟨_, by assumption⟩
    · cases ht
  | drop f =>
    simp only [step, drop] at ht
    split at ht
    · exact ⟨_, by assumption⟩
    · cases ht

/-- Each step of the list is a step of the event that its users see. -/
theorem Shows.step {e : Channels.Event} {act : Act} (h : Shows s e) (ht : step s act = some t) :
    Shows t (effect s e act) := by
  obtain ⟨ns, us, hinv, rfl⟩ := h
  obtain ⟨t', ht', hshows⟩ := step_spec hinv (allowed_of_step ht)
  obtain rfl := Option.some.inj (ht'.symm.trans ht)
  exact hshows

theorem inv_of_reachable (hs : system.Reachable s) : ∃ ns us, Inv s ns us := by
  have hshows : ∃ e, Shows s e :=
    hs.invariant (M := system) (I := fun s => ∃ e, Shows s e) ⟨[], [], [], inv_new, rfl⟩
      fun _ _ _ ⟨_, h⟩ ht => ⟨_, h.step ht⟩
  obtain ⟨-, ns, us, h, -⟩ := hshows
  exact ⟨ns, us, h⟩

/-- A call of `notify` that its first look at the count turns away has nothing to do. -/
theorem Inv.turned_away (h : Inv s ns us) (hn : ¬s.notified < n) :
    s.mem.list.notified = max s.mem.list.notified (min n s.mem.list.len) := by
  rw [h.count] at hn
  split at hn <;> omega

theorem Inv.all_notified (h : Inv s ns us) (hn : ¬s.notified < usizeMax) :
    s.mem.list.notified = min s.mem.list.len (s.mem.list.notified + n) := by
  have hle : s.mem.list.notified ≤ s.mem.list.len := by
    rw [h.notified_eq, h.len_eq, List.length_append]
    exact Nat.le_add_right _ _
  have hfits := h.fits
  rw [h.count] at hn
  split at hn <;> omega

/-- How many listeners are notified after such a call. -/
theorem inv_notifyLocked_count {additional : Bool} (h : Inv s ns us)
    (hk : s.passed[k]? = some (additional, n)) (ht : notifyLocked s k = some t) :
    t.mem.list.notified = s.mem.list.notified + min (more additional n ns.length) us.length ∧
      Delivers s t us additional (t.mem.list.notified - s.mem.list.notified) := by
  obtain ⟨t', ht', hinv, hdel⟩ := inv_notifyLocked h hk
  obtain rfl := Option.some.inj (ht'.symm.trans ht)
  have hcount : t'.mem.list.notified =
      s.mem.list.notified + min (more additional n ns.length) us.length := by
    rw [hinv.notified_eq, h.notified_eq, List.length_append, List.length_take]
  refine ⟨hcount, fun p hp => hdel p ?_⟩
  rw [hcount, Nat.add_sub_cancel_left] at hp
  exact List.take_subset_take_left us (Nat.min_le_left _ _) hp

/-- The list keeps its listeners in order with the notified ones in front, every operation
that the types allow succeeds, `notify` and `notify_additional` notify as many listeners as
they say, and the drop of a notified one hands its notification on. -/
theorem event_list_sound (hs : system.Reachable s) : ∃ ns us, Inv s ns us ∧
    (∀ act, Allowed s act → ∃ t, step s act = some t) ∧
    (∀ n, ¬s.notified < n →
      s.mem.list.notified = max s.mem.list.notified (min n s.mem.list.len)) ∧
    (∀ k n t, s.passed[k]? = some (false, n) → step s (.notifyLocked k) = some t →
      t.mem.list.notified = max s.mem.list.notified (min n s.mem.list.len) ∧
      Delivers s t us false (t.mem.list.notified - s.mem.list.notified)) ∧
    (∀ n, ¬s.notified < usizeMax →
      s.mem.list.notified = min s.mem.list.len (s.mem.list.notified + n)) ∧
    (∀ k n t, s.passed[k]? = some (true, n) → step s (.notifyLocked k) = some t →
      t.mem.list.notified = min s.mem.list.len (s.mem.list.notified + n) ∧
      Delivers s t us true (t.mem.list.notified - s.mem.list.notified)) ∧
    ∀ f a additional t, s.listeners f = .held a →
      value s.mem.heap a = some (.notified additional) → step s (.drop f) = some t →
      additional = true ∨ s.mem.list.notified = 1 → Delivers s t us additional 1 := by
  obtain ⟨ns, us, h⟩ := inv_of_reachable hs
  have hlen : s.mem.list.len = s.mem.list.notified + us.length := by
    rw [h.notified_eq, h.len_eq, List.length_append]
  refine ⟨ns, us, h, fun act hact => ?_, fun n => h.turned_away, fun k n t hk ht => ?_,
    fun n => h.all_notified, fun k n t hk ht => ?_, fun f a additional t hheld hmark ht hcond => ?_⟩
  · obtain ⟨t, ht, -⟩ := step_spec h hact
    exact ⟨t, ht⟩
  · obtain ⟨hcount, hdel⟩ := inv_notifyLocked_count h hk ht
    refine ⟨?_, hdel⟩
    rw [hcount, more, if_neg Bool.false_ne_true, ← h.notified_eq]
    omega
  · obtain ⟨hcount, hdel⟩ := inv_notifyLocked_count h hk ht
    refine ⟨?_, hdel⟩
    rw [hcount, more, if_pos rfl]
    omega
  · have hin : (f, a) ∈ ns ++ us := (h.owned f a).mpr (by rw [hheld]; rfl)
    rcases List.mem_append.mp hin with hin | hin
    · obtain ⟨P, Q, rfl⟩ := List.append_of_mem hin
      obtain ⟨additional', t', hmark', ht', -, hdel⟩ := inv_drop_notified h hheld
      obtain rfl := Option.some.inj (ht'.symm.trans ht)
      obtain rfl := Mark.notified.inj (Option.some.inj (hmark'.symm.trans hmark))
      have hmore : more additional' 1 (P ++ Q).length = 1 := by
        rcases hcond with rfl | hone
        · rfl
        · have hcount := h.notified_eq
          simp only [List.length_append, List.length_cons] at hcount ⊢
          unfold more
          split <;> omega
      rw [hmore] at hdel
      exact hdel
    · obtain ⟨mark, hmark', hno⟩ := h.chain.unmarked a (List.mem_map_of_mem hin)
      obtain rfl := Option.some.inj (hmark'.symm.trans hmark)
      cases hno

/-- The first of three listeners is notified and dropped, and the second one, which
was polled, is woken in its place. The cached entry is free again. -/
def handedOn : List Act :=
  [.listen 1, .listen 1, .listen 2, .notify 1, .notifyLocked 0, .poll 1 7, .drop 0]

theorem event_list_sound_handedOn : ∃ s, system.Reachable s ∧ s.signals = [.wake 7] ∧
    s.mem.list.head = some 1 ∧ s.mem.list.start = some 2 ∧ s.mem.list.cacheUsed = false ∧
    ∃ ns us, Inv s ns us ∧ ns.length = 1 ∧ us.length = 1 := by
  obtain ⟨s, -, hs, hsignals, hhead, hstart, hcache, hlen, hcount⟩ := system.exists_of_run
    (P := fun s => s.signals = [.wake 7] ∧ s.mem.list.head = some 1 ∧
      s.mem.list.start = some 2 ∧ s.mem.list.cacheUsed = false ∧ s.mem.list.len = 2 ∧
      s.mem.list.notified = 1) handedOn (by decide +kernel)
  obtain ⟨ns, us, h, -⟩ := event_list_sound hs
  have hns := h.notified_eq
  have hall := h.len_eq
  rw [List.length_append] at hall
  exact ⟨s, hs, hsignals, hhead, hstart, hcache, ns, us, h, by omega, by omega⟩

end Cynthia.Listener
