import Cynthia.Event.Listener

/-! The list of entries is well formed: its notified entries come first, and the
counts and the `start` pointer say where they end. -/

namespace Cynthia.Listener

open Transition LinkedList

variable {m m' : Memory} {ns us L M : List Addr} {a : Addr} {n : Nat} {mark : Mark}

/-- The list consists of the entries `ns`, which are notified, and of `us` behind
them, which are not. -/
structure Chain (m : Memory) (ns us : List Addr) : Prop where
  links : Seg m.heap none (ns ++ us) none
  nodup : (ns ++ us).Nodup
  head : m.list.head = (ns ++ us).head?
  tail : m.list.tail = (ns ++ us).getLast?
  start : m.list.start = us.head?
  len : m.list.len = (ns ++ us).length
  notified : m.list.notified = ns.length
  marked : ∀ a ∈ ns, ∃ additional, value m.heap a = some (.notified additional)
  unmarked : ∀ a ∈ us, ∃ mark, value m.heap a = some mark ∧ mark.isNotified = false
  cacheUsed : m.list.cacheUsed = true ↔ cache ∈ ns ++ us

theorem chain_new : Chain new.mem [] [] := by
  constructor <;> simp [new, Seg]

/-- The marks of the other entries are as before. -/
def SameBut (m m' : Memory) (a : Addr) : Prop := ∀ x, x ≠ a → value m'.heap x = value m.heap x

theorem exists_node_of_value {h : Heap Addr Mark} (hv : value h a = some mark) :
    ∃ node, h a = some node ∧ node.val = mark :=
  Option.map_eq_some_iff.mp hv

/-! ## `insert` -/

theorem insert_spec {box : Addr} (h : Chain m ns us) (hbox : m.heap box = none) :
    ∃ e m', m.insert box = some (e, m') ∧ Chain m' ns (us ++ [e]) ∧ e ∉ ns ++ us ∧
      value m'.heap e = some .created ∧ SameBut m m' e := by
  obtain ⟨e, he⟩ : ∃ e, e = if m.list.cacheUsed then box else cache := ⟨_, rfl⟩
  have hfresh : e ∉ ns ++ us := by
    intro hmem
    by_cases hused : m.list.cacheUsed = true
    · obtain ⟨node, hnode⟩ := h.links.exists_node hmem
      rw [he, if_pos hused, hbox] at hnode
      cases hnode
    · rw [he, if_neg hused] at hmem
      exact hused (h.cacheUsed.mpr hmem)
  have hne : ∀ a ∈ ns ++ us, a ≠ e := fun a ha hx => hfresh (hx ▸ ha)
  obtain ⟨g, hg, hseg, hval, hother⟩ := h.links.push h.nodup hfresh .created
  rw [← h.tail] at hg
  refine ⟨e, ⟨g, { m.list with
    head := m.list.tail.elim (some e) fun _ => m.list.head
    tail := some e
    start := m.list.start.elim (some e) fun _ => m.list.start
    len := m.list.len + 1
    cacheUsed := true }⟩, ?_, ?_, hfresh, hval, hother⟩
  · simp only [Memory.insert, ← he, hg]
    cases m.list.tail <;> cases m.list.start <;> rfl
  refine ⟨?_, ?_, ?_, ?_, ?_, ?_, h.notified, fun a ha => ?_, fun a ha => ?_, ?_⟩
  · rw [← List.append_assoc]
    exact hseg
  · rw [← List.append_assoc]
    refine List.nodup_append.mpr ⟨h.nodup, List.nodup_singleton _, fun a ha b hb => ?_⟩
    rw [List.mem_singleton.mp hb]
    exact hne a ha
  · show m.list.tail.elim (some e) (fun _ => m.list.head) = _
    rw [h.tail, h.head, ← List.append_assoc]
    cases hL : ns ++ us with
    | nil => rfl
    | cons x L => rw [List.getLast?_eq_some_getLast (List.cons_ne_nil x L)]; rfl
  · rw [← List.append_assoc, List.getLast?_append_of_ne_nil _ (List.cons_ne_nil _ _)]
    rfl
  · show m.list.start.elim (some e) (fun _ => m.list.start) = _
    rw [h.start]
    cases us with
    | nil => rfl
    | cons x us => rfl
  · show m.list.len + 1 = _
    rw [h.len]
    simp only [List.length_append, List.length_singleton]
    omega
  · rw [hother a (hne a (List.mem_append_left _ ha))]
    exact h.marked a ha
  · rcases List.mem_append.mp ha with ha | ha
    · rw [hother a (hne a (List.mem_append_right _ ha))]
      exact h.unmarked a ha
    · rw [List.mem_singleton.mp ha]
      exact ⟨_, hval, rfl⟩
  · refine ⟨fun _ => ?_, fun _ => rfl⟩
    rw [← List.append_assoc]
    by_cases hused : m.list.cacheUsed = true
    · exact List.mem_append_left _ (h.cacheUsed.mp hused)
    · rw [he, if_neg hused]
      exact List.mem_append_right _ (List.mem_singleton_self _)

/-! ## `remove` -/

theorem decrement_of_pos (h : 0 < n) : decrement n = some (n - 1) := by
  cases n with
  | zero => exact absurd h (Nat.lt_irrefl 0)
  | succ n => rfl

/-- What `remove` does to the links and to the counts, wherever the entry is. -/
theorem remove_eq (h : Chain m ns us) (hsplit : ns ++ us = L ++ a :: M)
    (hmark : value m.heap a = some mark)
    (hcount : mark.isNotified = true → 0 < ns.length) :
    ∃ m', m.remove a = some (mark, m') ∧ Seg m'.heap none (L ++ M) none ∧
      m'.list.head = (L ++ M).head? ∧ m'.list.tail = (L ++ M).getLast? ∧
      m'.list.start = (if us.head? = some a then M.head? else us.head?) ∧
      m'.list.len = (L ++ M).length ∧
      m'.list.notified = (if mark.isNotified then ns.length - 1 else ns.length) ∧
      (m'.list.cacheUsed = true ↔ cache ∈ L ++ M) ∧ SameBut m m' a := by
  have hlinks := h.links
  have hnodup := h.nodup
  rw [hsplit] at hlinks hnodup
  obtain ⟨node, g₁, g₂, ha, hprev, hnext, hg₁, hg₂, hseg, hga, hvalue⟩ := hlinks.unlink hnodup
  obtain rfl : node.val = mark := by
    rw [value, ha] at hmark
    exact Option.some.inj hmark
  have hcounted : (if node.val.isNotified then decrement m.list.notified
      else some m.list.notified) =
        some (if node.val.isNotified then ns.length - 1 else ns.length) := by
    rw [h.notified]
    split
    · rename_i hn
      exact decrement_of_pos (hcount hn)
    · rfl
  have hlen : decrement m.list.len = some (L ++ M).length := by
    rw [h.len, hsplit, List.length_append, List.length_cons, List.length_append]
    exact decrement_of_pos (Nat.succ_pos _)
  have hout : a ∉ L ++ M := by
    intro hmem
    obtain ⟨-, hM, hdisj⟩ := List.nodup_append.mp hnodup
    rcases List.mem_append.mp hmem with hL | hM'
    · exact hdisj a hL a List.mem_cons_self rfl
    · exact (List.nodup_cons.mp hM).1 hM'
  refine ⟨⟨Function.update g₂ a (if a = cache then some { node with val := .created } else none),
    { head := node.prev.elim node.next fun _ => m.list.head
      tail := node.next.elim node.prev fun _ => m.list.tail
      start := if m.list.start = some a then node.next else m.list.start
      len := (L ++ M).length
      notified := if node.val.isNotified then ns.length - 1 else ns.length
      cacheUsed := if a = cache then false else m.list.cacheUsed }⟩, ?_, ?_, ?_, ?_, ?_, rfl, rfl,
    ?_, ?_⟩
  · simp only [Memory.remove, ha, hg₁, hg₂, hga, hcounted, hlen, Option.bind_eq_bind,
      Option.bind_some]
    cases node.prev <;> cases node.next <;> rfl
  · refine hseg.frame fun x hx => Function.update_of_ne ?_ ..
    rintro rfl
    exact hout hx
  · show (node.prev.elim node.next fun _ => m.list.head) = _
    rw [hprev, hnext, h.head, hsplit]
    cases L with
    | nil => rfl
    | cons x L =>
      rw [List.getLast?_eq_some_getLast (List.cons_ne_nil x L)]
      rfl
  · show (node.next.elim node.prev fun _ => m.list.tail) = _
    rw [hprev, hnext, h.tail, hsplit]
    cases M with
    | nil => exact (congrArg List.getLast? (List.append_nil L)).symm
    | cons x M =>
      rw [List.getLast?_append_of_ne_nil _ (List.cons_ne_nil _ _),
        List.getLast?_append_of_ne_nil _ (List.cons_ne_nil _ _)]
      rfl
  · show (if m.list.start = some a then node.next else m.list.start) = _
    rw [h.start, hnext]
  · show (if a = cache then false else m.list.cacheUsed) = true ↔ _
    by_cases hc : a = cache
    · rw [if_pos hc, ← hc]
      exact ⟨fun hx => Bool.noConfusion hx, fun hx => absurd hx hout⟩
    · rw [if_neg hc, h.cacheUsed, hsplit]
      simp only [List.mem_append, List.mem_cons, Ne.symm hc, false_or]
  · intro x hx
    exact (value_update_of_ne hx).trans (hvalue x)

theorem remove_notified {P Q : List Addr} (h : Chain m (P ++ a :: Q) us) :
    ∃ additional m', value m.heap a = some (.notified additional) ∧
      m.remove a = some (.notified additional, m') ∧ Chain m' (P ++ Q) us ∧ SameBut m m' a := by
  obtain ⟨additional, hmark⟩ := h.marked a (List.mem_append_right _ List.mem_cons_self)
  have hsplit : P ++ a :: Q ++ us = P ++ a :: (Q ++ us) := by simp
  have hnodup := h.nodup
  rw [hsplit] at hnodup
  have hnotin : a ∉ P ++ (Q ++ us) := (List.nodup_middle.mp hnodup).notMem
  obtain ⟨m', hm', hseg, hhead, htail, hstart, hlen, hcount, hused, hsame⟩ :=
    remove_eq h hsplit hmark fun _ => by rw [List.length_append, List.length_cons]; omega
  rw [← List.append_assoc] at hnotin hseg hhead htail hlen hused
  have hne : ∀ x ∈ P ++ Q ++ us, x ≠ a := fun x hx he => hnotin (he ▸ hx)
  refine ⟨additional, m', hmark, hm', ⟨hseg, ?_, hhead, htail, ?_, hlen, ?_, fun x hx => ?_,
    fun x hx => ?_, hused⟩, hsame⟩
  · rw [List.append_assoc]
    exact (List.nodup_middle.mp hnodup).of_cons
  · rw [hstart, if_neg]
    exact fun he => hne a (List.mem_append_right _ (List.mem_of_head? he)) rfl
  · rw [hcount, if_pos (show (Mark.notified additional).isNotified = true from rfl)]
    simp only [List.length_append, List.length_cons]
    omega
  · rw [hsame x (hne x (List.mem_append_left _ hx))]
    refine h.marked x ?_
    rcases List.mem_append.mp hx with hx | hx
    · exact List.mem_append_left _ hx
    · exact List.mem_append_right _ (List.mem_cons_of_mem _ hx)
  · rw [hsame x (hne x (List.mem_append_right _ hx))]
    exact h.unmarked x hx

theorem remove_unnotified {P Q : List Addr} (h : Chain m ns (P ++ a :: Q)) :
    ∃ mark m', value m.heap a = some mark ∧ mark.isNotified = false ∧
      m.remove a = some (mark, m') ∧ Chain m' ns (P ++ Q) ∧ SameBut m m' a := by
  obtain ⟨mark, hmark, hno⟩ := h.unmarked a (List.mem_append_right _ List.mem_cons_self)
  have hsplit : ns ++ (P ++ a :: Q) = ns ++ P ++ a :: Q := (List.append_assoc ..).symm
  have hnodup := h.nodup
  rw [hsplit] at hnodup
  have hnotin : a ∉ ns ++ P ++ Q := (List.nodup_middle.mp hnodup).notMem
  obtain ⟨m', hm', hseg, hhead, htail, hstart, hlen, hcount, hused, hsame⟩ :=
    remove_eq h hsplit hmark fun hx => by rw [hno] at hx; cases hx
  have hne : ∀ x ∈ ns ++ P ++ Q, x ≠ a := fun x hx he => hnotin (he ▸ hx)
  have hnodup' := (List.nodup_middle.mp hnodup).of_cons
  have hstart' : m'.list.start = (P ++ Q).head? := by
    rw [hstart]
    cases P with
    | nil => exact if_pos rfl
    | cons p P =>
      rw [if_neg]
      · rfl
      · intro he
        exact hne p (List.mem_append_left _ (List.mem_append_right _ List.mem_cons_self))
          (Option.some.inj he)
  rw [List.append_assoc] at hseg hhead htail hlen hused hne hnodup'
  refine ⟨mark, m', hmark, hno, hm', ⟨hseg, hnodup', hhead, htail, hstart', hlen, ?_, fun x hx => ?_,
    fun x hx => ?_, hused⟩, hsame⟩
  · rw [hcount, hno]
    rfl
  · rw [hsame x (hne x (List.mem_append_left _ hx))]
    exact h.marked x hx
  · rw [hsame x (hne x (List.mem_append_right _ hx))]
    refine h.unmarked x ?_
    rcases List.mem_append.mp hx with hx | hx
    · exact List.mem_append_left _ hx
    · exact List.mem_append_right _ (List.mem_cons_of_mem _ hx)

/-! ## `notify` and `notify_additional` -/

/-- What the entry at an address makes known when it is notified. -/
def signalOf (m : Memory) (a : Addr) : List Signal := ((value m.heap a).map Mark.signal).getD []

/-- The first entry that is not notified becomes so. -/
theorem notify_one (additional : Bool) (h : Chain m ns (a :: us)) :
    ∃ node, m.heap a = some node ∧ node.next = us.head? ∧
      Chain ⟨Function.update m.heap a (some { node with val := .notified additional }),
        { m.list with start := node.next, notified := m.list.notified + 1 }⟩ (ns ++ [a]) us := by
  obtain ⟨hns, node, ha, hprev, hnext, hus⟩ := seg_append.mp h.links
  rw [Option.or_none] at hnext
  have hnodup := h.nodup
  have hassoc : ns ++ a :: us = ns ++ [a] ++ us := by simp
  have hne : ∀ x ∈ ns ++ us, x ≠ a :=
    fun x hx he => (List.nodup_middle.mp hnodup).notMem (he ▸ hx)
  refine ⟨node, ha, hnext, ?_⟩
  refine ⟨?_, ?_, ?_, ?_, hnext, ?_, ?_, fun x hx => ?_, fun x hx => ?_, ?_⟩
  · rw [← hassoc]
    refine h.links.congr fun x hx node' hnode' => ?_
    by_cases he : x = a
    · subst he
      obtain rfl := Option.some.inj (ha.symm.trans hnode')
      exact ⟨_, Function.update_self .., rfl, rfl⟩
    · exact ⟨node', (Function.update_of_ne he ..).trans hnode', rfl, rfl⟩
  · rw [← hassoc]
    exact hnodup
  · rw [← hassoc]
    exact h.head
  · rw [← hassoc]
    exact h.tail
  · rw [← hassoc]
    exact h.len
  · rw [List.length_append]
    exact congrArg (· + 1) h.notified
  · rcases List.mem_append.mp hx with hx | hx
    · rw [value_update_of_ne (hne x (List.mem_append_left _ hx))]
      exact h.marked x hx
    · rw [List.mem_singleton.mp hx]
      exact ⟨additional, value_update_self⟩
  · rw [value_update_of_ne (hne x (List.mem_append_right _ hx))]
    exact h.unmarked x (List.mem_cons_of_mem _ hx)
  · rw [← hassoc]
    exact h.cacheUsed

/-- The first `k` entries that are not notified become so, and nothing else changes. -/
structure Notifies (additional : Bool) (k : Nat) (m m' : Memory) (ns us : List Addr) : Prop where
  chain : Chain m' (ns ++ us.take k) (us.drop k)
  marked : ∀ x ∈ us.take k, value m'.heap x = some (.notified additional)
  other : ∀ x ∉ us.take k, value m'.heap x = value m.heap x

theorem notifies_zero {additional : Bool} (h : Chain m ns us) :
    Notifies additional 0 m m ns us :=
  ⟨by simpa using h, fun x hx => by simp at hx, fun _ _ => rfl⟩

/-- Each entry that the loop notifies is signalled. -/
theorem notifyLoop_spec {additional : Bool} (h : Chain m ns us) :
    ∃ m', Memory.notifyLoop additional n m = some (m', (us.take n).flatMap (signalOf m)) ∧
      Notifies additional n m m' ns us := by
  induction n generalizing m ns us with
  | zero => exact ⟨m, rfl, notifies_zero h⟩
  | succ n ih =>
    cases us with
    | nil =>
      refine ⟨m, ?_, by simpa using h, fun x hx => by simp at hx, fun _ _ => rfl⟩
      rw [Memory.notifyLoop, h.start]
      rfl
    | cons u us =>
      obtain ⟨node, hu, -, hone⟩ := notify_one additional h
      obtain ⟨m', hm', hchain, hmarked, hother⟩ := ih hone
      have hnotin : u ∉ us := fun hmem => by
        have := (List.nodup_append.mp h.nodup).2.1
        exact (List.nodup_cons.mp this).1 hmem
      have hne : ∀ x ∈ us.take n, x ≠ u := fun x hx he => hnotin (he ▸ List.mem_of_mem_take hx)
      refine ⟨m', ?_, ?_, fun x hx => ?_, fun x hx => ?_⟩
      · have hsignals : (us.take n).flatMap (signalOf ⟨Function.update m.heap u
            (some { node with val := .notified additional }),
            { m.list with start := node.next, notified := m.list.notified + 1 }⟩) =
            (us.take n).flatMap (signalOf m) := by
          refine List.flatMap_congr fun x hx => ?_
          rw [signalOf, signalOf, value_update_of_ne (hne x hx)]
        have hfirst : signalOf m u = node.val.signal := by rw [signalOf, value, hu]; rfl
        rw [Memory.notifyLoop, h.start]
        simp only [List.head?_cons, hu, hm', Option.bind_eq_bind, Option.bind_some, hsignals,
          List.take_succ_cons, List.flatMap_cons, hfirst]
      · rw [List.take_succ_cons, List.drop_succ_cons]
        rw [List.append_assoc] at hchain
        exact hchain
      · rcases List.mem_cons.mp hx with rfl | hx
        · exact (hother x fun hmem => hnotin (List.mem_of_mem_take hmem)).trans value_update_self
        · exact hmarked x hx
      · rw [List.take_succ_cons, List.mem_cons, not_or] at hx
        exact (hother x hx.2).trans (value_update_of_ne hx.1)

/-- `notify(n)` counts the entries that are notified already. -/
theorem notify_spec (h : Chain m ns us) :
    ∃ m', m.notify n = some (m', (us.take (n - ns.length)).flatMap (signalOf m)) ∧
      Notifies false (n - ns.length) m m' ns us := by
  rw [Memory.notify, h.notified]
  split
  · rename_i hle
    rw [Nat.sub_eq_zero_of_le hle]
    exact ⟨m, rfl, notifies_zero h⟩
  · exact notifyLoop_spec h

theorem notifyAdditional_spec (h : Chain m ns us) :
    ∃ m', m.notifyAdditional n = some (m', (us.take n).flatMap (signalOf m)) ∧
      Notifies true n m m' ns us := notifyLoop_spec h

/-! ## The state of an entry -/

/-- A write to the state of an entry that leaves it notified, or not. -/
theorem Chain.setMark {node : Entry} (h : Chain m ns us) (mark : Mark)
    (ha : m.heap a = some node)
    (hns : a ∈ ns → ∃ additional, mark = .notified additional)
    (hus : a ∈ us → mark.isNotified = false) :
    Chain { m with heap := Function.update m.heap a (some { node with val := mark }) } ns us := by
  refine { h with
    links := h.links.congr fun x hx node' hnode' => ?_
    marked := fun x hx => ?_
    unmarked := fun x hx => ?_ }
  · by_cases he : x = a
    · subst he
      obtain rfl := Option.some.inj (ha.symm.trans hnode')
      exact ⟨_, Function.update_self .., rfl, rfl⟩
    · exact ⟨node', (Function.update_of_ne he ..).trans hnode', rfl, rfl⟩
  · by_cases he : x = a
    · subst he
      obtain ⟨additional, rfl⟩ := hns hx
      exact ⟨additional, value_update_self⟩
    · rw [value_update_of_ne he]
      exact h.marked x hx
  · by_cases he : x = a
    · subst he
      exact ⟨mark, value_update_self, hus hx⟩
    · rw [value_update_of_ne he]
      exact h.unmarked x hx

theorem setMark_eq {node : Entry} (mark : Mark) (ha : m.heap a = some node) : m.setMark a mark =
    some { m with heap := Function.update m.heap a (some { node with val := mark }) } := by
  rw [Memory.setMark, modify_eq_some ha]
  rfl

theorem Chain.disjoint (h : Chain m ns us) (hns : a ∈ ns) : a ∉ us :=
  fun hus => (List.nodup_append.mp h.nodup).2.2 a hns a hus rfl

end Cynthia.Listener
