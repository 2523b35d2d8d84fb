import Mathlib.Data.Finset.Card
import Mathlib.Data.List.Nodup
import Mathlib.Data.Finset.Dedup

/-! The list of sleeping tickers, `platform/waker/sleeper.rs`. -/

namespace Cynthia.Executor

/-- The identity of a waker, up to `will_wake`. -/
abbrev Waker := Nat

structure Sleeper where
  count : Nat
  wakers : List (Nat × Waker)
  freeIds : List Nat
  deriving DecidableEq, Repr

namespace Sleeper

def new : Sleeper := ⟨0, [], []⟩

def insert (s : Sleeper) (w : Waker) : Nat × Sleeper :=
  let (id, free) := match s.freeIds.getLast? with
    | some id => (id, s.freeIds.dropLast)
    | none => (s.count + 1, s.freeIds)
  (id, ⟨s.count + 1, s.wakers ++ [(id, w)], free⟩)

/-- Replace the waker of the first entry with this id. -/
def setWaker (id : Nat) (w : Waker) : List (Nat × Waker) → List (Nat × Waker)
  | [] => []
  | item :: rest => if item.1 = id then (id, w) :: rest else item :: setWaker id w rest

/-- The id has an entry: the ticker sleeps and was not notified. -/
def waiting (s : Sleeper) (id : Nat) : Prop := id ∈ s.wakers.map Prod.fst

instance (s : Sleeper) (id : Nat) : Decidable (s.waiting id) :=
  inferInstanceAs (Decidable (_ ∈ _))

def update (s : Sleeper) (id : Nat) (w : Waker) : Bool × Sleeper :=
  if s.waiting id then (false, { s with wakers := setWaker id w s.wakers })
  else (true, { s with wakers := s.wakers ++ [(id, w)] })

/-- Removes the last entry with this id. -/
def remove (s : Sleeper) (id : Nat) : Bool × Sleeper :=
  (!decide (s.waiting id),
    ⟨s.count - 1, (s.wakers.reverse.eraseP fun item => item.1 = id).reverse, s.freeIds ++ [id]⟩)

def isNotified (s : Sleeper) : Bool := s.count == 0 || decide (s.wakers.length < s.count)

def notify (s : Sleeper) : Option Waker × Sleeper :=
  if s.wakers.length = s.count then
    (s.wakers.getLast?.map Prod.snd, { s with wakers := s.wakers.dropLast })
  else (none, s)

/-- `ids` are the ids handed out and not returned: every entry belongs to one of
them, and the next id to be handed out is not among them. -/
structure Ok (ids : Finset Nat) (s : Sleeper) : Prop where
  card : ids.card = s.count
  nodup : (s.wakers.map Prod.fst).Nodup
  mem : ∀ id, s.waiting id → id ∈ ids
  free_nodup : s.freeIds.Nodup
  free : ∀ id ∈ s.freeIds, id ∉ ids ∧ 0 < id ∧ id ≤ s.count + s.freeIds.length
  bound : ∀ id ∈ ids, 0 < id ∧ id ≤ s.count + s.freeIds.length

theorem ok_new : Ok ∅ new := by
  constructor <;> simp [new, waiting]

variable {ids : Finset Nat} {s : Sleeper} {id : Nat} {w : Waker}

theorem Ok.length_le (h : Ok ids s) : s.wakers.length ≤ s.count := by
  rw [← h.card, ← List.length_map (f := Prod.fst), ← List.toFinset_card_of_nodup h.nodup]
  apply Finset.card_le_card
  intro i hi
  exact h.mem i (List.mem_toFinset.mp hi)

/-- If there are fewer entries than ids, some ticker was notified. -/
theorem Ok.exists_notified (h : Ok ids s) (hlt : s.wakers.length < s.count) :
    ∃ i ∈ ids, ¬s.waiting i := by
  by_contra hall
  push Not at hall
  have hsub : ids ⊆ (s.wakers.map Prod.fst).toFinset := by
    intro i hi
    exact List.mem_toFinset.mpr (hall i hi)
  have hle := Finset.card_le_card hsub
  rw [List.toFinset_card_of_nodup h.nodup, List.length_map, h.card] at hle
  omega

theorem ok_insert {s' : Sleeper} (h : Ok ids s) (hi : s.insert w = (id, s')) :
    id ∉ ids ∧ Ok (Insert.insert id ids) s' ∧ s'.wakers = s.wakers ++ [(id, w)] ∧
      s'.count = s.count + 1 := by
  -- a recycled id, or the first one that was never handed out
  have hfresh : id ∉ ids ∧ 0 < id ∧ id ∉ s'.freeIds ∧ s'.freeIds.Nodup ∧
      (∀ i ∈ s'.freeIds, i ∈ s.freeIds) ∧
      s.count + s.freeIds.length ≤ s'.count + s'.freeIds.length ∧
      id ≤ s'.count + s'.freeIds.length ∧ s'.wakers = s.wakers ++ [(id, w)] ∧
      s'.count = s.count + 1 := by
    rcases List.eq_nil_or_concat' s.freeIds with hnil | ⟨free, last, hfree⟩
    · simp only [insert, hnil, List.getLast?_nil, Prod.mk.injEq] at hi
      obtain ⟨rfl, rfl⟩ := hi
      have hbound := h.bound
      rw [hnil] at hbound
      refine ⟨fun hmem => ?_, by omega, by simp, by simp, by simp, by simp [hnil], by simp, rfl, rfl⟩
      have hle := (hbound _ hmem).2
      rw [List.length_nil] at hle
      omega
    · simp only [insert, hfree, List.getLast?_append, List.getLast?_singleton, Option.some_or,
        List.dropLast_concat, Prod.mk.injEq] at hi
      obtain ⟨rfl, rfl⟩ := hi
      have hmem := h.free last (by simp [hfree])
      have hnodup := h.free_nodup
      rw [hfree, List.nodup_append] at hnodup
      rw [hfree, List.length_append, List.length_singleton] at hmem
      refine ⟨hmem.1, hmem.2.1, ?_, hnodup.1, ?_, ?_, ?_, rfl, rfl⟩
      · intro hlast
        exact hnodup.2.2 last hlast last (by simp) rfl
      · intro i hi
        simp [hfree, hi]
      · simp [hfree]
        omega
      · have := hmem.2.2
        dsimp only
        omega
  obtain ⟨hnew, hpos, hgone, hnodup, hsub, hle, hid, hwakers, hcount⟩ := hfresh
  refine ⟨hnew, ?_, hwakers, hcount⟩
  constructor
  · rw [Finset.card_insert_of_notMem hnew, h.card, hcount]
  · rw [hwakers, List.map_append, List.nodup_append]
    refine ⟨h.nodup, by simp, ?_⟩
    intro i hi j hj hij
    simp only [List.map_cons, List.map_nil, List.mem_singleton] at hj
    exact hnew (hj ▸ hij ▸ h.mem i hi)
  · intro i hi
    simp only [waiting, hwakers, List.map_append, List.mem_append, List.map_cons, List.map_nil,
      List.mem_singleton] at hi
    rcases hi with hi | rfl
    · exact Finset.mem_insert_of_mem (h.mem i hi)
    · exact Finset.mem_insert_self _ _
  · exact hnodup
  · intro i hfree
    obtain ⟨hni, hipos, hile⟩ := h.free i (hsub i hfree)
    refine ⟨?_, hipos, by omega⟩
    rw [Finset.mem_insert]
    rintro (rfl | hmem)
    · exact hgone hfree
    · exact hni hmem
  · intro i hi
    rcases Finset.mem_insert.mp hi with rfl | hmem
    · exact ⟨hpos, hid⟩
    · have := h.bound i hmem
      omega

theorem map_fst_setWaker (l : List (Nat × Waker)) :
    (setWaker id w l).map Prod.fst = l.map Prod.fst := by
  induction l with
  | nil => rfl
  | cons item rest ih =>
    unfold setWaker
    split
    · rename_i heq
      simp [heq]
    · simp [ih]

theorem length_setWaker (l : List (Nat × Waker)) : (setWaker id w l).length = l.length := by
  rw [← List.length_map (f := Prod.fst), map_fst_setWaker, List.length_map]

theorem mem_setWaker {l : List (Nat × Waker)} (h : id ∈ l.map Prod.fst) :
    (id, w) ∈ setWaker id w l := by
  induction l with
  | nil => cases h
  | cons item rest ih =>
    unfold setWaker
    split
    · simp
    · rename_i hne
      rw [List.map_cons, List.mem_cons] at h
      rcases h with heq | h
      · exact absurd heq.symm hne
      · exact List.mem_cons_of_mem _ (ih h)

theorem mem_setWaker_of_ne {l : List (Nat × Waker)} {i : Nat} {v : Waker} (hne : i ≠ id) :
    (i, v) ∈ setWaker id w l ↔ (i, v) ∈ l := by
  induction l with
  | nil => rfl
  | cons item rest ih =>
    unfold setWaker
    split
    · rename_i heq
      have hitem : (i, v) ≠ item := by
        rintro rfl
        exact hne heq
      simp [hne, hitem]
    · simp [ih]

/-- The entry that `remove` erases is the only one with its id. -/
theorem mem_eraseP {l : List (Nat × Waker)} (h : (l.map Prod.fst).Nodup) {i : Nat} {v : Waker} :
    (i, v) ∈ l.eraseP (fun item => item.1 = id) ↔ (i, v) ∈ l ∧ i ≠ id := by
  induction l with
  | nil => simp
  | cons item rest ih =>
    rw [List.map_cons, List.nodup_cons] at h
    by_cases heq : item.1 = id
    · rw [List.eraseP_cons_of_pos (by simpa using heq)]
      have hrest : (i, v) ∈ rest → i ≠ id := by
        rintro hmem rfl
        exact h.1 (heq ▸ List.mem_map_of_mem hmem)
      constructor
      · exact fun hmem => ⟨List.mem_cons_of_mem _ hmem, hrest hmem⟩
      · rintro ⟨hmem, hne⟩
        rcases List.mem_cons.mp hmem with rfl | hmem
        · exact absurd heq hne
        · exact hmem
    · rw [List.eraseP_cons_of_neg (by simpa using heq), List.mem_cons, List.mem_cons, ih h.2]
      constructor
      · rintro (rfl | ⟨hmem, hne⟩)
        · exact ⟨.inl rfl, heq⟩
        · exact ⟨.inr hmem, hne⟩
      · rintro ⟨rfl | hmem, hne⟩
        · exact .inl rfl
        · exact .inr ⟨hmem, hne⟩

theorem nodup_reverse_map {l : List (Nat × Waker)} :
    (l.reverse.map Prod.fst).Nodup ↔ (l.map Prod.fst).Nodup := by
  rw [List.map_reverse, List.nodup_reverse]

theorem mem_remove (h : Ok ids s) (i : Nat) (v : Waker) :
    (i, v) ∈ (s.remove id).2.wakers ↔ (i, v) ∈ s.wakers ∧ i ≠ id := by
  simp only [remove, List.mem_reverse]
  rw [mem_eraseP (nodup_reverse_map.mpr h.nodup), List.mem_reverse]

theorem waiting_iff (i : Nat) : s.waiting i ↔ ∃ v, (i, v) ∈ s.wakers := by
  simp [waiting]

/-- One entry less, or the ticker had been notified. -/
theorem length_remove (s : Sleeper) (id : Nat) :
    (s.remove id).2.wakers.length + (if s.waiting id then 1 else 0) = s.wakers.length := by
  simp only [remove, List.length_reverse]
  split
  · rename_i hw
    obtain ⟨v, hv⟩ := (waiting_iff id).mp hw
    have hmem : (id, v) ∈ s.wakers.reverse := List.mem_reverse.mpr hv
    have hpos := List.length_pos_of_mem hv
    rw [List.length_eraseP_of_mem hmem (by simp), List.length_reverse]
    omega
  · rename_i hw
    rw [List.eraseP_of_forall_not, List.length_reverse, Nat.add_zero]
    intro item hitem heq
    exact hw (List.mem_map.mpr ⟨item, List.mem_reverse.mp hitem, by simpa using heq⟩)

theorem ok_update (h : Ok ids s) (hid : id ∈ ids) : Ok ids (s.update id w).2 := by
  by_cases hw : s.waiting id
  · simp only [update, hw, if_true]
    constructor
    · exact h.card
    · rw [map_fst_setWaker]
      exact h.nodup
    · intro i hi
      rw [waiting, map_fst_setWaker] at hi
      exact h.mem i hi
    · exact h.free_nodup
    · exact h.free
    · exact h.bound
  · simp only [update, hw, if_false]
    constructor
    · exact h.card
    · rw [List.map_append, List.nodup_append]
      refine ⟨h.nodup, by simp, ?_⟩
      intro i hi j hj hij
      simp only [List.map_cons, List.map_nil, List.mem_singleton] at hj
      exact hw (hj ▸ hij ▸ hi)
    · intro i hi
      simp only [waiting, List.map_append, List.mem_append, List.map_cons, List.map_nil,
        List.mem_singleton] at hi
      rcases hi with hi | rfl
      · exact h.mem i hi
      · exact hid
    · exact h.free_nodup
    · exact h.free
    · exact h.bound

theorem ok_remove (h : Ok ids s) (hid : id ∈ ids) : Ok (ids.erase id) (s.remove id).2 := by
  have hpos : 0 < ids.card := Finset.card_pos.mpr ⟨id, hid⟩
  have hcard := h.card
  constructor
  · rw [Finset.card_erase_of_mem hid, h.card]
    rfl
  · have hsub : (s.remove id).2.wakers.reverse.Sublist s.wakers.reverse := by
      simp only [remove, List.reverse_reverse]
      exact List.eraseP_sublist
    have := (hsub.map Prod.fst).nodup (nodup_reverse_map.mpr h.nodup)
    exact nodup_reverse_map.mp this
  · intro i hi
    obtain ⟨v, hv⟩ := (waiting_iff i).mp hi
    obtain ⟨hv, hne⟩ := (mem_remove h i v).mp hv
    exact Finset.mem_erase.mpr ⟨hne, h.mem i ((waiting_iff i).mpr ⟨v, hv⟩)⟩
  · simp only [remove, List.nodup_append]
    refine ⟨h.free_nodup, by simp, ?_⟩
    intro i hi j hj hij
    rw [List.mem_singleton] at hj
    exact (h.free i hi).1 (hij ▸ hj ▸ hid)
  · intro i hi
    simp only [remove, List.mem_append, List.mem_singleton, List.length_append,
      List.length_singleton] at hi ⊢
    rcases hi with hi | rfl
    · obtain ⟨hni, hp, hle⟩ := h.free i hi
      exact ⟨fun hmem => hni (Finset.mem_of_mem_erase hmem), hp, by omega⟩
    · obtain ⟨hp, hle⟩ := h.bound i hid
      exact ⟨Finset.notMem_erase _ _, hp, by omega⟩
  · intro i hi
    simp only [remove, List.length_append, List.length_singleton]
    obtain ⟨hp, hle⟩ := h.bound i (Finset.mem_of_mem_erase hi)
    exact ⟨hp, by omega⟩

/-- `notify` takes one entry if no notification is outstanding. -/
theorem notify_cases (s : Sleeper) :
    (∃ rest i v, s.wakers.length = s.count ∧ s.wakers = rest ++ [(i, v)] ∧
      s.notify = (some v, { s with wakers := rest })) ∨
    (s.wakers.length = s.count ∧ s.count = 0 ∧ s.notify = (none, s)) ∨
    (s.wakers.length ≠ s.count ∧ s.notify = (none, s)) := by
  by_cases hlen : s.wakers.length = s.count
  · rcases List.eq_nil_or_concat' s.wakers with hnil | ⟨rest, ⟨i, v⟩, hrest⟩
    · right
      left
      rw [hnil] at hlen
      refine ⟨by rw [hnil]; exact hlen, hlen.symm, ?_⟩
      have hself : ({ s with wakers := [] } : Sleeper) = s := by
        rw [← hnil]
      simp [notify, hnil, hlen, hself]
    · left
      refine ⟨rest, i, v, hlen, hrest, ?_⟩
      rw [notify, if_pos hlen, hrest]
      simp
  · exact .inr (.inr ⟨hlen, by simp [notify, hlen]⟩)

theorem ok_notify (h : Ok ids s) : Ok ids s.notify.2 := by
  rcases notify_cases s with ⟨rest, i, v, -, hrest, hn⟩ | ⟨-, -, hn⟩ | ⟨-, hn⟩
  · have hsub : rest.Sublist s.wakers := hrest ▸ List.sublist_append_left rest _
    rw [hn]
    constructor
    · exact h.card
    · exact (hsub.map Prod.fst).nodup h.nodup
    · intro j hj
      exact h.mem j ((hsub.map Prod.fst).subset hj)
    · exact h.free_nodup
    · exact h.free
    · exact h.bound
  · rw [hn]
    exact h
  · rw [hn]
    exact h

/-! ## Who has an entry -/

variable {s' : Sleeper} {j : Nat}

theorem waiting_concat {free : List Nat} {n : Nat} :
    waiting ⟨n, s.wakers ++ [(id, w)], free⟩ j ↔ s.waiting j ∨ j = id := by
  simp [waiting]

theorem waiting_insert (hi : s.insert w = (id, s')) : s'.waiting j ↔ s.waiting j ∨ j = id := by
  obtain ⟨-, rfl⟩ := Prod.mk.inj hi
  rw [← (Prod.mk.inj hi).1]
  exact waiting_concat

/-- After `update` the id has an entry. -/
theorem waiting_update : (s.update id w).2.waiting j ↔ s.waiting j ∨ j = id := by
  by_cases hw : s.waiting id
  · simp only [update, hw, if_true]
    rw [waiting, map_fst_setWaker]
    constructor
    · exact .inl
    · rintro (hj | rfl)
      · exact hj
      · exact hw
  · simp only [update, hw, if_false]
    exact waiting_concat

theorem waiting_remove (h : Ok ids s) : (s.remove id).2.waiting j ↔ s.waiting j ∧ j ≠ id := by
  simp only [waiting_iff, mem_remove h]
  constructor
  · rintro ⟨v, hv, hne⟩
    exact ⟨⟨v, hv⟩, hne⟩
  · rintro ⟨⟨v, hv⟩, hne⟩
    exact ⟨v, hv, hne⟩

/-- The id whose entry `notify` takes off the list. -/
def notifiedId (s : Sleeper) : Option Nat :=
  if s.wakers.length = s.count then s.wakers.getLast?.map Prod.fst else none

/-- `notify` takes the entry of one id off the list, if any. -/
theorem waiting_notify (h : Ok ids s) :
    s.notify.2.waiting j ↔ s.waiting j ∧ s.notifiedId ≠ some j := by
  rcases notify_cases s with ⟨rest, i, v, hlen, hrest, hn⟩ | ⟨hlen, hzero, hn⟩ | ⟨hlen, hn⟩
  · have hid : s.notifiedId = some i := by
      rw [notifiedId, if_pos hlen, hrest]
      simp
    have hnodup := h.nodup
    rw [hrest, List.map_append, List.nodup_append] at hnodup
    rw [hn, hid]
    simp only [waiting, hrest, List.map_append, List.mem_append, List.map_cons, List.map_nil,
      List.mem_singleton, ne_eq, Option.some.injEq]
    constructor
    · intro hj
      exact ⟨.inl hj, fun hij => hnodup.2.2 j hj i (by simp) hij.symm⟩
    · rintro ⟨hj | hj, hne⟩
      · exact hj
      · exact absurd hj.symm hne
  · have hid : s.notifiedId = none := by
      rw [hzero] at hlen
      simp [notifiedId, List.eq_nil_of_length_eq_zero hlen]
    simp [hn, hid]
  · simp [hn, notifiedId, hlen]

end Sleeper

end Cynthia.Executor
