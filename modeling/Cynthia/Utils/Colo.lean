import Mathlib.Data.List.Nodup
import Mathlib.Tactic.Push

/-! The slab `Colo` of `utils/colo.rs`: slots whose vacant ones are linked into a
free list. `head` and the links are `none` where the source has `!0`. -/

namespace Cynthia.Utils

inductive Slot (α : Type) where
  | vacant (next : Option Nat)
  | occupied (object : α)
  deriving DecidableEq, Repr

def Slot.isOccupied {α : Type} : Slot α → Bool
  | .vacant _ => false
  | .occupied _ => true

def Slot.object? {α : Type} : Slot α → Option α
  | .vacant _ => none
  | .occupied object => some object

def Slot.map {α : Type} (f : α → α) : Slot α → Slot α
  | .vacant next => .vacant next
  | .occupied object => .occupied (f object)

structure Colo (α : Type) where
  slots : List (Slot α)
  limited : Nat
  len : Nat
  head : Option Nat
  deriving DecidableEq, Repr

namespace Colo

variable {α : Type}

def new : Colo α := ⟨[], 0, 0, none⟩

def isEmpty (c : Colo α) : Bool := c.len == 0

def nextVacant (c : Colo α) : Nat :=
  match c.head with
  | none => c.len
  | some index => index

/-- `insert`, with the index it returns; `none` where the source panics. -/
def insert (c : Colo α) (object : α) : Option (Nat × Colo α) :=
  if c.limited ≠ 0 ∧ c.len = c.limited then some (0, c)
  else match c.head with
    | none => some (c.len,
        { c with slots := c.slots ++ [.occupied object], len := c.len + 1 })
    | some index => match c.slots[index]? with
      | some (.vacant next) => some (index,
          { c with slots := c.slots.set index (.occupied object), len := c.len + 1, head := next })
      | _ => none

def remove (c : Colo α) (index : Nat) : Option α × Colo α :=
  match c.slots[index]? with
  | some (.occupied object) =>
    (some object,
      { c with slots := c.slots.set index (.vacant c.head), head := some index, len := c.len - 1 })
  | _ => (none, c)

def get (c : Colo α) (index : Nat) : Option α :=
  match c.slots[index]? with
  | some (.occupied object) => some object
  | _ => none

/-- What `iter` yields, without the indices. -/
def objects (c : Colo α) : List α := c.slots.filterMap Slot.object?

/-- A loop over `iter_mut` that replaces every object. -/
def map (f : α → α) (c : Colo α) : Colo α := { c with slots := c.slots.map (Slot.map f) }

/-- Assignment through `index_mut`, which panics at a vacant slot. -/
def set (c : Colo α) (index : Nat) (object : α) : Colo α :=
  match c.slots[index]? with
  | some (.occupied _) => { c with slots := c.slots.set index (.occupied object) }
  | _ => c

/-- The free list, threaded from `head` through the vacant slots. -/
inductive Linked (slots : List (Slot α)) : Option Nat → List Nat → Prop
  | nil : Linked slots none []
  | cons {i : Nat} {next : Option Nat} {free : List Nat} (hi : slots[i]? = some (.vacant next))
      (hl : Linked slots next free) : Linked slots (some i) (i :: free)

/-- The free list has exactly the vacant slots, each once, and `len` counts the rest. -/
structure Threaded (c : Colo α) (free : List Nat) : Prop where
  linked : Linked c.slots c.head free
  nodup : free.Nodup
  vacant : ∀ i next, c.slots[i]? = some (.vacant next) → i ∈ free
  len_eq : c.len = c.slots.countP Slot.isOccupied

def Ok (c : Colo α) : Prop := ∃ free, Threaded c free

variable {c : Colo α} {free : List Nat} {i j : Nat} {object : α} {slot : Slot α}
  {slots : List (Slot α)} {head next : Option Nat}

theorem Linked.vacant_of_mem (h : Linked slots head free) (hi : i ∈ free) :
    ∃ next, slots[i]? = some (.vacant next) := by
  induction h with
  | nil => cases hi
  | cons hv _ ih =>
    rcases List.mem_cons.mp hi with rfl | hi
    · exact ⟨_, hv⟩
    · exact ih hi

/-- A slot that is not on the list may change. -/
theorem Linked.set (h : Linked slots head free) (hi : i ∉ free) :
    Linked (slots.set i slot) head free := by
  induction h with
  | nil => exact .nil
  | cons hv _ ih =>
    obtain ⟨hne, hnot⟩ := not_or.mp (mt List.mem_cons.mpr hi)
    refine .cons ?_ (ih hnot)
    rwa [List.getElem?_set_ne hne]

theorem Linked.append (h : Linked slots head free) : Linked (slots ++ [slot]) head free := by
  induction h with
  | nil => exact .nil
  | cons hv _ ih =>
    refine .cons ?_ ih
    obtain ⟨hlt, -⟩ := List.getElem?_eq_some_iff.mp hv
    rwa [List.getElem?_append_left hlt]

theorem get_set (hi : i < slots.length) :
    (slots.set i slot)[j]? = if j = i then some slot else slots[j]? := by
  split
  · rename_i heq
    rw [heq, List.getElem?_set_self hi]
  · rename_i hne
    rw [List.getElem?_set_ne (Ne.symm hne)]

theorem get_eq_bind (c : Colo α) (j : Nat) : c.get j = (c.slots[j]?).bind Slot.object? := by
  unfold get
  cases hslot : c.slots[j]? with
  | none => rfl
  | some slot => cases slot <;> rfl

/-- One slot is written. -/
theorem get_of_set {len : Nat} (hi : i < c.slots.length) (j : Nat) :
    Colo.get ⟨c.slots.set i slot, c.limited, len, head⟩ j =
      if j = i then slot.object? else c.get j := by
  rw [get_eq_bind, get_eq_bind, get_set hi]
  split <;> rfl

theorem ok_new : Ok (new : Colo α) :=
  ⟨[], .nil, List.nodup_nil, fun _ _ h => by simp [new] at h, rfl⟩

/-- Without a free list all slots are occupied. -/
theorem Threaded.len_of_nil (h : Threaded c []) : c.len = c.slots.length := by
  rw [h.len_eq, List.countP_eq_length]
  intro slot hslot
  obtain ⟨i, hi⟩ := List.getElem?_of_mem hslot
  cases slot with
  | occupied object => rfl
  | vacant next => cases h.vacant i next hi

/-- The colo after an insertion at its end. -/
def pushed (c : Colo α) (object : α) : Colo α :=
  { c with slots := c.slots ++ [.occupied object], len := c.len + 1 }

/-- The colo after an insertion at the head of the free list. -/
def reused (c : Colo α) (object : α) (index : Nat) (next : Option Nat) : Colo α :=
  { c with slots := c.slots.set index (.occupied object), len := c.len + 1, head := next }

/-- The limit is reached, and `insert` refuses. -/
def Full (c : Colo α) : Prop := c.limited ≠ 0 ∧ c.len = c.limited

instance (c : Colo α) : Decidable c.Full := inferInstanceAs (Decidable (_ ∧ _))

theorem not_full_of_unlimited (hlim : c.limited = 0) : ¬c.Full := fun h => h.1 hlim

theorem insert_of_full (h : c.Full) : c.insert object = some (0, c) := if_pos h

theorem insert_eq_pushed (hroom : ¬c.Full) (hhead : c.head = none) :
    c.insert object = some (c.nextVacant, c.pushed object) := by
  unfold Full at hroom
  rw [insert, if_neg hroom]
  simp only [nextVacant, pushed, hhead]

theorem insert_eq_reused (hroom : ¬c.Full) (hhead : c.head = some i)
    (hv : c.slots[i]? = some (.vacant next)) :
    c.insert object = some (c.nextVacant, c.reused object i next) := by
  unfold Full at hroom
  rw [insert, if_neg hroom]
  simp only [nextVacant, reused, hhead, hv]

theorem get_pushed (hlen : c.len = c.slots.length) (hhead : c.head = none) (j : Nat) :
    (c.pushed object).get j = if j = c.nextVacant then some object else c.get j := by
  have hnext : c.nextVacant = c.slots.length := by rw [nextVacant, hhead, hlen]
  rw [hnext]
  unfold get pushed
  rcases Nat.lt_trichotomy j c.slots.length with hlt | rfl | hgt
  · rw [List.getElem?_append_left hlt, if_neg (by omega)]
  · simp
  · have hnone : (c.slots ++ [Slot.occupied object])[j]? = none := by
      apply List.getElem?_eq_none
      simp only [List.length_append, List.length_singleton]
      omega
    rw [hnone, List.getElem?_eq_none (by omega), if_neg (by omega)]

theorem ok_pushed (h : Threaded c []) : Ok (c.pushed object) := by
  refine ⟨[], h.linked.append, List.nodup_nil, ?_, ?_⟩
  · intro i next hi
    rcases Nat.lt_or_ge i c.slots.length with hlt | hge
    · rw [pushed, List.getElem?_append_left hlt] at hi
      exact h.vacant i next hi
    · rw [pushed, List.getElem?_append_right hge] at hi
      exact absurd (List.mem_of_getElem? hi) (by simp)
  · simp [pushed, List.countP_append, ← h.len_eq, Slot.isOccupied]

theorem ok_reused (h : Threaded c (i :: free)) (hl : Linked c.slots next free)
    (hv : c.slots[i]? = some (.vacant next)) : Ok (c.reused object i next) := by
  obtain ⟨hlt, hslot⟩ := List.getElem?_eq_some_iff.mp hv
  obtain ⟨hnot, hnodup⟩ := List.nodup_cons.mp h.nodup
  refine ⟨free, hl.set hnot, hnodup, ?_, ?_⟩
  · intro j next' hj
    rw [reused, get_set hlt] at hj
    split at hj
    · cases hj
    · rename_i hne
      exact (List.mem_cons.mp (h.vacant j next' hj)).resolve_left hne
  · simp [reused, List.countP_set hlt, hslot, ← h.len_eq, Slot.isOccupied]

/-- `insert` puts the object where `next_vacant` said, and nothing else changes. -/
theorem insert_of_room (h : Ok c) (hroom : ¬c.Full) (object : α) :
    ∃ c', c.insert object = some (c.nextVacant, c') ∧ Ok c' ∧ c'.limited = c.limited ∧
      c.get c.nextVacant = none ∧
      ∀ j, c'.get j = if j = c.nextVacant then some object else c.get j := by
  obtain ⟨free, h⟩ := h
  have hlinked := h.linked
  cases hhead : c.head with
  | none =>
    rw [hhead] at hlinked
    cases hlinked
    have hlen := h.len_of_nil
    refine ⟨_, insert_eq_pushed hroom hhead, ok_pushed h, rfl, ?_, get_pushed hlen hhead⟩
    have hnext : c.nextVacant = c.slots.length := by rw [nextVacant, hhead, hlen]
    rw [hnext, get, List.getElem?_eq_none (Nat.le_refl _)]
  | some index =>
    rw [hhead] at hlinked
    cases hlinked with
    | cons hv hl =>
      obtain ⟨hlt, -⟩ := List.getElem?_eq_some_iff.mp hv
      have hnext : c.nextVacant = index := by rw [nextVacant, hhead]
      refine ⟨_, insert_eq_reused hroom hhead hv, ok_reused h hl hv, rfl, ?_, ?_⟩
      · rw [hnext, get, hv]
      · intro j
        rw [hnext]
        exact get_of_set hlt j

/-- The slab of the reactor and of the executor has no limit. -/
theorem insert_spec (h : Ok c) (hlim : c.limited = 0) (object : α) :
    ∃ c', c.insert object = some (c.nextVacant, c') ∧ Ok c' ∧ c'.limited = 0 ∧
      c.get c.nextVacant = none ∧
      ∀ j, c'.get j = if j = c.nextVacant then some object else c.get j := by
  obtain ⟨c', hins, hok, hlim', hget⟩ := insert_of_room h (not_full_of_unlimited hlim) object
  exact ⟨c', hins, hok, hlim'.trans hlim, hget⟩

theorem get_remove (c : Colo α) (i j : Nat) :
    (c.remove i).2.get j = if j = i then none else c.get j := by
  unfold remove
  split
  · rename_i object hslot
    obtain ⟨hlt, -⟩ := List.getElem?_eq_some_iff.mp hslot
    exact get_of_set hlt j
  · rename_i hnone
    split
    · rename_i heq
      subst heq
      unfold get
      split
      · rename_i hslot
        exact absurd hslot (hnone _)
      · rfl
    · rfl

/-- `remove` empties the slot and links it in; nothing else changes. -/
theorem remove_spec (h : Ok c) (i : Nat) :
    Ok (c.remove i).2 ∧ (c.remove i).2.limited = c.limited ∧
      ∀ j, (c.remove i).2.get j = if j = i then none else c.get j := by
  refine ⟨?_, ?_, get_remove c i⟩
  · obtain ⟨free, h⟩ := h
    unfold remove
    split
    · rename_i object hslot
      obtain ⟨hlt, hocc⟩ := List.getElem?_eq_some_iff.mp hslot
      have hnot : i ∉ free := by
        intro hmem
        obtain ⟨next, hv⟩ := h.linked.vacant_of_mem hmem
        rw [hslot] at hv
        cases hv
      refine ⟨i :: free, ?_, List.nodup_cons.mpr ⟨hnot, h.nodup⟩, ?_, ?_⟩
      · exact .cons (List.getElem?_set_self hlt) (h.linked.set hnot)
      · intro j next hj
        rw [get_set hlt] at hj
        split at hj
        · rename_i heq
          exact heq ▸ List.mem_cons_self
        · exact List.mem_cons_of_mem _ (h.vacant j next hj)
      · simp [List.countP_set hlt, hocc, ← h.len_eq, Slot.isOccupied]
    · exact ⟨free, h⟩
  · unfold remove
    split <;> rfl

/-- Whatever the state of the free list, `insert` adds its object and leaves the others. -/
theorem get_insert_cases {c' : Colo α} (h : c.insert object = some (i, c')) (j : Nat) :
    (c'.get j = some object ∧ c.get j = none) ∨ c'.get j = c.get j := by
  rw [insert] at h
  split at h
  · obtain ⟨rfl, rfl⟩ := Prod.mk.inj (Option.some.inj h)
    exact .inr rfl
  split at h
  · obtain ⟨rfl, rfl⟩ := Prod.mk.inj (Option.some.inj h)
    rcases Nat.lt_trichotomy j c.slots.length with hlt | rfl | hgt
    · refine .inr ?_
      rw [get, get, List.getElem?_append_left hlt]
    · refine .inl ⟨?_, ?_⟩
      · simp [get]
      · rw [get, List.getElem?_eq_none (Nat.le_refl _)]
    · refine .inr ?_
      have hnone : (c.slots ++ [Slot.occupied object])[j]? = none := by
        apply List.getElem?_eq_none
        simp only [List.length_append, List.length_singleton]
        omega
      rw [get, get, hnone, List.getElem?_eq_none (by omega)]
  · split at h
    · rename_i next hv
      obtain ⟨rfl, rfl⟩ := Prod.mk.inj (Option.some.inj h)
      obtain ⟨hlt, -⟩ := List.getElem?_eq_some_iff.mp hv
      rw [get_of_set hlt]
      split
      · rename_i heq
        subst heq
        exact .inl ⟨rfl, by rw [get, hv]⟩
      · exact .inr rfl
    · cases h

theorem isEmpty_iff (h : Ok c) : c.isEmpty = true ↔ ∀ j, c.get j = none := by
  obtain ⟨free, h⟩ := h
  rw [isEmpty, beq_iff_eq, h.len_eq, List.countP_eq_zero]
  constructor
  · intro hall j
    unfold get
    split
    · rename_i hslot
      exact absurd rfl (hall _ (List.mem_of_getElem? hslot))
    · rfl
  · intro hall slot hslot
    obtain ⟨j, hj⟩ := List.getElem?_of_mem hslot
    have := hall j
    cases slot with
    | vacant next => exact Bool.noConfusion
    | occupied object =>
      rw [get, hj] at this
      cases this

theorem get_eq_some : c.get j = some object ↔ c.slots[j]? = some (.occupied object) := by
  unfold get
  split
  · rename_i hslot
    rw [hslot]
    simp
  · rename_i hnone
    simp only [reduceCtorEq, false_iff]
    exact hnone object

theorem mem_objects : object ∈ c.objects ↔ ∃ j, c.get j = some object := by
  simp only [objects, List.mem_filterMap]
  constructor
  · rintro ⟨slot, hslot, hobject⟩
    obtain ⟨j, hj⟩ := List.getElem?_of_mem hslot
    cases slot with
    | vacant next => cases hobject
    | occupied o =>
      obtain rfl := Option.some.inj hobject
      exact ⟨j, get_eq_some.mpr hj⟩
  · rintro ⟨j, hj⟩
    exact ⟨_, List.mem_of_getElem? (get_eq_some.mp hj), rfl⟩

theorem get_map (f : α → α) (j : Nat) : (c.map f).get j = (c.get j).map f := by
  rw [get_eq_bind, get_eq_bind, map, List.getElem?_map]
  cases c.slots[j]? with
  | none => rfl
  | some slot => cases slot <;> rfl

theorem vacant_map {f : α → α} : (c.map f).slots[i]? = some (.vacant next) ↔
    c.slots[i]? = some (.vacant next) := by
  rw [map, List.getElem?_map]
  cases c.slots[i]? with
  | none => simp
  | some slot => cases slot <;> simp [Slot.map]

theorem Linked.map {f : α → α} (h : Linked slots head free) :
    Linked (slots.map (Slot.map f)) head free := by
  induction h with
  | nil => exact .nil
  | cons hv _ ih =>
    refine .cons ?_ ih
    rw [List.getElem?_map, hv]
    rfl

theorem ok_map (h : Ok c) (f : α → α) : Ok (c.map f) := by
  obtain ⟨free, h⟩ := h
  refine ⟨free, h.linked.map, h.nodup, fun i next hi => h.vacant i next (vacant_map.mp hi), ?_⟩
  show c.len = (c.slots.map (Slot.map f)).countP Slot.isOccupied
  rw [h.len_eq, List.countP_map]
  congr 1
  funext slot
  cases slot <;> rfl

theorem get_set_object (object : α) (j : Nat) :
    (c.set i object).get j = if j = i then (c.get i).map fun _ => object else c.get j := by
  unfold set
  split
  · rename_i old hslot
    obtain ⟨hlt, -⟩ := List.getElem?_eq_some_iff.mp hslot
    rw [get_eq_some.mpr hslot]
    exact get_of_set hlt j
  · rename_i hnone
    split
    · rename_i heq
      subst heq
      have hget : c.get j = none := by
        unfold get
        split
        · rename_i hslot
          exact absurd hslot (hnone _)
        · rfl
      rw [hget]
      rfl
    · rfl

theorem ok_set (h : Ok c) (i : Nat) (object : α) : Ok (c.set i object) := by
  unfold set
  split
  · rename_i old hslot
    obtain ⟨free, h⟩ := h
    obtain ⟨hlt, hocc⟩ := List.getElem?_eq_some_iff.mp hslot
    have hnot : i ∉ free := by
      intro hmem
      obtain ⟨next, hv⟩ := h.linked.vacant_of_mem hmem
      rw [hslot] at hv
      cases hv
    refine ⟨free, h.linked.set hnot, h.nodup, fun j next hj => ?_, ?_⟩
    · rw [get_set hlt] at hj
      split at hj
      · cases hj
      · exact h.vacant j next hj
    · have hpos : 0 < c.slots.countP Slot.isOccupied :=
        List.countP_pos_iff.mpr ⟨_, List.mem_of_getElem? hslot, rfl⟩
      simp only [List.countP_set hlt, hocc, h.len_eq, Slot.isOccupied, if_true]
      omega
  · exact h

end Colo

end Cynthia.Utils
