import Cynthia.Lib.Transition
import Cynthia.Utils.Colo
import Mathlib.Data.List.Enum
import Mathlib.Data.Set.Basic

/-! The slab `Colo` as a finite map: the operations of `utils/colo.rs` that the reactor
and the executor do not use, the entries of a slab, and runs of any of its operations
from any of its constructors. -/

namespace Cynthia.Utils.Colo

open Transition

variable {α σ : Type}

def withCapacity (_cap : Nat) : Colo α := ⟨[], 0, 0, none⟩

def withLimited (limit : Nat) : Colo α := ⟨[], limit, 0, none⟩

/-- `get_mut`, and what the caller does to the object through the reference. -/
def getMut (c : Colo α) (index : Nat) (f : α → α) : Option α × Colo α :=
  match c.slots[index]? with
  | some (.occupied object) =>
    (some object, { c with slots := c.slots.set index (.occupied (f object)) })
  | _ => (none, c)

/-- One pass of the loop in `retain`. The closure may keep a state and may change the
object. -/
def retainAt (f : Nat → α → σ → (Bool × α) × σ) (acc : Colo α × σ) (i : Nat) : Colo α × σ :=
  match acc.1.slots[i]? with
  | some (.occupied v) =>
    let ((keep, v), st) := f i v acc.2
    let c := { acc.1 with slots := acc.1.slots.set i (.occupied v) }
    (if keep then c else (c.remove i).2, st)
  | _ => acc

def retain (c : Colo α) (f : Nat → α → σ → (Bool × α) × σ) (st : σ) : Colo α × σ :=
  (List.range c.slots.length).foldl (retainAt f) (c, st)

def clear (c : Colo α) : Colo α := { c with slots := [], len := 0, head := none }

/-- `swap`, which panics at a vacant slot. -/
def swap (c : Colo α) (a b : Nat) : Option (Colo α) :=
  match c.slots[a]?, c.slots[b]? with
  | some (.occupied x), some (.occupied y) =>
    some (if a ≠ b then
      { c with slots := (c.slots.set a (.occupied y)).set b (.occupied x) } else c)
  | _, _ => none

/-- `Iter`: the slots that are left, with their indices. -/
abbrev Iter (α : Type) := List (Slot α × Nat)

def iter (c : Colo α) : Iter α := c.slots.zipIdx

/-- `Iter::next`. -/
def Iter.next : Iter α → Option (Nat × α) × Iter α
  | [] => (none, [])
  | (.occupied object, index) :: slots => (some (index, object), slots)
  | (.vacant _, _) :: slots => Iter.next slots

/-- What `next` returns until it returns `None`. -/
inductive Iter.Yields : Iter α → List (Nat × α) → Prop
  | done {it it' : Iter α} (h : it.next = (none, it')) : Yields it []
  | item {it it' : Iter α} {e : Nat × α} {es : List (Nat × α)} (h : it.next = (some e, it'))
      (hs : Yields it' es) : Yields it (e :: es)

/-! ## The entries -/

/-- The entries of the slots from the index `n` on. -/
def entriesFrom (n : Nat) : List (Slot α) → List (Nat × α)
  | [] => []
  | .vacant _ :: slots => entriesFrom (n + 1) slots
  | .occupied object :: slots => (n, object) :: entriesFrom (n + 1) slots

def entries (c : Colo α) : List (Nat × α) := entriesFrom 0 c.slots

variable {c c' : Colo α} {i j n : Nat} {object : α} {slots : List (Slot α)} {it : Iter α}
  {es : List (Nat × α)}

theorem mem_entriesFrom :
    (i, object) ∈ entriesFrom n slots ↔ n ≤ i ∧ slots[i - n]? = some (.occupied object) := by
  induction slots generalizing n with
  | nil => simp [entriesFrom]
  | cons slot slots ih =>
    have hrest : n + 1 ≤ i → (slot :: slots)[i - n]? = slots[i - (n + 1)]? := by
      intro hlt
      rw [show i - n = i - (n + 1) + 1 by omega, List.getElem?_cons_succ]
    cases slot with
    | vacant next =>
      rw [entriesFrom, ih]
      constructor
      · rintro ⟨hlt, h⟩
        exact ⟨by omega, (hrest hlt).trans h⟩
      · rintro ⟨hle, h⟩
        rcases Nat.eq_or_lt_of_le hle with rfl | hlt
        · simp at h
        · exact ⟨hlt, (hrest hlt).symm.trans h⟩
    | occupied old =>
      rw [entriesFrom, List.mem_cons, ih]
      constructor
      · rintro (heq | ⟨hlt, h⟩)
        · obtain ⟨rfl, rfl⟩ := Prod.mk.inj heq
          simp
        · exact ⟨by omega, (hrest hlt).trans h⟩
      · rintro ⟨hle, h⟩
        rcases Nat.eq_or_lt_of_le hle with rfl | hlt
        · simp at h
          exact .inl (by rw [h])
        · exact .inr ⟨hlt, (hrest hlt).symm.trans h⟩

theorem mem_entries : (i, object) ∈ c.entries ↔ c.get i = some object := by
  rw [entries, mem_entriesFrom, get_eq_some]
  simp

theorem entriesFrom_pairwise (n : Nat) (slots : List (Slot α)) :
    (entriesFrom n slots).Pairwise fun e e' => e.1 < e'.1 := by
  induction slots generalizing n with
  | nil => exact .nil
  | cons slot slots ih =>
    cases slot with
    | vacant next => exact ih (n + 1)
    | occupied object =>
      refine List.pairwise_cons.mpr ⟨fun e he => ?_, ih (n + 1)⟩
      exact (mem_entriesFrom.mp he).1

theorem yields_zipIdx (n : Nat) (slots : List (Slot α)) :
    Iter.Yields (slots.zipIdx n) (entriesFrom n slots) := by
  induction slots generalizing n with
  | nil => exact .done rfl
  | cons slot slots ih =>
    cases slot with
    | occupied object => exact .item rfl (ih (n + 1))
    | vacant next =>
      -- The vacant slot is skipped by the first call of `next`.
      rw [entriesFrom]
      have hrest := ih (n + 1)
      generalize entriesFrom (n + 1) slots = es at hrest ⊢
      cases hrest with
      | done h => exact .done h
      | item h hs => exact .item h hs

theorem iter_yields (c : Colo α) : c.iter.Yields c.entries := yields_zipIdx 0 c.slots

theorem entriesFrom_append (n : Nat) (slots slots' : List (Slot α)) :
    entriesFrom n (slots ++ slots') =
      entriesFrom n slots ++ entriesFrom (n + slots.length) slots' := by
  induction slots generalizing n with
  | nil => rfl
  | cons slot slots ih =>
    have hlen : n + 1 + slots.length = n + (slots.length + 1) := by omega
    cases slot with
    | vacant next => rw [List.cons_append, entriesFrom, entriesFrom, ih, hlen, List.length_cons]
    | occupied object =>
      rw [List.cons_append, entriesFrom, entriesFrom, ih, hlen, List.length_cons, List.cons_append]

/-! ## `retain` -/

/-- The calls of the closure on the entries of a list in turn: the entries that stay, and
the last state. -/
def callAll (f : Nat → α → σ → (Bool × α) × σ) : List (Nat × α) → σ → List (Nat × α) × σ
  | [], st => ([], st)
  | (i, v) :: es, st =>
    let ((keep, v), st) := f i v st
    let (kept, st) := callAll f es st
    (if keep then (i, v) :: kept else kept, st)

variable {f : Nat → α → σ → (Bool × α) × σ} {st : σ} {v : α}

theorem retainAt_of_occupied (h : c.slots[i]? = some (.occupied v)) :
    retainAt f (c, st) i =
      (if (f i v st).1.1 then c.set i (f i v st).1.2 else ((c.set i (f i v st).1.2).remove i).2,
        (f i v st).2) := by
  simp only [retainAt, h, set]

theorem retainAt_of_not (h : ∀ v, c.slots[i]? ≠ some (.occupied v)) :
    retainAt f (c, st) i = (c, st) := by
  unfold retainAt
  split
  · rename_i v hv
    exact absurd hv (h v)
  · rfl

theorem ok_retainAt (h : Ok c) (f : Nat → α → σ → (Bool × α) × σ) (st : σ) (i : Nat) :
    Ok (retainAt f (c, st) i).1 := by
  by_cases hv : ∃ v, c.slots[i]? = some (.occupied v)
  · obtain ⟨v, hv⟩ := hv
    rw [retainAt_of_occupied hv]
    dsimp only
    split
    · exact ok_set h i _
    · exact (remove_spec (ok_set h i _) i).1
  · rw [retainAt_of_not fun v hv' => hv ⟨v, hv'⟩]
    exact h

theorem ok_retain (h : Ok c) (f : Nat → α → σ → (Bool × α) × σ) (st : σ) :
    Ok (c.retain f st).1 := by
  unfold retain
  generalize List.range c.slots.length = is
  induction is generalizing c st with
  | nil => exact h
  | cons i is ih => exact ih (ok_retainAt h f st i) _

/-- One pass writes the slot it looks at, and no other. -/
theorem retainAt_slots (h : c.slots[i]? = some (.occupied v)) (f : Nat → α → σ → (Bool × α) × σ)
    (st : σ) :
    (retainAt f (c, st) i).1.slots = c.slots.set i
      (if (f i v st).1.1 then .occupied (f i v st).1.2 else .vacant c.head) := by
  obtain ⟨hlt, -⟩ := List.getElem?_eq_some_iff.mp h
  rw [retainAt_of_occupied h]
  dsimp only
  split
  · simp only [set, h]
  · simp only [set, h, remove, List.getElem?_set_self hlt, List.set_set]

/-- The entries in front of the loop are done, and those behind it are as they were. -/
theorem entries_loop (c : Colo α) (i : Nat) (st : σ) (k : Nat) (hlen : c.slots.length = i + k) :
    let r := (List.range' i k).foldl (retainAt f) (c, st)
    let called := callAll f (entriesFrom i (c.slots.drop i)) st
    r.1.entries = entriesFrom 0 (c.slots.take i) ++ called.1 ∧ r.2 = called.2 := by
  induction k generalizing i c st with
  | zero =>
    rw [List.drop_of_length_le (by omega), List.take_of_length_le (by omega)]
    simp [callAll, entriesFrom, entries]
  | succ k ih =>
    have hlt : i < c.slots.length := by omega
    rw [List.range'_succ, List.foldl_cons]
    have hdrop : c.slots.drop i = c.slots[i] :: c.slots.drop (i + 1) :=
      List.drop_eq_getElem_cons hlt
    cases hslot : c.slots[i] with
    | vacant next =>
      have hsame : retainAt f (c, st) i = (c, st) := retainAt_of_not fun v hv => by
        rw [List.getElem?_eq_getElem hlt, hslot] at hv
        cases hv
      have htake : entriesFrom 0 (c.slots.take (i + 1)) = entriesFrom 0 (c.slots.take i) := by
        rw [List.take_succ_eq_append_getElem hlt, hslot, entriesFrom_append]
        simp [entriesFrom]
      rw [hsame, hdrop, hslot, entriesFrom, ← htake]
      exact ih c (i + 1) st (by omega)
    | occupied v =>
      have hv : c.slots[i]? = some (.occupied v) := by
        rw [List.getElem?_eq_getElem hlt, hslot]
      have hslots := retainAt_slots hv f st
      have hpair : retainAt f (c, st) i = ((retainAt f (c, st) i).1, (f i v st).2) := by
        rw [retainAt_of_occupied hv]
      have htake : (retainAt f (c, st) i).1.slots.take (i + 1) = c.slots.take i ++
          [if (f i v st).1.1 then .occupied (f i v st).1.2 else .vacant c.head] := by
        rw [hslots, List.take_succ_eq_append_getElem (by rw [List.length_set]; exact hlt),
          List.getElem_set_self, List.take_set_of_le (Nat.le_refl i)]
      have hrest : (retainAt f (c, st) i).1.slots.drop (i + 1) = c.slots.drop (i + 1) := by
        rw [hslots, List.drop_set_of_lt (Nat.lt_succ_self i)]
      have hloop := ih (retainAt f (c, st) i).1 (i + 1) (f i v st).2
        (by rw [hslots, List.length_set]; omega)
      rw [hrest, htake, entriesFrom_append] at hloop
      rw [hpair, hdrop, hslot, entriesFrom, callAll]
      refine ⟨hloop.1.trans ?_, hloop.2⟩
      dsimp only
      have hlen : (c.slots.take i).length = i := List.length_take_of_le (Nat.le_of_lt hlt)
      split <;> simp [entriesFrom, hlen]

/-- `retain` calls the closure once for each entry, in the order of the indices, and keeps
those for which it answers yes. -/
theorem retain_spec (c : Colo α) (f : Nat → α → σ → (Bool × α) × σ) (st : σ) :
    (c.retain f st).1.entries = (callAll f c.entries st).1 ∧
      (c.retain f st).2 = (callAll f c.entries st).2 := by
  have hloop := entries_loop (f := f) c 0 st c.slots.length (Nat.zero_add _).symm
  rw [retain, List.range_eq_range']
  simpa [entriesFrom, entries] using hloop

/-! ## The other operations -/

theorem getMut_eq (c : Colo α) (i : Nat) (f : α → α) :
    c.getMut i f = (c.get i, match c.get i with
      | some object => c.set i (f object)
      | none => c) := by
  cases hget : c.get i with
  | some object =>
    have hslot := get_eq_some.mp hget
    simp only [getMut, hslot, set]
  | none =>
    unfold getMut
    split
    · rename_i object hslot
      rw [get_eq_some.mpr hslot] at hget
      cases hget
    · rfl

theorem ok_getMut (h : Ok c) (i : Nat) (f : α → α) : Ok (c.getMut i f).2 := by
  rw [getMut_eq]
  dsimp only
  split
  · exact ok_set h i _
  · exact h

theorem get_getMut (c : Colo α) (i : Nat) (f : α → α) (j : Nat) :
    (c.getMut i f).2.get j = if j = i then (c.get i).map f else c.get j := by
  rw [getMut_eq]
  dsimp only
  split
  · rename_i object hget
    rw [get_set_object, hget]
    rfl
  · rename_i hget
    rw [hget]
    split
    · rename_i heq
      rw [heq, hget]
      rfl
    · rfl

theorem remove_fst (c : Colo α) (i : Nat) : (c.remove i).1 = c.get i := by
  unfold remove get
  split <;> rfl

/-- `swap` on two occupied slots writes each object into the other slot. -/
theorem swap_eq {x y : α} (hi : c.get i = some x) (hj : c.get j = some y) :
    c.swap i j = some ((c.set i y).set j x) := by
  have hxi := get_eq_some.mp hi
  have hyj := get_eq_some.mp hj
  obtain ⟨hlt, -⟩ := List.getElem?_eq_some_iff.mp hxi
  by_cases hij : i = j
  · subst hij
    rw [hi] at hj
    obtain rfl := Option.some.inj hj
    simp only [swap, hxi, set, List.getElem?_set_self hlt, List.set_set]
    have hsame : c.slots.set i (.occupied x) = c.slots := by
      obtain ⟨_, hx⟩ := List.getElem?_eq_some_iff.mp hxi
      rw [← hx, List.set_getElem_self]
    rw [hsame, if_neg (by simp)]
  · have hyj' : (c.slots.set i (.occupied y))[j]? = some (.occupied y) := by
      rw [List.getElem?_set_ne hij, hyj]
    simp only [swap, hxi, hyj, set, hyj', if_pos (show i ≠ j from hij)]

theorem exists_of_swap (h : c.swap i j = some c') :
    ∃ x y, c.get i = some x ∧ c.get j = some y ∧ c' = (c.set i y).set j x := by
  unfold swap at h
  split at h
  · rename_i x y hx hy
    have hi := get_eq_some.mpr hx
    have hj := get_eq_some.mpr hy
    refine ⟨x, y, hi, hj, ?_⟩
    have hswap := swap_eq hi hj
    unfold swap at hswap
    rw [hx, hy] at hswap
    exact Option.some.inj (h.symm.trans hswap)
  · cases h

theorem get_swap {x y : α} (hi : c.get i = some x) (hj : c.get j = some y) (k : Nat) :
    ((c.set i y).set j x).get k = if k = j then some x else if k = i then some y else c.get k := by
  have hj' : (c.set i y).get j = some y := by
    rw [get_set_object]
    split
    · rw [hi]
      rfl
    · exact hj
  rw [get_set_object, hj', get_set_object, hi]
  rfl

theorem ok_clear (c : Colo α) : Ok c.clear :=
  ⟨[], .nil, List.nodup_nil, fun _ _ h => by simp [clear] at h, rfl⟩

/-! ## Runs -/

inductive Constructor where
  | new
  | withCapacity (cap : Nat)
  | withLimited (limit : Nat)
  deriving DecidableEq, Repr

def Constructor.make : Constructor → Colo α
  | .new => .new
  | .withCapacity cap => Colo.withCapacity cap
  | .withLimited limit => Colo.withLimited limit

/-- The operations with their arguments. -/
inductive Act (α : Type) : Type 1 where
  | insert (object : α)
  | remove (index : Nat)
  | retain (σ : Type) (f : Nat → α → σ → (Bool × α) × σ) (st : σ)
  | clear
  | getMut (index : Nat) (f : α → α)
  | swap (a b : Nat)

def step (c : Colo α) : Act α → Option (Colo α)
  | .insert object => (c.insert object).map Prod.snd
  | .remove index => some (c.remove index).2
  | .retain _ f st => some (c.retain f st).1
  | .clear => some c.clear
  | .getMut index f => some (c.getMut index f).2
  | .swap a b => c.swap a b

def system (ctor : Constructor) : System (Colo α) (Act α) := ⟨ctor.make, step⟩

theorem ok_make (ctor : Constructor) : Ok (ctor.make : Colo α) := by
  cases ctor <;> exact ⟨[], .nil, List.nodup_nil, fun _ _ h => (by cases h), rfl⟩

theorem ok_step {a : Act α} (h : Ok c) (ht : step c a = some c') : Ok c' := by
  cases a with
  | insert object =>
    obtain ⟨⟨i, c''⟩, hins, rfl⟩ := Option.map_eq_some_iff.mp ht
    by_cases hroom : c.Full
    · rw [insert_of_full hroom] at hins
      cases hins
      exact h
    · obtain ⟨c₁, hins', hok, -⟩ := insert_of_room h hroom object
      rw [hins'] at hins
      cases hins
      exact hok
  | remove index =>
    cases ht
    exact (remove_spec h index).1
  | retain τ f st =>
    cases ht
    exact ok_retain h f st
  | clear =>
    cases ht
    exact ok_clear c
  | getMut index f =>
    cases ht
    exact ok_getMut h index f
  | swap a b =>
    obtain ⟨x, y, -, -, rfl⟩ := exists_of_swap ht
    exact ok_set (ok_set h a y) b x

theorem ok_of_reachable {ctor : Constructor} (hc : (system ctor).Reachable c) : Ok c :=
  System.Reachable.invariant (I := Ok) (ok_make ctor) (fun _ _ _ h ht => ok_step h ht) hc

/-- The slab is the finite map `get`, and its operations are those of a map. -/
structure IsMap (c : Colo α) : Prop where
  free : ∃ free, Linked c.slots c.head free ∧ free.Nodup ∧
    ∀ i, i ∈ free ↔ ∃ next, c.slots[i]? = some (.vacant next)
  len : c.len = c.slots.countP Slot.isOccupied
  insert : ∀ object, if c.Full then c.insert object = some (0, c) else
    ∃ c', c.insert object = some (c.nextVacant, c') ∧ c.get c.nextVacant = none ∧
      ∀ j, c'.get j = if j = c.nextVacant then some object else c.get j
  remove : ∀ i, (c.remove i).1 = c.get i ∧
    ∀ j, (c.remove i).2.get j = if j = i then none else c.get j
  retain : ∀ (σ : Type) (f : Nat → α → σ → (Bool × α) × σ) (st : σ),
    (c.retain f st).1.entries = (callAll f c.entries st).1 ∧
      (c.retain f st).2 = (callAll f c.entries st).2
  clear : ∀ j, c.clear.get j = none
  getMut : ∀ i f, (c.getMut i f).1 = c.get i ∧
    ∀ j, (c.getMut i f).2.get j = if j = i then (c.get i).map f else c.get j
  swap : ∀ i j x y, c.get i = some x → c.get j = some y → ∃ c', c.swap i j = some c' ∧
    ∀ k, c'.get k = if k = j then some x else if k = i then some y else c.get k
  iter : c.iter.Yields c.entries
  entries : ∀ i object, (i, object) ∈ c.entries ↔ c.get i = some object
  ordered : c.entries.Pairwise fun e e' => e.1 < e'.1

theorem Ok.isMap (h : Ok c) : IsMap c where
  free := by
    obtain ⟨free, h⟩ := h
    exact ⟨free, h.linked, h.nodup, fun i =>
      ⟨fun hi => h.linked.vacant_of_mem hi, fun ⟨next, hi⟩ => h.vacant i next hi⟩⟩
  len := by
    obtain ⟨free, h⟩ := h
    exact h.len_eq
  insert object := by
    split
    · exact insert_of_full ‹_›
    · obtain ⟨c', hins, -, -, hnone, hget⟩ := insert_of_room h ‹_› object
      exact ⟨c', hins, hnone, hget⟩
  remove i := ⟨remove_fst c i, get_remove c i⟩
  retain _ f st := retain_spec c f st
  clear j := rfl
  getMut i f := ⟨by rw [getMut_eq], get_getMut c i f⟩
  swap i j x y hi hj := ⟨_, swap_eq hi hj, get_swap hi hj⟩
  iter := iter_yields c
  entries _ _ := mem_entries
  ordered := entriesFrom_pairwise 0 c.slots

/-- Whatever it was made by, the slab is a map from indices to values. -/
theorem colo_is_map (ctor : Constructor) {c : Colo α} (hc : (system ctor).Reachable c) :
    IsMap c := (ok_of_reachable hc).isMap

theorem colo_is_map_retain :
    ∃ c : Colo Nat, (system (.withLimited 3)).Reachable c ∧ c.head = some 2 ∧
      c.entries = [(1, 7)] ∧ IsMap c := by
  have hrun : (system (.withLimited 3) : System (Colo Nat) (Act Nat)).run
      [.insert 5, .insert 7, .insert 9, .retain Unit (fun i v _ => ((i == 1, v), ())) ()] =
      some ⟨[.vacant none, .occupied 7, .vacant (some 0)], 3, 1, some 2⟩ := by decide
  have hc := System.reachable_of_run _ hrun
  exact ⟨_, hc, rfl, rfl, colo_is_map _ hc⟩

/-! ## The index that `insert` returns -/

/-- The step leaves the entry `i` alone, apart from what is inserted elsewhere. -/
def Leaves (i : Nat) (_ : Colo α) : Act α → Prop
  | .insert _ => True
  | .remove index | .getMut index _ => index ≠ i
  | .swap a b => a ≠ i ∧ b ≠ i
  | .retain .. | .clear => False

/-- The entry `i` is `object`, and until somebody else touches it, it is what `remove`
takes out. -/
def Holds (c : Colo α) (i : Nat) (object : α) : Prop :=
  ∀ d, (System.mk c step).ReachableVia (Leaves i) d → (d.remove i).1 = some object

theorem get_step {a : Act α} {d : Colo α} (hi : c.get i = some object) (ha : Leaves i c a)
    (ht : step c a = some d) : d.get i = some object := by
  cases a with
  | insert other =>
    obtain ⟨⟨j, c'⟩, hins, rfl⟩ := Option.map_eq_some_iff.mp ht
    rcases get_insert_cases hins i with ⟨-, hnone⟩ | hsame
    · rw [hi] at hnone
      cases hnone
    · exact hsame.trans hi
  | remove index =>
    cases ht
    rw [get_remove, if_neg (Ne.symm ha)]
    exact hi
  | retain | clear => exact absurd ha not_false
  | getMut index f =>
    cases ht
    rw [get_getMut, if_neg (Ne.symm ha)]
    exact hi
  | swap a b =>
    obtain ⟨x, y, hx, hy, rfl⟩ := exists_of_swap ht
    rw [get_swap hx hy, if_neg (Ne.symm ha.2), if_neg (Ne.symm ha.1)]
    exact hi

theorem holds_of_get (h : Ok c) (hi : c.get i = some object) : c.Holds i object := by
  intro d hd
  have hboth : Ok d ∧ d.get i = some object :=
    System.ReachableVia.invariant (I := fun d => Ok d ∧ d.get i = some object) ⟨h, hi⟩
      (fun s a t ha hs ht => ⟨ok_step hs.1 ht, get_step hs.2 ha ht⟩) hd
  rw [remove_fst]
  exact hboth.2

/-- The index is the key of the object, and it was nobody's key. -/
def IsKey (c c' : Colo α) (i : Nat) (object : α) : Prop :=
  c'.get i = some object ∧ c.get i = none ∧ (∀ j, j ≠ i → c'.get j = c.get j) ∧
    c'.Holds i object

/-- The index that `insert` returns is the key of the object, unless the limit is
reached. -/
theorem insert_key_iff (ctor : Constructor) {c c' : Colo α} {i : Nat} {object : α}
    (hc : (system ctor).Reachable c) (hins : c.insert object = some (i, c')) :
    IsKey c c' i object ↔ ¬c.Full := by
  have hok := ok_of_reachable hc
  constructor
  · rintro ⟨hnew, hold, -⟩ hfull
    rw [insert_of_full hfull] at hins
    cases hins
    rw [hold] at hnew
    cases hnew
  · intro hroom
    obtain ⟨c₁, hins', hok', -, hnone, hget⟩ := insert_of_room hok hroom object
    rw [hins'] at hins
    cases hins
    have hnew : c'.get c.nextVacant = some object := by rw [hget, if_pos rfl]
    refine ⟨hnew, hnone, fun j hj => ?_, holds_of_get hok' hnew⟩
    rw [hget, if_neg hj]

theorem insert_key_iff_reused : ∃ c c' : Colo Nat, (system (.withLimited 2)).Reachable c ∧
    c.insert 9 = some (0, c') ∧ IsKey c c' 0 9 := by
  have hrun : (system (.withLimited 2) : System (Colo Nat) (Act Nat)).run
      [.insert 5, .insert 7, .remove 0] =
      some ⟨[.vacant none, .occupied 7], 2, 1, some 0⟩ := by decide
  have hc := System.reachable_of_run _ hrun
  have hins : insert ⟨[.vacant none, .occupied 7], 2, 1, some 0⟩ 9 =
      some (0, ⟨[.occupied 9, .occupied 7], 2, 2, none⟩) := by decide
  exact ⟨_, _, hc, hins, (insert_key_iff _ hc hins).mpr (by decide)⟩

/-- At the limit `insert` returns 0, the key of another entry, which the caller then
removes. -/
theorem insert_refused_returns_zero : ∃ c c' : Colo Nat, (system (.withLimited 1)).Reachable c ∧
    c.insert 7 = some (0, c') ∧ (c'.remove 0).1 = some 5 ∧ ¬IsKey c c' 0 7 := by
  have hrun : (system (.withLimited 1) : System (Colo Nat) (Act Nat)).run [.insert 5] =
      some ⟨[.occupied 5], 1, 1, none⟩ := by decide
  have hc := System.reachable_of_run _ hrun
  exact ⟨_, ⟨[.occupied 5], 1, 1, none⟩, hc, by decide, by decide, fun h => by
    have hnone := h.2.1
    revert hnone
    decide⟩

end Cynthia.Utils.Colo
