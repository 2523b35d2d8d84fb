import Mathlib.Data.List.Nodup
import Mathlib.Logic.Function.Basic

/-! Doubly linked lists in a heap. `Seg h before L after` says that the nodes at the
addresses `L` are linked to each other both ways, the first one back to `before` and
the last one on to `after`. Appending at the end and unlinking a node are given as the
writes that do them, with the list that is linked afterwards. -/

namespace Cynthia.LinkedList

structure Node (α β : Type*) where
  val : β
  prev : Option α
  next : Option α

/-- Nothing is at an address that is not allocated. -/
abbrev Heap (α β : Type*) := α → Option (Node α β)

variable {α β : Type*} {h g : Heap α β} {a x : α} {L M : List α} {b c : Option α}

def value (h : Heap α β) (a : α) : Option β := (h a).map Node.val

def Seg (h : Heap α β) : Option α → List α → Option α → Prop
  | _, [], _ => True
  | before, a :: rest, after => ∃ node, h a = some node ∧ node.prev = before ∧
      node.next = rest.head?.or after ∧ Seg h (some a) rest after

/-- The links alone make a segment. -/
theorem Seg.congr (hL : Seg h b L c)
    (hsame : ∀ a ∈ L, ∀ node, h a = some node →
      ∃ node', g a = some node' ∧ node'.prev = node.prev ∧ node'.next = node.next) :
    Seg g b L c := by
  induction L generalizing b with
  | nil => trivial
  | cons a rest ih =>
    obtain ⟨node, ha, hprev, hnext, hrest⟩ := hL
    obtain ⟨node', ha', hprev', hnext'⟩ := hsame a List.mem_cons_self node ha
    exact ⟨node', ha', hprev'.trans hprev, hnext'.trans hnext,
      ih hrest fun a hmem => hsame a (List.mem_cons_of_mem _ hmem)⟩

theorem Seg.frame (hL : Seg h b L c) (hsame : ∀ a ∈ L, g a = h a) : Seg g b L c :=
  hL.congr fun a ha node hnode => ⟨node, (hsame a ha).trans hnode, rfl, rfl⟩

theorem Seg.exists_node (hL : Seg h b L c) (ha : a ∈ L) : ∃ node, h a = some node := by
  induction L generalizing b with
  | nil => cases ha
  | cons a' rest ih =>
    obtain ⟨node, hnode, -, -, hrest⟩ := hL
    rcases List.mem_cons.mp ha with rfl | ha
    · exact ⟨node, hnode⟩
    · exact ih hrest ha

theorem seg_append : Seg h b (L ++ M) c ↔
    Seg h b L (M.head?.or c) ∧ Seg h (L.getLast?.or b) M c := by
  induction L generalizing b with
  | nil => simp [Seg]
  | cons a rest ih =>
    have hnext : (rest ++ M).head?.or c = rest.head?.or (M.head?.or c) := by
      cases rest <;> simp
    have hlast : (a :: rest).getLast?.or b = rest.getLast?.or (some a) := by
      cases rest with
      | nil => rfl
      | cons y ys =>
        rw [List.getLast?_cons_cons, List.getLast?_eq_some_getLast (List.cons_ne_nil y ys)]
        rfl
    simp only [List.cons_append, Seg, hnext, hlast, ih]
    constructor
    · rintro ⟨node, ha, hprev, hn, hrest, hM⟩
      exact ⟨⟨node, ha, hprev, hn, hrest⟩, hM⟩
    · rintro ⟨⟨node, ha, hprev, hn, hrest⟩, hM⟩
      exact ⟨node, ha, hprev, hn, hrest, hM⟩

/-- What a write to one node leaves as it was: every other node and every value. -/
structure Relinked (h g : Heap α β) (p : Option α) : Prop where
  other : ∀ x, p ≠ some x → g x = h x
  value : ∀ x, value g x = value h x

theorem relinked_refl : Relinked h h none := ⟨fun _ _ => rfl, fun _ => rfl⟩

variable [DecidableEq α]

/-- Write to the node at an address. -/
def modify (h : Heap α β) (a : α) (f : Node α β → Node α β) : Option (Heap α β) :=
  (h a).map fun node => Function.update h a (some (f node))

/-- Write the forward link of a node, if there is the node. -/
def setNext (h : Heap α β) (p next : Option α) : Option (Heap α β) :=
  match p with
  | none => some h
  | some a => modify h a fun node => { node with next := next }

/-- Write the backward link of a node, if there is the node. -/
def setPrev (h : Heap α β) (p prev : Option α) : Option (Heap α β) :=
  match p with
  | none => some h
  | some a => modify h a fun node => { node with prev := prev }

theorem value_update_self {node : Node α β} :
    value (Function.update h a (some node)) a = some node.val := by
  rw [value, Function.update_self]
  rfl

theorem value_update_of_ne {o : Option (Node α β)} (hx : x ≠ a) :
    value (Function.update h a o) x = value h x := by
  rw [value, value, Function.update_of_ne hx]

theorem modify_eq_some {f : Node α β → Node α β} {node : Node α β} (ha : h a = some node) :
    modify h a f = some (Function.update h a (some (f node))) := by
  rw [modify, ha]
  rfl

theorem relinked_update {node node' : Node α β} (ha : h a = some node)
    (hval : node'.val = node.val) : Relinked h (Function.update h a (some node')) (some a) := by
  refine ⟨fun x hx => Function.update_of_ne (fun he => hx (congrArg some he.symm)) .., fun x => ?_⟩
  by_cases he : x = a
  · rw [he, value_update_self, value, ha]
    exact congrArg some hval
  · exact value_update_of_ne he

/-- The last node of a segment is linked on to something else. -/
theorem Seg.setNext (hL : Seg h b L c) (hnd : L.Nodup) (c' : Option α) :
    ∃ g, setNext h L.getLast? c' = some g ∧ Seg g b L c' ∧ Relinked h g L.getLast? := by
  rcases List.eq_nil_or_concat L with rfl | ⟨rest, z, rfl⟩
  · exact ⟨h, rfl, trivial, relinked_refl⟩
  · rw [List.concat_eq_append] at hL hnd ⊢
    obtain ⟨hrest, node, hz, hprev, -, -⟩ := seg_append.mp hL
    rw [List.getLast?_append_of_ne_nil _ (List.cons_ne_nil _ _)]
    refine ⟨_, modify_eq_some hz, seg_append.mpr ⟨?_, ?_⟩, relinked_update hz rfl⟩
    · refine hrest.frame fun x hx => Function.update_of_ne ?_ ..
      rintro rfl
      exact (List.nodup_append.mp hnd).2.2 x hx x (List.mem_singleton_self x) rfl
    · exact ⟨_, Function.update_self .., hprev, rfl, trivial⟩

/-- The first node of a segment is linked back to something else. -/
theorem Seg.setPrev (hL : Seg h b L c) (hnd : L.Nodup) (b' : Option α) :
    ∃ g, setPrev h L.head? b' = some g ∧ Seg g b' L c ∧ Relinked h g L.head? := by
  cases L with
  | nil => exact ⟨h, rfl, trivial, relinked_refl⟩
  | cons a rest =>
    obtain ⟨node, ha, -, hnext, hrest⟩ := hL
    refine ⟨_, modify_eq_some ha, ⟨_, Function.update_self .., rfl, hnext, ?_⟩,
      relinked_update ha rfl⟩
    refine hrest.frame fun x hx => Function.update_of_ne ?_ ..
    rintro rfl
    exact (List.nodup_cons.mp hnd).1 hx

/-- A new node is linked behind the last one. -/
theorem Seg.push (hL : Seg h none L none) (hnd : L.Nodup) (hx : x ∉ L) (v : β) :
    ∃ g, LinkedList.setNext (Function.update h x (some ⟨v, L.getLast?, none⟩)) L.getLast? (some x) =
        some g ∧
      Seg g none (L ++ [x]) none ∧ value g x = some v ∧ ∀ y, y ≠ x → value g y = value h y := by
  have hne : ∀ y ∈ L, y ≠ x := fun y hy he => hx (he ▸ hy)
  have hnew := hL.frame (g := Function.update h x (some ⟨v, L.getLast?, none⟩))
    fun y hy => Function.update_of_ne (hne y hy) ..
  obtain ⟨g, hg, hseg, hother, hvalue⟩ := hnew.setNext hnd (some x)
  have hlast : L.getLast? ≠ some x := fun he => hx (List.mem_of_getLast? he)
  have hgx : g x = some ⟨v, L.getLast?, none⟩ := (hother x hlast).trans (Function.update_self ..)
  refine ⟨g, hg, seg_append.mpr ⟨hseg, _, hgx, ?_, rfl, trivial⟩, ?_, fun y hy => ?_⟩
  · rw [Option.or_none]
  · exact (hvalue x).trans value_update_self
  · exact (hvalue y).trans (value_update_of_ne hy)

/-- A node is taken out: its neighbours are linked to each other. -/
theorem Seg.unlink (hL : Seg h none (L ++ a :: M) none) (hnd : (L ++ a :: M).Nodup) :
    ∃ node g₁ g₂, h a = some node ∧ node.prev = L.getLast? ∧ node.next = M.head? ∧
      LinkedList.setNext h node.prev node.next = some g₁ ∧
      LinkedList.setPrev g₁ node.next node.prev = some g₂ ∧
      Seg g₂ none (L ++ M) none ∧ g₂ a = some node ∧ ∀ x, value g₂ x = value h x := by
  obtain ⟨hl, node, ha, hprev, hnext, hm⟩ := seg_append.mp hL
  obtain ⟨hndL, hndM, hdisj⟩ := List.nodup_append.mp hnd
  obtain ⟨haM, hndM⟩ := List.nodup_cons.mp hndM
  rw [Option.or_none] at hprev hnext
  obtain ⟨g₁, hg₁, hl₁, hother₁, hvalue₁⟩ := hl.setNext hndL M.head?
  have hm₁ : Seg g₁ (some a) M none := hm.frame fun x hx => hother₁ x fun he =>
    hdisj x (List.mem_of_getLast? he) x (List.mem_cons_of_mem _ hx) rfl
  obtain ⟨g₂, hg₂, hm₂, hother₂, hvalue₂⟩ := hm₁.setPrev hndM L.getLast?
  have hl₂ : Seg g₂ none L M.head? := hl₁.frame fun x hx => hother₂ x fun he =>
    hdisj x hx x (List.mem_cons_of_mem _ (List.mem_of_head? he)) rfl
  refine ⟨node, g₁, g₂, ha, hprev, hnext, ?_, ?_, seg_append.mpr ⟨?_, ?_⟩, ?_, fun x => ?_⟩
  · rw [hprev, hnext]
    exact hg₁
  · rw [hprev, hnext]
    exact hg₂
  · rw [Option.or_none]
    exact hl₂
  · rw [Option.or_none]
    exact hm₂
  · rw [hother₂ a fun he => haM (List.mem_of_head? he), hother₁ a fun he =>
      hdisj a (List.mem_of_getLast? he) a List.mem_cons_self rfl]
    exact ha
  · exact (hvalue₂ x).trans (hvalue₁ x)

end Cynthia.LinkedList
