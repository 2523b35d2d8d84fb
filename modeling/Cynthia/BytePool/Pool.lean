import Cynthia.Lib.Transition

/-! `platform/byte_pool`: buffers that are taken from a pool, resized, and given back when
they are dropped. `capacity` has two meanings: the trait `Allocate` means the length of a
vector by it, and the vector the room that is allocated for it. The crate `crossbeam` has the
queues of the pool: what is pushed into one is popped in that order. -/

namespace Cynthia.BytePools

open Transition

/-- What is left open about the memory of a vector. It is given at least the room that it
asks for, and shrinks at most to its length. -/
structure Allocator where
  grow : Nat → Nat → Nat
  shrink : Nat → Nat → Nat
  le_grow : ∀ capacity needed, needed ≤ grow capacity needed
  le_shrink : ∀ capacity len, len ≤ capacity → len ≤ shrink capacity len

/-- A `Vec<T>`. -/
structure Vec (α : Type) where
  data : List α
  capacity : Nat
  fits : data.length ≤ capacity

variable {α : Type} (a : Allocator)

namespace Vec

/-- `vec![value; n]`. -/
def replicate (n : Nat) (value : α) : Vec α :=
  ⟨List.replicate n value, a.grow 0 n, by
    rw [List.length_replicate]
    exact a.le_grow 0 n⟩

/-- The room after `reserve(additional)`. -/
def reserved (v : Vec α) (additional : Nat) : Nat :=
  if v.capacity - v.data.length < additional then a.grow v.capacity (v.data.length + additional)
  else v.capacity

theorem le_reserved (v : Vec α) (additional : Nat) :
    v.data.length + additional ≤ v.reserved a additional := by
  have hfits := v.fits
  unfold reserved
  split
  · exact a.le_grow ..
  · omega

def resize (v : Vec α) (n : Nat) (value : α) : Vec α :=
  ⟨v.data.take n ++ List.replicate (n - v.data.length) value,
    v.reserved a (n - v.data.length), by
      have hle := le_reserved a v (n - v.data.length)
      rw [List.length_append, List.length_take, List.length_replicate]
      omega⟩

def truncate (v : Vec α) (n : Nat) : Vec α :=
  ⟨v.data.take n, v.capacity, Nat.le_trans (List.length_take_le' ..) v.fits⟩

def shrinkToFit (v : Vec α) : Vec α :=
  ⟨v.data, a.shrink v.capacity v.data.length, a.le_shrink _ _ v.fits⟩

/-- An assignment to an element. -/
def set (v : Vec α) (i : Nat) (x : α) : Vec α :=
  ⟨v.data.set i x, v.capacity, by
    rw [List.length_set]
    exact v.fits⟩

end Vec

/-! ## `alloc.rs` -/

/-- `Allocate::capacity`. -/
def capacity (v : Vec α) : Nat := v.data.length

variable [Inhabited α]

/-- `Allocate::alloc`. -/
def allocate (size : Nat) : Vec α := Vec.replicate a size default

/-- `Realloc::realloc`, with `none` for the failed assertion. The method of the vector goes
before that of the trait, so it is the room that is compared. -/
def reallocate (v : Vec α) (newSize : Nat) : Option (Vec α) :=
  if 0 < newSize then some <|
    match compare newSize v.capacity with
    | .gt => v.resize a newSize default
    | .lt => (v.truncate newSize).shrinkToFit a
    | .eq => v
  else none

/-! ## `pool.rs` -/

inductive Bask where
  | small | medium | large
  deriving DecidableEq

def lowLine : Nat := 2 * 1024

def highLine : Nat := 64 * 1024

def baskOf (size : Nat) : Bask :=
  if size ≤ lowLine then .small else if size ≤ highLine then .medium else .large

/-- The three queues. -/
abbrev BytePool (α : Type) := Bask → List (Vec α)

/-- `BytePool::alloc`. A block that does not have the size goes to the back of its queue. -/
def BytePool.alloc (pool : BytePool α) (size : Nat) : Vec α × BytePool α :=
  match pool (baskOf size) with
  | el :: rest =>
    if capacity el = size then (el, Function.update pool (baskOf size) rest)
    else (allocate a size, Function.update pool (baskOf size) (rest ++ [el]))
  | [] => (allocate a size, pool)

def BytePool.pushRawBlock (pool : BytePool α) (buffer : Vec α) : BytePool α :=
  let bask := baskOf (capacity buffer)
  Function.update pool bask (pool bask ++ [buffer])

/-- `ByteBuffer::size`. -/
def size (buffer : Vec α) : Nat := capacity buffer

/-- The buffers in use have names. The last field is history: the size that was asked for
last, at `alloc` or at `realloc`. -/
structure State (α : Type) where
  pool : BytePool α
  buffers : Nat → Option (Vec α)
  created : Nat
  asked : Nat → Nat

def new : State α := ⟨fun _ => [], fun _ => none, 0, fun _ => 0⟩

inductive Act (α : Type) where
  | alloc (size : Nat)
  | realloc (id newSize : Nat)
  | set (id i : Nat) (x : α)
  | drop (id : Nat)
  deriving DecidableEq

def step (s : State α) : Act α → Option (State α)
  | .alloc size =>
    let (buffer, pool) := s.pool.alloc a size
    some {
      pool
      buffers := Function.update s.buffers s.created (some buffer)
      created := s.created + 1
      asked := Function.update s.asked s.created size }
  | .realloc id newSize =>
    (s.buffers id).bind fun buffer => (reallocate a buffer newSize).map fun buffer =>
      { s with
        buffers := Function.update s.buffers id (some buffer)
        asked := Function.update s.asked id newSize }
  | .set id i x =>
    (s.buffers id).map fun buffer =>
      { s with buffers := Function.update s.buffers id (some (buffer.set i x)) }
  | .drop id =>
    (s.buffers id).map fun buffer =>
      { s with
        pool := s.pool.pushRawBlock buffer
        buffers := Function.update s.buffers id none }

def system : System (State α) (Act α) := ⟨new, step a⟩

/-! ## Sizes -/

/-- The requested size, the old elements as far as they fit, and default values. -/
def Resized (v w : Vec α) (n : Nat) : Prop :=
  size w = n ∧ w.data = v.data.take n ++ List.replicate (n - size v) default

/-- The request does not fall between the length and the room of the buffer. -/
def Regular (v : Vec α) (n : Nat) : Prop := n ≤ size v ∨ v.capacity < n

/-- Every `realloc` of a run is regular. -/
def Regulars (s : State α) : Act α → Prop
  | .realloc id newSize => ∀ v, s.buffers id = some v → Regular v newSize
  | _ => True

instance (s : State α) (act : Act α) : Decidable (Regulars s act) :=
  match act with
  | .realloc id newSize => match h : s.buffers id with
    | none => .isTrue fun v hv => by cases h.symm.trans hv
    | some v => decidable_of_iff (newSize ≤ size v ∨ v.capacity < newSize)
      ⟨fun hregular w hw => by cases h.symm.trans hw; exact hregular, fun hall => hall v h⟩
  | .alloc _ | .set _ _ _ | .drop _ => .isTrue trivial

section Sizes

variable {a : Allocator} {v w : Vec α} {n : Nat}

theorem size_alloc (pool : BytePool α) (n : Nat) : size (pool.alloc a n).1 = n := by
  unfold BytePool.alloc
  split
  · split
    · assumption
    · exact List.length_replicate
  · exact List.length_replicate

theorem reallocate_of_lt (h : v.capacity < n) :
    reallocate a v n = some (v.resize a n default) := by
  rw [reallocate, if_pos (Nat.zero_lt_of_lt h), Nat.compare_eq_gt.mpr h]

theorem reallocate_of_gt (hn : 0 < n) (h : n < v.capacity) :
    reallocate a v n = some ((v.truncate n).shrinkToFit a) := by
  rw [reallocate, if_pos hn, Nat.compare_eq_lt.mpr h]

theorem reallocate_of_eq (hn : 0 < n) (h : n = v.capacity) : reallocate a v n = some v := by
  rw [reallocate, if_pos hn, Nat.compare_eq_eq.mpr h]

/-- A request up to the room cuts the buffer, and does nothing else. -/
theorem data_reallocate_of_le (h : n ≤ v.capacity) (hw : reallocate a v n = some w) :
    w.data = v.data.take n := by
  have hn : 0 < n := by
    by_contra hzero
    rw [reallocate, if_neg hzero] at hw
    cases hw
  rcases Nat.lt_or_eq_of_le h with hlt | heq
  · rw [reallocate_of_gt hn hlt] at hw
    obtain rfl := Option.some.inj hw
    rfl
  · rw [reallocate_of_eq hn heq] at hw
    obtain rfl := Option.some.inj hw
    exact (List.take_of_length_le (heq ▸ v.fits)).symm

theorem resized_iff (hw : reallocate a v n = some w) : Resized v w n ↔ Regular v n := by
  by_cases hroom : v.capacity < n
  · refine iff_of_true ?_ (.inr hroom)
    rw [reallocate_of_lt hroom] at hw
    obtain rfl := Option.some.inj hw
    have hfits := v.fits
    refine ⟨?_, rfl⟩
    simp only [size, capacity, Vec.resize, List.length_append, List.length_take,
      List.length_replicate]
    omega
  · have hdata := data_reallocate_of_le (Nat.not_lt.mp hroom) hw
    constructor
    · rintro ⟨hsize, -⟩
      refine .inl ?_
      rw [size, capacity, hdata, List.length_take] at hsize
      rw [size, capacity]
      omega
    · intro hregular
      have hle : n ≤ v.data.length := hregular.resolve_right hroom
      refine ⟨?_, ?_⟩
      · rw [size, capacity, hdata]
        exact List.length_take_of_le hle
      · rw [hdata, size, capacity, Nat.sub_eq_zero_of_le hle, List.replicate_zero, List.append_nil]

/-- The size of a buffer in use is the one that was asked for. -/
def Sized (s : State α) : Prop := ∀ id v, s.buffers id = some v → size v = s.asked id

omit [Inhabited α] in
theorem Sized.update {s : State α} (h : Sized s) {id : Nat} (hv : size v = n) (pool : BytePool α)
    (created : Nat) : Sized ⟨pool, Function.update s.buffers id (some v), created,
      Function.update s.asked id n⟩ := by
  intro other w hw
  by_cases he : other = id
  · subst he
    dsimp only at hw ⊢
    rw [Function.update_self] at hw ⊢
    obtain rfl := Option.some.inj hw
    exact hv
  · dsimp only at hw ⊢
    rw [Function.update_of_ne he] at hw ⊢
    exact h other w hw

theorem sized_step {s t : State α} {act : Act α} (hok : Regulars s act) (h : Sized s)
    (ht : step a s act = some t) : Sized t := by
  cases act with
  | alloc n =>
    obtain rfl := Option.some.inj ht
    exact h.update (size_alloc s.pool n) _ _
  | realloc id n =>
    obtain ⟨v, hv, hw⟩ := Option.bind_eq_some_iff.mp ht
    obtain ⟨w, hrealloc, rfl⟩ := Option.map_eq_some_iff.mp hw
    exact h.update ((resized_iff hrealloc).mpr (hok v hv)).1 _ _
  | set id i x =>
    obtain ⟨v, hv, rfl⟩ := Option.map_eq_some_iff.mp ht
    have hsize : size (v.set i x) = s.asked id := by
      rw [← h id v hv]
      exact List.length_set
    have hset : Sized ⟨s.pool, Function.update s.buffers id (some (v.set i x)), s.created,
        Function.update s.asked id (s.asked id)⟩ := h.update hsize _ _
    rwa [Function.update_eq_self] at hset
  | drop id =>
    obtain ⟨v, hv, rfl⟩ := Option.map_eq_some_iff.mp ht
    intro other w hw
    by_cases he : other = id
    · subst he
      dsimp only at hw
      rw [Function.update_self] at hw
      cases hw
    · dsimp only at hw
      rw [Function.update_of_ne he] at hw
      exact h other w hw

end Sizes

/-- `alloc` gives the size it is asked for. `realloc` does so, keeps what fits and adds
default values exactly if the request does not fall between the length and the room. -/
theorem realloc_resizes_iff (a : Allocator) (s : State α) :
    (∀ n, size (s.pool.alloc a n).1 = n) ∧
    (∀ id v n, s.buffers id = some v → 0 < n →
      ((∃ w, reallocate a v n = some w ∧ Resized v w n) ↔ Regular v n)) ∧
    ((system a).ReachableVia Regulars s → Sized s) := by
  refine ⟨size_alloc s.pool, fun id v n _ hn => ?_, fun hvia => ?_⟩
  · obtain ⟨w, hw⟩ : ∃ w, reallocate a v n = some w := ⟨_, if_pos hn⟩
    constructor
    · rintro ⟨w', hw', hresized⟩
      exact (resized_iff hw').mp hresized
    · exact fun hregular => ⟨w, hw, (resized_iff hw).mpr hregular⟩
  · exact hvia.invariant (fun _ _ hv => by cases hv) fun _ _ _ hok h ht => sized_step hok h ht

/-- What the vectors of the standard library do: the room doubles, and shrinks to the length. -/
def doubling : Allocator where
  grow capacity needed := max needed (2 * capacity)
  shrink _ len := len
  le_grow _ _ := Nat.le_max_left ..
  le_shrink _ _ _ := Nat.le_refl _

/-- A buffer grows, shrinks, and grows beyond the room that it has then. -/
theorem realloc_resizes_iff_regular : ∃ s : State Nat,
    (system doubling).ReachableVia Regulars s ∧ s.asked 0 = 9 ∧
      ∃ v, s.buffers 0 = some v ∧ size v = s.asked 0 := by
  obtain ⟨s, hs, hasked, hbuffer⟩ := (system doubling).exists_of_runVia Regulars
    (P := fun s : State Nat => s.asked 0 = 9 ∧ (s.buffers 0).isSome = true)
    [.alloc 4, .realloc 0 5, .realloc 0 3, .realloc 0 9] (by decide)
  obtain ⟨v, hv⟩ := Option.isSome_iff_exists.mp hbuffer
  exact ⟨s, hs, hasked, v, hv, (realloc_resizes_iff doubling s).2.2 hs 0 v hv⟩

/-- The room of a buffer of 4 elements doubles when it grows to 5. Asked for 7 then, it
stays at 5. -/
theorem grows_once : ∃ s : State Nat, (system doubling).Reachable s ∧
    ∃ v w, s.buffers 0 = some v ∧ size v = 5 ∧ reallocate doubling v 7 = some w ∧ size w = 5 := by
  obtain ⟨s, -, hs, hsizes⟩ := (system doubling).exists_of_run
    (P := fun s : State Nat => ((s.buffers 0).bind fun v => (reallocate doubling v 7).map fun w =>
      (size v, size w)) = some (5, 5)) [.alloc 4, .realloc 0 5] (by decide)
  obtain ⟨v, hv, hw⟩ := Option.bind_eq_some_iff.mp hsizes
  obtain ⟨w, hw, heq⟩ := Option.map_eq_some_iff.mp hw
  obtain ⟨hsize, hsize'⟩ := Prod.mk.inj heq
  exact ⟨s, hs, v, w, hv, hsize, hw, hsize'⟩

end Cynthia.BytePools
