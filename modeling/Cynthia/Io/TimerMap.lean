import Mathlib.Algebra.Group.Nat.Defs
import Mathlib.Data.List.Sort

/-! The timer table of `io/reactor.rs`: the map from `(Instant, id)` to wakers, the
operations queued for it, and what `process_timers` takes out of it. The map is
the list of its entries in the order of their keys. -/

namespace Cynthia.Io

abbrev Waker := Nat

/-- Nanoseconds. -/
abbrev Instant := Nat

abbrev Key := Instant × Nat
abbrev Entry := Key × Waker
abbrev TimerMap := List Entry

/-- The order of the keys of the map. -/
def keyLe (a b : Key) : Prop := a.1 < b.1 ∨ a.1 = b.1 ∧ a.2 ≤ b.2

instance (a b : Key) : Decidable (keyLe a b) := inferInstanceAs (Decidable (_ ∨ _))

inductive TimerOp where
  | insert (when : Instant) (id : Nat) (waker : Waker)
  | remove (when : Instant) (id : Nat)
  deriving DecidableEq, Repr

namespace TimerMap

def remove (m : TimerMap) (key : Key) : TimerMap := m.filter fun e => e.1 ≠ key

def insert (m : TimerMap) (key : Key) (waker : Waker) : TimerMap :=
  (m.remove key).orderedInsert (fun e e' => keyLe e.1 e'.1) (key, waker)

def apply (m : TimerMap) : TimerOp → TimerMap
  | .insert when id waker => m.insert (when, id) waker
  | .remove when id => m.remove (when, id)

/-- `process_timer_ops` on a queue that nobody else touches. -/
def applyOps (m : TimerMap) (ops : List TimerOp) : TimerMap := ops.foldl apply m

/-- What `split_off(&(now, 0))` moves out of the map. -/
def pending (m : TimerMap) (now : Instant) : TimerMap := m.filter fun e => keyLe (now, 0) e.1

/-- What `split_off(&(now, 0))` leaves in the map. -/
def ready (m : TimerMap) (now : Instant) : TimerMap := m.filter fun e => ¬keyLe (now, 0) e.1

variable {m m' : TimerMap} {key : Key} {waker : Waker} {e : Entry} {op : TimerOp}
  {ops : List TimerOp} {now : Instant}

theorem keyLe_now_iff : keyLe (now, 0) key ↔ now ≤ key.1 := by
  simp only [keyLe, Nat.zero_le, and_true]
  exact Nat.le_iff_lt_or_eq.symm

@[simp] theorem mem_remove : e ∈ m.remove key ↔ e ∈ m ∧ e.1 ≠ key := by
  simp [remove]

@[simp] theorem mem_insert :
    e ∈ m.insert key waker ↔ e = (key, waker) ∨ e ∈ m ∧ e.1 ≠ key := by
  simp [insert]

@[simp] theorem mem_pending : e ∈ m.pending now ↔ e ∈ m ∧ now ≤ e.1.1 := by
  simp [pending, keyLe_now_iff]

@[simp] theorem mem_ready : e ∈ m.ready now ↔ e ∈ m ∧ e.1.1 < now := by
  simp [ready, keyLe_now_iff]

/-- No key has two entries. -/
def Distinct (m : TimerMap) : Prop := (m.map Prod.fst).Nodup

theorem Distinct.filter (h : m.Distinct) (p : Entry → Bool) :
    TimerMap.Distinct (m.filter p) :=
  List.Sublist.nodup (List.Sublist.map _ List.filter_sublist) h

theorem Distinct.insert (h : m.Distinct) : (m.insert key waker).Distinct := by
  have hperm := (List.perm_orderedInsert (fun e e' : Entry => keyLe e.1 e'.1) (key, waker)
    (m.remove key)).map Prod.fst
  refine hperm.nodup_iff.mpr (List.nodup_cons.mpr ⟨?_, h.filter _⟩)
  simp [remove]

theorem Distinct.apply (h : m.Distinct) (op : TimerOp) : (m.apply op).Distinct := by
  cases op with
  | insert when id waker => exact h.insert
  | remove when id => exact h.filter _

theorem Distinct.applyOps (h : m.Distinct) (ops : List TimerOp) : (m.applyOps ops).Distinct := by
  induction ops generalizing m with
  | nil => exact h
  | cons op ops ih => exact ih (h.apply op)

theorem applyOps_append (m : TimerMap) (ops : List TimerOp) (op : TimerOp) :
    m.applyOps (ops ++ [op]) = (m.applyOps ops).apply op := by
  simp [applyOps]

theorem apply_subset (h : ∀ e ∈ m', e ∈ m) (op : TimerOp) : ∀ e ∈ m'.apply op, e ∈ m.apply op := by
  intro e he
  cases op with
  | insert when id waker =>
    rcases mem_insert.mp he with rfl | ⟨he, hne⟩
    · exact mem_insert.mpr (.inl rfl)
    · exact mem_insert.mpr (.inr ⟨h e he, hne⟩)
  | remove when id =>
    obtain ⟨he, hne⟩ := mem_remove.mp he
    exact mem_remove.mpr ⟨h e he, hne⟩

/-- Fewer entries before the operations, fewer after them. -/
theorem applyOps_subset (h : ∀ e ∈ m', e ∈ m) (ops : List TimerOp) :
    ∀ e ∈ m'.applyOps ops, e ∈ m.applyOps ops := by
  induction ops generalizing m m' with
  | nil => exact h
  | cons op ops ih => exact ih (apply_subset h op)

theorem apply_lost {lost : Entry → Prop} (h : ∀ e ∈ m, e ∈ m' ∨ lost e) (op : TimerOp) :
    ∀ e ∈ m.apply op, e ∈ m'.apply op ∨ lost e := by
  intro e he
  cases op with
  | insert when id waker =>
    rcases mem_insert.mp he with rfl | ⟨he, hne⟩
    · exact .inl (mem_insert.mpr (.inl rfl))
    · exact (h e he).imp_left fun he' => mem_insert.mpr (.inr ⟨he', hne⟩)
  | remove when id =>
    obtain ⟨he, hne⟩ := mem_remove.mp he
    exact (h e he).imp_left fun he' => mem_remove.mpr ⟨he', hne⟩

/-- Only what was taken out before the operations is missing after them. -/
theorem applyOps_lost {lost : Entry → Prop} (h : ∀ e ∈ m, e ∈ m' ∨ lost e)
    (ops : List TimerOp) : ∀ e ∈ m.applyOps ops, e ∈ m'.applyOps ops ∨ lost e := by
  induction ops generalizing m m' with
  | nil => exact h
  | cons op ops ih => exact ih (apply_lost h op)

theorem mem_applyOps_pending (now : Instant) (he : e ∈ m.applyOps ops) :
    e ∈ (m.pending now).applyOps ops ∨ e ∈ m.ready now := by
  have hkept : ∀ e ∈ m, e ∈ m.pending now ∨ e ∈ m.ready now := by
    intro e he
    rcases Nat.lt_or_ge e.1.1 now with hlt | hge
    · exact .inr (mem_ready.mpr ⟨he, hlt⟩)
    · exact .inl (mem_pending.mpr ⟨he, hge⟩)
  exact applyOps_lost hkept ops e he

theorem mem_of_mem_applyOps_pending (he : e ∈ (m.pending now).applyOps ops) :
    e ∈ m.applyOps ops :=
  applyOps_subset (fun _ he => (mem_pending.mp he).1) ops e he

end TimerMap

end Cynthia.Io
