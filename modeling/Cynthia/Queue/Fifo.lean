import Cynthia.Lib.Linearizability

/-! The sequential queue that the concurrent ones are compared with: a FIFO that can be
closed, with or without a capacity. -/

namespace Cynthia.Queue

open Linearizability

variable {α : Type}

inductive Op (α : Type) where
  | push (value : α)
  | pop
  | close
  deriving DecidableEq, Repr

/-- `PushError` gives the value back. A value is popped from a slot, which may hold
nothing. -/
inductive Res (α : Type) where
  | pushed
  | full (value : α)
  | pushClosed (value : α)
  | popped (value : Option α)
  | empty
  | popClosed
  | closed (first : Bool)
  deriving DecidableEq, Repr

structure Fifo (α : Type) where
  items : List α
  closed : Bool
  deriving DecidableEq, Repr

def Fifo.isFull (capacity : Option Nat) (q : Fifo α) : Bool :=
  match capacity with
  | none => false
  | some cap => cap ≤ q.items.length

def Fifo.apply (capacity : Option Nat) (q : Fifo α) : Op α → Fifo α × Res α
  | .push value =>
    if q.closed then (q, .pushClosed value)
    else if q.isFull capacity then (q, .full value)
    else ({ q with items := q.items ++ [value] }, .pushed)
  | .pop => match q.items with
    | value :: rest => ({ q with items := rest }, .popped (some value))
    | [] => (q, if q.closed then .popClosed else .empty)
  | .close => ({ q with closed := true }, .closed (!q.closed))

def fifo (capacity : Option Nat) : Spec (Fifo α) (Op α) (Res α) :=
  ⟨⟨[], false⟩, Fifo.apply capacity⟩

section Apply

variable {capacity : Option Nat} {q : Fifo α} {value : α}

theorem apply_push_closed (hclosed : q.closed = true) :
    (fifo capacity).apply q (.push value) = (q, .pushClosed value) := by
  simp [fifo, Fifo.apply, hclosed]

theorem apply_push_full (hclosed : q.closed = false) (hfull : q.isFull capacity = true) :
    (fifo capacity).apply q (.push value) = (q, .full value) := by
  simp [fifo, Fifo.apply, hclosed, hfull]

theorem apply_push (hclosed : q.closed = false) (hroom : q.isFull capacity = false) :
    (fifo capacity).apply q (.push value) = ({ q with items := q.items ++ [value] }, .pushed) := by
  simp [fifo, Fifo.apply, hclosed, hroom]

theorem apply_pop {rest : List α} (hitems : q.items = value :: rest) :
    (fifo capacity).apply q .pop = ({ q with items := rest }, .popped (some value)) := by
  simp [fifo, Fifo.apply, hitems]

theorem apply_pop_nil (hitems : q.items = []) :
    (fifo capacity).apply q .pop = (q, if q.closed then .popClosed else .empty) := by
  simp [fifo, Fifo.apply, hitems]

end Apply

/-- The values that were pushed, in order. -/
def pushes (log : List (Entry (Op α) (Res α))) : List α :=
  log.filterMap fun e => match e.op, e.res with
    | .push value, .pushed => some value
    | _, _ => none

/-- The values that were popped, in order. -/
def pops (log : List (Entry (Op α) (Res α))) : List (Option α) :=
  log.filterMap fun e => match e.res with
    | .popped value => some value
    | _ => none

variable {capacity : Option Nat} {log : List (Entry (Op α) (Res α))}

theorem pushes_append (id : Nat) (value : α) :
    pushes (log ++ [⟨id, .push value, .pushed⟩]) = pushes log ++ [value] := by
  simp [pushes]

theorem pushes_append_of_ne (id : Nat) (op : Op α) {res : Res α} (h : res ≠ .pushed) :
    pushes (log ++ [⟨id, op, res⟩]) = pushes log := by
  cases op <;> cases res <;> simp_all [pushes]

/-- Values come out once each and in the order in which they went in. -/
theorem pushes_eq (h : (fifo capacity).Legal log) :
    (pushes log).map some = pops log ++ ((fifo capacity).final log).items.map some := by
  induction log using List.reverseRecOn with
  | nil => rfl
  | append_singleton log e ih =>
    obtain ⟨hlog, hres⟩ := Spec.legal_append_singleton.mp h
    have hold := ih hlog
    obtain ⟨id, op, res⟩ := e
    simp only at hres
    subst hres
    simp only [pushes, pops] at hold
    simp only [Spec.final_append_singleton, pushes, pops, List.filterMap_append, List.map_append,
      hold]
    generalize (fifo capacity).final log = q
    cases op with
    | push value =>
      by_cases hc : q.closed = true
      · simp [fifo, Fifo.apply, hc]
      · by_cases hf : q.isFull capacity = true
        · simp [fifo, Fifo.apply, hc, hf]
        · simp [fifo, Fifo.apply, hc, hf]
    | pop =>
      cases hq : q.items with
      | nil => cases hc : q.closed <;> simp [fifo, Fifo.apply, hq, hc]
      | cons value rest => simp [fifo, Fifo.apply, hq]
    | close => simp [fifo, Fifo.apply]

theorem idle_full (value : α) : (fifo capacity).Idle (.push value) (.full value) := by
  intro q h
  simp only [fifo, Fifo.apply] at h ⊢
  split_ifs at h ⊢
  rfl

end Cynthia.Queue
