import Cynthia.Io.TimerMap
import Cynthia.Utils.Colo
import Mathlib.Algebra.Group.Nat.Defs
import Mathlib.Logic.Function.Basic

/-! `Source` of `io/reactor.rs` and the event it is waiting for: the two
directions with their stored wakers, and what an event does to them. -/

namespace Cynthia.Io

open Utils

/-- `READ` and `WRITE`. -/
inductive Dir where
  | read | write
  deriving DecidableEq, Repr

structure Event where
  key : Nat
  readable : Bool
  writable : Bool
  deriving DecidableEq, Repr

def Event.none (key : Nat) : Event := ⟨key, false, false⟩

def Event.emitted (ev : Event) : Dir → Bool
  | .read => ev.readable
  | .write => ev.writable

/-- The pair that a registration records: the reactor's ticker and the tick of the
direction. `since` is history, the number of `react` calls that had incremented the
ticker by then. -/
structure Ticks where
  a : Nat
  b : Nat
  since : Nat
  deriving DecidableEq, Repr

/-- `Private`, one direction of a source. -/
structure Private where
  tick : Nat
  ticks : Option Ticks
  waker : Option Waker
  wakers : Colo (Option Waker)
  deriving DecidableEq, Repr

def Ticks.passed (t : Ticks) (tick : Nat) : Bool := tick ≠ t.a && tick ≠ t.b

namespace Private

def new : Private := ⟨0, none, none, .new⟩

def isEmpty (p : Private) : Bool := p.waker.isNone && p.wakers.objects.all Option.isNone

/-- The stored wakers, in the order in which `drain_into` takes them. -/
def stored (p : Private) : List Waker := p.waker.toList ++ p.wakers.objects.filterMap id

def drained (p : Private) : Private :=
  { p with waker := none, wakers := p.wakers.map fun _ => none }

def drainInto (p : Private) (dst : List Waker) : Private × List Waker :=
  (p.drained, dst ++ p.stored)

theorem isEmpty_iff {p : Private} : p.isEmpty = true ↔ p.stored = [] := by
  simp [isEmpty, stored, List.filterMap_eq_nil_iff]

theorem isEmpty_iff_get {p : Private} :
    p.isEmpty = true ↔ p.waker = none ∧ ∀ j o, p.wakers.get j = some o → o = none := by
  simp only [isEmpty, Bool.and_eq_true, Option.isNone_iff_eq_none, List.all_eq_true]
  refine and_congr_right fun _ => ⟨fun h j o hj => ?_, fun h o ho => ?_⟩
  · exact h o (Colo.mem_objects.mpr ⟨j, hj⟩)
  · obtain ⟨j, hj⟩ := Colo.mem_objects.mp ho
    exact h j o hj

theorem isEmpty_new : Private.new.isEmpty = true := rfl

theorem isEmpty_drained (p : Private) : p.drained.isEmpty = true := by
  refine isEmpty_iff_get.mpr ⟨rfl, fun j o hj => ?_⟩
  rw [drained, Colo.get_map] at hj
  obtain ⟨_, -, rfl⟩ := Option.map_eq_some_iff.mp hj
  rfl

/-- A new slot without a waker changes nothing. -/
theorem isEmpty_insert {p : Private} {i : Nat} {wakers : Colo (Option Waker)}
    (h : p.wakers.insert none = some (i, wakers)) :
    Private.isEmpty { p with wakers := wakers } = p.isEmpty := by
  rw [Bool.eq_iff_iff, isEmpty_iff_get, isEmpty_iff_get]
  refine and_congr_right fun _ => ⟨fun hall j o hj => ?_, fun hall j o hj => ?_⟩
  · rcases Colo.get_insert_cases h j with ⟨-, hnone⟩ | hsame
    · rw [hnone] at hj
      cases hj
    · exact hall j o (hsame.trans hj)
  · rcases Colo.get_insert_cases h j with ⟨hnew, -⟩ | hsame
    · exact (Option.some.inj (hnew.symm.trans hj)).symm
    · exact hall j o (hsame.symm.trans hj)

/-- Taking a slot out makes a direction no less empty. -/
theorem isEmpty_remove {p : Private} (h : p.isEmpty = true) (i : Nat) :
    Private.isEmpty { p with wakers := (p.wakers.remove i).2 } = true := by
  obtain ⟨hnone, hall⟩ := isEmpty_iff_get.mp h
  refine isEmpty_iff_get.mpr ⟨hnone, fun j o hj => ?_⟩
  rw [Colo.get_remove] at hj
  split at hj
  · cases hj
  · exact hall j o hj

end Private

structure Source where
  raw : Nat
  key : Nat
  state : Dir → Private

namespace Source

def setDir (src : Source) (dir : Dir) (p : Private) : Source :=
  { src with state := Function.update src.state dir p }

/-- Some direction has a waker. -/
def waiting (src : Source) : Bool := !(src.state .read).isEmpty || !(src.state .write).isEmpty

/-- The event that `poller.modify` is asked for. -/
def interest (src : Source) : Event :=
  ⟨src.key, !(src.state .read).isEmpty, !(src.state .write).isEmpty⟩

/-- One direction of the loop over an event in `react`. -/
def emitDir (src : Source) (tick : Nat) (dst : List Waker) (dir : Dir) (emitted : Bool) :
    Source × List Waker :=
  if emitted then
    let (p, dst) := { src.state dir with tick := tick }.drainInto dst
    (src.setDir dir p, dst)
  else (src, dst)

def emit (src : Source) (tick : Nat) (ev : Event) (dst : List Waker) : Source × List Waker :=
  let (src, dst) := src.emitDir tick dst .write ev.writable
  src.emitDir tick dst .read ev.readable

variable {src : Source} {tick : Nat} {ev : Event} {dst : List Waker}

theorem setDir_self {dir : Dir} {p : Private} : (src.setDir dir p).state dir = p :=
  Function.update_self ..

theorem setDir_of_ne {dir other : Dir} {p : Private} (h : other ≠ dir) :
    (src.setDir dir p).state other = src.state other := Function.update_of_ne h ..

theorem interest_emitted (dir : Dir) :
    src.interest.emitted dir = !(src.state dir).isEmpty := by
  cases dir <;> rfl

theorem waiting_iff : src.waiting = true ↔ ∃ dir, (src.state dir).isEmpty = false := by
  simp only [waiting, Bool.or_eq_true, Bool.not_eq_true']
  constructor
  · rintro (h | h)
    · exact ⟨_, h⟩
    · exact ⟨_, h⟩
  · rintro ⟨dir, h⟩
    cases dir with
    | read => exact .inl h
    | write => exact .inr h

/-- An event stamps and drains the directions it is about. -/
theorem emit_state (dir : Dir) : (src.emit tick ev dst).1.state dir =
    if ev.emitted dir then { src.state dir with tick := tick }.drained else src.state dir := by
  cases dir <;> cases hr : ev.readable <;> cases hw : ev.writable <;>
    simp [emit, emitDir, setDir, Private.drainInto, Event.emitted, hr, hw]

theorem emit_wakers : (src.emit tick ev dst).2 =
    dst ++ (if ev.writable then (src.state .write).stored else []) ++
      (if ev.readable then (src.state .read).stored else []) := by
  cases hr : ev.readable <;> cases hw : ev.writable <;>
    simp [emit, emitDir, setDir, Private.drainInto, Private.stored, hr, hw]

theorem emit_frame : (src.emit tick ev dst).1.raw = src.raw ∧
    (src.emit tick ev dst).1.key = src.key := by
  cases hr : ev.readable <;> cases hw : ev.writable <;>
    simp [emit, emitDir, setDir, Private.drainInto, hr, hw]

theorem emit_isEmpty (dir : Dir) : ((src.emit tick ev dst).1.state dir).isEmpty =
    (ev.emitted dir || (src.state dir).isEmpty) := by
  rw [emit_state]
  cases ev.emitted dir with
  | true => exact Private.isEmpty_drained _
  | false => rfl

/-- Nothing was collected: neither before the event nor by it. -/
theorem emit_wakers_eq_nil : (src.emit tick ev dst).2 = [] ↔
    dst = [] ∧ ∀ dir, ev.emitted dir = true → (src.state dir).isEmpty = true := by
  rw [emit_wakers, List.append_assoc, List.append_eq_nil_iff, List.append_eq_nil_iff]
  refine and_congr_right fun _ => ⟨?_, fun h => ⟨?_, ?_⟩⟩
  · rintro ⟨hw, hr⟩ dir he
    cases dir with
    | read =>
      rw [if_pos (show ev.readable = true from he)] at hr
      exact Private.isEmpty_iff.mpr hr
    | write =>
      rw [if_pos (show ev.writable = true from he)] at hw
      exact Private.isEmpty_iff.mpr hw
  · split
    · rename_i he
      exact Private.isEmpty_iff.mp (h .write he)
    · rfl
  · split
    · rename_i he
      exact Private.isEmpty_iff.mp (h .read he)
    · rfl

end Source

end Cynthia.Io
