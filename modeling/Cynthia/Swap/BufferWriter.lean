import Cynthia.Lib.Transition
import Cynthia.Swap.Io

/-! `BufferWriter` of `future/swap.rs`. A step is one request to the inner writer with
its answer, or what is done between two of them; the calls of the methods follow each
other in any order. -/

namespace Cynthia.Swap.BufferWriter

open Transition

/-- The methods, with what is left of them once the buffer is flushed. -/
inductive Method where
  | pollWrite (data : List UInt8)
  | pollFlush
  | pollClose
  | pollSeek (pos : SeekFrom)
  deriving DecidableEq, Repr

/-- Where the call in progress stands: in the loop of `poll_flush_buf`, or behind it. -/
inductive Pc where
  | idle
  | flushBuf (m : Method)
  | inner (m : Method)
  deriving DecidableEq, Repr

/-- The last three fields are history: the bytes the inner writer has accepted, the
bytes that `poll_write` has reported as accepted, and what the last call returned. -/
structure State where
  buf : List UInt8
  written : Nat
  capacity : Nat
  pc : Pc
  accepted : List UInt8
  reported : List UInt8
  ret : Option (Method × Poll Nat)
  deriving DecidableEq

def withCapacity (capacity : Nat) : State := ⟨[], 0, capacity, .idle, [], [], none⟩

def State.return (s : State) (m : Method) (res : Poll Nat) : State :=
  { s with pc := .idle, ret := some (m, res) }

/-- A call begins. Only `poll_write` asks first whether there is room. -/
def call (s : State) (m : Method) : Option State :=
  if s.pc = .idle then
    match m with
    | .pollWrite data =>
      if s.capacity < s.buf.length + data.length then
        some { s with pc := .flushBuf m, ret := none }
      else some { s with pc := .inner m, ret := none }
    | _ => some { s with pc := .flushBuf m, ret := none }
  else none

/-- The end of `poll_flush_buf`. -/
def drained (s : State) : State := { s with buf := s.buf.drop s.written, written := 0 }

/-- One turn of the loop in `poll_flush_buf`, given the answer of the inner writer. -/
def flushStep (s : State) (m : Method) : Poll Nat → Option State
  | .pending => some (s.return m .pending)
  | .ok n =>
    if n ≤ (s.buf.drop s.written).length then
      if n = 0 then some ((drained s).return m (.error .writeZero))
      else some { s with
        written := s.written + n
        accepted := s.accepted ++ (s.buf.drop s.written).take n }
    else none
  | .error .interrupted => some s
  | .error e => some ((drained s).return m (.error e))

/-- A `poll_write` on the inner writer, whose answer is the caller's. -/
def writeThrough (s : State) (data : List UInt8) : Poll Nat → Option State
  | .ok n =>
    if n ≤ data.length then
      some ({ s with accepted := s.accepted ++ data.take n, reported := s.reported ++ data.take n }
        |>.return (.pollWrite data) (.ok n))
    else none
  | res => some (s.return (.pollWrite data) res)

/-- The request to the inner writer that the call in progress makes next, with its
answer; nothing is asked if all is done without it. -/
def resume (s : State) (res : Poll Nat) : Option State :=
  match s.pc with
  | .idle => none
  | .flushBuf m =>
    if s.written < s.buf.length then flushStep s m res
    else some { drained s with pc := .inner m }
  | .inner (.pollWrite data) =>
    if s.capacity ≤ data.length then writeThrough s data res
    else some ({ s with buf := s.buf ++ data, reported := s.reported ++ data }
      |>.return (.pollWrite data) (.ok data.length))
  | .inner m => some (s.return m res)

inductive Act where
  | call (m : Method)
  | resume (res : Poll Nat)
  deriving DecidableEq

def step (s : State) : Act → Option State
  | .call m => call s m
  | .resume res => resume s res

def system (capacity : Nat) : System State Act := ⟨withCapacity capacity, step⟩

/-! ## Every byte in its place -/

/-- A call that is done with `poll_flush_buf` has an empty buffer, or room for its data. -/
def Ready (s : State) : Method → Prop
  | .pollWrite data => s.buf = [] ∨ s.buf.length + data.length ≤ s.capacity
  | _ => s.buf = []

structure Inv (capacity : Nat) (s : State) : Prop where
  cap : s.capacity = capacity
  kept : s.accepted ++ s.buf.drop s.written = s.reported
  written_le : s.written ≤ s.buf.length
  fits : s.buf.length ≤ s.capacity
  ready : ∀ m, s.pc = .inner m → Ready s m
  running : s.pc ≠ .idle → s.ret = none
  flushed : ∀ n, s.ret = some (.pollFlush, .ok n) → s.buf = []

variable {capacity : Nat} {s t : State} {m : Method} {res : Poll Nat} {data : List UInt8}

theorem inv_withCapacity : Inv capacity (withCapacity capacity) :=
  ⟨rfl, rfl, Nat.le_refl _, Nat.zero_le _, nofun, fun _ => rfl, nofun⟩

/-- A call that returns leaves the buffer as it is. -/
theorem Inv.return (h : Inv capacity s) (hflush : ∀ n, m = .pollFlush → res = .ok n → s.buf = []) :
    Inv capacity (s.return m res) := by
  refine ⟨h.cap, h.kept, h.written_le, h.fits, nofun, fun hpc => absurd rfl hpc, fun n hret => ?_⟩
  obtain ⟨rfl, rfl⟩ := Prod.mk.inj (Option.some.inj hret)
  exact hflush n rfl rfl

theorem inv_call (h : Inv capacity s) (ht : call s m = some t) : Inv capacity t := by
  unfold call at ht
  split at ht
  · split at ht
    · split at ht
      · obtain rfl := Option.some.inj ht
        exact ⟨h.cap, h.kept, h.written_le, h.fits, nofun, fun _ => rfl, nofun⟩
      · rename_i data hroom
        obtain rfl := Option.some.inj ht
        refine ⟨h.cap, h.kept, h.written_le, h.fits, fun m hm => ?_, fun _ => rfl, nofun⟩
        obtain rfl := Pc.inner.inj hm
        exact .inr (Nat.not_lt.mp hroom)
    · obtain rfl := Option.some.inj ht
      exact ⟨h.cap, h.kept, h.written_le, h.fits, nofun, fun _ => rfl, nofun⟩
  · cases ht

theorem inv_drained (h : Inv capacity s) (hpc : s.pc = .flushBuf m) : Inv capacity (drained s) := by
  have hret := h.running (by rw [hpc]; exact Pc.noConfusion)
  refine ⟨h.cap, h.kept, Nat.zero_le _, ?_, fun m hm => ?_, fun _ => hret, fun n hn => ?_⟩
  · have hfits := h.fits
    simp only [drained, List.length_drop]
    omega
  · cases hpc.symm.trans hm
  · cases hret.symm.trans hn

theorem inv_flushStep (h : Inv capacity s) (hpc : s.pc = .flushBuf m)
    (ht : flushStep s m res = some t) : Inv capacity t := by
  have hdrained := inv_drained h hpc
  unfold flushStep at ht
  split at ht
  · obtain rfl := Option.some.inj ht
    exact h.return nofun
  · rename_i n
    split at ht
    · rename_i hn
      split at ht
      · obtain rfl := Option.some.inj ht
        exact hdrained.return nofun
      · obtain rfl := Option.some.inj ht
        -- The inner writer has taken the next `n` bytes of the buffer.
        refine ⟨h.cap, ?_, ?_, h.fits, h.ready, h.running, h.flushed⟩
        · rw [← h.kept, List.append_assoc, ← List.drop_drop, List.take_append_drop]
        · rw [List.length_drop] at hn
          have hle := h.written_le
          dsimp only
          omega
    · cases ht
  · obtain rfl := Option.some.inj ht
    exact h
  · obtain rfl := Option.some.inj ht
    exact hdrained.return nofun

theorem inv_writeThrough (h : Inv capacity s) (hbuf : s.buf = [])
    (ht : writeThrough s data res = some t) : Inv capacity t := by
  unfold writeThrough at ht
  split at ht
  · split at ht
    · obtain rfl := Option.some.inj ht
      refine Inv.return ?_ nofun
      refine ⟨h.cap, ?_, h.written_le, h.fits, h.ready, h.running, h.flushed⟩
      have hkept := h.kept
      rw [hbuf, List.drop_nil, List.append_nil] at hkept
      dsimp only
      rw [hbuf, List.drop_nil, List.append_nil, hkept]
    · cases ht
  · obtain rfl := Option.some.inj ht
    exact h.return nofun

theorem inv_resume (h : Inv capacity s) (ht : resume s res = some t) : Inv capacity t := by
  unfold resume at ht
  split at ht
  · cases ht
  · rename_i m hpc
    split at ht
    · exact inv_flushStep h hpc ht
    · rename_i hdone
      obtain rfl := Option.some.inj ht
      have hdrained := inv_drained h hpc
      have hempty : (drained s).buf = [] := List.drop_eq_nil_of_le (Nat.not_lt.mp hdone)
      have hret := h.running (by rw [hpc]; exact Pc.noConfusion)
      refine ⟨hdrained.cap, hdrained.kept, hdrained.written_le, hdrained.fits, fun m' _ => ?_,
        fun _ => hret, hdrained.flushed⟩
      cases m' with
      | pollWrite data => exact .inl hempty
      | pollFlush | pollClose | pollSeek => exact hempty
  · rename_i data hpc
    have hready := h.ready _ hpc
    split at ht
    · rename_i hlarge
      refine inv_writeThrough h ?_ ht
      rcases hready with hbuf | hroom
      · exact hbuf
      · exact List.length_eq_zero_iff.mp (by omega)
    · rename_i hsmall
      obtain rfl := Option.some.inj ht
      refine ⟨h.cap, ?_, ?_, ?_, nofun, fun hidle => absurd rfl hidle, nofun⟩
      · dsimp only [State.return]
        rw [List.drop_append_of_le_length h.written_le, ← List.append_assoc, h.kept]
      · dsimp only [State.return]
        rw [List.length_append]
        exact Nat.le_add_right_of_le h.written_le
      · dsimp only [State.return]
        rw [List.length_append]
        rcases hready with hbuf | hroom
        · rw [hbuf, List.length_nil]
          omega
        · exact hroom
  · rename_i m hnot hpc
    obtain rfl := Option.some.inj ht
    refine h.return fun n hm _ => ?_
    subst hm
    exact h.ready _ hpc

theorem inv_step {a : Act} (h : Inv capacity s) (ht : step s a = some t) : Inv capacity t := by
  cases a with
  | call m => exact inv_call h ht
  | resume res => exact inv_resume h ht

theorem inv_of_reachable (hs : (system capacity).Reachable s) : Inv capacity s :=
  hs.invariant inv_withCapacity fun _ _ _ => inv_step

/-- Nothing is lost, duplicated or reordered, and a flush that succeeds leaves nothing
behind. -/
theorem buffer_writer_keeps_order (capacity : Nat) (s : State)
    (hs : (system capacity).Reachable s) :
    s.accepted ++ s.buf.drop s.written = s.reported ∧ s.written ≤ s.buf.length ∧
      s.buf.length ≤ capacity ∧
      ∀ n, s.ret = some (.pollFlush, .ok n) → s.accepted = s.reported := by
  have h := inv_of_reachable hs
  refine ⟨h.kept, h.written_le, h.cap ▸ h.fits, fun n hret => ?_⟩
  have hkept := h.kept
  rw [h.flushed n hret, List.drop_nil, List.append_nil] at hkept
  exact hkept

/-- A flush stops halfway, new data is put behind what is left, and a large write empties
the buffer first. -/
def halfway : List Act :=
  [.call (.pollWrite [1, 2, 3]), .resume .pending, .call .pollFlush, .resume (.ok 2),
   .resume .pending, .call (.pollWrite [4]), .resume .pending, .call (.pollWrite [5, 6, 7, 8]),
   .resume (.error .interrupted), .resume (.ok 2), .resume .pending, .resume (.ok 3),
   .call .pollFlush, .resume .pending, .resume (.ok 0)]

theorem buffer_writer_keeps_order_halfway :
    ∃ s, (system 4).Reachable s ∧ s.ret = some (.pollFlush, .ok 0) ∧
      s.reported = [1, 2, 3, 4, 5, 6, 7] ∧ s.accepted = s.reported := by
  obtain ⟨s, -, hs, hret, hreported⟩ := (system 4).exists_of_run
    (P := fun s => s.ret = some (.pollFlush, .ok 0) ∧ s.reported = [1, 2, 3, 4, 5, 6, 7])
    halfway (by decide)
  exact ⟨s, hs, hret, hreported, (buffer_writer_keeps_order 4 s hs).2.2.2 0 hret⟩

end Cynthia.Swap.BufferWriter
