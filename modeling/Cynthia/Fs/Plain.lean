import Mathlib.Data.List.TakeDrop

/-! A plain file with one cursor: what `std::fs::File` is when nobody else has the file
open and no operation fails, and what the users of `fs::File` may rely on. -/

namespace Cynthia.Fs

structure Plain where
  contents : List UInt8
  cursor : Nat
  deriving DecidableEq, Repr

inductive SeekFrom where
  | start (n : Nat)
  | end (n : Int)
  | current (n : Int)
  deriving DecidableEq, Repr

/-- `set_len`: cut off, or extended with zeros. -/
def resize (n : Nat) (l : List UInt8) : List UInt8 := l.take n ++ List.replicate (n - l.length) 0

namespace Plain

/-- What is left to read. -/
def rest (f : Plain) : List UInt8 := f.contents.drop f.cursor

/-- Writing no bytes does nothing; writing past the end fills the gap with zeros. -/
def write (f : Plain) (bytes : List UInt8) : Plain :=
  if bytes = [] then f
  else ⟨resize f.cursor f.contents ++ bytes ++ f.contents.drop (f.cursor + bytes.length),
    f.cursor + bytes.length⟩

def target (f : Plain) : SeekFrom → Int
  | .start n => n
  | .end n => f.contents.length + n
  | .current n => f.cursor + n

/-- `none` is the error for a position before byte 0. -/
def seek (f : Plain) (pos : SeekFrom) : Option Nat × Plain :=
  if f.target pos < 0 then (none, f)
  else (some (f.target pos).toNat, { f with cursor := (f.target pos).toNat })

def setLen (f : Plain) (size : Nat) : Plain := { f with contents := resize size f.contents }

end Plain

inductive Op where
  | read (len : Nat)
  | write (buf : List UInt8)
  | seek (pos : SeekFrom)
  | flush
  | syncAll
  | syncData
  | setLen (size : Nat)
  deriving DecidableEq, Repr

/-- The result of an operation. A read also has what it left in the buffer; memory
that was never written has no value. -/
inductive Res where
  | read (n : Nat) (buf : List (Option UInt8))
  | wrote (n : Nat)
  | pos (n : Option Nat)
  | unit
  | error
  deriving DecidableEq, Repr

/-- The file after an operation with this result; `none` if a plain file does not
give this result. A read or a write may be short, but an empty read is the end of
the file. -/
def Plain.perform (f : Plain) : Op → Res → Option Plain
  | .read len, .read n buf =>
    if n ≤ len ∧ buf = (f.rest.take n).map some ∧ buf.length = n ∧ (n = 0 → f.rest = []) then
      some { f with cursor := f.cursor + n }
    else none
  | .write buf, .wrote n =>
    if n ≤ buf.length ∧ (n = 0 → buf = []) then some (f.write (buf.take n)) else none
  | .seek pos, .pos n => if n = (f.seek pos).1 then some (f.seek pos).2 else none
  | .flush, .unit | .syncAll, .unit | .syncData, .unit => some f
  | .setLen size, .unit => some (f.setLen size)
  | _, _ => none

/-- A plain file performs a list of operations, with the results it is to give. -/
def Plain.replay (f : Plain) : List (Op × Res) → Option Plain
  | [] => some f
  | (op, res) :: log => (f.perform op res).bind fun g => g.replay log

theorem length_resize (n : Nat) (l : List UInt8) : (resize n l).length = n := by
  simp only [resize, List.length_append, List.length_take, List.length_replicate]
  omega

theorem resize_of_le {n : Nat} {l : List UInt8} (h : n ≤ l.length) : resize n l = l.take n := by
  rw [resize, Nat.sub_eq_zero_of_le h, List.replicate_zero, List.append_nil]

namespace Plain

theorem write_nil (f : Plain) : f.write [] = f := if_pos rfl

/-- Two writes in a row are one. -/
theorem write_append (f : Plain) (a b : List UInt8) : (f.write a).write b = f.write (a ++ b) := by
  by_cases ha : a = []
  · rw [ha, write_nil, List.nil_append]
  by_cases hb : b = []
  · rw [hb, write_nil, List.append_nil]
  have hlen : (resize f.cursor f.contents ++ a).length = f.cursor + a.length := by
    rw [List.length_append, length_resize]
  rw [write, write, write, if_neg ha, if_neg hb, if_neg (by simp [ha]), Plain.mk.injEq]
  refine ⟨?_, ?_⟩
  · rw [resize_of_le (by rw [List.length_append, hlen]; exact Nat.le_add_right _ _),
      ← hlen, List.take_left, List.drop_append, hlen, List.drop_drop]
    simp [hlen, Nat.add_assoc]
  · simp [Nat.add_assoc]

theorem seek_start (f : Plain) (n : Nat) :
    f.seek (.start n) = (some n, { f with cursor := n }) := by
  rw [seek, if_neg (by simp [target])]
  simp [target]

theorem seek_current_zero (f : Plain) : f.seek (.current 0) = (some f.cursor, f) := by
  rw [seek, if_neg (by simp [target])]
  simp [target]

theorem replay_append (f : Plain) (log : List (Op × Res)) (op : Op) (res : Res) :
    f.replay (log ++ [(op, res)]) = (f.replay log).bind fun g => g.perform op res := by
  induction log generalizing f with
  | nil =>
    show (f.perform op res).bind (fun g => g.replay []) = f.perform op res
    cases f.perform op res <;> rfl
  | cons entry log ih =>
    rw [List.cons_append, replay, replay]
    cases f.perform entry.1 entry.2 with
    | none => rfl
    | some g => exact ih g

end Plain

end Cynthia.Fs
