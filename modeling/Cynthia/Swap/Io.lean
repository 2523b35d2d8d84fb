import Mathlib.Algebra.Group.Int.Defs
import Mathlib.Algebra.Group.Nat.Defs

/-! What the readers and writers of `future/swap.rs` answer. -/

namespace Cynthia.Swap

inductive ErrorKind where
  | interrupted
  | writeZero
  | other (code : Nat)
  deriving DecidableEq, Repr

/-- `Poll<Result<T>>`. -/
inductive Poll (α : Type) where
  | pending
  | ok (a : α)
  | error (e : ErrorKind)
  deriving DecidableEq, Repr

inductive SeekFrom where
  | start (n : Nat)
  | end (n : Int)
  | current (n : Int)
  deriving DecidableEq, Repr

end Cynthia.Swap
