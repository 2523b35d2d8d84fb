import Mathlib.Data.Nat.Bitwise

/-! The state word of a task, `runtime/task/state.rs`. The model keeps the word
as a record of its eight flags and its reference field; `Word.toNat` is the
machine word, and the lemmas say that the bit operations of the source act on
the record field by field. -/

namespace Cynthia.Task

def SCHEDULED : Nat := 1 <<< 0
def RUNNING : Nat := 1 <<< 1
def COMPLETED : Nat := 1 <<< 2
def CLOSED : Nat := 1 <<< 3
def TASK : Nat := 1 <<< 4
def AWAITER : Nat := 1 <<< 5
def REGISTERING : Nat := 1 <<< 6
def NOTIFYING : Nat := 1 <<< 7
def REFERENCE : Nat := 1 <<< 8

structure Word where
  scheduled : Bool
  running : Bool
  completed : Bool
  closed : Bool
  task : Bool
  awaiter : Bool
  registering : Bool
  notifying : Bool
  refs : Nat
  deriving DecidableEq, Repr

namespace Word

/-- The machine word, least significant bit first. -/
def toNat (w : Word) : Nat :=
  Nat.bit w.scheduled <| Nat.bit w.running <| Nat.bit w.completed <| Nat.bit w.closed <|
    Nat.bit w.task <| Nat.bit w.awaiter <| Nat.bit w.registering <| Nat.bit w.notifying w.refs

/-- `SCHEDULED | TASK | REFERENCE`, the word of a fresh task. -/
def spawned : Word := ⟨true, false, false, false, true, false, false, false, 1⟩

/-- `SCHEDULED | CLOSED | REFERENCE`, the word of a task that is scheduled once
more so that its future is dropped. -/
def lastRun : Word := ⟨true, false, false, true, false, false, false, false, 1⟩

theorem toNat_spawned : spawned.toNat = SCHEDULED ||| TASK ||| REFERENCE := rfl

theorem toNat_lastRun : lastRun.toNat = SCHEDULED ||| CLOSED ||| REFERENCE := rfl

/-- `fetch_or` and `|`, flag by flag; with a mask below `REFERENCE` the reference
field is untouched. -/
theorem toNat_lor (v w : Word) :
    v.toNat ||| w.toNat =
      toNat ⟨v.scheduled || w.scheduled, v.running || w.running, v.completed || w.completed,
        v.closed || w.closed, v.task || w.task, v.awaiter || w.awaiter,
        v.registering || w.registering, v.notifying || w.notifying, v.refs ||| w.refs⟩ := by
  simp only [toNat, Nat.lor_bit]

/-- `fetch_and(!mask)` and `& !mask`, flag by flag. -/
theorem toNat_ldiff (v w : Word) :
    Nat.ldiff v.toNat w.toNat =
      toNat ⟨v.scheduled && !w.scheduled, v.running && !w.running, v.completed && !w.completed,
        v.closed && !w.closed, v.task && !w.task, v.awaiter && !w.awaiter,
        v.registering && !w.registering, v.notifying && !w.notifying,
        Nat.ldiff v.refs w.refs⟩ := by
  simp only [toNat, Nat.ldiff_bit]

/-- `& mask`, flag by flag. -/
theorem toNat_land (v w : Word) :
    v.toNat &&& w.toNat =
      toNat ⟨v.scheduled && w.scheduled, v.running && w.running, v.completed && w.completed,
        v.closed && w.closed, v.task && w.task, v.awaiter && w.awaiter,
        v.registering && w.registering, v.notifying && w.notifying, v.refs &&& w.refs⟩ := by
  simp only [toNat, Nat.land_bit]

/-- `fetch_add(REFERENCE)` and, read from right to left, `fetch_sub(REFERENCE)`. -/
theorem toNat_add_reference (w : Word) :
    w.toNat + REFERENCE = toNat { w with refs := w.refs + 1 } := by
  simp only [toNat, Nat.bit_val, REFERENCE]
  omega

private theorem bit_inj_iff {a b : Bool} {m n : Nat} : Nat.bit a m = Nat.bit b n ↔ a = b ∧ m = n := by
  constructor
  · intro h
    have hb := congrArg Nat.bodd h
    have hd := congrArg Nat.div2 h
    rw [Nat.bodd_bit, Nat.bodd_bit] at hb
    rw [Nat.div2_bit, Nat.div2_bit] at hd
    exact ⟨hb, hd⟩
  · rintro ⟨rfl, rfl⟩
    rfl

/-- A compare-exchange on the machine word compares the records. -/
theorem toNat_injective : Function.Injective toNat := by
  intro v w h
  obtain ⟨s, r, c, d, t, a, g, n, k⟩ := v
  obtain ⟨s', r', c', d', t', a', g', n', k'⟩ := w
  simpa only [toNat, bit_inj_iff, mk.injEq] using h

end Word

end Cynthia.Task
