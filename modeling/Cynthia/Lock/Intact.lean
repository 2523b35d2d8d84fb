import Cynthia.Lock.Waiters
import Cynthia.Lock.Word

/-! What a mutex keeps, whatever the places of its calls are: the word is exact, and
while the lock is free a call that waits is not forgotten. -/

namespace Cynthia.Lock

open Channels Census

variable {π : Type*} {done : π} {starved holds : π → Bool} {role : π → Role} {word word' n f : Nat}
  {e e' : Event} {calls : Nat → π} {c : π}

structure Intact (done : π) (starved holds : π → Bool) (role : π → Role) (word : Nat) (e : Event)
    (n : Nat) (calls : Nat → π) : Prop where
  fresh : Fresh done n calls
  exact : Exact starved holds word n calls
  waiting : Waiting (word % 2 = 0) role e calls

theorem Intact.new (hr : role done = .none) : Intact done starved holds role 0 [] 0 fun _ => done where
  fresh _ _ := rfl
  exact := ⟨rfl, Nat.zero_le 1⟩
  waiting := .empty fun _ => hr

theorem Intact.start (h : Intact done starved holds role word e n calls)
    (hs : starved c = false) (hh : holds c = false) (hr : role c = role done) :
    Intact done starved holds role word e (n + 1) (Function.update calls n c) where
  fresh := h.fresh.start
  exact := h.exact.start hs hh
  waiting := h.waiting.frame id (by rw [hr, h.fresh n (Nat.le_refl n)])

/-- A call moves and keeps its part of the word and its listener. -/
theorem Intact.resume (h : Intact done starved holds role word e n calls) (hf : f < n)
    (hs : starved c = starved (calls f)) (hh : holds c = holds (calls f))
    (ho : (role c).owns = (role (calls f)).owns)
    (hw : (role c).waits = true → (role (calls f)).waits = true)
    (hb : (role (calls f)).busy = false) :
    Intact done starved holds role word e n (Function.update calls f c) where
  fresh := h.fresh.update hf
  exact := h.exact.frame hf hs hh
  waiting := h.waiting.move id ho hw (by simp [hb])

/-- A call steps: the word follows it, and the event is looked after. -/
theorem Intact.step (h : Intact done starved holds role word e n calls) (hf : f < n)
    (hword : (starved (calls f) = true → 2 ≤ word) → (holds (calls f) = true → word % 2 = 1) →
      Follows starved holds word (calls f) word' c)
    (hevent : Waiting (word' % 2 = 0) role e' (Function.update calls f c)) :
    Intact done starved holds role word' e' n (Function.update calls f c) := by
  exact ⟨h.fresh.update hf, h.exact.follow hf hword, hevent⟩

/-- Everybody is at rest and the lock is free: a call that waits means a notified one. -/
theorem Intact.exists_notified (h : Intact done starved holds role word e n calls)
    (hfree : word % 2 = 0) (hidle : ∀ g, (role (calls g)).busy = false)
    (hown : (role (calls f)).owns = true) (hwait : (role (calls f)).waits = true) :
    ∃ g, (role (calls g)).owns = true ∧ (g, true) ∈ e :=
  h.waiting.covered.exists_notified h.waiting.registered hfree hidle hown hwait

end Cynthia.Lock
