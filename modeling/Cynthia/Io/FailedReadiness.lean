import Cynthia.Io.FailedModify
import Cynthia.Io.Readiness

/-! Readiness where `poller.modify` may fail. A call that fails answers with its error and
leaves the ticks as they are, and the events that `react` loses then are handled for nobody. -/

namespace Cynthia.Io.FailedModify

open Transition Reactor

variable {s t : State} {r u : Reactor.State} {id f : Nat}

/-- The future that took the lock of a source last has been made. -/
def Holding (s : State) : Prop :=
  ∀ id f, s.holder id = some f → (s.reactor.futures f).stage ≠ .unborn

theorem made_step {a : Reactor.Act} (h : Reactor.step r a = some u)
    (hf : (r.futures f).stage ≠ .unborn) : (u.futures f).stage ≠ .unborn := by
  cases a <;>
    simp only [Reactor.step, addIo, addPoller, addUndo, removeIo, removePoller, pollReady,
      newFuture, pollFuture, dropFuture, ticksStep, modifyStep, collect, reactStep] at h
  all_goals repeat' split at h
  all_goals cases h
  all_goals try exact hf
  -- the steps of one future
  all_goals
    simp only [setCell, setFuture, Function.update_apply]
    split
    · simp_all
    · exact hf

theorem holding_step {a : Reactor.Act} (h : Holding s) (hu : Reactor.step s.reactor a = some u) :
    Holding ⟨u, holderAfter s a⟩ := by
  have hkept : ∀ id f, s.holder id = some f → (u.futures f).stage ≠ .unborn :=
    fun id f hf => made_step hu (h id f hf)
  intro id f hf
  cases a with
  | pollReady other dir cx =>
    simp only [holderAfter, Function.update_apply] at hf
    split at hf
    · cases hf
    · exact hkept id f hf
  | pollFuture g cx =>
    simp only [holderAfter, Function.update_apply] at hf
    split at hf
    · obtain rfl := Option.some.inj hf
      refine made_step hu fun hunborn => ?_
      simp [Reactor.step, pollFuture, hunborn] at hu
    · exact hkept id f hf
  | _ => exact hkept id f hf

theorem holding_fail (h : Holding s) (ht : fail s id = some t) : Holding t := by
  unfold fail at ht
  dsimp only at ht
  repeat' split at ht
  · obtain rfl := Option.some.inj ht
    exact h
  · rename_i g _
    obtain rfl := Option.some.inj ht
    intro other f hf
    simp only [setFuture, Function.update_apply]
    split
    · exact FutureStage.noConfusion
    · exact h other f hf
  · cases ht

theorem holding_failReact (h : Holding s) (ht : failReact s = some t) : Holding t := by
  unfold failReact at ht
  dsimp only at ht
  repeat' split at ht
  · obtain rfl := Option.some.inj ht
    exact h
  all_goals cases ht

theorem held_fail (hb : Holding s) (h : Held s.reactor) (ht : fail s id = some t) :
    Held t.reactor := by
  unfold fail at ht
  dsimp only at ht
  split at ht
  · have hset : Held (setCell s.reactor id { s.reactor.cells id with crit := .free }) :=
      h.setCell rfl rfl le_rfl fun _ _ _ _ _ hx => Crit.noConfusion hx
    split at ht
    · obtain rfl := Option.some.inj ht
      exact hset
    · rename_i f hf
      obtain rfl := Option.some.inj ht
      exact held_setFuture (s := setCell s.reactor id _) rfl rfl rfl (hb id f hf) rfl rfl
        (fun hx => FutureStage.noConfusion hx) hset
  · cases ht

theorem held_failReact (h : Held s.reactor) (ht : failReact s = some t) : Held t.reactor := by
  unfold failReact at ht
  split at ht
  · dsimp only at ht
    split at ht
    · obtain rfl := Option.some.inj ht
      exact h.setCell rfl rfl le_rfl fun _ _ _ _ _ hx => Crit.noConfusion hx
    · cases ht
  · cases ht

theorem stamped_fail (h : Stamped s.reactor) (ht : fail s id = some t) : Stamped t.reactor := by
  unfold fail at ht
  dsimp only at ht
  split at ht
  · have hset : Stamped (setCell s.reactor id { s.reactor.cells id with crit := .free }) :=
      h.quiet (quiet_setStage ⟨rfl, rfl, rfl, rfl, rfl, rfl, fun _ _ hx => hx⟩ rfl rfl rfl rfl rfl)
    split at ht
    · obtain rfl := Option.some.inj ht
      exact hset
    · obtain rfl := Option.some.inj ht
      exact hset.quiet (quiet_setFuture ⟨rfl, rfl, rfl, rfl, rfl, rfl, fun _ _ hx => hx⟩ rfl
        (futuresKept_update rfl rfl rfl fun _ hx => .inl hx) (.inl rfl))
  · cases ht

/-- The events that are lost leave nothing pending. -/
theorem stamped_failReact (h : Stamped s.reactor) (ht : failReact s = some t) :
    Stamped t.reactor := by
  unfold failReact at ht
  split at ht
  · rename_i id _
    dsimp only at ht
    split at ht
    · obtain rfl := Option.some.inj ht
      have hset : Stamped (setCell s.reactor id { s.reactor.cells id with crit := .free }) :=
        h.quiet (quiet_setStage ⟨rfl, rfl, rfl, rfl, rfl, rfl, fun _ _ hx => hx⟩ rfl rfl rfl rfl
          rfl)
      exact { hset with
        tick := fun hidle => absurd rfl hidle
        pending := fun c hc => absurd hc List.not_mem_nil
        sound := fun hlt id dir τ hrec => { hset.sound hlt id dir τ hrec with } }
    · cases ht
  · cases ht

theorem stamped_of_reachable (hs : system.Reachable s) :
    Slab s.reactor ∧ Holding s ∧ Held s.reactor ∧ Stamped s.reactor := by
  refine hs.invariant (M := system)
    (I := fun s => Slab s.reactor ∧ Holding s ∧ Held s.reactor ∧ Stamped s.reactor)
    ⟨slab_new, fun _ _ hf => (by cases hf), held_new, stamped_new⟩ ?_
  rintro s a t ⟨hslab, hholding, hheld, hstamped⟩ ht
  cases a with
  | act a =>
    obtain ⟨r, hstep, rfl⟩ := Option.map_eq_some_iff.mp ht
    exact ⟨slab_step hslab hstep, holding_step hholding hstep, held_step hslab hheld hstep,
      stamped_step hslab hheld hstamped hstep⟩
  | fail id =>
    exact ⟨slab_fail hslab ht, holding_fail hholding ht, held_fail hholding hheld ht,
      stamped_fail hstamped ht⟩
  | failReact =>
    exact ⟨slab_failReact hslab ht, holding_failReact hholding ht, held_failReact hheld ht,
      stamped_failReact hstamped ht⟩

/-- Whatever calls of `poller.modify` fail, a poll is answered ready only for an event that was
delivered to its source and in its direction after it had registered. -/
theorem answers_not_stale (hs : system.Reachable s) (hlt : s.reactor.reacts < 2 ^ 64) :
    ∀ r ∈ s.reactor.answers, ∃ d ∈ s.reactor.delivered,
      d.source = r.source ∧ d.dir = r.dir ∧ r.reacts < d.reacts :=
  (stamped_of_reachable hs).2.2.2.answered hlt

end Cynthia.Io.FailedModify
