import Cynthia.Lock.Barrier

/-! The generations of a barrier: the calls in the order in which they first take the lock,
cut into groups of `n`. The number of the group is the generation, as long as that does
not wrap around. -/

namespace Cynthia.Lock.Barrier

open Transition Channels Census

variable {n : Nat} {s t : State} {f g k : Nat} {elapsed : Bool} {sh sh' : Shared} {pc old : Pc}
  {m : Mutex.Shared} {started : Nat}

/-! ## The mutex -/

/-- The state as the mutex sees it. -/
def State.mutex (s : State) : Mutex.State := ⟨s.sh.mutex, s.started, Pc.mutexPc ∘ s.calls⟩

theorem mutexPc_locked (gen : Option Nat) (pc : Mutex.Pc) : (locked gen pc).mutexPc = pc := by
  cases pc <;> first | rfl | (cases gen <;> rfl)

theorem mutexPc_unlocked (gen : Nat) (pc : Mutex.Pc) : (unlocked gen pc).mutexPc = pc := by
  cases pc <;> rfl

theorem mutexPc_finished (isLeader : Bool) (pc : Mutex.Pc) :
    (finished isLeader pc).mutexPc = pc := by
  cases pc <;> rfl

/-- To the mutex a step is one of its own steps, nothing, the drop of the guard, or a call
that is over and locks again. -/
theorem exec_mutex (he : exec n sh f elapsed old = some (pc, sh')) :
    Mutex.exec sh.mutex f elapsed old.mutexPc = some (pc.mutexPc, sh'.mutex) ∨
    sh'.mutex = sh.mutex ∧ (pc.mutexPc = old.mutexPc ∨ old.mutexPc.dropGuard = some pc.mutexPc ∨
      old.mutexPc = .done ∧ pc.mutexPc = .lock) := by
  cases old with
  | locking gen mpc =>
    obtain ⟨r, hr, heq⟩ := Option.map_eq_some_iff.mp he
    cases heq
    rw [mutexPc_locked]
    exact .inl hr
  | unlocking gen mpc =>
    obtain ⟨r, hr, heq⟩ := Option.map_eq_some_iff.mp he
    cases heq
    rw [mutexPc_unlocked]
    exact .inl hr
  | returning isLeader mpc =>
    obtain ⟨r, hr, heq⟩ := Option.map_eq_some_iff.mp he
    cases heq
    rw [mutexPc_finished]
    exact .inl hr
  | enter =>
    simp only [exec, Option.some.injEq] at he
    split at he <;> cases he <;> exact .inr ⟨rfl, .inl rfl⟩
  | check gen =>
    simp only [exec, Option.some.injEq] at he
    cases he
    split
    · exact .inr ⟨rfl, .inl rfl⟩
    · exact .inr ⟨rfl, .inr (.inl rfl)⟩
  | await gen =>
    simp only [exec, Option.some.injEq] at he
    split at he <;> cases he
    · exact .inr ⟨rfl, .inr (.inr ⟨rfl, rfl⟩)⟩
    · exact .inr ⟨rfl, .inl rfl⟩
  | listen gen | notify =>
    cases he
    exact .inr ⟨rfl, .inr (.inl rfl)⟩
  | unborn | suspended gen | returned isLeader => cases he

theorem goto_mutex (s : State) (f : Nat) (pc : Pc) :
    (s.goto f pc).mutex = s.mutex.goto f pc.mutexPc := by
  simp only [State.mutex, State.goto, Mutex.State.goto, Function.comp_update]

theorem goto_mutex_self (h : pc.mutexPc = (s.calls f).mutexPc) :
    s.mutex.goto f pc.mutexPc = s.mutex := by
  have hself : Function.update s.mutex.calls f pc.mutexPc = s.mutex.calls := by
    rw [h]
    exact Function.update_eq_self f s.mutex.calls
  rw [Mutex.State.goto, hself]

theorem mutex_exec (h : Mutex.Inv s.mutex) (hf : f < s.started)
    (he : exec n s.sh f elapsed (s.calls f) = some (pc, sh')) :
    Mutex.Inv { s.goto f pc with sh := sh' }.mutex := by
  obtain hm | ⟨hsame, hkeep⟩ := exec_mutex he
  · refine Mutex.inv_step (a := .step f elapsed) h ?_
    simp only [Mutex.step, State.mutex, Function.comp_apply, hm, Option.map_some]
    simp only [Mutex.State.goto, State.goto, Function.comp_update]
  · have hgoto : { s.goto f pc with sh := sh' }.mutex = s.mutex.goto f pc.mutexPc := by
      rw [← goto_mutex]
      simp only [State.mutex, hsame, State.goto]
    rw [hgoto]
    obtain hpc | hdrop | ⟨hdone, hlock⟩ := hkeep
    · rw [goto_mutex_self hpc]
      exact h
    · exact Mutex.inv_resume h (.inr (.inr hdrop))
    · rw [hlock]
      exact Mutex.inv_relock h hf hdone

theorem mutex_poll (h : Mutex.Inv s.mutex) (he : (s.calls f).poll = some pc) :
    Mutex.Inv (s.goto f pc).mutex := by
  rw [goto_mutex]
  cases hpc : s.calls f with
  | suspended gen =>
    rw [hpc] at he
    cases he
    have hself : (Pc.await gen).mutexPc = (s.calls f).mutexPc := by
      rw [hpc]
      rfl
    rw [goto_mutex_self hself]
    exact h
  | locking gen mpc =>
    rw [hpc] at he
    obtain ⟨mpc', hpoll, rfl⟩ := Option.map_eq_some_iff.mp he
    refine Mutex.inv_resume h (.inl ?_)
    simpa [State.mutex, hpc, Pc.mutexPc] using hpoll
  | _ => rw [hpc] at he; cases he

/-- One call has the lock. -/
theorem holder_unique (h : Mutex.Inv s.mutex) (hf : (s.calls f).mutexPc = .holding)
    (hg : (s.calls g).mutexPc = .holding) : f = g := by
  have hlt : ∀ i, (s.calls i).mutexPc = .holding → i < s.started := by
    intro i hi
    refine h.fresh.lt ?_
    simp [State.mutex, hi]
  refine h.exact.unique (hlt f hf) (hlt g hg) ?_ ?_
  · simp [State.mutex, hf, Mutex.Pc.holds]
  · simp [State.mutex, hg, Mutex.Pc.holds]

/-! ## The groups -/

/-- The group of the `k`-th arrival has all its members. -/
def Complete (n entered k : Nat) : Prop := (k / n + 1) * n ≤ entered

instance (n entered k : Nat) : Decidable (Complete n entered k) :=
  inferInstanceAs (Decidable (_ ≤ _))

/-- What is known of the `k`-th arrival at each place. -/
def Place (n entered k : Nat) : Pc → Prop
  | .unborn | .locking none _ => False
  | .enter => k = entered
  | .locking (some gen) _ | .check gen | .unlocking gen _ | .await gen | .suspended gen =>
    gen = k / n % 2 ^ 64 ∧ k < entered ∧ k % n ≠ n - 1
  | .listen gen => (gen = k / n % 2 ^ 64 ∧ k < entered ∧ k % n ≠ n - 1) ∧ ¬ Complete n entered k
  | .notify => k % n = n - 1 ∧ Complete n entered k
  | .returning isLeader _ | .returned isLeader =>
    (isLeader = true ↔ k % n = n - 1) ∧ Complete n entered k

structure Inv (n : Nat) (s : State) : Prop where
  fresh : Fresh .unborn s.started s.calls
  mutex : Mutex.Inv s.mutex
  registered : Registered Pc.listens s.sh.event s.calls
  count : s.sh.count = s.entered % n
  generation : s.sh.generationId = s.entered / n % 2 ^ 64
  nodup : s.arrivals.Nodup
  arrived : ∀ f, f ∈ s.arrivals ↔ (s.calls f).arrived = true
  place : ∀ f k, s.arrivals[k]? = some f → Place n s.entered k (s.calls f)
  length : (∀ f, s.calls f ≠ .enter) → s.arrivals.length = s.entered
  length_le : s.arrivals.length ≤ s.entered + 1
  entered_le : s.entered ≤ s.arrivals.length
  notified : (∀ f, s.calls f ≠ .notify) → ∀ f k, (f, false) ∈ s.sh.event →
    s.arrivals[k]? = some f → ¬ Complete n s.entered k

theorem Place.mono {entered' : Nat} (h : Place n s.entered k pc) (hle : s.entered ≤ entered')
    (hpc : pc.mutexPc ≠ .holding) : Place n entered' k pc := by
  have hmono : Complete n s.entered k → Complete n entered' k := fun hc => Nat.le_trans hc hle
  cases pc with
  | unborn => exact h
  | locking gen mpc =>
    cases gen with
    | none => exact h
    | some gen => exact ⟨h.1, Nat.lt_of_lt_of_le h.2.1 hle, h.2.2⟩
  | unlocking gen mpc => exact ⟨h.1, Nat.lt_of_lt_of_le h.2.1 hle, h.2.2⟩
  | await gen | suspended gen => exact ⟨h.1, Nat.lt_of_lt_of_le h.2.1 hle, h.2.2⟩
  | returning isLeader mpc | returned isLeader => exact ⟨h.1, hmono h.2⟩
  | enter | check gen | listen gen | notify => exact absurd rfl hpc

theorem complete_iff (hn : 1 ≤ n) {entered : Nat} : Complete n entered k ↔ k / n < entered / n := by
  rw [Complete, ← Nat.le_div_iff_mul_le hn]
  exact Iff.rfl

/-- The generation that the `k`-th arrival has read is the current one exactly while its
group is not complete. -/
theorem generation_eq_iff (hn : 1 ≤ n) {entered : Nat} (hk : k < entered)
    (hbound : entered / n < 2 ^ 64) :
    k / n % 2 ^ 64 = entered / n % 2 ^ 64 ↔ ¬ Complete n entered k := by
  have hle : k / n ≤ entered / n := Nat.div_le_div_right (Nat.le_of_lt hk)
  rw [complete_iff hn, Nat.mod_eq_of_lt hbound, Nat.mod_eq_of_lt (Nat.lt_of_le_of_lt hle hbound)]
  omega

/-! ## The steps -/

theorem inv_new : Inv n .new where
  fresh _ _ := rfl
  mutex := Mutex.inv_new
  registered := .empty fun _ => rfl
  count := (Nat.zero_mod n).symm
  generation := by simp [State.new]
  nodup := List.nodup_nil
  arrived f := by simp [State.new, Pc.arrived]
  place f k hk := by simp [State.new] at hk
  length _ := rfl
  length_le := Nat.zero_le _
  entered_le := Nat.le_refl _
  notified _ f k hf := by simp [State.new] at hf

/-- A step of a call that does not count itself and does not arrive. -/
theorem Inv.move (h : Inv n s) (hfresh : Fresh .unborn started (s.goto f pc).calls)
    (hpc : s.calls f = old) (hm : Mutex.Inv { s.goto f pc with sh := sh', started }.mutex)
    (hreg : Registered Pc.listens sh'.event (Function.update s.calls f pc))
    (hcount : sh'.count = s.sh.count) (hgen : sh'.generationId = s.sh.generationId)
    (hold : old ≠ .enter) (harrived : pc.arrived = old.arrived)
    (hplace : ∀ k, s.arrivals[k]? = some f → Place n s.entered k pc)
    (hnotified : (∀ g, (s.goto f pc).calls g ≠ .notify) → ∀ g k, (g, false) ∈ sh'.event →
      s.arrivals[k]? = some g → ¬ Complete n s.entered k) :
    Inv n { s.goto f pc with sh := sh', started } where
  fresh := hfresh
  mutex := hm
  registered := hreg
  count := hcount.trans h.count
  generation := hgen.trans h.generation
  nodup := h.nodup
  arrived g := by
    refine (h.arrived g).trans ?_
    obtain rfl | hne := eq_or_ne g f
    · simp only [State.goto, Function.update_self, harrived, hpc]
    · simp only [State.goto, Function.update_of_ne hne]
  place g k hk := by
    obtain rfl | hne := eq_or_ne g f
    · simpa only [State.goto, Function.update_self] using hplace k hk
    · simpa only [State.goto, Function.update_of_ne hne] using h.place g k hk
  length hnone := by
    apply h.length
    intro g hg
    refine hnone g ?_
    have hne : g ≠ f := by
      rintro rfl
      exact hold (hpc.symm.trans hg)
    simpa only [State.goto, Function.update_of_ne hne] using hg
  length_le := h.length_le
  entered_le := h.entered_le
  notified := hnotified

/-- A step that does not notify and leaves no new listener un-notified. -/
theorem Inv.notified_of_subset {event : Event} (h : Inv n s) (hpc : s.calls f = old)
    (hold : old ≠ .notify)
    (hsub : ∀ g, (g, false) ∈ event → (g, false) ∈ s.sh.event)
    (hnone : ∀ g, (s.goto f pc).calls g ≠ .notify) (g k : Nat) (hg : (g, false) ∈ event)
    (hk : s.arrivals[k]? = some g) : ¬ Complete n s.entered k := by
  refine h.notified ?_ g k (hsub g hg) hk
  intro i hi
  have hne : i ≠ f := by
    rintro rfl
    exact hold (hpc.symm.trans hi)
  refine hnone i ?_
  simpa only [State.goto, Function.update_of_ne hne] using hi

theorem getElem?_concat {l : List Nat} (hk : (l ++ [f])[k]? = some g) :
    l[k]? = some g ∨ k = l.length ∧ g = f := by
  rw [List.getElem?_append] at hk
  split at hk
  · exact .inl hk
  · rw [List.getElem?_singleton] at hk
    split at hk
    · cases hk
      exact .inr ⟨by omega, rfl⟩
    · cases hk

/-- The lock is taken for the first time. -/
theorem Inv.arrive (h : Inv n s) (hf : f < s.started) (hpc : (s.calls f).arrived = false)
    (hm : Mutex.Inv { s.goto f .enter with sh := { s.sh with mutex := m } }.mutex) :
    Inv n { s.goto f .enter with
      sh := { s.sh with mutex := m }
      arrivals := s.arrivals ++ [f] } := by
  have hnot : f ∉ s.arrivals := by simp [h.arrived f, hpc]
  have hothers : ∀ g, s.calls g ≠ .enter := by
    intro g hg
    have hne : g ≠ f := by
      rintro rfl
      simp [hg, Pc.arrived] at hpc
    refine hne (holder_unique hm ?_ ?_)
    · simp only [State.goto, Function.update_of_ne hne, hg]
      rfl
    · simp only [State.goto, Function.update_self]
      rfl
  have hlen := h.length hothers
  refine
    { fresh := h.fresh.update hf, mutex := hm, registered := ?_, count := h.count,
      generation := h.generation, nodup := ?_, arrived := ?_, place := ?_, length := ?_,
      length_le := ?_, entered_le := ?_, notified := ?_ }
  · refine h.registered.frame rfl ?_
    revert hpc
    cases s.calls f <;> simp [Pc.arrived, Pc.listens]
  · rw [← List.concat_eq_append]
    exact h.nodup.concat hnot
  · intro g
    obtain rfl | hne := eq_or_ne g f
    · simp [State.goto, Pc.arrived]
    · simpa [State.goto, hne] using h.arrived g
  · intro g k hk
    obtain hmem | ⟨rfl, rfl⟩ := getElem?_concat hk
    · have hne : g ≠ f := by
        rintro rfl
        exact hnot (List.mem_of_getElem? hmem)
      simpa only [State.goto, Function.update_of_ne hne] using h.place g k hmem
    · simp only [State.goto, Function.update_self]
      exact hlen
  · intro hnone
    exact absurd (Function.update_self (β := fun _ => Pc) f .enter s.calls) (hnone f)
  · simp [State.goto, hlen]
  · simp [State.goto, hlen]
  · intro hnone g k hg hk
    have hne : g ≠ f := by
      rintro rfl
      have := h.registered.owner hg
      revert hpc this
      cases s.calls g <;> simp [Pc.arrived, Pc.listens]
    have hold : s.calls f ≠ .notify := by
      intro hnotify
      simp [hnotify, Pc.arrived] at hpc
    obtain hk | ⟨-, rfl⟩ := getElem?_concat hk
    · exact h.notified_of_subset rfl hold (fun _ => id) hnone g k hg hk
    · exact absurd rfl hne

/-- What counting itself does to the numbers. -/
theorem entered_succ (hn : 1 ≤ n) (e : Nat) :
    e % n + 1 < n ∧ (e + 1) % n = e % n + 1 ∧ (e + 1) / n = e / n ∨
      e % n + 1 = n ∧ (e + 1) % n = 0 ∧ (e + 1) / n = e / n + 1 := by
  have hlt := Nat.mod_lt e hn
  have hdiv : e + 1 = n * (e / n) + (e % n + 1) := by
    rw [← Nat.add_assoc, Nat.div_add_mod]
  rcases Nat.lt_or_ge (e % n + 1) n with h | h
  · refine .inl ⟨h, ?_, ?_⟩
    · rw [hdiv, Nat.mul_add_mod, Nat.mod_eq_of_lt h]
    · rw [hdiv, Nat.mul_add_div hn, Nat.div_eq_of_lt h, Nat.add_zero]
  · have heq : e % n + 1 = n := by omega
    rw [heq, ← Nat.mul_succ] at hdiv
    refine .inr ⟨heq, ?_, ?_⟩
    · rw [hdiv, Nat.mul_mod_right]
    · rw [hdiv, Nat.mul_div_cancel_left _ hn]

/-- The call counts itself. -/
theorem Inv.counted (hn : 1 ≤ n) (h : Inv n s) (hf : f < s.started) (hold : s.calls f = .enter)
    (hm : Mutex.Inv { s.goto f pc with sh := sh' }.mutex)
    (hpc : pc.listens = false ∧ pc.arrived = true) (hevent : sh'.event = s.sh.event)
    (hcount : sh'.count = (s.entered + 1) % n)
    (hgen : sh'.generationId = (s.entered + 1) / n % 2 ^ 64)
    (hplace : Place n (s.entered + 1) s.entered pc)
    (hsame : pc ≠ .notify → (s.entered + 1) / n = s.entered / n) :
    Inv n { s.goto f pc with sh := sh', entered := s.entered + 1 } := by
  obtain ⟨hlistens, harrived⟩ := hpc
  have hmem : f ∈ s.arrivals := by simp [h.arrived f, hold, Pc.arrived]
  have hindex : ∀ k, s.arrivals[k]? = some f → k = s.entered := by
    intro k hk
    have := h.place f k hk
    rwa [hold] at this
  have hlen : s.arrivals.length = s.entered + 1 := by
    obtain ⟨k, hlt, hk⟩ := List.mem_iff_getElem.mp hmem
    have hpos := hindex k (by rw [List.getElem?_eq_getElem hlt, hk])
    have := h.length_le
    omega
  have hothers : ∀ g, g ≠ f → (s.calls g).mutexPc ≠ .holding := by
    intro g hne hg
    exact hne (holder_unique h.mutex hg (by rw [hold]; rfl))
  refine
    { fresh := h.fresh.update hf, mutex := hm, registered := ?_, count := hcount,
      generation := hgen, nodup := h.nodup, arrived := ?_, place := ?_, length := fun _ => hlen,
      length_le := ?_, entered_le := Nat.le_of_eq hlen.symm, notified := ?_ }
  · refine h.registered.frame (by rw [hevent]) ?_
    rw [hold, hlistens]
    rfl
  · intro g
    refine (h.arrived g).trans ?_
    obtain rfl | hne := eq_or_ne g f
    · rw [hold]
      simp only [State.goto, Function.update_self]
      exact ⟨fun _ => harrived, fun _ => rfl⟩
    · simp only [State.goto, Function.update_of_ne hne]
  · intro g k hk
    obtain rfl | hne := eq_or_ne g f
    · simp only [State.goto, Function.update_self]
      exact hindex k hk ▸ hplace
    · simp only [State.goto, Function.update_of_ne hne]
      exact (h.place g k hk).mono (Nat.le_succ _) (hothers g hne)
  · exact Nat.le_trans h.length_le (Nat.le_succ _)
  · intro hnone g k hg hk
    have hnotify : pc ≠ .notify := by
      have := hnone f
      simpa [State.goto] using this
    simp only [hevent] at hg
    rw [complete_iff hn, hsame hnotify, ← complete_iff hn]
    exact h.notified_of_subset hold nofun (fun _ => id) hnone g k hg hk

theorem Inv.enter (hn : 1 ≤ n) (h : Inv n s) (hf : f < s.started) (hold : s.calls f = .enter)
    (hm : Mutex.Inv { s.goto f pc with sh := sh' }.mutex)
    (he : exec n s.sh f elapsed .enter = some (pc, sh')) :
    Inv n { s.goto f pc with sh := sh', entered := s.entered + 1 } := by
  have hcount := h.count
  have hgen := h.generation
  simp only [exec, Option.some.injEq] at he
  obtain ⟨hlt, hmod, hdiv⟩ | ⟨heq, hmod, hdiv⟩ := entered_succ hn s.entered
  · rw [if_pos (by omega)] at he
    cases he
    refine h.counted hn hf hold hm ⟨rfl, rfl⟩ rfl ?_ ?_ ?_ fun _ => hdiv
    · simp only [hmod, hcount]
    · simp only [hdiv, hgen]
    · exact ⟨hgen, Nat.lt_succ_self _, by omega⟩
  · rw [if_neg (by omega)] at he
    cases he
    refine h.counted hn hf hold hm ⟨rfl, rfl⟩ rfl hmod.symm ?_ ?_ fun hne => absurd rfl hne
    · simp only [hdiv, hgen, Nat.mod_add_mod]
    · refine ⟨by omega, ?_⟩
      rw [complete_iff hn, hdiv]
      exact Nat.lt_succ_self _

/-- Steps that only the mutex takes part in. -/
theorem Inv.mutex_move (h : Inv n s) (hf : f < s.started) (hpc : s.calls f = old)
    (hm : Mutex.Inv { s.goto f pc with sh := { s.sh with mutex := m } }.mutex)
    (hold : old ≠ .enter ∧ old ≠ .notify) (hlistens : pc.listens = old.listens)
    (harrived : pc.arrived = old.arrived)
    (hplace : ∀ k, s.arrivals[k]? = some f → Place n s.entered k old → Place n s.entered k pc) :
    Inv n { s.goto f pc with sh := { s.sh with mutex := m } } := by
  subst hpc
  exact h.move (h.fresh.update hf) rfl hm (h.registered.frame rfl hlistens) rfl rfl hold.1
    harrived (fun k hk => hplace k hk (h.place f k hk))
    (h.notified_of_subset rfl hold.2 fun _ => id)

theorem locked_place (gen : Option Nat) (mpc mpc' : Mutex.Pc) :
    locked gen mpc' = .enter ∧ gen = none ∨ locked gen mpc' ≠ .enter ∧
      (locked gen mpc').listens = false ∧
      (locked gen mpc').arrived = (Pc.locking gen mpc).arrived ∧
      ∀ entered k, Place n entered k (.locking gen mpc) → Place n entered k (locked gen mpc') := by
  by_cases hm : mpc' = .holding
  · subst hm
    cases gen with
    | none => exact .inl ⟨rfl, rfl⟩
    | some gen => exact .inr ⟨nofun, rfl, rfl, fun _ _ h => h⟩
  · have hlocked : locked gen mpc' = .locking gen mpc' := by cases mpc' <;> simp_all [locked]
    rw [hlocked]
    cases gen <;> exact .inr ⟨nofun, rfl, rfl, fun _ _ h => h⟩

theorem unlocked_place (gen : Nat) (mpc mpc' : Mutex.Pc) :
    unlocked gen mpc' ≠ .enter ∧ (unlocked gen mpc').listens = true ∧
      (unlocked gen mpc').arrived = true ∧ ∀ entered k,
        Place n entered k (.unlocking gen mpc) → Place n entered k (unlocked gen mpc') := by
  cases mpc' <;> exact ⟨nofun, rfl, rfl, fun _ _ h => h⟩

theorem finished_place (isLeader : Bool) (mpc mpc' : Mutex.Pc) :
    finished isLeader mpc' ≠ .enter ∧ (finished isLeader mpc').listens = false ∧
      (finished isLeader mpc').arrived = true ∧ ∀ entered k,
        Place n entered k (.returning isLeader mpc) →
          Place n entered k (finished isLeader mpc') := by
  cases mpc' <;> exact ⟨nofun, rfl, rfl, fun _ _ h => h⟩

theorem Inv.exec (hn : 1 ≤ n) (hbound : s.arrivals.length / n < 2 ^ 64) (h : Inv n s)
    (he : Barrier.exec n s.sh f elapsed (s.calls f) = some (pc, sh')) :
    Inv n { s.goto f pc with
      sh := sh'
      arrivals := if pc = .enter then s.arrivals ++ [f] else s.arrivals
      entered := if s.calls f = .enter then s.entered + 1 else s.entered } := by
  have hf : f < s.started := by
    apply h.fresh.lt
    intro hpc
    simp [hpc, Barrier.exec] at he
  have hm := mutex_exec h.mutex hf he
  have hplace := h.place f
  cases hpc : s.calls f with
  | locking gen mpc =>
    rw [hpc] at he
    obtain ⟨⟨mpc', m⟩, hr, heq⟩ := Option.map_eq_some_iff.mp he
    cases heq
    obtain ⟨henter, rfl⟩ | ⟨hne, hlistens, harrived, hkeep⟩ := locked_place (n := n) gen mpc mpc'
    · simp only [henter, reduceCtorEq, ↓reduceIte] at hm ⊢
      exact h.arrive hf (by rw [hpc]; rfl) hm
    · simp only [hne, reduceCtorEq, ↓reduceIte]
      exact h.mutex_move hf hpc hm ⟨nofun, nofun⟩ hlistens harrived
        fun k _ => hkeep s.entered k
  | unlocking gen mpc =>
    rw [hpc] at he
    obtain ⟨⟨mpc', m⟩, hr, heq⟩ := Option.map_eq_some_iff.mp he
    cases heq
    obtain ⟨hne, hlistens, harrived, hkeep⟩ := unlocked_place (n := n) gen mpc mpc'
    simp only [hne, reduceCtorEq, ↓reduceIte]
    exact h.mutex_move hf hpc hm ⟨nofun, nofun⟩ hlistens harrived
      fun k _ => hkeep s.entered k
  | returning isLeader mpc =>
    rw [hpc] at he
    obtain ⟨⟨mpc', m⟩, hr, heq⟩ := Option.map_eq_some_iff.mp he
    cases heq
    obtain ⟨hne, hlistens, harrived, hkeep⟩ := finished_place (n := n) isLeader mpc mpc'
    simp only [hne, reduceCtorEq, ↓reduceIte]
    exact h.mutex_move hf hpc hm ⟨nofun, nofun⟩ hlistens harrived
      fun k _ => hkeep s.entered k
  | enter =>
    rw [hpc] at he
    have hne : pc ≠ .enter := by
      rintro rfl
      simp only [Barrier.exec, Option.some.injEq] at he
      split at he <;> cases he
    simp only [hne, ↓reduceIte]
    exact h.enter hn hf hpc hm he
  | check gen =>
    rw [hpc] at he
    have hlt : s.sh.count < n := h.count ▸ Nat.mod_lt _ hn
    have hentered : s.entered / n < 2 ^ 64 :=
      Nat.lt_of_le_of_lt (Nat.div_le_div_right h.entered_le) hbound
    by_cases hgen : gen = s.sh.generationId
    · simp only [Barrier.exec, hgen, hlt, and_self, ↓reduceIte] at he
      cases he
      simp only [reduceCtorEq, ↓reduceIte]
      refine h.mutex_move hf hpc hm ⟨nofun, nofun⟩ rfl rfl ?_
      intro k hk ⟨hk', hbefore, hlast⟩
      rw [hgen] at hk'
      refine ⟨⟨hk', hbefore, hlast⟩, ?_⟩
      rw [← generation_eq_iff hn hbefore hentered, ← hk', h.generation]
    · simp only [Barrier.exec, hgen, false_and, ↓reduceIte] at he
      cases he
      simp only [reduceCtorEq, ↓reduceIte]
      refine h.mutex_move hf hpc hm ⟨nofun, nofun⟩ rfl rfl ?_
      intro k hk ⟨hk', hbefore, hlast⟩
      refine ⟨⟨nofun, fun heq => absurd heq hlast⟩, ?_⟩
      by_contra hnot
      rw [← generation_eq_iff hn hbefore hentered, ← hk', ← h.generation] at hnot
      exact hgen hnot
  | listen gen =>
    rw [hpc] at he hplace
    cases he
    simp only [reduceCtorEq, ↓reduceIte]
    refine h.move (h.fresh.update hf) hpc hm (h.registered.listen (by rw [hpc]; rfl) rfl) rfl rfl
      nofun rfl (fun k hk => (hplace k hk).1) ?_
    intro hnone g k hg hk
    obtain hg | hg := List.mem_append.mp hg
    · exact h.notified_of_subset hpc nofun (fun _ => id) hnone g k hg hk
    · obtain rfl : g = f := by simpa using hg
      exact (hplace k hk).2
  | await gen =>
    rw [hpc] at he hplace
    simp only [Barrier.exec, Option.some.injEq] at he
    split at he <;> cases he
    all_goals simp only [reduceCtorEq, ↓reduceIte]
    · exact h.move (h.fresh.update hf) hpc hm (h.registered.remove rfl) rfl rfl nofun rfl
        hplace (h.notified_of_subset hpc nofun fun g hg => (Event.mem_remove.mp hg).1)
    · exact h.mutex_move hf hpc hm ⟨nofun, nofun⟩ rfl rfl fun k _ hk => hk
  | notify =>
    rw [hpc] at he hplace
    cases he
    simp only [reduceCtorEq, ↓reduceIte]
    refine h.move (h.fresh.update hf) hpc hm
      (h.registered.frame (Event.map_fst_notifyAll _) (by rw [hpc]; rfl)) rfl rfl nofun rfl ?_
      fun _ g k hg => absurd hg (Event.not_mem_notifyAll g)
    intro k hk
    exact ⟨⟨fun _ => (hplace k hk).1, fun _ => rfl⟩, (hplace k hk).2⟩
  | unborn | suspended gen | returned isLeader => simp [hpc, Barrier.exec] at he

theorem Inv.poll (h : Inv n s) (he : (s.calls f).poll = some pc) : Inv n (s.goto f pc) := by
  have hf : f < s.started := by
    apply h.fresh.lt
    intro hpc
    simp [hpc, Pc.poll] at he
  have hm := mutex_poll h.mutex he
  cases hpc : s.calls f with
  | suspended gen =>
    rw [hpc] at he
    cases he
    exact h.mutex_move hf hpc hm ⟨nofun, nofun⟩ rfl rfl fun k _ hk => hk
  | locking gen mpc =>
    rw [hpc] at he
    obtain ⟨mpc', -, rfl⟩ := Option.map_eq_some_iff.mp he
    cases gen <;> exact h.mutex_move hf hpc hm ⟨nofun, nofun⟩ rfl rfl fun k _ hk => hk
  | _ => rw [hpc] at he; cases he

theorem Inv.wait (h : Inv n s) : Inv n { s with
    started := s.started + 1
    calls := Function.update s.calls s.started (.locking none .lock) } := by
  have hidle : s.calls s.started = .unborn := h.fresh _ (Nat.le_refl _)
  have hm : Mutex.Inv { s.goto s.started (.locking none .lock) with
      started := s.started + 1 }.mutex := by
    have := Mutex.inv_start h.mutex (.inl rfl)
    simp only [Mutex.State.start, State.mutex, State.goto, Function.comp_update] at this ⊢
    exact this
  refine h.move h.fresh.start hidle hm (h.registered.frame rfl (by rw [hidle]; rfl)) rfl rfl nofun
    rfl ?_ (h.notified_of_subset hidle nofun fun _ => id)
  intro k hk
  have := h.place _ k hk
  rwa [hidle] at this

theorem Inv.step {a : Act} (hn : 1 ≤ n) (hbound : s.arrivals.length / n < 2 ^ 64) (h : Inv n s)
    (ht : Barrier.step n s a = some t) : Inv n t := by
  cases a with
  | wait =>
    cases ht
    exact h.wait
  | poll f =>
    obtain ⟨pc, he, rfl⟩ := Option.map_eq_some_iff.mp ht
    exact h.poll he
  | step f elapsed =>
    obtain ⟨⟨pc, sh⟩, he, rfl⟩ := Option.map_eq_some_iff.mp ht
    exact h.exec hn hbound he

theorem arrivals_step {a : Act} (ht : Barrier.step n s a = some t) :
    s.arrivals.length ≤ t.arrivals.length := by
  cases a with
  | wait =>
    cases ht
    exact Nat.le_refl _
  | poll f =>
    obtain ⟨pc, he, rfl⟩ := Option.map_eq_some_iff.mp ht
    exact Nat.le_refl _
  | step f elapsed =>
    obtain ⟨⟨pc, sh⟩, he, rfl⟩ := Option.map_eq_some_iff.mp ht
    dsimp only
    split
    · simp
    · exact Nat.le_refl _

theorem inv_reachable (hn : 1 ≤ n) (hs : (system n).Reachable s)
    (hbound : s.arrivals.length / n < 2 ^ 64) : Inv n s := by
  refine hs.invariant (I := fun s => s.arrivals.length / n < 2 ^ 64 → Inv n s)
    (fun _ => inv_new) (fun s t a h ht hb => ?_) hbound
  have hs : s.arrivals.length / n < 2 ^ 64 :=
    Nat.lt_of_le_of_lt (Nat.div_le_div_right (arrivals_step ht)) hb
  exact (h hs).step hn hs ht

/-! ## The generations -/

/-- Between polls the lock is free. -/
theorem Inv.free (h : Inv n s) (hrest : ∀ f, (s.calls f).atRest = true) :
    s.sh.mutex.word % 2 = 0 := by
  rcases Nat.mod_two_eq_zero_or_one s.sh.mutex.word with heven | hodd
  · exact heven
  · have hcount := (h.mutex.exact.odd_iff).mp hodd
    obtain ⟨f, -, hf⟩ := exists_of_count_pos (hcount ▸ Nat.one_pos)
    have hf : (s.calls f).mutexPc.holds = true := hf
    have := hrest f
    revert hf this
    cases s.calls f with
    | locking gen mpc => cases mpc <;> simp [Pc.atRest, Pc.mutexPc, Mutex.Pc.holds]
    | _ => simp [Pc.atRest, Pc.mutexPc, Mutex.Pc.holds]

theorem Inv.exists_notified (h : Inv n s) (hrest : ∀ f, (s.calls f).atRest = true)
    (hwait : ∃ f gen starved, s.calls f = .locking gen (.suspended starved)) :
    ∃ f gen starved, s.calls f = .locking gen (.suspended starved) ∧
      (f, true) ∈ s.sh.mutex.lockOps := by
  obtain ⟨f, gen, starved, hf⟩ := hwait
  have hmutex : ∀ g, ((s.calls g).mutexPc).atRest = true := by
    intro g
    have := hrest g
    revert this
    cases s.calls g with
    | locking gen mpc => cases mpc <;> simp [Pc.atRest, Pc.mutexPc, Mutex.Pc.atRest]
    | _ => simp [Pc.atRest, Pc.mutexPc, Mutex.Pc.atRest]
  obtain ⟨g, starved', hg, hmark⟩ := h.mutex.exists_notified hmutex (h.free hrest)
    ⟨f, starved, by simp [State.mutex, hf, Pc.mutexPc]⟩
  have hg : (s.calls g).mutexPc = .suspended starved' := hg
  have := hrest g
  cases hpc : s.calls g with
  | locking gen' mpc =>
    rw [hpc] at hg
    cases hg
    exact ⟨g, gen', starved', hpc, hmark⟩
  | _ => simp_all [Pc.atRest, Pc.mutexPc]

/-- Between polls a member of a complete group that waits for its generation is notified. -/
theorem Inv.woken (h : Inv n s) (hrest : ∀ f, (s.calls f).atRest = true) {gen : Nat}
    (hk : s.arrivals[k]? = some f) (hcomplete : Complete n s.arrivals.length k)
    (hpc : s.calls f = .suspended gen) :
    (f, true) ∈ s.sh.event ∧ (f, false) ∉ s.sh.event := by
  have hpcs : ∀ g, s.calls g ≠ .notify ∧ s.calls g ≠ .enter := by
    intro g
    have := hrest g
    constructor <;> intro hg <;> simp [hg, Pc.atRest] at this
  rw [h.length fun g => (hpcs g).2] at hcomplete
  have hnot : (f, false) ∉ s.sh.event :=
    fun hf => h.notified (fun g => (hpcs g).1) f k hf hk hcomplete
  exact ⟨(h.registered.exists_mark (by rw [hpc]; rfl)).resolve_right hnot, hnot⟩

/-- The calls in the order in which they first took the lock, cut into groups of `n`: a call
that has returned is in a group with `n` members, and it was the leader if it is the last
of them. Between polls, a member of such a group that waits for the event is notified, and
if calls wait for the lock then one of those is. -/
theorem barrier_generations (hn : 1 ≤ n) (hs : (system n).Reachable s)
    (hbound : s.arrivals.length / n < 2 ^ 64) :
    s.arrivals.Nodup ∧ (∀ f, f ∈ s.arrivals ↔ (s.calls f).arrived = true) ∧
    (∀ f isLeader, s.calls f = .returned isLeader → ∃ k, s.arrivals[k]? = some f ∧
      Complete n s.arrivals.length k ∧ (isLeader = true ↔ k % n = n - 1)) ∧
    ((∀ f, (s.calls f).atRest = true) →
      (∀ f gen k, s.arrivals[k]? = some f → Complete n s.arrivals.length k →
        s.calls f = .suspended gen → (f, true) ∈ s.sh.event ∧ (f, false) ∉ s.sh.event) ∧
      ((∃ f gen starved, s.calls f = .locking gen (.suspended starved)) →
        ∃ f gen starved, s.calls f = .locking gen (.suspended starved) ∧
          (f, true) ∈ s.sh.mutex.lockOps)) := by
  have h := inv_reachable hn hs hbound
  refine ⟨h.nodup, h.arrived, ?_, fun hrest => ⟨?_, h.exists_notified hrest⟩⟩
  · intro f isLeader hpc
    obtain ⟨k, hk⟩ := List.mem_iff_getElem?.mp ((h.arrived f).mpr (by rw [hpc]; rfl))
    have hplace := h.place f k hk
    rw [hpc] at hplace
    exact ⟨k, hk, Nat.le_trans hplace.2 h.entered_le, hplace.1⟩
  · intro f gen k hk hcomplete hpc
    exact h.woken hrest hk hcomplete hpc

/-- Two calls wait, a third completes the group; the two are polled while it still has the
lock, and its release wakes only one of them. -/
def lockedOutRun : List Act :=
  Act.wait :: List.replicate 7 (Act.step 0 false) ++
    Act.wait :: List.replicate 7 (Act.step 1 false) ++
    Act.wait :: List.replicate 3 (Act.step 2 false) ++
    Act.poll 0 :: List.replicate 5 (Act.step 0 false) ++
    Act.poll 1 :: List.replicate 5 (Act.step 1 false) ++ List.replicate 2 (Act.step 2 false)

theorem barrier_generations_leader :
    ∃ s, (system 3).Reachable s ∧ s.calls 2 = .returned true ∧
      ∃ k, s.arrivals[k]? = some 2 ∧ Complete 3 s.arrivals.length k ∧ k % 3 = 2 := by
  obtain ⟨s, -, hs, harrivals, hpc⟩ := (system 3).exists_of_run
    (P := fun s => s.arrivals = [0, 1, 2] ∧ s.calls 2 = .returned true) lockedOutRun (by decide)
  obtain ⟨k, hk, hcomplete, hleader⟩ :=
    (barrier_generations (n := 3) (by decide) hs (by rw [harrivals]; decide)).2.2.1 2 true hpc
  exact ⟨s, hs, hpc, k, hk, hcomplete, hleader.mp rfl⟩

/-- A member of a complete group is suspended on a listener of the lock that is not
notified, with no call in the middle of a poll. -/
theorem barrier_member_locked_out :
    ∃ s, (system 3).Reachable s ∧ s.arrivals = [0, 1, 2] ∧ Complete 3 s.arrivals.length 1 ∧
      s.arrivals[1]? = some 1 ∧ (∀ f, (s.calls f).atRest = true) ∧
      s.calls 1 = .locking (some 0) (.suspended false) ∧ (1, false) ∈ s.sh.mutex.lockOps := by
  obtain ⟨s, -, hs, hstarted, harrivals, hrest, hpc, hmem⟩ := (system 3).exists_of_run
    (P := fun s => s.started = 3 ∧ s.arrivals = [0, 1, 2] ∧
      (∀ f ∈ List.range 3, (s.calls f).atRest = true) ∧
      s.calls 1 = .locking (some 0) (.suspended false) ∧ (1, false) ∈ s.sh.mutex.lockOps)
    lockedOutRun (by decide)
  have h := inv_reachable (by decide) hs (by rw [harrivals]; decide)
  refine ⟨s, hs, harrivals, ?_, by rw [harrivals]; rfl, ?_, hpc, hmem⟩
  · rw [harrivals]
    decide
  · refine h.fresh.forall (P := fun _ pc => pc.atRest = true) (fun _ => rfl) ?_
    intro f hf
    exact hrest f (List.mem_range.mpr (hstarted ▸ hf))

end Cynthia.Lock.Barrier
