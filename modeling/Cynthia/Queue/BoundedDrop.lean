import Cynthia.Queue.BoundedReads

/-! `Drop` of `Bounded`: it runs when nobody else has the queue. -/

namespace Cynthia.Queue.Bounded

open Transition Linearizability

variable {α : Type}

section Code

variable (cap : Capacity)

/-- The loop of `drop` from the round `i` on, with `n` rounds to go. It gives the values
that it has dropped; `none` is a slot beyond the buffer or one that holds no value. -/
def dropLoop (hix : Nat) : Nat → Nat → (Nat → Slot α) → Option (List α)
  | 0, _, _ => some []
  | n + 1, i, buffer =>
    let index := if hix + i < cap.val then hix + i else hix + i - cap.val
    if index < cap.val then do
      let value ← (buffer index).value
      let rest ← dropLoop hix n (i + 1)
        (Function.update buffer index { buffer index with value := none })
      some (value :: rest)
    else none

/-- `Drop::drop`. -/
def drop (q : Bounded α) : Option (List α) := do
  let len ← lenFrom cap q.tail q.head
  dropLoop cap (indexOf cap q.head) len 0 q.buffer

end Code

/-- No call is in progress. -/
def Quiet (s : State α) : Prop := ∀ id, s.calls id = .idle ∨ s.calls id = .done

/-- The push that is going to write the value of the ticket `n`. -/
def Writes (cap : Capacity) (pc : Pc α) (n : Nat) : Prop :=
  ∃ v, pc = .pushWrite v (cap.word n)

/-- The ticket is claimed by a push and not by a pop, and its slot holds nothing. -/
def Missing (cap : Capacity) (s : State α) (n : Nat) : Prop :=
  s.popped ≤ n ∧ n < s.pushed ∧ (s.queue.buffer (n % cap.val)).value = none

/-- What is missing has a push at it. -/
def Owed (cap : Capacity) (s : State α) : Prop :=
  ∀ n, Missing cap s n → ∃ id, Writes cap (s.calls id) n

section Steps

variable {cap : Capacity} {s t : State α} {g : Ghost α} {id : Nat}

theorem mod_ne_of_lt {n m : Nat} (hlt : n < m) (hm : m < n + cap.val) :
    n % cap.val ≠ m % cap.val := by
  intro heq
  have hdvd := (Nat.modEq_iff_dvd' hlt.le).mp heq
  have := Nat.eq_zero_of_dvd_of_lt hdvd (by omega)
  omega

theorem Owed.step {pc : Pc α} (h : Owed cap s) (hcalls : t.calls = Function.update s.calls id pc)
    (hopen : ∀ n, Missing cap t n → Missing cap s n ∨ Writes cap pc n)
    (hpaid : ∀ n, Writes cap (s.calls id) n → Missing cap t n → Writes cap pc n) : Owed cap t := by
  intro n
  rw [hcalls]
  exact owed_update (h n) (hopen n) (hpaid n)

/-- A step that neither claims nor writes nor takes a value. -/
theorem Owed.keep {pc : Pc α} (h : Owed cap s) (hcalls : t.calls = Function.update s.calls id pc)
    (hpushed : t.pushed = s.pushed) (hpopped : t.popped = s.popped)
    (hvalue : ∀ i, (t.queue.buffer i).value = (s.queue.buffer i).value)
    (hwrites : ∀ n, ¬Writes cap (s.calls id) n) : Owed cap t := by
  refine h.step hcalls (fun n hm => .inl ?_) fun n hw => absurd hw (hwrites n)
  rwa [Missing, hpushed, hpopped, hvalue] at hm

theorem Owed.goto {pc : Pc α} (h : Owed cap s) (hwrites : ∀ n, ¬Writes cap (s.calls id) n) :
    Owed cap (s.goto id pc) :=
  h.keep rfl rfl rfl (fun _ => rfl) hwrites

theorem Owed.ret {res : Res α} (h : Owed cap s) (hwrites : ∀ n, ¬Writes cap (s.calls id) n) :
    Owed cap (s.ret id res) :=
  h.keep rfl rfl rfl (fun _ => rfl) hwrites

theorem Owed.stamp {i stamp : Nat} (h : Owed cap s) :
    Owed cap (s.setSlot i { s.queue.buffer i with stamp := stamp }) := by
  refine fun n hm => h n ⟨hm.1, hm.2.1, ?_⟩
  have hnone := hm.2.2
  by_cases hn : n % cap.val = i
  · subst hn
    simpa [State.setSlot] using hnone
  · simpa [State.setSlot, hn] using hnone

theorem Owed.pushLoop {v : α} (h : Owed cap s) (hwrites : ∀ n, ¬Writes cap (s.calls id) n) :
    Owed cap (pushLoop cap s id v) := by
  unfold Bounded.pushLoop
  split
  · exact h.ret hwrites
  · exact h.keep rfl rfl rfl (fun _ => rfl) hwrites

theorem Owed.popLoop (h : Owed cap s) (hwrites : ∀ n, ¬Writes cap (s.calls id) n) :
    Owed cap (popLoop s id) :=
  h.keep rfl rfl rfl (fun _ => rfl) hwrites

/-- The push that claims a ticket owes its value. -/
theorem Owed.pushClaim {v : α} {w w' : Nat} (h : Owed cap s) (hword : w = cap.word s.pushed)
    (hwrites : ∀ n, ¬Writes cap (s.calls id) n) :
    Owed cap ({ s.setTail w' with pushed := s.pushed + 1 }.goto id (.pushWrite v w)) := by
  refine h.step rfl ?_ fun n hw => absurd hw (hwrites n)
  rintro n ⟨hle, hlt, hnone⟩
  have hlt : n < s.pushed + 1 := hlt
  rcases Nat.lt_succ_iff_lt_or_eq.mp hlt with hold | rfl
  · exact .inl ⟨hle, hold, hnone⟩
  · exact .inr ⟨v, by rw [hword]⟩

theorem Owed.popClaim {w w' : Nat} (h : Owed cap s) (hwrites : ∀ n, ¬Writes cap (s.calls id) n) :
    Owed cap ({ s.setHead w' with popped := s.popped + 1 }.goto id (.popRead w)) := by
  refine h.step rfl ?_ fun n hw => absurd hw (hwrites n)
  rintro n ⟨hle, hlt, hnone⟩
  exact .inl ⟨Nat.le_of_succ_le hle, hlt, hnone⟩

theorem Owed.pushWrite {v : α} {tail : Nat} (h : Owed cap s) (hinv : Inv cap s g)
    (hpc : s.calls id = .pushWrite v tail) (hslot : AtSlot cap s g id tail (.writing id)) :
    Owed cap ((s.setSlot (indexOf cap tail)
      { s.queue.buffer (indexOf cap tail) with value := some v }).goto id (.pushStore tail)) := by
  have hplaced := (hinv.slots _ (cap.mod_lt (s.seen id))).placed
  rw [hslot.ticket, hslot.phase] at hplaced
  obtain ⟨hle', hlt'⟩ := hplaced
  rw [hslot.index]
  refine h.step rfl ?_ ?_
  · rintro n ⟨hle, hlt, hnone⟩
    refine .inl ⟨hle, hlt, ?_⟩
    by_cases hn : n % cap.val = s.seen id % cap.val
    · simp [State.goto, State.setSlot, hn] at hnone
    · simpa [State.goto, State.setSlot, hn] using hnone
  · rintro n ⟨v', hv'⟩ ⟨hle, hlt, hnone⟩
    -- both tickets lie between the counters, so that they are the same
    have hle : s.popped ≤ n := hle
    have hlt : n < s.pushed := hlt
    rw [hpc, Pc.pushWrite.injEq, hslot.word] at hv'
    have hcap := hinv.bounded
    have hperiod := cap.val_lt_period
    obtain rfl : s.seen id = n := cap.eq_of_word_eq hv'.2 (by omega) (by omega)
    simp [State.goto, State.setSlot] at hnone

theorem Owed.popRead {head : Nat} {v : Option α} (h : Owed cap s) (hinv : Inv cap s g)
    (hpc : s.calls id = .popRead head) (hslot : AtSlot cap s g id head (.reading id)) :
    Owed cap ((s.setSlot (indexOf cap head)
      { s.queue.buffer (indexOf cap head) with value := none }).goto id (.popStore head v)) := by
  have hplaced := (hinv.slots _ (cap.mod_lt (s.seen id))).placed
  rw [hslot.ticket, hslot.phase] at hplaced
  obtain ⟨hlt', hle'⟩ := hplaced
  rw [hslot.index]
  refine h.step rfl ?_ ?_
  · rintro n ⟨hle, hlt, hnone⟩
    have hle : s.popped ≤ n := hle
    have hlt : n < s.pushed := hlt
    have hne : n % cap.val ≠ s.seen id % cap.val := (mod_ne_of_lt (by omega) (by omega)).symm
    exact .inl ⟨hle, hlt, by simpa [State.goto, State.setSlot, hne] using hnone⟩
  · rintro n ⟨v', hv'⟩
    rw [hpc] at hv'
    cases hv'

theorem exec_owed {weak : Bool} (h : Owed cap s) (hinv : Inv cap s g)
    (ht : exec cap s id weak = some t) : Owed cap t := by
  have hcall := hinv.calls id
  have hother (hne : ∀ v tail, s.calls id ≠ .pushWrite v tail) (n : Nat) :
      ¬Writes cap (s.calls id) n := fun ⟨v, hv⟩ => hne v _ hv
  cases hpc : s.calls id <;> simp only [exec, hpc, reduceCtorEq, Option.some.injEq] at ht <;>
    subst ht <;> rw [hpc] at hcall
  case pushWrite v tail => exact h.pushWrite hinv hpc hcall.2.1
  case popRead head => exact h.popRead hinv hpc hcall.2.1
  all_goals have hwrites := hother (by simp [hpc])
  case pushLoad v => exact h.pushLoop hwrites
  case pushStamp v tail =>
    exact h.goto hwrites
  case pushCas v tail =>
    split
    · rename_i hcas
      refine h.pushClaim ?_ hwrites
      have hword : tail = cap.word (s.seen id) := hcall.2.2.1.word
      calc tail = cap.word (s.seen id) := hword
        _ = cap.marked (s.seen id) false &&& complement cap.markBit :=
          (cap.marked_and_complement _ _).symm
        _ = s.queue.tail &&& complement cap.markBit := by rw [cap.marked_false, ← hword, hcas.2]
        _ = cap.word s.pushed := by rw [hinv.tail, cap.marked_and_complement]
    · exact h.pushLoop hwrites
  case pushHead v tail =>
    split
    · exact h.ret hwrites
    · exact h.goto hwrites
  case pushStore tail => exact h.stamp.ret hwrites
  case popLoad => exact h.popLoop hwrites
  case popStamp head =>
    exact h.goto hwrites
  case popCas head =>
    split
    · exact h.popClaim hwrites
    · exact h.popLoop hwrites
  case popTail head =>
    split
    · exact h.ret hwrites
    · exact h.goto hwrites
  case popStore head v => exact h.stamp.ret hwrites
  case closeOr => exact h.keep rfl rfl rfl (fun _ => rfl) hwrites

theorem step_owed {a : Act α} (h : Owed cap s) (hinv : Inv cap s g)
    (ht : step cap s a = some t) : Owed cap t := by
  cases a with
  | step id weak => exact exec_owed h hinv ht
  | call id op =>
    simp only [step] at ht
    split at ht
    · rename_i hpc
      cases ht
      refine h.keep rfl rfl rfl (fun _ => rfl) ?_
      rintro n ⟨v, hv⟩
      rw [hpc] at hv
      cases hv
    · cases ht

theorem owed_reachable (h : (system cap).ReachableVia (NoStall cap) s) : Owed cap s := by
  have hboth : (∃ g, Inv cap s g) ∧ Owed cap s := by
    refine h.invariant (I := fun s => (∃ g, Inv cap s g) ∧ Owed cap s) ⟨⟨_, inv_new⟩, ?_⟩ ?_
    · exact fun n hm => absurd hm.2.1 (Nat.not_lt_zero n)
    · rintro s a t hok ⟨⟨g, hinv⟩, howed⟩ ht
      exact ⟨inv_step hinv hok ht, step_owed howed hinv ht⟩
  exact hboth.2

end Steps

section Dropping

variable {cap : Capacity} {s : State α}

theorem index_eq {m i : Nat} (hi : i < cap.val) :
    (if m % cap.val + i < cap.val then m % cap.val + i else m % cap.val + i - cap.val) =
      (m + i) % cap.val := by
  have hm := cap.mod_lt m
  have hmod : (m + i) % cap.val = (m % cap.val + i) % cap.val := (Nat.mod_add_mod m cap.val i).symm
  rw [hmod]
  split
  · rename_i hlt
    rw [Nat.mod_eq_of_lt hlt]
  · rename_i hge
    rw [Nat.mod_eq_sub_mod (Nat.le_of_not_lt hge)]
    exact (Nat.mod_eq_of_lt (by omega)).symm

/-- The loop drops the values of as many tickets as it has rounds to go. -/
theorem dropLoop_eq {m : Nat} (values : List α) {i : Nat} {buffer : Nat → Slot α}
    (hle : i + values.length ≤ cap.val)
    (hslots : ∀ k (h : k < values.length),
      (buffer ((m + (i + k)) % cap.val)).value = some values[k]) :
    dropLoop cap (m % cap.val) values.length i buffer = some values := by
  induction values generalizing i buffer with
  | nil => rfl
  | cons v rest ih =>
    rw [List.length_cons] at hle
    have hfirst : (buffer ((m + i) % cap.val)).value = some v := hslots 0 (Nat.succ_pos _)
    have hrest : dropLoop cap (m % cap.val) rest.length (i + 1)
        (Function.update buffer ((m + i) % cap.val)
          { buffer ((m + i) % cap.val) with value := none }) = some rest := by
      refine ih (by omega) fun k hk => ?_
      have hne : (m + (i + 1 + k)) % cap.val ≠ (m + i) % cap.val :=
        (mod_ne_of_lt (by omega) (by omega)).symm
      rw [Function.update_of_ne hne, Nat.add_assoc i 1 k, Nat.add_comm 1 k]
      exact hslots (k + 1) (Nat.succ_lt_succ hk)
    simp only [List.length_cons, dropLoop]
    rw [index_eq (by omega), if_pos (cap.mod_lt _), hfirst, hrest]
    rfl

theorem writes_of_quiet (hquiet : Quiet s) (id n : Nat) : ¬Writes cap (s.calls id) n := by
  rintro ⟨v, hv⟩
  rcases hquiet id with h | h <;> rw [h] at hv <;> cases hv

/-- When all calls have returned the slots between the counters hold their values. -/
theorem Inv.value_of_quiet {g : Ghost α} (hinv : Inv cap s g) (howed : Owed cap s)
    (hquiet : Quiet s) {n : Nat} (hle : s.popped ≤ n) (hlt : n < s.pushed) :
    (s.queue.buffer (n % cap.val)).value = g.values[n]? := by
  have hslot := hinv.slots _ (cap.mod_lt n)
  have hvalue := hslot.value
  have hplaced := hslot.placed
  have hcap := hinv.bounded
  have hindex := hslot.index
  have hsome : (s.queue.buffer (n % cap.val)).value ≠ none := by
    intro hnone
    obtain ⟨id, hw⟩ := howed n ⟨hle, hlt, hnone⟩
    exact writes_of_quiet hquiet id n hw
  have hholds : (g.phase (n % cap.val)).holds = true := by
    by_contra hno
    rw [if_neg hno] at hvalue
    exact hsome hvalue
  -- the ticket of the slot is the one in the window of the buffer
  have hticket : g.ticket (n % cap.val) = n := by
    rcases Nat.lt_trichotomy (g.ticket (n % cap.val)) n with h | h | h
    · refine absurd hindex (mod_ne_of_lt h ?_)
      cases hp : g.phase (n % cap.val) <;>
        simp only [hp, Phase.holds, Placed, Bool.false_eq_true] at hholds hplaced <;> omega
    · exact h
    · refine absurd hindex.symm (mod_ne_of_lt h ?_)
      cases hp : g.phase (n % cap.val) <;>
        simp only [hp, Phase.holds, Placed, Bool.false_eq_true] at hholds hplaced <;> omega
  rw [hvalue, if_pos hholds, hticket]

/-- A call in progress has not returned. -/
theorem Inv.quiet {g : Ghost α} (hinv : Inv cap s g) (hc : Complete s.hist) : Quiet s := by
  intro id
  have hcall := hinv.calls id
  have hclosed {op : Op α} (hopen : Open s id op) : False := by
    obtain ⟨res, hres⟩ := hc.returned hopen.1
    exact hopen.2 res hres
  cases hpc : s.calls id <;> rw [hpc] at hcall
  case idle => exact .inl rfl
  case done => exact .inr rfl
  case pushStore tail =>
    obtain ⟨v, hopen, -⟩ := hcall
    exact (hclosed hopen).elim
  all_goals exact (hclosed hcall.1).elim

/-- What `drop` drops was pushed and not popped, each value once. -/
theorem drop_eq (h : (system cap).ReachableVia (NoStall cap) s) (hc : Complete s.hist) :
    ∃ order values, Linearization (fifo (some cap.val)) s.hist order ∧
      (∀ e ∈ order, .ret e.id e.res ∈ s.hist) ∧
      (pushes order).map some = pops order ++ values.map some ∧
      drop cap s.queue = some values := by
  obtain ⟨g, hinv⟩ := inv_reachable h
  have howed := owed_reachable h
  have hquiet := hinv.quiet hc
  have hlin := hinv.logged.linearization
  refine ⟨g.log, g.values.drop s.popped, hlin, fun e he => hlin.returned hc he, ?_, ?_⟩
  · rw [pushes_eq hlin.legal, hinv.final]
  · have hlen : (g.values.drop s.popped).length = s.pushed - s.popped := hinv.items_length
    have hcap := hinv.bounded
    rw [drop, hinv.tail, hinv.head, lenFrom_word g.closed hinv.ordered hinv.bounded, indexOf,
      cap.word_and_index, Option.bind_eq_bind, Option.bind_some, ← hlen]
    refine dropLoop_eq _ (by omega) fun k hk => ?_
    have hle : s.popped + k < s.pushed := by omega
    rw [Nat.zero_add, hinv.value_of_quiet howed hquiet (Nat.le_add_right _ _) hle,
      List.getElem_drop, List.getElem?_eq_getElem]

end Dropping

section Sequential

variable {cap : Capacity} {s t : State α} {id : Nat}

/-- One call after another: a call begins, and takes its steps, while no other one is
in progress. -/
def Alone (s : State α) : Act α → Prop
  | .call _ _ => Quiet s
  | .step id _ => ∀ j, j ≠ id → s.calls j = .idle ∨ s.calls j = .done

/-- The word that the call goes by is the one of a counter as it is now. -/
def Current (s : State α) (id : Nat) : Prop :=
  (s.calls id).looked = true → s.seen id = s.pushed ∨ s.seen id = s.popped

theorem pushLoop_current {v : α} : Current (pushLoop cap s id v) id := by
  unfold pushLoop
  split
  · simp [Current, State.ret, Pc.looked]
  · exact fun _ => .inl (by simp [State.goto, State.look])

theorem popLoop_current : Current (popLoop s id) id :=
  fun _ => .inr (by simp [popLoop, State.goto, State.look])

theorem goto_current {pc : Pc α} (h : Current s id) (hpc : (s.calls id).looked = true) :
    Current (s.goto id pc) id := fun _ => h hpc

theorem not_looked_current (h : (s.calls id).looked = false) : Current s id :=
  fun hlooked => absurd (h ▸ hlooked) Bool.false_ne_true

theorem exec_current {weak : Bool} (h : Current s id) (ht : exec cap s id weak = some t) :
    Current t id := by
  cases hpc : s.calls id <;> simp only [exec, hpc, reduceCtorEq, Option.some.injEq] at ht <;>
    subst ht
  case pushLoad v => exact pushLoop_current
  case pushCas v tail =>
    split
    · exact not_looked_current (by simp [State.goto, Pc.looked])
    · exact pushLoop_current
  case popLoad => exact popLoop_current
  case popCas head =>
    split
    · exact not_looked_current (by simp [State.goto, Pc.looked])
    · exact popLoop_current
  case pushHead v tail =>
    split
    · exact not_looked_current (by simp [State.ret, Pc.looked])
    · exact not_looked_current (by simp [State.goto, Pc.looked])
  case popTail head =>
    split
    · exact not_looked_current (by simp [State.ret, Pc.looked])
    · exact not_looked_current (by simp [State.goto, Pc.looked])
  case pushStamp v tail => exact goto_current h (by simp [hpc, Pc.looked])
  case popStamp head => exact goto_current h (by simp [hpc, Pc.looked])
  case pushWrite v tail => exact not_looked_current (by simp [State.goto, Pc.looked])
  case popRead head => exact not_looked_current (by simp [State.goto, Pc.looked])
  all_goals exact not_looked_current (by simp [State.ret, Pc.looked])

theorem pushLoop_calls {v : α} {j : Nat} (hj : j ≠ id) :
    (pushLoop cap s id v).calls j = s.calls j := by
  unfold pushLoop
  split <;> exact Function.update_of_ne hj _ _

theorem exec_calls {weak : Bool} (ht : exec cap s id weak = some t) {j : Nat} (hj : j ≠ id) :
    t.calls j = s.calls j := by
  cases hpc : s.calls id <;> simp only [exec, hpc, reduceCtorEq, Option.some.injEq] at ht <;>
    subst ht
  case pushLoad v => exact pushLoop_calls hj
  case pushCas v tail =>
    split
    · exact Function.update_of_ne hj _ _
    · exact pushLoop_calls hj
  case popCas head => split <;> exact Function.update_of_ne hj _ _
  case pushHead v tail => split <;> exact Function.update_of_ne hj _ _
  case popTail head => split <;> exact Function.update_of_ne hj _ _
  all_goals exact Function.update_of_ne hj _ _

/-- No call that is alone sleeps through a period. -/
theorem noStall_of_alone (h : (system cap).ReachableVia Alone s) :
    (system cap).ReachableVia (NoStall cap) s := by
  have hboth : (system cap).ReachableVia (NoStall cap) s ∧ ∀ j, Current s j := by
    refine h.invariant
      (I := fun s => (system cap).ReachableVia (NoStall cap) s ∧ ∀ j, Current s j)
      ⟨.init, fun j => not_looked_current rfl⟩ ?_
    rintro s a t hok ⟨hreach, hcurrent⟩ ht
    cases a with
    | call id op =>
      have hok : NoStall cap s (.call id op) := trivial
      refine ⟨hreach.next hok ht, fun j => ?_⟩
      replace ht : step cap s (.call id op) = some t := ht
      simp only [step] at ht
      split at ht
      · cases ht
        by_cases hj : j = id
        · refine not_looked_current ?_
          cases op <;> simp [State.goto, entry, hj, Pc.looked]
        · intro hlooked
          exact hcurrent j (by simpa [State.goto, hj] using hlooked)
      · cases ht
    | step id weak =>
      obtain ⟨g, hinv⟩ := inv_reachable hreach
      have hperiod : 8 * cap.val ≤ cap.period := Nat.mul_le_mul_right _ cap.eight_le_laps
      have hnow : NoStall cap s (.step id weak) := by
        intro hlooked
        have hpos := cap.pos
        have hord := hinv.ordered
        have hcap := hinv.bounded
        rcases hcurrent id hlooked with hseen | hseen <;> omega
      refine ⟨hreach.next hnow ht, fun j => ?_⟩
      by_cases hj : j = id
      · rw [hj]
        exact exec_current (hcurrent id) ht
      · refine not_looked_current ?_
        rw [exec_calls ht hj]
        rcases hok j hj with hidle | hdone
        · rw [hidle]
          rfl
        · rw [hdone]
          rfl
  exact hboth.1

end Sequential

end Cynthia.Queue.Bounded
