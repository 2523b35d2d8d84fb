import Cynthia.Executor.Tickers
import Mathlib.Data.Set.Card

/-! The registry of the sleeping tickers. Besides what the executor does, `sleep`, `wake` and
`drop` are called on tickers in any order, and `State::notify` at any time. The history of a
ticker says whether it was notified since it last registered its waker. -/

namespace Cynthia.Executor

open Transition

/-- The ticker is not inside one of its methods: it is not polled, `sleep` has returned
`true` to the search, or `wake` has returned. -/
def Pc.between : Pc → Bool
  | .idle | .popQueue | .notify .cas .ready => true
  | _ => false

/-- The executor, and for each ticker whether it was notified since it last registered. -/
structure Registry where
  st : State
  told : Tid → Bool

namespace Registry

def new : Registry := ⟨.new, fun _ => false⟩

/-- The history after a step. -/
def note (r : Registry) (a : Act) : Tid → Bool :=
  match r.st.registering a with
  | some t => Function.update r.told t false
  | none =>
    if r.st.notifying a then fun t =>
      r.told t || (r.st.sleepers.notifiedId.isSome &&
        (r.st.tickers t).id == r.st.sleepers.notifiedId)
    else r.told

inductive Op where
  /-- A step of the executor. -/
  | run (a : Act)
  | sleep (t : Tid) (w : Waker)
  | wake (t : Tid)
  | drop (t : Tid)
  | notify
  deriving DecidableEq, Repr

/-- A ticker that belongs to no runner may be called now. -/
def callable (k : Ticker) : Bool := !k.runner && k.pc.between

def step (r : Registry) : Op → Option Registry
  | .run a => (Executor.step r.st a).map fun s => ⟨s, r.note a⟩
  | .sleep t w =>
    if callable (r.st.tickers t) then
      some { r with st := r.st.setTicker t { r.st.tickers t with pc := .sleepLock, waker := w } }
    else none
  | .wake t =>
    if callable (r.st.tickers t) then some { r with st := r.st.goto t .wakeSwap } else none
  | .drop t =>
    if callable (r.st.tickers t) then some { r with st := r.st.goto t .dropSwap } else none
  | .notify => some { r with st := { r.st with calls := .notify .cas ::ₘ r.st.calls } }

def system : System Registry Op := ⟨new, step⟩

end Registry

/-! ## The list and its history -/

namespace Registry

/-- A ticker with an id was notified since it last registered if its entry is gone. -/
def Told (r : Registry) : Prop :=
  ∀ t i, (r.st.tickers t).id = some i → (r.told t = true ↔ ¬ r.st.sleepers.waiting i)

variable {r r' : Registry} {s : State} {t : Tid}

theorem told_same (h : Told r) (hs : SameList r.st s) : Told ⟨s, r.told⟩ := by
  obtain ⟨hsl, hid⟩ := hs
  intro u i hu
  rw [hsl]
  exact h u i ((hid u).symm.trans hu)

theorem told_inserts (h : Told r) (hids : Ids r.st) (hs : Inserts t r.st s) :
    Told ⟨s, Function.update r.told t false⟩ := by
  obtain ⟨k, w, id, hnone, hins, hid, htk⟩ := hs
  obtain ⟨ids, hok, hmem⟩ := hids.ok
  have hwait := fun j => Sleeper.waiting_insert (j := j) hins
  intro u i hu
  dsimp only at hu ⊢
  rw [htk] at hu
  rcases eq_or_ne u t with rfl | hne
  · rw [Function.update_self] at hu ⊢
    rw [hid] at hu
    cases hu
    simp [hwait]
  · rw [Function.update_of_ne hne] at hu ⊢
    -- the id handed out was nobody's
    have hfresh : i ≠ id := by
      rintro rfl
      exact (Sleeper.ok_insert hok hins).1 ((hmem i).mpr ⟨u, hu⟩)
    rw [h u i hu, hwait, or_iff_left hfresh]

theorem told_updates (h : Told r) (hids : Ids r.st) (hs : Updates t r.st s) :
    Told ⟨s, Function.update r.told t false⟩ := by
  obtain ⟨w, id, hown, hsl, hid⟩ := hs
  intro u i hu
  dsimp only at hu ⊢
  rw [hid] at hu
  rw [hsl, Sleeper.waiting_update]
  rcases eq_or_ne u t with rfl | hne
  · rw [hown] at hu
    cases hu
    simp
  · have hother : i ≠ id := by
      rintro rfl
      exact hne (hids.inj u t i hu hown)
    rw [Function.update_of_ne hne, h u i hu, or_iff_left hother]

theorem told_notifies (h : Told r) (hids : Ids r.st) (hs : Notifies r.st s) :
    Told ⟨s, fun u => r.told u || (r.st.sleepers.notifiedId.isSome &&
      (r.st.tickers u).id == r.st.sleepers.notifiedId)⟩ := by
  obtain ⟨hsl, hid⟩ := hs
  obtain ⟨ids, hok, -⟩ := hids.ok
  intro u i hu
  dsimp only at hu ⊢
  rw [hid] at hu
  rw [hsl, Sleeper.waiting_notify hok, not_and_or, ← h u i hu, hu]
  cases hn : r.st.sleepers.notifiedId with
  | none => simp
  | some j =>
    simp only [Option.isSome_some, Bool.true_and, Bool.or_eq_true, beq_iff_eq, ne_eq, not_not]
    exact or_congr_right eq_comm

theorem told_removes (h : Told r) (hids : Ids r.st) (hs : Removes t r.st s) :
    Told ⟨s, r.told⟩ := by
  obtain ⟨k, id, hown, hsl, hnone, htk⟩ := hs
  obtain ⟨ids, hok, -⟩ := hids.ok
  intro u i hu
  dsimp only at hu ⊢
  rw [htk] at hu
  rcases eq_or_ne u t with rfl | hne
  · rw [Function.update_self, hnone] at hu
    cases hu
  · rw [Function.update_of_ne hne] at hu
    have hother : i ≠ id := by
      rintro rfl
      exact hne (hids.inj u t i hu hown)
    rw [hsl, Sleeper.waiting_remove hok, h u i hu, and_iff_left hother]

/-- The history after a step of the executor is right. -/
theorem told_run {a : Act} (h : Told r) (hids : Ids r.st) (hk : TickersOk r.st)
    (hs : Executor.step r.st a = some s) : Told ⟨s, r.note a⟩ := by
  unfold note
  obtain ⟨t, hreg, hlist⟩ | ⟨hreg, ⟨hnot, hlist⟩ | ⟨hnot, hlist⟩⟩ := step_list hids hk hs
  · rw [hreg]
    obtain hlist | hlist := hlist
    · exact told_inserts h hids hlist
    · exact told_updates h hids hlist
  · rw [hreg, hnot]
    exact told_notifies h hids hlist
  · rw [hreg, hnot]
    obtain hlist | ⟨t, hlist⟩ := hlist
    · exact told_same h hlist
    · exact told_removes h hids hlist

/-! ## Every run -/

structure Inv (r : Registry) : Prop where
  tickers : TickersOk r.st
  ids : Ids r.st
  told : Told r

/-- A call of a method starts outside of the methods, where the ticker has no id in hand. -/
theorem Inv.goto {k : Ticker} (h : Inv r) (hcall : callable (r.st.tickers t) = true)
    (hrunner : k.runner = (r.st.tickers t).runner)
    (hsleeping : k.sleeping = (r.st.tickers t).sleeping)
    (hpc : k.pc = .sleepLock ∨ k.pc = .wakeSwap ∨ k.pc = .dropSwap) :
    Inv { r with st := r.st.setTicker t k } := by
  simp only [callable, Bool.and_eq_true, Bool.not_eq_true'] at hcall
  obtain ⟨hnone, hbetween⟩ := hcall
  have hleaving : k.pc.leaving = (r.st.tickers t).pc.leaving := by
    have hold : (r.st.tickers t).pc.leaving = none := by
      revert hbetween
      unfold Pc.between
      split <;> simp_all [Pc.leaving]
    rw [hold]
    obtain hpc | hpc | hpc := hpc <;> simp [hpc, Pc.leaving]
  have hid : k.id = (r.st.tickers t).id := Ticker.id_congr hsleeping hleaving
  obtain ⟨-, -, hlisted, hroom⟩ := h.tickers t
  refine ⟨h.tickers.update (t := t) rfl (fun _ _ => le_rfl) (fun _ _ hm => hm) ?_,
    h.ids.frame_ticker (t := t) rfl hid fun _ hok => hok,
    told_same h.told (.of_update (t := t) rfl rfl hid)⟩
  refine ⟨?_, ?_, ?_, ?_⟩
  · obtain hpc | hpc | hpc := hpc <;> simp [hpc, Pc.awake]
  · intro hr
    rw [hrunner, hnone] at hr
    cases hr
  · intro hm
    have hr := (hlisted hm).1
    rw [hnone] at hr
    cases hr
  · have hle : (r.st.locals t).length ≤ 512 := Nat.le_of_add_right_le hroom
    obtain hpc | hpc | hpc := hpc <;> simpa [hpc, Pc.room, State.setTicker] using hle

theorem inv_step {a : Op} (h : Inv r) (hs : step r a = some r') : Inv r' := by
  cases a with
  | run a =>
    obtain ⟨s, ht, rfl⟩ := Option.map_eq_some_iff.mp hs
    exact ⟨tickersOk_step h.tickers ht, ids_step h.ids h.tickers ht,
      told_run h.told h.ids h.tickers ht⟩
  | sleep t w =>
    simp only [step] at hs
    split at hs <;> cases hs
    rename_i hcall
    exact h.goto hcall rfl rfl (.inl rfl)
  | wake t =>
    simp only [step] at hs
    split at hs <;> cases hs
    rename_i hcall
    exact h.goto hcall rfl rfl (.inr (.inl rfl))
  | drop t =>
    simp only [step] at hs
    split at hs <;> cases hs
    rename_i hcall
    exact h.goto hcall rfl rfl (.inr (.inr rfl))
  | notify =>
    cases hs
    exact ⟨h.tickers, h.ids.frame (fun _ => rfl) fun _ hok => hok, h.told⟩

theorem inv_of_reachable (hr : system.Reachable r) : Inv r := by
  refine hr.invariant ?_ fun _ _ _ => inv_step
  refine ⟨fun t => ?_, ⟨⟨∅, Sleeper.ok_new, fun i => ?_⟩, fun t u i ht => ?_⟩, fun t i ht => ?_⟩
  · simp [system, new, State.new, Ticker.ok_iff, Ticker.gone, Pc.drained, Pc.room]
  all_goals simp [system, new, State.new, Ticker.gone, Ticker.id, Pc.leaving] at *

end Registry

/-! ## What the list says -/

/-- The ids that tickers have, the free ids, the count and the entries fit together. A ticker
sleeps as long as it has an id: from `insert` to `remove`. -/
structure Consistent (s : State) : Prop where
  distinct : ∀ t u i, (s.tickers t).id = some i → (s.tickers u).id = some i → t = u
  nonzero : ∀ t i, (s.tickers t).id = some i → i ≠ 0
  /-- The ids held and the free ones are `1..k`, each once. -/
  complete : ∃ (held : List Nat) (k : Nat), (∀ i, i ∈ held ↔ ∃ t, (s.tickers t).id = some i) ∧
    (held ++ s.sleepers.freeIds).Perm (List.range' 1 k)
  count : Set.encard {t | (s.tickers t).id ≠ none} = s.sleepers.count
  /-- `count -= 1` does not underflow. -/
  remove : ∀ t i, (s.tickers t).pc.leaving = some i → 0 < s.sleepers.count
  entries : (s.sleepers.wakers.map Prod.fst).Nodup
  held : ∀ i, s.sleepers.waiting i → i ∉ s.sleepers.freeIds ∧ ∃ t, (s.tickers t).id = some i
  isNotified : s.sleepers.isNotified = true ↔
    (∀ t, (s.tickers t).id = none) ∨ ∃ t i, (s.tickers t).id = some i ∧ ¬ s.sleepers.waiting i

section Consistent

variable {s : State} {ids : Finset Nat}

theorem Sleeper.Ok.perm {sl : Sleeper} (h : Sleeper.Ok ids sl) :
    (ids.toList ++ sl.freeIds).Perm (List.range' 1 (sl.count + sl.freeIds.length)) := by
  have hnodup : (ids.toList ++ sl.freeIds).Nodup := by
    refine List.nodup_append.mpr ⟨ids.nodup_toList, h.free_nodup, fun i hi j hj hij => ?_⟩
    exact (h.free j hj).1 (hij ▸ Finset.mem_toList.mp hi)
  have hsub : ids.toList ++ sl.freeIds ⊆ List.range' 1 (sl.count + sl.freeIds.length) := by
    intro i hi
    have hbound : 0 < i ∧ i ≤ sl.count + sl.freeIds.length := by
      rcases List.mem_append.mp hi with hi | hi
      · exact h.bound i (Finset.mem_toList.mp hi)
      · exact (h.free i hi).2
    rw [List.mem_range'_1]
    omega
  refine (hnodup.subperm hsub).perm_of_length_le ?_
  rw [List.length_range', List.length_append, Finset.length_toList, h.card]

/-- An id without an entry: some ticker was notified. -/
theorem Sleeper.Ok.length_lt {sl : Sleeper} {i : Nat} (h : Sleeper.Ok ids sl) (hi : i ∈ ids)
    (hw : ¬ sl.waiting i) : sl.wakers.length < sl.count := by
  rw [← h.card, ← List.length_map (f := Prod.fst), ← List.toFinset_card_of_nodup h.nodup]
  refine Finset.card_lt_card ⟨fun j hj => h.mem j (List.mem_toFinset.mp hj), fun hsub => ?_⟩
  exact hw (List.mem_toFinset.mp (hsub hi))

theorem consistent_of_ids (h : Ids s) (hk : TickersOk s) : Consistent s := by
  obtain ⟨⟨ids, hok, hmem⟩, hinj⟩ := h
  have hleaving : ∀ t i, (s.tickers t).pc.leaving = some i → (s.tickers t).id = some i := by
    intro t i hi
    have hzero : (s.tickers t).sleeping = 0 := by
      refine (hk t).awake ?_
      revert hi
      cases (s.tickers t).pc <;> simp [Pc.leaving, Pc.awake]
    simp [Ticker.id, hzero, hi]
  constructor
  case distinct => exact hinj
  case nonzero => exact fun t i ht => Nat.ne_of_gt (hok.bound i ((hmem i).mpr ⟨t, ht⟩)).1
  case complete =>
    exact ⟨ids.toList, _, fun i => Finset.mem_toList.trans (hmem i), hok.perm⟩
  case count =>
    have himage : (fun t => (s.tickers t).id.getD 0) '' {t | (s.tickers t).id ≠ none} = ids := by
      ext i
      simp only [Set.mem_image, Set.mem_ofPred_eq, Finset.mem_coe, hmem]
      constructor
      · rintro ⟨t, hne, rfl⟩
        obtain ⟨j, hj⟩ := Option.ne_none_iff_exists'.mp hne
        exact ⟨t, by rw [hj]; rfl⟩
      · rintro ⟨t, ht⟩
        exact ⟨t, by simp [ht], by rw [ht]; rfl⟩
    have hinjOn : Set.InjOn (fun t => (s.tickers t).id.getD 0) {t | (s.tickers t).id ≠ none} := by
      intro t ht u hu htu
      obtain ⟨i, hi⟩ := Option.ne_none_iff_exists'.mp ht
      obtain ⟨j, hj⟩ := Option.ne_none_iff_exists'.mp hu
      simp only [hi, hj, Option.getD_some] at htu
      exact hinj t u i hi (htu ▸ hj)
    rw [← hinjOn.encard_image, himage, Set.encard_coe_eq_coe_finsetCard, hok.card]
  case remove =>
    intro t i hi
    rw [← hok.card]
    exact Finset.card_pos.mpr ⟨i, (hmem i).mpr ⟨t, hleaving t i hi⟩⟩
  case entries => exact hok.nodup
  case held =>
    intro i hi
    exact ⟨fun hfree => (hok.free i hfree).1 (hok.mem i hi), (hmem i).mp (hok.mem i hi)⟩
  case isNotified =>
    simp only [Sleeper.isNotified, Bool.or_eq_true, beq_iff_eq, decide_eq_true_eq]
    constructor
    · rintro (hzero | hlt)
      · refine .inl fun t => Option.eq_none_iff_forall_ne_some.mpr fun i hi => ?_
        rw [← hok.card, Finset.card_eq_zero] at hzero
        simpa [hzero] using (hmem i).mpr ⟨t, hi⟩
      · obtain ⟨i, hi, hw⟩ := hok.exists_notified hlt
        obtain ⟨t, ht⟩ := (hmem i).mp hi
        exact .inr ⟨t, i, ht, hw⟩
    · rintro (hnone | ⟨t, i, ht, hw⟩)
      · left
        rw [← hok.card, Finset.card_eq_zero, Finset.eq_empty_iff_forall_notMem]
        intro i hi
        obtain ⟨t, ht⟩ := (hmem i).mp hi
        rw [hnone t] at ht
        cases ht
      · exact .inr (hok.length_lt ((hmem i).mpr ⟨t, ht⟩) hw)

end Consistent

/-- Every run of the executor is a run here. -/
theorem reachable_registry {s : State} (hs : system.Reachable s) :
    ∃ told, Registry.system.Reachable ⟨s, told⟩ := by
  induction hs with
  | init => exact ⟨_, .init⟩
  | next hs hok ht ih =>
    rename_i s s' a
    obtain ⟨told, hr⟩ := ih
    have hstep : Executor.step s a = some s' := ht
    refine ⟨Registry.note ⟨s, told⟩ a, hr.next (a := .run a) ?_⟩
    simp [Registry.system, Registry.step, hstep]

/-- The runs of the executor are among those with calls in any order, so that what is proved of
the registry under these holds in every state of the executor itself. -/
theorem executor_consistent {s : State} (hs : system.Reachable s) : Consistent s := by
  obtain ⟨told, hr⟩ := reachable_registry hs
  exact consistent_of_ids (Registry.inv_of_reachable hr).ids (Registry.inv_of_reachable hr).tickers

/-- In every state reached by calls of `sleep`, `wake`, `drop` and `State::notify` in any order
the list of sleepers is consistent, and `remove` tells whether the ticker was notified since it
last registered its waker. -/
theorem sleepers_consistent {r : Registry} (hr : Registry.system.Reachable r) :
    Consistent r.st ∧ ∀ t i, (r.st.tickers t).id = some i →
      ((r.st.sleepers.remove i).1 = true ↔ r.told t = true) := by
  obtain ⟨htickers, hids, htold⟩ := Registry.inv_of_reachable hr
  refine ⟨consistent_of_ids hids htickers, fun t i ht => ?_⟩
  rw [htold t i ht]
  simp [Sleeper.remove]

/-- Two tickers sleep, one is notified and about to leave. -/
def wakeOne : List Registry.Op :=
  [.run (.newTicker 0), .run (.newTicker 1),
    .sleep 0 7, .run (.ticker 0 0), .run (.ticker 0 0), .run (.ticker 0 0),
    .sleep 1 8, .run (.ticker 1 0), .run (.ticker 1 0), .run (.ticker 1 0),
    .notify, .run (.call (.notify .cas)), .run (.call (.notify .lock)),
    .wake 1, .run (.ticker 1 0)]

theorem sleepers_consistent_wakeOne :
    ∃ r, Registry.system.run wakeOne = some r ∧ Consistent r.st ∧ r.st.sleepers.count = 2 ∧
      r.told 1 = true ∧ (r.st.sleepers.remove 2).1 = true := by
  obtain ⟨r, hrun, hr, hcount, htold, hid⟩ := Registry.system.exists_of_run
    (P := fun r => r.st.sleepers.count = 2 ∧ r.told 1 = true ∧ (r.st.tickers 1).id = some 2)
    wakeOne (by decide)
  obtain ⟨hconsistent, hremove⟩ := sleepers_consistent hr
  exact ⟨r, hrun, hconsistent, hcount, htold, (hremove 1 2 hid).mpr htold⟩

end Cynthia.Executor
