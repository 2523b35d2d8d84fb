import Cynthia.Executor.Tickers

/-! The executor does not sleep on runnable work: while a `Runnable` is in the
queue or `notified` is set, somebody is about to look for work or to notify, or
a notified ticker is on its way. -/

namespace Cynthia.Executor

open Transition

attribute [local simp] Pc.urgent Pc.busy Pc.dozing

/-- A ticker that is not, or no longer, in the list of sleepers searches again
before it sleeps. -/
def Ticker.searches (sl : Sleeper) (k : Ticker) : Prop :=
  k.pc.busy = true ∨ (k.pc.dozing = true ∧ (k.sleeping = 0 ∨ ¬sl.waiting k.sleeping))

def Call.busy : Call → Bool
  | .notify .cas | .notify .lock => true
  | _ => false

structure Progress (s : State) : Prop where
  /-- Why `notified` may be set. -/
  warm : s.notified = true → .notify .lock ∈ s.calls ∨
    (∃ t, (s.tickers t).pc.urgent = true) ∨ s.sleepers.isNotified = true
  /-- Why the queue may hold something. -/
  covered : s.queue ≠ [] → (∃ c ∈ s.calls, c.busy = true) ∨
    (∃ t, (s.tickers t).searches s.sleepers) ∨ s.sleepers.isNotified = true

theorem Pc.busy_of_urgent {pc : Pc} (h : pc.urgent = true) : pc.busy = true := by
  unfold Pc.urgent at h
  split at h <;> first | rfl | cases h

section Progress

variable {s s' : State} {t : Tid}

/-- `notified` explains the queue, too. -/
theorem Progress.covered_of_warm (h : Progress s) (hn : s.notified = true) :
    (∃ c ∈ s.calls, c.busy = true) ∨ (∃ t, (s.tickers t).pc.urgent = true) ∨
      s.sleepers.isNotified = true := by
  rcases h.warm hn with hc | ht | hsl
  · exact .inl ⟨_, hc, rfl⟩
  · exact .inr (.inl ht)
  · exact .inr (.inr hsl)

/-- One ticker moves: either it is itself a reason afterwards, or it was none
before and the other reasons are still there. -/
theorem Progress.ticker {k : Ticker} (h : Progress s)
    (htk : s'.tickers = Function.update s.tickers t k) (hcalls : s'.calls = s.calls)
    (hkeep : ∀ u, u ≠ t → (s.tickers u).sleeping ≠ 0 →
      s'.sleepers.waiting (s.tickers u).sleeping → s.sleepers.waiting (s.tickers u).sleeping)
    (hwarm : s'.notified = true → k.pc.urgent = true ∨ s'.sleepers.isNotified = true ∨
      (s.notified = true ∧ (s.tickers t).pc.urgent = false ∧
        (s.sleepers.isNotified = true → s'.sleepers.isNotified = true)))
    (hcovered : s'.queue ≠ [] → k.searches s'.sleepers ∨ s'.sleepers.isNotified = true ∨
      ((s.sleepers.isNotified = true → s'.sleepers.isNotified = true) ∧
        ((s.queue ≠ [] ∧ ¬(s.tickers t).searches s.sleepers) ∨
          (s.notified = true ∧ (s.tickers t).pc.urgent = false)))) : Progress s' := by
  have hself : s'.tickers t = k := by rw [htk, Function.update_self]
  have hother : ∀ u, u ≠ t → s'.tickers u = s.tickers u := by
    intro u hne
    rw [htk, Function.update_of_ne hne]
  constructor
  · intro hn
    rcases hwarm hn with hk | hsl | ⟨hold, hidle, hsl⟩
    · exact .inr (.inl ⟨t, by rw [hself]; exact hk⟩)
    · exact .inr (.inr hsl)
    · rcases h.warm hold with hc | ⟨u, hu⟩ | hsl'
      · exact .inl (hcalls ▸ hc)
      · have hne : u ≠ t := by
          rintro rfl
          rw [hidle] at hu
          cases hu
        exact .inr (.inl ⟨u, by rw [hother u hne]; exact hu⟩)
      · exact .inr (.inr (hsl hsl'))
  · intro hq
    rcases hcovered hq with hk | hsl | ⟨hsl, ⟨hold, hidle⟩ | ⟨hold, hidle⟩⟩
    · exact .inr (.inl ⟨t, by rw [hself]; exact hk⟩)
    · exact .inr (.inr hsl)
    · rcases h.covered hold with ⟨c, hc, hb⟩ | ⟨u, hu⟩ | hsl'
      · exact .inl ⟨c, hcalls ▸ hc, hb⟩
      · have hne : u ≠ t := by
          rintro rfl
          exact hidle hu
        refine .inr (.inl ⟨u, ?_⟩)
        rw [hother u hne]
        rcases hu with hu | ⟨hd, hzero | hnot⟩
        · exact .inl hu
        · exact .inr ⟨hd, .inl hzero⟩
        · by_cases hzero : (s.tickers u).sleeping = 0
          · exact .inr ⟨hd, .inl hzero⟩
          · exact .inr ⟨hd, .inr fun hw => hnot (hkeep u hne hzero hw)⟩
      · exact .inr (.inr (hsl hsl'))
    · rcases h.covered_of_warm hold with ⟨c, hc, hb⟩ | ⟨u, hu⟩ | hsl'
      · exact .inl ⟨c, hcalls ▸ hc, hb⟩
      · have hne : u ≠ t := by
          rintro rfl
          rw [hidle] at hu
          cases hu
        exact .inr (.inl ⟨u, by rw [hother u hne]; exact .inl (Pc.busy_of_urgent hu)⟩)
      · exact .inr (.inr (hsl hsl'))

/-- A ticker moves without touching `notified` or the list of sleepers. -/
theorem Progress.ticker_frame {k : Ticker} (h : Progress s)
    (htk : s'.tickers = Function.update s.tickers t k) (hcalls : s'.calls = s.calls)
    (hsl : s'.sleepers = s.sleepers) (hn : s'.notified = s.notified)
    (hq : s'.queue ≠ [] → s.queue ≠ [] ∨ k.pc.busy = true)
    (hurgent : (s.tickers t).pc.urgent = true → k.pc.urgent = true)
    (hsearch : s'.queue ≠ [] → (s.tickers t).searches s.sleepers → k.searches s.sleepers) :
    Progress s' := by
  refine h.ticker htk hcalls (fun u _ _ hw => hsl ▸ hw) ?_ ?_
  · intro hnot
    by_cases hu : (s.tickers t).pc.urgent = true
    · exact .inl (hurgent hu)
    · exact .inr (.inr ⟨hn ▸ hnot, by simpa using hu, fun h => hsl ▸ h⟩)
  · intro hne
    rcases hq hne with hold | hb
    · by_cases hu : (s.tickers t).searches s.sleepers
      · exact .inl (hsl ▸ hsearch hne hu)
      · exact .inr (.inr ⟨fun h => hsl ▸ h, .inl ⟨hold, hu⟩⟩)
    · exact .inl (.inl hb)

/-- A ticker moves that is no reason for anything. -/
theorem Progress.bystander {k : Ticker} (h : Progress s)
    (htk : s'.tickers = Function.update s.tickers t k) (hcalls : s'.calls = s.calls)
    (hsl : s'.sleepers = s.sleepers) (hn : s'.notified = s.notified) (hq : s'.queue = s.queue)
    (hbusy : (s.tickers t).pc.busy = false) (hdozing : (s.tickers t).pc.dozing = false) :
    Progress s' := by
  refine h.ticker_frame htk hcalls hsl hn (fun hne => .inl (hq ▸ hne)) ?_ ?_
  · intro hu
    exact absurd (Pc.busy_of_urgent hu) (Bool.eq_false_iff.mp hbusy)
  · rintro - (hb | ⟨hd, -⟩)
    · exact absurd hb (Bool.eq_false_iff.mp hbusy)
    · exact absurd hd (Bool.eq_false_iff.mp hdozing)

theorem progress_execSearch {choice : Nat} (h : Progress s) (hk : TickersOk s)
    (hs : s.execSearch t choice = some s') : Progress s' := by
  obtain ⟨k, hsearch⟩ := searched_of_execSearch hk hs
  refine h.ticker_frame hsearch.tickers hsearch.calls hsearch.sleepers hsearch.notified
    (fun hq => .inl (hsearch.queue hq)) ?_ ?_
  · intro hu
    exact absurd hu (Bool.eq_false_iff.mp (Pc.of_searching hsearch.seeks.searching).2.2.2)
  · rintro hq (hb | ⟨hd, hsleep⟩)
    · exact .inl (hsearch.busy hq hb)
    · rcases hsearch.seeks.dozing hd with hd | hb
      · exact .inr ⟨hd, by rwa [hsearch.sleeping]⟩
      · exact .inl hb

/-- Ids of different tickers differ. -/
theorem Ids.sleeping_ne (h : Ids s) {u : Tid} {i : Nat} (hne : u ≠ t)
    (hi : (s.tickers t).id = some i) (hu : (s.tickers u).sleeping ≠ 0) :
    (s.tickers u).sleeping ≠ i := by
  rintro rfl
  exact hne (h.inj u t _ (by simp only [Ticker.id, hu, if_false]) hi)

theorem progress_execSleep (h : Progress s) (hids : Ids s) (hs : s.execSleep t = some s') :
    Progress s' := by
  cases hpc : (s.tickers t).pc <;>
    simp only [State.execSleep, hpc, reduceCtorEq] at hs
  case sleepLock =>
    split at hs
    · cases hs
    split at hs
    · -- the ticker joins the list, sets `notified` and searches once more
      rcases hins : s.sleepers.insert (s.tickers t).waker with ⟨id, sl⟩
      rw [hins] at hs
      obtain rfl := Option.some.inj hs
      obtain ⟨ids, hok, hmem⟩ := hids.ok
      obtain ⟨hnew, -, hwakers, -⟩ := Sleeper.ok_insert hok hins
      refine h.ticker (t := t) rfl rfl ?_ (fun _ => .inl rfl) (fun _ => .inl (.inl rfl))
      intro u hne hu hw
      have hid : (s.tickers u).sleeping ≠ id := by
        rintro rfl
        exact hnew ((hmem _).mpr ⟨u, by simp only [Ticker.id, hu, if_false]⟩)
      simpa [Sleeper.waiting, State.setTicker, hwakers, hid] using hw
    · rename_i hne
      have hown : (s.tickers t).id = some (s.tickers t).sleeping := by
        simp only [Ticker.id, hne, if_false]
      by_cases hw : s.sleepers.waiting (s.tickers t).sleeping
      · -- still in the list: `sleep` returns `false` and the poll is pending
        simp only [Sleeper.update, hw, if_true, Bool.false_eq_true, if_false,
          Option.some.injEq] at hs
        subst hs
        refine h.ticker (t := t) rfl rfl ?_ ?_ ?_
        · intro u _ _ hwu
          simpa [State.goto, State.setTicker, Sleeper.waiting, Sleeper.map_fst_setWaker] using hwu
        · intro hn
          refine .inr (.inr ⟨hn, by rw [hpc]; rfl, ?_⟩)
          simp [State.goto, State.setTicker, Sleeper.isNotified, Sleeper.length_setWaker]
        · intro hq
          refine .inr (.inr ⟨?_, .inl ⟨hq, ?_⟩⟩)
          · simp [State.goto, State.setTicker, Sleeper.isNotified, Sleeper.length_setWaker]
          · simp [Ticker.searches, hpc, Pc.busy, hne, hw]
      · -- notified meanwhile: back into the list and another search
        simp only [Sleeper.update, hw, if_false, if_true, Option.some.injEq] at hs
        subst hs
        refine h.ticker (t := t) rfl rfl ?_ (fun _ => .inl rfl) (fun _ => .inl (.inl rfl))
        intro u hut hu hwu
        have hid := hids.sleeping_ne hut hown hu
        simpa [State.goto, State.setTicker, Sleeper.waiting, hid] using hwu
  case sleepSwap =>
    obtain rfl := Option.some.inj hs
    refine h.ticker (t := t) rfl rfl (fun _ _ _ hw => hw) ?_ (fun _ => .inl (.inl rfl))
    exact fun hn => .inr (.inl hn)
  case sleepUnlock =>
    obtain rfl := Option.some.inj hs
    refine h.ticker_frame (t := t) rfl rfl rfl rfl (fun hq => .inl hq) ?_ ?_
    · rw [hpc]
      intro hu
      cases hu
    · intro _ _
      left
      cases (s.tickers t).runner <;> rfl

/-- After `Sleeper::notify` a notification is outstanding, or nobody sleeps. -/
theorem isNotified_notify {ids : Finset Nat} {sl : Sleeper} (h : Sleeper.Ok ids sl) :
    sl.notify.2.isNotified = true := by
  have hle := h.length_le
  rcases Sleeper.notify_cases sl with ⟨rest, i, v, hlen, hrest, hn⟩ | ⟨hlen, hzero, hn⟩ | ⟨hlen, hn⟩
  · rw [hrest, List.length_append, List.length_singleton] at hlen
    simp only [hn, Sleeper.isNotified, Bool.or_eq_true, decide_eq_true_eq]
    right
    omega
  · simp [hn, Sleeper.isNotified, hzero]
  · simp only [hn, Sleeper.isNotified, Bool.or_eq_true, decide_eq_true_eq]
    right
    omega

theorem waiting_notify {sl : Sleeper} {i : Nat} (h : sl.notify.2.waiting i) : sl.waiting i := by
  rcases Sleeper.notify_cases sl with ⟨rest, j, v, -, hrest, hn⟩ | ⟨-, -, hn⟩ | ⟨-, hn⟩
  · rw [hn] at h
    simp only [Sleeper.waiting, hrest, List.map_append, List.mem_append]
    exact .inl h
  · rwa [hn] at h
  · rwa [hn] at h

theorem waiting_remove {ids : Finset Nat} {sl : Sleeper} (hok : Sleeper.Ok ids sl) {id i : Nat}
    (h : (sl.remove id).2.waiting i) : sl.waiting i := by
  obtain ⟨v, hv⟩ := (Sleeper.waiting_iff i).mp h
  exact (Sleeper.waiting_iff i).mpr ⟨v, ((Sleeper.mem_remove hok i v).mp hv).1⟩

theorem progress_execWake (h : Progress s) (hids : Ids s) (hs : s.execWake t = some s') :
    Progress s' := by
  obtain ⟨ids, hok, -⟩ := hids.ok
  cases hpc : (s.tickers t).pc <;>
    simp only [State.execWake, hpc, reduceCtorEq] at hs
  case notify n after =>
    obtain ⟨⟨next, u⟩, hn, rfl⟩ := Option.map_eq_some_iff.mp hs
    cases n <;> simp only [State.execNotify] at hn
    case cas =>
      split at hn <;> obtain ⟨rfl, rfl⟩ := Prod.mk.inj (Option.some.inj hn)
      · -- `notified` was set: whoever is the reason for it covers the queue
        rename_i hset
        refine h.ticker (t := t) rfl rfl (fun _ _ _ hw => hw) ?_ ?_
        · exact fun hn => .inr (.inr ⟨hn, by rw [hpc]; rfl, fun hsl => hsl⟩)
        · exact fun _ => .inr (.inr ⟨fun hsl => hsl, .inr ⟨hset, by rw [hpc]; rfl⟩⟩)
      · exact h.ticker (t := t) rfl rfl (fun _ _ _ hw => hw) (fun _ => .inl rfl)
          (fun _ => .inl (.inl rfl))
    case lock =>
      split at hn <;> simp only [Option.some.injEq, Prod.mk.injEq, reduceCtorEq] at hn
      obtain ⟨rfl, rfl⟩ := hn
      have hnot := isNotified_notify hok
      exact h.ticker (t := t) rfl rfl (fun _ _ _ hw => waiting_notify hw)
        (fun _ => .inr (.inl hnot)) (fun _ => .inr (.inl hnot))
    case wake w =>
      obtain ⟨rfl, rfl⟩ := Prod.mk.inj (Option.some.inj hn)
      refine h.ticker_frame (t := t) rfl rfl rfl rfl (fun hq => .inl hq) ?_ ?_
      · rw [hpc]
        intro hu
        cases hu
      · intro _ hsearch
        simp [Ticker.searches, hpc, Pc.busy, Pc.dozing] at hsearch
  case wakeLock id =>
    split at hs <;> simp only [Option.some.injEq, reduceCtorEq] at hs
    subst hs
    exact h.ticker (t := t) rfl rfl (fun _ _ _ hw => waiting_remove hok hw) (fun _ => .inl rfl)
      (fun _ => .inl (.inl rfl))
  case wakeFlag =>
    obtain rfl := Option.some.inj hs
    exact h.ticker (t := t) rfl rfl (fun _ _ _ hw => hw) (fun hn => .inr (.inl hn))
      (fun _ => .inl (.inl rfl))
  case wakeSwap =>
    obtain rfl := Option.some.inj hs
    refine h.ticker_frame (t := t) rfl rfl rfl rfl (fun hq => .inl hq) (by simp [hpc]) ?_
    intro _ _
    left
    dsimp only
    split <;> rfl
  case wakeUnlock =>
    obtain rfl := Option.some.inj hs
    exact h.ticker_frame (t := t) rfl rfl rfl rfl (fun hq => .inl hq) (by simp [hpc])
      fun _ _ => .inl rfl
  case tick =>
    obtain rfl := Option.some.inj hs
    exact h.bystander (t := t) rfl rfl rfl rfl rfl (by simp [hpc]) (by simp [hpc])

theorem progress_execDrop (h : Progress s) (hids : Ids s) (hs : s.execDrop t = some s') :
    Progress s' := by
  obtain ⟨ids, hok, -⟩ := hids.ok
  cases hpc : (s.tickers t).pc <;>
    simp only [State.execDrop, hpc, reduceCtorEq] at hs
  case dropLock id =>
    split at hs <;> simp only [Option.some.injEq, reduceCtorEq] at hs
    subst hs
    have hkeep {i : Nat} (hw : (s.sleepers.remove id).2.waiting i) := waiting_remove hok hw
    by_cases hw : s.sleepers.waiting id
    · -- not notified: one ticker less in the list, nothing else
      have hlen := Sleeper.length_remove s.sleepers id
      have hsame : s.sleepers.isNotified = true → (s.sleepers.remove id).2.isNotified = true := by
        rw [if_pos hw] at hlen
        simp only [Sleeper.isNotified, Bool.or_eq_true, beq_iff_eq, decide_eq_true_eq]
        have hcount : (s.sleepers.remove id).2.count = s.sleepers.count - 1 := rfl
        rw [hcount]
        omega
      refine h.ticker (t := t) rfl rfl (fun _ _ _ hwu => hkeep hwu) ?_ ?_
      · exact fun hn => .inr (.inr ⟨hn, by rw [hpc]; rfl, hsame⟩)
      · exact fun hq => .inr (.inr ⟨hsame, .inl ⟨hq, by simp [Ticker.searches, hpc, Pc.busy, Pc.dozing]⟩⟩)
    · -- notified: it will pass the notification on
      have htrue : (s.sleepers.remove id).1 = true := by simp [Sleeper.remove, hw]
      refine h.ticker (t := t) rfl rfl (fun _ _ _ hwu => hkeep hwu) ?_ ?_
      · exact fun _ => .inl (by simp only [htrue]; rfl)
      · exact fun _ => .inl (.inl (by simp only [htrue]; rfl))
  case dropFlag notified =>
    obtain rfl := Option.some.inj hs
    refine h.ticker (t := t) rfl rfl (fun _ _ _ hw => hw) (fun hn => .inr (.inl hn)) ?_
    intro hq
    cases notified with
    | true => exact .inl (.inl rfl)
    | false =>
      exact .inr (.inr ⟨fun hsl => hsl, .inl ⟨hq, by simp [Ticker.searches, hpc, Pc.busy, Pc.dozing]⟩⟩)
  case drainPush r =>
    obtain rfl := Option.some.inj hs
    exact h.ticker_frame (t := t) rfl rfl rfl rfl (fun _ => .inr rfl) (by simp [hpc])
      fun _ _ => .inl rfl
  case dropUnlock notified =>
    obtain rfl := Option.some.inj hs
    cases notified with
    | true =>
      exact h.ticker_frame (t := t) rfl rfl rfl rfl (fun hq => .inl hq) (by simp [hpc])
        fun _ _ => .inl rfl
    | false => exact h.bystander (t := t) rfl rfl rfl rfl rfl (by simp [hpc]) (by simp [hpc])
  case dropRetain | drainPop =>
    split at hs <;> cases hs
    all_goals exact h.bystander (t := t) rfl rfl rfl rfl rfl (by simp [hpc]) (by simp [hpc])
  case dropSwap =>
    obtain rfl := Option.some.inj hs
    exact h.bystander (t := t) rfl rfl rfl rfl rfl (by simp [hpc]) (by simp [hpc])

/-- A call from outside moves. -/
theorem Progress.call {c : Call} {rest : Multiset Call} {next : Option Call} (h : Progress s)
    (hcalls : s.calls = c ::ₘ rest) (htk : s'.tickers = s.tickers)
    (hkeep : ∀ i, s'.sleepers.waiting i → s.sleepers.waiting i)
    (hwarm : s'.notified = true → next = some (.notify .lock) ∨ s'.sleepers.isNotified = true ∨
      (s.notified = true ∧ c ≠ .notify .lock ∧
        (s.sleepers.isNotified = true → s'.sleepers.isNotified = true)))
    (hcovered : s'.queue ≠ [] → (∃ d, next = some d ∧ d.busy = true) ∨
      s'.sleepers.isNotified = true ∨
      ((s.sleepers.isNotified = true → s'.sleepers.isNotified = true) ∧
        ((s.queue ≠ [] ∧ c.busy = false) ∨ (s.notified = true ∧ c ≠ .notify .lock)))) :
    Progress { s' with calls := next.elim rest fun d => d ::ₘ rest } := by
  have hrest : ∀ d ∈ rest, d ∈ next.elim rest fun d => d ::ₘ rest := by
    intro d hd
    cases next with
    | none => exact hd
    | some e => exact Multiset.mem_cons_of_mem hd
  have hold : ∀ d ∈ s.calls, d ≠ c → d ∈ next.elim rest fun d => d ::ₘ rest := by
    intro d hd hne
    rw [hcalls, Multiset.mem_cons] at hd
    exact hrest d (hd.resolve_left hne)
  constructor
  · intro hn
    rcases hwarm hn with rfl | hsl | ⟨hset, hne, hsl⟩
    · exact .inl (Multiset.mem_cons_self _ _)
    · exact .inr (.inr hsl)
    · rcases h.warm hset with hc | ht | hsl'
      · exact .inl (hold _ hc hne.symm)
      · exact .inr (.inl (by rw [htk]; exact ht))
      · exact .inr (.inr (hsl hsl'))
  · intro hq
    rcases hcovered hq with ⟨d, rfl, hd⟩ | hsl | ⟨hsl, ⟨hne, hidle⟩ | ⟨hset, hne⟩⟩
    · exact .inl ⟨d, Multiset.mem_cons_self _ _, hd⟩
    · exact .inr (.inr hsl)
    · rcases h.covered hne with ⟨d, hd, hb⟩ | ⟨t, ht⟩ | hsl'
      · have hdc : d ≠ c := by
          rintro rfl
          rw [hidle] at hb
          cases hb
        exact .inl ⟨d, hold d hd hdc, hb⟩
      · refine .inr (.inl ⟨t, ?_⟩)
        rw [htk]
        rcases ht with ht | ⟨hd, hzero | hnot⟩
        · exact .inl ht
        · exact .inr ⟨hd, .inl hzero⟩
        · exact .inr ⟨hd, .inr fun hw => hnot (hkeep _ hw)⟩
      · exact .inr (.inr (hsl hsl'))
    · rcases h.warm hset with hc | ⟨t, ht⟩ | hsl'
      · exact .inl ⟨_, hold _ hc hne.symm, rfl⟩
      · exact .inr (.inl ⟨t, by rw [htk]; exact .inl (Pc.busy_of_urgent ht)⟩)
      · exact .inr (.inr (hsl hsl'))

theorem progress_execCall {c : Call} {rest : Multiset Call} {next : Option Call} {u : State}
    (h : Progress s) (hids : Ids s) (hcalls : s.calls = c ::ₘ rest)
    (hs : s.execCall c = some (next, u)) :
    Progress { u with calls := next.elim rest fun d => d ::ₘ rest } := by
  obtain ⟨ids, hok, -⟩ := hids.ok
  cases c with
  | push r =>
    obtain ⟨rfl, rfl⟩ := Prod.mk.inj (Option.some.inj hs)
    refine h.call hcalls rfl (fun _ hw => hw) ?_ ?_
    · exact fun hn => .inr (.inr ⟨hn, by simp, fun hsl => hsl⟩)
    · exact fun _ => .inl ⟨_, rfl, rfl⟩
  | tryPop =>
    simp only [State.execCall] at hs
    split at hs
    · rename_i hq
      obtain ⟨rfl, rfl⟩ := Prod.mk.inj (Option.some.inj hs)
      refine h.call hcalls rfl (fun _ hw => hw) ?_ ?_
      · exact fun hn => .inr (.inr ⟨hn, by simp, fun hsl => hsl⟩)
      · exact fun hne => absurd hq hne
    · obtain ⟨rfl, rfl⟩ := Prod.mk.inj (Option.some.inj hs)
      refine h.call hcalls rfl (fun _ hw => hw) ?_ ?_
      · exact fun hn => .inr (.inr ⟨hn, by simp, fun hsl => hsl⟩)
      · exact fun _ => .inl ⟨_, rfl, rfl⟩
  | notify n =>
    obtain ⟨⟨m, v⟩, hn, heq⟩ := Option.map_eq_some_iff.mp hs
    obtain ⟨rfl, rfl⟩ := Prod.mk.inj heq
    cases n <;> simp only [State.execNotify] at hn
    case cas =>
      split at hn <;> obtain ⟨rfl, rfl⟩ := Prod.mk.inj (Option.some.inj hn)
      · rename_i hset
        refine h.call hcalls rfl (fun _ hw => hw) ?_ ?_
        · exact fun hn => .inr (.inr ⟨hn, by simp, fun hsl => hsl⟩)
        · exact fun _ => .inr (.inr ⟨fun hsl => hsl, .inr ⟨hset, by simp⟩⟩)
      · exact h.call hcalls rfl (fun _ hw => hw) (fun _ => .inl rfl)
          (fun _ => .inl ⟨_, rfl, rfl⟩)
    case lock =>
      split at hn <;> simp only [Option.some.injEq, Prod.mk.injEq, reduceCtorEq] at hn
      obtain ⟨rfl, rfl⟩ := hn
      have hnot := isNotified_notify hok
      exact h.call hcalls rfl (fun _ hw => waiting_notify hw) (fun _ => .inr (.inl hnot))
        (fun _ => .inr (.inl hnot))
    case wake w =>
      obtain ⟨rfl, rfl⟩ := Prod.mk.inj (Option.some.inj hn)
      refine h.call hcalls rfl (fun _ hw => hw) ?_ ?_
      · exact fun hn => .inr (.inr ⟨hn, by simp, fun hsl => hsl⟩)
      · exact fun hq => .inr (.inr ⟨fun hsl => hsl, .inl ⟨hq, rfl⟩⟩)

theorem progress_step {a : Act} (h : Progress s) (hids : Ids s) (hk : TickersOk s)
    (hs : step s a = some s') : Progress s' := by
  rcases step_cases hs with ⟨c, -, rfl⟩ | ⟨-, rfl⟩ | ⟨t, -, hpc, rfl⟩ | ⟨t, -, hpc, rfl⟩ |
    ⟨t, w, -, hpc, rfl⟩ | ⟨t, -, hpc, rfl⟩ | ⟨t, choice, -, hs⟩ |
    ⟨c, rest, next, u, -, hcalls, hcall, rfl⟩
  · constructor
    · exact fun hn => (h.warm hn).imp_left Multiset.mem_cons_of_mem
    · exact fun hq => (h.covered hq).imp_left fun ⟨c, hc, hb⟩ => ⟨c, Multiset.mem_cons_of_mem hc, hb⟩
  · constructor
    · exact fun hn => (h.warm hn).imp_left Multiset.mem_cons_of_mem
    · exact fun hq => (h.covered hq).imp_left fun ⟨c, hc, hb⟩ => ⟨c, Multiset.mem_cons_of_mem hc, hb⟩
  -- a ticker that is idle or gone is no reason for anything
  · exact h.bystander (t := t) rfl rfl rfl rfl rfl (by simp [hpc]) (by simp [hpc])
  · exact h.bystander (t := t) rfl rfl rfl rfl rfl (by simp [hpc]) (by simp [hpc])
  · exact h.bystander (t := t) rfl rfl rfl rfl rfl (by simp [hpc]) (by simp [hpc])
  · exact h.bystander (t := t) rfl rfl rfl rfl rfl (by simp [hpc]) (by simp [hpc])
  · rcases hs with hs | hs | hs | hs
    · exact progress_execSearch h hk hs
    · exact progress_execSleep h hids hs
    · exact progress_execWake h hids hs
    · exact progress_execDrop h hids hs
  · exact progress_execCall h hids hcalls hcall

end Progress

/-! ## Notified tickers are woken -/

/-- Somebody has taken the waker out of the list and is about to wake it. -/
def Held (s : State) (w : Waker) : Prop :=
  .notify (.wake w) ∈ s.calls ∨ ∃ u after, (s.tickers u).pc = .notify (.wake w) after

/-- A ticker whose last poll was pending is in the list with the waker of that
poll, or was notified. -/
def Suspended (s : State) : Prop :=
  ∀ t, (s.tickers t).pc = .idle → (s.tickers t).sleeping ≠ 0 →
    ((s.tickers t).sleeping, (s.tickers t).waker) ∈ s.sleepers.wakers ∨
    (¬s.sleepers.waiting (s.tickers t).sleeping ∧
      (s.woken t = true ∨ Held s (s.tickers t).waker))

section Suspended

variable {s s' : State} {t : Tid}

theorem Suspended.ticker {k : Ticker} (h : Suspended s)
    (htk : s'.tickers = Function.update s.tickers t k) (hcalls : s'.calls = s.calls)
    (hwoken : ∀ u, u ≠ t → s.woken u = true → s'.woken u = true)
    (hwake : ∀ w after, (s.tickers t).pc = .notify (.wake w) after →
      ∀ u, u ≠ t → (s.tickers u).waker = w → s'.woken u = true)
    (hkeep : ∀ u, u ≠ t → (s.tickers u).sleeping ≠ 0 →
      s'.sleepers.waiting (s.tickers u).sleeping → s.sleepers.waiting (s.tickers u).sleeping)
    (hlist : ∀ u, u ≠ t → (s.tickers u).sleeping ≠ 0 →
      ((s.tickers u).sleeping, (s.tickers u).waker) ∈ s.sleepers.wakers →
      ((s.tickers u).sleeping, (s.tickers u).waker) ∈ s'.sleepers.wakers ∨
        (¬s'.sleepers.waiting (s.tickers u).sleeping ∧
          ∃ after, k.pc = .notify (.wake (s.tickers u).waker) after))
    (hself : k.pc = .idle → k.sleeping ≠ 0 → (k.sleeping, k.waker) ∈ s'.sleepers.wakers) :
    Suspended s' := by
  intro u hidle hsleep
  rcases eq_or_ne u t with rfl | hne
  · rw [htk, Function.update_self] at hidle hsleep ⊢
    exact .inl (hself hidle hsleep)
  · rw [htk, Function.update_of_ne hne] at hidle hsleep ⊢
    rcases h u hidle hsleep with hin | ⟨hout, hw⟩
    · rcases hlist u hne hsleep hin with hin' | ⟨hout', after, hpc⟩
      · exact .inl hin'
      · refine .inr ⟨hout', .inr (.inr ⟨t, after, ?_⟩)⟩
        rw [htk, Function.update_self, hpc]
    · refine .inr ⟨fun hw' => hout (hkeep u hne hsleep hw'), ?_⟩
      rcases hw with hw | hheld | ⟨v, after, hpc⟩
      · exact .inl (hwoken u hne hw)
      · exact .inr (.inl (hcalls ▸ hheld))
      · rcases eq_or_ne v t with rfl | hvt
        · exact .inl (hwake _ after hpc u hne rfl)
        · exact .inr (.inr ⟨v, after, by rw [htk, Function.update_of_ne hvt, hpc]⟩)

/-- A ticker moves without touching the list of sleepers or a waker. -/
theorem Suspended.ticker_frame {k : Ticker} (h : Suspended s)
    (htk : s'.tickers = Function.update s.tickers t k) (hcalls : s'.calls = s.calls)
    (hwoken : ∀ u, u ≠ t → s'.woken u = s.woken u) (hsl : s'.sleepers = s.sleepers)
    (hpc : ∀ w after, (s.tickers t).pc ≠ .notify (.wake w) after)
    (hself : k.pc = .idle → k.sleeping = 0) : Suspended s' := by
  refine h.ticker htk hcalls (fun u hne hw => (hwoken u hne).trans hw)
    (fun w after heq => absurd heq (hpc w after)) (fun u _ _ hw => hsl ▸ hw) ?_ ?_
  · intro u _ _ hin
    exact .inl (hsl ▸ hin)
  · intro hidle hne
    exact absurd (hself hidle) hne

theorem suspended_execSearch {choice : Nat} (h : Suspended s) (hk : TickersOk s)
    (hs : s.execSearch t choice = some s') : Suspended s' := by
  obtain ⟨k, hsearch⟩ := searched_of_execSearch hk hs
  obtain ⟨-, -, hnn, -⟩ := Pc.of_searching hsearch.seeks.searching
  refine h.ticker_frame hsearch.tickers hsearch.calls (fun u _ => congrFun hsearch.woken u)
    hsearch.sleepers (fun w after => hnn (.wake w) after) fun hidle => ?_
  exact hsearch.sleeping.trans ((hk t).awake (hsearch.seeks.awake (.inl hidle)))

theorem suspended_execSleep (h : Suspended s) (hids : Ids s) (hs : s.execSleep t = some s') :
    Suspended s' := by
  cases hpc : (s.tickers t).pc <;>
    simp only [State.execSleep, hpc, reduceCtorEq] at hs
  case sleepLock =>
    split at hs
    · cases hs
    split at hs
    · rcases hins : s.sleepers.insert (s.tickers t).waker with ⟨id, sl⟩
      rw [hins] at hs
      obtain rfl := Option.some.inj hs
      obtain ⟨ids, hok, hmem⟩ := hids.ok
      obtain ⟨hnew, -, hwakers, -⟩ := Sleeper.ok_insert hok hins
      refine h.ticker (t := t) rfl rfl (fun _ _ hw => hw) (by simp [hpc]) ?_ ?_ ?_
      · intro u _ hu hw
        have hid : (s.tickers u).sleeping ≠ id := by
          rintro rfl
          exact hnew ((hmem _).mpr ⟨u, by simp only [Ticker.id, hu, if_false]⟩)
        simpa [Sleeper.waiting, State.setTicker, hwakers, hid] using hw
      · intro u _ _ hin
        exact .inl (by simp [State.setTicker, hwakers, hin])
      · intro hidle
        cases hidle
    · rename_i hne
      have hown : (s.tickers t).id = some (s.tickers t).sleeping := by
        simp only [Ticker.id, hne, if_false]
      by_cases hw : s.sleepers.waiting (s.tickers t).sleeping
      · simp only [Sleeper.update, hw, if_true, Bool.false_eq_true, if_false,
          Option.some.injEq] at hs
        subst hs
        refine h.ticker (t := t) rfl rfl (fun _ _ hw => hw) (by simp [hpc]) ?_ ?_ ?_
        · intro u _ _ hwu
          simpa [State.goto, State.setTicker, Sleeper.waiting, Sleeper.map_fst_setWaker] using hwu
        · intro u hut hu hin
          have hid := hids.sleeping_ne hut hown hu
          exact .inl ((Sleeper.mem_setWaker_of_ne hid).mpr hin)
        · intro _ _
          exact Sleeper.mem_setWaker hw
      · simp only [Sleeper.update, hw, if_false, if_true, Option.some.injEq] at hs
        subst hs
        refine h.ticker (t := t) rfl rfl (fun _ _ hw => hw) (by simp [hpc]) ?_ ?_ ?_
        · intro u hut hu hwu
          have hid := hids.sleeping_ne hut hown hu
          simpa [State.goto, State.setTicker, Sleeper.waiting, hid] using hwu
        · intro u _ _ hin
          exact .inl (by simp [State.goto, State.setTicker, hin])
        · intro hidle
          cases hidle
  case sleepSwap =>
    obtain rfl := Option.some.inj hs
    exact h.ticker_frame (t := t) rfl rfl (fun _ _ => rfl) rfl (by simp [hpc]) (by simp)
  case sleepUnlock =>
    obtain rfl := Option.some.inj hs
    refine h.ticker_frame (t := t) rfl rfl (fun _ _ => rfl) rfl (by simp [hpc]) ?_
    cases (s.tickers t).runner <;> simp [State.searchPc]

/-- The entry that `Sleeper::notify` takes is the one whose waker it returns. -/
theorem mem_notify {ids : Finset Nat} {sl : Sleeper} (hok : Sleeper.Ok ids sl) {i : Nat} {v : Waker}
    (h : (i, v) ∈ sl.wakers) :
    (i, v) ∈ sl.notify.2.wakers ∨ (¬sl.notify.2.waiting i ∧ sl.notify.1 = some v) := by
  rcases Sleeper.notify_cases sl with ⟨rest, j, w, -, hrest, hn⟩ | ⟨-, -, hn⟩ | ⟨-, hn⟩
  · rw [hn]
    rw [hrest, List.mem_append, List.mem_singleton] at h
    rcases h with h | h
    · exact .inl h
    · obtain ⟨rfl, rfl⟩ := Prod.mk.inj h
      refine .inr ⟨?_, rfl⟩
      have hnodup := hok.nodup
      rw [hrest, List.map_append, List.nodup_append] at hnodup
      exact fun hw => hnodup.2.2 _ hw _ (by simp) rfl
  · exact .inl (by rw [hn]; exact h)
  · exact .inl (by rw [hn]; exact h)

theorem suspended_execWake (h : Suspended s) (hids : Ids s) (hk : TickersOk s)
    (hs : s.execWake t = some s') : Suspended s' := by
  obtain ⟨ids, hok, hmem⟩ := hids.ok
  have hawake := (hk t).awake
  cases hpc : (s.tickers t).pc <;>
    simp only [State.execWake, hpc, reduceCtorEq] at hs
  case notify n after =>
    obtain ⟨⟨next, v⟩, hn, rfl⟩ := Option.map_eq_some_iff.mp hs
    have hdone : next = none → State.afterNotify (s.tickers t).runner after = .idle →
        (s.tickers t).sleeping = 0 := by
      intro _ hidle
      apply hawake
      rw [hpc]
      cases after <;> first | rfl | cases hidle
    cases n <;> simp only [State.execNotify] at hn
    case cas =>
      split at hn <;> obtain ⟨rfl, rfl⟩ := Prod.mk.inj (Option.some.inj hn)
      · exact h.ticker_frame (t := t) rfl rfl (fun _ _ => rfl) rfl (by simp [hpc]) (hdone rfl)
      · exact h.ticker_frame (t := t) rfl rfl (fun _ _ => rfl) rfl (by simp [hpc]) (by simp)
    case lock =>
      split at hn <;> simp only [Option.some.injEq, Prod.mk.injEq, reduceCtorEq] at hn
      obtain ⟨rfl, rfl⟩ := hn
      refine h.ticker (t := t) rfl rfl (fun _ _ hw => hw) (by simp [hpc])
        (fun _ _ _ hw => waiting_notify hw) ?_ ?_
      · intro u _ _ hin
        rcases mem_notify hok hin with hin' | ⟨hout, hsome⟩
        · exact .inl hin'
        · exact .inr ⟨hout, after, by simp only [hsome]; rfl⟩
      · intro hidle hsleep
        refine absurd (hdone ?_ ?_) hsleep <;> cases hnext : s.sleepers.notify.1 <;>
          simp_all
    case wake w =>
      obtain ⟨rfl, rfl⟩ := Prod.mk.inj (Option.some.inj hn)
      refine h.ticker (t := t) rfl rfl ?_ ?_ (fun _ _ _ hw => hw) (fun _ _ _ hin => .inl hin) ?_
      · intro u _ hw
        simp [State.goto, State.setTicker, State.wake, hw]
      · intro v _ heq u _ hu
        rw [hpc] at heq
        cases heq
        simp [State.goto, State.setTicker, State.wake, hu]
      · exact fun hidle hsleep => absurd (hdone rfl hidle) hsleep
  case wakeLock id =>
    split at hs <;> simp only [Option.some.injEq, reduceCtorEq] at hs
    subst hs
    have hown : (s.tickers t).id = some id := by
      have hzero := hawake (by rw [hpc]; rfl)
      simp only [Ticker.id, hzero, hpc, if_true, Pc.leaving]
    refine h.ticker (t := t) rfl rfl (fun _ _ hw => hw) (by simp [hpc])
      (fun _ _ _ hw => waiting_remove hok hw) ?_ (by simp)
    intro u hut hu hin
    exact .inl ((Sleeper.mem_remove hok _ _).mpr ⟨hin, hids.sleeping_ne hut hown hu⟩)
  case wakeSwap =>
    obtain rfl := Option.some.inj hs
    exact h.ticker_frame (t := t) rfl rfl (fun _ _ => rfl) rfl (by simp [hpc]) fun _ => rfl
  case tick =>
    obtain rfl := Option.some.inj hs
    exact h.ticker_frame (t := t) rfl rfl (fun _ _ => rfl) rfl (by simp [hpc])
      fun _ => hawake (by rw [hpc]; rfl)
  case wakeFlag | wakeUnlock =>
    obtain rfl := Option.some.inj hs
    exact h.ticker_frame (t := t) rfl rfl (fun _ _ => rfl) rfl (by simp [hpc])
      fun hx => by cases hx

theorem suspended_execDrop (h : Suspended s) (hids : Ids s) (hk : TickersOk s)
    (hs : s.execDrop t = some s') : Suspended s' := by
  obtain ⟨ids, hok, hmem⟩ := hids.ok
  have hawake := (hk t).awake
  cases hpc : (s.tickers t).pc <;>
    simp only [State.execDrop, hpc, reduceCtorEq] at hs
  case dropLock id =>
    split at hs <;> simp only [Option.some.injEq, reduceCtorEq] at hs
    subst hs
    have hown : (s.tickers t).id = some id := by
      have hzero := hawake (by rw [hpc]; rfl)
      simp only [Ticker.id, hzero, hpc, if_true, Pc.leaving]
    refine h.ticker (t := t) rfl rfl (fun _ _ hw => hw) (by simp [hpc])
      (fun _ _ _ hw => waiting_remove hok hw) ?_ (by simp)
    intro u hut hu hin
    exact .inl ((Sleeper.mem_remove hok _ _).mpr ⟨hin, hids.sleeping_ne hut hown hu⟩)
  case dropSwap =>
    obtain rfl := Option.some.inj hs
    exact h.ticker_frame (t := t) rfl rfl (fun _ _ => rfl) rfl (by simp [hpc]) fun _ => rfl
  case dropRetain | drainPop =>
    split at hs <;> cases hs
    all_goals
      exact h.ticker_frame (t := t) rfl rfl (fun _ _ => rfl) rfl (by simp [hpc])
        fun hx => by cases hx
  case drainPush | dropFlag =>
    obtain rfl := Option.some.inj hs
    exact h.ticker_frame (t := t) rfl rfl (fun _ _ => rfl) rfl (by simp [hpc])
      fun hx => by cases hx
  case dropUnlock notified =>
    obtain rfl := Option.some.inj hs
    refine h.ticker_frame (t := t) rfl rfl (fun _ _ => rfl) rfl (by simp [hpc]) ?_
    cases notified <;> (intro hx; cases hx)

theorem suspended_execCall {c : Call} {rest : Multiset Call} {next : Option Call} {v : State}
    (h : Suspended s) (hids : Ids s) (hcalls : s.calls = c ::ₘ rest)
    (hs : s.execCall c = some (next, v)) :
    Suspended { v with calls := next.elim rest fun d => d ::ₘ rest } := by
  obtain ⟨ids, hok, -⟩ := hids.ok
  have hrest : ∀ d ∈ rest, d ∈ next.elim rest fun d => d ::ₘ rest := by
    intro d hd
    cases next with
    | none => exact hd
    | some e => exact Multiset.mem_cons_of_mem hd
  intro t hidle hsleep
  have hframe := (execCall_frame hs).1
  simp only [hframe] at hidle hsleep ⊢
  -- the waker of `t` is in the hands of another call, or this call wakes it
  have hheld : Held s (s.tickers t).waker → c ≠ .notify (.wake (s.tickers t).waker) →
      Held { v with calls := next.elim rest fun d => d ::ₘ rest } (s.tickers t).waker := by
    rintro (hmem | ⟨u, after, hu⟩) hne
    · rw [hcalls, Multiset.mem_cons] at hmem
      exact .inl (hrest _ (hmem.resolve_left hne.symm))
    · exact .inr ⟨u, after, by simp only [hframe]; exact hu⟩
  cases c with
  | push r =>
    obtain ⟨rfl, rfl⟩ := Prod.mk.inj (Option.some.inj hs)
    exact (h t hidle hsleep).imp_right fun ⟨hout, hw⟩ => ⟨hout, hw.imp_right (hheld · (by simp))⟩
  | tryPop =>
    simp only [State.execCall] at hs
    split at hs
    all_goals
      obtain ⟨rfl, rfl⟩ := Prod.mk.inj (Option.some.inj hs)
      exact (h t hidle hsleep).imp_right fun ⟨hout, hw⟩ =>
        ⟨hout, hw.imp_right (hheld · (by simp))⟩
  | notify n =>
    obtain ⟨⟨m, u⟩, hn, heq⟩ := Option.map_eq_some_iff.mp hs
    obtain ⟨rfl, rfl⟩ := Prod.mk.inj heq
    cases n <;> simp only [State.execNotify] at hn
    case cas =>
      split at hn
      all_goals
        obtain ⟨rfl, rfl⟩ := Prod.mk.inj (Option.some.inj hn)
        exact (h t hidle hsleep).imp_right fun ⟨hout, hw⟩ =>
          ⟨hout, hw.imp_right (hheld · (by simp))⟩
    case lock =>
      split at hn <;> simp only [Option.some.injEq, Prod.mk.injEq, reduceCtorEq] at hn
      obtain ⟨rfl, rfl⟩ := hn
      rcases h t hidle hsleep with hin | ⟨hout, hw⟩
      · rcases mem_notify hok hin with hin' | ⟨hout, hsome⟩
        · exact .inl hin'
        · refine .inr ⟨hout, .inr (.inl ?_)⟩
          simp only [hsome]
          exact Multiset.mem_cons_self _ _
      · exact .inr ⟨fun hw' => hout (waiting_notify hw'), hw.imp_right (hheld · (by simp))⟩
    case wake w =>
      obtain ⟨rfl, rfl⟩ := Prod.mk.inj (Option.some.inj hn)
      refine (h t hidle hsleep).imp_right fun ⟨hout, hw⟩ => ⟨hout, ?_⟩
      by_cases heq : (s.tickers t).waker = w
      · exact .inl (by simp [State.wake, heq])
      · rcases hw with hw | hw
        · exact .inl (by simp [State.wake, hw])
        · exact .inr (hheld hw (by simpa using Ne.symm heq))

theorem suspended_step {a : Act} (h : Suspended s) (hids : Ids s) (hk : TickersOk s)
    (hs : step s a = some s') : Suspended s' := by
  rcases step_cases hs with ⟨c, -, rfl⟩ | ⟨-, rfl⟩ | ⟨t, -, hpc, rfl⟩ | ⟨t, -, hpc, rfl⟩ |
    ⟨t, w, -, hpc, rfl⟩ | ⟨t, -, hpc, rfl⟩ | ⟨t, choice, -, hs⟩ |
    ⟨c, rest, next, u, -, hcalls, hcall, rfl⟩
  · exact fun t hidle hsleep => (h t hidle hsleep).imp_right fun ⟨hout, hw⟩ =>
      ⟨hout, hw.imp_right (·.imp_left Multiset.mem_cons_of_mem)⟩
  · exact fun t hidle hsleep => (h t hidle hsleep).imp_right fun ⟨hout, hw⟩ =>
      ⟨hout, hw.imp_right (·.imp_left Multiset.mem_cons_of_mem)⟩
  · exact h.ticker_frame (t := t) rfl rfl (fun _ _ => rfl) rfl (by simp [hpc]) (by simp)
  · exact h.ticker_frame (t := t) rfl rfl (fun _ _ => rfl) rfl (by simp [hpc]) (by simp)
  · refine h.ticker_frame (t := t) rfl rfl ?_ rfl (by simp [hpc]) ?_
    · intro u hne
      simp [State.setTicker, hne]
    · cases (s.tickers t).runner <;> simp [State.searchPc]
  · refine h.ticker_frame (t := t) rfl rfl (fun _ _ => rfl) rfl (by simp [hpc]) ?_
    cases (s.tickers t).runner <;> simp
  · rcases hs with hs | hs | hs | hs
    · exact suspended_execSearch h hk hs
    · exact suspended_execSleep h hids hs
    · exact suspended_execWake h hids hk hs
    · exact suspended_execDrop h hids hk hs
  · exact suspended_execCall h hids hcalls hcall

end Suspended

/-! ## Whole runs -/

structure Inv (s : State) : Prop where
  tickers : TickersOk s
  ids : Ids s
  progress : Progress s
  suspended : Suspended s

theorem inv_of_reachable {s : State} (hs : system.Reachable s) : Inv s := by
  refine hs.invariant (I := Inv) ?_ ?_
  · constructor
    · intro t
      constructor <;> simp [system, State.new, Ticker.gone, Pc.drained, Pc.room]
    · constructor
      · refine ⟨∅, Sleeper.ok_new, fun i => ?_⟩
        simp [system, State.new, Ticker.gone, Ticker.id, Pc.leaving]
      · simp [system, State.new, Ticker.gone, Ticker.id, Pc.leaving]
    · constructor
      · exact fun _ => .inr (.inr rfl)
      · exact fun hq => absurd rfl hq
    · intro t hidle
      cases hidle
  · intro s a t h ht
    exact ⟨tickersOk_step h.tickers ht, ids_step h.ids h.tickers ht,
      progress_step h.progress h.ids h.tickers ht, suspended_step h.suspended h.ids h.tickers ht⟩

/-- No thread is between two steps of the modelled functions. -/
def Quiescent (s : State) : Prop :=
  s.calls = 0 ∧ ∀ t, (s.tickers t).pc = .idle ∨ (s.tickers t).pc = .gone

/-- The queue or a registered local queue holds a `Runnable`. -/
def HasWork (s : State) : Prop := s.queue ≠ [] ∨ ∃ t ∈ s.localQueues, s.locals t ≠ []

/-- The ticker exists. -/
def Alive (s : State) (t : Tid) : Prop := (s.tickers t).pc ≠ .gone

/-- The ticker sleeps, its waker was taken from the list and woken since its last poll. -/
def NotifiedTicker (s : State) (t : Tid) : Prop :=
  (s.tickers t).sleeping ≠ 0 ∧ ¬s.sleepers.waiting (s.tickers t).sleeping ∧ s.woken t = true

/-- The executor never sleeps on runnable work. -/
theorem no_sleep_on_work {s : State} (hs : system.Reachable s) (hq : Quiescent s)
    (hwork : HasWork s) (hsleep : ∃ t, Alive s t ∧ (s.tickers t).sleeping ≠ 0) :
    (∃ t, Alive s t ∧ (s.tickers t).sleeping = 0) ∨ ∃ t, Alive s t ∧ NotifiedTicker s t := by
  obtain ⟨hcalls, hpcs⟩ := hq
  have h := inv_of_reachable hs
  obtain ⟨ids, hok, hmem⟩ := h.ids.ok
  have hgone (t : Tid) (hne : (s.tickers t).sleeping ≠ 0) : (s.tickers t).pc = .idle := by
    refine (hpcs t).resolve_right fun hg => hne ?_
    exact (h.tickers t).awake (by rw [hg]; rfl)
  by_contra hnone
  push Not at hnone
  obtain ⟨hasleep, hunnotified⟩ := hnone
  rcases hwork with hqueue | ⟨t, ht, hlocal⟩
  · -- nobody is busy, so a ticker was notified
    have hnotified : s.sleepers.isNotified = true := by
      rcases h.progress.covered hqueue with ⟨c, hc, -⟩ | ⟨t, ht⟩ | hn
      · simp [hcalls] at hc
      · rcases hpcs t with hpc | hpc <;>
          simp [Ticker.searches, hpc, Pc.busy, Pc.dozing] at ht
      · exact hn
    simp only [Sleeper.isNotified, Bool.or_eq_true, beq_iff_eq, decide_eq_true_eq] at hnotified
    rcases hnotified with hzero | hlt
    · obtain ⟨t, -, ht⟩ := hsleep
      have hin : (s.tickers t).sleeping ∈ ids := (hmem _).mpr ⟨t, by simp [Ticker.id, ht]⟩
      have hcard := hok.card
      rw [hzero, Finset.card_eq_zero] at hcard
      simp [hcard] at hin
    · obtain ⟨i, hi, hout⟩ := hok.exists_notified hlt
      obtain ⟨t, ht⟩ := (hmem i).mp hi
      have hid : (s.tickers t).sleeping = i ∧ (s.tickers t).sleeping ≠ 0 := by
        unfold Ticker.id at ht
        split at ht
        · rcases hpcs t with hpc | hpc <;> simp [hpc, Pc.leaving] at ht
        · rename_i hne
          exact ⟨Option.some.inj ht, hne⟩
      obtain ⟨rfl, hne⟩ := hid
      have hidle := hgone t hne
      rcases h.suspended t hidle hne with hin | ⟨-, hw | hheld | ⟨u, after, hu⟩⟩
      · exact hout ((Sleeper.waiting_iff _).mpr ⟨_, hin⟩)
      · exact hunnotified t (by simp [Alive, hidle]) ⟨hne, hout, hw⟩
      · simp [hcalls] at hheld
      · rcases hpcs u with hpc | hpc <;> simp [hpc] at hu
  · -- a local queue with work belongs to a runner that is not asleep
    obtain ⟨hrunner, hlisted⟩ := (h.tickers t).listed ht
    have hpc : (s.tickers t).pc = .idle := by
      refine (hpcs t).resolve_right fun hg => ?_
      rw [hg] at hlisted
      cases hlisted
    have hne := hasleep t (by simp [Alive, hpc])
    exact hlocal ((h.tickers t).drained hrunner (.inr ⟨hpc, hne⟩))

/-- A ticker goes to sleep with the waker 7, then a `Runnable` is scheduled. -/
def sleepThenSchedule : List Act :=
  [.newTicker 0, .poll 0 7, .ticker 0 0, .ticker 0 0, .ticker 0 0, .ticker 0 0, .ticker 0 0,
   .ticker 0 0, .schedule 5, .call (.push 5), .call (.notify .cas), .call (.notify .lock),
   .call (.notify (.wake 7))]

theorem no_sleep_on_work_schedule :
    ∃ s, system.run sleepThenSchedule = some s ∧ s.queue = [5] ∧ (s.tickers 0).sleeping = 1 ∧
      ((∃ t, Alive s t ∧ (s.tickers t).sleeping = 0) ∨ ∃ t, Alive s t ∧ NotifiedTicker s t) := by
  refine ⟨_, rfl, rfl, rfl, ?_⟩
  refine no_sleep_on_work (System.reachable_of_run sleepThenSchedule rfl) ⟨rfl, ?_⟩
    (.inl (List.cons_ne_nil _ _)) ⟨0, Pc.noConfusion, Nat.one_ne_zero⟩
  intro t
  cases t with
  | zero => exact .inl rfl
  | succ t => exact .inr rfl
end Cynthia.Executor
