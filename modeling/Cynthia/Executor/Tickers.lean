import Cynthia.Executor.State
import Mathlib.Tactic.MkIffOfInductiveProp

/-! What holds of each ticker by itself, and of the ids that the tickers have in
the list of sleepers. -/

namespace Cynthia.Executor

open Transition

/-! ## Each ticker by itself -/

/-- The ticker is not in the list of sleepers. -/
def Pc.awake : Pc → Bool
  | .stealLen _ f | .stealRoom _ f _ | .stealPop _ f _ | .stealPush _ f _ _ => f == .ticks
  | .wakeLock _ | .wakeFlag | .wakeUnlock | .notify _ .ready | .notify _ .gone | .tick
  | .dropLock _ | .dropFlag _ | .dropUnlock _ | .gone => true
  | _ => false

/-- The runner has found its local queue empty and put nothing into it since. -/
def Pc.drained : Pc → Bool
  | .popQueue | .scanRead | .scan _ | .sleepLock | .sleepSwap | .sleepUnlock => true
  | _ => false

/-- The runner has taken its local queue off the list. -/
def Pc.unlisted : Pc → Bool
  | .drainPop | .drainPush _ | .notify _ .drain | .notify _ .gone | .dropSwap | .dropLock _
  | .dropFlag _ | .dropUnlock _ | .gone => true
  | _ => false

/-- Elements that `steal` may still put into the local queue. -/
def Pc.room : Pc → Nat
  | .stealPop _ _ n => n
  | .stealPush _ _ n _ => n + 1
  | _ => 0

/-- The id of a ticker that is about to leave the list of sleepers. -/
def Pc.leaving : Pc → Option Nat
  | .wakeLock id | .dropLock id => some id
  | _ => none

/-- The positions of the search. -/
def Pc.searching : Pc → Bool
  | .popLocal | .popQueue | .scanRead | .scan _ | .scanPop _ | .stealLen _ _ | .stealRoom _ _ _
  | .stealPop _ _ _ | .stealPush _ _ _ _ => true
  | _ => false

/-- The next step takes one entry from the list of sleepers, or brings `notified`
in line with the list and is followed by another search or notification. -/
def Pc.urgent : Pc → Bool
  | .notify .lock _ | .sleepSwap | .wakeFlag | .dropFlag true => true
  | _ => false

/-- The ticker will look into the queue or notify before it goes to sleep. -/
def Pc.busy : Pc → Bool
  | .popLocal | .popQueue | .stealLen _ .found | .stealRoom _ .found _ | .stealPop _ .found _
  | .stealPush _ .found _ _ | .wakeSwap | .wakeLock _ | .wakeFlag | .wakeUnlock
  | .notify .cas _ | .notify .lock _ | .sleepSwap | .sleepUnlock | .dropFlag true
  | .dropUnlock true => true
  | _ => false

/-- The ticker found the queue empty and may go to sleep. -/
def Pc.dozing : Pc → Bool
  | .scanRead | .scan _ | .scanPop _ | .stealLen _ (.scan _) | .stealRoom _ (.scan _) _
  | .stealPop _ (.scan _) _ | .stealPush _ (.scan _) _ _ | .sleepLock => true
  | _ => false

attribute [local simp] Pc.awake Pc.drained Pc.unlisted Pc.room Pc.searching Pc.urgent Pc.busy
  Pc.dozing

/-- What holds of a ticker, its local queue and its place in `local_queues`. -/
@[mk_iff]
structure Ticker.Ok (k : Ticker) (l : List Runnable) (listed : Prop) : Prop where
  awake : k.pc.awake = true → k.sleeping = 0
  drained : k.runner = true → k.pc.drained = true ∨ (k.pc = .idle ∧ k.sleeping ≠ 0) → l = []
  listed : listed → k.runner = true ∧ k.pc.unlisted = false
  room : l.length + k.pc.room ≤ 512

/-- A ticker may go from `p` to `q` if its local queue and its `sleeping` stay. -/
@[mk_iff]
structure Pc.Leads (p q : Pc) : Prop where
  awake : q.awake = true → p.awake = true
  drained : q.drained = true → p.drained = true
  idle : q = .idle → p.awake = true ∨ p.drained = true
  unlisted : p.unlisted = false → q.unlisted = false
  room : q.room ≤ p.room

theorem Ticker.Ok.move {k k' : Ticker} {l : List Runnable} {listed : Prop} (h : k.Ok l listed)
    (hrunner : k'.runner = k.runner) (hsleeping : k'.sleeping = k.sleeping)
    (hpc : k.pc.Leads k'.pc) : k'.Ok l listed where
  awake ha := hsleeping.trans (h.awake (hpc.awake ha))
  drained hr hp := by
    rw [hrunner] at hr
    rcases hp with hd | ⟨hidle, hne⟩
    · exact h.drained hr (.inl (hpc.drained hd))
    · rcases hpc.idle hidle with ha | hd
      · exact absurd (hsleeping.trans (h.awake ha)) hne
      · exact h.drained hr (.inl hd)
  listed hm := ⟨hrunner.trans (h.listed hm).1, hpc.unlisted (h.listed hm).2⟩
  room := (Nat.add_le_add_left hpc.room _).trans h.room

theorem Pc.of_searching {pc : Pc} (h : pc.searching = true) :
    pc.leaving = none ∧ pc ≠ .sleepLock ∧ (∀ n after, pc ≠ .notify n after) ∧
      pc.urgent = false := by
  cases pc <;> simp [Pc.leaving] at h ⊢

def TickersOk (s : State) : Prop :=
  ∀ t, (s.tickers t).Ok (s.locals t) (t ∈ s.localQueues)

section Tickers

variable {s s' : State} {t : Tid}

/-- Only the moving ticker changes; another local queue may lose elements, and
`local_queues` may lose or gain the entry of the moving ticker. -/
theorem TickersOk.update {k : Ticker} (h : TickersOk s)
    (htk : s'.tickers = Function.update s.tickers t k)
    (hlocal : ∀ u, u ≠ t → (s'.locals u).length ≤ (s.locals u).length)
    (hlist : ∀ u, u ≠ t → u ∈ s'.localQueues → u ∈ s.localQueues)
    (hk : k.Ok (s'.locals t) (t ∈ s'.localQueues)) : TickersOk s' := by
  intro u
  rw [htk]
  rcases eq_or_ne u t with rfl | hne
  · rw [Function.update_self]
    exact hk
  · rw [Function.update_of_ne hne]
    obtain ⟨hawake, hdrained, hlisted, hroom⟩ := h u
    have hle := hlocal u hne
    refine ⟨hawake, fun hr hp => ?_, fun hm => hlisted (hlist u hne hm), by omega⟩
    rw [hdrained hr hp] at hle
    exact List.eq_nil_of_length_eq_zero (Nat.le_zero.mp hle)

/-- The ticker moves, and nothing else that it or the others depend on. -/
theorem TickersOk.move {k : Ticker} (h : TickersOk s)
    (htk : s'.tickers = Function.update s.tickers t k) (hlocals : s'.locals = s.locals)
    (hlist : s'.localQueues = s.localQueues) (hrunner : k.runner = (s.tickers t).runner)
    (hsleeping : k.sleeping = (s.tickers t).sleeping) (hpc : (s.tickers t).pc.Leads k.pc) :
    TickersOk s' := by
  refine h.update htk (fun u _ => by rw [hlocals]) (fun u _ hu => hlist ▸ hu) ?_
  rw [hlocals, hlist]
  exact (h t).move hrunner hsleeping hpc

/-- A step of the search may go from `p` to `q`. -/
@[mk_iff]
structure Pc.Seeks (p q : Pc) : Prop where
  searching : p.searching = true
  awake : q = .idle ∨ q.awake = true → p.awake = true
  dozing : p.dozing = true → q.dozing = true ∨ q.busy = true
  unlisted : q.unlisted = false
  leaving : q.leaving = none

/-- What a step of the search does: the ticker moves, elements go from one queue to another,
and `notified`, the list of sleepers and the wakers stay. -/
structure Searched (t : Tid) (k : Ticker) (s s' : State) : Prop where
  tickers : s'.tickers = Function.update s.tickers t k
  runner : k.runner = (s.tickers t).runner
  sleeping : k.sleeping = (s.tickers t).sleeping
  calls : s'.calls = s.calls
  sleepers : s'.sleepers = s.sleepers
  notified : s'.notified = s.notified
  woken : s'.woken = s.woken
  localQueues : s'.localQueues = s.localQueues
  queue : s'.queue ≠ [] → s.queue ≠ []
  others : ∀ u, u ≠ t → (s'.locals u).length ≤ (s.locals u).length
  seeks : (s.tickers t).pc.Seeks k.pc
  busy : s'.queue ≠ [] → (s.tickers t).pc.busy = true → k.pc.busy = true
  drained : k.pc.drained = true →
    s'.locals t = [] ∨ (s.tickers t).pc.drained = true ∧ s'.locals t = s.locals t
  room : (s'.locals t).length + k.pc.room ≤ 512

/-- The queues stay; `n` counts the readers in `local_queues`. -/
theorem Searched.goto {n : Nat} {pc : Pc} (hseeks : (s.tickers t).pc.Seeks pc)
    (hbusy : s.queue ≠ [] → (s.tickers t).pc.busy = true → pc.busy = true)
    (hdrained : pc.drained = true → s.locals t = [] ∨ (s.tickers t).pc.drained = true)
    (hroom : (s.locals t).length + pc.room ≤ 512) :
    Searched t { s.tickers t with pc } s ({ s with readers := n }.goto t pc) :=
  ⟨rfl, rfl, rfl, rfl, rfl, rfl, rfl, rfl, id, fun _ _ => Nat.le_refl _, hseeks, hbusy,
    fun hd => (hdrained hd).imp_right fun hold => ⟨hold, rfl⟩, hroom⟩

/-- The runner takes an element out of its local queue. -/
theorem Searched.take {n : Nat} {r : Runnable} {rest : List Runnable}
    (hlocal : s.locals t = r :: rest) (hfull : (s.locals t).length ≤ 512)
    (hseeks : (s.tickers t).pc.Seeks .wakeSwap) :
    Searched t { s.tickers t with pc := .wakeSwap, found := some r } s
      ({ s.setLocal t rest with readers := n }.find t r .wakeSwap) := by
  refine ⟨rfl, rfl, rfl, rfl, rfl, rfl, rfl, rfl, id, fun u hne => ?_, hseeks, fun _ _ => rfl,
    nofun, ?_⟩
  · simp [State.find, State.setTicker, State.setLocal, Function.update_of_ne hne]
  · rw [hlocal, List.length_cons] at hfull
    simp only [State.find, State.setTicker, State.setLocal, Function.update_self, Pc.room]
    omega

/-- `steal` pops from its source. -/
theorem setSource_le {src : Option Tid} {r : Runnable} {rest : List Runnable}
    (h : s.source src = r :: rest) :
    ((s.setSource rest src).queue ≠ [] → s.queue ≠ []) ∧
      ∀ u, ((s.setSource rest src).locals u).length ≤ (s.locals u).length := by
  cases src with
  | none =>
    refine ⟨fun _ hnil => ?_, fun _ => Nat.le_refl _⟩
    cases hnil.symm.trans h
  | some v =>
    refine ⟨id, fun u => ?_⟩
    rcases eq_or_ne u v with rfl | hne
    · have hlocal : s.locals u = r :: rest := h
      simp [State.setSource, State.setLocal, hlocal]
    · simp [State.setSource, State.setLocal, Function.update_of_ne hne]

theorem searched_of_execSearch {choice : Nat} (h : TickersOk s)
    (hs : s.execSearch t choice = some s') : ∃ k, Searched t k s s' := by
  have hroom := (h t).room
  have hfull := (Nat.le_add_right _ _).trans hroom
  cases hpc : (s.tickers t).pc <;> simp only [State.execSearch, hpc, reduceCtorEq] at hs
  case popLocal =>
    split at hs <;> rename_i hlocal <;> obtain rfl := Option.some.inj hs
    · exact ⟨_, .goto (n := s.readers) (by simp [Pc.seeks_iff, hpc, Pc.leaving]) (by simp)
        (fun _ => .inl hlocal) hfull⟩
    · exact ⟨_, .take (n := s.readers) hlocal hfull (by simp [Pc.seeks_iff, hpc, Pc.leaving])⟩
  case popQueue =>
    split at hs <;> rename_i hqueue <;> obtain rfl := Option.some.inj hs
    · refine ⟨_, .goto (n := s.readers) ?_ (absurd hqueue) (fun _ => .inr (by rw [hpc]; rfl)) ?_⟩ <;>
        split <;> simp [Pc.seeks_iff, hpc, Pc.leaving, hfull]
    · refine ⟨_, rfl, rfl, rfl, rfl, rfl, rfl, rfl, rfl, by simp [hqueue],
        fun _ _ => Nat.le_refl _, ?_, ?_, ?_, ?_⟩ <;>
        dsimp only <;> split <;> simp [Pc.seeks_iff, hpc, Pc.leaving, State.find, State.setTicker, hfull]
  case scanRead =>
    obtain rfl := Option.some.inj hs
    exact ⟨_, .goto (by simp [Pc.seeks_iff, hpc, Pc.leaving]) (by simp [hpc]) (by simp [hpc]) hfull⟩
  case scan rest =>
    split at hs <;> obtain rfl := Option.some.inj hs
    · exact ⟨_, .goto (by simp [Pc.seeks_iff, hpc, Pc.leaving]) (by simp [hpc]) (by simp [hpc])
        hfull⟩
    · exact ⟨_, .goto (n := s.readers) (by simp [Pc.seeks_iff, hpc, Pc.leaving]) (by simp [hpc])
        (by simp) hfull⟩
  case scanPop rest =>
    split at hs <;> rename_i hlocal <;> obtain rfl := Option.some.inj hs
    · exact ⟨_, .goto (n := s.readers) (by simp [Pc.seeks_iff, hpc, Pc.leaving]) (by simp [hpc])
        (fun _ => .inl hlocal) hfull⟩
    · exact ⟨_, .take hlocal hfull (by simp [Pc.seeks_iff, hpc, Pc.leaving])⟩
  case stealLen src f =>
    obtain rfl := Option.some.inj hs
    refine ⟨_, .goto (n := s.readers) ?_ ?_ ?_ ?_⟩ <;> split <;> cases f <;>
      simp [Pc.seeks_iff, hpc, Pc.leaving, State.afterSteal, hfull]
  case stealRoom src f count =>
    obtain rfl := Option.some.inj hs
    refine ⟨_, .goto (n := s.readers) ?_ ?_ ?_ ?_⟩
    · cases f <;> simp [Pc.seeks_iff, hpc, Pc.leaving]
    · cases f <;> simp [hpc]
    · simp
    · simp only [Pc.room]
      omega
  case stealPop src f count =>
    rw [hpc] at hroom
    split at hs <;> obtain rfl := Option.some.inj hs
    · rename_i n r rest hsource
      have hless := setSource_le hsource
      have hseeks : (s.tickers t).pc.Seeks (.stealPush src f n r) := by
        cases f <;> simp [Pc.seeks_iff, hpc, Pc.leaving]
      have hbusy : (s.tickers t).pc.busy = true → (Pc.stealPush src f n r).busy = true := by
        cases f <;> simp [hpc]
      have hself := (Nat.add_le_add_right (hless.2 t) _).trans hroom
      cases src with
      | none => exact ⟨_, rfl, rfl, rfl, rfl, rfl, rfl, rfl, rfl, hless.1, fun u _ => hless.2 u,
          hseeks, fun _ => hbusy, nofun, hself⟩
      | some v => exact ⟨_, rfl, rfl, rfl, rfl, rfl, rfl, rfl, rfl, hless.1, fun u _ => hless.2 u,
          hseeks, fun _ => hbusy, nofun, hself⟩
    · refine ⟨_, .goto (n := s.readers) ?_ ?_ ?_ ?_⟩ <;> cases f <;>
        simp [Pc.seeks_iff, hpc, Pc.leaving, State.afterSteal, hfull]
  case stealPush src f count r =>
    rw [hpc] at hroom
    split at hs <;> obtain rfl := Option.some.inj hs
    · refine ⟨_, rfl, rfl, rfl, rfl, rfl, rfl, rfl, rfl, id, ?_, ?_, ?_, ?_, ?_⟩
      · intro u hne
        simp [State.goto, State.setTicker, State.setLocal, Function.update_of_ne hne]
      · cases f <;> simp [Pc.seeks_iff, hpc, Pc.leaving]
      · cases f <;> simp [hpc]
      · simp
      · simp only [State.goto, State.setTicker, State.setLocal, Function.update_self,
          List.length_append, List.length_singleton, Pc.room] at hroom ⊢
        omega
    · simp only [Pc.room] at hroom
      omega

theorem tickersOk_execSearch {choice : Nat} (h : TickersOk s)
    (hs : s.execSearch t choice = some s') : TickersOk s' := by
  obtain ⟨k, hk⟩ := searched_of_execSearch h hs
  have ht := h t
  refine h.update hk.tickers hk.others (fun u _ hu => hk.localQueues ▸ hu) ⟨?_, ?_, ?_, hk.room⟩
  · exact fun ha => hk.sleeping.trans (ht.awake (hk.seeks.awake (.inr ha)))
  · rintro hr (hd | ⟨hidle, hne⟩)
    · rcases hk.drained hd with hnil | ⟨hold, hsame⟩
      · exact hnil
      · exact hsame.trans (ht.drained (hk.runner ▸ hr) (.inl hold))
    · exact absurd (hk.sleeping.trans (ht.awake (hk.seeks.awake (.inl hidle)))) hne
  · intro hu
    rw [hk.localQueues] at hu
    exact ⟨hk.runner.trans (ht.listed hu).1, hk.seeks.unlisted⟩

theorem tickersOk_execSleep (h : TickersOk s) (hs : s.execSleep t = some s') : TickersOk s' := by
  have ht := h t
  cases hpc : (s.tickers t).pc <;> simp only [State.execSleep, hpc, reduceCtorEq] at hs
  case sleepLock =>
    split at hs
    · cases hs
    split at hs
    · -- registered under a new id, with the local queue still empty
      obtain rfl := Option.some.inj hs
      refine h.update (t := t) rfl (fun _ _ => Nat.le_refl _) (fun _ _ => id) ⟨nofun, ?_, ?_, ?_⟩
      · exact fun hr _ => ht.drained hr (.inl (by rw [hpc]; rfl))
      · exact fun hu => ⟨(ht.listed hu).1, rfl⟩
      · exact (Nat.le_add_right _ _).trans ht.room
    · split at hs
      all_goals
        obtain rfl := Option.some.inj hs
        exact h.move (t := t) rfl rfl rfl rfl rfl (by simp [Pc.leads_iff, hpc])
  case sleepSwap =>
    obtain rfl := Option.some.inj hs
    exact h.move (t := t) rfl rfl rfl rfl rfl (by simp [Pc.leads_iff, hpc])
  case sleepUnlock =>
    obtain rfl := Option.some.inj hs
    refine h.move (t := t) rfl rfl rfl rfl rfl ?_
    cases (s.tickers t).runner <;> simp [Pc.leads_iff, hpc, State.searchPc]

/-- `State::notify` does not touch the tickers. -/
theorem execNotify_frame {n : Notify} {next : Option Notify} (hs : s.execNotify n = some (next, s')) :
    s'.tickers = s.tickers ∧ s'.locals = s.locals ∧ s'.localQueues = s.localQueues ∧
      s'.queue = s.queue ∧ s'.calls = s.calls := by
  cases n <;> simp only [State.execNotify] at hs
  all_goals repeat' split at hs
  all_goals simp only [Option.some.injEq, Prod.mk.injEq, reduceCtorEq] at hs
  all_goals
    obtain ⟨-, rfl⟩ := hs
    exact ⟨rfl, rfl, rfl, rfl, rfl⟩

/-- The ticker has left the list of sleepers. -/
theorem TickersOk.leave {k : Ticker} (h : TickersOk s)
    (htk : s'.tickers = Function.update s.tickers t k) (hlocals : s'.locals = s.locals)
    (hlist : s'.localQueues = s.localQueues) (hrunner : k.runner = (s.tickers t).runner)
    (hzero : k.sleeping = 0) (hidle : k.pc ≠ .idle) (hdrained : k.pc.drained = false)
    (hunlisted : (s.tickers t).pc.unlisted = false → k.pc.unlisted = false)
    (hroom : k.pc.room = 0) : TickersOk s' := by
  have ht := h t
  refine h.update htk (fun u _ => by rw [hlocals]) (fun u _ hu => hlist ▸ hu) ?_
  rw [hlocals, hlist]
  refine ⟨fun _ => hzero, ?_, fun hm => ⟨hrunner.trans (ht.listed hm).1, ?_⟩, ?_⟩
  · rintro - (hd | ⟨hpc, -⟩)
    · rw [hdrained] at hd
      cases hd
    · exact absurd hpc hidle
  · exact hunlisted (ht.listed hm).2
  · rw [hroom]
    exact (Nat.le_add_right _ _).trans ht.room

theorem tickersOk_execWake (h : TickersOk s) (hs : s.execWake t = some s') : TickersOk s' := by
  cases hpc : (s.tickers t).pc <;> simp only [State.execWake, hpc, reduceCtorEq] at hs
  case notify n after =>
    obtain ⟨⟨next, u⟩, hn, rfl⟩ := Option.map_eq_some_iff.mp hs
    obtain ⟨htk, hlocals, hlist, -, -⟩ := execNotify_frame hn
    have hmove : (u.goto t (next.elim (State.afterNotify (s.tickers t).runner after)
        fun n => .notify n after)).tickers = Function.update s.tickers t { s.tickers t with
          pc := next.elim (State.afterNotify (s.tickers t).runner after)
            fun n => .notify n after } := by
      simp only [State.goto, State.setTicker, htk]
    refine h.move hmove hlocals hlist rfl rfl ?_
    cases after <;> cases next <;> cases (s.tickers t).runner <;>
      simp [Pc.leads_iff, hpc, State.afterNotify]
  case wakeSwap =>
    obtain rfl := Option.some.inj hs
    refine h.leave (t := t) rfl rfl rfl rfl rfl ?_ ?_ ?_ ?_ <;> dsimp only <;> split <;> simp
  case wakeLock id =>
    split at hs <;> cases hs
    exact h.move (t := t) rfl rfl rfl rfl rfl (by simp [Pc.leads_iff, hpc])
  case tick =>
    obtain rfl := Option.some.inj hs
    refine h.move (t := t) rfl rfl rfl rfl rfl ?_
    dsimp only
    split <;> simp [Pc.leads_iff, hpc]
  all_goals
    obtain rfl := Option.some.inj hs
    exact h.move (t := t) rfl rfl rfl rfl rfl (by simp [Pc.leads_iff, hpc])

theorem tickersOk_execDrop (h : TickersOk s) (hs : s.execDrop t = some s') : TickersOk s' := by
  have ht := h t
  cases hpc : (s.tickers t).pc <;> simp only [State.execDrop, hpc, reduceCtorEq] at hs
  case dropRetain =>
    split at hs <;> cases hs
    -- off the list, and so free to leave elements in its local queue
    refine h.update (t := t) rfl (fun _ _ => Nat.le_refl _) ?_ ⟨nofun, by simp, ?_, ?_⟩
    · exact fun u _ hu => List.mem_of_mem_filter hu
    · simp [State.goto, State.setTicker]
    · exact (Nat.le_add_right _ _).trans ht.room
  case drainPop =>
    split at hs
    · obtain rfl := Option.some.inj hs
      exact h.move (t := t) rfl rfl rfl rfl rfl (by simp [Pc.leads_iff, hpc])
    · rename_i r rest hlocal
      obtain rfl := Option.some.inj hs
      have hunlisted : t ∉ s.localQueues := fun hm => by
        have hlisted := (ht.listed hm).2
        rw [hpc] at hlisted
        cases hlisted
      have hroom := ht.room
      rw [hlocal, List.length_cons] at hroom
      refine h.update (t := t) rfl ?_ (fun _ _ => id)
        ⟨nofun, by simp, fun hm => absurd hm hunlisted, ?_⟩
      · intro u hne
        simp [State.goto, State.setTicker, State.setLocal, Function.update_of_ne hne]
      · simp only [State.goto, State.setTicker, State.setLocal, Function.update_self, Pc.room]
        omega
  case dropSwap =>
    obtain rfl := Option.some.inj hs
    refine h.leave (t := t) rfl rfl rfl rfl rfl ?_ ?_ ?_ ?_ <;> dsimp only <;> split <;> simp [hpc]
  case dropLock id =>
    split at hs <;> cases hs
    exact h.move (t := t) rfl rfl rfl rfl rfl (by simp [Pc.leads_iff, hpc])
  case dropUnlock notified =>
    obtain rfl := Option.some.inj hs
    refine h.move (t := t) rfl rfl rfl rfl rfl ?_
    cases notified <;> simp [Pc.leads_iff, hpc]
  all_goals
    obtain rfl := Option.some.inj hs
    exact h.move (t := t) rfl rfl rfl rfl rfl (by simp [Pc.leads_iff, hpc])

theorem execCall_frame {c : Call} {next : Option Call} (hs : s.execCall c = some (next, s')) :
    s'.tickers = s.tickers ∧ s'.locals = s.locals ∧ s'.localQueues = s.localQueues ∧
      s'.calls = s.calls := by
  cases c <;> simp only [State.execCall] at hs
  case notify n =>
    obtain ⟨⟨m, u⟩, hn, heq⟩ := Option.map_eq_some_iff.mp hs
    obtain ⟨-, rfl⟩ := Prod.mk.inj heq
    obtain ⟨htk, hlocals, hlist, -, hcalls⟩ := execNotify_frame hn
    exact ⟨htk, hlocals, hlist, hcalls⟩
  all_goals repeat' split at hs
  all_goals
    obtain ⟨-, rfl⟩ := Prod.mk.inj (Option.some.inj hs)
    exact ⟨rfl, rfl, rfl, rfl⟩

/-- What a step can do. -/
theorem step_cases {a : Act} (hs : step s a = some s') :
    (∃ c, (a = .schedule c ∧ s' = { s with calls := .push c ::ₘ s.calls })) ∨
    (a = .tryTick ∧ s' = { s with calls := .tryPop ::ₘ s.calls }) ∨
    (∃ t, a = .newTicker t ∧ (s.tickers t).pc = .gone ∧
      s' = s.setTicker t ⟨false, .idle, 0, 0, none, 0⟩) ∨
    (∃ t, a = .newRunner t ∧ (s.tickers t).pc = .gone ∧
      s' = { s.setLocal t [] with localQueues := s.localQueues ++ [t] }.setTicker t
        ⟨true, .idle, 0, 0, none, 0⟩) ∨
    (∃ t w, a = .poll t w ∧ (s.tickers t).pc = .idle ∧
      s' = { s with woken := Function.update s.woken t false }.setTicker t
        { s.tickers t with pc := State.searchPc (s.tickers t).runner, waker := w, found := none }) ∨
    (∃ t, a = .drop t ∧ (s.tickers t).pc = .idle ∧
      s' = s.goto t (if (s.tickers t).runner then .dropRetain else .dropSwap)) ∨
    (∃ t choice, a = .ticker t choice ∧ (s.execSearch t choice = some s' ∨
      s.execSleep t = some s' ∨ s.execWake t = some s' ∨ s.execDrop t = some s')) ∨
    (∃ c rest next u, a = .call c ∧ s.calls = c ::ₘ rest ∧ s.execCall c = some (next, u) ∧
      s' = { u with calls := next.elim rest fun d => d ::ₘ rest }) := by
  cases a with
  | schedule c => exact .inl ⟨c, rfl, (Option.some.inj hs).symm⟩
  | tryTick => exact .inr (.inl ⟨rfl, (Option.some.inj hs).symm⟩)
  | newTicker t =>
    simp only [step] at hs
    split at hs <;> simp only [Option.some.injEq, reduceCtorEq] at hs
    rename_i hpc
    exact .inr (.inr (.inl ⟨t, rfl, hpc, hs.symm⟩))
  | newRunner t =>
    simp only [step] at hs
    split at hs <;> simp only [Option.some.injEq, reduceCtorEq] at hs
    rename_i hpc
    exact .inr (.inr (.inr (.inl ⟨t, rfl, hpc.1, hs.symm⟩)))
  | poll t w =>
    simp only [step] at hs
    split at hs <;> simp only [Option.some.injEq, reduceCtorEq] at hs
    rename_i hpc
    exact .inr (.inr (.inr (.inr (.inl ⟨t, w, rfl, hpc, hs.symm⟩))))
  | drop t =>
    simp only [step] at hs
    split at hs <;> simp only [Option.some.injEq, reduceCtorEq] at hs
    rename_i hpc
    exact .inr (.inr (.inr (.inr (.inr (.inl ⟨t, rfl, hpc, hs.symm⟩)))))
  | ticker t choice =>
    simp only [step, Option.orElse_eq_orElse, Option.orElse_eq_or, Option.or_eq_some_iff] at hs
    refine .inr (.inr (.inr (.inr (.inr (.inr (.inl ⟨t, choice, rfl, ?_⟩))))))
    tauto
  | call c =>
    simp only [step] at hs
    split at hs <;> simp only [Option.map_eq_some_iff, reduceCtorEq] at hs
    rename_i hmem
    obtain ⟨⟨next, u⟩, hexec, rfl⟩ := hs
    refine .inr (.inr (.inr (.inr (.inr (.inr (.inr ⟨c, s.calls.erase c, next, u, rfl, ?_, hexec, ?_⟩))))))
    · exact (Multiset.cons_erase hmem).symm
    · rw [(execCall_frame hexec).2.2.2]

theorem tickersOk_step {a : Act} (h : TickersOk s) (hs : step s a = some s') : TickersOk s' := by
  rcases step_cases hs with ⟨c, -, rfl⟩ | ⟨-, rfl⟩ | ⟨t, -, hpc, rfl⟩ | ⟨t, -, hpc, rfl⟩ |
    ⟨t, w, -, hpc, rfl⟩ | ⟨t, -, hpc, rfl⟩ | ⟨t, choice, -, hs⟩ | ⟨c, rest, next, u, -, -, hcall, rfl⟩
  · exact h
  · exact h
  · have ht := h t
    have hunlisted : t ∉ s.localQueues := fun hm => by
      have hlisted := (ht.listed hm).2
      rw [hpc] at hlisted
      cases hlisted
    refine h.update (t := t) rfl (fun _ _ => Nat.le_refl _) (fun _ _ => id)
      ⟨nofun, nofun, fun hm => absurd hm hunlisted, ?_⟩
    exact (Nat.le_add_right _ _).trans ht.room
  · refine h.update (t := t) rfl ?_ ?_ ⟨nofun, ?_, fun _ => ⟨rfl, rfl⟩, ?_⟩
    · intro u hne
      simp [State.setTicker, State.setLocal, Function.update_of_ne hne]
    · intro u hne hu
      simpa [State.setTicker, State.setLocal, hne] using hu
    · simp [State.setTicker, State.setLocal]
    · simp [State.setTicker, State.setLocal]
  · have ht := h t
    refine h.update (t := t) rfl (fun _ _ => Nat.le_refl _) (fun _ _ => id) ?_
    cases hr : (s.tickers t).runner with
    | true =>
      refine ⟨nofun, by simp [State.searchPc], fun hm => ⟨hr, rfl⟩, ?_⟩
      exact (Nat.le_add_right _ _).trans ht.room
    | false =>
      refine ⟨nofun, by simp [hr], fun hm => ?_, (Nat.le_add_right _ _).trans ht.room⟩
      exact absurd (ht.listed hm).1 (by simp [hr])
  · have ht := h t
    refine h.update (t := t) rfl (fun _ _ => Nat.le_refl _) (fun _ _ => id) ?_
    cases hr : (s.tickers t).runner with
    | true =>
      refine ⟨nofun, by simp, fun hm => ⟨hr, rfl⟩, (Nat.le_add_right _ _).trans ht.room⟩
    | false =>
      refine ⟨nofun, by simp [hr], fun hm => ?_, (Nat.le_add_right _ _).trans ht.room⟩
      exact absurd (ht.listed hm).1 (by simp [hr])
  · rcases hs with hs | hs | hs | hs
    · exact tickersOk_execSearch h hs
    · exact tickersOk_execSleep h hs
    · exact tickersOk_execWake h hs
    · exact tickersOk_execDrop h hs
  · obtain ⟨htk, hlocals, hlist, -⟩ := execCall_frame hcall
    intro t
    simpa only [htk, hlocals, hlist] using h t

end Tickers

/-! ## The ids of the sleepers -/

/-- The id the ticker has in the list of sleepers. -/
def Ticker.id (k : Ticker) : Option Nat :=
  if k.sleeping = 0 then k.pc.leaving else some k.sleeping

theorem Ticker.id_congr {k k' : Ticker} (hs : k'.sleeping = k.sleeping)
    (hpc : k'.pc.leaving = k.pc.leaving) : k'.id = k.id := by
  simp only [Ticker.id, hs, hpc]

structure Ids (s : State) : Prop where
  ok : ∃ ids : Finset Nat, Sleeper.Ok ids s.sleepers ∧
    ∀ i, i ∈ ids ↔ ∃ t, (s.tickers t).id = some i
  inj : ∀ t u i, (s.tickers t).id = some i → (s.tickers u).id = some i → t = u

section Ids

variable {s s' : State} {t : Tid}

theorem Ids.frame (h : Ids s) (hid : ∀ u, (s'.tickers u).id = (s.tickers u).id)
    (hsl : ∀ ids, Sleeper.Ok ids s.sleepers → Sleeper.Ok ids s'.sleepers) : Ids s' := by
  obtain ⟨⟨ids, hok, hmem⟩, hinj⟩ := h
  constructor
  · exact ⟨ids, hsl ids hok, fun i => by simp only [hid, hmem]⟩
  · simpa only [hid] using hinj

/-- A step of one ticker that keeps its id keeps all ids. -/
theorem id_update {k : Ticker} (htk : s'.tickers = Function.update s.tickers t k)
    (hk : k.id = (s.tickers t).id) (u : Tid) : (s'.tickers u).id = (s.tickers u).id := by
  rw [htk]
  rcases eq_or_ne u t with rfl | hne
  · rw [Function.update_self, hk]
  · rw [Function.update_of_ne hne]

theorem Ids.frame_ticker {k : Ticker} (h : Ids s)
    (htk : s'.tickers = Function.update s.tickers t k) (hk : k.id = (s.tickers t).id)
    (hsl : ∀ ids, Sleeper.Ok ids s.sleepers → Sleeper.Ok ids s'.sleepers) : Ids s' :=
  h.frame (id_update htk hk) hsl

/-- A ticker gets an id that nobody has. -/
theorem Ids.insert {w : Waker} {id : Nat} {sl : Sleeper} (h : Ids s) {k : Ticker}
    (hnone : (s.tickers t).id = none) (hi : s.sleepers.insert w = (id, sl)) (hk : k.id = some id)
    (htk : s'.tickers = Function.update s.tickers t k) (hsl : s'.sleepers = sl) : Ids s' := by
  obtain ⟨⟨ids, hok, hmem⟩, hinj⟩ := h
  obtain ⟨hnew, hok', -, -⟩ := Sleeper.ok_insert hok hi
  have hself : (s'.tickers t).id = some id := by rw [htk, Function.update_self, hk]
  have hother : ∀ u, u ≠ t → (s'.tickers u).id = (s.tickers u).id := by
    intro u hne
    rw [htk, Function.update_of_ne hne]
  constructor
  · refine ⟨Insert.insert id ids, hsl ▸ hok', fun i => ?_⟩
    rw [Finset.mem_insert, hmem]
    constructor
    · rintro (rfl | ⟨u, hu⟩)
      · exact ⟨t, hself⟩
      · have hne : u ≠ t := by
          rintro rfl
          rw [hnone] at hu
          cases hu
        exact ⟨u, (hother u hne).trans hu⟩
    · rintro ⟨u, hu⟩
      rcases eq_or_ne u t with rfl | hne
      · exact .inl (Option.some.inj (hu.symm.trans hself))
      · exact .inr ⟨u, (hother u hne).symm.trans hu⟩
  · have hfresh : ∀ u i, u ≠ t → (s'.tickers u).id = some i → i ≠ id := by
      rintro u i hne hu rfl
      rw [hother u hne] at hu
      exact hnew ((hmem i).mpr ⟨u, hu⟩)
    intro u v i hu hv
    rcases eq_or_ne u t with rfl | hut <;> rcases eq_or_ne v u with rfl | hvu
    · rfl
    · exact absurd (Option.some.inj (hu.symm.trans hself)) (hfresh v i hvu hv)
    · rfl
    · rcases eq_or_ne v t with rfl | hvt
      · exact absurd (Option.some.inj (hv.symm.trans hself)) (hfresh u i hut hu)
      · rw [hother u hut] at hu
        rw [hother v hvt] at hv
        exact hinj u v i hu hv

theorem Ids.remove (id : Nat) (h : Ids s) {k : Ticker} (hsome : (s.tickers t).id = some id)
    (hk : k.id = none) (htk : s'.tickers = Function.update s.tickers t k)
    (hsl : s'.sleepers = (s.sleepers.remove id).2) : Ids s' := by
  obtain ⟨⟨ids, hok, hmem⟩, hinj⟩ := h
  have hself : (s'.tickers t).id = none := by rw [htk, Function.update_self, hk]
  have hother : ∀ u, u ≠ t → (s'.tickers u).id = (s.tickers u).id := by
    intro u hne
    rw [htk, Function.update_of_ne hne]
  have hne_of : ∀ u i, (s'.tickers u).id = some i → u ≠ t := by
    rintro u i hu rfl
    rw [hself] at hu
    cases hu
  constructor
  · refine ⟨ids.erase id, hsl ▸ Sleeper.ok_remove hok ((hmem id).mpr ⟨t, hsome⟩), fun i => ?_⟩
    rw [Finset.mem_erase, hmem]
    constructor
    · rintro ⟨hne, u, hu⟩
      have hut : u ≠ t := by
        rintro rfl
        exact hne (Option.some.inj (hu.symm.trans hsome))
      exact ⟨u, (hother u hut).trans hu⟩
    · rintro ⟨u, hu⟩
      have hut := hne_of u i hu
      rw [hother u hut] at hu
      refine ⟨?_, u, hu⟩
      rintro rfl
      exact hut (hinj u t i hu hsome)
  · intro u v i hu hv
    have hut := hne_of u i hu
    have hvt := hne_of v i hv
    rw [hother u hut] at hu
    rw [hother v hvt] at hv
    exact hinj u v i hu hv

/-! ## What a step does to the list of sleepers -/

/-- Neither the list nor the ids change. -/
def SameList (s s' : State) : Prop :=
  s'.sleepers = s.sleepers ∧ ∀ u, (s'.tickers u).id = (s.tickers u).id

/-- The ticker gets an id. -/
def Inserts (t : Tid) (s s' : State) : Prop :=
  ∃ k w id, (s.tickers t).id = none ∧ s.sleepers.insert w = (id, s'.sleepers) ∧
    k.id = some id ∧ s'.tickers = Function.update s.tickers t k

/-- The ticker registers a waker under its id again. -/
def Updates (t : Tid) (s s' : State) : Prop :=
  ∃ w id, (s.tickers t).id = some id ∧ s'.sleepers = (s.sleepers.update id w).2 ∧
    ∀ u, (s'.tickers u).id = (s.tickers u).id

/-- `Sleeper::notify` runs. -/
def Notifies (s s' : State) : Prop :=
  s'.sleepers = s.sleepers.notify.2 ∧ ∀ u, (s'.tickers u).id = (s.tickers u).id

/-- The ticker gives its id back. -/
def Removes (t : Tid) (s s' : State) : Prop :=
  ∃ k id, (s.tickers t).id = some id ∧ s'.sleepers = (s.sleepers.remove id).2 ∧
    k.id = none ∧ s'.tickers = Function.update s.tickers t k

theorem SameList.of_update {k : Ticker} (htk : s'.tickers = Function.update s.tickers t k)
    (hsl : s'.sleepers = s.sleepers) (hk : k.id = (s.tickers t).id) : SameList s s' :=
  ⟨hsl, id_update htk hk⟩

/-- The ticker that a step registers, or registers again. -/
def State.registering (s : State) : Act → Option Tid
  | .ticker t _ => if (s.tickers t).pc = .sleepLock then some t else none
  | _ => none

/-- The step runs `Sleeper::notify`. -/
def State.notifying (s : State) : Act → Bool
  | .ticker t _ =>
    match (s.tickers t).pc with
    | .notify .lock _ => true
    | _ => false
  | .call c => c == .notify .lock
  | _ => false

theorem sameList_execSearch {choice : Nat} (hk : TickersOk s)
    (hs : s.execSearch t choice = some s') :
    SameList s s' ∧ (s.tickers t).pc ≠ .sleepLock ∧
      ∀ after, (s.tickers t).pc ≠ .notify .lock after := by
  obtain ⟨k, hsearch⟩ := searched_of_execSearch hk hs
  obtain ⟨hleaving, hne, hnn, -⟩ := Pc.of_searching hsearch.seeks.searching
  refine ⟨.of_update hsearch.tickers hsearch.sleepers ?_, hne, hnn .lock⟩
  exact Ticker.id_congr hsearch.sleeping (hsearch.seeks.leaving.trans hleaving.symm)

theorem execSleep_list (h : Ids s) (hs : s.execSleep t = some s') :
    (s.tickers t).pc = .sleepLock ∧ (Inserts t s s' ∨ Updates t s s') ∨
      (s.tickers t).pc ≠ .sleepLock ∧ (∀ after, (s.tickers t).pc ≠ .notify .lock after) ∧
        SameList s s' := by
  cases hpc : (s.tickers t).pc <;>
    simp only [State.execSleep, hpc, reduceCtorEq] at hs
  case sleepLock =>
    refine .inl ⟨rfl, ?_⟩
    split at hs
    · cases hs
    split at hs
    · rename_i hzero
      obtain ⟨ids, hok, -⟩ := h.ok
      rcases hins : s.sleepers.insert (s.tickers t).waker with ⟨id, sl⟩
      rw [hins] at hs
      obtain rfl := Option.some.inj hs
      have hpos := ((Sleeper.ok_insert hok hins).2.1.bound id (Finset.mem_insert_self _ _)).1
      refine .inl ⟨_, _, id, ?_, hins, ?_, rfl⟩
      · simp [Ticker.id, hzero, hpc, Pc.leaving]
      · simp [Ticker.id, Nat.ne_of_gt hpos]
    · rename_i hne
      split at hs
      all_goals
        obtain rfl := Option.some.inj hs
        refine .inr ⟨_, (s.tickers t).sleeping, by simp [Ticker.id, hne], rfl, ?_⟩
        refine id_update (t := t) rfl (Ticker.id_congr rfl ?_)
        simp only [hpc, Pc.leaving]
  all_goals
    obtain rfl := Option.some.inj hs
    refine .inr ⟨nofun, nofun, .of_update (t := t) rfl rfl (Ticker.id_congr rfl ?_)⟩
  · simp only [hpc, Pc.leaving]
  · cases hr : (s.tickers t).runner <;> simp [hpc, State.searchPc, Pc.leaving]

theorem execNotify_list {n : Notify} {next : Option Notify}
    (hs : s.execNotify n = some (next, s')) :
    n = .lock ∧ Notifies s s' ∨ n ≠ .lock ∧ SameList s s' := by
  cases n <;> simp only [State.execNotify] at hs
  case cas =>
    refine .inr ⟨nofun, ?_⟩
    split at hs <;> cases hs <;> exact ⟨rfl, fun _ => rfl⟩
  case lock =>
    split at hs <;> cases hs
    exact .inl ⟨rfl, rfl, fun _ => rfl⟩
  case wake w =>
    cases hs
    exact .inr ⟨nofun, rfl, fun _ => rfl⟩

theorem removes_goto {id : Nat} {pc : Pc} (hzero : (s.tickers t).sleeping = 0)
    (hpc : (s.tickers t).pc.leaving = some id) (hnext : pc.leaving = none) :
    Removes t s ({ s with sleepers := (s.sleepers.remove id).2, locked := true }.goto t pc) :=
  ⟨_, id, by simp [Ticker.id, hzero, hpc], rfl, by simp [Ticker.id, hzero, hnext], rfl⟩

theorem execWake_list (hk : TickersOk s) (hs : s.execWake t = some s') :
    (s.tickers t).pc ≠ .sleepLock ∧
      ((∃ after, (s.tickers t).pc = .notify .lock after) ∧ Notifies s s' ∨
        (∀ after, (s.tickers t).pc ≠ .notify .lock after) ∧
          (SameList s s' ∨ Removes t s s')) := by
  have hawake := (hk t).awake
  cases hpc : (s.tickers t).pc <;>
    simp only [State.execWake, hpc, reduceCtorEq] at hs
  all_goals refine ⟨nofun, ?_⟩
  case notify n after =>
    obtain ⟨⟨next, u⟩, hn, rfl⟩ := Option.map_eq_some_iff.mp hs
    have htk := (execNotify_frame hn).1
    have hid : ∀ v, ((u.goto t (next.elim (State.afterNotify (s.tickers t).runner after)
        fun n => .notify n after)).tickers v).id = (u.tickers v).id := by
      refine id_update (t := t) rfl (Ticker.id_congr rfl ?_)
      rw [htk, hpc]
      cases next <;> cases after <;> cases (s.tickers t).runner <;> rfl
    obtain ⟨rfl, hsl, hu⟩ | ⟨hne, hsl, hu⟩ := execNotify_list hn
    · exact .inl ⟨⟨after, rfl⟩, hsl, fun v => (hid v).trans (hu v)⟩
    · refine .inr ⟨fun b hb => hne ?_, .inl ⟨hsl, fun v => (hid v).trans (hu v)⟩⟩
      cases hb
      rfl
  case wakeSwap =>
    obtain rfl := Option.some.inj hs
    refine .inr ⟨nofun, .inl (.of_update (t := t) rfl rfl ?_)⟩
    by_cases hzero : (s.tickers t).sleeping = 0 <;> simp [Ticker.id, hpc, hzero, Pc.leaving]
  case wakeLock id =>
    split at hs
    · cases hs
    · obtain rfl := Option.some.inj hs
      exact .inr ⟨nofun, .inr (removes_goto (hawake (by rw [hpc]; rfl)) (by rw [hpc]; rfl) rfl)⟩
  case tick =>
    obtain rfl := Option.some.inj hs
    refine .inr ⟨nofun, .inl (.of_update (t := t) rfl rfl ?_)⟩
    by_cases htick : (s.tickers t).ticks % 64 = 0 <;> simp [Ticker.id, hpc, htick, Pc.leaving]
  all_goals
    obtain rfl := Option.some.inj hs
    refine .inr ⟨nofun, .inl (.of_update (t := t) rfl rfl (Ticker.id_congr rfl ?_))⟩
    simp only [hpc, Pc.leaving]

theorem execDrop_list (hk : TickersOk s) (hs : s.execDrop t = some s') :
    ((s.tickers t).pc ≠ .sleepLock ∧ ∀ after, (s.tickers t).pc ≠ .notify .lock after) ∧
      (SameList s s' ∨ Removes t s s') := by
  have hawake := (hk t).awake
  cases hpc : (s.tickers t).pc <;>
    simp only [State.execDrop, hpc, reduceCtorEq] at hs
  all_goals refine ⟨⟨nofun, nofun⟩, ?_⟩
  case dropSwap =>
    obtain rfl := Option.some.inj hs
    refine .inl (.of_update (t := t) rfl rfl ?_)
    by_cases hzero : (s.tickers t).sleeping = 0 <;> simp [Ticker.id, hpc, hzero, Pc.leaving]
  case dropLock id =>
    split at hs
    · cases hs
    · obtain rfl := Option.some.inj hs
      exact .inr (removes_goto (hawake (by rw [hpc]; rfl)) (by rw [hpc]; rfl) rfl)
  case dropUnlock notified =>
    obtain rfl := Option.some.inj hs
    refine .inl (.of_update (t := t) rfl rfl (Ticker.id_congr rfl ?_))
    cases notified <;> simp [hpc, Pc.leaving]
  all_goals repeat' split at hs
  all_goals simp only [Option.some.injEq, reduceCtorEq] at hs
  all_goals
    subst hs
    refine .inl (.of_update (t := t) rfl rfl (Ticker.id_congr rfl ?_))
    simp only [hpc, Pc.leaving]

/-- What a step does to the list: it registers a ticker, runs `Sleeper::notify`, takes a
ticker off, or leaves the list alone. -/
theorem step_list {a : Act} (h : Ids s) (hk : TickersOk s) (hs : step s a = some s') :
    (∃ t, s.registering a = some t ∧ (Inserts t s s' ∨ Updates t s s')) ∨
    s.registering a = none ∧ (s.notifying a = true ∧ Notifies s s' ∨
      s.notifying a = false ∧ (SameList s s' ∨ ∃ t, Removes t s s')) := by
  rcases step_cases hs with ⟨c, rfl, rfl⟩ | ⟨rfl, rfl⟩ | ⟨t, rfl, hpc, rfl⟩ | ⟨t, rfl, hpc, rfl⟩ |
    ⟨t, w, rfl, hpc, rfl⟩ | ⟨t, rfl, hpc, rfl⟩ | ⟨t, choice, rfl, hexec⟩ |
    ⟨c, rest, next, u, rfl, -, hcall, rfl⟩
  · exact .inr ⟨rfl, .inr ⟨rfl, .inl ⟨rfl, fun _ => rfl⟩⟩⟩
  · exact .inr ⟨rfl, .inr ⟨rfl, .inl ⟨rfl, fun _ => rfl⟩⟩⟩
  · have hzero := (hk t).awake (by rw [hpc]; rfl)
    refine .inr ⟨rfl, .inr ⟨rfl, .inl (.of_update (t := t) rfl rfl ?_)⟩⟩
    simp [Ticker.id, hpc, hzero, Pc.leaving]
  · have hzero := (hk t).awake (by rw [hpc]; rfl)
    refine .inr ⟨rfl, .inr ⟨rfl, .inl (.of_update (t := t) rfl rfl ?_)⟩⟩
    simp [Ticker.id, hpc, hzero, Pc.leaving]
  · refine .inr ⟨rfl, .inr ⟨rfl, .inl (.of_update (t := t) rfl rfl (Ticker.id_congr rfl ?_))⟩⟩
    cases hr : (s.tickers t).runner <;> simp [hpc, State.searchPc, Pc.leaving]
  · refine .inr ⟨rfl, .inr ⟨rfl, .inl (.of_update (t := t) rfl rfl (Ticker.id_congr rfl ?_))⟩⟩
    cases hr : (s.tickers t).runner <;> simp [hpc, Pc.leaving]
  · have hreg : (s.tickers t).pc ≠ .sleepLock → s.registering (.ticker t choice) = none :=
      fun hne => if_neg hne
    have hnot : (∀ after, (s.tickers t).pc ≠ .notify .lock after) →
        s.notifying (.ticker t choice) = false := by
      intro hne
      cases hpc : (s.tickers t).pc with
      | notify n after =>
        cases n with
        | lock => exact absurd hpc (hne after)
        | cas | wake w => simp [State.notifying, hpc]
      | _ => simp [State.notifying, hpc]
    rcases hexec with hs | hs | hs | hs
    · obtain ⟨hlist, hne, hnn⟩ := sameList_execSearch hk hs
      exact .inr ⟨hreg hne, .inr ⟨hnot hnn, .inl hlist⟩⟩
    · obtain ⟨hpc, hlist⟩ | ⟨hne, hnn, hlist⟩ := execSleep_list h hs
      · exact .inl ⟨t, if_pos hpc, hlist⟩
      · exact .inr ⟨hreg hne, .inr ⟨hnot hnn, .inl hlist⟩⟩
    · obtain ⟨hne, ⟨⟨after, hpc⟩, hlist⟩ | ⟨hnn, hlist⟩⟩ := execWake_list hk hs
      · exact .inr ⟨hreg hne, .inl ⟨by simp [State.notifying, hpc], hlist⟩⟩
      · exact .inr ⟨hreg hne, .inr ⟨hnot hnn, hlist.imp_right fun hr => ⟨t, hr⟩⟩⟩
    · obtain ⟨⟨hne, hnn⟩, hlist⟩ := execDrop_list hk hs
      exact .inr ⟨hreg hne, .inr ⟨hnot hnn, hlist.imp_right fun hr => ⟨t, hr⟩⟩⟩
  · refine .inr ⟨rfl, ?_⟩
    cases c with
    | notify n =>
      obtain ⟨⟨m, v⟩, hn, heq⟩ := Option.map_eq_some_iff.mp hcall
      obtain ⟨-, rfl⟩ := Prod.mk.inj heq
      obtain ⟨rfl, hlist⟩ | ⟨hne, hlist⟩ := execNotify_list hn
      · exact .inl ⟨rfl, hlist⟩
      · exact .inr ⟨by simp [State.notifying, hne], .inl hlist⟩
    | push r =>
      obtain ⟨-, rfl⟩ := Prod.mk.inj (Option.some.inj hcall)
      exact .inr ⟨rfl, .inl ⟨rfl, fun _ => rfl⟩⟩
    | tryPop =>
      simp only [State.execCall] at hcall
      split at hcall
      all_goals
        obtain ⟨-, rfl⟩ := Prod.mk.inj (Option.some.inj hcall)
        exact .inr ⟨rfl, .inl ⟨rfl, fun _ => rfl⟩⟩

theorem ids_step {a : Act} (h : Ids s) (hk : TickersOk s) (hs : step s a = some s') : Ids s' := by
  obtain ⟨t, -, ⟨k, w, id, hnone, hins, hid, htk⟩ | ⟨w, id, hown, hsl, hid⟩⟩ |
    ⟨-, ⟨-, hsl, hid⟩ | ⟨-, ⟨hsl, hid⟩ | ⟨t, k, id, hown, hsl, hnone, htk⟩⟩⟩ := step_list h hk hs
  · exact h.insert hnone hins hid htk rfl
  · obtain ⟨⟨ids, hok, hmem⟩, hinj⟩ := h
    have hupdate := Sleeper.ok_update (w := w) hok ((hmem id).mpr ⟨t, hown⟩)
    exact ⟨⟨ids, hsl ▸ hupdate, by simpa only [hid] using hmem⟩, by simpa only [hid] using hinj⟩
  · exact h.frame hid fun ids hok => hsl ▸ Sleeper.ok_notify hok
  · exact h.frame hid fun ids hok => hsl ▸ hok
  · exact h.remove id hown hnone htk hsl

end Ids

end Cynthia.Executor
