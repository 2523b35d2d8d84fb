import Cynthia.Executor.Stealing

/-! Stealing loses nothing and its assertion holds. Only the runner itself pushes to its
local queue, so the room that `steal` has computed can only grow while it is filled; and a
runner that has left `local_queues` is alone with its local queue. -/

namespace Cynthia.Executor.Stealing

open Transition Queue Census

variable {s s' : State} {t u : Tid} {pc old : Pc} {q l : Local} {r : Runnable} {choice : Nat}
  {queues left again : List Nat} {job : Job} {pos : Steal}

/-! ## One runner -/

/-- What is known of the local queue `q` inside `steal`. -/
def Steal.Room (q : Local) : Steal → Prop
  | .srcLen _ | .destLen _ .tail => True
  | .destLen _ (.head tl) => tl = q.tail
  | .destLen _ (.again tl hd) => tl = q.tail ∧ ∃ h, hd = capacity.word h ∧ h ≤ q.popped ∧
    q.pushed ≤ h + capacity.val
  | .pop count => q.items.length + count ≤ capacity.val
  | .push count _ => q.items.length + count < capacity.val

namespace Pc

def Place (q : Local) : Pc → Prop
  | .steal _ pos => pos.Room q
  | .panicked => False
  | _ => True

/-- The local queue is in `local_queues`. -/
def registered : Pc → Bool
  | .unborn | .register | .drainPop | .drainPush _ | .dropped => false
  | _ => true

/-- The local queue is in `local_queues` no more. -/
def gone : Pc → Bool
  | .drainPop | .drainPush _ | .dropped => true
  | _ => false

/-- The other local queues that the scan steals from. -/
def targets : Pc → List Tid
  | .steal (.scan u rest) _ => u :: rest
  | .scanPop rest => rest
  | _ => []

end Pc

/-- The runner `t` with the local queue `q`, and what its drop has found and scheduled. -/
structure Ok (queues : List Tid) (left again : List Runnable) (t : Tid) (q : Local) (pc : Pc) :
    Prop where
  room : q.items.length ≤ capacity.val
  place : pc.Place q
  registered : pc.registered = true → t ∈ queues
  targets : ∀ u ∈ pc.targets, u ∈ queues
  gone : pc.gone = true → t ∉ queues ∧ left.Nodup ∧ left = again ++ (pc.held ++ q.items)
  dropped : pc = .dropped → q.items = []
  fresh : pc.gone = false → again = []

/-- Somebody else pops from the local queue. -/
theorem Ok.popped (h : Ok queues left again t q pc) (ht : t ∈ queues)
    (hitems : q.items = r :: l.items) (hpopped : l.popped = q.popped + 1) :
    Ok queues left again t l pc := by
  have hpushed : l.pushed = q.pushed := by
    simp only [Local.pushed, hitems, hpopped, List.length_cons]
    omega
  have hlen : l.items.length ≤ q.items.length := by simp [hitems]
  refine ⟨Nat.le_trans hlen h.room, ?_, h.registered, h.targets, ?_, ?_, h.fresh⟩
  · have hplace := h.place
    cases pc with
    | steal job pos =>
      cases pos with
      | srcLen len => trivial
      | destLen count len =>
        cases len with
        | tail => trivial
        | head tl => simpa only [Pc.Place, Steal.Room, Local.tail, hpushed] using hplace
        | again tl hd =>
          obtain ⟨htail, i, hhead, hi, hcap⟩ := hplace
          refine ⟨?_, i, hhead, ?_, ?_⟩
          · rw [htail, Local.tail, Local.tail, hpushed]
          · omega
          · rw [hpushed]
            exact hcap
      | pop count => exact Nat.le_trans (Nat.add_le_add_right hlen count) hplace
      | push count r => exact Nat.lt_of_le_of_lt (Nat.add_le_add_right hlen count) hplace
    | panicked => exact hplace
    | _ => trivial
  · intro hgone
    exact absurd ht (h.gone hgone).1
  · rintro rfl
    exact absurd ht (h.gone rfl).1

/-! ## All of them -/

structure Inv (s : State) : Prop where
  fresh : Fresh .unborn s.started s.runners
  bounded : ∀ u ∈ s.localQueues, u < s.started
  ok : ∀ t, Ok s.localQueues (s.left t) (s.again t) t (s.locals t) (s.runners t)
  copies : ∀ r, s.copies r = if r < s.scheduled then 1 else 0

/-- The runner `t` steps, and the local queue of `u` becomes `l`. -/
structure Moves (s s' : State) (t u : Tid) (pc : Pc) (l : Local) (again : List Runnable) :
    Prop where
  runners : s'.runners = Function.update s.runners t pc
  locals : s'.locals = Function.update s.locals u l
  again : s'.again = Function.update s.again t again
  left : s'.left = s.left
  localQueues : s'.localQueues = s.localQueues
  started : s'.started = s.started
  scheduled : s'.scheduled = s.scheduled

/-- The places of the runnables before and after. -/
theorem Moves.copies (hm : Moves s s' t u pc l again) (ht : t < s.started) (hu : u < s.started)
    (r : Runnable) :
    s'.copies r + (s.queue.count r + s.handed.count r + (s.locals u).items.count r +
        (s.runners t).held.count r) =
      s.copies r + (s'.queue.count r + s'.handed.count r + l.items.count r + pc.held.count r) := by
  have hlocals := total_update (fun q : Local => q.items.count r) s.locals l hu
  have hrunners := total_update (fun pc : Pc => pc.held.count r) s.runners pc ht
  simp only [State.copies, hm.runners, hm.locals, hm.started]
  omega

theorem Inv.move (h : Inv s) (hm : Moves s s' t u pc l again) (hne : s.runners t ≠ .unborn)
    (hu : u = t ∨ u ∈ s.localQueues ∧ ∃ r, (s.locals u).items = r :: l.items ∧
      l.popped = (s.locals u).popped + 1)
    (hcount : ∀ r, s'.queue.count r + s'.handed.count r + l.items.count r + pc.held.count r =
      s.queue.count r + s.handed.count r + (s.locals u).items.count r +
        (s.runners t).held.count r)
    (hok : Ok s.localQueues (s.left t) again t (Function.update s.locals u l t) pc) : Inv s' := by
  have ht : t < s.started := h.fresh.lt hne
  have hustarted : u < s.started := by
    obtain rfl | ⟨hmem, -⟩ := hu
    · exact ht
    · exact h.bounded u hmem
  constructor
  · rw [hm.started, hm.runners]
    exact h.fresh.update ht
  · rw [hm.localQueues, hm.started]
    exact h.bounded
  · intro v
    rw [hm.localQueues, hm.left, hm.again, hm.locals, hm.runners]
    obtain rfl | hv := eq_or_ne v t
    · simpa only [Function.update_self] using hok
    · rw [Function.update_of_ne hv, Function.update_of_ne hv]
      obtain rfl | hvu := eq_or_ne v u
      · obtain rfl | ⟨hmem, r, hitems, hpopped⟩ := hu
        · exact absurd rfl hv
        · rw [Function.update_self]
          exact (h.ok v).popped hmem hitems hpopped
      · rw [Function.update_of_ne hvu]
        exact h.ok v
  · intro r
    have hsum := hm.copies ht hustarted r
    rw [hcount r] at hsum
    rw [hm.scheduled, ← h.copies r]
    omega

theorem pop_eq_some (h : q.pop = some (r, l)) :
    q.items = r :: l.items ∧ l.popped = q.popped + 1 := by
  unfold Local.pop at h
  split at h
  · cases h
  · rename_i hitems
    cases h
    exact ⟨hitems, rfl⟩

theorem pop_eq_none (h : q.pop = none) : q.items = [] := by
  unfold Local.pop at h
  split at h
  · assumption
  · cases h

/-- A step inside the same phase of the runner's life. -/
theorem Ok.goto (h : Ok queues left again t q old) (hold : old.gone = false)
    (hplace : pc.Place q) (hgone : pc.gone = false)
    (hregistered : pc.registered = true → old.registered = true)
    (htargets : ∀ u ∈ pc.targets, u ∈ queues) : Ok queues left again t q pc where
  room := h.room
  place := hplace
  registered hr := h.registered (hregistered hr)
  targets := htargets
  gone hg := absurd hg (by simp [hgone])
  dropped hd := by
    subst hd
    cases hgone
  fresh _ := h.fresh hold

/-- A step that leaves the local queues alone. -/
theorem Inv.keep {queue handed : List Runnable} {ticks : Tid → Nat} (h : Inv s)
    (hpc : s.runners t = old) (hne : old ≠ .unborn)
    (hcount : ∀ i, queue.count i + handed.count i + pc.held.count i =
      s.queue.count i + s.handed.count i + old.held.count i)
    (hok : Ok s.localQueues (s.left t) (s.again t) t (s.locals t) pc) :
    Inv { s with queue, handed, ticks, runners := Function.update s.runners t pc } := by
  have hm : Moves s { s with queue, handed, ticks, runners := Function.update s.runners t pc }
      t t pc (s.locals t) (s.again t) :=
    ⟨rfl, (Function.update_eq_self _ _).symm, (Function.update_eq_self _ _).symm, rfl, rfl, rfl,
      rfl⟩
  refine h.move hm (hpc ▸ hne) (.inl rfl) ?_ ?_
  · intro i
    have := hcount i
    rw [hpc]
    dsimp only
    omega
  · rwa [Function.update_eq_self]

theorem Inv.goto (h : Inv s) (hpc : s.runners t = old) (hne : old ≠ .unborn)
    (hheld : pc.held = old.held) (hok : Ok s.localQueues (s.left t) (s.again t) t (s.locals t) pc) :
    Inv (s.goto t pc) :=
  h.keep hpc hne (fun _ => by rw [hheld]) hok

/-- The runner pops its own local queue. -/
theorem Inv.popped (h : Inv s) (hpc : s.runners t = old) (hne : old ≠ .unborn)
    (hpop : (s.locals t).pop = some (r, q)) (hheld : ∀ i, pc.held.count i = (r :: old.held).count i)
    (hok : Ok s.localQueues (s.left t) (s.again t) t q pc) : Inv ((s.setLocal t q).goto t pc) := by
  obtain ⟨hitems, -⟩ := pop_eq_some hpop
  have hm : Moves s ((s.setLocal t q).goto t pc) t t pc q (s.again t) :=
    ⟨rfl, rfl, (Function.update_eq_self _ _).symm, rfl, rfl, rfl, rfl⟩
  refine h.move hm (hpc ▸ hne) (.inl rfl) ?_ ?_
  · intro i
    simp only [State.goto, State.setLocal, hpc, hitems, hheld, List.count_cons]
    omega
  · rwa [Function.update_self]

theorem place_scan (rest : List Tid) : (scan rest).Place q := by
  cases rest <;> trivial

theorem scan_frame (rest : List Tid) : (scan rest).gone = false ∧ (scan rest).registered = true ∧
    (scan rest).held = [] ∧ (scan rest).targets = rest := by
  cases rest <;> exact ⟨rfl, rfl, rfl, rfl⟩

theorem afterSteal_frame (job : Job) (pos : Steal) :
    (afterSteal job).Place q ∧ (afterSteal job).gone = false ∧ (afterSteal job).registered = true ∧
      (afterSteal job).held = (Pc.steal job (.srcLen .tail)).held ∧
      ∀ u ∈ (afterSteal job).targets, u ∈ (Pc.steal job pos).targets := by
  cases job with
  | found r | tick r => exact ⟨trivial, rfl, rfl, rfl, fun _ h => h⟩
  | scan u rest => exact ⟨trivial, rfl, rfl, rfl, fun _ h => List.mem_cons_of_mem _ h⟩

/-- `Bounded::len` of the own local queue is exact when its last load is made. -/
theorem len_le {tl hd : Nat} (hroom : (Steal.destLen 0 (.again tl hd)).Room q) :
    capacity.lenOf tl hd ≤ capacity.val ∧ q.items.length ≤ capacity.lenOf tl hd := by
  obtain ⟨rfl, i, rfl, hi, hcap⟩ := hroom
  have hle : i ≤ q.pushed := Nat.le_trans hi (Nat.le_add_right _ _)
  rw [Local.tail, capacity.lenOf_word hle hcap]
  have hpushed : q.pushed = q.popped + q.items.length := rfl
  omega

/-! ## Steps of `steal` -/

/-- Between positions of `steal`, when the local queue has changed too. -/
theorem Ok.steal {pos' : Steal} (h : Ok queues left again t q (.steal job pos))
    (hlen : l.items.length ≤ capacity.val) (hroom : pos'.Room l) :
    Ok queues left again t l (.steal job pos') where
  room := hlen
  place := hroom
  registered _ := h.registered rfl
  targets u hu := by
    refine h.targets u ?_
    cases job with
    | found r | tick r => cases hu
    | scan v rest => exact hu
  gone := nofun
  dropped := nofun
  fresh _ := h.fresh rfl

/-- A step from one position of `steal` to another that moves no runnable. -/
theorem Inv.steal_goto {pos' : Steal} (h : Inv s) (hpc : s.runners t = .steal job pos)
    (hheld : (Pc.steal job pos').held = (Pc.steal job pos).held) (hroom : pos'.Room (s.locals t)) :
    Inv (s.goto t (.steal job pos')) := by
  have hok := h.ok t
  rw [hpc] at hok
  exact h.goto hpc nofun hheld (hok.steal hok.room hroom)

/-- `steal` returns, with nothing in its hands. -/
theorem Inv.steal_return (h : Inv s) (hpc : s.runners t = .steal job pos)
    (hheld : (Pc.steal job pos).held = (Pc.steal job (.srcLen .tail)).held) :
    Inv (s.goto t (afterSteal job)) := by
  have hok := h.ok t
  rw [hpc] at hok
  obtain ⟨hplace, hgone, -, hheld', htargets⟩ := afterSteal_frame (q := s.locals t) job pos
  exact h.goto hpc nofun (hheld'.trans hheld.symm)
    (hok.goto rfl hplace hgone (fun _ => rfl) fun u hu => hok.targets u (htargets u hu))

theorem Inv.counted {len : Len} (h : Inv s) (hpc : s.runners t = .steal job (.srcLen len))
    (n : Nat) : Inv (s.counted t job n) := by
  simp only [State.counted]
  split
  · exact h.steal_goto hpc rfl trivial
  · exact h.steal_return hpc rfl

theorem Inv.srcLen {len : Len} (h : Inv s) (hpc : s.runners t = .steal job (.srcLen len)) :
    Inv (s.execSteal t choice job (.srcLen len)) := by
  cases job with
  | found r | tick r => exact h.counted hpc choice
  | scan u rest =>
    simp only [State.execSteal]
    split
    · exact h.steal_goto hpc rfl trivial
    · exact h.counted hpc _

theorem Inv.destLen {count : Nat} {len : Len} (h : Inv s)
    (hpc : s.runners t = .steal job (.destLen count len)) :
    Inv (s.execSteal t choice job (.destLen count len)) := by
  have hok := h.ok t
  rw [hpc] at hok
  cases len with
  | tail => exact h.steal_goto hpc rfl rfl
  | head tl =>
    refine h.steal_goto hpc rfl ⟨hok.place, (s.locals t).popped, rfl, Nat.le_refl _, ?_⟩
    exact Nat.add_le_add_left hok.room _
  | again tl hd =>
    obtain ⟨hle, hlen⟩ := len_le hok.place
    simp only [State.execSteal, Len.exec]
    by_cases htail : (s.locals t).tail = tl
    · simp only [if_pos htail, if_pos hle]
      refine h.steal_goto hpc rfl ?_
      have hmin := Nat.min_le_right count (capacity.val - capacity.lenOf tl hd)
      simp only [Steal.Room]
      omega
    · simp only [if_neg htail]
      exact h.steal_goto hpc rfl trivial

theorem Inv.stealPop {count : Nat} (h : Inv s) (hpc : s.runners t = .steal job (.pop count)) :
    Inv (s.execSteal t choice job (.pop count)) := by
  have hok := h.ok t
  rw [hpc] at hok
  cases count with
  | zero => exact h.steal_return hpc rfl
  | succ count =>
    have hroom : (s.locals t).items.length + count < capacity.val := hok.place
    simp only [State.execSteal]
    split
    · exact h.steal_return hpc rfl
    · rename_i r s' hpop
      cases job with
      | found i | tick i =>
        simp only [State.popSource] at hpop
        split at hpop
        · cases hpop
        · rename_i queue hqueue
          cases hpop
          refine h.keep hpc nofun ?_ (hok.steal hok.room hroom)
          intro j
          simp only [hqueue, Pc.held, List.count_cons, List.count_append, List.count_nil]
          omega
      | scan u rest =>
        obtain ⟨⟨r', l⟩, hl, heq⟩ := Option.map_eq_some_iff.mp hpop
        cases heq
        obtain ⟨hitems, hpopped⟩ := pop_eq_some hl
        have hlen : (Function.update s.locals u l t).items.length ≤ (s.locals t).items.length := by
          obtain rfl | hne := eq_or_ne t u
          · simp [hitems]
          · rw [Function.update_of_ne hne]
        have hm : Moves s ((s.setLocal u l).goto t (.steal (.scan u rest) (.push count r))) t u
            (.steal (.scan u rest) (.push count r)) l (s.again t) :=
          ⟨rfl, rfl, (Function.update_eq_self _ _).symm, rfl, rfl, rfl, rfl⟩
        refine h.move hm (by simp [hpc])
          (.inr ⟨hok.targets u List.mem_cons_self, r, hitems, hpopped⟩) ?_ ?_
        · intro j
          simp only [State.goto, State.setLocal, hpc, hitems, Pc.held, List.count_cons,
            List.count_append, List.count_nil]
          omega
        · refine hok.steal (Nat.le_trans hlen hok.room) ?_
          exact Nat.lt_of_le_of_lt (Nat.add_le_add_right hlen count) hroom

theorem Inv.stealPush {count : Nat} (h : Inv s)
    (hpc : s.runners t = .steal job (.push count r)) :
    Inv (s.execSteal t choice job (.push count r)) := by
  have hok := h.ok t
  rw [hpc] at hok
  have hroom : (s.locals t).items.length + count < capacity.val := hok.place
  have hpush : (s.locals t).push r =
      some { s.locals t with items := (s.locals t).items ++ [r] } :=
    if_pos (Nat.lt_of_le_of_lt (Nat.le_add_right _ _) hroom)
  simp only [State.execSteal, hpush]
  have hm : Moves s (((s.setLocal t { s.locals t with items := (s.locals t).items ++ [r] }).goto t
      (.steal job (.pop count)))) t t (.steal job (.pop count))
      { s.locals t with items := (s.locals t).items ++ [r] } (s.again t) :=
    ⟨rfl, rfl, (Function.update_eq_self _ _).symm, rfl, rfl, rfl, rfl⟩
  refine h.move hm (by simp [hpc]) (.inl rfl) ?_ ?_
  · intro j
    simp only [State.goto, State.setLocal, hpc, Pc.held, List.count_append, List.nil_append]
    omega
  · rw [Function.update_self]
    refine hok.steal ?_ ?_
    · simp only [List.length_append, List.length_singleton]
      omega
    · simp only [Steal.Room, List.length_append, List.length_singleton]
      omega

theorem Inv.execSteal (h : Inv s) (hpc : s.runners t = .steal job pos) :
    Inv (s.execSteal t choice job pos) := by
  cases pos with
  | srcLen len => exact h.srcLen hpc
  | destLen count len => exact h.destLen hpc
  | pop count => exact h.stealPop hpc
  | push count r => exact h.stealPush hpc

/-! ## `local_queues` -/

/-- A step that changes `local_queues`. -/
theorem Inv.requeue {left : Tid → List Runnable} (h : Inv s) (hpc : s.runners t = old)
    (hne : old ≠ .unborn) (hheld : pc.held = old.held) (hqueues : ∀ u ∈ queues, u < s.started)
    (hok : Ok queues (left t) (s.again t) t (s.locals t) pc)
    (hothers : ∀ v, v ≠ t → Ok queues (left v) (s.again v) v (s.locals v) (s.runners v)) :
    Inv { s with
      localQueues := queues, left, runners := Function.update s.runners t pc } := by
  have ht : t < s.started := h.fresh.lt (hpc ▸ hne)
  refine ⟨h.fresh.update ht, hqueues, ?_, ?_⟩
  · intro v
    dsimp only
    obtain rfl | hv := eq_or_ne v t
    · rwa [Function.update_self]
    · rw [Function.update_of_ne hv]
      exact hothers v hv
  · intro r
    have hrunners := total_update (fun pc : Pc => pc.held.count r) s.runners pc ht
    have := h.copies r
    simp only [State.copies, hpc, hheld] at this hrunners ⊢
    omega

theorem Inv.register (h : Inv s) (hpc : s.runners t = .register) :
    Inv ({ s with localQueues := s.localQueues ++ [t] }.goto t .idle) := by
  have hok := h.ok t
  rw [hpc] at hok
  refine h.requeue hpc nofun rfl ?_ ?_ ?_
  · intro u hu
    obtain hu | hu := List.mem_append.mp hu
    · exact h.bounded u hu
    · rw [List.mem_singleton.mp hu]
      exact h.fresh.lt (by simp [hpc])
  · exact
      { room := hok.room, place := trivial, registered := fun _ => by simp, targets := nofun,
        gone := nofun, dropped := nofun, fresh := fun _ => hok.fresh rfl }
  · intro v hv
    have hov := h.ok v
    refine ⟨hov.room, hov.place, fun hr => List.mem_append_left _ (hov.registered hr),
      fun u hu => List.mem_append_left _ (hov.targets u hu), ?_, hov.dropped, hov.fresh⟩
    intro hgone
    obtain ⟨hmem, hrest⟩ := hov.gone hgone
    exact ⟨by simp [hmem, hv], hrest⟩

/-- No runnable is twice in a local queue. -/
theorem Inv.items_nodup (h : Inv s) (ht : t < s.started) : (s.locals t).items.Nodup := by
  rw [List.nodup_iff_count_le_one]
  intro r
  have hle := le_total (fun q : Local => q.items.count r) s.locals ht
  have hcopies := h.copies r
  have hone : s.copies r ≤ 1 := by
    rw [hcopies]
    split <;> omega
  simp only [State.copies] at hone
  omega

theorem targets_of_not_read (h : Inv s) (hread : s.read = false) (t : Tid) :
    (s.runners t).targets = [] := by
  obtain ht | ht := Nat.lt_or_ge t s.started
  · have hreads : (s.runners t).reads = false := by
      simp only [State.read, List.any_eq_false, List.mem_range] at hread
      simpa using hread t ht
    revert hreads
    cases s.runners t with
    | steal job pos => cases job <;> simp [Pc.reads, Pc.targets]
    | _ => simp [Pc.reads, Pc.targets]
  · rw [h.fresh t ht]
    rfl

/-- Nobody reads `local_queues`, so nobody is about to steal from the local queue. -/
theorem Inv.dropRetain (h : Inv s) (hpc : s.runners t = .dropRetain) (hread : s.read = false) :
    Inv ({ s with
      localQueues := s.localQueues.filter (· ≠ t)
      left := Function.update s.left t (s.locals t).items }.goto t .drainPop) := by
  have hok := h.ok t
  rw [hpc] at hok
  refine h.requeue hpc nofun rfl ?_ ?_ ?_ <;> dsimp only
  · intro u hu
    exact h.bounded u (List.mem_of_mem_filter hu)
  · refine ⟨hok.room, trivial, nofun, nofun, fun _ => ⟨by simp, ?_, ?_⟩, nofun, nofun⟩
    · rw [Function.update_self]
      exact h.items_nodup (h.fresh.lt (by simp [hpc]))
    · rw [Function.update_self, hok.fresh rfl]
      rfl
  · intro v hv
    have hov := h.ok v
    rw [Function.update_of_ne hv]
    refine ⟨hov.room, hov.place, ?_, ?_, ?_, hov.dropped, hov.fresh⟩
    · intro hr
      exact List.mem_filter.mpr ⟨hov.registered hr, by simpa using hv⟩
    · rw [targets_of_not_read h hread v]
      exact nofun
    · intro hgone
      obtain ⟨hmem, hrest⟩ := hov.gone hgone
      exact ⟨fun hf => hmem (List.mem_of_mem_filter hf), hrest⟩

/-! ## Steps of a runner -/

/-- An own pop, when nothing is held. -/
theorem Inv.pop_tick (h : Inv s) (hpc : s.runners t = old) (hold : old.registered = true)
    (hheld : old.held = []) (hpop : (s.locals t).pop = some (r, q)) :
    Inv ((s.setLocal t q).goto t (.tick r)) := by
  have hok := h.ok t
  rw [hpc] at hok
  obtain ⟨hitems, -⟩ := pop_eq_some hpop
  have hgone : old.gone = false := by
    revert hold
    cases old <;> simp [Pc.registered, Pc.gone]
  refine h.popped hpc ?_ hpop ?_ ⟨?_, trivial, fun _ => hok.registered hold, nofun, nofun, nofun,
    fun _ => hok.fresh hgone⟩
  · rintro rfl
    cases hold
  · intro i
    rw [hheld]
    rfl
  · have := hok.room
    rw [hitems, List.length_cons] at this
    omega

theorem mem_scanOrder {start : Nat} (h : u ∈ Executor.State.scanOrder t start queues) :
    u ∈ queues := by
  have := List.mem_of_mem_drop (List.mem_of_mem_take (List.mem_of_mem_filter h))
  simpa using this

theorem Inv.scan (h : Inv s) (hpc : s.runners t = old) (hold : old.registered = true)
    (hheld : old.held = []) {rest : List Tid} (hrest : ∀ u ∈ rest, u ∈ s.localQueues) :
    Inv (s.goto t (Stealing.scan rest)) := by
  have hok := h.ok t
  rw [hpc] at hok
  obtain ⟨hgone, hregistered, hheld', htargets⟩ := scan_frame rest
  have hne : old ≠ .unborn := by
    rintro rfl
    cases hold
  refine h.goto hpc hne (hheld'.trans hheld.symm)
    (hok.goto ?_ (place_scan rest) hgone (fun _ => hold) ?_)
  · revert hold
    cases old <;> simp [Pc.registered, Pc.gone]
  · rw [htargets]
    exact hrest

theorem Inv.drainPop (h : Inv s) (hpc : s.runners t = .drainPop)
    (hs : s.exec t choice = some s') : Inv s' := by
  have hok := h.ok t
  rw [hpc] at hok
  obtain ⟨hmem, hnodup, hleft⟩ := hok.gone rfl
  simp only [State.exec, hpc, Option.some.injEq] at hs
  split at hs
  · rename_i hpop
    subst hs
    have hitems := pop_eq_none hpop
    refine h.goto hpc nofun rfl ⟨hok.room, trivial, nofun, nofun, fun _ => ⟨hmem, hnodup, hleft⟩,
      fun _ => hitems, nofun⟩
  · rename_i r q hpop
    subst hs
    obtain ⟨hitems, -⟩ := pop_eq_some hpop
    refine h.popped hpc nofun hpop (fun _ => rfl) ⟨?_, trivial, nofun, nofun,
      fun _ => ⟨hmem, hnodup, ?_⟩, nofun, nofun⟩
    · have := hok.room
      rw [hitems, List.length_cons] at this
      omega
    · rw [hleft, hitems]
      rfl

/-- `r.schedule()` in the drop of the runner. -/
theorem Inv.drainPush (h : Inv s) (hpc : s.runners t = .drainPush r) :
    Inv ({ s with
      queue := s.queue ++ [r]
      again := Function.update s.again t (s.again t ++ [r]) }.goto t .drainPop) := by
  have hok := h.ok t
  rw [hpc] at hok
  obtain ⟨hmem, hnodup, hleft⟩ := hok.gone rfl
  have hm : Moves s ({ s with
      queue := s.queue ++ [r]
      again := Function.update s.again t (s.again t ++ [r]) }.goto t .drainPop) t t .drainPop
      (s.locals t) (s.again t ++ [r]) :=
    ⟨rfl, (Function.update_eq_self _ _).symm, rfl, rfl, rfl, rfl, rfl⟩
  refine h.move hm (by simp [hpc]) (.inl rfl) ?_ ?_
  · intro i
    simp only [State.goto, hpc, Pc.held, List.count_append, List.count_nil]
    omega
  · rw [Function.update_eq_self]
    refine ⟨hok.room, trivial, nofun, nofun, fun _ => ⟨hmem, hnodup, ?_⟩, nofun, nofun⟩
    rw [hleft, List.append_assoc]
    rfl

theorem Inv.exec (h : Inv s) (hs : s.exec t choice = some s') : Inv s' := by
  have hok := h.ok t
  cases hpc : s.runners t with
  | register =>
    simp only [State.exec, hpc] at hs
    split at hs <;> cases hs
    exact h.register hpc
  | idle =>
    simp only [State.exec, hpc, Option.some.injEq] at hs
    subst hs
    rw [hpc] at hok
    exact h.goto hpc nofun rfl (hok.goto rfl trivial rfl (fun _ => rfl) nofun)
  | popLocal =>
    simp only [State.exec, hpc, Option.some.injEq] at hs
    rw [hpc] at hok
    split at hs
    · subst hs
      exact h.goto hpc nofun rfl (hok.goto rfl trivial rfl (fun _ => rfl) nofun)
    · rename_i hpop
      subst hs
      exact h.pop_tick hpc rfl rfl hpop
  | popQueue =>
    simp only [State.exec, hpc, Option.some.injEq] at hs
    rw [hpc] at hok
    split at hs
    · subst hs
      exact h.goto hpc nofun rfl (hok.goto rfl trivial rfl (fun _ => rfl) nofun)
    · rename_i r queue hqueue
      subst hs
      refine h.keep hpc nofun ?_ (hok.goto rfl trivial rfl (fun _ => rfl) nofun)
      intro i
      simp only [hqueue, Pc.held, List.count_cons, List.count_append, List.count_nil]
      omega
  | scanRead =>
    simp only [State.exec, hpc, Option.some.injEq] at hs
    rw [hpc] at hok
    have hmem := hok.registered rfl
    rw [if_neg (List.ne_nil_of_mem hmem)] at hs
    subst hs
    exact h.scan hpc rfl rfl fun u hu => mem_scanOrder hu
  | steal job pos =>
    simp only [State.exec, hpc, Option.some.injEq] at hs
    subst hs
    exact h.execSteal hpc
  | scanPop rest =>
    simp only [State.exec, hpc, Option.some.injEq] at hs
    rw [hpc] at hok
    split at hs
    · subst hs
      exact h.scan hpc rfl rfl hok.targets
    · rename_i hpop
      subst hs
      exact h.pop_tick hpc rfl rfl hpop
  | tick r =>
    simp only [State.exec, hpc, Option.some.injEq] at hs
    rw [hpc] at hok
    subst hs
    split
    · exact h.keep hpc nofun (fun _ => rfl) (hok.goto rfl trivial rfl (fun _ => rfl) nofun)
    · exact h.keep hpc nofun (fun _ => rfl) (hok.goto rfl trivial rfl (fun _ => rfl) nofun)
  | hand r =>
    simp only [State.exec, hpc, Option.some.injEq] at hs
    rw [hpc] at hok
    subst hs
    refine h.keep hpc nofun ?_ (hok.goto rfl trivial rfl (fun _ => rfl) nofun)
    intro i
    simp only [Pc.held, List.count_append, List.count_nil]
    omega
  | dropRetain =>
    simp only [State.exec, hpc] at hs
    split at hs
    · cases hs
    · rename_i hread
      cases hs
      exact h.dropRetain hpc (by simpa using hread)
  | drainPop => exact h.drainPop hpc hs
  | drainPush r =>
    simp only [State.exec, hpc, Option.some.injEq] at hs
    subst hs
    exact h.drainPush hpc
  | unborn | dropped | panicked => simp [State.exec, hpc] at hs

theorem inv_new : Inv .new where
  fresh _ _ := rfl
  bounded := nofun
  ok t := ⟨Nat.zero_le _, trivial, nofun, nofun, nofun, nofun, fun _ => rfl⟩
  copies r := by simp [State.copies, State.new, total]

theorem Inv.newRunner (h : Inv s) :
    Inv ({ s.setLocal s.started .new with started := s.started + 1 }.goto s.started .register) := by
  have hok := h.ok s.started
  have hnot : s.started ∉ s.localQueues := fun hmem => Nat.lt_irrefl _ (h.bounded _ hmem)
  rw [h.fresh s.started (Nat.le_refl _)] at hok
  refine ⟨h.fresh.start, fun u hu => Nat.lt_succ_of_lt (h.bounded u hu), ?_, ?_⟩
  · intro v
    dsimp only [State.goto, State.setLocal]
    obtain rfl | hv := eq_or_ne v s.started
    · rw [Function.update_self, Function.update_self]
      exact ⟨Nat.zero_le _, trivial, nofun, nofun, nofun, nofun, fun _ => hok.fresh rfl⟩
    · rw [Function.update_of_ne hv, Function.update_of_ne hv]
      exact h.ok v
  · intro r
    have := h.copies r
    simp only [State.copies, State.goto, State.setLocal, total_start] at this ⊢
    exact this

theorem Inv.step {a : Act} (h : Inv s) (hs : Stealing.step s a = some s') : Inv s' := by
  cases a with
  | schedule =>
    cases hs
    refine ⟨h.fresh, h.bounded, h.ok, fun r => ?_⟩
    have hcopies := h.copies r
    simp only [State.copies, List.count_append, List.count_singleton, beq_iff_eq] at hcopies ⊢
    -- the new runnable is the next index
    have hnext : (if r < s.scheduled + 1 then 1 else 0) =
        (if s.scheduled = r then 1 else 0) + if r < s.scheduled then 1 else 0 := by
      rcases Nat.lt_trichotomy r s.scheduled with hlt | heq | hgt
      · simp [hlt, hlt.ne', Nat.lt_succ_of_lt hlt]
      · simp [heq]
      · simp [hgt.ne, Nat.not_lt.mpr hgt.le, Nat.not_lt.mpr hgt]
    rw [hnext]
    omega
  | tryTick =>
    simp only [Stealing.step] at hs
    split at hs
    · cases hs
    · rename_i r queue hqueue
      cases hs
      refine ⟨h.fresh, h.bounded, h.ok, fun i => ?_⟩
      have := h.copies i
      simp only [State.copies, hqueue, List.count_cons, List.count_append, List.count_nil] at this ⊢
      omega
  | newRunner =>
    cases hs
    exact h.newRunner
  | drop t =>
    simp only [Stealing.step] at hs
    split at hs
    · rename_i hpc
      cases hs
      have hok := h.ok t
      rw [hpc] at hok
      exact h.goto hpc nofun rfl (hok.goto rfl trivial rfl (fun _ => rfl) nofun)
    · cases hs
  | runner t choice => exact h.exec hs

theorem inv_reachable (hs : system.Reachable s) : Inv s :=
  hs.invariant inv_new fun _ _ _ => Inv.step

/-- `steal` never panics; every runnable that was scheduled is in one place, and unless some
runner holds it that is a queue or the list of those handed out; and the drop of a runner
schedules again what was left in its local queue, each once. -/
theorem steal_conserves (hs : system.Reachable s) :
    (∀ t, s.runners t ≠ .panicked) ∧
    (∀ r, s.copies r = if r < s.scheduled then 1 else 0) ∧
    ((∀ t, (s.runners t).held = []) → ∀ r < s.scheduled, s.queue.count r + s.handed.count r +
      total (fun q => q.items.count r) s.started s.locals = 1) ∧
    ∀ t, s.runners t = .dropped →
      (s.locals t).items = [] ∧ (s.left t).Nodup ∧ s.again t = s.left t := by
  have h := inv_reachable hs
  refine ⟨?_, h.copies, ?_, ?_⟩
  · intro t hpc
    have := (h.ok t).place
    rwa [hpc] at this
  · intro hheld r hr
    have hcopies := h.copies r
    have hzero : total (fun pc : Pc => pc.held.count r) s.started s.runners = 0 :=
      total_eq_zero _ _ fun t _ => by rw [hheld t, List.count_nil]
    rw [if_pos hr, State.copies, hzero] at hcopies
    exact hcopies
  · intro t hpc
    have hok := h.ok t
    rw [hpc] at hok
    obtain ⟨-, hnodup, hleft⟩ := hok.gone rfl
    have hitems := hok.dropped rfl
    refine ⟨hitems, hnodup, ?_⟩
    rw [hleft, hitems]
    exact (List.append_nil _).symm

/-- Runner 0 takes four runnables from the queue of the executor, runner 1 steals two of
them, and the drop of runner 0 schedules the last one again. -/
def stealRun : List Act :=
  ([.newRunner, .newRunner, .runner 0 0, .runner 1 0, .schedule, .schedule, .schedule,
    .schedule] : List Act) ++
    List.replicate 3 (Act.runner 0 0) ++ Act.runner 0 3 :: List.replicate 9 (Act.runner 0 0) ++
    Act.runner 0 1 :: List.replicate 7 (Act.runner 0 0) ++ List.replicate 19 (Act.runner 1 0) ++
    Act.drop 0 :: List.replicate 4 (Act.runner 0 0)

theorem steal_conserves_drop : ∃ s, system.Reachable s ∧ s.handed = [0, 1] ∧ s.queue = [3] ∧
    s.left 0 = [3] ∧ s.again 0 = s.left 0 := by
  obtain ⟨s, -, hs, hhanded, hqueue, hleft, hpc⟩ := system.exists_of_run
    (P := fun s => s.handed = [0, 1] ∧ s.queue = [3] ∧ s.left 0 = [3] ∧ s.runners 0 = .dropped)
    stealRun (by decide)
  exact ⟨s, hs, hhanded, hqueue, hleft, ((steal_conserves hs).2.2.2 0 hpc).2.2⟩

end Cynthia.Executor.Stealing
