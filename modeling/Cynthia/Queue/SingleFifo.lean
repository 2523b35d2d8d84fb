import Cynthia.Queue.Single
import Mathlib.Data.List.Dedup
import Mathlib.Data.List.Permutation

/-! `Single` is a linearizable FIFO as long as no push is told that the slot is full after
another pop has reported it free. A push takes effect when it claims the slot. A pop that
has claimed the value takes effect when another pop first finds the slot free, or else
when it gives the slot back: until then a push may still find it full. When the first pop
finds the slot free, the pushes under way enter the log as ones that found it full. -/

namespace Cynthia.Queue.Single

open Transition Linearizability

open scoped List

variable {α : Type}

/-- What the slot is used for, by which call and with which value. -/
inductive Phase (α : Type) where
  | free
  | writing (id : Nat) (value : α)
  | wrote (id : Nat) (value : α)
  | ready (value : α)
  | reading (id : Nat) (value : α)
  | read (id : Nat) (value : α)

namespace Phase

def bits : Phase α → BitVec 64
  | .free => 0
  | .writing _ _ | .wrote _ _ => LOCKED ||| PUSHED
  | .ready _ => PUSHED
  | .reading _ _ | .read _ _ => LOCKED

def word (phase : Phase α) (closed : Bool) : BitVec 64 :=
  if closed then phase.bits ||| CLOSED else phase.bits

def slot : Phase α → Option α
  | .wrote _ value | .ready value | .reading _ value => some value
  | .free | .writing _ _ | .read _ _ => none

/-- A pop has claimed the value and has not given the slot free. -/
def popping : Phase α → Bool
  | .reading _ _ | .read _ _ => true
  | _ => false

/-- A claimed value counts as there until some pop finds the slot free. -/
def items (emptied : Bool) : Phase α → List α
  | .free => []
  | .writing _ value | .wrote _ value | .ready value => [value]
  | .reading _ value | .read _ value => if emptied then [] else [value]

def owner : Phase α → Option Nat
  | .free | .ready _ => none
  | .writing id _ | .wrote id _ | .reading id _ | .read id _ => some id

/-- Where the owner is. -/
def point : Phase α → Pc α
  | .free | .ready _ => .idle
  | .writing _ value => .pushWrite value
  | .wrote _ _ => .pushUnlock
  | .reading _ _ => .popRead
  | .read _ value => .popUnlock (some value)

variable {phase : Phase α} {closed emptied : Bool}

theorem word_eq_zero : phase.word closed = 0 ↔ phase = .free ∧ closed = false := by
  cases phase <;> cases closed <;> simp [word, bits, LOCKED, PUSHED, CLOSED]

theorem word_and_closed : phase.word closed &&& CLOSED = 0 ↔ closed = false := by
  cases phase <;> cases closed <;> simp [word, bits, LOCKED, PUSHED, CLOSED]

theorem word_and_pushed :
    phase.word closed &&& PUSHED = 0 ↔ phase = .free ∨ phase.popping = true := by
  cases phase <;> cases closed <;> simp [word, bits, popping, LOCKED, PUSHED, CLOSED]

theorem word_or_closed : phase.word closed ||| CLOSED = phase.word true := by
  cases phase <;> cases closed <;> simp [word, bits, LOCKED, PUSHED, CLOSED]

/-- A word that a pop may expect. -/
def Expected (w : BitVec 64) : Prop := w = PUSHED ∨ w = PUSHED ||| CLOSED

theorem eq_ready_of_expected (h : Expected (phase.word closed)) :
    ∃ value, phase = .ready value := by
  cases phase <;> cases closed <;> simp [Expected, word, bits, LOCKED, PUSHED, CLOSED] at h ⊢

theorem expected_of_pushed (h : phase.word closed &&& PUSHED ≠ 0) :
    (phase.word closed &&& LOCKED = 0 → Expected (phase.word closed)) ∧
    (phase.word closed &&& LOCKED ≠ 0 → Expected (phase.word closed &&& ~~~LOCKED)) := by
  cases phase <;> cases closed <;> simp [Expected, word, bits, LOCKED, PUSHED, CLOSED] at h ⊢

theorem word_claimed (id : Nat) (value : α) :
    ((ready value).word closed ||| LOCKED) &&& ~~~PUSHED = (reading id value).word closed := by
  cases closed <;> simp [word, bits, LOCKED, PUSHED, CLOSED]

theorem word_wrote (id : Nat) (value : α) :
    (wrote id value).word closed &&& ~~~LOCKED = (ready value).word closed := by
  cases closed <;> simp [word, bits, LOCKED, PUSHED, CLOSED]

theorem word_read (id : Nat) (value : α) :
    (read id value).word closed &&& ~~~LOCKED = (free : Phase α).word closed := by
  cases closed <;> simp [word, bits, LOCKED, CLOSED]

end Phase

/-- What the proof keeps beside the state. -/
structure Ghost (α : Type) where
  log : List (Entry (Op α) (Res α))
  phase : Phase α
  closed : Bool

/-- The call was made and has not returned. -/
def Open (s : State α) (id : Nat) (op : Op α) : Prop :=
  .call id op ∈ s.hist ∧ ∀ res, .ret id res ∉ s.hist

/-- If the push is in the log, then as one that found the queue full. -/
def Tentative (g : Ghost α) (id : Nat) (value : α) : Prop :=
  ∀ e ∈ g.log, e.id = id → e = ⟨id, .push value, .full value⟩

def Unlogged (g : Ghost α) (id : Nat) : Prop := ∀ e ∈ g.log, e.id ≠ id

/-- A pop with the value `v` claimed is in the log from when another pop found nothing. -/
def Claimed (s : State α) (g : Ghost α) (id : Nat) (v : α) : Prop :=
  (s.emptied = true → ⟨id, .pop, .popped (some v)⟩ ∈ g.log) ∧ (s.emptied = false → Unlogged g id)

/-- The value is claimed, and a pop has found the slot free. -/
def Emptied (s : State α) (g : Ghost α) : Prop :=
  g.phase.popping = true ∧ s.emptied = true ∧ g.closed = false

def CallOk (s : State α) (g : Ghost α) (id : Nat) : Pc α → Prop
  | .idle => (∀ op, .call id op ∉ s.hist) ∧ ∀ res, .ret id res ∉ s.hist
  | .done => True
  | .pushCas v => Open s id (.push v) ∧ Tentative g id v ∧
    (Emptied s g → s.late id = false → ⟨id, .push v, .full v⟩ ∈ g.log)
  | .pushWrite v => Open s id (.push v) ∧ g.phase = .writing id v ∧ ⟨id, .push v, .pushed⟩ ∈ g.log
  | .pushUnlock => ∃ v, Open s id (.push v) ∧ g.phase = .wrote id v ∧
    ⟨id, .push v, .pushed⟩ ∈ g.log
  | .popCas expected => Open s id .pop ∧ Unlogged g id ∧ Phase.Expected expected
  | .popRead => ∃ v, Open s id .pop ∧ g.phase = .reading id v ∧ Claimed s g id v
  | .popUnlock value => ∃ v, value = some v ∧ Open s id .pop ∧ g.phase = .read id v ∧
    Claimed s g id v
  | .closeOr => Open s id .close ∧ Unlogged g id

structure Inv (s : State α) (g : Ghost α) : Prop where
  state : s.queue.state = g.phase.word g.closed
  slot : s.queue.slot = g.phase.slot
  owner : ∀ id, g.phase.owner = some id → s.calls id = g.phase.point
  final : (fifo (some 1)).final g.log = ⟨g.phase.items s.emptied, g.closed⟩
  logged : Logged (fifo (some 1)) s.hist g.log
  calls : ∀ id, CallOk s g id (s.calls id)

/-- What a step of one call leaves to the others. -/
structure Frame (id : Nat) (s : State α) (g : Ghost α) (t : State α) (g' : Ghost α) : Prop where
  calls : ∀ j, j ≠ id → t.calls j = s.calls j
  called : ∀ j, j ≠ id → ∀ op, .call j op ∈ t.hist ↔ .call j op ∈ s.hist
  returned : ∀ j, j ≠ id → ∀ res, .ret j res ∈ t.hist ↔ .ret j res ∈ s.hist
  log : ∀ e : Entry (Op α) (Res α), e.id ≠ id → (e ∈ g'.log ↔ e ∈ g.log)
  phase : ∀ j, j ≠ id → g.phase.owner = some j → g'.phase = g.phase ∧ t.emptied = s.emptied
  emptied : Emptied t g' → Emptied s g ∧ ∀ j, j ≠ id → t.late j = s.late j

section Framing

variable {s t : State α} {g g' : Ghost α} {id j : Nat}

theorem Frame.open (f : Frame id s g t g') (hj : j ≠ id) {op : Op α} (h : Open s j op) :
    Open t j op :=
  ⟨(f.called j hj op).mpr h.1, fun res hres => h.2 res ((f.returned j hj res).mp hres)⟩

theorem Frame.unlogged (f : Frame id s g t g') (hj : j ≠ id) (h : Unlogged g j) :
    Unlogged g' j :=
  fun e he heq => h e ((f.log e (heq ▸ hj)).mp he) heq

theorem Frame.claimed (f : Frame id s g t g') (hj : j ≠ id) {v : α}
    (hemptied : t.emptied = s.emptied) (h : Claimed s g j v) : Claimed t g' j v := by
  refine ⟨fun he => ?_, fun he => ?_⟩
  · exact (f.log _ hj).mpr (h.1 (hemptied ▸ he))
  · exact f.unlogged hj (h.2 (hemptied ▸ he))

theorem Frame.callOk (f : Frame id s g t g') (hj : j ≠ id) {pc : Pc α} (h : CallOk s g j pc) :
    CallOk t g' j pc := by
  cases pc with
  | idle => exact ⟨fun op hop => h.1 op ((f.called j hj op).mp hop),
      fun res hres => h.2 res ((f.returned j hj res).mp hres)⟩
  | done => trivial
  | pushCas v =>
    obtain ⟨hopen, htent, hlate⟩ := h
    refine ⟨f.open hj hopen, fun e he heq => ?_, fun hemptied hl => ?_⟩
    · exact htent e ((f.log e (heq ▸ hj)).mp he) heq
    · obtain ⟨hemptied', hsame⟩ := f.emptied hemptied
      exact (f.log _ hj).mpr (hlate hemptied' (hsame j hj ▸ hl))
  | pushWrite v =>
    obtain ⟨hopen, hphase, hlog⟩ := h
    obtain ⟨hsame, -⟩ := f.phase j hj (by rw [hphase]; rfl)
    exact ⟨f.open hj hopen, hsame.trans hphase, (f.log _ hj).mpr hlog⟩
  | pushUnlock =>
    obtain ⟨v, hopen, hphase, hlog⟩ := h
    obtain ⟨hsame, -⟩ := f.phase j hj (by rw [hphase]; rfl)
    exact ⟨v, f.open hj hopen, hsame.trans hphase, (f.log _ hj).mpr hlog⟩
  | popCas expected => exact ⟨f.open hj h.1, f.unlogged hj h.2.1, h.2.2⟩
  | popRead =>
    obtain ⟨v, hopen, hphase, hclaimed⟩ := h
    obtain ⟨hsame, hemptied⟩ := f.phase j hj (by rw [hphase]; rfl)
    exact ⟨v, f.open hj hopen, hsame.trans hphase, f.claimed hj hemptied hclaimed⟩
  | popUnlock value =>
    obtain ⟨v, hv, hopen, hphase, hclaimed⟩ := h
    obtain ⟨hsame, hemptied⟩ := f.phase j hj (by rw [hphase]; rfl)
    exact ⟨v, hv, f.open hj hopen, hsame.trans hphase, f.claimed hj hemptied hclaimed⟩
  | closeOr => exact ⟨f.open hj h.1, f.unlogged hj h.2⟩

/-- A step of the call `id` that appends its own events and changes its own entries. -/
theorem frame_of {pc : Pc α} {evs : List (Event (Op α) (Res α))}
    (hcalls : t.calls = Function.update s.calls id pc) (hhist : t.hist = s.hist ++ evs)
    (hevs : ∀ e ∈ evs, e.id = id)
    (hlog : ∀ e : Entry (Op α) (Res α), e.id ≠ id → (e ∈ g'.log ↔ e ∈ g.log))
    (hphase : ∀ j, j ≠ id → g.phase.owner = some j → g'.phase = g.phase ∧ t.emptied = s.emptied)
    (hemptied : Emptied t g' → Emptied s g ∧ ∀ j, j ≠ id → t.late j = s.late j) :
    Frame id s g t g' := by
  refine ⟨?_, ?_, ?_, hlog, hphase, hemptied⟩
  · intro j hj
    rw [hcalls, Function.update_of_ne hj]
  · intro j hj op
    rw [hhist, List.mem_append, or_iff_left]
    exact fun he => hj (hevs _ he)
  · intro j hj res
    rw [hhist, List.mem_append, or_iff_left]
    exact fun he => hj (hevs _ he)

/-- The calls after a step: the one that made it by itself, the others by the frame. -/
theorem Frame.calls_ok (f : Frame id s g t g') (h : Inv s g)
    (hself : CallOk t g' id (t.calls id)) : ∀ j, CallOk t g' j (t.calls j) := by
  intro j
  rcases eq_or_ne j id with rfl | hj
  · exact hself
  · rw [f.calls j hj]
    exact f.callOk hj (h.calls j)

/-- A step that leaves the slot alone, and changes of the log only its own entries. -/
theorem Inv.local {log : List (Entry (Op α) (Res α))} (h : Inv s g) (pc : Pc α)
    (evs : List (Event (Op α) (Res α))) (hqueue : t.queue = s.queue)
    (hemptied : t.emptied = s.emptied) (hlate : ∀ j, j ≠ id → t.late j = s.late j)
    (hcalls : t.calls = Function.update s.calls id pc) (hhist : t.hist = s.hist ++ evs)
    (hevs : ∀ e ∈ evs, e.id = id)
    (hlog : ∀ e : Entry (Op α) (Res α), e.id ≠ id → (e ∈ log ↔ e ∈ g.log))
    (hlogged : Logged (fifo (some 1)) t.hist log)
    (hfinal : (fifo (some 1)).final log = (fifo (some 1)).final g.log)
    (hother : g.phase.owner ≠ some id) (hself : CallOk t { g with log := log } id pc) :
    Inv t { g with log := log } := by
  have hframe : Frame id s g t { g with log := log } :=
    frame_of hcalls hhist hevs hlog (fun _ _ _ => ⟨rfl, hemptied⟩)
      fun ⟨hp, he, hc⟩ => ⟨⟨hp, hemptied ▸ he, hc⟩, hlate⟩
  refine ⟨by rw [hqueue]; exact h.state, by rw [hqueue]; exact h.slot, ?_, ?_, hlogged, ?_⟩
  · intro j hj
    have hne : j ≠ id := fun heq => hother (heq ▸ hj)
    rw [hframe.calls j hne]
    exact h.owner j hj
  · rw [hfinal, h.final, hemptied]
  · refine hframe.calls_ok h ?_
    rw [hcalls, Function.update_self]
    exact hself

/-- Between its first and its last access to the slot. -/
def Pc.owning : Pc α → Bool
  | .pushWrite _ | .pushUnlock | .popRead | .popUnlock _ => true
  | _ => false

theorem Inv.not_owner (h : Inv s g) (hpc : (s.calls id).owning = false) :
    g.phase.owner ≠ some id := by
  intro how
  rw [h.owner id how] at hpc
  cases hp : g.phase <;> simp [hp, Phase.owner, Phase.point, Pc.owning] at how hpc

theorem Inv.goto {pc : Pc α} (h : Inv s g) (hpc : (s.calls id).owning = false)
    (hself : CallOk (s.goto id pc) g id pc) : Inv (s.goto id pc) g :=
  h.local pc [] rfl rfl (fun _ _ => rfl) rfl (List.append_nil _).symm (by simp)
    (fun _ _ => Iff.rfl) h.logged rfl (h.not_owner hpc) hself

/-- A return with the result that the log has. -/
theorem Inv.ret {op : Op α} {res : Res α} (h : Inv s g) (hpc : (s.calls id).owning = false)
    (hopen : Open s id op) (hmem : ⟨id, op, res⟩ ∈ g.log) : Inv (s.ret id res) g :=
  h.local .done [.ret id res] rfl rfl (fun _ _ => rfl) rfl rfl (by simp [Event.id])
    (fun _ _ => Iff.rfl) (h.logged.ret hmem hopen.2) rfl (h.not_owner hpc) trivial

theorem Tentative.idle {v : α} (h : Tentative g id v) :
    ∀ e ∈ g.log, e.id = id → (fifo (some 1)).Idle e.op e.res := by
  intro e he heq
  rw [h e he heq]
  exact idle_full v

theorem Unlogged.idle (h : Unlogged g id) :
    ∀ e ∈ g.log, e.id = id → (fifo (some 1)).Idle e.op e.res :=
  fun e he heq => absurd heq (h e he)

/-- The call takes effect without a change and returns at once. -/
theorem Inv.settle {op : Op α} (h : Inv s g) (hpc : (s.calls id).owning = false) (res : Res α)
    (hopen : Open s id op)
    (hidle : ∀ e ∈ g.log, e.id = id → (fifo (some 1)).Idle e.op e.res)
    (happly : (fifo (some 1)).apply ⟨g.phase.items s.emptied, g.closed⟩ op =
      (⟨g.phase.items s.emptied, g.closed⟩, res)) : ∃ g', Inv (s.ret id res) g' := by
  obtain ⟨hlogged, hfinal⟩ := h.logged.recommit res hopen.1 hopen.2 hidle (by rw [h.final, happly])
  refine ⟨_, h.local .done [.ret id res] rfl rfl (fun _ _ => rfl) rfl rfl (by simp [Event.id])
    (fun e he => mem_without_append he)
    (hlogged.ret (List.mem_append_right _ (List.mem_singleton_self _)) hopen.2) ?_
    (h.not_owner hpc) trivial⟩
  rw [hfinal, h.final, happly]

/-! ### A pop finds the slot free -/

/-- A push under way that is not in the log, as one that finds the slot full. -/
def pendingPush (s : State α) (g : Ghost α) (id : Nat) : Option (Entry (Op α) (Res α)) :=
  match s.calls id with
  | .pushCas v => if id ∈ g.log.map Entry.id then none else some ⟨id, .push v, .full v⟩
  | _ => none

def pending (s : State α) (g : Ghost α) : List (Entry (Op α) (Res α)) :=
  (s.hist.map Event.id).dedup.filterMap (pendingPush s g)

theorem pendingPush_eq_some {e : Entry (Op α) (Res α)} :
    pendingPush s g id = some e ↔
      ∃ v, s.calls id = .pushCas v ∧ Unlogged g id ∧ e = ⟨id, .push v, .full v⟩ := by
  have hiff : id ∈ g.log.map Entry.id ↔ ¬ Unlogged g id := by
    simp [Unlogged]
  unfold pendingPush
  split
  case h_1 v hpc =>
    constructor
    · intro h
      split at h
      · cases h
      · rename_i hlog
        exact ⟨v, hpc, not_not.mp fun hno => hlog (hiff.mpr hno), (Option.some.inj h).symm⟩
    · rintro ⟨w, hpc', hlog, rfl⟩
      rw [if_neg fun hin => hiff.mp hin hlog]
      cases hpc.symm.trans hpc'
      rfl
  case h_2 hpc =>
    constructor
    · exact nofun
    · rintro ⟨v, hpc', -⟩
      exact absurd hpc' (hpc v)

theorem mem_pending {e : Entry (Op α) (Res α)} (he : e ∈ pending s g) :
    ∃ v, s.calls e.id = .pushCas v ∧ Unlogged g e.id ∧ e = ⟨e.id, .push v, .full v⟩ := by
  obtain ⟨id, -, hid⟩ := List.mem_filterMap.mp he
  obtain ⟨v, hpc, hlog, rfl⟩ := pendingPush_eq_some.mp hid
  exact ⟨v, hpc, hlog, rfl⟩

theorem pending_of_pushCas {v : α} (hopen : Open s id (.push v)) (hpc : s.calls id = .pushCas v)
    (hlog : Unlogged g id) : ⟨id, .push v, .full v⟩ ∈ pending s g :=
  List.mem_filterMap.mpr ⟨id, List.mem_dedup.mpr (List.mem_map.mpr ⟨_, hopen.1, rfl⟩),
    pendingPush_eq_some.mpr ⟨v, hpc, hlog, rfl⟩⟩

theorem pending_nodup : ((pending s g).map Entry.id).Nodup := by
  unfold pending
  rw [List.map_filterMap]
  refine List.Nodup.filterMap ?_ (List.nodup_dedup _)
  have hid : ∀ a b : Nat, b ∈ (pendingPush s g a).map Entry.id → b = a := by
    intro a b hb
    obtain ⟨e, he, rfl⟩ := Option.map_eq_some_iff.mp hb
    obtain ⟨v, -, -, rfl⟩ := pendingPush_eq_some.mp he
    rfl
  intro a a' b ha ha'
  exact (hid a b ha).symm.trans (hid a' b ha')

/-- The pushes under way can all take effect while the value still counts. -/
theorem Inv.logged_pending {v : α} (h : Inv s g) (hitems : g.phase.items s.emptied = [v])
    (hclosed : g.closed = false) : Logged (fifo (some 1)) s.hist (g.log ++ pending s g) ∧
      (fifo (some 1)).final (g.log ++ pending s g) = (fifo (some 1)).final g.log := by
  refine h.logged.commit_idle ?_ ?_ pending_nodup ?_ ?_
  · intro e he
    obtain ⟨w, hpc, -, heq⟩ := mem_pending he
    obtain ⟨hopen, -⟩ : CallOk s g e.id (.pushCas w) := hpc ▸ h.calls e.id
    rw [heq]
    exact hopen.1
  · intro e he
    obtain ⟨w, hpc, -⟩ := mem_pending he
    obtain ⟨hopen, -⟩ : CallOk s g e.id (.pushCas w) := hpc ▸ h.calls e.id
    exact hopen.2
  · intro e he
    obtain ⟨-, -, hlog, -⟩ := mem_pending he
    exact hlog
  · intro e he
    obtain ⟨w, -, -, heq⟩ := mem_pending he
    rw [h.final, heq]
    refine apply_push_full hclosed ?_
    simp [Fifo.isFull, hitems]

/-- The pop that has claimed the value takes effect. With it the pushes under way do, unless
the queue is closed. -/
theorem Inv.claim {p : Nat} {v : α} (h : Inv s g) (hemptied : s.emptied = false)
    (hphase : g.phase = .reading p v ∨ g.phase = .read p v) :
    ∃ g', Inv { s with emptied := true } g' ∧ g'.phase = g.phase ∧ g'.closed = g.closed := by
  have howner : g.phase.owner = some p := by
    rcases hphase with hp | hp <;> rw [hp] <;> rfl
  have hitems : g.phase.items s.emptied = [v] := by
    rw [hemptied]
    rcases hphase with hp | hp <;> rw [hp] <;> rfl
  have hitems' : g.phase.items true = [] := by
    rcases hphase with hp | hp <;> rw [hp] <;> rfl
  obtain ⟨hopen, hlog⟩ : Open s p .pop ∧ Unlogged g p := by
    have hcall := h.calls p
    rw [h.owner p howner] at hcall
    rcases hphase with hp | hp <;> rw [hp] at hcall
    · obtain ⟨w, hopen, -, hclaimed⟩ := hcall
      exact ⟨hopen, hclaimed.2 hemptied⟩
    · obtain ⟨w, -, hopen, -, hclaimed⟩ := hcall
      exact ⟨hopen, hclaimed.2 hemptied⟩
  have howning : (s.calls p).owning = true := by
    rw [h.owner p howner]
    rcases hphase with hp | hp <;> rw [hp] <;> rfl
  obtain ⟨new, hnew, hlogged, hfinal, hall⟩ : ∃ new : List (Entry (Op α) (Res α)),
      (∀ e ∈ new, e ∈ pending s g) ∧ Logged (fifo (some 1)) s.hist (g.log ++ new) ∧
      (fifo (some 1)).final (g.log ++ new) = (fifo (some 1)).final g.log ∧
      (g.closed = false → ∀ e ∈ pending s g, e ∈ new) := by
    cases hclosed : g.closed with
    | true =>
      refine ⟨[], by simp, ?_, ?_, nofun⟩
      · rw [List.append_nil]
        exact h.logged
      · rw [List.append_nil]
    | false =>
      obtain ⟨hlogged, hfinal⟩ := h.logged_pending hitems hclosed
      exact ⟨pending s g, fun _ he => he, hlogged, hfinal, fun _ _ he => he⟩
  have hne : ∀ e ∈ g.log ++ new, e.id ≠ p := by
    intro e he heq
    rcases List.mem_append.mp he with he | he
    · exact hlog e he heq
    · obtain ⟨w, hpc, -⟩ := mem_pending (hnew e he)
      rw [heq] at hpc
      rw [hpc] at howning
      cases howning
  have happly : (fifo (some 1)).apply ⟨[v], g.closed⟩ .pop = (⟨[], g.closed⟩, .popped (some v)) :=
    apply_pop rfl
  refine ⟨⟨g.log ++ new ++ [⟨p, .pop, .popped (some v)⟩], g.phase, g.closed⟩, ?_, rfl, rfl⟩
  -- an entry of another call is an old one, or that of a push under way
  have hmem : ∀ e ∈ g.log ++ new ++ [⟨p, .pop, .popped (some v)⟩], (s.calls e.id).owning = false →
      e ∈ g.log ∨ ∃ w, s.calls e.id = .pushCas w ∧ e = ⟨e.id, .push w, .full w⟩ := by
    intro e he hown
    rcases List.mem_append.mp he with he | he
    · rcases List.mem_append.mp he with he | he
      · exact .inl he
      · obtain ⟨w, hpc, -, heq⟩ := mem_pending (hnew e he)
        exact .inr ⟨w, hpc, heq⟩
    · rw [List.mem_singleton.mp he] at hown
      cases howning.symm.trans hown
  refine ⟨h.state, h.slot, h.owner, ?_, ?_, fun j => ?_⟩
  · rw [Spec.final_append_singleton, hfinal, h.final, hitems, hitems', happly]
  · refine hlogged.commit hopen.1 hopen.2 hne ?_
    rw [hfinal, h.final, hitems, happly]
  · have hj := h.calls j
    have hunlogged : Unlogged g j → (s.calls j).owning = false → (∀ w, s.calls j ≠ .pushCas w) →
        Unlogged ⟨g.log ++ new ++ [⟨p, .pop, .popped (some v)⟩], g.phase, g.closed⟩ j := by
      intro hold hown hpush e he heq
      subst heq
      rcases hmem e he hown with he | ⟨w, hpc, -⟩
      · exact hold e he rfl
      · exact hpush w hpc
    show CallOk { s with emptied := true } _ j (s.calls j)
    cases hpc : s.calls j with
    | idle | done =>
      rw [hpc] at hj
      exact hj
    | pushCas w =>
      obtain ⟨hopenj, htent, -⟩ : CallOk s g j (.pushCas w) := hpc ▸ hj
      refine ⟨hopenj, fun e he heq => ?_, fun ⟨_, _, hclosed⟩ _ => ?_⟩
      · subst heq
        rcases hmem e he (by rw [hpc]; rfl) with he | ⟨w', hpc', heq'⟩
        · exact htent e he rfl
        · cases hpc.symm.trans hpc'
          exact heq'
      · refine List.mem_append_left _ ?_
        by_cases hin : Unlogged g j
        · exact List.mem_append_right _ (hall hclosed _ (pending_of_pushCas hopenj hpc hin))
        · obtain ⟨e, he, heq⟩ : ∃ e ∈ g.log, e.id = j := by simpa [Unlogged] using hin
          exact List.mem_append_left _ (htent e he heq ▸ he)
    | pushWrite w =>
      obtain ⟨-, hw, -⟩ : CallOk s g j (.pushWrite w) := hpc ▸ hj
      rcases hphase with hp | hp <;> cases hw.symm.trans hp
    | pushUnlock =>
      obtain ⟨w, -, hw, -⟩ : CallOk s g j .pushUnlock := hpc ▸ hj
      rcases hphase with hp | hp <;> cases hw.symm.trans hp
    | popCas expected =>
      obtain ⟨hopenj, hold, hexp⟩ : CallOk s g j (.popCas expected) := hpc ▸ hj
      exact ⟨hopenj, hunlogged hold (by rw [hpc]; rfl) (by simp [hpc]), hexp⟩
    | popRead =>
      obtain ⟨w, hopenj, hw, -⟩ : CallOk s g j .popRead := hpc ▸ hj
      have heq : j = p ∧ w = v := by
        rcases hphase with hp | hp <;> cases hw.symm.trans hp
        exact ⟨rfl, rfl⟩
      obtain ⟨rfl, rfl⟩ := heq
      exact ⟨w, hopenj, hw, fun _ => List.mem_append_right _ (List.mem_singleton_self _), nofun⟩
    | popUnlock value =>
      obtain ⟨w, hval, hopenj, hw, -⟩ : CallOk s g j (.popUnlock value) := hpc ▸ hj
      have heq : j = p ∧ w = v := by
        rcases hphase with hp | hp <;> cases hw.symm.trans hp
        exact ⟨rfl, rfl⟩
      obtain ⟨rfl, rfl⟩ := heq
      exact ⟨w, hval, hopenj, hw, fun _ => List.mem_append_right _ (List.mem_singleton_self _),
        nofun⟩
    | closeOr =>
      obtain ⟨hopenj, hold⟩ : CallOk s g j .closeOr := hpc ▸ hj
      exact ⟨hopenj, hunlogged hold (by rw [hpc]; rfl) (by simp [hpc])⟩

/-- From here on a claimed value does not count any more. -/
theorem Inv.announce (h : Inv s g) :
    ∃ g', Inv { s with emptied := true } g' ∧ g'.phase = g.phase ∧ g'.closed = g.closed := by
  cases hemptied : s.emptied with
  | true =>
    have hsame : { s with emptied := true } = s := by rw [← hemptied]
    rw [hsame]
    exact ⟨g, h, rfl, rfl⟩
  | false =>
    cases hpop : g.phase.popping with
    | true =>
      cases hp : g.phase <;> rw [hp] at hpop <;> try cases hpop
      · exact hp ▸ h.claim hemptied (.inl hp)
      · exact hp ▸ h.claim hemptied (.inr hp)
    | false =>
      refine ⟨g, ⟨h.state, h.slot, h.owner, ?_, h.logged, fun j => ?_⟩, rfl, rfl⟩
      · rw [h.final]
        cases hp : g.phase <;> rw [hp] at hpop <;> first | rfl | cases hpop
      · have hj := h.calls j
        show CallOk { s with emptied := true } g j (s.calls j)
        cases hpc : s.calls j with
        | pushCas w =>
          obtain ⟨hopen, htent, -⟩ : CallOk s g j (.pushCas w) := hpc ▸ hj
          exact ⟨hopen, htent, fun ⟨hp, _⟩ => by rw [hpop] at hp; cases hp⟩
        | popRead =>
          obtain ⟨w, -, hw, -⟩ : CallOk s g j .popRead := hpc ▸ hj
          rw [hw] at hpop
          cases hpop
        | popUnlock value =>
          obtain ⟨w, -, -, hw, -⟩ : CallOk s g j (.popUnlock value) := hpc ▸ hj
          rw [hw] at hpop
          cases hpop
        | idle | done | pushWrite _ | pushUnlock | popCas _ | closeOr =>
          rw [hpc] at hj
          exact hj

/-! ### The steps -/

theorem inv_call {op : Op α} (h : Inv s g) (ht : step s (.call id op) = some t) : Inv t g := by
  simp only [step] at ht
  split at ht
  case h_2 => cases ht
  case h_1 hpc =>
    cases ht
    obtain ⟨hfresh, hopen⟩ : CallOk s g id .idle := hpc ▸ h.calls id
    have hlog : Unlogged g id := by
      rintro e he rfl
      exact hfresh e.op (h.logged.linearization.called e he)
    refine h.local (entry op) [.call id op] rfl rfl (fun j hj => Function.update_of_ne hj _ _) rfl
      rfl (by simp [Event.id]) (fun _ _ => Iff.rfl) (h.logged.call hfresh) rfl
      (h.not_owner (by rw [hpc]; rfl)) ?_
    have hnew : .call id op ∈ s.hist ++ [.call id op] ∧
        ∀ res, .ret id res ∉ s.hist ++ [.call id op] :=
      ⟨List.mem_append_right _ (List.mem_singleton_self _),
        fun res hres => hopen res (by simpa using hres)⟩
    cases op with
    | push v =>
      refine ⟨hnew, fun e he heq => absurd heq (hlog e he), fun hemptied hlate => ?_⟩
      -- a call made now is late
      have hlate' : s.emptied = false := by simpa using hlate
      rw [show s.emptied = true from hemptied.2.1] at hlate'
      cases hlate'
    | pop => exact ⟨hnew, hlog, .inl rfl⟩
    | close => exact ⟨hnew, hlog⟩

/-- A step of the call that changes what the slot is used for. -/
theorem Inv.move {log : List (Entry (Op α) (Res α))} (h : Inv s g) (phase : Phase α) (pc : Pc α)
    (evs : List (Event (Op α) (Res α))) (hstate : t.queue.state = phase.word g.closed)
    (hslot : t.queue.slot = phase.slot)
    (hcalls : t.calls = Function.update s.calls id pc) (hhist : t.hist = s.hist ++ evs)
    (hevs : ∀ e ∈ evs, e.id = id)
    (hlog : ∀ e : Entry (Op α) (Res α), e.id ≠ id → (e ∈ log ↔ e ∈ g.log))
    (hlogged : Logged (fifo (some 1)) t.hist log)
    (hfinal : (fifo (some 1)).final log = ⟨phase.items t.emptied, g.closed⟩)
    (hmine : ∀ j, g.phase.owner = some j → j = id)
    (howner : ∀ j, phase.owner = some j → j = id ∧ pc = phase.point)
    (hemptied : Emptied t ⟨log, phase, g.closed⟩ → Emptied s g ∧ t.late = s.late)
    (hself : CallOk t ⟨log, phase, g.closed⟩ id pc) : Inv t ⟨log, phase, g.closed⟩ := by
  have hframe : Frame id s g t ⟨log, phase, g.closed⟩ :=
    frame_of hcalls hhist hevs hlog (fun j hj hown => absurd (hmine j hown) hj)
      fun he => ⟨(hemptied he).1, fun j _ => by rw [(hemptied he).2]⟩
  refine ⟨hstate, hslot, ?_, hfinal, hlogged, hframe.calls_ok h ?_⟩
  · intro j hj
    obtain ⟨rfl, hpc⟩ := howner j hj
    rw [hcalls, Function.update_self]
    exact hpc
  · rw [hcalls, Function.update_self]
    exact hself

theorem inv_pushCas {v : α} (h : Inv s g) (hpc : s.calls id = .pushCas v)
    (hok : ¬ (s.queue.state = LOCKED ∧ s.late id = true)) (ht : exec s id = some t) :
    ∃ g', Inv t g' := by
  simp only [exec, hpc, Option.some.injEq] at ht
  subst ht
  obtain ⟨hopen, htent, hlate⟩ : CallOk s g id (.pushCas v) := hpc ▸ h.calls id
  have hown : (s.calls id).owning = false := by rw [hpc]; rfl
  rw [h.state]
  split
  · rename_i hzero
    obtain ⟨hphase, hclosed⟩ := Phase.word_eq_zero.mp hzero
    have happly : (fifo (some 1)).apply ⟨g.phase.items s.emptied, g.closed⟩ (.push v) =
        (⟨[v], g.closed⟩, .pushed) := by
      rw [hphase]
      exact apply_push hclosed rfl
    obtain ⟨hlogged, hfinal⟩ := h.logged.recommit .pushed hopen.1 hopen.2 htent.idle
      (by rw [h.final, happly])
    refine ⟨_, h.move (.writing id v) (.pushWrite v) [] ?_ ?_ rfl
      (List.append_nil _).symm (by simp) (fun e he => mem_without_append he) hlogged ?_ ?_ ?_
      (fun he => nomatch he.1) ?_⟩
    · rw [hclosed]
      rfl
    · exact h.slot.trans (by rw [hphase]; rfl)
    · rw [hfinal, h.final, happly]
      rfl
    · intro j hj
      rw [hphase] at hj
      cases hj
    · intro j hj
      exact ⟨(Option.some.inj hj).symm, rfl⟩
    · exact ⟨hopen, rfl, List.mem_append_right _ (List.mem_singleton_self _)⟩
  · rename_i hzero
    split
    · rename_i hclosed
      refine h.settle hown _ hopen htent.idle (apply_push_closed ?_)
      exact Bool.not_eq_false _ ▸ mt Phase.word_and_closed.mpr hclosed
    · rename_i hclosed
      replace hclosed : g.closed = false := Phase.word_and_closed.mp (not_not.mp hclosed)
      have hfull : g.phase.items s.emptied ≠ [] → ∃ g', Inv (s.ret id (.full v)) g' := by
        intro hne
        refine h.settle hown _ hopen htent.idle (apply_push_full hclosed ?_)
        simpa [Fifo.isFull, List.length_pos_iff, Nat.one_le_iff_ne_zero] using hne
      cases hphase : g.phase with
      | free => exact absurd (Phase.word_eq_zero.mpr ⟨hphase, hclosed⟩) hzero
      | writing j w | wrote j w | ready w => exact hfull (by rw [hphase]; exact nofun)
      | reading j w | read j w =>
        cases hemptied : s.emptied with
        | false => exact hfull (by rw [hphase, hemptied]; exact nofun)
        | true =>
          -- it was under way when the slot was found free, and is in the log since then
          have hstate : s.queue.state = LOCKED := by
            rw [h.state, hphase, hclosed]
            rfl
          have hearly : s.late id = false := by
            cases hl : s.late id with
            | false => rfl
            | true => exact absurd ⟨hstate, hl⟩ hok
          exact ⟨g, h.ret hown hopen (hlate ⟨by rw [hphase]; rfl, hemptied, hclosed⟩ hearly)⟩

theorem inv_pushWrite {v : α} (h : Inv s g) (hpc : s.calls id = .pushWrite v)
    (ht : exec s id = some t) : ∃ g', Inv t g' := by
  simp only [exec, hpc, Option.some.injEq] at ht
  subst ht
  obtain ⟨hopen, hphase, hlog⟩ : CallOk s g id (.pushWrite v) := hpc ▸ h.calls id
  refine ⟨_, h.move (.wrote id v) .pushUnlock [] ?_ rfl rfl (List.append_nil _).symm
    (by simp) (fun _ _ => Iff.rfl) h.logged ?_ ?_ ?_ (fun he => nomatch he.1) ?_⟩
  · exact h.state.trans (by rw [hphase]; rfl)
  · rw [h.final, hphase]
    rfl
  · intro j hj
    rw [hphase] at hj
    exact (Option.some.inj hj).symm
  · intro j hj
    exact ⟨(Option.some.inj hj).symm, rfl⟩
  · exact ⟨v, hopen, rfl, hlog⟩

theorem inv_pushUnlock (h : Inv s g) (hpc : s.calls id = .pushUnlock) (ht : exec s id = some t) :
    ∃ g', Inv t g' := by
  simp only [exec, hpc, Option.some.injEq] at ht
  subst ht
  obtain ⟨v, hopen, hphase, hlog⟩ : CallOk s g id .pushUnlock := hpc ▸ h.calls id
  refine ⟨_, h.move (.ready v) .done [.ret id .pushed] ?_ ?_ rfl rfl (by simp [Event.id])
    (fun _ _ => Iff.rfl) (h.logged.ret hlog hopen.2) ?_ ?_ ?_ (fun he => nomatch he.1) trivial⟩
  · show s.queue.state &&& ~~~LOCKED = _
    rw [h.state, hphase]
    exact Phase.word_wrote id v
  · exact h.slot.trans (by rw [hphase]; rfl)
  · rw [h.final, hphase]
    rfl
  · intro j hj
    rw [hphase] at hj
    exact (Option.some.inj hj).symm
  · exact nofun

/-- A pop that finds the slot free. -/
theorem inv_popEmpty (h : Inv s g) (hown : (s.calls id).owning = false) (hopen : Open s id .pop)
    {expected : BitVec 64} (hpc : s.calls id = .popCas expected)
    (hpushed : s.queue.state &&& PUSHED = 0) :
    ∃ g', Inv ({ s with emptied := true }.ret id
      (if s.queue.state &&& CLOSED = 0 then .empty else .popClosed)) g' := by
  obtain ⟨g', h', hphase, hclosed⟩ := h.announce
  obtain ⟨-, hlog, -⟩ : CallOk { s with emptied := true } g' id (.popCas expected) :=
    hpc ▸ h'.calls id
  have hitems : g'.phase.items true = [] := by
    rw [hphase]
    rw [h.state] at hpushed
    rcases Phase.word_and_pushed.mp hpushed with hp | hp
    · rw [hp]
      rfl
    · cases hg : g.phase <;> rw [hg] at hp <;> first | rfl | cases hp
  refine h'.settle hown _ hopen hlog.idle ?_
  rw [apply_pop_nil hitems, hclosed]
  have hiff : s.queue.state &&& CLOSED = 0 ↔ g.closed = false := by
    rw [h.state]
    exact Phase.word_and_closed
  cases hc : g.closed with
  | true =>
    have hne : ¬ s.queue.state &&& CLOSED = 0 := by
      rw [hiff, hc]
      exact nofun
    rw [if_neg hne]
    rfl
  | false =>
    rw [if_pos (hiff.mpr hc)]
    rfl

theorem inv_popCas {expected : BitVec 64} (h : Inv s g) (hpc : s.calls id = .popCas expected)
    (ht : exec s id = some t) : ∃ g', Inv t g' := by
  simp only [exec, hpc, Option.some.injEq] at ht
  subst ht
  obtain ⟨hopen, hlog, hexp⟩ : CallOk s g id (.popCas expected) := hpc ▸ h.calls id
  have hown : (s.calls id).owning = false := by rw [hpc]; rfl
  split
  · rename_i hstate
    rw [← hstate, h.state] at hexp
    obtain ⟨v, hphase⟩ := Phase.eq_ready_of_expected hexp
    refine ⟨_, h.move (.reading id v) .popRead [] ?_ ?_ rfl (List.append_nil _).symm
      (by simp) (fun _ _ => Iff.rfl) h.logged ?_ ?_ ?_ (fun he => nomatch he.2.1) ?_⟩
    · show (expected ||| LOCKED) &&& ~~~PUSHED = _
      rw [← hstate, h.state, hphase]
      exact Phase.word_claimed id v
    · exact h.slot.trans (by rw [hphase]; rfl)
    · rw [h.final, hphase]
      rfl
    · intro j hj
      rw [hphase] at hj
      cases hj
    · intro j hj
      exact ⟨(Option.some.inj hj).symm, rfl⟩
    · exact ⟨v, hopen, rfl, nofun, fun _ => hlog⟩
  · split
    · rename_i hpushed
      exact inv_popEmpty h hown hopen hpc hpushed
    · rename_i hpushed
      rw [h.state] at hpushed ⊢
      obtain ⟨hunlocked, hlocked⟩ := Phase.expected_of_pushed hpushed
      split
      · rename_i hl
        exact ⟨g, h.goto hown ⟨hopen, hlog, hunlocked hl⟩⟩
      · rename_i hl
        exact ⟨g, h.goto hown ⟨hopen, hlog, hlocked hl⟩⟩

theorem inv_popRead (h : Inv s g) (hpc : s.calls id = .popRead) (ht : exec s id = some t) :
    ∃ g', Inv t g' := by
  simp only [exec, hpc, Option.some.injEq] at ht
  subst ht
  obtain ⟨v, hopen, hphase, hclaimed⟩ : CallOk s g id .popRead := hpc ▸ h.calls id
  have hslot : s.queue.slot = some v := h.slot.trans (by rw [hphase]; rfl)
  refine ⟨_, h.move (.read id v) (.popUnlock s.queue.slot) [] ?_ rfl rfl
    (List.append_nil _).symm (by simp) (fun _ _ => Iff.rfl) h.logged ?_ ?_ ?_ ?_ ?_⟩
  · exact h.state.trans (by rw [hphase]; rfl)
  · rw [h.final, hphase]
    rfl
  · intro j hj
    rw [hphase] at hj
    exact (Option.some.inj hj).symm
  · intro j hj
    exact ⟨(Option.some.inj hj).symm, by rw [hslot]; rfl⟩
  · exact fun he => ⟨⟨by rw [hphase]; rfl, he.2⟩, rfl⟩
  · exact ⟨v, hslot, hopen, rfl, hclaimed⟩

theorem inv_popUnlock {value : Option α} (h : Inv s g) (hpc : s.calls id = .popUnlock value)
    (ht : exec s id = some t) : ∃ g', Inv t g' := by
  simp only [exec, hpc, Option.some.injEq] at ht
  subst ht
  obtain ⟨v, rfl, hopen, hphase, hclaimed⟩ : CallOk s g id (.popUnlock value) := hpc ▸ h.calls id
  -- the pop is in the log, or takes effect now
  obtain ⟨log, hlog, hlogged, hfinal, hmem⟩ : ∃ log : List (Entry (Op α) (Res α)),
      (∀ e : Entry (Op α) (Res α), e.id ≠ id → (e ∈ log ↔ e ∈ g.log)) ∧
      Logged (fifo (some 1)) s.hist log ∧
      (fifo (some 1)).final log = ⟨[], g.closed⟩ ∧ ⟨id, .pop, .popped (some v)⟩ ∈ log := by
    cases hemptied : s.emptied with
    | true =>
      refine ⟨g.log, fun _ _ => Iff.rfl, h.logged, ?_, hclaimed.1 hemptied⟩
      rw [h.final, hphase, hemptied]
      rfl
    | false =>
      have happly : (fifo (some 1)).apply ⟨g.phase.items s.emptied, g.closed⟩ .pop =
          (⟨[], g.closed⟩, .popped (some v)) := by
        rw [hphase, hemptied]
        exact apply_pop rfl
      obtain ⟨hlogged, hfinal⟩ := h.logged.recommit (.popped (some v)) hopen.1 hopen.2
        (hclaimed.2 hemptied).idle (by rw [h.final, happly])
      refine ⟨_, fun e he => mem_without_append he, hlogged, ?_,
        List.mem_append_right _ (List.mem_singleton_self _)⟩
      rw [hfinal, h.final, happly]
  refine ⟨_, h.move .free .done [.ret id (.popped (some v))] ?_ ?_ rfl rfl
    (by simp [Event.id]) hlog (hlogged.ret hmem hopen.2) hfinal ?_ nofun (fun he => nomatch he.1)
    trivial⟩
  · show s.queue.state &&& ~~~LOCKED = _
    rw [h.state, hphase]
    exact Phase.word_read id v
  · exact h.slot.trans (by rw [hphase]; rfl)
  · intro j hj
    rw [hphase] at hj
    exact (Option.some.inj hj).symm

theorem inv_closeOr (h : Inv s g) (hpc : s.calls id = .closeOr) (ht : exec s id = some t) :
    ∃ g', Inv t g' := by
  simp only [exec, hpc, Option.some.injEq] at ht
  subst ht
  obtain ⟨hopen, hlog⟩ : CallOk s g id .closeOr := hpc ▸ h.calls id
  have hown : (s.calls id).owning = false := by rw [hpc]; rfl
  have hother := h.not_owner hown
  obtain ⟨hlogged, hfinal⟩ := h.logged.recommit (.closed !g.closed) hopen.1 hopen.2 hlog.idle
    (by rw [h.final]; rfl)
  have hres : decide (s.queue.state &&& CLOSED = 0) = !g.closed := by
    rw [h.state]
    simp only [Phase.word_and_closed]
    cases g.closed <;> rfl
  rw [hres]
  refine ⟨⟨without id g.log ++ [⟨id, .close, .closed !g.closed⟩], g.phase, true⟩, ?_, h.slot, ?_,
    ?_, ?_, ?_⟩
  · show s.queue.state ||| CLOSED = _
    rw [h.state, Phase.word_or_closed]
  · intro j hj
    have hne : j ≠ id := fun heq => hother (heq ▸ hj)
    show Function.update s.calls id .done j = _
    rw [Function.update_of_ne hne]
    exact h.owner j hj
  · rw [hfinal, h.final]
    rfl
  · exact hlogged.ret (List.mem_append_right _ (List.mem_singleton_self _)) hopen.2
  · refine Frame.calls_ok (s := s) (g := g) (frame_of rfl rfl (by simp [Event.id])
      (fun e he => mem_without_append he) (fun _ _ _ => ⟨rfl, rfl⟩) (fun he => nomatch he.2.2)) h ?_
    simp only [State.ret, Function.update_self]
    trivial

end Framing

/-- The call is a push that has not looked at the slot. -/
def Pc.pushing : Pc α → Bool
  | .pushCas _ => true
  | _ => false

/-- No push that was called after a pop had found the slot free looks at it while the pop
that claimed the value still has it. -/
def NoLate (s : State α) : Act α → Prop
  | .call _ _ => True
  | .step id => (s.calls id).pushing = true → ¬ (s.queue.state = LOCKED ∧ s.late id = true)

instance (s : State α) : (a : Act α) → Decidable (NoLate s a)
  | .call _ _ => isTrue trivial
  | .step _ => inferInstanceAs (Decidable (_ → _))

theorem inv_step {s t : State α} {g : Ghost α} {a : Act α} (h : Inv s g) (hok : NoLate s a)
    (ht : step s a = some t) : ∃ g', Inv t g' := by
  cases a with
  | call id op => exact ⟨g, inv_call h ht⟩
  | step id =>
    replace ht : exec s id = some t := ht
    cases hpc : s.calls id with
    | idle | done => simp [exec, hpc] at ht
    | pushCas v => exact inv_pushCas h hpc (hok (by rw [hpc]; rfl)) ht
    | pushWrite v => exact inv_pushWrite h hpc ht
    | pushUnlock => exact inv_pushUnlock h hpc ht
    | popCas expected => exact inv_popCas h hpc ht
    | popRead => exact inv_popRead h hpc ht
    | popUnlock value => exact inv_popUnlock h hpc ht
    | closeOr => exact inv_closeOr h hpc ht

theorem inv_new : Inv (new : State α) ⟨[], .free, false⟩ := by
  refine ⟨rfl, rfl, nofun, rfl, .nil, fun id => ?_⟩
  simp [new, CallOk]

theorem inv_reachable {s : State α} (h : system.ReachableVia NoLate s) : ∃ g, Inv s g :=
  h.invariant (I := fun s => ∃ g, Inv s g) ⟨_, inv_new⟩
    fun _ _ _ hok ⟨_, hi⟩ ht => inv_step hi hok ht

/-- In every run in which no late push meets a pop that still has the slot, the calls behave
as on a FIFO with one place. -/
theorem single_linearizable {s : State α} (h : system.ReachableVia NoLate s) :
    ∃ order, Linearization (fifo (some 1)) s.hist order ∧
      pops order <+: (pushes order).map some := by
  obtain ⟨g, hinv⟩ := inv_reachable h
  have hlin := hinv.logged.linearization
  refine ⟨g.log, hlin, ?_⟩
  rw [pushes_eq hlin.legal]
  exact List.prefix_append _ _

/-- A push that fills the slot, one that finds it full, and two pops. -/
def pushPushPop : List (Act Nat) :=
  [.call 0 (.push 7), .step 0, .call 1 (.push 8), .step 0, .step 1, .step 0, .call 2 .pop, .step 2,
    .call 3 .pop, .step 3, .step 2, .step 2]

theorem single_linearizable_push_pop : ∃ s : State Nat, system.ReachableVia NoLate s ∧
    s.hist = [.call 0 (.push 7), .call 1 (.push 8), .ret 1 (.full 8), .ret 0 .pushed,
      .call 2 .pop, .call 3 .pop, .ret 3 .empty, .ret 2 (.popped (some 7))] ∧
    ∃ order, Linearization (fifo (some 1)) s.hist order ∧
      pops order <+: (pushes order).map some := by
  obtain ⟨s, hs, hhist⟩ := (system : System (State Nat) (Act Nat)).exists_of_runVia NoLate
    (P := fun s => s.hist = [.call 0 (.push 7), .call 1 (.push 8), .ret 1 (.full 8),
      .ret 0 .pushed, .call 2 .pop, .call 3 .pop, .ret 3 .empty, .ret 2 (.popped (some 7))])
    pushPushPop (by decide)
  exact ⟨s, hs, hhist, single_linearizable hs⟩

/-- A push and a pop that claims its value; another pop finds the slot free, and after that
a push finds it full. -/
def freeThenFull : List (Act Nat) :=
  [.call 0 (.push 7), .step 0, .step 0, .step 0, .call 1 .pop, .step 1, .call 2 .pop, .step 2,
    .call 3 (.push 8), .step 3, .step 1, .step 1]

/-- The four calls with their answers. -/
def freeThenFullCalls : List (Entry (Op Nat) (Res Nat)) :=
  [⟨0, .push 7, .pushed⟩, ⟨1, .pop, .popped (some 7)⟩, ⟨2, .pop, .empty⟩, ⟨3, .push 8, .full 8⟩]

/-- Nothing is pushed between the answer that the slot is free and the one that it is
full. -/
theorem single_not_linearizable :
    ∃ s : State Nat, system.Reachable s ∧
      ¬ ∃ order, Linearization (fifo (some 1)) s.hist order := by
  obtain ⟨s, -, hs, hhist⟩ := (system : System (State Nat) (Act Nat)).exists_of_run
    (P := fun s => s.hist = [.call 0 (.push 7), .ret 0 .pushed, .call 1 .pop, .call 2 .pop,
      .ret 2 .empty, .call 3 (.push 8), .ret 3 (.full 8), .ret 1 (.popped (some 7))])
    freeThenFull (by decide)
  refine ⟨s, hs, ?_⟩
  rintro ⟨order, hlin⟩
  rw [hhist] at hlin
  have hret : ∀ e ∈ order, e ∈ freeThenFullCalls := by
    intro e he
    have hcalled := hlin.called e he
    have hres := hlin.mem_of_ret he
    obtain ⟨id, op, res⟩ := e
    simp only [List.mem_cons, Event.call.injEq, reduceCtorEq, List.not_mem_nil, or_false,
      false_or] at hcalled
    rcases hcalled with ⟨rfl, rfl⟩ | ⟨rfl, rfl⟩ | ⟨rfl, rfl⟩ | ⟨rfl, rfl⟩
    · cases hres .pushed (by simp)
      decide
    · cases hres (.popped (some 7)) (by simp)
      decide
    · cases hres .empty (by simp)
      decide
    · cases hres (.full 8) (by simp)
      decide
  have hmem : ∀ e, e ∈ order ↔ e ∈ freeThenFullCalls := by
    refine fun e => ⟨hret e, fun he => ?_⟩
    have hanswer : .ret e.id e.res ∈ [(.call 0 (.push 7) : Event (Op Nat) (Res Nat)),
        .ret 0 .pushed, .call 1 .pop, .call 2 .pop, .ret 2 .empty, .call 3 (.push 8),
        .ret 3 (.full 8), .ret 1 (.popped (some 7))] := by
      revert e
      decide
    obtain ⟨op, hop⟩ := hlin.answered _ _ hanswer
    have hsame : ∀ d ∈ freeThenFullCalls, ∀ e ∈ freeThenFullCalls, d.id = e.id → d = e := by
      decide
    exact hsame _ (hret _ hop) e he rfl ▸ hop
  have hperm : order ~ freeThenFullCalls :=
    (List.perm_ext_iff_of_nodup (.of_map _ hlin.nodup) (by decide)).mpr hmem
  have horder := List.mem_permutations'.mpr hperm
  have hcheck : (fifo (some 1)).check ⟨[], false⟩ order = true :=
    Spec.check_of_legal (show (fifo (some 1)).Legal ([] ++ order) from hlin.legal)
  have h02 : [⟨0, .push 7, .pushed⟩, ⟨2, .pop, .empty⟩] <+ order :=
    hlin.realTime _ _ ((hmem _).mpr (by decide)) ((hmem _).mpr (by decide)) (by decide)
  have h23 : [⟨2, .pop, .empty⟩, ⟨3, .push 8, .full 8⟩] <+ order :=
    hlin.realTime _ _ ((hmem _).mpr (by decide)) ((hmem _).mpr (by decide)) (by decide)
  have hnone : ∀ l ∈ freeThenFullCalls.permutations', (fifo (some 1)).check ⟨[], false⟩ l = true →
      [⟨0, .push 7, .pushed⟩, ⟨2, .pop, .empty⟩] <+ l →
      ¬ [⟨2, .pop, .empty⟩, ⟨3, .push 8, .full 8⟩] <+ l := by
    decide +kernel
  exact hnone order horder hcheck h02 h23

end Cynthia.Queue.Single
