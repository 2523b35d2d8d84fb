import Cynthia.Queue.Unbounded
import Mathlib.Algebra.Group.Nat.Defs

/-! `Unbounded` is a linearizable FIFO. A push takes effect when it claims the tail
index, a pop when it claims the head index, and a pop that fails when it loads the
tail index. The `n`-th value goes to the slot `n % 31` of the block `n / 31`. -/

namespace Cynthia.Queue.Unbounded

open Transition Linearizability

variable {α : Type}

section Words

variable (w : Nat)

@[simp] theorem offset_eq : offset w = w / 2 % 32 := by
  simp [offset, shift, lap, Nat.shiftRight_eq_div_pow]

@[simp] theorem isMarked_eq : isMarked w = decide (w % 2 = 1) := by
  simp [isMarked, markBit, Nat.and_one_is_mod]

@[simp] theorem shiftRight_eq : w >>> shift = w / 2 := by
  simp [shift, Nat.shiftRight_eq_div_pow]

@[simp] theorem one_shift : 1 <<< shift = 2 := rfl

@[simp] theorem blockCap_eq : blockCap = 31 := rfl

@[simp] theorem lap_eq : lap = 32 := rfl

@[simp] theorem unmark_eq : unmark w = w / 2 * 2 := by
  simp [unmark, shift, Nat.shiftRight_eq_div_pow, Nat.shiftLeft_eq]

theorem mark_div : (w ||| markBit) / 2 = w / 2 := by
  have := Nat.or_div_two_pow (a := w) (b := markBit) (n := 1)
  simpa [markBit] using this

theorem mark_mod : (w ||| markBit) % 2 = 1 := by
  have := Nat.or_mod_two_pow (a := w) (b := markBit) (n := 1)
  rw [Nat.pow_one] at this
  rw [this]
  rcases Nat.mod_two_eq_zero_or_one w with h | h <;> simp [h, markBit]

end Words

/-- The ticket that a claim of the index `w` gets. -/
def ticket (w : Nat) : Nat := w / 2 / 32 * 31 + w / 2 % 32

/-- The position of a ticket. -/
def raw (n : Nat) : Nat := n / 31 * 32 + n % 31

inductive WPhase where
  | free
  | writing (id : Nat)
  | wrote (id : Nat)
  | written
  deriving DecidableEq

inductive RPhase where
  | unread
  | claimed (id : Nat)
  | taken
  deriving DecidableEq

/-- A call that has claimed the last slot of a block and moves the position to the
next one; `stored` if the pointer is there already. -/
structure Mover where
  id : Nat
  stored : Bool
  lap : Nat

structure Ghost (α : Type) where
  log : List (Entry (Op α) (Res α))
  writes : Nat → WPhase
  reads : Nat → RPhase
  tailMover : Option Mover
  headMover : Option Mover
  /-- The call that has installed the first block in `tail` and not yet in `head`. -/
  installer : Option Nat

def TailOk (q : Unbounded α) (pushed : Nat) : Option Mover → Prop
  | none => q.tail.index / 2 = raw pushed ∧
    (q.tail.block = none ∧ q.published = 0 ∧ pushed = 0 ∨
      q.tail.block = some (pushed / 31) ∧ q.published = pushed / 31 + 1)
  | some m => pushed = 31 * (m.lap + 1) ∧ q.tail.index / 2 = 32 * m.lap + 31 ∧
    q.tail.block = some (if m.stored then m.lap + 1 else m.lap) ∧
    q.published = if m.stored then m.lap + 2 else m.lap + 1

def HeadOk (q : Unbounded α) (popped : Nat) : Option Mover → Prop
  | none => q.head.index / 2 = raw popped ∧
    (q.head.block = none ∧ popped = 0 ∨ q.head.block = some (popped / 31))
  | some m => popped = 31 * (m.lap + 1) ∧ q.head.index / 2 = 32 * m.lap + 31 ∧
    q.head.block ≠ none ∧ (m.stored = true → q.head.block = some (m.lap + 1))

def WriteOk (s : State α) (n : Nat) (slot : Slot α) : WPhase → RPhase → Prop
  | .free, r => s.claims.length ≤ n ∧ slot.value = none ∧ slot.write = false ∧ r ≠ .taken
  | .writing _, r => n < s.claims.length ∧ slot.value = none ∧ slot.write = false ∧ r ≠ .taken
  | .wrote _, r => n < s.claims.length ∧ slot.value = s.claims[n]? ∧ slot.write = false ∧
    r ≠ .taken
  | .written, r => n < s.claims.length ∧ slot.write = true ∧
    (r ≠ .taken → slot.value = s.claims[n]?)

structure SlotOk (s : State α) (g : Ghost α) (n : Nat) : Prop where
  write : WriteOk s n (s.slot (n / 31) (n % 31)) (g.writes n) (g.reads n)
  read : g.reads n = .unread ↔ s.popped ≤ n

def Open (s : State α) (id : Nat) (op : Op α) : Prop :=
  .call id op ∈ s.hist ∧ ∀ res, .ret id res ∉ s.hist

def Unlogged (g : Ghost α) (id : Nat) : Prop := ∀ e ∈ g.log, e.id ≠ id

/-- What a push knows of the index that it has loaded. -/
structure SawTail (q : Unbounded α) (tail : Nat) : Prop where
  le : tail / 2 ≤ q.tail.index / 2
  marked : tail % 2 = 1 → q.tail.index % 2 = 1

/-- The push is going to claim this index. -/
structure PushReady (q : Unbounded α) (next : Bool) (tail : Nat) : Prop where
  saw : SawTail q tail
  unmarked : tail % 2 = 0
  offset : tail / 2 % 32 < 31
  next : tail / 2 % 32 = 30 → next = true

/-- The push has claimed its slot. -/
structure Pushing (s : State α) (g : Ghost α) (id : Nat) (value : α) (tail block : Nat)
    (phase : WPhase) : Prop where
  called : Open s id (.push value)
  logged : ⟨id, .push value, .pushed⟩ ∈ g.log
  block : block = tail / 2 / 32
  offset : tail / 2 % 32 < 31
  value : s.claims[ticket tail]? = some value
  phase : g.writes (ticket tail) = phase

/-- What a pop knows of the index that it has loaded. -/
structure SawHead (q : Unbounded α) (head : Nat) : Prop where
  le : head / 2 ≤ q.head.index / 2
  marked : head % 2 = 1 → head / 2 / 32 < q.tail.index / 2 / 32

/-- The pop has claimed its slot. -/
structure Popping (s : State α) (g : Ghost α) (id head block : Nat) : Prop where
  called : Open s id .pop
  logged : ⟨id, .pop, .popped s.claims[ticket head]?⟩ ∈ g.log
  claimed : ticket head < s.claims.length
  block : block = head / 2 / 32
  offset : head / 2 % 32 < 31
  phase : g.reads (ticket head) = .claimed id

def CallOk (s : State α) (g : Ghost α) (id : Nat) : Pc α → Prop
  | .idle => (∀ op, .call id op ∉ s.hist) ∧ ∀ res, .ret id res ∉ s.hist
  | .done => True
  | .panicked => False
  | .pushIndex v _ => Open s id (.push v) ∧ Unlogged g id
  | .pushBlock v _ tail => Open s id (.push v) ∧ Unlogged g id ∧ SawTail s.queue tail
  | .pushInstall v next tail => Open s id (.push v) ∧ Unlogged g id ∧ PushReady s.queue next tail
  | .pushHead v next tail block => Open s id (.push v) ∧ Unlogged g id ∧ PushReady s.queue next tail ∧
    block = 0 ∧ tail / 2 = 0 ∧ g.installer = some id
  | .pushCas v next tail block => Open s id (.push v) ∧ Unlogged g id ∧ PushReady s.queue next tail ∧
    s.queue.tail.block ≠ none ∧ (s.queue.tail.index / 2 = tail / 2 → block = tail / 2 / 32)
  | .pushStoreBlock v tail block => Pushing s g id v tail block (.writing id) ∧
    g.tailMover = some ⟨id, false, block⟩
  | .pushAdd v tail block new => Pushing s g id v tail block (.writing id) ∧
    g.tailMover = some ⟨id, true, block⟩ ∧ new = block + 1
  | .pushNext v tail block new => Pushing s g id v tail block (.writing id) ∧
    new = block + 1 ∧ 32 * (block + 1) ≤ s.queue.tail.index / 2
  | .pushWrite v tail block => Pushing s g id v tail block (.writing id)
  | .pushSet tail block => ∃ v, Pushing s g id v tail block (.wrote id)
  | .popIndex => Open s id .pop ∧ Unlogged g id
  | .popBlock head => Open s id .pop ∧ Unlogged g id ∧ SawHead s.queue head
  | .popTail head block => Open s id .pop ∧ Unlogged g id ∧ SawHead s.queue head ∧
    head / 2 % 32 < 31 ∧ head % 2 = 0 ∧ ∀ b, block = some b → s.queue.head.block ≠ none ∧
      (s.queue.head.index / 2 = head / 2 → b = head / 2 / 32)
  | .popCas head newHead block => Open s id .pop ∧ Unlogged g id ∧ SawHead s.queue head ∧
    head / 2 % 32 < 31 ∧ s.queue.head.block ≠ none ∧
    (s.queue.head.index / 2 = head / 2 → block = head / 2 / 32) ∧
    newHead / 2 = head / 2 + 1 ∧ head / 2 < s.queue.tail.index / 2 ∧
    (newHead % 2 = 1 → head / 2 / 32 < s.queue.tail.index / 2 / 32)
  | .popNext head newHead block => Popping s g id head block ∧
    g.headMover = some ⟨id, false, block⟩ ∧ newHead / 2 = head / 2 + 1 ∧ head / 2 % 32 = 30
  | .popPeek head newHead block next => Popping s g id head block ∧
    g.headMover = some ⟨id, false, block⟩ ∧ newHead / 2 = head / 2 + 1 ∧ head / 2 % 32 = 30 ∧
    next = block + 1 ∧ 32 * (block + 1) ≤ s.queue.tail.index / 2
  | .popStoreBlock head nextIndex block next => Popping s g id head block ∧
    g.headMover = some ⟨id, false, block⟩ ∧ next = block + 1 ∧ nextIndex / 2 = 32 * (block + 1) ∧
    32 * (block + 1) ≤ s.queue.tail.index / 2 ∧ (nextIndex % 2 = 1 → block + 1 < s.queue.tail.index / 2 / 32)
  | .popStoreIndex head nextIndex block => Popping s g id head block ∧
    g.headMover = some ⟨id, true, block⟩ ∧ nextIndex / 2 = 32 * (block + 1) ∧
    32 * (block + 1) ≤ s.queue.tail.index / 2 ∧ (nextIndex % 2 = 1 → block + 1 < s.queue.tail.index / 2 / 32)
  | .popWait head block => Popping s g id head block
  | .popRead head block => Popping s g id head block ∧ g.writes (ticket head) = .written
  | .popSet _ _ v | .destroyLoad _ _ v | .destroyOr _ _ v =>
    Open s id .pop ∧ ⟨id, .pop, .popped v⟩ ∈ g.log
  | .closeOr => Open s id .close ∧ Unlogged g id

structure Inv (s : State α) (g : Ghost α) : Prop where
  tail : TailOk s.queue s.claims.length g.tailMover
  head : HeadOk s.queue s.popped g.headMover
  next : ∀ b c, (s.queue.blocks b).next = some c →
    c = b + 1 ∧ 32 * (b + 1) ≤ s.queue.tail.index / 2
  install : ∀ id, g.installer = some id → s.queue.head.block = none ∧ s.queue.tail.block ≠ none
  first : s.queue.tail.block = none → s.queue.head.block = none
  marked : s.queue.head.index % 2 = 1 → s.queue.head.index / 2 / 32 < s.queue.tail.index / 2 / 32
  behind : s.queue.head.index / 2 ≤ s.queue.tail.index / 2
  ordered : s.popped ≤ s.claims.length
  pushes : pushes g.log = s.claims
  final : (fifo none).final g.log = ⟨s.claims.drop s.popped, isMarked s.queue.tail.index⟩
  logged : Logged (fifo none) s.hist g.log
  slots : ∀ n, SlotOk s g n
  calls : ∀ id, CallOk s g id (s.calls id)

/-- What a step of one call leaves to the others. -/
structure Frame (id : Nat) (s : State α) (g : Ghost α) (t : State α) (g' : Ghost α) : Prop where
  calls : ∀ j, j ≠ id → t.calls j = s.calls j
  called : ∀ j, j ≠ id → ∀ op, .call j op ∈ t.hist ↔ .call j op ∈ s.hist
  returned : ∀ j, j ≠ id → ∀ res, .ret j res ∈ t.hist ↔ .ret j res ∈ s.hist
  log : ∀ e : Entry (Op α) (Res α), e.id ≠ id → (e ∈ g'.log ↔ e ∈ g.log)
  tail : s.queue.tail.index / 2 ≤ t.queue.tail.index / 2
  mark : s.queue.tail.index % 2 = 1 → t.queue.tail.index % 2 = 1
  head : s.queue.head.index / 2 ≤ t.queue.head.index / 2
  tailBlock : s.queue.tail.block ≠ none → t.queue.tail.block ≠ none
  headBlock : s.queue.head.block ≠ none → t.queue.head.block ≠ none
  claims : s.claims <+: t.claims
  writes : ∀ n, g'.writes n = g.writes n ∨
    (∀ j, g.writes n = .writing j ∨ g.writes n = .wrote j → j = id) ∧ g.writes n ≠ .written
  reads : ∀ n, g'.reads n = g.reads n ∨ ∀ j, g.reads n = .claimed j → j = id
  tailMover : ∀ m, g.tailMover = some m → m.id ≠ id → g'.tailMover = some m
  headMover : ∀ m, g.headMover = some m → m.id ≠ id → g'.headMover = some m
  installer : ∀ j, g.installer = some j → j ≠ id → g'.installer = some j

section Framing

variable {s t : State α} {g g' : Ghost α} {id j : Nat}

theorem Frame.open (f : Frame id s g t g') (hj : j ≠ id) {op : Op α} (h : Open s j op) :
    Open t j op :=
  ⟨(f.called j hj op).mpr h.1, fun res hres => h.2 res ((f.returned j hj res).mp hres)⟩

theorem Frame.unlogged (f : Frame id s g t g') (hj : j ≠ id) (h : Unlogged g j) :
    Unlogged g' j :=
  fun e he heq => h e ((f.log e (heq ▸ hj)).mp he) heq

theorem Frame.sawTail (f : Frame id s g t g') {tail : Nat} (h : SawTail s.queue tail) :
    SawTail t.queue tail :=
  ⟨h.le.trans f.tail, fun hm => f.mark (h.marked hm)⟩

theorem Frame.pushReady (f : Frame id s g t g') {next : Bool} {tail : Nat}
    (h : PushReady s.queue next tail) : PushReady t.queue next tail :=
  ⟨f.sawTail h.saw, h.unmarked, h.offset, h.next⟩

theorem Frame.claims_at (f : Frame id s g t g') {n : Nat} (h : n < s.claims.length) :
    t.claims[n]? = s.claims[n]? := by
  obtain ⟨rest, hrest⟩ := f.claims
  rw [← hrest, List.getElem?_append_left h]

theorem Frame.pushing (f : Frame id s g t g') (hj : j ≠ id) {v : α} {tail block : Nat}
    {phase : WPhase} (hphase : phase = .writing j ∨ phase = .wrote j)
    (h : Pushing s g j v tail block phase) : Pushing t g' j v tail block phase := by
  refine ⟨f.open hj h.called, (f.log _ hj).mpr h.logged, h.block, h.offset, ?_, ?_⟩
  · rw [f.claims_at (List.getElem?_eq_some_iff.mp h.value).1]
    exact h.value
  · rcases f.writes (ticket tail) with heq | ⟨howner, -⟩
    · rw [heq]
      exact h.phase
    · rw [h.phase] at howner
      exact absurd (howner j hphase) hj

theorem Frame.sawHead (f : Frame id s g t g') {head : Nat} (h : SawHead s.queue head) :
    SawHead t.queue head := by
  refine ⟨h.le.trans f.head, fun hm => (h.marked hm).trans_le ?_⟩
  exact Nat.div_le_div_right f.tail

theorem Frame.popping (f : Frame id s g t g') (hj : j ≠ id) {head block : Nat}
    (h : Popping s g j head block) : Popping t g' j head block := by
  refine ⟨f.open hj h.called, ?_, h.claimed.trans_le f.claims.length_le, h.block, h.offset, ?_⟩
  · rw [f.claims_at h.claimed]
    exact (f.log _ hj).mpr h.logged
  · rcases f.reads (ticket head) with heq | howner
    · rw [heq]
      exact h.phase
    · exact absurd (howner j h.phase) hj

theorem Frame.callOk (f : Frame id s g t g') (hj : j ≠ id) {pc : Pc α}
    (h : CallOk s g j pc) : CallOk t g' j pc := by
  have htail := f.tail
  have hhead := f.head
  have hlap : s.queue.tail.index / 2 / 32 ≤ t.queue.tail.index / 2 / 32 :=
    Nat.div_le_div_right htail
  cases pc with
  | idle => exact ⟨fun op hop => h.1 op ((f.called j hj op).mp hop),
      fun res hres => h.2 res ((f.returned j hj res).mp hres)⟩
  | done => trivial
  | panicked => exact h
  | pushIndex v next => exact ⟨f.open hj h.1, f.unlogged hj h.2⟩
  | pushBlock v next tail => exact ⟨f.open hj h.1, f.unlogged hj h.2.1, f.sawTail h.2.2⟩
  | pushInstall v next tail => exact ⟨f.open hj h.1, f.unlogged hj h.2.1, f.pushReady h.2.2⟩
  | pushHead v next tail block =>
    obtain ⟨hopen, hlog, hready, hb, hzero, hinst⟩ := h
    exact ⟨f.open hj hopen, f.unlogged hj hlog, f.pushReady hready, hb, hzero,
      f.installer j hinst hj⟩
  | pushCas v next tail block =>
    obtain ⟨hopen, hlog, hready, hne, hb⟩ := h
    refine ⟨f.open hj hopen, f.unlogged hj hlog, f.pushReady hready, f.tailBlock hne,
      fun heq => hb ?_⟩
    have := hready.saw.le
    omega
  | pushStoreBlock v tail block =>
    exact ⟨f.pushing hj (.inl rfl) h.1, f.tailMover _ h.2 hj⟩
  | pushAdd v tail block new =>
    exact ⟨f.pushing hj (.inl rfl) h.1, f.tailMover _ h.2.1 hj, h.2.2⟩
  | pushNext v tail block new =>
    exact ⟨f.pushing hj (.inl rfl) h.1, h.2.1, h.2.2.trans htail⟩
  | pushWrite v tail block => exact f.pushing hj (.inl rfl) h
  | pushSet tail block =>
    obtain ⟨v, hv⟩ := h
    exact ⟨v, f.pushing hj (.inr rfl) hv⟩
  | popIndex => exact ⟨f.open hj h.1, f.unlogged hj h.2⟩
  | popBlock head => exact ⟨f.open hj h.1, f.unlogged hj h.2.1, f.sawHead h.2.2⟩
  | popTail head block =>
    obtain ⟨hopen, hlog, hsaw, hoff, hm, hb⟩ := h
    refine ⟨f.open hj hopen, f.unlogged hj hlog, f.sawHead hsaw, hoff, hm, fun b hbl => ?_⟩
    obtain ⟨hne, hlap'⟩ := hb b hbl
    refine ⟨f.headBlock hne, fun heq => hlap' ?_⟩
    have := hsaw.le
    omega
  | popCas head newHead block =>
    obtain ⟨hopen, hlog, hsaw, hoff, hne, hb, hnew, hlt, hm⟩ := h
    have := hsaw.le
    refine ⟨f.open hj hopen, f.unlogged hj hlog, f.sawHead hsaw, hoff, f.headBlock hne,
      fun heq => hb (by omega), hnew, by omega, fun hm' => (hm hm').trans_le hlap⟩
  | popNext head newHead block => exact ⟨f.popping hj h.1, f.headMover _ h.2.1 hj, h.2.2⟩
  | popPeek head newHead block next =>
    obtain ⟨hpop, hmov, hnew, hoff, hnext, hle⟩ := h
    exact ⟨f.popping hj hpop, f.headMover _ hmov hj, hnew, hoff, hnext, hle.trans htail⟩
  | popStoreBlock head nextIndex block next =>
    obtain ⟨hpop, hmov, hnext, hidx, hle, hm⟩ := h
    exact ⟨f.popping hj hpop, f.headMover _ hmov hj, hnext, hidx, hle.trans htail,
      fun hm' => (hm hm').trans_le hlap⟩
  | popStoreIndex head nextIndex block =>
    obtain ⟨hpop, hmov, hidx, hle, hm⟩ := h
    exact ⟨f.popping hj hpop, f.headMover _ hmov hj, hidx, hle.trans htail,
      fun hm' => (hm hm').trans_le hlap⟩
  | popWait head block => exact f.popping hj h
  | popRead head block =>
    refine ⟨f.popping hj h.1, ?_⟩
    rcases f.writes (ticket head) with heq | ⟨-, hnot⟩
    · rw [heq]
      exact h.2
    · exact absurd h.2 hnot
  | popSet head block v => exact ⟨f.open hj h.1, (f.log _ hj).mpr h.2⟩
  | destroyLoad block i v => exact ⟨f.open hj h.1, (f.log _ hj).mpr h.2⟩
  | destroyOr block i v => exact ⟨f.open hj h.1, (f.log _ hj).mpr h.2⟩
  | closeOr => exact ⟨f.open hj h.1, f.unlogged hj h.2⟩

/-- The calls after a step: the one that made it by itself, the others by the frame. -/
theorem Frame.calls_ok (f : Frame id s g t g') (h : Inv s g)
    (hself : CallOk t g' id (t.calls id)) : ∀ j, CallOk t g' j (t.calls j) := by
  intro j
  rcases eq_or_ne j id with rfl | hj
  · exact hself
  · rw [f.calls j hj]
    exact f.callOk hj (h.calls j)

/-- A step of the call `id` that appends its own events, and claims nothing. -/
theorem frame_of {pc : Pc α} {evs : List (Event (Op α) (Res α))}
    (hcalls : t.calls = Function.update s.calls id pc) (hhist : t.hist = s.hist ++ evs)
    (hevs : ∀ e ∈ evs, e.id = id)
    (hlog : ∀ e : Entry (Op α) (Res α), e.id ≠ id → (e ∈ g'.log ↔ e ∈ g.log))
    (htail : s.queue.tail.index / 2 ≤ t.queue.tail.index / 2)
    (hmark : s.queue.tail.index % 2 = 1 → t.queue.tail.index % 2 = 1)
    (hhead : s.queue.head.index / 2 ≤ t.queue.head.index / 2)
    (htblock : s.queue.tail.block ≠ none → t.queue.tail.block ≠ none)
    (hblock : s.queue.head.block ≠ none → t.queue.head.block ≠ none)
    (hclaims : s.claims <+: t.claims)
    (hwrites : ∀ n, g'.writes n = g.writes n ∨
      (∀ j, g.writes n = .writing j ∨ g.writes n = .wrote j → j = id) ∧ g.writes n ≠ .written)
    (hreads : ∀ n, g'.reads n = g.reads n ∨ ∀ j, g.reads n = .claimed j → j = id)
    (htailM : ∀ m, g.tailMover = some m → m.id ≠ id → g'.tailMover = some m)
    (hheadM : ∀ m, g.headMover = some m → m.id ≠ id → g'.headMover = some m)
    (hinst : ∀ j, g.installer = some j → j ≠ id → g'.installer = some j) :
    Frame id s g t g' := by
  refine ⟨?_, ?_, ?_, hlog, htail, hmark, hhead, htblock, hblock, hclaims, hwrites, hreads, htailM, hheadM,
    hinst⟩
  · intro j hj
    rw [hcalls, Function.update_of_ne hj]
  · intro j hj op
    rw [hhist, List.mem_append, or_iff_left]
    exact fun he => hj (hevs _ he)
  · intro j hj res
    rw [hhist, List.mem_append, or_iff_left]
    exact fun he => hj (hevs _ he)

theorem SlotOk.same {n : Nat} (h : SlotOk s g n) (hclaims : t.claims = s.claims)
    (hpopped : t.popped = s.popped)
    (hvalue : (t.slot (n / 31) (n % 31)).value = (s.slot (n / 31) (n % 31)).value)
    (hwrite : (t.slot (n / 31) (n % 31)).write = (s.slot (n / 31) (n % 31)).write)
    (hwrites : g'.writes n = g.writes n) (hreads : g'.reads n = g.reads n) : SlotOk t g' n := by
  refine ⟨?_, ?_⟩
  · have hok := h.write
    rw [hwrites, hreads]
    cases hw : g.writes n <;> simp only [hw, WriteOk, hclaims, hvalue, hwrite] at hok ⊢ <;> exact hok
  · rw [hreads, hpopped]
    exact h.read

/-- A step that changes nothing that is shared, and of the log only its own entries. -/
theorem Inv.local {log : List (Entry (Op α) (Res α))} (h : Inv s g) (pc : Pc α)
    (evs : List (Event (Op α) (Res α))) (hqueue : t.queue = s.queue)
    (hclaims : t.claims = s.claims) (hpopped : t.popped = s.popped)
    (hcalls : t.calls = Function.update s.calls id pc) (hhist : t.hist = s.hist ++ evs)
    (hevs : ∀ e ∈ evs, e.id = id)
    (hlog : ∀ e : Entry (Op α) (Res α), e.id ≠ id → (e ∈ log ↔ e ∈ g.log))
    (hpushes : Queue.pushes log = Queue.pushes g.log)
    (hlogged : Logged (fifo none) t.hist log)
    (hfinal : (fifo none).final log = (fifo none).final g.log)
    (hself : CallOk t { g with log := log } id pc) : Inv t { g with log := log } := by
  obtain ⟨queue, calls, hist, claims, popped⟩ := t
  simp only at hqueue hclaims hpopped hcalls hhist
  subst hqueue hclaims hpopped hcalls
  refine ⟨h.tail, h.head, h.next, h.install, h.first, h.marked, h.behind, h.ordered, hpushes.trans h.pushes,
    hfinal.trans h.final, hlogged, fun n => (h.slots n).same rfl rfl rfl rfl rfl rfl, ?_⟩
  refine Frame.calls_ok (s := s) (g := g) (frame_of rfl hhist hevs hlog le_rfl (fun hm => hm)
    le_rfl (fun hb => hb) (fun hb => hb) (List.prefix_refl _) (fun _ => .inl rfl)
    (fun _ => .inl rfl) (fun _ hm _ => hm) (fun _ hm _ => hm) (fun _ hi _ => hi)) h ?_
  simp only [Function.update_self]
  exact hself

theorem Inv.goto {pc : Pc α} (h : Inv s g) (hself : CallOk (s.goto id pc) g id pc) :
    Inv (s.goto id pc) g :=
  h.local pc [] rfl rfl rfl rfl (List.append_nil _).symm (by simp) (fun _ _ => Iff.rfl) rfl
    h.logged rfl hself

theorem mem_append_singleton {log : List (Entry (Op α) (Res α))} {op : Op α} {res : Res α}
    {e : Entry (Op α) (Res α)} (he : e.id ≠ id) : e ∈ log ++ [⟨id, op, res⟩] ↔ e ∈ log := by
  rw [List.mem_append, or_iff_left]
  intro hmem
  exact he (by rw [List.mem_singleton.mp hmem])

/-- The call takes effect without a change and returns at once. -/
theorem Inv.settle {op : Op α} (h : Inv s g) (res : Res α) (hopen : Open s id op)
    (hlog : Unlogged g id)
    (happly : (fifo none).apply ⟨s.claims.drop s.popped, isMarked s.queue.tail.index⟩ op =
      (⟨s.claims.drop s.popped, isMarked s.queue.tail.index⟩, res))
    (hres : res ≠ .pushed) : ∃ g', Inv (s.ret id res) g' := by
  have hcommit : Logged (fifo none) s.hist (g.log ++ [⟨id, op, res⟩]) :=
    h.logged.commit hopen.1 hopen.2 hlog (by rw [h.final, happly])
  refine ⟨_, h.local .done [.ret id res] rfl rfl rfl rfl rfl (by simp [Event.id])
    (fun e he => mem_append_singleton he) (pushes_append_of_ne id op hres)
    (hcommit.ret (List.mem_append_right _ (List.mem_singleton_self _)) hopen.2) ?_ trivial⟩
  rw [Spec.final_append_singleton, h.final, happly]

/-- A return with the result that the log has. -/
theorem Inv.ret {op : Op α} {res : Res α} (h : Inv s g) (hopen : Open s id op)
    (hmem : ⟨id, op, res⟩ ∈ g.log) : Inv (s.ret id res) g :=
  h.local .done [.ret id res] rfl rfl rfl rfl rfl (by simp [Event.id]) (fun _ _ => Iff.rfl) rfl
    (h.logged.ret hmem hopen.2) rfl trivial

theorem Inv.tail_lap (h : Inv s g) (hoff : s.queue.tail.index / 2 % 32 < 31) {b : Nat}
    (hb : s.queue.tail.block = some b) : b = s.queue.tail.index / 2 / 32 := by
  have htail := h.tail
  cases hm : g.tailMover <;> simp only [hm, TailOk, raw] at htail
  · rw [hb] at htail
    simp only [reduceCtorEq, false_and, Option.some.injEq, false_or] at htail
    omega
  · omega

theorem Inv.head_lap (h : Inv s g) (hoff : s.queue.head.index / 2 % 32 < 31) {b : Nat}
    (hb : s.queue.head.block = some b) : b = s.queue.head.index / 2 / 32 := by
  have hhead := h.head
  cases hm : g.headMover <;> simp only [hm, HeadOk, raw] at hhead
  · rw [hb] at hhead
    simp only [reduceCtorEq, false_and, Option.some.injEq, false_or] at hhead
    omega
  · omega

/-- An index that is not at the end of a block says how many values were claimed. -/
theorem Inv.tail_ticket (h : Inv s g) (hoff : s.queue.tail.index / 2 % 32 < 31) :
    g.tailMover = none ∧ s.claims.length = ticket s.queue.tail.index := by
  have htail := h.tail
  cases hm : g.tailMover <;> simp only [hm, TailOk, raw] at htail
  · refine ⟨rfl, ?_⟩
    unfold ticket
    omega
  · omega

theorem Inv.head_ticket (h : Inv s g) (hoff : s.queue.head.index / 2 % 32 < 31) :
    g.headMover = none ∧ s.popped = ticket s.queue.head.index := by
  have hhead := h.head
  cases hm : g.headMover <;> simp only [hm, HeadOk, raw] at hhead
  · refine ⟨rfl, ?_⟩
    unfold ticket
    omega
  · omega

theorem inv_pushLoop {v : α} {next : Bool} {tail : Nat} (h : Inv s g)
    (hopen : Open s id (.push v)) (hlog : Unlogged g id) (hsaw : SawTail s.queue tail) :
    ∃ g', Inv (pushLoop s id v next tail s.queue.tail.block) g' := by
  unfold pushLoop
  simp only [isMarked_eq, offset_eq, blockCap_eq, decide_eq_true_eq]
  split_ifs with hmark hend
  · refine h.settle _ hopen hlog (apply_push_closed ?_) (by simp)
    simpa using hsaw.marked hmark
  · exact ⟨g, h.goto ⟨hopen, hlog⟩⟩
  · have hready : PushReady s.queue (next || decide (tail / 2 % 32 + 1 = 31)) tail := by
      refine ⟨hsaw, by omega, by omega, fun h30 => ?_⟩
      simp [h30]
    cases hb : s.queue.tail.block with
    | none => exact ⟨g, h.goto ⟨hopen, hlog, hready⟩⟩
    | some b =>
      refine ⟨g, h.goto ⟨hopen, hlog, hready, by simp [State.goto, hb], fun heq => ?_⟩⟩
      have heq : s.queue.tail.index / 2 = tail / 2 := heq
      rw [h.tail_lap (by omega) hb, heq]

theorem slot_setBlock {b i n : Nat} {block : Block α} :
    (s.setBlock b block).slot n i = if n = b then block.slots i else s.slot n i := by
  by_cases hn : n = b
  · subst hn
    simp [State.setBlock, State.slot]
  · simp [State.setBlock, State.slot, hn]

/-- The slots after a step that only links or frees a block. -/
theorem slot_setBlock_same {b n i : Nat} {block : Block α}
    (hslots : block.slots = (s.queue.blocks b).slots) :
    (s.setBlock b block).slot n i = s.slot n i := by
  rw [slot_setBlock, hslots]
  split
  · rename_i hn
    rw [hn]
    rfl
  · rfl

theorem slot_publish {b i : Nat} : s.publish.slot b i =
    if b = s.queue.published then ⟨none, false, false, false⟩ else s.slot b i := by
  by_cases hb : b = s.queue.published
  · subst hb
    simp [State.publish, State.slot, Block.new]
  · simp [State.publish, State.slot, hb]

/-- A new block has the slots of tickets that nobody has claimed yet. -/
theorem Inv.slot_new {n : Nat} (h : Inv s g) (hn : s.claims.length ≤ n) :
    (s.slot (n / 31) (n % 31)).value = none ∧ (s.slot (n / 31) (n % 31)).write = false := by
  have hok := (h.slots n).write
  cases hw : g.writes n <;> simp only [hw, WriteOk] at hok
  · exact ⟨hok.2.1, hok.2.2.1⟩
  all_goals omega

theorem Inv.slots_publish (h : Inv s g) (hnew : s.claims.length ≤ 31 * s.queue.published)
    (hclaims : t.claims = s.claims) (hpopped : t.popped = s.popped)
    (hblocks : t.queue.blocks = s.publish.queue.blocks)
    (hwrites : g'.writes = g.writes) (hreads : g'.reads = g.reads) : ∀ n, SlotOk t g' n := by
  intro n
  have hslot : t.slot (n / 31) (n % 31) = s.publish.slot (n / 31) (n % 31) := by
    rw [State.slot, hblocks]
    rfl
  have hsame : (t.slot (n / 31) (n % 31)).value = (s.slot (n / 31) (n % 31)).value ∧
      (t.slot (n / 31) (n % 31)).write = (s.slot (n / 31) (n % 31)).write := by
    rw [hslot, slot_publish]
    split
    · obtain ⟨hv, hw⟩ := h.slot_new (n := n) (by omega)
      simp [hv, hw]
    · exact ⟨rfl, rfl⟩
  exact (h.slots n).same hclaims hpopped hsame.1 hsame.2 (by rw [hwrites]) (by rw [hreads])

theorem inv_pushInstall {v : α} {next weak : Bool} {tail : Nat} {t : State α} (h : Inv s g)
    (hpc : s.calls id = .pushInstall v next tail) (ht : exec s id weak = some t) :
    ∃ g', Inv t g' := by
  simp only [exec, hpc, Option.some.injEq] at ht
  subst ht
  obtain ⟨hopen, hlog, hready⟩ : CallOk s g id (.pushInstall v next tail) := hpc ▸ h.calls id
  cases hb : s.queue.tail.block with
  | some b => exact ⟨g, h.goto ⟨hopen, hlog⟩⟩
  | none =>
    have htail := h.tail
    have hnone : g.tailMover = none ∧ s.queue.tail.index / 2 = 0 ∧ s.queue.published = 0 ∧
        s.claims.length = 0 := by
      cases hm : g.tailMover <;> simp only [hm, hb, TailOk, raw] at htail
      · simp only [reduceCtorEq, false_and, or_false, true_and] at htail
        refine ⟨rfl, ?_, htail.2.1, htail.2.2⟩
        omega
      · simp at htail
    obtain ⟨hm, hzero, hpub, hlen⟩ := hnone
    have hle := hready.saw.le
    refine ⟨{ g with installer := some id }, ?_⟩
    have hframe : Frame id s g
        ((s.publish.setTail { s.queue.tail with block := some s.queue.published }).goto id
          (.pushHead v next tail s.queue.published)) { g with installer := some id } := by
      refine frame_of rfl (List.append_nil _).symm (by simp) (fun _ _ => Iff.rfl) le_rfl
        (fun hm => hm) le_rfl (fun hb' => absurd hb hb') (fun hb => hb) (List.prefix_refl _)
        (fun _ => .inl rfl) (fun _ => .inl rfl) (fun _ hm _ => hm) (fun _ hm _ => hm)
        (fun j hi _ => ?_)
      exact absurd hb (h.install j hi).2
    refine ⟨?_, h.head, ?_, ?_, ?_, h.marked, h.behind, h.ordered, h.pushes, h.final, h.logged,
      h.slots_publish (by omega) rfl rfl rfl rfl rfl, hframe.calls_ok h ?_⟩
    · rw [hm] at htail ⊢
      refine ⟨htail.1, .inr ⟨?_, ?_⟩⟩
      · simp [State.goto, State.setTail, State.publish, hlen, hpub]
      · simp [State.goto, State.setTail, State.publish, hlen, hpub]
    · intro b c hbc
      rcases eq_or_ne b s.queue.published with rfl | hne
      · simp [State.goto, State.setTail, State.publish, Block.new] at hbc
      · simp only [State.goto, State.setTail, State.publish, Function.update_of_ne hne] at hbc
        exact h.next b c hbc
    · intro j _
      exact ⟨h.first hb, by simp [State.goto, State.setTail]⟩
    · intro hnone
      simp [State.goto, State.setTail] at hnone
    · simp only [State.goto, Function.update_self]
      exact ⟨hopen, hlog, hframe.pushReady hready, hpub, by omega, rfl⟩

theorem inv_pushHead {v : α} {next weak : Bool} {tail block : Nat} {t : State α} (h : Inv s g)
    (hpc : s.calls id = .pushHead v next tail block) (ht : exec s id weak = some t) :
    ∃ g', Inv t g' := by
  simp only [exec, hpc, Option.some.injEq] at ht
  subst ht
  obtain ⟨hopen, hlog, hready, rfl, hzero, hinst⟩ : CallOk s g id (.pushHead v next tail block) :=
    hpc ▸ h.calls id
  obtain ⟨hnone, hsome⟩ := h.install id hinst
  have hhead := h.head
  have hm : g.headMover = none ∧ s.popped = 0 := by
    cases hm : g.headMover <;> simp only [hm, hnone, HeadOk] at hhead
    · simp only [reduceCtorEq, or_false, true_and] at hhead
      exact ⟨rfl, hhead.2⟩
    · simp at hhead
  refine ⟨{ g with installer := none }, ?_⟩
  have hframe : Frame id s g
      ((s.setHead { s.queue.head with block := some 0 }).goto id (.pushCas v next tail 0))
      { g with installer := none } := by
    refine frame_of rfl (List.append_nil _).symm (by simp) (fun _ _ => Iff.rfl) le_rfl
      (fun hm => hm) le_rfl (fun hb => hb) (fun _ => by simp [State.goto, State.setHead])
      (List.prefix_refl _)
      (fun _ => .inl rfl) (fun _ => .inl rfl) (fun _ hm _ => hm) (fun _ hm _ => hm)
      (fun j hi hj => ?_)
    rw [hinst] at hi
    exact absurd (Option.some.inj hi).symm hj
  refine ⟨h.tail, ?_, h.next, by simp, fun hn => absurd hn hsome, h.marked, h.behind, h.ordered, h.pushes,
    h.final, h.logged, fun n => (h.slots n).same rfl rfl rfl rfl rfl rfl, hframe.calls_ok h ?_⟩
  · rw [hm.1] at hhead ⊢
    refine ⟨hhead.1, .inr ?_⟩
    simp [State.goto, State.setHead, hm.2]
  · simp only [State.goto, Function.update_self]
    exact ⟨hopen, hlog, hframe.pushReady hready, hsome, fun _ => by omega⟩

/-- The slots when a push claims a ticket. -/
theorem Inv.slots_claim {v : α} (h : Inv s g) (hclaims : t.claims = s.claims ++ [v])
    (hpopped : t.popped = s.popped) (hblocks : t.queue.blocks = s.queue.blocks)
    (hwrites : g'.writes = Function.update g.writes s.claims.length (.writing id))
    (hreads : g'.reads = g.reads) : ∀ n, SlotOk t g' n := by
  intro n
  have hslot : t.slot (n / 31) (n % 31) = s.slot (n / 31) (n % 31) := by
    rw [State.slot, hblocks]
    rfl
  refine ⟨?_, by rw [hreads, hpopped]; exact (h.slots n).read⟩
  have hok := (h.slots n).write
  rw [hslot, hreads, hwrites]
  rcases eq_or_ne n s.claims.length with rfl | hne
  · rw [Function.update_self]
    cases hw : g.writes s.claims.length <;> simp only [hw, WriteOk] at hok
    · exact ⟨by simp [hclaims], hok.2⟩
    all_goals omega
  · rw [Function.update_of_ne hne]
    cases hw : g.writes n <;> simp only [hw, WriteOk, hclaims, List.length_append,
      List.length_singleton] at hok ⊢
    · exact ⟨by omega, hok.2⟩
    · exact ⟨by omega, hok.2⟩
    · rw [List.getElem?_append_left hok.1]
      exact ⟨by omega, hok.2⟩
    · rw [List.getElem?_append_left hok.1]
      exact ⟨by omega, hok.2⟩

theorem inv_pushClaim {v : α} {next : Bool} {tail block : Nat} {pc : Pc α} (h : Inv s g)
    (hopen : Open s id (.push v)) (hlog : Unlogged g id) (hready : PushReady s.queue next tail)
    (hindex : s.queue.tail.index = tail) (hsome : s.queue.tail.block ≠ none)
    (hblock : block = tail / 2 / 32)
    (hpc : tail / 2 % 32 = 30 ∧ pc = .pushStoreBlock v tail block ∨
      tail / 2 % 32 < 30 ∧ pc = .pushWrite v tail block) :
    ∃ g', Inv ({ s.setTail { s.queue.tail with index := tail + 2 } with
      claims := s.claims ++ [v] }.goto id pc) g' := by
  have hoff := hready.offset
  obtain ⟨hm, hlen⟩ := h.tail_ticket (by omega)
  rw [hindex] at hlen
  have hcommit : Logged (fifo none) s.hist (g.log ++ [⟨id, .push v, .pushed⟩]) :=
    h.logged.commit hopen.1 hopen.2 hlog (by
      rw [h.final, apply_push (by simp [hindex, hready.unmarked]) rfl])
  have hfree : g.writes s.claims.length = .free := by
    have hok := (h.slots s.claims.length).write
    cases hw : g.writes s.claims.length <;> simp only [hw, WriteOk] at hok
    · rfl
    all_goals omega
  refine ⟨{ g with
    log := g.log ++ [⟨id, .push v, .pushed⟩]
    writes := Function.update g.writes s.claims.length (.writing id)
    tailMover := if tail / 2 % 32 = 30 then some ⟨id, false, block⟩ else none }, ?_⟩
  have hframe : Frame id s g ({ s.setTail { s.queue.tail with index := tail + 2 } with
      claims := s.claims ++ [v] }.goto id pc) { g with
        log := g.log ++ [⟨id, .push v, .pushed⟩]
        writes := Function.update g.writes s.claims.length (.writing id)
        tailMover := if tail / 2 % 32 = 30 then some ⟨id, false, block⟩ else none } := by
    refine frame_of rfl (List.append_nil _).symm (by simp) (fun e he => mem_append_singleton he)
      ?_ ?_ le_rfl (fun hb => hb) (fun hb => hb) (List.prefix_append _ _) ?_ (fun _ => .inl rfl) ?_
      (fun _ hm _ => hm) (fun _ hi _ => hi)
    · simp only [State.goto, State.setTail]
      omega
    · simp only [State.goto, State.setTail]
      omega
    · intro n
      rcases eq_or_ne n s.claims.length with rfl | hne
      · exact .inr (by simp [hfree])
      · exact .inl (Function.update_of_ne hne _ _)
    · intro m hm'
      rw [hm] at hm'
      cases hm'
  have hpushing : Pushing ({ s.setTail { s.queue.tail with index := tail + 2 } with
      claims := s.claims ++ [v] }.goto id pc) { g with
        log := g.log ++ [⟨id, .push v, .pushed⟩]
        writes := Function.update g.writes s.claims.length (.writing id)
        tailMover := if tail / 2 % 32 = 30 then some ⟨id, false, block⟩ else none } id v tail
      block (.writing id) := by
    refine ⟨hopen, List.mem_append_right _ (List.mem_singleton_self _), hblock, hoff, ?_, ?_⟩
    · simp [State.goto, ← hlen]
    · simp [← hlen]
  have htail := h.tail
  rw [hm] at htail
  simp only [TailOk, raw, hsome, false_and, false_or] at htail
  have hlap : s.claims.length / 31 = block := by
    unfold ticket at hlen
    omega
  rw [hlap] at htail
  constructor
  · simp only [State.goto, State.setTail, List.length_append, List.length_singleton]
    unfold ticket at hlen
    split_ifs with h30
    · simp only [TailOk, Bool.false_eq_true, if_false]
      exact ⟨by omega, by omega, htail.2.1, htail.2.2⟩
    · have hnext : (s.claims.length + 1) / 31 = block := by omega
      simp only [TailOk, raw, hnext]
      exact ⟨by omega, .inr htail.2⟩
  · exact h.head
  · intro b c hbc
    obtain ⟨hc, hle⟩ := h.next b c hbc
    exact ⟨hc, hle.trans hframe.tail⟩
  · exact h.install
  · exact h.first
  · exact fun hmark => (h.marked hmark).trans_le (Nat.div_le_div_right hframe.tail)
  · exact h.behind.trans hframe.tail
  · exact h.ordered.trans (by simp [State.goto])
  · rw [pushes_append, h.pushes]
    rfl
  · rw [Spec.final_append_singleton, h.final,
      apply_push (by simp [hindex, hready.unmarked]) rfl]
    simp [State.goto, State.setTail, hindex, List.drop_append_of_le_length h.ordered]
  · exact hcommit
  · exact h.slots_claim rfl rfl rfl rfl rfl
  · refine hframe.calls_ok h ?_
    simp only [State.goto, Function.update_self]
    rcases hpc with ⟨h30, rfl⟩ | ⟨hlt, rfl⟩
    · exact ⟨hpushing, by simp [h30]⟩
    · exact hpushing

theorem inv_pushCas {v : α} {next weak : Bool} {tail block : Nat} {t : State α} (h : Inv s g)
    (hpc : s.calls id = .pushCas v next tail block) (ht : exec s id weak = some t) :
    ∃ g', Inv t g' := by
  simp only [exec, hpc, Option.some.injEq] at ht
  subst ht
  obtain ⟨hopen, hlog, hready, hsome, hblock⟩ : CallOk s g id (.pushCas v next tail block) :=
    hpc ▸ h.calls id
  simp only [offset_eq, blockCap_eq, one_shift]
  have hoff := hready.offset
  split_ifs with hcas hend hnext
  · exact inv_pushClaim h hopen hlog hready hcas.2 hsome (hblock (by rw [hcas.2]))
      (.inl ⟨by omega, rfl⟩)
  · exact absurd (hready.next (by omega)) hnext
  · exact inv_pushClaim h hopen hlog hready hcas.2 hsome (hblock (by rw [hcas.2]))
      (.inr ⟨by omega, rfl⟩)
  · exact ⟨g, h.goto ⟨hopen, hlog, le_rfl, fun hm => hm⟩⟩

theorem Frame.pushing_self (f : Frame id s g t g') {v : α} {tail block : Nat}
    {phase phase' : WPhase} (h : Pushing s g id v tail block phase) (hhist : t.hist = s.hist)
    (hlog : g'.log = g.log) (hphase : g'.writes (ticket tail) = phase') :
    Pushing t g' id v tail block phase' := by
  refine ⟨?_, by rw [hlog]; exact h.logged, h.block, h.offset, ?_, hphase⟩
  · unfold Open
    rw [hhist]
    exact h.called
  · rw [f.claims_at (List.getElem?_eq_some_iff.mp h.value).1]
    exact h.value

theorem inv_pushStoreBlock {v : α} {weak : Bool} {tail block : Nat} {t : State α} (h : Inv s g)
    (hpc : s.calls id = .pushStoreBlock v tail block) (ht : exec s id weak = some t) :
    ∃ g', Inv t g' := by
  simp only [exec, hpc, Option.some.injEq] at ht
  obtain ⟨hpushing, hm⟩ : CallOk s g id (.pushStoreBlock v tail block) := hpc ▸ h.calls id
  have htail := h.tail
  simp only [hm, TailOk, Bool.false_eq_true, if_false] at htail
  obtain ⟨hlen, hindex, hblock, hpub⟩ := htail
  have hframe : Frame id s g t { g with tailMover := some ⟨id, true, block⟩ } := by
    subst ht
    refine frame_of rfl (List.append_nil _).symm (by simp) (fun _ _ => Iff.rfl) le_rfl
      (fun hm => hm) le_rfl (fun _ => by simp [State.goto, State.setTail]) (fun hb => hb)
      (List.prefix_refl _) (fun _ => .inl rfl) (fun _ => .inl rfl) ?_ (fun _ hm _ => hm)
      (fun _ hi _ => hi)
    intro m hm' hne
    rw [hm] at hm'
    exact absurd (by rw [← Option.some.inj hm']) hne
  have hself := hframe.pushing_self hpushing (by rw [← ht]; rfl) rfl hpushing.phase
  subst ht
  refine ⟨{ g with tailMover := some ⟨id, true, block⟩ }, ?_, h.head, ?_, ?_, ?_, h.marked,
    h.behind, h.ordered, h.pushes, h.final, h.logged, h.slots_publish (by omega) rfl rfl rfl rfl rfl,
    hframe.calls_ok h ?_⟩
  · simp only [TailOk, State.goto, State.setTail, State.publish, if_true, hpub, and_true]
    exact ⟨hlen, hindex⟩
  · intro b c hbc
    rcases eq_or_ne b s.queue.published with rfl | hne
    · simp [State.goto, State.setTail, State.publish, Block.new] at hbc
    · simp only [State.goto, State.setTail, State.publish, Function.update_of_ne hne] at hbc
      exact h.next b c hbc
  · intro j hj
    exact ⟨(h.install j hj).1, by simp [State.goto, State.setTail]⟩
  · intro hnone
    simp [State.goto, State.setTail] at hnone
  · simp only [State.goto, Function.update_self]
    exact ⟨hself, rfl, hpub⟩

theorem inv_pushAdd {v : α} {weak : Bool} {tail block new : Nat} {t : State α} (h : Inv s g)
    (hpc : s.calls id = .pushAdd v tail block new) (ht : exec s id weak = some t) :
    ∃ g', Inv t g' := by
  simp only [exec, hpc, Option.some.injEq, one_shift] at ht
  obtain ⟨hpushing, hm, hnew⟩ : CallOk s g id (.pushAdd v tail block new) := hpc ▸ h.calls id
  have htail := h.tail
  simp only [hm, TailOk, if_true] at htail
  obtain ⟨hlen, hindex, hblock, hpub⟩ := htail
  have hframe : Frame id s g t { g with tailMover := none } := by
    subst ht
    refine frame_of rfl (List.append_nil _).symm (by simp) (fun _ _ => Iff.rfl) ?_ ?_ le_rfl
      (fun hb => hb) (fun hb => hb) (List.prefix_refl _) (fun _ => .inl rfl) (fun _ => .inl rfl)
      ?_ (fun _ hm _ => hm) (fun _ hi _ => hi)
    · simp only [State.goto, State.setTail]
      omega
    · simp only [State.goto, State.setTail]
      omega
    · intro m hm' hne
      rw [hm] at hm'
      exact absurd (by rw [← Option.some.inj hm']) hne
  have hself := hframe.pushing_self hpushing (by rw [← ht]; rfl) rfl hpushing.phase
  subst ht
  refine ⟨{ g with tailMover := none }, ?_, h.head, ?_, h.install, h.first, ?_, ?_,
    h.ordered, h.pushes, ?_, h.logged, fun n => (h.slots n).same rfl rfl rfl rfl rfl rfl,
    hframe.calls_ok h ?_⟩
  · simp only [TailOk, State.goto, State.setTail, raw, hblock, hpub]
    refine ⟨by omega, .inr ⟨?_, by omega⟩⟩
    congr 1
    omega
  · intro b c hbc
    obtain ⟨hc, hle⟩ := h.next b c hbc
    exact ⟨hc, hle.trans hframe.tail⟩
  · exact fun hmark => (h.marked hmark).trans_le (Nat.div_le_div_right hframe.tail)
  · exact h.behind.trans hframe.tail
  · rw [h.final]
    simp [State.goto, State.setTail]
  · simp only [State.goto, Function.update_self]
    refine ⟨hself, hnew, ?_⟩
    simp only [State.setTail]
    omega

theorem inv_pushNext {v : α} {weak : Bool} {tail block new : Nat} {t : State α} (h : Inv s g)
    (hpc : s.calls id = .pushNext v tail block new) (ht : exec s id weak = some t) :
    ∃ g', Inv t g' := by
  simp only [exec, hpc, Option.some.injEq] at ht
  obtain ⟨hpushing, hnew, hle⟩ : CallOk s g id (.pushNext v tail block new) := hpc ▸ h.calls id
  have hframe : Frame id s g t g := by
    subst ht
    exact frame_of rfl (List.append_nil _).symm (by simp) (fun _ _ => Iff.rfl) le_rfl
      (fun hm => hm) le_rfl (fun hb => hb) (fun hb => hb) (List.prefix_refl _) (fun _ => .inl rfl)
      (fun _ => .inl rfl) (fun _ hm _ => hm) (fun _ hm _ => hm) (fun _ hi _ => hi)
  have hself := hframe.pushing_self hpushing (by rw [← ht]; rfl) rfl hpushing.phase
  subst ht
  have hslot (b i : Nat) : (((s.setBlock block { s.queue.blocks block with next := some new }).goto id
      (.pushWrite v tail block)).slot b i) = s.slot b i := by
    show (s.setBlock block _).slot b i = _
    exact slot_setBlock_same rfl
  refine ⟨g, h.tail, h.head, ?_, h.install, h.first, h.marked, h.behind, h.ordered, h.pushes, h.final,
    h.logged, fun n => (h.slots n).same rfl rfl (by rw [hslot]) (by rw [hslot]) rfl rfl,
    hframe.calls_ok h ?_⟩
  · intro b c hbc
    rcases eq_or_ne b block with rfl | hne
    · simp only [State.goto, State.setBlock, Function.update_self, Option.some.injEq] at hbc
      exact ⟨hbc ▸ hnew, hle⟩
    · simp only [State.goto, State.setBlock, Function.update_of_ne hne] at hbc
      exact h.next b c hbc
  · simp only [State.goto, Function.update_self]
    exact hself

theorem slot_setSlot {b i n k : Nat} {slot : Slot α} :
    (s.setSlot b i slot).slot n k = if n = b ∧ k = i then slot else s.slot n k := by
  rw [State.setSlot, slot_setBlock]
  by_cases hn : n = b
  · subst hn
    by_cases hk : k = i
    · simp [hk]
    · simp [hk, State.slot]
  · simp [hn]

theorem next_setSlot {b i n : Nat} {slot : Slot α} :
    ((s.setSlot b i slot).queue.blocks n).next = (s.queue.blocks n).next := by
  by_cases hn : n = b
  · subst hn
    simp [State.setSlot, State.setBlock]
  · simp [State.setSlot, State.setBlock, hn]

/-- The slots after a step that changes the slot of one ticket. -/
theorem Inv.slots_set {n : Nat} {slot : Slot α} (h : Inv s g)
    (hclaims : t.claims = s.claims) (hpopped : t.popped = s.popped)
    (hblocks : t.queue.blocks = (s.setSlot (n / 31) (n % 31) slot).queue.blocks)
    (hwrites : ∀ m, m ≠ n → g'.writes m = g.writes m)
    (hreads : ∀ m, m ≠ n → g'.reads m = g.reads m)
    (hwrite : WriteOk s n slot (g'.writes n) (g'.reads n))
    (hread : g'.reads n = .unread ↔ s.popped ≤ n) : ∀ m, SlotOk t g' m := by
  intro m
  have hslot : t.slot (m / 31) (m % 31) =
      (s.setSlot (n / 31) (n % 31) slot).slot (m / 31) (m % 31) := by
    rw [State.slot, hblocks]
    rfl
  rw [slot_setSlot] at hslot
  rcases eq_or_ne m n with rfl | hne
  · rw [if_pos ⟨rfl, rfl⟩] at hslot
    refine ⟨?_, by rw [hpopped]; exact hread⟩
    rw [hslot]
    cases hw : g'.writes m <;> simp only [hw, WriteOk, hclaims] at hwrite ⊢ <;> exact hwrite
  · rw [if_neg (by omega)] at hslot
    exact (h.slots m).same hclaims hpopped (by rw [hslot]) (by rw [hslot]) (hwrites m hne)
      (hreads m hne)

theorem ticket_div {w : Nat} (h : w / 2 % 32 < 31) : ticket w / 31 = w / 2 / 32 := by
  unfold ticket
  omega

theorem ticket_mod {w : Nat} (h : w / 2 % 32 < 31) : ticket w % 31 = w / 2 % 32 := by
  unfold ticket
  omega

theorem inv_pushWrite {v : α} {weak : Bool} {tail block : Nat} {t : State α} (h : Inv s g)
    (hpc : s.calls id = .pushWrite v tail block) (ht : exec s id weak = some t) :
    ∃ g', Inv t g' := by
  simp only [exec, hpc, Option.some.injEq, offset_eq] at ht
  have hpushing : Pushing s g id v tail block (.writing id) := by
    have := h.calls id
    rwa [hpc] at this
  obtain rfl : block = ticket tail / 31 := by
    rw [ticket_div hpushing.offset]
    exact hpushing.block
  rw [← ticket_mod hpushing.offset] at ht
  have hframe : Frame id s g t
      { g with writes := Function.update g.writes (ticket tail) (.wrote id) } := by
    subst ht
    refine frame_of rfl (List.append_nil _).symm (by simp) (fun _ _ => Iff.rfl) le_rfl
      (fun hm => hm) le_rfl (fun hb => hb) (fun hb => hb) (List.prefix_refl _) (fun n => ?_)
      (fun _ => .inl rfl) (fun _ hm _ => hm) (fun _ hm _ => hm) (fun _ hi _ => hi)
    rcases eq_or_ne n (ticket tail) with rfl | hne
    · refine .inr ?_
      simp [hpushing.phase, eq_comm]
    · exact .inl (Function.update_of_ne hne _ _)
  have hself := hframe.pushing_self hpushing (by rw [← ht]; rfl) rfl (Function.update_self _ _ _)
  have hok := (h.slots (ticket tail)).write
  rw [hpushing.phase] at hok
  subst ht
  refine ⟨{ g with writes := Function.update g.writes (ticket tail) (.wrote id) }, h.tail, h.head,
    ?_, h.install, h.first, h.marked, h.behind, h.ordered, h.pushes, h.final, h.logged,
    h.slots_set rfl rfl rfl (fun m hm => Function.update_of_ne hm _ _) (fun _ _ => rfl) ?_
      (h.slots _).read, hframe.calls_ok h ?_⟩
  · intro b c hbc
    exact h.next b c (next_setSlot (s := s) ▸ hbc)
  · simp only [Function.update_self]
    exact ⟨hok.1, hpushing.value.symm, hok.2.2⟩
  · simp only [State.goto, Function.update_self]
    exact ⟨v, hself⟩

theorem inv_pushSet {weak : Bool} {tail block : Nat} {t : State α} (h : Inv s g)
    (hpc : s.calls id = .pushSet tail block) (ht : exec s id weak = some t) :
    ∃ g', Inv t g' := by
  simp only [exec, hpc, Option.some.injEq, offset_eq] at ht
  obtain ⟨v, hpushing⟩ : CallOk s g id (.pushSet tail block) := hpc ▸ h.calls id
  obtain rfl : block = ticket tail / 31 := by
    rw [ticket_div hpushing.offset]
    exact hpushing.block
  rw [← ticket_mod hpushing.offset] at ht
  have hframe : Frame id s g t
      { g with writes := Function.update g.writes (ticket tail) .written } := by
    subst ht
    refine frame_of rfl rfl (by simp [Event.id]) (fun _ _ => Iff.rfl) le_rfl (fun hm => hm) le_rfl
      (fun hb => hb) (fun hb => hb) (List.prefix_refl _) (fun n => ?_) (fun _ => .inl rfl)
      (fun _ hm _ => hm) (fun _ hm _ => hm) (fun _ hi _ => hi)
    rcases eq_or_ne n (ticket tail) with rfl | hne
    · refine .inr ?_
      simp [hpushing.phase, eq_comm]
    · exact .inl (Function.update_of_ne hne _ _)
  have hok := (h.slots (ticket tail)).write
  rw [hpushing.phase] at hok
  subst ht
  refine ⟨{ g with writes := Function.update g.writes (ticket tail) .written }, h.tail, h.head,
    ?_, h.install, h.first, h.marked, h.behind, h.ordered, h.pushes, h.final,
    h.logged.ret hpushing.logged hpushing.called.2,
    h.slots_set rfl rfl rfl (fun m hm => Function.update_of_ne hm _ _) (fun _ _ => rfl) ?_
      (h.slots _).read, hframe.calls_ok h ?_⟩
  · intro b c hbc
    exact h.next b c (next_setSlot (s := s) ▸ hbc)
  · simp only [Function.update_self]
    exact ⟨hok.1, rfl, fun _ => hok.2.1⟩
  · simp only [State.ret, Function.update_self]
    trivial

theorem inv_popLoop {head : Nat} (h : Inv s g) (hopen : Open s id .pop) (hlog : Unlogged g id)
    (hsaw : SawHead s.queue head) : ∃ g', Inv (popLoop s id head s.queue.head.block) g' := by
  unfold popLoop
  simp only [isMarked_eq, offset_eq, blockCap_eq, decide_eq_true_eq, one_shift]
  split_ifs with hend hmark
  · exact ⟨g, h.goto ⟨hopen, hlog⟩⟩
  · cases hb : s.queue.head.block with
    | none => exact ⟨g, h.goto ⟨hopen, hlog⟩⟩
    | some b =>
      have hlap := hsaw.marked (by omega)
      have hle := hsaw.le
      refine ⟨g, h.goto ⟨hopen, hlog, hsaw, by omega, by simp [State.goto, hb], fun heq => ?_,
        by omega, ?_, fun _ => hlap⟩⟩
      · have heq : s.queue.head.index / 2 = head / 2 := heq
        rw [h.head_lap (by omega) hb, heq]
      · simp only [State.goto]
        omega
  · refine ⟨g, h.goto ⟨hopen, hlog, hsaw, by omega, by omega, fun b hb => ?_⟩⟩
    refine ⟨by simp [State.goto, hb], fun heq => ?_⟩
    have heq : s.queue.head.index / 2 = head / 2 := heq
    rw [h.head_lap (by omega) hb, heq]

/-- A pop that finds `tail` where `head` was: all that was claimed is popped. -/
theorem Inv.drained {head : Nat} {block : Option Nat} (h : Inv s g)
    (hpc : s.calls id = .popTail head block)
    (htail : head >>> shift = s.queue.tail.index >>> shift) : s.claims.length = s.popped := by
  obtain ⟨-, -, hsaw, hoff, -, -⟩ : CallOk s g id (.popTail head block) := hpc ▸ h.calls id
  simp only [shiftRight_eq] at htail
  have hle := hsaw.le
  have hbehind := h.behind
  have hordered := h.ordered
  obtain ⟨-, hlen⟩ := h.tail_ticket (by omega)
  have hhead := h.head
  cases hmv : g.headMover <;> simp only [hmv, HeadOk, raw] at hhead <;> unfold ticket at hlen <;>
    omega

theorem inv_popTail {weak : Bool} {head : Nat} {block : Option Nat} {t : State α} (h : Inv s g)
    (hpc : s.calls id = .popTail head block) (ht : exec s id weak = some t) : ∃ g', Inv t g' := by
  simp only [exec, hpc, Option.some.injEq] at ht
  obtain ⟨hopen, hlog, hsaw, hoff, hm, hb⟩ : CallOk s g id (.popTail head block) :=
    hpc ▸ h.calls id
  have hle := hsaw.le
  have hbehind := h.behind
  subst ht
  unfold popCheck
  split <;> rename_i htail
  · have hitems : s.claims.drop s.popped = [] := List.drop_eq_nil_of_le (h.drained hpc htail).le
    refine h.settle _ hopen hlog (apply_pop_nil hitems) ?_
    split <;> simp
  · simp only [shiftRight_eq, lap_eq, one_shift] at htail ⊢
    have hlt : head / 2 < s.queue.tail.index / 2 := by omega
    cases block with
    | none => exact ⟨g, h.goto ⟨hopen, hlog⟩⟩
    | some b =>
      obtain ⟨hne, hlap⟩ := hb b rfl
      refine ⟨g, h.goto ⟨hopen, hlog, hsaw, hoff, hne, hlap, ?_, hlt, ?_⟩⟩
      · split
        · rw [mark_div]
          omega
        · omega
      · intro hmark
        split at hmark
        · rename_i hlaps
          have : head / 2 / 32 ≤ s.queue.tail.index / 2 / 32 := Nat.div_le_div_right hlt.le
          exact lt_of_le_of_ne this hlaps
        · omega

/-- The slots when a pop claims a ticket. -/
theorem Inv.slots_popClaim (h : Inv s g) (hclaims : t.claims = s.claims)
    (hpopped : t.popped = s.popped + 1) (hblocks : t.queue.blocks = s.queue.blocks)
    (hwrites : g'.writes = g.writes)
    (hreads : g'.reads = Function.update g.reads s.popped (.claimed id)) : ∀ n, SlotOk t g' n := by
  intro n
  have hslot : t.slot (n / 31) (n % 31) = s.slot (n / 31) (n % 31) := by
    rw [State.slot, hblocks]
    rfl
  have hok := (h.slots n).write
  have hread := (h.slots n).read
  rcases eq_or_ne n s.popped with rfl | hne
  · have hunread : g.reads s.popped = .unread := hread.mpr le_rfl
    refine ⟨?_, ?_⟩
    · rw [hslot, hwrites, hreads, Function.update_self]
      cases hw : g.writes s.popped <;>
        simp only [hw, hunread, WriteOk, hclaims, ne_eq, reduceCtorEq, not_false_eq_true,
          forall_const] at hok ⊢ <;> exact hok
    · rw [hreads, Function.update_self, hpopped]
      simp
  · refine ⟨?_, ?_⟩
    · rw [hslot, hwrites, hreads, Function.update_of_ne hne]
      cases hw : g.writes n <;> simp only [hw, WriteOk, hclaims] at hok ⊢ <;> exact hok
    · rw [hreads, Function.update_of_ne hne, hread, hpopped]
      omega

theorem inv_popClaim {head newHead block : Nat} {pc : Pc α} (h : Inv s g)
    (hopen : Open s id .pop) (hlog : Unlogged g id) (hoff : head / 2 % 32 < 31)
    (hindex : s.queue.head.index = head) (hsome : s.queue.head.block ≠ none)
    (hblock : block = head / 2 / 32) (hnew : newHead / 2 = head / 2 + 1)
    (hlt : head / 2 < s.queue.tail.index / 2)
    (hmarked : newHead % 2 = 1 → head / 2 / 32 < s.queue.tail.index / 2 / 32)
    (hpc : head / 2 % 32 = 30 ∧ pc = .popNext head newHead block ∨
      head / 2 % 32 < 30 ∧ pc = .popWait head block) :
    ∃ g', Inv ({ s.setHead { s.queue.head with index := newHead } with
      popped := s.popped + 1 }.goto id pc) g' := by
  obtain ⟨hm, hpop⟩ := h.head_ticket (by omega)
  rw [hindex] at hpop
  have hroom : s.popped < s.claims.length := by
    have htail := h.tail
    unfold ticket at hpop
    cases hmv : g.tailMover <;> simp only [hmv, TailOk, raw] at htail <;> omega
  have happly : (fifo none).apply ⟨s.claims.drop s.popped, isMarked s.queue.tail.index⟩ .pop =
      (⟨s.claims.drop (s.popped + 1), isMarked s.queue.tail.index⟩,
        .popped s.claims[s.popped]?) := by
    rw [List.getElem?_eq_getElem hroom]
    exact apply_pop (List.drop_eq_getElem_cons hroom)
  have hcommit : Logged (fifo none) s.hist (g.log ++ [⟨id, .pop, .popped s.claims[s.popped]?⟩]) :=
    h.logged.commit hopen.1 hopen.2 hlog (by rw [h.final, happly])
  obtain ⟨g', hg'⟩ : ∃ g' : Ghost α, g' = { g with
    log := g.log ++ [⟨id, .pop, .popped s.claims[s.popped]?⟩]
    reads := Function.update g.reads s.popped (.claimed id)
    headMover := if head / 2 % 32 = 30 then some ⟨id, false, block⟩ else none } := ⟨_, rfl⟩
  have hframe : Frame id s g ({ s.setHead { s.queue.head with index := newHead } with
      popped := s.popped + 1 }.goto id pc) g' := by
    subst hg'
    refine frame_of rfl (List.append_nil _).symm (by simp) (fun e he => mem_append_singleton he)
      le_rfl (fun hm => hm) ?_ (fun hb => hb) (fun hb => hb) (List.prefix_refl _)
      (fun _ => .inl rfl) (fun n => ?_) (fun _ hm _ => hm) (fun m hm' => ?_) (fun _ hi _ => hi)
    · simp only [State.goto, State.setHead]
      omega
    · rcases eq_or_ne n s.popped with rfl | hne
      · refine .inr fun j hj => ?_
        rw [(h.slots s.popped).read.mpr le_rfl] at hj
        cases hj
      · exact .inl (Function.update_of_ne hne _ _)
    · rw [hm] at hm'
      cases hm'
  have hpopping : Popping ({ s.setHead { s.queue.head with index := newHead } with
      popped := s.popped + 1 }.goto id pc) g' id head block := by
    subst hg'
    refine ⟨hopen, ?_, ?_, hblock, hoff, ?_⟩
    · rw [← hpop]
      exact List.mem_append_right _ (List.mem_singleton_self _)
    · rw [← hpop]
      exact hroom
    · simp [← hpop]
  have hhead := h.head
  rw [hm] at hhead
  simp only [HeadOk, raw, hsome, false_and, false_or] at hhead
  refine ⟨g', ?_, ?_, h.next, ?_, h.first, ?_, ?_, hroom, ?_, ?_, ?_, ?_, hframe.calls_ok h ?_⟩
  · subst hg'
    exact h.tail
  · subst hg'
    simp only [State.goto, State.setHead]
    unfold ticket at hpop
    have hlap : s.popped / 31 = block := by omega
    rw [hlap] at hhead
    split_ifs with h30
    · simp only [HeadOk, Bool.false_eq_true, false_implies, and_true]
      exact ⟨by omega, by omega, hsome⟩
    · have hnext : (s.popped + 1) / 31 = block := by omega
      simp only [HeadOk, raw, hnext]
      exact ⟨by omega, .inr hhead.2⟩
  · subst hg'
    exact h.install
  · intro hmark
    have := hmarked hmark
    simp only [State.goto, State.setHead]
    omega
  · simp only [State.goto, State.setHead]
    omega
  · subst hg'
    rw [pushes_append_of_ne id .pop (by simp)]
    exact h.pushes
  · subst hg'
    rw [Spec.final_append_singleton, h.final, happly]
    rfl
  · subst hg'
    exact hcommit
  · subst hg'
    exact h.slots_popClaim rfl rfl rfl rfl rfl
  · simp only [State.goto, Function.update_self]
    rcases hpc with ⟨h30, rfl⟩ | ⟨h30, rfl⟩
    · exact ⟨hpopping, by simp [hg', h30], hnew, h30⟩
    · exact hpopping

theorem inv_popCas {weak : Bool} {head newHead block : Nat} {t : State α} (h : Inv s g)
    (hpc : s.calls id = .popCas head newHead block) (ht : exec s id weak = some t) :
    ∃ g', Inv t g' := by
  simp only [exec, hpc, Option.some.injEq] at ht
  subst ht
  obtain ⟨hopen, hlog, hsaw, hoff, hsome, hblock, hnew, hlt, hm⟩ :
    CallOk s g id (.popCas head newHead block) := hpc ▸ h.calls id
  simp only [offset_eq, blockCap_eq]
  split_ifs with hcas hend
  · exact inv_popClaim h hopen hlog hoff hcas.2 hsome (hblock (by rw [hcas.2])) hnew hlt hm
      (.inl ⟨by omega, rfl⟩)
  · exact inv_popClaim h hopen hlog hoff hcas.2 hsome (hblock (by rw [hcas.2])) hnew hlt hm
      (.inr ⟨by omega, rfl⟩)
  · exact ⟨g, h.goto ⟨hopen, hlog, le_rfl, h.marked⟩⟩

theorem Popping.goto {head block : Nat} (h : Popping s g id head block) (pc : Pc α) :
    Popping (s.goto id pc) g id head block :=
  ⟨h.called, h.logged, h.claimed, h.block, h.offset, h.phase⟩

theorem inv_popNext {weak : Bool} {head newHead block : Nat} {t : State α} (h : Inv s g)
    (hpc : s.calls id = .popNext head newHead block) (ht : exec s id weak = some t) :
    ∃ g', Inv t g' := by
  simp only [exec, hpc] at ht
  obtain ⟨hpop, hm, hnew, hoff⟩ : CallOk s g id (.popNext head newHead block) := hpc ▸ h.calls id
  cases hn : (s.queue.blocks block).next with
  | none =>
    simp only [hn, Option.some.injEq] at ht
    exact ⟨g, ht ▸ h⟩
  | some next =>
    simp only [hn, Option.some.injEq] at ht
    subst ht
    obtain ⟨hnext, hle⟩ := h.next block next hn
    exact ⟨g, h.goto ⟨hpop.goto _, hm, hnew, hoff, hnext, hle⟩⟩

theorem inv_popPeek {weak : Bool} {head newHead block next : Nat} {t : State α} (h : Inv s g)
    (hpc : s.calls id = .popPeek head newHead block next) (ht : exec s id weak = some t) :
    ∃ g', Inv t g' := by
  simp only [exec, hpc, Option.some.injEq, unmark_eq, one_shift] at ht
  subst ht
  obtain ⟨hpop, hm, hnew, hoff, hnext, hle⟩ : CallOk s g id (.popPeek head newHead block next) :=
    hpc ▸ h.calls id
  have hblock := hpop.block
  refine ⟨g, h.goto ⟨hpop.goto _, hm, hnext, ?_, hle, ?_⟩⟩
  · split
    · omega
    · rw [mark_div]
      omega
  · intro hmark
    split at hmark
    · omega
    · rename_i hsome
      obtain ⟨c, hc⟩ := Option.ne_none_iff_exists'.mp hsome
      have := (h.next next c hc).2
      simp only [State.goto]
      omega

theorem Frame.popping_self (f : Frame id s g t g') {head block : Nat} (h : Popping s g id head block)
    (hhist : t.hist = s.hist) (hlog : g'.log = g.log) (hreads : g'.reads = g.reads) :
    Popping t g' id head block := by
  refine ⟨?_, ?_, h.claimed.trans_le f.claims.length_le, h.block, h.offset, ?_⟩
  · unfold Open
    rw [hhist]
    exact h.called
  · rw [f.claims_at h.claimed, hlog]
    exact h.logged
  · rw [hreads]
    exact h.phase

/-- A step of the call that moves `head` to the next block. -/
theorem frame_headMover {m : Mover} (position : Position) (pc : Pc α) (next : Option Mover)
    (hm : g.headMover = some m) (hid : m.id = id)
    (hindex : s.queue.head.index / 2 ≤ position.index / 2)
    (hblock : s.queue.head.block ≠ none → position.block ≠ none) :
    Frame id s g ((s.setHead position).goto id pc) { g with headMover := next } := by
  refine frame_of rfl (List.append_nil _).symm (by simp) (fun _ _ => Iff.rfl) le_rfl
    (fun hm => hm) hindex (fun hb => hb) hblock (List.prefix_refl _) (fun _ => .inl rfl)
    (fun _ => .inl rfl) (fun _ hm _ => hm) (fun n hn hne => ?_) (fun _ hi _ => hi)
  rw [hm] at hn
  exact absurd (Option.some.inj hn ▸ hid) hne

theorem inv_popStoreBlock {weak : Bool} {head nextIndex block next : Nat} {t : State α}
    (h : Inv s g) (hpc : s.calls id = .popStoreBlock head nextIndex block next)
    (ht : exec s id weak = some t) : ∃ g', Inv t g' := by
  simp only [exec, hpc, Option.some.injEq] at ht
  obtain ⟨hpop, hm, hnext, hidx, hle, hmark⟩ :
    CallOk s g id (.popStoreBlock head nextIndex block next) := hpc ▸ h.calls id
  have hhead := h.head
  simp only [hm, HeadOk] at hhead
  obtain ⟨hpopped, hindex, hsome, -⟩ := hhead
  have hframe : Frame id s g t { g with headMover := some ⟨id, true, block⟩ } := by
    subst ht
    exact frame_headMover _ _ _ hm rfl le_rfl fun _ => by simp
  have hself := hframe.popping_self hpop (by rw [← ht]; rfl) rfl rfl
  subst ht
  refine ⟨{ g with headMover := some ⟨id, true, block⟩ }, h.tail, ?_, h.next, ?_, ?_, h.marked,
    h.behind, h.ordered, h.pushes, h.final, h.logged,
    fun n => (h.slots n).same rfl rfl rfl rfl rfl rfl, hframe.calls_ok h ?_⟩
  · simp only [HeadOk, State.goto, State.setHead]
    exact ⟨hpopped, hindex, by simp, fun _ => by rw [hnext]⟩
  · intro j hj
    exact absurd (h.install j hj).1 hsome
  · intro hnone
    exact absurd (h.first hnone) hsome
  · simp only [State.goto, Function.update_self]
    exact ⟨hself, rfl, hidx, hle, hmark⟩

theorem inv_popStoreIndex {weak : Bool} {head nextIndex block : Nat} {t : State α}
    (h : Inv s g) (hpc : s.calls id = .popStoreIndex head nextIndex block)
    (ht : exec s id weak = some t) : ∃ g', Inv t g' := by
  simp only [exec, hpc, Option.some.injEq] at ht
  obtain ⟨hpop, hm, hidx, hle, hmark⟩ :
    CallOk s g id (.popStoreIndex head nextIndex block) := hpc ▸ h.calls id
  have hhead := h.head
  simp only [hm, HeadOk, forall_const] at hhead
  obtain ⟨hpopped, hindex, hsome, hblock⟩ := hhead
  have hframe : Frame id s g t { g with headMover := none } := by
    subst ht
    exact frame_headMover _ _ _ hm rfl (by simp only; omega) fun hb => hb
  have hself := hframe.popping_self hpop (by rw [← ht]; rfl) rfl rfl
  subst ht
  refine ⟨{ g with headMover := none }, h.tail, ?_, h.next, h.install, h.first, ?_, ?_, h.ordered,
    h.pushes, h.final, h.logged, fun n => (h.slots n).same rfl rfl rfl rfl rfl rfl,
    hframe.calls_ok h ?_⟩
  · simp only [HeadOk, State.goto, State.setHead, raw, hblock]
    refine ⟨by omega, .inr ?_⟩
    congr 1
    omega
  · intro hodd
    have := hmark hodd
    simp only [State.goto, State.setHead]
    omega
  · simp only [State.goto, State.setHead]
    omega
  · simp only [State.goto, Function.update_self]
    exact hself

theorem inv_popWait {weak : Bool} {head block : Nat} {t : State α} (h : Inv s g)
    (hpc : s.calls id = .popWait head block) (ht : exec s id weak = some t) :
    ∃ g', Inv t g' := by
  simp only [exec, hpc, offset_eq] at ht
  have hpop : Popping s g id head block := by
    have := h.calls id
    rwa [hpc] at this
  split at ht
  · rename_i hwrite
    cases ht
    refine ⟨g, h.goto ⟨hpop.goto _, ?_⟩⟩
    have hok := (h.slots (ticket head)).write
    rw [ticket_div hpop.offset, ticket_mod hpop.offset, ← hpop.block] at hok
    cases hw : g.writes (ticket head) <;> simp only [hw, WriteOk, hwrite] at hok ⊢ <;> simp at hok
  · exact ⟨g, Option.some.inj ht ▸ h⟩

theorem inv_popRead {weak : Bool} {head block : Nat} {t : State α} (h : Inv s g)
    (hpc : s.calls id = .popRead head block) (ht : exec s id weak = some t) :
    ∃ g', Inv t g' := by
  simp only [exec, hpc, Option.some.injEq, offset_eq, blockCap_eq] at ht
  obtain ⟨hpop, hwritten⟩ : CallOk s g id (.popRead head block) := hpc ▸ h.calls id
  obtain rfl : block = ticket head / 31 := by
    rw [ticket_div hpop.offset]
    exact hpop.block
  have hok := (h.slots (ticket head)).write
  rw [hwritten, hpop.phase] at hok
  have hread := (h.slots (ticket head)).read
  rw [hpop.phase] at hread
  have hvalue := hok.2.2 (by simp)
  rw [← ticket_mod hpop.offset, hvalue] at ht
  have hframe : Frame id s g t { g with reads := Function.update g.reads (ticket head) .taken } := by
    subst ht
    refine frame_of rfl (List.append_nil _).symm (by simp) (fun _ _ => Iff.rfl) le_rfl
      (fun hm => hm) le_rfl (fun hb => hb) (fun hb => hb) (List.prefix_refl _) (fun _ => .inl rfl)
      (fun n => ?_) (fun _ hm _ => hm) (fun _ hm _ => hm) (fun _ hi _ => hi)
    rcases eq_or_ne n (ticket head) with rfl | hne
    · refine .inr ?_
      simp [hpop.phase, eq_comm]
    · exact .inl (Function.update_of_ne hne _ _)
  subst ht
  refine ⟨{ g with reads := Function.update g.reads (ticket head) .taken }, h.tail, h.head, ?_,
    h.install, h.first, h.marked, h.behind, h.ordered, h.pushes, h.final, h.logged,
    h.slots_set rfl rfl rfl (fun _ _ => rfl) (fun m hm => Function.update_of_ne hm _ _) ?_ ?_,
    hframe.calls_ok h ?_⟩
  · intro b c hbc
    exact h.next b c (next_setSlot (s := s) ▸ hbc)
  · simp only [hwritten, Function.update_self]
    exact ⟨hok.1, hok.2.1, by simp⟩
  · simp only [Function.update_self]
    simpa using hread
  · simp only [State.goto, Function.update_self]
    split <;> exact ⟨hpop.called, hpop.logged⟩

/-- Who frees a block, and when, plays no part here. -/
theorem Inv.setBlock {b : Nat} {block : Block α} (h : Inv s g)
    (hnext : block.next = (s.queue.blocks b).next)
    (hslots : ∀ i, (block.slots i).value = (s.slot b i).value ∧
      (block.slots i).write = (s.slot b i).write) : Inv (s.setBlock b block) g := by
  have hframe (j : Nat) : Frame j s g (s.setBlock b block) g :=
    ⟨fun _ _ => rfl, fun _ _ _ => Iff.rfl, fun _ _ _ => Iff.rfl, fun _ _ => Iff.rfl, le_rfl,
      fun hm => hm, le_rfl, fun hb => hb, fun hb => hb, List.prefix_refl _, fun _ => .inl rfl,
      fun _ => .inl rfl, fun _ hm _ => hm, fun _ hm _ => hm, fun _ hi _ => hi⟩
  refine ⟨h.tail, h.head, fun n c hc => ?_, h.install, h.first, h.marked, h.behind, h.ordered,
    h.pushes, h.final, h.logged, fun n => ?_,
    fun j => (hframe (j + 1)).callOk (by omega) (h.calls j)⟩
  · rcases eq_or_ne n b with rfl | hne
    · simp only [State.setBlock, Function.update_self] at hc
      exact h.next n c (hnext ▸ hc)
    · simp only [State.setBlock, Function.update_of_ne hne] at hc
      exact h.next n c hc
  · refine (h.slots n).same rfl rfl ?_ ?_ rfl rfl <;> rw [slot_setBlock] <;> split
    · rename_i heq
      rw [(hslots _).1, heq]
    · rfl
    · rename_i heq
      rw [(hslots _).2, heq]
    · rfl

theorem Inv.setSlot {b i : Nat} {slot : Slot α} (h : Inv s g)
    (hvalue : slot.value = (s.slot b i).value) (hwrite : slot.write = (s.slot b i).write) :
    Inv (s.setSlot b i slot) g := by
  refine h.setBlock rfl fun k => ?_
  rcases eq_or_ne k i with rfl | hne
  · simp only [Function.update_self]
    exact ⟨hvalue, hwrite⟩
  · simp only [Function.update_of_ne hne]
    exact ⟨rfl, rfl⟩

theorem inv_popSet {weak : Bool} {head block : Nat} {v : Option α} {t : State α} (h : Inv s g)
    (hpc : s.calls id = .popSet head block v) (ht : exec s id weak = some t) :
    ∃ g', Inv t g' := by
  simp only [exec, hpc, Option.some.injEq] at ht
  obtain ⟨hopen, hlog⟩ : CallOk s g id (.popSet head block v) := hpc ▸ h.calls id
  have hset : Inv (s.setSlot block (offset head)
      { s.slot block (offset head) with read := true }) g := h.setSlot rfl rfl
  subst ht
  split
  · exact ⟨g, hset.goto ⟨hopen, hlog⟩⟩
  · exact ⟨g, hset.ret hopen hlog⟩

theorem inv_destroyLoad {weak : Bool} {block i : Nat} {v : Option α} {t : State α} (h : Inv s g)
    (hpc : s.calls id = .destroyLoad block i v) (ht : exec s id weak = some t) :
    ∃ g', Inv t g' := by
  simp only [exec, hpc, Option.some.injEq] at ht
  obtain ⟨hopen, hlog⟩ : CallOk s g id (.destroyLoad block i v) := hpc ▸ h.calls id
  subst ht
  split
  · refine ⟨g, h.goto ?_⟩
    split <;> exact ⟨hopen, hlog⟩
  · have hset : Inv (s.setBlock block { s.queue.blocks block with freed := true }) g :=
      h.setBlock rfl fun _ => ⟨rfl, rfl⟩
    exact ⟨g, hset.ret hopen hlog⟩

theorem inv_destroyOr {weak : Bool} {block i : Nat} {v : Option α} {t : State α} (h : Inv s g)
    (hpc : s.calls id = .destroyOr block i v) (ht : exec s id weak = some t) :
    ∃ g', Inv t g' := by
  simp only [exec, hpc, Option.some.injEq] at ht
  obtain ⟨hopen, hlog⟩ : CallOk s g id (.destroyOr block i v) := hpc ▸ h.calls id
  have hset : Inv (s.setSlot block i { s.slot block i with destroy := true }) g :=
    h.setSlot rfl rfl
  subst ht
  split
  · exact ⟨g, hset.goto ⟨hopen, hlog⟩⟩
  · exact ⟨g, hset.ret hopen hlog⟩

theorem inv_closeOr {weak : Bool} {t : State α} (h : Inv s g) (hpc : s.calls id = .closeOr)
    (ht : exec s id weak = some t) : ∃ g', Inv t g' := by
  simp only [exec, hpc, Option.some.injEq] at ht
  obtain ⟨hopen, hlog⟩ : CallOk s g id .closeOr := hpc ▸ h.calls id
  have hcommit : Logged (fifo none) s.hist
      (g.log ++ [⟨id, .close, .closed (!isMarked s.queue.tail.index)⟩]) :=
    h.logged.commit hopen.1 hopen.2 hlog (by rw [h.final]; rfl)
  have hdiv := mark_div s.queue.tail.index
  have hframe : Frame id s g t
      { g with log := g.log ++ [⟨id, .close, .closed (!isMarked s.queue.tail.index)⟩] } := by
    subst ht
    refine frame_of rfl rfl (by simp [Event.id]) (fun e he => mem_append_singleton he) ?_
      (fun _ => mark_mod _) le_rfl (fun hb => hb) (fun hb => hb) (List.prefix_refl _)
      (fun _ => .inl rfl) (fun _ => .inl rfl) (fun _ hm _ => hm) (fun _ hm _ => hm)
      (fun _ hi _ => hi)
    exact hdiv.ge
  subst ht
  refine ⟨{ g with log := g.log ++ [⟨id, .close, .closed (!isMarked s.queue.tail.index)⟩] }, ?_,
    h.head, ?_, h.install, h.first, ?_, ?_, h.ordered,
    (pushes_append_of_ne id .close (by simp)).trans h.pushes, ?_,
    hcommit.ret (List.mem_append_right _ (List.mem_singleton_self _)) hopen.2,
    fun n => (h.slots n).same rfl rfl rfl rfl rfl rfl, hframe.calls_ok h ?_⟩
  · have htail := h.tail
    cases hm : g.tailMover <;>
      simp only [hm, TailOk, State.ret, State.setTail, hdiv] at htail ⊢ <;> exact htail
  · intro b c hbc
    obtain ⟨hc, hle⟩ := h.next b c hbc
    exact ⟨hc, hle.trans hframe.tail⟩
  · exact fun hmark => (h.marked hmark).trans_le (Nat.div_le_div_right hframe.tail)
  · exact h.behind.trans hframe.tail
  · rw [Spec.final_append_singleton, h.final]
    simp [fifo, Fifo.apply, State.ret, State.setTail, mark_mod]
  · simp only [State.ret, Function.update_self]
    trivial

theorem inv_call {op : Op α} {t : State α} (h : Inv s g) (ht : step s (.call id op) = some t) :
    Inv t g := by
  simp only [step] at ht
  split at ht
  · rename_i hpc
    cases ht
    obtain ⟨hfresh, hopen⟩ : CallOk s g id .idle := hpc ▸ h.calls id
    have hnew : Open { s.goto id (entry op) with hist := s.hist ++ [.call id op] } id op := by
      refine ⟨List.mem_append_right _ (List.mem_singleton_self _), fun res hres => ?_⟩
      exact hopen res (by simpa using hres)
    have hlog : Unlogged g id := by
      rintro e he rfl
      exact hfresh e.op (h.logged.linearization.called e he)
    refine h.local (entry op) [.call id op] rfl rfl rfl rfl rfl (by simp [Event.id])
      (fun _ _ => Iff.rfl) rfl (h.logged.call hfresh) rfl ?_
    cases op <;> exact ⟨hnew, hlog⟩
  · cases ht

theorem inv_step {a : Act α} {t : State α} (h : Inv s g) (ht : step s a = some t) :
    ∃ g', Inv t g' := by
  cases a with
  | call id op => exact ⟨g, inv_call h ht⟩
  | step id weak =>
    replace ht : exec s id weak = some t := ht
    cases hpc : s.calls id
    case idle => simp [exec, hpc] at ht
    case done => simp [exec, hpc] at ht
    case panicked => simp [exec, hpc] at ht
    case pushIndex v next =>
      obtain ⟨hopen, hlog⟩ : CallOk s g id (.pushIndex v next) := hpc ▸ h.calls id
      simp only [exec, hpc, Option.some.injEq] at ht
      exact ⟨g, ht ▸ h.goto ⟨hopen, hlog, le_rfl, fun hm => hm⟩⟩
    case pushBlock v next tail =>
      obtain ⟨hopen, hlog, hsaw⟩ : CallOk s g id (.pushBlock v next tail) := hpc ▸ h.calls id
      simp only [exec, hpc, Option.some.injEq] at ht
      exact ht ▸ inv_pushLoop h hopen hlog hsaw
    case pushInstall => exact inv_pushInstall h hpc ht
    case pushHead => exact inv_pushHead h hpc ht
    case pushCas => exact inv_pushCas h hpc ht
    case pushStoreBlock => exact inv_pushStoreBlock h hpc ht
    case pushAdd => exact inv_pushAdd h hpc ht
    case pushNext => exact inv_pushNext h hpc ht
    case pushWrite => exact inv_pushWrite h hpc ht
    case pushSet => exact inv_pushSet h hpc ht
    case popIndex =>
      obtain ⟨hopen, hlog⟩ : CallOk s g id .popIndex := hpc ▸ h.calls id
      simp only [exec, hpc, Option.some.injEq] at ht
      exact ⟨g, ht ▸ h.goto ⟨hopen, hlog, le_rfl, h.marked⟩⟩
    case popBlock head =>
      obtain ⟨hopen, hlog, hsaw⟩ : CallOk s g id (.popBlock head) := hpc ▸ h.calls id
      simp only [exec, hpc, Option.some.injEq] at ht
      exact ht ▸ inv_popLoop h hopen hlog hsaw
    case popTail => exact inv_popTail h hpc ht
    case popCas => exact inv_popCas h hpc ht
    case popNext => exact inv_popNext h hpc ht
    case popPeek => exact inv_popPeek h hpc ht
    case popStoreBlock => exact inv_popStoreBlock h hpc ht
    case popStoreIndex => exact inv_popStoreIndex h hpc ht
    case popWait => exact inv_popWait h hpc ht
    case popRead => exact inv_popRead h hpc ht
    case popSet => exact inv_popSet h hpc ht
    case destroyLoad => exact inv_destroyLoad h hpc ht
    case destroyOr => exact inv_destroyOr h hpc ht
    case closeOr => exact inv_closeOr h hpc ht

end Framing

theorem inv_new : Inv (new : State α)
    ⟨[], fun _ => .free, fun _ => .unread, none, none, none⟩ := by
  refine ⟨⟨by simp [new, raw], .inl ⟨rfl, rfl, rfl⟩⟩, ⟨by simp [new, raw], .inl ⟨rfl, rfl⟩⟩, ?_, ?_,
    fun _ => rfl, ?_, le_rfl,
    le_rfl, rfl, by simp [new, fifo], .nil, fun n => ⟨?_, ?_⟩, fun id => ?_⟩
  · intro b c hbc
    cases hbc
  · intro id hid
    cases hid
  · intro hmark
    cases hmark
  · exact ⟨Nat.zero_le n, rfl, rfl, by simp⟩
  · simp [new]
  · simp [new, CallOk]

theorem inv_reachable {s : State α} (h : system.Reachable s) : ∃ g, Inv s g :=
  System.Reachable.invariant (I := fun s => ∃ g, Inv s g) ⟨_, inv_new⟩
    (fun _ _ _ ⟨_, hi⟩ ht => inv_step hi ht) h

/-- The indices of the source wrap at `2 ^ 64`, which takes `31 * 2 ^ 58` claimed pushes; up
to then they are those of the model. -/
theorem indices_fit {s : State α} (hs : system.Reachable s)
    (hclaims : s.claims.length < 31 * 2 ^ 58) :
    s.queue.tail.index < 2 ^ 64 ∧ s.queue.head.index < 2 ^ 64 := by
  obtain ⟨g, h⟩ := inv_reachable hs
  have hbehind := h.behind
  have htail : s.queue.tail.index / 2 < 2 ^ 63 := by
    have htail := h.tail
    cases hmover : g.tailMover with
    | none =>
      obtain ⟨hindex, -⟩ : TailOk s.queue s.claims.length none := hmover ▸ htail
      rw [hindex, raw]
      omega
    | some m =>
      obtain ⟨hlen, hindex, -⟩ : TailOk s.queue s.claims.length (some m) := hmover ▸ htail
      omega
  omega

/-- When the exchange of an index is going to succeed, the block loaded beside it is
the one that the index denotes; and so it is when the slot is accessed. -/
theorem Inv.block_matches {s : State α} {g : Ghost α} (h : Inv s g) (id : Nat) :
    (∀ v next tail block, s.calls id = .pushCas v next tail block →
      s.queue.tail.index = tail → block = tail / 2 / 32) ∧
    (∀ head newHead block, s.calls id = .popCas head newHead block →
      s.queue.head.index = head → block = head / 2 / 32) ∧
    (∀ v tail block, s.calls id = .pushWrite v tail block → block = tail / 2 / 32 ∧
      (s.slot block (offset tail)).value = none) ∧
    (∀ head block, s.calls id = .popRead head block → block = head / 2 / 32 ∧
      (s.slot block (offset head)).value ≠ none) := by
  refine ⟨?_, ?_, ?_, ?_⟩
  · intro v next tail block hpc hindex
    obtain ⟨-, -, -, -, hblock⟩ : CallOk s g id (.pushCas v next tail block) := hpc ▸ h.calls id
    exact hblock (by rw [hindex])
  · intro head newHead block hpc hindex
    obtain ⟨-, -, -, -, -, hblock, -⟩ : CallOk s g id (.popCas head newHead block) :=
      hpc ▸ h.calls id
    exact hblock (by rw [hindex])
  · intro v tail block hpc
    have hpush : Pushing s g id v tail block (.writing id) := by
      have := h.calls id
      rwa [hpc] at this
    have hok := (h.slots (ticket tail)).write
    rw [ticket_div hpush.offset, ticket_mod hpush.offset, ← hpush.block, hpush.phase] at hok
    exact ⟨hpush.block, by rw [offset_eq]; exact hok.2.1⟩
  · intro head block hpc
    obtain ⟨hpop, hwritten⟩ : CallOk s g id (.popRead head block) := hpc ▸ h.calls id
    have hok := (h.slots (ticket head)).write
    rw [ticket_div hpop.offset, ticket_mod hpop.offset, ← hpop.block, hwritten, hpop.phase] at hok
    refine ⟨hpop.block, ?_⟩
    rw [offset_eq, hok.2.2 (by simp), List.getElem?_eq_getElem hpop.claimed]
    simp

/-! ## When a call fails -/

/-- What the state is when the step of a call makes it fail. -/
def Fails (s : State α) (id : Nat) : Res α → Prop
  | .pushClosed v => ∃ next tail, s.calls id = .pushBlock v next tail ∧ isMarked tail = true
  | .empty => ∃ head block, s.calls id = .popTail head block ∧
    head >>> shift = s.queue.tail.index >>> shift
  | .popClosed => ∃ head block, s.calls id = .popTail head block ∧
    head >>> shift = s.queue.tail.index >>> shift ∧ isMarked s.queue.tail.index = true
  | _ => True

/-- A step returns from its own call only. -/
def Returns (s t : State α) (id : Nat) : Prop :=
  t.hist = s.hist ∨ ∃ res, t.hist = s.hist ++ [.ret id res] ∧ Fails s id res

section Returns

variable {s t : State α} {id : Nat} {weak : Bool}

theorem returns_pushLoop {v : α} {next : Bool} {tail : Nat} {block : Option Nat}
    (hpc : s.calls id = .pushBlock v next tail) :
    Returns s (pushLoop s id v next tail block) id := by
  unfold pushLoop
  split_ifs with hmark
  · exact .inr ⟨_, rfl, next, tail, hpc, hmark⟩
  · exact .inl rfl
  · cases block <;> exact .inl rfl

theorem returns_popLoop {head : Nat} {block : Option Nat} :
    Returns s (popLoop s id head block) id := by
  unfold popLoop
  split_ifs
  · exact .inl rfl
  · cases block <;> exact .inl rfl
  · exact .inl rfl

theorem returns_popCheck {head : Nat} {block : Option Nat}
    (hpc : s.calls id = .popTail head block) :
    Returns s (popCheck s id head s.queue.tail.index block) id := by
  unfold popCheck
  split_ifs with htail hmark
  · exact .inr ⟨_, rfl, head, block, hpc, htail, hmark⟩
  · exact .inr ⟨_, rfl, head, block, hpc, htail⟩
  all_goals cases block <;> exact .inl rfl

theorem exec_returns (h : exec s id weak = some t) : Returns s t id := by
  cases hpc : s.calls id <;> simp only [exec, hpc, reduceCtorEq, Option.some.injEq] at h
  case pushBlock value next tail => exact h ▸ returns_pushLoop hpc
  case popBlock head => exact h ▸ returns_popLoop
  case popTail head block => exact h ▸ returns_popCheck hpc
  case pushInstall value next tail =>
    subst h
    split <;> exact .inl rfl
  case pushCas value next tail block =>
    subst h
    split <;> exact .inl rfl
  case popCas head newHead block =>
    subst h
    split <;> exact .inl rfl
  case popNext head newHead block => split at h <;> cases h <;> exact .inl rfl
  case popWait head block => split at h <;> cases h <;> exact .inl rfl
  case pushSet tail block => exact h ▸ .inr ⟨_, rfl, trivial⟩
  case closeOr => exact h ▸ .inr ⟨_, rfl, trivial⟩
  case popSet head block value =>
    subst h
    split
    · exact .inl rfl
    · exact .inr ⟨_, rfl, trivial⟩
  case destroyLoad block i value =>
    subst h
    split
    · exact .inl rfl
    · exact .inr ⟨_, rfl, trivial⟩
  case destroyOr block i value =>
    subst h
    split
    · exact .inl rfl
    · exact .inr ⟨_, rfl, trivial⟩
  all_goals exact h ▸ .inl rfl

@[simp] theorem pushLoop_queue {v : α} {next : Bool} {tail : Nat} {block : Option Nat} :
    (pushLoop s id v next tail block).queue = s.queue := by
  unfold pushLoop
  split_ifs
  · rfl
  · rfl
  · cases block <;> rfl

@[simp] theorem popLoop_queue {head : Nat} {block : Option Nat} :
    (popLoop s id head block).queue = s.queue := by
  unfold popLoop
  split_ifs
  · rfl
  · cases block <;> rfl
  · rfl

@[simp] theorem popCheck_queue {head tail : Nat} {block : Option Nat} :
    (popCheck s id head tail block).queue = s.queue := by
  unfold popCheck
  split_ifs
  · rfl
  all_goals cases block <;> rfl

/-- Only `close` marks the tail. -/
theorem exec_marks (h : exec s id weak = some t) (hmark : isMarked t.queue.tail.index = true) :
    isMarked s.queue.tail.index = true ∨ ∃ first, .ret id (.closed first) ∈ t.hist := by
  cases hpc : s.calls id <;> simp only [exec, hpc, reduceCtorEq, Option.some.injEq] at h
  case closeOr =>
    subst h
    exact .inr ⟨_, List.mem_append_right _ (List.mem_singleton_self _)⟩
  all_goals refine .inl ?_
  case pushBlock value next tail => rwa [← h, pushLoop_queue] at hmark
  case popBlock head => rwa [← h, popLoop_queue] at hmark
  case popTail head block => rwa [← h, popCheck_queue] at hmark
  case pushInstall value next tail =>
    subst h
    split at hmark <;> exact hmark
  case pushCas value next tail block =>
    subst h
    split at hmark
    · rename_i hcas
      simpa [State.goto, State.setTail, hcas.2] using hmark
    · exact hmark
  case pushAdd value tail block new =>
    subst h
    simpa [State.goto, State.setTail] using hmark
  case popCas head newHead block =>
    subst h
    split at hmark <;> exact hmark
  case popNext head newHead block => split at h <;> cases h <;> exact hmark
  case popWait head block => split at h <;> cases h <;> exact hmark
  case popSet head block value =>
    subst h
    split at hmark <;> exact hmark
  case destroyLoad block i value =>
    subst h
    split at hmark <;> exact hmark
  case destroyOr block i value =>
    subst h
    split at hmark <;> exact hmark
  all_goals
    subst h
    exact hmark

/-- Where the tail is marked a `close` has returned. -/
theorem closed_of_marked (h : system.Reachable s) :
    isMarked s.queue.tail.index = true → ∃ j first, .ret j (.closed first) ∈ s.hist := by
  refine h.invariant (I := fun s : State α => isMarked s.queue.tail.index = true →
    ∃ j first, .ret j (.closed first) ∈ s.hist) (by simp [system, new]) ?_
  intro s a t hs ht hmark
  cases a with
  | call id op =>
    simp only [system, step] at ht
    split at ht
    · cases ht
      obtain ⟨j, first, hret⟩ := hs hmark
      exact ⟨j, first, List.mem_append_left _ hret⟩
    · cases ht
  | step id weak =>
    rcases exec_marks ht hmark with hold | ⟨first, hret⟩
    · obtain ⟨j, first, hret⟩ := hs hold
      refine ⟨j, first, ?_⟩
      rcases exec_returns ht with heq | ⟨res, heq, -⟩ <;> rw [heq]
      · exact hret
      · exact List.mem_append_left _ hret
    · exact ⟨id, first, hret⟩

end Returns

/-- When a call fails: all that was claimed is popped, and a `close` has returned where
it says so. -/
theorem Inv.fails {s t : State α} {g : Ghost α} (h : Inv s g) (hs : system.Reachable s)
    {a : Act α} (ht : step s a = some t) {id : Nat} {res : Res α}
    (hnew : .ret id res ∈ t.hist) (hold : .ret id res ∉ s.hist) :
    (res = .empty ∨ res = .popClosed → Open s id .pop ∧ s.claims.length = s.popped) ∧
    (res = .popClosed → isMarked s.queue.tail.index = true) ∧
    (res = .popClosed ∨ (∃ v, res = .pushClosed v) →
      ∃ j first, .ret j (.closed first) ∈ s.hist) := by
  cases a with
  | call j op =>
    simp only [step] at ht
    split at ht
    · cases ht
      exact absurd (by simpa using hnew) hold
    · cases ht
  | step j weak =>
    obtain heq | ⟨res', heq, hfails⟩ := exec_returns (show exec s j weak = some t from ht)
    · exact absurd (heq ▸ hnew) hold
    · rw [heq] at hnew
      obtain ⟨rfl, rfl⟩ : id = j ∧ res = res' := by simpa [hold] using hnew
      cases res with
      | empty =>
        obtain ⟨head, block, hpc, htail⟩ := hfails
        obtain ⟨hopen, -⟩ : CallOk s g id (.popTail head block) := hpc ▸ h.calls id
        exact ⟨fun _ => ⟨hopen, h.drained hpc htail⟩, by simp, by simp⟩
      | popClosed =>
        obtain ⟨head, block, hpc, htail, hmark⟩ := hfails
        obtain ⟨hopen, -⟩ : CallOk s g id (.popTail head block) := hpc ▸ h.calls id
        exact ⟨fun _ => ⟨hopen, h.drained hpc htail⟩, fun _ => hmark,
          fun _ => closed_of_marked hs hmark⟩
      | pushClosed v =>
        obtain ⟨next, tail, hpc, hmark⟩ := hfails
        obtain ⟨-, -, hsaw⟩ : CallOk s g id (.pushBlock v next tail) := hpc ▸ h.calls id
        refine ⟨by simp, by simp, fun _ => closed_of_marked hs ?_⟩
        simpa using hsaw.marked (by simpa using hmark)
      | _ => exact ⟨by simp, by simp, by simp⟩

/-- The calls can be put in an order that respects real time and in which they
behave as on a FIFO; its pushes are in the order of their claims. -/
theorem unbounded_linearizable {s : State α} (h : system.Reachable s) :
    (∃ order, Linearization (fifo none) s.hist order ∧ pushes order = s.claims ∧
      pops order <+: s.claims.map some) ∧
    (∀ a t id res, step s a = some t → .ret id res ∈ t.hist → .ret id res ∉ s.hist →
      (res = .empty ∨ res = .popClosed → Open s id .pop ∧ s.claims.length = s.popped) ∧
      (res = .popClosed → isMarked s.queue.tail.index = true) ∧
      (res = .popClosed ∨ (∃ v, res = .pushClosed v) →
        ∃ j first, .ret j (.closed first) ∈ s.hist)) ∧
    (∀ b c, (s.queue.blocks b).next = some c → c = b + 1) ∧
    ∀ id, s.calls id ≠ .panicked ∧
      (∀ v next tail block, s.calls id = .pushCas v next tail block →
        s.queue.tail.index = tail → block = tail / 2 / 32) ∧
      (∀ head newHead block, s.calls id = .popCas head newHead block →
        s.queue.head.index = head → block = head / 2 / 32) ∧
      (∀ v tail block, s.calls id = .pushWrite v tail block → block = tail / 2 / 32 ∧
        (s.slot block (offset tail)).value = none) ∧
      (∀ head block, s.calls id = .popRead head block → block = head / 2 / 32 ∧
        (s.slot block (offset head)).value ≠ none) := by
  obtain ⟨g, hinv⟩ := inv_reachable h
  have hlin := hinv.logged.linearization
  refine ⟨⟨g.log, hlin, hinv.pushes, ?_⟩, fun _ _ _ _ ht hnew hold => hinv.fails h ht hnew hold,
    fun b c hbc => (hinv.next b c hbc).1, fun id => ⟨?_, ?_⟩⟩
  · rw [← hinv.pushes, pushes_eq hlin.legal]
    exact List.prefix_append _ _
  · intro hpc
    have : CallOk s g id .panicked := hpc ▸ hinv.calls id
    exact this
  · exact hinv.block_matches id

/-- Two pushes race for the first block; then a pop. -/
def racingPushes : List (Act Nat) :=
  [.call 0 (.push 7), .call 1 (.push 8), .step 0 false, .step 0 false, .step 1 false,
   .step 1 false, .step 0 false, .step 1 false, .step 1 false, .step 1 false, .step 1 false,
   .step 1 false, .step 1 false, .step 0 false, .step 0 false, .step 0 false, .step 0 false,
   .step 0 false, .step 0 false, .call 2 .pop, .step 2 false, .step 2 false, .step 2 false,
   .step 2 false, .step 2 false, .step 2 false, .step 2 false]

/-- The queue is closed, a second pop takes the last value, and a third one is about to
load the tail. -/
def poppedDry : List (Act Nat) :=
  racingPushes ++ [.call 3 .close, .step 3 false, .call 4 .pop, .step 4 false, .step 4 false,
    .step 4 false, .step 4 false, .step 4 false, .step 4 false, .step 4 false, .call 5 .pop,
    .step 5 false, .step 5 false]

theorem unbounded_linearizable_race :
    (∃ s : State Nat, system.Reachable s ∧ s.claims = [8, 7] ∧
      .ret 2 (.popped (some 8)) ∈ s.hist ∧ ∃ order, Linearization (fifo none) s.hist order ∧
        pushes order = [8, 7]) ∧
    ∃ s t : State Nat, system.run poppedDry = some s ∧ step s (.step 5 false) = some t ∧
      .ret 5 .popClosed ∈ t.hist ∧ s.claims.length = s.popped ∧
      ∃ j first, .ret j (.closed first) ∈ s.hist := by
  refine ⟨?_, ?_⟩
  · obtain ⟨s, -, hs, hclaims, hret⟩ := System.exists_of_run (M := system)
      (P := fun s : State Nat => s.claims = [8, 7] ∧ .ret 2 (.popped (some 8)) ∈ s.hist)
      racingPushes (by decide)
    obtain ⟨⟨order, hlin, hpushes, -⟩, -⟩ := unbounded_linearizable hs
    exact ⟨s, hs, hclaims, hret, order, hlin, hclaims ▸ hpushes⟩
  · obtain ⟨s, hrun, hs, hold, hnew⟩ := System.exists_of_run (M := system)
      (P := fun s : State Nat => .ret 5 .popClosed ∉ s.hist ∧
        ∃ t ∈ step s (.step 5 false), .ret 5 .popClosed ∈ t.hist)
      poppedDry (by decide)
    obtain ⟨t, ht, hnew⟩ := hnew
    obtain ⟨hempty, -, hclosed⟩ := (unbounded_linearizable hs).2.1 _ t 5 .popClosed ht hnew hold
    exact ⟨s, t, hrun, ht, hnew, (hempty (.inr rfl)).2, hclosed (.inl rfl)⟩

end Cynthia.Queue.Unbounded
