import Cynthia.Queue.Bounded
import Mathlib.Data.List.TakeDrop

/-! `Bounded` is a linearizable FIFO. A push takes effect when it claims `tail`, a pop
when it claims `head`. A push that finds the queue full takes effect when it loads
`tail`, which is known only later: its entry in the log is tentative. -/

namespace Cynthia.Queue.Bounded

open Transition Linearizability

variable {α : Type}

/-- Where a slot is between two of its tickets, and which call is at it. -/
inductive Phase where
  | free
  | writing (id : Nat)
  | wrote (id : Nat)
  | ready
  | reading (id : Nat)
  | read (id : Nat)
  deriving DecidableEq

namespace Phase

/-- The stamp says that the value is there. -/
def stamped : Phase → Bool
  | .ready | .reading _ | .read _ => true
  | _ => false

def holds : Phase → Bool
  | .wrote _ | .ready | .reading _ => true
  | _ => false

def owner : Phase → Option Nat
  | .free | .ready => none
  | .writing id | .wrote id | .reading id | .read id => some id

end Phase

/-- What the proof keeps beside the state: the log, the values in the order of their
tickets, and of each slot the ticket and the phase. -/
structure Ghost (α : Type) where
  log : List (Entry (Op α) (Res α))
  values : List α
  closed : Bool
  ticket : Nat → Nat
  phase : Nat → Phase

variable (cap : Capacity)

/-- Where the ticket of a slot lies between the two counters. -/
def Placed (s : State α) (n : Nat) : Phase → Prop
  | .free => s.pushed ≤ n ∧ n < s.popped + cap.val
  | .writing _ | .wrote _ | .ready => s.popped ≤ n ∧ n < s.pushed
  | .reading _ | .read _ => n < s.popped ∧ s.pushed ≤ n + cap.val

structure SlotOk (s : State α) (g : Ghost α) (i : Nat) : Prop where
  index : g.ticket i % cap.val = i
  stamp : (s.queue.buffer i).stamp =
    cap.word (g.ticket i) + if (g.phase i).stamped then 1 else 0
  value : (s.queue.buffer i).value =
    if (g.phase i).holds then g.values[g.ticket i]? else none
  placed : Placed cap s (g.ticket i) (g.phase i)

/-- The call was made and has not returned. -/
def Open (s : State α) (id : Nat) (op : Op α) : Prop :=
  .call id op ∈ s.hist ∧ ∀ res, .ret id res ∉ s.hist

/-- If the push is in the log, then as one that found the queue full. -/
def Tentative (g : Ghost α) (id : Nat) (value : α) : Prop :=
  ∀ e ∈ g.log, e.id = id → e = ⟨id, .push value, .full value⟩

def Unlogged (g : Ghost α) (id : Nat) : Prop := ∀ e ∈ g.log, e.id ≠ id

/-- What a push knows that has loaded `tail`. -/
structure Looked (s : State α) (g : Ghost α) (id : Nat) (value : α) (tail : Nat) : Prop where
  word : tail = cap.word (s.seen id)
  le : s.seen id ≤ s.pushed
  full : s.popped + cap.val = s.seen id → ⟨id, .push value, .full value⟩ ∈ g.log

/-- The call is at the slot of its ticket. -/
structure AtSlot (s : State α) (g : Ghost α) (id w : Nat) (phase : Phase) : Prop where
  word : w = cap.word (s.seen id)
  ticket : g.ticket (s.seen id % cap.val) = s.seen id
  phase : g.phase (s.seen id % cap.val) = phase

def CallOk (s : State α) (g : Ghost α) (id : Nat) : Pc α → Prop
  | .idle => (∀ op, .call id op ∉ s.hist) ∧ ∀ res, .ret id res ∉ s.hist
  | .done => True
  | .pushLoad v => Open s id (.push v) ∧ Tentative g id v
  | .pushStamp v tail | .pushHead v tail =>
    Open s id (.push v) ∧ Tentative g id v ∧ Looked cap s g id v tail
  | .pushCas v tail => Open s id (.push v) ∧ Tentative g id v ∧ Looked cap s g id v tail ∧
    (s.pushed = s.seen id → AtSlot cap s g id tail .free)
  | .pushWrite v tail => Open s id (.push v) ∧ AtSlot cap s g id tail (.writing id) ∧
    ⟨id, .push v, .pushed⟩ ∈ g.log ∧ g.values[s.seen id]? = some v
  | .pushStore tail => ∃ v, Open s id (.push v) ∧ AtSlot cap s g id tail (.wrote id) ∧
    ⟨id, .push v, .pushed⟩ ∈ g.log
  | .popLoad => Open s id .pop ∧ Unlogged g id
  | .popStamp head | .popTail head => Open s id .pop ∧ Unlogged g id ∧
    head = cap.word (s.seen id) ∧ s.seen id ≤ s.popped
  | .popCas head => Open s id .pop ∧ Unlogged g id ∧
    (head = cap.word (s.seen id) ∧ s.seen id ≤ s.popped) ∧
    (s.popped = s.seen id → AtSlot cap s g id head .ready)
  | .popRead head => Open s id .pop ∧ AtSlot cap s g id head (.reading id) ∧
    ∃ v, g.values[s.seen id]? = some v ∧ ⟨id, .pop, .popped (some v)⟩ ∈ g.log
  | .popStore head v => Open s id .pop ∧ AtSlot cap s g id head (.read id) ∧
    ⟨id, .pop, .popped v⟩ ∈ g.log
  | .closeOr => Open s id .close ∧ Unlogged g id

structure Inv (s : State α) (g : Ghost α) : Prop where
  tail : s.queue.tail = cap.marked s.pushed g.closed
  head : s.queue.head = cap.word s.popped
  length : g.values.length = s.pushed
  ordered : s.popped ≤ s.pushed
  bounded : s.pushed ≤ s.popped + cap.val
  final : (fifo (some cap.val)).final g.log = ⟨g.values.drop s.popped, g.closed⟩
  logged : Logged (fifo (some cap.val)) s.hist g.log
  slots : ∀ i < cap.val, SlotOk cap s g i
  calls : ∀ id, CallOk cap s g id (s.calls id)

/-- What a step of one call leaves to the others. -/
structure Frame (id : Nat) (s : State α) (g : Ghost α) (t : State α) (g' : Ghost α) : Prop where
  calls : ∀ j, j ≠ id → t.calls j = s.calls j
  seen : ∀ j, j ≠ id → t.seen j = s.seen j
  called : ∀ j, j ≠ id → ∀ op, .call j op ∈ t.hist ↔ .call j op ∈ s.hist
  returned : ∀ j, j ≠ id → ∀ res, .ret j res ∈ t.hist ↔ .ret j res ∈ s.hist
  log : ∀ e : Entry (Op α) (Res α), e.id ≠ id → (e ∈ g'.log ↔ e ∈ g.log)
  pushed : s.pushed ≤ t.pushed
  popped : s.popped ≤ t.popped
  values : g.values <+: g'.values
  slots : ∀ i, g'.ticket i = g.ticket i ∧ g'.phase i = g.phase i ∨
    (∀ j, (g.phase i).owner = some j → j = id) ∧ (g.phase i = .free → g.ticket i < t.pushed) ∧
      (g.phase i = .ready → g.ticket i < t.popped)

section Framing

variable {cap} {s t : State α} {g g' : Ghost α} {id j : Nat}

theorem Frame.open (f : Frame id s g t g') (hj : j ≠ id) {op : Op α} (h : Open s j op) :
    Open t j op :=
  ⟨(f.called j hj op).mpr h.1, fun res hres => h.2 res ((f.returned j hj res).mp hres)⟩

theorem Frame.tentative (f : Frame id s g t g') (hj : j ≠ id) {v : α} (h : Tentative g j v) :
    Tentative g' j v :=
  fun e he heq => h e ((f.log e (heq ▸ hj)).mp he) heq

theorem Frame.unlogged (f : Frame id s g t g') (hj : j ≠ id) (h : Unlogged g j) :
    Unlogged g' j :=
  fun e he heq => h e ((f.log e (heq ▸ hj)).mp he) heq

theorem Frame.looked (f : Frame id s g t g') (hj : j ≠ id) (hb : s.pushed ≤ s.popped + cap.val)
    {v : α} {tail : Nat} (h : Looked cap s g j v tail) : Looked cap t g' j v tail := by
  have hseen := f.seen j hj
  refine ⟨by rw [hseen]; exact h.word, by rw [hseen]; exact h.le.trans f.pushed, fun heq => ?_⟩
  refine (f.log _ hj).mpr (h.full ?_)
  have := h.le
  have := f.popped
  omega

theorem Frame.values_at (f : Frame id s g t g') {n : Nat} {v : α} (h : g.values[n]? = some v) :
    g'.values[n]? = some v := by
  obtain ⟨rest, hrest⟩ := f.values
  rw [← hrest, List.getElem?_append_left (List.getElem?_eq_some_iff.mp h).1]
  exact h

theorem Frame.atSlot (f : Frame id s g t g') (hj : j ≠ id) {w : Nat} {phase : Phase}
    (h : AtSlot cap s g j w phase)
    (hown : phase.owner = some j ∨ phase = .free ∧ t.pushed = t.seen j ∨
      phase = .ready ∧ t.popped = t.seen j) : AtSlot cap t g' j w phase := by
  have hseen := f.seen j hj
  have hsame : g'.ticket (s.seen j % cap.val) = g.ticket (s.seen j % cap.val) ∧
      g'.phase (s.seen j % cap.val) = g.phase (s.seen j % cap.val) := by
    rcases f.slots (s.seen j % cap.val) with hsame | ⟨howner, hfree, hready⟩
    · exact hsame
    · rw [h.phase] at howner hfree hready
      rw [h.ticket] at hfree hready
      rcases hown with hown | ⟨hp, heq⟩ | ⟨hp, heq⟩
      · exact absurd (howner j hown) hj
      · have := hfree hp
        omega
      · have := hready hp
        omega
  refine ⟨by rw [hseen]; exact h.word, ?_, ?_⟩
  · rw [hseen, hsame.1]
    exact h.ticket
  · rw [hseen, hsame.2]
    exact h.phase

theorem Frame.callOk (f : Frame id s g t g') (hj : j ≠ id) (hb : s.pushed ≤ s.popped + cap.val)
    {pc : Pc α} (h : CallOk cap s g j pc) : CallOk cap t g' j pc := by
  have hseen := f.seen j hj
  have hpushed := f.pushed
  have hpopped := f.popped
  cases pc with
  | idle => exact ⟨fun op hop => h.1 op ((f.called j hj op).mp hop),
      fun res hres => h.2 res ((f.returned j hj res).mp hres)⟩
  | done => trivial
  | pushLoad v => exact ⟨f.open hj h.1, f.tentative hj h.2⟩
  | pushStamp v tail => exact ⟨f.open hj h.1, f.tentative hj h.2.1, f.looked hj hb h.2.2⟩
  | pushHead v tail => exact ⟨f.open hj h.1, f.tentative hj h.2.1, f.looked hj hb h.2.2⟩
  | pushCas v tail =>
    obtain ⟨hopen, htent, hlook, hslot⟩ := h
    refine ⟨f.open hj hopen, f.tentative hj htent, f.looked hj hb hlook, fun heq => ?_⟩
    have := hlook.le
    exact f.atSlot hj (hslot (by omega)) (.inr (.inl ⟨rfl, heq⟩))
  | pushWrite v tail =>
    obtain ⟨hopen, hslot, hlog, hval⟩ := h
    refine ⟨f.open hj hopen, f.atSlot hj hslot (.inl rfl), (f.log _ hj).mpr hlog, ?_⟩
    rw [hseen]
    exact f.values_at hval
  | pushStore tail =>
    obtain ⟨v, hopen, hslot, hlog⟩ := h
    exact ⟨v, f.open hj hopen, f.atSlot hj hslot (.inl rfl), (f.log _ hj).mpr hlog⟩
  | popLoad => exact ⟨f.open hj h.1, f.unlogged hj h.2⟩
  | popStamp head =>
    obtain ⟨hopen, hlog, hword, hle⟩ := h
    exact ⟨f.open hj hopen, f.unlogged hj hlog, by rw [hseen]; exact hword, by omega⟩
  | popTail head =>
    obtain ⟨hopen, hlog, hword, hle⟩ := h
    exact ⟨f.open hj hopen, f.unlogged hj hlog, by rw [hseen]; exact hword, by omega⟩
  | popCas head =>
    obtain ⟨hopen, hlog, ⟨hword, hle⟩, hslot⟩ := h
    refine ⟨f.open hj hopen, f.unlogged hj hlog, ⟨by rw [hseen]; exact hword, by omega⟩,
      fun heq => ?_⟩
    exact f.atSlot hj (hslot (by omega)) (.inr (.inr ⟨rfl, heq⟩))
  | popRead head =>
    obtain ⟨hopen, hslot, v, hval, hlog⟩ := h
    refine ⟨f.open hj hopen, f.atSlot hj hslot (.inl rfl), v, ?_, (f.log _ hj).mpr hlog⟩
    rw [hseen]
    exact f.values_at hval
  | popStore head v =>
    obtain ⟨hopen, hslot, hlog⟩ := h
    exact ⟨f.open hj hopen, f.atSlot hj hslot (.inl rfl), (f.log _ hj).mpr hlog⟩
  | closeOr => exact ⟨f.open hj h.1, f.unlogged hj h.2⟩

/-- The calls after a step: the one that made it by itself, the others by the frame. -/
theorem Frame.calls_ok (f : Frame id s g t g') (h : Inv cap s g)
    (hself : CallOk cap t g' id (t.calls id)) : ∀ j, CallOk cap t g' j (t.calls j) := by
  intro j
  rcases eq_or_ne j id with rfl | hj
  · exact hself
  · rw [f.calls j hj]
    exact f.callOk hj h.bounded (h.calls j)

/-- A step of the call `id` that appends its own events and changes its own entries. -/
theorem frame_of {pc : Pc α} {evs : List (Event (Op α) (Res α))}
    (hcalls : t.calls = Function.update s.calls id pc)
    (hseen : ∀ j, j ≠ id → t.seen j = s.seen j) (hhist : t.hist = s.hist ++ evs)
    (hevs : ∀ e ∈ evs, e.id = id)
    (hlog : ∀ e : Entry (Op α) (Res α), e.id ≠ id → (e ∈ g'.log ↔ e ∈ g.log))
    (hpushed : s.pushed ≤ t.pushed) (hpopped : s.popped ≤ t.popped)
    (hvalues : g.values <+: g'.values)
    (hslots : ∀ i, g'.ticket i = g.ticket i ∧ g'.phase i = g.phase i ∨
      (∀ j, (g.phase i).owner = some j → j = id) ∧ (g.phase i = .free → g.ticket i < t.pushed) ∧
        (g.phase i = .ready → g.ticket i < t.popped)) : Frame id s g t g' := by
  refine ⟨?_, hseen, ?_, ?_, hlog, hpushed, hpopped, hvalues, hslots⟩
  · intro j hj
    rw [hcalls, Function.update_of_ne hj]
  · intro j hj op
    rw [hhist, List.mem_append, or_iff_left]
    exact fun he => hj (hevs _ he)
  · intro j hj res
    rw [hhist, List.mem_append, or_iff_left]
    exact fun he => hj (hevs _ he)

theorem Inv.ticket_lt {i : Nat} (h : Inv cap s g) (hi : i < cap.val)
    (hholds : (g.phase i).holds = true) : g.ticket i < g.values.length := by
  have hplaced := (h.slots i hi).placed
  have hord := h.ordered
  rw [h.length]
  cases hp : g.phase i <;> simp only [hp, Phase.holds, Placed, Bool.false_eq_true] at hholds hplaced
  all_goals omega

/-- A slot that the step does not touch. -/
theorem Inv.keep {i : Nat} (h : Inv cap s g) (hi : i < cap.val)
    (hbuffer : t.queue.buffer i = s.queue.buffer i) (hticket : g'.ticket i = g.ticket i)
    (hphase : g'.phase i = g.phase i) (hvalues : g.values <+: g'.values)
    (hplaced : Placed cap t (g.ticket i) (g.phase i)) : SlotOk cap t g' i := by
  have hslot := h.slots i hi
  refine ⟨by rw [hticket]; exact hslot.index, ?_, ?_, by rw [hticket, hphase]; exact hplaced⟩
  · rw [hbuffer, hticket, hphase]
    exact hslot.stamp
  · rw [hbuffer, hticket, hphase, hslot.value]
    split
    · rename_i hholds
      obtain ⟨rest, hrest⟩ := hvalues
      rw [← hrest, List.getElem?_append_left (h.ticket_lt hi hholds)]
    · rfl

/-- A step that changes nothing that is shared, and of the log only its own entries. -/
theorem Inv.local {log : List (Entry (Op α) (Res α))} (h : Inv cap s g) (pc : Pc α)
    (evs : List (Event (Op α) (Res α))) (hqueue : t.queue = s.queue)
    (hpushed : t.pushed = s.pushed) (hpopped : t.popped = s.popped)
    (hcalls : t.calls = Function.update s.calls id pc)
    (hseen : ∀ j, j ≠ id → t.seen j = s.seen j) (hhist : t.hist = s.hist ++ evs)
    (hevs : ∀ e ∈ evs, e.id = id)
    (hlog : ∀ e : Entry (Op α) (Res α), e.id ≠ id → (e ∈ log ↔ e ∈ g.log))
    (hlogged : Logged (fifo (some cap.val)) t.hist log)
    (hfinal : (fifo (some cap.val)).final log = (fifo (some cap.val)).final g.log)
    (hself : CallOk cap t { g with log := log } id pc) : Inv cap t { g with log := log } := by
  have hframe : Frame id s g t { g with log := log } :=
    frame_of hcalls hseen hhist hevs hlog hpushed.ge hpopped.ge (List.prefix_refl _)
      fun _ => .inl ⟨rfl, rfl⟩
  refine ⟨?_, ?_, ?_, ?_, ?_, ?_, hlogged, ?_, hframe.calls_ok h ?_⟩
  · rw [hqueue, hpushed]
    exact h.tail
  · rw [hqueue, hpopped]
    exact h.head
  · rw [hpushed]
    exact h.length
  · rw [hpushed, hpopped]
    exact h.ordered
  · rw [hpushed, hpopped]
    exact h.bounded
  · rw [hfinal, hpopped]
    exact h.final
  · intro i hi
    refine h.keep hi (by rw [hqueue]) rfl rfl (List.prefix_refl _) ?_
    have hplaced := (h.slots i hi).placed
    cases hp : g.phase i <;> simpa only [hp, Placed, hpushed, hpopped] using hplaced
  · rw [hcalls, Function.update_self]
    exact hself

theorem Inv.goto {pc : Pc α} (h : Inv cap s g) (hself : CallOk cap (s.goto id pc) g id pc) :
    Inv cap (s.goto id pc) g :=
  h.local pc [] rfl rfl rfl rfl (fun _ _ => rfl) (List.append_nil _).symm (by simp)
    (fun _ _ => Iff.rfl) h.logged rfl hself

/-- A return with the result that the log has. -/
theorem Inv.ret {op : Op α} {res : Res α} (h : Inv cap s g) (hopen : Open s id op)
    (hmem : ⟨id, op, res⟩ ∈ g.log) : Inv cap (s.ret id res) g :=
  h.local .done [.ret id res] rfl rfl rfl rfl (fun _ _ => rfl) rfl (by simp [Event.id])
    (fun _ _ => Iff.rfl) (h.logged.ret hmem hopen.2) rfl trivial

theorem Tentative.idle {v : α} (h : Tentative g id v) :
    ∀ e ∈ g.log, e.id = id → (fifo (some cap.val)).Idle e.op e.res := by
  intro e he heq
  rw [h e he heq]
  exact idle_full v

theorem Inv.items_length (h : Inv cap s g) :
    (g.values.drop s.popped).length = s.pushed - s.popped := by
  rw [List.length_drop, h.length]

/-- The call takes effect without a change and returns at once. -/
theorem Inv.settle {op : Op α} (h : Inv cap s g) (res : Res α) (hopen : Open s id op)
    (hidle : ∀ e ∈ g.log, e.id = id → (fifo (some cap.val)).Idle e.op e.res)
    (happly : (fifo (some cap.val)).apply ⟨g.values.drop s.popped, g.closed⟩ op =
      (⟨g.values.drop s.popped, g.closed⟩, res)) : ∃ g', Inv cap (s.ret id res) g' := by
  obtain ⟨hlogged, hfinal⟩ := h.logged.recommit res hopen.1 hopen.2 hidle (by rw [h.final, happly])
  refine ⟨_, h.local .done [.ret id res] rfl rfl rfl rfl (fun _ _ => rfl) rfl (by simp [Event.id])
    (fun e he => mem_without_append he)
    (hlogged.ret (List.mem_append_right _ (List.mem_singleton_self _)) hopen.2) ?_ trivial⟩
  rw [hfinal, h.final, happly]

theorem inv_pushLoop {v : α} (h : Inv cap s g) (hopen : Open s id (.push v))
    (htent : Tentative g id v) : ∃ g', Inv cap (pushLoop cap s id v) g' := by
  unfold pushLoop
  have hmark := cap.lt_markBit
  have hand := cap.marked_and_markBit s.pushed g.closed
  rw [← h.tail] at hand
  rw [hand]
  cases hclosed : g.closed with
  | true =>
    rw [if_pos (by simp only [if_true]; omega)]
    exact h.settle _ hopen htent.idle (apply_push_closed hclosed)
  | false =>
    rw [if_neg (by simp)]
    have hword : s.queue.tail = cap.word s.pushed := by
      rw [h.tail, hclosed, cap.marked_false]
    by_cases hfull : s.popped + cap.val = s.pushed
    · -- the queue is full now: this may be where the push takes effect
      have happly : (fifo (some cap.val)).apply ⟨g.values.drop s.popped, g.closed⟩ (.push v) =
          (⟨g.values.drop s.popped, g.closed⟩, .full v) := by
        refine apply_push_full hclosed ?_
        simp only [Fifo.isFull, h.items_length, decide_eq_true_eq]
        omega
      obtain ⟨hlogged, hfinal⟩ := h.logged.recommit (.full v) hopen.1 hopen.2 htent.idle
        (by rw [h.final, happly])
      refine ⟨_, h.local (.pushStamp v s.queue.tail) [] rfl rfl rfl rfl ?_ (List.append_nil _).symm
        (by simp) (fun e he => mem_without_append he) hlogged ?_ ⟨hopen, ?_, ?_⟩⟩
      · intro j hj
        exact Function.update_of_ne hj _ _
      · rw [hfinal, h.final, happly]
      · intro e he heq
        rcases List.mem_append.mp he with he | he
        · exact absurd heq (mem_without.mp he).2
        · exact List.mem_singleton.mp he
      · refine ⟨?_, ?_, fun _ => List.mem_append_right _ (List.mem_singleton_self _)⟩
        · simpa [State.goto, State.look] using hword
        · simp [State.goto, State.look]
    · obtain ⟨hlogged, hfinal⟩ := h.logged.without hopen.2 htent.idle
      refine ⟨_, h.local (.pushStamp v s.queue.tail) [] rfl rfl rfl rfl ?_ (List.append_nil _).symm
        (by simp) (fun e he => mem_without.trans (and_iff_left he)) hlogged hfinal ⟨hopen, ?_, ?_⟩⟩
      · intro j hj
        exact Function.update_of_ne hj _ _
      · intro e he heq
        exact absurd heq (mem_without.mp he).2
      · refine ⟨?_, ?_, fun heq => absurd ?_ hfull⟩
        · simpa [State.goto, State.look] using hword
        · simp [State.goto, State.look]
        · simpa [State.goto, State.look] using heq

/-- The ticket of a slot is less than a lap away from `tail`. -/
theorem Inv.window {i : Nat} (h : Inv cap s g) (hi : i < cap.val) :
    s.pushed ≤ g.ticket i + cap.val ∧ g.ticket i < s.pushed + cap.val := by
  have hplaced := (h.slots i hi).placed
  have h₁ := h.ordered
  have h₂ := h.bounded
  have h₃ := cap.pos
  cases hp : g.phase i <;> simp only [hp, Placed] at hplaced <;> omega

/-- The ticket of a slot is that of a word loaded not too long ago, if the words agree. -/
theorem Inv.ticket_eq {n : Nat} (h : Inv cap s g) (hn : n ≤ s.pushed)
    (hfresh : s.pushed + cap.val < n + cap.period)
    (hword : cap.word (g.ticket (n % cap.val)) = cap.word n) : g.ticket (n % cap.val) = n := by
  have hw := h.window (cap.mod_lt n)
  have hp := cap.val_lt_period
  exact cap.eq_of_word_eq hword (by omega) (by omega)

theorem Inv.stamp_free {n : Nat} (h : Inv cap s g) (hn : n ≤ s.pushed)
    (hfresh : s.pushed + cap.val < n + cap.period)
    (hstamp : cap.word n = (s.queue.buffer (n % cap.val)).stamp) :
    g.ticket (n % cap.val) = n ∧ (g.phase (n % cap.val)).stamped = false := by
  have hslot := h.slots _ (cap.mod_lt n)
  rw [hslot.stamp] at hstamp
  cases hp : (g.phase (n % cap.val)).stamped with
  | true =>
    rw [hp, if_pos rfl] at hstamp
    exact absurd hstamp.symm (cap.word_succ_ne hslot.index)
  | false =>
    simp only [hp, Bool.false_eq_true, if_false, add_zero] at hstamp
    exact ⟨h.ticket_eq hn hfresh hstamp.symm, rfl⟩

theorem Inv.stamp_written {n : Nat} (h : Inv cap s g) (hn : n ≤ s.pushed)
    (hfresh : s.pushed + cap.val < n + cap.period)
    (hstamp : cap.word n + 1 = (s.queue.buffer (n % cap.val)).stamp) :
    g.ticket (n % cap.val) = n ∧ (g.phase (n % cap.val)).stamped = true := by
  have hslot := h.slots _ (cap.mod_lt n)
  rw [hslot.stamp] at hstamp
  cases hp : (g.phase (n % cap.val)).stamped with
  | true =>
    rw [hp, if_pos rfl] at hstamp
    exact ⟨h.ticket_eq hn hfresh (Nat.succ.inj hstamp).symm, rfl⟩
  | false =>
    simp only [hp, Bool.false_eq_true, if_false, add_zero] at hstamp
    exact absurd hstamp (cap.word_succ_ne (hslot.index.symm ▸ rfl))

theorem wrappingAdd_word (n : Nat) : wrappingAdd (cap.word n) 1 = cap.word n + 1 := by
  have h₁ := cap.word_lt n
  have h₂ := cap.lt_markBit
  have h₃ := cap.pos
  rw [wrappingAdd, Nat.mod_eq_of_lt (by omega)]

theorem Looked.goto {v : α} {tail : Nat} (h : Looked cap s g id v tail) (pc : Pc α) :
    Looked cap (s.goto id pc) g id v tail :=
  ⟨h.word, h.le, h.full⟩

theorem inv_pushStamp {v : α} {tail : Nat} {t : State α} (h : Inv cap s g)
    (hpc : s.calls id = .pushStamp v tail)
    (hfresh : s.pushed + cap.val < s.seen id + cap.period) {weak : Bool}
    (ht : exec cap s id weak = some t) : ∃ g', Inv cap t g' := by
  simp only [exec, hpc, Option.some.injEq] at ht
  subst ht
  obtain ⟨hopen, htent, hlook⟩ : CallOk cap s g id (.pushStamp v tail) := hpc ▸ h.calls id
  refine ⟨g, ?_⟩
  split_ifs with hstamp hhead
  · refine h.goto ⟨hopen, htent, hlook.goto _, fun heq => ?_⟩
    rw [hlook.word, indexOf, cap.word_and_index] at hstamp
    obtain ⟨hticket, hphase⟩ := h.stamp_free hlook.le hfresh hstamp
    refine ⟨hlook.word, hticket, ?_⟩
    have hplaced := (h.slots _ (cap.mod_lt (s.seen id))).placed
    have heq : s.pushed = s.seen id := heq
    rw [hticket] at hplaced
    show g.phase (s.seen id % cap.val) = .free
    cases hp : g.phase (s.seen id % cap.val) with
    | free => rfl
    | writing j | wrote j =>
      simp only [hp, Placed] at hplaced
      omega
    | ready | reading j | read j => simp [hp, Phase.stamped] at hphase
  · exact h.goto ⟨hopen, htent, hlook.goto _⟩
  · exact h.goto ⟨hopen, htent⟩

theorem inv_pushHead {v : α} {tail : Nat} {t : State α} (h : Inv cap s g)
    (hpc : s.calls id = .pushHead v tail)
    (hfresh : s.pushed + cap.val < s.seen id + cap.period) {weak : Bool}
    (ht : exec cap s id weak = some t) : ∃ g', Inv cap t g' := by
  simp only [exec, hpc, Option.some.injEq] at ht
  subst ht
  obtain ⟨hopen, htent, hlook⟩ : CallOk cap s g id (.pushHead v tail) := hpc ▸ h.calls id
  refine ⟨g, ?_⟩
  split_ifs with hhead
  · refine h.ret hopen (hlook.full ?_)
    rw [h.head, cap.word_add_oneLap, hlook.word] at hhead
    have h₁ := h.ordered
    have h₂ := h.bounded
    have h₃ := hlook.le
    exact cap.eq_of_word_eq hhead (by omega) (by omega)
  · exact h.goto ⟨hopen, htent⟩

theorem inv_popLoop (h : Inv cap s g) (hopen : Open s id .pop) (hlog : Unlogged g id) :
    Inv cap (popLoop s id) g := by
  refine h.local (.popStamp s.queue.head) [] rfl rfl rfl rfl ?_ (List.append_nil _).symm (by simp)
    (fun _ _ => Iff.rfl) h.logged rfl ⟨hopen, hlog, ?_, ?_⟩
  · intro j hj
    exact Function.update_of_ne hj _ _
  · simpa [popLoop, State.goto, State.look] using h.head
  · simp [popLoop, State.goto, State.look]

theorem inv_popStamp {head : Nat} {t : State α} (h : Inv cap s g)
    (hpc : s.calls id = .popStamp head)
    (hfresh : s.pushed + cap.val < s.seen id + cap.period) {weak : Bool}
    (ht : exec cap s id weak = some t) : ∃ g', Inv cap t g' := by
  simp only [exec, hpc, Option.some.injEq] at ht
  subst ht
  obtain ⟨hopen, hlog, hword, hle⟩ : CallOk cap s g id (.popStamp head) := hpc ▸ h.calls id
  refine ⟨g, ?_⟩
  split_ifs with hstamp hempty
  · refine h.goto ⟨hopen, hlog, ⟨hword, hle⟩, fun heq => ?_⟩
    rw [hword, indexOf, cap.word_and_index, wrappingAdd_word] at hstamp
    obtain ⟨hticket, hphase⟩ := h.stamp_written (hle.trans h.ordered) hfresh hstamp
    refine ⟨hword, hticket, ?_⟩
    have hplaced := (h.slots _ (cap.mod_lt (s.seen id))).placed
    have heq : s.popped = s.seen id := heq
    rw [hticket] at hplaced
    show g.phase (s.seen id % cap.val) = .ready
    cases hp : g.phase (s.seen id % cap.val) with
    | ready => rfl
    | reading j | read j =>
      simp only [hp, Placed] at hplaced
      omega
    | free | writing j | wrote j => simp [hp, Phase.stamped] at hphase
  · exact h.goto ⟨hopen, hlog, hword, hle⟩
  · exact h.goto ⟨hopen, hlog⟩

theorem inv_popTail {head : Nat} {t : State α} (h : Inv cap s g)
    (hpc : s.calls id = .popTail head)
    (hfresh : s.pushed + cap.val < s.seen id + cap.period) {weak : Bool}
    (ht : exec cap s id weak = some t) : ∃ g', Inv cap t g' := by
  simp only [exec, hpc, Option.some.injEq] at ht
  subst ht
  obtain ⟨hopen, hlog, hword, hle⟩ : CallOk cap s g id (.popTail head) := hpc ▸ h.calls id
  split <;> rename_i htail
  · rw [h.tail, cap.marked_and_complement, hword] at htail
    have h₁ := h.ordered
    have heq : s.pushed = s.seen id := cap.eq_of_word_eq htail (by omega) (by omega)
    have hitems : g.values.drop s.popped = [] :=
      List.drop_eq_nil_of_le (by rw [h.length]; omega)
    have hres : (if s.queue.tail &&& cap.markBit ≠ 0 then Res.popClosed else .empty) =
        (if g.closed then Res.popClosed else .empty : Res α) := by
      have hmark := cap.lt_markBit
      rw [h.tail, cap.marked_and_markBit]
      cases g.closed with
      | true => simp [show cap.markBit ≠ 0 by omega]
      | false => simp
    rw [hres]
    exact h.settle _ hopen (fun e he heq => absurd heq (hlog e he)) (apply_pop_nil hitems)
  · exact ⟨g, h.goto ⟨hopen, hlog⟩⟩

theorem claimed_word (n : Nat) : claimed cap (cap.word n) = cap.word (n + 1) := by
  simp only [claimed, indexOf, cap.word_and_index, cap.word_and_lap]
  exact cap.word_next n

/-- The other slots when a push claims a ticket. -/
theorem Inv.placed_push {i : Nat} (h : Inv cap s g) (hi : i < cap.val)
    (hne : i ≠ s.pushed % cap.val) (ht : t.pushed = s.pushed + 1) (hp : t.popped = s.popped) :
    Placed cap t (g.ticket i) (g.phase i) := by
  have hslot := h.slots i hi
  have hplaced := hslot.placed
  have h₁ : g.ticket i ≠ s.pushed := fun heq => hne (by rw [← heq, hslot.index])
  have h₂ : g.ticket i + cap.val ≠ s.pushed := fun heq => hne (by
    rw [← heq, Nat.add_mod_right, hslot.index])
  cases hphase : g.phase i <;> simp only [hphase, Placed] at hplaced ⊢ <;> omega

/-- The other slots when a pop claims a ticket. -/
theorem Inv.placed_pop {i : Nat} (h : Inv cap s g) (hi : i < cap.val)
    (hne : i ≠ s.popped % cap.val) (ht : t.popped = s.popped + 1) (hp : t.pushed = s.pushed) :
    Placed cap t (g.ticket i) (g.phase i) := by
  have hslot := h.slots i hi
  have hplaced := hslot.placed
  have h₁ : g.ticket i ≠ s.popped := fun heq => hne (by rw [← heq, hslot.index])
  cases hphase : g.phase i <;> simp only [hphase, Placed] at hplaced ⊢ <;> omega

theorem Inv.placed_same {i : Nat} (h : Inv cap s g) (hi : i < cap.val)
    (ht : t.popped = s.popped) (hp : t.pushed = s.pushed) :
    Placed cap t (g.ticket i) (g.phase i) := by
  have hplaced := (h.slots i hi).placed
  cases hphase : g.phase i <;> simpa only [hphase, Placed, ht, hp] using hplaced

/-- A step that changes the phase of one slot of which it is the owner, or which it
has just claimed. -/
theorem frame_slots {i n : Nat} {phase : Phase}
    (howner : ∀ j, (g.phase i).owner = some j → j = id)
    (hfree : g.phase i = .free → g.ticket i < t.pushed)
    (hready : g.phase i = .ready → g.ticket i < t.popped) (j : Nat) :
    Function.update g.ticket i n j = g.ticket j ∧ Function.update g.phase i phase j = g.phase j ∨
    (∀ k, (g.phase j).owner = some k → k = id) ∧ (g.phase j = .free → g.ticket j < t.pushed) ∧
      (g.phase j = .ready → g.ticket j < t.popped) := by
  rcases eq_or_ne j i with rfl | hj
  · exact .inr ⟨howner, hfree, hready⟩
  · exact .inl ⟨Function.update_of_ne hj _ _, Function.update_of_ne hj _ _⟩

theorem inv_pushClaim {v : α} {tail : Nat} (h : Inv cap s g) (hopen : Open s id (.push v))
    (htent : Tentative g id v) (hclosed : g.closed = false) (heq : s.pushed = s.seen id)
    (hslot : AtSlot cap s g id tail .free) :
    ∃ g', Inv cap ({ s.setTail (claimed cap tail) with pushed := s.pushed + 1 }.goto id
      (.pushWrite v tail)) g' := by
  obtain ⟨hword, hticket, hphase⟩ := hslot
  have hi := cap.mod_lt (s.seen id)
  have hok := h.slots _ hi
  have hplaced := hok.placed
  rw [hticket, hphase] at hplaced
  have happly : (fifo (some cap.val)).apply ⟨g.values.drop s.popped, g.closed⟩ (.push v) =
      (⟨g.values.drop s.popped ++ [v], g.closed⟩, .pushed) := by
    refine apply_push hclosed ?_
    have := hplaced.2
    simp only [Fifo.isFull, h.items_length, decide_eq_false_iff_not]
    omega
  obtain ⟨hlogged, hfinal⟩ := h.logged.recommit .pushed hopen.1 hopen.2 htent.idle
    (by rw [h.final, happly])
  refine ⟨⟨without id g.log ++ [⟨id, .push v, .pushed⟩], g.values ++ [v], g.closed,
    Function.update g.ticket (s.seen id % cap.val) (s.seen id),
    Function.update g.phase (s.seen id % cap.val) (.writing id)⟩, ?_⟩
  constructor
  · rw [hclosed, cap.marked_false]
    simp [State.goto, State.setTail, hword, claimed_word, heq]
  · exact h.head
  · simp [State.goto, State.setTail, h.length]
  · exact h.ordered.trans (Nat.le_succ _)
  · have := hplaced.2
    simp only [State.goto, State.setTail]
    omega
  · rw [hfinal, h.final, happly]
    simp only [State.goto, State.setTail, Fifo.mk.injEq, and_true]
    rw [List.drop_append_of_le_length (by rw [h.length]; exact h.ordered)]
  · exact hlogged
  · intro j hj
    rcases eq_or_ne j (s.seen id % cap.val) with rfl | hne
    · refine ⟨?_, ?_, ?_, ?_⟩
      · simp
      · have := hok.stamp
        simp only [hphase, hticket] at this
        simpa [State.goto, State.setTail, Phase.stamped] using this
      · have := hok.value
        simp only [hphase] at this
        simpa [State.goto, State.setTail, Phase.holds] using this
      · simp only [Function.update_self, Placed, State.goto, State.setTail]
        have := h.ordered
        omega
    · exact h.keep hj rfl (Function.update_of_ne hne _ _) (Function.update_of_ne hne _ _)
        (List.prefix_append _ _) (h.placed_push hj (by rwa [heq]) rfl rfl)
  · refine Frame.calls_ok (s := s) (g := g) (frame_of rfl (fun _ _ => rfl) (List.append_nil _).symm (by simp)
      (fun e he => mem_without_append he) (Nat.le_succ _) le_rfl (List.prefix_append _ _)
      (frame_slots ?_ ?_ ?_)) h ?_
    · simp [hphase, Phase.owner]
    · simp [State.goto, State.setTail, hticket, heq]
    · simp [hphase]
    · simp only [State.goto, Function.update_self]
      refine ⟨hopen, ⟨hword, ?_, ?_⟩, ?_, ?_⟩
      · simp [State.setTail]
      · simp [State.setTail]
      · exact List.mem_append_right _ (List.mem_singleton_self _)
      · simp [State.setTail, ← heq, ← h.length]

theorem inv_pushCas {v : α} {tail : Nat} {t : State α} (h : Inv cap s g)
    (hpc : s.calls id = .pushCas v tail)
    (hfresh : s.pushed + cap.val < s.seen id + cap.period) {weak : Bool}
    (ht : exec cap s id weak = some t) : ∃ g', Inv cap t g' := by
  simp only [exec, hpc, Option.some.injEq] at ht
  subst ht
  obtain ⟨hopen, htent, hlook, hslot⟩ : CallOk cap s g id (.pushCas v tail) := hpc ▸ h.calls id
  split <;> rename_i hcas
  · have htail := hcas.2
    rw [h.tail, hlook.word] at htail
    have hclosed : g.closed = false := by
      have hmark := cap.lt_markBit
      have hand := cap.marked_and_markBit s.pushed g.closed
      rw [htail, ← cap.marked_false, cap.marked_and_markBit] at hand
      cases hc : g.closed with
      | false => rfl
      | true =>
        rw [hc, if_pos rfl, if_neg (by simp)] at hand
        omega
    rw [hclosed, cap.marked_false] at htail
    have hle := hlook.le
    have heq : s.pushed = s.seen id := cap.eq_of_word_eq htail (by omega) (by omega)
    exact inv_pushClaim h hopen htent hclosed heq (hslot heq)
  · exact inv_pushLoop h hopen htent

theorem inv_popClaim {head : Nat} (h : Inv cap s g) (hopen : Open s id .pop)
    (hlog : Unlogged g id) (heq : s.popped = s.seen id) (hslot : AtSlot cap s g id head .ready) :
    ∃ g', Inv cap ({ s.setHead (claimed cap head) with popped := s.popped + 1 }.goto id
      (.popRead head)) g' := by
  obtain ⟨hword, hticket, hphase⟩ := hslot
  have hi := cap.mod_lt (s.seen id)
  have hok := h.slots _ hi
  have hplaced := hok.placed
  rw [hticket, hphase] at hplaced
  have hlt : s.popped < g.values.length := by
    rw [h.length, heq]
    exact hplaced.2
  have hvalue : g.values[s.seen id]? = some g.values[s.popped] := by
    rw [← heq]
    exact List.getElem?_eq_getElem hlt
  have happly : (fifo (some cap.val)).apply ⟨g.values.drop s.popped, g.closed⟩ .pop =
      (⟨g.values.drop (s.popped + 1), g.closed⟩, .popped (some g.values[s.popped])) :=
    apply_pop (List.drop_eq_getElem_cons hlt)
  obtain ⟨hlogged, hfinal⟩ := h.logged.recommit (.popped (some g.values[s.popped])) hopen.1 hopen.2
    (fun e he heq => absurd heq (hlog e he)) (by rw [h.final, happly])
  refine ⟨⟨without id g.log ++ [⟨id, .pop, .popped (some g.values[s.popped])⟩], g.values, g.closed,
    Function.update g.ticket (s.seen id % cap.val) (s.seen id),
    Function.update g.phase (s.seen id % cap.val) (.reading id)⟩, ?_⟩
  constructor
  · exact h.tail
  · simp [State.goto, State.setHead, hword, claimed_word, heq]
  · exact h.length
  · rw [h.length] at hlt
    exact hlt
  · exact h.bounded.trans (by simp only [State.goto, State.setHead]; omega)
  · rw [hfinal, h.final, happly]
    rfl
  · exact hlogged
  · intro j hj
    rcases eq_or_ne j (s.seen id % cap.val) with rfl | hne
    · refine ⟨?_, ?_, ?_, ?_⟩
      · simp
      · have := hok.stamp
        simp only [hphase, hticket] at this
        simpa [State.goto, State.setHead, Phase.stamped] using this
      · have := hok.value
        simp only [hphase, hticket] at this
        simpa [State.goto, State.setHead, Phase.holds] using this
      · simp only [Function.update_self, Placed, State.goto, State.setHead]
        have := h.bounded
        omega
    · exact h.keep hj rfl (Function.update_of_ne hne _ _) (Function.update_of_ne hne _ _)
        (List.prefix_refl _) (h.placed_pop hj (by rwa [heq]) rfl rfl)
  · refine Frame.calls_ok (s := s) (g := g) (frame_of rfl (fun _ _ => rfl)
      (List.append_nil _).symm (by simp) (fun e he => mem_without_append he) le_rfl
      (Nat.le_succ _) (List.prefix_refl _) (frame_slots ?_ ?_ ?_)) h ?_
    · simp [hphase, Phase.owner]
    · simp [hphase]
    · simp [State.goto, State.setHead, hticket, heq]
    · simp only [State.goto, Function.update_self]
      refine ⟨hopen, ⟨hword, ?_, ?_⟩, g.values[s.popped], hvalue, ?_⟩
      · simp [State.setHead]
      · simp [State.setHead]
      · exact List.mem_append_right _ (List.mem_singleton_self _)

theorem inv_popCas {head : Nat} {t : State α} (h : Inv cap s g)
    (hpc : s.calls id = .popCas head)
    (hfresh : s.pushed + cap.val < s.seen id + cap.period) {weak : Bool}
    (ht : exec cap s id weak = some t) : ∃ g', Inv cap t g' := by
  simp only [exec, hpc, Option.some.injEq] at ht
  subst ht
  obtain ⟨hopen, hlog, ⟨hword, hle⟩, hslot⟩ : CallOk cap s g id (.popCas head) := hpc ▸ h.calls id
  split <;> rename_i hcas
  · have hhead := hcas.2
    rw [h.head, hword] at hhead
    have h₁ := h.ordered
    have h₂ := cap.val_lt_period
    have heq : s.popped = s.seen id := cap.eq_of_word_eq hhead (by omega) (by omega)
    exact inv_popClaim h hopen hlog heq (hslot heq)
  · exact ⟨g, inv_popLoop h hopen hlog⟩

/-- A step of the call that has the slot of its ticket to itself. -/
theorem Inv.slot {w : Nat} {phase : Phase} {slot : Slot α} (h : Inv cap s g) (n : Nat)
    (phase' : Phase) (hslot : AtSlot cap s g id w phase) (howner : phase.owner = some id) (pc : Pc α)
    (evs : List (Event (Op α) (Res α)))
    (hqueue : t.queue =
      { s.queue with buffer := Function.update s.queue.buffer (s.seen id % cap.val) slot })
    (hcalls : t.calls = Function.update s.calls id pc) (hseen : t.seen = s.seen)
    (hpushed : t.pushed = s.pushed) (hpopped : t.popped = s.popped)
    (hhist : t.hist = s.hist ++ evs) (hevs : ∀ e ∈ evs, e.id = id)
    (hlogged : Logged (fifo (some cap.val)) t.hist g.log)
    (hindex : n % cap.val = s.seen id % cap.val)
    (hstamp : slot.stamp = cap.word n + if phase'.stamped then 1 else 0)
    (hvalue : slot.value = if phase'.holds then g.values[n]? else none)
    (hplaced : Placed cap t n phase')
    (hself : ∀ g' : Ghost α, g'.log = g.log →
      (n = s.seen id → g'.ticket (s.seen id % cap.val) = s.seen id) →
      g'.phase (s.seen id % cap.val) = phase' → CallOk cap t g' id pc) :
    ∃ g', Inv cap t g' := by
  have hphase := hslot.phase
  refine ⟨⟨g.log, g.values, g.closed, Function.update g.ticket (s.seen id % cap.val) n,
    Function.update g.phase (s.seen id % cap.val) phase'⟩, ?_⟩
  constructor
  · rw [hqueue, hpushed]
    exact h.tail
  · rw [hqueue, hpopped]
    exact h.head
  · rw [hpushed]
    exact h.length
  · rw [hpushed, hpopped]
    exact h.ordered
  · rw [hpushed, hpopped]
    exact h.bounded
  · rw [hpopped]
    exact h.final
  · exact hlogged
  · intro j hj
    rcases eq_or_ne j (s.seen id % cap.val) with rfl | hne
    · refine ⟨?_, ?_, ?_, ?_⟩ <;> simp only [hqueue, Function.update_self]
      · exact hindex
      · exact hstamp
      · exact hvalue
      · exact hplaced
    · refine h.keep hj ?_ (Function.update_of_ne hne _ _) (Function.update_of_ne hne _ _)
        (List.prefix_refl _) (h.placed_same hj hpopped hpushed)
      rw [hqueue]
      exact Function.update_of_ne hne _ _
  · refine Frame.calls_ok (g := g) (frame_of hcalls (fun j _ => by rw [hseen]) hhist hevs
      (fun _ _ => Iff.rfl) hpushed.ge hpopped.ge (List.prefix_refl _) (frame_slots ?_ ?_ ?_)) h ?_
    · intro j hj
      rw [hphase, howner] at hj
      exact (Option.some.inj hj).symm
    · intro hfree
      rw [hphase] at hfree
      simp [hfree, Phase.owner] at howner
    · intro hready
      rw [hphase] at hready
      simp [hready, Phase.owner] at howner
    · rw [hcalls, Function.update_self]
      exact hself _ rfl (fun hn => by simp [hn]) (by simp)

theorem AtSlot.index {w : Nat} {phase : Phase} (h : AtSlot cap s g id w phase) :
    indexOf cap w = s.seen id % cap.val := by
  rw [h.word, indexOf, cap.word_and_index]

theorem inv_pushWrite {v : α} {tail : Nat} {t : State α} (h : Inv cap s g)
    (hpc : s.calls id = .pushWrite v tail) {weak : Bool}
    (ht : exec cap s id weak = some t) : ∃ g', Inv cap t g' := by
  simp only [exec, hpc, Option.some.injEq] at ht
  subst ht
  obtain ⟨hopen, hslot, hlog, hval⟩ : CallOk cap s g id (.pushWrite v tail) := hpc ▸ h.calls id
  have hok := h.slots _ (cap.mod_lt (s.seen id))
  have hplaced := hok.placed
  have hstamp := hok.stamp
  rw [hslot.ticket, hslot.phase] at hplaced hstamp
  rw [hslot.index]
  exact h.slot (s.seen id) (.wrote id) hslot rfl (.pushStore tail) [] rfl rfl rfl rfl rfl
    (List.append_nil _).symm (by simp) h.logged rfl hstamp hval.symm hplaced
    fun g' hlog' htick hph => ⟨v, hopen, ⟨hslot.word, htick rfl, hph⟩, hlog' ▸ hlog⟩

theorem inv_pushStore {tail : Nat} {t : State α} (h : Inv cap s g)
    (hpc : s.calls id = .pushStore tail) {weak : Bool}
    (ht : exec cap s id weak = some t) : ∃ g', Inv cap t g' := by
  simp only [exec, hpc, Option.some.injEq] at ht
  subst ht
  obtain ⟨v, hopen, hslot, hlog⟩ : CallOk cap s g id (.pushStore tail) := hpc ▸ h.calls id
  have hok := h.slots _ (cap.mod_lt (s.seen id))
  have hplaced := hok.placed
  have hvalue := hok.value
  rw [hslot.ticket, hslot.phase] at hplaced hvalue
  rw [hslot.index]
  refine h.slot (s.seen id) .ready hslot rfl .done [.ret id .pushed] rfl rfl rfl rfl rfl rfl
    (by simp [Event.id]) (h.logged.ret hlog hopen.2) rfl ?_ hvalue hplaced
    fun g' hlog' htick hph => trivial
  rw [hslot.word, wrappingAdd_word]
  rfl

theorem inv_popRead {head : Nat} {t : State α} (h : Inv cap s g)
    (hpc : s.calls id = .popRead head) {weak : Bool}
    (ht : exec cap s id weak = some t) : ∃ g', Inv cap t g' := by
  simp only [exec, hpc, Option.some.injEq] at ht
  subst ht
  obtain ⟨hopen, hslot, v, hval, hlog⟩ : CallOk cap s g id (.popRead head) := hpc ▸ h.calls id
  have hok := h.slots _ (cap.mod_lt (s.seen id))
  have hplaced := hok.placed
  have hstamp := hok.stamp
  have hvalue := hok.value
  rw [hslot.ticket, hslot.phase] at hplaced hstamp hvalue
  have hread : (s.queue.buffer (s.seen id % cap.val)).value = some v := by
    rw [hvalue, hval]
    rfl
  rw [hslot.index, hread]
  exact h.slot (s.seen id) (.read id) hslot rfl (.popStore head (some v)) [] rfl rfl rfl rfl rfl
    (List.append_nil _).symm (by simp) h.logged rfl hstamp rfl hplaced
    fun g' hlog' htick hph => ⟨hopen, ⟨hslot.word, htick rfl, hph⟩, hlog' ▸ hlog⟩

theorem inv_popStore {head : Nat} {v : Option α} {t : State α} (h : Inv cap s g)
    (hpc : s.calls id = .popStore head v) {weak : Bool}
    (ht : exec cap s id weak = some t) : ∃ g', Inv cap t g' := by
  simp only [exec, hpc, Option.some.injEq] at ht
  subst ht
  obtain ⟨hopen, hslot, hlog⟩ : CallOk cap s g id (.popStore head v) := hpc ▸ h.calls id
  have hok := h.slots _ (cap.mod_lt (s.seen id))
  have hplaced := hok.placed
  have hvalue := hok.value
  rw [hslot.ticket, hslot.phase] at hplaced hvalue
  rw [hslot.index]
  refine h.slot (s.seen id + cap.val) .free hslot rfl .done [.ret id (.popped v)] rfl rfl rfl rfl
    rfl rfl (by simp [Event.id]) (h.logged.ret hlog hopen.2) (Nat.add_mod_right _ _) ?_ hvalue ?_
    fun g' hlog' htick hph => trivial
  · rw [hslot.word, cap.word_add_oneLap]
    rfl
  · exact ⟨hplaced.2, Nat.add_lt_add_right hplaced.1 _⟩

theorem inv_closeOr {t : State α} (h : Inv cap s g) (hpc : s.calls id = .closeOr) {weak : Bool}
    (ht : exec cap s id weak = some t) : ∃ g', Inv cap t g' := by
  simp only [exec, hpc, Option.some.injEq] at ht
  subst ht
  obtain ⟨hopen, hlog⟩ : CallOk cap s g id .closeOr := hpc ▸ h.calls id
  have hfirst : (s.queue.tail &&& cap.markBit = 0) = (g.closed = false) := by
    have hmark := cap.lt_markBit
    rw [h.tail, cap.marked_and_markBit]
    cases g.closed with
    | true => simp [show cap.markBit ≠ 0 by omega]
    | false => simp
  obtain ⟨hlogged, hfinal⟩ := h.logged.recommit (.closed !g.closed) hopen.1 hopen.2
    (fun e he heq => absurd heq (hlog e he)) (by rw [h.final]; rfl)
  refine ⟨⟨without id g.log ++ [⟨id, .close, .closed !g.closed⟩], g.values, true, g.ticket,
    g.phase⟩, ?_⟩
  have hres : decide (s.queue.tail &&& cap.markBit = 0) = !g.closed := by
    simp only [hfirst]
    cases g.closed <;> rfl
  rw [hres]
  constructor
  · show s.queue.tail ||| cap.markBit = _
    rw [h.tail, cap.marked_or_markBit]
    rfl
  · exact h.head
  · exact h.length
  · exact h.ordered
  · exact h.bounded
  · rw [hfinal, h.final]
    rfl
  · exact hlogged.ret (List.mem_append_right _ (List.mem_singleton_self _)) hopen.2
  · intro i hi
    exact h.keep hi rfl rfl rfl (List.prefix_refl _) (h.placed_same hi rfl rfl)
  · refine Frame.calls_ok (s := s) (g := g) (frame_of rfl (fun _ _ => rfl) rfl
      (by simp [Event.id]) (fun e he => mem_without_append he) le_rfl le_rfl (List.prefix_refl _)
      fun _ => .inl ⟨rfl, rfl⟩) h ?_
    simp only [State.ret, Function.update_self]
    trivial

theorem inv_call {op : Op α} {t : State α} (h : Inv cap s g)
    (ht : step cap s (.call id op) = some t) : Inv cap t g := by
  simp only [step] at ht
  split at ht
  · rename_i hpc
    cases ht
    obtain ⟨hfresh, hopen⟩ : CallOk cap s g id .idle := hpc ▸ h.calls id
    have hnew : Open { s.goto id (entry op) with hist := s.hist ++ [.call id op] } id op := by
      refine ⟨List.mem_append_right _ (List.mem_singleton_self _), fun res hres => ?_⟩
      exact hopen res (by simpa using hres)
    have hlog : Unlogged g id := by
      rintro e he rfl
      exact hfresh e.op (h.logged.linearization.called e he)
    refine h.local (entry op) [.call id op] rfl rfl rfl rfl (fun _ _ => rfl) rfl
      (by simp [Event.id]) (fun _ _ => Iff.rfl) (h.logged.call hfresh) rfl ?_
    cases op with
    | push v => exact ⟨hnew, fun e he heq => absurd heq (hlog e he)⟩
    | pop => exact ⟨hnew, hlog⟩
    | close => exact ⟨hnew, hlog⟩
  · cases ht

end Framing

/-- The call goes by a word that it has loaded and not claimed. -/
def Pc.looked : Pc α → Bool
  | .pushStamp _ _ | .pushCas _ _ | .pushHead _ _ | .popStamp _ | .popCas _ | .popTail _ => true
  | _ => false

/-- The counters have not come around since the call loaded one of them. A push
compares `head` with a word one lap below, so that a lap less than the period is
what a call may sleep through. -/
def NoStall (s : State α) : Act α → Prop
  | .call _ _ => True
  | .step id _ => (s.calls id).looked = true → s.pushed + cap.val < s.seen id + cap.period

instance (s : State α) : (a : Act α) → Decidable (NoStall cap s a)
  | .call _ _ => isTrue trivial
  | .step _ _ => inferInstanceAs (Decidable (_ → _))

variable {cap}

theorem inv_step {s t : State α} {g : Ghost α} {a : Act α} (h : Inv cap s g)
    (hok : NoStall cap s a) (ht : step cap s a = some t) : ∃ g', Inv cap t g' := by
  cases a with
  | call id op => exact ⟨g, inv_call h ht⟩
  | step id weak =>
    replace ht : exec cap s id weak = some t := ht
    cases hpc : s.calls id <;> simp only [NoStall, hpc, Pc.looked, forall_const] at hok
    case idle => simp [exec, hpc] at ht
    case done => simp [exec, hpc] at ht
    case pushLoad v =>
      obtain ⟨hopen, htent⟩ : CallOk cap s g id (.pushLoad v) := hpc ▸ h.calls id
      simp only [exec, hpc, Option.some.injEq] at ht
      exact ht ▸ inv_pushLoop h hopen htent
    case pushStamp => exact inv_pushStamp h hpc hok ht
    case pushCas => exact inv_pushCas h hpc hok ht
    case pushHead => exact inv_pushHead h hpc hok ht
    case pushWrite => exact inv_pushWrite h hpc ht
    case pushStore => exact inv_pushStore h hpc ht
    case popLoad =>
      obtain ⟨hopen, hlog⟩ : CallOk cap s g id .popLoad := hpc ▸ h.calls id
      simp only [exec, hpc, Option.some.injEq] at ht
      exact ⟨g, ht ▸ inv_popLoop h hopen hlog⟩
    case popStamp => exact inv_popStamp h hpc hok ht
    case popCas => exact inv_popCas h hpc hok ht
    case popTail => exact inv_popTail h hpc hok ht
    case popRead => exact inv_popRead h hpc ht
    case popStore => exact inv_popStore h hpc ht
    case closeOr => exact inv_closeOr h hpc ht

theorem inv_new : Inv cap (new : State α) ⟨[], [], false, id, fun _ => .free⟩ := by
  constructor
  · simp [new, Capacity.word]
  · simp [new, Capacity.word]
  · rfl
  · exact le_rfl
  · exact Nat.zero_le _
  · rfl
  · exact .nil
  · intro i hi
    refine ⟨Nat.mod_eq_of_lt hi, ?_, rfl, ?_⟩
    · simp [new, Capacity.word, Phase.stamped, Nat.div_eq_of_lt hi, Nat.mod_eq_of_lt hi]
    · simpa [Placed, new] using hi
  · intro id
    simp [new, CallOk]

theorem inv_reachable {s : State α} (h : (system cap).ReachableVia (NoStall cap) s) :
    ∃ g, Inv cap s g :=
  h.invariant (I := fun s => ∃ g, Inv cap s g) ⟨_, inv_new⟩
    fun _ _ _ hok ⟨_, hi⟩ ht => inv_step hi hok ht

/-- The value of a slot is written when there is none, and read when there is one. -/
theorem Inv.slot_safe {s : State α} {g : Ghost α} (h : Inv cap s g) (id : Nat) :
    (∀ v tail, s.calls id = .pushWrite v tail →
      (s.queue.buffer (indexOf cap tail)).value = none) ∧
    (∀ head, s.calls id = .popRead head →
      (s.queue.buffer (indexOf cap head)).value ≠ none) := by
  have hvalue := (h.slots _ (cap.mod_lt (s.seen id))).value
  constructor
  · intro v tail hpc
    obtain ⟨-, hslot, -⟩ : CallOk cap s g id (.pushWrite v tail) := hpc ▸ h.calls id
    rw [hslot.index, hvalue, hslot.phase]
    rfl
  · intro head hpc
    obtain ⟨-, hslot, v, hval, -⟩ : CallOk cap s g id (.popRead head) := hpc ▸ h.calls id
    rw [hslot.index, hvalue, hslot.phase, hslot.ticket, hval]
    exact Option.some_ne_none v

/-- In every run in which no thread stays behind for a whole lap, the calls behave as on
a FIFO that is full at the capacity, and no slot is written twice or read empty. -/
theorem bounded_linearizable {s : State α} (h : (system cap).ReachableVia (NoStall cap) s) :
    (∃ order, Linearization (fifo (some cap.val)) s.hist order ∧
      pops order <+: (pushes order).map some) ∧
    ∀ id, (∀ v tail, s.calls id = .pushWrite v tail →
        (s.queue.buffer (indexOf cap tail)).value = none) ∧
      (∀ head, s.calls id = .popRead head →
        (s.queue.buffer (indexOf cap head)).value ≠ none) := by
  obtain ⟨g, hinv⟩ := inv_reachable h
  have hlin := hinv.logged.linearization
  refine ⟨⟨g.log, hlin, ?_⟩, hinv.slot_safe⟩
  rw [pushes_eq hlin.legal]
  exact List.prefix_append _ _

def oneSlot : Capacity := ⟨1, by decide, by decide⟩

/-- A push that fills the queue, one that finds it full, and a pop. -/
def pushPushPop : List (Act Nat) :=
  [.call 0 (.push 7), .call 1 (.push 8), .step 0 false, .step 0 false, .step 0 false,
   .step 0 false, .step 0 false, .step 1 false, .step 1 false, .step 1 false,
   .call 2 .pop, .step 2 false, .step 2 false, .step 2 true, .step 2 false, .step 2 false,
   .step 2 false, .step 2 false]

theorem bounded_linearizable_one : ∃ s, (system oneSlot).ReachableVia (NoStall oneSlot) s ∧
    s.hist = [.call 0 (.push 7), .call 1 (.push 8), .ret 0 .pushed, .ret 1 (.full 8),
      .call 2 .pop, .ret 2 (.popped (some 7))] ∧
    ∃ order, Linearization (fifo (some 1)) s.hist order ∧
      pops order <+: (pushes order).map some := by
  obtain ⟨s, hs, hhist⟩ := (system oneSlot).exists_of_runVia (NoStall oneSlot)
    (P := fun s => s.hist = [.call 0 (.push 7), .call 1 (.push 8), .ret 0 .pushed,
      .ret 1 (.full 8), .call 2 .pop, .ret 2 (.popped (some 7))]) pushPushPop (by decide)
  exact ⟨s, hs, hhist, (bounded_linearizable hs).1⟩

end Cynthia.Queue.Bounded
