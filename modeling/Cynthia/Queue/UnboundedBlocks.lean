import Cynthia.Queue.UnboundedDebts

/-! When a block of `Unbounded` is freed. The duty to free it starts with the pop of its
last slot and is handed on from call to call through the `READ` and `DESTROY` bits; at any
time one call has it, or one slot that waits for its pop, and whoever has it has passed only
slots that were read. -/

namespace Cynthia.Queue.Unbounded

open Transition Linearizability

variable {α : Type}

/-- An access to a block. -/
inductive Use where
  | touch (block : Nat)
  /-- The value of a slot is read. -/
  | read (block i : Nat)
  | free (block : Nat)
  deriving DecidableEq, Repr

def Use.block : Use → Nat
  | .touch block | .read block _ | .free block => block

/-- The access that a call makes with its next step. -/
def Pc.use : Pc α → Option Use
  | .pushNext _ _ block _ | .pushWrite _ _ block | .pushSet _ block => some (.touch block)
  | .popNext _ _ block | .popWait _ block | .popSet _ block _ => some (.touch block)
  | .popPeek _ _ _ next => some (.touch next)
  | .popRead head block => some (.read block (offset head))
  | .destroyLoad block i _ => some (if i < blockCap - 1 then .touch block else .free block)
  | .destroyOr block _ _ => some (.touch block)
  | .idle | .done | .panicked | .closeOr | .pushIndex _ _ | .pushBlock _ _ _ | .pushInstall _ _ _
  | .pushHead _ _ _ _ | .pushCas _ _ _ _ | .pushStoreBlock _ _ _ | .pushAdd _ _ _ _ | .popIndex
  | .popBlock _ | .popTail _ _ | .popCas _ _ _ | .popStoreBlock _ _ _ _
  | .popStoreIndex _ _ _ => none

def used (s : State α) : Act α → List Use
  | .call _ _ => []
  | .step id _ => (s.calls id).use.toList

/-- The queue with the accesses to blocks so far. -/
def traced : System (State α × List Use) (Act α) where
  init := (new, [])
  step p a := (step p.1 a).map fun t => (t, p.2 ++ used p.1 a)

/-! ## Who is to free a block -/

/-- The ticket of a pop that has not marked its slot. -/
def Pc.pops : Pc α → Option Nat
  | .popNext head _ _ | .popPeek head _ _ _ | .popStoreBlock head _ _ _ | .popStoreIndex head _ _
  | .popWait head _ | .popRead head _ | .popSet head _ _ => some (ticket head)
  | _ => none

/-- The block that the call is to free, and the first slot it has not passed. -/
def Pc.frees : Pc α → Option (Nat × Nat)
  | .popNext _ _ block | .popPeek _ _ block _ | .popStoreBlock _ _ block _
  | .popStoreIndex _ _ block => some (block, 0)
  | .popWait head block | .popRead head block =>
    if offset head + 1 = blockCap then some (block, 0) else none
  | .destroyLoad block i _ | .destroyOr block i _ => some (block, i)
  | _ => none

/-- The ticket of a pop that has read its slot and is about to mark it. -/
def Pc.marks : Pc α → Option Nat
  | .popSet head _ _ => some (ticket head)
  | _ => none

/-- What a call has to do with the blocks. -/
def Pc.view (pc : Pc α) : Option Nat × Option (Nat × Nat) × Option Nat :=
  (pc.pops, pc.frees, pc.marks)

/-- The next step neither reads a value nor frees a block. -/
def Pc.plain (pc : Pc α) : Prop := ∀ u, pc.use = some u → ∃ b, u = .touch b

/-- The pop of this slot is to go on with freeing the block. -/
def State.waits (s : State α) (b i : Nat) : Bool := (s.slot b i).destroy && !(s.slot b i).read

inductive Owner where
  | call (id : Nat)
  | slot (i : Nat)
  /-- The block is freed. -/
  | gone
  deriving DecidableEq

/-- Who has the duty to free the block, and the slots that were passed. -/
def Holds (s : State α) (b : Nat) : Owner → Nat → Prop
  | .call id, p => (s.calls id).frees = some (b, p)
  | .slot i, p => s.waits b i = true ∧ p = i
  | .gone, p => (s.queue.blocks b).freed = true ∧ p = 30

/-- The pops that have claimed their slots. -/
structure Tickets (s : State α) : Prop where
  unique : ∀ i j n, (s.calls i).pops = some n → (s.calls j).pops = some n → i = j
  claimed : ∀ i n, (s.calls i).pops = some n → n < s.popped
  unread : ∀ i n, (s.calls i).pops = some n → n % 31 < 30 →
    (s.slot (n / 31) (n % 31)).read = false
  marked : ∀ b i, (s.slot b i).read = true → i < 30 ∧ 31 * b + i < s.popped

structure Duties (s : State α) : Prop where
  unique : ∀ b o o' p p', Holds s b o p → Holds s b o' p' → o = o'
  passed : ∀ b o p, Holds s b o p → ∀ i < p, i < 30 → (s.slot b i).read = true
  claimed : ∀ b o p, Holds s b o p → 31 * (b + 1) ≤ s.popped

section Steps

variable {s t : State α} {id : Nat} {pc : Pc α}

/-- The duties after a step: an owner has been one before, or it is the only one of its block
and has passed slots that were read. -/
theorem Duties.step (h : Duties s) (hpopped : s.popped ≤ t.popped)
    (hread : ∀ b i, (s.slot b i).read = true → (t.slot b i).read = true)
    (hholds : ∀ b o p, Holds t b o p → Holds s b o p ∨
      31 * (b + 1) ≤ t.popped ∧ (∀ i < p, i < 30 → (t.slot b i).read = true) ∧
        ∀ o' p', Holds t b o' p' → o' = o) : Duties t := by
  refine ⟨fun b o o' p p' ho ho' => ?_, fun b o p ho i hi hi' => ?_, fun b o p ho => ?_⟩
  · obtain hold | ⟨-, -, honly⟩ := hholds b o p ho
    · obtain hold' | ⟨-, -, honly'⟩ := hholds b o' p' ho'
      · exact h.unique b o o' p p' hold hold'
      · exact honly' o p ho
    · exact (honly o' p' ho').symm
  · obtain hold | ⟨-, hpassed, -⟩ := hholds b o p ho
    · exact hread b i (h.passed b o p hold i hi hi')
    · exact hpassed i hi hi'
  · obtain hold | ⟨hle, -, -⟩ := hholds b o p ho
    · exact (h.claimed b o p hold).trans hpopped
    · exact hle

/-! ## What a step does to the bits -/

/-- `WRITE` is not taken back from a slot that a pop has claimed. -/
def WriteKept (s t : State α) : Prop :=
  ∀ b i, 31 * b + i < s.popped → (s.slot b i).write = true → (t.slot b i).write = true

structure SameBits (s t : State α) : Prop where
  write : WriteKept s t
  read : ∀ b i, (t.slot b i).read = (s.slot b i).read
  waits : ∀ b i, t.waits b i = s.waits b i
  freed : ∀ b, (t.queue.blocks b).freed = (s.queue.blocks b).freed

theorem SameBits.of_blocks (h : t.queue.blocks = s.queue.blocks) : SameBits s t := by
  have hslot (b i : Nat) : t.slot b i = s.slot b i := by rw [State.slot, h, State.slot]
  exact ⟨fun b i _ hw => (hslot b i).symm ▸ hw, fun b i => by rw [hslot],
    fun b i => by rw [State.waits, hslot, State.waits], fun b => by rw [h]⟩

/-- A write to a slot that leaves `READ` and `DESTROY` alone. -/
theorem SameBits.setSlot {b i : Nat} {slot : Slot α}
    (h : t.queue.blocks = (s.setSlot b i slot).queue.blocks)
    (hwrite : (s.slot b i).write = true → slot.write = true)
    (hread : slot.read = (s.slot b i).read) (hdestroy : slot.destroy = (s.slot b i).destroy) :
    SameBits s t := by
  have hslot (n k : Nat) : ((s.slot n k).write = true → (t.slot n k).write = true) ∧
      (t.slot n k).read = (s.slot n k).read ∧ (t.slot n k).destroy = (s.slot n k).destroy := by
    have heq : t.slot n k = (s.setSlot b i slot).slot n k := by rw [State.slot, h, State.slot]
    rw [heq, slot_setSlot]
    split
    · rename_i hnk
      obtain ⟨rfl, rfl⟩ := hnk
      exact ⟨hwrite, hread, hdestroy⟩
    · exact ⟨id, rfl, rfl⟩
  refine ⟨fun n k _ => (hslot n k).1, fun n k => (hslot n k).2.1, fun n k => ?_, fun n => ?_⟩
  · rw [State.waits, State.waits, (hslot n k).2.1, (hslot n k).2.2]
  · rw [h, freed_setSlot]

theorem SameBits.setNext {b : Nat} {next : Option Nat}
    (h : t.queue.blocks = (s.setBlock b { s.queue.blocks b with next := next }).queue.blocks) :
    SameBits s t := by
  have hslot (n k : Nat) : t.slot n k = s.slot n k := by
    rw [State.slot, h]
    exact slot_setBlock_same rfl
  refine ⟨fun n k _ hw => (hslot n k).symm ▸ hw, fun n k => by rw [hslot],
    fun n k => by rw [State.waits, hslot, State.waits], fun n => ?_⟩
  rw [h, block_setBlock]
  split
  · rename_i hn
    rw [hn]
  · rfl

/-- A new block is for tickets that no pop has claimed. -/
theorem SameBits.publish (htk : Tickets s) (howed : Owed s)
    (hle : s.popped ≤ 31 * s.queue.published)
    (h : t.queue.blocks = s.publish.queue.blocks) : SameBits s t := by
  have hslot (b i : Nat) : t.slot b i = s.publish.slot b i := by rw [State.slot, h, State.slot]
  have hread (i : Nat) : (s.slot s.queue.published i).read = false := by
    refine Bool.eq_false_iff.mpr fun hr => ?_
    have := (htk.marked _ _ hr).2
    omega
  have hdestroy (i : Nat) : (s.slot s.queue.published i).destroy = false := by
    refine Bool.eq_false_iff.mpr fun hd => ?_
    have := howed.destroy _ _ hd
    omega
  have hfreed : (s.queue.blocks s.queue.published).freed = false := by
    refine Bool.eq_false_iff.mpr fun hf => ?_
    have := howed.freed _ hf
    omega
  refine ⟨fun b i hlt hw => ?_, fun b i => ?_, fun b i => ?_, fun b => ?_⟩
  · rw [hslot, slot_publish, if_neg (by omega)]
    exact hw
  · rw [hslot, slot_publish]
    split
    · rename_i hb
      rw [hb, hread]
    · rfl
  · rw [State.waits, hslot, slot_publish, State.waits]
    split
    · rename_i hb
      rw [hb, hread, hdestroy]
    · rfl
  · rw [h]
    by_cases hb : b = s.queue.published
    · subst hb
      simp [State.publish, Block.new, hfreed]
    · simp [State.publish, hb]

/-- `DESTROY` is set after `READ`: nobody waits. -/
theorem SameBits.setDestroy {b i : Nat}
    (h : t.queue.blocks = (s.setSlot b i { s.slot b i with destroy := true }).queue.blocks)
    (hread : (s.slot b i).read = true) : SameBits s t := by
  have hslot (n k : Nat) : t.slot n k =
      if n = b ∧ k = i then { s.slot b i with destroy := true } else s.slot n k := by
    rw [State.slot, h]
    exact slot_setSlot
  refine ⟨fun n k _ hw => ?_, fun n k => ?_, fun n k => ?_, fun n => by rw [h, freed_setSlot]⟩
  · rw [hslot]
    split
    · rename_i hnk
      exact hnk.1 ▸ hnk.2 ▸ hw
    · exact hw
  · rw [hslot]
    split
    · rename_i hnk
      rw [hnk.1, hnk.2]
    · rfl
  · rw [State.waits, State.waits, hslot]
    split
    · rename_i hnk
      simp [hnk.1, hnk.2, hread]
    · rfl

/-- What a step of a call, which goes on at `pc`, does to the bits and the duties. -/
inductive BlockStep (s t : State α) (id : Nat) (pc : Pc α) : Prop
  /-- Nothing. -/
  | quiet (hplain : (s.calls id).plain) (hpopped : t.popped = s.popped) (hbits : SameBits s t)
      (hview : pc.view = (s.calls id).view)
  /-- A pop claims a slot; the pop of the last slot is to free the block. -/
  | claim (hplain : (s.calls id).plain) (hpopped : t.popped = s.popped + 1)
      (hbits : SameBits s t) (hold : (s.calls id).view = (none, none, none))
      (hview : pc.view = (some s.popped,
        if s.popped % 31 = 30 then some (s.popped / 31, 0) else none, none))
  /-- The pop of the last slot reads its value. -/
  | last (n b : Nat) (huse : (s.calls id).use = some (.read b 30)) (hpopped : t.popped = s.popped)
      (hbits : SameBits s t) (hold : (s.calls id).view = (some n, some (b, 0), none))
      (hview : pc.view = (none, some (b, 0), none))
  /-- Another pop reads its value. -/
  | take (n : Nat) (huse : (s.calls id).use = some (.read (n / 31) (n % 31)))
      (hpopped : t.popped = s.popped) (hbits : SameBits s t)
      (hold : (s.calls id).view = (some n, none, none)) (hview : pc.view = (some n, none, some n))
  /-- It marks its slot, and takes the duty if it finds `DESTROY`. -/
  | mark (n : Nat) (hplain : (s.calls id).plain) (hn : n % 31 < 30) (hpopped : t.popped = s.popped)
      (hold : (s.calls id).view = (some n, none, some n))
      (hview : pc.view = (none,
        if s.waits (n / 31) (n % 31) then some (n / 31, n % 31 + 1) else none, none))
      (hwrite : WriteKept s t)
      (hread : ∀ b i, (t.slot b i).read =
        if b = n / 31 ∧ i = n % 31 then true else (s.slot b i).read)
      (hwaits : ∀ b i, t.waits b i = if b = n / 31 ∧ i = n % 31 then false else s.waits b i)
      (hfreed : ∀ b, (t.queue.blocks b).freed = (s.queue.blocks b).freed)
  /-- The slot was read: on to the next one. -/
  | pass (b i : Nat) (hplain : (s.calls id).plain) (hpopped : t.popped = s.popped)
      (hbits : SameBits s t) (hold : (s.calls id).view = (none, some (b, i), none))
      (hslot : (s.slot b i).read = true) (hview : pc.view = (none, some (b, i + 1), none))
  /-- The slot was not read: the duty goes to its pop. -/
  | hand (b i : Nat) (hplain : (s.calls id).plain) (hpopped : t.popped = s.popped)
      (hold : (s.calls id).view = (none, some (b, i), none)) (hview : pc.view = (none, none, none))
      (hwrite : WriteKept s t)
      (hread : ∀ b i, (t.slot b i).read = (s.slot b i).read)
      (hwaits : ∀ n k, t.waits n k = if n = b ∧ k = i then true else s.waits n k)
      (hfreed : ∀ b, (t.queue.blocks b).freed = (s.queue.blocks b).freed)
  /-- All slots were read: the block is freed. -/
  | free (b i : Nat) (huse : (s.calls id).use = some (.free b)) (hi : 30 ≤ i)
      (hpopped : t.popped = s.popped) (hold : (s.calls id).view = (none, some (b, i), none))
      (hview : pc.view = (none, none, none))
      (hwrite : WriteKept s t)
      (hread : ∀ b i, (t.slot b i).read = (s.slot b i).read)
      (hwaits : ∀ b i, t.waits b i = s.waits b i)
      (hfreed : ∀ n, (t.queue.blocks n).freed =
        if n = b then true else (s.queue.blocks n).freed)

theorem view_eq {v : Option Nat × Option (Nat × Nat) × Option Nat} :
    pc.view = v ↔ pc.pops = v.1 ∧ pc.frees = v.2.1 ∧ pc.marks = v.2.2 := by
  simp [Pc.view, Prod.ext_iff]

theorem pops_update (hcalls : t.calls = Function.update s.calls id pc) (j : Nat) :
    (t.calls j).pops = if j = id then pc.pops else (s.calls j).pops := by
  rw [hcalls, Function.update_apply]
  split <;> rfl

/-- A call has no ticket that it did not have before, and no mark is new. -/
theorem Tickets.step (h : Tickets s) (hcalls : t.calls = Function.update s.calls id pc)
    (hpopped : t.popped = s.popped) (hpops : ∀ n, pc.pops = some n → (s.calls id).pops = some n)
    (hread : ∀ b i, (t.slot b i).read = (s.slot b i).read) : Tickets t := by
  have hold (j n : Nat) (hj : (t.calls j).pops = some n) : (s.calls j).pops = some n := by
    rw [pops_update hcalls] at hj
    split at hj
    · rename_i hji
      exact hji ▸ hpops n hj
    · exact hj
  refine ⟨fun i j n hi hj => h.unique i j n (hold i n hi) (hold j n hj), fun i n hi => ?_,
    fun i n hi hn => ?_, fun b i hb => ?_⟩
  · rw [hpopped]
    exact h.claimed i n (hold i n hi)
  · rw [hread]
    exact h.unread i n (hold i n hi) hn
  · rw [hread] at hb
    rw [hpopped]
    exact h.marked b i hb

theorem BlockStep.tickets (h : Tickets s) (hcalls : t.calls = Function.update s.calls id pc)
    (hstep : BlockStep s t id pc) : Tickets t := by
  have hat := pops_update hcalls
  cases hstep with
  | quiet hplain hpopped hbits hview =>
    exact h.step hcalls hpopped (fun n hn => (view_eq.mp hview).1.symm.trans hn) hbits.read
  | last n b huse hpopped hbits hold hview =>
    exact h.step hcalls hpopped (fun n hn => nomatch (view_eq.mp hview).1.symm.trans hn) hbits.read
  | take n huse hpopped hbits hold hview =>
    refine h.step hcalls hpopped (fun m hm => ?_) hbits.read
    exact (view_eq.mp hold).1.trans ((view_eq.mp hview).1.symm.trans hm)
  | pass b i hplain hpopped hbits hold hslot hview =>
    exact h.step hcalls hpopped (fun n hn => nomatch (view_eq.mp hview).1.symm.trans hn) hbits.read
  | hand b i hplain hpopped hold hview hwrite hread hwaits hfreed =>
    exact h.step hcalls hpopped (fun n hn => nomatch (view_eq.mp hview).1.symm.trans hn) hread
  | free b i huse hi hpopped hold hview hwrite hread hwaits hfreed =>
    exact h.step hcalls hpopped (fun n hn => nomatch (view_eq.mp hview).1.symm.trans hn) hread
  | claim hplain hpopped hbits hold hview =>
    obtain ⟨hpops, -⟩ := view_eq.mp hview
    -- every other ticket is below the new one
    have hcase (j n : Nat) (hj : (t.calls j).pops = some n) :
        j = id ∧ n = s.popped ∨ j ≠ id ∧ (s.calls j).pops = some n := by
      rw [hat] at hj
      split at hj
      · rename_i hji
        exact .inl ⟨hji, Option.some.inj (hj.symm.trans hpops)⟩
      · rename_i hji
        exact .inr ⟨hji, hj⟩
    refine ⟨fun i j n hi hj => ?_, fun i n hi => ?_, fun i n hi hn => ?_, fun b i hb => ?_⟩
    · obtain ⟨rfl, rfl⟩ | ⟨-, hi'⟩ := hcase i n hi
      · obtain ⟨rfl, -⟩ | ⟨-, hj'⟩ := hcase j _ hj
        · rfl
        · exact absurd (h.claimed j _ hj') (Nat.lt_irrefl _)
      · obtain ⟨-, rfl⟩ | ⟨-, hj'⟩ := hcase j n hj
        · exact absurd (h.claimed i _ hi') (Nat.lt_irrefl _)
        · exact h.unique i j n hi' hj'
    · rw [hpopped]
      obtain ⟨-, rfl⟩ | ⟨-, hi'⟩ := hcase i n hi
      · exact Nat.lt_succ_self _
      · exact Nat.lt_succ_of_lt (h.claimed i n hi')
    · rw [hbits.read]
      obtain ⟨-, rfl⟩ | ⟨-, hi'⟩ := hcase i n hi
      · refine Bool.eq_false_iff.mpr fun hr => ?_
        have := (h.marked _ _ hr).2
        omega
      · exact h.unread i n hi' hn
    · rw [hbits.read] at hb
      obtain ⟨hi, hlt⟩ := h.marked b i hb
      exact ⟨hi, by omega⟩
  | mark n hplain hn hpopped hold hview hwrite hread hwaits hfreed =>
    obtain ⟨hold, -⟩ := view_eq.mp hold
    obtain ⟨hpops, -⟩ := view_eq.mp hview
    have hother (j m : Nat) (hj : (t.calls j).pops = some m) :
        j ≠ id ∧ (s.calls j).pops = some m := by
      rw [hat] at hj
      split at hj
      · exact nomatch hpops.symm.trans hj
      · rename_i hji
        exact ⟨hji, hj⟩
    refine ⟨fun i j m hi hj => h.unique i j m (hother i m hi).2 (hother j m hj).2,
      fun i m hi => ?_, fun i m hi hm => ?_, fun b i hb => ?_⟩
    · rw [hpopped]
      exact h.claimed i m (hother i m hi).2
    · obtain ⟨hne, hi'⟩ := hother i m hi
      rw [hread, if_neg]
      · exact h.unread i m hi' hm
      · rintro ⟨hdiv, hmod⟩
        obtain rfl : m = n := by omega
        exact hne (h.unique i id m hi' hold)
    · rw [hpopped]
      rw [hread] at hb
      split at hb
      · rename_i hbi
        have := h.claimed id n hold
        omega
      · exact h.marked b i hb

/-- Who has a duty after a step that opens no slot and frees no block. -/
theorem holds_cases (hcalls : t.calls = Function.update s.calls id pc)
    (hwaits : ∀ b i, t.waits b i = true → s.waits b i = true)
    (hfreed : ∀ b, (t.queue.blocks b).freed = true → (s.queue.blocks b).freed = true)
    {b p : Nat} {o : Owner} (h : Holds t b o p) :
    o ≠ .call id ∧ Holds s b o p ∨ o = .call id ∧ pc.frees = some (b, p) := by
  cases o with
  | call j =>
    simp only [Holds, hcalls, Function.update_apply] at h
    split at h
    · rename_i hj
      exact .inr ⟨by rw [hj], h⟩
    · rename_i hj
      exact .inl ⟨by simpa using hj, h⟩
  | slot i => exact .inl ⟨nofun, hwaits b i h.1, h.2⟩
  | gone => exact .inl ⟨nofun, hfreed b h.1, h.2⟩

theorem holds_call_none (hcalls : t.calls = Function.update s.calls id pc)
    (hfrees : pc.frees = none) {b j p : Nat} (h : Holds t b (.call j) p) :
    Owner.call j ≠ .call id ∧ Holds s b (.call j) p := by
  simp only [Holds, hcalls, Function.update_apply] at h
  split at h
  · exact nomatch hfrees.symm.trans h
  · rename_i hj
    exact ⟨by simpa using hj, h⟩

/-- The duty for the block is handed to a slot. -/
theorem holds_hand {b i : Nat} (hcalls : t.calls = Function.update s.calls id pc)
    (hfrees : pc.frees = none)
    (hwaits : ∀ n k, t.waits n k = if n = b ∧ k = i then true else s.waits n k)
    (hfreed : ∀ n, (t.queue.blocks n).freed = (s.queue.blocks n).freed) {n p : Nat} {o : Owner}
    (ho : Holds t n o p) : o ≠ .call id ∧ Holds s n o p ∨ n = b ∧ o = .slot i ∧ p = i := by
  cases o with
  | call j => exact .inl (holds_call_none hcalls hfrees ho)
  | slot k =>
    obtain ⟨hw, rfl⟩ := ho
    rw [hwaits] at hw
    split at hw
    · rename_i hbi
      obtain ⟨rfl, rfl⟩ := hbi
      exact .inr ⟨rfl, rfl, rfl⟩
    · exact .inl ⟨nofun, hw, rfl⟩
  | gone => exact .inl ⟨nofun, hfreed n ▸ ho.1, ho.2⟩

theorem holds_free {b : Nat} (hcalls : t.calls = Function.update s.calls id pc)
    (hfrees : pc.frees = none) (hwaits : ∀ n k, t.waits n k = s.waits n k)
    (hfreed : ∀ n, (t.queue.blocks n).freed = if n = b then true else (s.queue.blocks n).freed)
    {n p : Nat} {o : Owner} (ho : Holds t n o p) :
    o ≠ .call id ∧ Holds s n o p ∨ n = b ∧ o = .gone ∧ p = 30 := by
  cases o with
  | call j => exact .inl (holds_call_none hcalls hfrees ho)
  | slot k => exact .inl ⟨nofun, hwaits n k ▸ ho.1, ho.2⟩
  | gone =>
    obtain ⟨hf, rfl⟩ := ho
    rw [hfreed] at hf
    split at hf
    · rename_i hnb
      exact .inr ⟨hnb, rfl, rfl⟩
    · exact .inl ⟨nofun, hf, rfl⟩

/-- The duty of a call stays with it, or there was none and is none. -/
theorem Duties.keep (h : Duties s) (hcalls : t.calls = Function.update s.calls id pc)
    (hpopped : t.popped = s.popped) (hbits : SameBits s t)
    (hfrees : pc.frees = (s.calls id).frees) : Duties t := by
  refine h.step hpopped.ge (fun b i hr => (hbits.read b i).trans hr) fun b o p ho => .inl ?_
  obtain ⟨-, hold⟩ | ⟨rfl, hnew⟩ := holds_cases hcalls (fun b i hw => hbits.waits b i ▸ hw)
    (fun b hf => hbits.freed b ▸ hf) ho
  · exact hold
  · exact hfrees.symm.trans hnew

theorem BlockStep.duties (h : Duties s) (hcalls : t.calls = Function.update s.calls id pc)
    (hstep : BlockStep s t id pc) : Duties t := by
  cases hstep with
  | quiet hplain hpopped hbits hview =>
    exact h.keep hcalls hpopped hbits (view_eq.mp hview).2.1
  | last n b huse hpopped hbits hold hview =>
    exact h.keep hcalls hpopped hbits ((view_eq.mp hview).2.1.trans (view_eq.mp hold).2.1.symm)
  | take n huse hpopped hbits hold hview =>
    exact h.keep hcalls hpopped hbits ((view_eq.mp hview).2.1.trans (view_eq.mp hold).2.1.symm)
  | claim hplain hpopped hbits hold hview =>
    obtain ⟨-, hfrees, -⟩ := view_eq.mp hview
    have hcase {b p : Nat} {o : Owner} (ho : Holds t b o p) := holds_cases hcalls
      (fun b i hw => hbits.waits b i ▸ hw) (fun b hf => hbits.freed b ▸ hf) ho
    refine h.step (by omega) (fun b i hr => (hbits.read b i).trans hr) fun b o p ho => ?_
    obtain ⟨-, hold⟩ | ⟨rfl, hnew⟩ := hcase ho
    · exact .inl hold
    · rw [hfrees] at hnew
      split at hnew
      · rename_i hlast
        cases hnew
        refine .inr ⟨by omega, fun i hi => absurd hi (Nat.not_lt_zero _), fun o' p' ho' => ?_⟩
        -- nobody had the duty before the last slot was claimed
        obtain ⟨-, hold'⟩ | ⟨rfl, -⟩ := hcase ho'
        · have := h.claimed _ _ _ hold'
          omega
        · rfl
      · cases hnew
  | mark n hplain hn hpopped hold hview hwrite hread hwaits hfreed =>
    obtain ⟨-, hfrees, -⟩ := view_eq.mp hview
    have hcase {b p : Nat} {o : Owner} (ho : Holds t b o p) := holds_cases hcalls
      (fun b i hw => by
        rw [hwaits] at hw
        split at hw
        · cases hw
        · exact hw) (fun b hf => hfreed b ▸ hf) ho
    refine h.step hpopped.ge (fun b i hr => by rw [hread, hr, ite_self]) fun b o p ho => ?_
    obtain ⟨-, hold'⟩ | ⟨rfl, hnew⟩ := hcase ho
    · exact .inl hold'
    · rw [hfrees] at hnew
      split at hnew
      · rename_i hw
        cases hnew
        -- the slot had the duty, and has passed it on to its pop
        have hslot : Holds s (n / 31) (.slot (n % 31)) (n % 31) := ⟨hw, rfl⟩
        refine .inr ⟨hpopped ▸ h.claimed _ _ _ hslot, fun i hi hi' => ?_, fun o' p' ho' => ?_⟩
        · rw [hread]
          split
          · rfl
          · rename_i hne
            exact h.passed _ _ _ hslot i (by omega) hi'
        · obtain ⟨-, hold'⟩ | ⟨rfl, -⟩ := hcase ho'
          · obtain rfl := h.unique _ _ _ _ _ hslot hold'
            have hgone := ho'.1
            rw [hwaits, if_pos ⟨rfl, rfl⟩] at hgone
            cases hgone
          · rfl
      · cases hnew
  | pass b i hplain hpopped hbits hold hslot hview =>
    obtain ⟨-, hold, -⟩ := view_eq.mp hold
    obtain ⟨-, hfrees, -⟩ := view_eq.mp hview
    have hcase {b p : Nat} {o : Owner} (ho : Holds t b o p) := holds_cases hcalls
      (fun b i hw => hbits.waits b i ▸ hw) (fun b hf => hbits.freed b ▸ hf) ho
    have hcall : Holds s b (.call id) i := hold
    refine h.step hpopped.ge (fun b i hr => (hbits.read b i).trans hr) fun b o p ho => ?_
    obtain ⟨-, hold'⟩ | ⟨rfl, hnew⟩ := hcase ho
    · exact .inl hold'
    · rw [hfrees] at hnew
      cases hnew
      refine .inr ⟨hpopped ▸ h.claimed _ _ _ hcall, fun j hj hj' => ?_, fun o' p' ho' => ?_⟩
      · rw [hbits.read]
        rcases Nat.lt_succ_iff_lt_or_eq.mp hj with hlt | rfl
        · exact h.passed _ _ _ hcall j hlt hj'
        · exact hslot
      · obtain ⟨hne, hold'⟩ | ⟨rfl, -⟩ := hcase ho'
        · exact h.unique _ _ _ _ _ hold' hcall
        · rfl
  | hand b i hplain hpopped hold hview hwrite hread hwaits hfreed =>
    obtain ⟨-, hold, -⟩ := view_eq.mp hold
    obtain ⟨-, hfrees, -⟩ := view_eq.mp hview
    have hcall : Holds s b (.call id) i := hold
    have hcase {n p : Nat} {o : Owner} (ho : Holds t n o p) :=
      holds_hand hcalls hfrees hwaits hfreed ho
    refine h.step hpopped.ge (fun b i hr => (hread b i).trans hr) fun n o p ho => ?_
    obtain ⟨-, hold'⟩ | ⟨rfl, rfl, rfl⟩ := hcase ho
    · exact .inl hold'
    · refine .inr ⟨hpopped ▸ h.claimed _ _ _ hcall, fun j hj hj' => ?_, fun o' p' ho' => ?_⟩
      · rw [hread]
        exact h.passed _ _ _ hcall j hj hj'
      · obtain ⟨hne, hold'⟩ | ⟨-, rfl, -⟩ := hcase ho'
        · exact absurd (h.unique _ _ _ _ _ hold' hcall) hne
        · rfl
  | free b i huse hi hpopped hold hview hwrite hread hwaits hfreed =>
    obtain ⟨-, hold, -⟩ := view_eq.mp hold
    obtain ⟨-, hfrees, -⟩ := view_eq.mp hview
    have hcall : Holds s b (.call id) i := hold
    have hcase {n p : Nat} {o : Owner} (ho : Holds t n o p) :=
      holds_free hcalls hfrees hwaits hfreed ho
    refine h.step hpopped.ge (fun b i hr => (hread b i).trans hr) fun n o p ho => ?_
    obtain ⟨-, hold'⟩ | ⟨rfl, rfl, rfl⟩ := hcase ho
    · exact .inl hold'
    · refine .inr ⟨hpopped ▸ h.claimed _ _ _ hcall, fun j hj hj' => ?_, fun o' p' ho' => ?_⟩
      · rw [hread]
        exact h.passed _ _ _ hcall j (by omega) hj'
      · obtain ⟨hne, hold'⟩ | ⟨-, rfl, -⟩ := hcase ho'
        · exact absurd (h.unique _ _ _ _ _ hold' hcall) hne
        · rfl

/-! ## The steps of a call -/

variable {g : Ghost α} {pc' : Pc α}

theorem plain_of_none (h : pc.use = none) : pc.plain := by
  intro u hu
  rw [h] at hu
  cases hu

theorem plain_of_touch {b : Nat} (h : pc.use = some (.touch b)) : pc.plain := by
  intro u hu
  rw [h] at hu
  cases hu
  exact ⟨b, rfl⟩

def Moves (s t : State α) (id : Nat) : Prop :=
  ∃ pc, t.calls = Function.update s.calls id pc ∧ BlockStep s t id pc

/-- A step that changes neither the bits nor what the call has to do with blocks. -/
theorem Moves.quiet (hpc : s.calls id = pc) (hplain : pc.plain)
    (hcalls : t.calls = Function.update s.calls id pc') (hpopped : t.popped = s.popped)
    (hbits : SameBits s t) (hview : pc'.view = pc.view) : Moves s t id :=
  ⟨pc', hcalls, .quiet (hpc ▸ hplain) hpopped hbits (hpc ▸ hview)⟩

theorem Moves.self (hplain : (s.calls id).plain) : Moves s s id :=
  .quiet rfl hplain (Function.update_eq_self _ _).symm rfl (.of_blocks rfl) rfl

theorem moves_pushLoop {v : α} {next : Bool} {tail : Nat} {block : Option Nat}
    (hpc : s.calls id = pc) (hplain : pc.plain) (hview : pc.view = (none, none, none)) :
    Moves s (pushLoop s id v next tail block) id := by
  unfold Unbounded.pushLoop
  split_ifs
  · exact .quiet hpc hplain rfl rfl (.of_blocks rfl) hview.symm
  · exact .quiet hpc hplain rfl rfl (.of_blocks rfl) hview.symm
  · cases block with
    | none => exact .quiet hpc hplain rfl rfl (.of_blocks rfl) hview.symm
    | some b => exact .quiet hpc hplain rfl rfl (.of_blocks rfl) hview.symm

theorem moves_popLoop {head : Nat} {block : Option Nat} (hpc : s.calls id = pc)
    (hplain : pc.plain) (hview : pc.view = (none, none, none)) :
    Moves s (popLoop s id head block) id := by
  unfold Unbounded.popLoop
  split_ifs
  · exact .quiet hpc hplain rfl rfl (.of_blocks rfl) hview.symm
  · cases block with
    | none => exact .quiet hpc hplain rfl rfl (.of_blocks rfl) hview.symm
    | some b => exact .quiet hpc hplain rfl rfl (.of_blocks rfl) hview.symm
  · exact .quiet hpc hplain rfl rfl (.of_blocks rfl) hview.symm

theorem moves_popCheck {head tail : Nat} {block : Option Nat} (hpc : s.calls id = pc)
    (hplain : pc.plain) (hview : pc.view = (none, none, none)) :
    Moves s (popCheck s id head tail block) id := by
  unfold Unbounded.popCheck
  split
  · exact .quiet hpc hplain rfl rfl (.of_blocks rfl) hview.symm
  · cases block with
    | none => exact .quiet hpc hplain rfl rfl (.of_blocks rfl) hview.symm
    | some b => exact .quiet hpc hplain rfl rfl (.of_blocks rfl) hview.symm

theorem moves_popCas {head newHead block : Nat} {weak : Bool} (hinv : Inv s g)
    (hpc : s.calls id = .popCas head newHead block) (hoff : head / 2 % 32 < 31)
    (hblock : s.queue.head.index / 2 = head / 2 → block = head / 2 / 32) :
    Moves s (if weak = false ∧ s.queue.head.index = head then
      { s.setHead { s.queue.head with index := newHead } with popped := s.popped + 1 }.goto id <|
        if offset head + 1 = blockCap then .popNext head newHead block else .popWait head block
      else s.goto id (.popBlock s.queue.head.index)) id := by
  split
  · rename_i hcas
    obtain ⟨-, hpopped⟩ := hinv.head_ticket (by rw [hcas.2]; exact hoff)
    rw [hcas.2] at hpopped
    refine ⟨_, rfl, .claim (hpc ▸ plain_of_none rfl) rfl (.of_blocks rfl) (by rw [hpc]; rfl) ?_⟩
    rw [hpopped, ticket_div hoff, ticket_mod hoff, ← hblock (by rw [hcas.2])]
    simp only [offset_eq, blockCap_eq, Nat.reduceEqDiff]
    split
    · rfl
    · rename_i hend
      simp [Pc.view, Pc.pops, Pc.frees, Pc.marks, hend]
  · exact .quiet hpc (plain_of_none rfl) rfl rfl (.of_blocks rfl) rfl

theorem moves_popRead {head : Nat} (hpc : s.calls id = .popRead head (head / 2 / 32))
    (hoff : head / 2 % 32 < 31) :
    Moves s ((s.setSlot (head / 2 / 32) (offset head)
      { s.slot (head / 2 / 32) (offset head) with value := none }).goto id <|
        if offset head + 1 = blockCap then
          .destroyLoad (head / 2 / 32) 0 (s.slot (head / 2 / 32) (offset head)).value
        else .popSet head (head / 2 / 32) (s.slot (head / 2 / 32) (offset head)).value) id := by
  have huse : (s.calls id).use = some (.read (head / 2 / 32) (head / 2 % 32)) := by
    rw [hpc, ← offset_eq]
    rfl
  split
  · rename_i hend
    rw [offset_eq, blockCap_eq] at hend
    have hlast : head / 2 % 32 = 30 := by omega
    refine ⟨_, rfl, .last (ticket head) (head / 2 / 32) (hlast ▸ huse) rfl
      (.setSlot rfl (fun hw => hw) rfl rfl) ?_ rfl⟩
    simp [hpc, Pc.view, Pc.pops, Pc.frees, Pc.marks, hlast]
  · rename_i hend
    refine ⟨_, rfl, .take (ticket head) ?_ rfl (.setSlot rfl (fun hw => hw) rfl rfl) ?_ rfl⟩
    · rw [huse, ticket_div hoff, ticket_mod hoff]
    · rw [offset_eq, blockCap_eq] at hend
      simp [hpc, Pc.view, Pc.pops, Pc.frees, Pc.marks, hend]

theorem moves_popSet {head : Nat} {v : Option α} (htk : Tickets s)
    (hpc : s.calls id = .popSet head (head / 2 / 32) v) (hoff : head / 2 % 32 < 30) :
    Moves s (if (s.slot (head / 2 / 32) (offset head)).destroy then
      (s.setSlot (head / 2 / 32) (offset head)
        { s.slot (head / 2 / 32) (offset head) with read := true }).goto id
          (.destroyLoad (head / 2 / 32) (offset head + 1) v)
      else (s.setSlot (head / 2 / 32) (offset head)
        { s.slot (head / 2 / 32) (offset head) with read := true }).ret id (.popped v)) id := by
  have hdiv : ticket head / 31 = head / 2 / 32 := ticket_div (by omega)
  have hmod : ticket head % 31 = head / 2 % 32 := ticket_mod (by omega)
  have hunread := htk.unread id (ticket head) (by rw [hpc]; rfl) (by omega)
  rw [hdiv, hmod] at hunread
  have hmark {t : State α} {pc : Pc α} (hpopped : t.popped = s.popped)
      (h : t.queue.blocks = (s.setSlot (head / 2 / 32) (head / 2 % 32)
        { s.slot (head / 2 / 32) (head / 2 % 32) with read := true }).queue.blocks)
      (hview : pc.view = (none, if (s.slot (head / 2 / 32) (head / 2 % 32)).destroy then
        some (head / 2 / 32, head / 2 % 32 + 1) else none, none)) : BlockStep s t id pc := by
    have hslot (n k : Nat) : t.slot n k = if n = head / 2 / 32 ∧ k = head / 2 % 32 then
        { s.slot (head / 2 / 32) (head / 2 % 32) with read := true } else s.slot n k := by
      rw [State.slot, h]
      exact slot_setSlot
    refine .mark (ticket head) (hpc ▸ plain_of_touch rfl) (by omega) hpopped (by rw [hpc]; rfl)
      ?_ (fun n k _ hw => ?_) ?_ ?_ fun n => by rw [h, freed_setSlot]
    · rw [hview, hdiv, hmod, State.waits, hunread, Bool.not_false, Bool.and_true]
    · rw [hslot]
      split
      · rename_i hnk
        exact hnk.1 ▸ hnk.2 ▸ hw
      · exact hw
    · intro n k
      rw [hdiv, hmod, hslot]
      split <;> rfl
    · intro n k
      rw [hdiv, hmod, State.waits, hslot]
      split
      · exact Bool.and_false _
      · rfl
  simp only [offset_eq]
  split
  · rename_i hd
    exact ⟨_, rfl, hmark rfl rfl (by rw [if_pos hd]; rfl)⟩
  · rename_i hd
    exact ⟨_, rfl, hmark rfl rfl (by rw [if_neg hd]; rfl)⟩

theorem moves_destroyLoad {block i : Nat} {v : Option α}
    (hpc : s.calls id = .destroyLoad block i v) :
    Moves s (if i < blockCap - 1 then
      s.goto id (if (s.slot block i).read then .destroyLoad block (i + 1) v
        else .destroyOr block i v)
      else (s.setBlock block { s.queue.blocks block with freed := true }).ret id (.popped v))
      id := by
  split
  · rename_i hi
    have hplain : (Pc.destroyLoad block i v).plain :=
      plain_of_touch (congrArg some (if_pos hi))
    split
    · rename_i hread
      exact ⟨_, rfl, .pass block i (hpc ▸ hplain) rfl (.of_blocks rfl) (by rw [hpc]; rfl) hread rfl⟩
    · exact .quiet hpc hplain rfl rfl (.of_blocks rfl) rfl
  · rename_i hi
    have huse : (Pc.destroyLoad block i v).use = some (.free block) := congrArg some (if_neg hi)
    rw [blockCap_eq] at hi
    have hslot (n k : Nat) : (s.setBlock block
        { s.queue.blocks block with freed := true }).slot n k = s.slot n k :=
      slot_setBlock_same rfl
    refine ⟨_, rfl, .free block i (hpc ▸ huse) (by omega) rfl (by rw [hpc]; rfl) rfl
      (fun n k _ hw => (congrArg Slot.write (hslot n k)).trans hw)
      (fun n k => congrArg Slot.read (hslot n k)) (fun n k => ?_) fun n => ?_⟩
    · exact congrArg (fun slot : Slot α => slot.destroy && !slot.read) (hslot n k)
    · refine (congrArg Block.freed block_setBlock).trans ?_
      split <;> rfl

theorem moves_destroyOr {block i : Nat} {v : Option α} (hpc : s.calls id = .destroyOr block i v) :
    Moves s (if (s.slot block i).read then
      (s.setSlot block i { s.slot block i with destroy := true }).goto id
        (.destroyLoad block (i + 1) v)
      else (s.setSlot block i { s.slot block i with destroy := true }).ret id (.popped v)) id := by
  have hplain : (s.calls id).plain := hpc ▸ plain_of_touch rfl
  split
  · rename_i hread
    exact ⟨_, rfl, .pass block i hplain rfl (.setDestroy rfl hread) (by rw [hpc]; rfl) hread rfl⟩
  · rename_i hread
    have hslot (n k : Nat) : (s.setSlot block i
        { s.slot block i with destroy := true }).slot n k =
        if n = block ∧ k = i then { s.slot block i with destroy := true } else s.slot n k :=
      slot_setSlot
    refine ⟨_, rfl, .hand block i hplain rfl (by rw [hpc]; rfl) rfl
      (fun n k _ hw => (congrArg Slot.write (hslot n k)).trans ?_) (fun n k => ?_) (fun n k => ?_)
      fun n => freed_setSlot⟩
    · split
      · rename_i hnk
        exact hnk.1 ▸ hnk.2 ▸ hw
      · exact hw
    · refine (congrArg Slot.read (hslot n k)).trans ?_
      split
      · rename_i hnk
        rw [hnk.1, hnk.2]
      · rfl
    · refine (congrArg (fun slot : Slot α => slot.destroy && !slot.read) (hslot n k)).trans ?_
      split
      · simp [hread]
      · rfl

theorem exec_moves {weak : Bool} (hinv : Inv s g) (howed : Owed s) (htk : Tickets s)
    (ht : exec s id weak = some t) : Moves s t id := by
  have hcall := hinv.calls id
  have hshape := howed.calls id
  have hordered := hinv.ordered
  cases hpc : s.calls id <;> simp only [exec, hpc, reduceCtorEq, Option.some.injEq] at ht <;>
    rw [hpc] at hcall hshape
  case pushIndex v next =>
    subst ht
    exact .quiet hpc (plain_of_none rfl) rfl rfl (.of_blocks rfl) rfl
  case pushBlock v next tail =>
    subst ht
    exact moves_pushLoop hpc (plain_of_none rfl) rfl
  case pushInstall v next tail =>
    subst ht
    cases hb : s.queue.tail.block with
    | none =>
      obtain ⟨-, hlen⟩ := hinv.uninstalled hb
      exact .quiet hpc (plain_of_none rfl) rfl rfl (.publish htk howed (by omega) rfl) rfl
    | some b => exact .quiet hpc (plain_of_none rfl) rfl rfl (.of_blocks rfl) rfl
  case pushHead v next tail block =>
    subst ht
    exact .quiet hpc (plain_of_none rfl) rfl rfl (.of_blocks rfl) rfl
  case pushCas v next tail block =>
    subst ht
    split_ifs
    all_goals exact .quiet hpc (plain_of_none rfl) rfl rfl (.of_blocks rfl) rfl
  case pushStoreBlock v tail block =>
    subst ht
    have htail := hinv.tail
    simp only [hcall.2, TailOk, Bool.false_eq_true, if_false] at htail
    exact .quiet hpc (plain_of_none rfl) rfl rfl (.publish htk howed (by omega) rfl) rfl
  case pushAdd v tail block new =>
    subst ht
    exact .quiet hpc (plain_of_none rfl) rfl rfl (.of_blocks rfl) rfl
  case pushNext v tail block new =>
    subst ht
    exact .quiet hpc (plain_of_touch rfl) rfl rfl (.setNext rfl) rfl
  case pushWrite v tail block =>
    subst ht
    exact .quiet hpc (plain_of_touch rfl) rfl rfl (.setSlot rfl (fun hw => hw) rfl rfl) rfl
  case pushSet tail block =>
    subst ht
    exact .quiet hpc (plain_of_touch rfl) rfl rfl (.setSlot rfl (fun _ => rfl) rfl rfl) rfl
  case popIndex =>
    subst ht
    exact .quiet hpc (plain_of_none rfl) rfl rfl (.of_blocks rfl) rfl
  case popBlock head =>
    subst ht
    exact moves_popLoop hpc (plain_of_none rfl) rfl
  case popTail head block =>
    subst ht
    exact moves_popCheck hpc (plain_of_none rfl) rfl
  case popCas head newHead block =>
    subst ht
    exact moves_popCas hinv hpc hcall.2.2.2.1 hcall.2.2.2.2.2.1
  case popNext head newHead block =>
    cases hn : (s.queue.blocks block).next with
    | none =>
      simp only [hn, Option.some.injEq] at ht
      exact ht ▸ .self (hpc ▸ plain_of_touch rfl)
    | some next =>
      simp only [hn, Option.some.injEq] at ht
      subst ht
      exact .quiet hpc (plain_of_touch rfl) rfl rfl (.of_blocks rfl) rfl
  case popPeek head newHead block next =>
    subst ht
    exact .quiet hpc (plain_of_touch rfl) rfl rfl (.of_blocks rfl) rfl
  case popStoreBlock head nextIndex block next =>
    subst ht
    exact .quiet hpc (plain_of_none rfl) rfl rfl (.of_blocks rfl) rfl
  case popStoreIndex head nextIndex block =>
    subst ht
    have hend : head / 2 % 32 = 30 := hshape
    refine .quiet hpc (plain_of_none rfl) rfl rfl (.of_blocks rfl) ?_
    simp [Pc.view, Pc.pops, Pc.frees, Pc.marks, hend]
  case popWait head block =>
    split at ht <;> cases ht
    · exact .quiet hpc (plain_of_touch rfl) rfl rfl (.of_blocks rfl) rfl
    · exact .self (hpc ▸ plain_of_touch rfl)
  case popRead head block =>
    subst ht
    obtain rfl := hcall.1.block
    exact moves_popRead hpc hcall.1.offset
  case popSet head block v =>
    subst ht
    obtain ⟨rfl, hoff⟩ : block = head / 2 / 32 ∧ head / 2 % 32 < 30 := hshape
    exact moves_popSet htk hpc hoff
  case destroyLoad block i v =>
    subst ht
    exact moves_destroyLoad hpc
  case destroyOr block i v =>
    subst ht
    exact moves_destroyOr hpc
  case closeOr =>
    subst ht
    exact .quiet hpc (plain_of_none rfl) rfl rfl (.of_blocks rfl) rfl

theorem step_moves {a : Act α} (hinv : Inv s g) (howed : Owed s) (htk : Tickets s)
    (ht : step s a = some t) : ∃ id, Moves s t id ∧ used s a = (s.calls id).use.toList := by
  cases a with
  | step id weak => exact ⟨id, exec_moves hinv howed htk ht, rfl⟩
  | call id op =>
    simp only [step] at ht
    split at ht
    · rename_i hpc
      cases ht
      refine ⟨id, .quiet hpc (plain_of_none rfl) rfl rfl (.of_blocks rfl) ?_, by rw [hpc]; rfl⟩
      cases op <;> rfl
    · cases ht

/-! ## The accesses -/

/-- What the accesses so far tell of the bits. -/
structure Seen (s : State α) (l : List Use) : Prop where
  reads : ∀ b i, .read b i ∈ l → i < 31 ∧ 31 * b + i < s.popped ∧ (s.slot b i).write = true
  marked : ∀ b i, (s.slot b i).read = true → .read b i ∈ l
  marks : ∀ id n, (s.calls id).marks = some n → .read (n / 31) (n % 31) ∈ l
  /-- A duty that has left the claim of the last slot has seen its value read. -/
  last : ∀ b o p, Holds s b o p → (∀ id, o = .call id → (s.calls id).pops = none) →
    .read b 30 ∈ l
  frees : ∀ b, l.count (.free b) = if (s.queue.blocks b).freed then 1 else 0
  after : ∀ b pre post, l = pre ++ .free b :: post →
    (∀ i < 31, .read b i ∈ pre) ∧ ∀ u ∈ post, u.block ≠ b

variable {l : List Use}

/-- All slots of a block that is freed were read. -/
theorem Seen.all_read (h : Seen s l) (hd : Duties s) {b p : Nat} {o : Owner} (ho : Holds s b o p)
    (hp : 30 ≤ p) (hpops : ∀ id, o = .call id → (s.calls id).pops = none) {i : Nat}
    (hi : i < 31) : .read b i ∈ l := by
  rcases Nat.lt_succ_iff_lt_or_eq.mp hi with hlt | rfl
  · exact h.marked b i (hd.passed b o p ho i (by omega) hlt)
  · exact h.last b o p ho hpops

theorem Pushing.unwritten {v : α} {tail block : Nat} {phase : WPhase} (hinv : Inv s g)
    (h : Pushing s g id v tail block phase) (hphase : phase = .writing id ∨ phase = .wrote id) :
    (s.slot block (tail / 2 % 32)).write = false := by
  have hok := (hinv.slots (ticket tail)).write
  rw [ticket_div h.offset, ticket_mod h.offset, ← h.block, h.phase] at hok
  obtain rfl | rfl := hphase
  · exact hok.2.2.1
  · exact hok.2.2.1

/-- Nobody is about to access a block that is freed. -/
theorem use_unfreed (hinv : Inv s g) (howed : Owed s) (htk : Tickets s) (hd : Duties s)
    (h : Seen s l) {u : Use} (hu : (s.calls id).use = some u) :
    (s.queue.blocks u.block).freed = false := by
  refine Bool.eq_false_iff.mpr fun hf => ?_
  have hgone : Holds s u.block .gone 30 := ⟨hf, rfl⟩
  have hwritten (i : Nat) (hi : i < 31) : (s.slot u.block i).write = true :=
    (h.reads _ _ (h.all_read hd hgone le_rfl nofun hi)).2.2
  have hmine (p : Nat) : (s.calls id).frees ≠ some (u.block, p) := by
    intro hp
    exact nomatch hd.unique u.block (.call id) .gone p 30 hp hgone
  -- all marks are set, so that a pop which is not done with its slot has the last one
  have hlast {head : Nat} (hblock : u.block = head / 2 / 32) (hoff : head / 2 % 32 < 31)
      (hpops : (s.calls id).pops = some (ticket head)) : offset head + 1 = blockCap := by
    rw [offset_eq, blockCap_eq]
    by_contra hne
    have hunread := htk.unread id (ticket head) hpops (by rw [ticket_mod hoff]; omega)
    rw [ticket_div hoff, ticket_mod hoff, ← hblock] at hunread
    rw [hd.passed _ _ _ hgone (head / 2 % 32) (by omega) (by omega)] at hunread
    cases hunread
  have hcall := hinv.calls id
  have hshape := howed.calls id
  cases hpc : s.calls id <;> rw [hpc] at hcall hshape hu <;>
    simp only [Pc.use, Option.some.injEq, reduceCtorEq] at hu
  all_goals subst hu
  case pushNext v tail block new =>
    have hno := hcall.1.unwritten hinv (.inl rfl)
    exact absurd (hwritten _ hcall.1.offset) (by simp [Use.block, hno])
  case pushWrite v tail block =>
    have hno := hcall.unwritten hinv (.inl rfl)
    exact absurd (hwritten _ hcall.offset) (by simp [Use.block, hno])
  case pushSet tail block =>
    obtain ⟨v, hpush⟩ := hcall
    have hno := hpush.unwritten hinv (.inr rfl)
    exact absurd (hwritten _ hpush.offset) (by simp [Use.block, hno])
  case popNext head newHead block => exact hmine 0 (by rw [hpc]; rfl)
  case popPeek head newHead block next =>
    obtain ⟨-, hmover, -, -, rfl, -⟩ := hcall
    have hhead := hinv.head
    simp only [hmover, HeadOk] at hhead
    have := howed.freed _ hf
    simp only [Use.block] at this
    omega
  case popWait head block =>
    exact hmine 0 (by
      rw [hpc]
      exact if_pos (hlast hcall.block hcall.offset (by rw [hpc]; rfl)))
  case popRead head block =>
    exact hmine 0 (by
      rw [hpc]
      exact if_pos (hlast hcall.1.block hcall.1.offset (by rw [hpc]; rfl)))
  case popSet head block v =>
    obtain ⟨hblock, hoff⟩ : block = head / 2 / 32 ∧ head / 2 % 32 < 30 := hshape
    have hend := hlast hblock (by omega) (by rw [hpc]; rfl)
    rw [offset_eq, blockCap_eq] at hend
    omega
  case destroyLoad block i v =>
    refine hmine i ?_
    rw [hpc]
    split <;> rfl
  case destroyOr block i v => exact hmine i (by rw [hpc]; rfl)

/-! ## The accesses after a step -/

theorem BlockStep.write (hstep : BlockStep s t id pc) : WriteKept s t := by
  cases hstep with
  | quiet hplain hpopped hbits hview => exact hbits.write
  | claim hplain hpopped hbits hold hview => exact hbits.write
  | last n b huse hpopped hbits hold hview => exact hbits.write
  | take n huse hpopped hbits hold hview => exact hbits.write
  | pass b i hplain hpopped hbits hold hslot hview => exact hbits.write
  | mark n hplain hn hpopped hold hview hwrite => exact hwrite
  | hand b i hplain hpopped hold hview hwrite => exact hwrite
  | free b i huse hi hpopped hold hview hwrite => exact hwrite

theorem BlockStep.popped_le (hstep : BlockStep s t id pc) : s.popped ≤ t.popped := by
  cases hstep with
  | claim hplain hpopped hbits hold hview => omega
  | _ => omega

/-- A value that a step reads was written. -/
theorem read_written (hinv : Inv s g) {b i : Nat} (hu : (s.calls id).use = some (.read b i)) :
    i < 31 ∧ 31 * b + i < s.popped ∧ (s.slot b i).write = true := by
  have hcall := hinv.calls id
  cases hpc : s.calls id <;> rw [hpc] at hcall hu <;>
    simp only [Pc.use, Option.some.injEq, Use.read.injEq, reduceCtorEq] at hu
  case popRead head block =>
    obtain ⟨hpop, hwritten⟩ := hcall
    obtain ⟨rfl, rfl⟩ := hu
    have hoff := hpop.offset
    have hok := (hinv.slots (ticket head)).write
    rw [ticket_div hoff, ticket_mod hoff, ← hpop.block, hwritten] at hok
    have hlt := hpop.lt_popped hinv
    rw [offset_eq]
    refine ⟨hoff, ?_, hok.2.1⟩
    rw [hpop.block]
    unfold ticket at hlt
    omega
  case destroyLoad block i v => split at hu <;> cases hu

/-- A duty after a step that is not with the call: it was there, or comes from the call. -/
theorem BlockStep.origin (hcalls : t.calls = Function.update s.calls id pc)
    (hstep : BlockStep s t id pc) {b p : Nat} {o : Owner} (ho : Holds t b o p)
    (hne : o ≠ .call id) :
    Holds s b o p ∨ (s.calls id).pops = none ∧ ∃ q, Holds s b (.call id) q := by
  have hkeep (hwaits : ∀ b i, t.waits b i = true → s.waits b i = true)
      (hfreed : ∀ b, (t.queue.blocks b).freed = (s.queue.blocks b).freed) : Holds s b o p := by
    obtain ⟨-, hold⟩ | ⟨heq, -⟩ := holds_cases hcalls hwaits (fun b hf => hfreed b ▸ hf) ho
    · exact hold
    · exact absurd heq hne
  have hsame (hbits : SameBits s t) : Holds s b o p :=
    hkeep (fun b i hw => hbits.waits b i ▸ hw) hbits.freed
  cases hstep with
  | quiet hplain hpopped hbits hview => exact .inl (hsame hbits)
  | claim hplain hpopped hbits hold hview => exact .inl (hsame hbits)
  | last n b huse hpopped hbits hold hview => exact .inl (hsame hbits)
  | take n huse hpopped hbits hold hview => exact .inl (hsame hbits)
  | pass b i hplain hpopped hbits hold hslot hview => exact .inl (hsame hbits)
  | mark n hplain hn hpopped hold hview hwrite hread hwaits hfreed =>
    refine .inl (hkeep (fun b i hw => ?_) hfreed)
    rw [hwaits] at hw
    split at hw
    · cases hw
    · exact hw
  | hand b i hplain hpopped hold hview hwrite hread hwaits hfreed =>
    obtain ⟨-, hold'⟩ | ⟨rfl, -, -⟩ :=
      holds_hand hcalls (view_eq.mp hview).2.1 hwaits hfreed ho
    · exact .inl hold'
    · exact .inr ⟨(view_eq.mp hold).1, i, (view_eq.mp hold).2.1⟩
  | free b i huse hi hpopped hold hview hwrite hread hwaits hfreed =>
    obtain ⟨-, hold'⟩ | ⟨rfl, -, -⟩ :=
      holds_free hcalls (view_eq.mp hview).2.1 hwaits hfreed ho
    · exact .inl hold'
    · exact .inr ⟨(view_eq.mp hold).1, i, (view_eq.mp hold).2.1⟩

/-- The value of the last slot is read before the duty moves on from its pop. -/
theorem Seen.last_step (h : Seen s l) (hcalls : t.calls = Function.update s.calls id pc)
    (hstep : BlockStep s t id pc) {b p : Nat} {o : Owner} (ho : Holds t b o p)
    (hpops : ∀ j, o = .call j → (t.calls j).pops = none) :
    .read b 30 ∈ l ++ (s.calls id).use.toList := by
  by_cases hid : o = .call id
  · subst hid
    have hown : pc.pops = none := by
      have := hpops id rfl
      rwa [hcalls, Function.update_self] at this
    have hfrees : pc.frees = some (b, p) := by
      have hfrees : (t.calls id).frees = some (b, p) := ho
      rwa [hcalls, Function.update_self] at hfrees
    -- the duty was with the call before
    have hold (q : Nat) (hq : (s.calls id).frees = some (b, q)) (hnone : (s.calls id).pops = none) :
        .read b 30 ∈ l ++ (s.calls id).use.toList := by
      refine List.mem_append_left _ (h.last b (.call id) q hq fun j hj => ?_)
      cases hj
      exact hnone
    cases hstep with
    | quiet hplain hpopped hbits hview =>
      obtain ⟨hp, hf, -⟩ := view_eq.mp hview
      exact hold p (hf.symm.trans hfrees) (hp.symm.trans hown)
    | claim hplain hpopped hbits hold hview => exact nomatch (view_eq.mp hview).1.symm.trans hown
    | last n b' huse hpopped hbits hold hview =>
      obtain ⟨-, hf, -⟩ := view_eq.mp hview
      cases hf.symm.trans hfrees
      exact List.mem_append_right _ (by simp [huse])
    | take n huse hpopped hbits hold hview => exact nomatch (view_eq.mp hview).1.symm.trans hown
    | mark n hplain hn hpopped hold hview hwrite hread hwaits hfreed =>
      obtain ⟨-, hf, -⟩ := view_eq.mp hview
      have hf := hf.symm.trans hfrees
      dsimp only at hf
      split at hf
      · rename_i hw
        cases hf
        exact List.mem_append_left _ (h.last _ (.slot (n % 31)) (n % 31) ⟨hw, rfl⟩ nofun)
      · cases hf
    | pass b' i hplain hpopped hbits hold' hslot hview =>
      obtain ⟨-, hf, -⟩ := view_eq.mp hview
      cases hf.symm.trans hfrees
      exact hold i (view_eq.mp hold').2.1 (view_eq.mp hold').1
    | hand b i hplain hpopped hold hview hwrite hread hwaits hfreed =>
      exact nomatch (view_eq.mp hview).2.1.symm.trans hfrees
    | free b i huse hi hpopped hold hview hwrite hread hwaits hfreed =>
      exact nomatch (view_eq.mp hview).2.1.symm.trans hfrees
  · refine List.mem_append_left _ ?_
    obtain hold | ⟨hnone, q, hq⟩ := hstep.origin hcalls ho hid
    · refine h.last b o p hold fun j hj => ?_
      have hne : j ≠ id := by
        rintro rfl
        exact hid hj
      have := hpops j hj
      rwa [hcalls, Function.update_of_ne hne] at this
    · refine h.last b (.call id) q hq fun j hj => ?_
      cases hj
      exact hnone

/-- A mark that is new is that of the call, whose value was read. -/
theorem Seen.marked_step (h : Seen s l) (hstep : BlockStep s t id pc) {b i : Nat}
    (hr : (t.slot b i).read = true) : .read b i ∈ l := by
  cases hstep with
  | quiet hplain hpopped hbits hview => exact h.marked b i (hbits.read b i ▸ hr)
  | claim hplain hpopped hbits hold hview => exact h.marked b i (hbits.read b i ▸ hr)
  | last n b' huse hpopped hbits hold hview => exact h.marked b i (hbits.read b i ▸ hr)
  | take n huse hpopped hbits hold hview => exact h.marked b i (hbits.read b i ▸ hr)
  | pass b' i' hplain hpopped hbits hold hslot hview => exact h.marked b i (hbits.read b i ▸ hr)
  | hand b' i' hplain hpopped hold hview hwrite hread hwaits hfreed =>
    exact h.marked b i (hread b i ▸ hr)
  | free b' i' huse hi hpopped hold hview hwrite hread hwaits hfreed =>
    exact h.marked b i (hread b i ▸ hr)
  | mark n hplain hn hpopped hold hview hwrite hread hwaits hfreed =>
    rw [hread] at hr
    split at hr
    · rename_i hbi
      obtain ⟨rfl, rfl⟩ := hbi
      exact h.marks id n (view_eq.mp hold).2.2
    · exact h.marked b i hr

theorem Seen.marks_step (h : Seen s l) (hcalls : t.calls = Function.update s.calls id pc)
    (hstep : BlockStep s t id pc) {j n : Nat} (hj : (t.calls j).marks = some n) :
    .read (n / 31) (n % 31) ∈ l ++ (s.calls id).use.toList := by
  rw [hcalls, Function.update_apply] at hj
  split at hj
  · have hnone (hview : pc.view.2.2 = none) : False := nomatch hview.symm.trans hj
    cases hstep with
    | quiet hplain hpopped hbits hview =>
      exact List.mem_append_left _ (h.marks id n ((view_eq.mp hview).2.2.symm.trans hj))
    | take m huse hpopped hbits hold hview =>
      cases (view_eq.mp hview).2.2.symm.trans hj
      exact List.mem_append_right _ (by simp [huse])
    | claim hplain hpopped hbits hold hview => exact (hnone (by rw [hview])).elim
    | last m b huse hpopped hbits hold hview => exact (hnone (by rw [hview])).elim
    | mark m hplain hm hpopped hold hview => exact (hnone (by rw [hview])).elim
    | pass b i hplain hpopped hbits hold hslot hview => exact (hnone (by rw [hview])).elim
    | hand b i hplain hpopped hold hview => exact (hnone (by rw [hview])).elim
    | free b i huse hi hpopped hold hview => exact (hnone (by rw [hview])).elim
  · exact List.mem_append_left _ (h.marks j n hj)

/-- Either the step frees a block, all slots of which were read, or it frees none. -/
theorem Seen.frees_step (h : Seen s l) (hd : Duties s) (hstep : BlockStep s t id pc) :
    (∃ b, (s.calls id).use = some (.free b) ∧ (∀ i < 31, .read b i ∈ l) ∧
      ∀ n, (t.queue.blocks n).freed = if n = b then true else (s.queue.blocks n).freed) ∨
    (∀ b, (s.calls id).use ≠ some (.free b)) ∧
      ∀ n, (t.queue.blocks n).freed = (s.queue.blocks n).freed := by
  have hplain' (hplain : (s.calls id).plain) (b : Nat) : (s.calls id).use ≠ some (.free b) := by
    intro hu
    obtain ⟨c, hc⟩ := hplain _ hu
    cases hc
  cases hstep with
  | quiet hplain hpopped hbits hview => exact .inr ⟨hplain' hplain, hbits.freed⟩
  | claim hplain hpopped hbits hold hview => exact .inr ⟨hplain' hplain, hbits.freed⟩
  | last n b huse hpopped hbits hold hview => exact .inr ⟨by simp [huse], hbits.freed⟩
  | take n huse hpopped hbits hold hview => exact .inr ⟨by simp [huse], hbits.freed⟩
  | mark n hplain hn hpopped hold hview hwrite hread hwaits hfreed =>
    exact .inr ⟨hplain' hplain, hfreed⟩
  | pass b i hplain hpopped hbits hold hslot hview => exact .inr ⟨hplain' hplain, hbits.freed⟩
  | hand b i hplain hpopped hold hview hwrite hread hwaits hfreed =>
    exact .inr ⟨hplain' hplain, hfreed⟩
  | free b i huse hi hpopped hold hview hwrite hread hwaits hfreed =>
    obtain ⟨hpops, hfrees, -⟩ := view_eq.mp hold
    have hcall : Holds s b (.call id) i := hfrees
    refine .inl ⟨b, huse, fun k hk => h.all_read hd hcall hi (fun j hj => ?_) hk, hfreed⟩
    cases hj
    exact hpops

theorem Seen.step (hinv : Inv s g) (howed : Owed s) (htk : Tickets s) (hd : Duties s)
    (h : Seen s l) (hcalls : t.calls = Function.update s.calls id pc)
    (hstep : BlockStep s t id pc) : Seen t (l ++ (s.calls id).use.toList) := by
  have hfrees := h.frees_step hd hstep
  have hmem {u : Use} (hu : u ∈ l ++ (s.calls id).use.toList) :
      u ∈ l ∨ (s.calls id).use = some u := by
    rcases List.mem_append.mp hu with hold | hnew
    · exact .inl hold
    · exact .inr (Option.mem_toList.mp hnew)
  refine ⟨fun b i hr => ?_, fun b i hr => List.mem_append_left _ (h.marked_step hstep hr),
    fun j n hj => h.marks_step hcalls hstep hj,
    fun b o p ho hpops => h.last_step hcalls hstep ho hpops, fun b => ?_, fun b pre post hl => ?_⟩
  · have hold : i < 31 ∧ 31 * b + i < s.popped ∧ (s.slot b i).write = true := by
      rcases hmem hr with hold | hnew
      · exact h.reads b i hold
      · exact read_written hinv hnew
    obtain ⟨hi, hlt, hw⟩ := hold
    exact ⟨hi, hlt.trans_le hstep.popped_le, hstep.write b i hlt hw⟩
  · rw [List.count_append, h.frees]
    obtain ⟨c, huse, -, hfreed⟩ | ⟨hno, hfreed⟩ := hfrees
    · rw [huse, hfreed, Option.toList_some, List.count_singleton]
      by_cases hb : b = c
      · subst hb
        simp [show (s.queue.blocks b).freed = false from use_unfreed hinv howed htk hd h huse]
      · simp [hb, Ne.symm hb]
    · have hnone : (s.calls id).use.toList.count (.free b) = 0 :=
        List.count_eq_zero.mpr fun hb => hno b (Option.mem_toList.mp hb)
      rw [hfreed, hnone, Nat.add_zero]
  · cases huse : (s.calls id).use with
    | none =>
      rw [huse, Option.toList_none, List.append_nil] at hl
      exact h.after b pre post hl
    | some u =>
      rw [huse, Option.toList_some] at hl
      rcases List.eq_nil_or_concat post with rfl | ⟨post', v, rfl⟩
      · -- the block is freed by this step
        obtain ⟨rfl, hv⟩ := List.append_inj' hl rfl
        cases hv
        refine ⟨?_, by simp⟩
        obtain ⟨c, hc, hall, -⟩ | ⟨hno, -⟩ := hfrees
        · cases huse.symm.trans hc
          exact hall
        · exact absurd huse (hno b)
      · rw [List.concat_eq_append, ← List.cons_append, ← List.append_assoc] at hl
        rw [List.concat_eq_append]
        obtain ⟨rfl, hv⟩ := List.append_inj' hl rfl
        cases hv
        obtain ⟨hall, hafter⟩ := h.after b pre post' rfl
        refine ⟨hall, fun w hw => ?_⟩
        rcases List.mem_append.mp hw with hw | hw
        · exact hafter w hw
        · -- the block was freed before
          cases List.mem_singleton.mp hw
          have hunfreed := use_unfreed hinv howed htk hd h huse
          rintro hblock
          have hcount := h.frees b
          rw [← hblock, hunfreed] at hcount
          simp [hblock] at hcount
end Steps

/-! ## Runs -/

variable {s : State α} {l : List Use}

theorem tickets_new : Tickets (new : State α) :=
  ⟨fun _ _ _ h => (nomatch h), fun _ _ h => (nomatch h), fun _ _ h => (nomatch h),
    fun _ _ h => (nomatch h)⟩

theorem holds_new {b p : Nat} {o : Owner} : ¬Holds (new : State α) b o p := by
  cases o with
  | call id => exact nofun
  | slot i => exact fun h => nomatch h.1
  | gone => exact fun h => nomatch h.1

theorem duties_new : Duties (new : State α) :=
  ⟨fun _ _ _ _ _ h => (holds_new h).elim, fun _ _ _ h => (holds_new h).elim,
    fun _ _ _ h => (holds_new h).elim⟩

theorem seen_new : Seen (new : State α) [] := by
  refine ⟨nofun, fun _ _ h => (nomatch h), fun _ _ h => (nomatch h),
    fun _ _ _ h => (holds_new h).elim, fun _ => rfl, fun b pre post h => ?_⟩
  simp at h

/-- The list of accesses is no part of the queue. -/
theorem reachable_traced : system.Reachable s ↔ ∃ l, traced.Reachable (s, l) := by
  constructor
  · intro h
    induction h with
    | init => exact ⟨[], .init⟩
    | next _ _ ht ih =>
      obtain ⟨l, hl⟩ := ih
      exact ⟨_, hl.next (congrArg (Option.map _) ht)⟩
  · rintro ⟨l, h⟩
    have hinit : system.Reachable (new : State α) := .init
    refine h.invariant (I := fun p => system.Reachable p.1) hinit fun p a q hp hq => ?_
    obtain ⟨t, ht, rfl⟩ := Option.map_eq_some_iff.mp hq
    exact hp.next ht

theorem seen_reachable (h : traced.Reachable (s, l)) : Tickets s ∧ Duties s ∧ Seen s l := by
  have hall : system.Reachable s ∧ Tickets s ∧ Duties s ∧ Seen s l := by
    have hinit : system.Reachable (new : State α) := .init
    refine h.invariant
      (I := fun p => system.Reachable p.1 ∧ Tickets p.1 ∧ Duties p.1 ∧ Seen p.1 p.2)
      ⟨hinit, tickets_new, duties_new, seen_new⟩ ?_
    rintro ⟨s, l⟩ a q ⟨hs, htk, hd, hseen⟩ hq
    obtain ⟨t, ht, rfl⟩ := Option.map_eq_some_iff.mp hq
    obtain ⟨g, hinv⟩ := inv_reachable hs
    have howed := owed_reachable hs
    obtain ⟨id, ⟨pc, hcalls, hstep⟩, hused⟩ := step_moves hinv howed htk ht
    refine ⟨hs.next ht, hstep.tickets htk hcalls, hstep.duties hd hcalls, ?_⟩
    rw [hused]
    exact hseen.step hinv howed htk hd hcalls hstep
  exact hall.2

/-- The block that a pop, which has claimed its slot, is not done with. -/
def Pc.popper : Pc α → Option Nat
  | .popNext _ _ block | .popPeek _ _ block _ | .popStoreBlock _ _ block _
  | .popStoreIndex _ _ block | .popWait _ block | .popRead _ block | .popSet _ block _
  | .destroyLoad block _ _ | .destroyOr block _ _ => some block
  | _ => none

theorem popper_of_free {pc : Pc α} {b : Nat} (h : .free b ∈ pc.owes) : pc.popper = some b := by
  cases pc <;> simp only [Pc.owes, List.mem_cons, List.not_mem_nil, or_false, or_self, false_or,
    reduceCtorEq, Debt.free.injEq] at h
  case popWait head block =>
    split at h
    · cases List.mem_singleton.mp h
      rfl
    · cases List.mem_singleton.mp h
  case popRead head block =>
    split at h
    · cases List.mem_singleton.mp h
      rfl
    · cases List.mem_singleton.mp h
  all_goals exact h ▸ rfl

theorem popper_of_mark {g : Ghost α} (hinv : Inv s g) (howed : Owed s) {id n : Nat}
    (h : .mark n ∈ (s.calls id).owes) : (s.calls id).popper = some (n / 31) := by
  have hcall := hinv.calls id
  have hshape := howed.calls id
  cases hpc : s.calls id <;> rw [hpc] at hcall hshape h <;>
    simp only [Pc.owes, List.mem_cons, List.not_mem_nil, or_false, or_self, reduceCtorEq,
      Debt.mark.injEq] at h
  case popWait head block =>
    split at h
    · cases List.mem_singleton.mp h
    · cases List.mem_singleton.mp h
      rw [ticket_div hcall.offset, ← hcall.block]
      rfl
  case popRead head block =>
    split at h
    · cases List.mem_singleton.mp h
    · cases List.mem_singleton.mp h
      rw [ticket_div hcall.1.offset, ← hcall.1.block]
      rfl
  case popSet head block v =>
    obtain ⟨rfl, hoff⟩ : block = head / 2 / 32 ∧ head / 2 % 32 < 30 := hshape
    rw [h, ticket_div (by omega)]
    rfl

/-- A pop that is at work on a block has not returned. -/
theorem Inv.popper_open {g : Ghost α} (hinv : Inv s g) {id b : Nat}
    (h : (s.calls id).popper = some b) : Open s id .pop := by
  have hcall := hinv.calls id
  cases hpc : s.calls id <;> rw [hpc] at hcall h
  case popNext => exact hcall.1.called
  case popPeek => exact hcall.1.called
  case popStoreBlock => exact hcall.1.called
  case popStoreIndex => exact hcall.1.called
  case popWait => exact hcall.called
  case popRead => exact hcall.1.called
  case popSet => exact hcall.1
  case destroyLoad => exact hcall.1
  case destroyOr => exact hcall.1
  all_goals cases h

/-- A block whose pops are done is freed: nobody owes a mark or the free. -/
theorem freed_of_done (h : system.Reachable s) {b : Nat} (hb : 31 * (b + 1) ≤ s.popped)
    (hdone : ∀ id, (s.calls id).popper ≠ some b) : (s.queue.blocks b).freed = true := by
  obtain ⟨g, hinv⟩ := inv_reachable h
  have howed := owed_reachable h
  have hread (i : Nat) (hi : i < 30) : (s.slot b i).read = true := by
    by_contra hr
    have hdiv : (31 * b + i) / 31 = b := by omega
    have hmod : (31 * b + i) % 31 = i := by omega
    have hopen : (Debt.mark (31 * b + i)).Open s := by
      refine ⟨by omega, by omega, ?_⟩
      rw [hdiv, hmod]
      exact Bool.eq_false_iff.mpr hr
    obtain ⟨id, hid⟩ := howed.debts _ hopen
    have := popper_of_mark hinv howed hid
    rw [hdiv] at this
    exact hdone id this
  by_contra hf
  have hopen : (Debt.free b).Open s :=
    ⟨hb, Bool.eq_false_iff.mpr hf, fun i hi _ => hread i hi⟩
  obtain ⟨id, hid⟩ := howed.debts _ hopen
  exact hdone id (popper_of_free hid)

/-- A block is freed at most once, after all of its values were read, and not accessed from
then on; and it is freed once its 31 pops are done, in whichever order they took their
steps. -/
theorem block_freed_once (h : traced.Reachable (s, l)) (b : Nat) :
    l.count (.free b) ≤ 1 ∧
    (∀ pre post, l = pre ++ .free b :: post →
      (∀ i < blockCap, .read b i ∈ pre) ∧ ∀ u ∈ post, u.block ≠ b) ∧
    (blockCap * (b + 1) ≤ s.popped → (∀ id, (s.calls id).popper ≠ some b) →
      l.count (.free b) = 1) := by
  obtain ⟨-, -, hseen⟩ := seen_reachable h
  have hcount := hseen.frees b
  refine ⟨?_, hseen.after b, fun hb hdone => ?_⟩
  · rw [hcount]
    split <;> omega
  · rw [hcount, if_pos (freed_of_done (reachable_traced.mpr ⟨l, h⟩) hb hdone)]

/-- The pop of the first slot reads its value, and marks the slot only after the pop of the last
slot has handed the block over to it. -/
def handedOver : List (Act Nat) :=
  let whole (op : Op Nat) (n id : Nat) : List (Act Nat) :=
    .call id op :: List.replicate n (.step id false)
  whole (.push 0) 7 0 ++ (List.range' 1 29).flatMap (whole (.push 0) 5) ++ whole (.push 0) 8 30 ++
    whole .pop 6 31 ++ (List.range' 32 29).flatMap (whole .pop 6) ++ whole .pop 11 61 ++
    List.replicate 31 (.step 31 false)

theorem block_freed_once_handedOver : ∃ (s : State Nat) (l : List Use),
    traced.Reachable (s, l) ∧ (s.slot 0 0).destroy = true ∧ l.count (.free 0) = 1 ∧
      l.getLast? = some (.free 0) ∧ ∀ i < blockCap, .read 0 i ∈ l := by
  obtain ⟨⟨s, l⟩, -, h, hc, hpopped, hdestroy, hlast⟩ := System.exists_of_run (M := traced)
    (P := fun p => Complete p.1.hist ∧ p.1.popped = 31 ∧ (p.1.slot 0 0).destroy = true ∧
      p.2.getLast? = some (.free 0)) handedOver (by decide +kernel)
  obtain ⟨-, hafter, hdone⟩ := block_freed_once h 0
  obtain ⟨g, hinv⟩ := inv_reachable (reachable_traced.mpr ⟨l, h⟩)
  have hcount := hdone hpopped.ge fun id hid => by
    obtain ⟨hcall, hopen⟩ := hinv.popper_open hid
    obtain ⟨res, hres⟩ := hc.returned hcall
    exact hopen res hres
  obtain ⟨pre, rfl⟩ := List.getLast?_eq_some_iff.mp hlast
  obtain ⟨hread, -⟩ := hafter pre [] rfl
  exact ⟨s, _, h, hdestroy, hcount, hlast, fun i hi => List.mem_append_left _ (hread i hi)⟩

end Cynthia.Queue.Unbounded
