import Cynthia.Queue.UnboundedFifo

/-! What the calls on `Unbounded` that have not returned still owe to the queue: the
pointers that they are about to store, the `WRITE` and `READ` bits, and the blocks that
they are to free. What is open is owed by some call, so that nothing is open once all
calls have returned. -/

namespace Cynthia.Queue.Unbounded

open Transition Linearizability

variable {α : Type}

inductive Debt where
  /-- A position stands at the end of a block. -/
  | tailEnd
  | headEnd
  /-- The first block is in `tail` and not in `head`. -/
  | install
  /-- The next block is public and the block does not point to it. -/
  | link (block : Nat)
  | write (ticket : Nat)
  | mark (ticket : Nat)
  /-- All slots of the block are claimed by pops, and it waits for none of them. -/
  | free (block : Nat)
  deriving DecidableEq

def Debt.Open (s : State α) : Debt → Prop
  | .tailEnd => offset s.queue.tail.index = blockCap
  | .headEnd => offset s.queue.head.index = blockCap
  | .install => s.queue.tail.block ≠ none ∧ s.queue.head.block = none
  | .link b => b + 1 < s.queue.published ∧ (s.queue.blocks b).next = none
  | .write n => n < s.claims.length ∧ (s.slot (n / 31) (n % 31)).write = false
  | .mark n => n < s.popped ∧ n % 31 < 30 ∧ (s.slot (n / 31) (n % 31)).read = false
  | .free b => 31 * (b + 1) ≤ s.popped ∧ (s.queue.blocks b).freed = false ∧
    ∀ i < 30, (s.slot b i).destroy = true → (s.slot b i).read = true

def Pc.owes : Pc α → List Debt
  | .pushHead _ _ _ _ => [.install]
  | .pushStoreBlock _ tail _ => [.tailEnd, .write (ticket tail)]
  | .pushAdd _ tail block _ => [.tailEnd, .link block, .write (ticket tail)]
  | .pushNext _ tail block _ => [.link block, .write (ticket tail)]
  | .pushWrite _ tail _ | .pushSet tail _ => [.write (ticket tail)]
  | .popNext _ _ block | .popPeek _ _ block _ | .popStoreBlock _ _ block _
  | .popStoreIndex _ _ block => [.headEnd, .free block]
  | .popWait head block | .popRead head block =>
    if offset head + 1 = blockCap then [.free block] else [.mark (ticket head)]
  | .popSet head _ _ => [.mark (ticket head)]
  | .destroyLoad block _ _ | .destroyOr block _ _ => [.free block]
  | .idle | .done | .panicked | .closeOr | .pushIndex _ _ | .pushBlock _ _ _ | .pushInstall _ _ _
  | .pushCas _ _ _ _ | .popIndex | .popBlock _ | .popTail _ _ | .popCas _ _ _ => []

/-- The slot that the call is at, or the block that it frees. -/
def CallShape (popped : Nat) : Pc α → Prop
  | .popStoreBlock head _ _ _ | .popStoreIndex head _ _ => head / 2 % 32 = 30
  | .popSet head block _ => block = head / 2 / 32 ∧ head / 2 % 32 < 30
  | .destroyLoad block _ _ => 31 * (block + 1) ≤ popped
  | .destroyOr block i _ => 31 * (block + 1) ≤ popped ∧ i < 30
  | _ => True

structure Owed (s : State α) : Prop where
  debts : ∀ d : Debt, d.Open s → ∃ id, d ∈ (s.calls id).owes
  calls : ∀ id, CallShape s.popped (s.calls id)
  destroy : ∀ b i, (s.slot b i).destroy = true → 31 * (b + 1) ≤ s.popped
  freed : ∀ b, (s.queue.blocks b).freed = true → 31 * (b + 1) ≤ s.popped

section Steps

variable {s t : State α} {g : Ghost α} {id : Nat}

theorem CallShape.mono {n m : Nat} {pc : Pc α} (h : CallShape n pc) (hle : n ≤ m) :
    CallShape m pc := by
  cases pc <;> simp only [CallShape] at h ⊢
  case destroyLoad => omega
  case destroyOr => exact ⟨by omega, h.2⟩
  all_goals exact h

theorem Owed.step {pc : Pc α} (h : Owed s) (hcalls : t.calls = Function.update s.calls id pc)
    (hpopped : s.popped ≤ t.popped) (hself : CallShape t.popped pc)
    (hopen : ∀ d : Debt, d.Open t → d.Open s ∨ d ∈ pc.owes)
    (hpaid : ∀ d ∈ (s.calls id).owes, d.Open t → d ∈ pc.owes)
    (hdestroy : ∀ b i, (t.slot b i).destroy = true →
      (s.slot b i).destroy = true ∨ 31 * (b + 1) ≤ t.popped)
    (hfreed : ∀ b, (t.queue.blocks b).freed = true →
      (s.queue.blocks b).freed = true ∨ 31 * (b + 1) ≤ t.popped) : Owed t := by
  refine ⟨fun d => ?_, fun j => ?_, fun b i hb => ?_, fun b hb => ?_⟩
  · rw [hcalls]
    exact owed_update (P := fun pc d => d ∈ Pc.owes pc) (h.debts d) (hopen d) (hpaid d)
  · rw [hcalls]
    by_cases hj : j = id
    · rw [hj, Function.update_self]
      exact hself
    · rw [Function.update_of_ne hj]
      exact (h.calls j).mono hpopped
  · rcases hdestroy b i hb with hold | hnew
    · exact (h.destroy b i hold).trans hpopped
    · exact hnew
  · rcases hfreed b hb with hold | hnew
    · exact (h.freed b hold).trans hpopped
    · exact hnew

theorem open_goto {d : Debt} {pc : Pc α} : d.Open (s.goto id pc) ↔ d.Open s := by
  cases d <;> rfl

theorem open_ret {d : Debt} {res : Res α} : d.Open (s.ret id res) ↔ d.Open s := by
  cases d <;> rfl

theorem Owed.goto {pc : Pc α} (h : Owed s) (howes : ∀ d ∈ (s.calls id).owes, d ∈ pc.owes)
    (hself : CallShape s.popped pc) : Owed (s.goto id pc) :=
  h.step rfl le_rfl hself
    (fun _ hd => .inl (open_goto.mp hd)) (fun d hd _ => howes d hd) (fun _ _ hb => .inl hb)
    fun _ hb => .inl hb

theorem Owed.ret {res : Res α} (h : Owed s) (hpaid : ∀ d ∈ (s.calls id).owes, ¬d.Open s) :
    Owed (s.ret id res) :=
  h.step rfl le_rfl trivial
    (fun _ hd => .inl (open_ret.mp hd)) (fun d hd ho => absurd (open_ret.mp ho) (hpaid d hd))
    (fun _ _ hb => .inl hb) fun _ hb => .inl hb

theorem open_setTail {d : Debt} {tail : Position} (hd : d.Open (s.setTail tail)) :
    d.Open s ∨ d = .tailEnd ∨ d = .install := by
  cases d
  case tailEnd => exact .inr (.inl rfl)
  case install => exact .inr (.inr rfl)
  all_goals exact .inl hd

theorem open_setHead {d : Debt} {head : Position} (hd : d.Open (s.setHead head)) :
    d.Open s ∨ d = .headEnd ∨ d = .install := by
  cases d
  case headEnd => exact .inr (.inl rfl)
  case install => exact .inr (.inr rfl)
  all_goals exact .inl hd

/-- A new block, for tickets that nobody has claimed. -/
theorem open_publish {d : Debt} (hlen : s.claims.length ≤ 31 * s.queue.published)
    (hle : s.popped ≤ s.claims.length) (hd : d.Open s.publish) :
    d.Open s ∨ ∃ b, d = .link b ∧ b + 1 = s.queue.published := by
  have hslot {b i : Nat} (hb : b ≠ s.queue.published) : s.publish.slot b i = s.slot b i := by
    rw [slot_publish, if_neg hb]
  have hblock {b : Nat} (hb : b ≠ s.queue.published) :
      s.publish.queue.blocks b = s.queue.blocks b := Function.update_of_ne hb _ _
  cases d with
  | tailEnd => exact .inl hd
  | headEnd => exact .inl hd
  | install => exact .inl hd
  | link b =>
    obtain ⟨hlt, hnext⟩ := hd
    have hlt : b + 1 < s.queue.published + 1 := hlt
    rcases Nat.lt_succ_iff_lt_or_eq.mp hlt with hold | heq
    · exact .inl ⟨hold, by rwa [hblock (by omega)] at hnext⟩
    · exact .inr ⟨b, rfl, heq⟩
  | write n =>
    obtain ⟨hlt, hwrite⟩ := hd
    have hlt : n < s.claims.length := hlt
    exact .inl ⟨hlt, by rwa [hslot (by omega)] at hwrite⟩
  | mark n =>
    obtain ⟨hlt, hoff, hread⟩ := hd
    have hlt : n < s.popped := hlt
    exact .inl ⟨hlt, hoff, by rwa [hslot (by omega)] at hread⟩
  | free b =>
    obtain ⟨hlt, hfreed, hbits⟩ := hd
    have hlt : 31 * (b + 1) ≤ s.popped := hlt
    have hb : b ≠ s.queue.published := by omega
    refine .inl ⟨hlt, by rwa [hblock hb] at hfreed, fun i hi => ?_⟩
    rw [← hslot hb]
    exact hbits i hi

theorem publish_destroy {b i : Nat} (h : (s.publish.slot b i).destroy = true) :
    (s.slot b i).destroy = true := by
  rw [slot_publish] at h
  split at h
  · cases h
  · exact h

theorem publish_freed {b : Nat} (h : (s.publish.queue.blocks b).freed = true) :
    (s.queue.blocks b).freed = true := by
  by_cases hb : b = s.queue.published
  · subst hb
    simp [State.publish, Block.new] at h
  · simpa [State.publish, hb] using h

theorem Inv.uninstalled (hinv : Inv s g) (hb : s.queue.tail.block = none) :
    s.queue.published = 0 ∧ s.claims.length = 0 := by
  have htail := hinv.tail
  cases hm : g.tailMover <;> simp only [hm, hb, TailOk] at htail
  · simp only [reduceCtorEq, false_and, or_false, true_and] at htail
    exact htail.2
  · simp at htail

attribute [local simp] Pc.owes in
theorem Owed.pushInstall {v : α} {next : Bool} {tail : Nat} (h : Owed s) (hinv : Inv s g)
    (hpc : s.calls id = .pushInstall v next tail) (hb : s.queue.tail.block = none) :
    Owed ((s.publish.setTail { s.queue.tail with block := some s.queue.published }).goto id
      (.pushHead v next tail s.queue.published)) := by
  obtain ⟨hpub, hlen⟩ := hinv.uninstalled hb
  refine h.step rfl le_rfl trivial (fun d hd => ?_) (by simp [hpc])
    (fun _ _ hd => .inl (publish_destroy hd)) fun _ hf => .inl (publish_freed hf)
  rcases open_setTail (open_goto.mp hd) with hold | rfl | rfl
  · rcases open_publish (by omega) hinv.ordered hold with hold | ⟨b, -, hlast⟩
    · exact .inl hold
    · omega
  · exact .inl hd
  · exact .inr (List.mem_singleton_self _)

theorem Owed.pushHead {v : α} {next : Bool} {tail block : Nat} (h : Owed s)
    (hpc : s.calls id = .pushHead v next tail block) :
    Owed ((s.setHead { s.queue.head with block := some block }).goto id
      (.pushCas v next tail block)) := by
  refine h.step rfl le_rfl trivial (fun d hd => ?_) (fun d hd ho => ?_)
    (fun _ _ hd => .inl hd) fun _ hf => .inl hf
  · rcases open_setHead (open_goto.mp hd) with hold | rfl | rfl
    · exact .inl hold
    · exact .inl hd
    · cases hd.2
  · simp only [hpc, Pc.owes, List.mem_singleton] at hd
    subst hd
    cases ho.2

theorem Owed.pushClaim {v : α} {next : Bool} {tail block : Nat} {pc : Pc α} (h : Owed s)
    (hinv : Inv s g) (hready : PushReady s.queue next tail) (hindex : s.queue.tail.index = tail)
    (howes : (s.calls id).owes = [])
    (hpc : tail / 2 % 32 = 30 ∧ pc = .pushStoreBlock v tail block ∨
      tail / 2 % 32 < 30 ∧ pc = .pushWrite v tail block) :
    Owed ({ s.setTail { s.queue.tail with index := tail + 2 } with
      claims := s.claims ++ [v] }.goto id pc) := by
  obtain ⟨-, hlen⟩ := hinv.tail_ticket (by rw [hindex]; exact hready.offset)
  rw [hindex] at hlen
  have hself : Debt.write s.claims.length ∈ pc.owes := by
    rcases hpc with ⟨-, rfl⟩ | ⟨-, rfl⟩ <;> simp [Pc.owes, hlen]
  refine h.step rfl le_rfl ?_ (fun d hd => ?_) (by simp [howes])
    (fun _ _ hd => .inl hd) fun _ hf => .inl hf
  · rcases hpc with ⟨-, rfl⟩ | ⟨-, rfl⟩ <;> trivial
  · cases d with
    | tailEnd =>
      have hend : offset (tail + 2) = blockCap := hd
      rw [offset_eq, blockCap_eq] at hend
      rcases hpc with ⟨-, rfl⟩ | ⟨hlt, -⟩
      · exact .inr (by simp [Pc.owes])
      · omega
    | write n =>
      obtain ⟨hlt, hwrite⟩ := hd
      have hlt : n < (s.claims ++ [v]).length := hlt
      rw [List.length_append, List.length_singleton] at hlt
      rcases Nat.lt_succ_iff_lt_or_eq.mp hlt with hold | rfl
      · exact .inl ⟨hold, hwrite⟩
      · exact .inr hself
    | headEnd => exact .inl hd
    | install => exact .inl hd
    | link b => exact .inl hd
    | mark n => exact .inl hd
    | free b => exact .inl hd

theorem Owed.pushStoreBlock {v : α} {tail block : Nat} (h : Owed s) (hinv : Inv s g)
    (hpc : s.calls id = .pushStoreBlock v tail block)
    (hmover : g.tailMover = some ⟨id, false, block⟩) :
    Owed ((s.publish.setTail { s.queue.tail with block := some s.queue.published }).goto id
      (.pushAdd v tail block s.queue.published)) := by
  have htail := hinv.tail
  simp only [hmover, TailOk, Bool.false_eq_true, if_false] at htail
  obtain ⟨hlen, -, hsome, hpub⟩ := htail
  refine h.step rfl le_rfl trivial (fun d hd => ?_) ?_
    (fun _ _ hd => .inl (publish_destroy hd)) fun _ hf => .inl (publish_freed hf)
  · rcases open_setTail (open_goto.mp hd) with hold | rfl | rfl
    · rcases open_publish (by omega) hinv.ordered hold with hold | ⟨b, rfl, hlast⟩
      · exact .inl hold
      · obtain rfl : b = block := by omega
        exact .inr (by simp [Pc.owes])
    · exact .inl hd
    · exact .inl ⟨by simp [hsome], hd.2⟩
  · intro d hd _
    simp only [hpc, Pc.owes, List.mem_cons, List.not_mem_nil, or_false] at hd ⊢
    rcases hd with rfl | rfl
    · exact .inl rfl
    · exact .inr (.inr rfl)

theorem Owed.pushAdd {v : α} {tail block new : Nat} (h : Owed s) (hinv : Inv s g)
    (hpc : s.calls id = .pushAdd v tail block new)
    (hmover : g.tailMover = some ⟨id, true, block⟩) :
    Owed ((s.setTail { s.queue.tail with index := s.queue.tail.index + 1 <<< shift }).goto id
      (.pushNext v tail block new)) := by
  have htail := hinv.tail
  simp only [hmover, TailOk] at htail
  have hstart : ¬Debt.Open (s.setTail
      { s.queue.tail with index := s.queue.tail.index + 1 <<< shift }) .tailEnd := by
    intro hend
    have hend : offset (s.queue.tail.index + 1 <<< shift) = blockCap := hend
    rw [offset_eq, blockCap_eq, one_shift] at hend
    omega
  refine h.step rfl le_rfl trivial (fun d hd => ?_)
    (fun d hd ho => ?_) (fun _ _ hd => .inl hd) fun _ hf => .inl hf
  · rcases open_setTail (open_goto.mp hd) with hold | rfl | rfl
    · exact .inl hold
    · exact absurd (open_goto.mp hd) hstart
    · exact .inl hd
  · simp only [hpc, Pc.owes, List.mem_cons, List.not_mem_nil, or_false] at hd ⊢
    rcases hd with rfl | hd
    · exact absurd (open_goto.mp ho) hstart
    · exact hd

theorem block_setBlock {b n : Nat} {block : Block α} :
    (s.setBlock b block).queue.blocks n = if n = b then block else s.queue.blocks n := by
  by_cases hn : n = b
  · subst hn
    simp [State.setBlock]
  · simp [State.setBlock, hn]

/-- A block that is linked or freed. -/
theorem open_setBlock {d : Debt} {b : Nat} {block : Block α} (hd : d.Open (s.setBlock b block))
    (hslots : block.slots = (s.queue.blocks b).slots)
    (hnext : block.next = none → (s.queue.blocks b).next = none)
    (hfreed : block.freed = false → (s.queue.blocks b).freed = false) : d.Open s := by
  cases d with
  | tailEnd => exact hd
  | headEnd => exact hd
  | install => exact hd
  | write n =>
    rw [Debt.Open, slot_setBlock_same hslots] at hd
    exact hd
  | mark n =>
    rw [Debt.Open, slot_setBlock_same hslots] at hd
    exact hd
  | link n =>
    refine ⟨hd.1, ?_⟩
    have hnone := hd.2
    rw [block_setBlock] at hnone
    split at hnone
    · rename_i hn
      exact hn ▸ hnext hnone
    · exact hnone
  | free n =>
    simp only [Debt.Open, slot_setBlock_same hslots] at hd
    refine ⟨hd.1, ?_, hd.2.2⟩
    have hkept := hd.2.1
    rw [block_setBlock] at hkept
    split at hkept
    · rename_i hn
      exact hn ▸ hfreed hkept
    · exact hkept

theorem Owed.pushNext {v : α} {tail block new : Nat} (h : Owed s)
    (hpc : s.calls id = .pushNext v tail block new) :
    Owed ((s.setBlock block { s.queue.blocks block with next := some new }).goto id
      (.pushWrite v tail block)) := by
  refine h.step rfl le_rfl trivial
    (fun d hd => .inl (open_setBlock (open_goto.mp hd) rfl (fun hn => by cases hn) fun hf => hf))
    (fun d hd ho => ?_) (fun b i hd => .inl ?_) fun b hf => .inl ?_
  · simp only [hpc, Pc.owes, List.mem_cons, List.not_mem_nil, or_false] at hd ⊢
    rcases hd with rfl | rfl
    · -- the block points to the next one now
      have hnone := (open_goto.mp ho).2
      rw [block_setBlock, if_pos rfl] at hnone
      cases hnone
    · rfl
  · have hslot : (s.setBlock block { s.queue.blocks block with next := some new }).slot b i =
        s.slot b i := slot_setBlock_same rfl
    exact hslot ▸ hd
  · have hkept : ((s.setBlock block
        { s.queue.blocks block with next := some new }).queue.blocks b).freed = true := hf
    rw [block_setBlock] at hkept
    split at hkept
    · rename_i hb
      exact hb ▸ hkept
    · exact hkept

theorem freed_setSlot {b i n : Nat} {slot : Slot α} :
    ((s.setSlot b i slot).queue.blocks n).freed = (s.queue.blocks n).freed := by
  by_cases hn : n = b
  · subst hn
    simp [State.setSlot, State.setBlock]
  · simp [State.setSlot, State.setBlock, hn]

/-- No bit of a slot is taken back, so that only its block may be opened. -/
theorem open_setSlot {d : Debt} {b i : Nat} {slot : Slot α}
    (hwrite : slot.write = false → (s.slot b i).write = false)
    (hread : slot.read = false → (s.slot b i).read = false) (hd : d.Open (s.setSlot b i slot)) :
    d.Open s ∨ d = .free b := by
  cases d with
  | tailEnd => exact .inl hd
  | headEnd => exact .inl hd
  | install => exact .inl hd
  | link n => exact .inl ⟨hd.1, by rw [← next_setSlot]; exact hd.2⟩
  | write n =>
    refine .inl ⟨hd.1, ?_⟩
    have hbit := hd.2
    rw [slot_setSlot] at hbit
    split at hbit
    · rename_i heq
      rw [heq.1, heq.2]
      exact hwrite hbit
    · exact hbit
  | mark n =>
    refine .inl ⟨hd.1, hd.2.1, ?_⟩
    have hbit := hd.2.2
    rw [slot_setSlot] at hbit
    split at hbit
    · rename_i heq
      rw [heq.1, heq.2]
      exact hread hbit
    · exact hbit
  | free n =>
    by_cases hn : n = b
    · exact .inr (by rw [hn])
    · obtain ⟨hle, hfreed, hbits⟩ := hd
      refine .inl ⟨hle, by rwa [freed_setSlot] at hfreed, fun j hj => ?_⟩
      have hbit := hbits j hj
      rwa [slot_setSlot, if_neg fun h => hn h.1] at hbit

theorem open_setSlot_free {b i : Nat} {slot : Slot α}
    (hbits : (slot.destroy = true → slot.read = true) →
      (s.slot b i).destroy = true → (s.slot b i).read = true)
    (hd : (Debt.free b).Open (s.setSlot b i slot)) : (Debt.free b).Open s := by
  obtain ⟨hle, hfreed, hall⟩ := hd
  refine ⟨hle, by rwa [freed_setSlot] at hfreed, fun j hj => ?_⟩
  have hbit := hall j hj
  rw [slot_setSlot] at hbit
  split at hbit
  · rename_i heq
    rw [heq.2]
    exact hbits hbit
  · exact hbit

theorem open_congr {d : Debt} (hqueue : t.queue = s.queue) (hclaims : t.claims = s.claims)
    (hpopped : t.popped = s.popped) : d.Open t ↔ d.Open s := by
  cases d <;> simp only [Debt.Open, State.slot, hqueue, hclaims, hpopped]

/-- A step at one slot. -/
theorem Owed.setSlot {b i : Nat} {slot : Slot α} {pc : Pc α} (h : Owed s)
    (hqueue : t.queue = (s.setSlot b i slot).queue) (hclaims : t.claims = s.claims)
    (hpopped : t.popped = s.popped) (hcalls : t.calls = Function.update s.calls id pc)
    (hwrite : slot.write = false → (s.slot b i).write = false)
    (hread : slot.read = false → (s.slot b i).read = false)
    (hdestroy : slot.destroy = true → (s.slot b i).destroy = true ∨ 31 * (b + 1) ≤ s.popped)
    (hfree : .free b ∈ pc.owes ∨ ((slot.destroy = true → slot.read = true) →
      (s.slot b i).destroy = true → (s.slot b i).read = true))
    (hpaid : ∀ d ∈ (s.calls id).owes, d.Open (s.setSlot b i slot) → d ∈ pc.owes)
    (hself : CallShape s.popped pc) : Owed t := by
  have hopen {d : Debt} : d.Open t ↔ d.Open (s.setSlot b i slot) :=
    open_congr hqueue hclaims hpopped
  have hslot (n j : Nat) : t.slot n j = (s.setSlot b i slot).slot n j := by
    rw [State.slot, hqueue]
    rfl
  refine h.step hcalls hpopped.ge (hpopped ▸ hself) (fun d hd => ?_)
    (fun d hd ho => hpaid d hd (hopen.mp ho)) (fun n j hd => ?_) fun n hf => .inl ?_
  · rcases open_setSlot hwrite hread (hopen.mp hd) with hold | rfl
    · exact .inl hold
    · rcases hfree with howes | hbits
      · exact .inr howes
      · exact .inl (open_setSlot_free hbits (hopen.mp hd))
  · rw [hslot, slot_setSlot] at hd
    rw [hpopped]
    split at hd
    · rename_i heq
      rw [heq.1, heq.2]
      exact hdestroy hd
    · exact .inl hd
  · rw [hqueue, freed_setSlot] at hf
    exact hf

theorem Owed.pushWrite {v : α} {tail block : Nat} (h : Owed s)
    (hpc : s.calls id = .pushWrite v tail block) :
    Owed ((s.setSlot block (offset tail)
      { s.slot block (offset tail) with value := some v }).goto id (.pushSet tail block)) :=
  h.setSlot rfl rfl rfl rfl (fun hw => hw) (fun hr => hr) .inl
    (.inr fun hb => hb) (fun d hd _ => by simpa [hpc, Pc.owes] using hd) trivial

theorem Owed.pushSet {tail block : Nat} (h : Owed s) (hpc : s.calls id = .pushSet tail block)
    (hblock : block = tail / 2 / 32) (hoff : tail / 2 % 32 < 31) :
    Owed ((s.setSlot block (offset tail)
      { s.slot block (offset tail) with write := true }).ret id .pushed) := by
  refine h.setSlot rfl rfl rfl rfl (fun hw => ?_) (fun hr => hr)
    .inl (.inr fun hb => hb) (fun d hd ho => ?_) trivial
  · cases hw
  · simp only [hpc, Pc.owes, List.mem_singleton] at hd
    subst hd
    have hbit := ho.2
    rw [ticket_div hoff, ticket_mod hoff, slot_setSlot, if_pos ⟨hblock.symm, by simp⟩] at hbit
    cases hbit

theorem Owed.popRead {head block : Nat} {v : Option α} (h : Owed s)
    (hpc : s.calls id = .popRead head block) (hblock : block = head / 2 / 32)
    (hoff : head / 2 % 32 < 31) (hclaimed : ticket head < s.popped) :
    Owed ((s.setSlot block (offset head) { s.slot block (offset head) with value := none }).goto id
      (if offset head + 1 = blockCap then .destroyLoad block 0 v else .popSet head block v)) := by
  refine h.setSlot rfl rfl rfl rfl (fun hw => hw) (fun hr => hr) .inl
    (.inr fun hb => hb) (fun d hd _ => ?_) ?_
  · simp only [hpc, Pc.owes] at hd
    split at hd <;> rename_i hend
    · rw [if_pos hend]
      exact hd
    · rw [if_neg hend]
      exact hd
  · simp only [offset_eq, blockCap_eq]
    unfold ticket at hclaimed
    split
    · simp only [CallShape]
      omega
    · simp only [CallShape]
      omega

theorem Owed.popSet {head block : Nat} {v : Option α} (h : Owed s)
    (hpc : s.calls id = .popSet head block v) :
    Owed (if (s.slot block (offset head)).destroy then
      (s.setSlot block (offset head) { s.slot block (offset head) with read := true }).goto id
        (.destroyLoad block (offset head + 1) v)
      else (s.setSlot block (offset head) { s.slot block (offset head) with read := true }).ret id
        (.popped v)) := by
  obtain ⟨hblock, hoff⟩ : CallShape s.popped (.popSet head block v) := hpc ▸ h.calls id
  -- the slot is marked, whatever becomes of the block
  have hpaid (d : Debt) (hd : d ∈ (s.calls id).owes) : ¬d.Open (s.setSlot block (offset head)
      { s.slot block (offset head) with read := true }) := by
    intro ho
    simp only [hpc, Pc.owes, List.mem_singleton] at hd
    subst hd
    have hbit := ho.2.2
    rw [ticket_div (by omega), ticket_mod (by omega), slot_setSlot,
      if_pos ⟨hblock.symm, by simp⟩] at hbit
    cases hbit
  split
  · rename_i hdestroy
    exact h.setSlot rfl rfl rfl rfl (fun hw => hw)
      (fun hr => by cases hr) .inl (.inl (by simp [Pc.owes]))
      (fun d hd ho => absurd ho (hpaid d hd)) (h.destroy _ _ hdestroy)
  · rename_i hdestroy
    exact h.setSlot rfl rfl rfl rfl (fun hw => hw)
      (fun hr => by cases hr) .inl (.inr fun _ hd => absurd hd hdestroy)
      (fun d hd ho => absurd ho (hpaid d hd)) trivial

theorem Owed.destroyOr {block i : Nat} {v : Option α} (h : Owed s)
    (hpc : s.calls id = .destroyOr block i v) :
    Owed (if (s.slot block i).read then
      (s.setSlot block i { s.slot block i with destroy := true }).goto id
        (.destroyLoad block (i + 1) v)
      else (s.setSlot block i { s.slot block i with destroy := true }).ret id (.popped v)) := by
  obtain ⟨hle, hi⟩ : CallShape s.popped (.destroyOr block i v) := hpc ▸ h.calls id
  split
  · rename_i hread
    exact h.setSlot rfl rfl rfl rfl (fun hw => hw) (fun hr => hr)
      (fun _ => .inr hle) (.inl (by simp [Pc.owes]))
      (fun d hd _ => by simpa [hpc, Pc.owes] using hd) hle
  · rename_i hread
    refine h.setSlot rfl rfl rfl rfl (fun hw => hw)
      (fun hr => hr) (fun _ => .inr hle) (.inr fun hb _ => hb rfl) (fun d hd ho => ?_) trivial
    -- the duty is handed over to the pop that has not marked the slot yet
    simp only [hpc, Pc.owes, List.mem_singleton] at hd
    subst hd
    have hbit := ho.2.2 i hi
    rw [slot_setSlot, if_pos ⟨rfl, rfl⟩] at hbit
    exact absurd (hbit rfl) hread

theorem Owed.destroyEnd {block i : Nat} {v : Option α} (h : Owed s)
    (hpc : s.calls id = .destroyLoad block i v) :
    Owed ((s.setBlock block { s.queue.blocks block with freed := true }).ret id (.popped v)) := by
  have hle : CallShape s.popped (.destroyLoad block i v) := hpc ▸ h.calls id
  refine h.step rfl le_rfl trivial
    (fun d hd => .inl (open_setBlock (open_ret.mp hd) rfl (fun hn => hn) fun hf => by cases hf))
    (fun d hd ho => ?_) (fun b j hd => .inl ?_) fun b hf => ?_
  · simp only [hpc, Pc.owes, List.mem_singleton] at hd
    subst hd
    have hkept := (open_ret.mp ho).2.1
    rw [block_setBlock, if_pos rfl] at hkept
    cases hkept
  · have hslot : (s.setBlock block { s.queue.blocks block with freed := true }).slot b j =
        s.slot b j := slot_setBlock_same rfl
    exact hslot ▸ hd
  · have hmarked : ((s.setBlock block
        { s.queue.blocks block with freed := true }).queue.blocks b).freed = true := hf
    rw [block_setBlock] at hmarked
    split at hmarked
    · rename_i hb
      exact .inr (hb ▸ hle)
    · exact .inl hmarked

theorem Owed.popClaim {head newHead block : Nat} (h : Owed s) (hinv : Inv s g)
    (hoff : head / 2 % 32 < 31) (hindex : s.queue.head.index = head)
    (hblock : block = head / 2 / 32) (hnew : newHead / 2 = head / 2 + 1)
    (howes : (s.calls id).owes = []) :
    Owed ({ s.setHead { s.queue.head with index := newHead } with popped := s.popped + 1 }.goto id
      (if offset head + 1 = blockCap then .popNext head newHead block
        else .popWait head block)) := by
  obtain ⟨-, hpopped⟩ := hinv.head_ticket (by rw [hindex]; exact hoff)
  rw [hindex] at hpopped
  refine h.step rfl (Nat.le_succ _) ?_ (fun d hd => ?_) (by simp [howes])
    (fun _ _ hd => .inl hd) fun _ hf => .inl hf
  · split <;> trivial
  · cases d with
    | headEnd =>
      have hend : offset newHead = blockCap := hd
      rw [offset_eq, blockCap_eq] at hend
      rw [if_pos (by rw [offset_eq, blockCap_eq]; omega)]
      exact .inr (by simp [Pc.owes])
    | mark n =>
      obtain ⟨hlt, hn, hread⟩ := hd
      have hlt : n < s.popped + 1 := hlt
      rcases Nat.lt_succ_iff_lt_or_eq.mp hlt with hold | rfl
      · exact .inl ⟨hold, hn, hread⟩
      · have hmid : ¬offset head + 1 = blockCap := by
          rw [hpopped, ticket_mod hoff] at hn
          rw [offset_eq, blockCap_eq]
          omega
        rw [if_neg hmid]
        exact .inr (by simp only [Pc.owes, if_neg hmid, hpopped, List.mem_singleton])
    | free b =>
      obtain ⟨hle, hfreed, hbits⟩ := hd
      have hle : 31 * (b + 1) ≤ s.popped + 1 := hle
      rcases Nat.le_succ_iff.mp hle with hold | hlast
      · exact .inl ⟨hold, hfreed, hbits⟩
      · unfold ticket at hpopped
        obtain rfl : b = block := by omega
        rw [if_pos (by rw [offset_eq, blockCap_eq]; omega)]
        exact .inr (by simp [Pc.owes])
    | tailEnd => exact .inl hd
    | install => exact .inl hd
    | link b => exact .inl hd
    | write n => exact .inl hd

theorem Owed.popStoreBlock {head nextIndex block next : Nat} (h : Owed s)
    (hpc : s.calls id = .popStoreBlock head nextIndex block next) :
    Owed ((s.setHead { s.queue.head with block := some next }).goto id
      (.popStoreIndex head nextIndex block)) := by
  refine h.step rfl le_rfl ?_ (fun d hd => ?_) (fun d hd _ => ?_)
    (fun _ _ hd => .inl hd) fun _ hf => .inl hf
  · have hshape : CallShape s.popped (.popStoreBlock head nextIndex block next) := hpc ▸ h.calls id
    exact hshape
  · rcases open_setHead (open_goto.mp hd) with hold | rfl | rfl
    · exact .inl hold
    · exact .inl hd
    · cases hd.2
  · simpa [hpc, Pc.owes] using hd

theorem Owed.popStoreIndex {head nextIndex block : Nat} (h : Owed s)
    (hpc : s.calls id = .popStoreIndex head nextIndex block)
    (hnext : nextIndex / 2 = 32 * (block + 1)) :
    Owed ((s.setHead { s.queue.head with index := nextIndex }).goto id (.popWait head block)) := by
  have hoff : CallShape s.popped (.popStoreIndex head nextIndex block) := hpc ▸ h.calls id
  have hstart : ¬Debt.Open (s.setHead { s.queue.head with index := nextIndex }) .headEnd := by
    intro hend
    have hend : offset nextIndex = blockCap := hend
    rw [offset_eq, blockCap_eq] at hend
    omega
  refine h.step rfl le_rfl trivial (fun d hd => ?_)
    (fun d hd ho => ?_) (fun _ _ hd => .inl hd) fun _ hf => .inl hf
  · rcases open_setHead (open_goto.mp hd) with hold | rfl | rfl
    · exact .inl hold
    · exact absurd (open_goto.mp hd) hstart
    · exact .inl hd
  · simp only [hpc, Pc.owes, List.mem_cons, List.not_mem_nil, or_false] at hd
    rcases hd with rfl | rfl
    · exact absurd (open_goto.mp ho) hstart
    · have hlast : offset head + 1 = blockCap := by
        simp only [CallShape] at hoff
        rw [offset_eq, blockCap_eq]
        omega
      rw [Pc.owes, if_pos hlast]
      exact List.mem_singleton_self _

theorem Owed.closeOr {res : Res α} (h : Owed s) (hpc : s.calls id = .closeOr) :
    Owed ((s.setTail
      { s.queue.tail with index := s.queue.tail.index ||| markBit }).ret id res) := by
  refine h.step rfl le_rfl trivial
    (fun d hd => ?_) (by simp [hpc, Pc.owes]) (fun _ _ hd => .inl hd) fun _ hf => .inl hf
  rcases open_setTail (open_ret.mp hd) with hold | rfl | rfl
  · exact .inl hold
  · have hend : offset (s.queue.tail.index ||| markBit) = blockCap := hd
    rw [offset_eq, mark_div, ← offset_eq] at hend
    exact .inl hend
  · exact .inl hd

/-- A step of a call that owes nothing, and goes on or returns. -/
theorem Owed.free_goto {pc : Pc α} (h : Owed s) (howes : (s.calls id).owes = [])
    (hself : CallShape s.popped pc) : Owed (s.goto id pc) :=
  h.goto (by simp [howes]) hself

theorem Owed.free_ret {res : Res α} (h : Owed s) (howes : (s.calls id).owes = []) :
    Owed (s.ret id res) :=
  h.ret (by simp [howes])

theorem Owed.pushLoop {v : α} {next : Bool} {tail : Nat} {block : Option Nat} (h : Owed s)
    (howes : (s.calls id).owes = []) : Owed (pushLoop s id v next tail block) := by
  unfold Unbounded.pushLoop
  split_ifs
  · exact h.free_ret howes
  · exact h.free_goto howes trivial
  · cases block with
    | none => exact h.free_goto howes trivial
    | some b => exact h.free_goto howes trivial

theorem Owed.popLoop {head : Nat} {block : Option Nat} (h : Owed s)
    (howes : (s.calls id).owes = []) : Owed (popLoop s id head block) := by
  unfold Unbounded.popLoop
  split_ifs
  · exact h.free_goto howes trivial
  · cases block with
    | none => exact h.free_goto howes trivial
    | some b => exact h.free_goto howes trivial
  · exact h.free_goto howes trivial

theorem Owed.popCheck {head tail : Nat} {block : Option Nat} (h : Owed s)
    (howes : (s.calls id).owes = []) : Owed (popCheck s id head tail block) := by
  unfold Unbounded.popCheck
  split
  · exact h.free_ret howes
  · cases block with
    | none => exact h.free_goto howes trivial
    | some b => exact h.free_goto howes trivial

theorem Popping.lt_popped {head block : Nat} (hpop : Popping s g id head block) (hinv : Inv s g) :
    ticket head < s.popped := by
  by_contra hle
  have hread := (hinv.slots (ticket head)).read.mpr (Nat.le_of_not_lt hle)
  rw [hpop.phase] at hread
  cases hread

theorem exec_owed {weak : Bool} (h : Owed s) (hinv : Inv s g) (ht : exec s id weak = some t) :
    Owed t := by
  have hcall := hinv.calls id
  cases hpc : s.calls id <;> simp only [exec, hpc, reduceCtorEq, Option.some.injEq] at ht <;>
    rw [hpc] at hcall
  case pushIndex v next =>
    subst ht
    exact h.free_goto (by simp [hpc, Pc.owes]) trivial
  case pushBlock v next tail =>
    subst ht
    exact h.pushLoop (by simp [hpc, Pc.owes])
  case pushInstall v next tail =>
    subst ht
    cases hb : s.queue.tail.block with
    | none =>
      simp only
      exact h.pushInstall hinv hpc hb
    | some b => exact h.free_goto (by simp [hpc, Pc.owes]) trivial
  case pushHead v next tail block =>
    subst ht
    exact h.pushHead hpc
  case pushCas v next tail block =>
    subst ht
    have howes : (s.calls id).owes = [] := by rw [hpc, Pc.owes]
    obtain ⟨-, -, hready, -, hblock⟩ := hcall
    have hoff := hready.offset
    simp only [offset_eq, blockCap_eq, one_shift]
    split_ifs with hcas hend hnext
    · exact h.pushClaim hinv hready hcas.2 howes (.inl ⟨by omega, rfl⟩)
    · exact absurd (hready.next (by omega)) hnext
    · exact h.pushClaim hinv hready hcas.2 howes (.inr ⟨by omega, rfl⟩)
    · exact h.free_goto howes trivial
  case pushStoreBlock v tail block =>
    subst ht
    exact h.pushStoreBlock hinv hpc hcall.2
  case pushAdd v tail block new =>
    subst ht
    exact h.pushAdd hinv hpc hcall.2.1
  case pushNext v tail block new =>
    subst ht
    exact h.pushNext hpc
  case pushWrite v tail block =>
    subst ht
    exact h.pushWrite hpc
  case pushSet tail block =>
    subst ht
    obtain ⟨v, hpush⟩ := hcall
    exact h.pushSet hpc hpush.block hpush.offset
  case popIndex =>
    subst ht
    exact h.free_goto (by simp [hpc, Pc.owes]) trivial
  case popBlock head =>
    subst ht
    exact h.popLoop (by simp [hpc, Pc.owes])
  case popTail head block =>
    subst ht
    exact h.popCheck (by simp [hpc, Pc.owes])
  case popCas head newHead block =>
    subst ht
    have howes : (s.calls id).owes = [] := by rw [hpc, Pc.owes]
    obtain ⟨-, -, -, hoff, -, hblock, hnew, -⟩ := hcall
    split
    · rename_i hcas
      exact h.popClaim hinv hoff hcas.2 (hblock (by rw [hcas.2])) hnew howes
    · exact h.free_goto howes trivial
  case popNext head newHead block =>
    cases hn : (s.queue.blocks block).next with
    | none =>
      simp only [hn, Option.some.injEq] at ht
      exact ht ▸ h
    | some next =>
      simp only [hn, Option.some.injEq] at ht
      subst ht
      exact h.goto (by simp [hpc, Pc.owes]) trivial
  case popPeek head newHead block next =>
    subst ht
    exact h.goto (by simp [hpc, Pc.owes]) hcall.2.2.2.1
  case popStoreBlock head nextIndex block next =>
    subst ht
    exact h.popStoreBlock hpc
  case popStoreIndex head nextIndex block =>
    subst ht
    exact h.popStoreIndex hpc hcall.2.2.1
  case popWait head block =>
    split at ht
    · cases ht
      exact h.goto (by simp [hpc, Pc.owes]) trivial
    · cases ht
      exact h
  case popRead head block =>
    subst ht
    exact h.popRead hpc hcall.1.block hcall.1.offset (hcall.1.lt_popped hinv)
  case popSet head block v =>
    subst ht
    exact h.popSet hpc
  case destroyLoad block i v =>
    subst ht
    have hle : CallShape s.popped (.destroyLoad block i v) := hpc ▸ h.calls id
    split
    · rename_i hi
      rw [blockCap_eq] at hi
      refine h.goto ?_ ?_
      · split <;> simp [hpc, Pc.owes]
      · split
        · exact hle
        · exact ⟨hle, hi⟩
    · exact h.destroyEnd hpc
  case destroyOr block i v =>
    subst ht
    exact h.destroyOr hpc
  case closeOr =>
    subst ht
    exact h.closeOr hpc

theorem step_owed {a : Act α} (h : Owed s) (hinv : Inv s g) (ht : step s a = some t) :
    Owed t := by
  cases a with
  | step id weak => exact exec_owed h hinv ht
  | call id op =>
    simp only [step] at ht
    split at ht
    · rename_i hpc
      cases ht
      refine h.step rfl le_rfl ?_ (fun d hd => .inl ?_)
        (by simp [hpc, Pc.owes]) (fun _ _ hd => .inl hd) fun _ hf => .inl hf
      · cases op <;> trivial
      · exact (open_congr rfl rfl rfl).mp hd
    · cases ht

theorem owed_new : Owed (new : State α) := by
  refine ⟨fun d hd => ?_, fun _ => trivial, ?_, ?_⟩
  · cases d with
    | tailEnd => simp [Debt.Open, new] at hd
    | headEnd => simp [Debt.Open, new] at hd
    | install => exact absurd rfl hd.1
    | link b => exact absurd hd.1 (Nat.not_lt_zero _)
    | write n => exact absurd hd.1 (Nat.not_lt_zero _)
    | mark n => exact absurd hd.1 (Nat.not_lt_zero _)
    | free b => exact absurd hd.1 (by simp [new])
  · intro b i hb
    cases hb
  · intro b hb
    cases hb

theorem owed_reachable (h : system.Reachable s) : Owed s := by
  have hboth : (∃ g, Inv s g) ∧ Owed s := by
    refine h.invariant (I := fun s => (∃ g, Inv s g) ∧ Owed s) ⟨⟨_, inv_new⟩, owed_new⟩ ?_
    rintro s a t ⟨⟨g, hinv⟩, howed⟩ ht
    exact ⟨inv_step hinv ht, step_owed howed hinv ht⟩
  exact hboth.2

end Steps

section AtRest

variable {s : State α} {g : Ghost α}

/-- A call that owes something is in progress. -/
theorem Owed.closed (h : Owed s) (hinv : Inv s g) (hc : Complete s.hist) (d : Debt) :
    ¬d.Open s := by
  intro hd
  obtain ⟨id, hid⟩ := h.debts d hd
  have hcall := hinv.calls id
  have hclosed {op : Op α} (hopen : Open s id op) : False := by
    obtain ⟨res, hres⟩ := hc.returned hopen.1
    exact hopen.2 res hres
  cases hpc : s.calls id <;> rw [hpc] at hcall hid
  case pushHead => exact hclosed hcall.1
  case pushStoreBlock => exact hclosed hcall.1.called
  case pushAdd => exact hclosed hcall.1.called
  case pushNext => exact hclosed hcall.1.called
  case pushWrite => exact hclosed hcall.called
  case pushSet =>
    obtain ⟨v, hpush⟩ := hcall
    exact hclosed hpush.called
  case popNext => exact hclosed hcall.1.called
  case popPeek => exact hclosed hcall.1.called
  case popStoreBlock => exact hclosed hcall.1.called
  case popStoreIndex => exact hclosed hcall.1.called
  case popWait => exact hclosed hcall.called
  case popRead => exact hclosed hcall.1.called
  case popSet => exact hclosed hcall.1
  case destroyLoad => exact hclosed hcall.1
  case destroyOr => exact hclosed hcall.1
  all_goals exact absurd hid List.not_mem_nil

/-- The positions and the blocks when all calls have returned. -/
structure Rested (s : State α) : Prop where
  tail : s.queue.tail.index / 2 = raw s.claims.length
  head : s.queue.head.index / 2 = raw s.popped
  blocks : s.queue.head.block = none ∧ s.queue.published = 0 ∧ s.claims.length = 0 ∨
    s.queue.head.block = some (s.popped / 31) ∧ s.queue.published = s.claims.length / 31 + 1
  ordered : s.popped ≤ s.claims.length
  next : ∀ b, b + 1 < s.queue.published → (s.queue.blocks b).next = some (b + 1)
  value : ∀ n, s.popped ≤ n → n < s.claims.length →
    (s.slot (n / 31) (n % 31)).value = s.claims[n]?
  freed : ∀ b, (s.queue.blocks b).freed = true ↔ 31 * (b + 1) ≤ s.popped

theorem Owed.rested (h : Owed s) (hinv : Inv s g) (hc : Complete s.hist) : Rested s := by
  have hclosed := h.closed hinv hc
  have htail := hinv.tail
  have hhead := hinv.head
  have htailM : g.tailMover = none := by
    cases hm : g.tailMover with
    | none => rfl
    | some m =>
      simp only [hm, TailOk] at htail
      refine absurd ?_ (hclosed .tailEnd)
      rw [Debt.Open, offset_eq, blockCap_eq]
      omega
  have hheadM : g.headMover = none := by
    cases hm : g.headMover with
    | none => rfl
    | some m =>
      simp only [hm, HeadOk] at hhead
      refine absurd ?_ (hclosed .headEnd)
      rw [Debt.Open, offset_eq, blockCap_eq]
      omega
  simp only [htailM, TailOk] at htail
  simp only [hheadM, HeadOk] at hhead
  refine ⟨htail.1, hhead.1, ?_, hinv.ordered, fun b hb => ?_, fun n hle hlt => ?_, fun b => ?_⟩
  · rcases htail.2 with ⟨hnone, hpub, hlen⟩ | ⟨hsome, hpub⟩
    · exact .inl ⟨hinv.first hnone, hpub, hlen⟩
    · refine .inr ⟨?_, hpub⟩
      rcases hhead.2 with ⟨hnone, -⟩ | hblock
      · exact absurd ⟨by simp [hsome], hnone⟩ (hclosed .install)
      · exact hblock
  · obtain ⟨c, hc⟩ := Option.ne_none_iff_exists'.mp fun hnone => hclosed (.link b) ⟨hb, hnone⟩
    rw [hc, (hinv.next b c hc).1]
  · have hwrite : (s.slot (n / 31) (n % 31)).write ≠ false :=
      fun hno => hclosed (.write n) ⟨hlt, hno⟩
    have hok := (hinv.slots n).write
    have hunread := (hinv.slots n).read.mpr hle
    cases hw : g.writes n <;> simp only [hw, WriteOk] at hok
    case written => exact hok.2.2 (by simp [hunread])
    case free => exact absurd hok.2.2.1 hwrite
    case writing => exact absurd hok.2.2.1 hwrite
    case wrote => exact absurd hok.2.2.1 hwrite
  · refine ⟨h.freed b, fun hle => ?_⟩
    -- all slots before the last one are marked, so that the block waits for none of them
    by_contra hfreed
    refine hclosed (.free b) ⟨hle, by simpa using hfreed, fun i hi _ => ?_⟩
    by_contra hread
    refine hclosed (.mark (31 * b + i)) ⟨by omega, by omega, ?_⟩
    rw [show (31 * b + i) / 31 = b by omega, show (31 * b + i) % 31 = i by omega]
    simpa using hread

end AtRest

end Cynthia.Queue.Unbounded
