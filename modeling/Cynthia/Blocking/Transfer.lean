import Cynthia.Blocking.PipeFifo

/-! One call of `drain` or `fill` as a whole: what it has moved so far is what it is
going to count, and it answers `0` only for a reason. -/

namespace Cynthia.Blocking

open Transition

/-- What `dest.write` gets of the next slice when it answers `n`. -/
def copied (p : State) (n : Nat) : List (Option UInt8) :=
  match p.rpc with
  | .write _ => (slice p.pipe.buffer (realIndex p.pipe.cap p.r.head) (offered p)).take n
  | _ => []

/-- The next access of a running `drain` whose destination answers `n`. -/
def drainAct (p : State) (yields : Bool) (n : Nat) : Act :=
  match p.rpc with
  | .maybeYield => .readerYield yields
  | .write _ => .destWrite (.ok n)
  | _ => .readerStep

/-- What a running `fill` gets when its source has `data` next. -/
def supplied (p : State) (data : List UInt8) : List UInt8 :=
  match p.wpc with
  | .read _ => data
  | _ => []

/-- The next access of a running `fill` whose source has `data` next. -/
def fillAct (p : State) (yields : Bool) (data : List UInt8) : Act :=
  match p.wpc with
  | .maybeYield => .writerYield yields
  | .read _ => .srcRead (.ok data)
  | _ => .writerStep

/-- The `drain` in progress has put `got` into its destination, or the last one had. -/
def DrainOk (p : State) (got : List (Option UInt8)) : Prop :=
  match p.rpc with
  | .write count | .storeHead count | .wakeWriter count => count = got.length
  | .idle => (∀ n, p.rret = some (.ready (.ok n)) → n = got.length) ∧
    ((∀ res, p.rret ≠ some (.ready res)) → got = [])
  | _ => got = []

/-- The `fill` in progress has taken `k` bytes from its source, or the last one had. -/
def FillOk (p : State) (k : Nat) : Prop :=
  match p.wpc with
  | .read count | .wakeReader count | .checkClosed count _ | .storeTail count _ => count = k
  | .idle => (∀ n, p.wret = some (.ready (.ok n)) → n = k) ∧
    ((∀ res, p.wret ≠ some (.ready res)) → k = 0)
  | _ => k = 0

variable {p q : State} {a : Act} {yields : Bool} {n k : Nat} {cx : Waker} {data : List UInt8}
  {got : List (Option UInt8)}

/-! ## Reading -/

/-- The destination has answered `n` to the next slice. -/
def delivered (p : State) (count n : Nat) : State :=
  if n = 0 then { returnR p (.ready (.ok (count + n))) with refused := decide (0 < offered p) }
  else { p with
    r := { p.r with head := advance p.pipe.cap p.r.head n }
    rpc := .storeHead (count + n)
    handed := p.handed ++
      (slice p.pipe.buffer (realIndex p.pipe.cap p.r.head) (offered p)).take n }

/-- The accesses of a running `drain`. -/
theorem drainAct_cases (ht : step p (drainAct p yields n) = some q) :
    (p.rpc = .maybeYield ∧
      q = if yields then returnR p .pending else { p with rpc := .write 0 }) ∨
    (∃ count, p.rpc = .write count ∧ n ≤ offered p ∧ q = delivered p count n) ∨
    readerStep p = some q := by
  unfold drainAct at ht
  split at ht
  · rename_i hpc
    rw [step, if_pos hpc] at ht
    cases ht
    exact .inl ⟨hpc, rfl⟩
  · rename_i count hpc
    simp only [step, destWrite, hpc] at ht
    split at ht
    · rename_i hle
      refine .inr (.inl ⟨count, hpc, hle, ?_⟩)
      unfold delivered
      split at ht
      · rename_i hzero
        cases ht
        rw [if_pos hzero]
      · rename_i hpos
        cases ht
        rw [if_neg hpos]
    · cases ht
  · exact .inr (.inr ht)

theorem drain_eq (ht : step p (.drain cx) = some q) :
    p.rpc = .idle ∧ q = { p with rpc := .load, rcx := cx, rret := none, refused := false } := by
  simp only [step] at ht
  split at ht
  · rename_i hpc
    cases ht
    exact ⟨hpc, rfl⟩
  · cases ht

theorem dropReader_eq (ht : step p .dropReader = some q) :
    p.rpc = .idle ∧ q = { p with rpc := .close } := by
  simp only [step] at ht
  split at ht
  · rename_i hpc
    cases ht
    exact ⟨hpc, rfl⟩
  · cases ht

/-- An access of the reading side that returns nothing leads from one program point to
the next. -/
inductive DrainPc.Next : DrainPc → DrainPc → Prop
  | load {pc : DrainPc} (h : pc = .register ∨ pc = .take) : Next .load pc
  | register : Next .register .reload
  | reload {pc : DrainPc} (h : pc = .loadClosed ∨ pc = .take) : Next .reload pc
  | take : Next .take .maybeYield
  | storeHead (count : Nat) : Next (.storeHead count) (.wakeWriter count)
  | wakeWriter (count : Nat) : Next (.wakeWriter count) (.write count)
  | close : Next .close .closeWake
  | closeWake : Next .closeWake .dropped

/-- Only a return ends the call. -/
theorem DrainPc.Next.ne_idle {pc pc' : DrainPc} (h : Next pc pc') : pc' ≠ .idle := by
  cases h with
  | load h => rcases h with rfl | rfl <;> exact DrainPc.noConfusion
  | reload h => rcases h with rfl | rfl <;> exact DrainPc.noConfusion
  | register | take | storeHead | wakeWriter | close | closeWake => exact DrainPc.noConfusion

structure DrainMoves (p q : State) : Prop where
  same : SameWriter p q
  handed : q.handed = p.handed
  rret : q.rret = p.rret
  refused : q.refused = p.refused
  next : DrainPc.Next p.rpc q.rpc

theorem readerStep_cases (ht : readerStep p = some q) :
    DrainMoves p q ∨ (p.rpc = .loadClosed ∧
      q = returnR p (if p.pipe.closed then .ready (.ok 0) else .pending)) := by
  have hload : ∀ pc, (if empty (loadTail p) then pc else DrainPc.take) = pc ∨
      (if empty (loadTail p) then pc else DrainPc.take) = .take := by
    intro pc
    split
    · exact .inl rfl
    · exact .inr rfl
  unfold readerStep at ht
  split at ht
  case h_4 hpc =>
    cases ht
    exact .inr ⟨hpc, rfl⟩
  case h_1 hpc =>
    split at ht <;> cases ht
    · refine .inl ⟨⟨rfl, rfl, rfl, rfl, rfl⟩, rfl, rfl, rfl, ?_⟩
      rw [hpc]
      exact .load (hload .register)
    · refine .inl ⟨⟨rfl, rfl, rfl, rfl, rfl⟩, rfl, rfl, rfl, ?_⟩
      rw [hpc]
      exact .load (.inr rfl)
  case h_3 hpc =>
    cases ht
    refine .inl ⟨⟨rfl, rfl, rfl, rfl, rfl⟩, rfl, rfl, rfl, ?_⟩
    rw [hpc]
    exact .reload (hload .loadClosed)
  case h_10 => cases ht
  all_goals
    rename_i hpc
    cases ht
    refine .inl ⟨⟨rfl, rfl, rfl, rfl, rfl⟩, rfl, rfl, rfl, ?_⟩
    rw [hpc]
    constructor

theorem sameWriter_step (ha : a.ofReader = true) (ht : step p a = some q) : SameWriter p q :=
  (readerSignals_step ha ht).toSameWriter

theorem ofReader_drainAct (p : State) (yields : Bool) (n : Nat) :
    (drainAct p yields n).ofReader = true := by
  unfold drainAct
  split <;> rfl

theorem handed_readerStep (ht : readerStep p = some q) :
    q.handed = p.handed ∧ ∀ count, p.rpc ≠ .write count := by
  rcases readerStep_cases ht with h | ⟨hpc, rfl⟩
  · refine ⟨h.handed, fun count hpc => ?_⟩
    have hnext := h.next
    rw [hpc] at hnext
    cases hnext
  · exact ⟨rfl, by simp [hpc]⟩

theorem copied_of_ne (hpc : ∀ count, p.rpc ≠ .write count) : copied p n = [] := by
  unfold copied
  split
  · rename_i hwrite
    exact absurd hwrite (hpc _)
  · rfl

theorem length_copied {count : Nat} (hpc : p.rpc = .write count) (hn : n ≤ offered p) :
    (copied p n).length = n := by
  simp only [copied, hpc, List.length_take, length_slice]
  omega

theorem length_copied_le (p : State) (n : Nat) : (copied p n).length ≤ n := by
  unfold copied
  split
  · exact List.length_take_le _ _
  · exact Nat.zero_le _

theorem handed_drainAct (ht : step p (drainAct p yields n) = some q) :
    q.handed = p.handed ++ copied p n := by
  rcases drainAct_cases ht with ⟨hpc, rfl⟩ | ⟨count, hpc, -, rfl⟩ | ht
  · rw [copied_of_ne (by simp [hpc]), List.append_nil]
    split <;> rfl
  · unfold delivered
    split
    · rename_i hzero
      simp [copied, hpc, hzero, returnR]
    · simp [copied, hpc]
  · obtain ⟨hhanded, hpc⟩ := handed_readerStep ht
    rw [hhanded, copied_of_ne hpc, List.append_nil]

theorem DrainOk.readerStep (h : DrainOk p got) (ht : readerStep p = some q) : DrainOk q got := by
  unfold DrainOk at h ⊢
  rcases readerStep_cases ht with hm | ⟨hpc, rfl⟩
  · have hnext := hm.next
    revert h hnext
    generalize p.rpc = pc, q.rpc = pc'
    intro h hnext
    cases hnext with
    | load hpc => rcases hpc with rfl | rfl <;> exact h
    | reload hpc => rcases hpc with rfl | rfl <;> exact h
    | register | take | storeHead | wakeWriter | close | closeWake => exact h
  · -- the only return; nothing has been counted
    rw [hpc] at h
    refine ⟨fun n hn => ?_, fun _ => h⟩
    dsimp only [returnR] at hn
    split at hn
    · cases hn
      rw [h]
      rfl
    · cases hn

theorem DrainOk.drainAct (h : DrainOk p got) (ht : step p (drainAct p yields n) = some q) :
    DrainOk q (got ++ copied p n) := by
  rcases drainAct_cases ht with ⟨hpc, rfl⟩ | ⟨count, hpc, hle, rfl⟩ | ht
  · rw [copied_of_ne (by simp [hpc]), List.append_nil]
    have hgot : got = [] := by simpa [DrainOk, hpc] using h
    cases yields with
    | true => simp [DrainOk, returnR, hgot]
    | false => simp [DrainOk, hgot]
  · have hcount : count = got.length := by simpa [DrainOk, hpc] using h
    have hlen := length_copied hpc hle
    unfold delivered
    split
    · rename_i hzero
      simp [DrainOk, returnR, hlen, hcount]
    · simp [DrainOk, hlen, hcount]
  · rw [copied_of_ne (handed_readerStep ht).2, List.append_nil]
    exact h.readerStep ht

theorem rcx_drainAct (ht : step p (drainAct p yields n) = some q) : q.rcx = p.rcx := by
  rcases drainAct_cases ht with ⟨-, rfl⟩ | ⟨count, -, -, rfl⟩ | hstep
  · cases yields <;> rfl
  · unfold delivered
    split <;> rfl
  · unfold readerStep at hstep
    split at hstep
    case h_1 => split at hstep <;> cases hstep <;> rfl
    case h_10 => cases hstep
    all_goals
      cases hstep
      rfl

/-- A `drain` that comes to an end has a result. -/
theorem rret_drainAct (ht : step p (drainAct p yields n) = some q) (hidle : q.rpc = .idle) :
    q.rret ≠ none := by
  rcases drainAct_cases ht with ⟨-, rfl⟩ | ⟨count, -, -, rfl⟩ | hstep
  · cases yields with
    | true => exact Option.some_ne_none _
    | false => cases hidle
  · unfold delivered at hidle ⊢
    split at hidle
    · rename_i hzero
      rw [if_pos hzero]
      exact Option.some_ne_none _
    · cases hidle
  · rcases readerStep_cases hstep with hm | ⟨-, rfl⟩
    · exact absurd hidle hm.next.ne_idle
    · exact Option.some_ne_none _

/-! ## Writing -/

/-- The source has put `data` into the next slice. -/
def filled (p : State) (count : Nat) (data : List UInt8) : State :=
  if data.length = 0 then returnW (zeroSlice p) (.ready (.ok (count + data.length)))
  else { zeroSlice p with
    pipe := { (zeroSlice p).pipe with
      buffer := store (zeroSlice p).pipe.buffer
        (realIndex (zeroSlice p).pipe.cap (zeroSlice p).w.tail) data }
    wpc := .checkClosed (count + data.length) data }

/-- The accesses of a running `fill`. -/
theorem fillAct_cases (ht : step p (fillAct p yields data) = some q) :
    (p.wpc = .maybeYield ∧
      q = if yields then returnW p .pending else { p with wpc := .read 0 }) ∨
    (∃ count, p.wpc = .read count ∧ data.length ≤ requested p ∧ q = filled p count data) ∨
    (writerStep p = some q ∧ ∀ count, p.wpc ≠ .read count) := by
  unfold fillAct at ht
  split at ht
  · rename_i hpc
    rw [step, if_pos hpc] at ht
    cases ht
    exact .inl ⟨hpc, rfl⟩
  · rename_i count hpc
    simp only [step, srcRead, hpc] at ht
    split at ht
    · rename_i hle
      refine .inr (.inl ⟨count, hpc, hle, ?_⟩)
      split at ht
      · rename_i hzero
        obtain rfl := Option.some.inj ht
        exact (if_pos hzero).symm
      · rename_i hpos
        obtain rfl := Option.some.inj ht
        exact (if_neg hpos).symm
    · cases ht
  · rename_i hread
    exact .inr (.inr ⟨ht, hread⟩)

theorem fill_eq (ht : step p (.fill cx) = some q) :
    p.wpc = .idle ∧ q = { p with wpc := .loadClosed, wcx := cx, wret := none } := by
  simp only [step] at ht
  split at ht
  · rename_i hpc
    cases ht
    exact ⟨hpc, rfl⟩
  · cases ht

theorem dropWriter_eq (ht : step p .dropWriter = some q) :
    p.wpc = .idle ∧ q = { p with wpc := .close } := by
  simp only [step] at ht
  split at ht
  · rename_i hpc
    cases ht
    exact ⟨hpc, rfl⟩
  · cases ht

/-- An access of the writing side that returns nothing leads from one program point to
the next. -/
inductive FillPc.Next : FillPc → FillPc → Prop
  | loadClosed : Next .loadClosed .load
  | load {pc : FillPc} (h : pc = .register ∨ pc = .take) : Next .load pc
  | register : Next .register .reload
  | reload {pc : FillPc} (h : pc = .loadClosedFull ∨ pc = .take) : Next .reload pc
  | take : Next .take .maybeYield
  | checkClosed (count : Nat) (data : List UInt8) :
      Next (.checkClosed count data) (.storeTail count data)
  | storeTail (count : Nat) (data : List UInt8) : Next (.storeTail count data) (.wakeReader count)
  | wakeReader (count : Nat) : Next (.wakeReader count) (.read count)
  | close : Next .close .closeWake
  | closeWake : Next .closeWake .dropped

theorem FillPc.Next.ne_idle {pc pc' : FillPc} (h : Next pc pc') : pc' ≠ .idle := by
  cases h with
  | load h => rcases h with rfl | rfl <;> exact FillPc.noConfusion
  | reload h => rcases h with rfl | rfl <;> exact FillPc.noConfusion
  | loadClosed | register | take | checkClosed | storeTail | wakeReader | close | closeWake =>
    exact FillPc.noConfusion

structure FillMoves (p q : State) : Prop where
  same : SameReader p q
  wret : q.wret = p.wret
  published : ∃ data, q.published = p.published ++ data
  produced : produced q = produced p
  next : FillPc.Next p.wpc q.wpc

/-- Where an access of the writing side returns, and what; `none` is `Pending`. -/
inductive FillPc.Returns (closed : Bool) : FillPc → Option Nat → Prop
  | loadClosed (h : closed = true) : Returns closed .loadClosed (some 0)
  | loadClosedFull : Returns closed .loadClosedFull (if closed then some 0 else none)
  | checkClosed (count : Nat) (data : List UInt8) (h : closed = true) :
      Returns closed (.checkClosed count data) (some count)

def answer : Option Nat → Poll (Except IoError Nat)
  | some n => .ready (.ok n)
  | none => .pending

theorem produced_congr (hpub : q.published = p.published) (hpend : pending q.wpc = pending p.wpc) :
    produced q = produced p := by
  rw [produced, produced, hpub, hpend]

theorem writerStep_cases (ht : writerStep p = some q) :
    FillMoves p q ∨
      ∃ res, FillPc.Returns p.pipe.closed p.wpc res ∧ q = returnW p (answer res) := by
  have hload : ∀ pc, (if full (loadHead p) then pc else FillPc.take) = pc ∨
      (if full (loadHead p) then pc else FillPc.take) = .take := by
    intro pc
    split
    · exact .inl rfl
    · exact .inr rfl
  have quiet : ∀ {q : State}, SameReader p q → q.wret = p.wret → q.published = p.published →
      pending q.wpc = pending p.wpc → FillPc.Next p.wpc q.wpc → FillMoves p q :=
    fun hs hret hpub hpend hnext =>
      ⟨hs, hret, ⟨[], by rw [hpub, List.append_nil]⟩, produced_congr hpub hpend, hnext⟩
  unfold writerStep at ht
  split at ht
  case h_1 hpc =>
    split at ht <;> cases ht
    · rename_i hclosed
      exact .inr ⟨some 0, by rw [hpc]; exact .loadClosed hclosed, rfl⟩
    · exact .inl (quiet ⟨rfl, rfl, rfl, rfl⟩ rfl rfl (by rw [hpc]; rfl) (by rw [hpc]; constructor))
  case h_5 hpc =>
    cases ht
    refine .inr ⟨_, by rw [hpc]; exact .loadClosedFull, ?_⟩
    split <;> rfl
  case h_7 count data hpc =>
    split at ht <;> cases ht
    · rename_i hclosed
      exact .inr ⟨some count, by rw [hpc]; exact .checkClosed count data hclosed, rfl⟩
    · exact .inl (quiet ⟨rfl, rfl, rfl, rfl⟩ rfl rfl (by rw [hpc]; rfl) (by rw [hpc]; constructor))
  case h_8 count data hpc =>
    cases ht
    refine .inl ⟨⟨rfl, rfl, rfl, rfl⟩, rfl, ⟨data, rfl⟩, ?_, by rw [hpc]; constructor⟩
    simp [produced, pending, hpc]
  case h_2 hpc =>
    split at ht <;> cases ht
    · refine .inl (quiet ⟨rfl, rfl, rfl, rfl⟩ rfl rfl ?_ ?_)
      · rw [hpc]
        rcases hload .register with h | h <;> (dsimp only; rw [h]; rfl)
      · rw [hpc]
        exact .load (hload .register)
    · exact .inl (quiet ⟨rfl, rfl, rfl, rfl⟩ rfl rfl (by rw [hpc]; rfl)
        (by rw [hpc]; exact .load (.inr rfl)))
  case h_4 hpc =>
    cases ht
    refine .inl (quiet ⟨rfl, rfl, rfl, rfl⟩ rfl rfl ?_ ?_)
    · rw [hpc]
      rcases hload .loadClosedFull with h | h <;> (dsimp only; rw [h]; rfl)
    · rw [hpc]
      exact .reload (hload .loadClosedFull)
  case h_12 => cases ht
  all_goals
    rename_i hpc
    cases ht
    exact .inl (quiet ⟨rfl, rfl, rfl, rfl⟩ rfl rfl (by rw [hpc]; rfl) (by rw [hpc]; constructor))

theorem sameReader_step (ha : a.ofReader = false) (ht : step p a = some q) : SameReader p q :=
  (writerSignals_step ha ht).toSameReader

theorem ofReader_fillAct (p : State) (yields : Bool) (data : List UInt8) :
    (fillAct p yields data).ofReader = false := by
  unfold fillAct
  split <;> rfl

theorem supplied_of_ne (hpc : ∀ count, p.wpc ≠ .read count) : supplied p data = [] := by
  unfold supplied
  split
  · rename_i hread
    exact absurd hread (hpc _)
  · rfl

/-- What is published stays. -/
theorem published_fillAct (ht : step p (fillAct p yields data) = some q) :
    ∃ data, q.published = p.published ++ data := by
  rcases fillAct_cases ht with ⟨-, rfl⟩ | ⟨count, -, -, rfl⟩ | ⟨ht, -⟩
  · refine ⟨[], ?_⟩
    rw [List.append_nil]
    split <;> rfl
  · obtain ⟨-, hpub, -, -⟩ := zeroSlice_frame p
    refine ⟨[], ?_⟩
    rw [List.append_nil, ← hpub]
    unfold filled
    generalize zeroSlice p = z
    split <;> rfl
  · rcases writerStep_cases ht with h | ⟨res, -, rfl⟩
    · exact h.published
    · exact ⟨[], (List.append_nil _).symm⟩

/-- As long as no closed pipe is found, nothing is abandoned. -/
theorem produced_writerStep (hopen : ∀ count data, p.wpc = .checkClosed count data →
    p.pipe.closed = false) (ht : writerStep p = some q) : produced q = produced p := by
  rcases writerStep_cases ht with h | ⟨res, hret, rfl⟩
  · exact h.produced
  · refine produced_congr rfl ?_
    generalize hpc : p.wpc = pc at hret hopen
    cases hret with
    | loadClosed | loadClosedFull => rfl
    | checkClosed count data hclosed => exact absurd (hopen count data rfl) (by simp [hclosed])

theorem produced_fillAct (hopen : ∀ count data, p.wpc = .checkClosed count data →
    p.pipe.closed = false) (ht : step p (fillAct p yields data) = some q) :
    produced q = produced p ++ supplied p data := by
  rcases fillAct_cases ht with ⟨hpc, rfl⟩ | ⟨count, hpc, -, rfl⟩ | ⟨ht, hpc⟩
  · rw [supplied_of_ne (by simp [hpc]), List.append_nil]
    cases yields <;> exact produced_congr rfl (by rw [hpc]; rfl)
  · obtain ⟨-, hpub, -, -⟩ := zeroSlice_frame p
    have hpend : pending p.wpc = [] := by rw [hpc]; rfl
    unfold filled
    split
    · rename_i hzero
      rw [List.length_eq_zero_iff.mp hzero]
      simp only [produced, returnW, pending, supplied, hpc, hpub, List.append_nil]
    · simp only [produced, pending, supplied, hpc, hpub, List.append_nil]
  · rw [supplied_of_ne hpc, List.append_nil]
    exact produced_writerStep hopen ht

theorem FillOk.writerStep (h : FillOk p k) (ht : writerStep p = some q) : FillOk q k := by
  unfold FillOk at h ⊢
  rcases writerStep_cases ht with hm | ⟨res, hret, rfl⟩
  · have hnext := hm.next
    revert h hnext
    generalize p.wpc = pc, q.wpc = pc'
    intro h hnext
    cases hnext with
    | load hpc => rcases hpc with rfl | rfl <;> exact h
    | reload hpc => rcases hpc with rfl | rfl <;> exact h
    | loadClosed | register | take | checkClosed | storeTail | wakeReader | close | closeWake =>
      exact h
  · revert h hret
    generalize p.wpc = pc
    intro h hret
    cases hret with
    | loadClosed =>
      refine ⟨fun n hn => ?_, fun _ => h⟩
      cases hn
      exact h.symm
    | loadClosedFull =>
      refine ⟨fun n hn => ?_, fun _ => h⟩
      split at hn
      · cases hn
        exact h.symm
      · cases hn
    | checkClosed count data =>
      refine ⟨fun n hn => ?_, fun hn => absurd rfl (hn _)⟩
      cases hn
      exact h

theorem FillOk.fillAct (h : FillOk p k) (ht : step p (fillAct p yields data) = some q) :
    FillOk q (k + (supplied p data).length) := by
  rcases fillAct_cases ht with ⟨hpc, rfl⟩ | ⟨count, hpc, -, rfl⟩ | ⟨ht, hpc⟩
  · rw [supplied_of_ne (by simp [hpc]), List.length_nil, Nat.add_zero]
    have hk : k = 0 := by simpa [FillOk, hpc] using h
    cases yields with
    | true => simp [FillOk, returnW, hk]
    | false => simp [FillOk, hk]
  · have hcount : count = k := by simpa [FillOk, hpc] using h
    unfold filled
    split
    · simp [FillOk, returnW, supplied, hpc, hcount]
    · simp [FillOk, supplied, hpc, hcount]
  · rw [supplied_of_ne hpc, List.length_nil, Nat.add_zero]
    exact h.writerStep ht

/-- A `fill` whose source does not fail returns no error. -/
theorem wret_fillAct (ht : step p (fillAct p yields data) = some q)
    (hpc : q.wpc = .idle) (e : IoError) : q.wret ≠ some (.ready (.error e)) := by
  rcases fillAct_cases ht with ⟨-, rfl⟩ | ⟨count, -, -, rfl⟩ | ⟨ht, -⟩
  · cases yields with
    | true => exact fun he => by cases he
    | false => cases hpc
  · unfold filled at hpc ⊢
    split at hpc
    · rename_i hzero
      rw [if_pos hzero]
      exact fun he => by cases he
    · cases hpc
  · rcases writerStep_cases ht with hm | ⟨res, -, rfl⟩
    · exact absurd hpc hm.next.ne_idle
    · cases res <;> exact fun he => by cases he

/-! ## Dropped ends -/

/-- The end of the pipe is being dropped or gone. -/
def DrainPc.closing : DrainPc → Bool
  | .close | .closeWake | .dropped => true
  | _ => false

def FillPc.closing : FillPc → Bool
  | .close | .closeWake | .dropped => true
  | _ => false

theorem DrainPc.Next.closing {pc pc' : DrainPc} (h : Next pc pc') : pc'.closing = pc.closing := by
  cases h with
  | load h => rcases h with rfl | rfl <;> rfl
  | reload h => rcases h with rfl | rfl <;> rfl
  | register | take | storeHead | wakeWriter | close | closeWake => rfl

theorem FillPc.Next.closing {pc pc' : FillPc} (h : Next pc pc') : pc'.closing = pc.closing := by
  cases h with
  | load h => rcases h with rfl | rfl <;> rfl
  | reload h => rcases h with rfl | rfl <;> rfl
  | loadClosed | register | take | checkClosed | storeTail | wakeReader | close | closeWake => rfl

theorem closing_readerStep (ht : readerStep p = some q) : q.rpc.closing = p.rpc.closing := by
  rcases readerStep_cases ht with h | ⟨hpc, rfl⟩
  · exact h.next.closing
  · rw [hpc]
    rfl

theorem closing_drainAct (ht : step p (drainAct p yields n) = some q) :
    q.rpc.closing = p.rpc.closing := by
  rcases drainAct_cases ht with ⟨hpc, rfl⟩ | ⟨count, hpc, -, rfl⟩ | ht
  · rw [hpc]
    cases yields <;> rfl
  · rw [hpc]
    unfold delivered
    split <;> rfl
  · exact closing_readerStep ht

theorem rret_of_closing (hpc : p.rpc.closing = true) (ht : readerStep p = some q) :
    q.rret = p.rret := by
  rcases readerStep_cases ht with h | ⟨hrpc, -⟩
  · exact h.rret
  · rw [hrpc] at hpc
    cases hpc

theorem drainAct_of_closing (hpc : p.rpc.closing = true) : drainAct p yields n = .readerStep := by
  unfold drainAct
  split
  · rename_i hrpc
    rw [hrpc] at hpc
    cases hpc
  · rename_i hrpc
    rw [hrpc] at hpc
    cases hpc
  · rfl

theorem closing_writerStep (ht : writerStep p = some q) : q.wpc.closing = p.wpc.closing := by
  rcases writerStep_cases ht with h | ⟨res, hret, rfl⟩
  · exact h.next.closing
  · generalize p.wpc = pc at hret
    cases hret <;> rfl

theorem closing_fillAct (ht : step p (fillAct p yields data) = some q) :
    q.wpc.closing = p.wpc.closing := by
  rcases fillAct_cases ht with ⟨hpc, rfl⟩ | ⟨count, hpc, -, rfl⟩ | ⟨ht, -⟩
  · rw [hpc]
    cases yields <;> rfl
  · rw [hpc]
    unfold filled
    split <;> rfl
  · exact closing_writerStep ht

theorem supplied_of_closing (hpc : p.wpc.closing = true) : supplied p data = [] := by
  apply supplied_of_ne
  intro count hread
  rw [hread] at hpc
  cases hpc

theorem produced_of_closing (hpc : p.wpc.closing = true) : produced p = p.published := by
  have hpend : pending p.wpc = [] := by
    revert hpc
    cases p.wpc <;> first | exact fun _ => rfl | exact Bool.noConfusion
  rw [produced, hpend, List.append_nil]

theorem produced_of_idle (hpc : p.wpc = .idle) : produced p = p.published := by
  have hpend : pending p.wpc = [] := by rw [hpc]; rfl
  rw [produced, hpend, List.append_nil]

theorem produced_fill (ht : step p (.fill cx) = some q) : produced q = produced p := by
  obtain ⟨hidle, rfl⟩ := fill_eq ht
  rw [produced_of_idle hidle]
  exact List.append_nil _

theorem produced_srcRead_error {e : IoError} (ht : step p (.srcRead (.error e)) = some q) :
    produced q = produced p := by
  obtain ⟨-, hpub, -, -⟩ := zeroSlice_frame p
  simp only [step, srcRead] at ht
  generalize zeroSlice p = z at ht hpub
  split at ht
  · rename_i count hread
    obtain rfl := Option.some.inj ht
    exact produced_congr hpub (by rw [hread]; rfl)
  · cases ht

end Cynthia.Blocking
