import Cynthia.Blocking.PipeWakeups
import Cynthia.Blocking.UnblockWrite

/-! What `Unblock` writes is what its calls have accepted, in order; when a flush succeeds and no
call has failed, it is all of it; and no call waits for a task that sleeps. -/

namespace Cynthia.Blocking.UnblockWrite

open Transition

/-! ## The pipe -/

section Pipe

variable {p q : Blocking.State} {a : Blocking.Act} {cap : Capacity}

/-- No end of the stream is reported on a stale tail, and the inner writer takes something of
the first slice of a `drain`, which is never empty. -/
def Accepting (p : Blocking.State) (a : Blocking.Act) : Prop :=
  TailFresh p a ∧ (a = .destWrite (.ok 0) → p.rpc ≠ .write 0)

theorem unrefused_of_error {e : IoError} (h : Unrefused p) (hi : EndInv p)
    (ht : step p (.destWrite (.error e)) = some q) : Unrefused q := by
  simp only [step, destWrite] at ht
  split at ht
  · rename_i count hpc
    cases ht
    intro hrefused
    obtain ⟨n, hn⟩ := h hrefused
    have hrest := hi.resting (by simp [hn])
    simp [hpc, AtRest] at hrest
  · cases ht

theorem settled_of_accepting (hp : (Blocking.system cap).ReachableVia Accepting p) :
    Settled p := by
  have hunrefused : Unrefused p ∧ (Blocking.system cap).Reachable p := by
    refine hp.invariant (I := fun p => Unrefused p ∧ (Blocking.system cap).Reachable p)
      ⟨fun h => Bool.noConfusion h, .init⟩ ?_
    rintro p a q ⟨hfresh, hzero⟩ ⟨h, hr⟩ ht
    refine ⟨?_, hr.next ht⟩
    by_cases herror : ∃ e, a = .destWrite (.error e)
    · obtain ⟨e, rfl⟩ := herror
      exact unrefused_of_error h (end_of_reachable hr) ht
    · exact unrefused_step h (end_of_reachable hr)
        ⟨hfresh, hzero, fun e he => herror ⟨e, he⟩⟩ ht
  obtain ⟨hunrefused, hr⟩ := hunrefused
  exact ⟨fifo_of_reachable hr, end_of_reachable hr,
    endComplete_of_reachableVia (hp.mono fun _ _ h => h.1), roomy_of_reachable hr, hunrefused⟩

theorem accepting_of_ne (hstep : a ≠ .readerStep) (hdest : a ≠ .destWrite (.ok 0)) :
    Accepting p a := ⟨fun h => absurd h hstep, fun h => absurd h hdest⟩

end Pipe

/-! ## The bytes on their way -/

/-- What the `fill` of a call has taken so far. -/
def Pc.taken : Pc → List UInt8
  | .fill buf taken => buf.take taken
  | _ => []

/-- The writing end of the pipe is where the program point says. -/
def Pc.Place (writer : Bool) (p : Blocking.State) : Pc → Prop
  | .fill _ taken => writer = true ∧ FillOk p taken ∧
      (p.wpc = .idle → ∀ e, p.wret ≠ some (.ready (.error e)))
  | _ => writer = true → p.wpc = .idle

def TaskPc.left : TaskPc → Bool
  | .leave _ => true
  | _ => false

/-- `drain` has found the end of the stream, and `flush` has not failed. -/
def TaskPc.through : TaskPc → Bool
  | .flush none | .leave (.ok ()) => true
  | _ => false

/-- The pipe has got what the calls have taken, or they find it closed since the task has
left. -/
def Sent (good : Prop) (p : Blocking.State) (task : TaskPc) (sess : List UInt8) : Prop :=
  produced p = sess ∨ produced p <+: sess ∧ p.pipe.closed = true ∧
    (p.wpc = .idle ∨ p.wpc = .loadClosed ∨ p.wpc.closing = true) ∧
    (good → ∃ e, task = .leave (.error e))

/-- The calls have put `sess` into this pipe, and before it `base` into earlier ones, of which
the inner writer has got `old`. -/
structure Ledger (good : Prop) (s : State) (p : Blocking.State) (task : TaskPc)
    (base sess : List UInt8) (old : List (Option UInt8)) : Prop where
  accepted : s.accepted ++ s.pc.taken = base ++ sess
  written : s.written = old ++ p.handed
  kept : old.Sublist (base.map some)
  all : good → s.failed = false → old = base.map some
  sent : Sent good p task sess

/-- `good` says that the run meets the conditions. -/
structure Writes (good : Prop) (cap : Capacity) (s : State) (writer : Bool) (p : Blocking.State)
    (task : TaskPc) : Prop where
  reach : (Blocking.system cap).Reachable p
  accepting : good → (Blocking.system cap).ReachableVia Accepting p
  there : task.left = false → p.rpc.closing = false
  ends : p.wpc.closing = !writer
  place : s.pc.Place writer p
  moved : ∃ base sess old, Ledger good s p task base sess old
  finished : good → task.through = true →
    p.handed = p.published.map some ∧ p.wpc.closing = true
  flushed : task = .leave (.ok ()) → s.flushed = s.written.length

def Unblock.Idle (u : Unblock) : Prop := u = .idle ∨ u = .closed

structure Rests (good : Prop) (s : State) : Prop where
  pc : ∀ buf taken, s.pc ≠ .fill buf taken
  kept : s.written.Sublist (s.accepted.map some)
  all : good → s.failed = false → s.written = s.accepted.map some ∧ s.flushed = s.written.length

def Stands (good : Prop) (cap : Capacity) (s : State) : Prop :=
  match s.unblock with
  | .writing writer p task => Writes good cap s writer p task
  | _ => Rests good s

structure Inv (good : Prop) (cap : Capacity) (s : State) : Prop where
  stands : Stands good cap s
  resting : s.answer ≠ none → s.pc = .rest
  answered : ∀ close n, s.answer = some (.flush close, .ready (.ok n)) → s.unblock.Idle

/-- The pipe reports its end only when it is drained, and the inner writer takes something of
the first slice of a `drain`. -/
def takes (s : State) : Act → Bool
  | .back _ _ res =>
    match s.unblock with
    | .writing _ p _ => decide (TailFresh p .readerStep) && decide (p.rpc = .write 0 → res ≠ .ok 0)
    | _ => true
  | _ => true

def Takes (s : State) (a : Act) : Prop := takes s a = true

instance (s : State) (a : Act) : Decidable (Takes s a) := inferInstanceAs (Decidable (_ = _))

section Steps

variable {good : Prop} {cap : Capacity} {s t : State} {p q : Blocking.State}
  {a : Blocking.Act} {task task' : TaskPc} {writer writer' yields : Bool} {cx : Waker} {pc : Pc}
  {data : List UInt8} {new : List (Option UInt8)} {base sess : List UInt8}

theorem prefix_published (h : Fifo p) : p.handed <+: p.published.map some := by
  rw [h.content.handed, List.map_take]
  exact List.take_prefix ..

theorem Sent.prefix_session (h : Sent good p task sess) : produced p <+: sess := by
  rcases h with rfl | ⟨h, -⟩
  · exact List.prefix_refl _
  · exact h

/-- What is handed over in a pipe was put into it. -/
theorem Sent.handed (h : Sent good p task sess) (hf : Fifo p) : p.handed <+: sess.map some := by
  have hall : p.published <+: sess := (List.prefix_append ..).trans h.prefix_session
  exact (prefix_published hf).trans (hall.map _)

/-! ### The background task -/

/-- An access of the reading end. -/
theorem Sent.reader (h : Sent good p task sess) (ha : a.ofReader = true)
    (hq : step p a = some q) : Sent good q task sess := by
  obtain ⟨hpub, hwpc, -, -, -⟩ := sameWriter_step ha hq
  have hproduced : produced q = produced p := produced_congr hpub (by rw [hwpc])
  rcases h with h | ⟨hpre, hclosed, hpc, htask⟩
  · exact .inl (hproduced.trans h)
  · refine .inr ⟨?_, closed_step hclosed hq, ?_, htask⟩
    · rw [hproduced]
      exact hpre
    · rw [hwpc]
      exact hpc

theorem Pc.Place.reader (h : pc.Place writer p) (hs : SameWriter p q) : pc.Place writer q := by
  obtain ⟨-, hwpc, hwret, -, -⟩ := hs
  cases pc with
  | fill buf taken =>
    obtain ⟨hwriter, hfill, hret⟩ := h
    refine ⟨hwriter, ?_, ?_⟩
    · unfold FillOk at hfill ⊢
      rw [hwpc, hwret]
      exact hfill
    · rw [hwpc, hwret]
      exact hret
  | rest | write | flush => exact fun hw => hwpc.trans (h hw)

theorem Writes.reader (new : List (Option UInt8)) (h : Writes good cap s writer p task)
    (ha : a.ofReader = true) (hq : step p a = some q) (hok : good → Accepting p a) (hhanded : q.handed = p.handed ++ new)
    (hthere : task.left = false → q.rpc.closing = false) (hnew : task ≠ .drain → new = []) :
    Writes good cap
      { s with unblock := .writing writer q task, written := s.written ++ new } writer q task := by
  have hsame := sameWriter_step ha hq
  obtain ⟨base, sess, old, hledger⟩ := h.moved
  have hsent := hledger.sent.reader ha hq
  refine ⟨h.reach.next hq, fun hg => .next (h.accepting hg) (hok hg) hq, hthere, ?_,
    h.place.reader hsame, ⟨base, sess, old, hledger.accepted, ?_, hledger.kept, hledger.all, hsent⟩,
    fun hg hthrough => ?_, fun htask => ?_⟩
  · rw [hsame.wpc]
    exact h.ends
  · rw [hhanded, ← List.append_assoc, ← hledger.written]
  · obtain ⟨hall, hclosing⟩ := h.finished hg hthrough
    rw [hhanded, hsame.published, hsame.wpc, hnew (by rintro rfl; cases hthrough), List.append_nil]
    exact ⟨hall, hclosing⟩
  · subst htask
    simpa [hnew nofun] using h.flushed rfl

theorem Sent.retask (h : Sent good p task sess) (hleft : task.left = false) :
    Sent good p task' sess := by
  rcases h with h | ⟨hpre, hclosed, hpc, htask⟩
  · exact .inl h
  · refine .inr ⟨hpre, hclosed, hpc, fun hg => ?_⟩
    obtain ⟨e, rfl⟩ := htask hg
    cases hleft

/-- The task goes on without the pipe. -/
theorem Writes.retask {flushed : Nat} (h : Writes good cap s writer p task)
    (hleft : task.left = false)
    (hfinished : good → task'.through = true →
      p.handed = p.published.map some ∧ p.wpc.closing = true)
    (hflushed : task' = .leave (.ok ()) → flushed = s.written.length) :
    Writes good cap { s with unblock := .writing writer p task', flushed := flushed } writer p
      task' := by
  obtain ⟨base, sess, old, hledger⟩ := h.moved
  exact ⟨h.reach, h.accepting, fun _ => h.there hleft, h.ends, h.place,
    ⟨base, sess, old, hledger.accepted, hledger.written, hledger.kept, hledger.all,
      hledger.sent.retask hleft⟩, hfinished, hflushed⟩

theorem stands_of_writes (hu : s.unblock = .writing writer p task)
    (hw : Writes good cap s writer p task) : Stands good cap s := by
  rw [Stands, hu]
  exact hw

theorem stands_of_rests (hu : s.unblock.Idle) (hr : Rests good s) : Stands good cap s := by
  rcases hu with hu | hu <;>
    · rw [Stands, hu]
      exact hr

theorem rests_of_stands (h : Inv good cap s) (hu : s.unblock.Idle) : Rests good s := by
  have hstands := h.stands
  rcases hu with hu | hu <;>
    · rw [Stands, hu] at hstands
      exact hstands

/-- A step of the task leaves the calls alone. -/
theorem Inv.of_task (h : Inv good cap s) (hu : s.unblock = .writing writer p task)
    (hanswer : t.answer = s.answer) (hpc : t.pc = s.pc) (hut : t.unblock = .writing writer q task')
    (ht : Writes good cap t writer q task') : Inv good cap t := by
  refine ⟨stands_of_writes hut ht, ?_, fun close n hx => ?_⟩
  · rw [hanswer, hpc]
    exact h.resting
  · rw [hanswer] at hx
    rcases h.answered close n hx with hidle | hidle <;> cases hu.symm.trans hidle

theorem writes_of_stands (h : Inv good cap s) (hu : s.unblock = .writing writer p task) :
    Writes good cap s writer p task := by
  have hstands := h.stands
  rw [Stands, hu] at hstands
  exact hstands

/-- A `drain` that is running. -/
theorem Writes.drainAct {n : Nat} (h : Writes good cap s writer p .drain)
    (hfresh : good → TailFresh p .readerStep) (hn : good → p.rpc = .write 0 → n ≠ 0)
    (hq : step p (drainAct p yields n) = some q) :
    Writes good cap
      { s with unblock := .writing writer q .drain, written := s.written ++ copied p n }
      writer q .drain := by
  refine h.reader _ (ofReader_drainAct ..) hq (fun hg => ?_) (handed_drainAct hq) (fun _ => ?_)
    fun hx => absurd rfl hx
  · have hsteady : Steady p (Blocking.drainAct p yields n) := (calm_drainAct (hfresh hg) (hn hg)).steady
    exact ⟨hsteady.1, hsteady.2.1⟩
  · rw [closing_drainAct hq]
    exact h.there rfl

theorem inv_drain {res : Except IoError Nat} (h : Inv good cap s)
    (hu : s.unblock = .writing writer p .drain)
    (hok : good → TailFresh p .readerStep ∧ (p.rpc = .write 0 → res ≠ .ok 0))
    (ht : drain s cx yields res writer p = some t) : Inv good cap t := by
  have hw := writes_of_stands h hu
  have hnone : ∀ q, Writes good cap
      { s with unblock := .writing writer q .drain, written := s.written ++ [] } writer q .drain →
      Writes good cap { s with unblock := .writing writer q .drain } writer q .drain := by
    intro q hq
    rwa [List.append_nil] at hq
  simp only [drain] at ht
  split at ht
  · rename_i hidle
    split at ht
    · rename_i hret
      cases ht
      refine h.of_task hu rfl rfl rfl (hw.retask rfl (fun hg _ => ?_) nofun)
      obtain ⟨hall, hclosed⟩ := (settled_of_accepting (hw.accepting hg)).ended hret
      exact ⟨hall, by rcases hclosed with hx | hx <;> rw [hx] <;> rfl⟩
    · cases ht
      exact h.of_task hu rfl rfl rfl (hw.retask rfl (fun _ hx => by cases hx) nofun)
    · obtain ⟨q, hq, rfl⟩ := Option.map_eq_some_iff.mp ht
      have hrw := hw.reader [] rfl hq
        (fun _ => accepting_of_ne (by simp) (by simp)) (by
          obtain ⟨-, rfl⟩ := drain_eq hq
          exact (List.append_nil _).symm) (fun _ => by
          obtain ⟨-, rfl⟩ := drain_eq hq
          rfl) fun _ => rfl
      exact h.of_task hu rfl rfl rfl (hnone q hrw)
  · rename_i count hwrite
    split at ht
    · rename_i n
      obtain ⟨t, htq, rfl⟩ := Option.map_eq_some_iff.mp ht
      obtain ⟨q, hq, rfl⟩ := Option.map_eq_some_iff.mp htq
      refine h.of_task hu rfl rfl rfl (hw.drainAct (fun hg => (hok hg).1) (fun hg hpc hn => ?_) hq)
      exact (hok hg).2 hpc (by rw [hn])
    · rename_i e
      obtain ⟨q, hq, rfl⟩ := Option.map_eq_some_iff.mp ht
      have heq : q = returnR p (.ready (.error e)) := by
        simp only [step, destWrite, hwrite] at hq
        exact (Option.some.inj hq).symm
      have hrw := hw.reader [] rfl hq
        (fun _ => accepting_of_ne (by simp) (by simp)) (by rw [heq]; exact (List.append_nil _).symm)
        (fun _ => by rw [heq]; rfl) fun _ => rfl
      exact h.of_task hu rfl rfl rfl (hnone q hrw)
  · rename_i hpc hwrite
    obtain ⟨q, hq, rfl⟩ := Option.map_eq_some_iff.mp ht
    have hrw := hw.drainAct (fun hg => (hok hg).1) (fun _ hx => absurd hx (hwrite 0)) hq
    rw [copied_of_ne hwrite] at hrw
    exact h.of_task hu rfl rfl rfl (hnone q hrw)

theorem inv_back {res : Except IoError Nat} (h : Inv good cap s)
    (hok : good → Takes s (.back cx yields res)) (ht : back s cx yields res = some t) :
    Inv good cap t := by
  unfold back at ht
  split at ht
  case h_1 | h_2 => cases ht
  case h_3 writer p hu =>
    refine inv_drain h hu (fun hg => ?_) ht
    have htakes := hok hg
    simpa only [Takes, takes, hu, Bool.and_eq_true, decide_eq_true_eq] using htakes
  case h_4 writer p err hu =>
    have hw := writes_of_stands h hu
    have hleave (res : Except IoError Unit) (flushed : Nat)
        (hres : res = .ok () → err = none ∧ flushed = s.written.length) :
        Inv good cap { s with
          unblock := .writing writer p (.leave res)
          flushed := flushed } := by
      refine h.of_task hu rfl rfl rfl (hw.retask rfl (fun hg hx => ?_) fun hx => ?_)
      · cases res with
        | error e => cases hx
        | ok u =>
          obtain ⟨rfl, -⟩ := hres rfl
          exact hw.finished hg rfl
      · cases hx
        exact (hres rfl).2
    split at ht <;> cases ht
    · exact hleave _ _ nofun
    · exact hleave _ _ nofun
    · exact hleave _ _ fun _ => ⟨rfl, rfl⟩
    · exact hleave _ _ nofun
  case h_5 writer p res' hu =>
    have hw := writes_of_stands h hu
    obtain ⟨q, hq, rfl⟩ := Option.map_eq_some_iff.mp ht
    have hrw : Writes good cap
        { s with unblock := .writing writer q (.leave res'), written := s.written ++ [] } writer q
          (.leave res') := by
      split at hq
      · refine hw.reader [] rfl hq (fun _ => accepting_of_ne (by simp) (by simp)) ?_ nofun fun _ => rfl
        obtain ⟨-, rfl⟩ := dropReader_eq hq
        exact (List.append_nil _).symm
      · refine hw.reader [] rfl hq (fun hg => ?_) ?_ nofun fun _ => rfl
        · have htakes := hok hg
          simp only [Takes, takes, hu, Bool.and_eq_true, decide_eq_true_eq] at htakes
          exact ⟨htakes.1, nofun⟩
        · rw [(handed_readerStep hq).1, List.append_nil]
    rw [List.append_nil] at hrw
    exact h.of_task hu rfl rfl rfl hrw

/-! ### The calls -/

theorem Writes.congr (h : Writes good cap s writer p task) (hwritten : t.written = s.written)
    (hflushed : t.flushed = s.flushed)
    (htaken : t.accepted ++ t.pc.taken = s.accepted ++ s.pc.taken)
    (hfailed : t.failed = false → s.failed = false) (hplace : t.pc.Place writer p) :
    Writes good cap t writer p task := by
  obtain ⟨base, sess, old, hledger⟩ := h.moved
  refine ⟨h.reach, h.accepting, h.there, h.ends, hplace, ⟨base, sess, old, ?_, ?_, hledger.kept,
    fun hg hf => hledger.all hg (hfailed hf), hledger.sent⟩, h.finished, ?_⟩
  · rw [htaken, hledger.accepted]
  · rw [hwritten, hledger.written]
  · rw [hflushed, hwritten]
    exact h.flushed

/-- An access of the writing end. -/
theorem Writes.writing (writer' : Bool) (pc : Pc) (data : List UInt8)
    (h : Writes good cap s writer p task) (ha : a.ofReader = false) (hq : step p a = some q) (hends : q.wpc.closing = !writer') (hplace : pc.Place writer' q)
    (htaken : pc.taken = s.pc.taken ++ data)
    (hsent : ∀ sess, Sent good p task sess → Sent good q task (sess ++ data))
    (hfinished : p.wpc.closing = true → q.published = p.published ∧ q.wpc.closing = true) :
    Writes good cap { s with unblock := .writing writer' q task, pc := pc } writer' q task := by
  have hsame := sameReader_step ha hq
  have hok : Accepting p a := by
    refine accepting_of_ne ?_ ?_ <;> (rintro rfl; exact Bool.noConfusion ha)
  obtain ⟨base, sess, old, hledger⟩ := h.moved
  refine ⟨h.reach.next hq, fun hg => .next (h.accepting hg) hok hq, ?_, hends, hplace,
    ⟨base, sess ++ data, old, ?_, ?_, hledger.kept, hledger.all, hsent _ hledger.sent⟩,
    fun hg hthrough => ?_, h.flushed⟩
  · rw [hsame.rpc]
    exact h.there
  · rw [htaken, ← List.append_assoc, ← List.append_assoc, hledger.accepted]
  · rw [hsame.handed]
    exact hledger.written
  · obtain ⟨hall, hclosing⟩ := h.finished hg hthrough
    obtain ⟨hpub, hclosing⟩ := hfinished hclosing
    rw [hsame.handed, hpub]
    exact ⟨hall, hclosing⟩

theorem take_supplied (buf : List UInt8) (taken : Nat) :
    buf.take (taken + (supplied p (source p buf taken)).length) =
      buf.take taken ++ supplied p (source p buf taken) := by
  rw [List.take_add]
  unfold supplied
  split
  · exact congrArg (buf.take taken ++ ·) (List.prefix_iff_eq_take.mp (List.take_prefix ..)).symm
  · rfl

/-- A `fill` that is running. It abandons what it has taken last if it finds the pipe closed,
which is so only after the task has left. -/
theorem Sent.fillAct (h : Sent good p task sess) (hw : Writes good cap s true p task)
    (hidle : p.wpc ≠ .idle) (hq : step p (fillAct p yields data) = some q) :
    Sent good q task (sess ++ supplied p data) := by
  have hopen : p.wpc.closing = false := hw.ends
  have hpre := h.prefix_session
  by_cases hfound : (∃ count data, p.wpc = .checkClosed count data ∨ p.wpc = .loadClosed) ∧
      p.pipe.closed = true
  · obtain ⟨⟨count, data', hpc⟩, hclosed⟩ := hfound
    have hread : ∀ count, p.wpc ≠ .read count := by
      rintro count hread
      rcases hpc with hpc | hpc <;> exact FillPc.noConfusion (hpc.symm.trans hread)
    rw [supplied_of_ne hread, List.append_nil]
    have hret : q.wpc = .idle ∧ q.published = p.published := by
      rcases hpc with hpc | hpc <;> simp only [Blocking.fillAct, hpc, step, writerStep, hclosed,
        ↓reduceIte, Option.some.injEq] at hq <;> subst hq <;> exact ⟨rfl, rfl⟩
    refine .inr ⟨?_, closed_step hclosed hq, .inl hret.1, fun hg => ?_⟩
    · rw [produced_of_idle hret.1, hret.2]
      exact (List.prefix_append ..).trans hpre
    · -- The reading end has closed the pipe.
      have hleft : p.rpc.closing = true := by
        rcases (end_of_reachable hw.reach).byDrop hclosed with (hx | hx) | (hx | hx)
        · rw [hx] at hopen
          cases hopen
        · rw [hx] at hopen
          cases hopen
        · rw [hx]
          rfl
        · rw [hx]
          rfl
      cases task with
      | drain => cases (hw.there rfl).symm.trans hleft
      | flush err => cases (hw.there rfl).symm.trans hleft
      | leave res =>
        cases res with
        | error e => exact ⟨e, rfl⟩
        | ok u => cases hopen.symm.trans (hw.finished hg rfl).2
  · rcases h with h | ⟨-, hclosed, hpc, -⟩
    · refine .inl ?_
      rw [produced_fillAct (fun count data hpc => ?_) hq, h]
      exact Bool.not_eq_true _ ▸ fun hclosed => hfound ⟨⟨count, data, .inl hpc⟩, hclosed⟩
    · rcases hpc with hpc | hpc | hpc
      · exact absurd hpc hidle
      · exact absurd ⟨⟨0, [], .inr hpc⟩, hclosed⟩ hfound
      · cases hopen.symm.trans hpc

theorem Writes.fillAct {buf : List UInt8} {taken : Nat} (h : Writes good cap s writer p task)
    (hpc : s.pc = .fill buf taken) (hidle : p.wpc ≠ .idle)
    (hq : step p (fillAct p yields (source p buf taken)) = some q) :
    Writes good cap
      { s with
        unblock := .writing true q task
        pc := .fill buf (taken + (supplied p (source p buf taken)).length) } true q task := by
  have hplace := h.place
  rw [hpc] at hplace
  obtain ⟨rfl, hfill, -⟩ := hplace
  refine h.writing _ _ _ (ofReader_fillAct ..) hq ?_ ⟨rfl, hfill.fillAct hq, wret_fillAct hq⟩ ?_
    (fun sess hsent => hsent.fillAct h hidle hq) fun hclosing => ?_
  · rw [closing_fillAct hq]
    exact h.ends
  · rw [hpc]
    exact take_supplied buf taken
  · cases h.ends.symm.trans hclosing

/-- The call does not return `Ok` from `poll_flush`. -/
theorem Inv.of_call (h : Inv good cap s) (hpc : s.pc ≠ .rest)
    (hut : t.unblock = .writing writer q task) (ht : Writes good cap t writer q task)
    (hanswer : t.answer = s.answer ∨ t.pc = .rest ∧ ∃ res, t.answer = some (s.pc, res) ∧
      ((∀ close, s.pc ≠ .flush close) ∨ ∀ n, res ≠ .ready (.ok n))) : Inv good cap t := by
  have hnone : s.answer = none := by
    by_contra hne
    exact hpc (h.resting hne)
  refine ⟨stands_of_writes hut ht, fun hne => ?_, fun close n hx => ?_⟩
  · rcases hanswer with hanswer | ⟨hrest, -⟩
    · exact absurd (hanswer.trans hnone) hne
    · exact hrest
  · rcases hanswer with hanswer | ⟨-, res, hres, hnot⟩
    · cases (hx.symm.trans hanswer).trans hnone
    · obtain ⟨hcall, rfl⟩ := Prod.mk.inj (Option.some.inj (hres.symm.trans hx))
      rcases hnot with hnot | hnot
      · exact absurd hcall (hnot close)
      · exact absurd rfl (hnot n)

theorem inv_fill {buf : List UInt8} {taken : Nat} (h : Inv good cap s)
    (hpc : s.pc = .fill buf taken) (hu : s.unblock = .writing writer p task)
    (ht : fill s yields buf taken p task = some t) : Inv good cap t := by
  have hw := writes_of_stands h hu
  have hrest : s.pc ≠ .rest := by rw [hpc]; nofun
  have hnot : ∀ close, s.pc ≠ .flush close := by rw [hpc]; nofun
  have htaken : s.pc.taken = buf.take taken := by rw [hpc]; rfl
  have hplace := hw.place
  rw [hpc] at hplace
  obtain ⟨rfl, hfill, hret⟩ := hplace
  unfold fill at ht
  split at ht
  · rename_i hidle
    simp only [FillOk, hidle] at hfill
    obtain ⟨hcount, hzero⟩ := hfill
    split at ht
    · rename_i n hn
      cases ht
      refine h.of_call hrest hu (hw.congr rfl rfl ?_ ?_ fun _ => hidle)
        (.inr ⟨rfl, _, rfl, .inl hnot⟩)
      · rw [htaken, ← hcount n hn]
        exact List.append_nil _
      · exact fun hf => (Bool.or_eq_false_iff.mp hf).1
    · rename_i e he
      exact absurd he (hret hidle e)
    · rename_i hok herror
      cases ht
      refine h.of_call hrest hu (hw.congr rfl rfl ?_ ?_ fun _ => hidle)
        (.inr ⟨rfl, _, rfl, .inl hnot⟩)
      · have hk : taken = 0 := by
          refine hzero fun res hres => ?_
          cases res with
          | error e => exact herror e hres
          | ok n => exact hok n hres
        rw [htaken, hk]
        rfl
      · exact fun hf => (Bool.or_eq_false_iff.mp hf).1
  · rename_i hidle
    obtain ⟨q, hq, rfl⟩ := Option.map_eq_some_iff.mp ht
    exact h.of_call hrest rfl (hw.fillAct hpc hidle hq) (.inl rfl)

/-- The task has returned. -/
theorem Writes.rests (h : Writes good cap s writer p task) (hpc : s.pc.taken = [])
    {res : Except IoError Unit} (hres : task = .leave res) (hclosing : p.wpc.closing = true)
    (hwritten : t.written = s.written) (haccepted : t.accepted = s.accepted)
    (hflushed : t.flushed = s.flushed) (hfill : ∀ buf taken, t.pc ≠ .fill buf taken)
    (hfailed : t.failed = false → s.failed = false ∧ res = .ok ()) : Rests good t := by
  obtain ⟨base, sess, old, hledger⟩ := h.moved
  have hall := hledger.accepted
  rw [hpc, List.append_nil] at hall
  refine ⟨hfill, ?_, fun hg hf => ?_⟩
  · rw [hwritten, haccepted, hall, hledger.written, List.map_append]
    exact hledger.kept.append (hledger.sent.handed (fifo_of_reachable h.reach)).sublist
  · obtain ⟨hf, rfl⟩ := hfailed hf
    subst hres
    rw [hflushed, hwritten]
    refine ⟨?_, h.flushed rfl⟩
    have hsess : p.published = sess := by
      rcases hledger.sent with hsent | ⟨-, -, -, herror⟩
      · rw [← hsent, produced_of_closing hclosing]
      · obtain ⟨e, he⟩ := herror hg
        cases he
    rw [haccepted, hall, hledger.written, hledger.all hg hf, (h.finished hg rfl).1, hsess,
      List.map_append]

theorem writerStep_of_closing (hclosing : p.wpc.closing = true) (ht : writerStep p = some q) :
    q.published = p.published ∧ q.wpc.closing = true := by
  have hq := (closing_writerStep ht).trans hclosing
  refine ⟨?_, hq⟩
  rw [← produced_of_closing hq, ← produced_of_closing hclosing]
  refine produced_writerStep (fun count data hpc => ?_) ht
  rw [hpc] at hclosing
  cases hclosing

theorem Sent.closing (h : Sent good p task sess) (hproduced : produced q = produced p)
    (hclosed : p.pipe.closed = true → q.pipe.closed = true) (hclosing : q.wpc.closing = true) :
    Sent good q task (sess ++ []) := by
  rw [List.append_nil]
  rcases h with h | ⟨hpre, hc, -, htask⟩
  · exact .inl (hproduced.trans h)
  · exact .inr ⟨hproduced ▸ hpre, hclosed hc, .inr (.inr hclosing), htask⟩

theorem inv_stop (h : Inv good cap s) (hu : s.unblock = .writing writer p task)
    (hrest : s.pc ≠ .rest) (hfill : ∀ buf taken, s.pc ≠ .fill buf taken)
    (ht : stop s writer p task = some t) : Inv good cap t := by
  have hw := writes_of_stands h hu
  have htaken : s.pc.taken = [] := by
    cases hpc : s.pc with
    | fill buf taken => exact absurd hpc (hfill buf taken)
    | rest | write | flush => rfl
  have hplace : ∀ q : Blocking.State, s.pc.Place false q := by
    intro q
    cases hpc : s.pc with
    | fill buf taken => exact absurd hpc (hfill buf taken)
    | rest | write | flush => exact nofun
  unfold stop at ht
  split at ht
  · obtain ⟨q, hq, rfl⟩ := Option.map_eq_some_iff.mp ht
    have hwq := hw.writing false s.pc [] rfl hq
      (by obtain ⟨-, rfl⟩ := dropWriter_eq hq; rfl) (hplace q) (List.append_nil _).symm
      (fun sess hsent => ?_) (fun hclosing => ?_)
    · exact h.of_call hrest rfl hwq (.inl rfl)
    · obtain ⟨hidle, rfl⟩ := dropWriter_eq hq
      refine hsent.closing ?_ id rfl
      rw [produced_of_idle hidle, produced_of_closing rfl]
    · obtain ⟨hidle, rfl⟩ := dropWriter_eq hq
      exact ⟨rfl, rfl⟩
  · rename_i hwriter
    obtain rfl : writer = false := Bool.not_eq_true _ ▸ hwriter
    have hclosing : p.wpc.closing = true := hw.ends
    split at ht
    · split at ht
      · rename_i hresult
        cases ht
        have hleave : task = .leave (.ok ()) := by
          unfold TaskPc.result at hresult
          split at hresult
          · split at hresult <;> cases hresult
            rfl
          · cases hresult
        exact ⟨hw.rests htaken hleave hclosing rfl rfl rfl hfill fun hf => ⟨hf, rfl⟩, h.resting,
          fun _ _ _ => .inl rfl⟩
      · rename_i e hresult
        cases ht
        have hleave : task = .leave (.error e) := by
          unfold TaskPc.result at hresult
          split at hresult
          · split at hresult <;> cases hresult
            rfl
          · cases hresult
        refine ⟨hw.rests htaken hleave hclosing rfl rfl rfl nofun fun hf => ?_, fun _ => rfl,
          fun _ _ _ => .inl rfl⟩
        cases (Bool.or_eq_false_iff.mp hf).2
      · cases ht
        refine h.of_call hrest hu (hw.congr rfl rfl ?_ ?_ nofun)
          (.inr ⟨rfl, _, rfl, .inr nofun⟩)
        · rw [htaken]
          rfl
        · exact fun hf => (Bool.or_eq_false_iff.mp hf).1
    · obtain ⟨q, hq, rfl⟩ := Option.map_eq_some_iff.mp ht
      have hstep := writerStep_of_closing hclosing hq
      have hwq := hw.writing false s.pc [] rfl hq hstep.2 (hplace q)
        (List.append_nil _).symm (fun sess hsent => ?_) fun _ => hstep
      · exact h.of_call hrest rfl hwq (.inl rfl)
      · refine hsent.closing ?_ (fun hc => closed_step hc hq) hstep.2
        rw [produced_of_closing hstep.2, produced_of_closing hclosing, hstep.1]

/-- There is nothing to flush. -/
theorem Inv.flushed {u : Unblock} (h : Inv good cap s) (hu : s.unblock.Idle) (hut : u.Idle) :
    Inv good cap (State.finish { s with unblock := u } (.ready (.ok 0))) := by
  obtain ⟨-, hkept, hall⟩ := rests_of_stands h hu
  exact ⟨stands_of_rests hut ⟨nofun, hkept, fun hg hf => hall hg (Bool.or_eq_false_iff.mp hf).1⟩,
    fun _ => rfl, fun _ _ _ => hut⟩

theorem Rests.writes (h : Rests good s) (htaken : s.pc.taken = [])
    (hplace : s.pc.Place true (pipe cap)) : Writes good cap
      { s with unblock := .writing true (pipe cap) .drain } true (pipe cap) .drain where
  reach := .init
  accepting _ := .init
  there _ := rfl
  ends := rfl
  place := hplace
  moved := by
    refine ⟨s.accepted, [], s.written, ?_, (List.append_nil _).symm, h.kept,
      fun hg hf => (h.all hg hf).1, .inl rfl⟩
    rw [htaken]
  finished _ := nofun
  flushed := nofun

theorem inv_front (h : Inv good cap s) (ht : front cap s yields = some t) : Inv good cap t := by
  unfold front at ht
  split at ht
  case h_1 buf hpc hu =>
    cases ht
    have hr := rests_of_stands h (.inl hu)
    refine h.of_call (by rw [hpc]; nofun) rfl (hr.writes (by rw [hpc]; rfl) ?_) (.inl rfl)
    rw [hpc]
    exact fun _ => rfl
  case h_2 buf p task hpc hu =>
    obtain ⟨q, hq, rfl⟩ := Option.map_eq_some_iff.mp ht
    have hw := writes_of_stands h hu
    have hproduced := produced_fill hq
    obtain ⟨hidle, rfl⟩ := fill_eq hq
    refine h.of_call (by rw [hpc]; nofun) rfl
      (hw.writing _ _ [] rfl hq rfl ⟨rfl, rfl, nofun⟩ ?_ (fun sess hsent => ?_) fun hx => ?_)
      (.inl rfl)
    · rw [hpc]
      rfl
    · rw [List.append_nil]
      rcases hsent with hsent | ⟨hpre, hclosed, -, htask⟩
      · exact .inl (hproduced.trans hsent)
      · exact .inr ⟨hproduced ▸ hpre, hclosed, .inr (.inl rfl), htask⟩
    · rw [hidle] at hx
      cases hx
  case h_3 hpc hu => exact inv_stop h hu (by rw [hpc]; nofun) (by rw [hpc]; nofun) ht
  case h_4 hpc hu => exact inv_fill h hpc hu ht
  case h_5 close hpc hu =>
    cases ht
    exact h.flushed (.inl hu) (by cases close <;> simp [Unblock.Idle])
  case h_6 hpc hu =>
    cases ht
    have hsame : { s with unblock := .closed } = s := by rw [← hu]
    have hflushed := h.flushed (u := .closed) (.inr hu) (.inr rfl)
    rwa [hsame] at hflushed
  case h_7 hpc hu => exact inv_stop h hu (by rw [hpc]; nofun) (by rw [hpc]; nofun) ht
  all_goals cases ht

theorem inv_call (pc : Pc) (h : Inv good cap s) (htaken : pc.taken = [])
    (hplace : ∀ writer p, (writer = true → p.wpc = .idle) → pc.Place writer p)
    (hfill : ∀ buf taken, pc ≠ .fill buf taken) (ht : call s pc cx = some t) : Inv good cap t := by
  unfold call at ht
  split at ht
  · rename_i hrest
    cases ht
    refine ⟨?_, fun hne => absurd rfl hne, nofun⟩
    cases hu : s.unblock with
    | writing writer p task =>
      have hw := writes_of_stands h hu
      have hidle := hw.place
      rw [hrest] at hidle
      refine stands_of_writes rfl
        (hw.congr rfl rfl ?_ id (hplace _ _ hidle))
      rw [htaken, hrest]
      rfl
    | idle =>
      obtain ⟨-, hkept, hall⟩ := rests_of_stands h (.inl hu)
      exact stands_of_rests (.inl rfl) ⟨hfill, hkept, hall⟩
    | closed =>
      obtain ⟨-, hkept, hall⟩ := rests_of_stands h (.inr hu)
      exact stands_of_rests (.inr rfl) ⟨hfill, hkept, hall⟩
  · cases ht

theorem inv_new : Inv good cap UnblockWrite.new where
  stands := ⟨fun _ _ hx => Pc.noConfusion hx, .slnil, fun _ _ => ⟨rfl, rfl⟩⟩
  resting h := absurd rfl h
  answered _ _ hx := by cases hx

theorem inv_act {a : Act} (h : Inv good cap s) (hok : good → Takes s a)
    (ht : act cap s a = some t) : Inv good cap t := by
  cases a with
  | pollWrite buf cx =>
    exact inv_call (.write buf) h rfl (fun _ _ hx => hx) (fun _ _ hx => Pc.noConfusion hx) ht
  | pollFlush cx =>
    exact inv_call (.flush false) h rfl (fun _ _ hx => hx)
      (fun _ _ hx => Pc.noConfusion hx) ht
  | pollClose cx =>
    exact inv_call (.flush true) h rfl (fun _ _ hx => hx)
      (fun _ _ hx => Pc.noConfusion hx) ht
  | front yields => exact inv_front h ht
  | back cx yields res => exact inv_back h hok ht

end Steps

/-- The inner writer gets what the calls have taken, in order, and nothing twice. -/
theorem unblock_write_keeps_order (cap : Capacity) (s : State) (hs : (system cap).Reachable s) :
    s.written.Sublist ((s.accepted ++ s.pc.taken).map some) := by
  have h : Inv False cap s :=
    hs.invariant (I := Inv False cap) inv_new fun _ _ _ h ht => inv_act h nofun ht
  cases hu : s.unblock with
  | writing writer p task =>
    obtain ⟨base, sess, old, hledger⟩ := (writes_of_stands h hu).moved
    have hreach := (writes_of_stands h hu).reach
    rw [hledger.accepted, hledger.written, List.map_append]
    exact hledger.kept.append (hledger.sent.handed (fifo_of_reachable hreach)).sublist
  | idle =>
    rw [List.map_append]
    exact (rests_of_stands h (.inl hu)).kept.trans (List.sublist_append_left ..)
  | closed =>
    rw [List.map_append]
    exact (rests_of_stands h (.inr hu)).kept.trans (List.sublist_append_left ..)

def calls (k : Nat) : List Act := List.replicate k (.front false)

def tasks (k : Nat) (res : Except IoError Nat) : List Act := List.replicate k (.back 2 false res)

/-- A byte is taken, and a flush finds the task at work. -/
def writeByte (b : UInt8) : List Act :=
  .pollWrite [b] 1 :: calls 12 ++ .pollFlush 1 :: calls 4 ++ tasks 4 (.ok 0)

/-- The inner writer gets the byte, and the next flush finds the task done. -/
def flushByte : List Act := tasks 1 (.ok 1) ++ tasks 13 (.ok 0) ++ .pollFlush 1 :: calls 2

/-- The inner writer fails with the first byte, and gets the second one. -/
theorem unblock_write_keeps_order_afterError :
    ∃ s, (system fourBytes).Reachable s ∧ s.accepted = [7, 8] ∧ s.written = [some 8] ∧
      s.written.Sublist ((s.accepted ++ s.pc.taken).map some) := by
  obtain ⟨s, -, hs, haccepted, hwritten⟩ := System.exists_of_run (M := system fourBytes)
    (P := fun s => s.accepted = [7, 8] ∧ s.written = [some 8])
    (writeByte 7 ++ tasks 6 (.error 5) ++ .pollFlush 1 :: calls 1 ++ writeByte 8 ++ flushByte)
    (by decide +kernel)
  exact ⟨s, hs, haccepted, hwritten, unblock_write_keeps_order fourBytes s hs⟩

/-- Until a call returns an error, no byte is left out, whatever the inner writer answers. After
a flush that succeeds it has them all, and was flushed after the last of them. -/
theorem unblock_write_flushes (cap : Capacity) (s : State)
    (hs : (system cap).ReachableVia Takes s) (hfailed : s.failed = false) :
    s.written <+: (s.accepted ++ s.pc.taken).map some ∧
    ∀ close n, s.answer = some (.flush close, .ready (.ok n)) →
      s.written = s.accepted.map some ∧ s.flushed = s.written.length := by
  have h : Inv True cap s :=
    hs.invariant (I := Inv True cap) inv_new fun _ _ _ hok h ht => inv_act h (fun _ => hok) ht
  refine ⟨?_, fun close n hanswer => ?_⟩
  · cases hu : s.unblock with
    | writing writer p task =>
      obtain ⟨base, sess, old, hledger⟩ := (writes_of_stands h hu).moved
      have hreach := (writes_of_stands h hu).reach
      rw [hledger.accepted, hledger.written, hledger.all trivial hfailed, List.map_append]
      exact (List.prefix_append_right_inj _).mpr (hledger.sent.handed (fifo_of_reachable hreach))
    | idle =>
      rw [List.map_append, ((rests_of_stands h (.inl hu)).all trivial hfailed).1]
      exact List.prefix_append ..
    | closed =>
      rw [List.map_append, ((rests_of_stands h (.inr hu)).all trivial hfailed).1]
      exact List.prefix_append ..
  · exact (rests_of_stands h (h.answered close n hanswer)).all trivial hfailed

theorem unblock_write_flushes_oneByte :
    ∃ s, (system fourBytes).ReachableVia Takes s ∧ s.accepted = [7] ∧
      s.written = s.accepted.map some ∧ s.flushed = s.written.length := by
  obtain ⟨s, hs, hanswer, hfailed, haccepted⟩ := System.exists_of_runVia Takes
    (M := system fourBytes)
    (P := fun s => s.answer = some (.flush false, .ready (.ok 0)) ∧ s.failed = false ∧
      s.accepted = [7])
    (writeByte 7 ++ flushByte) (by decide +kernel)
  exact ⟨s, hs, haccepted, (unblock_write_flushes fourBytes s hs hfailed).2 false 0 hanswer⟩

/-! ## Wakeups -/

section Wakeups

variable {cap : Capacity} {s t : State} {p q : Blocking.State} {task : TaskPc}
  {writer yields : Bool} {cx : Waker} {pc : Pc} {data : List UInt8}

/-- The task sleeps in `drain`. -/
def Asleep (p : Blocking.State) (task : TaskPc) : Prop := task = .drain ∧ ReaderAsleep p

/-- A call that is pending waits for room in the pipe, or for the task once the pipe is
closed. -/
structure Waits (s : State) : Prop where
  resting : s.answer ≠ none → s.pc = .rest
  running : ∀ buf taken, s.pc = .fill buf taken → ∀ writer p task,
    s.unblock = .writing writer p task → p.wpc = .idle → p.wret ≠ none
  pending : ∀ pc, s.answer = some (pc, .pending) → ∃ writer p task,
    s.unblock = .writing writer p task ∧
      ((∃ buf taken, pc = .fill buf taken) ∧ p.wpc = .idle ∧ p.wret = some .pending ∨
        p.wpc = .dropped)

theorem wret_of_fillAct (hq : step p (fillAct p yields data) = some q) (hidle : q.wpc = .idle) :
    q.wret ≠ none := by
  rcases fillAct_cases hq with ⟨-, rfl⟩ | ⟨count, -, -, rfl⟩ | ⟨ht, -⟩
  · cases yields with
    | true => exact Option.some_ne_none _
    | false => cases hidle
  · unfold filled at hidle ⊢
    split at hidle
    · rename_i hzero
      rw [if_pos hzero]
      exact Option.some_ne_none _
    · cases hidle
  · rcases writerStep_cases ht with hm | ⟨res, -, rfl⟩
    · exact absurd hidle hm.next.ne_idle
    · exact Option.some_ne_none _

/-- A step of the task leaves the calls and the writing end alone. -/
theorem back_frame {res : Except IoError Nat} (ht : back s cx yields res = some t) :
    t.answer = s.answer ∧ t.pc = s.pc ∧ ∃ writer p task q task',
      s.unblock = .writing writer p task ∧ t.unblock = .writing writer q task' ∧
        SameWriter p q := by
  unfold back at ht
  split at ht
  case h_1 | h_2 => cases ht
  case h_3 writer p hu =>
    simp only [drain] at ht
    split at ht
    · split at ht
      · cases ht
        exact ⟨rfl, rfl, _, _, _, _, _, hu, rfl, ⟨rfl, rfl, rfl, rfl, rfl⟩⟩
      · cases ht
        exact ⟨rfl, rfl, _, _, _, _, _, hu, rfl, ⟨rfl, rfl, rfl, rfl, rfl⟩⟩
      · obtain ⟨q, hq, rfl⟩ := Option.map_eq_some_iff.mp ht
        exact ⟨rfl, rfl, _, _, _, _, _, hu, rfl, sameWriter_step rfl hq⟩
    · split at ht
      · obtain ⟨t, htq, rfl⟩ := Option.map_eq_some_iff.mp ht
        obtain ⟨q, hq, rfl⟩ := Option.map_eq_some_iff.mp htq
        exact ⟨rfl, rfl, _, _, _, _, _, hu, rfl, sameWriter_step (ofReader_drainAct ..) hq⟩
      · obtain ⟨q, hq, rfl⟩ := Option.map_eq_some_iff.mp ht
        exact ⟨rfl, rfl, _, _, _, _, _, hu, rfl, sameWriter_step rfl hq⟩
    · obtain ⟨q, hq, rfl⟩ := Option.map_eq_some_iff.mp ht
      exact ⟨rfl, rfl, _, _, _, _, _, hu, rfl, sameWriter_step (ofReader_drainAct ..) hq⟩
  case h_4 writer p err hu =>
    split at ht <;> cases ht <;>
      exact ⟨rfl, rfl, _, _, _, _, _, hu, rfl, ⟨rfl, rfl, rfl, rfl, rfl⟩⟩
  case h_5 writer p res' hu =>
    obtain ⟨q, hq, rfl⟩ := Option.map_eq_some_iff.mp ht
    refine ⟨rfl, rfl, _, _, _, _, _, hu, rfl, sameWriter_step ?_ hq⟩
    split <;> rfl

theorem waits_back {res : Except IoError Nat} (h : Waits s)
    (ht : back s cx yields res = some t) : Waits t := by
  obtain ⟨hanswer, hpc, writer, p, task, q, task', hu, hut, hsame⟩ := back_frame ht
  refine ⟨?_, fun buf taken hx writer' p' t' hup hidle => ?_, fun pc hx => ?_⟩
  · rw [hanswer, hpc]
    exact h.resting
  · cases hut.symm.trans hup
    rw [hpc] at hx
    rw [hsame.wpc] at hidle
    rw [hsame.wret]
    exact h.running buf taken hx _ _ _ hu hidle
  · rw [hanswer] at hx
    obtain ⟨_, _, _, hup, hwaits⟩ := h.pending pc hx
    cases hu.symm.trans hup
    refine ⟨_, _, _, hut, ?_⟩
    rw [hsame.wpc, hsame.wret]
    exact hwaits

/-- A step of a call that has not returned. -/
theorem Waits.of_running (hnone : t.answer = none)
    (hrunning : ∀ buf taken, t.pc = .fill buf taken → ∀ writer p task,
      t.unblock = .writing writer p task → p.wpc = .idle → p.wret ≠ none) : Waits t :=
  ⟨fun hx => absurd hnone hx, hrunning, fun pc hx => by cases hnone.symm.trans hx⟩

/-- A call that returns. -/
theorem Waits.of_finish {res : Poll (Except IoError Nat)} (hrest : t.pc = .rest)
    (hanswer : t.answer = some (pc, res))
    (hpending : res = .pending → ∃ writer p task, t.unblock = .writing writer p task ∧
      ((∃ buf taken, pc = .fill buf taken) ∧ p.wpc = .idle ∧ p.wret = some .pending ∨
        p.wpc = .dropped)) : Waits t := by
  refine ⟨fun _ => hrest, fun _ _ hx => Pc.noConfusion (hrest.symm.trans hx), fun pc hx => ?_⟩
  obtain ⟨rfl, rfl⟩ := Prod.mk.inj (Option.some.inj (hanswer.symm.trans hx))
  exact hpending rfl

theorem waits_stop (hnone : s.answer = none) (hfill : ∀ buf taken, s.pc ≠ .fill buf taken)
    (hu : s.unblock = .writing writer p task) (ht : stop s writer p task = some t) : Waits t := by
  unfold stop at ht
  split at ht
  · obtain ⟨q, -, rfl⟩ := Option.map_eq_some_iff.mp ht
    exact .of_running hnone fun buf taken hx => absurd hx (hfill buf taken)
  · split at ht
    · rename_i hdropped
      split at ht <;> cases ht
      · exact .of_running hnone fun buf taken hx => absurd hx (hfill buf taken)
      · exact .of_finish rfl rfl nofun
      · exact .of_finish rfl rfl fun _ => ⟨_, _, _, hu, .inr hdropped⟩
    · obtain ⟨q, -, rfl⟩ := Option.map_eq_some_iff.mp ht
      exact .of_running hnone fun buf taken hx => absurd hx (hfill buf taken)

theorem waits_front (h : Waits s) (ht : front cap s yields = some t) : Waits t := by
  have hnone : s.pc ≠ .rest → s.answer = none := by
    intro hpc
    by_contra hne
    exact hpc (h.resting hne)
  unfold front at ht
  split at ht
  case h_1 hpc hu =>
    cases ht
    exact .of_running (hnone (by rw [hpc]; nofun)) fun _ _ hx => by cases hpc.symm.trans hx
  case h_2 hpc hu =>
    obtain ⟨q, hq, rfl⟩ := Option.map_eq_some_iff.mp ht
    obtain ⟨-, rfl⟩ := fill_eq hq
    refine .of_running (hnone (by rw [hpc]; nofun)) fun _ _ _ _ _ _ hup hidle => ?_
    cases hup
    cases hidle
  case h_3 hpc hu => exact waits_stop (hnone (by rw [hpc]; nofun)) (by rw [hpc]; nofun) hu ht
  case h_4 buf taken writer p task hpc hu =>
    have hans := hnone (by rw [hpc]; nofun)
    have hret := h.running buf taken hpc _ _ _ hu
    unfold fill at ht
    split at ht
    · rename_i hidle
      split at ht
      · cases ht
        exact .of_finish rfl rfl nofun
      · cases ht
        exact .of_finish rfl rfl nofun
      · rename_i hok herror
        cases ht
        refine .of_finish rfl rfl fun _ => ⟨_, _, _, hu, .inl ⟨⟨_, _, hpc⟩, hidle, ?_⟩⟩
        rcases hw : p.wret with _ | (_ | (e | n))
        · exact absurd hw (hret hidle)
        · rfl
        · exact absurd hw (herror e)
        · exact absurd hw (hok n)
    · obtain ⟨q, hq, rfl⟩ := Option.map_eq_some_iff.mp ht
      refine .of_running hans fun _ _ _ _ _ _ hup hidle => ?_
      cases hup
      exact wret_of_fillAct hq hidle
  case h_5 | h_6 =>
    cases ht
    exact .of_finish rfl rfl nofun
  case h_7 hpc hu => exact waits_stop (hnone (by rw [hpc]; nofun)) (by rw [hpc]; nofun) hu ht
  all_goals cases ht

theorem waits_act {a : Act} (h : Waits s) (ht : act cap s a = some t) : Waits t := by
  have hcall : ∀ pc cx, (∀ buf taken, pc ≠ .fill buf taken) → call s pc cx = some t → Waits t := by
    intro pc cx hfill ht
    unfold call at ht
    split at ht <;> cases ht
    exact .of_running rfl fun buf taken hx => absurd hx (hfill buf taken)
  cases a with
  | pollWrite buf cx => exact hcall (.write buf) cx (fun _ _ hx => Pc.noConfusion hx) ht
  | pollFlush cx => exact hcall (.flush false) cx (fun _ _ hx => Pc.noConfusion hx) ht
  | pollClose cx => exact hcall (.flush true) cx (fun _ _ hx => Pc.noConfusion hx) ht
  | front yields => exact waits_front h ht
  | back cx yields res => exact waits_back h ht

/-- While a call is pending, the task does not sleep, or the call is a `poll_write` whose waker
was taken out of the pipe and woken. -/
theorem unblock_write_awake (cap : Capacity) (s : State) (hs : (system cap).Reachable s) (pc : Pc)
    (hpending : s.answer = some (pc, .pending)) : ∃ writer p task,
      s.unblock = .writing writer p task ∧ (¬Asleep p task ∨
        p.pipe.writer = none ∧ ∃ buf taken, pc = .fill buf taken) := by
  have h : Inv False cap s ∧ Waits s :=
    hs.invariant (I := fun s => Inv False cap s ∧ Waits s)
      ⟨inv_new, fun hx => absurd rfl hx, fun _ _ hx => Pc.noConfusion hx, fun _ hx => by cases hx⟩
      fun _ _ _ h ht => ⟨inv_act h.1 nofun ht, waits_act h.2 ht⟩
  obtain ⟨writer, p, task, hu, hwaits⟩ := h.2.pending pc hpending
  have hreach := (writes_of_stands h.1 hu).reach
  obtain ⟨hwakes, hboth⟩ := pipe_wakes cap p hreach
  refine ⟨writer, p, task, hu, ?_⟩
  rcases hwaits with ⟨hfill, hidle, hret⟩ | hdropped
  · by_cases hslot : p.pipe.writer = none
    · exact .inr ⟨hslot, hfill⟩
    · exact .inl fun hx => hboth ⟨hx.2, hidle, hret, hslot⟩
  · refine .inl fun hx => ?_
    have hclosed := (told_of_reachable hreach).2.2.gone (.inr hdropped)
    rcases hwakes.reader hx.2 with ⟨-, hopen⟩ | hx | ⟨count, hx⟩
    · cases hclosed.symm.trans hopen
    · cases hdropped.symm.trans hx
    · cases hdropped.symm.trans hx

theorem unblock_write_awake_pendingFlush :
    ∃ s, (system fourBytes).Reachable s ∧ s.answer = some (.flush false, .pending) ∧
      ∃ writer p task, s.unblock = .writing writer p task ∧ (¬Asleep p task ∨
        p.pipe.writer = none ∧ ∃ buf taken, Pc.flush false = .fill buf taken) := by
  obtain ⟨s, -, hs, hanswer⟩ := System.exists_of_run (M := system fourBytes)
    (P := fun s => s.answer = some (.flush false, .pending)) (writeByte 7) (by decide +kernel)
  exact ⟨s, hs, hanswer, unblock_write_awake fourBytes s hs _ hanswer⟩

end Wakeups

end Cynthia.Blocking.UnblockWrite
