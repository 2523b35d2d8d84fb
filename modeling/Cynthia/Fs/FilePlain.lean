import Cynthia.Fs.FileInv

/-! Reading and writing through the pipe, in the call and in the background task, and
the refinement of the plain file by whole runs. -/

namespace Cynthia.Fs

open Transition Blocking

section Steps

variable {cap : Capacity} {f g std : Plain} {readPos : Option (Option Nat)} {pc : Pc}
  {s t : File} {p q : Blocking.State}

/-! ## Reading -/

/-- What was read is what the file has there. -/
theorem Ahead.got_eq (h : Ahead g std pc p) (hf : Fifo p) :
    pc.got = (g.rest.take pc.got.length).map some := by
  obtain ⟨start, before, -, hprod, hhanded, hcursor⟩ := h.cursor
  have hle : p.handed.length ≤ p.published.length :=
    le_trans hf.reader.handed_le hf.reader.seen_le
  have hlen := Fifo.produced_length p
  have hpub : p.published.take p.handed.length = (produced p).take p.handed.length := by
    rw [produced, List.take_append_of_le_length hle]
  have hstream : p.handed = ((g.contents.drop start).take p.handed.length).map some := by
    conv_lhs => rw [hf.content.handed, hpub, hprod, List.take_take]
    rw [Nat.min_eq_left (by omega)]
  have hgot : pc.got = p.handed.drop before.length := by
    rw [hhanded, List.drop_left]
  have hcount : p.handed.length = before.length + pc.got.length := by
    rw [hhanded, List.length_append]
  have htake : p.handed.drop before.length =
      ((g.contents.drop g.cursor).take pc.got.length).map some := by
    conv_lhs => rw [hstream]
    rw [← List.map_drop, List.drop_take, List.drop_drop, hcursor, hcount, Nat.add_sub_cancel_left]
  rw [Plain.rest, ← htake, hgot]

theorem Ahead.drainAct {yields : Bool} {n len : Nat} {got : List (Option UInt8)}
    (h : Ahead g std (.drain len got) p)
    (ht : Blocking.step p (Blocking.drainAct p yields n) = some q) :
    Ahead g std (.drain len (got ++ copied p n)) q := by
  obtain ⟨hpub, hwpc, hwret, -, -⟩ := sameWriter_step (ofReader_drainAct p yields n) ht
  have hprod : produced q = produced p := by rw [produced, produced, hpub, hwpc]
  obtain ⟨start, before, hcursor, hstream, hhanded, hg⟩ := h.cursor
  refine ⟨⟨start, before, ?_, ?_, ?_, hg⟩, ?_, ?_, ?_⟩
  · rw [hprod, hcursor]
  · rw [hprod]
    exact hstream
  · rw [handed_drainAct ht, hhanded, List.append_assoc]
    rfl
  · rw [closing_drainAct ht]
    exact h.there
  · rw [hwpc, hwret]
    exact h.eof
  · exact DrainOk.drainAct h.reads ht

/-- The read is over; what it has is not ahead any more. -/
theorem Ahead.advance (h : Ahead g std pc p) (hidle : p.rpc = .idle) :
    Ahead { g with cursor := g.cursor + pc.got.length } std .rest p := by
  obtain ⟨start, before, hcursor, hstream, hhanded, hg⟩ := h.cursor
  refine ⟨⟨start, p.handed, hcursor, hstream, (List.append_nil _).symm, ?_⟩, h.there, h.eof, hidle⟩
  rw [hhanded, List.length_append, hg, Nat.add_assoc]

/-- Nothing is ahead when the end of the stream is reported. -/
theorem Ahead.ended (h : Ahead g std pc p) (hs : Sound p) (hgot : pc.got = [])
    (hret : p.rret = some (.ready (.ok 0))) : std.cursor = g.cursor ∧ g.rest = [] := by
  obtain ⟨hcomplete, hwpc⟩ := hs.ended hret
  have hclosing : p.wpc.closing = true := by
    rcases hwpc with hwpc | hwpc <;> rw [hwpc] <;> rfl
  obtain ⟨start, before, hcursor, -, hhanded, hg⟩ := h.cursor
  have hlen : before.length = (produced p).length := by
    rw [hgot, List.append_nil] at hhanded
    rw [produced_of_closing hclosing, ← hhanded, hcomplete, List.length_map]
  have heq : std.cursor = g.cursor := by rw [hcursor, hg, hlen]
  refine ⟨heq, ?_⟩
  rw [Plain.rest, List.drop_eq_nil_iff, ← heq]
  exact h.eof (.inr hclosing)

/-- The reading end is idle in another program point. -/
theorem Ahead.goto {pc' : Pc} (h : Ahead g std pc p) (hgot : pc.got = []) (hgot' : pc'.got = [])
    (hreads : pc'.Reads p) : Ahead g std pc' p := by
  refine ⟨?_, h.there, h.eof, hreads⟩
  rw [hgot', ← hgot]
  exact h.cursor

theorem Inv.drain {yields : Bool} {len : Nat} {got : List (Option UInt8)} (h : Inv cap f s)
    (hpc : s.pc = .drain len got)
    (hfaith : ∀ p, s.unblock = .reading true p → TailFresh p .readerStep)
    (hst : s.drain yields len got = some t) : Inv cap f t := by
  obtain ⟨hok, g, hlog, hg⟩ := h
  rw [hpc] at hok hg
  obtain ⟨hlen, hgotlen⟩ := hok
  unfold File.drain at hst
  split at hst
  · rename_i p hu
    rw [hu] at hg
    obtain ⟨hp, hcontents, hpos, ha⟩ := hg
    have hs := sound_of_reachableVia hp
    have hdrain : DrainOk p got := ha.reads
    split at hst
    · rename_i hidle
      have hcount : (∀ n, p.rret = some (.ready (.ok n)) → n = got.length) ∧
          ((∀ res, p.rret ≠ some (.ready res)) → got = []) := by
        simpa only [DrainOk, hidle] using hdrain
      split at hst
      · -- the end of the stream; the task is polled next
        rename_i hret
        cases hst
        have hgot : got = [] := List.length_eq_zero_iff.mp (hcount.1 0 hret).symm
        refine ⟨hlen, g, hlog, ?_⟩
        rw [hu]
        exact ⟨hp, hcontents, hpos, ha.goto hgot rfl ⟨hidle, hret⟩⟩
      · -- the read is over
        rename_i n hzero hret
        have hn := hcount.1 n hret
        cases hst
        have hgot := ha.got_eq hs.fifo
        refine .finish (s := s.advance n) { g with cursor := g.cursor + n } hlog ?_ ?_
        · rw [Plain.perform, if_pos]
          refine ⟨by omega, ?_, hn.symm, ?_⟩
          · rw [hn]
            exact hgot
          · intro h0
            exact absurd h0 (by rintro rfl; exact hzero rfl)
        · show Stands cap _ s.std _ .rest s.unblock
          rw [hu]
          refine ⟨hp, hcontents, ?_, ?_⟩
          · simp [File.advance, hpos]
          · rw [hn]
            exact ha.advance hidle
      · rename_i e hret
        exact absurd hret (hs.noError.1 e)
      · -- `Pending`; the next poll starts over
        rename_i hzero hn herror
        cases hst
        have hgot : got = [] := by
          apply hcount.2
          rintro (e | n) hret
          · exact herror e hret
          · exact hn n hret
        refine ⟨hlen, g, hlog, ?_⟩
        rw [hu]
        exact ⟨hp, hcontents, hpos, ha.goto hgot rfl hidle⟩
    · rename_i hrun
      obtain ⟨q, hq, rfl⟩ := Option.map_eq_some_iff.mp hst
      have hn : p.rpc = .write 0 → min (offered p) (len - got.length) ≠ 0 := by
        intro hwrite
        have hgot : 0 = got.length := by simpa only [DrainOk, hwrite] using hdrain
        have hpos := hs.fifo.offered_pos hwrite
        omega
      have hle := length_copied_le p (min (offered p) (len - got.length))
      refine ⟨⟨hlen, ?_⟩, g, hlog, calm_next hp hq (calm_drainAct (hfaith p hu) hn), hcontents,
        hpos, ha.drainAct hq⟩
      rw [List.length_append]
      omega
  · cases hst

theorem Inv.ended {len : Nat} (h : Inv cap f s) (hpc : s.pc = .ended len)
    (hst : s.ended len = some t) : Inv cap f t := by
  obtain ⟨hok, g, hlog, hg⟩ := h
  rw [hpc] at hok hg
  unfold File.ended at hst
  split at hst
  · rename_i p hu
    rw [hu] at hg
    obtain ⟨hp, hcontents, hpos, ha⟩ := hg
    obtain ⟨hidle, hret⟩ := ha.reads
    split at hst
    · cases hst
      obtain ⟨-, hrest⟩ := ha.ended (sound_of_reachableVia hp) rfl hret
      refine .finish (s := File.advance { s with unblock := .idle } 0) g hlog ?_ ?_
      · rw [Plain.perform, if_pos ⟨Nat.zero_le _, rfl, rfl, fun _ => hrest⟩]
        rfl
      · refine ⟨?_, ?_⟩
        · simp [File.advance, hpos]
        · simp only [File.advance, hpos, Option.map_some, Nat.add_zero, positioned, hcontents]
    · cases hst
      refine ⟨hok, g, hlog, ?_⟩
      rw [hu]
      exact ⟨hp, hcontents, hpos, ha.goto rfl rfl hidle⟩
  · cases hst

/-! ## Writing -/

/-- As long as the writer is there, the task does not end. -/
theorem Behind.isOpen {base : Plain} (h : Behind base std p) (hs : Sound p)
    (hclosing : p.wpc.closing = false) : p.pipe.closed = false := by
  refine hs.isOpen ?_ hclosing
  by_contra hrpc
  obtain ⟨-, hwpc⟩ := hs.ended (h.done (Bool.not_eq_false _ |>.mp hrpc))
  rcases hwpc with hwpc | hwpc <;> rw [hwpc] at hclosing <;> cases hclosing

theorem Behind.fillAct {base : Plain} {yields : Bool} {data : List UInt8} (h : Behind base std p)
    (hf : Fifo p) (ht : Blocking.step p (Blocking.fillAct p yields data) = some q) :
    Behind base std q := by
  obtain ⟨hhanded, hrpc, hrret, -⟩ := sameReader_step (ofReader_fillAct p yields data) ht
  obtain ⟨more, hpub⟩ := published_fillAct ht
  refine ⟨?_, ?_⟩
  · rw [hhanded, hpub, List.take_append_of_le_length]
    · exact h.std_eq
    · exact le_trans hf.reader.handed_le hf.reader.seen_le
  · rw [hrpc, hrret]
    exact h.done

/-- The source of a write is the rest of its buffer. -/
theorem take_supplied (p : Blocking.State) (buf : List UInt8) (k n : Nat) :
    buf.take (k + (supplied p ((buf.drop k).take n)).length) =
      buf.take k ++ supplied p ((buf.drop k).take n) := by
  unfold supplied
  split
  · rw [List.take_add, List.length_take]
    congr 1
    rw [List.take_eq_take_iff]
    omega
  · simp

theorem Inv.fill {yields : Bool} {buf : List UInt8} {taken : Nat} (h : Inv cap f s)
    (hpc : s.pc = .fill buf taken) (hst : s.fill yields buf taken = some t) : Inv cap f t := by
  obtain ⟨hok, g, hlog, hg⟩ := h
  rw [hpc] at hok hg
  obtain ⟨hpos, htaken⟩ := hok
  unfold File.fill at hst
  split at hst
  · rename_i p hu
    rw [hu] at hg
    obtain ⟨hp, -, hclosing, base, hb, hfill, ⟨pub, hprod, hg⟩, hzero⟩ := hg
    have hs := sound_of_reachableVia hp
    split at hst
    · rename_i hidle
      have hcount : (∀ n, p.wret = some (.ready (.ok n)) → n = taken) ∧
          ((∀ res, p.wret ≠ some (.ready res)) → taken = 0) := by
        simpa only [FillOk, hidle] using hfill
      rw [produced_of_idle hidle] at hprod
      split at hst
      · -- the write is over
        rename_i n hret
        obtain rfl := hcount.1 n hret
        cases hst
        refine .finish (g.write (buf.take n)) hlog ?_ ?_
        · rw [Plain.perform, if_pos]
          refine ⟨htaken, ?_⟩
          rintro rfl
          exact hzero hidle hret
        · rw [hu]
          refine ⟨hp, hpos, hclosing, base, hb, hidle, ?_⟩
          rw [hg, Plain.write_append, hprod]
      · rename_i e hret
        exact absurd hret (hs.noError.2 e)
      · -- `Pending`; the next poll starts over
        rename_i hok herror
        cases hst
        have hnone : taken = 0 := by
          apply hcount.2
          rintro (e | n) hret
          · exact herror e hret
          · exact hok n hret
        refine ⟨hpos, g, hlog, ?_⟩
        rw [hu]
        refine ⟨hp, hpos, hclosing, base, hb, hidle, ?_⟩
        rw [hg, hprod, hnone, List.take_zero, List.append_nil]
    · obtain ⟨q, hq, rfl⟩ := Option.map_eq_some_iff.mp hst
      have hopen := hb.isOpen hs hclosing
      have hsupplied := take_supplied p buf taken (requested p)
      refine ⟨⟨hpos, ?_⟩, g, hlog, calm_next hp hq calm_fillAct, hpos,
        (closing_fillAct hq).trans hclosing, base, hb.fillAct hs.fifo hq, hfill.fillAct hq,
        ⟨pub, ?_, hg⟩, ?_⟩
      · have := congrArg List.length hsupplied
        rw [List.length_take, List.length_append, List.length_take] at this
        omega
      · rw [produced_fillAct (fun _ _ _ => hopen) hq, hprod, hsupplied, List.append_assoc]
      · intro hidle hret
        obtain ⟨hread, hdata, hreq⟩ := hs.roomy.fillAct_zero hs.fifo hopen hq hidle hret
        have hnone : 0 = taken := by simpa only [FillOk, hread] using hfill
        rw [← hnone, List.drop_zero, List.take_eq_nil_iff] at hdata
        exact hdata.resolve_left (Nat.pos_iff_ne_zero.mp hreq)
  · cases hst

/-! ## The background tasks -/

theorem Pc.Reads.same (h : pc.Reads p) (hs : SameReader p q) : pc.Reads q := by
  obtain ⟨-, hrpc, hrret, -⟩ := hs
  cases pc with
  | drain len got =>
    have h : DrainOk p got := h
    show DrainOk q got
    unfold DrainOk
    rw [hrpc, hrret]
    exact h
  | ended len => exact ⟨hrpc.trans h.1, hrret.trans h.2⟩
  | rest | reposition | seek | read | write | fill | flush | sync => exact hrpc.trans h

theorem Pc.Writes.same {base : Plain} (h : pc.Writes base g p) (hs : SameWriter p q) :
    pc.Writes base g q := by
  obtain ⟨hpub, hwpc, hwret, -, -⟩ := hs
  cases pc with
  | fill buf taken =>
    obtain ⟨hfill, ⟨pub, hprod, hg⟩, hzero⟩ := h
    refine ⟨?_, ⟨pub, ?_, hg⟩, ?_⟩
    · unfold FillOk
      rw [hwpc, hwret]
      exact hfill
    · rw [produced, hpub, hwpc]
      exact hprod
    · rw [hwpc, hwret]
      exact hzero
  | rest | reposition | seek | read | drain | ended | write | flush | sync =>
    exact ⟨hwpc.trans h.1, by rw [hpub]; exact h.2⟩

/-- An access of the task that does not touch the file. -/
theorem Ahead.same (h : Ahead g std pc p) (hs : SameReader p q) (hprod : produced q = produced p)
    (heof : (q.wpc = .idle ∧ q.wret = some (.ready (.ok 0))) ∨ q.wpc.closing = true →
      g.contents.length ≤ std.cursor) : Ahead g std pc q := by
  obtain ⟨start, before, hcursor, hstream, hhanded, hg⟩ := h.cursor
  refine ⟨⟨start, before, ?_, ?_, hs.handed.trans hhanded, hg⟩, ?_, heof, h.reads.same hs⟩
  · rw [hprod, hcursor]
  · rw [hprod]
    exact hstream
  · rw [hs.rpc]
    exact h.there

theorem supplied_rest (p : Blocking.State) (l : List UInt8) (n : Nat) :
    supplied p (l.take n) = l.take (supplied p (l.take n)).length := by
  unfold supplied
  split
  · rw [List.length_take, List.take_eq_take_iff]
    omega
  · rw [List.length_nil, List.take_zero]

/-- An access of the running `fill` of the task. -/
theorem Ahead.fillAct {yields : Bool} {n : Nat} (h : Ahead g std pc p) (hs : Sound p)
    (hcontents : std.contents = g.contents) (hn : ¬(n = 0 ∧ requested p ≠ 0))
    (ht : Blocking.step p (Blocking.fillAct p yields (std.rest.take n)) = some q) :
    Ahead g { std with cursor := std.cursor + (supplied p (std.rest.take n)).length } pc q := by
  have hsame := sameReader_step (ofReader_fillAct p yields _) ht
  have hopen : p.wpc.closing = false → p.pipe.closed = false := hs.isOpen h.there
  have hprod : produced q = produced p ++ supplied p (std.rest.take n) := by
    refine produced_fillAct (fun count data hpc => hopen ?_) ht
    rw [hpc]
    rfl
  obtain ⟨start, before, hcursor, hstream, hhanded, hg⟩ := h.cursor
  refine ⟨⟨start, before, ?_, ?_, hsame.handed.trans hhanded, hg⟩, ?_, ?_, h.reads.same hsame⟩
  · rw [hprod, List.length_append, ← Nat.add_assoc, ← hcursor]
  · rw [hprod, List.length_append, List.take_add, ← hstream]
    congr 1
    rw [List.drop_drop, ← hcursor, ← hcontents]
    exact supplied_rest p std.rest n
  · rw [hsame.rpc]
    exact h.there
  · intro hend
    rcases hend with ⟨hidle, hret⟩ | hclosing
    · have hclosing : p.wpc.closing = false := by
        rw [← closing_fillAct ht, hidle]
        rfl
      obtain ⟨-, hdata, hreq⟩ := hs.roomy.fillAct_zero hs.fifo (hopen hclosing) ht hidle hret
      have hrest := (List.take_eq_nil_iff.mp hdata).resolve_left fun h0 => hn ⟨h0, by omega⟩
      rw [Plain.rest, List.drop_eq_nil_iff, hcontents] at hrest
      exact Nat.le_add_right_of_le hrest
    · rw [closing_fillAct ht] at hclosing
      rw [supplied_of_closing hclosing]
      exact h.eof (.inr hclosing)

theorem readAhead_cases {cx : Waker} {yields : Bool} {n : Nat} {std' : Plain}
    (hst : s.readAhead cx yields n p = some (std', q)) :
    (p.wpc = .idle ∧ std' = s.std ∧ Blocking.step p (.fill cx) = some q) ∨
    (p.wpc = .idle ∧ std' = s.std ∧ Blocking.step p .dropWriter = some q ∧
      (p.wret = some (.ready (.ok 0)) ∨ ∃ e, p.wret = some (.ready (.error e)))) ∨
    (¬(n = 0 ∧ requested p ≠ 0) ∧
      Blocking.step p (Blocking.fillAct p yields (s.std.rest.take n)) = some q ∧
      std' =
        { s.std with cursor := s.std.cursor + (supplied p (s.std.rest.take n)).length }) := by
  unfold File.readAhead at hst
  split at hst
  · rename_i hidle
    split at hst
    · rename_i hret
      obtain ⟨q', hq, he⟩ := Option.map_eq_some_iff.mp hst
      cases he
      exact .inr (.inl ⟨hidle, rfl, hq, .inl hret⟩)
    · rename_i e hret
      obtain ⟨q', hq, he⟩ := Option.map_eq_some_iff.mp hst
      cases he
      exact .inr (.inl ⟨hidle, rfl, hq, .inr ⟨e, hret⟩⟩)
    · obtain ⟨q', hq, he⟩ := Option.map_eq_some_iff.mp hst
      cases he
      exact .inl ⟨hidle, rfl, hq⟩
  · split at hst
    · cases hst
    · rename_i hn
      obtain ⟨q', hq, he⟩ := Option.map_eq_some_iff.mp hst
      cases he
      exact .inr (.inr ⟨hn, hq, rfl⟩)

/-- An access of the task that reads ahead keeps what the state stands for. -/
theorem Stands.readAhead {cx : Waker} {yields reader : Bool} {n : Nat} {std' : Plain}
    (h : Stands cap g s.std readPos pc (.reading reader p))
    (hst : s.readAhead cx yields n p = some (std', q)) :
    Stands cap g std' readPos pc (.reading reader q) := by
  have hp : (Blocking.system cap).ReachableVia Calm p := by cases reader <;> exact h.1
  have hs := sound_of_reachableVia hp
  rcases readAhead_cases hst with ⟨hidle, rfl, hq⟩ | ⟨hidle, rfl, hq, hret⟩ | ⟨hn, hq, rfl⟩
  · have hsame := sameReader_step rfl hq
    have hq' := calm_next hp hq (calm_of_ne (by simp) (by simp) (by simp))
    cases reader with
    | false =>
      obtain ⟨-, hcontents, hpos, hclosing⟩ := h
      exact ⟨hq', hcontents, hpos, by rw [hsame.rpc, hclosing]⟩
    | true =>
      obtain ⟨-, hcontents, hpos, ha⟩ := h
      refine ⟨hq', hcontents, hpos, ha.same hsame ?_ ?_⟩
      · rw [produced_fill hq]
      · obtain ⟨-, rfl⟩ := fill_eq hq
        simp [FillPc.closing]
  · have hsame := sameReader_step rfl hq
    have hq' := calm_next hp hq (calm_of_ne (by simp) (by simp) (by simp))
    cases reader with
    | false =>
      obtain ⟨-, hcontents, hpos, hclosing⟩ := h
      exact ⟨hq', hcontents, hpos, by rw [hsame.rpc, hclosing]⟩
    | true =>
      obtain ⟨-, hcontents, hpos, ha⟩ := h
      have hzero : p.wret = some (.ready (.ok 0)) := by
        rcases hret with hret | ⟨e, hret⟩
        · exact hret
        · exact absurd hret (hs.noError.2 e)
      refine ⟨hq', hcontents, hpos, ha.same hsame ?_ fun _ => ha.eof (.inl ⟨hidle, hzero⟩)⟩
      obtain ⟨-, rfl⟩ := dropWriter_eq hq
      rw [produced_of_idle hidle]
      simp [produced, pending]
  · have hsame := sameReader_step (ofReader_fillAct p yields _) hq
    have hq' := calm_next hp hq calm_fillAct
    cases reader with
    | false =>
      obtain ⟨-, hcontents, hpos, hclosing⟩ := h
      exact ⟨hq', hcontents, hpos, by rw [hsame.rpc, hclosing]⟩
    | true =>
      obtain ⟨-, hcontents, hpos, ha⟩ := h
      exact ⟨hq', hcontents, hpos, ha.fillAct hs hcontents hn hq⟩

theorem writeBehind_cases {cx : Waker} {yields : Bool} {n : Nat} {std' : Plain}
    (hst : s.writeBehind cx yields n p = some (std', q)) :
    (p.rpc = .idle ∧ std' = s.std ∧ Blocking.step p (.drain cx) = some q) ∨
    (p.rpc = .idle ∧ std' = s.std ∧ Blocking.step p .dropReader = some q ∧
      (p.rret = some (.ready (.ok 0)) ∨ ∃ e, p.rret = some (.ready (.error e)))) ∨
    (¬(n = 0 ∧ offered p ≠ 0) ∧ Blocking.step p (Blocking.drainAct p yields n) = some q ∧
      std' = s.std.write ((copied p n).map fun b => b.getD 0)) := by
  unfold File.writeBehind at hst
  split at hst
  · rename_i hidle
    split at hst
    · rename_i hret
      obtain ⟨q', hq, he⟩ := Option.map_eq_some_iff.mp hst
      cases he
      exact .inr (.inl ⟨hidle, rfl, hq, .inl hret⟩)
    · rename_i e hret
      obtain ⟨q', hq, he⟩ := Option.map_eq_some_iff.mp hst
      cases he
      exact .inr (.inl ⟨hidle, rfl, hq, .inr ⟨e, hret⟩⟩)
    · obtain ⟨q', hq, he⟩ := Option.map_eq_some_iff.mp hst
      cases he
      exact .inl ⟨hidle, rfl, hq⟩
  · split at hst
    · cases hst
    · rename_i hn
      obtain ⟨q', hq, he⟩ := Option.map_eq_some_iff.mp hst
      cases he
      exact .inr (.inr ⟨hn, hq, rfl⟩)

/-- What the file gets is the next part of what was published. -/
theorem copied_eq {n : Nat} (hf : Fifo p) {yields : Bool}
    (ht : Blocking.step p (Blocking.drainAct p yields n) = some q) :
    (copied p n).map (fun b => b.getD 0) =
      (p.published.drop p.handed.length).take (copied p n).length := by
  rcases drainAct_cases ht with ⟨hpc, -⟩ | ⟨count, hpc, hle, -⟩ | ht
  · rw [copied_of_ne (by simp [hpc])]
    simp
  · rw [length_copied hpc hle]
    simp only [copied, hpc]
    rw [hf.slice_eq hle, List.map_map]
    exact List.map_id _
  · rw [copied_of_ne (handed_readerStep ht).2]
    simp

theorem Behind.drainAct {base : Plain} {yields : Bool} {n : Nat} (h : Behind base std p)
    (hf : Fifo p) (ht : Blocking.step p (Blocking.drainAct p yields n) = some q) :
    Behind base (std.write ((copied p n).map fun b => b.getD 0)) q := by
  have hsame := sameWriter_step (ofReader_drainAct p yields n) ht
  refine ⟨?_, ?_⟩
  · rw [copied_eq hf ht, h.std_eq, Plain.write_append, hsame.published, handed_drainAct ht,
      List.length_append, List.take_add]
  · intro hclosing
    rw [closing_drainAct ht] at hclosing
    rw [drainAct_of_closing hclosing] at ht
    rw [rret_of_closing hclosing ht]
    exact h.done hclosing

/-- An access of the task that writes keeps what the state stands for. -/
theorem Stands.writeBehind {cx : Waker} {yields writer : Bool} {n : Nat} {std' : Plain}
    (h : Stands cap g s.std readPos pc (.writing writer p)) (hfresh : TailFresh p .readerStep)
    (hst : s.writeBehind cx yields n p = some (std', q)) :
    Stands cap g std' readPos pc (.writing writer q) := by
  have hp : (Blocking.system cap).ReachableVia Calm p := by cases writer <;> exact h.1
  have hs := sound_of_reachableVia hp
  have hmain : (Blocking.system cap).ReachableVia Calm q ∧ SameWriter p q ∧
      ∀ base, Behind base s.std p → Behind base std' q := by
    rcases writeBehind_cases hst with ⟨-, rfl, hq⟩ | ⟨-, rfl, hq, hret⟩ | ⟨hn, hq, rfl⟩
    · refine ⟨calm_next hp hq (calm_of_ne (by simp) (by simp) (by simp)),
        sameWriter_step rfl hq, fun base hb => ?_⟩
      obtain ⟨-, rfl⟩ := drain_eq hq
      exact ⟨hb.std_eq, by simp [DrainPc.closing]⟩
    · refine ⟨calm_next hp hq (calm_of_ne (by simp) (by simp) (by simp)),
        sameWriter_step rfl hq, fun base hb => ?_⟩
      obtain ⟨-, rfl⟩ := dropReader_eq hq
      refine ⟨hb.std_eq, fun _ => ?_⟩
      rcases hret with hret | ⟨e, hret⟩
      · exact hret
      · exact absurd hret (hs.noError.1 e)
    · have hpos : p.rpc = .write 0 → n ≠ 0 := by
        intro hwrite h0
        exact hn ⟨h0, Nat.pos_iff_ne_zero.mp (hs.fifo.offered_pos hwrite)⟩
      exact ⟨calm_next hp hq (calm_drainAct hfresh hpos),
        sameWriter_step (ofReader_drainAct p yields n) hq, fun base hb => hb.drainAct hs.fifo hq⟩
  obtain ⟨hq, hsame, hbehind⟩ := hmain
  cases writer with
  | true =>
    obtain ⟨-, hpos, hclosing, base, hb, hw⟩ := h
    exact ⟨hq, hpos, by rw [hsame.wpc, hclosing], base, hbehind base hb, hw.same hsame⟩
  | false =>
    obtain ⟨-, hpos, hclosing, base, hb, hg⟩ := h
    exact ⟨hq, hpos, by rw [hsame.wpc, hclosing], base, hbehind base hb,
      by rw [hsame.published, hg]⟩

/-- The task of a seek runs. -/
theorem Stands.seek {pos : SeekFrom} (h : Stands cap g std readPos pc (.seeking pos none)) :
    Stands cap g (std.seek pos).2 readPos pc (.seeking pos (some (std.seek pos).1)) := by
  cases pc with
  | reposition op =>
    obtain ⟨hcontents, hpos, rfl, -⟩ := h
    rw [Plain.seek_start]
    exact ⟨hcontents, hpos, rfl, fun r hr => by cases hr; exact ⟨rfl, rfl⟩⟩
  | seek pos' op =>
    obtain ⟨hpos, rfl, rfl⟩ := h
    exact ⟨hpos, rfl, rfl⟩
  | rest | read | drain | ended | write | fill | flush | sync => exact h.elim

theorem Inv.back {cx : Waker} {yields : Bool} {n : Nat} (h : Inv cap f s)
    (hfaith : ∀ writer p, s.unblock = .writing writer p → TailFresh p .readerStep)
    (hst : s.back cx yields n = some t) : Inv cap f t := by
  obtain ⟨hok, g, hlog, hg⟩ := h
  have hsync : s.unblock ≠ .idle → ∀ op, s.pc ≠ .sync op := by
    intro hidle op hpc
    rw [hpc] at hok
    exact hidle hok.1
  unfold File.back at hst
  split at hst
  · cases hst
  · rename_i reader p hu
    obtain ⟨⟨std', q⟩, hq, rfl⟩ := Option.map_eq_some_iff.mp hst
    rw [hu] at hg
    exact ⟨hok.move (hsync (by simp [hu])) _, g, hlog, hg.readAhead hq⟩
  · rename_i writer p hu
    obtain ⟨⟨std', q⟩, hq, rfl⟩ := Option.map_eq_some_iff.mp hst
    rw [hu] at hg
    exact ⟨hok.move (hsync (by simp [hu])) _, g, hlog, hg.writeBehind (hfaith writer p hu) hq⟩
  · rename_i pos hu
    cases hst
    rw [hu] at hg
    exact ⟨hok.move (hsync (by simp [hu])) _, g, hlog, hg.seek⟩
  · cases hst

theorem Inv.front {cx : Waker} {yields : Bool} (h : Inv cap f s)
    (hfaith : Faithful s (.front cx yields)) (hst : s.front cap cx yields = some t) :
    Inv cap f t := by
  unfold File.front at hst
  split at hst
  · cases hst
  · rename_i op hpc
    exact h.reposition hpc hst
  · rename_i pos op hpc
    exact h.seek hpc hst
  · rename_i len hpc
    refine h.read hpc (fun hu => ?_) hst
    simpa only [Faithful, losesNothing, hpc, hu, decide_eq_true_eq] using hfaith
  · rename_i len got hpc
    refine h.drain hpc (fun p hu => ?_) hst
    simpa only [Faithful, losesNothing, hpc, hu, decide_eq_true_eq] using hfaith
  · rename_i len hpc
    exact h.ended hpc hst
  · rename_i buf hpc
    exact h.write hpc hst
  · rename_i buf taken hpc
    exact h.fill hpc hst
  · rename_i op hpc
    exact h.flush hpc hst
  · rename_i op hpc
    cases hst
    exact h.sync hpc

theorem inv_step {a : Act} (hfaith : Faithful s a) (h : Inv cap f s)
    (hst : step cap s a = some t) : Inv cap f t := by
  cases a with
  | start op => exact h.start hst
  | front cx yields => exact h.front hfaith hst
  | back cx yields n =>
    refine h.back (fun writer p hu => ?_) hst
    simpa only [Faithful, losesNothing, hu, decide_eq_true_eq] using hfaith

end Steps

/-- In every run of faithful steps the completed operations, with their results, are
those of a plain file, and a file at rest stands for the plain file after them. -/
theorem file_is_plain (cap : Capacity) (f : Plain) (isDirty : Bool) (s : File)
    (hs : (system cap f isDirty).ReachableVia Faithful s) :
    (f.replay s.log).isSome = true ∧ (s.pc = .rest → f.replay s.log = some s.logical) := by
  have hinv : Inv cap f s := System.ReachableVia.invariant (M := system cap f isDirty)
    (inv_new cap f isDirty) (fun _ _ _ => inv_step) hs
  obtain ⟨-, g, hlog, hg⟩ := hinv
  refine ⟨by rw [hlog]; rfl, fun hpc => ?_⟩
  rw [hpc] at hg
  rw [hlog, hg.logical_eq]

def fronts (k : Nat) : List Act := List.replicate k (.front 0 false)

def backs (k n : Nat) : List Act := List.replicate k (.back 0 false n)

/-- One byte is read; the task has meanwhile read the whole file. -/
def readOne : List Act :=
  .start (.read 1) :: fronts 2 ++ backs 1 9 ++ fronts 2 ++ backs 19 9 ++ fronts 9

/-- The byte after it is overwritten. -/
def writeOne : List Act :=
  .start (.write [7]) :: fronts 5 ++ backs 1 9 ++ fronts 13 ++
    .start .flush :: fronts 3 ++ backs 2 0 ++ backs 3 1 ++ backs 11 0 ++ fronts 2

theorem file_is_plain_overwrite :
    ∃ s, (system eightMiB ⟨[1, 2, 3], 0⟩ false).ReachableVia Faithful s ∧
      s.log = [(.read 1, .read 1 [some 1]), (.write [7], .wrote 1), (.flush, .unit)] ∧
      s.std = ⟨[1, 7, 3], 2⟩ ∧ Plain.replay ⟨[1, 2, 3], 0⟩ s.log = some s.logical := by
  obtain ⟨s, hs, hlog, hpc, hstd⟩ := System.exists_of_runVia Faithful
    (M := system eightMiB ⟨[1, 2, 3], 0⟩ false)
    (P := fun s => s.log = [(.read 1, .read 1 [some 1]), (.write [7], .wrote 1), (.flush, .unit)] ∧
      s.pc = .rest ∧ s.std = ⟨[1, 7, 3], 2⟩)
    (readOne ++ writeOne) (by decide +kernel)
  exact ⟨s, hs, hlog, hstd, (file_is_plain eightMiB ⟨[1, 2, 3], 0⟩ false s hs).2 hpc⟩

/-- `sync_all` throws away what was read ahead; the next read finds the end of the file. -/
theorem file_loses_place :
    ∃ s, (system eightMiB ⟨[1, 2, 3], 0⟩ false).Reachable s ∧
      s.log = [(.read 1, .read 1 [some 1]), (.syncAll, .unit), (.read 1, .read 0 [])] ∧
      Plain.replay ⟨[1, 2, 3], 0⟩ s.log = none := by
  obtain ⟨s, -, hs, hlog⟩ := System.exists_of_run (M := system eightMiB ⟨[1, 2, 3], 0⟩ false)
    (P := fun s => s.log =
      [(.read 1, .read 1 [some 1]), (.syncAll, .unit), (.read 1, .read 0 [])])
    (readOne ++ .start .syncAll :: fronts 6 ++ .start (.read 1) :: fronts 1 ++ backs 9 9 ++
      fronts 7) (by decide +kernel)
  refine ⟨s, hs, hlog, ?_⟩
  rw [hlog]
  decide

end Cynthia.Fs
