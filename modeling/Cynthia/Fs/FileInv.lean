import Cynthia.Fs.File

/-! What a `File` stands for: the state of `Unblock`, the pipe inside and `read_pos` make
the plain file that has performed the completed operations. Stopping a task, seeking and
starting one keep it. -/

namespace Cynthia.Fs

open Transition Blocking

/-- What a program point knows about the operation, about `read_pos` and, after a flush,
about `Unblock`. -/
def Pc.Ok (readPos : Option (Option Nat)) (u : Unblock) : Pc → Prop
  | .rest => True
  | .reposition op => (∃ len, 0 < len ∧ op = .read len) ∨ (∃ buf, op = .write buf) ∨
      ∃ pos, op = .seek pos
  | .seek pos op => readPos = none ∧
      (op = .seek pos ∨ ∃ len, 0 < len ∧ op = .read len ∧ pos = .current 0)
  | .read len | .ended len => 0 < len
  | .drain len got => 0 < len ∧ got.length ≤ len
  | .write _ => readPos = none
  | .fill buf taken => readPos = none ∧ taken ≤ buf.length
  | .flush op => op = .flush ∨ op = .syncAll ∨ op = .syncData ∨ ∃ size, op = .setLen size
  | .sync op => u = .idle ∧ (op = .syncAll ∨ op = .syncData ∨ ∃ size, op = .setLen size)

/-- What a read in progress has put into the buffer. -/
def Pc.got : Pc → List (Option UInt8)
  | .drain _ got => got
  | _ => []

/-- The reading end of the pipe is where the program point says. -/
def Pc.Reads (p : Blocking.State) : Pc → Prop
  | .drain _ got => DrainOk p got
  | .ended _ => p.rpc = .idle ∧ p.rret = some (.ready (.ok 0))
  | _ => p.rpc = .idle

/-- So is the writing end, and what the completed writes have published makes `g` out
of `base`. -/
def Pc.Writes (base g : Plain) (p : Blocking.State) : Pc → Prop
  | .fill buf taken => FillOk p taken ∧
      (∃ pub, produced p = pub ++ buf.take taken ∧ g = base.write pub) ∧
      (p.wpc = .idle → p.wret = some (.ready (.ok 0)) → buf = [])
  | _ => p.wpc = .idle ∧ g = base.write p.published

/-- A task reads ahead, from `start` on, into a pipe whose reader is there. -/
structure Ahead (g std : Plain) (pc : Pc) (p : Blocking.State) : Prop where
  cursor : ∃ start before, std.cursor = start + (produced p).length ∧
    produced p = (g.contents.drop start).take (produced p).length ∧
    p.handed = before ++ pc.got ∧ g.cursor = start + before.length
  there : p.rpc.closing = false
  eof : (p.wpc = .idle ∧ p.wret = some (.ready (.ok 0))) ∨ p.wpc.closing = true →
    g.contents.length ≤ std.cursor
  reads : pc.Reads p

/-- A task has written to `base` what was handed to it. -/
structure Behind (base std : Plain) (p : Blocking.State) : Prop where
  std_eq : std = base.write (p.published.take p.handed.length)
  done : p.rpc.closing = true → p.rret = some (.ready (.ok 0))

/-- The state stands for the plain file `g`. -/
def Stands (cap : Capacity) (g std : Plain) (readPos : Option (Option Nat)) (pc : Pc) :
    Unblock → Prop
  | .idle => readPos ≠ some none ∧ g = positioned std readPos
  | .reading true p => (Blocking.system cap).ReachableVia Calm p ∧
      std.contents = g.contents ∧ readPos = some (some g.cursor) ∧ Ahead g std pc p
  | .reading false p => (Blocking.system cap).ReachableVia Calm p ∧
      std.contents = g.contents ∧ readPos = some (some g.cursor) ∧ p.rpc.closing = true
  | .writing true p => (Blocking.system cap).ReachableVia Calm p ∧ readPos = none ∧
      p.wpc.closing = false ∧ ∃ base, Behind base std p ∧ pc.Writes base g p
  | .writing false p => (Blocking.system cap).ReachableVia Calm p ∧ readPos = none ∧
      p.wpc.closing = true ∧ ∃ base, Behind base std p ∧ g = base.write p.published
  | .seeking pos res => match pc with
    | .reposition _ => std.contents = g.contents ∧ readPos = some (some g.cursor) ∧
        pos = .start g.cursor ∧ ∀ r, res = some r → r = some g.cursor ∧ std.cursor = g.cursor
    | .seek pos' _ => readPos = none ∧ pos' = pos ∧ match res with
      | none => std = g
      | some r => g.seek pos = (r, std)
    | _ => False

/-- The completed operations are those of a plain file. -/
def Inv (cap : Capacity) (f : Plain) (s : File) : Prop :=
  s.pc.Ok s.readPos s.unblock ∧
    ∃ g, f.replay s.log = some g ∧ Stands cap g s.std s.readPos s.pc s.unblock

section Steps

variable {cap : Capacity} {f g std : Plain} {readPos : Option (Option Nat)} {pc : Pc}
  {s t : File} {u v : Unblock} {op : Op} {res : Res} {p q : Blocking.State}

theorem inv_new (cap : Capacity) (f : Plain) (isDirty : Bool) : Inv cap f (File.new f isDirty) :=
  ⟨trivial, f, rfl, by simp [File.new], rfl⟩

/-- An operation that a plain file performs is completed. -/
theorem Inv.finish (g' : Plain) (hlog : f.replay s.log = some g)
    (hop : g.perform op res = some g') (h : Stands cap g' s.std s.readPos .rest s.unblock) :
    Inv cap f (s.finish op res) := by
  refine ⟨trivial, g', ?_, h⟩
  rw [File.finish, Plain.replay_append, hlog]
  exact hop

theorem Stands.logical_eq (h : Stands cap g s.std s.readPos .rest s.unblock) : g = s.logical := by
  unfold File.logical
  cases hu : s.unblock with
  | idle =>
    rw [hu] at h
    exact h.2
  | reading reader p =>
    have hsame : s.std.contents = g.contents ∧ s.readPos = some (some g.cursor) := by
      rw [hu] at h
      cases reader <;> exact ⟨h.2.1, h.2.2.1⟩
    simp only [positioned, hsame.2, hsame.1]
  | writing writer p =>
    have hbase : ∃ base, Behind base s.std p ∧ g = base.write p.published := by
      rw [hu] at h
      cases writer with
      | false => exact h.2.2.2
      | true =>
        obtain ⟨-, -, -, base, hb, -, hg⟩ := h
        exact ⟨base, hb, hg⟩
    obtain ⟨base, hb, hg⟩ := hbase
    simp only [hb.std_eq, Plain.write_append, List.take_append_drop, hg]
  | seeking pos res =>
    rw [hu] at h
    exact h.elim

theorem Pc.Writes.published {base : Plain} (h : pc.Writes base g p)
    (hfill : ∀ buf k, pc ≠ .fill buf k) : g = base.write p.published := by
  cases pc with
  | fill buf k => exact absurd rfl (hfill buf k)
  | rest | reposition | seek | read | drain | ended | write | flush | sync => exact h.2

/-- A round of `poll_stop` changes nothing that counts, and does not fail. -/
theorem Stands.stop (h : Stands cap g std readPos pc u) (hseek : ∀ pos res, u ≠ .seeking pos res)
    (hfill : ∀ buf k, pc ≠ .fill buf k) {failed : Bool} (hstop : stop u = some (v, failed)) :
    failed = false ∧ Stands cap g std readPos pc v := by
  cases u with
  | idle => cases hstop
  | seeking pos res => exact absurd rfl (hseek pos res)
  | reading reader p =>
    cases reader with
    | true =>
      obtain ⟨q, hq, he⟩ := Option.map_eq_some_iff.mp hstop
      cases he
      obtain ⟨hp, hcontents, hpos, -⟩ := h
      refine ⟨rfl, calm_next hp hq (calm_of_ne (by simp) (by simp) (by simp)), hcontents, hpos, ?_⟩
      obtain ⟨-, rfl⟩ := dropReader_eq hq
      rfl
    | false =>
      obtain ⟨hp, hcontents, hpos, hclosing⟩ := h
      simp only [Fs.stop] at hstop
      split at hstop
      · split at hstop
        · cases hstop
          refine ⟨rfl, by simp [hpos], ?_⟩
          rw [hpos, positioned, hcontents]
        · cases hstop
      · obtain ⟨q, hq, he⟩ := Option.map_eq_some_iff.mp hstop
        cases he
        have hfresh : TailFresh p .readerStep := by
          intro _ hpc
          rw [hpc] at hclosing
          cases hclosing
        exact ⟨rfl, calm_next hp hq (calm_readerStep hfresh), hcontents, hpos,
          (closing_readerStep hq).trans hclosing⟩
  | writing writer p =>
    cases writer with
    | true =>
      obtain ⟨q, hq, he⟩ := Option.map_eq_some_iff.mp hstop
      cases he
      obtain ⟨hp, hpos, -, base, hb, hw⟩ := h
      have hg := hw.published hfill
      refine ⟨rfl, calm_next hp hq (calm_of_ne (by simp) (by simp) (by simp)), hpos, ?_, base, ?_⟩
      · obtain ⟨-, rfl⟩ := dropWriter_eq hq
        rfl
      · obtain ⟨-, rfl⟩ := dropWriter_eq hq
        exact ⟨⟨hb.std_eq, hb.done⟩, hg⟩
    | false =>
      obtain ⟨hp, hpos, hclosing, base, hb, hg⟩ := h
      simp only [Fs.stop] at hstop
      split at hstop
      · split at hstop
        · rename_i hrpc
          cases hstop
          obtain ⟨hhanded, -⟩ := (sound_of_reachableVia hp).ended (hb.done (by rw [hrpc]; rfl))
          refine ⟨rfl, by simp [hpos], ?_⟩
          rw [hpos, positioned, hg, hb.std_eq, hhanded, List.length_map, List.take_length]
          simp
        · cases hstop
      · obtain ⟨q, hq, he⟩ := Option.map_eq_some_iff.mp hstop
        cases he
        obtain ⟨hhanded, hrpc, hrret, -⟩ := sameReader_step rfl hq
        have hpub : q.published = p.published := by
          rw [← produced_of_closing hclosing,
            ← produced_of_closing ((closing_writerStep hq).trans hclosing)]
          refine produced_writerStep (fun count data hpc => ?_) hq
          rw [hpc] at hclosing
          cases hclosing
        refine ⟨rfl, calm_next hp hq (calm_of_ne (by simp) (by simp) (by simp)), hpos,
          (closing_writerStep hq).trans hclosing, base, ⟨?_, ?_⟩, ?_⟩
        · rw [hpub, hhanded, hb.std_eq]
        · rw [hrpc, hrret]
          exact hb.done
        · rw [hpub, hg]

/-- A round of `poll_seek` that is one of `poll_stop`. -/
theorem Stands.pollSeek_stop {r : Option (Option Nat)} (h : Stands cap g std readPos pc u)
    (hseek : ∀ pos res, u ≠ .seeking pos res) (hfill : ∀ buf k, pc ≠ .fill buf k)
    (hs : (Fs.stop u).map (fun (u, failed) => (u, if failed then some none else none)) =
      some (v, r)) : r = none ∧ Stands cap g std readPos pc v := by
  obtain ⟨⟨w, failed⟩, hstop, he⟩ := Option.map_eq_some_iff.mp hs
  obtain ⟨hfailed, hw⟩ := h.stop hseek hfill hstop
  subst hfailed
  cases he
  exact ⟨rfl, hw⟩

/-- A round of the `poll_seek` of `poll_reposition`; at its end the file is where it
should be. -/
theorem Stands.pollSeek_reposition {pos : Nat} {r : Option (Option Nat)}
    (h : Stands cap g std (some (some pos)) (.reposition op) u)
    (hs : pollSeek (.start pos) u = some (v, r)) :
    (r = none ∧ Stands cap g std (some (some pos)) (.reposition op) v) ∨
      (r = some (some pos) ∧ v = .idle ∧ g = std) := by
  cases u with
  | idle =>
    obtain ⟨-, rfl⟩ := h
    cases hs
    exact .inl ⟨rfl, rfl, rfl, rfl, by simp⟩
  | reading reader p => exact .inl (h.pollSeek_stop (by simp) (by simp) hs)
  | writing writer p => exact .inl (h.pollSeek_stop (by simp) (by simp) hs)
  | seeking pos' res =>
    obtain ⟨hcontents, hpos, hpos', hres⟩ := h
    obtain ⟨r', rfl, he⟩ := Option.map_eq_some_iff.mp hs
    obtain ⟨rfl, hcursor⟩ := hres r' rfl
    cases hpos
    cases he
    refine .inr ⟨if_pos (.inr hpos'), rfl, ?_⟩
    obtain ⟨contents, cursor⟩ := g
    obtain ⟨contents', cursor'⟩ := std
    cases hcontents
    cases hcursor
    rfl

/-- A round of the `poll_seek` that an operation asks for. -/
theorem Stands.pollSeek_seek {pos : SeekFrom} {r : Option (Option Nat)}
    (h : Stands cap g std none (.seek pos op) u) (hs : pollSeek pos u = some (v, r)) :
    (r = none ∧ Stands cap g std none (.seek pos op) v) ∨
      ∃ res, r = some res ∧ v = .idle ∧ g.seek pos = (res, std) := by
  cases u with
  | idle =>
    obtain ⟨-, rfl⟩ := h
    cases hs
    exact .inl ⟨rfl, rfl, rfl, rfl⟩
  | reading reader p => exact .inl (h.pollSeek_stop (by simp) (by simp) hs)
  | writing writer p => exact .inl (h.pollSeek_stop (by simp) (by simp) hs)
  | seeking pos' res =>
    obtain ⟨-, rfl, hres⟩ := h
    obtain ⟨r', rfl, he⟩ := Option.map_eq_some_iff.mp hs
    cases he
    exact .inr ⟨r', if_pos (.inr rfl), rfl, hres⟩

/-- Nothing that counts depends on where a call is, before it uses the pipe. -/
theorem Stands.goto {pc' : Pc} (h : Stands cap g std readPos pc u)
    (hgot : pc'.got = pc.got) (hreads : ∀ p, pc.Reads p → pc'.Reads p)
    (hwrites : ∀ base p, pc.Writes base g p → pc'.Writes base g p)
    (hseek : ∀ pos res, u ≠ .seeking pos res) : Stands cap g std readPos pc' u := by
  cases u with
  | idle => exact h
  | seeking pos res => exact absurd rfl (hseek pos res)
  | reading reader p =>
    cases reader with
    | false => exact h
    | true =>
      obtain ⟨hp, hcontents, hpos, ha⟩ := h
      refine ⟨hp, hcontents, hpos, ?_, ha.there, ha.eof, hreads p ha.reads⟩
      rw [hgot]
      exact ha.cursor
  | writing writer p =>
    cases writer with
    | false => exact h
    | true =>
      obtain ⟨hp, hpos, hclosing, base, hb, hw⟩ := h
      exact ⟨hp, hpos, hclosing, base, hb, hwrites base p hw⟩

theorem Inv.start (h : Inv cap f s) (hst : s.start op = some t) : Inv cap f t := by
  obtain ⟨-, g, hlog, hg⟩ := h
  unfold File.start at hst
  split at hst
  · rename_i hpc
    rw [hpc] at hg
    have hseek : ∀ pos res, s.unblock ≠ .seeking pos res := by
      intro pos res hu
      rw [hu] at hg
      exact hg
    cases op with
    | read len =>
      dsimp only at hst
      split at hst
      · cases hst
      · rename_i hlen
        cases hst
        by_cases hpos : s.readPos = none
        · rw [if_pos hpos]
          exact ⟨.inl ⟨len, by omega, rfl⟩, g, hlog,
            hg.goto rfl (fun _ h => h) (fun _ _ h => h) hseek⟩
        · rw [if_neg hpos]
          exact ⟨Nat.pos_of_ne_zero hlen, g, hlog,
            hg.goto rfl (fun _ h => h) (fun _ _ h => h) hseek⟩
    | write buf =>
      cases hst
      exact ⟨.inr (.inl ⟨buf, rfl⟩), g, hlog, hg.goto rfl (fun _ h => h) (fun _ _ h => h) hseek⟩
    | seek pos =>
      cases hst
      exact ⟨.inr (.inr ⟨pos, rfl⟩), g, hlog, hg.goto rfl (fun _ h => h) (fun _ _ h => h) hseek⟩
    | flush =>
      dsimp only at hst
      cases hst
      split
      · exact ⟨.inl rfl, g, hlog, hg.goto rfl (fun _ h => h) (fun _ _ h => h) hseek⟩
      · exact .finish _ hlog rfl hg
    | syncAll =>
      cases hst
      exact ⟨.inr (.inl rfl), g, hlog, hg.goto rfl (fun _ h => h) (fun _ _ h => h) hseek⟩
    | syncData =>
      cases hst
      exact ⟨.inr (.inr (.inl rfl)), g, hlog, hg.goto rfl (fun _ h => h) (fun _ _ h => h) hseek⟩
    | setLen size =>
      cases hst
      exact ⟨.inr (.inr (.inr ⟨size, rfl⟩)), g, hlog,
        hg.goto rfl (fun _ h => h) (fun _ _ h => h) hseek⟩
  · cases hst

theorem Inv.repositioned (hop : (Pc.reposition op).Ok s.readPos s.unblock)
    (hlog : f.replay s.log = some g)
    (hg : Stands cap g s.std none (.reposition op) s.unblock)
    (hseek : ∀ pos res, s.unblock ≠ .seeking pos res) : Inv cap f (s.repositioned op) := by
  rcases hop with ⟨len, hlen, rfl⟩ | ⟨buf, rfl⟩ | ⟨pos, rfl⟩
  · exact ⟨⟨rfl, .inr ⟨len, hlen, rfl, rfl⟩⟩, g, hlog,
      hg.goto rfl (fun _ h => h) (fun _ _ h => h) hseek⟩
  · exact ⟨rfl, g, hlog, hg.goto rfl (fun _ h => h) (fun _ _ h => h) hseek⟩
  · exact ⟨⟨rfl, .inl rfl⟩, g, hlog, hg.goto rfl (fun _ h => h) (fun _ _ h => h) hseek⟩

theorem Stands.readPos_ne (h : Stands cap g std (some none) pc u) : False := by
  cases u with
  | idle => exact h.1 rfl
  | reading reader p => cases reader <;> cases h.2.2.1
  | writing writer p => cases writer <;> cases h.2.1
  | seeking pos res =>
    cases pc with
    | reposition op => cases h.2.1
    | seek pos' op => cases h.1
    | rest | read | drain | ended | write | fill | flush | sync => exact h

theorem Inv.reposition (h : Inv cap f s) (hpc : s.pc = .reposition op)
    (hst : s.reposition op = some t) : Inv cap f t := by
  obtain ⟨hok, g, hlog, hg⟩ := h
  rw [hpc] at hok hg
  unfold File.reposition at hst
  split at hst
  · rename_i pos hpos
    obtain ⟨⟨v, r⟩, hv, he⟩ := Option.map_eq_some_iff.mp hst
    rw [hpos] at hg
    rcases hg.pollSeek_reposition hv with ⟨rfl, hg⟩ | ⟨rfl, rfl, rfl⟩
    · cases he
      refine ⟨?_, g, hlog, ?_⟩
      · rw [hpc]
        exact hok
      · rw [← hpos, ← hpc] at hg
        exact hg
    · cases he
      exact .repositioned (s := { s with unblock := .idle }) hok hlog ⟨by simp, rfl⟩ (by simp)
  · rename_i hpos
    cases hst
    cases hread : s.readPos with
    | none =>
      rw [hread] at hg
      refine .repositioned hok hlog hg ?_
      intro pos res hu
      rw [hu] at hg
      cases hg.2.1
    | some r =>
      cases r with
      | none =>
        rw [hread] at hg
        exact hg.readPos_ne.elim
      | some pos => exact absurd hread (hpos pos)

theorem Inv.seek {pos : SeekFrom} (h : Inv cap f s) (hpc : s.pc = .seek pos op)
    (hst : s.seek pos op = some t) : Inv cap f t := by
  obtain ⟨hok, g, hlog, hg⟩ := h
  rw [hpc] at hok hg
  obtain ⟨hpos, hop⟩ := hok
  rw [hpos] at hg
  obtain ⟨⟨v, r⟩, hv, he⟩ := Option.map_eq_some_iff.mp hst
  rcases hg.pollSeek_seek hv with ⟨rfl, hg⟩ | ⟨res, rfl, rfl, hres⟩
  · cases he
    refine ⟨?_, g, hlog, ?_⟩
    · rw [hpc]
      exact ⟨hpos, hop⟩
    · rw [← hpos, ← hpc] at hg
      exact hg
  · rcases hop with rfl | ⟨len, hlen, rfl, rfl⟩
    · cases he
      refine .finish (s := { s with unblock := .idle }) s.std hlog ?_ ⟨by simp [hpos], ?_⟩
      · simp [Plain.perform, hres]
      · rw [hpos]
        rfl
    · cases he
      rw [Plain.seek_current_zero] at hres
      cases hres
      exact ⟨hlen, _, hlog, by simp, rfl⟩

theorem Pc.Ok.move (h : pc.Ok readPos u) (hsync : ∀ op, pc ≠ .sync op) (v : Unblock) :
    pc.Ok readPos v := by
  cases pc with
  | sync op => exact absurd rfl (hsync op)
  | rest | reposition | seek | read | drain | ended | write | fill | flush => exact h

/-- A round of `poll_stop` in one of the loops. -/
theorem Inv.pollStop (h : Inv cap f s) (hseek : ∀ pos res, s.unblock ≠ .seeking pos res)
    (hfill : ∀ buf k, s.pc ≠ .fill buf k) (hsync : ∀ op, s.pc ≠ .sync op)
    (hst : s.pollStop op = some t) : Inv cap f t := by
  obtain ⟨hok, g, hlog, hg⟩ := h
  obtain ⟨⟨v, failed⟩, hv, he⟩ := Option.map_eq_some_iff.mp hst
  obtain ⟨hfailed, hg⟩ := hg.stop hseek hfill hv
  subst hfailed
  cases he
  exact ⟨hok.move hsync v, g, hlog, hg⟩

theorem Inv.not_seeking (h : Inv cap f s) (hrep : ∀ op, s.pc ≠ .reposition op)
    (hseek : ∀ pos op, s.pc ≠ .seek pos op) (pos : SeekFrom) (res : Option (Option Nat)) :
    s.unblock ≠ .seeking pos res := by
  intro hu
  obtain ⟨-, g, -, hg⟩ := h
  rw [hu] at hg
  cases hpc : s.pc with
  | reposition op => exact hrep op hpc
  | seek pos op => exact hseek pos op hpc
  | rest | read | drain | ended | write | fill | flush | sync =>
    rw [hpc] at hg
    exact hg

/-- A fresh pipe for a task that reads from where the file is. -/
theorem ahead_pipe {len : Nat} (h : g = std) : Ahead g std (.read len) (Blocking.pipe cap) := by
  subst h
  exact ⟨⟨g.cursor, [], rfl, rfl, rfl, rfl⟩, rfl, by simp [Blocking.pipe, FillPc.closing], rfl⟩

theorem Inv.read {cx : Waker} {len : Nat} (h : Inv cap f s) (hpc : s.pc = .read len)
    (hfaith : s.unblock = .idle → s.readPos = some (some s.std.cursor))
    (hst : s.read cap cx len = some t) : Inv cap f t := by
  have hall := h
  obtain ⟨hok, g, hlog, hg⟩ := h
  unfold File.read at hst
  split at hst
  · rename_i hu
    cases hst
    rw [hu, hpc, hfaith hu] at hg
    obtain ⟨-, rfl⟩ := hg
    refine ⟨hok.move (by simp [hpc]) _, s.std, hlog, ?_⟩
    show Stands cap s.std s.std s.readPos s.pc (.reading true (Blocking.pipe cap))
    rw [hpc]
    exact ⟨.init, rfl, hfaith hu, ahead_pipe rfl⟩
  · rename_i p hu
    obtain ⟨q, hq, rfl⟩ := Option.map_eq_some_iff.mp hst
    rw [hu, hpc] at hg
    rw [hpc] at hok
    obtain ⟨hp, hcontents, hpos, ha⟩ := hg
    have hcalm : Calm p (.drain cx) := calm_of_ne (by simp) (by simp) (by simp)
    refine ⟨⟨hok, Nat.zero_le _⟩, g, hlog, calm_next hp hq hcalm, hcontents, hpos, ?_⟩
    obtain ⟨-, rfl⟩ := drain_eq hq
    exact ⟨ha.cursor, rfl, ha.eof, rfl⟩
  · exact hall.pollStop (hall.not_seeking (by simp [hpc]) (by simp [hpc])) (by simp [hpc])
      (by simp [hpc]) hst

theorem Inv.write {cx : Waker} {buf : List UInt8} (h : Inv cap f s) (hpc : s.pc = .write buf)
    (hst : s.write cap cx buf = some t) : Inv cap f t := by
  have hall := h
  obtain ⟨hok, g, hlog, hg⟩ := h
  have hpos : s.readPos = none := by
    rw [hpc] at hok
    exact hok
  unfold File.write at hst
  split at hst
  · rename_i hu
    cases hst
    rw [hu, hpc, hpos] at hg
    obtain ⟨-, rfl⟩ := hg
    refine ⟨hok.move (by simp [hpc]) _, s.std, hlog, ?_⟩
    show Stands cap s.std s.std s.readPos s.pc (.writing true (Blocking.pipe cap))
    rw [hpc]
    exact ⟨.init, hpos, rfl, s.std, ⟨rfl, by simp [Blocking.pipe, DrainPc.closing]⟩, rfl, rfl⟩
  · rename_i p hu
    obtain ⟨q, hq, rfl⟩ := Option.map_eq_some_iff.mp hst
    rw [hu, hpc] at hg
    obtain ⟨hp, -, hclosing, base, hb, hidle, hg⟩ := hg
    have hcalm : Calm p (.fill cx) := calm_of_ne (by simp) (by simp) (by simp)
    refine ⟨⟨hpos, Nat.zero_le _⟩, g, hlog, calm_next hp hq hcalm, hpos, ?_, base, ?_⟩
    · obtain ⟨-, rfl⟩ := fill_eq hq
      rfl
    · obtain ⟨-, rfl⟩ := fill_eq hq
      refine ⟨⟨hb.std_eq, hb.done⟩, rfl, ⟨p.published, ?_, hg⟩, by simp⟩
      simp [produced, pending]
  · exact hall.pollStop (hall.not_seeking (by simp [hpc]) (by simp [hpc])) (by simp [hpc])
      (by simp [hpc]) hst

theorem Inv.flush (h : Inv cap f s) (hpc : s.pc = .flush op) (hst : s.flush op = some t) :
    Inv cap f t := by
  have hall := h
  obtain ⟨hok, g, hlog, hg⟩ := h
  unfold File.flush at hst
  split at hst
  · rename_i hu
    rw [hu, hpc] at hg
    rw [hpc] at hok
    split at hst
    · cases hst
      refine .finish (s := { s with isDirty := false }) _ hlog rfl ?_
      rw [hu]
      exact hg
    · rename_i hop
      cases hst
      refine ⟨⟨hu, hok.resolve_left hop⟩, g, hlog, ?_⟩
      rw [hu]
      exact hg
  · exact hall.pollStop (hall.not_seeking (by simp [hpc]) (by simp [hpc])) (by simp [hpc])
      (by simp [hpc]) hst

theorem positioned_setLen (std : Plain) (size : Nat) :
    (positioned std readPos).setLen size = positioned (std.setLen size) readPos := by
  unfold positioned
  split <;> rfl

theorem Inv.sync (h : Inv cap f s) (hpc : s.pc = .sync op) : Inv cap f (s.sync op) := by
  obtain ⟨hok, g, hlog, hg⟩ := h
  rw [hpc] at hok hg
  obtain ⟨hidle, hop⟩ := hok
  rw [hidle] at hg
  rcases hop with rfl | rfl | ⟨size, rfl⟩
  · refine .finish _ hlog rfl ?_
    rw [hidle]
    exact hg
  · refine .finish _ hlog rfl ?_
    rw [hidle]
    exact hg
  · refine .finish (s := { s with std := s.std.setLen size }) _ hlog rfl ?_
    rw [hidle]
    exact ⟨hg.1, by rw [hg.2, positioned_setLen]⟩

end Steps

end Cynthia.Fs
