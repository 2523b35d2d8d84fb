import Cynthia.Swap.BufferReader

/-! `copy` of `future/swap.rs`. One turn of the loop carries the answers to the requests
that it may make: a read, a write and a flush. -/

namespace Cynthia.Swap.Copy

open Transition

/-- A writer that keeps what it accepts. -/
structure Writer where
  accepted : List UInt8
  /-- A flush has returned since the last byte was accepted. -/
  flushed : Bool
  deriving DecidableEq

/-- A write of a slice, of which a part may be accepted. -/
def Writer.pollWrite (w : Writer) (buffer : List UInt8) : Poll Nat → Option (Writer × Poll Nat)
  | .pending => some (w, .pending)
  | .error e => some (w, .error e)
  | .ok n =>
    if n ≤ buffer.length then some (⟨w.accepted ++ buffer.take n, w.flushed && n == 0⟩, .ok n)
    else none

def Writer.pollFlush (w : Writer) : Poll Unit → Writer × Poll Unit
  | .ok () => ({ w with flushed := true }, .ok ())
  | res => (w, res)

structure CopyFuture where
  reader : BufferReader.State
  writer : Writer
  amt : UInt64
  deriving DecidableEq

structure Answers where
  read : Poll Nat
  write : Poll Nat
  flush : Poll Unit
  deriving DecidableEq

/-- How a turn of the loop ends. `overflow` is the panic of the checked addition. -/
inductive Turn where
  | again
  | pending
  | ok (n : UInt64)
  | error (e : ErrorKind)
  | overflow
  deriving DecidableEq

/-- A read of no bytes is the end of the file. -/
def Delivers (s : BufferReader.State) (ans : Poll Nat) : Prop :=
  s.cap ≤ s.pos → ans = .ok 0 → s.inner.contents.length ≤ s.inner.cursor

instance (s : BufferReader.State) (ans : Poll Nat) : Decidable (Delivers s ans) :=
  inferInstanceAs (Decidable (_ → _ → _))

section Poll

variable (overflowChecks : Bool)

/-- `*this.amt += i as u64`. -/
def addAmt (amt : UInt64) (i : Nat) : Option UInt64 :=
  if overflowChecks ∧ 2 ^ 64 ≤ amt.toNat + i then none else some (amt + UInt64.ofNat i)

def write (f : CopyFuture) (buffer : List UInt8) (a : Answers) : Option (CopyFuture × Turn) :=
  (f.writer.pollWrite buffer a.write).map fun (writer, res) =>
    let f := { f with writer }
    match res with
    | .pending => (f, .pending)
    | .error e => (f, .error e)
    | .ok i =>
      if i = 0 then (f, .error .writeZero)
      else match addAmt overflowChecks f.amt i with
        | none => (f, .overflow)
        | some amt => ({ f with amt, reader := BufferReader.consume f.reader i }, .again)

/-- The body of the loop. -/
def turn (f : CopyFuture) (a : Answers) : Option (CopyFuture × Turn) :=
  if Delivers f.reader a.read then
    (BufferReader.pollFillBuf f.reader a.read).bind fun (reader, res) =>
      let f := { f with reader }
      match res with
      | .pending => some (f, .pending)
      | .error e => some (f, .error e)
      | .ok buffer =>
        if buffer = [] then
          let (writer, res) := f.writer.pollFlush a.flush
          let f := { f with writer }
          match res with
          | .pending => some (f, .pending)
          | .error e => some (f, .error e)
          | .ok () => some (f, .ok f.amt)
        else write overflowChecks f buffer a
  else none

/-- One call of `poll`, with the answers for each of its turns. -/
def poll : List Answers → CopyFuture → Option (CopyFuture × Turn)
  | [], _ => none
  | a :: as, f =>
    (turn overflowChecks f a).bind fun (f, out) =>
      match out with
      | .again => poll as f
      | out => if as = [] then some (f, out) else none

end Poll

/-- The capacity of `BufferReader::new`. -/
def defaultBufsz : BufferReader.Capacity := ⟨8 * 1024, by decide⟩

def new (contents : List UInt8) : CopyFuture :=
  ⟨BufferReader.withCapacity defaultBufsz ⟨contents, 0⟩, ⟨[], false⟩, 0⟩

structure State where
  future : CopyFuture
  last : Turn

/-- The next turn, in the same poll or in the next one. -/
def step (overflowChecks : Bool) (s : State) (a : Answers) : Option State :=
  match s.last with
  | .again | .pending => (turn overflowChecks s.future a).map fun (f, out) => ⟨f, out⟩
  | .ok _ | .error _ | .overflow => none

def system (overflowChecks : Bool) (contents : List UInt8) : System State Answers :=
  ⟨⟨new contents, .pending⟩, step overflowChecks⟩

/-- In this turn the reader or the writer gives the error, or the writer accepts nothing. -/
def Refused (f : CopyFuture) (a : Answers) (e : ErrorKind) : Prop :=
  (f.reader.cap ≤ f.reader.pos ∧ a.read = .error e) ∨
  ∃ reader buffer, BufferReader.pollFillBuf f.reader a.read = some (reader, .ok buffer) ∧
    ((buffer = [] ∧ a.flush = .error e) ∨
      buffer ≠ [] ∧ (a.write = .error e ∨ a.write = .ok 0 ∧ e = .writeZero))

/-! ## What has been copied -/

/-- The writer has what lies before the position of the reader. -/
structure Copied (overflowChecks : Bool) (contents : List UInt8) (f : CopyFuture) : Prop where
  reader : BufferReader.Inv defaultBufsz contents f.reader
  cursor_le : f.reader.inner.cursor ≤ contents.length
  accepted : f.writer.accepted = contents.take f.reader.p
  amt : f.amt = UInt64.ofNat f.reader.p
  exact_amt : overflowChecks = true → f.amt.toNat = f.reader.p

def Inv (overflowChecks : Bool) (contents : List UInt8) (s : State) : Prop :=
  match s.last with
  | .overflow => s.future.writer.accepted <+: contents
  | .ok n => Copied overflowChecks contents s.future ∧ s.future.writer.flushed = true ∧
      s.future.reader.p = contents.length ∧ n = s.future.amt
  | _ => Copied overflowChecks contents s.future

section Turns

variable {overflowChecks : Bool} {contents buffer : List UInt8} {s t : BufferReader.State}
  {ans : Poll Nat} {res : Poll (List UInt8)} {f f' : CopyFuture} {a : Answers} {out : Turn}

/-- A fill gives an error of the reader only, and no bytes only at the end. -/
theorem fill_spec (h : BufferReader.Inv defaultBufsz contents s)
    (hcursor : s.inner.cursor ≤ contents.length) (hans : Delivers s ans)
    (ht : BufferReader.pollFillBuf s ans = some (t, res)) :
    t.inner.cursor ≤ contents.length ∧ (res = .ok [] → t.p = contents.length) ∧
      ∀ e, res = .error e → s.cap ≤ s.pos ∧ ans = .error e := by
  unfold BufferReader.pollFillBuf at ht
  split at ht
  · rename_i hempty
    obtain ⟨⟨inner, res'⟩, hread, hres⟩ := Option.map_eq_some_iff.mp ht
    unfold BufferReader.Source.pollRead at hread
    split at hread
    · cases hread
      cases hres
      exact ⟨hcursor, fun hok => (by cases hok), fun _ he => by cases he⟩
    · cases hread
      cases hres
      exact ⟨hcursor, fun hok => (by cases hok), fun e he => ⟨hempty, by rw [Poll.error.inj he]⟩⟩
    · rename_i n
      split at hread
      · rename_i hn
        rw [h.contents, List.length_drop] at hn
        cases hread
        cases hres
        refine ⟨?_, fun hnone => ?_, fun _ he => by cases he⟩
        · dsimp only
          omega
        · -- The buffer is empty, so nothing has been read.
          have hzero : n = 0 := by
            have hlen := congrArg List.length (Poll.ok.inj hnone)
            simp only [BufferReader.State.buffer, List.length_drop, List.length_take,
              List.length_append, List.length_nil, h.contents] at hlen
            omega
          subst hzero
          have hend := hans hempty rfl
          rw [h.contents] at hend
          dsimp only [BufferReader.State.p]
          rw [List.take_zero, List.length_nil]
          omega
      · cases hread
  · rename_i hfull
    cases ht
    refine ⟨hcursor, fun hnone => ?_, fun _ he => by cases he⟩
    have hlen := h.buffer_length
    rw [Poll.ok.inj hnone, List.length_nil] at hlen
    omega

theorem write_spec (h : Copied overflowChecks contents f) (hbuffer : f.reader.buffer = buffer)
    (hwrite : write overflowChecks f buffer a = some (f', out)) :
    Inv overflowChecks contents ⟨f', out⟩ ∧ (∀ n, out ≠ .ok n) ∧
      ∀ e, out = .error e → a.write = .error e ∨ a.write = .ok 0 ∧ e = .writeZero := by
  subst hbuffer
  obtain ⟨⟨writer, res⟩, hw, hres⟩ := Option.map_eq_some_iff.mp hwrite
  unfold Writer.pollWrite at hw
  split at hw
  · cases hw
    cases hres
    exact ⟨h, nofun, nofun⟩
  · rename_i e hans
    cases hw
    cases hres
    refine ⟨h, nofun, fun e' he => .inl ?_⟩
    cases he
    exact hans
  · rename_i i hans
    split at hw
    · rename_i hi
      cases hw
      dsimp only at hres
      have hlen := h.reader.buffer_length
      have haccepted : f.writer.accepted ++ f.reader.buffer.take i =
          contents.take (f.reader.p + i) := by
        rw [h.accepted, h.reader.buffer_eq, h.reader.contents, List.take_take,
          Nat.min_eq_left (hlen ▸ hi), ← List.take_add]
      split at hres
      · rename_i hzero
        subst hzero
        cases hres
        refine ⟨⟨h.reader, h.cursor_le, haccepted, h.amt, h.exact_amt⟩, nofun,
          fun e he => .inr ⟨hans, ?_⟩⟩
        cases he
        rfl
      · have hp : (BufferReader.consume f.reader i).p = f.reader.p + i := by
          rw [BufferReader.p_consume h.reader (h.reader.consume_lt (hlen ▸ hi)),
            Nat.min_eq_left (hlen ▸ hi)]
        split at hres
        · cases hres
          refine ⟨?_, nofun, nofun⟩
          show f.writer.accepted ++ f.reader.buffer.take i <+: contents
          rw [haccepted]
          exact List.take_prefix ..
        · rename_i amt hadd
          unfold addAmt at hadd
          split at hadd
          · cases hadd
          · rename_i hfits
            cases hadd
            cases hres
            refine ⟨⟨BufferReader.inv_consume h.reader i, h.cursor_le, ?_, ?_, ?_⟩, nofun, nofun⟩
            · dsimp only
              rw [hp]
              exact haccepted
            · dsimp only
              rw [hp, h.amt, UInt64.ofNat_add]
            · intro hchecks
              have hlt : f.amt.toNat + i < 2 ^ 64 := Nat.lt_of_not_le fun hle =>
                hfits ⟨hchecks, hle⟩
              dsimp only
              rw [hp, UInt64.toNat_add, UInt64.toNat_ofNat', Nat.add_mod_mod,
                Nat.mod_eq_of_lt hlt, h.exact_amt hchecks]
    · cases hw

theorem turn_spec (h : Copied overflowChecks contents f)
    (hturn : turn overflowChecks f a = some (f', out)) :
    Inv overflowChecks contents ⟨f', out⟩ ∧ ∀ e, out = .error e → Refused f a e := by
  unfold turn at hturn
  split at hturn
  · rename_i hans
    obtain ⟨⟨reader, res⟩, hfill, hthen⟩ := Option.bind_eq_some_iff.mp hturn
    obtain ⟨hinv, hp, hbuffer⟩ := BufferReader.pollFillBuf_spec h.reader hfill
    obtain ⟨hcursor, hend, herror⟩ := fill_spec h.reader h.cursor_le hans hfill
    have hcopied : Copied overflowChecks contents { f with reader } := by
      refine ⟨hinv, hcursor, ?_, ?_, ?_⟩
      · rw [hp]
        exact h.accepted
      · rw [hp]
        exact h.amt
      · rw [hp]
        exact h.exact_amt
    dsimp only at hthen
    split at hthen
    · cases hthen
      exact ⟨hcopied, nofun⟩
    · rename_i e
      cases hthen
      refine ⟨hcopied, fun e' he => .inl ?_⟩
      cases he
      exact herror e rfl
    · rename_i buffer
      split at hthen
      · rename_i hnil
        subst hnil
        have hdone := hend rfl
        unfold Writer.pollFlush at hthen
        cases hflush : a.flush with
        | pending =>
          rw [hflush] at hthen
          cases hthen
          exact ⟨hcopied, nofun⟩
        | error e =>
          rw [hflush] at hthen
          cases hthen
          refine ⟨hcopied, fun e' he => .inr ⟨reader, [], hfill, .inl ⟨rfl, ?_⟩⟩⟩
          cases he
          exact hflush
        | ok =>
          rw [hflush] at hthen
          cases hthen
          refine ⟨⟨⟨hinv, hcursor, hcopied.accepted, hcopied.amt, hcopied.exact_amt⟩, rfl, hdone,
            rfl⟩, nofun⟩
      · rename_i hne
        obtain ⟨hnext, -, hrefused⟩ := write_spec hcopied (hbuffer buffer rfl).symm hthen
        exact ⟨hnext, fun e he => .inr ⟨reader, buffer, hfill, .inr ⟨hne, hrefused e he⟩⟩⟩
  · cases hturn

theorem inv_step {s t : State} (h : Inv overflowChecks contents s)
    (ht : step overflowChecks s a = some t) :
    Inv overflowChecks contents t ∧
      ∀ e, t.last = .error e → Refused s.future a e := by
  unfold step at ht
  split at ht
  · rename_i hlast
    obtain ⟨⟨f, out⟩, hturn, rfl⟩ := Option.map_eq_some_iff.mp ht
    rw [Inv, hlast] at h
    exact turn_spec h hturn
  · rename_i hlast
    obtain ⟨⟨f, out⟩, hturn, rfl⟩ := Option.map_eq_some_iff.mp ht
    rw [Inv, hlast] at h
    exact turn_spec h hturn
  · cases ht
  · cases ht
  · cases ht

theorem copied_new (contents : List UInt8) : Copied overflowChecks contents (new contents) :=
  ⟨BufferReader.inv_withCapacity defaultBufsz ⟨contents, 0⟩, Nat.zero_le _, rfl, rfl, fun _ => rfl⟩

theorem inv_of_reachable {s : State} (hs : (system overflowChecks contents).Reachable s) :
    Inv overflowChecks contents s :=
  System.Reachable.invariant (M := system overflowChecks contents) (copied_new contents)
    (fun _ _ _ h ht => (inv_step h ht).1) hs

theorem accepted_prefix_contents {s : State} (h : Inv overflowChecks contents s) :
    s.future.writer.accepted <+: contents := by
  unfold Inv at h
  split at h
  · exact h
  · rw [h.1.accepted]
    exact List.take_prefix ..
  · rw [h.accepted]
    exact List.take_prefix ..

/-- A poll is a run of turns. -/
theorem poll_run {as : List Answers} (h : poll overflowChecks as f = some (f', out))
    {last : Turn} (hlast : last = .again ∨ last = .pending) :
    (system overflowChecks contents).runFrom ⟨f, last⟩ as = some ⟨f', out⟩ := by
  induction as generalizing f last with
  | nil => cases h
  | cons a as ih =>
    obtain ⟨⟨g, out'⟩, hturn, hthen⟩ := Option.bind_eq_some_iff.mp h
    have hstep : step overflowChecks ⟨f, last⟩ a = some ⟨g, out'⟩ := by
      rcases hlast with rfl | rfl
      · simp only [step, hturn, Option.map_some]
      · simp only [step, hturn, Option.map_some]
    show (step overflowChecks ⟨f, last⟩ a).bind _ = _
    rw [hstep, Option.bind_some]
    dsimp only at hthen
    split at hthen
    · exact ih hthen (.inl rfl)
    · split at hthen
      · rename_i hnil
        subst hnil
        cases hthen
        rfl
      · cases hthen

end Turns

/-- Between any two turns the writer has a prefix of the contents; `Ok(n)` comes when it has
them all and has been flushed; an error is one of the reader or the writer. -/
theorem copy_is_exact (overflowChecks : Bool) (contents : List UInt8) (s : State)
    (hs : (system overflowChecks contents).Reachable s) :
    s.future.writer.accepted <+: contents ∧
    (∀ n, s.last = .ok n → s.future.writer.accepted = contents ∧
      s.future.writer.flushed = true ∧ n = UInt64.ofNat contents.length ∧
      (overflowChecks = true → n.toNat = contents.length)) ∧
    (∀ a t e, step overflowChecks s a = some t → t.last = .error e →
      Refused s.future a e) ∧
    ∀ as f out, s.last = .again ∨ s.last = .pending →
      poll overflowChecks as s.future = some (f, out) →
      (system overflowChecks contents).Reachable ⟨f, out⟩ := by
  have h := inv_of_reachable hs
  refine ⟨accepted_prefix_contents h, fun n hn => ?_, fun a t e ht => (inv_step h ht).2 e, ?_⟩
  · rw [Inv, hn] at h
    obtain ⟨hcopied, hflushed, hp, rfl⟩ := h
    refine ⟨?_, hflushed, ?_, fun hchecks => ?_⟩
    · rw [hcopied.accepted, hp, List.take_length]
    · rw [hcopied.amt, hp]
    · rw [hcopied.exact_amt hchecks, hp]
  · intro as f out hlast hpoll
    exact System.reachable_of_runFrom as hs (poll_run hpoll hlast)

/-- The writer takes two of three bytes, then waits, then takes the last one. -/
theorem copy_is_exact_short_write :
    ∃ s, (system true [1, 2, 3]).Reachable s ∧ s.future.writer.accepted = [1, 2, 3] ∧
      s.future.writer.flushed = true := by
  obtain ⟨s, -, hs, hlast⟩ := (system true [1, 2, 3]).exists_of_run
    (P := fun s => s.last = .ok 3)
    [⟨.ok 3, .ok 2, .pending⟩, ⟨.pending, .pending, .pending⟩, ⟨.pending, .ok 1, .pending⟩,
      ⟨.ok 0, .pending, .pending⟩, ⟨.ok 0, .pending, .ok ()⟩] (by decide +kernel)
  obtain ⟨haccepted, hflushed, -⟩ := (copy_is_exact true [1, 2, 3] s hs).2.1 3 hlast
  exact ⟨s, hs, haccepted, hflushed⟩

end Cynthia.Swap.Copy
