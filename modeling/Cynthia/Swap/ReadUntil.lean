import Cynthia.Lib.Pieces
import Cynthia.Lib.Polling
import Cynthia.Swap.Io

/-! `read_until_internal` and the stream `Split` of `future/swap.rs`, over a reader that
answers with chunks of any size, `Pending` and errors in any order. All that is used of the
crate `memchr` is that its function gives the first occurrence of the byte. -/

namespace Cynthia.Swap.ReadUntil

open Polling Pieces

inductive Event where
  | pending
  | error (e : ErrorKind)
  /-- A chunk has at least one byte. -/
  | chunk (first : UInt8) (rest : List UInt8)
  deriving DecidableEq

/-- What the reader will answer. Behind the last event is the end of the file. -/
abbrev Reader := List Event

/-- The bytes that are left of a chunk come first. -/
def putBack : List UInt8 → Reader → Reader
  | [], es => es
  | b :: bs, es => .chunk b bs :: es

def pollFillBuf : Reader → Reader × Swap.Poll (List UInt8)
  | [] => ([], .ok [])
  | .pending :: es => (es, .pending)
  | .error e :: es => (es, .error e)
  | .chunk b bs :: es => (.chunk b bs :: es, .ok (b :: bs))

def consume : Reader → Nat → Reader
  | .chunk b bs :: es, n => putBack ((b :: bs).drop n) es
  | es, _ => es

/-- The first occurrence. -/
def memchr (byte : UInt8) (available : List UInt8) : Option Nat := available.idxOf? byte

structure State where
  reader : Reader
  buf : List UInt8
  read : Nat
  deriving DecidableEq

/-- The body of the loop of `read_until_internal`; `none` goes on with the loop. -/
def turn (byte : UInt8) (s : State) : State × Option (Swap.Poll Nat) :=
  match pollFillBuf s.reader with
  | (reader, .pending) => ({ s with reader }, some .pending)
  | (reader, .error e) => ({ s with reader }, some (.error e))
  | (reader, .ok available) =>
    let (done, used, buf) := match memchr byte available with
      | some i => (true, i + 1, s.buf ++ available.take (i + 1))
      | none => (false, available.length, s.buf ++ available)
    let s : State := ⟨consume reader used, buf, s.read + used⟩
    if done ∨ used = 0 then ({ s with read := 0 }, some (.ok s.read)) else (s, none)

section Chunk

variable {byte b : UInt8} {bs l r buf : List UInt8} {es : Reader} {read : Nat} {s t : State}

theorem memchr_of_not_mem (h : byte ∉ bs) : memchr byte bs = none :=
  List.idxOf?_eq_none_iff.mpr h

theorem memchr_append_cons (h : byte ∉ l) : memchr byte (l ++ byte :: r) = some l.length := by
  refine List.idxOf?_eq_some_iff.mpr ⟨by simp, by simp, fun j hj heq => h ?_⟩
  rw [List.getElem_append_left hj] at heq
  rw [← heq]
  exact List.getElem_mem hj

/-- There is one function that gives the first occurrence. -/
theorem eq_memchr {first : UInt8 → List UInt8 → Option Nat}
    (h : ∀ byte bs i, first byte bs = some i ↔ bs[i]? = some byte ∧ ∀ j < i, bs[j]? ≠ some byte) :
    first = memchr := by
  funext byte bs
  refine Option.ext fun i => ?_
  rw [h, memchr, List.idxOf?_eq_some_iff]
  constructor
  · rintro ⟨hi, hbefore⟩
    obtain ⟨hlt, hget⟩ := List.getElem?_eq_some_iff.mp hi
    refine ⟨hlt, hget, fun j hj heq => hbefore j hj ?_⟩
    rw [List.getElem?_eq_getElem (Nat.lt_trans hj hlt), heq]
  · rintro ⟨hlt, hget, hbefore⟩
    refine ⟨List.getElem?_eq_some_iff.mpr ⟨hlt, hget⟩, fun j hj heq => hbefore j hj ?_⟩
    exact (List.getElem?_eq_some_iff.mp heq).2

/-- A chunk without the byte is consumed as a whole. -/
theorem turn_of_not_mem (h : byte ∉ b :: bs) : turn byte ⟨.chunk b bs :: es, buf, read⟩ =
    (⟨es, buf ++ b :: bs, read + (b :: bs).length⟩, none) := by
  unfold turn
  simp [pollFillBuf, memchr_of_not_mem h, consume, putBack]

/-- A chunk with the byte is consumed up to the first one. -/
theorem turn_of_eq (h : byte ∉ l) (hchunk : b :: bs = l ++ byte :: r) :
    turn byte ⟨.chunk b bs :: es, buf, read⟩ =
      (⟨putBack r es, buf ++ (l ++ [byte]), 0⟩, some (.ok (read + (l ++ [byte]).length))) := by
  have htake : (l ++ byte :: r).take (l.length + 1) = l ++ [byte] := by
    rw [List.take_length_add_append]
    rfl
  have hdrop : (l ++ byte :: r).drop (l.length + 1) = r := by
    rw [List.drop_length_add_append]
    rfl
  unfold turn
  simp [pollFillBuf, hchunk, memchr_append_cons h, consume, htake, hdrop]

theorem turn_length (h : turn byte s = (t, none)) : t.reader.length < s.reader.length := by
  obtain ⟨es, buf, read⟩ := s
  match es with
  | [] => exact absurd (congrArg Prod.snd h) nofun
  | .pending :: es => exact absurd (congrArg Prod.snd h) nofun
  | .error e :: es => exact absurd (congrArg Prod.snd h) nofun
  | .chunk b bs :: es =>
    by_cases hmem : byte ∈ b :: bs
    · obtain ⟨l, r, hchunk, hl⟩ := List.eq_append_cons_of_mem hmem
      rw [turn_of_eq hl hchunk] at h
      cases h
    · rw [turn_of_not_mem hmem] at h
      cases h
      exact Nat.lt_succ_self _

end Chunk

def readUntilInternal (byte : UInt8) (s : State) : State × Swap.Poll Nat :=
  match h : turn byte s with
  | (s', none) =>
    have := turn_length h
    readUntilInternal byte s'
  | (s', some res) => (s', res)
termination_by s.reader.length

/-! ## What one call reads -/

/-- The bytes of the events. -/
def contents : Reader → List UInt8
  | [] => []
  | .chunk b bs :: es => b :: bs ++ contents es
  | _ :: es => contents es

/-- Why a call stops. -/
inductive Stop where
  | pending
  | error (e : ErrorKind)
  | line
  | eof
  deriving DecidableEq

/-- A call reads the bytes and leaves the events that follow. -/
inductive Reads (byte : UInt8) : Reader → List UInt8 → Reader → Stop → Prop
  | eof : Reads byte [] [] [] .eof
  | pending {es : Reader} : Reads byte (.pending :: es) [] es .pending
  | error {e : ErrorKind} {es : Reader} : Reads byte (.error e :: es) [] es (.error e)
  | line {b : UInt8} {bs l r : List UInt8} {es : Reader} (hl : byte ∉ l)
    (hchunk : b :: bs = l ++ byte :: r) :
    Reads byte (.chunk b bs :: es) (l ++ [byte]) (putBack r es) .line
  | chunk {b : UInt8} {bs data : List UInt8} {es es' : Reader} {stop : Stop}
    (hnot : byte ∉ b :: bs) (h : Reads byte es data es' stop) :
    Reads byte (.chunk b bs :: es) (b :: bs ++ data) es' stop

/-- What the call returns, and what it leaves in its fields. -/
def result (s : State) (data : List UInt8) (es : Reader) : Stop → State × Swap.Poll Nat
  | .pending => (⟨es, s.buf ++ data, s.read + data.length⟩, .pending)
  | .error e => (⟨es, s.buf ++ data, s.read + data.length⟩, .error e)
  | .line | .eof => (⟨es, s.buf ++ data, 0⟩, .ok (s.read + data.length))

section Call

variable {byte : UInt8} {es es' : Reader} {data : List UInt8} {stop : Stop} {s : State}

theorem contents_putBack (r : List UInt8) (es : Reader) :
    contents (putBack r es) = r ++ contents es := by
  cases r <;> rfl

theorem readUntilInternal_of_none {t : State} (h : turn byte s = (t, none)) :
    readUntilInternal byte s = readUntilInternal byte t := by
  rw [readUntilInternal]
  split
  · rename_i s' hturn
    rw [h] at hturn
    cases hturn
    rfl
  · rename_i s' res hturn
    rw [h] at hturn
    cases hturn

theorem readUntilInternal_of_some {t : State} {res : Swap.Poll Nat}
    (h : turn byte s = (t, some res)) : readUntilInternal byte s = (t, res) := by
  rw [readUntilInternal]
  split
  · rename_i s' hturn
    rw [h] at hturn
    cases hturn
  · rename_i s' res' hturn
    rw [h] at hturn
    cases hturn
    rfl

theorem exists_reads (byte : UInt8) (es : Reader) : ∃ data es' stop, Reads byte es data es' stop := by
  induction es with
  | nil => exact ⟨_, _, _, .eof⟩
  | cons event es ih =>
    cases event with
    | pending => exact ⟨_, _, _, .pending⟩
    | error e => exact ⟨_, _, _, .error⟩
    | chunk b bs =>
      by_cases hmem : byte ∈ b :: bs
      · obtain ⟨l, r, hchunk, hl⟩ := List.eq_append_cons_of_mem hmem
        exact ⟨_, _, _, .line hl hchunk⟩
      · obtain ⟨data, es', stop, h⟩ := ih
        exact ⟨_, _, _, .chunk hmem h⟩

/-- A call appends what it reads to the buffer and counts it. -/
theorem readUntilInternal_eq (h : Reads byte es data es' stop) (buf : List UInt8) (read : Nat) :
    readUntilInternal byte ⟨es, buf, read⟩ = result ⟨es, buf, read⟩ data es' stop := by
  induction h generalizing buf read with
  | eof => exact readUntilInternal_of_some (by simp [turn, pollFillBuf, memchr, consume])
  | pending => exact readUntilInternal_of_some (by simp [turn, pollFillBuf])
  | error => exact readUntilInternal_of_some (by simp [turn, pollFillBuf])
  | line hl hchunk => exact readUntilInternal_of_some (turn_of_eq hl hchunk)
  | chunk hnot _ ih =>
    rw [readUntilInternal_of_none (turn_of_not_mem hnot), ih]
    simp only [result, List.append_assoc, Nat.add_assoc, List.length_append]

theorem Reads.contents (h : Reads byte es data es' stop) :
    contents es = data ++ contents es' := by
  induction h with
  | eof | pending | error => rfl
  | line hl hchunk =>
    rw [ReadUntil.contents, hchunk, contents_putBack]
    simp
  | chunk hnot _ ih =>
    rw [ReadUntil.contents, ih, List.append_assoc]

theorem Reads.not_mem (h : Reads byte es data es' stop) (hstop : stop ≠ .line) : byte ∉ data := by
  induction h with
  | eof | pending | error => exact List.not_mem_nil
  | line => exact absurd rfl hstop
  | chunk hnot _ ih =>
    exact List.not_mem_append hnot (ih hstop)

theorem Reads.exists_line (h : Reads byte es data es' .line) :
    ∃ l, data = l ++ [byte] ∧ byte ∉ l := by
  generalize hstop : Stop.line = stop at h
  induction h with
  | eof | pending | error => cases hstop
  | line hl => exact ⟨_, rfl, hl⟩
  | chunk hnot _ ih =>
    obtain ⟨l, rfl, hl⟩ := ih hstop
    refine ⟨_ ++ l, (List.append_assoc ..).symm, ?_⟩
    exact List.not_mem_append hnot hl

theorem Reads.eof_eq (h : Reads byte es data es' .eof) : es' = [] := by
  generalize hstop : Stop.eof = stop at h
  induction h with
  | eof => rfl
  | pending | error | line => cases hstop
  | chunk _ _ ih => exact ih hstop

/-- The events and bytes still to come. -/
def size (es : Reader) : Nat := es.length + (contents es).length

theorem size_putBack_le (r : List UInt8) (es : Reader) :
    size (putBack r es) ≤ 1 + r.length + size es := by
  unfold size
  rw [contents_putBack, List.length_append]
  cases r with
  | nil => simp only [putBack, List.length_nil]; omega
  | cons => simp only [putBack, List.length_cons]; omega

theorem size_chunk (b : UInt8) (bs : List UInt8) (es : Reader) :
    size (.chunk b bs :: es) = 1 + (b :: bs).length + size es := by
  simp only [size, ReadUntil.contents, List.length_append, List.length_cons]
  omega

theorem Reads.size_lt (h : Reads byte es data es' stop) (hstop : stop ≠ .eof) :
    size es' < size es := by
  induction h with
  | eof => exact absurd rfl hstop
  | pending | error => simp only [size, ReadUntil.contents, List.length_cons]; omega
  | @line b bs l r es hl hchunk =>
    have hle := size_putBack_le r es
    rw [size_chunk, hchunk, List.length_append, List.length_cons]
    omega
  | chunk _ _ ih =>
    have hlt := ih hstop
    rw [size_chunk]
    omega

/-- Call after call until the input ends. -/
@[elab_as_elim]
theorem reads_induction {motive : Reader → Prop} (byte : UInt8)
    (step : ∀ es data es' stop, Reads byte es data es' stop → (stop ≠ .eof → motive es') →
      motive es) (es : Reader) : motive es := by
  induction hn : size es using Nat.strongRecOn generalizing es with
  | ind n ih =>
  obtain ⟨data, es', stop, h⟩ := exists_reads byte es
  subst hn
  exact step es data es' stop h fun hstop => ih _ (h.size_lt hstop) es' rfl

/-- The errors of the reader, in order. -/
def errors : Reader → List ErrorKind
  | [] => []
  | .error e :: es => e :: errors es
  | _ :: es => errors es

def Stop.errors : Stop → List ErrorKind
  | .error e => [e]
  | _ => []

theorem errors_putBack (r : List UInt8) (es : Reader) : errors (putBack r es) = errors es := by
  cases r <;> rfl

theorem Reads.errors (h : Reads byte es data es' stop) :
    errors es = stop.errors ++ errors es' := by
  induction h with
  | eof | pending | error => rfl
  | @line b bs l r es _ _ => exact (errors_putBack r es).symm
  | chunk _ _ ih => exact ih

end Call

/-! ## `Split` -/

inductive Fault where
  /-- `debug_assert!(buf.is_empty())`. -/
  | bufNotEmpty
  /-- `debug_assert_eq!(*read, 0)`. -/
  | readNotZero
  /-- `this.buf[this.buf.len() - 1]` without a last byte. -/
  | index
  deriving DecidableEq

structure Split where
  reader : Reader
  buf : List UInt8
  read : Nat
  delim : UInt8
  deriving DecidableEq

def split (reader : Reader) (byte : UInt8) : Split := ⟨reader, [], 0, byte⟩

def Split.pollNext (s : Split) :
    Except Fault (Polling.Poll (Option (Except ErrorKind (List UInt8))) × Split) :=
  let (r, res) := readUntilInternal s.delim ⟨s.reader, s.buf, s.read⟩
  let s := { s with reader := r.reader, buf := r.buf, read := r.read }
  match res with
  | .pending => .ok (.pending, s)
  | .error e => .ok (.ready (some (.error e)), s)
  | .ok n =>
    if n = 0 ∧ s.buf = [] then .ok (.ready none, s)
    else match s.buf.getLast? with
      | none => .error .index
      | some b =>
        let buf := if b = s.delim then s.buf.dropLast else s.buf
        .ok (.ready (some (.ok buf)), { s with buf := [] })

/-- The items that are no errors of the reader. -/
def pieceOf : Except ErrorKind (List UInt8) → Option (List UInt8)
  | .ok piece => some piece
  | .error _ => none

def errorOf : Except ErrorKind (List UInt8) → Option ErrorKind
  | .ok _ => none
  | .error e => some e

/-- From any point within a piece: the pieces come whole and in order, whatever the chunks
and the errors are, and each error comes once. -/
theorem split_yields (es : Reader) (buf : List UInt8) (delim : UInt8) (hbuf : delim ∉ buf) :
    ∃ items, Yields Split.pollNext ⟨es, buf, buf.length, delim⟩ items ∧
      items.filterMap pieceOf = pieces delim id (buf ++ contents es) ∧
      items.filterMap errorOf = errors es := by
  induction es using reads_induction delim generalizing buf with
  | step es data es' stop h ih =>
  have hcall := readUntilInternal_eq h buf buf.length
  have hcontents := h.contents
  have herrors := h.errors
  cases stop with
  | pending =>
    have hpoll : Split.pollNext ⟨es, buf, buf.length, delim⟩ =
        .ok (.pending, ⟨es', buf ++ data, (buf ++ data).length, delim⟩) := by
      simp only [Split.pollNext, hcall, result, List.length_append]
    have hmem : delim ∉ buf ++ data :=
      List.not_mem_append hbuf (h.not_mem nofun)
    obtain ⟨items, hyields, hpieces, herr⟩ := ih nofun (buf ++ data) hmem
    refine ⟨items, .pending hpoll hyields, ?_, herr.trans herrors.symm⟩
    rw [hpieces, hcontents, List.append_assoc]
  | error e =>
    have hpoll : Split.pollNext ⟨es, buf, buf.length, delim⟩ =
        .ok (.ready (some (.error e)), ⟨es', buf ++ data, (buf ++ data).length, delim⟩) := by
      simp only [Split.pollNext, hcall, result, List.length_append]
    have hmem : delim ∉ buf ++ data :=
      List.not_mem_append hbuf (h.not_mem nofun)
    obtain ⟨items, hyields, hpieces, herr⟩ := ih nofun (buf ++ data) hmem
    refine ⟨.error e :: items, .item hpoll hyields, ?_, ?_⟩
    · rw [hcontents, ← List.append_assoc, ← hpieces]
      rfl
    · rw [herrors, ← herr]
      rfl
  | line =>
    obtain ⟨l, rfl, hl⟩ := h.exists_line
    have hpoll : Split.pollNext ⟨es, buf, buf.length, delim⟩ =
        .ok (.ready (some (.ok (buf ++ l))), ⟨es', [], 0, delim⟩) := by
      simp only [Split.pollNext, hcall, result]
      simp [← List.append_assoc]
    obtain ⟨items, hyields, hpieces, herr⟩ := ih nofun [] List.not_mem_nil
    refine ⟨.ok (buf ++ l) :: items, .item hpoll hyields, ?_, herr.trans herrors.symm⟩
    have hmem : delim ∉ buf ++ l :=
      List.not_mem_append hbuf hl
    have hcut : buf ++ contents es = (buf ++ l) ++ delim :: contents es' := by
      rw [hcontents]
      simp
    rw [hcut, pieces_append_cons hmem]
    exact congrArg (_ :: ·) hpieces
  | eof =>
    obtain rfl := h.eof_eq
    have hmem : delim ∉ buf ++ data :=
      List.not_mem_append hbuf (h.not_mem nofun)
    have hall : buf ++ contents es = buf ++ data := by
      rw [hcontents]
      simp [ReadUntil.contents]
    rw [hall]
    by_cases hempty : buf ++ data = []
    · obtain ⟨rfl, rfl⟩ := List.append_eq_nil_iff.mp hempty
      have hpoll : Split.pollNext ⟨es, [], ([] : List UInt8).length, delim⟩ =
          .ok (.ready none, ⟨[], [], 0, delim⟩) := by
        simp only [Split.pollNext, hcall, result]
        rfl
      exact ⟨[], .done hpoll, rfl, herrors.symm⟩
    · have hlast := List.getLast?_eq_some_getLast hempty
      have hne : (buf ++ data).getLast hempty ≠ delim := fun heq =>
        hmem (heq ▸ List.getLast_mem hempty)
      have hcount : buf.length + data.length ≠ 0 := by
        rw [← List.length_append]
        exact fun h => hempty (List.length_eq_zero_iff.mp h)
      have hpoll : Split.pollNext ⟨es, buf, buf.length, delim⟩ =
          .ok (.ready (some (.ok (buf ++ data))), ⟨[], [], 0, delim⟩) := by
        simp only [Split.pollNext, hcall, result, hlast, if_neg hne, hcount, false_and, if_false]
      have hdone : Split.pollNext ⟨[], [], 0, delim⟩ = .ok (.ready none, ⟨[], [], 0, delim⟩) := by
        simp only [Split.pollNext, readUntilInternal_eq .eof, result]
        rfl
      refine ⟨[.ok (buf ++ data)], .item hpoll (.done hdone), ?_, herrors.symm⟩
      rw [pieces_of_not_mem hmem hempty]
      rfl

theorem eq_map_ok {items : List (Except ErrorKind (List UInt8))}
    (h : items.filterMap errorOf = []) : items = (items.filterMap pieceOf).map .ok := by
  induction items with
  | nil => rfl
  | cons item items ih =>
    cases item with
    | error e => cases h
    | ok piece => exact congrArg (_ :: ·) (ih h)

end Cynthia.Swap.ReadUntil
