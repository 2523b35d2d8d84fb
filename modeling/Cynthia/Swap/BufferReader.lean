import Cynthia.Lib.Transition
import Cynthia.Swap.Io
import Mathlib.Algebra.GroupWithZero.Nat

/-! `BufferReader` of `future/swap.rs` over a seekable source. A call carries the answers
of the source to the one or two requests that it may make. Positions are 64-bit: an
offset is an `i64`, and `consume` adds to a `usize` that wraps around. -/

namespace Cynthia.Swap.BufferReader

open Transition

structure Source where
  contents : List UInt8
  cursor : Nat
  deriving DecidableEq

/-- A read into `len` bytes. The source may answer with fewer bytes than it has. -/
def Source.pollRead (i : Source) (len : Nat) : Poll Nat → Option (Source × Poll (List UInt8))
  | .pending => some (i, .pending)
  | .error e => some (i, .error e)
  | .ok n =>
    if n ≤ len ∧ n ≤ (i.contents.drop i.cursor).length then
      some ({ i with cursor := i.cursor + n }, .ok ((i.contents.drop i.cursor).take n))
    else none

/-- Where a seek leads from `p`. -/
def target (contents : List UInt8) (p : Nat) : SeekFrom → Int
  | .start n => n
  | .end n => contents.length + n
  | .current n => p + n

def InRange (t : Int) : Prop := 0 ≤ t ∧ t < 2 ^ 64

instance (t : Int) : Decidable (InRange t) := inferInstanceAs (Decidable (_ ∧ _))

/-- A seek. It may fail for any reason, and has to for a position that is no `u64`. -/
def Source.pollSeek (i : Source) (pos : SeekFrom) : Poll Unit → Option (Source × Poll Nat)
  | .pending => some (i, .pending)
  | .error e => some (i, .error e)
  | .ok () =>
    let t := target i.contents i.cursor pos
    if InRange t then some ({ i with cursor := t.toNat }, .ok t.toNat) else none

/-- A length that a slice can have. -/
structure Capacity where
  val : Nat
  fits : val < 2 ^ 63

structure State where
  inner : Source
  buf : List UInt8
  pos : Nat
  cap : Nat
  deriving DecidableEq

def withCapacity (capacity : Capacity) (inner : Source) : State :=
  ⟨inner, List.replicate capacity.val 0, 0, 0⟩

def State.buffer (s : State) : List UInt8 := (s.buf.take s.cap).drop s.pos

def discardBuffer (s : State) : State := { s with pos := 0, cap := 0 }

def pollFillBuf (s : State) (ans : Poll Nat) : Option (State × Poll (List UInt8)) :=
  if s.cap ≤ s.pos then
    (s.inner.pollRead s.buf.length ans).map fun (inner, res) =>
      match res with
      | .pending => ({ s with inner := inner }, .pending)
      | .error e => ({ s with inner := inner }, .error e)
      | .ok data =>
        let s := { s with inner, buf := data ++ s.buf.drop data.length, pos := 0, cap := data.length }
        (s, .ok s.buffer)
  else some (s, .ok s.buffer)

def consume (s : State) (length : Nat) : State :=
  { s with pos := min ((s.pos + length) % 2 ^ 64) s.cap }

/-- `poll_read` with room for `len` bytes. -/
def pollRead (s : State) (len : Nat) (ans : Poll Nat) : Option (State × Poll (List UInt8)) :=
  if s.pos = s.cap ∧ s.buf.length ≤ len then
    (s.inner.pollRead len ans).map fun (inner, res) =>
      match res with
      | .pending => ({ s with inner := inner }, .pending)
      | res => (discardBuffer { s with inner := inner }, res)
  else
    (pollFillBuf s ans).map fun (s, res) =>
      match res with
      | .pending => (s, .pending)
      | .error e => (s, .error e)
      | .ok rem => (consume s (rem.take len).length, .ok (rem.take len))

/-- `poll_read_vectored` with room for `lens` bytes in the slices. They are filled one
after the other. -/
def pollReadVectored (s : State) (lens : List Nat) (ans : Poll Nat) :
    Option (State × Poll (List UInt8)) :=
  pollRead s lens.sum ans

/-- `n.checked_sub(r)` of an `i64`. -/
def checkedSub (n r : Int) : Option Int :=
  if -2 ^ 63 ≤ n - r ∧ n - r < 2 ^ 63 then some (n - r) else none

/-- The last request to the source, and the discarded buffer behind it. -/
def seekThrough (s : State) (pos : SeekFrom) (ans : Poll Unit) : Option (State × Poll Nat) :=
  (s.inner.pollSeek pos ans).map fun (inner, res) =>
    match res with
    | .ok n => (discardBuffer { s with inner := inner }, .ok n)
    | res => ({ s with inner := inner }, res)

def pollSeek (s : State) (pos : SeekFrom) (ans ans' : Poll Unit) : Option (State × Poll Nat) :=
  match pos with
  | .current n =>
    let remainder : Int := s.cap - s.pos
    match checkedSub n remainder with
    | some offset => seekThrough s (.current offset) ans
    | none =>
      (seekThrough s (.current (-remainder)) ans).bind fun (s, res) =>
        match res with
        | .ok _ => seekThrough s (.current n) ans'
        | res => some (s, res)
  | pos => seekThrough s pos ans

inductive Call where
  | pollRead (len : Nat) (ans : Poll Nat)
  | pollReadVectored (lens : List Nat) (ans : Poll Nat)
  | pollFillBuf (ans : Poll Nat)
  | consume (length : Nat)
  | pollSeek (pos : SeekFrom) (ans ans' : Poll Unit)
  deriving DecidableEq

inductive Ret where
  | bytes (res : Poll (List UInt8))
  | unit
  | position (res : Poll Nat)
  deriving DecidableEq

/-- The arguments of a call are of their types. -/
def Call.WellTyped : Call → Prop
  | .consume length => length < 2 ^ 64
  | .pollSeek (.start n) _ _ => n < 2 ^ 64
  | .pollSeek (.end n) _ _ | .pollSeek (.current n) _ _ => -2 ^ 63 ≤ n ∧ n < 2 ^ 63
  | _ => True

instance (c : Call) : Decidable c.WellTyped :=
  match c with
  | .consume length => inferInstanceAs (Decidable (length < 2 ^ 64))
  | .pollSeek (.start n) _ _ => inferInstanceAs (Decidable (n < 2 ^ 64))
  | .pollSeek (.end n) _ _ => inferInstanceAs (Decidable (-2 ^ 63 ≤ n ∧ n < 2 ^ 63))
  | .pollSeek (.current n) _ _ => inferInstanceAs (Decidable (-2 ^ 63 ≤ n ∧ n < 2 ^ 63))
  | .pollRead .. | .pollReadVectored .. | .pollFillBuf .. => inferInstanceAs (Decidable True)

def call (s : State) : Call → Option (State × Ret)
  | .pollRead len ans => (pollRead s len ans).map fun (s, res) => (s, .bytes res)
  | .pollReadVectored lens ans => (pollReadVectored s lens ans).map fun (s, res) => (s, .bytes res)
  | .pollFillBuf ans => (pollFillBuf s ans).map fun (s, res) => (s, .bytes res)
  | .consume length => some (consume s length, .unit)
  | .pollSeek pos ans ans' => (pollSeek s pos ans ans').map fun (s, res) => (s, .position res)

def step (s : State) (c : Call) : Option State :=
  if c.WellTyped then (call s c).map Prod.fst else none

def system (capacity : Capacity) (inner : Source) : System State Call :=
  ⟨withCapacity capacity inner, step⟩

/-! ## The reader without a buffer -/

/-- The position that the caller sees. -/
def State.p (s : State) : Nat := s.inner.cursor - (s.cap - s.pos)

/-- A read of at most `len` bytes moves on by what it returns; nothing else moves. -/
def Reads (s t : State) (len : Nat) : Poll (List UInt8) → Prop
  | .ok data => data.length ≤ len ∧ data = (s.inner.contents.drop s.p).take data.length ∧
      t.p = s.p + data.length
  | _ => t.p = s.p

/-- The buffered bytes are looked at, and nothing moves. -/
def Fills (s t : State) : Poll (List UInt8) → Prop
  | .ok data => data = (s.inner.contents.drop s.p).take data.length ∧ t.p = s.p
  | _ => t.p = s.p

/-- The outcome of a seek from the position `p`. -/
def Seeks (contents : List UInt8) (p : Nat) (t : State) (pos : SeekFrom) : Poll Nat → Prop
  | .ok n => InRange (target contents p pos) ∧ (n : Int) = target contents p pos ∧ t.p = n
  | _ => t.p = p

/-- The call does what it would do on the source itself, at the position `p`. -/
def Transparent (s t : State) : Call → Ret → Prop
  | .pollRead len _, .bytes res => Reads s t len res
  | .pollReadVectored lens _, .bytes res => Reads s t lens.sum res
  | .pollFillBuf _, .bytes res => Fills s t res
  | .consume length, .unit => t.p = s.p + min length s.buffer.length
  | .pollSeek pos _ _, .position res => Seeks s.inner.contents s.p t pos res
  | _, _ => False

/-- The buffer holds what is in front of the cursor. -/
structure Inv (capacity : Capacity) (contents : List UInt8) (s : State) : Prop where
  contents : s.inner.contents = contents
  length : s.buf.length = capacity.val
  pos_le : s.pos ≤ s.cap
  cap_le : s.cap ≤ s.buf.length
  cap_le_cursor : s.cap ≤ s.inner.cursor
  held : s.buf.take s.cap = (s.inner.contents.drop (s.inner.cursor - s.cap)).take s.cap

section Steps

variable {capacity : Capacity} {contents : List UInt8} {s t : State} {i i' : Source}
  {ans : Poll Nat} {res : Poll (List UInt8)} {len k : Nat} {pos : SeekFrom}

/-- A read that succeeds moves the cursor over what it returns; no other one moves it. -/
theorem Source.pollRead_cases (h : i.pollRead len ans = some (i', res)) :
    (∃ data, res = .ok data ∧ data.length ≤ len ∧
      data = (i.contents.drop i.cursor).take data.length ∧
      i' = { i with cursor := i.cursor + data.length }) ∨
    (∀ data, res ≠ .ok data) ∧ i' = i := by
  unfold Source.pollRead at h
  split at h
  · cases h
    exact .inr ⟨nofun, rfl⟩
  · cases h
    exact .inr ⟨nofun, rfl⟩
  · rename_i n
    split at h
    · rename_i hn
      have hlen : ((i.contents.drop i.cursor).take n).length = n := List.length_take_of_le hn.2
      cases h
      refine .inl ⟨_, rfl, ?_, ?_, ?_⟩
      · rw [hlen]
        exact hn.1
      · rw [hlen]
      · rw [hlen]
    · cases h

theorem Source.pollSeek_cases {ans : Poll Unit} {res : Poll Nat}
    (h : i.pollSeek pos ans = some (i', res)) :
    (∃ n : Nat, res = .ok n ∧ InRange (target i.contents i.cursor pos) ∧
      (n : Int) = target i.contents i.cursor pos ∧ i' = { i with cursor := n }) ∨
    (∀ n, res ≠ .ok n) ∧ i' = i := by
  unfold Source.pollSeek at h
  split at h
  · cases h
    exact .inr ⟨nofun, rfl⟩
  · cases h
    exact .inr ⟨nofun, rfl⟩
  · dsimp only at h
    split at h
    · rename_i hrange
      cases h
      exact .inl ⟨_, rfl, hrange, Int.toNat_of_nonneg hrange.1, rfl⟩
    · cases h

theorem Inv.buffer_length (h : Inv capacity contents s) : s.buffer.length = s.cap - s.pos := by
  have hcap := h.cap_le
  rw [State.buffer, List.length_drop, List.length_take_of_le hcap]

/-- The buffered bytes are those at the position of the caller. -/
theorem Inv.buffer_eq (h : Inv capacity contents s) :
    s.buffer = (s.inner.contents.drop s.p).take (s.cap - s.pos) := by
  have hpos := h.pos_le
  have hcursor := h.cap_le_cursor
  have hp : s.p = s.inner.cursor - s.cap + s.pos := by
    unfold State.p
    omega
  rw [State.buffer, h.held, List.drop_take, List.drop_drop, hp]

/-- An empty buffer says nothing. -/
theorem inv_of_empty (hcontents : s.inner.contents = contents)
    (hlength : s.buf.length = capacity.val) (hpos : s.pos = s.cap)
    (hcap : s.cap = 0) : Inv capacity contents s := by
  refine ⟨hcontents, hlength, Nat.le_of_eq hpos, ?_, ?_, ?_⟩
  · rw [hcap]
    exact Nat.zero_le _
  · rw [hcap]
    exact Nat.zero_le _
  · rw [hcap]
    rfl

theorem inv_withCapacity (capacity : Capacity) (inner : Source) :
    Inv capacity inner.contents (withCapacity capacity inner) :=
  inv_of_empty rfl List.length_replicate rfl rfl

theorem inv_discardBuffer (hcontents : s.inner.contents = contents)
    (hlength : s.buf.length = capacity.val) : Inv capacity contents (discardBuffer s) :=
  inv_of_empty hcontents hlength rfl rfl

theorem inv_consume (h : Inv capacity contents s) (k : Nat) :
    Inv capacity contents (consume s k) :=
  ⟨h.contents, h.length, Nat.min_le_right .., h.cap_le, h.cap_le_cursor, h.held⟩

theorem p_consume (h : Inv capacity contents s) (hk : s.pos + k < 2 ^ 64) :
    (consume s k).p = s.p + min k (s.cap - s.pos) := by
  have hpos := h.pos_le
  have hcursor := h.cap_le_cursor
  dsimp only [consume, State.p]
  rw [Nat.mod_eq_of_lt hk]
  omega

/-- No overflow as long as no more is consumed than there is. -/
theorem Inv.consume_lt (h : Inv capacity contents s) (hk : k ≤ s.cap - s.pos) :
    s.pos + k < 2 ^ 64 := by
  have hpos := h.pos_le
  have hcap := h.cap_le
  have hlength := h.length
  have hfits := capacity.fits
  omega

/-- What `poll_fill_buf` answers is in the buffer, at the same position. -/
theorem pollFillBuf_spec (h : Inv capacity contents s) (ht : pollFillBuf s ans = some (t, res)) :
    Inv capacity contents t ∧ t.p = s.p ∧ ∀ data, res = .ok data → data = t.buffer := by
  unfold pollFillBuf at ht
  split at ht
  · rename_i hempty
    obtain ⟨⟨inner, res'⟩, hread, hres⟩ := Option.map_eq_some_iff.mp ht
    have hpos : s.pos = s.cap := Nat.le_antisymm h.pos_le hempty
    rcases Source.pollRead_cases hread with ⟨data, rfl, hlen, hdata, rfl⟩ | ⟨hnot, rfl⟩
    · cases hres
      have hlength : (data ++ s.buf.drop data.length).length = s.buf.length := by
        rw [List.length_append, List.length_drop]
        omega
      refine ⟨⟨h.contents, hlength.trans h.length, Nat.zero_le _, ?_, Nat.le_add_left .., ?_⟩,
        ?_, ?_⟩
      · exact hlength ▸ hlen
      · dsimp only
        rw [List.take_left, Nat.add_sub_cancel]
        exact hdata
      · dsimp only [State.p]
        omega
      · exact fun data' hdata' => (Poll.ok.inj hdata').symm
    · cases res' with
      | ok data => exact absurd rfl (hnot data)
      | pending =>
        cases hres
        exact ⟨h, rfl, nofun⟩
      | error e =>
        cases hres
        exact ⟨h, rfl, nofun⟩
  · cases ht
    refine ⟨h, rfl, fun data hdata => ?_⟩
    exact (Poll.ok.inj hdata).symm

theorem pollRead_spec (h : Inv capacity contents s) (ht : pollRead s len ans = some (t, res)) :
    Inv capacity contents t ∧ Reads s t len res := by
  unfold pollRead at ht
  split at ht
  · rename_i hbypass
    obtain ⟨⟨inner, res'⟩, hread, hres⟩ := Option.map_eq_some_iff.mp ht
    have hp : s.p = s.inner.cursor := by
      unfold State.p
      omega
    rcases Source.pollRead_cases hread with ⟨data, rfl, hlen, hdata, rfl⟩ | ⟨hnot, rfl⟩
    · cases hres
      refine ⟨inv_discardBuffer h.contents h.length, hlen, ?_, ?_⟩
      · rw [hp]
        exact hdata
      · rw [hp]
        rfl
    · cases res' with
      | ok data => exact absurd rfl (hnot data)
      | pending =>
        cases hres
        exact ⟨h, rfl⟩
      | error e =>
        cases hres
        exact ⟨inv_discardBuffer h.contents h.length, hp.symm⟩
  · obtain ⟨⟨t', res'⟩, hfill, hres⟩ := Option.map_eq_some_iff.mp ht
    obtain ⟨ht', hp, hbuffer⟩ := pollFillBuf_spec h hfill
    cases res' with
    | pending =>
      cases hres
      exact ⟨ht', hp⟩
    | error e =>
      cases hres
      exact ⟨ht', hp⟩
    | ok rem =>
      cases hres
      obtain rfl := hbuffer rem rfl
      refine ⟨inv_consume ht' _, ?_, ?_, ?_⟩
      · rw [List.length_take]
        exact Nat.min_le_left ..
      · rw [ht'.buffer_eq, hp, ht'.contents, h.contents, List.take_take, List.length_take]
        exact List.take_eq_take_min ..
      · have hle : (t'.buffer.take len).length ≤ t'.cap - t'.pos := by
          rw [← ht'.buffer_length, List.length_take]
          exact Nat.min_le_right ..
        rw [p_consume ht' (ht'.consume_lt hle), hp, Nat.min_eq_left hle]

/-- A request to seek that succeeds sets the position, and no other one moves it. -/
theorem seekThrough_spec {ans : Poll Unit} {res : Poll Nat} (h : Inv capacity contents s)
    (ht : seekThrough s pos ans = some (t, res)) :
    Inv capacity contents t ∧
      ((∃ n : Nat, res = .ok n ∧ InRange (target contents s.inner.cursor pos) ∧
        (n : Int) = target contents s.inner.cursor pos ∧ t.inner.cursor = n ∧ t.cap = 0) ∨
      (∀ n, res ≠ .ok n) ∧ t = s) := by
  obtain ⟨⟨inner, res'⟩, hseek, hres⟩ := Option.map_eq_some_iff.mp ht
  have hcases := Source.pollSeek_cases hseek
  rw [h.contents] at hcases
  rcases hcases with ⟨n, rfl, hrange, hn, rfl⟩ | ⟨hnot, rfl⟩
  · cases hres
    exact ⟨inv_discardBuffer rfl h.length, .inl ⟨n, rfl, hrange, hn, rfl, rfl⟩⟩
  · cases res' with
    | ok n => exact absurd rfl (hnot n)
    | pending =>
      cases hres
      exact ⟨h, .inr ⟨nofun, rfl⟩⟩
    | error e =>
      cases hres
      exact ⟨h, .inr ⟨nofun, rfl⟩⟩

/-- A single request, relative to the position of the caller. -/
theorem seekThrough_seeks {ans : Poll Unit} {res : Poll Nat} {pos' : SeekFrom}
    (h : Inv capacity contents s)
    (htarget : target contents s.inner.cursor pos' = target contents s.p pos)
    (ht : seekThrough s pos' ans = some (t, res)) :
    Inv capacity contents t ∧ Seeks contents s.p t pos res := by
  obtain ⟨hinv, hcases⟩ := seekThrough_spec h ht
  refine ⟨hinv, ?_⟩
  rw [htarget] at hcases
  rcases hcases with ⟨n, rfl, hrange, hn, hcursor, hcap⟩ | ⟨hnot, rfl⟩
  · refine ⟨hrange, hn, ?_⟩
    rw [State.p, hcursor, hcap, Nat.zero_sub, Nat.sub_zero]
  · cases res with
    | ok n => exact absurd rfl (hnot n)
    | pending | error => rfl

theorem pollSeek_spec {ans ans' : Poll Unit} {res : Poll Nat} (h : Inv capacity contents s)
    (ht : pollSeek s pos ans ans' = some (t, res)) :
    Inv capacity contents t ∧ Seeks contents s.p t pos res := by
  have hpos := h.pos_le
  have hcursor := h.cap_le_cursor
  have hp : (s.p : Int) = s.inner.cursor - (s.cap - s.pos) := by
    unfold State.p
    omega
  unfold pollSeek at ht
  split at ht
  · rename_i n
    dsimp only at ht
    split at ht
    · rename_i offset hsub
      refine seekThrough_seeks h ?_ ht
      unfold checkedSub at hsub
      split at hsub
      · obtain rfl := Option.some.inj hsub
        dsimp only [target]
        omega
      · cases hsub
    · -- `n - remainder` is no `i64`: the source is moved back to `p` first.
      obtain ⟨⟨s', res'⟩, hback, hthen⟩ := Option.bind_eq_some_iff.mp ht
      obtain ⟨hinv, hcases⟩ := seekThrough_spec h hback
      rcases hcases with ⟨m, rfl, -, hm, hcur, hcap⟩ | ⟨hnot, rfl⟩
      · have hp' : s'.p = s.p := by
          dsimp only [target] at hm
          rw [State.p, hcur, hcap, Nat.zero_sub, Nat.sub_zero]
          omega
        rw [← hp']
        refine seekThrough_seeks hinv ?_ hthen
        rw [State.p, hcap, Nat.zero_sub, Nat.sub_zero]
      · cases res' with
        | ok n => exact absurd rfl (hnot n)
        | pending | error =>
          cases hthen
          exact ⟨h, rfl⟩
  · rename_i hnot
    refine seekThrough_seeks h ?_ ht
    cases pos with
    | current n => exact absurd rfl (hnot n)
    | start | «end» => rfl

/-- The sum in `consume` does not wrap around. -/
def NoWrap (s : State) : Call → Prop
  | .consume length => s.pos + length < 2 ^ 64
  | _ => True

/-- A sum that wraps around moves the caller back. -/
theorem p_consume_wraps (h : Inv capacity contents s) (hk : k < 2 ^ 64)
    (hwrap : 2 ^ 64 ≤ s.pos + k) : (consume s k).p < s.p := by
  have hpos := h.pos_le
  have hcap := h.cap_le
  have hlength := h.length
  have hfits := capacity.fits
  have hcursor := h.cap_le_cursor
  have hback : (s.pos + k) % 2 ^ 64 < s.pos := by
    rw [Nat.mod_eq_sub_mod hwrap, Nat.mod_eq_of_lt (by omega)]
    omega
  show s.inner.cursor - (s.cap - min ((s.pos + k) % 2 ^ 64) s.cap) < _
  generalize (s.pos + k) % 2 ^ 64 = wrapped at hback
  unfold State.p
  omega

theorem call_spec {c : Call} {ret : Ret} (h : Inv capacity contents s) (hc : c.WellTyped)
    (ht : call s c = some (t, ret)) :
    Inv capacity contents t ∧ (Transparent s t c ret ↔ NoWrap s c) := by
  cases c with
  | pollRead len ans =>
    obtain ⟨⟨t', res⟩, hread, hres⟩ := Option.map_eq_some_iff.mp ht
    cases hres
    obtain ⟨hinv, hreads⟩ := pollRead_spec h hread
    exact ⟨hinv, iff_of_true hreads trivial⟩
  | pollReadVectored lens ans =>
    obtain ⟨⟨t', res⟩, hread, hres⟩ := Option.map_eq_some_iff.mp ht
    cases hres
    obtain ⟨hinv, hreads⟩ := pollRead_spec h hread
    exact ⟨hinv, iff_of_true hreads trivial⟩
  | pollFillBuf ans =>
    obtain ⟨⟨t', res⟩, hfill, hres⟩ := Option.map_eq_some_iff.mp ht
    cases hres
    obtain ⟨hinv, hp, hbuffer⟩ := pollFillBuf_spec h hfill
    refine ⟨hinv, iff_of_true ?_ trivial⟩
    cases res with
    | pending | error => exact hp
    | ok data =>
      obtain rfl := hbuffer data rfl
      refine ⟨?_, hp⟩
      rw [hinv.buffer_length, h.contents, ← hinv.contents, ← hp]
      exact hinv.buffer_eq
  | consume k =>
    cases ht
    refine ⟨inv_consume h k, ?_⟩
    constructor
    · intro htransparent
      by_contra hwrap
      have hback := p_consume_wraps h hc (Nat.not_lt.mp hwrap)
      rw [show (consume s k).p = _ from htransparent] at hback
      exact absurd hback (Nat.not_lt.mpr (Nat.le_add_right ..))
    · intro hk
      show (consume s k).p = _
      rw [p_consume h hk, h.buffer_length]
  | pollSeek pos ans ans' =>
    obtain ⟨⟨t', res⟩, hseek, hres⟩ := Option.map_eq_some_iff.mp ht
    cases hres
    obtain ⟨hinv, hseeks⟩ := pollSeek_spec h hseek
    refine ⟨hinv, iff_of_true ?_ trivial⟩
    rw [← h.contents] at hseeks
    exact hseeks

theorem inv_of_reachable {inner : Source} (hs : (system capacity inner).Reachable s) :
    Inv capacity inner.contents s := by
  refine hs.invariant (inv_withCapacity capacity inner) fun s c t h ht => ?_
  simp only [system, step] at ht
  split at ht
  · rename_i hc
    obtain ⟨⟨t', ret⟩, hcall, rfl⟩ := Option.map_eq_some_iff.mp ht
    exact (call_spec h hc hcall).1
  · cases ht

end Steps

/-- In every state the buffered bytes are those at the caller's position, and a call is
transparent unless it is a `consume` whose sum wraps around. -/
theorem buffer_reader_transparent_iff (capacity : Capacity) (inner : Source) (s : State)
    (hs : (system capacity inner).Reachable s) :
    s.pos ≤ s.cap ∧ s.cap - s.pos ≤ s.inner.cursor ∧ s.inner.contents = inner.contents ∧
      s.buffer = (inner.contents.drop s.p).take (s.cap - s.pos) ∧
      ∀ c t ret, c.WellTyped → call s c = some (t, ret) → (Transparent s t c ret ↔ NoWrap s c) := by
  have h := inv_of_reachable hs
  have hcursor := h.cap_le_cursor
  refine ⟨h.pos_le, by omega, h.contents, ?_, fun c t ret hc ht => (call_spec h hc ht).2⟩
  rw [← h.contents]
  exact h.buffer_eq

def threeBytes : Capacity := ⟨3, by decide⟩

theorem buffer_reader_transparent_seek :
    ∃ s t, (system threeBytes ⟨[1, 2, 3, 4, 5], 0⟩).Reachable s ∧ s.p = 1 ∧ s.buffer = [2, 3] ∧
      call s (.pollSeek (.current 2) (.ok ()) .pending) = some (t, .position (.ok 3)) ∧
      Transparent s t (.pollSeek (.current 2) (.ok ()) .pending) (.position (.ok 3)) := by
  obtain ⟨s, -, hs, hp, hbuffer, hcall⟩ := (system threeBytes ⟨[1, 2, 3, 4, 5], 0⟩).exists_of_run
    (P := fun s => s.p = 1 ∧ s.buffer = [2, 3] ∧
      call s (.pollSeek (.current 2) (.ok ()) .pending) =
        some (discardBuffer { s with inner := ⟨[1, 2, 3, 4, 5], 3⟩ }, .position (.ok 3)))
    [.pollFillBuf (.ok 3), .pollRead 1 .pending] (by decide)
  have h := buffer_reader_transparent_iff threeBytes ⟨[1, 2, 3, 4, 5], 0⟩ s hs
  exact ⟨s, _, hs, hp, hbuffer, hcall, (h.2.2.2.2 _ _ _ (by decide) hcall).mpr trivial⟩

/-- `consume(usize::MAX)` behind one consumed byte: the sum is 0, and the byte is there
again. -/
theorem buffer_reader_steps_back :
    ∃ s t, (system threeBytes ⟨[1, 2, 3, 4, 5], 0⟩).Reachable s ∧ s.p = 1 ∧
      call s (.consume (2 ^ 64 - 1)) = some (t, .unit) ∧ t.p = 0 ∧
      ¬Transparent s t (.consume (2 ^ 64 - 1)) .unit := by
  obtain ⟨s, -, hs, hp, hback⟩ := (system threeBytes ⟨[1, 2, 3, 4, 5], 0⟩).exists_of_run
    (P := fun s => s.p = 1 ∧ (consume s (2 ^ 64 - 1)).p = 0)
    [.pollFillBuf (.ok 3), .consume 1] (by decide +kernel)
  refine ⟨s, consume s (2 ^ 64 - 1), hs, hp, rfl, hback, fun h => ?_⟩
  rw [show (consume s (2 ^ 64 - 1)).p = _ from h, hp] at hback
  omega

end Cynthia.Swap.BufferReader
