import Cynthia.Lib.Transition
import Cynthia.Swap.Futures
import Mathlib.Data.List.Infix

/-! Expressions of `Take`, `Chain` and `BufferReader` (`future/swap.rs`) over readers that keep
their contract: both styles of reading give the bytes of the lists that they stand for. -/

namespace Cynthia.AsyncIo.Nested

open Polling Transition

/-- What a reader has to come, and how much of it may be consumed now. -/
structure View (R : Type) where
  Inv : R → Prop
  rest : R → Data
  held : R → Nat

namespace View

variable {R : Type} (V : View R)

/-- From `r` to `r'` the bytes `bs` are taken, and no more of those held. -/
structure Moves (r r' : R) (bs : Data) : Prop where
  inv : V.Inv r'
  rest : V.rest r = bs ++ V.rest r'
  held : V.held r ≤ V.held r' + bs.length

variable {V} in
theorem Moves.trans {r r' r'' : R} {bs bs' : Data} (h : V.Moves r r' bs) (h' : V.Moves r' r'' bs') :
    V.Moves r r'' (bs ++ bs') where
  inv := h'.inv
  rest := by rw [h.rest, h'.rest, List.append_assoc]
  held := by
    have hheld := h.held
    have hheld' := h'.held
    rw [List.length_append]
    omega

/-- What a read with room for `len` bytes may come to. Nothing is read at the end only. -/
def Reads (r : R) (len : Nat) : Outcome R (Result Data) → Prop
  | .ok (res, r') => V.Moves r r' (given res) ∧
      ∀ bs, res = .ready (.ok bs) → bs.length ≤ len ∧ (bs = [] → V.rest r = [])
  | .error _ => False

/-- What it returns may be consumed. -/
def Fills (r : R) : Outcome R (Result Data) → Prop
  | .ok (res, r') => V.Moves r r' [] ∧
      ∀ bs, res = .ready (.ok bs) → bs.length ≤ V.held r' ∧ bs <+: V.rest r' ∧
        (bs = [] → V.rest r' = [])
  | .error _ => False

def Consumes (r : R) (k : Nat) : Except Fault R → Prop
  | .ok r' => V.Moves r r' ((V.rest r).take k)
  | .error _ => False

section Through

variable {V} {S : Type} {W : View S} {r : R} {s : S} {len : Nat} {out : Outcome R (Result Data)}
  {put : R → S}

theorem Reads.through (hmoves : ∀ r' bs, V.Moves r r' bs → W.Moves s (put r') bs)
    (hend : V.rest r = [] → W.rest s = []) (h : V.Reads r len out) :
    W.Reads s len (through out put) := by
  rcases out with f | ⟨_ | e | bs, r'⟩
  · exact h.elim
  · exact ⟨hmoves _ _ h.1, fun bs h => by cases h⟩
  · exact ⟨hmoves _ _ h.1, fun bs h => by cases h⟩
  · refine ⟨hmoves _ _ h.1, fun bs' h' => ?_⟩
    obtain ⟨hle, hnil⟩ := h.2 bs' h'
    exact ⟨hle, fun hbs => hend (hnil hbs)⟩

theorem Fills.through (hmoves : ∀ r', V.Moves r r' [] → W.Moves s (put r') [])
    (hheld : ∀ r', W.held (put r') = V.held r') (hrest : ∀ r', W.rest (put r') = V.rest r')
    (h : V.Fills r out) : W.Fills s (AsyncIo.through out put) := by
  rcases out with f | ⟨_ | e | bs, r'⟩
  · exact h.elim
  · exact ⟨hmoves _ h.1, fun bs h => by cases h⟩
  · exact ⟨hmoves _ h.1, fun bs h => by cases h⟩
  · refine ⟨hmoves _ h.1, fun bs' h' => ?_⟩
    rw [hheld, hrest]
    exact h.2 bs' h'

end Through

end View

/-- The contract of a reader, whose calls never fault. -/
structure Contract (R : Type) [AsyncRead R] [AsyncBufRead R] extends View R where
  held_le : ∀ r, Inv r → held r ≤ (rest r).length
  read : ∀ cx len r, Inv r → 0 < len → toView.Reads r len (pollRead cx len r)
  fill : ∀ cx r, Inv r → toView.Fills r (pollFillBuf cx r)
  consume : ∀ k r, Inv r → k ≤ held r → toView.Consumes r k (AsyncBufRead.consume k r)

/-! ## The reader of events -/

section Events

open Swap.ReadUntil (Event Reader contents putBack contents_putBack)

def events : View Reader where
  Inv _ := True
  rest := contents
  held
    | .chunk _ bs :: _ => bs.length + 1
    | _ => 0

theorem events_putBack (r : Data) (es : Reader) : r.length ≤ events.held (putBack r es) := by
  cases r with
  | nil => exact Nat.zero_le _
  | cons => exact Nat.le_refl _

/-- The front of a chunk is taken. -/
theorem events_moves (b : UInt8) (bs : Data) (es : Reader) (k : Nat) :
    events.Moves (.chunk b bs :: es) (putBack ((b :: bs).drop k) es) ((b :: bs).take k) where
  inv := trivial
  rest := by
    change b :: bs ++ contents es = _ ++ contents _
    rw [contents_putBack, ← List.append_assoc, List.take_append_drop]
  held := by
    have hle := events_putBack ((b :: bs).drop k) es
    rw [List.length_drop, List.length_cons] at hle
    change bs.length + 1 ≤ _
    rw [List.length_take, List.length_cons]
    omega

/-- The event is no chunk. -/
theorem events_skip {event : Event} {es : Reader} (h : ∀ b bs, event ≠ .chunk b bs) :
    events.Moves (event :: es) es [] := by
  cases event with
  | pending => exact ⟨trivial, rfl, Nat.zero_le _⟩
  | error e => exact ⟨trivial, rfl, Nat.zero_le _⟩
  | chunk b bs => exact absurd rfl (h b bs)

def eventsContract : Contract Reader where
  toView := events
  held_le r _ := by
    rcases r with _ | ⟨_ | _ | ⟨b, bs⟩, es⟩
    · exact Nat.zero_le _
    · exact Nat.zero_le _
    · exact Nat.zero_le _
    · change bs.length + 1 ≤ (b :: bs ++ contents es).length
      rw [List.length_append, List.length_cons]
      exact Nat.le_add_right ..
  read cx len r _ hlen := by
    rcases r with _ | ⟨_ | e | ⟨b, bs⟩, es⟩
    · exact ⟨⟨trivial, rfl, Nat.le_refl _⟩, fun bs h => by
        cases h
        exact ⟨Nat.zero_le _, fun _ => rfl⟩⟩
    · exact ⟨events_skip (by nofun), fun bs h => by cases h⟩
    · rcases e with _ | _ | _
      all_goals exact ⟨events_skip (by nofun), fun bs h => by cases h⟩
    · refine ⟨events_moves b bs es len, fun bs' h => ?_⟩
      cases h
      refine ⟨List.length_take_le .., fun hnil => ?_⟩
      rw [List.take_eq_nil_iff] at hnil
      rcases hnil with rfl | hnil
      · exact absurd hlen (Nat.lt_irrefl 0)
      · cases hnil
  fill cx r _ := by
    rcases r with _ | ⟨_ | e | ⟨b, bs⟩, es⟩
    · exact ⟨⟨trivial, rfl, Nat.le_refl _⟩, fun bs h => by
        cases h
        exact ⟨Nat.zero_le _, List.nil_prefix, fun _ => rfl⟩⟩
    · exact ⟨events_skip (by nofun), fun bs h => by cases h⟩
    · rcases e with _ | _ | _
      all_goals exact ⟨events_skip (by nofun), fun bs h => by cases h⟩
    · refine ⟨⟨trivial, rfl, Nat.le_refl _⟩, fun bs' h => ?_⟩
      cases h
      exact ⟨Nat.le_refl _, List.prefix_append .., fun h => by cases h⟩
  consume k r _ hk := by
    rcases r with _ | ⟨_ | e | ⟨b, bs⟩, es⟩
    · exact ⟨trivial, List.take_nil.symm ▸ rfl, Nat.zero_le _⟩
    · obtain rfl := Nat.le_zero.mp hk
      exact ⟨trivial, rfl, Nat.zero_le _⟩
    · obtain rfl := Nat.le_zero.mp hk
      exact ⟨trivial, rfl, Nat.zero_le _⟩
    · have hk : k ≤ (b :: bs).length := hk
      change events.Moves _ _ ((b :: bs ++ contents es).take k)
      rw [List.take_append_of_le_length hk]
      exact events_moves b bs es k

end Events

/-! ## `Take` -/

section Take

variable {R : Type} [AsyncRead R] [AsyncBufRead R] (M : Contract R) (limit total : Nat)

/-- The inner reader had `total` bytes to come when the limit was `limit`. -/
def take : View (Take R) where
  Inv t := M.Inv t.inner ∧ t.limit ≤ limit ∧ total = (M.rest t.inner).length + (limit - t.limit)
  rest t := (M.rest t.inner).take t.limit
  held t := min (M.held t.inner) t.limit

variable {M limit total} {t : Take R} {inner : R} {bs : Data}

theorem take_moves (hinv : (take M limit total).Inv t) (h : M.Moves t.inner inner bs)
    (hle : bs.length ≤ t.limit) :
    (take M limit total).Moves t ⟨inner, t.limit - bs.length⟩ bs where
  inv := by
    obtain ⟨-, hlimit, htotal⟩ := hinv
    refine ⟨h.inv, by dsimp only; omega, ?_⟩
    rw [h.rest, List.length_append] at htotal
    dsimp only
    omega
  rest := by
    change (M.rest t.inner).take t.limit = bs ++ (M.rest inner).take (t.limit - bs.length)
    rw [h.rest, List.take_append, List.take_of_length_le hle]
  held := by
    have hheld := h.held
    change min (M.held t.inner) t.limit ≤ min (M.held inner) (t.limit - bs.length) + bs.length
    omega

theorem take_read (M : Contract R) (cx : Context) (len : Nat) (t : Take R)
    (hinv : (take M limit total).Inv t) (hlen : 0 < len) :
    (take M limit total).Reads t len (pollRead cx len t) := by
  obtain ⟨r, l⟩ := t
  change (take M limit total).Reads _ len (if l = 0 then _ else _)
  split
  · rename_i hzero
    obtain rfl : l = 0 := hzero
    refine ⟨⟨hinv, rfl, Nat.le_refl _⟩, fun bs h => ?_⟩
    cases h
    exact ⟨Nat.zero_le _, fun _ => rfl⟩
  · rename_i hzero
    have hpos : 0 < min len l := Nat.lt_min.mpr ⟨hlen, Nat.pos_of_ne_zero hzero⟩
    have h := M.read cx (min len l) r hinv.1 hpos
    dsimp only
    generalize pollRead cx (min len l) r = out at h
    rcases out with f | ⟨_ | e | bs, r'⟩
    · exact h.elim
    · exact ⟨take_moves hinv h.1 (Nat.zero_le _), fun bs h => by cases h⟩
    · exact ⟨take_moves hinv h.1 (Nat.zero_le _), fun bs h => by cases h⟩
    · obtain ⟨hle, hend⟩ := h.2 bs rfl
      have hlimit : bs.length ≤ l := hle.trans (Nat.min_le_right ..)
      change (take M limit total).Reads _ len (if bs.length ≤ l then _ else _)
      rw [if_pos hlimit]
      refine ⟨take_moves hinv h.1 hlimit, fun bs' h' => ?_⟩
      cases h'
      refine ⟨hle.trans (Nat.min_le_left ..), fun hnil => ?_⟩
      change (M.rest r).take l = []
      rw [hend hnil, List.take_nil]

theorem take_fill (M : Contract R) (cx : Context) (t : Take R)
    (hinv : (take M limit total).Inv t) :
    (take M limit total).Fills t (pollFillBuf cx t) := by
  obtain ⟨r, l⟩ := t
  change (take M limit total).Fills _ (if l = 0 then _ else _)
  split
  · rename_i hzero
    obtain rfl : l = 0 := hzero
    refine ⟨⟨hinv, rfl, Nat.le_refl _⟩, fun bs h => ?_⟩
    cases h
    exact ⟨Nat.zero_le _, List.nil_prefix, fun _ => rfl⟩
  · rename_i hzero
    have h := M.fill cx r hinv.1
    dsimp only
    generalize pollFillBuf cx r = out at h
    rcases out with f | ⟨_ | e | bs, r'⟩
    · exact h.elim
    · exact ⟨take_moves hinv h.1 (Nat.zero_le _), fun bs h => by cases h⟩
    · exact ⟨take_moves hinv h.1 (Nat.zero_le _), fun bs h => by cases h⟩
    · obtain ⟨hheld, hfront, hend⟩ := h.2 bs rfl
      refine ⟨take_moves hinv h.1 (Nat.zero_le _), fun bs' h' => ?_⟩
      cases h'
      have hcut : bs.take (min bs.length l) = bs.take l := by
        rw [Nat.min_comm, ← List.take_take, List.take_length]
      rw [hcut]
      have hcut : bs.take l <+: (M.rest r').take l :=
        List.prefix_take_iff.mpr ⟨(List.take_prefix l bs).trans hfront, List.length_take_le ..⟩
      refine ⟨?_, hcut, fun hnil => ?_⟩
      · change _ ≤ min (M.held r') l
        rw [List.length_take]
        omega
      · change (M.rest r').take l = []
        rw [List.take_eq_nil_iff] at hnil
        rw [hend (hnil.resolve_left hzero), List.take_nil]

theorem take_consume (M : Contract R) (k : Nat) (t : Take R)
    (hinv : (take M limit total).Inv t) (hk : k ≤ (take M limit total).held t) :
    (take M limit total).Consumes t k (AsyncBufRead.consume k t) := by
  obtain ⟨r, l⟩ := t
  obtain ⟨hheld, hlimit⟩ := Nat.le_min.mp (show k ≤ min (M.held r) l from hk)
  have hlength : ((M.rest r).take k).length = k :=
    List.length_take_of_le (hheld.trans (M.held_le r hinv.1))
  have h := M.consume k r hinv.1 hheld
  change (take M limit total).Consumes _ k
    ((AsyncBufRead.consume (min k l) r).bind fun inner => .ok ⟨inner, l - min k l⟩)
  rw [Nat.min_eq_left hlimit]
  generalize AsyncBufRead.consume k r = out at h
  rcases out with f | r'
  · exact h.elim
  · have hmoves := take_moves (t := ⟨r, l⟩) hinv h (hlength.le.trans hlimit)
    rw [hlength] at hmoves
    change (take M limit total).Moves ⟨r, l⟩ ⟨r', l - k⟩ (((M.rest r).take l).take k)
    rwa [List.take_take, Nat.min_eq_left hlimit]

/-- `total` is what the inner reader has to come at first. -/
def Contract.take (M : Contract R) (limit total : Nat) : Contract (Take R) where
  toView := Nested.take M limit total
  held_le t hinv := by
    have hle := M.held_le t.inner hinv.1
    change min (M.held t.inner) t.limit ≤ ((M.rest t.inner).take t.limit).length
    rw [List.length_take]
    omega
  read := take_read M
  fill := take_fill M
  consume := take_consume M

end Take

/-! ## `Chain` -/

section Chain

variable {R1 R2 : Type} [AsyncRead R1] [AsyncBufRead R1] [AsyncRead R2] [AsyncBufRead R2]
  (M1 : Contract R1) (M2 : Contract R2)

def chain : View (Chain R1 R2) where
  Inv c := M1.Inv c.first ∧ M2.Inv c.second
  rest c := if c.doneFirst then M2.rest c.second else M1.rest c.first ++ M2.rest c.second
  held c := if c.doneFirst then M2.held c.second else M1.held c.first

variable {M1 M2} {first first' : R1} {second second' : R2} {bs : Data}

theorem chain_moves_first (h : M1.Moves first first' bs) (hinv : M2.Inv second) :
    (chain M1 M2).Moves ⟨first, second, false⟩ ⟨first', second, false⟩ bs where
  inv := ⟨h.inv, hinv⟩
  rest := by
    change M1.rest first ++ M2.rest second = bs ++ (M1.rest first' ++ M2.rest second)
    rw [h.rest, List.append_assoc]
  held := h.held

theorem chain_moves_second (h : M2.Moves second second' bs) (hinv : M1.Inv first) :
    (chain M1 M2).Moves ⟨first, second, true⟩ ⟨first, second', true⟩ bs where
  inv := ⟨hinv, h.inv⟩
  rest := h.rest
  held := h.held

/-- The first reader has come to its end. -/
theorem chain_moves_both (hend : M1.rest first = []) (hfirst : M1.Inv first) (hinv : M1.Inv first')
    (h : M2.Moves second second' bs) :
    (chain M1 M2).Moves ⟨first, second, false⟩ ⟨first', second', true⟩ bs where
  inv := ⟨hinv, h.inv⟩
  rest := by
    change M1.rest first ++ M2.rest second = bs ++ M2.rest second'
    rw [hend, List.nil_append, h.rest]
  held := by
    have hle := M1.held_le first hfirst
    rw [hend] at hle
    exact (hle.trans (Nat.zero_le _) : M1.held first ≤ _)

theorem chain_read (M1 : Contract R1) (M2 : Contract R2) (cx : Context) (len : Nat)
    (c : Chain R1 R2) (hinv : (chain M1 M2).Inv c) (hlen : 0 < len) :
    (chain M1 M2).Reads c len (pollRead cx len c) := by
  obtain ⟨first, second, done⟩ := c
  obtain ⟨hfirst, hsecond⟩ := hinv
  have h2 := M2.read cx len second hsecond hlen
  cases done with
  | true => exact h2.through (fun _ _ h => chain_moves_second h hfirst) id
  | false =>
    have h1 := M1.read cx len first hfirst hlen
    change (chain M1 M2).Reads _ len (Chain.pollWith _ _ _ _)
    rw [Chain.pollWith_first]
    generalize pollRead cx len first = out at h1
    rcases out with f | ⟨_ | e | bs, first'⟩
    · exact h1.elim
    · exact ⟨chain_moves_first h1.1 hsecond, fun bs h => by cases h⟩
    · exact ⟨chain_moves_first h1.1 hsecond, fun bs h => by cases h⟩
    · obtain ⟨hle, hend⟩ := h1.2 bs rfl
      have hlen : (len != 0) = true := bne_iff_ne.mpr (Nat.ne_of_gt hlen)
      change (chain M1 M2).Reads _ len (if (bs.length == 0 && len != 0) then _ else _)
      rw [hlen, Bool.and_true]
      split
      · rename_i hzero
        have hrest := hend (List.length_eq_zero_iff.mp (beq_iff_eq.mp hzero))
        refine h2.through (fun _ _ h => chain_moves_both hrest hfirst h1.1.inv h) fun h => ?_
        change M1.rest first ++ M2.rest second = []
        rw [hrest, h, List.append_nil]
      · rename_i hzero
        refine ⟨chain_moves_first h1.1 hsecond, fun bs' h => ?_⟩
        cases h
        refine ⟨hle, fun hnil => absurd ?_ hzero⟩
        rw [hnil]
        rfl

theorem chain_fill (M1 : Contract R1) (M2 : Contract R2) (cx : Context) (c : Chain R1 R2)
    (hinv : (chain M1 M2).Inv c) : (chain M1 M2).Fills c (pollFillBuf cx c) := by
  obtain ⟨first, second, done⟩ := c
  obtain ⟨hfirst, hsecond⟩ := hinv
  have h2 := M2.fill cx second hsecond
  cases done with
  | true =>
    exact h2.through (fun _ h => chain_moves_second h hfirst) (fun _ => rfl) fun _ => rfl
  | false =>
    have h1 := M1.fill cx first hfirst
    change (chain M1 M2).Fills _ (Chain.pollWith _ _ _ _)
    rw [Chain.pollWith_first]
    generalize pollFillBuf cx first = out at h1
    rcases out with f | ⟨_ | e | bs, first'⟩
    · exact h1.elim
    · exact ⟨chain_moves_first h1.1 hsecond, fun bs h => by cases h⟩
    · exact ⟨chain_moves_first h1.1 hsecond, fun bs h => by cases h⟩
    · obtain ⟨hheld, hfront, hend⟩ := h1.2 bs rfl
      cases bs with
      | nil =>
        have hrest : M1.rest first = [] := h1.1.rest.trans (hend rfl)
        exact h2.through (fun _ h => chain_moves_both hrest hfirst h1.1.inv h) (fun _ => rfl)
          fun _ => rfl
      | cons b bs =>
        refine ⟨chain_moves_first h1.1 hsecond, fun bs' h => ?_⟩
        cases h
        exact ⟨hheld, hfront.trans (List.prefix_append ..), fun h => by cases h⟩

theorem chain_consume (M1 : Contract R1) (M2 : Contract R2) (k : Nat) (c : Chain R1 R2)
    (hinv : (chain M1 M2).Inv c) (hk : k ≤ (chain M1 M2).held c) :
    (chain M1 M2).Consumes c k (AsyncBufRead.consume k c) := by
  obtain ⟨first, second, done⟩ := c
  obtain ⟨hfirst, hsecond⟩ := hinv
  cases done with
  | true =>
    have h := M2.consume k second hsecond hk
    change (chain M1 M2).Consumes _ k ((AsyncBufRead.consume k second).bind _)
    generalize AsyncBufRead.consume k second = out at h
    rcases out with f | second'
    · exact h.elim
    · exact chain_moves_second h hfirst
  | false =>
    have h := M1.consume k first hfirst hk
    change (chain M1 M2).Consumes _ k ((AsyncBufRead.consume k first).bind _)
    generalize AsyncBufRead.consume k first = out at h
    rcases out with f | first'
    · exact h.elim
    · have hle : k ≤ (M1.rest first).length := Nat.le_trans hk (M1.held_le first hfirst)
      change (chain M1 M2).Moves _ _ ((M1.rest first ++ M2.rest second).take k)
      rw [List.take_append_of_le_length hle]
      exact chain_moves_first h hsecond

def Contract.chain (M1 : Contract R1) (M2 : Contract R2) : Contract (Chain R1 R2) where
  toView := Nested.chain M1 M2
  held_le c hinv := by
    obtain ⟨first, second, done⟩ := c
    cases done with
    | true => exact M2.held_le second hinv.2
    | false =>
      have hle := M1.held_le first hinv.1
      change M1.held first ≤ (M1.rest first ++ M2.rest second).length
      rw [List.length_append]
      exact Nat.le_add_right_of_le hle
  read := chain_read M1 M2
  fill := chain_fill M1 M2
  consume := chain_consume M1 M2

end Chain

/-! ## `BufferReader` -/

section Buffered

variable {R : Type} [AsyncRead R] [AsyncBufRead R] (M : Contract R)

def buffered : View (BufferReader R) where
  Inv b := M.Inv b.inner ∧ b.pos ≤ b.cap ∧ b.cap ≤ b.buf.length ∧ 0 < b.buf.length ∧
    b.buf.length < 2 ^ 64
  rest b := b.buffer ++ M.rest b.inner
  held b := b.cap - b.pos

variable {M} {b : BufferReader R} {inner : R} {bs : Data}

theorem buffer_length (hinv : (buffered M).Inv b) : b.buffer.length = b.cap - b.pos := by
  obtain ⟨-, -, hcap, -, -⟩ := hinv
  rw [BufferReader.buffer, List.length_drop, List.length_take_of_le hcap]

theorem buffered_held_le (hinv : (buffered M).Inv b) :
    (buffered M).held b ≤ ((buffered M).rest b).length := by
  change b.cap - b.pos ≤ (b.buffer ++ M.rest b.inner).length
  rw [List.length_append, buffer_length hinv]
  exact Nat.le_add_right ..

/-- Nothing is buffered. -/
theorem rest_of_empty (hempty : b.cap ≤ b.pos) : (buffered M).rest b = M.rest b.inner := by
  change (b.buf.take b.cap).drop b.pos ++ M.rest b.inner = _
  rw [List.drop_eq_nil_of_le ((List.length_take_le ..).trans hempty), List.nil_append]

theorem buffered_consume {k : Nat} (hinv : (buffered M).Inv b) (hk : k ≤ (buffered M).held b) :
    (buffered M).Moves b (b.consume k) (((buffered M).rest b).take k) := by
  have hlength := buffer_length hinv
  obtain ⟨hinner, hpos, hcap, hne, hfits⟩ := hinv
  have hk : k ≤ b.cap - b.pos := hk
  have hmod : min ((b.pos + k) % 2 ^ 64) b.cap = b.pos + k := by
    rw [Nat.mod_eq_of_lt (by omega), Nat.min_eq_left (by omega)]
  have htake : ((buffered M).rest b).take k = b.buffer.take k :=
    List.take_append_of_le_length (hk.trans_eq hlength.symm)
  have hrest : (b.consume k).buffer = b.buffer.drop k := by
    rw [BufferReader.buffer, BufferReader.buffer, List.drop_drop, BufferReader.consume, hmod]
  rw [htake]
  constructor
  · exact ⟨hinner, Nat.min_le_right .., hcap, hne, hfits⟩
  · change b.buffer ++ M.rest b.inner = _ ++ ((b.consume k).buffer ++ M.rest b.inner)
    rw [hrest, ← List.append_assoc, List.take_append_drop]
  · change b.cap - b.pos ≤ b.cap - min ((b.pos + k) % 2 ^ 64) b.cap + _
    rw [hmod, List.length_take_of_le (hk.trans_eq hlength.symm)]
    omega

/-- What is buffered is handed out. -/
theorem buffered_slice (hinv : (buffered M).Inv b) :
    b.slice = .ok (.ready (.ok b.buffer), b) := if_pos ⟨hinv.2.1, hinv.2.2.1⟩

/-- The inner reader has filled the buffer. -/
theorem buffered_filled (hinv : (buffered M).Inv b) (hempty : b.cap ≤ b.pos)
    (h : M.Moves b.inner inner bs) (hle : bs.length ≤ b.buf.length) :
    (buffered M).Moves b (BufferReader.filled { b with inner } bs) [] ∧
      (BufferReader.filled { b with inner } bs).buffer = bs := by
  obtain ⟨-, -, -, hne, hfits⟩ := hinv
  have hlength : (bs.take b.buf.length ++ b.buf.drop bs.length).length = b.buf.length := by
    rw [List.length_append, List.length_take, List.length_drop]
    omega
  have hbuffer : (BufferReader.filled { b with inner } bs).buffer = bs := by
    change ((bs.take b.buf.length ++ b.buf.drop bs.length).take bs.length).drop 0 = bs
    rw [List.take_of_length_le hle, List.take_left, List.drop_zero]
  refine ⟨⟨⟨h.inv, Nat.zero_le _, ?_, ?_, ?_⟩, ?_, ?_⟩, hbuffer⟩
  · exact hle.trans_eq hlength.symm
  · exact hne.trans_eq hlength.symm
  · exact hlength.trans_lt hfits
  · rw [rest_of_empty hempty, h.rest]
    change bs ++ M.rest inner = (BufferReader.filled { b with inner } bs).buffer ++ M.rest inner
    rw [hbuffer]
  · change b.cap - b.pos ≤ _
    omega

/-- The inner reader has given nothing. -/
theorem buffered_idle (hinv : (buffered M).Inv b) (hempty : b.cap ≤ b.pos)
    (h : M.Moves b.inner inner []) : (buffered M).Moves b { b with inner } [] where
  inv := ⟨h.inv, hinv.2⟩
  rest := by
    rw [rest_of_empty hempty, rest_of_empty (b := { b with inner }) hempty]
    exact h.rest
  held := Nat.le_refl _

/-- It has been read from past the buffer. -/
theorem buffered_direct (hinv : (buffered M).Inv b) (hempty : b.cap ≤ b.pos)
    (h : M.Moves b.inner inner bs) :
    (buffered M).Moves b (BufferReader.discardBuffer { b with inner }) bs where
  inv := ⟨h.inv, Nat.le_refl _, Nat.zero_le _, hinv.2.2.2⟩
  rest := by
    rw [rest_of_empty hempty, h.rest]
    exact congrArg (bs ++ ·) (rest_of_empty (b := ⟨inner, b.buf, 0, 0⟩) (Nat.le_refl 0)).symm
  held := by
    change b.cap - b.pos ≤ _
    omega

theorem buffered_fill (M : Contract R) (cx : Context) (b : BufferReader R)
    (hinv : (buffered M).Inv b) : (buffered M).Fills b (pollFillBuf cx b) := by
  have hlength := buffer_length hinv
  change (buffered M).Fills b (if b.pos ≥ b.cap then _ else _)
  split
  · rename_i hempty
    have h := M.read cx b.buf.length b.inner hinv.1 hinv.2.2.2.1
    generalize pollRead cx b.buf.length b.inner = out at h
    rcases out with f | ⟨_ | e | bs, inner⟩
    · exact h.elim
    · exact ⟨buffered_idle hinv hempty h.1, fun bs h => by cases h⟩
    · exact ⟨buffered_idle hinv hempty h.1, fun bs h => by cases h⟩
    · obtain ⟨hle, hend⟩ := h.2 bs rfl
      have hinner : M.Moves b.inner inner bs := h.1
      obtain ⟨hmoves, hbuffer⟩ := buffered_filled hinv hempty hinner hle
      have hlength := buffer_length hmoves.inv
      change (buffered M).Fills b (BufferReader.slice (BufferReader.filled { b with inner } bs))
      rw [buffered_slice hmoves.inv, hbuffer]
      rw [hbuffer] at hlength
      refine ⟨hmoves, fun bs' h' => ?_⟩
      cases h'
      refine ⟨hlength.le, ?_, fun hnil => ?_⟩
      · change bs <+: BufferReader.buffer _ ++ _
        rw [hbuffer]
        exact List.prefix_append ..
      · rw [← hmoves.rest.trans (List.nil_append _), rest_of_empty hempty, hend hnil]
  · rename_i hheld
    rw [buffered_slice hinv]
    refine ⟨⟨hinv, rfl, Nat.le_refl _⟩, fun bs h => ?_⟩
    cases h
    refine ⟨hlength.le, List.prefix_append .., fun hnil => ?_⟩
    rw [hnil] at hlength
    exact absurd hlength (by rw [List.length_nil]; omega)

/-- A read out of the buffer: it is filled, and what goes into `len` bytes is consumed. -/
theorem buffered_read (M : Contract R) (cx : Context) (len : Nat) (b : BufferReader R)
    (hinv : (buffered M).Inv b) (hlen : 0 < len) :
    (buffered M).Reads b len (pollRead cx len b) := by
  change (buffered M).Reads b len (if b.pos = b.cap ∧ len ≥ b.buf.length then _ else _)
  split
  · rename_i hdirect
    have hempty : b.cap ≤ b.pos := Nat.le_of_eq hdirect.1.symm
    have h := M.read cx len b.inner hinv.1 hlen
    generalize pollRead cx len b.inner = out at h
    rcases out with f | ⟨_ | e | bs, inner⟩
    · exact h.elim
    · exact ⟨buffered_idle hinv hempty h.1, fun bs h => by cases h⟩
    · exact ⟨buffered_direct hinv hempty h.1, fun bs h => by cases h⟩
    · refine ⟨buffered_direct hinv hempty h.1, fun bs' h' => ?_⟩
      obtain ⟨hle, hend⟩ := h.2 bs' h'
      exact ⟨hle, fun hnil => (rest_of_empty hempty).trans (hend hnil)⟩
  · have h := buffered_fill M cx b hinv
    change (buffered M).Reads b len (readyOk (pollFillBuf cx b) id _)
    generalize pollFillBuf cx b = out at h
    rcases out with f | ⟨_ | e | rem, b'⟩
    · exact h.elim
    · exact ⟨h.1, fun bs h => by cases h⟩
    · exact ⟨h.1, fun bs h => by cases h⟩
    · obtain ⟨hheld, hfront, hend⟩ := h.2 rem rfl
      have hmoves : (buffered M).Moves b b' [] := h.1
      have hk : (rem.take len).length ≤ (buffered M).held b' :=
        (List.length_take_le' ..).trans hheld
      have htaken : ((buffered M).rest b').take (rem.take len).length = rem.take len :=
        (List.prefix_iff_eq_take.mp ((List.take_prefix len rem).trans hfront)).symm
      have hconsume := buffered_consume hmoves.inv hk
      rw [htaken] at hconsume
      refine ⟨hmoves.trans hconsume, fun bs' h' => ?_⟩
      cases h'
      refine ⟨List.length_take_le .., fun hnil => ?_⟩
      rw [List.take_eq_nil_iff] at hnil
      rw [hmoves.rest, hend (hnil.resolve_left (Nat.ne_of_gt hlen)), List.append_nil]

def Contract.buffered (M : Contract R) : Contract (BufferReader R) where
  toView := Nested.buffered M
  held_le _ := buffered_held_le
  read := buffered_read M
  fill := buffered_fill M
  consume _ _ := buffered_consume

end Buffered

/-! ## Expressions -/

open Swap.BufferReader (Capacity)

inductive Expr : Type 1 where
  | source {R : Type} [AsyncRead R] [AsyncBufRead R] (M : Contract R) (r : R) (h : M.Inv r)
  | take (e : Expr) (limit : Nat)
  | chain (e e' : Expr)
  | buffered (e : Expr) (capacity : Capacity) (h : 0 < capacity.val)

/-- The list that an expression stands for. -/
def Expr.denote : Expr → Data
  | @source _ _ _ M r _ => M.rest r
  | .take e limit => e.denote.take limit
  | .chain e e' => e.denote ++ e'.denote
  | .buffered e _ _ => e.denote

/-- A reader at its start, and its contract. -/
structure Readable : Type 1 where
  R : Type
  [read : AsyncRead R]
  [bufRead : AsyncBufRead R]
  contract : Contract R
  init : R
  inv : contract.Inv init

attribute [instance] Readable.read Readable.bufRead

def Readable.take (i : Readable) (limit : Nat) : Readable where
  R := Take i.R
  contract := i.contract.take limit (i.contract.rest i.init).length
  init := AsyncIo.take i.init limit
  inv := ⟨i.inv, Nat.le_refl _, by
    change _ = _ + (limit - limit)
    rw [Nat.sub_self]
    rfl⟩

def Readable.chain (i j : Readable) : Readable where
  R := Chain i.R j.R
  contract := i.contract.chain j.contract
  init := AsyncIo.chain i.init j.init
  inv := ⟨i.inv, j.inv⟩

def Readable.buffered (i : Readable) (capacity : Capacity) (h : 0 < capacity.val) : Readable where
  R := BufferReader i.R
  contract := i.contract.buffered
  init := .withCapacity capacity.val i.init
  inv := by
    have hlength : (List.replicate capacity.val (0 : UInt8)).length = capacity.val :=
      List.length_replicate
    have hfits := capacity.fits
    refine ⟨i.inv, Nat.le_refl 0, Nat.zero_le _, h.trans_eq hlength.symm, hlength.trans_lt ?_⟩
    omega

def Expr.readable : Expr → Readable
  | @source _ _ _ M r h => ⟨_, M, r, h⟩
  | .take e limit => e.readable.take limit
  | .chain e e' => e.readable.chain e'.readable
  | .buffered e capacity h => e.readable.buffered capacity h

theorem Expr.rest_init (e : Expr) : e.readable.contract.rest e.readable.init = e.denote := by
  induction e with
  | source => rfl
  | take e limit ih => exact congrArg (List.take limit) ih
  | chain e e' ih ih' => exact congrArg₂ (· ++ ·) ih ih'
  | buffered e capacity h ih => exact (rest_of_empty (Nat.le_refl 0)).trans ih

/-- What every `Take` has taken from its inner reader is within its limit. -/
def Expr.WithinLimits : (e : Expr) → e.readable.R → Prop
  | @source .., _ => True
  | .take e limit, (t : Take e.readable.R) =>
    e.denote.length ≤ (e.readable.contract.rest t.inner).length + limit ∧ e.WithinLimits t.inner
  | .chain e e', (c : Chain e.readable.R e'.readable.R) =>
    e.WithinLimits c.first ∧ e'.WithinLimits c.second
  | .buffered e _ _, (b : BufferReader e.readable.R) => e.WithinLimits b.inner

theorem Expr.withinLimits_of_inv (e : Expr) (r : e.readable.R) (h : e.readable.contract.Inv r) :
    e.WithinLimits r := by
  induction e with
  | source => trivial
  | take e limit ih =>
    obtain ⟨hinner, -, htotal⟩ := h
    refine ⟨?_, ih _ hinner⟩
    rw [← e.rest_init, htotal]
    omega
  | chain e e' ih ih' => exact ⟨ih _ h.1, ih' _ h.2⟩
  | buffered e capacity hpos ih => exact ih _ h.1

/-! ## Runs -/

inductive Call where
  /-- `poll_read` with room for `len` bytes. -/
  | read (cx : Context) (len : Nat)
  | fill (cx : Context)
  | consume (amt : Nat)
  deriving DecidableEq

structure State (R : Type) where
  reader : R
  /-- What is left of the last slice that `poll_fill_buf` has returned. -/
  slice : Data
  /-- The bytes that have been read or consumed. -/
  delivered : Data

/-- Room for a byte, and no more consumed than was returned. -/
def Permitted {R : Type} (s : State R) : Call → Prop
  | .read _ len => 0 < len
  | .fill _ => True
  | .consume amt => amt ≤ s.slice.length

instance {R : Type} (s : State R) : ∀ c, Decidable (Permitted s c)
  | .read _ len => inferInstanceAs (Decidable (0 < len))
  | .fill _ => inferInstanceAs (Decidable True)
  | .consume amt => inferInstanceAs (Decidable (amt ≤ s.slice.length))

section Runs

variable {R : Type} [AsyncRead R] [AsyncBufRead R]

/-- `consume` returns nothing. -/
def call (s : State R) : Call → Except Fault (Option (Poll (Result Data)) × State R)
  | .read cx len => do
    let (res, reader) ← pollRead cx len s.reader
    let bs := given res
    pure (some res, ⟨reader, s.slice.drop bs.length, s.delivered ++ bs⟩)
  | .fill cx => do
    let (res, reader) ← pollFillBuf cx s.reader
    match res with
    | .ready (.ok slice) => pure (some res, { s with reader, slice })
    | _ => pure (some res, { s with reader })
  | .consume amt => do
    let reader ← AsyncBufRead.consume amt s.reader
    pure (none, ⟨reader, s.slice.drop amt, s.delivered ++ s.slice.take amt⟩)

def system (init : R) : System (State R) Call where
  init := ⟨init, [], []⟩
  step s c := match call s c with
    | .ok (_, t) => some t
    | .error _ => none

/-- What has been delivered and what is still to come are all the bytes. -/
structure Inv (M : Contract R) (all : Data) (s : State R) : Prop where
  inv : M.Inv s.reader
  all : all = s.delivered ++ M.rest s.reader
  slice : s.slice <+: M.rest s.reader
  held : s.slice.length ≤ M.held s.reader

variable {M : Contract R} {all bs : Data} {s t : State R} {reader : R} {c : Call}
  {ret : Option (Poll (Result Data))}

/-- Bytes are delivered, and the slice is cut. -/
theorem Inv.delivers (h : Inv M all s) (hmoves : M.Moves s.reader reader bs) :
    Inv M all ⟨reader, s.slice.drop bs.length, s.delivered ++ bs⟩ where
  inv := hmoves.inv
  all := by rw [h.all, hmoves.rest, List.append_assoc]
  slice := by
    have hdrop := h.slice.drop bs.length
    rwa [hmoves.rest, List.drop_left] at hdrop
  held := by
    have hheld := h.held
    have hheld' := hmoves.held
    rw [List.length_drop]
    dsimp only
    omega

theorem call_spec (h : Inv M all s) (hc : Permitted s c) :
    ∃ ret t, call s c = .ok (ret, t) ∧ Inv M all t ∧
      (ret = some (.ready (.ok [])) → t.delivered = all) := by
  cases c with
  | read cx len =>
    have hread := M.read cx len s.reader h.inv hc
    rw [call]
    generalize pollRead cx len s.reader = out at hread
    rcases out with f | ⟨res, reader⟩
    · exact hread.elim
    · obtain ⟨hmoves, hend⟩ := hread
      have hnext := h.delivers hmoves
      refine ⟨_, _, rfl, hnext, fun hret => ?_⟩
      obtain rfl := Option.some.inj hret
      have hnil := (hend [] rfl).2 rfl
      rw [hmoves.rest, given, List.nil_append] at hnil
      rw [hnext.all, hnil, List.append_nil]
  | fill cx =>
    have hfill := M.fill cx s.reader h.inv
    rw [call]
    generalize pollFillBuf cx s.reader = out at hfill
    rcases out with f | ⟨res, reader⟩
    · exact hfill.elim
    · obtain ⟨hmoves, hend⟩ := hfill
      have hnext := h.delivers hmoves
      rw [List.length_nil, List.drop_zero, List.append_nil] at hnext
      rcases res with _ | e | bs
      · exact ⟨_, _, rfl, hnext, fun hret => by cases hret⟩
      · exact ⟨_, _, rfl, hnext, fun hret => by cases hret⟩
      · obtain ⟨hheld, hfront, hnil⟩ := hend bs rfl
        refine ⟨_, _, rfl, ⟨hnext.inv, hnext.all, hfront, hheld⟩, fun hret => ?_⟩
        cases hret
        rw [hnext.all, hnil rfl, List.append_nil]
  | consume amt =>
    have hamt : amt ≤ s.slice.length := hc
    have hconsume := M.consume amt s.reader h.inv (hamt.trans h.held)
    have htake : (M.rest s.reader).take amt = s.slice.take amt := by
      rw [List.prefix_iff_eq_take.mp h.slice, List.take_take, Nat.min_eq_left hamt]
    rw [call]
    generalize AsyncBufRead.consume amt s.reader = out at hconsume
    rcases out with f | reader
    · exact hconsume.elim
    · have hmoves : M.Moves s.reader reader (s.slice.take amt) := htake ▸ hconsume
      have hnext := h.delivers hmoves
      rw [List.length_take_of_le hamt] at hnext
      exact ⟨_, _, rfl, hnext, fun hret => by cases hret⟩

theorem inv_of_reachable {init : R} (hinit : M.Inv init)
    (hs : (system init).ReachableVia Permitted s) : Inv M (M.rest init) s := by
  refine hs.invariant ⟨hinit, rfl, List.nil_prefix, Nat.zero_le _⟩ fun s c t hc h ht => ?_
  obtain ⟨ret, t', hcall, hnext, -⟩ := call_spec h hc
  have hstep : (system init).step s c = some t' := by
    simp only [system, hcall]
  rw [hstep] at ht
  cases ht
  exact hnext

end Runs

/-- Whatever is called, an expression delivers the bytes of its list in their order, and all of
them before its first empty result. No call fails, so no limit falls below zero, and no
`Take` takes more from its inner reader than its limit. -/
theorem nested_readers_mean_lists (e : Expr) (s : State e.readable.R)
    (hs : (system e.readable.init).ReachableVia Permitted s) :
    s.delivered <+: e.denote ∧ e.WithinLimits s.reader ∧
      ∀ c, Permitted s c → ∃ ret t, call s c = .ok (ret, t) ∧
        (ret = some (.ready (.ok [])) → t.delivered = e.denote) := by
  have h := inv_of_reachable e.readable.inv hs
  rw [e.rest_init] at h
  refine ⟨⟨_, h.all.symm⟩, e.withinLimits_of_inv _ h.inv, fun c hc => ?_⟩
  obtain ⟨ret, t, hcall, -, hend⟩ := call_spec h hc
  exact ⟨ret, t, hcall, hend⟩

/-- Four of the bytes 1, 2, 3, 4, 5. The last three come through a buffer of two bytes. -/
def fourOfFive : Expr :=
  .take (.chain (.source eventsContract [.chunk 1 [2]] trivial)
    (.buffered (.source eventsContract [.pending, .chunk 3 [4, 5]] trivial) ⟨2, by decide⟩
      (by decide))) 4

theorem nested_readers_mean_lists_four : ∃ s : State fourOfFive.readable.R,
    s.delivered = [1, 2, 3, 4] ∧ s.delivered <+: fourOfFive.denote ∧
      fourOfFive.WithinLimits s.reader := by
  obtain ⟨s, hs, hdelivered⟩ := (system fourOfFive.readable.init).exists_of_runVia Permitted
    (P := fun s => s.delivered = [1, 2, 3, 4])
    [.fill ⟨0, 0⟩, .consume 1, .read ⟨0, 0⟩ 8, .fill ⟨0, 0⟩, .fill ⟨0, 0⟩, .consume 1,
      .read ⟨0, 0⟩ 8]
    (by decide)
  have h := nested_readers_mean_lists fourOfFive s hs
  exact ⟨s, hdelivered, h.1, h.2.1⟩

end Cynthia.AsyncIo.Nested
