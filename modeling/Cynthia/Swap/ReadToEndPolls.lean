import Cynthia.Lib.Transition
import Cynthia.Swap.Futures

/-! `ReadToEndFuture` of `future/swap.rs` from poll to poll: what its vector holds, whatever
the reader answers. -/

namespace Cynthia.AsyncIo.ReadToEnd

open Polling Transition

open Swap.ReadToEnd (Allocator Vec Guard)

open Swap.ReadToEnd.Guard (makeRoom_spec)

open Swap.ReadToEnd.Vec (fill_spec)

variable {R : Type} [AsyncRead R]

/-- A read gives no more bytes than the slice has room for. -/
def Bounded (R : Type) [AsyncRead R] : Prop :=
  ∀ (cx : Context) (len : Nat) (this this' : R) (bs : Data),
    pollRead cx len this = .ok (.ready (.ok bs), this') → bs.length ≤ len

/-- The bytes in front of `g.len` are the first ones and those that have been read. -/
structure Holds (init : Data) (s : Asked R × Guard) : Prop where
  le : s.2.len ≤ s.2.buf.data.length
  front : s.2.buf.data.take s.2.len = init ++ taken s.1.asks
  rooms : ∀ ask ∈ s.1.asks, 0 < ask.room

/-- The last request has reported the end of the file. -/
def AtEof (asks : List Ask) : Prop :=
  ∃ room before, asks = before ++ [⟨room, .ready (.ok [])⟩]

/-- What a call may come to, if it starts with the bytes `init`. -/
def Comes (cx : Context) (init : Data) : Outcome (Asked R × Guard) (Result Nat) → Prop
  | .ok (res, s) => Holds init s ∧
      ∀ n, res = .ready (.ok n) → AtEof s.1.asks ∧ n = (taken s.1.asks).length
  | .error f => f = .diverges ∨ ∃ len this, pollRead cx len (this : R) = .error f

section Loop

variable {a : Allocator} {cx : Context} {init : Data} {rd : Asked R} {g : Guard}

omit [AsyncRead R] in
theorem Holds.length (h : Holds init (rd, g)) : g.len = init.length + (taken rd.asks).length := by
  rw [← List.length_append, ← h.front, List.length_take, Nat.min_eq_left h.le]

omit [AsyncRead R] in
theorem Holds.asked {answer : Poll (Result Data)} {room : Nat} {inner : R} {g' : Guard}
    (h : Holds init (rd, g)) (hroom : 0 < room) (hle : g'.len ≤ g'.buf.data.length)
    (hfront : g'.buf.data.take g'.len = g.buf.data.take g.len ++ given answer) :
    Holds init (⟨inner, rd.asks ++ [⟨room, answer⟩]⟩, g') where
  le := hle
  front := by
    rw [hfront, h.front, taken_append, List.append_assoc]
  rooms := by
    intro ask hmem
    rcases List.mem_append.mp hmem with hmem | hmem
    · exact h.rooms ask hmem
    · rw [List.mem_singleton.mp hmem]
      exact hroom

theorem loop_comes (hb : Bounded R) (fuel : Nat) (h : Holds init (rd, g)) :
    Comes cx init (readToEndLoop a cx init.length fuel (rd, g)) := by
  induction fuel generalizing rd g with
  | zero => exact .inl rfl
  | succ fuel ih =>
    obtain ⟨hlen, hroom, htake⟩ := makeRoom_spec (a := a) h.le
    rw [readToEndLoop]
    generalize g.makeRoom a = g' at hlen hroom htake
    rw [← hlen] at hroom
    rw [if_pos (Nat.le_of_lt hroom)]
    have hpos : 0 < g'.buf.data.length - g'.len := Nat.sub_pos_of_lt hroom
    change Comes cx init (readyOk (rd.record (g'.buf.data.length - g'.len)
      (pollRead cx (g'.buf.data.length - g'.len) rd.inner)) _ _)
    generalize hk : g'.buf.data.length - g'.len = room at hpos
    -- Nothing has been read: the vector has at most been extended.
    have hnone : ∀ answer (inner : R), given answer = [] →
        Holds init (⟨inner, rd.asks ++ [⟨room, answer⟩]⟩, g') := by
      intro answer inner hgiven
      refine h.asked hpos (Nat.le_of_lt hroom) ?_
      rw [hlen, htake, hgiven, List.append_nil]
    cases hread : pollRead cx room rd.inner with
    | error f => exact .inr ⟨room, rd.inner, hread⟩
    | ok p =>
      rcases p with ⟨_ | e | bs, inner⟩
      · exact ⟨hnone .pending inner rfl, fun n hn => (by cases hn)⟩
      · exact ⟨hnone (.ready (.error e)) inner rfl, fun n hn => (by cases hn)⟩
      · have hbs := hb cx room rd.inner inner bs hread
        have hfits : g'.len + bs.length ≤ g'.buf.data.length := by omega
        obtain ⟨hlength, hfront⟩ := fill_spec hfits
        have hnext : Holds init (⟨inner, rd.asks ++ [⟨room, .ready (.ok bs)⟩]⟩,
            ⟨g'.buf.fill g'.len bs, g'.len + bs.length⟩) :=
          h.asked hpos (hfits.trans_eq hlength.symm) (by rw [hfront, hlen, htake]; rfl)
        change Comes cx init (if bs.length = 0 then _ else _)
        split
        · rename_i hzero
          have hle : init.length ≤ g'.len := by
            rw [hlen, h.length]
            exact Nat.le_add_right ..
          rw [if_pos hle]
          rw [hzero, Nat.add_zero] at hnext
          obtain rfl := List.length_eq_zero_iff.mp hzero
          refine ⟨hnext, fun n hn => ⟨⟨room, rd.asks, rfl⟩, ?_⟩⟩
          cases hn
          rw [hnext.length]
          exact Nat.add_sub_cancel_left ..
        · exact ih hnext

end Loop

/-! ## Polls of the future -/

/-- A poll is labelled with its context. -/
def step (a : Allocator) (s : ReadToEndFuture (Asked R)) (cx : Context) :
    Option (ReadToEndFuture (Asked R)) :=
  match s.poll a cx with
  | .ok (_, t) => some t
  | .error _ => none

def system (a : Allocator) (reader : R) (buf : Vec) :
    System (ReadToEndFuture (Asked R)) Context := ⟨readToEnd (asked reader) buf, step a⟩

/-- No padding is left in the vector, and no read was into an empty slice. -/
structure Exact (init : Data) (s : ReadToEndFuture (Asked R)) : Prop where
  data : s.buf.data = init ++ taken s.reader.asks
  rooms : ∀ ask ∈ s.reader.asks, 0 < ask.room
  startLen : s.startLen = init.length

section Polls

variable {a : Allocator} {cx : Context} {init : Data} {s t : ReadToEndFuture (Asked R)}
  {res : Poll (Result Nat)} {f : Fault}

omit [AsyncRead R] in
theorem Exact.holds (h : Exact init s) : Holds init (s.reader, ⟨s.buf, s.buf.data.length⟩) :=
  ⟨Nat.le_refl _, (List.take_length ..).trans h.data, h.rooms⟩

theorem poll_ok (hb : Bounded R) (h : Exact init s) (hpoll : s.poll a cx = .ok (res, t)) :
    Exact init t ∧
      ∀ n, res = .ready (.ok n) → AtEof t.reader.asks ∧ n = (taken t.reader.asks).length := by
  obtain ⟨⟨rd, buf⟩, hcall, rfl⟩ := through_cases hpoll
  obtain ⟨⟨rd, g⟩, hloop, heq⟩ := through_cases hcall
  obtain ⟨rfl, rfl⟩ := Prod.mk.inj heq
  rw [h.startLen] at hloop
  have hcomes : Comes cx init (readToEndLoop a cx init.length cx.fuel _) :=
    loop_comes hb cx.fuel h.holds
  rw [hloop] at hcomes
  obtain ⟨hnext, hres⟩ := hcomes
  refine ⟨⟨?_, hnext.rooms, h.startLen⟩, hres⟩
  dsimp only [Vec.resize]
  rw [Nat.sub_eq_zero_of_le hnext.le, List.replicate_zero, List.append_nil]
  exact hnext.front

theorem poll_error (hb : Bounded R) (h : Exact init s) (hpoll : s.poll a cx = .error f) :
    f = .diverges ∨ ∃ len this, pollRead cx len (this : R) = .error f := by
  have hloop := through_error (through_error hpoll)
  rw [h.startLen] at hloop
  have hcomes : Comes cx init (readToEndLoop a cx init.length cx.fuel _) :=
    loop_comes hb cx.fuel h.holds
  rwa [hloop] at hcomes

theorem exact_of_reachable {reader : R} {buf : Vec} (hb : Bounded R)
    (hs : (system a reader buf).Reachable s) : Exact buf.data s := by
  refine hs.invariant ⟨(List.append_nil _).symm, fun _ hmem => (by cases hmem), rfl⟩ ?_
  intro s cx t h ht
  simp only [system, step] at ht
  split at ht
  · rename_i hpoll
    cases ht
    exact (poll_ok hb h hpoll).1
  · cases ht

end Polls

/-- After every poll the vector is exact. It is ready with a number only behind the end of
the file, and the number is that of all bytes read. Only the reader makes it panic. -/
theorem read_to_end_exact (a : Allocator) (reader : R) (buf : Vec) (hb : Bounded R)
    (s : ReadToEndFuture (Asked R)) (hs : (system a reader buf).Reachable s) :
    Exact buf.data s ∧
      (∀ cx n t, s.poll a cx = .ok (.ready (.ok n), t) →
        AtEof t.reader.asks ∧ n = (taken t.reader.asks).length) ∧
      ∀ cx f, s.poll a cx = .error f →
        f = .diverges ∨ ∃ len this, pollRead cx len (this : R) = .error f := by
  have h := exact_of_reachable hb hs
  exact ⟨h, fun cx n t hpoll => (poll_ok hb h hpoll).2 n rfl,
    fun cx f hpoll => poll_error hb h hpoll⟩

theorem bounded_events : Bounded Swap.ReadUntil.Reader := by
  intro cx len this this' bs h
  change Except.ok (answer (Swap.ReadToEnd.pollRead this len).2, _) = _ at h
  rcases this with _ | ⟨_ | e | ⟨b, bs'⟩, es⟩
  · cases h
    exact Nat.zero_le len
  · cases h
  · rcases e with _ | _ | _ <;> cases h
  · cases h
    exact List.length_take_le ..

/-- A vector that takes the room it is asked for. -/
def tight : Allocator := ⟨fun _ needed => needed, fun _ _ => Nat.le_refl _⟩

/-- A chunk and `Pending`, read to a vector with two bytes. -/
theorem read_to_end_exact_pending :
    ∃ s, (system tight ([.chunk 1 [2], .pending, .chunk 3 []] : Swap.ReadUntil.Reader)
      ⟨[8, 9], 2, Nat.le_refl 2⟩).Reachable s ∧
      taken s.reader.asks = [1, 2] ∧ Exact [8, 9] s := by
  have hs := System.Reachable.next (M := system tight
    ([.chunk 1 [2], .pending, .chunk 3 []] : Swap.ReadUntil.Reader) ⟨[8, 9], 2, Nat.le_refl 2⟩)
    (a := ⟨0, 9⟩) System.ReachableVia.init rfl
  exact ⟨_, hs, rfl, (read_to_end_exact tight _ _ bounded_events _ hs).1⟩

end Cynthia.AsyncIo.ReadToEnd
