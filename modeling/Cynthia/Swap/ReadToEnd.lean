import Cynthia.Swap.ReadUntil

/-! `read_to_end_internal` of `future/swap.rs`, with the vector that it reads into. -/

namespace Cynthia.Swap.ReadToEnd

open ReadUntil

/-- How a vector grows. The capacity is at least what is asked for. -/
structure Allocator where
  grow : Nat → Nat → Nat
  le_grow : ∀ capacity needed, needed ≤ grow capacity needed

/-- A `Vec<u8>`. -/
structure Vec where
  data : List UInt8
  capacity : Nat
  fits : data.length ≤ capacity

namespace Vec

def new : Vec := ⟨[], 0, Nat.le_refl 0⟩

def reserve (a : Allocator) (v : Vec) (additional : Nat) : Vec :=
  if v.capacity - v.data.length < additional then
    ⟨v.data, a.grow v.capacity (v.data.length + additional),
      Nat.le_trans (Nat.le_add_right ..) (a.le_grow ..)⟩
  else v

theorem reserve_data (a : Allocator) (v : Vec) (additional : Nat) :
    (v.reserve a additional).data = v.data := by
  unfold reserve
  split <;> rfl

theorem le_reserve (a : Allocator) (v : Vec) (additional : Nat) :
    v.data.length + additional ≤ (v.reserve a additional).capacity := by
  have hfits := v.fits
  unfold reserve
  split
  · exact a.le_grow ..
  · omega

def resize (a : Allocator) (v : Vec) (n : Nat) (value : UInt8) : Vec :=
  ⟨v.data.take n ++ List.replicate (n - v.data.length) value,
    (v.reserve a (n - v.data.length)).capacity, by
      have hle := le_reserve a v (n - v.data.length)
      rw [List.length_append, List.length_take, List.length_replicate]
      omega⟩

/-- `bs` is written into the vector from the index `i` on, as far as there is room. -/
def fill (v : Vec) (i : Nat) (bs : List UInt8) : Vec :=
  ⟨v.data.take i ++ bs.take (v.data.length - i) ++ v.data.drop (i + bs.length), v.capacity, by
    have hfits := v.fits
    simp only [List.length_append, List.length_take, List.length_drop]
    omega⟩

end Vec

/-- A read into a slice of `len` bytes. -/
def pollRead : Reader → Nat → Reader × Swap.Poll (List UInt8)
  | [], _ => ([], .ok [])
  | .pending :: es, _ => (es, .pending)
  | .error e :: es, _ => (es, .error e)
  | .chunk b bs :: es, len => (putBack ((b :: bs).drop len) es, .ok ((b :: bs).take len))

/-- The bytes of the vector behind `len` are not read yet. -/
structure Guard where
  buf : Vec
  len : Nat

/-- Room for at least one byte. -/
def Guard.makeRoom (a : Allocator) (g : Guard) : Guard :=
  if g.len = g.buf.data.length then
    let buf := g.buf.reserve a 32
    { g with buf := buf.resize a buf.capacity 0 }
  else g

/-- The body of the loop; `none` goes on with it. -/
def turn (a : Allocator) (startLen : Nat) (rd : Reader) (g : Guard) :
    (Reader × Guard) × Option (Swap.Poll Nat) :=
  let g := g.makeRoom a
  match pollRead rd (g.buf.data.length - g.len) with
  | (rd, .pending) => ((rd, g), some .pending)
  | (rd, .error e) => ((rd, g), some (.error e))
  | (rd, .ok bs) =>
    let buf := g.buf.fill g.len bs
    if bs.length = 0 then ((rd, { g with buf }), some (.ok (g.len - startLen)))
    else ((rd, ⟨buf, g.len + bs.length⟩), none)

theorem size_pollRead {rd rd' : Reader} {len : Nat} {bs : List UInt8}
    (h : pollRead rd len = (rd', .ok bs)) (hne : bs.length ≠ 0) : size rd' < size rd := by
  match rd with
  | [] =>
    cases h
    exact absurd rfl hne
  | .pending :: es => cases h
  | .error e :: es => cases h
  | .chunk b bs' :: es =>
    cases h
    have hle := size_putBack_le ((b :: bs').drop len) es
    rw [size_chunk]
    rw [List.length_take] at hne
    rw [List.length_drop] at hle
    omega

theorem turn_size {a : Allocator} {startLen : Nat} {rd rd' : Reader} {g g' : Guard}
    (h : turn a startLen rd g = ((rd', g'), none)) : size rd' < size rd := by
  unfold turn at h
  dsimp only at h
  split at h
  · cases h
  · cases h
  · rename_i hread
    split at h
    · cases h
    · rename_i hne
      cases h
      exact size_pollRead hread hne

def loop (a : Allocator) (startLen : Nat) (rd : Reader) (g : Guard) :
    (Reader × Guard) × Swap.Poll Nat :=
  match h : turn a startLen rd g with
  | ((rd', g'), none) =>
    have := turn_size h
    loop a startLen rd' g'
  | (s, some res) => (s, res)
termination_by size rd

/-- The guard cuts the vector when it is dropped. -/
def readToEndInternal (a : Allocator) (rd : Reader) (buf : Vec) (startLen : Nat) :
    Reader × Vec × Swap.Poll Nat :=
  let ((rd, g), res) := loop a startLen rd ⟨buf, buf.data.length⟩
  (rd, g.buf.resize a g.len 0, res)

/-! ## What one call reads -/

/-- All bytes up to the first event that is no chunk. -/
inductive Drains : Reader → List UInt8 → Reader → Stop → Prop
  | eof : Drains [] [] [] .eof
  | pending {es : Reader} : Drains (.pending :: es) [] es .pending
  | error {e : ErrorKind} {es : Reader} : Drains (.error e :: es) [] es (.error e)
  | chunk {b : UInt8} {bs data : List UInt8} {es es' : Reader} {stop : Stop}
    (h : Drains es data es' stop) : Drains (.chunk b bs :: es) (b :: bs ++ data) es' stop

def answer (n : Nat) : Stop → Swap.Poll Nat
  | .pending => .pending
  | .error e => .error e
  | .line | .eof => .ok n

section Call

variable {a : Allocator} {startLen : Nat} {rd es es' : Reader} {data : List UInt8} {stop : Stop}
  {g : Guard}

theorem exists_drains (es : Reader) : ∃ data es' stop, Drains es data es' stop := by
  induction es with
  | nil => exact ⟨_, _, _, .eof⟩
  | cons event es ih =>
    obtain ⟨data, es', stop, h⟩ := ih
    cases event with
    | pending => exact ⟨_, _, _, .pending⟩
    | error e => exact ⟨_, _, _, .error⟩
    | chunk b bs => exact ⟨_, _, _, .chunk h⟩

theorem Drains.putBack (h : Drains es data es' stop) (r : List UInt8) :
    Drains (putBack r es) (r ++ data) es' stop := by
  cases r with
  | nil => exact h
  | cons b bs => exact .chunk h

theorem Guard.makeRoom_spec (hg : g.len ≤ g.buf.data.length) :
    (g.makeRoom a).len = g.len ∧ g.len < (g.makeRoom a).buf.data.length ∧
      (g.makeRoom a).buf.data.take g.len = g.buf.data.take g.len := by
  unfold makeRoom
  split
  · rename_i hfull
    have hle := Vec.le_reserve a g.buf 32
    have hlen : ((g.buf.reserve a 32).resize a (g.buf.reserve a 32).capacity 0).data.length =
        (g.buf.reserve a 32).capacity := by
      simp only [Vec.resize, Vec.reserve_data, List.length_append, List.length_take,
        List.length_replicate]
      omega
    refine ⟨rfl, ?_, ?_⟩
    · dsimp only
      rw [hlen]
      omega
    · dsimp only [Vec.resize]
      rw [Vec.reserve_data, List.take_append_of_le_length, List.take_take, Nat.min_eq_left]
      · omega
      · rw [List.length_take]
        omega
  · exact ⟨rfl, by omega, rfl⟩

theorem loop_of_none {rd' : Reader} {g' : Guard}
    (h : turn a startLen rd g = ((rd', g'), none)) :
    loop a startLen rd g = loop a startLen rd' g' := by
  rw [loop]
  split
  · rename_i hturn
    rw [h] at hturn
    cases hturn
    rfl
  · rename_i hturn
    rw [h] at hturn
    cases hturn

theorem loop_of_some {t : Reader × Guard} {res : Swap.Poll Nat}
    (h : turn a startLen rd g = (t, some res)) : loop a startLen rd g = (t, res) := by
  rw [loop]
  split
  · rename_i hturn
    rw [h] at hturn
    cases hturn
  · rename_i hturn
    rw [h] at hturn
    cases hturn
    rfl

theorem Vec.fill_spec {v : Vec} {i : Nat} {bs : List UInt8} (h : i + bs.length ≤ v.data.length) :
    (v.fill i bs).data.length = v.data.length ∧
      (v.fill i bs).data.take (i + bs.length) = v.data.take i ++ bs := by
  have htake : bs.take (v.data.length - i) = bs := List.take_of_length_le (by omega)
  have hlen : (v.data.take i ++ bs).length = i + bs.length := by
    rw [List.length_append, List.length_take]
    omega
  dsimp only [fill]
  rw [htake]
  constructor
  · rw [List.length_append, hlen, List.length_drop]
    omega
  · exact List.take_left' hlen

/-- The bytes go behind those that the vector had, in order. -/
theorem loop_spec (a : Allocator) (startLen : Nat) (h : Drains rd data es' stop)
    (hg : g.len ≤ g.buf.data.length) :
    ∃ g', loop a startLen rd g = ((es', g'), answer (g.len + data.length - startLen) stop) ∧
      g'.len ≤ g'.buf.data.length ∧
      g'.buf.data.take g'.len = g.buf.data.take g.len ++ data := by
  induction hn : size rd using Nat.strongRecOn generalizing rd data g with
  | ind n ih =>
  subst hn
  obtain ⟨hroomlen, hroom, hroomtake⟩ := Guard.makeRoom_spec (a := a) hg
  cases h with
  | eof =>
    have hnone : (g.makeRoom a).len + ([] : List UInt8).length ≤ (g.makeRoom a).buf.data.length := by
      rw [hroomlen]
      exact Nat.le_of_lt hroom
    obtain ⟨hlength, htake⟩ := Vec.fill_spec hnone
    refine ⟨⟨(g.makeRoom a).buf.fill (g.makeRoom a).len [], (g.makeRoom a).len⟩, ?_, ?_, ?_⟩
    · rw [loop_of_some rfl, hroomlen]
      rfl
    · exact Nat.le_trans hnone (Nat.le_of_eq hlength.symm)
    · rw [← hroomtake, ← hroomlen]
      exact htake
  | pending =>
    refine ⟨g.makeRoom a, loop_of_some rfl, by omega, ?_⟩
    rw [hroomlen, hroomtake, List.append_nil]
  | error =>
    refine ⟨g.makeRoom a, loop_of_some rfl, by omega, ?_⟩
    rw [hroomlen, hroomtake, List.append_nil]
  | @chunk b bs data es es' stop h =>
    generalize hk : (g.makeRoom a).buf.data.length - (g.makeRoom a).len = k at *
    have hread : pollRead (.chunk b bs :: es) k =
        (putBack ((b :: bs).drop k) es, .ok ((b :: bs).take k)) := rfl
    have hne : ((b :: bs).take k).length ≠ 0 := by
      rw [List.length_take, List.length_cons]
      omega
    have hfits : (g.makeRoom a).len + ((b :: bs).take k).length ≤
        (g.makeRoom a).buf.data.length := by
      rw [List.length_take]
      omega
    obtain ⟨hlength, htake⟩ := Vec.fill_spec hfits
    have hturn : turn a startLen (.chunk b bs :: es) g =
        ((putBack ((b :: bs).drop k) es,
          ⟨(g.makeRoom a).buf.fill (g.makeRoom a).len ((b :: bs).take k),
            (g.makeRoom a).len + ((b :: bs).take k).length⟩), none) := by
      simp only [turn, hk, hread, if_neg hne]
    have hall : (b :: bs).take k ++ ((b :: bs).drop k ++ data) = b :: bs ++ data := by
      rw [← List.append_assoc, List.take_append_drop]
    have hsum : ((b :: bs).take k).length + ((b :: bs).drop k ++ data).length =
        (b :: bs ++ data).length := by
      rw [← hall]
      exact List.length_append.symm
    rw [← hlength] at hfits
    obtain ⟨g', hloop, hle, htake'⟩ := ih _ (size_pollRead hread hne) (h.putBack _)
      (g := ⟨(g.makeRoom a).buf.fill (g.makeRoom a).len ((b :: bs).take k),
        (g.makeRoom a).len + ((b :: bs).take k).length⟩) hfits rfl
    refine ⟨g', ?_, hle, ?_⟩
    · rw [loop_of_none hturn, hloop, hroomlen, Nat.add_assoc, hsum]
    · rw [htake', htake, hroomlen, hroomtake, List.append_assoc, hall]

/-- A call appends what it reads, whatever the vector has had to grow. -/
theorem readToEndInternal_eq (a : Allocator) (startLen : Nat) (h : Drains rd data es' stop)
    (buf : Vec) :
    ∃ buf', readToEndInternal a rd buf startLen =
        (es', buf', answer (buf.data.length + data.length - startLen) stop) ∧
      buf'.data = buf.data ++ data := by
  obtain ⟨g', hloop, hle, htake⟩ :=
    loop_spec a startLen (g := ⟨buf, buf.data.length⟩) h (Nat.le_refl _)
  refine ⟨g'.buf.resize a g'.len 0, ?_, ?_⟩
  · simp only [readToEndInternal, hloop]
  · dsimp only [Vec.resize]
    rw [htake, List.take_length, Nat.sub_eq_zero_of_le hle, List.replicate_zero, List.append_nil]

theorem Drains.contents (h : Drains es data es' stop) :
    contents es = data ++ contents es' := by
  induction h with
  | eof | pending | error => rfl
  | chunk _ ih => rw [ReadUntil.contents, ih, List.append_assoc]

theorem Drains.size_lt (h : Drains es data es' stop) (hstop : stop ≠ .eof) :
    size es' < size es := by
  induction h with
  | eof => exact absurd rfl hstop
  | pending | error => simp only [size, ReadUntil.contents, List.length_cons]; omega
  | chunk _ ih =>
    have hlt := ih hstop
    rw [size_chunk]
    omega

theorem Drains.ne_line (h : Drains es data es' stop) : stop ≠ .line := by
  induction h with
  | eof | pending | error => nofun
  | chunk _ ih => exact ih

theorem Drains.eof_eq (h : Drains es data es' .eof) : es' = [] := by
  generalize hstop : Stop.eof = stop at h
  induction h with
  | eof => rfl
  | pending | error => cases hstop
  | chunk _ ih => exact ih hstop

end Call

end Cynthia.Swap.ReadToEnd
