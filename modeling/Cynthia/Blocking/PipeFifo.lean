import Cynthia.Blocking.Signals

/-! The pipe is a FIFO: the invariant that ties the four circular indices to the
numbers of bytes published and handed over. -/

namespace Cynthia.Blocking

open Transition

/-- Bytes that `src.read` put into the buffer and `tail` does not cover yet. -/
def pending : FillPc → List UInt8
  | .checkClosed _ data | .storeTail _ data => data
  | _ => []

/-- How far the writer's own `tail` is ahead of the shared one. -/
def ahead : FillPc → Nat
  | .storeTail _ data => data.length
  | _ => 0

/-- Everything the writer ever put into the buffer and did not abandon. -/
def produced (s : State) : List UInt8 := s.published ++ pending s.wpc

structure ReaderOk (s : State) : Prop where
  head : s.r.head = s.handed.length % (2 * s.pipe.cap)
  tail : s.r.tail = s.tailSeen % (2 * s.pipe.cap)
  handed_le : s.handed.length ≤ s.tailSeen
  seen_le : s.tailSeen ≤ s.published.length
  shared : s.pipe.head = s.freed % (2 * s.pipe.cap)
  freed_le : s.freed ≤ s.handed.length
  freed : (∀ count, s.rpc ≠ .storeHead count) → s.freed = s.handed.length
  atClosed : s.rpc = .loadClosed → s.tailSeen = s.handed.length
  nonempty : s.rpc = .take ∨ s.rpc = .maybeYield ∨ s.rpc = .write 0 →
    s.handed.length < s.tailSeen
  counted : ∀ count, s.rpc = .storeHead count ∨ s.rpc = .wakeWriter count → 0 < count

structure WriterOk (s : State) : Prop where
  shared : s.pipe.tail = s.published.length % (2 * s.pipe.cap)
  tail : s.w.tail = (s.published.length + ahead s.wpc) % (2 * s.pipe.cap)
  head : s.w.head = s.headSeen % (2 * s.pipe.cap)
  seen_le : s.headSeen ≤ s.freed
  room : (produced s).length ≤ s.headSeen + s.pipe.cap
  fit : s.published.length % s.pipe.cap + (pending s.wpc).length ≤ s.pipe.cap
  pos : ∀ count data, s.wpc = .checkClosed count data ∨ s.wpc = .storeTail count data → data ≠ []
  zeroed_le : s.w.zeroedUntil ≤ s.pipe.cap
  zeroed : ∀ i < s.w.zeroedUntil, (s.pipe.buffer i).isSome
  touched : ∀ i < (produced s).length, i % s.pipe.cap < s.w.zeroedUntil

structure ContentOk (s : State) : Prop where
  buffer : ∀ i b, s.handed.length ≤ i → (produced s)[i]? = some b →
    s.pipe.buffer (i % s.pipe.cap) = some b
  handed : s.handed = (s.published.take s.handed.length).map some

structure Fifo (s : State) : Prop where
  cap_pos : 0 < s.pipe.cap
  reader : ReaderOk s
  writer : WriterOk s
  content : ContentOk s

/-! ## Indices -/

theorem distance_eq {c a b : Nat} (hc : 0 < c) (hab : a ≤ b) (hle : b ≤ a + c) :
    distance c (a % (2 * c)) (b % (2 * c)) = b - a :=
  Ring.dist_mod hab (by omega)

theorem realIndex_mod {c : Nat} (hc : 0 < c) (n : Nat) :
    realIndex c (n % (2 * c)) = n % c := by
  have hlt := Nat.mod_lt n (show 0 < 2 * c by omega)
  rw [← Ring.mod_mod_two_mul c n]
  generalize n % (2 * c) = m at hlt ⊢
  unfold realIndex
  split
  · rename_i h
    exact (Nat.mod_eq_of_lt h).symm
  · rename_i h
    rw [Nat.mod_eq_sub_mod (by omega)]
    exact (Nat.mod_eq_of_lt (by omega)).symm

/-- A slice that stays inside the buffer ends at most at the end of a lap. -/
theorem advance_mod {c n k : Nat} (hc : 0 < c) (hk : n % c + k ≤ c) :
    advance c (n % (2 * c)) k = (n + k) % (2 * c) := by
  have hlt := Nat.mod_lt n (show 0 < 2 * c by omega)
  have hreal := realIndex_mod hc n
  rw [Ring.add_mod_eq_ite n (by omega) (by omega), advance]
  unfold realIndex at hreal
  split at hreal <;> split <;> omega

theorem Fifo.produced_length (s : State) :
    (produced s).length = s.published.length + (pending s.wpc).length := by
  simp [produced]

theorem Fifo.published_le {s : State} (h : Fifo s) :
    s.published.length ≤ s.handed.length + s.pipe.cap := by
  have := h.writer.room
  have := h.writer.seen_le
  have := h.reader.freed_le
  have := Fifo.produced_length s
  omega

theorem Fifo.distance_reader {s : State} (h : Fifo s) :
    distance s.pipe.cap s.r.head s.r.tail = s.tailSeen - s.handed.length := by
  have := h.published_le
  rw [h.reader.head, h.reader.tail]
  exact distance_eq h.cap_pos h.reader.handed_le (by have := h.reader.seen_le; omega)

theorem Fifo.offered_eq {s : State} (h : Fifo s) :
    offered s = min (min (128 * 1024) (s.tailSeen - s.handed.length))
      (s.pipe.cap - s.handed.length % s.pipe.cap) := by
  unfold offered
  rw [h.distance_reader, h.reader.head, realIndex_mod h.cap_pos]

theorem Fifo.distance_writer {s : State} (h : Fifo s) (ha : ahead s.wpc = 0) :
    distance s.pipe.cap s.w.head s.w.tail = s.published.length - s.headSeen := by
  have := h.writer.room
  have := Fifo.produced_length s
  have := h.writer.seen_le
  have := h.reader.freed_le
  have := h.reader.handed_le
  have := h.reader.seen_le
  rw [h.writer.head, h.writer.tail, ha]
  exact distance_eq h.cap_pos (by omega) (by omega)

theorem Fifo.tail_eq {s : State} (h : Fifo s) (ha : ahead s.wpc = 0) :
    s.w.tail = s.published.length % (2 * s.pipe.cap) := by
  rw [h.writer.tail, ha, Nat.add_zero]

theorem Fifo.requested_eq {s : State} (h : Fifo s) (ha : ahead s.wpc = 0) :
    requested s = min (min (min (128 * 1024) (s.w.zeroedUntil * 2 + 4096))
      (s.pipe.cap - (s.published.length - s.headSeen)))
      (s.pipe.cap - s.published.length % s.pipe.cap) := by
  unfold requested
  rw [h.distance_writer ha, h.tail_eq ha, realIndex_mod h.cap_pos]

/-! ## Buffer contents -/

theorem getElem?_slice (buffer : Nat → Option UInt8) (start n i : Nat) (hi : i < n) :
    (slice buffer start n)[i]? = some (buffer (start + i)) := by
  simp [slice, hi]

theorem length_slice (buffer : Nat → Option UInt8) (start n : Nat) :
    (slice buffer start n).length = n := by
  simp [slice]

/-- What `drain` offers is the next part of the stream. -/
theorem Fifo.slice_eq {s : State} (h : Fifo s) {n : Nat} (hn : n ≤ offered s) :
    (slice s.pipe.buffer (realIndex s.pipe.cap s.r.head) (offered s)).take n =
      ((s.published.drop s.handed.length).take n).map some := by
  have hoff := h.offered_eq
  have hseen := h.reader.seen_le
  have hc := h.cap_pos
  rw [h.reader.head, realIndex_mod hc]
  apply List.ext_getElem?
  intro i
  by_cases hi : i < n
  · have hfit : (s.handed.length + i) % s.pipe.cap = s.handed.length % s.pipe.cap + i :=
      Ring.add_mod_of_fit hc (by omega)
    have hlt : s.handed.length + i < s.published.length := by omega
    have hget : (produced s)[s.handed.length + i]? = some (s.published[s.handed.length + i]) := by
      simp [produced, List.getElem?_append_left hlt]
    have hbuf := h.content.buffer _ _ (Nat.le_add_right _ i) hget
    rw [hfit] at hbuf
    simp [hi, getElem?_slice _ _ _ i (by omega : i < offered s), hbuf,
      List.getElem?_drop, List.getElem?_eq_getElem hlt]
  · simp [hi]

/-! ## The reading side -/

theorem Fifo.empty_iff {s : State} (h : Fifo s) : empty s ↔ s.tailSeen = s.handed.length := by
  have := h.reader.handed_le
  rw [empty, h.distance_reader]
  omega

theorem Fifo.loadTail {s : State} (h : Fifo s) (hpc : s.rpc = .load ∨ s.rpc = .reload) :
    Fifo (loadTail s) where
  cap_pos := h.cap_pos
  reader :=
    { h.reader with
      tail := h.writer.shared
      handed_le := le_trans h.reader.handed_le h.reader.seen_le
      seen_le := le_refl _
      atClosed := by
        intro hc
        rcases hpc with hp | hp <;> simp [Blocking.loadTail, hp] at hc
      nonempty := by
        intro hc
        rcases hpc with hp | hp <;> simp [Blocking.loadTail, hp] at hc
      counted := by
        intro count hc
        rcases hpc with hp | hp <;> simp [Blocking.loadTail, hp] at hc }
  writer := { h.writer with }
  content := { h.content with }

/-- Moving on to a program point that promises no more than the index tells. -/
theorem Fifo.setRpc {s : State} (h : Fifo s) (pc : DrainPc)
    (hs : ∀ count, s.rpc ≠ .storeHead count)
    (hclosed : pc = .loadClosed → s.tailSeen = s.handed.length)
    (hnonempty : pc = .take ∨ pc = .maybeYield ∨ pc = .write 0 → s.handed.length < s.tailSeen)
    (hcounted : ∀ count, pc ≠ .storeHead count ∧ pc ≠ .wakeWriter count) :
    Fifo { s with rpc := pc } where
  cap_pos := h.cap_pos
  reader :=
    { h.reader with
      freed := fun _ => h.reader.freed hs
      atClosed := hclosed
      nonempty := hnonempty
      counted := by
        rintro count (hc | hc)
        · exact absurd hc (hcounted count).1
        · exact absurd hc (hcounted count).2 }
  writer := { h.writer with }
  content := { h.content with }

theorem Fifo.afterLoad {s : State} (h : Fifo s) (pc : DrainPc)
    (hs : ∀ count, s.rpc ≠ .storeHead count)
    (hpc : pc = .register ∨ pc = .loadClosed) :
    Fifo { s with rpc := if empty s then pc else .take } := by
  have he := h.empty_iff
  have hle := h.reader.handed_le
  apply h.setRpc _ hs
  · intro hc
    split at hc
    · exact he.mp ‹_›
    · cases hc
  · intro hc
    split at hc
    · rcases hpc with rfl | rfl <;> simp at hc
    · have : s.tailSeen ≠ s.handed.length := fun e => ‹¬empty s› (he.mpr e)
      omega
  · intro count
    split
    · rcases hpc with rfl | rfl <;> simp
    · simp

theorem Fifo.returnR {s : State} (h : Fifo s) (hs : ∀ count, s.rpc ≠ .storeHead count)
    (res : Poll (Except IoError Nat)) : Fifo (returnR s res) := by
  have := h.setRpc .idle hs (by simp) (by simp) (by simp)
  exact ⟨this.cap_pos, { this.reader with }, { this.writer with }, { this.content with }⟩

theorem fifo_readerStep {s t : State} (h : Fifo s) (ht : readerStep s = some t) : Fifo t := by
  unfold readerStep at ht
  split at ht
  · rename_i hpc
    split at ht
    · cases ht
      exact (h.loadTail (.inl hpc)).afterLoad _ (by simp [loadTail, hpc]) (.inl rfl)
    · cases ht
      have : s.tailSeen ≠ s.handed.length := fun e => ‹¬empty s› (h.empty_iff.mpr e)
      have := h.reader.handed_le
      exact h.setRpc _ (by simp [hpc]) (by simp) (by omega) (by simp)
  · rename_i hpc
    cases ht
    have := h.setRpc .reload (by simp [hpc]) (by simp) (by simp) (by simp)
    exact ⟨this.cap_pos, { this.reader with }, { this.writer with }, { this.content with }⟩
  · rename_i hpc
    cases ht
    exact (h.loadTail (.inr hpc)).afterLoad _ (by simp [loadTail, hpc]) (.inr rfl)
  · rename_i hpc
    cases ht
    exact h.returnR (by simp [hpc]) _
  · rename_i hpc
    cases ht
    have := h.setRpc .maybeYield (by simp [hpc]) (by simp)
      (fun _ => h.reader.nonempty (.inl hpc)) (by simp)
    exact ⟨this.cap_pos, { this.reader with }, { this.writer with }, { this.content with }⟩
  · rename_i count hpc
    cases ht
    have hw := h.writer
    have hr := h.reader
    have hcount := hr.counted count (.inl hpc)
    exact ⟨h.cap_pos,
      { hr with
        shared := hr.head
        freed_le := le_refl _
        freed := fun _ => rfl
        atClosed := by simp
        nonempty := by simp
        counted := by simpa using hcount },
      { hw with seen_le := le_trans hw.seen_le hr.freed_le }, { h.content with }⟩
  · rename_i count hpc
    cases ht
    have hcount := h.reader.counted count (.inr hpc)
    have := h.setRpc (.write count) (by simp [hpc]) (by simp) (by simp; omega) (by simp)
    exact ⟨this.cap_pos, { this.reader with }, { this.writer with }, { this.content with }⟩
  · rename_i hpc
    cases ht
    have := h.setRpc .closeWake (by simp [hpc]) (by simp) (by simp) (by simp)
    exact ⟨this.cap_pos, { this.reader with }, { this.writer with }, { this.content with }⟩
  · rename_i hpc
    cases ht
    have := h.setRpc .dropped (by simp [hpc]) (by simp) (by simp) (by simp)
    exact ⟨this.cap_pos, { this.reader with }, { this.writer with }, { this.content with }⟩
  · cases ht

theorem fifo_destWrite {s t : State} {res : Except IoError Nat} (h : Fifo s)
    (ht : destWrite s res = some t) : Fifo t := by
  unfold destWrite at ht
  split at ht
  · rename_i count hpc
    have hs : ∀ count, s.rpc ≠ .storeHead count := by simp [hpc]
    split at ht
    · cases ht
      exact h.returnR hs _
    · rename_i n
      split at ht
      · rename_i hn
        split at ht
        · cases ht
          have := h.returnR hs (.ready (.ok (count + n)))
          exact ⟨this.cap_pos, { this.reader with }, { this.writer with }, { this.content with }⟩
        · rename_i hpos
          cases ht
          have hr := h.reader
          have hseen := hr.seen_le
          have hoff := h.offered_eq
          have hslice := h.slice_eq hn
          have hlen : ((s.published.drop s.handed.length).take n).length = n := by
            simp
            omega
          have hfit : advance s.pipe.cap s.r.head n =
              (s.handed.length + n) % (2 * s.pipe.cap) := by
            rw [hr.head]
            exact advance_mod h.cap_pos (by have := Nat.mod_lt s.handed.length h.cap_pos; omega)
          refine ⟨h.cap_pos, ?_, { h.writer with }, ?_⟩
          · rw [hslice]
            exact
              { hr with
                head := by simpa only [List.length_append, List.length_map, hlen] using hfit
                handed_le := by simp; omega
                freed_le := by simp; have := hr.freed_le; omega
                freed := by simp
                atClosed := by simp
                nonempty := by simp
                counted := by simp; omega }
          · rw [hslice]
            have hsplit : s.published.take (s.handed.length + n) =
                s.published.take s.handed.length ++ (s.published.drop s.handed.length).take n :=
              List.take_add
            constructor
            · intro i b hi hb
              simp only [List.length_append, List.length_map, hlen] at hi
              exact h.content.buffer i b (by omega) hb
            · simp only [List.length_append, List.length_map, hlen, hsplit, List.map_append]
              rw [← h.content.handed]
      · cases ht
  · cases ht

/-! ## The writing side -/

/-- Moving on to a program point without data in flight, abandoning what was read. -/
theorem Fifo.setWpc {s : State} (h : Fifo s) (pc : FillPc) (ha : ahead s.wpc = 0)
    (hpend : pending pc = []) (hahead : ahead pc = 0)
    (hpos : ∀ count data, pc ≠ .checkClosed count data ∧ pc ≠ .storeTail count data) :
    Fifo { s with wpc := pc } where
  cap_pos := h.cap_pos
  reader := { h.reader with }
  writer :=
    { h.writer with
      tail := by simp [hahead, h.tail_eq ha]
      room := by
        have := h.writer.room
        have := Fifo.produced_length s
        simp [produced, hpend]
        omega
      fit := by
        have := Nat.mod_lt s.published.length h.cap_pos
        simp [hpend]
        omega
      pos := by
        rintro count data (hc | hc)
        · exact absurd hc (hpos count data).1
        · exact absurd hc (hpos count data).2
      touched := by
        intro i hi
        have := Fifo.produced_length s
        simp [produced, hpend] at hi
        exact h.writer.touched i (by omega) }
  content :=
    { h.content with
      buffer := by
        intro i b hi hb
        simp only [produced, hpend, List.append_nil] at hb
        apply h.content.buffer i b hi
        rw [produced, List.getElem?_append_left (List.getElem?_eq_some_iff.mp hb).1]
        exact hb }

theorem Fifo.loadHead {s : State} (h : Fifo s) : Fifo (loadHead s) where
  cap_pos := h.cap_pos
  reader := { h.reader with }
  writer :=
    { h.writer with
      head := h.reader.shared
      seen_le := le_refl _
      room := le_trans h.writer.room (Nat.add_le_add_right h.writer.seen_le _) }
  content := { h.content with }

theorem Fifo.returnW {s : State} (h : Fifo s) (ha : ahead s.wpc = 0)
    (res : Poll (Except IoError Nat)) : Fifo (returnW s res) := by
  have := h.setWpc .idle ha rfl rfl (by simp)
  exact ⟨this.cap_pos, { this.reader with }, { this.writer with }, { this.content with }⟩

theorem fifo_writerStep {s t : State} (h : Fifo s) (ht : writerStep s = some t) : Fifo t := by
  have close (pc : FillPc) (p : Pipe) (ha : ahead s.wpc = 0) (hpend : pending pc = [])
      (hahead : ahead pc = 0)
      (hpos : ∀ count data, pc ≠ .checkClosed count data ∧ pc ≠ .storeTail count data)
      (hhead : p.head = s.pipe.head) (htail : p.tail = s.pipe.tail)
      (hbuf : p.buffer = s.pipe.buffer) (hcap : p.cap = s.pipe.cap) :
      Fifo { s with pipe := p, wpc := pc } := by
    have h' := h.setWpc pc ha hpend hahead hpos
    obtain ⟨head, tail, reader, writer, closed, buffer, cap⟩ := p
    simp only at hhead htail hbuf hcap
    subst hhead htail hbuf hcap
    exact ⟨h'.cap_pos, { h'.reader with }, { h'.writer with }, { h'.content with }⟩
  unfold writerStep at ht
  split at ht
  · rename_i hpc
    have ha : ahead s.wpc = 0 := by rw [hpc]; rfl
    split at ht
    · cases ht
      exact h.returnW ha _
    · cases ht
      exact h.setWpc _ ha rfl rfl (by simp)
  · rename_i hpc
    have ha : ahead s.wpc = 0 := by rw [hpc]; rfl
    split at ht
    · cases ht
      apply h.loadHead.setWpc _ ha <;> split <;> simp [pending, ahead]
    · cases ht
      exact h.setWpc _ ha rfl rfl (by simp)
  · rename_i hpc
    cases ht
    exact close _ _ (by rw [hpc]; rfl) rfl rfl (by simp) rfl rfl rfl rfl
  · rename_i hpc
    have ha : ahead s.wpc = 0 := by rw [hpc]; rfl
    cases ht
    apply h.loadHead.setWpc _ ha <;> split <;> simp [pending, ahead]
  · rename_i hpc
    cases ht
    exact h.returnW (by rw [hpc]; rfl) _
  · rename_i hpc
    cases ht
    exact close _ _ (by rw [hpc]; rfl) rfl rfl (by simp) rfl rfl rfl rfl
  · rename_i count data hpc
    have ha : ahead s.wpc = 0 := by rw [hpc]; rfl
    split at ht
    · cases ht
      exact h.returnW ha _
    · cases ht
      have hw := h.writer
      have hfit := hw.fit
      have hprod : produced s = s.published ++ data := by rw [produced, hpc]; rfl
      have hroom := hw.room
      have htouched := hw.touched
      rw [hprod] at hroom htouched
      rw [hpc] at hfit
      refine ⟨h.cap_pos, { h.reader with }, ?_, ?_⟩
      · exact
          { hw with
            tail := by
              have := advance_mod h.cap_pos hfit
              rw [← h.tail_eq ha] at this
              exact this
            room := by simpa [produced, pending] using hroom
            fit := hfit
            pos := by simpa using hw.pos count data (.inl hpc)
            touched := by
              intro i hi
              exact htouched i (by simpa [produced, pending] using hi) }
      · exact
          { h.content with
            buffer := by
              intro i b hi hb
              exact h.content.buffer i b hi (by rw [hprod]; exact hb) }
  · rename_i count data hpc
    cases ht
    have hw := h.writer
    have hr := h.reader
    have hprod : produced s = s.published ++ data := by rw [produced, hpc]; rfl
    have hroom := hw.room
    have htouched := hw.touched
    rw [hprod] at hroom htouched
    have htail := hw.tail
    rw [hpc] at htail
    refine ⟨h.cap_pos, ?_, ?_, ?_⟩
    · exact { hr with seen_le := by simp; have := hr.seen_le; omega }
    · exact
        { hw with
          shared := by simpa [ahead] using htail
          tail := by simpa [ahead] using htail
          room := by simpa [produced, pending] using hroom
          fit := by
            have := Nat.mod_lt (s.published ++ data).length h.cap_pos
            simp only [pending, List.length_nil]
            omega
          pos := by simp
          touched := by
            intro i hi
            exact htouched i (by simpa [produced, pending] using hi) }
    · constructor
      · intro i b hi hb
        apply h.content.buffer i b hi
        rw [hprod]
        simpa [produced, pending] using hb
      · have hle : s.handed.length ≤ s.published.length := le_trans hr.handed_le hr.seen_le
        simp only [List.take_append_of_le_length hle]
        exact h.content.handed
  · rename_i hpc
    cases ht
    exact close _ _ (by rw [hpc]; rfl) rfl rfl (by simp) rfl rfl rfl rfl
  · rename_i hpc
    cases ht
    exact close _ _ (by rw [hpc]; rfl) rfl rfl (by simp) rfl rfl rfl rfl
  · rename_i hpc
    cases ht
    exact close _ _ (by rw [hpc]; rfl) rfl rfl (by simp) rfl rfl rfl rfl
  · cases ht

theorem zero_isSome {buffer : Nat → Option UInt8} {start stop i : Nat}
    (h : i < start → (buffer i).isSome) (hi : i < stop) : (zero buffer start stop i).isSome := by
  unfold zero
  split
  · rfl
  · exact h (by omega)

theorem store_isSome {buffer : Nat → Option UInt8} {start i : Nat} (data : List UInt8)
    (h : (buffer i).isSome) : (store buffer start data i).isSome := by
  unfold store
  split
  · rw [List.getElem?_eq_getElem (by omega)]
    rfl
  · exact h

/-- The slice passed to the source lies inside the buffer and in free space. -/
theorem Fifo.requested_le {s : State} (h : Fifo s) (ha : ahead s.wpc = 0) :
    s.published.length % s.pipe.cap + requested s ≤ s.pipe.cap ∧
      s.published.length + requested s ≤ s.headSeen + s.pipe.cap := by
  have hreq := h.requested_eq ha
  have hmod := Nat.mod_lt s.published.length h.cap_pos
  have hroom := h.writer.room
  have hlen := Fifo.produced_length s
  have := h.writer.seen_le
  have := h.reader.freed_le
  have := h.reader.handed_le
  have := h.reader.seen_le
  have h1 : requested s ≤ s.pipe.cap - s.published.length % s.pipe.cap := by
    rw [hreq]
    exact min_le_right _ _
  have h2 : requested s ≤ s.pipe.cap - (s.published.length - s.headSeen) := by
    rw [hreq]
    exact le_trans (min_le_left _ _) (min_le_right _ _)
  omega

theorem Fifo.sliceEnd_eq {s : State} (h : Fifo s) (ha : ahead s.wpc = 0) :
    sliceEnd s = s.published.length % s.pipe.cap + requested s := by
  rw [sliceEnd, h.tail_eq ha, realIndex_mod h.cap_pos]

theorem Fifo.zeroSlice {s : State} (h : Fifo s) (ha : ahead s.wpc = 0) :
    Fifo (zeroSlice s) := by
  have hw := h.writer
  unfold Blocking.zeroSlice
  split
  · rename_i hlt
    refine ⟨h.cap_pos, { h.reader with }, ?_, ?_⟩
    · exact
        { hw with
          zeroed_le := by
            rw [h.sliceEnd_eq ha]
            exact (h.requested_le ha).1
          zeroed := fun i hi => zero_isSome (hw.zeroed i) hi
          touched := fun i hi => lt_trans (hw.touched i hi) hlt }
    · exact
        { h.content with
          buffer := by
            intro i b hi hb
            have hold := hw.touched i (List.getElem?_eq_some_iff.mp hb).1
            have hkeep : ¬(s.w.zeroedUntil ≤ i % s.pipe.cap ∧ i % s.pipe.cap < sliceEnd s) := by
              omega
            rw [← h.content.buffer i b hi hb]
            exact if_neg hkeep }
  · exact h

theorem sliceEnd_le_zeroSlice (s : State) : sliceEnd s ≤ (zeroSlice s).w.zeroedUntil := by
  unfold zeroSlice
  split
  · exact le_refl _
  · omega

theorem zeroSlice_frame (s : State) :
    (zeroSlice s).wpc = s.wpc ∧ (zeroSlice s).published = s.published ∧
      (zeroSlice s).headSeen = s.headSeen ∧ (zeroSlice s).pipe.cap = s.pipe.cap := by
  unfold zeroSlice
  split <;> exact ⟨rfl, rfl, rfl, rfl⟩

/-- New data behind the published bytes: it may be stored wherever there is room,
because the slots of the bytes not yet handed over are others. -/
theorem Fifo.storeData {s : State} (h : Fifo s) {count : Nat} {data : List UInt8}
    (hpend : pending s.wpc = []) (ha : ahead s.wpc = 0) (hne : data ≠ [])
    (hfit : s.published.length % s.pipe.cap + data.length ≤ s.w.zeroedUntil)
    (hroom : s.published.length + data.length ≤ s.headSeen + s.pipe.cap) :
    Fifo { s with
      pipe := { s.pipe with
        buffer := store s.pipe.buffer (realIndex s.pipe.cap s.w.tail) data }
      wpc := .checkClosed count data } := by
  have hw := h.writer
  have hc := h.cap_pos
  have hprod : produced s = s.published := by rw [produced, hpend, List.append_nil]
  have hz := hw.zeroed_le
  rw [h.tail_eq ha, realIndex_mod hc]
  refine ⟨hc, { h.reader with }, ?_, ?_⟩
  · exact
      { hw with
        tail := h.tail_eq ha
        room := by simpa [produced, pending] using hroom
        fit := by simp only [pending]; omega
        pos := by
          rintro _ _ (e | e)
          · cases e
            exact hne
          · cases e
        zeroed := fun i hi => store_isSome data (hw.zeroed i hi)
        touched := by
          intro i hi
          simp only [produced, pending, List.length_append] at hi
          by_cases hlt : i < s.published.length
          · exact hw.touched i (by rw [hprod]; exact hlt)
          · obtain ⟨j, rfl⟩ := Nat.exists_eq_add_of_le (Nat.le_of_not_lt hlt)
            simp only
            rw [Ring.add_mod_of_fit hc (by omega)]
            omega }
  · exact
      { h.content with
        buffer := by
          intro i b hi hget
          simp only [produced, pending] at hget
          have hlast := (List.getElem?_eq_some_iff.mp hget).1
          have hseen := hw.seen_le
          have hfreed := h.reader.freed_le
          rw [List.length_append] at hlast
          by_cases hlt : i < s.published.length
          · rw [List.getElem?_append_left hlt] at hget
            have hslot : ¬(s.published.length % s.pipe.cap ≤ i % s.pipe.cap ∧
                i % s.pipe.cap < s.published.length % s.pipe.cap + data.length) := by
              rintro ⟨hge, hlt'⟩
              obtain ⟨j, hj⟩ := Nat.exists_eq_add_of_le hge
              have hslot := Ring.add_mod_of_fit (a := s.published.length) (j := j) hc (by omega)
              exact Ring.mod_ne (m := s.pipe.cap) hi (show i < s.published.length + j by omega)
                (by simp only; omega) (hj.trans hslot.symm)
            refine (if_neg hslot).trans (h.content.buffer i b hi ?_)
            rw [hprod]
            exact hget
          · obtain ⟨j, rfl⟩ := Nat.exists_eq_add_of_le (Nat.le_of_not_lt hlt)
            rw [List.getElem?_append_right (by omega), Nat.add_sub_cancel_left] at hget
            simp only
            rw [Ring.add_mod_of_fit hc (by omega), store, if_pos (by omega),
              Nat.add_sub_cancel_left]
            exact hget }

theorem fifo_srcRead {s t : State} {res : Except IoError (List UInt8)} (h : Fifo s)
    (ht : srcRead s res = some t) : Fifo t := by
  unfold srcRead at ht
  split at ht
  · rename_i count hpc
    have ha : ahead s.wpc = 0 := by rw [hpc]; rfl
    obtain ⟨hwpc, hpub, hseen, hcap⟩ := zeroSlice_frame s
    have haz : ahead (zeroSlice s).wpc = 0 := by rw [hwpc, ha]
    have hz := h.zeroSlice ha
    split at ht
    · obtain rfl := Option.some.inj ht
      exact hz.returnW haz _
    · rename_i data
      split at ht
      · rename_i hlen
        have hle := h.requested_le ha
        have hend := sliceEnd_le_zeroSlice s
        rw [h.sliceEnd_eq ha] at hend
        split at ht
        · obtain rfl := Option.some.inj ht
          exact hz.returnW haz _
        · rename_i hne
          obtain rfl := Option.some.inj ht
          apply hz.storeData _ haz (by rintro rfl; exact hne rfl)
          · rw [hpub, hcap]
            omega
          · rw [hpub, hseen, hcap]
            omega
          · rw [hwpc, hpc]
            rfl
      · cases ht
  · cases ht

theorem fifo_pipe (cap : Capacity) : Fifo (pipe cap) := by
  refine ⟨cap.pos, ⟨?_, ?_, ?_, ?_, ?_, ?_, ?_, ?_, ?_, ?_⟩,
    ⟨?_, ?_, ?_, ?_, ?_, ?_, ?_, ?_, ?_, ?_⟩, ⟨?_, ?_⟩⟩ <;> simp [pipe, produced, pending, ahead]

theorem fifo_step {s t : State} {a : Act} (h : Fifo s) (ht : step s a = some t) : Fifo t := by
  cases a with
  | drain cx =>
    simp only [step] at ht
    split at ht
    · rename_i hpc
      obtain rfl := Option.some.inj ht
      have := h.setRpc .load (by simp [hpc]) (by simp) (by simp) (by simp)
      exact ⟨this.cap_pos, { this.reader with }, { this.writer with }, { this.content with }⟩
    · cases ht
  | readerStep => exact fifo_readerStep h ht
  | readerYield yields =>
    simp only [step] at ht
    split at ht
    · rename_i hpc
      obtain rfl := Option.some.inj ht
      cases yields with
      | true => exact h.returnR (by simp [hpc]) _
      | false =>
        exact h.setRpc (.write 0) (by simp [hpc]) (by simp)
          (fun _ => h.reader.nonempty (.inr (.inl hpc))) (by simp)
    · cases ht
  | destWrite res => exact fifo_destWrite h ht
  | dropReader =>
    simp only [step] at ht
    split at ht
    · rename_i hpc
      obtain rfl := Option.some.inj ht
      exact h.setRpc .close (by simp [hpc]) (by simp) (by simp) (by simp)
    · cases ht
  | fill cx =>
    simp only [step] at ht
    split at ht
    · rename_i hpc
      obtain rfl := Option.some.inj ht
      have := h.setWpc .loadClosed (by rw [hpc]; rfl) rfl rfl (by simp)
      exact ⟨this.cap_pos, { this.reader with }, { this.writer with }, { this.content with }⟩
    · cases ht
  | writerStep => exact fifo_writerStep h ht
  | writerYield yields =>
    simp only [step] at ht
    split at ht
    · rename_i hpc
      obtain rfl := Option.some.inj ht
      cases yields with
      | true => exact h.returnW (by rw [hpc]; rfl) _
      | false => exact h.setWpc (.read 0) (by rw [hpc]; rfl) rfl rfl (by simp)
    · cases ht
  | srcRead res => exact fifo_srcRead h ht
  | dropWriter =>
    simp only [step] at ht
    split at ht
    · rename_i hpc
      obtain rfl := Option.some.inj ht
      exact h.setWpc .close (by rw [hpc]; rfl) rfl rfl (by simp)
    · cases ht

theorem fifo_of_reachable {cap : Capacity} {s : State} (hs : (system cap).Reachable s) : Fifo s :=
  hs.invariant (I := Fifo) (fifo_pipe cap) fun _ _ _ h ht => fifo_step h ht

/-! ## The bounds -/

theorem cap_of_reachable {cap : Capacity} {s : State} (hs : (system cap).Reachable s) :
    s.pipe.cap = cap.val :=
  hs.invariant (I := fun s => s.pipe.cap = cap.val) rfl fun _ _ _ h ht => (cap_step ht).trans h

/-- The circular indices `head` and `tail` are below `2 * cap` and at most `cap` apart. -/
def InRing (cap head tail : Nat) : Prop :=
  head < 2 * cap ∧ tail < 2 * cap ∧ distance cap head tail ≤ cap

theorem inRing_mod {cap a b : Nat} (hc : 0 < cap) (hab : a ≤ b) (hle : b ≤ a + cap) :
    InRing cap (a % (2 * cap)) (b % (2 * cap)) := by
  refine ⟨Nat.mod_lt _ (by omega), Nat.mod_lt _ (by omega), ?_⟩
  rw [distance_eq hc hab hle]
  omega

/-- Position `i` of the buffer holds a byte that was published and not drained yet. -/
def Undrained (s : State) (i : Nat) : Prop :=
  ∃ k, s.handed.length ≤ k ∧ k < s.published.length ∧ i = k % s.pipe.cap

/-- A bounded byte FIFO: the shared indices and the two cached pairs stay in the
ring, both slices lie inside the buffer, a slice that is offered holds the bytes
published next, and what the writer clears or lets its source fill holds no byte
that is still to be drained. -/
structure Bounded (cap : Nat) (s : State) : Prop where
  shared : InRing cap s.pipe.head s.pipe.tail
  reader : InRing cap s.r.head s.r.tail
  writer : InRing cap s.w.head s.w.tail
  drainSlice : ∀ count, s.rpc = .write count → realIndex cap s.r.head + offered s ≤ cap
  fillSlice : ∀ count, s.wpc = .read count → sliceEnd s ≤ cap
  prefixed : s.handed <+: s.published.map some
  onlyPublished : ∀ count, s.rpc = .write count →
    slice s.pipe.buffer (realIndex cap s.r.head) (offered s) =
      ((s.published.drop s.handed.length).take (offered s)).map some
  kept : ∀ k b, s.handed.length ≤ k → s.published[k]? = some b →
    s.pipe.buffer (k % cap) = some b
  untouched : ∀ count, s.wpc = .read count → ∀ i, Undrained s i →
    i < s.w.zeroedUntil ∧ ¬(realIndex cap s.w.tail ≤ i ∧ i < sliceEnd s)
  zeroed : s.w.zeroedUntil ≤ cap

/-- The free slots behind the published bytes are none of the undrained ones. -/
theorem Fifo.not_undrained {s : State} (h : Fifo s) (ha : ahead s.wpc = 0) {i : Nat}
    (hi : Undrained s i) :
    ¬(realIndex s.pipe.cap s.w.tail ≤ i ∧ i < sliceEnd s) := by
  obtain ⟨k, hle, hlt, rfl⟩ := hi
  rw [h.sliceEnd_eq ha, h.tail_eq ha, realIndex_mod h.cap_pos]
  rintro ⟨hfrom, hto⟩
  obtain ⟨j, hj⟩ := Nat.exists_eq_add_of_le hfrom
  obtain ⟨hfit, hroom⟩ := h.requested_le ha
  have hslot : (s.published.length + j) % s.pipe.cap = s.published.length % s.pipe.cap + j :=
    Ring.add_mod_of_fit h.cap_pos (by omega)
  have hseen := h.writer.seen_le
  have hfreed := h.reader.freed_le
  exact Ring.mod_ne (show s.handed.length ≤ k from hle) (by omega) (by omega) (hj.trans hslot.symm)

theorem Fifo.bounded {s : State} (h : Fifo s) : Bounded s.pipe.cap s := by
  have hc := h.cap_pos
  have hroom := h.writer.room
  have hlen := Fifo.produced_length s
  have hseen := h.writer.seen_le
  have hfreed := h.reader.freed_le
  have hhanded := h.reader.handed_le
  have htail := h.reader.seen_le
  have hahead : ahead s.wpc ≤ (pending s.wpc).length := by
    cases s.wpc <;> simp [ahead, pending]
  constructor
  · rw [h.reader.shared, h.writer.shared]
    exact inRing_mod hc (by omega) (by omega)
  · rw [h.reader.head, h.reader.tail]
    exact inRing_mod hc (by omega) (by omega)
  · rw [h.writer.head, h.writer.tail]
    exact inRing_mod hc (by omega) (by omega)
  · intro count _
    have hmod := Nat.mod_lt s.handed.length hc
    rw [h.offered_eq, h.reader.head, realIndex_mod hc]
    omega
  · intro count hpc
    have ha : ahead s.wpc = 0 := by rw [hpc]; rfl
    rw [h.sliceEnd_eq ha]
    exact (h.requested_le ha).1
  · rw [h.content.handed]
    exact (List.take_prefix _ _).map some
  · intro count _
    have hall := h.slice_eq (le_refl (offered s))
    rwa [List.take_of_length_le (le_of_eq (length_slice _ _ _))] at hall
  · intro k b hk hb
    refine h.content.buffer k b hk ?_
    rw [produced, List.getElem?_append_left (List.getElem?_eq_some_iff.mp hb).1, hb]
  · intro count hpc i hi
    have ha : ahead s.wpc = 0 := by rw [hpc]; rfl
    refine ⟨?_, h.not_undrained ha hi⟩
    obtain ⟨k, -, hlt, rfl⟩ := hi
    exact h.writer.touched k (by omega)
  · exact h.writer.zeroed_le

/-- The pipe holds what was written and not read, in order, and never more than its
capacity. -/
theorem pipe_bounded_fifo (cap : Capacity) (s : State) (hs : (system cap).Reachable s) :
    Bounded cap.val s := by
  rw [← cap_of_reachable hs]
  exact (fifo_of_reachable hs).bounded

def fourBytes : Capacity := ⟨4, by decide, by decide⟩

/-- Three bytes in, two of them out, and two more in, of which the second one is
stored behind the end of the buffer. -/
def wrapAround : List Act :=
  [.fill 2, .writerStep, .writerStep, .writerStep, .writerYield false, .srcRead (.ok [1, 2, 3]),
   .writerStep, .writerStep, .writerStep,
   .drain 1, .readerStep, .readerStep, .readerYield false, .destWrite (.ok 2), .readerStep,
   .readerStep, .srcRead (.ok [4]), .writerStep, .writerStep, .writerStep, .srcRead (.ok []),
   .fill 2, .writerStep, .writerStep, .writerStep, .writerYield false, .srcRead (.ok [5]),
   .writerStep, .writerStep, .writerStep]

theorem pipe_bounded_fifo_wrapAround : ∃ s, (system fourBytes).Reachable s ∧
    s.published = [1, 2, 3, 4, 5] ∧ s.handed = [some 1, some 2] ∧ s.pipe.tail = 5 ∧
    Bounded 4 s := by
  obtain ⟨s, -, hs, hpub, hhanded, htail⟩ := (system fourBytes).exists_of_run
    (P := fun s => s.published = [1, 2, 3, 4, 5] ∧ s.handed = [some 1, some 2] ∧ s.pipe.tail = 5)
    wrapAround (by decide +kernel)
  exact ⟨s, hs, hpub, hhanded, htail, pipe_bounded_fifo fourBytes s hs⟩

/-! ## What is left -/

theorem Fifo.handed_eq_iff {s : State} (h : Fifo s) :
    s.handed = s.published.map some ↔ s.handed.length = s.published.length := by
  constructor
  · intro e
    rw [e, List.length_map]
  · intro e
    rw [h.content.handed, e, List.take_length]

theorem Fifo.offered_pos {s : State} (h : Fifo s) (hpc : s.rpc = .write 0) : 0 < offered s := by
  have hlt := h.reader.nonempty (.inr (.inr hpc))
  have hmod := Nat.mod_lt s.handed.length h.cap_pos
  rw [h.offered_eq]
  simp only [lt_min_iff]
  omega

/-- The tail index tells exactly whether something is left. -/
theorem Fifo.tail_eq_iff {s : State} (h : Fifo s) (hpc : s.rpc = .loadClosed) :
    s.pipe.tail = s.r.tail ↔ s.handed.length = s.published.length := by
  have hseen := h.reader.atClosed hpc
  have hle := h.published_le
  have hle' := le_trans h.reader.handed_le h.reader.seen_le
  have hc := h.cap_pos
  rw [h.writer.shared, h.reader.tail, hseen]
  constructor
  · intro e
    exact Ring.mod_inj hle' (by omega) e.symm
  · intro e
    rw [e]

/-- The second load of the tail sees everything that is published. -/
theorem Fifo.drained {s : State} (h : Fifo s) (hpc : s.rpc = .reload)
    (hempty : empty (Blocking.loadTail s)) : s.handed.length = s.published.length :=
  ((h.loadTail (.inr hpc)).empty_iff.mp hempty).symm

end Cynthia.Blocking
