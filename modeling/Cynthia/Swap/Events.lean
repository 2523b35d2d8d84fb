import Cynthia.Swap.Futures
import Cynthia.Swap.ReadString

/-! The reader of events behind the traits. A loop that may go round once for each event comes
to its end, and then `read_until_internal`, `read_line_internal` and what is built on them do
in a release build what they do in a debug build whose assertions hold. -/

namespace Cynthia.AsyncIo

open Polling

open Swap.ReadUntil (Reader Reads memchr exists_reads contents)

open Swap.ReadLine (dropCr lineOf split_cut lines_cut)

open Pieces (pieces)

/-- The context lets a loop go round for each event that is left. -/
def Enough (cx : Context) (es : Reader) : Prop := es.length < cx.fuel

def Reading.of (s : Swap.ReadUntil.State) : Reading Reader := ⟨s.reader, s.buf, s.read⟩

def failure : Swap.ErrorKind → Error
  | .interrupted => ErrorKind.interrupted.into
  | .writeZero => ErrorKind.writeZero.into
  | .other code => (ErrorKind.other code).into

section Until

variable {cx : Context} {byte : UInt8} {es es' : Reader} {data : List UInt8}
  {stop : Swap.ReadUntil.Stop} {s : Swap.ReadUntil.State}

theorem answer_error {α : Type} (e : Swap.ErrorKind) :
    answer (α := α) (.error e) = .ready (.error (failure e)) := by
  cases e <;> rfl

/-- The loop takes the turns of the model over events. -/
theorem readUntilLoop_of (fuel : Nat) (s : Swap.ReadUntil.State) :
    readUntilLoop cx byte (fuel + 1) (.of s) = match Swap.ReadUntil.turn byte s with
      | (t, some res) => .ok (answer res, .of t)
      | (t, none) => readUntilLoop cx byte fuel (.of t) := by
  obtain ⟨es, buf, read⟩ := s
  match es with
  | [] => rfl
  | .pending :: es => rfl
  | .error e :: es =>
    cases e <;> rfl
  | .chunk b bs :: es =>
    cases hfirst : memchr byte (b :: bs) with
    | none =>
      simp [readUntilLoop, Swap.ReadUntil.turn, Reading.of, pollFillBuf, Swap.ReadUntil.pollFillBuf,
        answer, readyOk, ready, cut, consume, hfirst]
    | some i =>
      simp [readUntilLoop, Swap.ReadUntil.turn, Reading.of, pollFillBuf, Swap.ReadUntil.pollFillBuf,
        answer, readyOk, ready, cut, consume, hfirst]

theorem readUntilInternal_of (byte : UInt8) (h : Enough cx s.reader) :
    readUntilInternal cx byte (.of s) =
      .ok (answer (Swap.ReadUntil.readUntilInternal byte s).2,
        .of (Swap.ReadUntil.readUntilInternal byte s).1) := by
  rw [readUntilInternal]
  unfold Enough at h
  generalize cx.fuel = fuel at h
  induction fuel generalizing s with
  | zero => cases h
  | succ fuel ih =>
    rw [readUntilLoop_of]
    rcases hturn : Swap.ReadUntil.turn byte s with ⟨t, _ | res⟩
    · have hlt := Swap.ReadUntil.turn_length hturn
      rw [Swap.ReadUntil.readUntilInternal_of_none hturn]
      exact ih (by omega)
    · rw [Swap.ReadUntil.readUntilInternal_of_some hturn]

theorem length_putBack_le (r : List UInt8) (es : Reader) :
    (Swap.ReadUntil.putBack r es).length ≤ es.length + 1 := by
  cases r with
  | nil => exact Nat.le_succ _
  | cons => exact Nat.le_refl _

theorem length_le_of_reads (h : Reads byte es data es' stop) : es'.length ≤ es.length := by
  induction h with
  | eof => exact Nat.le_refl 0
  | pending | error => exact Nat.le_succ _
  | line => exact length_putBack_le ..
  | chunk _ _ ih => exact Nat.le_succ_of_le ih

theorem Enough.after (h : Enough cx s.reader) (byte : UInt8) :
    Enough cx (Swap.ReadUntil.readUntilInternal byte s).1.reader := by
  obtain ⟨es, buf, read⟩ := s
  obtain ⟨data, es', stop, hreads⟩ := exists_reads byte es
  have hle := length_le_of_reads hreads
  rw [Swap.ReadUntil.readUntilInternal_eq hreads]
  cases stop <;> exact Nat.lt_of_le_of_lt hle h

end Until

/-! ## `Split` -/

section Split

variable {cx : Context} {s t : Swap.ReadUntil.Split} {byte : UInt8} {es : Reader}

def Split.of (s : Swap.ReadUntil.Split) : Split Reader := ⟨⟨s.reader, s.buf, s.read⟩, s.delim⟩

theorem Split.pollNext_of {res : Polling.Poll (Option (Except Swap.ErrorKind (List UInt8)))}
    (h : Enough cx s.reader) (hpoll : s.pollNext = .ok (res, t)) :
    Split.pollNext cx (.of s) = .ok (res.map (Option.map (Except.mapError failure)), .of t) ∧
      Enough cx t.reader := by
  have hread := readUntilInternal_of (s := ⟨s.reader, s.buf, s.read⟩) s.delim h
  have hafter := Enough.after (s := ⟨s.reader, s.buf, s.read⟩) h s.delim
  change ready (readUntilInternal cx s.delim (.of ⟨s.reader, s.buf, s.read⟩)) _ _ = _ ∧ _
  rw [hread]
  unfold Swap.ReadUntil.Split.pollNext at hpoll
  generalize Swap.ReadUntil.readUntilInternal s.delim ⟨s.reader, s.buf, s.read⟩ = out at *
  obtain ⟨r, _ | n | e⟩ := out
  · cases hpoll
    exact ⟨rfl, hafter⟩
  · dsimp only at hpoll
    split at hpoll
    · rename_i hend
      cases hpoll
      exact ⟨if_pos hend, hafter⟩
    · rename_i hend
      split at hpoll
      · cases hpoll
      · rename_i last hlast
        cases hpoll
        refine ⟨(if_neg hend).trans ?_, hafter⟩
        simp only [Reading.of, hlast]
        rfl
  · cases hpoll
    rw [answer_error]
    exact ⟨rfl, hafter⟩

theorem Split.yields_of {items : List (Except Swap.ErrorKind (List UInt8))}
    (h : Enough cx es) (hyields : Yields Swap.ReadUntil.Split.pollNext (Swap.ReadUntil.split es byte) items) :
    Yields (Split.pollNext cx) (split es byte) (items.map (Except.mapError failure)) :=
  hyields.simulates (r := fun s t => t = .of s ∧ Enough cx s.reader)
    (fun hr hpoll => by
      obtain ⟨rfl, h⟩ := hr
      obtain ⟨heq, hafter⟩ := pollNext_of h hpoll
      exact ⟨_, heq, rfl, hafter⟩)
    ⟨rfl, h⟩

end Split

/-! ## Lines -/

section Lines

open Swap.ReadLine (LineReader)

open Utf8 (decode)

variable {cx : Context} {s t : LineReader} {es : Reader}

def ReadingLine.of (s : LineReader) : ReadingLine Reader :=
  ⟨.of ⟨s.reader, s.bytes, s.read⟩, s.buf⟩

def lineFailure : Swap.ReadLine.Error → Error
  | .reader e => failure e
  | .invalidData message => ⟨.invalidData, some message⟩

/-- Behind `ret` both builds decode; the assertions are all that a debug build adds. -/
theorem finish_of {ret : Except Swap.ReadLine.Error Nat}
    {res : Polling.Poll (Except Swap.ReadLine.Error Nat)}
    (h : Swap.ReadLine.finish s ret = .ok (res, t)) :
    (match decode s.bytes with
      | some text => .ok (.ready (ret.mapError lineFailure), ⟨⟨s.reader, [], s.read⟩, text⟩)
      | none => .ok (.ready ((ret.mapError lineFailure).bind fun _ => .error notUtf8),
          ⟨⟨s.reader, [], s.read⟩, s.buf⟩)) =
      (.ok (res.map (Except.mapError lineFailure), .of t) :
        Outcome (ReadingLine Reader) (Result Nat)) ∧ t.reader = s.reader := by
  unfold Swap.ReadLine.finish at h
  cases htext : decode s.bytes with
  | some text =>
    simp only [htext] at h
    split at h
    · cases h
    · split at h
      · cases h
      · cases h
        exact ⟨rfl, rfl⟩
  | none =>
    simp only [htext] at h
    cases h
    cases ret <;> exact ⟨rfl, rfl⟩

/-- A debug build that fails no assertion does what a release build does. -/
theorem readLineInternal_of {res : Polling.Poll (Except Swap.ReadLine.Error Nat)}
    (h : Enough cx s.reader) (hpoll : Swap.ReadLine.readLineInternal s = .ok (res, t)) :
    readLineInternal cx (.of s) = .ok (res.map (Except.mapError lineFailure), .of t) ∧
      Enough cx t.reader := by
  have hread := readUntilInternal_of (s := ⟨s.reader, s.bytes, s.read⟩) 10 h
  have hafter := Enough.after (s := ⟨s.reader, s.bytes, s.read⟩) h 10
  change ready (readUntilInternal cx 10 (.of ⟨s.reader, s.bytes, s.read⟩)) _ _ = _ ∧ _
  rw [hread]
  unfold Swap.ReadLine.readLineInternal at hpoll
  generalize Swap.ReadUntil.readUntilInternal 10 ⟨s.reader, s.bytes, s.read⟩ = out at *
  obtain ⟨r, _ | n | e⟩ := out
  · cases hpoll
    exact ⟨rfl, hafter⟩
  · obtain ⟨heq, hreader⟩ := finish_of hpoll
    exact ⟨heq, hreader ▸ hafter⟩
  · obtain ⟨heq, hreader⟩ := finish_of hpoll
    rw [answer_error]
    exact ⟨heq, hreader ▸ hafter⟩

theorem Lines.pollNext_of {res : Polling.Poll (Option (Except Swap.ReadLine.Error String))}
    (h : Enough cx s.reader) (hpoll : Swap.ReadLine.Lines.pollNext s = .ok (res, t)) :
    Lines.pollNext cx ⟨.of s⟩ = .ok (res.map (Option.map (Except.mapError lineFailure)), ⟨.of t⟩) ∧
      Enough cx t.reader := by
  unfold Swap.ReadLine.Lines.pollNext at hpoll
  unfold Lines.pollNext
  split at hpoll
  · cases hpoll
  · rename_i hline
    obtain ⟨heq, hafter⟩ := readLineInternal_of h hline
    cases hpoll
    exact ⟨by rw [heq]; rfl, hafter⟩
  · rename_i hline
    obtain ⟨heq, hafter⟩ := readLineInternal_of h hline
    cases hpoll
    exact ⟨by rw [heq]; rfl, hafter⟩
  · rename_i hline
    obtain ⟨heq, hafter⟩ := readLineInternal_of h hline
    rw [heq]
    split at hpoll
    · rename_i hend
      cases hpoll
      exact ⟨if_pos hend, hafter⟩
    · rename_i hend
      cases hpoll
      exact ⟨if_neg hend, hafter⟩

theorem Lines.yields_of {items : List (Except Swap.ReadLine.Error String)} (h : Enough cx es)
    (hyields : Yields Swap.ReadLine.Lines.pollNext (Swap.ReadLine.lines es) items) :
    Yields (Lines.pollNext cx) (lines es) (items.map (Except.mapError lineFailure)) :=
  hyields.simulates (r := fun s t => t = ⟨.of s⟩ ∧ Enough cx s.reader)
    (fun hr hpoll => by
      obtain ⟨rfl, h⟩ := hr
      obtain ⟨heq, hafter⟩ := pollNext_of h hpoll
      exact ⟨_, heq, rfl, hafter⟩)
    ⟨rfl, h⟩

theorem ReadLineFuture.poll_of {res : Polling.Poll (Except Swap.ReadLine.Error Nat)}
    (h : Enough cx s.reader) (hpoll : Swap.ReadString.ReadLineFuture.poll s = .ok (res, t)) :
    ReadLineFuture.poll cx ⟨.of s⟩ = .ok (res.map (Except.mapError lineFailure), ⟨.of t⟩) ∧
      Enough cx t.reader := by
  obtain ⟨heq, hafter⟩ := readLineInternal_of h hpoll
  refine ⟨?_, hafter⟩
  rw [poll, heq]
  cases res <;> rfl

theorem ReadLineFuture.completes_of {init : String} {ret : Except Swap.ReadLine.Error Nat}
    (h : Enough cx es)
    (hcompletes : Completes Swap.ReadString.ReadLineFuture.poll (Swap.ReadString.readLine es init)
      ret s) :
    Completes (ReadLineFuture.poll cx) (readLine es init) (ret.mapError lineFailure)
      ⟨.of s⟩ := by
  have hstep : ∀ {s t : LineReader} {u : ReadLineFuture Reader} {res},
      u = ⟨.of s⟩ ∧ Enough cx s.reader → Swap.ReadString.ReadLineFuture.poll s = .ok (res, t) →
        ∃ u', u.poll cx = .ok (res.map (Except.mapError lineFailure), u') ∧
          u' = ⟨.of t⟩ ∧ Enough cx t.reader := by
    rintro s t u res ⟨rfl, h⟩ hpoll
    obtain ⟨heq, hafter⟩ := poll_of h hpoll
    exact ⟨_, heq, rfl, hafter⟩
  obtain ⟨u, hu, rfl, -⟩ := hcompletes.simulates
    (r := fun s (u : ReadLineFuture Reader) => u = ⟨.of s⟩ ∧ Enough cx s.reader) hstep ⟨rfl, h⟩
  exact hu

end Lines

/-- Without errors of the reader a release build cuts the input as a debug build does. -/
theorem events_cut {cx : Context} {es : Reader} (hes : Swap.ReadUntil.errors es = [])
    (h : Enough cx es) :
    (∀ delim, Yields (Split.pollNext cx) (split es delim)
      ((pieces delim id (contents es)).map .ok)) ∧
    Yields (Lines.pollNext cx) (lines es)
      ((pieces 10 dropCr (contents es)).map fun l => (lineOf l).mapError lineFailure) := by
  constructor
  · intro delim
    have hsplit := Split.yields_of h (split_cut hes delim)
    rwa [List.map_map] at hsplit
  · have hlines := Lines.yields_of h (lines_cut hes)
    rwa [List.map_map] at hlines

end Cynthia.AsyncIo
