import Cynthia.Swap.Lines
import Cynthia.Swap.ReadToEnd

/-! The futures of `read_line` and `read_to_string` of `future/swap.rs`, with the string
that they are given. -/

namespace Cynthia.Swap.ReadString

open Polling Utf8 ReadUntil ReadToEnd ReadLine

/-- The bytes before the first error or the end of the file. -/
def beforeError : Reader → List UInt8
  | [] => []
  | .pending :: es => beforeError es
  | .error _ :: _ => []
  | .chunk b bs :: es => b :: bs ++ beforeError es

/-- The bytes up to the first newline, or all of them. -/
def firstLine : List UInt8 → List UInt8
  | [] => []
  | b :: bs => if b = 10 then [b] else b :: firstLine bs

/-- `Ok(n)` means that the string is what it was and then `data`, of `n` bytes; after an
error it still starts with what it was. -/
def Appended (init : String) (data : List UInt8) (buf : String) : Except Error Nat → Prop
  | .ok n => bytes buf = bytes init ++ data ∧ n = data.length
  | .error _ => bytes init <+: bytes buf

/-! ## `read_line` -/

abbrev ReadLineFuture := LineReader

def readLine (reader : Reader) (buf : String) : ReadLineFuture := ⟨reader, buf, [], 0⟩

def ReadLineFuture.poll : ReadLineFuture →
    Except Fault (Polling.Poll (Except Error Nat) × ReadLineFuture) := readLineInternal

/-- The future becomes ready, without a failed assertion, and has appended a line. -/
def ReadLineAppends (init : String) (es : Reader) : Prop :=
  ∃ ret s, Completes ReadLineFuture.poll (readLine es init) ret s ∧
    Appended init (firstLine (contents es)) s.buf ret

/-! ## `read_to_string` -/

structure ReadToStringFuture where
  reader : Reader
  buf : String
  bytes : Vec
  startLen : Nat

def readToString (reader : Reader) (buf : String) : ReadToStringFuture := ⟨reader, buf, .new, 0⟩

/-- What is done once `read_to_end_internal` is ready with `ret`. -/
def ReadToStringFuture.finish (s : ReadToStringFuture) (ret : Except Error Nat) :
    Except Fault (Polling.Poll (Except Error Nat) × ReadToStringFuture) :=
  match decode s.bytes.data with
  | some text =>
    if s.buf ≠ "" then .error .bufNotEmpty
    else .ok (.ready ret, { s with buf := text, bytes := .new })
  | none => .ok (.ready (ret.bind fun _ => .error notUtf8), { s with bytes := .new })

def ReadToStringFuture.poll (a : Allocator) (s : ReadToStringFuture) :
    Except Fault (Polling.Poll (Except Error Nat) × ReadToStringFuture) :=
  let (reader, bytes, res) := readToEndInternal a s.reader s.bytes s.startLen
  let s := { s with reader, bytes }
  match res with
  | .pending => .ok (.pending, s)
  | .error e => s.finish (.error (.reader e))
  | .ok n => s.finish (.ok n)

def ReadToStringAppends (a : Allocator) (init : String) (es : Reader) : Prop :=
  ∃ ret s, Completes (ReadToStringFuture.poll a) (readToString es init) ret s ∧
    Appended init (contents es) s.buf ret

section Line

variable {init : String} {es es' : Reader} {l r data since : List UInt8} {stop : Stop}

theorem firstLine_of_not_mem (h : 10 ∉ l) (r : List UInt8) :
    firstLine (l ++ r) = l ++ firstLine r := by
  induction l with
  | nil => rfl
  | cons b l ih =>
    rw [List.mem_cons, not_or] at h
    rw [List.cons_append, firstLine, if_neg (Ne.symm h.1), ih h.2]
    rfl

theorem firstLine_append_cons (h : 10 ∉ l) : firstLine (l ++ 10 :: r) = l ++ [10] := by
  rw [firstLine_of_not_mem h]
  rfl

theorem beforeError_putBack (r : List UInt8) (es : Reader) :
    beforeError (putBack r es) = r ++ beforeError es := by
  cases r <;> rfl

/-- What comes behind the events that a call has used up. -/
def rest (es : Reader) : Stop → List UInt8
  | .error _ => []
  | _ => beforeError es

theorem beforeError_of_reads (h : Reads 10 es data es' stop) :
    beforeError es = data ++ rest es' stop := by
  induction h with
  | eof | pending | error => rfl
  | @line b bs l r es hl hchunk =>
    rw [beforeError, hchunk, rest, beforeError_putBack, List.append_assoc, List.append_assoc]
    · rfl
    · nofun
  | chunk hnot _ ih => rw [beforeError, ih, List.append_assoc]

theorem beforeError_of_drains (h : Drains es data es' stop) :
    beforeError es = data ++ rest es' stop := by
  induction h with
  | eof | pending | error => rfl
  | chunk _ ih => rw [beforeError, ih, List.append_assoc]

/-- One poll of `read_line`. -/
theorem poll_readLine (h : Reads 10 es data es' stop) (buf : String) (since : List UInt8)
    (n : Nat) :
    ReadLineFuture.poll ⟨es, buf, since, n⟩ = match stop with
      | .pending => .ok (.pending, ⟨es', buf, since ++ data, n + data.length⟩)
      | .error e => finish ⟨es', buf, since ++ data, n + data.length⟩ (.error (.reader e))
      | .line | .eof => finish ⟨es', buf, since ++ data, 0⟩ (.ok (n + data.length)) := by
  unfold ReadLineFuture.poll readLineInternal
  rw [readUntilInternal_eq h]
  cases stop <;> rfl

/-- Text is appended if the string was empty and nothing else is counted as read; bytes that
are no text leave the string as it was. -/
theorem finish_appends {s t : ReadLineFuture} {ret : Except Error Nat}
    (hpoll : ReadLineFuture.poll s = finish t ret)
    (hret : ∀ n, ret = .ok n → t.bytes = data ∧ n = data.length) :
    (∃ ret u, Completes ReadLineFuture.poll s ret u ∧ Appended t.buf data u.buf ret) ↔
      ¬Valid t.bytes ∨ t.buf = "" ∧ t.read = 0 := by
  unfold finish at hpoll
  cases htext : decode t.bytes with
  | none =>
    rw [htext] at hpoll
    refine iff_of_true ⟨_, _, .ready hpoll, ?_⟩ (.inl (decode_eq_none_iff.mp htext))
    cases ret <;> exact List.prefix_refl _
  | some text =>
    have hvalid : Valid t.bytes := valid_iff_isSome.mpr (by rw [htext]; rfl)
    rw [htext] at hpoll
    rw [or_iff_right (fun h => h hvalid)]
    dsimp only at hpoll
    by_cases hbuf : t.buf = ""
    · by_cases hread : t.read = 0
      · rw [if_neg (fun h => h hbuf), if_neg (fun h => h hread)] at hpoll
        refine iff_of_true ⟨_, _, .ready hpoll, ?_⟩ ⟨hbuf, hread⟩
        rw [hbuf]
        cases ret with
        | error e => exact List.nil_prefix ..
        | ok n =>
          obtain ⟨hdata, hn⟩ := hret n rfl
          exact ⟨(decode_eq_some_iff.mp htext).trans hdata, hn⟩
      · rw [if_neg (fun h => h hbuf), if_pos hread] at hpoll
        refine iff_of_false ?_ fun h => hread h.2
        rintro ⟨ret, u, hcompletes, -⟩
        exact not_completes_of_error hpoll hcompletes
    · rw [if_pos hbuf] at hpoll
      refine iff_of_false ?_ fun h => hbuf h.1
      rintro ⟨ret, u, hcompletes, -⟩
      exact not_completes_of_error hpoll hcompletes

/-- From any point within the line. -/
theorem readLine_from (since : List UInt8) (hsince : 10 ∉ since) :
    (∃ ret s, Completes ReadLineFuture.poll ⟨es, init, since, since.length⟩ ret s ∧
      Appended init (since ++ firstLine (contents es)) s.buf ret) ↔
    ¬Valid (since ++ firstLine (beforeError es)) ∨
      init = "" ∧ (10 ∈ beforeError es ∨ errors es = [] ∨ since ++ beforeError es = []) := by
  induction es using reads_induction 10 generalizing since with
  | step es data es' stop h ih =>
  have hpoll := poll_readLine h init since since.length
  have hcontents := h.contents
  have herrors := h.errors
  have hbefore := beforeError_of_reads h
  cases stop with
  | pending =>
    have hdata := h.not_mem nofun
    have hmem : 10 ∉ since ++ data :=
      List.not_mem_append hsince hdata
    dsimp only at hpoll
    rw [← List.length_append] at hpoll
    simp only [completes_of_pending hpoll]
    rw [hcontents, hbefore, rest, firstLine_of_not_mem hdata, firstLine_of_not_mem hdata,
      ← List.append_assoc, ← List.append_assoc, ← List.append_assoc, ih nofun _ hmem,
      herrors, List.mem_append, or_iff_right hdata]
    · rfl
    · nofun
  | error e =>
    have hdata := h.not_mem nofun
    dsimp only at hpoll
    have hbefore' : beforeError es = data := hbefore.trans (List.append_nil data)
    have hline : firstLine data = data := by
      have happend := firstLine_of_not_mem hdata []
      rwa [List.append_nil, show firstLine [] = [] from rfl, List.append_nil] at happend
    rw [finish_appends (t := ⟨es', init, since ++ data, since.length + data.length⟩) hpoll nofun,
      hbefore', hline, herrors]
    dsimp only
    rw [← List.length_append, List.length_eq_zero_iff, or_iff_right hdata,
      or_iff_right (b := since ++ data = []) (by exact nofun)]
  | line =>
    obtain ⟨l, rfl, hl⟩ := h.exists_line
    have hline : firstLine (contents es) = l ++ [10] := by
      rw [hcontents, List.append_assoc]
      exact firstLine_append_cons hl
    have hline' : firstLine (beforeError es) = l ++ [10] := by
      rw [hbefore, List.append_assoc]
      exact firstLine_append_cons hl
    have hmem : 10 ∈ beforeError es := by
      rw [hbefore]
      simp
    rw [hline, hline', finish_appends (t := ⟨es', init, since ++ (l ++ [10]), 0⟩) hpoll]
    · exact or_congr_right (and_congr_right fun _ => iff_of_true rfl (.inl hmem))
    · intro n hn
      rw [← Except.ok.inj hn]
      exact ⟨rfl, List.length_append.symm⟩
  | eof =>
    obtain rfl := h.eof_eq
    have hdata := h.not_mem nofun
    have hline : firstLine (contents es) = data := by
      rw [hcontents, firstLine_of_not_mem hdata]
      exact List.append_nil data
    have hline' : firstLine (beforeError es) = data := by
      rw [hbefore, firstLine_of_not_mem hdata]
      exact List.append_nil data
    rw [hline, hline', finish_appends (t := ⟨[], init, since ++ data, 0⟩) hpoll]
    · exact or_congr_right (and_congr_right fun _ => iff_of_true rfl (.inr (.inl herrors)))
    · intro n hn
      rw [← Except.ok.inj hn]
      exact ⟨rfl, List.length_append.symm⟩

/-- One poll of `read_to_string`. -/
theorem poll_readToString {a : Allocator} (h : Drains es data es' stop) (buf : String) (v : Vec) :
    ∃ v', v'.data = v.data ++ data ∧
      ReadToStringFuture.poll a ⟨es, buf, v, 0⟩ = match stop with
        | .pending => .ok (.pending, ⟨es', buf, v', 0⟩)
        | .error e => ReadToStringFuture.finish ⟨es', buf, v', 0⟩ (.error (.reader e))
        | .line | .eof => ReadToStringFuture.finish ⟨es', buf, v', 0⟩ (.ok v'.data.length) := by
  obtain ⟨v', hcall, hdata⟩ := readToEndInternal_eq a 0 h v
  refine ⟨v', hdata, ?_⟩
  have hlen : v.data.length + data.length - 0 = v'.data.length := by
    rw [hdata, List.length_append, Nat.sub_zero]
  rw [hlen] at hcall
  simp only [ReadToStringFuture.poll, hcall]
  cases stop <;> rfl

theorem finish_appends_all {a : Allocator} {s t : ReadToStringFuture} {ret : Except Error Nat}
    (hpoll : ReadToStringFuture.poll a s = t.finish ret)
    (hret : ∀ n, ret = .ok n → t.bytes.data = data ∧ n = data.length) :
    (∃ ret u, Completes (ReadToStringFuture.poll a) s ret u ∧ Appended t.buf data u.buf ret) ↔
      ¬Valid t.bytes.data ∨ t.buf = "" := by
  unfold ReadToStringFuture.finish at hpoll
  cases htext : decode t.bytes.data with
  | none =>
    rw [htext] at hpoll
    refine iff_of_true ⟨_, _, .ready hpoll, ?_⟩ (.inl (decode_eq_none_iff.mp htext))
    cases ret <;> exact List.prefix_refl _
  | some text =>
    have hvalid : Valid t.bytes.data := valid_iff_isSome.mpr (by rw [htext]; rfl)
    rw [htext] at hpoll
    rw [or_iff_right (fun h => h hvalid)]
    dsimp only at hpoll
    by_cases hbuf : t.buf = ""
    · rw [if_neg (fun h => h hbuf)] at hpoll
      refine iff_of_true ⟨_, _, .ready hpoll, ?_⟩ hbuf
      rw [hbuf]
      cases ret with
      | error e => exact List.nil_prefix ..
      | ok n =>
        obtain ⟨hdata, hn⟩ := hret n rfl
        exact ⟨(decode_eq_some_iff.mp htext).trans hdata, hn⟩
    · rw [if_pos hbuf] at hpoll
      refine iff_of_false ?_ hbuf
      rintro ⟨ret, u, hcompletes, -⟩
      exact not_completes_of_error hpoll hcompletes

/-- From any point within the input. -/
theorem readToString_from {a : Allocator} (v : Vec) :
    (∃ ret s, Completes (ReadToStringFuture.poll a) ⟨es, init, v, 0⟩ ret s ∧
      Appended init (v.data ++ contents es) s.buf ret) ↔
    ¬Valid (v.data ++ beforeError es) ∨ init = "" := by
  induction hn : size es using Nat.strongRecOn generalizing es v with
  | ind n ih =>
  subst hn
  obtain ⟨data, es', stop, h⟩ := exists_drains es
  obtain ⟨v', hdata, hpoll⟩ := poll_readToString (a := a) h init v
  have hcontents := h.contents
  have hbefore := beforeError_of_drains h
  cases stop with
  | pending =>
    simp only [completes_of_pending hpoll]
    rw [hcontents, hbefore, ← List.append_assoc, ← List.append_assoc, ← hdata,
      ih _ (h.size_lt nofun) v' rfl]
    rfl
  | error e =>
    rw [finish_appends_all (t := ⟨es', init, v', 0⟩) hpoll nofun, hbefore, rest, List.append_nil,
      ← hdata]
  | line => exact absurd rfl h.ne_line
  | eof =>
    obtain rfl := h.eof_eq
    rw [hcontents, hbefore, show rest [] .eof = [] from rfl, show contents [] = [] from rfl,
      List.append_nil, ← hdata, finish_appends_all (t := ⟨[], init, v', 0⟩) hpoll]
    intro n hn
    exact ⟨rfl, (Except.ok.inj hn).symm⟩

end Line

/-- `read_line` and `read_to_string` append exactly if the string is empty, and no error comes
after a part of the line that is text; or if the bytes read are no text. -/
theorem read_string_appends_iff (a : Allocator) (init : String) (es : Reader) :
    (ReadLineAppends init es ↔ ¬Valid (firstLine (beforeError es)) ∨
      init = "" ∧ (10 ∈ beforeError es ∨ errors es = [] ∨ beforeError es = [])) ∧
    (ReadToStringAppends a init es ↔ ¬Valid (beforeError es) ∨ init = "") :=
  ⟨readLine_from [] List.not_mem_nil, readToString_from .new⟩

/-- A string that is not empty fails the assertion at the end of an empty input. -/
theorem read_line_into_text_fails : ¬ReadLineAppends "a" [] := by
  rintro ⟨ret, s, hcompletes, -⟩
  have hpoll := poll_readLine .eof "a" [] 0
  exact not_completes_of_error (hpoll.trans rfl) hcompletes

end Cynthia.Swap.ReadString
