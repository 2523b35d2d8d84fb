import Cynthia.Lib.Utf8
import Cynthia.Swap.ReadUntil
import Mathlib.Data.List.DropRight

/-! `read_line_internal` and the stream `Lines` of `future/swap.rs`, in a build with debug
assertions. -/

namespace Cynthia.Swap.ReadLine

open Polling Pieces Utf8 ReadUntil

inductive Error where
  | reader (e : ErrorKind)
  | invalidData (message : String)
  deriving DecidableEq

def notUtf8 : Error := .invalidData "stream did not contain valid UTF-8"

/-- The fields of `Lines` and of `ReadLineFuture`. -/
structure LineReader where
  reader : Reader
  buf : String
  bytes : List UInt8
  read : Nat
  deriving DecidableEq

/-- What `read_line_internal` does once `read_until_internal` is ready with `ret`. -/
def finish (s : LineReader) (ret : Except Error Nat) :
    Except Fault (Polling.Poll (Except Error Nat) × LineReader) :=
  match decode s.bytes with
  | some text =>
    if s.buf ≠ "" then .error .bufNotEmpty
    else if s.read ≠ 0 then .error .readNotZero
    else .ok (.ready ret, { s with buf := text, bytes := [] })
  | none => .ok (.ready (ret.bind fun _ => .error notUtf8), { s with bytes := [] })

def readLineInternal (s : LineReader) :
    Except Fault (Polling.Poll (Except Error Nat) × LineReader) :=
  let (r, res) := readUntilInternal 10 ⟨s.reader, s.bytes, s.read⟩
  let s := { s with reader := r.reader, bytes := r.buf, read := r.read }
  match res with
  | .pending => .ok (.pending, s)
  | .error e => finish s (.error (.reader e))
  | .ok n => finish s (.ok n)

/-! ## `Lines` -/

/-- `buf.ends_with(c)`. -/
def endsWith (buf : String) (c : Char) : Bool := buf.toList.getLast? == some c

/-- What `buf.pop()` leaves. -/
def pop (buf : String) : String := String.ofList buf.toList.dropLast

/-- The line without its terminator. -/
def trim (buf : String) : String :=
  if endsWith buf '\n' then
    let buf := pop buf
    if endsWith buf '\r' then pop buf else buf
  else buf

abbrev Lines := LineReader

def lines (reader : Reader) : Lines := ⟨reader, "", [], 0⟩

def Lines.pollNext (s : Lines) :
    Except Fault (Polling.Poll (Option (Except Error String)) × Lines) :=
  match readLineInternal s with
  | .error fault => .error fault
  | .ok (.pending, s) => .ok (.pending, s)
  | .ok (.ready (.error e), s) => .ok (.ready (some (.error e)), s)
  | .ok (.ready (.ok n), s) =>
    if n = 0 ∧ s.buf = "" then .ok (.ready none, s)
    else .ok (.ready (some (.ok (trim s.buf))), { s with buf := "" })

/-! ## One poll -/

/-- A line without the carriage return at its end. -/
def dropCr (l : List UInt8) : List UInt8 := if l.getLast? = some 13 then l.dropLast else l

/-- The item for the bytes of a line. -/
def lineOf (l : List UInt8) : Except Error String :=
  match decode l with
  | some text => .ok text
  | none => .error notUtf8

section Trim

variable {l : List UInt8} {s : String} {c d : Char} {b : UInt8}

theorem endsWith_push : endsWith (s.push c) d = (c == d) := by
  rw [endsWith, String.toList_push, List.getLast?_concat]
  rfl

theorem pop_push : pop (s.push c) = s := by
  rw [pop, String.toList_push, List.dropLast_concat, String.ofList_toList]

theorem endsWith_iff (hb : b.toNat < 128) (hc : String.utf8EncodeChar c = [b]) :
    endsWith s c = true ↔ (bytes s).getLast? = some b := by
  rw [endsWith, beq_iff_eq, getLast?_bytes_iff hb hc]

theorem trim_of_not_mem (h : 10 ∉ bytes s) : trim s = s := by
  refine if_neg fun hends => h ?_
  exact List.mem_of_getLast? ((endsWith_iff (b := 10) (by decide) (by decide)).mp hends)

/-- The terminator is taken off the text as it would be taken off the bytes. -/
theorem decode_line (l : List UInt8) :
    (decode (l ++ [10])).map trim = decode (dropCr l) := by
  rw [decode_concat (c := '\n') (by decide) (by decide), Option.map_map]
  have htrim : ∀ s : String, trim (s.push '\n') = if endsWith s '\r' then pop s else s := by
    intro s
    rw [trim, endsWith_push, if_pos (by decide), pop_push]
  have hends : ∀ s, decode l = some s → (endsWith s '\r' = true ↔ l.getLast? = some 13) := by
    intro s hs
    rw [endsWith_iff (b := 13) (by decide) (by decide), decode_eq_some_iff.mp hs]
  unfold dropCr
  split
  · rename_i hcr
    obtain ⟨l', rfl⟩ := List.getLast?_eq_some_iff.mp hcr
    rw [List.dropLast_concat]
    have hpush := decode_concat (l := l') (b := 13) (c := '\r') (by decide) (by decide)
    rw [hpush, Option.map_map]
    cases decode l' with
    | none => rfl
    | some s =>
      simp only [Option.map_some, Function.comp_apply, htrim, endsWith_push, pop_push]
      rfl
  · rename_i hcr
    cases hl : decode l with
    | none => rfl
    | some s =>
      have hnot : ¬endsWith s '\r' = true := fun h => hcr ((hends s hl).mp h)
      simp only [Option.map_some, Function.comp_apply, htrim, if_neg hnot]

end Trim

section Poll

variable {es es' : Reader} {data since l : List UInt8} {n : Nat} {e : ErrorKind}

theorem pollNext_pending (h : Reads 10 es data es' .pending) (since : List UInt8) (n : Nat) :
    Lines.pollNext ⟨es, "", since, n⟩ =
      .ok (.pending, ⟨es', "", since ++ data, n + data.length⟩) := by
  simp only [Lines.pollNext, readLineInternal, readUntilInternal_eq h, result]

/-- An error inside a line ends the poll, or it fails an assertion. -/
theorem pollNext_error (h : Reads 10 es data es' (.error e)) (since : List UInt8) (n : Nat) :
    Lines.pollNext ⟨es, "", since, n⟩ =
      match decode (since ++ data) with
      | some text =>
        if n + data.length = 0 then .ok (.ready (some (.error (.reader e))), ⟨es', text, [], 0⟩)
        else .error .readNotZero
      | none => .ok (.ready (some (.error (.reader e))), ⟨es', "", [], n + data.length⟩) := by
  simp only [Lines.pollNext, readLineInternal, readUntilInternal_eq h, result, finish]
  cases decode (since ++ data) with
  | none => rfl
  | some text =>
    by_cases hread : n + data.length = 0
    · simp only [hread, ne_eq, not_true_eq_false, if_false, if_true]
    · simp only [hread, ne_eq, not_true_eq_false, not_false_eq_true, if_false, if_true]

theorem pollNext_ok {stop : Stop} (h : Reads 10 es data es' stop)
    (hstop : stop = .line ∨ stop = .eof) :
    Lines.pollNext ⟨es, "", since, n⟩ =
      match decode (since ++ data) with
      | some text =>
        if n + data.length = 0 ∧ text = "" then .ok (.ready none, ⟨es', text, [], 0⟩)
        else .ok (.ready (some (.ok (trim text))), ⟨es', "", [], 0⟩)
      | none => .ok (.ready (some (.error notUtf8)), ⟨es', "", [], 0⟩) := by
  have hcall := readUntilInternal_eq h since n
  rcases hstop with rfl | rfl
  all_goals
    simp only [Lines.pollNext, readLineInternal, hcall, result, finish]
    cases decode (since ++ data) with
    | none => rfl
    | some text =>
      simp

theorem pollNext_line (h : Reads 10 es (l ++ [10]) es' .line) (since : List UInt8) (n : Nat) :
    Lines.pollNext ⟨es, "", since, n⟩ =
      .ok (.ready (some (lineOf (dropCr (since ++ l)))), ⟨es', "", [], 0⟩) := by
  have hline := decode_line (since ++ l)
  rw [pollNext_ok h (.inl rfl), lineOf, ← hline, ← List.append_assoc]
  cases decode (since ++ l ++ [10]) with
  | none => rfl
  | some text => simp

theorem pollNext_eof (h : Reads 10 es data [] .eof) (hsince : 10 ∉ since)
    (hempty : n = 0 → since = []) :
    Lines.pollNext ⟨es, "", since, n⟩ =
      if n + data.length = 0 then .ok (.ready none, ⟨[], "", [], 0⟩)
      else .ok (.ready (some (lineOf (since ++ data))), ⟨[], "", [], 0⟩) := by
  rw [pollNext_ok h (.inr rfl), lineOf]
  have hmem : 10 ∉ since ++ data :=
    List.not_mem_append hsince (h.not_mem nofun)
  cases htext : decode (since ++ data) with
  | none =>
    have hread : n + data.length ≠ 0 := by
      intro hzero
      obtain ⟨hn, hdata⟩ := Nat.add_eq_zero_iff.mp hzero
      rw [hempty hn, List.length_eq_zero_iff.mp hdata] at htext
      cases htext.symm.trans decode_nil
    rw [if_neg hread]
  | some text =>
    have hbytes := decode_eq_some_iff.mp htext
    by_cases hread : n + data.length = 0
    · obtain ⟨hn, hdata⟩ := Nat.add_eq_zero_iff.mp hread
      have hnil : text = "" := by
        refine bytes_injective ?_
        rw [hbytes, hempty hn, List.length_eq_zero_iff.mp hdata]
        rfl
      rw [if_pos hread]
      exact (if_pos ⟨hread, hnil⟩).trans (by rw [hnil])
    · rw [if_neg hread]
      refine (if_neg fun h => hread h.1).trans ?_
      rw [trim_of_not_mem (by rw [hbytes]; exact hmem)]

end Poll

/-! ## A run -/

/-- The bytes of the last line, if it is not ended. -/
def unfinished (xs : List UInt8) : List UInt8 := xs.rtakeWhile (· != 10)

/-- Every error of the reader comes where `P` holds, for the bytes of the current line that
have been read, and those of them that have been read since the last error. -/
def ErrorsAt (P : List UInt8 → List UInt8 → Prop) : List UInt8 → List UInt8 → Reader → Prop
  | _, _, [] => True
  | line, since, .pending :: es => ErrorsAt P line since es
  | line, since, .error _ :: es => P line since ∧ ErrorsAt P line [] es
  | line, since, .chunk b bs :: es =>
    ErrorsAt P (unfinished (line ++ b :: bs)) (unfinished (since ++ b :: bs)) es

def BetweenLines (line _since : List UInt8) : Prop := line = []

/-- An error here fails no assertion. -/
def Survived (line since : List UInt8) : Prop := line = [] ∨ ¬Valid since

section Run

variable {P Q : List UInt8 → List UInt8 → Prop} {es es' : Reader}
  {data line since l r : List UInt8} {stop : Stop}

theorem unfinished_of_not_mem (h : 10 ∉ l) : unfinished l = l := by
  rw [unfinished, List.rtakeWhile_eq_self_iff]
  intro b hb
  rw [bne_iff_ne]
  rintro rfl
  exact h hb

theorem unfinished_append_cons (l r : List UInt8) : unfinished (l ++ 10 :: r) = unfinished r := by
  induction r using List.reverseRecOn with
  | nil => exact List.rtakeWhile_concat_neg _ _ _ (by decide)
  | append_singleton r x ih =>
    have hcons : l ++ 10 :: (r ++ [x]) = l ++ 10 :: r ++ [x] := by simp
    unfold unfinished at ih ⊢
    rw [hcons, List.rtakeWhile_concat, List.rtakeWhile_concat, ih]

theorem ErrorsAt.mono (h : ∀ line since, P line since → Q line since)
    (hat : ErrorsAt P line since es) : ErrorsAt Q line since es := by
  induction es generalizing line since with
  | nil => trivial
  | cons event es ih =>
    cases event with
    | pending => exact ih hat
    | error e => exact ⟨h _ _ hat.1, ih hat.2⟩
    | chunk b bs => exact ih hat

theorem errorsAt_of_errors_nil (h : errors es = []) : ErrorsAt P line since es := by
  induction es generalizing line since with
  | nil => trivial
  | cons event es ih =>
    cases event with
    | pending => exact ih h
    | error e => cases h
    | chunk b bs => exact ih h

/-- What is still asked of the errors after a call. -/
def ErrorsAfter (P : List UInt8 → List UInt8 → Prop) (line since : List UInt8) (es : Reader) :
    Stop → Prop
  | .pending => ErrorsAt P line since es
  | .error _ => P line since ∧ ErrorsAt P line [] es
  | .line | .eof => ErrorsAt P [] [] es

theorem errorsAt_iff (h : Reads 10 es data es' stop) (hline : 10 ∉ line) (hsince : 10 ∉ since) :
    ErrorsAt P line since es ↔ ErrorsAfter P (line ++ data) (since ++ data) es' stop := by
  induction h generalizing line since with
  | eof => exact Iff.rfl
  | pending =>
    rw [List.append_nil, List.append_nil]
    exact Iff.rfl
  | error =>
    rw [List.append_nil, List.append_nil]
    exact Iff.rfl
  | @line b bs l r es hl hchunk =>
    rw [ErrorsAt, hchunk, ← List.append_assoc, ← List.append_assoc, unfinished_append_cons,
      unfinished_append_cons]
    cases r with
    | nil => exact Iff.rfl
    | cons b bs => exact Iff.rfl
  | @chunk b bs data es es' stop hnot h ih =>
    have hline' : 10 ∉ line ++ b :: bs :=
      List.not_mem_append hline hnot
    have hsince' : 10 ∉ since ++ b :: bs :=
      List.not_mem_append hsince hnot
    rw [ErrorsAt, unfinished_of_not_mem hline', unfinished_of_not_mem hsince', ih hline' hsince',
      List.append_assoc, List.append_assoc]

/-- The items other than the errors of the reader. -/
def itemOf : Except Error String → Option (Except Error String)
  | .error (.reader _) => none
  | item => some item

def errorOf : Except Error String → Option ErrorKind
  | .error (.reader e) => some e
  | _ => none

/-- The items of an input, line after line. -/
def lineItems (xs : List UInt8) : List (Except Error String) := (pieces 10 dropCr xs).map lineOf

theorem itemOf_lineOf (l : List UInt8) : itemOf (lineOf l) = some (lineOf l) := by
  unfold lineOf
  cases decode l <;> rfl

theorem errorOf_lineOf (l : List UInt8) : errorOf (lineOf l) = none := by
  unfold lineOf
  cases decode l <;> rfl

theorem lineItems_append_cons (h : 10 ∉ l) :
    lineItems (l ++ 10 :: r) = lineOf (dropCr l) :: lineItems r := by
  rw [lineItems, pieces_append_cons h, List.map_cons]
  rfl

theorem lineItems_of_not_mem (h : 10 ∉ l) (hne : l ≠ []) : lineItems l = [lineOf l] := by
  rw [lineItems, pieces_of_not_mem h hne]
  rfl

theorem pollNext_nil : Lines.pollNext ⟨[], "", [], 0⟩ = .ok (.ready none, ⟨[], "", [], 0⟩) :=
  pollNext_eof .eof List.not_mem_nil fun _ => rfl

/-- From any point within a line, with errors that fail no assertion: the stream comes to its
end, with all errors of the reader; and where they only come between lines, with all lines. -/
theorem lines_yields (es : Reader) (line since : List UInt8) (hline : 10 ∉ line)
    (hsince : since <:+ line) (hat : ErrorsAt Survived line since es) :
    ∃ items, Yields Lines.pollNext ⟨es, "", since, line.length⟩ items ∧
      items.filterMap errorOf = errors es ∧
      (since = line → ErrorsAt BetweenLines line since es →
        items.filterMap itemOf = lineItems (line ++ contents es)) := by
  induction es using reads_induction 10 generalizing line since with
  | step es data es' stop h ih =>
  have hsince' : 10 ∉ since := fun hmem => hline (hsince.subset hmem)
  have hsuffix : since ++ data <:+ line ++ data := by
    obtain ⟨q, rfl⟩ := hsince
    exact ⟨q, (List.append_assoc ..).symm⟩
  have hcontents := h.contents
  have herrors := h.errors
  rw [errorsAt_iff h hline hsince'] at hat
  rw [errorsAt_iff h hline hsince']
  have hmem : stop ≠ .line → 10 ∉ line ++ data := fun hstop =>
    List.not_mem_append hline (h.not_mem hstop)
  cases stop with
  | pending =>
    have hpoll := pollNext_pending h since line.length
    rw [← List.length_append] at hpoll
    obtain ⟨items, hyields, herr, hitems⟩ :=
      ih nofun (line ++ data) (since ++ data) (hmem nofun) hsuffix hat
    refine ⟨items, .pending hpoll hyields, herr.trans herrors.symm, fun heq hbetween => ?_⟩
    rw [hitems (by rw [heq]) hbetween, hcontents, List.append_assoc]
  | error e =>
    obtain ⟨hsurvived, hrest⟩ := hat
    have hpoll := pollNext_error h since line.length
    rw [← List.length_append] at hpoll
    have hpoll' : Lines.pollNext ⟨es, "", since, line.length⟩ =
        .ok (.ready (some (.error (.reader e))), ⟨es', "", [], (line ++ data).length⟩) := by
      rw [hpoll]
      rcases hsurvived with hnil | hinvalid
      · have hnil' : since ++ data = [] := List.suffix_nil.mp (hnil ▸ hsuffix)
        rw [hnil, hnil', decode_nil]
        rfl
      · rw [decode_eq_none_iff.mpr hinvalid]
    obtain ⟨items, hyields, herr, hitems⟩ :=
      ih nofun (line ++ data) [] (hmem nofun) (List.nil_suffix ..) hrest
    refine ⟨_, .item hpoll' hyields, ?_, fun heq hbetween => ?_⟩
    · rw [herrors]
      exact congrArg (e :: ·) herr
    · obtain ⟨hnil, hrest'⟩ := hbetween
      have hnil : line ++ data = [] := hnil
      rw [hcontents, ← List.append_assoc, ← hitems hnil.symm hrest']
      rfl
  | line =>
    obtain ⟨l, rfl, hl⟩ := h.exists_line
    obtain ⟨items, hyields, herr, hitems⟩ :=
      ih nofun [] [] List.not_mem_nil (List.nil_suffix ..) hat
    refine ⟨_, .item (pollNext_line h ..) hyields, ?_, fun heq hbetween => ?_⟩
    · rw [List.filterMap_cons, errorOf_lineOf, herr, herrors]
      rfl
    · have hmem : 10 ∉ line ++ l :=
        List.not_mem_append hline hl
      have hcut : line ++ contents es = (line ++ l) ++ 10 :: contents es' := by
        rw [hcontents, List.append_assoc, List.append_assoc]
        rfl
      rw [List.filterMap_cons, itemOf_lineOf, hcut, lineItems_append_cons hmem, heq,
        hitems rfl hbetween]
      rfl
  | eof =>
    obtain rfl := h.eof_eq
    have hempty : line.length = 0 → since = [] := fun hlen =>
      List.suffix_nil.mp (List.length_eq_zero_iff.mp hlen ▸ hsince)
    have hpoll := pollNext_eof (n := line.length) h hsince' hempty
    have hall : line ++ contents es = line ++ data := by
      rw [hcontents]
      exact congrArg (line ++ ·) (List.append_nil data)
    rw [← List.length_append] at hpoll
    rw [hall]
    by_cases hnil : (line ++ data).length = 0
    · rw [if_pos hnil] at hpoll
      refine ⟨[], .done hpoll, herrors.symm, fun _ _ => ?_⟩
      rw [List.length_eq_zero_iff.mp hnil]
      rfl
    · rw [if_neg hnil] at hpoll
      refine ⟨_, .item hpoll (.done pollNext_nil), ?_, fun heq _ => ?_⟩
      · rw [List.filterMap_cons, errorOf_lineOf, herrors]
        rfl
      · have hne : line ++ data ≠ [] := fun h => hnil (by rw [h]; rfl)
        rw [List.filterMap_cons, itemOf_lineOf, heq, lineItems_of_not_mem (hmem nofun) hne]
        rfl

theorem filterMap_itemOf {items : List (Except Error String)}
    (h : items.filterMap errorOf = []) : items.filterMap itemOf = items := by
  induction items with
  | nil => rfl
  | cons item items ih =>
    match item with
    | .ok text => exact congrArg (_ :: ·) (ih h)
    | .error (.invalidData message) => exact congrArg (_ :: ·) (ih h)
    | .error (.reader e) => cases h

end Run

/-- The text of a line, or the error for bytes that are none. -/
theorem lineOf_iff (l : List UInt8) :
    (∀ text, lineOf l = .ok text ↔ bytes text = l) ∧ (lineOf l = .error notUtf8 ↔ ¬Valid l) := by
  rw [← decode_eq_none_iff]
  simp only [← decode_eq_some_iff]
  unfold lineOf
  cases decode l with
  | none => exact ⟨fun _ => iff_of_false nofun nofun, iff_of_true rfl rfl⟩
  | some s =>
    exact ⟨fun text => ⟨fun h => congrArg some (Except.ok.inj h),
      fun h => congrArg Except.ok (Option.some.inj h)⟩, iff_of_false nofun nofun⟩

theorem split_cut {es : Reader} (hes : errors es = []) (delim : UInt8) :
    Yields Split.pollNext (split es delim) ((pieces delim id (contents es)).map .ok) := by
  obtain ⟨items, hyields, hpieces, herr⟩ := split_yields es [] delim List.not_mem_nil
  rw [eq_map_ok (herr.trans hes), hpieces] at hyields
  exact hyields

theorem lines_cut {es : Reader} (hes : errors es = []) :
    Yields Lines.pollNext (lines es) ((pieces 10 dropCr (contents es)).map lineOf) := by
  obtain ⟨items, hyields, herr, hitems⟩ := lines_yields es [] [] List.not_mem_nil
    (List.nil_suffix ..) (errorsAt_of_errors_nil hes)
  have hlines := hitems rfl (errorsAt_of_errors_nil hes)
  rw [filterMap_itemOf (herr.trans hes)] at hlines
  rw [hlines] at hyields
  exact hyields

/-- Without errors of the reader, whatever the chunks: `Split` gives the pieces between the
delimiters, `Lines` those between newlines as texts, and then `None`. -/
theorem lines_and_split_cut (es : Reader) (hes : errors es = []) :
    (∀ delim, Yields Split.pollNext (split es delim)
      ((pieces delim id (contents es)).map .ok)) ∧
    Yields Lines.pollNext (lines es) ((pieces 10 dropCr (contents es)).map lineOf) ∧
    ∀ l, (∀ text, lineOf l = .ok text ↔ bytes text = l) ∧
      (lineOf l = .error notUtf8 ↔ ¬Valid l) :=
  ⟨split_cut hes, lines_cut hes, lineOf_iff⟩

/-- `a\r`, then `\nb`. -/
theorem lines_and_split_cut_between_chunks :
    Yields Lines.pollNext (lines [.chunk 97 [13], .pending, .chunk 10 [98]])
      [.ok "a", .ok "b"] := by
  have hitems : (pieces 10 dropCr (contents [.chunk 97 [13], .pending, .chunk 10 [98]])).map lineOf =
      [.ok "a", .ok "b"] := by rfl
  rw [← hitems]
  exact (lines_and_split_cut [.chunk 97 [13], .pending, .chunk 10 [98]] rfl).2.1

end Cynthia.Swap.ReadLine
