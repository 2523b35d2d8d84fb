import Cynthia.Swap.Lines
import Mathlib.Algebra.GroupWithZero.Nat

/-! `Lines` over a reader with transient errors. An error inside a line fails an assertion
or loses what has been read of the line; a run that loses bytes gives fewer bytes of text in
all. -/

namespace Cynthia.Swap.ReadLine

open Polling Pieces Utf8 ReadUntil

def withoutErrors : Reader → Reader
  | [] => []
  | .error _ :: es => withoutErrors es
  | event :: es => event :: withoutErrors es

def textOf : Except Error String → Option String
  | .ok text => some text
  | .error _ => none

/-- The polls up to `None` fail no assertion and, for valid UTF-8, give the texts of the
reader without the errors. -/
def Undisturbed (es : Reader) : Prop :=
  ∃ items, Yields Lines.pollNext (lines es) items ∧
    (Valid (contents es) → ∃ items', Yields Lines.pollNext (lines (withoutErrors es)) items' ∧
      items.filterMap textOf = items'.filterMap textOf)

/-- The bytes of all texts. -/
def weight (items : List (Except Error String)) : Nat :=
  ((items.filterMap textOf).map fun text => (bytes text).length).sum

/-- The bytes of all lines. -/
def total (xs : List UInt8) : Nat := ((pieces 10 dropCr xs).map List.length).sum

/-- Bytes that are missed at the start of a line, with its terminator or not. -/
def Lossy (q : List UInt8) : Prop := q ≠ [] ∧ q ≠ [13]

section Loss

variable {es : Reader} {q r l since : List UInt8} {item : Except Error String}
  {items : List (Except Error String)}

theorem contents_withoutErrors (es : Reader) : contents (withoutErrors es) = contents es := by
  induction es with
  | nil => rfl
  | cons event es ih =>
    cases event with
    | pending => exact ih
    | error e => exact ih
    | chunk b bs => exact congrArg (b :: bs ++ ·) ih

theorem errors_withoutErrors (es : Reader) : errors (withoutErrors es) = [] := by
  induction es with
  | nil => rfl
  | cons event es ih => cases event <;> exact ih

theorem dropCr_append (hr : r ≠ []) : dropCr (q ++ r) = q ++ dropCr r := by
  have hlast : (q ++ r).getLast? = r.getLast? := List.getLast?_append_of_ne_nil q hr
  unfold dropCr
  rw [hlast]
  split
  · exact List.dropLast_append_of_ne_nil hr
  · rfl

theorem length_dropCr_lt (hq : Lossy q) (r : List UInt8) :
    (dropCr r).length < (dropCr (q ++ r)).length := by
  obtain ⟨hne, hcr⟩ := hq
  by_cases hr : r = []
  · subst hr
    rw [List.append_nil]
    show 0 < (dropCr q).length
    rw [List.length_pos_iff]
    unfold dropCr
    split
    · rename_i hlast
      obtain ⟨l, rfl⟩ := List.getLast?_eq_some_iff.mp hlast
      rw [List.dropLast_concat]
      rintro rfl
      exact hcr rfl
    · exact hne
  · have hpos : 0 < q.length := List.length_pos_iff.mpr hne
    rw [dropCr_append hr, List.length_append]
    omega

theorem lossy_append (hq : q = [] ∨ Lossy q) (hr : ¬Valid r) : Lossy (q ++ r) := by
  have hne : r ≠ [] := by
    rintro rfl
    exact hr valid_nil
  refine ⟨fun h => hne (List.append_eq_nil_iff.mp h).2, fun h => ?_⟩
  rcases hq with rfl | ⟨hq, -⟩
  · rw [List.nil_append] at h
    subst h
    exact hr (by decide)
  · have hlen := congrArg List.length h
    have hpos : 0 < q.length := List.length_pos_iff.mpr hq
    have hpos' : 0 < r.length := List.length_pos_iff.mpr hne
    rw [List.length_append, List.length_singleton] at hlen
    omega

theorem weight_lineOf_le (items : List (Except Error String)) (l : List UInt8) :
    weight (lineOf l :: items) ≤ l.length + weight items := by
  unfold lineOf
  cases htext : decode l with
  | none => exact Nat.le_add_left ..
  | some text =>
    refine Nat.le_of_eq (List.sum_cons.trans (congrArg (· + weight items) ?_))
    exact congrArg List.length (decode_eq_some_iff.mp htext)

theorem total_append_cons (h : 10 ∉ l) : total (l ++ 10 :: r) = (dropCr l).length + total r := by
  rw [total, pieces_append_cons h, List.map_cons, List.sum_cons]
  rfl

theorem total_of_not_mem (h : 10 ∉ l) : total l = l.length := by
  by_cases hl : l = []
  · subst hl
    rfl
  · rw [total, pieces_of_not_mem h hl]
    exact List.sum_singleton ..

/-- The texts that follow come from the rest of the input. They have fewer bytes than its
lines if the start of a line has been missed or is going to be. -/
theorem weight_le (hyields : Yields Lines.pollNext ⟨es, "", since, (q ++ since).length⟩ items)
    (hmem : 10 ∉ q ++ since) (hq : q = [] ∨ Lossy q) :
    weight items ≤ total (q ++ since ++ contents es) ∧
      (Lossy q ∨ ¬ErrorsAt BetweenLines (q ++ since) since es →
        weight items < total (q ++ since ++ contents es)) := by
  induction es using reads_induction 10 generalizing q since items with
  | step es data es' stop h ih =>
  have hsince : 10 ∉ since := fun hin => hmem (List.mem_append_right q hin)
  have hcontents := h.contents
  rw [errorsAt_iff h hmem hsince]
  have hmem' : stop ≠ .line → 10 ∉ q ++ (since ++ data) := fun hstop => by
    rw [← List.append_assoc]
    exact List.not_mem_append hmem (h.not_mem hstop)
  have hlen : (q ++ since).length + data.length = (q ++ (since ++ data)).length := by
    rw [← List.append_assoc]
    exact List.length_append.symm
  have hall : q ++ since ++ contents es = q ++ (since ++ data) ++ contents es' := by
    simp only [hcontents, List.append_assoc]
  rw [hall, List.append_assoc q since data]
  cases stop with
  | pending =>
    have hpoll := pollNext_pending h since (q ++ since).length
    rw [hlen] at hpoll
    exact ih nofun (hyields.of_pending hpoll) (hmem' nofun) hq
  | error e =>
    have hpoll := pollNext_error h since (q ++ since).length
    rw [hlen] at hpoll
    cases htext : decode (since ++ data) with
    | none =>
      -- What has been read of the line since the last error is dropped.
      rw [htext] at hpoll
      obtain ⟨items, rfl, hrest⟩ := hyields.of_item hpoll
      have hlossy : Lossy (q ++ (since ++ data)) := lossy_append hq (decode_eq_none_iff.mp htext)
      have hread : q ++ (since ++ data) ++ [] = q ++ (since ++ data) := List.append_nil _
      rw [← hread] at hrest
      have hnext := ih nofun hrest (by rw [hread]; exact hmem' nofun) (.inr hlossy)
      rw [hread] at hnext
      exact ⟨hnext.1, fun _ => hnext.2 (.inl hlossy)⟩
    | some text =>
      rw [htext] at hpoll
      dsimp only at hpoll
      by_cases hzero : (q ++ (since ++ data)).length = 0
      · rw [if_pos hzero] at hpoll
        obtain ⟨items, rfl, hrest⟩ := hyields.of_item hpoll
        have hnil := List.length_eq_zero_iff.mp hzero
        obtain ⟨hqnil, hsincenil⟩ := List.append_eq_nil_iff.mp hnil
        have htext' : text = "" := by
          rw [hsincenil] at htext
          exact Option.some.inj (htext.symm.trans decode_nil)
        rw [htext'] at hrest
        have hnext := ih nofun (q := []) hrest List.not_mem_nil (.inl rfl)
        rw [hnil]
        refine ⟨hnext.1, fun hbad => hnext.2 (.inr fun hat => ?_)⟩
        rcases hbad with hlossy | hnot
        · exact hlossy.1 hqnil
        · exact hnot ⟨rfl, hat⟩
      · rw [if_neg hzero] at hpoll
        exact absurd hpoll (hyields.ne_error _)
  | line =>
    obtain ⟨l, rfl, hl⟩ := h.exists_line
    have hpoll := pollNext_line h since (q ++ since).length
    obtain ⟨items, rfl, hrest⟩ := hyields.of_item hpoll
    have hnext := ih nofun (q := []) hrest List.not_mem_nil (.inl rfl)
    have hitem := weight_lineOf_le items (dropCr (since ++ l))
    have hmem : 10 ∉ q ++ (since ++ l) := by
      rw [← List.append_assoc]
      exact List.not_mem_append hmem hl
    have hcut : q ++ (since ++ (l ++ [10])) ++ contents es' =
        q ++ (since ++ l) ++ 10 :: contents es' := by simp
    rw [hcut, total_append_cons hmem]
    have hle : (dropCr (since ++ l)).length ≤ (dropCr (q ++ (since ++ l))).length := by
      rcases hq with rfl | hlossy
      · exact Nat.le_refl _
      · exact Nat.le_of_lt (length_dropCr_lt hlossy _)
    simp only [List.nil_append] at hnext
    refine ⟨by omega, fun hbad => ?_⟩
    rcases hbad with hlossy | hnot
    · have hlt := length_dropCr_lt hlossy (since ++ l)
      omega
    · have hlt := hnext.2 (.inr hnot)
      omega
  | eof =>
    obtain rfl := h.eof_eq
    have hempty : (q ++ since).length = 0 → since = [] := fun hzero =>
      (List.append_eq_nil_iff.mp (List.length_eq_zero_iff.mp hzero)).2
    have hpoll := pollNext_eof (n := (q ++ since).length) h hsince hempty
    rw [hlen] at hpoll
    have hsum : total (q ++ (since ++ data) ++ contents []) = q.length + (since ++ data).length := by
      rw [show contents [] = [] from rfl, List.append_nil, total_of_not_mem (hmem' nofun),
        List.length_append]
    have hcalm : ¬¬ErrorsAfter BetweenLines (q ++ (since ++ data)) (since ++ data) [] .eof :=
      fun h => h trivial
    rw [hsum]
    by_cases hzero : (q ++ (since ++ data)).length = 0
    · rw [if_pos hzero] at hpoll
      obtain rfl := hyields.of_done hpoll
      refine ⟨Nat.zero_le _, fun hbad => ?_⟩
      have hlossy := hbad.resolve_right hcalm
      exact absurd (List.append_eq_nil_iff.mp (List.length_eq_zero_iff.mp hzero)).1 hlossy.1
    · rw [if_neg hzero] at hpoll
      obtain ⟨items, rfl, hrest⟩ := hyields.of_item hpoll
      obtain rfl := hrest.of_done pollNext_nil
      have hitem := weight_lineOf_le [] (since ++ data)
      have hnil : weight [] = 0 := rfl
      refine ⟨by omega, fun hbad => ?_⟩
      have hpos : 0 < q.length := List.length_pos_iff.mpr (hbad.resolve_right hcalm).1
      omega

/-- A run that comes to its end has failed no assertion. -/
theorem survived_of_yields {line : List UInt8}
    (hyields : Yields Lines.pollNext ⟨es, "", since, line.length⟩ items) (hline : 10 ∉ line)
    (hsince : since <:+ line) : ErrorsAt Survived line since es := by
  induction es using reads_induction 10 generalizing line since items with
  | step es data es' stop h ih =>
  have hsince' : 10 ∉ since := fun hmem => hline (hsince.subset hmem)
  have hsuffix : since ++ data <:+ line ++ data := by
    obtain ⟨q, rfl⟩ := hsince
    exact ⟨q, (List.append_assoc ..).symm⟩
  have hmem : stop ≠ .line → 10 ∉ line ++ data := fun hstop =>
    List.not_mem_append hline (h.not_mem hstop)
  rw [errorsAt_iff h hline hsince']
  cases stop with
  | pending =>
    have hpoll := pollNext_pending h since line.length
    rw [← List.length_append] at hpoll
    exact ih nofun (hyields.of_pending hpoll) (hmem nofun) hsuffix
  | error e =>
    have hpoll := pollNext_error h since line.length
    rw [← List.length_append] at hpoll
    cases htext : decode (since ++ data) with
    | none =>
      rw [htext] at hpoll
      obtain ⟨items, rfl, hrest⟩ := hyields.of_item hpoll
      exact ⟨.inr (decode_eq_none_iff.mp htext),
        ih nofun hrest (hmem nofun) (List.nil_suffix ..)⟩
    | some text =>
      rw [htext] at hpoll
      dsimp only at hpoll
      by_cases hzero : (line ++ data).length = 0
      · have hnil := List.length_eq_zero_iff.mp hzero
        rw [if_pos hzero] at hpoll
        obtain ⟨items, rfl, hrest⟩ := hyields.of_item hpoll
        have htext' : text = "" := by
          have hnil' : since ++ data = [] := List.suffix_nil.mp (hnil ▸ hsuffix)
          rw [hnil'] at htext
          exact Option.some.inj (htext.symm.trans decode_nil)
        rw [htext'] at hrest
        refine ⟨.inl hnil, ?_⟩
        rw [hnil]
        have hrest' : Yields Lines.pollNext ⟨es', "", [], ([] : List UInt8).length⟩ items := hrest
        exact ih nofun hrest' List.not_mem_nil (List.nil_suffix ..)
      · rw [if_neg hzero] at hpoll
        exact absurd hpoll (hyields.ne_error _)
  | line =>
    obtain ⟨l, rfl, hl⟩ := h.exists_line
    have hpoll := pollNext_line h since line.length
    obtain ⟨items, rfl, hrest⟩ := hyields.of_item hpoll
    have hrest' : Yields Lines.pollNext ⟨es', "", [], ([] : List UInt8).length⟩ items := hrest
    exact ih nofun hrest' List.not_mem_nil (List.nil_suffix ..)
  | eof =>
    obtain rfl := h.eof_eq
    trivial

theorem valid_dropCr (h : Valid l) : Valid (dropCr l) := by
  unfold dropCr
  split
  · rename_i hlast
    obtain ⟨l, rfl⟩ := List.getLast?_eq_some_iff.mp hlast
    rw [List.dropLast_concat]
    exact (h.of_append_cons (by decide)).1
  · exact h

theorem weight_lineOf (h : Valid l) : weight (lineOf l :: items) = l.length + weight items := by
  obtain ⟨text, htext⟩ := Option.isSome_iff_exists.mp (valid_iff_isSome.mp h)
  unfold lineOf
  rw [htext]
  refine List.sum_cons.trans (congrArg (· + weight items) ?_)
  exact congrArg List.length (decode_eq_some_iff.mp htext)

/-- All bytes of valid lines are in their texts. -/
theorem weight_lineItems {xs : List UInt8} (h : Valid xs) : weight (lineItems xs) = total xs := by
  induction xs using cut_induction (10 : UInt8) with
  | nil => rfl
  | last l hl hne =>
    rw [lineItems_of_not_mem hl hne, weight_lineOf h, total_of_not_mem hl]
    rfl
  | cut l r hl ih =>
    obtain ⟨hvalid, hrest⟩ := h.of_append_cons (by decide)
    rw [lineItems_append_cons hl, weight_lineOf (valid_dropCr hvalid), ih hrest, total_append_cons hl]

theorem filterMap_textOf (items : List (Except Error String)) :
    (items.filterMap itemOf).filterMap textOf = items.filterMap textOf := by
  induction items with
  | nil => rfl
  | cons item items ih =>
    match item with
    | .ok text => exact congrArg (text :: ·) ih
    | .error (.invalidData message) => exact ih
    | .error (.reader e) => exact ih

/-- The reader without the errors. -/
theorem yields_withoutErrors (es : Reader) :
    ∃ items, Yields Lines.pollNext (lines (withoutErrors es)) items ∧
      items.filterMap itemOf = lineItems (contents es) := by
  obtain ⟨items, hyields, -, hitems⟩ := lines_yields (withoutErrors es) [] []
    List.not_mem_nil (List.nil_suffix ..) (errorsAt_of_errors_nil (errors_withoutErrors es))
  refine ⟨items, hyields, ?_⟩
  rw [hitems rfl (errorsAt_of_errors_nil (errors_withoutErrors es)), contents_withoutErrors]
  rfl

end Loss

/-- Errors do no harm exactly where each comes between two lines or, if the input is not
valid UTF-8, where what has been read of the line since the last error is not either. -/
theorem lines_undisturbed_iff (es : Reader) :
    Undisturbed es ↔
      ErrorsAt (fun line since => line = [] ∨ ¬Valid (contents es) ∧ ¬Valid since) [] [] es := by
  constructor
  · rintro ⟨items, hyields, hsame⟩
    by_cases hvalid : Valid (contents es)
    · obtain ⟨items', hyields', hsame⟩ := hsame hvalid
      refine ErrorsAt.mono (P := BetweenLines) (fun _ _ => .inl) ?_
      by_contra hbad
      have hlt := (weight_le (q := []) hyields List.not_mem_nil (.inl rfl)).2 (.inr hbad)
      obtain ⟨items₀, hyields₀, hitems₀⟩ := yields_withoutErrors es
      have hweight : weight items = total (contents es) := by
        rw [← weight_lineItems hvalid, ← hitems₀, hyields₀.unique hyields', weight, weight,
          filterMap_textOf, hsame]
      exact absurd hweight (Nat.ne_of_lt hlt)
    · exact (survived_of_yields hyields List.not_mem_nil (List.nil_suffix ..)).mono
        fun line since h => h.imp_right fun hsince => ⟨hvalid, hsince⟩
  · intro hat
    obtain ⟨items, hyields, -, hitems⟩ := lines_yields es [] [] List.not_mem_nil
      (List.nil_suffix ..) (hat.mono fun line since h => h.imp_right And.right)
    refine ⟨items, hyields, fun hvalid => ?_⟩
    obtain ⟨items', hyields', hitems'⟩ := yields_withoutErrors es
    refine ⟨items', hyields', ?_⟩
    have hbetween := hat.mono (Q := BetweenLines) fun line since h =>
      h.resolve_right fun hboth => hboth.1 hvalid
    rw [← filterMap_textOf items, hitems rfl hbetween, ← filterMap_textOf items', hitems']
    rfl

/-- `ab`, then an error: `read` is 2. -/
theorem error_inside_line_fails :
    ¬Undisturbed [.chunk 97 [98], .error .interrupted, .chunk 99 [10]] := by
  rintro ⟨items, hyields, -⟩
  have hreads : Reads 10 [.chunk 97 [98], .error .interrupted, .chunk 99 [10]] [97, 98]
      [.chunk 99 [10]] (.error .interrupted) := .chunk (by decide) .error
  have hpoll := pollNext_error hreads [] 0
  exact hyields.ne_error .readNotZero (hpoll.trans rfl)

end Cynthia.Swap.ReadLine
