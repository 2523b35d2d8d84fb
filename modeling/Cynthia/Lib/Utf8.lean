import Mathlib.Data.List.Basic

/-! Strings and the lists of their bytes. An ASCII byte is a character of its own
wherever it stands in valid UTF-8, so that a text may be cut there. -/

namespace Utf8

/-- The bytes of a string. -/
def bytes (s : String) : List UInt8 := s.toByteArray.data.toList

def Valid (bs : List UInt8) : Prop := bs.toByteArray.IsValidUTF8

instance (bs : List UInt8) : Decidable (Valid bs) :=
  inferInstanceAs (Decidable (ByteArray.IsValidUTF8 _))

/-- The string with these bytes, if there is one. -/
def decode (bs : List UInt8) : Option String := String.fromUTF8? bs.toByteArray

variable {bs l r : List UInt8} {s t : String} {b : UInt8} {c : Char}

theorem bytes_eq (s : String) : bytes s = s.toList.flatMap String.utf8EncodeChar := by
  rw [bytes, ← String.utf8Encode_toList, List.utf8Encode, List.toList_data_toByteArray]

theorem bytes_injective (h : bytes s = bytes t) : s = t := by
  rw [← String.toByteArray_inj]
  exact ByteArray.ext (Array.toList_inj.mp h)

theorem bytes_push (s : String) (c : Char) :
    bytes (s.push c) = bytes s ++ String.utf8EncodeChar c := by
  rw [bytes_eq, bytes_eq, String.toList_push, List.flatMap_append, List.flatMap_singleton]

theorem decode_eq_some_iff : decode bs = some s ↔ bytes s = bs := by
  unfold decode String.fromUTF8?
  split
  · rw [Option.some_inj]
    constructor
    · rintro rfl
      exact List.toList_data_toByteArray
    · rintro rfl
      refine bytes_injective ?_
      exact List.toList_data_toByteArray
  · rename_i hinvalid
    refine iff_of_false nofun ?_
    rintro rfl
    refine hinvalid ?_
    have hbytes : (bytes s).toByteArray = s.toByteArray :=
      ByteArray.ext (Array.toList_inj.mp List.toList_data_toByteArray)
    rw [hbytes]
    exact s.isValidUTF8

theorem valid_iff_isSome : Valid bs ↔ (decode bs).isSome := by
  unfold Valid decode String.fromUTF8?
  split
  · exact iff_of_true ‹_› rfl
  · exact iff_of_false ‹_› nofun

theorem valid_iff : Valid bs ↔ ∃ s, bytes s = bs := by
  rw [valid_iff_isSome, Option.isSome_iff_exists]
  exact exists_congr fun _ => decode_eq_some_iff

theorem decode_eq_none_iff : decode bs = none ↔ ¬Valid bs := by
  rw [valid_iff_isSome, Option.not_isSome_iff_eq_none]

theorem decode_nil : decode [] = some "" := decode_eq_some_iff.mpr rfl

theorem valid_nil : Valid [] := valid_iff.mpr ⟨"", rfl⟩

/-! ## ASCII bytes -/

/-- A byte below 128 is the only one of its character. -/
theorem utf8EncodeChar_of_mem (hb : b.toNat < 128) (h : b ∈ String.utf8EncodeChar c) :
    String.utf8EncodeChar c = [b] := by
  unfold String.utf8EncodeChar at h ⊢
  dsimp only at h ⊢
  split at h
  · rw [if_pos ‹_›, List.mem_singleton.mp h]
  · refine absurd hb (Nat.not_lt.mpr ?_)
    split at h
    · simp only [List.mem_cons, List.not_mem_nil, or_false] at h
      rcases h with rfl | rfl <;> rw [UInt8.toNat_ofNat'] <;> omega
    · split at h
      · simp only [List.mem_cons, List.not_mem_nil, or_false] at h
        rcases h with rfl | rfl | rfl <;> rw [UInt8.toNat_ofNat'] <;> omega
      · simp only [List.mem_cons, List.not_mem_nil, or_false] at h
        rcases h with rfl | rfl | rfl | rfl <;> rw [UInt8.toNat_ofNat'] <;> omega

/-- An ASCII byte stands between whole characters. -/
theorem exists_of_flatMap {cs : List Char} (hb : b.toNat < 128)
    (h : cs.flatMap String.utf8EncodeChar = l ++ b :: r) :
    ∃ cs₁ c cs₂, cs = cs₁ ++ c :: cs₂ ∧ cs₁.flatMap String.utf8EncodeChar = l ∧
      String.utf8EncodeChar c = [b] ∧ cs₂.flatMap String.utf8EncodeChar = r := by
  induction cs generalizing l with
  | nil => exact absurd h (by simp)
  | cons c cs ih =>
    rw [List.flatMap_cons] at h
    rcases List.append_eq_append_iff.mp h with ⟨l', rfl, hcs⟩ | ⟨m, hc, hm⟩
    · obtain ⟨cs₁, c', cs₂, rfl, rfl, hc', rfl⟩ := ih hcs
      exact ⟨c :: cs₁, c', cs₂, rfl, rfl, hc', rfl⟩
    · cases m with
      | nil =>
        rw [List.append_nil] at hc
        obtain ⟨cs₁, c', cs₂, rfl, hnil, hc', rfl⟩ := ih (l := []) hm.symm
        refine ⟨c :: cs₁, c', cs₂, rfl, ?_, hc', rfl⟩
        rw [List.flatMap_cons, hnil, List.append_nil, hc]
      | cons b' m =>
        obtain ⟨rfl, rfl⟩ := List.cons.inj hm
        have hone := utf8EncodeChar_of_mem hb (c := c) (by rw [hc]; simp)
        rw [hone] at hc
        obtain ⟨rfl, rfl⟩ : l = [] ∧ m = [] := by
          cases l with
          | nil => exact ⟨rfl, (List.cons.inj hc).2.symm⟩
          | cons a l => exact absurd (List.cons.inj hc).2 (by simp)
        exact ⟨[], c, cs, rfl, rfl, hone, rfl⟩

/-- Valid UTF-8 is valid on both sides of an ASCII byte. -/
theorem Valid.of_append_cons (hb : b.toNat < 128) (h : Valid (l ++ b :: r)) :
    Valid l ∧ Valid r := by
  obtain ⟨s, hs⟩ := valid_iff.mp h
  rw [bytes_eq] at hs
  obtain ⟨cs₁, c, cs₂, -, rfl, -, rfl⟩ := exists_of_flatMap hb hs
  refine ⟨valid_iff.mpr ⟨String.ofList cs₁, ?_⟩, valid_iff.mpr ⟨String.ofList cs₂, ?_⟩⟩
  · rw [bytes_eq, String.toList_ofList]
  · rw [bytes_eq, String.toList_ofList]

theorem utf8EncodeChar_injective {d : Char} (h : String.utf8EncodeChar c = String.utf8EncodeChar d) :
    c = d := by
  have hs : String.singleton c = String.singleton d := by
    refine bytes_injective ?_
    rw [bytes_eq, bytes_eq, String.toList_singleton, String.toList_singleton,
      List.flatMap_singleton, List.flatMap_singleton, h]
  have hl := congrArg String.toList hs
  rw [String.toList_singleton, String.toList_singleton] at hl
  exact (List.cons.inj hl).1

/-- A last byte of ASCII is a last character. -/
theorem decode_concat (hb : b.toNat < 128) (hc : String.utf8EncodeChar c = [b]) :
    decode (l ++ [b]) = (decode l).map (·.push c) := by
  cases h : decode l with
  | some s =>
    rw [Option.map_some, decode_eq_some_iff, bytes_push, decode_eq_some_iff.mp h, hc]
  | none =>
    rw [Option.map_none, decode_eq_none_iff]
    exact fun hvalid => decode_eq_none_iff.mp h (hvalid.of_append_cons hb).1

theorem getLast?_bytes_iff (hb : b.toNat < 128) (hc : String.utf8EncodeChar c = [b]) :
    (bytes s).getLast? = some b ↔ s.toList.getLast? = some c := by
  constructor
  · intro h
    obtain ⟨l, hl⟩ := List.getLast?_eq_some_iff.mp h
    rw [bytes_eq] at hl
    obtain ⟨cs₁, c', cs₂, hcs, -, hc', hnil⟩ := exists_of_flatMap hb hl
    obtain rfl := utf8EncodeChar_injective (hc.trans hc'.symm)
    have hcs₂ : cs₂ = [] := by
      cases cs₂ with
      | nil => rfl
      | cons d cs =>
        have hd := (List.append_eq_nil_iff.mp ((List.flatMap_cons ..).symm.trans hnil)).1
        have hlen := congrArg List.length hd
        rw [String.length_utf8EncodeChar] at hlen
        exact absurd hlen (Nat.ne_of_gt (Char.utf8Size_pos d))
    rw [hcs, hcs₂]
    exact List.getLast?_concat ..
  · intro h
    obtain ⟨cs, hcs⟩ := List.getLast?_eq_some_iff.mp h
    rw [bytes_eq, hcs, List.flatMap_append, List.flatMap_singleton, hc]
    exact List.getLast?_concat ..

end Utf8
