import Cynthia.Lib.Words
import Mathlib.Order.CompletePartialOrder
import Mathlib.Order.Interval.Set.Disjoint

/-! The memory of a task: `padding_needed_for` and `extend` of `runtime/task/utils.rs`,
`task_layout` and `from_ptr` of `runtime/task/raw.rs`. A `usize` has `w` bits, and a
panic is `none`. -/

namespace Cynthia.Task

open Words

variable {w : Nat}

/-- `Layout` of the standard library. The type of its alignment has the powers of two
only; that the size fits is for the constructors to see to. -/
structure Layout (w : Nat) where
  size : BitVec w
  align : BitVec w
  align_pow : align.toNat.isPowerOfTwo

namespace Layout

/-- The size does not overflow an `isize` when it is rounded up to the alignment. -/
def Fits (l : Layout w) : Prop := roundUp l.size.toNat l.align.toNat < 2 ^ (w - 1)

instance (l : Layout w) : Decidable l.Fits := inferInstanceAs (Decidable (_ < _))

def fromSizeAlign (size align : BitVec w) : Option (Layout w) :=
  if h : align.toNat.isPowerOfTwo then
    let l : Layout w := ⟨size, align, h⟩
    if l.Fits then some l else none
  else none

end Layout

/-- The layout of a type, `Layout::new`. -/
abbrev TypeLayout (w : Nat) := { l : Layout w // l.Fits }

def paddingNeededFor (layout : Layout w) (align : BitVec w) : BitVec w :=
  let len := layout.size
  let lenRoundedUp := (len + align - 1) &&& ~~~(align - 1)
  lenRoundedUp - len

def extend (a b : Layout w) : Option (Layout w × BitVec w) := do
  let newAlign := umax a.align b.align
  let pad := paddingNeededFor a b.align
  let offset ← checkedAdd a.size pad
  let newSize ← checkedAdd offset b.size
  let layout ← Layout.fromSizeAlign newSize newAlign
  some (layout, offset)

structure TaskLayout (w : Nat) where
  layout : Layout w
  offsetS : BitVec w
  offsetF : BitVec w
  offsetR : BitVec w

/-- `layout_union` of `task_layout`, by `from_size_align_unchecked`. -/
def layoutUnion (f r : Layout w) : Layout w where
  size := umax f.size r.size
  align := umax f.align r.align
  align_pow := by
    rw [toNat_umax]
    exact isPowerOfTwo_max f.align_pow r.align_pow

/-- `task_layout` for the layouts of `Header`, `S`, `F` and `T`. -/
def taskLayout (header s f r : TypeLayout w) : Option (TaskLayout w) := do
  let (layout, offsetS) ← extend header.1 s.1
  let (layout, offsetUnion) ← extend layout (layoutUnion f.1 r.1)
  some ⟨layout, offsetS, offsetUnion, offsetUnion⟩

structure RawTask (w : Nat) where
  header : BitVec w
  schedule : BitVec w
  future : BitVec w
  output : BitVec w

def fromPtr (header s f r : TypeLayout w) (ptr : BitVec w) : Option (RawTask w) := do
  let taskLayout ← taskLayout header s f r
  some ⟨ptr, ptr + taskLayout.offsetS, ptr + taskLayout.offsetF, ptr + taskLayout.offsetR⟩

/-- `padding_needed_for` with operations that report a wrap-around. -/
def paddingNeededForChecked (layout : Layout w) (align : BitVec w) : Option (BitVec w) := do
  let len := layout.size
  let lenRoundedUp := (← checkedSub (← checkedAdd len align) 1) &&& ~~~(← checkedSub align 1)
  checkedSub lenRoundedUp len

/-! ## One field after another -/

section Fields

variable {a b l : Layout w} {align offset : BitVec w}

theorem Layout.align_pos (l : Layout w) : 0 < l.align.toNat := Nat.pos_of_isPowerOfTwo l.align_pow

theorem Layout.Fits.size_lt (h : l.Fits) : l.size.toNat < 2 ^ (w - 1) :=
  Nat.lt_of_le_of_lt (le_roundUp l.align_pos _) h

theorem fromSizeAlign_eq_some {size : BitVec w} : Layout.fromSizeAlign size align = some l ↔
    size = l.size ∧ align = l.align ∧ l.Fits := by
  unfold Layout.fromSizeAlign
  constructor
  · intro h
    split at h
    · dsimp only at h
      split at h <;> cases h
      exact ⟨rfl, rfl, ‹_›⟩
    · cases h
  · rintro ⟨rfl, rfl, hfits⟩
    rw [dif_pos l.align_pow]
    exact if_pos hfits

/-- Neither sum wraps around: the size and the alignment are each at most half of the
words. -/
theorem size_add_align_lt (ha : a.Fits) (halign : align.toNat.isPowerOfTwo) :
    a.size.toNat + align.toNat < 2 ^ w := by
  have hsize := ha.size_lt
  have hle := le_half halign
  have hhalves := two_halves halign
  omega

theorem toNat_lenRoundedUp (ha : a.Fits) (halign : align.toNat.isPowerOfTwo) :
    ((a.size + align - 1) &&& ~~~(align - 1)).toNat = roundUp a.size.toNat align.toNat := by
  have hlt := size_add_align_lt ha halign
  have hpos := Nat.pos_of_isPowerOfTwo halign
  have hsum := BitVec.toNat_add_of_lt hlt
  have hone := toNat_one halign
  rw [and_not_pred _ halign, BitVec.toNat_sub_of_le (by rw [BitVec.le_def, hone, hsum]; omega),
    hsum, hone, roundUp, Nat.add_sub_assoc hpos]

theorem paddingNeededForChecked_eq (ha : a.Fits) (halign : align.toNat.isPowerOfTwo) :
    paddingNeededForChecked a align = some (paddingNeededFor a align) := by
  have hlt := size_add_align_lt ha halign
  have hpos := Nat.pos_of_isPowerOfTwo halign
  have hone := toNat_one halign
  have hrounded := toNat_lenRoundedUp ha halign
  have hle := le_roundUp hpos a.size.toNat
  unfold paddingNeededForChecked paddingNeededFor
  dsimp only
  rw [checkedAdd_of_lt hlt]
  simp only [Option.bind_eq_bind, Option.bind_some]
  rw [checkedSub_of_le (by rw [BitVec.toNat_add_of_lt hlt, hone]; omega),
    checkedSub_of_le (x := align) (by rw [hone]; exact hpos)]
  simp only [Option.bind_some]
  exact checkedSub_of_le (by rw [hrounded]; exact hle)

theorem size_add_padding (ha : a.Fits) (halign : align.toNat.isPowerOfTwo) :
    a.size.toNat + (paddingNeededFor a align).toNat = roundUp a.size.toNat align.toNat := by
  have hle := le_roundUp (Nat.pos_of_isPowerOfTwo halign) a.size.toNat
  have hrounded := toNat_lenRoundedUp ha halign
  unfold paddingNeededFor
  dsimp only
  rw [BitVec.toNat_sub_of_le (by rw [BitVec.le_def, hrounded]; exact hle), hrounded]
  omega

theorem extend_eq_some (ha : a.Fits) : extend a b = some (l, offset) ↔
    offset.toNat = roundUp a.size.toNat b.align.toNat ∧
      l.size.toNat = offset.toNat + b.size.toNat ∧
      l.align.toNat = max a.align.toNat b.align.toNat ∧ l.Fits := by
  have hpad := size_add_padding ha b.align_pow
  simp only [extend, Option.bind_eq_bind, Option.bind_eq_some_iff, Option.some_inj, Prod.mk.injEq,
    checkedAdd_eq_some, fromSizeAlign_eq_some]
  constructor
  · rintro ⟨_, hoffset, newSize, hsize, _, ⟨rfl, halign, hfits⟩, rfl, rfl⟩
    refine ⟨hoffset.trans hpad, hsize, ?_, hfits⟩
    rw [← halign, toNat_umax]
  · rintro ⟨hoffset, hsize, halign, hfits⟩
    refine ⟨offset, hoffset.trans hpad.symm, l.size, hsize, l, ⟨rfl, ?_, hfits⟩, rfl, rfl⟩
    apply BitVec.eq_of_toNat_eq
    rw [toNat_umax, halign]

/-- `extend` panics only if the size of the two fields does not fit. -/
theorem extend_eq_none (ha : a.Fits) : extend a b = none ↔
    2 ^ (w - 1) ≤ roundUp (roundUp a.size.toNat b.align.toNat + b.size.toNat)
      (max a.align.toNat b.align.toNat) := by
  have hmax := isPowerOfTwo_max a.align_pow b.align_pow
  have hpos := Nat.pos_of_isPowerOfTwo hmax
  rw [← Nat.not_lt, Option.eq_none_iff_forall_ne_some]
  refine ⟨fun hnone hlt => ?_, fun hlarge => ?_⟩
  · have hle := le_roundUp hpos (roundUp a.size.toNat b.align.toNat + b.size.toNat)
    have hhalves := two_halves a.align_pow
    have hoffset : roundUp a.size.toNat b.align.toNat < 2 ^ w := by omega
    have hsize : roundUp a.size.toNat b.align.toNat + b.size.toNat < 2 ^ w := by omega
    have halign : (umax a.align b.align).toNat.isPowerOfTwo := by rwa [toNat_umax]
    refine hnone (⟨BitVec.ofNatLT _ hsize, umax a.align b.align, halign⟩, BitVec.ofNatLT _ hoffset)
      ((extend_eq_some ha).mpr ⟨rfl, rfl, toNat_umax, ?_⟩)
    rw [Layout.Fits, toNat_umax]
    exact hlt
  · rintro ⟨l, offset⟩ hsome
    obtain ⟨hoffset, hsize, halign, hfits⟩ := (extend_eq_some ha).mp hsome
    rw [Layout.Fits, hsize, halign, hoffset] at hfits
    exact hlarge hfits

end Fields

/-! ## The whole layout -/

/-- The bytes of a field. -/
def area (offset size : BitVec w) : Set Nat := Set.Ico offset.toNat (offset.toNat + size.toNat)

theorem area_zero (size : BitVec w) : area 0 size = Set.Ico 0 size.toNat := by
  simp [area]

/-- The bytes that the future and the output share. -/
def TaskLayout.shared (l : TaskLayout w) (f r : Layout w) : Set Nat :=
  area l.offsetF f.size ∪ area l.offsetR r.size

/-- The size of a header, a schedule function and a future or an output, one after
another, and the alignment of all. -/
def totalSize (header s f r : Layout w) : Nat :=
  roundUp (roundUp header.size.toNat s.align.toNat + s.size.toNat)
    (max f.align.toNat r.align.toNat) + max f.size.toNat r.size.toNat

def totalAlign (header s f r : Layout w) : Nat :=
  max (max header.align.toNat s.align.toNat) (max f.align.toNat r.align.toNat)

/-- What does not fit after the schedule function does not fit after the future either. -/
theorem roundUp_first_le (header s f r : Layout w) :
    roundUp (roundUp header.size.toNat s.align.toNat + s.size.toNat)
        (max header.align.toNat s.align.toNat) ≤
      roundUp (totalSize header s f r) (totalAlign header s f r) := by
  have hfirst := isPowerOfTwo_max header.align_pow s.align_pow
  have hunion := isPowerOfTwo_max f.align_pow r.align_pow
  have htotal := isPowerOfTwo_max hfirst hunion
  refine roundUp_mono (Nat.pos_of_isPowerOfTwo hfirst) (Nat.pos_of_isPowerOfTwo htotal) ?_
    (dvd_of_le hfirst htotal (Nat.le_max_left _ _))
  exact Nat.le_trans (le_roundUp (Nat.pos_of_isPowerOfTwo hunion) _) (Nat.le_add_right _ _)

structure TaskLayout.Valid (l : TaskLayout w) (header s f r : Layout w) : Prop where
  fits : l.layout.Fits
  aligned_s : s.align.toNat ∣ l.offsetS.toNat
  aligned_f : f.align.toNat ∣ l.offsetF.toNat
  aligned_r : r.align.toNat ∣ l.offsetR.toNat
  header_s : Disjoint (area 0 header.size) (area l.offsetS s.size)
  header_shared : Disjoint (area 0 header.size) (l.shared f r)
  s_shared : Disjoint (area l.offsetS s.size) (l.shared f r)
  inside : area 0 header.size ∪ area l.offsetS s.size ∪ l.shared f r ⊆ area 0 l.layout.size
  align_header : header.align.toNat ≤ l.layout.align.toNat
  align_s : s.align.toNat ≤ l.layout.align.toNat
  align_f : f.align.toNat ≤ l.layout.align.toNat
  align_r : r.align.toNat ≤ l.layout.align.toNat
  after_header : header.size.toNat ≤ l.offsetS.toNat
  after_s : l.offsetS.toNat + s.size.toNat ≤ l.offsetF.toNat
  padding_s : l.offsetS.toNat - header.size.toNat < s.align.toNat
  padding_f : l.offsetF.toNat - (l.offsetS.toNat + s.size.toNat) <
    max f.align.toNat r.align.toNat

section Whole

variable {header s f r : TypeLayout w} {l : TaskLayout w}

theorem taskLayout_eq_some : taskLayout header s f r = some l ↔
    ∃ layout, extend header.1 s.1 = some (layout, l.offsetS) ∧
      extend layout (layoutUnion f.1 r.1) = some (l.layout, l.offsetF) ∧ l.offsetR = l.offsetF := by
  simp only [taskLayout, Option.bind_eq_bind, Option.bind_eq_some_iff, Option.some_inj]
  constructor
  · rintro ⟨⟨layout, offsetS⟩, hs, ⟨layout', offset⟩, hunion, rfl⟩
    exact ⟨layout, hs, hunion, rfl⟩
  · rintro ⟨layout, hs, hunion, hsame⟩
    refine ⟨(layout, l.offsetS), hs, (l.layout, l.offsetF), hunion, ?_⟩
    cases l
    cases hsame
    rfl

/-- `task_layout` panics only if the total does not fit a `Layout`. -/
theorem taskLayout_eq_none : taskLayout header s f r = none ↔
    2 ^ (w - 1) ≤ roundUp (totalSize header.1 s.1 f.1 r.1) (totalAlign header.1 s.1 f.1 r.1) := by
  cases hs : extend header.1 s.1 with
  | none =>
    have hlarge := (extend_eq_none header.2).mp hs
    simp only [taskLayout, hs, Option.bind_eq_bind, Option.bind_none, true_iff]
    exact Nat.le_trans hlarge (roundUp_first_le header.1 s.1 f.1 r.1)
  | some first =>
    obtain ⟨layout, offsetS⟩ := first
    obtain ⟨hoffset, hsize, halign, hfits⟩ := (extend_eq_some header.2).mp hs
    have hunion := extend_eq_none (b := layoutUnion f.1 r.1) hfits
    simp only [layoutUnion, toNat_umax, hsize, hoffset, halign] at hunion
    simp only [taskLayout, hs, Option.bind_eq_bind, Option.bind_some, Option.bind_eq_none_iff,
      totalSize, totalAlign, ← hunion]
    constructor
    · intro hnone
      rw [Option.eq_none_iff_forall_ne_some]
      intro second hsecond
      exact nomatch hnone second hsecond
    · intro hnone second hsecond
      exact nomatch hnone.symm.trans hsecond

theorem taskLayout_valid (h : taskLayout header s f r = some l) :
    l.Valid header.1 s.1 f.1 r.1 := by
  obtain ⟨layout, hs, hunion, hsame⟩ := taskLayout_eq_some.mp h
  obtain ⟨hoffset, hsize, halign, hfits⟩ := (extend_eq_some header.2).mp hs
  obtain ⟨hoffset', hsize', halign', hfits'⟩ := (extend_eq_some hfits).mp hunion
  simp only [layoutUnion, toNat_umax] at hoffset' hsize' halign'
  have hpow := isPowerOfTwo_max f.1.align_pow r.1.align_pow
  have hpos := Nat.pos_of_isPowerOfTwo hpow
  have hle := le_roundUp s.1.align_pos header.1.size.toNat
  have hlt := roundUp_lt s.1.align_pos header.1.size.toNat
  have hle' := le_roundUp hpos layout.size.toNat
  have hlt' := roundUp_lt hpos layout.size.toNat
  have hdvd := dvd_roundUp layout.size.toNat (max f.1.align.toNat r.1.align.toNat)
  rw [← hoffset] at hle hlt
  rw [← hoffset'] at hle' hlt' hdvd
  have hshared : l.shared f.1 r.1 ⊆ Set.Ico l.offsetF.toNat l.layout.size.toNat := by
    rw [TaskLayout.shared, hsame, area, area, hsize']
    exact Set.union_subset (Set.Ico_subset_Ico_right (by omega)) (Set.Ico_subset_Ico_right (by omega))
  constructor
  case fits => exact hfits'
  case aligned_s =>
    rw [hoffset]
    exact dvd_roundUp _ _
  case aligned_f =>
    exact Nat.dvd_trans (dvd_of_le f.1.align_pow hpow (Nat.le_max_left _ _)) hdvd
  case aligned_r =>
    rw [hsame]
    exact Nat.dvd_trans (dvd_of_le r.1.align_pow hpow (Nat.le_max_right _ _)) hdvd
  case header_s =>
    rw [area_zero, area, Set.Ico_disjoint_Ico]
    omega
  case header_shared =>
    refine Disjoint.mono_right hshared ?_
    rw [area_zero, Set.Ico_disjoint_Ico]
    omega
  case s_shared =>
    refine Disjoint.mono_right hshared ?_
    rw [area, Set.Ico_disjoint_Ico]
    omega
  case inside =>
    rw [area_zero, area_zero, area]
    refine Set.union_subset (Set.union_subset ?_ ?_) (hshared.trans ?_) <;>
      exact Set.Ico_subset_Ico (by omega) (by omega)
  all_goals omega

/-- The pointers to the fields are aligned if the one to the allocated memory is. -/
theorem fromPtr_aligned {ptr : BitVec w} (h : taskLayout header s f r = some l)
    (hptr : l.layout.align.toNat ∣ ptr.toNat)
    (hroom : ptr.toNat + l.layout.size.toNat < 2 ^ w) :
    ∃ raw, fromPtr header s f r ptr = some raw ∧ header.1.align.toNat ∣ raw.header.toNat ∧
      s.1.align.toNat ∣ raw.schedule.toNat ∧ f.1.align.toNat ∣ raw.future.toNat ∧
      r.1.align.toNat ∣ raw.output.toNat := by
  have hvalid := taskLayout_valid h
  obtain ⟨layout, hs, hunion, hsame⟩ := taskLayout_eq_some.mp h
  obtain ⟨-, -, -, hfits⟩ := (extend_eq_some header.2).mp hs
  obtain ⟨-, hsize, -, -⟩ := (extend_eq_some hfits).mp hunion
  have hs_le := hvalid.after_s
  -- an alignment of a field divides that of the layout
  have hfield : ∀ a : Layout w, a.align.toNat ≤ l.layout.align.toNat → ∀ offset : BitVec w,
      a.align.toNat ∣ offset.toNat → offset.toNat ≤ l.layout.size.toNat →
      a.align.toNat ∣ (ptr + offset).toNat := by
    intro a hle offset hoffset hin
    rw [BitVec.toNat_add_of_lt (by omega)]
    exact Nat.dvd_add (Nat.dvd_trans (dvd_of_le a.align_pow l.layout.align_pow hle) hptr) hoffset
  refine ⟨⟨ptr, ptr + l.offsetS, ptr + l.offsetF, ptr + l.offsetR⟩, by simp [fromPtr, h],
    ?_, ?_, ?_, ?_⟩
  · exact Nat.dvd_trans (dvd_of_le header.1.align_pow l.layout.align_pow hvalid.align_header) hptr
  · exact hfield s.1 hvalid.align_s _ hvalid.aligned_s (by omega)
  · exact hfield f.1 hvalid.align_f _ hvalid.aligned_f (by omega)
  · exact hfield r.1 hvalid.align_r _ hvalid.aligned_r (by rw [hsame]; omega)

/-- `task_layout` panics only if the total does not fit, and gives a valid layout
otherwise; neither computation of a padding wraps around. -/
theorem task_layout_valid (header s f r : TypeLayout w) :
    (taskLayout header s f r = none ↔
      2 ^ (w - 1) ≤ roundUp (totalSize header.1 s.1 f.1 r.1) (totalAlign header.1 s.1 f.1 r.1)) ∧
    (∀ l, taskLayout header s f r = some l → l.Valid header.1 s.1 f.1 r.1) ∧
    paddingNeededForChecked header.1 s.1.align = some (paddingNeededFor header.1 s.1.align) ∧
    ∀ layout offset, extend header.1 s.1 = some (layout, offset) →
      paddingNeededForChecked layout (layoutUnion f.1 r.1).align =
        some (paddingNeededFor layout (layoutUnion f.1 r.1).align) := by
  refine ⟨taskLayout_eq_none, fun l => taskLayout_valid,
    paddingNeededForChecked_eq header.2 s.1.align_pow, fun layout offset hs => ?_⟩
  have hfits := ((extend_eq_some header.2).mp hs).2.2.2
  exact paddingNeededForChecked_eq hfits (layoutUnion f.1 r.1).align_pow

/-- A future of 100 bytes whose output is aligned to 64. -/
theorem task_layout_valid_wideOutput :
    let header : TypeLayout 64 := ⟨⟨32, 8, by decide⟩, by decide⟩
    let s : TypeLayout 64 := ⟨⟨1, 1, by decide⟩, by decide⟩
    let f : TypeLayout 64 := ⟨⟨100, 4, by decide⟩, by decide⟩
    let r : TypeLayout 64 := ⟨⟨64, 64, by decide⟩, by decide⟩
    ∃ l, taskLayout header s f r = some l ∧ l.offsetS = 32 ∧ l.offsetF = 64 ∧
      l.layout.size = 164 ∧ l.Valid header.1 s.1 f.1 r.1 := by
  intro header s f r
  have hsome : (taskLayout header s f r).any fun l =>
      l.offsetS = 32 ∧ l.offsetF = 64 ∧ l.layout.size = 164 := by decide
  cases hl : taskLayout header s f r with
  | none =>
    rw [hl] at hsome
    cases hsome
  | some l =>
    rw [hl] at hsome
    obtain ⟨hS, hF, hsize⟩ := of_decide_eq_true hsome
    exact ⟨l, rfl, hS, hF, hsize, (task_layout_valid header s f r).2.1 l hl⟩

end Whole

end Cynthia.Task
