import Fors.Lib.Words
import Fors.Lib.Placement

/-!
# The layout rule

The size and the alignment of a type, in words that saturate: fields in declaration order with
natural alignment, an enum's tag before the payload of its variants.

On unbounded numbers the rule is blocks that are placed one after another. The layout of a type has
the rule's alignment, and its size up to the largest word; where that size is a word, so are the
offsets inside, at every depth.

Source: `crates/fors-layout/src/layout.rs`.
-/

namespace Fors.Layout

open Words

/-- `usize`, on a host with 64-bit words. -/
abbrev Usize := UInt64

def USIZE_MAX : Usize := U64_MAX

def MEM_MAX_ALIGN : Usize := 16

/-! ## Types -/

/-- The only widths that the constructor of a target accepts. -/
structure Target where
  ptr_bits : UInt8
  admitted : ptr_bits = 32 ∨ ptr_bits = 64

/-- `Target::new`. -/
def Target.new (ptr_bits : UInt8) : Option Target :=
  if h : ptr_bits = 32 ∨ ptr_bits = 64 then some ⟨ptr_bits, h⟩ else none

def Target.ptr_bytes (target : Target) : Usize :=
  (target.ptr_bits / 8).toUInt64

mutual

inductive Ty where
  | Unit | Never | Bool | I8 | I16 | I32 | I64 | U8 | U16 | U32 | U64 | Isize | Usize | F32 | F64
  | Ptr | SliceView
  | Array (elem : Ty) (len : Usize)
  | Tuple (fields : List Ty)
  | Struct (fields : List Ty)
  | Enum (variants : List Variant)

/-- A variant carries a type, or nothing. -/
inductive Variant where
  | mk (payload : Option Ty)

end

def Variant.payload : Variant → Option Ty
  | .mk payload => payload

/-- The std `Layout` value. -/
structure Layout where
  size : Usize
  align : Usize
  deriving DecidableEq

/-! ## Arithmetic -/

/-- Round `off` up to a multiple of `align` (`align` a power of two, >= 1). -/
def align_up (off align : Usize) : Usize :=
  let mask := align - 1
  match checked_add off mask with
  | some s => s &&& ~~~mask
  | none => USIZE_MAX

/-- Checked add that saturates. -/
def sat_add (a b : Usize) : Usize :=
  saturating_add a b

/-! ## Layouts -/

/-- A struct (or tuple) layout. -/
structure StructLayout where
  layout : Layout
  offsets : List Usize
  deriving DecidableEq

/-- An enum layout. -/
structure EnumLayout where
  layout : Layout
  discriminant_size : Usize
  payload_offset : Usize
  deriving DecidableEq

/-- The width of the tag. -/
def discriminant_size (variant_count : Nat) : Usize :=
  if variant_count ≤ 1 then 0
  else if variant_count ≤ 256 then 1
  else if variant_count ≤ 65536 then 2
  else if variant_count ≤ 2 ^ 32 then 4
  else 8

/-- What follows the loop over the fields, from the offsets, the end and the largest alignment. -/
def StructLayout.of (fields : List Usize × Usize × Usize) : StructLayout :=
  let (offsets, off, max_align) := fields
  ⟨⟨align_up off max_align, max_align⟩, offsets⟩

/-- What follows the loop over the variants, from the largest payload size and alignment. -/
def EnumLayout.of (variant_count : Nat) (payload : Usize × Usize) : EnumLayout :=
  let disc := Layout.discriminant_size variant_count
  let disc_align := max disc 1
  let (payload_size, payload_align) := payload
  let align := max disc_align payload_align
  let payload_offset := align_up disc payload_align
  ⟨⟨align_up (sat_add payload_offset payload_size) align, align⟩, disc, payload_offset⟩

mutual

/-- The layout of `ty` on `target`. -/
def layout_of (target : Target) : Ty → Layout
  | .Unit | .Never => ⟨0, 1⟩
  | .Bool | .I8 | .U8 => ⟨1, 1⟩
  | .I16 | .U16 => ⟨2, 2⟩
  | .I32 | .U32 | .F32 => ⟨4, 4⟩
  | .I64 | .U64 | .F64 => ⟨8, 8⟩
  | .Isize | .Usize | .Ptr => ⟨target.ptr_bytes, target.ptr_bytes⟩
  | .SliceView => ⟨sat_add target.ptr_bytes target.ptr_bytes, target.ptr_bytes⟩
  | .Array elem len =>
    let e := layout_of target elem
    ⟨saturating_mul e.size len, e.align⟩
  | .Tuple fields => (StructLayout.of (fields_from target 0 1 fields)).layout
  | .Struct fields => (StructLayout.of (fields_from target 0 1 fields)).layout
  | .Enum variants => (EnumLayout.of variants.length (payload_from target 0 1 variants)).layout

/-- The loop over the fields, from `off` and `max_align` on. -/
def fields_from (target : Target) (off max_align : Usize) :
    List Ty → List Usize × Usize × Usize
  | [] => ([], off, max_align)
  | f :: fields =>
    let l := layout_of target f
    let off := align_up off l.align
    let (offsets, rest) :=
      fields_from target (sat_add off l.size) (max max_align l.align) fields
    (off :: offsets, rest)

/-- The loop over the variants. -/
def payload_from (target : Target) (payload_size payload_align : Usize) :
    List Variant → Usize × Usize
  | [] => (payload_size, payload_align)
  | .mk none :: variants => payload_from target payload_size payload_align variants
  | .mk (some p) :: variants =>
    let l := layout_of target p
    payload_from target (max payload_size l.size) (max payload_align l.align) variants

end

def struct_layout_of (target : Target) (fields : List Ty) : StructLayout :=
  .of (fields_from target 0 1 fields)

def enum_layout_of (target : Target) (variants : List Variant) : EnumLayout :=
  .of variants.length (payload_from target 0 1 variants)

end Fors.Layout

/-! ## The rule on unbounded numbers -/

namespace Fors.Layout

/-! ## The rule without a limit -/

open Placement Words

/-- The widths, as numbers. -/
def Target.bytes (target : Target) : Nat :=
  target.ptr_bytes.toNat

/-- The bytes of the smallest unsigned type that counts `n` variants; one needs no tag. -/
def tag_width (n : Nat) : Nat :=
  if n ≤ 1 then 0 else ([1, 2, 4].find? fun w => n ≤ 256 ^ w).getD 8

/-- A tag at 0 and the payloads past it. -/
def tagged (disc : Nat) (payloads : List Block) : Block :=
  let payload_align := max_align 1 payloads
  let payload_size := (payloads.map Block.size).foldl max 0
  let align := max (max disc 1) payload_align
  ⟨up (up disc payload_align + payload_size) align, align⟩

/-- The blocks in order, and the end rounded up to the largest alignment. -/
def record (fields : List Block) : Block :=
  ⟨up (place 0 fields).2 (max_align 1 fields), max_align 1 fields⟩

mutual

/-- The size and the alignment of a type, on unbounded numbers. -/
def block_of (target : Target) : Ty → Block
  | .Unit | .Never => ⟨0, 1⟩
  | .Bool | .I8 | .U8 => ⟨1, 1⟩
  | .I16 | .U16 => ⟨2, 2⟩
  | .I32 | .U32 | .F32 => ⟨4, 4⟩
  | .I64 | .U64 | .F64 => ⟨8, 8⟩
  | .Isize | .Usize | .Ptr => ⟨target.bytes, target.bytes⟩
  | .SliceView => ⟨target.bytes + target.bytes, target.bytes⟩
  | .Array elem len => ⟨(block_of target elem).size * len.toNat, (block_of target elem).align⟩
  | .Tuple fields => record (blocks_of target fields)
  | .Struct fields => record (blocks_of target fields)
  | .Enum variants =>
    tagged (tag_width variants.length) (payloads_of target variants)

def blocks_of (target : Target) : List Ty → List Block
  | [] => []
  | f :: fields => block_of target f :: blocks_of target fields

def payloads_of (target : Target) : List Variant → List Block
  | [] => []
  | .mk none :: variants => payloads_of target variants
  | .mk (some p) :: variants => block_of target p :: payloads_of target variants

end

/-! ## Words -/

/-- The alignments that occur. -/
def IsAlign (a : Nat) : Prop :=
  ∃ k ≤ 4, a = 2 ^ k

variable {a b off align : Usize} {m n : Nat}

theorem IsAlign.pos (h : IsAlign n) : 0 < n := by
  obtain ⟨k, -, rfl⟩ := h
  exact Nat.two_pow_pos k

theorem usize_max : USIZE_MAX.toNat + 1 = 2 ^ 64 :=
  max_word

theorem IsAlign.dvd (h : IsAlign n) : n ∣ USIZE_MAX.toNat + 1 := by
  obtain ⟨k, hk, rfl⟩ := h
  rw [usize_max]
  exact Nat.pow_dvd_pow 2 (by omega)

theorem IsAlign.le (h : IsAlign n) : n ≤ 16 := by
  obtain ⟨k, hk, rfl⟩ := h
  exact Nat.pow_le_pow_right Nat.two_pos hk

theorem IsAlign.max (hm : IsAlign m) (hn : IsAlign n) : IsAlign (max m n) := by
  obtain h | h := Nat.le_total m n
  · rwa [Nat.max_eq_right h]
  · rwa [Nat.max_eq_left h]

theorem IsAlign.dvd_of_le (hm : IsAlign m) (hn : IsAlign n) (h : m ≤ n) : m ∣ n := by
  obtain ⟨j, -, rfl⟩ := hm
  obtain ⟨k, -, rfl⟩ := hn
  exact Nat.pow_dvd_pow 2 ((Nat.pow_le_pow_iff_right Nat.one_lt_two).mp h)

theorem isAlign_one : IsAlign 1 :=
  ⟨0, by omega, rfl⟩

theorem toNat_sat_add (a b : Usize) :
    (sat_add a b).toNat = min (a.toNat + b.toNat) USIZE_MAX.toNat :=
  toNat_saturating_add a b

theorem toNat_sat_mul (a b : Usize) :
    (saturating_mul a b).toNat = min (a.toNat * b.toNat) USIZE_MAX.toNat :=
  toNat_saturating_mul a b

theorem toNat_align_up (hoff : off.toNat = min n USIZE_MAX.toNat) (halign : IsAlign align.toNat) :
    (align_up off align).toNat = min (up n align.toNat) USIZE_MAX.toNat := by
  rw [← min_up halign.pos halign.dvd, ← hoff]
  have hmask : (align - 1).toNat = align.toNat - 1 :=
    UInt64.toNat_sub_of_le align 1 (UInt64.le_iff_toNat_le.mpr halign.pos)
  unfold align_up
  obtain ⟨s, hs, hsum⟩ | ⟨hnone, hover⟩ := checked_add_cases off (align - 1)
  · have hlt := s.toNat_lt
    have hmax := usize_max
    rw [hmask] at hsum
    simp only [hs]
    rw [if_pos (by omega), UInt64.toNat_and, UInt64.toNat_not, hmask]
    obtain ⟨k, -, hk⟩ := halign
    rw [hk] at hsum ⊢
    rw [up, ← hsum]
    exact and_compl_eq hlt
  · change USIZE_MAX.toNat < _ at hover
    rw [hmask] at hover
    simp only [hnone]
    rw [if_neg (by omega)]

/-! ## The code computes the rule, cut at the largest word -/

/-- The layout has the block's alignment, and its size up to the largest word. -/
structure Cuts (l : Layout) (b : Block) : Prop where
  align : l.align.toNat = b.align
  size : l.size.toNat = min b.size USIZE_MAX.toNat
  isAlign : IsAlign b.align

theorem isAlign_bytes (target : Target) : IsAlign target.bytes := by
  obtain ⟨w, rfl | rfl⟩ := target
  · exact ⟨2, by omega, rfl⟩
  · exact ⟨3, by omega, rfl⟩

theorem cuts_scalar {w : Usize} (h : IsAlign w.toNat) : Cuts ⟨w, w⟩ ⟨w.toNat, w.toNat⟩ where
  align := rfl
  size := by
    have := h.le
    have := usize_max
    change w.toNat = min w.toNat _
    omega
  isAlign := h

theorem cuts_unit : Cuts ⟨0, 1⟩ ⟨0, 1⟩ :=
  ⟨rfl, rfl, isAlign_one⟩

/-- What the loop over the fields leaves behind. -/
structure FieldsCut (r : List Usize × Usize × Usize) (off align : Nat) (bs : List Block) :
    Prop where
  offsets : r.1.map UInt64.toNat = (place off bs).1.map fun o => min o USIZE_MAX.toNat
  stop : r.2.1.toNat = min (place off bs).2 USIZE_MAX.toNat
  align : r.2.2.toNat = max_align align bs
  isAlign : ∀ b ∈ bs, IsAlign b.align

/-- What the loop over the variants leaves behind. -/
structure PayloadCut (r : Usize × Usize) (size align : Nat) (bs : List Block) : Prop where
  size : r.1.toNat = min ((bs.map Block.size).foldl max size) USIZE_MAX.toNat
  align : r.2.toNat = max_align align bs
  isAlign : ∀ b ∈ bs, IsAlign b.align

variable {bs : List Block}

theorem FieldsCut.cons {target : Target} {f : Ty} {fields : List Ty}
    {b : Block} {off max_align : Usize} {n : Nat} (hoff : off.toNat = min n USIZE_MAX.toNat)
    (hf : Cuts (layout_of target f) b)
    (hrest : ∀ off' : Usize, off'.toNat = min (up n b.align + b.size) USIZE_MAX.toNat →
      FieldsCut (fields_from target off' (max max_align (layout_of target f).align) fields)
        (up n b.align + b.size) (max max_align.toNat b.align) bs) :
    FieldsCut (fields_from target off max_align (f :: fields)) n max_align.toNat (b :: bs) := by
  have hup : (align_up off (layout_of target f).align).toNat =
      min (up n b.align) USIZE_MAX.toNat := by
    rw [toNat_align_up hoff (hf.align ▸ hf.isAlign), hf.align]
  have hstop : (sat_add (align_up off (layout_of target f).align) (layout_of target f).size).toNat =
      min (up n b.align + b.size) USIZE_MAX.toNat := by
    rw [toNat_sat_add, hup, hf.size, min_add]
  have hrest := hrest _ hstop
  rw [fields_from]
  refine ⟨?_, hrest.stop, hrest.align, List.forall_mem_cons.mpr ⟨hf.isAlign, hrest.isAlign⟩⟩
  rw [place_cons, List.map_cons, List.map_cons, hup]
  exact congrArg _ hrest.offsets

theorem FieldsCut.cuts {r : List Usize × Usize × Usize}
    (h : FieldsCut r 0 1 bs) : Cuts (StructLayout.of r).layout (record bs) := by
  have hmax : IsAlign (max_align 1 bs) := max_align_induction isAlign_one h.isAlign
  refine ⟨h.align, ?_, hmax⟩
  change (align_up r.2.1 r.2.2).toNat = _
  rw [toNat_align_up h.stop (h.align ▸ hmax), h.align]
  rfl

theorem tag_width_eq (n : Nat) : (discriminant_size n).toNat = tag_width n := by
  unfold discriminant_size tag_width
  by_cases h1 : n ≤ 1
  · simp [h1]
  by_cases h2 : n ≤ 256
  · simp [h1, h2]
  by_cases h3 : n ≤ 65536
  · simp [h1, h2, h3]
  by_cases h4 : n ≤ 4294967296
  · simp [h1, h2, h3, h4]
  · simp [h1, h2, h3, h4]

theorem tag_width_cases (n : Nat) : tag_width n = 0 ∨ IsAlign (tag_width n) := by
  rw [← tag_width_eq]
  unfold discriminant_size
  split
  · exact .inl rfl
  · right
    split
    · exact isAlign_one
    · split
      · exact ⟨1, by omega, rfl⟩
      · split
        · exact ⟨2, by omega, rfl⟩
        · exact ⟨3, by omega, rfl⟩

theorem isAlign_tag (n : Nat) : IsAlign (max (tag_width n) 1) := by
  obtain h | h := tag_width_cases n
  · rw [h]
    exact isAlign_one
  · exact h.max isAlign_one

theorem PayloadCut.cuts {r : Usize × Usize} (n : Nat) (h : PayloadCut r 0 1 bs) :
    Cuts (EnumLayout.of n r).layout (tagged (tag_width n) bs) ∧
      (EnumLayout.of n r).payload_offset.toNat =
        min (up (tag_width n) (max_align 1 bs)) USIZE_MAX.toNat := by
  have hpayload : IsAlign (max_align 1 bs) := max_align_induction isAlign_one h.isAlign
  have htag : (max (discriminant_size n) 1).toNat = max (tag_width n) 1 := by
    rw [toNat_max, tag_width_eq]
    rfl
  have halign : (max (max (discriminant_size n) 1) r.2).toNat =
      max (max (tag_width n) 1) (max_align 1 bs) := by
    rw [toNat_max, htag, h.align]
  have hisAlign : IsAlign (max (max (tag_width n) 1) (max_align 1 bs)) :=
    (isAlign_tag n).max hpayload
  have hdisc : (discriminant_size n).toNat = min (tag_width n) USIZE_MAX.toNat := by
    have hle := (isAlign_tag n).le
    have hmax := usize_max
    rw [tag_width_eq]
    omega
  have hoffset : (align_up (discriminant_size n) r.2).toNat =
      min (up (tag_width n) (max_align 1 bs)) USIZE_MAX.toNat := by
    rw [toNat_align_up hdisc (h.align ▸ hpayload), h.align]
  refine ⟨⟨halign, ?_, hisAlign⟩, hoffset⟩
  have hsum : (sat_add (align_up (discriminant_size n) r.2) r.1).toNat =
      min (up (tag_width n) (max_align 1 bs) + (bs.map Block.size).foldl max 0)
        USIZE_MAX.toNat := by
    rw [toNat_sat_add, hoffset, h.size, min_add]
  change (align_up (sat_add (align_up (discriminant_size n) r.2) r.1)
    (max (max (discriminant_size n) 1) r.2)).toNat = _
  rw [toNat_align_up hsum (halign ▸ hisAlign), halign]
  rfl

mutual

theorem layout_cuts (target : Target) :
    ∀ ty : Ty, Cuts (layout_of target ty) (block_of target ty)
  | .Unit | .Never => by
    rw [layout_of, block_of]
    exact cuts_unit
  | .Bool | .I8 | .U8 => by
    rw [layout_of, block_of]
    exact cuts_scalar isAlign_one
  | .I16 | .U16 => by
    rw [layout_of, block_of]
    exact cuts_scalar (w := 2) ⟨1, by omega, rfl⟩
  | .I32 | .U32 | .F32 => by
    rw [layout_of, block_of]
    exact cuts_scalar (w := 4) ⟨2, by omega, rfl⟩
  | .I64 | .U64 | .F64 => by
    rw [layout_of, block_of]
    exact cuts_scalar (w := 8) ⟨3, by omega, rfl⟩
  | .Isize | .Usize | .Ptr => by
    rw [layout_of, block_of]
    exact cuts_scalar (isAlign_bytes target)
  | .SliceView => by
    rw [layout_of, block_of]
    exact ⟨rfl, toNat_sat_add _ _, isAlign_bytes target⟩
  | .Array elem len => by
    have helem := layout_cuts target elem
    rw [layout_of, block_of]
    refine ⟨helem.align, ?_, helem.isAlign⟩
    rw [toNat_sat_mul, helem.size, min_mul]
  | .Tuple fields => by
    rw [layout_of, block_of]
    exact (fields_cut target fields 0 0 1 rfl).cuts
  | .Struct fields => by
    rw [layout_of, block_of]
    exact (fields_cut target fields 0 0 1 rfl).cuts
  | .Enum variants => by
    rw [layout_of, block_of]
    exact ((payload_cut target variants 0 0 1 rfl).cuts variants.length).1

theorem fields_cut (target : Target) :
    ∀ (fields : List Ty) (n : Nat) (off max_align : Usize), off.toNat = min n USIZE_MAX.toNat →
      FieldsCut (fields_from target off max_align fields) n max_align.toNat
        (blocks_of target fields)
  | [], n, off, max_align, hoff => by
    rw [fields_from, blocks_of]
    exact ⟨rfl, hoff, rfl, by simp⟩
  | f :: fields, n, off, max_align, hoff => by
    have hf := layout_cuts target f
    rw [blocks_of]
    refine FieldsCut.cons hoff hf fun off' hoff' => ?_
    have hrest := fields_cut target fields _ off' (max max_align (layout_of target f).align) hoff'
    rwa [toNat_max, hf.align] at hrest

theorem payload_cut (target : Target) :
    ∀ (variants : List Variant) (n : Nat) (size align : Usize),
      size.toNat = min n USIZE_MAX.toNat →
      PayloadCut (payload_from target size align variants) n align.toNat
        (payloads_of target variants)
  | [], n, size, align, hsize => by
    rw [payload_from, payloads_of]
    exact ⟨hsize, rfl, by simp⟩
  | .mk none :: variants, n, size, align, hsize => by
    rw [payload_from, payloads_of]
    exact payload_cut target variants n size align hsize
  | .mk (some p) :: variants, n, size, align, hsize => by
    have hp := layout_cuts target p
    have hmax : (max size (layout_of target p).size).toNat =
        min (max n (block_of target p).size) USIZE_MAX.toNat := by
      rw [toNat_max, hsize, hp.size]
      omega
    have hrest := payload_cut target variants _ _ (max align (layout_of target p).align) hmax
    rw [toNat_max, hp.align] at hrest
    rw [payload_from, payloads_of]
    exact ⟨hrest.size, hrest.align, List.forall_mem_cons.mpr ⟨hp.isAlign, hrest.isAlign⟩⟩

end

end Fors.Layout
