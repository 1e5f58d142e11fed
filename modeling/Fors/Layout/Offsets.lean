import Fors.Layout.Rule

/-!
# Offsets

Where the rule's size of a type is a word, the fields of a struct and the payloads of an enum lie
apart and aligned inside it, and so does everything inside them.

Principal result: `layout_exact`.
-/

namespace Fors.Layout

open Placement List

variable {target : Target} {ty sub f g p : Ty} {fields : List Ty} {variants : List Variant}
  {v : Variant} {o o' : Usize} {i j off : Nat}

/-- The rule's size is a word. -/
def Fits (target : Target) (ty : Ty) : Prop :=
  (block_of target ty).size ≤ USIZE_MAX.toNat

theorem Fits.size_eq (h : Fits target ty) :
    (layout_of target ty).size.toNat = (block_of target ty).size := by
  rw [(layout_cuts target ty).size]
  exact Nat.min_eq_left h

theorem blocks_of_eq_map (target : Target) (fields : List Ty) :
    blocks_of target fields = fields.map (block_of target) := by
  induction fields with
  | nil => rw [blocks_of, map_nil]
  | cons f fields ih => rw [blocks_of, map_cons, ih]

theorem mem_payloads_of (target : Target) (hv : v ∈ variants) (hp : v.payload = some p) :
    block_of target p ∈ payloads_of target variants := by
  induction variants with
  | nil => exact absurd hv not_mem_nil
  | cons v' variants ih =>
    obtain ⟨_ | p'⟩ := v'
    · rw [payloads_of]
      obtain rfl | hv := mem_cons.mp hv
      · exact nomatch hp
      · exact ih hv
    · rw [payloads_of]
      obtain rfl | hv := mem_cons.mp hv
      · cases hp
        exact mem_cons_self
      · exact mem_cons_of_mem _ (ih hv)

theorem isAlign_blocks (target : Target) (fields : List Ty) :
    ∀ b ∈ blocks_of target fields, 0 < b.align := by
  intro b hb
  rw [blocks_of_eq_map] at hb
  obtain ⟨f, -, rfl⟩ := mem_map.mp hb
  exact (layout_cuts target f).isAlign.pos

theorem le_foldl_max {n a : Nat} {ns : List Nat} (h : n ∈ ns ∨ n ≤ a) :
    n ≤ ns.foldl max a := by
  induction ns generalizing a with
  | nil => exact h.resolve_left not_mem_nil
  | cons m ns ih =>
    apply ih
    obtain h | h := h
    · obtain rfl | h := mem_cons.mp h
      · exact .inr (Nat.le_max_right a n)
      · exact .inl h
    · exact .inr (Nat.le_trans h (Nat.le_max_left a m))

/-- The size is a multiple of the alignment. -/
theorem block_dvd (target : Target) (ty : Ty) :
    (block_of target ty).align ∣ (block_of target ty).size := by
  cases ty with
  | Unit | Never =>
    rw [block_of]
    exact Nat.dvd_zero 1
  | Bool | I8 | U8 | I16 | U16 | I32 | U32 | F32 | I64 | U64 | F64 | Isize | Usize | Ptr =>
    rw [block_of]
  | SliceView =>
    rw [block_of]
    exact Nat.dvd_add (Nat.dvd_refl _) (Nat.dvd_refl _)
  | Array elem len =>
    rw [block_of]
    exact Nat.dvd_mul_right_of_dvd (block_dvd target elem) len.toNat
  | Tuple fields | Struct fields =>
    rw [block_of]
    exact dvd_up _ _
  | Enum variants =>
    rw [block_of]
    exact dvd_up _ _

/-! ## Structs -/

/-- A field of a struct, and its offset. -/
def FieldAt (target : Target) (fields : List Ty) (i : Nat) (f : Ty) (o : Usize) : Prop :=
  fields[i]? = some f ∧ (struct_layout_of target fields).offsets[i]? = some o

/-- The fields of a struct, in declaration order. -/
structure StructPlaced (target : Target) (fields : List Ty) : Prop where
  length : (struct_layout_of target fields).offsets.length = fields.length
  aligned : ∀ i f o, FieldAt target fields i f o → (layout_of target f).align.toNat ∣ o.toNat
  inside : ∀ i f o, FieldAt target fields i f o → o.toNat + (layout_of target f).size.toNat ≤
    (struct_layout_of target fields).layout.size.toNat
  disjoint : ∀ i j f g o o', i < j → FieldAt target fields i f o → FieldAt target fields j g o' →
    o.toNat + (layout_of target f).size.toNat ≤ o'.toNat
  first : ∀ f o, FieldAt target fields 0 f o → o.toNat < (layout_of target f).align.toNat
  next : ∀ i f g o o', FieldAt target fields i f o → FieldAt target fields (i + 1) g o' →
    o'.toNat < o.toNat + (layout_of target f).size.toNat + (layout_of target g).align.toNat

theorem struct_layout_eq (target : Target) (fields : List Ty) :
    (struct_layout_of target fields).layout = layout_of target (.Struct fields) := by
  rw [layout_of]
  rfl

theorem struct_block_eq (target : Target) (fields : List Ty) :
    block_of target (.Struct fields) = record (blocks_of target fields) := by
  rw [block_of]

theorem length_offsets (target : Target) (fields : List Ty) :
    (struct_layout_of target fields).offsets.length = fields.length := by
  have h := congrArg List.length (fields_cut target fields 0 0 1 rfl).offsets
  rw [length_map, length_map, length_place, blocks_of_eq_map, length_map] at h
  exact h

theorem stop_le (target : Target) (fields : List Ty) :
    (place 0 (blocks_of target fields)).2 ≤ (block_of target (.Struct fields)).size := by
  rw [struct_block_eq]
  exact le_up (max_align_induction Nat.one_pos (isAlign_blocks target fields))

/-- A field and its offset as a block that is placed; the field fits if the struct does. -/
theorem FieldAt.placed (h : FieldAt target fields i f o) (hfits : Fits target (.Struct fields)) :
    (blocks_of target fields)[i]? = some (block_of target f) ∧
      (place 0 (blocks_of target fields)).1[i]? = some o.toNat ∧ Fits target f := by
  obtain ⟨hf, ho⟩ := h
  have hb : (blocks_of target fields)[i]? = some (block_of target f) := by
    rw [blocks_of_eq_map, getElem?_map, hf, Option.map_some]
  have hcut := congrArg (·[i]?) (fields_cut target fields 0 0 1 rfl).offsets
  change (((struct_layout_of target fields).offsets).map UInt64.toNat)[i]? = _ at hcut
  rw [getElem?_map, ho, Option.map_some, getElem?_map] at hcut
  obtain ⟨n, hn, hmin⟩ := Option.map_eq_some_iff.mp hcut.symm
  have hin := place_inside (isAlign_blocks target fields) hb hn
  have hstop := stop_le target fields
  unfold Fits at hfits ⊢
  obtain rfl : n = o.toNat := by omega
  exact ⟨hb, hn, by omega⟩

theorem struct_placed (hfits : Fits target (.Struct fields)) : StructPlaced target fields where
  length := length_offsets target fields
  aligned := by
    intro i f o h
    obtain ⟨hb, ho, -⟩ := h.placed hfits
    rw [(layout_cuts target f).align]
    exact place_aligned hb ho
  inside := by
    intro i f o h
    obtain ⟨hb, ho, hf⟩ := h.placed hfits
    have hin := place_inside (isAlign_blocks target fields) hb ho
    have hstop := stop_le target fields
    rw [struct_layout_eq, hfits.size_eq, hf.size_eq]
    omega
  disjoint := by
    intro i j f g o o' hij h h'
    obtain ⟨hb, ho, hf⟩ := h.placed hfits
    obtain ⟨hb', ho', -⟩ := h'.placed hfits
    obtain ⟨hj, -⟩ := List.getElem?_eq_some_iff.mp hb'
    rw [hf.size_eq]
    exact place_disjoint (isAlign_blocks target fields) hij hb ho hj ho'
  first := by
    intro f o h
    obtain ⟨hb, ho, -⟩ := h.placed hfits
    have hlt := place_first (isAlign_blocks target fields) hb ho
    rw [(layout_cuts target f).align]
    omega
  next := by
    intro i f g o o' h h'
    obtain ⟨hb, ho, hf⟩ := h.placed hfits
    obtain ⟨hb', ho', -⟩ := h'.placed hfits
    rw [hf.size_eq, (layout_cuts target g).align]
    exact place_next (isAlign_blocks target fields) hb ho hb' ho'

/-! ## Enums -/

/-- The tag of an enum and the payloads of its variants. -/
structure EnumPlaced (target : Target) (variants : List Variant) : Prop where
  tag : (enum_layout_of target variants).discriminant_size.toNat ≤
    (enum_layout_of target variants).payload_offset.toNat
  tag_inside : (enum_layout_of target variants).discriminant_size.toNat ≤
    (enum_layout_of target variants).layout.size.toNat
  payload : ∀ v p, v ∈ variants → v.payload = some p →
    (layout_of target p).align.toNat ∣ (enum_layout_of target variants).payload_offset.toNat ∧
      (enum_layout_of target variants).payload_offset.toNat + (layout_of target p).size.toNat ≤
        (enum_layout_of target variants).layout.size.toNat

theorem enum_layout_eq (target : Target) (variants : List Variant) :
    (enum_layout_of target variants).layout = layout_of target (.Enum variants) := by
  rw [layout_of]
  rfl

theorem isAlign_payloads (target : Target) (variants : List Variant) :
    IsAlign (max_align 1 (payloads_of target variants)) :=
  max_align_induction isAlign_one (payload_cut target variants 0 0 1 rfl).isAlign

/-- The payload's offset and size leave room in the enum. -/
theorem payload_room (target : Target) (variants : List Variant) :
    up (tag_width variants.length) (max_align 1 (payloads_of target variants)) +
        ((payloads_of target variants).map Block.size).foldl max 0 ≤
      (block_of target (.Enum variants)).size := by
  rw [block_of]
  exact le_up ((isAlign_tag variants.length).max (isAlign_payloads target variants)).pos

theorem payload_offset_eq (hfits : Fits target (.Enum variants)) :
    (enum_layout_of target variants).payload_offset.toNat =
      up (tag_width variants.length) (max_align 1 (payloads_of target variants)) := by
  have hoffset := ((payload_cut target variants 0 0 1 rfl).cuts variants.length).2
  have hroom := payload_room target variants
  unfold Fits at hfits
  rw [enum_layout_of, hoffset]
  omega

/-- A payload leaves room in the enum; it fits if the enum does. -/
theorem payload_le (target : Target) (hv : v ∈ variants) (hp : v.payload = some p) :
    (block_of target p).size ≤ ((payloads_of target variants).map Block.size).foldl max 0 ∧
      (block_of target p).align ∣ max_align 1 (payloads_of target variants) := by
  have hmem := mem_payloads_of target hv hp
  refine ⟨le_foldl_max (.inl (mem_map_of_mem hmem)), ?_⟩
  exact (layout_cuts target p).isAlign.dvd_of_le (isAlign_payloads target variants)
    (align_le_max_align hmem 1)

theorem fits_payload (hfits : Fits target (.Enum variants)) (hv : v ∈ variants)
    (hp : v.payload = some p) : Fits target p := by
  have hle := (payload_le target hv hp).1
  have hroom := payload_room target variants
  unfold Fits at hfits ⊢
  omega

theorem enum_placed (hfits : Fits target (.Enum variants)) : EnumPlaced target variants := by
  have hpos := (isAlign_payloads target variants).pos
  have hroom := payload_room target variants
  have hoffset := payload_offset_eq hfits
  have htag : (enum_layout_of target variants).discriminant_size.toNat =
      tag_width variants.length := tag_width_eq variants.length
  have hup : tag_width variants.length ≤
      up (tag_width variants.length) (max_align 1 (payloads_of target variants)) := le_up hpos
  constructor
  · rw [htag, hoffset]
    exact hup
  · rw [enum_layout_eq, hfits.size_eq, htag]
    omega
  · intro v p hv hp
    obtain ⟨hle, hdvd⟩ := payload_le target hv hp
    rw [enum_layout_eq, hfits.size_eq, hoffset, (fits_payload hfits hv hp).size_eq,
      (layout_cuts target p).align]
    exact ⟨Nat.dvd_trans hdvd (dvd_up _ _), by omega⟩

/-! ## Everything inside -/

/-- `sub` lies at that offset inside the type. -/
inductive Within (target : Target) : Ty → Nat → Ty → Prop
  | self (ty : Ty) : Within target ty 0 ty
  | field {fields : List Ty} {i : Nat} {f sub : Ty} {o : Usize} {off : Nat}
      (h : FieldAt target fields i f o) (hsub : Within target f off sub) :
      Within target (.Struct fields) (o.toNat + off) sub
  | part {fields : List Ty} {i : Nat} {f sub : Ty} {o : Usize} {off : Nat}
      (h : FieldAt target fields i f o) (hsub : Within target f off sub) :
      Within target (.Tuple fields) (o.toNat + off) sub
  | elem {elem sub : Ty} {len : Usize} {i off : Nat} (h : i < len.toNat)
      (hsub : Within target elem off sub) :
      Within target (.Array elem len) (i * (layout_of target elem).size.toNat + off) sub
  | payload {variants : List Variant} {v : Variant} {p sub : Ty} {off : Nat}
      (hv : v ∈ variants) (hp : v.payload = some p) (hsub : Within target p off sub) :
      Within target (.Enum variants)
        ((enum_layout_of target variants).payload_offset.toNat + off) sub

theorem block_tuple (target : Target) (fields : List Ty) :
    block_of target (.Tuple fields) = block_of target (.Struct fields) := by
  rw [block_of, block_of]

theorem align_field_dvd (h : FieldAt target fields i f o) :
    (block_of target f).align ∣ (block_of target (.Struct fields)).align := by
  have hmem : block_of target f ∈ blocks_of target fields := by
    rw [blocks_of_eq_map]
    exact mem_map_of_mem (mem_of_getElem? h.1)
  refine (layout_cuts target f).isAlign.dvd_of_le (layout_cuts target (.Struct fields)).isAlign ?_
  rw [struct_block_eq]
  exact align_le_max_align hmem 1

/-- What lies inside a type that fits is aligned, ends inside, and asks for no more alignment. -/
structure Sits (target : Target) (ty : Ty) (off : Nat) (sub : Ty) : Prop where
  fits : Fits target sub
  align : (block_of target sub).align ∣ (block_of target ty).align
  offset : (block_of target sub).align ∣ off
  inside : off + (block_of target sub).size ≤ (block_of target ty).size

theorem sits_field (h : FieldAt target fields i f o) (hfits : Fits target (.Struct fields))
    (hsub : Sits target f off sub) : Sits target (.Struct fields) (o.toNat + off) sub := by
  obtain ⟨hb, ho, -⟩ := h.placed hfits
  have haligned := place_aligned hb ho
  have hin := place_inside (isAlign_blocks target fields) hb ho
  have hstop := stop_le target fields
  have hinside := hsub.inside
  refine ⟨hsub.fits, Nat.dvd_trans hsub.align (align_field_dvd h), ?_, by omega⟩
  exact Nat.dvd_add (Nat.dvd_trans hsub.align haligned) hsub.offset

theorem sits_of_within (h : Within target ty off sub) (hfits : Fits target ty) :
    Sits target ty off sub := by
  induction h with
  | self ty => exact ⟨hfits, Nat.dvd_refl _, Nat.dvd_zero _, Nat.le_of_eq (Nat.zero_add _)⟩
  | field h _ ih => exact sits_field h hfits (ih (h.placed hfits).2.2)
  | part h _ ih =>
    unfold Fits at hfits
    rw [block_tuple] at hfits
    have hsits := sits_field h hfits (ih (h.placed hfits).2.2)
    exact ⟨hsits.fits, block_tuple target _ ▸ hsits.align, hsits.offset,
      block_tuple target _ ▸ hsits.inside⟩
  | @elem elem sub len i off hi _ ih =>
    have hsize : (block_of target (.Array elem len)).size =
        (block_of target elem).size * len.toNat := by rw [block_of]
    have halign : (block_of target (.Array elem len)).align = (block_of target elem).align := by
      rw [block_of]
    have hone : (i + 1) * (block_of target elem).size ≤
        (block_of target elem).size * len.toNat := by
      rw [Nat.mul_comm]
      exact Nat.mul_le_mul_left _ hi
    rw [Nat.succ_mul] at hone
    have helem : Fits target elem := by
      unfold Fits at hfits ⊢
      omega
    have hsub := ih helem
    have hinside := hsub.inside
    rw [helem.size_eq]
    refine ⟨hsub.fits, halign ▸ hsub.align, ?_, by omega⟩
    refine Nat.dvd_add (Nat.dvd_mul_left_of_dvd ?_ i) hsub.offset
    exact Nat.dvd_trans hsub.align (block_dvd target elem)
  | @payload variants v p sub off hv hp _ ih =>
    have hsub := ih (fits_payload hfits hv hp)
    obtain ⟨hle, hdvd⟩ := payload_le target hv hp
    have hroom := payload_room target variants
    have hinside := hsub.inside
    have hmax : (block_of target p).align ∣ (block_of target (.Enum variants)).align := by
      have henum := (layout_cuts target (.Enum variants)).isAlign
      refine (layout_cuts target p).isAlign.dvd_of_le henum ?_
      rw [block_of]
      have hmax := align_le_max_align (mem_payloads_of target hv hp) 1
      exact Nat.le_trans hmax (Nat.le_max_right _ _)
    rw [payload_offset_eq hfits]
    refine ⟨hsub.fits, Nat.dvd_trans hsub.align hmax, ?_, by omega⟩
    refine Nat.dvd_add ?_ hsub.offset
    exact Nat.dvd_trans hsub.align (Nat.dvd_trans hdvd (dvd_up _ _))

/-! ## The rule -/

/-- A type as it lies in memory. -/
structure LaidOut (target : Target) (ty : Ty) : Prop where
  size_dvd : (layout_of target ty).align.toNat ∣ (layout_of target ty).size.toNat
  fields : ∀ fields, ty = .Struct fields ∨ ty = .Tuple fields →
    (struct_layout_of target fields).layout = layout_of target ty ∧ StructPlaced target fields
  variants : ∀ variants, ty = .Enum variants →
    (enum_layout_of target variants).layout = layout_of target ty ∧ EnumPlaced target variants
  inside : ∀ off sub, Within target ty off sub → (layout_of target sub).align.toNat ∣ off ∧
    off + (layout_of target sub).size.toNat ≤ (layout_of target ty).size.toNat

theorem laid_out (hfits : Fits target ty) : LaidOut target ty where
  size_dvd := by
    rw [hfits.size_eq, (layout_cuts target ty).align]
    exact block_dvd target ty
  fields := by
    rintro fields (rfl | rfl)
    · exact ⟨struct_layout_eq target fields, struct_placed hfits⟩
    · unfold Fits at hfits
      rw [block_tuple] at hfits
      refine ⟨?_, struct_placed hfits⟩
      rw [layout_of]
      rfl
  variants := by
    rintro variants rfl
    exact ⟨enum_layout_eq target variants, enum_placed hfits⟩
  inside := by
    intro off sub h
    have hsits := sits_of_within h hfits
    rw [hfits.size_eq, hsits.fits.size_eq, (layout_cuts target sub).align]
    exact ⟨hsits.offset, hsits.inside⟩

/-- The layout is the rule's, with the size cut at the largest word. -/
theorem layout_exact (target : Target) (ty : Ty) :
    (∃ k, (layout_of target ty).align.toNat = 2 ^ k) ∧
      (layout_of target ty).align ≤ MEM_MAX_ALIGN ∧
      (layout_of target ty).size.toNat = min (block_of target ty).size USIZE_MAX.toNat ∧
      ((block_of target ty).size ≤ USIZE_MAX.toNat → LaidOut target ty) := by
  have hcuts := layout_cuts target ty
  have hpow : IsAlign (layout_of target ty).align.toNat := hcuts.align ▸ hcuts.isAlign
  refine ⟨?_, UInt64.le_iff_toNat_le.mpr hpow.le, hcuts.size, laid_out⟩
  obtain ⟨k, -, hk⟩ := hpow
  exact ⟨k, hk⟩

end Fors.Layout
