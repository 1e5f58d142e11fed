import Fors.Lib.LittleEndian
import Fors.Layout.Rule

/-!
# The tag of a variant

An enum's value starts with the index of its variant, in as many little-endian bytes as the variant
count asks for.  An index is a `u32`, written through a buffer of four bytes.

Source: `crates/fors-layout/src/layout.rs`. Principal result: `codec_exact_iff`.
-/

namespace Fors.Layout

open Placement LittleEndian

/-- A slice that ends behind its buffer. -/
inductive Panic where
  | RangeEnd (stop len : Nat)
  deriving DecidableEq

/-- `bytes[..stop]`. -/
def slice_to (bytes : List UInt8) (stop : Nat) : Except Panic (List UInt8) :=
  if stop ≤ bytes.length then .ok (bytes.take stop) else .error (.RangeEnd stop bytes.length)

/-- The tag bytes of a variant index; `none` for an index that names no variant. -/
def encode_discriminant (discriminant : UInt32) (variant_count : Usize) :
    Except Panic (Option (List UInt8)) :=
  let n := discriminant_size variant_count.toNat
  if variant_count = 0 ∨ discriminant.toUInt64 ≥ variant_count then .ok none
  else do
    let bytes ← slice_to (le_bytes 4 discriminant.toNat) n.toNat
    return some bytes

/-- The variant index of tag bytes. -/
def decode_discriminant (bytes : List UInt8) (variant_count : Usize) : Option UInt32 :=
  let n := discriminant_size variant_count.toNat
  if bytes.length ≠ n.toNat ∨ variant_count = 0 ∨ n > 4 then none
  else
    let buf := bytes ++ List.replicate (4 - n.toNat) 0
    let v := UInt32.ofNat (of_le_bytes buf)
    if v.toUInt64 < variant_count then some v else none

variable {variant_count : Usize} {index v : UInt32} {bytes : List UInt8}

/-! ## The width -/

/-- The five widths. -/
theorem tag_width_regimes (n : Nat) :
    n ≤ 1 ∧ tag_width n = 0 ∨ n ≤ 256 ∧ tag_width n = 1 ∨ n ≤ 65536 ∧ tag_width n = 2 ∨
      n ≤ 2 ^ 32 ∧ tag_width n = 4 ∨ 2 ^ 32 < n ∧ tag_width n = 8 := by
  rw [← tag_width_eq]
  unfold discriminant_size
  split
  · exact .inl ⟨‹_›, rfl⟩
  · split
    · exact .inr (.inl ⟨‹_›, rfl⟩)
    · split
      · exact .inr (.inr (.inl ⟨‹_›, rfl⟩))
      · split
        · exact .inr (.inr (.inr (.inl ⟨‹_›, rfl⟩)))
        · exact .inr (.inr (.inr (.inr ⟨Nat.lt_of_not_le ‹_›, rfl⟩)))

/-- A tag is wide enough for every variant. -/
theorem le_pow_tag_width {n : Nat} (h : n ≤ 2 ^ 32) : n ≤ 256 ^ tag_width n := by
  obtain ⟨hn, hw⟩ | ⟨hn, hw⟩ | ⟨hn, hw⟩ | ⟨hn, hw⟩ | ⟨hn, hw⟩ := tag_width_regimes n <;>
    rw [hw] <;> omega

/-- Four bytes hold the tag of up to `2 ^ 32` variants, and of no more. -/
theorem tag_width_le_four (n : Nat) : tag_width n ≤ 4 ↔ n ≤ 2 ^ 32 := by
  have := tag_width_regimes n
  omega

theorem size_gt_four (n : Nat) : discriminant_size n > 4 ↔ 2 ^ 32 < n := by
  have h := tag_width_le_four n
  rw [gt_iff_lt, UInt64.lt_iff_toNat_lt, tag_width_eq]
  show 4 < tag_width n ↔ _
  omega

/-! ## Encoding -/

theorem index_lt_iff : ¬(variant_count = 0 ∨ index.toUInt64 ≥ variant_count) ↔
    index.toNat < variant_count.toNat := by
  have hindex : index.toUInt64.toNat = index.toNat := UInt32.toNat_toUInt64 index
  rw [ge_iff_le, UInt64.le_iff_toNat_le, ← UInt64.toNat_inj, hindex, UInt64.toNat_zero]
  omega

/-- What is written for a variant of an enum with at most `2 ^ 32` of them. -/
theorem encode_of_lt (hcount : variant_count.toNat ≤ 2 ^ 32)
    (hindex : index.toNat < variant_count.toNat) :
    encode_discriminant index variant_count =
      .ok (some (le_bytes (tag_width variant_count.toNat) index.toNat)) := by
  have hwidth := (tag_width_le_four variant_count.toNat).2 hcount
  unfold encode_discriminant slice_to
  rw [if_neg (index_lt_iff.2 hindex), tag_width_eq, length_le_bytes, if_pos hwidth,
    take_le_bytes hwidth]
  rfl

theorem encode_of_ge (hindex : variant_count.toNat ≤ index.toNat) :
    encode_discriminant index variant_count = .ok none :=
  if_pos (by_contra fun h => absurd (index_lt_iff.1 h) (by omega))

/-- Beyond `2 ^ 32` variants the slice asks for eight bytes of four. -/
theorem encode_of_wide (hcount : 2 ^ 32 < variant_count.toNat) :
    encode_discriminant index variant_count =
      .error (.RangeEnd (tag_width variant_count.toNat) 4) := by
  have hlt := index.toNat_lt
  have hwidth := tag_width_le_four variant_count.toNat
  unfold encode_discriminant slice_to
  rw [if_neg (index_lt_iff.2 (by omega)), tag_width_eq, length_le_bytes, if_neg (by omega)]
  rfl

/-! ## Decoding -/

/-- What tag bytes decode to. -/
theorem decode_iff : decode_discriminant bytes variant_count = some v ↔
    bytes.length = tag_width variant_count.toNat ∧ variant_count.toNat ≤ 2 ^ 32 ∧
      v.toNat = of_le_bytes bytes ∧ v.toNat < variant_count.toNat := by
  unfold decode_discriminant
  dsimp only
  rw [tag_width_eq, of_le_bytes_append_zeros]
  by_cases h : bytes.length ≠ tag_width variant_count.toNat ∨ variant_count = 0 ∨
      discriminant_size variant_count.toNat > 4
  · rw [if_pos h]
    refine ⟨fun h => (by cases h), fun ⟨hlen, hcount, _, hlt⟩ => ?_⟩
    rcases h with h | h | h
    · exact absurd hlen h
    · rw [h] at hlt
      exact absurd hlt (Nat.not_lt_zero _)
    · have := (size_gt_four _).1 h
      omega
  · have hguard := h
    rw [not_or, not_or, size_gt_four] at h
    obtain ⟨hlen, -, hcount⟩ := h
    have hlen : bytes.length = tag_width variant_count.toNat := not_not.1 hlen
    have hcount : variant_count.toNat ≤ 2 ^ 32 := Nat.le_of_not_lt hcount
    -- four bytes are below 2 ^ 32, so the word is the number
    have hnum : of_le_bytes bytes < 2 ^ 32 := by
      calc of_le_bytes bytes < 256 ^ bytes.length := of_le_bytes_lt bytes
        _ ≤ 256 ^ 4 := Nat.pow_le_pow_right (by omega) (hlen ▸ (tag_width_le_four _).2 hcount)
    have hword : (UInt32.ofNat (of_le_bytes bytes)).toNat = of_le_bytes bytes :=
      UInt32.toNat_ofNat_of_lt' hnum
    have hin : (UInt32.ofNat (of_le_bytes bytes)).toUInt64 < variant_count ↔
        of_le_bytes bytes < variant_count.toNat := by
      rw [UInt64.lt_iff_toNat_lt, UInt32.toNat_toUInt64, hword]
    rw [if_neg hguard]
    constructor
    · intro h
      split at h
      · rename_i hlt
        cases h
        exact ⟨hlen, hcount, hword, hword.symm ▸ hin.1 hlt⟩
      · cases h
    · rintro ⟨-, -, hv, hlt⟩
      rw [if_pos (hin.2 (hv ▸ hlt)), ← hv, UInt32.ofNat_toNat]

/-- What is encoded, and to which bytes. -/
theorem encode_iff : encode_discriminant index variant_count = .ok (some bytes) ↔
    variant_count.toNat ≤ 2 ^ 32 ∧ index.toNat < variant_count.toNat ∧
      bytes = le_bytes (tag_width variant_count.toNat) index.toNat := by
  rcases Nat.lt_or_ge (2 ^ 32) variant_count.toNat with hwide | hcount
  · rw [encode_of_wide hwide]
    exact ⟨fun h => (by cases h), fun ⟨h, _⟩ => absurd h (by omega)⟩
  rcases Nat.lt_or_ge index.toNat variant_count.toNat with hlt | hge
  · rw [encode_of_lt hcount hlt]
    refine ⟨fun h => ⟨hcount, hlt, ?_⟩, fun ⟨_, _, h⟩ => h ▸ rfl⟩
    exact (Option.some.inj (Except.ok.inj h)).symm
  · rw [encode_of_ge hge]
    exact ⟨fun h => (by cases h), fun ⟨_, h, _⟩ => absurd h (by omega)⟩

/-! ## The codec -/

/-- The codec is total and exact on an index and on a byte string. -/
structure Exact (variant_count : Usize) (index : UInt32) (bytes : List UInt8) : Prop where
  total : ∃ r, encode_discriminant index variant_count = .ok r
  accepts : (∃ out, encode_discriminant index variant_count = .ok (some out)) ↔
    index.toNat < variant_count.toNat
  width : ∀ out, encode_discriminant index variant_count = .ok (some out) →
    out.length = (discriminant_size variant_count.toNat).toNat
  decodes : ∀ out, encode_discriminant index variant_count = .ok (some out) →
    discriminant_size variant_count.toNat ≤ 4 →
      decode_discriminant out variant_count = some index
  encodes : ∀ v, decode_discriminant bytes variant_count = some v →
    encode_discriminant v variant_count = .ok (some bytes)

/-- What is decoded encodes to the same bytes, whatever the count. -/
theorem encode_decoded (h : decode_discriminant bytes variant_count = some v) :
    encode_discriminant v variant_count = .ok (some bytes) := by
  obtain ⟨hlen, hcount, hv, hlt⟩ := decode_iff.1 h
  refine encode_iff.2 ⟨hcount, hlt, ?_⟩
  rw [← hlen, hv, le_bytes_of_le_bytes]

/-- What is encoded decodes to the same index. -/
theorem decode_encoded (h : encode_discriminant index variant_count = .ok (some bytes)) :
    decode_discriminant bytes variant_count = some index := by
  obtain ⟨hcount, hlt, rfl⟩ := encode_iff.1 h
  have hpow := le_pow_tag_width hcount
  refine decode_iff.2 ⟨length_le_bytes _ _, hcount, ?_, hlt⟩
  rw [of_le_bytes_le_bytes, Nat.mod_eq_of_lt (by omega)]

/-- **The codec is total and exact up to `2 ^ 32` variants**, and panics on every index beyond. -/
theorem codec_exact_iff (variant_count : Usize) (index : UInt32) (bytes : List UInt8) :
    Exact variant_count index bytes ↔ variant_count.toNat ≤ 2 ^ 32 := by
  constructor
  · rintro ⟨⟨r, hr⟩, -⟩
    by_contra hwide
    rw [encode_of_wide (Nat.lt_of_not_le hwide)] at hr
    cases hr
  · intro hcount
    refine ⟨?_, ?_, ?_, ?_, fun v h => encode_decoded h⟩
    · rcases Nat.lt_or_ge index.toNat variant_count.toNat with hlt | hge
      · exact ⟨_, encode_of_lt hcount hlt⟩
      · exact ⟨_, encode_of_ge hge⟩
    · refine ⟨fun ⟨out, h⟩ => (encode_iff.1 h).2.1, fun hlt => ⟨_, encode_of_lt hcount hlt⟩⟩
    · intro out h
      obtain ⟨-, -, rfl⟩ := encode_iff.1 h
      rw [length_le_bytes, tag_width_eq]
    · intro out h _
      exact decode_encoded h

/-- One variant more than `2 ^ 32`, and the first of them panics. -/
theorem encode_panics_beyond : ¬ Exact 0x100000001 0 [] :=
  fun h => absurd h.total (by
    rw [encode_of_wide (by decide)]
    rintro ⟨r, hr⟩
    cases hr)

end Fors.Layout
