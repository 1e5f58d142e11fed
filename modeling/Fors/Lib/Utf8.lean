import Mathlib.Data.List.Basic
import Fors.Lib.PrefixCode

/-!
# UTF-8

The bytes of a text. They determine it, and none of them is `0xF8` or more.

Principal result: `decode_eq_some`.
-/

namespace Utf8

open PrefixCode List

/-- The bytes of a list of characters. -/
def encode (s : List Char) : List UInt8 :=
  s.flatMap String.utf8EncodeChar

theorem encode_nil : encode [] = [] :=
  rfl

theorem encode_append (s t : List Char) : encode (s ++ t) = encode s ++ encode t :=
  flatMap_append

theorem encode_cons (c : Char) (s : List Char) :
    encode (c :: s) = String.utf8EncodeChar c ++ encode s :=
  flatMap_cons

theorem encode_char_ne_nil (c : Char) : String.utf8EncodeChar c ≠ [] := by
  unfold String.utf8EncodeChar
  simp only
  split
  · simp
  · split
    · simp
    · split <;> simp

theorem encode_char_lt {c : Char} {b : UInt8} (h : b ∈ String.utf8EncodeChar c) :
    b.toNat < 0xF8 := by
  unfold String.utf8EncodeChar at h
  simp only at h
  split at h
  · simp only [mem_singleton] at h
    subst h
    rw [UInt8.toNat_ofNat']
    omega
  · split at h
    · simp only [mem_cons, not_mem_nil, or_false] at h
      obtain rfl | rfl := h <;> rw [UInt8.toNat_ofNat'] <;> omega
    · split at h
      · simp only [mem_cons, not_mem_nil, or_false] at h
        obtain rfl | rfl | rfl := h <;> rw [UInt8.toNat_ofNat'] <;> omega
      · simp only [mem_cons, not_mem_nil, or_false] at h
        obtain rfl | rfl | rfl | rfl := h <;> rw [UInt8.toNat_ofNat'] <;> omega

theorem encode_lt {s : List Char} {b : UInt8} (h : b ∈ encode s) : b.toNat < 0xF8 := by
  obtain ⟨c, -, hb⟩ := mem_flatMap.mp h
  exact encode_char_lt hb

/-- A character is told from what follows it. -/
theorem cut_char : Cut String.utf8EncodeChar := by
  intro c d s t _ _ h
  have hbytes := congrArg List.toByteArray h
  rw [toByteArray_append, toByteArray_append] at hbytes
  have hc := ByteArray.utf8DecodeChar?_utf8EncodeChar_append (b := s.toByteArray) (c := c)
  have hd := ByteArray.utf8DecodeChar?_utf8EncodeChar_append (b := t.toByteArray) (c := d)
  rw [hbytes, hd] at hc
  cases hc
  exact ⟨rfl, append_cancel_left h⟩

theorem encode_inj {s t : List Char} (h : encode s = encode t) : s = t :=
  cut_char.flatMap_inj (fun c _ => encode_char_ne_nil c) (fun _ _ => trivial) (fun _ _ => trivial) h

/-- A byte below 128 is a character of its own. -/
theorem mem_encode_ascii {s : List Char} {b : UInt8} (h : b ∈ encode s) (hb : b.toNat < 128) :
    ∃ c ∈ s, c.toNat = b.toNat := by
  obtain ⟨c, hc, hbc⟩ := mem_flatMap.mp h
  refine ⟨c, hc, ?_⟩
  unfold String.utf8EncodeChar at hbc
  simp only at hbc
  change c.val.toNat = b.toNat
  split at hbc
  · rw [mem_singleton.mp hbc, UInt8.toNat_ofNat']
    omega
  · split at hbc
    · simp only [mem_cons, not_mem_nil, or_false] at hbc
      obtain rfl | rfl := hbc <;> rw [UInt8.toNat_ofNat'] at hb <;> omega
    · split at hbc
      · simp only [mem_cons, not_mem_nil, or_false] at hbc
        obtain rfl | rfl | rfl := hbc <;> rw [UInt8.toNat_ofNat'] at hb <;> omega
      · simp only [mem_cons, not_mem_nil, or_false] at hbc
        obtain rfl | rfl | rfl | rfl := hbc <;> rw [UInt8.toNat_ofNat'] at hb <;> omega

theorem encode_ascii {c : Char} (h : c.toNat < 128) :
    String.utf8EncodeChar c = [UInt8.ofNat c.toNat] :=
  if_pos (Nat.le_of_lt_succ h)

/-- A character beyond ASCII starts with a byte that is none. -/
theorem encode_not_ascii {c : Char} (h : ¬c.toNat < 128) :
    ∃ b s, String.utf8EncodeChar c = b :: s ∧ 128 ≤ b.toNat := by
  cases hbytes : String.utf8EncodeChar c with
  | nil => exact absurd hbytes (encode_char_ne_nil c)
  | cons b s =>
    refine ⟨b, s, rfl, ?_⟩
    by_contra hlt
    have hb : b ∈ encode [c] := by
      rw [encode_cons, hbytes]
      exact mem_append_left _ mem_cons_self
    obtain ⟨d, hd, heq⟩ := mem_encode_ascii hb (by omega)
    rw [mem_singleton.mp hd] at heq
    omega

theorem toNat_ofNat {n : Nat} (h : n.isValidChar) : (Char.ofNat n).toNat = n := by
  unfold Char.ofNat
  rw [dif_pos h]
  rfl

/-- ASCII bytes are a text. -/
theorem exists_ascii {bytes : List UInt8} (h : ∀ b ∈ bytes, b.toNat < 128) :
    ∃ s, bytes = encode s := by
  induction bytes with
  | nil => exact ⟨[], rfl⟩
  | cons b bytes ih =>
    obtain ⟨s, hs⟩ := ih fun b hb => h b (mem_cons_of_mem _ hb)
    have hb := h b mem_cons_self
    have hvalid : b.toNat.isValidChar := .inl (by omega)
    have hchar : (Char.ofNat b.toNat).toNat = b.toNat := toNat_ofNat hvalid
    refine ⟨Char.ofNat b.toNat :: s, ?_⟩
    rw [encode_cons, encode_ascii (by omega), hchar, UInt8.ofNat_toNat, hs]
    rfl

/-! ## Decoding -/

/-- `str::from_utf8`. -/
def decode (bytes : List UInt8) : Option (List Char) :=
  (String.fromUTF8? bytes.toByteArray).map String.toList

theorem toByteArray_encode (s : List Char) : (encode s).toByteArray = (String.ofList s).toUTF8 :=
  String.toByteArray_ofList.symm

theorem decode_encode (s : List Char) : decode (encode s) = some s := by
  have hread : String.fromUTF8? (String.ofList s).toUTF8 = some (String.ofList s) :=
    dif_pos (String.ofList s).isValidUTF8
  rw [decode, toByteArray_encode, hread]
  exact congrArg some String.toList_ofList

/-- Only the bytes of a text are read as it. -/
theorem decode_eq_some {bytes : List UInt8} {s : List Char} :
    decode bytes = some s ↔ bytes = encode s := by
  refine ⟨fun h => ?_, fun h => h ▸ decode_encode s⟩
  unfold decode String.fromUTF8? at h
  split at h
  · rename_i hvalid
    cases h
    have htext := toByteArray_encode (String.fromUTF8 bytes.toByteArray hvalid).toList
    rw [String.ofList_toList] at htext
    change _ = bytes.toByteArray at htext
    simpa using (congrArg (fun a => a.data.toList) htext).symm
  · cases h

/-- The bytes of some text. -/
def Valid (bytes : List UInt8) : Prop :=
  ∃ s, bytes = encode s

theorem Valid.append {a b : List UInt8} (ha : Valid a) (hb : Valid b) : Valid (a ++ b) := by
  obtain ⟨s, rfl⟩ := ha
  obtain ⟨t, rfl⟩ := hb
  exact ⟨s ++ t, (encode_append s t).symm⟩

theorem Valid.cons {b : UInt8} {bytes : List UInt8} (hb : b.toNat < 128) (h : Valid bytes) :
    Valid (b :: bytes) := by
  have hone : Valid [b] := exists_ascii fun c hc => mem_singleton.mp hc ▸ hb
  exact hone.append h

/-- The bytes of a string. -/
def bytes (s : String) : List UInt8 :=
  encode s.toList

theorem bytes_inj {s t : String} (h : bytes s = bytes t) : s = t :=
  String.toList_injective (encode_inj h)

end Utf8
