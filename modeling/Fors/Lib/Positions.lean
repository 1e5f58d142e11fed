import Fors.Lib.Utf8
import Mathlib.Algebra.Order.BigOperators.Group.List
import Mathlib.Data.List.DropRight
import Mathlib.Data.List.Induction
import Mathlib.Algebra.GroupWithZero.Nat

/-!
# Positions in a text

A place in a text is told by the lines before it and by the UTF-16 code units between the start of
its line and itself. Bytes are read as a text with a replacement character for each ill-formed
sequence.

Principal results: `position_lt` and `encode_split`.
-/

namespace Positions

open Utf8 List

/-- The UTF-16 code units of a character: a surrogate pair outside the basic plane. -/
def units (c : Char) : Nat :=
  if c.toNat < 0x10000 then 1 else 2

def width (s : List Char) : Nat :=
  (s.map units).sum

/-- The lines before the end of a text. -/
def line (p : List Char) : Nat :=
  p.count '\n'

/-- What stands behind the last newline. -/
def current (p : List Char) : List Char :=
  p.rtakeWhile fun c => c ≠ '\n'

def column (p : List Char) : Nat :=
  width (current p)

/-- Nothing, or lines with their newlines. -/
def Whole (p : List Char) : Prop :=
  p = [] ∨ ∃ b, p = b ++ ['\n']

variable {p q l r s : List Char} {c : Char}

theorem units_pos (c : Char) : 0 < units c := by
  unfold units
  split <;> omega

@[simp] theorem width_nil : width [] = 0 :=
  rfl

@[simp] theorem width_cons (c : Char) (s : List Char) : width (c :: s) = units c + width s :=
  sum_cons

@[simp] theorem width_append (p q : List Char) : width (p ++ q) = width p + width q := by
  unfold width
  rw [map_append, sum_append]

@[simp] theorem line_append (p q : List Char) : line (p ++ q) = line p + line q :=
  count_append

theorem line_of_notMem (h : '\n' ∉ l) : line l = 0 :=
  count_eq_zero_of_not_mem h

/-! ## The current line -/

theorem current_append (hp : Whole p) (hl : '\n' ∉ l) : current (p ++ l) = l := by
  unfold current
  have hrun : ∀ c ∈ l.reverse, decide (c ≠ '\n') = true := by
    intro c hc
    refine decide_eq_true ?_
    rintro rfl
    exact hl (mem_reverse.mp hc)
  rw [List.rtakeWhile, reverse_append, takeWhile_append_of_pos hrun, reverse_append,
    reverse_reverse]
  obtain rfl | ⟨b, rfl⟩ := hp
  · rfl
  · simp

theorem current_whole (hp : Whole p) : current p = [] := by
  have h := current_append hp (l := []) not_mem_nil
  rwa [append_nil] at h

/-- A text is its whole lines and the line at its end. -/
theorem exists_current (p : List Char) : ∃ w, Whole w ∧ p = w ++ current p ∧ '\n' ∉ current p := by
  induction p using List.reverseRecOn with
  | nil => exact ⟨[], Or.inl rfl, rfl, not_mem_nil⟩
  | append_singleton p c ih =>
    obtain ⟨w, hw, heq, hmem⟩ := ih
    by_cases hc : c = '\n'
    · refine ⟨p ++ [c], Or.inr ⟨p, by rw [hc]⟩, ?_, ?_⟩
      · rw [current_whole (Or.inr ⟨p, by rw [hc]⟩), append_nil]
      · rw [current_whole (Or.inr ⟨p, by rw [hc]⟩)]
        exact not_mem_nil
    · have hline : '\n' ∉ current p ++ [c] := by
        rw [mem_append, mem_singleton, not_or]
        exact ⟨hmem, Ne.symm hc⟩
      have hcurrent : current (p ++ [c]) = current p ++ [c] := by
        conv_lhs => rw [heq, append_assoc]
        exact current_append hw hline
      refine ⟨w, hw, ?_, ?_⟩
      · rw [hcurrent, ← append_assoc, ← heq]
      · rwa [hcurrent]

theorem column_append (h : '\n' ∉ l) : column (p ++ l) = column p + width l := by
  obtain ⟨w, hw, heq, hmem⟩ := exists_current p
  have hline : '\n' ∉ current p ++ l := by
    rw [mem_append, not_or]
    exact ⟨hmem, h⟩
  unfold column
  rw [← width_append, ← current_append hw hline, ← append_assoc, ← heq]

/-- Places are in order of their positions. -/
theorem position_lt (hq : q ≠ []) : line p < line (p ++ q) ∨
    line p = line (p ++ q) ∧ column p < column (p ++ q) := by
  by_cases h : '\n' ∈ q
  · have hcount : 0 < line q := count_pos_iff.mpr h
    rw [line_append]
    omega
  · right
    have hpos : 0 < width q := by
      cases q with
      | nil => exact absurd rfl hq
      | cons c q =>
        have hc := units_pos c
        rw [width_cons]
        omega
    rw [line_append, line_of_notMem h, column_append h]
    omega

/-- A line of a text, with the whole lines in front. -/
theorem exists_line {n : Nat} (h : n ≤ line s) : ∃ w t, s = w ++ t ∧ Whole w ∧ line w = n := by
  induction s generalizing n with
  | nil =>
    obtain rfl : n = 0 := Nat.le_zero.mp h
    exact ⟨[], [], rfl, Or.inl rfl, rfl⟩
  | cons c s ih =>
    cases n with
    | zero => exact ⟨[], c :: s, rfl, Or.inl rfl, rfl⟩
    | succ n =>
      by_cases hc : c = '\n'
      · have hcount : line (c :: s) = line s + 1 := by
          rw [hc]
          exact count_cons_self
        obtain ⟨w, t, rfl, hw, hline⟩ := ih (n := n) (by omega)
        refine ⟨c :: w, t, rfl, ?_, ?_⟩
        · obtain rfl | ⟨b, rfl⟩ := hw
          · exact Or.inr ⟨[], by rw [hc]; rfl⟩
          · exact Or.inr ⟨c :: b, rfl⟩
        · rw [hc]
          exact count_cons_self.trans (congrArg (· + 1) hline)
      · have hcount : line (c :: s) = line s := count_cons_of_ne hc
        obtain ⟨w, t, rfl, hw, hline⟩ := ih (n := n + 1) (by omega)
        refine ⟨c :: w, t, rfl, ?_, ?_⟩
        · obtain rfl | ⟨b, rfl⟩ := hw
          · cases hline
          · exact Or.inr ⟨c :: b, rfl⟩
        · exact (count_cons_of_ne hc).trans hline

/-! ## The bytes of a character -/

/-- A byte that goes on with a character. -/
def Continues (b : UInt8) : Prop :=
  0x80 ≤ b.toNat ∧ b.toNat < 0xC0

/-- The first byte of a character tells its length and its units; the others go on with it. -/
theorem encode_char_shape (c : Char) : ∃ b s, String.utf8EncodeChar c = b :: s ∧
    (∀ x ∈ s, Continues x) ∧
    (b.toNat < 0x80 ∧ s.length = 0 ∧ units c = 1 ∨
      0xC0 ≤ b.toNat ∧ b.toNat < 0xE0 ∧ s.length = 1 ∧ units c = 1 ∨
      0xE0 ≤ b.toNat ∧ b.toNat < 0xF0 ∧ s.length = 2 ∧ units c = 1 ∨
      0xF0 ≤ b.toNat ∧ b.toNat < 0xF8 ∧ s.length = 3 ∧ units c = 2) := by
  have hval : c.val.toNat = c.toNat := rfl
  have hcont (v : Nat) : Continues (UInt8.ofNat (v % 0x40 + 0x80)) := by
    unfold Continues
    rw [UInt8.toNat_ofNat']
    omega
  unfold String.utf8EncodeChar units
  simp only [hval]
  split
  · refine ⟨_, _, rfl, fun x hx => absurd hx not_mem_nil, Or.inl ⟨?_, rfl, ?_⟩⟩
    · rw [UInt8.toNat_ofNat']
      omega
    · rw [if_pos (by omega)]
  · split
    · refine ⟨_, _, rfl, ?_, Or.inr (Or.inl ⟨?_, ?_, rfl, ?_⟩)⟩
      · intro x hx
        rw [mem_singleton.mp hx]
        exact hcont _
      · rw [UInt8.toNat_ofNat']
        omega
      · rw [UInt8.toNat_ofNat']
        omega
      · rw [if_pos (by omega)]
    · split
      · refine ⟨_, _, rfl, ?_, Or.inr (Or.inr (Or.inl ⟨?_, ?_, rfl, ?_⟩))⟩
        · intro x hx
          simp only [mem_cons, not_mem_nil, or_false] at hx
          obtain rfl | rfl := hx <;> exact hcont _
        · rw [UInt8.toNat_ofNat']
          omega
        · rw [UInt8.toNat_ofNat']
          omega
        · rw [if_pos (by omega)]
      · refine ⟨_, _, rfl, ?_, Or.inr (Or.inr (Or.inr ⟨?_, ?_, rfl, ?_⟩))⟩
        · intro x hx
          simp only [mem_cons, not_mem_nil, or_false] at hx
          obtain rfl | rfl | rfl := hx <;> exact hcont _
        · rw [UInt8.toNat_ofNat']
          omega
        · rw [UInt8.toNat_ofNat']
          omega
        · rw [if_neg (by omega)]

/-- A byte of ASCII cuts a text in two. -/
theorem encode_split {a t : List UInt8} {b : UInt8} (hb : b.toNat < 128)
    (h : encode s = a ++ b :: t) : ∃ p c q, s = p ++ c :: q ∧ encode p = a ∧ c.toNat = b.toNat ∧
      encode q = t := by
  induction s generalizing a with
  | nil =>
    have hnil := congrArg List.length h
    rw [encode_nil, length_append, length_cons] at hnil
    exact absurd hnil (by simp)
  | cons c s ih =>
    rw [encode_cons] at h
    obtain ⟨rest, ha, hrest⟩ | ⟨rest, hc, hrest⟩ := append_eq_append_iff.mp h
    · obtain ⟨p, d, q, rfl, rfl, hd, rfl⟩ := ih hrest
      refine ⟨c :: p, d, q, rfl, ?_, hd, rfl⟩
      rw [encode_cons, ha]
    · cases rest with
      | nil =>
        -- The character ends where the byte stands.
        obtain ⟨p, d, q, rfl, hp, hd, rfl⟩ := ih (a := []) hrest.symm
        refine ⟨c :: p, d, q, rfl, ?_, hd, rfl⟩
        rw [encode_cons, hp, append_nil, hc, append_nil]
      | cons x rest =>
        obtain ⟨rfl, rfl⟩ := cons.inj hrest
        have hmem : b ∈ encode [c] := by
          rw [encode_cons, hc]
          exact mem_append_left _ (mem_append_right _ mem_cons_self)
        obtain ⟨d, hd, heq⟩ := mem_encode_ascii hmem hb
        obtain rfl := mem_singleton.mp hd
        have hone := encode_ascii (c := d) (by omega)
        rw [hc] at hone
        have hlen := congrArg List.length hone
        rw [length_append, length_cons, length_singleton] at hlen
        obtain rfl : a = [] := length_eq_zero_iff.mp (by omega)
        obtain rfl : rest = [] := length_eq_zero_iff.mp (by omega)
        exact ⟨[], d, s, rfl, rfl, heq, rfl⟩

end Positions

/-! ## Lossy decoding -/

namespace Utf8

open Positions List

/-- How many bytes of an ill-formed sequence one replacement character stands for. -/
def subpart : List UInt8 → Nat
  | b0 :: b1 :: rest =>
    if b0 = 0xE0 ∧ 0xA0 ≤ b1 ∧ b1 ≤ 0xBF ∨ 0xE1 ≤ b0 ∧ b0 ≤ 0xEC ∧ 0x80 ≤ b1 ∧ b1 ≤ 0xBF ∨
        b0 = 0xED ∧ 0x80 ≤ b1 ∧ b1 ≤ 0x9F ∨ 0xEE ≤ b0 ∧ b0 ≤ 0xEF ∧ 0x80 ≤ b1 ∧ b1 ≤ 0xBF then 2
    else if b0 = 0xF0 ∧ 0x90 ≤ b1 ∧ b1 ≤ 0xBF ∨ 0xF1 ≤ b0 ∧ b0 ≤ 0xF3 ∧ 0x80 ≤ b1 ∧ b1 ≤ 0xBF ∨
        b0 = 0xF4 ∧ 0x80 ≤ b1 ∧ b1 ≤ 0x8F then
      match rest with
      | b2 :: _ => if 0x80 ≤ b2 ∧ b2 ≤ 0xBF then 3 else 2
      | [] => 2
    else 1
  | _ => 1

/-- `String::from_utf8_lossy`. -/
def from_utf8_lossy (bytes : List UInt8) : List Char :=
  match bytes with
  | [] => []
  | b :: rest =>
    match (b :: rest).toByteArray.utf8DecodeChar? 0 with
    | some c => c :: from_utf8_lossy (rest.drop ((String.utf8EncodeChar c).length - 1))
    | none => '\uFFFD' :: from_utf8_lossy (rest.drop (subpart (b :: rest) - 1))
termination_by bytes.length
decreasing_by all_goals
  rw [length_drop, length_cons]
  omega

/-- A text is read as it is. -/
theorem from_utf8_lossy_encode (s : List Char) : from_utf8_lossy (encode s) = s := by
  induction s with
  | nil => rw [encode_nil, from_utf8_lossy]
  | cons c s ih =>
    obtain ⟨x, rest, heq, -, -⟩ := encode_char_shape c
    have hread := ByteArray.utf8DecodeChar?_utf8EncodeChar_append (b := (encode s).toByteArray)
      (c := c)
    rw [← toByteArray_append, heq, cons_append] at hread
    rw [encode_cons, heq, cons_append, from_utf8_lossy]
    simp [hread, heq, ih]

end Utf8
