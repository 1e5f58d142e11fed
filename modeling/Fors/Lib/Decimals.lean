import Mathlib.Data.List.TakeWhile
import Fors.Lib.Floats

/-!
# Decimal numerals of floats

A numeral has a sign, digits with a point among them, and an exponent; the sign, one side of the
point and the exponent may be missing. It reads as the float nearest to the number it stands for.

Principal results: `from_str_digits` and `from_str_exponent`.
-/

namespace Floats

open List

variable {F : Format}

/-- The magnitude nearest to `n / d` units. -/
def Format.round_ratio (F : Format) (n d : Nat) : Nat :=
  let k := Nat.log2 (n / d) - F.man
  min (k * 2 ^ F.man + Format.nearest n (d * 2 ^ k)) F.inf

theorem Format.round_ratio_two_pow (n s : Nat) : F.round_ratio n (2 ^ s) = F.round n s := by
  unfold round_ratio round
  simp only [Nat.pow_add]

theorem Format.round_ratio_one (n : Nat) : F.round_ratio n 1 = F.round n 0 :=
  round_ratio_two_pow n 0

/-- A unit or more is not rounded to zero. -/
theorem Format.round_pos {n : Nat} (h : 0 < n) : 0 < F.round n 0 := by
  have hman : 1 / 2 ^ F.man = 0 := Nat.div_eq_of_lt (Nat.one_lt_two_pow F.man_pos.ne')
  have hone : F.units 1 = 1 := if_pos hman
  have hinf : 1 ≤ F.inf := by
    have hexp : 2 ^ 2 ≤ 2 ^ F.exp := Nat.pow_le_pow_right Nat.two_pos F.one_lt_exp
    exact Nat.mul_pos (by omega) (Nat.two_pow_pos _)
  have hround := round_units hinf
  rw [hone] at hround
  have hmono := round_mono (F := F) (show 1 ≤ n from h)
  omega

namespace Binary

/-- The float nearest to `m * 10 ^ e`. -/
def of_decimal (neg : Bool) (m : Nat) (e : Int) : Binary F :=
  ⟨neg, F.round_ratio (m * F.one * 10 ^ e.toNat) (10 ^ (-e).toNat),
    (Nat.min_le_right _ _).trans_lt Format.inf_lt⟩

theorem of_decimal_int (neg : Bool) (m : Nat) :
    (of_decimal neg m 0 : Binary F) = rounded neg (m * F.one) 0 := by
  unfold of_decimal rounded
  simp [Format.round_ratio_one]

end Binary

/-! ## Numerals -/

namespace Decimal

def is_digit (b : UInt8) : Bool :=
  '0'.toUInt8 ≤ b && b ≤ '9'.toUInt8

/-- The bytes of a numeral. -/
def is_numeral (b : UInt8) : Bool :=
  is_digit b || b == '.'.toUInt8 || b == 'e'.toUInt8 || b == 'E'.toUInt8 || b == '+'.toUInt8 ||
    b == '-'.toUInt8

/-- The number that a row of digits stands for. -/
def digits (ds : List UInt8) : Nat :=
  ds.foldl (fun n b => 10 * n + (b.toNat - '0'.toNat)) 0

/-- Whether there is a minus sign, and what follows the sign. -/
def sign : List UInt8 → Bool × List UInt8
  | [] => (false, [])
  | b :: t =>
    if b = '-'.toUInt8 then (true, t) else if b = '+'.toUInt8 then (false, t) else (false, b :: t)

/-- The digits behind a point, and what follows them. -/
def fraction : List UInt8 → List UInt8 × List UInt8
  | [] => ([], [])
  | b :: t =>
    if b = '.'.toUInt8 then (t.takeWhile is_digit, t.dropWhile is_digit) else ([], b :: t)

/-- An exponent up to the end, or none. -/
def exponent : List UInt8 → Option Int
  | [] => some 0
  | b :: t =>
    if b = 'e'.toUInt8 ∨ b = 'E'.toUInt8 then
      let (neg, ds) := sign t
      if ds ≠ [] ∧ ds.all is_digit then some (if neg then -(digits ds : Int) else digits ds)
      else none
    else none

/-- `str::parse::<f64>` of a text of numeral bytes (the words for infinity and NaN have others). -/
def from_str (t : List UInt8) : Option (Binary F) :=
  let (neg, body) := sign t
  let whole := body.takeWhile is_digit
  let (frac, rest) := fraction (body.dropWhile is_digit)
  if whole ++ frac = [] then none
  else (exponent rest).map fun e =>
    Binary.of_decimal neg (digits (whole ++ frac)) (e - frac.length)

/-! ### Bytes -/

variable {t : List UInt8} {b : UInt8}

theorem is_numeral_of_digit (h : is_digit b = true) : is_numeral b = true := by
  unfold is_numeral
  rw [h]
  rfl

theorem mem_sign (h : b ∈ t) : is_numeral b = true ∨ b ∈ (sign t).2 := by
  cases t with
  | nil => cases h
  | cons c t =>
    simp only [sign]
    split
    · rename_i hc
      rcases mem_cons.mp h with rfl | h
      · exact .inl (hc ▸ rfl)
      · exact .inr h
    · split
      · rename_i hc
        rcases mem_cons.mp h with rfl | h
        · exact .inl (hc ▸ rfl)
        · exact .inr h
      · exact .inr h

theorem mem_digits (h : b ∈ t) : is_numeral b = true ∨ b ∈ t.dropWhile is_digit := by
  rw [← takeWhile_append_dropWhile (p := is_digit) (l := t)] at h
  rcases mem_append.mp h with h | h
  · exact .inl (is_numeral_of_digit (mem_takeWhile_imp h))
  · exact .inr h

theorem mem_fraction (h : b ∈ t) : is_numeral b = true ∨ b ∈ (fraction t).2 := by
  cases t with
  | nil => cases h
  | cons c t =>
    simp only [fraction]
    split
    · rename_i hc
      rcases mem_cons.mp h with rfl | h
      · exact .inl (hc ▸ rfl)
      · exact mem_digits h
    · exact .inr h

theorem mem_exponent {e : Int} (h : exponent t = some e) (hb : b ∈ t) : is_numeral b = true := by
  cases t with
  | nil => cases hb
  | cons c t =>
    simp only [exponent] at h
    split at h
    · rename_i hc
      split at h
      · rename_i hds
        rcases mem_cons.mp hb with rfl | hb
        · rcases hc with hc | hc <;> exact hc ▸ rfl
        · rcases mem_sign hb with hb | hb
          · exact hb
          · exact is_numeral_of_digit (all_eq_true.mp hds.2 b hb)
      · cases h
    · cases h

/-- A text that reads as a number is made of numeral bytes. -/
theorem mem_from_str {x : Binary F} (h : from_str t = some x) (hb : b ∈ t) :
    is_numeral b = true := by
  unfold from_str at h
  simp only at h
  split at h
  · cases h
  obtain ⟨e, he, -⟩ := Option.map_eq_some_iff.mp h
  rcases mem_sign hb with hb | hb
  · exact hb
  rcases mem_digits hb with hb | hb
  · exact hb
  rcases mem_fraction hb with hb | hb
  · exact hb
  · exact mem_exponent he hb

/-- A number does not start with its exponent. -/
theorem from_str_exponent (hb : b = 'e'.toUInt8 ∨ b = 'E'.toUInt8) :
    (from_str (b :: t) : Option (Binary F)) = none := by
  rcases hb with rfl | rfl <;> rfl

/-! ### Digits -/

theorem sign_digit (h : is_digit b = true) : sign (b :: t) = (false, b :: t) := by
  have hm : b ≠ '-'.toUInt8 := by
    rintro rfl
    cases h
  have hp : b ≠ '+'.toUInt8 := by
    rintro rfl
    cases h
  simp [sign, if_neg hm, if_neg hp]

theorem span_digits {ds rest : List UInt8} (h : ds.all is_digit = true)
    (hrest : ∀ b ∈ rest.head?, is_digit b = false) :
    (ds ++ rest).takeWhile is_digit = ds ∧ (ds ++ rest).dropWhile is_digit = rest := by
  have hall := all_eq_true.mp h
  rw [takeWhile_append_of_pos hall, dropWhile_append_of_pos hall]
  cases rest with
  | nil => exact ⟨append_nil _, rfl⟩
  | cons b rest =>
    have hb : ¬is_digit b = true := by rw [hrest b rfl]; decide
    rw [takeWhile_cons_of_neg hb, dropWhile_cons_of_neg hb]
    exact ⟨append_nil _, rfl⟩

/-- Digits read as the number they stand for. -/
theorem from_str_digits (hne : t ≠ []) (h : t.all is_digit = true) :
    (from_str t : Option (Binary F)) = some (Binary.of_decimal false (digits t) 0) ∧
      (from_str ('-'.toUInt8 :: t) : Option (Binary F)) =
        some (Binary.of_decimal true (digits t) 0) := by
  have hspan : (t ++ []).takeWhile is_digit = t ∧ (t ++ []).dropWhile is_digit = [] :=
    span_digits h fun _ hb => nomatch hb
  rw [append_nil] at hspan
  obtain ⟨htake, hdrop⟩ := hspan
  have hpos : sign t = (false, t) := by
    cases t with
    | nil => exact absurd rfl hne
    | cons b t => exact sign_digit (all_eq_true.mp h b mem_cons_self)
  have hneg : sign ('-'.toUInt8 :: t) = (true, t) := rfl
  unfold from_str
  simp only [hpos, hneg, htake, hdrop, fraction, append_nil, if_neg hne]
  exact ⟨rfl, rfl⟩

end Decimal

end Floats
