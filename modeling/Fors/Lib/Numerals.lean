import Mathlib.Data.Nat.Notation
import Mathlib.Algebra.Group.Nat.Defs

/-!
# Numerals

Reading a number in a radix from its digits, with an optional sign and an overflow check at every
digit. The digits that a number is printed with read back as it.

Principal results: `from_str_radix_toDigits` and `from_str_radix_eq_some`.
-/

namespace Numerals

open List Option

def to_digit (radix : Nat) (c : Char) : Option Nat :=
  let d :=
    if '0' ≤ c ∧ c ≤ '9' then some (c.toNat - '0'.toNat)
    else if 'a' ≤ c ∧ c ≤ 'z' then some (c.toNat - 'a'.toNat + 10)
    else if 'A' ≤ c ∧ c ≤ 'Z' then some (c.toNat - 'A'.toNat + 10)
    else none
  d.filter (· < radix)

/-- A result that is in range. -/
def checked (lo hi v : Int) : Option Int :=
  if lo ≤ v ∧ v ≤ hi then some v else none

/-- One more digit behind what is read so far. -/
def push (lo hi : Int) (radix : Nat) (negative : Bool) (acc : Int) (c : Char) : Option Int := do
  let d ← to_digit radix c
  let m ← checked lo hi (acc * radix)
  checked lo hi (if negative then m - d else m + d)

def accumulate (lo hi : Int) (radix : Nat) (negative : Bool) (acc : Int) (digits : List Char) :
    Option Int :=
  digits.foldlM (push lo hi radix negative) acc

/-- `from_str_radix` of an integer type from `lo` to `hi`. -/
def from_str_radix (lo hi : Int) (radix : Nat) : List Char → Option Int
  | [] | ['+'] | ['-'] => none
  | '+' :: digits => accumulate lo hi radix false 0 digits
  | '-' :: digits =>
    if lo < 0 then accumulate lo hi radix true 0 digits
    else accumulate lo hi radix false 0 ('-' :: digits)
  | digits => accumulate lo hi radix false 0 digits

/-! ## Digits -/

variable {lo hi : Int} {radix n k : Nat} {negative : Bool}

variable {d : Nat}

theorem to_digit_digitChar (hd : d < radix) (hradix : radix ≤ 16) :
    to_digit radix d.digitChar = some d := by
  have hchar : ∀ d < 16, to_digit 16 d.digitChar = some d := by decide
  have hd16 := hchar d (Nat.lt_of_lt_of_le hd hradix)
  unfold to_digit at hd16 ⊢
  simp only [filter_eq_some_iff] at hd16 ⊢
  exact ⟨hd16.1, by simpa using hd⟩

theorem mem_toDigits (hradix : 1 < radix) {c : Char} (hc : c ∈ Nat.toDigits radix n) :
    ∃ d < radix, c = d.digitChar := by
  induction n using Nat.base_induction radix hradix with
  | single m hm =>
    rw [Nat.toDigits_of_lt_base hm] at hc
    exact ⟨m, hm, mem_singleton.mp hc⟩
  | digit m d hd hm ih =>
    rw [← Nat.toDigits_append_toDigits hradix hm hd, Nat.toDigits_of_lt_base hd] at hc
    obtain hc | hc := mem_append.mp hc
    · exact ih hc
    · exact ⟨d, hd, mem_singleton.mp hc⟩

/-- The value with its sign. -/
def signed (negative : Bool) (n : Nat) : Int :=
  if negative then -n else n

variable {v : Int}

theorem checked_eq (h : lo ≤ v ∧ v ≤ hi) : checked lo hi v = some v :=
  if_pos h

theorem push_digit (hd : d < radix) (hradix : radix ≤ 16) (hlo : lo ≤ 0) (hhi : 0 ≤ hi)
    (hrange : lo ≤ signed negative (radix * n + d) ∧ signed negative (radix * n + d) ≤ hi) :
    push lo hi radix negative (signed negative n) d.digitChar =
      some (signed negative (radix * n + d)) := by
  have hmul : signed negative n * radix = signed negative (radix * n) := by
    unfold signed
    split <;> grind
  have hsum : (if negative then signed negative (radix * n) - d
      else signed negative (radix * n) + d) = signed negative (radix * n + d) := by
    unfold signed
    split <;> grind
  have hpart : lo ≤ signed negative (radix * n) ∧ signed negative (radix * n) ≤ hi := by
    unfold signed at hrange ⊢
    split at hrange <;> rename_i hsign
    · rw [if_pos hsign]
      omega
    · rw [if_neg hsign]
      omega
  unfold push
  rw [to_digit_digitChar hd hradix, hmul]
  simp only [bind_eq_bind, bind_some, checked_eq hpart, hsum]
  exact checked_eq hrange

/-- The digits of a number read as it. -/
theorem accumulate_toDigits (hradix : 1 < radix) (hle : radix ≤ 16) (hlo : lo ≤ 0) (hhi : 0 ≤ hi)
    (hrange : lo ≤ signed negative n ∧ signed negative n ≤ hi) :
    accumulate lo hi radix negative 0 (Nat.toDigits radix n) = some (signed negative n) := by
  have hzero : signed negative 0 = 0 := by
    unfold signed
    split <;> rfl
  induction n using Nat.base_induction radix hradix with
  | single m hm =>
    have hpush := push_digit (n := 0) hm hle hlo hhi (by rwa [Nat.mul_zero, Nat.zero_add])
    rw [Nat.mul_zero, Nat.zero_add, hzero] at hpush
    rw [Nat.toDigits_of_lt_base hm, accumulate, foldlM_cons, hpush]
    rfl
  | digit m d hd hm ih =>
    have hpart : lo ≤ signed negative m ∧ signed negative m ≤ hi := by
      have hmul : m ≤ radix * m := Nat.le_mul_of_pos_left m (by omega)
      unfold signed at hrange ⊢
      split at hrange <;> rename_i hsign
      · rw [if_pos hsign]
        omega
      · rw [if_neg hsign]
        omega
    have ih := ih hpart
    unfold accumulate at ih ⊢
    rw [← Nat.toDigits_append_toDigits hradix hm hd, Nat.toDigits_of_lt_base hd,
      foldlM_append, ih]
    simp [push_digit hd hle hlo hhi hrange]

/-- Leading zeros do not count. -/
theorem accumulate_zeros (hradix : 1 < radix) (hle : radix ≤ 16) (hlo : lo ≤ 0) (hhi : 0 ≤ hi)
    (k : Nat) (digits : List Char) :
    accumulate lo hi radix false 0 (List.replicate k '0' ++ digits) =
      accumulate lo hi radix false 0 digits := by
  induction k with
  | zero => rfl
  | succ k ih =>
    have hpush : push lo hi radix false (signed false 0) (Nat.digitChar 0) =
        some (signed false (radix * 0 + 0)) :=
      push_digit (by omega) hle hlo hhi ⟨hlo, hhi⟩
    change push lo hi radix false 0 '0' = some 0 at hpush
    unfold accumulate at ih ⊢
    rw [replicate_succ, cons_append, foldlM_cons, hpush]
    exact ih

/-- The number that a row of digits stands for, behind the digits of `n`. -/
def number (radix : Nat) (n : Nat) (ds : List Nat) : Nat :=
  ds.foldl (fun n d => radix * n + d) n

theorem le_number (hradix : 0 < radix) (ds : List Nat) : n ≤ number radix n ds := by
  induction ds generalizing n with
  | nil => exact Nat.le_refl n
  | cons d ds ih =>
    calc n ≤ radix * n := Nat.le_mul_of_pos_left n hradix
      _ ≤ radix * n + d := Nat.le_add_right _ d
      _ ≤ number radix (radix * n + d) ds := ih

theorem number_lt {ds : List Nat} (h : ∀ d ∈ ds, d < radix) :
    number radix n ds < (n + 1) * radix ^ ds.length := by
  induction ds generalizing n with
  | nil => simp [number]
  | cons d ds ih =>
    have hd := h d mem_cons_self
    calc number radix (radix * n + d) ds
        < (radix * n + d + 1) * radix ^ ds.length := ih fun d hd => h d (mem_cons_of_mem _ hd)
      _ ≤ ((n + 1) * radix) * radix ^ ds.length := by
          refine Nat.mul_le_mul_right _ ?_
          rw [Nat.succ_mul, Nat.mul_comm n]
          omega
      _ = (n + 1) * radix ^ (d :: ds).length := by
          rw [length_cons, Nat.pow_succ', Nat.mul_assoc]

theorem to_digit_lt {c : Char} (h : to_digit radix c = some d) : d < radix := by
  unfold to_digit at h
  simpa using (filter_eq_some_iff.mp h).2

theorem push_nat (hradix : 0 < radix) (hlo : lo ≤ 0) (c : Char) :
    push lo hi radix false n c = (to_digit radix c).bind fun d =>
      if ((radix * n + d : Nat) : Int) ≤ hi then some ((radix * n + d : Nat) : Int) else none := by
  unfold push
  cases to_digit radix c with
  | none => rfl
  | some d =>
    have hcast : (n : Int) * radix + d = (radix * n + d : Nat) := by
      push_cast
      rw [Int.mul_comm]
    simp only [bind_eq_bind, bind_some, checked, Bool.false_eq_true, if_false]
    by_cases hsum : ((radix * n + d : Nat) : Int) ≤ hi
    · have hmul : (n : Int) * radix ≤ hi := by omega
      have hpos : 0 ≤ (n : Int) * radix := Int.mul_nonneg (by omega) (by omega)
      rw [if_pos ⟨by omega, hmul⟩, if_pos hsum, bind_some, hcast,
        if_pos ⟨by omega, hsum⟩]
    · rw [if_neg hsum]
      split
      · rw [bind_some, hcast, if_neg fun h => hsum h.2]
      · rfl

variable {cs : List Char}

/-- Exactly the digits of a number that is in range read as it. -/
theorem accumulate_eq_some (hradix : 0 < radix) (hlo : lo ≤ 0) (hn : (n : Int) ≤ hi) : accumulate lo hi radix false n cs = some v ↔
      ∃ ds, cs.mapM (to_digit radix) = some ds ∧ v = (number radix n ds : Nat) ∧ v ≤ hi := by
  induction cs generalizing n with
  | nil =>
    have hdone : accumulate lo hi radix false n [] = some (n : Int) := rfl
    rw [hdone]
    simp only [mapM_nil, Option.pure_def, some.injEq, exists_eq_left', number,
      foldl_nil]
    exact ⟨fun h => ⟨h.symm, h ▸ hn⟩, fun h => h.1.symm⟩
  | cons c cs ih =>
    have hstep : accumulate lo hi radix false n (c :: cs) =
        (push lo hi radix false n c).bind fun m => accumulate lo hi radix false m cs := rfl
    rw [hstep, push_nat hradix hlo, mapM_cons]
    cases hd : to_digit radix c with
    | none => simp
    | some d =>
      simp only [bind_some, bind_eq_bind, Option.pure_def]
      by_cases hfits : ((radix * n + d : Nat) : Int) ≤ hi
      · rw [if_pos hfits, bind_some, ih hfits]
        constructor
        · rintro ⟨ds, hds, hv, hle⟩
          exact ⟨d :: ds, by rw [hds]; rfl, hv, hle⟩
        · rintro ⟨ds', hds', hv, hle⟩
          obtain ⟨ds, hds, heq⟩ := bind_eq_some_iff.mp hds'
          cases heq
          exact ⟨ds, hds, hv, hle⟩
      · rw [if_neg hfits]
        simp only [bind_none, reduceCtorEq, false_iff, not_exists, not_and]
        intro ds' hds' hv hle
        obtain ⟨ds, hds, heq⟩ := bind_eq_some_iff.mp hds'
        cases heq
        have hgrow := le_number (n := radix * n + d) hradix ds
        change v = (number radix (radix * n + d) ds : Nat) at hv
        omega

/-! ## Signs -/

/-- A numeral that starts with a digit has no sign. -/
theorem from_str_radix_digit (hd : d < 16) (digits : List Char) :
    from_str_radix lo hi radix (d.digitChar :: digits) =
      accumulate lo hi radix false 0 (d.digitChar :: digits) := by
  have hplus : ∀ d < 16, d.digitChar ≠ '+' ∧ d.digitChar ≠ '-' := by decide
  obtain ⟨hplus, hminus⟩ := hplus d hd
  unfold from_str_radix
  split <;> simp_all

theorem toDigits_eq_cons (hradix : 1 < radix) (n : Nat) :
    ∃ d digits, d < radix ∧ Nat.toDigits radix n = d.digitChar :: digits := by
  cases h : Nat.toDigits radix n with
  | nil => exact absurd h Nat.toDigits_ne_nil
  | cons c digits =>
    obtain ⟨d, hd, rfl⟩ := mem_toDigits hradix (h ▸ mem_cons_self)
    exact ⟨d, digits, hd, rfl⟩

/-- An unsigned type takes a plus sign. -/
theorem from_str_radix_eq_some :
    from_str_radix 0 hi radix cs = some v ↔ cs ≠ [] ∧ (accumulate 0 hi radix false 0 cs = some v ∨
      ∃ ds, cs = '+' :: ds ∧ ds ≠ [] ∧ accumulate 0 hi radix false 0 ds = some v) := by
  have hsign : ∀ c ∈ ['+', '-'], ∀ ds, accumulate 0 hi radix false 0 (c :: ds) = none := by
    intro c hc ds
    have hnone : to_digit radix c = none := by
      simp only [mem_cons, not_mem_nil, or_false] at hc
      rcases hc with rfl | rfl <;> rfl
    have hpush : push 0 hi radix false 0 c = none := by
      unfold push
      rw [hnone]
      rfl
    unfold accumulate
    rw [foldlM_cons, hpush]
    rfl
  unfold from_str_radix
  split
  · simp
  · simp [hsign]
  · simp [hsign]
  · rename_i ds hne
    have hds : ds ≠ [] := fun h => hne (h ▸ rfl)
    simp [hsign, hds]
  · simp [hsign]
  · rename_i hnil _ _ hplus _
    have hne : cs ≠ [] := fun h => hnil h
    have hno : ∀ ds, cs ≠ '+' :: ds := fun ds h => hplus ds h
    simp [hne, hno]

theorem unsigned_nonneg (hradix : 0 < radix) (hhi : 0 ≤ hi)
    (h : from_str_radix 0 hi radix cs = some v) : 0 ≤ v := by
  have hnat : ∀ {ds : List Char}, accumulate 0 hi radix false 0 ds = some v → 0 ≤ v := by
    intro ds hacc
    obtain ⟨ns, -, rfl, -⟩ := (accumulate_eq_some (n := 0) hradix (Int.le_refl 0) hhi).mp hacc
    exact Int.natCast_nonneg _
  obtain ⟨-, hacc | ⟨ds, -, -, hacc⟩⟩ := from_str_radix_eq_some.mp h
  · exact hnat hacc
  · exact hnat hacc

/-- A number reads as its digits. -/
theorem from_str_radix_toDigits (hradix : 1 < radix) (hle : radix ≤ 16) (hlo : lo ≤ 0)
    (hhi : (n : Int) ≤ hi) : from_str_radix lo hi radix (Nat.toDigits radix n) = some (n : Int) := by
  obtain ⟨d, digits, hd, hdigits⟩ := toDigits_eq_cons hradix n
  have hread : accumulate lo hi radix false 0 (Nat.toDigits radix n) = some (signed false n) :=
    accumulate_toDigits hradix hle hlo (by omega) ⟨by change lo ≤ (n : Int); omega, hhi⟩
  rw [hdigits] at hread ⊢
  rw [from_str_radix_digit (by omega)]
  exact hread

/-- A number below zero reads as its sign and digits. -/
theorem from_str_radix_neg_toDigits (hradix : 1 < radix) (hle : radix ≤ 16) (hlo : lo < 0)
    (hhi : 0 ≤ hi) (hn : lo ≤ -(n : Int)) :
    from_str_radix lo hi radix ('-' :: Nat.toDigits radix n) = some (-(n : Int)) := by
  obtain ⟨d, digits, hd, hdigits⟩ := toDigits_eq_cons hradix n
  have hread : accumulate lo hi radix true 0 (Nat.toDigits radix n) = some (signed true n) :=
    accumulate_toDigits hradix hle (by omega) hhi ⟨hn, by change -(n : Int) ≤ hi; omega⟩
  rw [hdigits] at hread ⊢
  simp only [from_str_radix, if_pos hlo]
  exact hread

end Numerals
