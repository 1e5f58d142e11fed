import Fors.Interp.Remainder

/-!
# Conversions from float to integer

A conversion goes through `f64`: the integer part is taken, and it is wrapped to the width, clamped
to the bounds or checked against them.  The wrap adds `2 ^ w` in `f64`, and that sum rounds.

Principal result: `conversions_exact`.

Source: `crates/fors-interp/src/arith.rs`.
-/

namespace Fors.Interp

open Floats

/-! ## Kinds -/

/-- A trapping-arithmetic operand type. -/
inductive IntKind where
  | I8
  | I16
  | I32
  | I64
  | U8
  | U16
  | U32
  | U64
  deriving DecidableEq

namespace IntKind

/-- Bit width of the type. -/
def width : IntKind → Nat
  | .I8 | .U8 => 8
  | .I16 | .U16 => 16
  | .I32 | .U32 => 32
  | .I64 | .U64 => 64

def signed : IntKind → Bool
  | .I8 | .I16 | .I32 | .I64 => true
  | .U8 | .U16 | .U32 | .U64 => false

/-- The least and the greatest value. -/
def bounds (k : IntKind) : Int × Int :=
  if k.signed then (-2 ^ (k.width - 1), 2 ^ (k.width - 1) - 1) else (0, 2 ^ k.width - 1)

/-- The low `width` bits of an `i128`, as a `u64`. -/
def low_bits (k : IntKind) (r : Int) : Nat :=
  if k.width = 64 then as_unsigned 64 r else as_unsigned 64 r &&& (2 ^ k.width - 1)

/-- The operand bits as a signed `i128` (sign-extended for signed kinds). -/
def as_signed (k : IntKind) (bits : Nat) : Int :=
  let v := bits % 2 ^ k.width
  if v < 2 ^ (k.width - 1) then v else v - 2 ^ k.width

/-- The operand bits as an unsigned `u128` (masked to width). -/
def as_unsigned (k : IntKind) (bits : Nat) : Nat :=
  bits % 2 ^ k.width

def narrow (k : IntKind) (masked : Nat) : Nat :=
  if k.width = 64 then masked % 2 ^ 64 else masked &&& (2 ^ k.width - 1)

end IntKind

/-- A float operand type. -/
inductive FloatKind where
  | F32
  | F64
  deriving DecidableEq

namespace FloatKind

def bits : FloatKind → Interp.F64 → Nat
  | .F32, v => (v.convert : Interp.F32).to_bits
  | .F64, v => v.to_bits

def from_bits : FloatKind → Nat → Interp.F64
  | .F32, bits => (Binary.from_bits binary32 (bits % 2 ^ 32)).convert
  | .F64, bits => Binary.from_bits binary64 bits

end FloatKind

/-- A numeric type. -/
inductive NumKind where
  | Int (k : IntKind)
  | Float (k : FloatKind)
  deriving DecidableEq

inductive TrapKind where
  | CheckedConversion
  deriving DecidableEq

def canon_f32 (v : F32) : Nat :=
  if v.is_nan then CANONICAL_F32_NAN else v.to_bits

def sat_clamp (v : Int) (k : IntKind) : Nat :=
  k.low_bits (max k.bounds.1 (min k.bounds.2 v))

/-! ## Conversions -/

/-- `2.0f64.powi(n)`. -/
def powi (n : Nat) : F64 :=
  Binary.of_int (2 ^ n)

def neg (v : F64) : F64 :=
  { v with neg := !v.neg }

def as_i128 (v : F64) : Int :=
  v.as_int (-2 ^ 127) (2 ^ 127 - 1)

def as_u128 (v : F64) : Nat :=
  (v.as_int 0 (2 ^ 128 - 1)).toNat

def zero : F64 :=
  Binary.from_bits _ 0

/-- The value of an integer operand. -/
def IntKind.value (k : IntKind) (bits : Nat) : Int :=
  if k.signed then k.as_signed bits else k.as_unsigned bits

def float_bits_in_int_range (v : F64) (tk : IntKind) : Option Nat :=
  if tk.signed then
    if v.lt (neg (powi (tk.width - 1))) || (powi (tk.width - 1)).le v then none
    else some (tk.low_bits (as_i128 v))
  else if v.lt zero || (powi tk.width).le v then none
  else some (tk.narrow (as_u128 v))

def conv_checked (src_bits : Nat) : NumKind → NumKind → Except TrapKind Nat
  | .Int fk, .Int tk =>
    if fk.value src_bits < tk.bounds.1 ∨ fk.value src_bits > tk.bounds.2 then
      .error .CheckedConversion
    else .ok (tk.low_bits (fk.value src_bits))
  | .Int fk, .Float tk => .ok (tk.bits (Binary.of_int (fk.value src_bits)))
  | .Float fk, .Int tk =>
    let v := fk.from_bits src_bits
    if v.is_nan || v.is_infinite then .error .CheckedConversion
    else if !v.trunc.feq v then .error .CheckedConversion
    else
      match float_bits_in_int_range v tk with
      | some bits => .ok bits
      | none => .error .CheckedConversion
  | .Float .F64, .Float .F32 =>
    let v := FloatKind.F64.from_bits src_bits
    let r : F32 := v.convert
    if !v.is_nan && !(r.convert : F64).feq v then .error .CheckedConversion else .ok (canon_f32 r)
  | .Float fk, .Float tk => .ok (tk.bits (fk.from_bits src_bits))

/-- C-like truncation toward zero, wrapping modulo `2 ^ w`. -/
def trunc_float_to_int (v : F64) (tk : IntKind) : Checked Nat :=
  if v.is_nan then pure 0
  else do
    let m := powi tk.width
    let r := Binary.from_bits binary64 (← frem_f64 v.trunc m)
    let folded := if r.lt zero then r.add m else r
    pure (tk.narrow (as_u128 folded))

/-- Rust's `as`: saturation at the bounds. -/
def sat_float_to_int (v : F64) (tk : IntKind) : Nat :=
  if v.is_nan then 0
  else
    let t := v.trunc
    if t.le (Binary.of_int tk.bounds.1) then sat_clamp tk.bounds.1 tk
    else if (Binary.of_int tk.bounds.2).le t then sat_clamp tk.bounds.2 tk
    else if tk.signed then tk.low_bits (as_i128 t)
    else if t.lt zero then 0
    else tk.narrow (as_u128 t)

/-- Wrapping conversion. -/
def conv_wrap (src_bits : Nat) : NumKind → NumKind → Checked Nat
  | .Int fk, .Int tk =>
    pure (tk.narrow (Interp.as_unsigned 128 (fk.value src_bits) &&& (2 ^ tk.width - 1)))
  | .Int fk, .Float tk => pure (tk.bits (Binary.of_int (fk.value src_bits)))
  | .Float fk, .Int tk => trunc_float_to_int (fk.from_bits src_bits) tk
  | .Float .F64, .Float .F32 => pure (canon_f32 (FloatKind.F64.from_bits src_bits).convert)
  | .Float fk, .Float tk => pure (tk.bits (fk.from_bits src_bits))

/-- Truncating conversion (`trunc_as`). -/
def conv_trunc (src_bits : Nat) (source target : NumKind) : Checked Nat :=
  match source, target with
  | .Float fk, .Int tk => pure (sat_float_to_int (fk.from_bits src_bits) tk)
  | _, _ => conv_wrap src_bits source target

/-- Saturating conversion (`sat_as`). -/
def conv_sat (src_bits : Nat) (source target : NumKind) : Checked Nat :=
  match source, target with
  | .Int fk, .Int tk => pure (sat_clamp (fk.value src_bits) tk)
  | .Float fk, .Int tk => pure (sat_float_to_int (fk.from_bits src_bits) tk)
  | _, _ => conv_wrap src_bits source target

/-! ## Floats that are integers -/

theorem one_eq : binary64.one = 2 ^ 1074 := by
  unfold Format.one
  rw [binary64_lsb]
  rfl

/-- An integer below this is small among the floats. -/
theorem below_inf {n : Nat} (h : n ≤ 2 ^ 64) : n * binary64.one < binary64.units binary64.inf := by
  rw [Format.units_inf, one_eq]
  calc n * 2 ^ 1074 ≤ 2 ^ 64 * 2 ^ 1074 := Nat.mul_le_mul_right _ h
    _ = 2 ^ (64 + 1074) := (Nat.pow_add ..).symm
    _ < 2 ^ (binary64.man + (2 ^ binary64.exp - 2)) :=
      Nat.pow_lt_pow_right (by omega) (by decide)

theorem scaled_lt {a b : Int} : a * binary64.one < b * binary64.one ↔ a < b := by
  have hpos : (0 : Int) < binary64.one := by exact_mod_cast Format.one_pos
  exact mul_lt_mul_iff_of_pos_right hpos

theorem scaled_le {a b : Int} : a * binary64.one ≤ b * binary64.one ↔ a ≤ b := by
  have hpos : (0 : Int) < binary64.one := by exact_mod_cast Format.one_pos
  exact mul_le_mul_iff_of_pos_right hpos

/-- The float is finite and is the integer `n`. -/
def Is (v : F64) (n : Int) : Prop :=
  v.Finite ∧ v.units = n * binary64.one

theorem Is.le {v v' : F64} {n n' : Int} (h : Is v n) (h' : Is v' n') : v.le v' = decide (n ≤ n') := by
  rw [Binary.le_eq h.1 h'.1, h.2, h'.2]
  exact decide_eq_decide.mpr scaled_le

theorem Is.lt {v v' : F64} {n n' : Int} (h : Is v n) (h' : Is v' n') : v.lt v' = decide (n < n') := by
  rw [Binary.lt_eq h.1 h'.1, h.2, h'.2]
  exact decide_eq_decide.mpr scaled_lt

theorem Is.toward_zero {v : F64} {n : Int} (h : Is v n) : toward_zero v.value = n := by
  have hpos : (binary64.one : Int) ≠ 0 := by exact_mod_cast (Format.one_pos (F := binary64)).ne'
  rw [Binary.toward_zero_value, h.2, Int.mul_tdiv_cancel _ hpos]

theorem Is.neg {v : F64} {n : Int} (h : Is v n) : Is (neg v) (-n) := by
  refine ⟨h.1, ?_⟩
  have hunits : (Interp.neg v).units = -v.units := by
    unfold Interp.neg Binary.units
    cases v.neg <;> simp
  rw [hunits, h.2, Int.neg_mul]

theorem Is.as_i128 {v : F64} {n : Int} (h : Is v n) (hlo : -2 ^ 127 ≤ n) (hhi : n < 2 ^ 127) :
    as_i128 v = n := by
  unfold Interp.as_i128
  rw [Binary.as_int_eq h.1, h.toward_zero]
  omega

theorem Is.as_u128 {v : F64} {n : Int} (h : Is v n) (hlo : 0 ≤ n) (hhi : n < 2 ^ 128) :
    as_u128 v = n.toNat := by
  unfold Interp.as_u128
  rw [Binary.as_int_eq h.1, h.toward_zero]
  omega

theorem is_zero : Is zero 0 := by
  refine ⟨by decide +kernel, ?_⟩
  rw [Int.zero_mul]
  exact Binary.units_eq_zero.mpr rfl

theorem is_of_int {n : Int} {q j : Nat} (hn : n.natAbs = q * 2 ^ j) (hq : q < 2 ^ 53)
    (hle : n.natAbs ≤ 2 ^ 64) : Is (Binary.of_int n) n :=
  Binary.of_int_units hn hq (below_inf hle)

theorem is_powi {n : Nat} (h : n ≤ 64) : Is (powi n) (2 ^ n) := by
  have hpow : ((2 : Int) ^ n).natAbs = 2 ^ n := by simp [Int.natAbs_pow]
  refine is_of_int (q := 1) (j := n) (by omega) (by omega) ?_
  rw [hpow]
  exact Nat.pow_le_pow_right Nat.two_pos h

theorem is_trunc {v : F64} (h : v.Finite) : Is v.trunc (toward_zero v.value) :=
  Binary.trunc_units h

theorem is_min (tk : IntKind) : Is (Binary.of_int tk.bounds.1) tk.bounds.1 := by
  have hfin : (Binary.of_int tk.bounds.1 : F64).Finite ∧
      (Binary.of_int tk.bounds.1 : F64).units = tk.bounds.1 * binary64.one := by
    cases tk <;> decide +kernel
  exact hfin

/-- The greatest value, or the integer after it where that rounds to a float. -/
theorem is_max (tk : IntKind) : ∃ c, Is (Binary.of_int tk.bounds.2) c ∧
    (c = tk.bounds.2 ∨ c = tk.bounds.2 + 1) := by
  rcases tk with _ | _ | _ | _ | _ | _ | _ | _
  case I64 => exact ⟨2 ^ 63, by unfold Is; decide +kernel, by decide⟩
  case U64 => exact ⟨2 ^ 64, by unfold Is; decide +kernel, by decide⟩
  all_goals exact ⟨_, by unfold Is; decide +kernel, .inl rfl⟩

/-! ## Patterns -/

/-- The low bits of an integer, as a pattern of the kind's width. -/
def IntKind.pattern (k : IntKind) (n : Int) : Nat :=
  (n % 2 ^ k.width).toNat

theorem low_bits_eq (k : IntKind) (n : Int) : k.low_bits n = k.pattern n := by
  unfold IntKind.low_bits IntKind.pattern as_unsigned
  rw [Nat.and_two_pow_sub_one_eq_mod]
  split
  · rename_i h
    rw [h]
  · cases k <;> simp only [IntKind.width] <;> omega

theorem narrow_eq (k : IntKind) (n : Nat) : k.narrow n = k.pattern n := by
  unfold IntKind.narrow IntKind.pattern
  rw [Nat.and_two_pow_sub_one_eq_mod]
  split
  · rename_i h
    rw [h]
    omega
  · cases k <;> simp only [IntKind.width] <;> omega

theorem bounds_cases (k : IntKind) : k.bounds.1 ≤ 0 ∧ 0 < k.bounds.2 ∧
    -2 ^ 63 ≤ k.bounds.1 ∧ k.bounds.2 < 2 ^ 64 := by
  cases k <;> decide

theorem sat_clamp_eq (n : Int) (k : IntKind) :
    sat_clamp n k = k.pattern (max k.bounds.1 (min k.bounds.2 n)) :=
  low_bits_eq k _

/-! ## Saturation -/

theorem sat_float_to_int_eq {v : F64} (h : v.Finite) (tk : IntKind) :
    sat_float_to_int v tk =
      tk.pattern (max tk.bounds.1 (min tk.bounds.2 (toward_zero v.value))) := by
  have ht := is_trunc h
  obtain ⟨c, hmax, hc⟩ := is_max tk
  obtain ⟨hlo, hhi, hlo', hhi'⟩ := bounds_cases tk
  unfold sat_float_to_int
  rw [h.tests.1, if_neg (by simp)]
  simp only [ht.le (is_min tk), hmax.le ht, ht.lt is_zero, decide_eq_true_eq, sat_clamp_eq]
  generalize toward_zero v.value = n at ht ⊢
  by_cases hle : n ≤ tk.bounds.1
  · rw [if_pos hle]
    congr 1
    omega
  rw [if_neg hle]
  by_cases hge : c ≤ n
  · rw [if_pos hge]
    congr 1
    omega
  rw [if_neg hge]
  have hclamp : max tk.bounds.1 (min tk.bounds.2 n) = n := by omega
  by_cases hs : tk.signed = true
  · rw [if_pos hs, ht.as_i128 (by omega) (by omega), low_bits_eq, hclamp]
  · have hzero : tk.bounds.1 = 0 := by
      unfold IntKind.bounds
      rw [if_neg hs]
    rw [if_neg hs, if_neg (by omega), ht.as_u128 (by omega) (by omega), narrow_eq, hclamp,
      Int.toNat_of_nonneg (by omega)]

/-! ## The checked conversion -/

theorem feq_trunc {v : F64} (h : v.Finite) :
    v.trunc.feq v = decide ((toward_zero v.value : ℚ) = v.value) := by
  have ht := is_trunc h
  rw [Binary.feq_eq ht.1 h, decide_eq_decide, ← Binary.value_inj, Binary.value_of_units ht.2]

theorem float_bits_in_int_range_eq {v : F64} {n : Int} (h : Is v n) (tk : IntKind) :
    float_bits_in_int_range v tk =
      if tk.bounds.1 ≤ n ∧ n ≤ tk.bounds.2 then some (tk.pattern n) else none := by
  have hw : tk.width ≤ 64 := by cases tk <;> decide
  have hlow := is_powi (n := tk.width - 1) (by omega)
  obtain ⟨hlo, hhi, hlo', hhi'⟩ := bounds_cases tk
  unfold float_bits_in_int_range
  simp only [h.lt hlow.neg, hlow.le h, h.lt is_zero, (is_powi hw).le h]
  by_cases hs : tk.signed = true
  · have hbounds : tk.bounds = (-2 ^ (tk.width - 1), 2 ^ (tk.width - 1) - 1) := if_pos hs
    have hmin : tk.bounds.1 = -2 ^ (tk.width - 1) := congrArg Prod.fst hbounds
    have hmax : tk.bounds.2 = 2 ^ (tk.width - 1) - 1 := congrArg Prod.snd hbounds
    rw [if_pos hs]
    by_cases hin : tk.bounds.1 ≤ n ∧ n ≤ tk.bounds.2
    · rw [if_pos hin, if_neg (by simp; omega), h.as_i128 (by omega) (by omega), low_bits_eq]
    · rw [if_neg hin, if_pos (by simp; omega)]
  · have hbounds : tk.bounds = (0, 2 ^ tk.width - 1) := if_neg hs
    have hmin : tk.bounds.1 = 0 := congrArg Prod.fst hbounds
    have hmax : tk.bounds.2 = 2 ^ tk.width - 1 := congrArg Prod.snd hbounds
    rw [if_neg hs]
    by_cases hin : tk.bounds.1 ≤ n ∧ n ≤ tk.bounds.2
    · rw [if_pos hin, if_neg (by simp; omega), h.as_u128 (by omega) (by omega), narrow_eq,
        Int.toNat_of_nonneg (by omega)]
    · rw [if_neg hin, if_pos (by simp; omega)]

/-! ## The wrap -/

theorem frem_f64_units {a b : F64} (ha : a.Finite) (hb : b.Finite) (hb0 : b.mag ≠ 0) :
    ∃ r : F64, frem_f64 a b = .ok r.to_bits ∧ r.Finite ∧ r.units = a.units.tmod b.units := by
  by_cases ha0 : a.mag = 0
  · obtain ⟨hanan, hainf⟩ := ha.tests
    obtain ⟨hbnan, hbinf⟩ := hb.tests
    refine ⟨a, ?_, ha, ?_⟩
    · unfold frem_f64
      rw [hanan, hbnan, hainf, hbinf]
      simp [ha0, hb0]
      rfl
    · rw [Binary.units_eq_zero.mpr ha0, Int.zero_tmod]
  · obtain ⟨r, hr, hneg, hfin, hunits⟩ := frem_soft_eq fits_binary64 ha (Nat.pos_of_ne_zero hb0)
    exact ⟨r, (frem_f64_eq ha hb ha0 hb0).trans hr, hfin, tmod_units hneg hunits⟩

theorem frem_is {a b : F64} {n m : Int} (ha : Is a n) (hb : Is b m) (hm : m ≠ 0) :
    ∃ r : F64, frem_f64 a b = .ok r.to_bits ∧ Is r (n.tmod m) := by
  have hpos : (0 : Int) < binary64.one := by exact_mod_cast Format.one_pos
  have hb0 : b.mag ≠ 0 := by
    intro h0
    have hunits := Binary.units_eq_zero.mpr h0
    rw [hb.2] at hunits
    exact mul_ne_zero hm hpos.ne' hunits
  obtain ⟨r, hr, hfin, hunits⟩ := frem_f64_units ha.1 hb.1 hb0
  refine ⟨r, hr, hfin, ?_⟩
  rw [hunits, ha.2, hb.2, Int.mul_comm n, Int.mul_comm m, Int.mul_tmod_mul_of_pos _ _ hpos,
    Int.mul_comm]

theorem pattern_congr {k : IntKind} {n m : Int} (h : n % 2 ^ k.width = m % 2 ^ k.width) :
    k.pattern n = k.pattern m := by
  unfold IntKind.pattern
  rw [h]

theorem tmod_emod_self (n m : Int) : n.tmod m % m = n % m := by
  rw [Int.tmod_def, Int.sub_mul_emod_self_left]

/-- A sum of integers, before it is rounded. -/
theorem add_is {x y : F64} {n m : Int} (hx : Is x n) (hy : Is y m) (h : 0 < n + m) :
    x.add y = Binary.rounded false ((n + m).toNat * binary64.one) 0 := by
  have hpos : (0 : Int) < binary64.one := by exact_mod_cast Format.one_pos
  have hsum : x.units + y.units = ((n + m).toNat * binary64.one : Nat) := by
    rw [hx.2, hy.2, Nat.cast_mul, Int.toNat_of_nonneg h.le]
    ring
  have hsum_pos : 0 < x.units + y.units := by
    rw [hx.2, hy.2, ← Int.add_mul]
    exact mul_pos h hpos
  have hneg : decide (x.units + y.units < 0) = false := decide_eq_false (by omega)
  rw [Binary.add_eq hx.1 hy.1 hsum_pos.ne', hneg, hsum, Int.natAbs_natCast]

theorem rounded_is {n q j : Nat} (hn : n = q * 2 ^ j) (hq : q < 2 ^ 53) (hle : n ≤ 2 ^ 64) :
    Is (Binary.rounded false (n * binary64.one) 0) n := by
  have hexists : ∃ m, binary64.units m = n * binary64.one := by
    rw [hn]
    exact Format.exists_units_int j hq
  obtain ⟨hfin, hunits⟩ := Binary.rounded_units false hexists (below_inf hle)
  exact ⟨hfin, by simpa using hunits⟩

/-- An integer from `2 ^ 63` to `2 ^ 64` is rounded to a multiple of `2 ^ 11`. -/
theorem rounded_large {n : Nat} (hlo : 2 ^ 63 ≤ n) (hhi : n ≤ 2 ^ 64) :
    ∃ c, 2 ^ 11 * c ≤ 2 ^ 64 ∧
      Is (Binary.rounded false (n * binary64.one) 0) ((2 ^ 11 * c : Nat) : Int) := by
  have hpos := Format.one_pos (F := binary64)
  have hpow : ∀ {k : Nat}, k ≤ 64 →
      binary64.units (binary64.round (2 ^ k * binary64.one) 0) = 2 ^ k * binary64.one := by
    intro k hk
    refine Format.units_round ?_ (below_inf (Nat.pow_le_pow_right Nat.two_pos hk)).le
    have hexists := Format.exists_units_int (F := binary64) (q := 1) k (by decide)
    rwa [Nat.one_mul] at hexists
  have hscaled_lo := Nat.mul_le_mul_right binary64.one hlo
  have hscaled_hi := Nat.mul_le_mul_right binary64.one hhi
  have hbelow := Format.units_round_mono (F := binary64) hscaled_lo
  have habove := Format.units_round_mono (F := binary64) hscaled_hi
  rw [hpow (by omega)] at hbelow habove
  obtain ⟨c, hc⟩ := Format.dvd_units_int (F := binary64) (j := 11) hbelow
  rw [Nat.mul_right_comm] at hc
  have hfin : (Binary.rounded false (n * binary64.one) 0 : F64).Finite :=
    Format.units_strictMono.lt_iff_lt.mp (habove.trans_lt (below_inf (Nat.le_refl _)))
  refine ⟨c, ?_, hfin, ?_⟩
  · rw [hc] at habove
    exact Nat.le_of_mul_le_mul_right habove hpos
  · show ((binary64.units (binary64.round (n * binary64.one) 0) : Nat) : Int) = _
    rw [hc]
    push_cast
    ring

/-- The remainder that is folded into the pattern. -/
theorem trunc_float_to_int_eq {v : F64} (h : v.Finite) (tk : IntKind) :
    ∃ r : F64, Is r ((toward_zero v.value).tmod (2 ^ tk.width)) ∧
      trunc_float_to_int v tk = .ok (tk.narrow (as_u128
        (if (toward_zero v.value).tmod (2 ^ tk.width) < 0 then r.add (powi tk.width) else r))) := by
  have hw : tk.width ≤ 64 := by cases tk <;> decide
  obtain ⟨r, hr, his⟩ := frem_is (is_trunc h) (is_powi hw) (by positivity)
  refine ⟨r, his, ?_⟩
  unfold trunc_float_to_int
  rw [h.tests.1, if_neg (by simp)]
  dsimp only
  rw [hr, bind_ok, Binary.from_bits_to_bits]
  simp only [his.lt is_zero, decide_eq_true_eq]
  rfl

/-- Where the wrap is exact. -/
def WrapExact (n : Int) (tk : IntKind) : Prop :=
  tk.width < 64 ∨ 0 ≤ n ∨ 2 ^ 11 ∣ n

theorem wrap_exact {v : F64} (h : v.Finite) {tk : IntKind}
    (hcond : WrapExact (toward_zero v.value) tk) :
    trunc_float_to_int v tk = .ok (tk.pattern (toward_zero v.value)) := by
  have hw : tk.width ≤ 64 := by cases tk <;> decide
  have hpos : (0 : Int) < 2 ^ tk.width := by positivity
  have hpow : (2 : Int) ^ tk.width ≤ 2 ^ 64 := pow_le_pow_right₀ (by omega) hw
  obtain ⟨r, his, heq⟩ := trunc_float_to_int_eq h tk
  rw [heq]
  generalize toward_zero v.value = n at his hcond ⊢
  have hcongr := tmod_emod_self n (2 ^ tk.width)
  have hlt := Int.tmod_lt_of_pos n hpos
  have hgt := Int.lt_tmod_of_pos n hpos
  by_cases hneg : n.tmod (2 ^ tk.width) < 0
  · -- the fold is a sum of integers that is a float
    have hsum : 0 < n.tmod (2 ^ tk.width) + 2 ^ tk.width := by omega
    have hfloat : ∃ q j, (n.tmod (2 ^ tk.width) + 2 ^ tk.width).toNat = q * 2 ^ j ∧ q < 2 ^ 53 := by
      rcases hcond with hsmall | hn | ⟨c, rfl⟩
      · have hw32 : tk.width ≤ 32 := by cases tk <;> first | decide | exact absurd hsmall (by decide)
        have hpow32 : (2 : Int) ^ tk.width ≤ 2 ^ 32 := pow_le_pow_right₀ (by omega) hw32
        exact ⟨_, 0, by rw [Nat.pow_zero, Nat.mul_one], by omega⟩
      · exact absurd (Int.tmod_nonneg (2 ^ tk.width) hn) (by omega)
      · rcases Nat.lt_or_ge tk.width 64 with hsmall | hfull
        · have hw32 : tk.width ≤ 32 := by
            cases tk <;> first | decide | exact absurd hsmall (by decide)
          have hpow32 : (2 : Int) ^ tk.width ≤ 2 ^ 32 := pow_le_pow_right₀ (by omega) hw32
          exact ⟨_, 0, by rw [Nat.pow_zero, Nat.mul_one], by omega⟩
        · have hwidth : (2 : Int) ^ tk.width = 2 ^ 11 * 2 ^ 53 := by
            rw [Nat.le_antisymm hw hfull]
            norm_num
          have hmod := Int.mul_tmod_mul_of_pos c (2 ^ 53) (a := 2 ^ 11) (by norm_num)
          rw [hwidth] at hlt hgt hneg ⊢
          rw [hmod] at hlt hgt hneg ⊢
          exact ⟨(c.tmod (2 ^ 53) + 2 ^ 53).toNat, 11, by omega, by omega⟩
    obtain ⟨q, j, hq, hlt53⟩ := hfloat
    have hround := rounded_is hq hlt53 (by omega)
    rw [if_pos hneg, add_is his (is_powi hw) hsum, hround.as_u128 (by omega) (by omega), narrow_eq,
      Int.toNat_natCast, Int.toNat_of_nonneg hsum.le]
    congr 1
    refine pattern_congr ?_
    rw [Int.add_emod_right, hcongr]
  · rw [if_neg hneg, his.as_u128 (by omega) (by omega), narrow_eq, Int.toNat_of_nonneg (by omega)]
    congr 1
    exact pattern_congr hcongr

theorem wrap_inexact {v : F64} (h : v.Finite) {tk : IntKind}
    (hcond : ¬ WrapExact (toward_zero v.value) tk) :
    trunc_float_to_int v tk ≠ .ok (tk.pattern (toward_zero v.value)) := by
  obtain ⟨r, his, heq⟩ := trunc_float_to_int_eq h tk
  rw [heq]
  generalize toward_zero v.value = n at his hcond ⊢
  unfold WrapExact at hcond
  push Not at hcond
  obtain ⟨hwidth, hn, hdvd⟩ := hcond
  have hw : tk.width = 64 := Nat.le_antisymm (by cases tk <;> decide) hwidth
  have hlt := Int.tmod_lt_of_pos n (b := 2 ^ 64) (by norm_num)
  have hcongr := tmod_emod_self n (2 ^ 64)
  rw [hw] at his ⊢
  -- the remainder is small, as a large one would be a multiple of `2 ^ 11`
  have hsmall : (n.tmod (2 ^ 64)).natAbs < 2 ^ 63 := by
    by_contra hlarge
    have hunits : binary64.units r.mag = (n.tmod (2 ^ 64)).natAbs * binary64.one := by
      rw [← Binary.natAbs_units, his.2, Int.natAbs_mul, Int.natAbs_natCast]
    have hge := Nat.mul_le_mul_right binary64.one (Nat.le_of_not_lt hlarge)
    rw [← hunits] at hge
    have hmul := Format.dvd_units_int (F := binary64) (j := 11) hge
    rw [hunits] at hmul
    have := Nat.dvd_of_mul_dvd_mul_right Format.one_pos hmul
    omega
  have hnonpos : n.tmod (2 ^ 64) ≤ 0 := by
    have hopp := Int.tmod_nonneg (a := -n) (2 ^ 64) (by omega)
    rw [Int.neg_tmod] at hopp
    omega
  have hneg : n.tmod (2 ^ 64) < 0 := by omega
  have hsum : 0 < n.tmod (2 ^ 64) + 2 ^ 64 := by omega
  obtain ⟨c, hc, hround⟩ := rounded_large (n := (n.tmod (2 ^ 64) + 2 ^ 64).toNat) (by omega)
    (by omega)
  rw [if_pos hneg, add_is his (is_powi (Nat.le_refl 64)) hsum, hround.as_u128 (by omega) (by omega),
    narrow_eq]
  unfold IntKind.pattern
  rw [hw]
  intro hsame
  have hvalues := Except.ok.inj hsame
  omega

/-! ## The conversions -/

/-- The source pattern is a finite float of its kind. -/
def FloatKind.Finite (k : FloatKind) (bits : Nat) : Prop :=
  match k with
  | .F32 => (Binary.from_bits binary32 (bits % 2 ^ 32)).Finite
  | .F64 => (Binary.from_bits binary64 bits).Finite

/-- The number that a source pattern stands for. -/
def FloatKind.value (k : FloatKind) (bits : Nat) : ℚ :=
  match k with
  | .F32 => (Binary.from_bits binary32 (bits % 2 ^ 32)).value
  | .F64 => (Binary.from_bits binary64 bits).value

theorem from_bits_value {k : FloatKind} {bits : Nat} (h : k.Finite bits) :
    (k.from_bits bits).Finite ∧ (k.from_bits bits).value = k.value bits := by
  cases k with
  | F64 => exact ⟨h, rfl⟩
  | F32 =>
    refine Binary.convert_value (by decide) (by decide) ?_ h
    rw [Format.units_inf, Format.units_inf, ← Nat.pow_add]
    exact Nat.pow_le_pow_right Nat.two_pos (by decide)

theorem conv_checked_eq {fk : FloatKind} {bits : Nat} (h : fk.Finite bits) (tk : IntKind) :
    conv_checked bits (.Float fk) (.Int tk) =
      if (toward_zero (fk.value bits) : ℚ) = fk.value bits ∧
        tk.bounds.1 ≤ toward_zero (fk.value bits) ∧ toward_zero (fk.value bits) ≤ tk.bounds.2
      then .ok (tk.pattern (toward_zero (fk.value bits))) else .error .CheckedConversion := by
  obtain ⟨hfin, hvalue⟩ := from_bits_value h
  obtain ⟨hnan, hinf⟩ := hfin.tests
  unfold conv_checked
  dsimp only
  rw [hnan, hinf, feq_trunc hfin, if_neg (by simp), hvalue]
  by_cases hint : (toward_zero (fk.value bits) : ℚ) = fk.value bits
  · have his : Is (fk.from_bits bits) (toward_zero (fk.value bits)) := by
      have htrunc := is_trunc hfin
      rw [hvalue] at htrunc
      refine ⟨hfin, ?_⟩
      rw [← htrunc.2]
      refine (Binary.value_inj.mp ?_).symm
      rw [Binary.value_of_units htrunc.2, hint, hvalue]
    rw [decide_eq_true hint, if_neg (by simp), float_bits_in_int_range_eq his]
    by_cases hin : tk.bounds.1 ≤ toward_zero (fk.value bits) ∧
        toward_zero (fk.value bits) ≤ tk.bounds.2
    · rw [if_pos hin, if_pos ⟨hint, hin⟩]
    · rw [if_neg hin, if_neg fun hall => hin hall.2]
  · rw [decide_eq_false hint, if_pos (by simp), if_neg fun hall => hint hall.1]

theorem conv_trunc_eq {fk : FloatKind} {bits : Nat} (h : fk.Finite bits) (tk : IntKind) :
    conv_trunc bits (.Float fk) (.Int tk) = .ok (tk.pattern
      (max tk.bounds.1 (min tk.bounds.2 (toward_zero (fk.value bits))))) := by
  obtain ⟨hfin, hvalue⟩ := from_bits_value h
  unfold conv_trunc
  dsimp only
  rw [sat_float_to_int_eq hfin, hvalue]
  rfl

/-- The conversions of a source pattern to an integer kind return what they should. -/
structure Exact (bits : Nat) (fk : FloatKind) (tk : IntKind) : Prop where
  wrap : conv_wrap bits (.Float fk) (.Int tk) = .ok (tk.pattern (toward_zero (fk.value bits)))
  trunc : conv_trunc bits (.Float fk) (.Int tk) = .ok (tk.pattern
    (max tk.bounds.1 (min tk.bounds.2 (toward_zero (fk.value bits)))))
  sat : conv_sat bits (.Float fk) (.Int tk) = .ok (tk.pattern
    (max tk.bounds.1 (min tk.bounds.2 (toward_zero (fk.value bits)))))
  checked_iff : (∃ p, conv_checked bits (.Float fk) (.Int tk) = .ok p) ↔
    ∃ n : Int, fk.value bits = n ∧ tk.bounds.1 ≤ n ∧ n ≤ tk.bounds.2
  checked : ∀ p, conv_checked bits (.Float fk) (.Int tk) = .ok p →
    conv_wrap bits (.Float fk) (.Int tk) = .ok p ∧ conv_trunc bits (.Float fk) (.Int tk) = .ok p ∧
      conv_sat bits (.Float fk) (.Int tk) = .ok p

theorem toward_zero_intCast (n : Int) : toward_zero (n : ℚ) = n := by
  simpa using toward_zero_div n 1

/-- **Every conversion of a finite float is exact** precisely when the wrap is: the target is
narrower than 64 bits, or the integer part is not negative, or it is a multiple of `2 ^ 11`. -/
theorem conversions_exact {bits : Nat} {fk : FloatKind} (tk : IntKind) (h : fk.Finite bits) :
    Exact bits fk tk ↔ WrapExact (toward_zero (fk.value bits)) tk := by
  obtain ⟨hfin, hvalue⟩ := from_bits_value h
  constructor
  · intro hexact
    by_contra hcond
    rw [← hvalue] at hcond
    refine wrap_inexact hfin hcond ?_
    rw [hvalue]
    exact hexact.wrap
  · intro hcond
    have hwrap : conv_wrap bits (.Float fk) (.Int tk) =
        .ok (tk.pattern (toward_zero (fk.value bits))) := by
      rw [← hvalue] at hcond ⊢
      exact wrap_exact hfin hcond
    have hchecked := conv_checked_eq h tk
    refine ⟨hwrap, conv_trunc_eq h tk, conv_trunc_eq h tk, ?_, ?_⟩
    · rw [hchecked]
      constructor
      · rintro ⟨p, hp⟩
        split at hp
        · rename_i hin
          exact ⟨_, hin.1.symm, hin.2⟩
        · cases hp
      · rintro ⟨n, hn, hin⟩
        rw [hn, toward_zero_intCast, if_pos ⟨rfl, hin⟩]
        exact ⟨_, rfl⟩
    · intro p hp
      rw [hchecked] at hp
      split at hp
      · rename_i hin
        cases hp
        have hclamp : max tk.bounds.1 (min tk.bounds.2 (toward_zero (fk.value bits))) =
            toward_zero (fk.value bits) := by omega
        have htrunc := conv_trunc_eq h tk
        rw [hclamp] at htrunc
        exact ⟨hwrap, htrunc, htrunc⟩
      · cases hp

/-- Minus one as an `i64` is 0 when it is wrapped. -/
theorem wrapped_minus_one :
    FloatKind.F64.value 0xBFF0000000000000 = -1 ∧
      conv_wrap 0xBFF0000000000000 (.Float .F64) (.Int .I64) = .ok 0 ∧
      ¬ Exact 0xBFF0000000000000 .F64 .I64 := by
  have hvalue : FloatKind.F64.value 0xBFF0000000000000 = -1 := by
    have hunits : (Binary.from_bits binary64 0xBFF0000000000000).units = -1 * binary64.one := by
      decide +kernel
    have := Binary.value_of_units hunits
    simpa [FloatKind.value] using this
  have hwrap : conv_wrap 0xBFF0000000000000 (.Float .F64) (.Int .I64) = .ok 0 := by
    decide +kernel
  refine ⟨hvalue, hwrap, fun hexact => ?_⟩
  have hpattern := hexact.wrap
  rw [hvalue, hwrap] at hpattern
  have hminus : toward_zero (-1 : ℚ) = -1 := by simpa using toward_zero_intCast (-1)
  rw [hminus] at hpattern
  exact absurd (Except.ok.inj hpattern) (by decide)

/-- Minus two and a half as an `i32`. -/
theorem conversions_exact_i32 :
    Exact 0xC004000000000000 .F64 .I32 ↔
      WrapExact (toward_zero (FloatKind.F64.value 0xC004000000000000)) .I32 :=
  conversions_exact .I32 (by unfold FloatKind.Finite; decide +kernel)

end Fors.Interp
