import Mathlib.Data.Nat.Log
import Mathlib.Data.Rat.Floor
import Mathlib.Order.Monotone.Basic
import Mathlib.Tactic.Ring

/-!
# Binary floating point

A format has a field for the mantissa and one for the exponent.  The magnitude of a float is the
number its two fields make together; the floats with larger magnitudes are the larger ones, and
every finite one is a whole number of units, where a unit is the least subnormal number.  Rounding
is to the nearest float, ties to the one with an even mantissa.

Principal results: `round_units` and `convert_value`.
-/

namespace Floats

structure Format where
  man : Nat
  exp : Nat
  man_pos : 0 < man
  one_lt_exp : 1 < exp
  deriving DecidableEq

namespace Format

variable (F : Format)

def bias : Int := 2 ^ (F.exp - 1) - 1

/-- The exponent of the least normal number. -/
def emin : Int := 1 - F.bias

/-- The exponent of the least subnormal number. -/
def lsb : Int := F.emin - F.man

/-- The magnitude of infinity. -/
def inf : Nat := (2 ^ F.exp - 1) * 2 ^ F.man

/-- How many units a magnitude is. -/
def units (m : Nat) : Nat :=
  if m / 2 ^ F.man = 0 then m else (m % 2 ^ F.man + 2 ^ F.man) * 2 ^ (m / 2 ^ F.man - 1)

/-- The units of the number one. -/
@[irreducible] def one : Nat := 2 ^ (-F.lsb).toNat

variable {F}

/-! ## Magnitudes -/

variable {q : Nat}

theorem units_at {k : Nat} (hq : q ≤ 2 ^ (F.man + 1)) (hk : k = 0 ∨ 2 ^ F.man ≤ q) :
    F.units (k * 2 ^ F.man + q) = q * 2 ^ k := by
  have hpos := Nat.two_pow_pos F.man
  rw [Nat.pow_succ] at hq
  unfold units
  rcases Nat.lt_or_ge q (2 ^ F.man) with hlt | hge
  · obtain rfl : k = 0 := by omega
    simp [Nat.div_eq_of_lt hlt]
  rcases Nat.lt_or_ge q (2 ^ F.man * 2) with hlt | htop
  · -- a normal number
    have hsplit : k * 2 ^ F.man + q = (q - 2 ^ F.man) + (k + 1) * 2 ^ F.man := by
      rw [Nat.succ_mul]
      omega
    have hsmall : q - 2 ^ F.man < 2 ^ F.man := by omega
    rw [hsplit, Nat.add_mul_div_right _ _ hpos, Nat.div_eq_of_lt hsmall, Nat.add_mul_mod_self_right,
      Nat.mod_eq_of_lt hsmall, if_neg (by omega), Nat.sub_add_cancel hge]
    simp
  · -- the first number of the next binade
    obtain rfl : q = 2 ^ F.man * 2 := by omega
    have hsplit : k * 2 ^ F.man + 2 ^ F.man * 2 = (k + 2) * 2 ^ F.man := by ring
    rw [hsplit, Nat.mul_div_cancel _ hpos, Nat.mul_mod_left, if_neg (by omega)]
    have hpred : k + 2 - 1 = k + 1 := by omega
    rw [hpred]
    ring

/-- A magnitude's mantissa, with the leading bit of a normal number, and its exponent. -/
theorem exists_parts (m : Nat) : ∃ k q, m = k * 2 ^ F.man + q ∧ q < 2 ^ (F.man + 1) ∧
    (k = 0 ∨ 2 ^ F.man ≤ q) := by
  have hdiv := Nat.div_add_mod' m (2 ^ F.man)
  have hmod := Nat.mod_lt m (Nat.two_pow_pos F.man)
  have hpow : 2 ^ (F.man + 1) = 2 ^ F.man * 2 := Nat.pow_succ 2 F.man
  cases hf : m / 2 ^ F.man with
  | zero =>
    rw [hf] at hdiv
    exact ⟨0, m, by omega, by omega, .inl rfl⟩
  | succ k =>
    rw [hf, Nat.succ_mul] at hdiv
    exact ⟨k, m % 2 ^ F.man + 2 ^ F.man, by omega, by omega, .inr (by omega)⟩

theorem units_strictMono : StrictMono F.units := by
  refine strictMono_nat_of_lt_succ fun m => ?_
  obtain ⟨k, q, rfl, hq, hk⟩ := exists_parts (F := F) m
  have hnext := units_at (F := F) (k := k) (q := q + 1) (by omega) (by omega)
  rw [units_at (Nat.le_of_lt hq) hk, Nat.add_assoc, hnext]
  exact Nat.mul_lt_mul_of_pos_right (Nat.lt_succ_self q) (Nat.two_pow_pos k)

@[simp] theorem units_zero : F.units 0 = 0 := by
  simp [units]

variable {m : Nat}

theorem units_pos (h : 0 < m) : 0 < F.units m := by
  simpa using units_strictMono (F := F) h

/-! ## Rounding -/

/-- `n / d` to the nearest integer, ties to the even one. -/
def nearest (n d : Nat) : Nat :=
  if 2 * (n % d) < d then n / d else if d < 2 * (n % d) then n / d + 1 else n / d + n / d % 2

variable (F) in
/-- The magnitude nearest to `n / 2 ^ s` units. -/
def round (n s : Nat) : Nat :=
  min ((Nat.log2 (n / 2 ^ s) - F.man) * 2 ^ F.man +
    nearest n (2 ^ (s + (Nat.log2 (n / 2 ^ s) - F.man)))) F.inf

theorem nearest_mul {d : Nat} (hd : 0 < d) : nearest (q * d) d = q := by
  unfold nearest
  rw [Nat.mul_mod_left, Nat.mul_div_cancel _ hd]
  exact if_pos (by omega)

theorem nearest_cases (n d : Nat) : nearest n d = n / d ∨ nearest n d = n / d + 1 := by
  unfold nearest
  split
  · exact .inl rfl
  · split
    · exact .inr rfl
    · have := Nat.mod_two_eq_zero_or_one (n / d)
      omega

variable {n n' : Nat}

theorem nearest_mono {d : Nat} (h : n ≤ n') : nearest n d ≤ nearest n' d := by
  rcases Nat.lt_or_ge (n / d) (n' / d) with hlt | hge
  · have hleft := nearest_cases n d
    have hright := nearest_cases n' d
    omega
  · have hdiv : n / d = n' / d := Nat.le_antisymm (Nat.div_le_div_right h) hge
    have hn := Nat.div_add_mod n d
    have hn' := Nat.div_add_mod n' d
    rw [hdiv] at hn
    have hmod : n % d ≤ n' % d := by omega
    have hparity := Nat.mod_lt (n' / d) Nat.two_pos
    unfold nearest
    rw [hdiv]
    split_ifs <;> omega

theorem log2_mul_two_pow (k : Nat) (hq : q ≠ 0) :
    Nat.log2 (q * 2 ^ k) = Nat.log2 q + k := by
  rw [Nat.log2_eq_iff (by positivity), Nat.pow_add, Nat.pow_add, Nat.pow_add]
  have hlo := Nat.log2_self_le hq
  have hhi := Nat.lt_log2_self (n := q)
  rw [Nat.pow_succ] at hhi
  exact ⟨Nat.mul_le_mul_right _ hlo, by nlinarith [Nat.two_pow_pos k]⟩

/-- Rounding a number of units that a float has gives that float. -/
theorem round_units (h : m ≤ F.inf) : F.round (F.units m) 0 = m := by
  obtain ⟨k, q, rfl, hq, hk⟩ := exists_parts (F := F) m
  have hdrop : Nat.log2 (q * 2 ^ k) - F.man = k := by
    rcases Nat.eq_zero_or_pos q with rfl | hpos
    · have := Nat.two_pow_pos F.man
      simp
      omega
    · rw [log2_mul_two_pow k (by omega)]
      have hlt : Nat.log2 q < F.man + 1 := (Nat.log2_lt (by omega)).mpr hq
      have hle : k = 0 ∨ F.man ≤ Nat.log2 q :=
        hk.imp_right fun hle => (Nat.le_log2 (by omega)).mpr hle
      omega
  unfold round
  rw [units_at (Nat.le_of_lt hq) hk, Nat.pow_zero, Nat.div_one, hdrop, Nat.zero_add,
    nearest_mul (Nat.two_pow_pos k)]
  exact Nat.min_eq_left h

theorem nearest_le {k : Nat} (h : Nat.log2 n - F.man ≤ k) :
    nearest n (2 ^ k) ≤ 2 ^ (F.man + 1) := by
  have hdiv : n / 2 ^ k < 2 ^ (F.man + 1) := by
    rw [Nat.div_lt_iff_lt_mul (Nat.two_pow_pos k), ← Nat.pow_add]
    exact (Nat.lt_log2_self (n := n)).trans_le (Nat.pow_le_pow_right (by omega) (by omega))
  have := nearest_cases n (2 ^ k)
  omega

theorem le_nearest (h : F.man < Nat.log2 n) :
    2 ^ F.man ≤ nearest n (2 ^ (Nat.log2 n - F.man)) := by
  have hn : n ≠ 0 := by
    rintro rfl
    simp at h
  have hdiv : 2 ^ F.man ≤ n / 2 ^ (Nat.log2 n - F.man) := by
    rw [Nat.le_div_iff_mul_le (Nat.two_pow_pos _), ← Nat.pow_add]
    have hsum : F.man + (Nat.log2 n - F.man) = Nat.log2 n := by omega
    rw [hsum]
    exact Nat.log2_self_le hn
  have := nearest_cases n (2 ^ (Nat.log2 n - F.man))
  omega

theorem round_mono (h : n ≤ n') : F.round n 0 ≤ F.round n' 0 := by
  have hlog : Nat.log2 n ≤ Nat.log2 n' := by
    rcases Nat.eq_zero_or_pos n with rfl | hpos
    · simp
    · exact (Nat.le_log2 (by omega)).mpr ((Nat.log2_self_le (by omega)).trans h)
  unfold round
  simp only [Nat.pow_zero, Nat.div_one, Nat.zero_add]
  refine min_le_min_right _ ?_
  rcases Nat.eq_or_lt_of_le (Nat.sub_le_sub_right hlog F.man) with hsame | hlt
  · rw [hsame]
    exact Nat.add_le_add_left (nearest_mono h) _
  · -- the larger number is in a later binade
    have hleft := nearest_le (F := F) (n := n) (Nat.le_refl _)
    have hright := le_nearest (F := F) (n := n') (by omega)
    have hstep : (Nat.log2 n - F.man + 1) * 2 ^ F.man ≤ (Nat.log2 n' - F.man) * 2 ^ F.man :=
      Nat.mul_le_mul_right _ hlt
    rw [Nat.succ_mul] at hstep
    rw [Nat.pow_succ] at hleft
    omega

theorem units_round_mono (h : n ≤ n') :
    F.units (F.round n 0) ≤ F.units (F.round n' 0) :=
  units_strictMono.monotone (round_mono h)

theorem round_le_inf (n s : Nat) : F.round n s ≤ F.inf :=
  Nat.min_le_right _ _

theorem inf_lt : F.inf < 2 ^ (F.exp + F.man) := by
  unfold inf
  rw [Nat.pow_add]
  exact Nat.mul_lt_mul_of_pos_right (Nat.sub_lt (Nat.two_pow_pos _) Nat.one_pos)
    (Nat.two_pow_pos _)

/-- A mantissa that fits and an exponent that is not too small make a float. -/
theorem exists_units (j : Nat) (hq : q < 2 ^ (F.man + 1)) :
    ∃ m, F.units m = q * 2 ^ j := by
  rcases Nat.eq_zero_or_pos q with rfl | hpos
  · exact ⟨0, by simp⟩
  have hlog : Nat.log2 q < F.man + 1 := (Nat.log2_lt (by omega)).mpr hq
  have hlo := Nat.log2_self_le (n := q) (by omega)
  have hhi := Nat.lt_log2_self (n := q)
  -- move the leading bit up as far as the exponent lets it
  obtain ⟨d, hd⟩ : ∃ d, d = min (F.man - Nat.log2 q) j := ⟨_, rfl⟩
  have htop : q * 2 ^ d < 2 ^ (F.man + 1) := by
    calc q * 2 ^ d < 2 ^ (Nat.log2 q + 1) * 2 ^ d :=
          Nat.mul_lt_mul_of_pos_right hhi (Nat.two_pow_pos d)
      _ = 2 ^ (Nat.log2 q + 1 + d) := (Nat.pow_add ..).symm
      _ ≤ 2 ^ (F.man + 1) := Nat.pow_le_pow_right Nat.two_pos (by omega)
  have hnormal : j - d = 0 ∨ 2 ^ F.man ≤ q * 2 ^ d := by
    rcases Nat.lt_or_ge d j with hlt | hge
    · right
      calc 2 ^ F.man = 2 ^ Nat.log2 q * 2 ^ d := by
            rw [← Nat.pow_add]
            congr 1
            omega
        _ ≤ q * 2 ^ d := Nat.mul_le_mul_right _ hlo
    · exact .inl (by omega)
  refine ⟨(j - d) * 2 ^ F.man + q * 2 ^ d, ?_⟩
  rw [units_at (Nat.le_of_lt htop) hnormal, Nat.mul_assoc, ← Nat.pow_add]
  congr 2
  omega

theorem units_round (hn : ∃ m, F.units m = n) (hinf : n ≤ F.units F.inf) :
    F.units (F.round n 0) = n := by
  obtain ⟨m, rfl⟩ := hn
  rw [round_units (units_strictMono.le_iff_le.mp hinf)]

theorem one_pos : 0 < F.one := by
  unfold one
  exact Nat.two_pow_pos _

variable (F) in
theorem lsb_neg : F.lsb ≤ 0 := by
  have hle : (2 : Int) ^ 1 ≤ 2 ^ (F.exp - 1) :=
    pow_le_pow_right₀ (by omega) (by have := F.one_lt_exp; omega)
  unfold lsb emin bias
  omega

/-- Dropping what is after the point leaves a float. -/
theorem exists_units_trunc (m : Nat) : ∃ m', F.units m' = F.units m / F.one * F.one := by
  obtain ⟨k, q, rfl, hq, hk⟩ := exists_parts (F := F) m
  rw [units_at (Nat.le_of_lt hq) hk]
  unfold one
  rcases Nat.le_total (-F.lsb).toNat k with hle | hle
  · obtain ⟨d, rfl⟩ := Nat.exists_eq_add_of_le hle
    have hdvd : 2 ^ (-F.lsb).toNat ∣ q * 2 ^ ((-F.lsb).toNat + d) :=
      Dvd.dvd.mul_left (pow_dvd_pow 2 (Nat.le_add_right _ d)) q
    rw [Nat.div_mul_cancel hdvd]
    exact exists_units _ hq
  · obtain ⟨d, hd⟩ := Nat.exists_eq_add_of_le hle
    have hdiv : q * 2 ^ k / 2 ^ (-F.lsb).toNat = q / 2 ^ d := by
      rw [hd, Nat.pow_add, Nat.mul_comm (2 ^ k), Nat.mul_div_mul_right _ _ (Nat.two_pow_pos k)]
    rw [hdiv]
    exact exists_units _ ((Nat.div_le_self q _).trans_lt hq)

theorem units_inf : F.units F.inf = 2 ^ (F.man + (2 ^ F.exp - 2)) := by
  have hpos := Nat.two_pow_pos F.man
  have hexp : 2 ^ 2 ≤ 2 ^ F.exp := Nat.pow_le_pow_right Nat.two_pos F.one_lt_exp
  unfold units inf
  rw [Nat.mul_div_cancel _ hpos, Nat.mul_mod_left, if_neg (by omega), Nat.zero_add, ← Nat.pow_add,
    Nat.sub_sub]

/-- A large float is a multiple of a power of two. -/
theorem dvd_units {j : Nat} (h : 2 ^ (F.man + j) ≤ F.units m) : 2 ^ j ∣ F.units m := by
  obtain ⟨k, q, rfl, hq, hk⟩ := exists_parts (F := F) m
  rw [units_at (Nat.le_of_lt hq) hk] at h ⊢
  have hlt : 2 ^ (F.man + j) < 2 ^ (F.man + 1 + k) := by
    calc 2 ^ (F.man + j) ≤ q * 2 ^ k := h
      _ < 2 ^ (F.man + 1) * 2 ^ k := Nat.mul_lt_mul_of_pos_right hq (Nat.two_pow_pos k)
      _ = 2 ^ (F.man + 1 + k) := (Nat.pow_add ..).symm
  have hexp := (Nat.pow_lt_pow_iff_right (by omega)).mp hlt
  exact Dvd.dvd.mul_left (pow_dvd_pow 2 (by omega)) q

theorem exists_units_int (j : Nat) (hq : q < 2 ^ (F.man + 1)) :
    ∃ m, F.units m = q * 2 ^ j * F.one := by
  unfold one
  rw [Nat.mul_assoc, ← Nat.pow_add]
  exact exists_units _ hq

/-- A large float is an integer that is a multiple of a power of two. -/
theorem dvd_units_int {j : Nat} (h : 2 ^ (F.man + j) * F.one ≤ F.units m) :
    2 ^ j * F.one ∣ F.units m := by
  unfold one at h ⊢
  rw [← Nat.pow_add, Nat.add_assoc] at h
  rw [← Nat.pow_add]
  exact dvd_units h

end Format

/-! ## Floats -/

/-- A float as the pattern it is. -/
structure Binary (F : Format) where
  neg : Bool
  mag : Nat
  mag_lt : mag < 2 ^ (F.exp + F.man)
  deriving DecidableEq

namespace Binary

variable {F G : Format}

def to_bits (x : Binary F) : Nat :=
  x.neg.toNat * 2 ^ (F.exp + F.man) + x.mag

def from_bits (F : Format) (n : Nat) : Binary F :=
  ⟨n / 2 ^ (F.exp + F.man) % 2 == 1, n % 2 ^ (F.exp + F.man), Nat.mod_lt _ (Nat.two_pow_pos _)⟩

/-- The float of the magnitude nearest to `n / 2 ^ s` units. -/
def rounded (neg : Bool) (n s : Nat) : Binary F :=
  ⟨neg, F.round n s, (Format.round_le_inf n s).trans_lt Format.inf_lt⟩

/-- The quiet NaN without a sign and a payload. -/
def nan : Binary F where
  neg := false
  mag := F.inf + 2 ^ (F.man - 1)
  mag_lt := by
    have hlt : 2 ^ (F.man - 1) < 2 ^ F.man :=
      Nat.pow_lt_pow_right (by omega) (Nat.sub_lt F.man_pos Nat.one_pos)
    have hone := Nat.two_pow_pos F.exp
    have hle := Nat.le_mul_of_pos_left (2 ^ F.man) hone
    unfold Format.inf
    rw [Nat.sub_mul, Nat.pow_add]
    omega

def Finite (x : Binary F) : Prop :=
  x.mag < F.inf

instance (x : Binary F) : Decidable x.Finite :=
  inferInstanceAs (Decidable (_ < _))

def is_nan (x : Binary F) : Bool :=
  F.inf < x.mag

def is_infinite (x : Binary F) : Bool :=
  x.mag = F.inf

/-- The number of units, with its sign. -/
def units (x : Binary F) : Int :=
  if x.neg then -(F.units x.mag : Int) else F.units x.mag

/-- The number a float stands for. -/
def value (x : Binary F) : ℚ :=
  x.units * 2 ^ F.lsb

/-! ### Operations -/

def lt (x y : Binary F) : Bool :=
  !x.is_nan && !y.is_nan && x.units < y.units

def le (x y : Binary F) : Bool :=
  !x.is_nan && !y.is_nan && x.units ≤ y.units

def feq (x y : Binary F) : Bool :=
  !x.is_nan && !y.is_nan && x.units = y.units

def add (x y : Binary F) : Binary F :=
  if x.is_nan || y.is_nan then nan
  else if x.is_infinite then (if y.is_infinite && x.neg != y.neg then nan else x)
  else if y.is_infinite then y
  else if x.units + y.units = 0 then rounded (x.neg && y.neg) 0 0
  else rounded (x.units + y.units < 0) (x.units + y.units).natAbs 0

/-- The integer part. -/
def trunc (x : Binary F) : Binary F :=
  if x.Finite then rounded x.neg (F.units x.mag / F.one * F.one) 0 else x

def of_int (n : Int) : Binary F :=
  rounded (n < 0) (n.natAbs * F.one) 0

/-- The integer part, clamped to `lo` and `hi`; no number is 0. -/
def as_int (lo hi : Int) (x : Binary F) : Int :=
  if x.is_nan then 0
  else if x.is_infinite then (if x.neg then lo else hi)
  else max lo (min hi (if x.neg then -((F.units x.mag / F.one : Nat) : Int)
    else (F.units x.mag / F.one : Nat)))

/-- The nearest float of another format. -/
def convert (x : Binary F) : Binary G :=
  if x.is_nan then nan
  else if x.is_infinite then ⟨x.neg, G.inf, Format.inf_lt⟩
  else rounded x.neg (F.units x.mag * 2 ^ (F.lsb - G.lsb).toNat) (G.lsb - F.lsb).toNat

/-! ### Values -/

theorem two_zpow_pos (e : Int) : (0 : ℚ) < 2 ^ e :=
  zpow_pos (by norm_num) e

theorem value_inj {x y : Binary F} : x.value = y.value ↔ x.units = y.units := by
  unfold value
  rw [mul_left_inj' (two_zpow_pos F.lsb).ne', Int.cast_inj]

end Binary

/-- The integer next to a number on the side of zero. -/
def toward_zero (q : ℚ) : Int :=
  if 0 ≤ q then ⌊q⌋ else ⌈q⌉

theorem toward_zero_neg (q : ℚ) : toward_zero (-q) = -toward_zero q := by
  unfold toward_zero
  rcases lt_trichotomy q 0 with h | h | h
  · rw [if_pos (by linarith), if_neg (by linarith), Int.floor_neg]
  · simp [h]
  · rw [if_neg (by linarith), if_pos h.le, Int.ceil_neg]

theorem toward_zero_natCast_div (n d : Nat) : toward_zero (n / d) = (n / d : Nat) := by
  unfold toward_zero
  rw [if_pos (by positivity), Rat.floor_natCast_div_natCast, Int.natCast_div]

theorem toward_zero_div (x y : Int) : toward_zero (x / y) = x.tdiv y := by
  rcases Int.eq_nat_or_neg x with ⟨n, rfl | rfl⟩ <;> rcases Int.eq_nat_or_neg y with ⟨d, rfl | rfl⟩
  · simpa using toward_zero_natCast_div n d
  · simpa [div_neg, toward_zero_neg] using toward_zero_natCast_div n d
  · simpa [neg_div, toward_zero_neg] using toward_zero_natCast_div n d
  · simpa [neg_div_neg_eq] using toward_zero_natCast_div n d

namespace Binary

variable {F : Format}

/-- The remainder of two floats, in units. -/
theorem value_rem (x y : Binary F) :
    x.value - y.value * toward_zero (x.value / y.value) = (x.units.tmod y.units : Int) * 2 ^ F.lsb := by
  have hunit := (two_zpow_pos F.lsb).ne'
  have hquot : x.value / y.value = x.units / y.units := by
    unfold value
    exact mul_div_mul_right _ _ hunit
  rw [hquot, toward_zero_div, Int.tmod_def]
  unfold value
  push_cast
  ring

theorem value_eq_div (x : Binary F) : x.value = (x.units : ℚ) / ((F.one : Nat) : Int) := by
  obtain ⟨n, hn⟩ : ∃ n : Nat, F.lsb = -n := ⟨(-F.lsb).toNat, by have := F.lsb_neg; omega⟩
  unfold value Format.one
  rw [hn, neg_neg, Int.toNat_natCast, zpow_neg, zpow_natCast, div_eq_mul_inv]
  norm_cast

/-- The integer part of a float, in units. -/
theorem toward_zero_value (x : Binary F) : toward_zero x.value = x.units.tdiv F.one := by
  rw [value_eq_div, toward_zero_div]

variable {x : Binary F}

theorem value_of_units {n : Int} (h : x.units = n * F.one) : x.value = n := by
  have hpos : ((F.one : Nat) : ℚ) ≠ 0 := by exact_mod_cast (Format.one_pos (F := F)).ne'
  rw [value_eq_div, h]
  push_cast
  exact mul_div_cancel_right₀ _ hpos

/-! ### What the operations return -/

variable {G : Format}

theorem Finite.tests (h : x.Finite) : x.is_nan = false ∧ x.is_infinite = false := by
  unfold Finite at h
  unfold is_nan is_infinite
  simp
  omega

theorem from_bits_to_bits (x : Binary F) : from_bits F x.to_bits = x := by
  have hlt := x.mag_lt
  have hneg : (x.neg.toNat * 2 ^ (F.exp + F.man) + x.mag) / 2 ^ (F.exp + F.man) = x.neg.toNat := by
    rw [Nat.add_comm, Nat.add_mul_div_right _ _ (Nat.two_pow_pos _), Nat.div_eq_of_lt hlt,
      Nat.zero_add]
  have hmag : (x.neg.toNat * 2 ^ (F.exp + F.man) + x.mag) % 2 ^ (F.exp + F.man) = x.mag := by
    rw [Nat.add_comm, Nat.add_mul_mod_self_right, Nat.mod_eq_of_lt hlt]
  have hsign : (x.neg.toNat % 2 == 1) = x.neg := by
    cases x.neg <;> rfl
  unfold from_bits to_bits
  simp [hneg, hmag, hsign]

theorem units_eq_zero : x.units = 0 ↔ x.mag = 0 := by
  have hpos := Format.units_pos (F := F) (m := x.mag)
  unfold units
  constructor
  · intro h
    by_contra hne
    have := hpos (Nat.pos_of_ne_zero hne)
    split at h <;> omega
  · intro h
    simp [h]

theorem natAbs_units (x : Binary F) : x.units.natAbs = F.units x.mag := by
  unfold units
  split
  · rw [Int.natAbs_neg, Int.natAbs_natCast]
  · rw [Int.natAbs_natCast]

/-- A number of units that a float has is rounded to that float. -/
theorem rounded_units (neg : Bool) {n : Nat} (hn : ∃ m, F.units m = n) (hinf : n < F.units F.inf) :
    (rounded neg n 0 : Binary F).Finite ∧
      (rounded neg n 0 : Binary F).units = if neg then -(n : Int) else n := by
  have hround := Format.units_round hn hinf.le
  refine ⟨?_, ?_⟩
  · unfold Finite rounded
    rw [← hround] at hinf
    exact Format.units_strictMono.lt_iff_lt.mp hinf
  · unfold units rounded
    rw [hround]

/-- The integer part, in units, without the sign. -/
theorem tdiv_units (x : Binary F) : x.units.tdiv F.one =
    if x.neg then -((F.units x.mag / F.one : Nat) : Int) else (F.units x.mag / F.one : Nat) := by
  unfold units
  cases x.neg <;> simp

theorem trunc_units (h : x.Finite) :
    x.trunc.Finite ∧ x.trunc.units = toward_zero x.value * F.one := by
  have hle := Nat.div_mul_le_self (F.units x.mag) F.one
  have hlt : F.units x.mag < F.units F.inf := Format.units_strictMono h
  have hspec := rounded_units x.neg (Format.exists_units_trunc (F := F) x.mag)
    (hle.trans_lt hlt)
  unfold trunc
  rw [if_pos h, toward_zero_value, tdiv_units]
  refine ⟨hspec.1, hspec.2.trans ?_⟩
  split
  · push_cast
    ring
  · push_cast
    ring

theorem as_int_eq (h : x.Finite) (lo hi : Int) :
    x.as_int lo hi = max lo (min hi (toward_zero x.value)) := by
  obtain ⟨hnan, hinf⟩ := h.tests
  unfold as_int
  rw [hnan, hinf, toward_zero_value, tdiv_units]
  simp

theorem of_int_units {n : Int} {q j : Nat} (hn : n.natAbs = q * 2 ^ j) (hq : q < 2 ^ (F.man + 1))
    (hinf : n.natAbs * F.one < F.units F.inf) :
    (of_int n : Binary F).Finite ∧ (of_int n : Binary F).units = n * F.one := by
  have hexists : ∃ m, F.units m = n.natAbs * F.one := hn ▸ Format.exists_units_int j hq
  have hspec := rounded_units (n < 0) hexists hinf
  refine ⟨hspec.1, hspec.2.trans ?_⟩
  rcases lt_or_ge n 0 with hneg | hpos
  · rw [if_pos (by simpa using hneg), Nat.cast_mul, Int.ofNat_natAbs_of_nonpos hneg.le]
    ring
  · rw [if_neg (by simpa using hpos), Nat.cast_mul, Int.natAbs_of_nonneg hpos]

variable {y : Binary F}

theorem add_eq (hx : x.Finite) (hy : y.Finite) (h : x.units + y.units ≠ 0) :
    x.add y = rounded (x.units + y.units < 0) (x.units + y.units).natAbs 0 := by
  obtain ⟨hxn, hxi⟩ := hx.tests
  obtain ⟨hyn, hyi⟩ := hy.tests
  unfold add
  rw [hxn, hyn, hxi, hyi]
  simp [h]

theorem lt_eq (hx : x.Finite) (hy : y.Finite) :
    x.lt y = decide (x.units < y.units) := by
  unfold lt
  rw [hx.tests.1, hy.tests.1]
  rfl

theorem le_eq (hx : x.Finite) (hy : y.Finite) :
    x.le y = decide (x.units ≤ y.units) := by
  unfold le
  rw [hx.tests.1, hy.tests.1]
  rfl

theorem feq_eq (hx : x.Finite) (hy : y.Finite) :
    x.feq y = decide (x.units = y.units) := by
  unfold feq
  rw [hx.tests.1, hy.tests.1]
  rfl

/-- A float of a coarser format is one of a finer format. -/
theorem convert_value (hlsb : G.lsb ≤ F.lsb) (hman : F.man ≤ G.man)
    (hinf : F.units F.inf * 2 ^ (F.lsb - G.lsb).toNat ≤ G.units G.inf)
    (h : x.Finite) : (x.convert : Binary G).Finite ∧ (x.convert : Binary G).value = x.value := by
  obtain ⟨hxn, hxi⟩ := h.tests
  obtain ⟨d, hd⟩ : ∃ d : Nat, F.lsb = G.lsb + d := ⟨(F.lsb - G.lsb).toNat, by omega⟩
  have hd' : (F.lsb - G.lsb).toNat = d := by omega
  have hzero : (G.lsb - F.lsb).toNat = 0 := by omega
  rw [hd'] at hinf
  have hexists : ∃ m, G.units m = F.units x.mag * 2 ^ d := by
    obtain ⟨k, q, hm, hq, hk⟩ := Format.exists_parts (F := F) x.mag
    rw [hm, Format.units_at (Nat.le_of_lt hq) hk, Nat.mul_assoc, ← Nat.pow_add]
    exact Format.exists_units _ (hq.trans_le (Nat.pow_le_pow_right Nat.two_pos (by omega)))
  have hlt : F.units x.mag * 2 ^ d < G.units G.inf :=
    (Nat.mul_lt_mul_of_pos_right (Format.units_strictMono h) (Nat.two_pow_pos d)).trans_le hinf
  have hspec := rounded_units x.neg hexists hlt
  have hconvert : (x.convert : Binary G) = rounded x.neg (F.units x.mag * 2 ^ d) 0 := by
    unfold convert
    rw [hxn, hxi, hd', hzero]
    rfl
  rw [hconvert]
  refine ⟨hspec.1, ?_⟩
  unfold value
  rw [hspec.2, hd, zpow_add₀ (by norm_num), zpow_natCast]
  unfold units
  split
  · push_cast
    ring
  · push_cast
    ring

end Binary

end Floats
