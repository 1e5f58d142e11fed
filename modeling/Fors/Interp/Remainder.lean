import Fors.Interp.Arith

/-!
# The exact float remainder

Both operands are taken apart into a mantissa and an exponent; the remainder is computed on integers
at the scale of the finer one and put together again.  Nothing rounds.

Principal result: `frem_exact`.

Source: `crates/fors-interp/src/arith.rs`.
-/

namespace Fors.Interp

open Floats

/-! ## The source's functions -/

def mul_mod (x y m : Nat) : Checked Nat := do
  rem (← u128_mul x y) m

/-- The loop of `powmod`.  An `i32` exponent has at most 31 bits. -/
def powmod_loop (m : Nat) : Nat → Int → Nat → Nat → Checked Nat
  | 0, _, _, _ => .error .fuel
  | fuel + 1, e, base, acc =>
    if e > 0 then do
      let acc ← if e % 2 = 1 then mul_mod acc base m else pure acc
      let base ← mul_mod base base m
      powmod_loop m fuel (e / 2) base acc
    else pure acc

/-- `2 ^ e % m` by binary exponentiation. -/
def powmod (e : Int) (m : Nat) : Checked Nat := do
  let base ← rem 2 m
  let acc ← rem 1 m
  powmod_loop m 32 e base acc

/-- The remainder as a mantissa and an exponent. -/
def frem_units (ma : Nat) (ea : Int) (mb : Nat) (eb : Int) : Checked (Nat × Int) :=
  if ea ≥ eb then do
    let a ← rem ma mb
    let p ← powmod (← i32 (ea - eb)) mb
    let r ← mul_mod a p mb
    pure (r % 2 ^ 64, eb)
  else do
    let gap ← i32 (eb - ea)
    if gap ≥ 64 then pure (ma, ea) else do
      let divisor ← shl 128 mb (as_unsigned 32 gap)
      if divisor > ma then pure (ma, ea) else do
        pure (← rem ma (divisor % 2 ^ 64), ea)

/-- The position of the leading bit. -/
def lead (x : Nat) : Checked Nat :=
  u32_sub 63 (u64_leading_zeros x)

/-- The pattern of a mantissa and an exponent. -/
def frem_pack (sign units : Nat) (exp : Int) (man_bits : Nat) (bias emin : Int) : Checked Nat := do
  let l ← lead units
  let exp_true ← i32 (exp + l)
  if exp_true ≥ emin then do
    let field := as_unsigned 64 (← i32 (exp_true + bias))
    let mant ← shl 64 (units ^^^ (← shl 64 1 l)) (← u32_sub man_bits l)
    pure (sign ||| (← shl 64 field man_bits) ||| mant)
  else do
    let shift := as_unsigned 32 (← i32 ((← i32 (exp - emin)) + man_bits))
    if shift ≤ man_bits then do
      pure (sign ||| (← shl 64 units shift))
    else .error .assertion

def frem_soft (a b : Nat × Int) (neg : Bool) (man_bits exp_bits : Nat) (bias emin : Int) :
    Checked Nat := do
  let (units, exp) ← frem_units a.1 a.2 b.1 b.2
  let sign ← shl 64 neg.toNat (man_bits + exp_bits)
  if units = 0 then pure sign else frem_pack sign units exp man_bits bias emin

/-- A finite nonzero float as `(mantissa, exp)` with value `mantissa × 2^exp` (`mantissa <
2^(man_bits+1)`, possibly denormal). -/
def decompose_f64 (v : F64) : Nat × Int :=
  let bits := v.to_bits
  let field := (bits >>> 52) &&& 0x7FF
  let man := bits &&& 0xFFFFFFFFFFFFF
  if field = 0 then (man, -1074) else (man ||| 0x10000000000000, field - 1023 - 52)

def decompose_f32 (v : F32) : Nat × Int :=
  let bits := v.to_bits
  let field := (bits >>> 23) &&& 0xFF
  let man := bits &&& 0x7FFFFF
  if field = 0 then (man, -149) else (man ||| 0x800000, field - 127 - 23)

def frem_f64 (a b : F64) : Checked Nat :=
  if a.is_nan || b.is_nan then pure CANONICAL_F64_NAN
  else if b.mag = 0 then pure CANONICAL_F64_NAN
  else if a.is_infinite then pure CANONICAL_F64_NAN
  else if b.is_infinite then pure a.to_bits
  else if a.mag = 0 then pure a.to_bits
  else frem_soft (decompose_f64 a) (decompose_f64 b) a.neg 52 11 1023 (-1022)

def frem_f32 (a b : F32) : Checked Nat :=
  if a.is_nan || b.is_nan then pure CANONICAL_F32_NAN
  else if b.mag = 0 then pure CANONICAL_F32_NAN
  else if a.is_infinite then pure CANONICAL_F32_NAN
  else if b.is_infinite then pure a.to_bits
  else if a.mag = 0 then pure a.to_bits
  else frem_soft (decompose_f32 a) (decompose_f32 b) a.neg 23 8 127 (-126)

/-! ## The remainder of the mantissas -/

variable {x m : Nat}

theorem mul_mod_eq {y : Nat} (hm : 0 < m) (hx : x < 2 ^ 64) (hy : y < 2 ^ 64) :
    mul_mod x y m = .ok (x * y % m) := by
  have hlt : x * y < 2 ^ 64 * 2 ^ 64 := Nat.mul_lt_mul_of_lt_of_lt hx hy
  unfold mul_mod
  rw [u128_mul_eq (by omega), bind_ok, rem_eq hm]

theorem powmod_loop_eq (hm : 0 < m) (hm64 : m ≤ 2 ^ 64) : ∀ (fuel n base acc : Nat),
    n < 2 ^ fuel → base < m → acc < m →
    powmod_loop m (fuel + 1) n base acc = .ok (acc * base ^ n % m)
  | fuel, 0, base, acc, _, _, ha => by
    unfold powmod_loop
    rw [if_neg (by omega), Nat.pow_zero, Nat.mul_one, Nat.mod_eq_of_lt ha]
    rfl
  | 0, n + 1, _, _, hn, _, _ => by
    rw [Nat.pow_zero] at hn
    omega
  | fuel + 1, n + 1, base, acc, hn, hb, ha => by
    have hsq : mul_mod base base m = .ok (base * base % m) :=
      mul_mod_eq hm (by omega) (by omega)
    have hhalf : ((n + 1 : Nat) : Int) / 2 = ((n + 1) / 2 : Nat) := by omega
    have hlt : (n + 1) / 2 < 2 ^ fuel := by
      rw [Nat.pow_succ] at hn
      omega
    have hloop := powmod_loop_eq hm hm64 fuel ((n + 1) / 2) (base * base % m)
    have hpow : (base * base % m) ^ ((n + 1) / 2) % m = base ^ (2 * ((n + 1) / 2)) % m := by
      rw [← Nat.pow_mod, Nat.pow_mul, Nat.pow_two]
    have hbits := Nat.div_add_mod (n + 1) 2
    unfold powmod_loop
    rw [if_pos (by omega)]
    rcases Nat.mod_two_eq_zero_or_one (n + 1) with heven | hodd
    · have hexp : 2 * ((n + 1) / 2) = n + 1 := by omega
      rw [if_neg (by omega), pure_bind]
      beta_reduce
      rw [hsq, bind_ok, hhalf, hloop acc hlt (Nat.mod_lt _ hm) ha, Nat.mul_mod, hpow, ← Nat.mul_mod,
        hexp]
    · have hexp : base ^ (n + 1) = base * base ^ (2 * ((n + 1) / 2)) := by
        rw [← Nat.pow_succ']
        congr 1
        omega
      have hacc : mul_mod acc base m = .ok (acc * base % m) := mul_mod_eq hm (by omega) (by omega)
      rw [if_pos (by omega), hacc, bind_ok]
      beta_reduce
      rw [hsq, bind_ok, hhalf, hloop (acc * base % m) hlt (Nat.mod_lt _ hm) (Nat.mod_lt _ hm), hexp,
        Nat.mul_mod, Nat.mod_mod, hpow, ← Nat.mul_mod, Nat.mul_assoc]

theorem powmod_eq {n : Nat} (hn : n < 2 ^ 31) (hm : 0 < m) (hm64 : m ≤ 2 ^ 64) :
    powmod n m = .ok (2 ^ n % m) := by
  unfold powmod
  rw [rem_eq hm, bind_ok, rem_eq hm, bind_ok,
    powmod_loop_eq hm hm64 31 n _ _ hn (Nat.mod_lt _ hm) (Nat.mod_lt _ hm), Nat.mul_mod,
    ← Nat.pow_mod, Nat.mod_mod, ← Nat.mul_mod, Nat.one_mul]

/-- The remainder in units: `lsb` is the exponent of the unit. -/
theorem frem_units_eq {ma mb : Nat} {ea eb lsb : Int} (ha : ma < 2 ^ 53) (hb : 0 < mb)
    (hb53 : mb < 2 ^ 53) (hea : lsb ≤ ea) (heb : lsb ≤ eb) (hgap : |ea - eb| < 2 ^ 31) :
    ∃ units exp, frem_units ma ea mb eb = .ok (units, exp) ∧ lsb ≤ exp ∧ exp ≤ max ea eb ∧
      (units ≤ ma ∨ units < mb) ∧
      units * 2 ^ (exp - lsb).toNat =
        (ma * 2 ^ (ea - lsb).toNat) % (mb * 2 ^ (eb - lsb).toNat) := by
  rw [abs_lt] at hgap
  unfold frem_units
  by_cases hge : ea ≥ eb
  · -- the divisor is the finer one
    obtain ⟨n, hn⟩ : ∃ n : Nat, ea - eb = n := ⟨(ea - eb).toNat, by omega⟩
    have hexp : (ea - lsb).toNat = n + (eb - lsb).toNat := by omega
    have hr := Nat.mod_lt (ma % mb * (2 ^ n % mb)) hb
    have hmul : mul_mod (ma % mb) (2 ^ n % mb) mb = .ok (ma % mb * (2 ^ n % mb) % mb) := by
      have hma := Nat.mod_lt ma hb
      have hpow := Nat.mod_lt (2 ^ n) hb
      exact mul_mod_eq hb (by omega) (by omega)
    refine ⟨ma % mb * (2 ^ n % mb) % mb, eb, ?_, heb, le_max_right _ _, .inr hr, ?_⟩
    · rw [if_pos hge, rem_eq hb, bind_ok, i32_eq (by omega) (by omega), bind_ok, hn,
        powmod_eq (by omega) hb (by omega), bind_ok, hmul, bind_ok, Nat.mod_eq_of_lt (by omega)]
      rfl
    · rw [← Nat.mul_mod, hexp, Nat.pow_add, ← Nat.mul_assoc, Nat.mul_mod_mul_right]
  · -- the dividend is the finer one
    obtain ⟨n, hn⟩ : ∃ n : Nat, eb - ea = n := ⟨(eb - ea).toNat, by omega⟩
    have hexp : (eb - lsb).toNat = n + (ea - lsb).toNat := by omega
    have hscaled : (ma * 2 ^ (ea - lsb).toNat) % (mb * 2 ^ (eb - lsb).toNat) =
        ma % (mb * 2 ^ n) * 2 ^ (ea - lsb).toNat := by
      rw [hexp, Nat.pow_add, ← Nat.mul_assoc, Nat.mul_mod_mul_right]
    rw [if_neg hge, i32_eq (by omega) (by omega), bind_ok, hn, hscaled]
    by_cases hfar : n ≥ 64
    · have hbig : ma < mb * 2 ^ n := by
        calc ma < 2 ^ 53 := ha
          _ ≤ 1 * 2 ^ n := by
            rw [Nat.one_mul]
            exact Nat.pow_le_pow_right Nat.two_pos (by omega)
          _ ≤ mb * 2 ^ n := Nat.mul_le_mul_right _ hb
      refine ⟨ma, ea, ?_, hea, le_max_left _ _, .inl (Nat.le_refl _), ?_⟩
      · rw [if_pos (by omega)]
        rfl
      · rw [Nat.mod_eq_of_lt hbig]
    have hcast : as_unsigned 32 n = n := by
      rw [as_unsigned_eq (by omega) (by omega), Int.toNat_natCast]
    have hfit : mb * 2 ^ n < 2 ^ 128 := by
      calc mb * 2 ^ n < 2 ^ 53 * 2 ^ n := Nat.mul_lt_mul_of_pos_right hb53 (Nat.two_pow_pos n)
        _ = 2 ^ (53 + n) := (Nat.pow_add ..).symm
        _ ≤ 2 ^ 128 := Nat.pow_le_pow_right Nat.two_pos (by omega)
    rw [if_neg (by omega), hcast, shl_eq (by omega) hfit, bind_ok]
    by_cases hbig : mb * 2 ^ n > ma
    · refine ⟨ma, ea, ?_, hea, le_max_left _ _, .inl (Nat.le_refl _), ?_⟩
      · rw [if_pos hbig]
        rfl
      · rw [Nat.mod_eq_of_lt hbig]
    · have hpos : 0 < mb * 2 ^ n := Nat.mul_pos hb (Nat.two_pow_pos n)
      refine ⟨ma % (mb * 2 ^ n), ea, ?_, hea, le_max_left _ _, .inl (Nat.mod_le _ _), rfl⟩
      rw [if_neg hbig, Nat.mod_eq_of_lt (by omega), rem_eq hpos]
      rfl

/-! ## The pattern of the remainder -/

theorem lead_eq (hx : x ≠ 0) (hlt : x < 2 ^ 64) : lead x = .ok (Nat.log2 x) := by
  have hlog : Nat.log2 x < 64 := (Nat.log2_lt hx).mpr hlt
  unfold lead u64_leading_zeros
  rw [if_neg hx, u32_sub_eq (by omega)]
  congr 1
  omega

theorem xor_leading (hx : x ≠ 0) : x ^^^ 2 ^ Nat.log2 x = x - 2 ^ Nat.log2 x := by
  obtain ⟨r, hr⟩ := Nat.exists_eq_add_of_le (Nat.log2_self_le hx)
  have hlt : r < 2 ^ Nat.log2 x := by
    have hhi := Nat.lt_log2_self (n := x)
    rw [Nat.pow_succ] at hhi
    omega
  have hor : 2 ^ Nat.log2 x + r = 2 ^ Nat.log2 x ||| r := by
    simpa using Nat.two_pow_add_eq_or_of_lt hlt 1
  have hbits : (2 ^ Nat.log2 x ||| r) ^^^ 2 ^ Nat.log2 x = r := by
    refine Nat.eq_of_testBit_eq fun i => ?_
    rw [Nat.testBit_xor, Nat.testBit_or, Nat.testBit_two_pow]
    by_cases hi : Nat.log2 x = i
    · subst hi
      simp [Nat.testBit_lt_two_pow hlt]
    · simp [hi]
  calc x ^^^ 2 ^ Nat.log2 x = (2 ^ Nat.log2 x ||| r) ^^^ 2 ^ Nat.log2 x := by rw [← hor, ← hr]
    _ = r := hbits
    _ = x - 2 ^ Nat.log2 x := by omega

/-- The fields of a pattern, put together by `|`. -/
theorem or_fields {s field mant man exp : Nat} (hmant : mant < 2 ^ man)
    (hfield : field < 2 ^ exp) :
    s * 2 ^ (exp + man) ||| field * 2 ^ man ||| mant =
      s * 2 ^ (exp + man) + (field * 2 ^ man + mant) := by
  have hhigh : s * 2 ^ (exp + man) ||| field * 2 ^ man = (s * 2 ^ exp + field) * 2 ^ man := by
    have hlt : field * 2 ^ man < 2 ^ (exp + man) := by
      rw [Nat.pow_add]
      exact Nat.mul_lt_mul_of_pos_right hfield (Nat.two_pow_pos man)
    rw [← Nat.shiftLeft_eq s, ← Nat.shiftLeft_add_eq_or_of_lt hlt, Nat.shiftLeft_eq, Nat.pow_add]
    ring
  rw [hhigh, ← Nat.shiftLeft_eq, ← Nat.shiftLeft_add_eq_or_of_lt hmant, Nat.shiftLeft_eq, Nat.pow_add]
  ring

variable {F : Format}

/-- The fields of the format fit in a `u64` pattern. -/
structure Fits (F : Format) : Prop where
  man_le : F.man ≤ 52
  exp_le : F.exp ≤ 11

theorem Fits.bias (h : Fits F) : 0 < F.bias ∧ F.bias < 2 ^ 10 := by
  have hone := F.one_lt_exp
  have hexp := h.exp_le
  have hlo : (2 : Int) ^ 1 ≤ 2 ^ (F.exp - 1) := pow_le_pow_right₀ (by omega) (by omega)
  have hhi : (2 : Int) ^ (F.exp - 1) ≤ 2 ^ 10 := pow_le_pow_right₀ (by omega) (by omega)
  unfold Format.bias
  omega

/-- Below infinity there is a field for the exponent. -/
theorem field_lt {k q : Nat} (h : k * 2 ^ F.man + q < F.inf) (hq : 2 ^ F.man ≤ q) :
    k + 1 < 2 ^ F.exp := by
  unfold Format.inf at h
  have hlt : (k + 1) * 2 ^ F.man < (2 ^ F.exp - 1) * 2 ^ F.man := by
    rw [Nat.succ_mul]
    omega
  have := Nat.lt_of_mul_lt_mul_right hlt
  omega

theorem frem_pack_eq (h : Fits F) {s u : Nat} {exp : Int} (hu : u ≠ 0)
    (hman : u < 2 ^ (F.man + 1)) (hexp : F.lsb ≤ exp) (hexp' : exp < 2 ^ 20)
    (hinf : u * 2 ^ (exp - F.lsb).toNat < F.units F.inf) :
    ∃ m < F.inf, F.units m = u * 2 ^ (exp - F.lsb).toNat ∧
      frem_pack (s * 2 ^ (F.exp + F.man)) u exp F.man F.bias F.emin =
        .ok (s * 2 ^ (F.exp + F.man) + m) := by
  obtain ⟨hbias, hbias'⟩ := h.bias
  have hman_le := h.man_le
  have hexp_le := h.exp_le
  have hlog : Nat.log2 u < F.man + 1 := (Nat.log2_lt hu).mpr hman
  have hlo := Nat.log2_self_le hu
  have hhi := Nat.lt_log2_self (n := u)
  have hu64 : u < 2 ^ 64 := hman.trans_le (Nat.pow_le_pow_right Nat.two_pos (by omega))
  have hlsb : F.lsb = 1 - F.bias - F.man := rfl
  have hemin : F.emin = 1 - F.bias := rfl
  unfold frem_pack
  rw [lead_eq hu hu64, bind_ok, i32_eq (by omega) (by omega), bind_ok]
  by_cases hnormal : exp + Nat.log2 u ≥ F.emin
  · obtain ⟨k, hk⟩ : ∃ k : Nat, exp + Nat.log2 u - F.emin = k :=
      ⟨(exp + Nat.log2 u - F.emin).toNat, by omega⟩
    -- the mantissa with its leading bit in place
    obtain ⟨q, hq⟩ : ∃ q, q = u * 2 ^ (F.man - Nat.log2 u) := ⟨_, rfl⟩
    have hqlo : 2 ^ F.man ≤ q := by
      calc 2 ^ F.man = 2 ^ Nat.log2 u * 2 ^ (F.man - Nat.log2 u) := by
            rw [← Nat.pow_add]
            congr 1
            omega
        _ ≤ q := hq ▸ Nat.mul_le_mul_right _ hlo
    have hqhi : q < 2 ^ (F.man + 1) := by
      calc q < 2 ^ (Nat.log2 u + 1) * 2 ^ (F.man - Nat.log2 u) :=
            hq ▸ Nat.mul_lt_mul_of_pos_right hhi (Nat.two_pow_pos _)
        _ = 2 ^ (F.man + 1) := by
            rw [← Nat.pow_add]
            congr 1
            omega
    have hunits : F.units (k * 2 ^ F.man + q) = u * 2 ^ (exp - F.lsb).toNat := by
      rw [Format.units_at (Nat.le_of_lt hqhi) (.inr hqlo), hq, Nat.mul_assoc, ← Nat.pow_add]
      congr 2
      omega
    have hlt : k * 2 ^ F.man + q < F.inf := by
      rw [← hunits] at hinf
      exact Format.units_strictMono.lt_iff_lt.mp hinf
    have hfield := field_lt hlt hqlo
    refine ⟨_, hlt, hunits, ?_⟩
    rw [Nat.pow_succ] at hqhi
    have hfield_le : 2 ^ F.exp ≤ 2 ^ 11 := Nat.pow_le_pow_right Nat.two_pos hexp_le
    have hman_pow : 2 ^ F.man ≤ 2 ^ 52 := Nat.pow_le_pow_right Nat.two_pos hman_le
    have hcast : as_unsigned 64 (exp + Nat.log2 u + F.bias) = k + 1 := by
      rw [as_unsigned_eq (by omega) (by omega)]
      omega
    have hmant : (u - 2 ^ Nat.log2 u) * 2 ^ (F.man - Nat.log2 u) = q - 2 ^ F.man := by
      rw [Nat.sub_mul, ← Nat.pow_add, hq]
      congr 3
      omega
    have htop : shl 64 1 (Nat.log2 u) = .ok (2 ^ Nat.log2 u) := by
      rw [shl_eq (by omega) (by omega), Nat.one_mul]
    have hfield_shl : (k + 1) * 2 ^ F.man < 2 ^ 64 := by
      calc (k + 1) * 2 ^ F.man < 2 ^ F.exp * 2 ^ F.man :=
            Nat.mul_lt_mul_of_pos_right hfield (Nat.two_pow_pos _)
        _ = 2 ^ (F.exp + F.man) := (Nat.pow_add ..).symm
        _ ≤ 2 ^ 64 := Nat.pow_le_pow_right Nat.two_pos (by omega)
    rw [if_pos hnormal, i32_eq (by omega) (by omega), bind_ok, hcast]
    dsimp only
    rw [htop, bind_ok, u32_sub_eq (by omega), bind_ok, xor_leading hu,
      shl_eq (by omega) (by omega), bind_ok, hmant, shl_eq (by omega) hfield_shl, bind_ok,
      or_fields (by omega) hfield, Nat.succ_mul]
    change Except.ok _ = _
    congr 1
    omega
  · -- a subnormal number: the scale is the unit
    obtain ⟨d, hd⟩ : ∃ d : Nat, exp - F.lsb = d := ⟨(exp - F.lsb).toNat, by omega⟩
    rw [hd, Int.toNat_natCast] at hinf ⊢
    have hsmall : u * 2 ^ d < 2 ^ F.man := by
      calc u * 2 ^ d < 2 ^ (Nat.log2 u + 1) * 2 ^ d :=
            Nat.mul_lt_mul_of_pos_right hhi (Nat.two_pow_pos d)
        _ = 2 ^ (Nat.log2 u + 1 + d) := (Nat.pow_add ..).symm
        _ ≤ 2 ^ F.man := Nat.pow_le_pow_right Nat.two_pos (by omega)
    have hunits : F.units (u * 2 ^ d) = u * 2 ^ d := by
      have hat := Format.units_at (F := F) (k := 0) (q := u * 2 ^ d)
        (by rw [Nat.pow_succ]; omega) (.inl rfl)
      simpa using hat
    have hlt : u * 2 ^ d < F.inf := by
      rw [← hunits] at hinf
      exact Format.units_strictMono.lt_iff_lt.mp hinf
    have hman_pow : 2 ^ F.man ≤ 2 ^ 52 := Nat.pow_le_pow_right Nat.two_pos hman_le
    have hcast : as_unsigned 32 (exp - F.emin + F.man) = d := by
      rw [as_unsigned_eq (by omega) (by omega)]
      omega
    have hor : s * 2 ^ (F.exp + F.man) ||| 0 * 2 ^ F.man ||| u * 2 ^ d =
        s * 2 ^ (F.exp + F.man) + (0 * 2 ^ F.man + u * 2 ^ d) :=
      or_fields hsmall (Nat.two_pow_pos _)
    rw [Nat.zero_mul, Nat.or_zero, Nat.zero_add] at hor
    refine ⟨u * 2 ^ d, hlt, hunits, ?_⟩
    rw [if_neg hnormal, i32_eq (by omega) (by omega), bind_ok, i32_eq (by omega) (by omega), bind_ok,
      hcast]
    dsimp only
    rw [if_pos (by omega), shl_eq (by omega) (by omega), bind_ok, hor]
    rfl

/-! ## The operands -/

/-- A float's mantissa, with the leading bit of a normal number, and its exponent. -/
def decompose (v : Binary F) : Nat × Int :=
  if v.mag / 2 ^ F.man = 0 then (v.mag, F.lsb)
  else (v.mag % 2 ^ F.man + 2 ^ F.man, (v.mag / 2 ^ F.man : Nat) - 1 + F.lsb)

theorem decompose_units (v : Binary F) : (decompose v).1 < 2 ^ (F.man + 1) ∧
    F.lsb ≤ (decompose v).2 ∧ (decompose v).2 < F.lsb + 2 ^ F.exp ∧
    F.units v.mag = (decompose v).1 * 2 ^ ((decompose v).2 - F.lsb).toNat := by
  have hmod := Nat.mod_lt v.mag (Nat.two_pow_pos F.man)
  have hdiv := Nat.div_add_mod' v.mag (2 ^ F.man)
  have hexp := Nat.two_pow_pos F.exp
  have hcast : ((2 ^ F.exp : Nat) : Int) = 2 ^ F.exp := by norm_cast
  have hfield : v.mag / 2 ^ F.man < 2 ^ F.exp := by
    rw [Nat.div_lt_iff_lt_mul (Nat.two_pow_pos F.man), ← Nat.pow_add]
    exact v.mag_lt
  have hpow := Nat.pow_succ 2 F.man
  unfold decompose Format.units
  generalize v.mag / 2 ^ F.man = field at *
  split
  · rename_i hzero
    rw [hzero] at hdiv
    refine ⟨by dsimp only; omega, le_refl _, by dsimp only; omega, ?_⟩
    simp
  · refine ⟨by dsimp only; omega, by dsimp only; omega, by dsimp only; omega, ?_⟩
    dsimp only
    congr 2
    omega

theorem bits_field (v : Binary F) :
    (v.to_bits >>> F.man) &&& (2 ^ F.exp - 1) = v.mag / 2 ^ F.man := by
  have hlt : v.mag / 2 ^ F.man < 2 ^ F.exp := by
    rw [Nat.div_lt_iff_lt_mul (Nat.two_pow_pos F.man), ← Nat.pow_add]
    exact v.mag_lt
  unfold Binary.to_bits
  rw [Nat.and_two_pow_sub_one_eq_mod, Nat.shiftRight_eq_div_pow, Nat.pow_add, ← Nat.mul_assoc,
    Nat.add_comm, Nat.add_mul_div_right _ _ (Nat.two_pow_pos F.man), Nat.add_mul_mod_self_right,
    Nat.mod_eq_of_lt hlt]

theorem bits_mantissa (v : Binary F) : v.to_bits &&& (2 ^ F.man - 1) = v.mag % 2 ^ F.man := by
  unfold Binary.to_bits
  rw [Nat.and_two_pow_sub_one_eq_mod, Nat.pow_add, ← Nat.mul_assoc, Nat.add_comm,
    Nat.add_mul_mod_self_right]

theorem or_hidden {i : Nat} (h : m < 2 ^ i) : m ||| 2 ^ i = m + 2 ^ i := by
  have hor := Nat.two_pow_add_eq_or_of_lt h 1
  rw [Nat.mul_one] at hor
  rw [Nat.or_comm, ← hor, Nat.add_comm]

theorem decompose_f64_eq (v : F64) : decompose_f64 v = decompose v := by
  have hfield : (v.to_bits >>> 52) &&& 0x7FF = v.mag / 2 ^ 52 := bits_field v
  have hman : v.to_bits &&& 0xFFFFFFFFFFFFF = v.mag % 2 ^ 52 := bits_mantissa v
  have hmod := Nat.mod_lt v.mag (Nat.two_pow_pos 52)
  have hdiv := Nat.div_add_mod' v.mag (2 ^ 52)
  have hhidden : v.mag % 2 ^ 52 ||| 0x10000000000000 = v.mag % 2 ^ 52 + 2 ^ 52 := or_hidden hmod
  unfold decompose_f64 decompose
  simp only [hfield, hman, hhidden, binary64_lsb, show binary64.man = 52 from rfl]
  split
  · rename_i hzero
    rw [hzero] at hdiv
    exact Prod.ext (by omega) rfl
  · exact Prod.ext rfl (by dsimp only; omega)

theorem decompose_f32_eq (v : F32) : decompose_f32 v = decompose v := by
  have hfield : (v.to_bits >>> 23) &&& 0xFF = v.mag / 2 ^ 23 := bits_field v
  have hman : v.to_bits &&& 0x7FFFFF = v.mag % 2 ^ 23 := bits_mantissa v
  have hmod := Nat.mod_lt v.mag (Nat.two_pow_pos 23)
  have hdiv := Nat.div_add_mod' v.mag (2 ^ 23)
  have hhidden : v.mag % 2 ^ 23 ||| 0x800000 = v.mag % 2 ^ 23 + 2 ^ 23 := or_hidden hmod
  unfold decompose_f32 decompose
  simp only [hfield, hman, hhidden, binary32_lsb, show binary32.man = 23 from rfl]
  split
  · rename_i hzero
    rw [hzero] at hdiv
    exact Prod.ext (by omega) rfl
  · exact Prod.ext rfl (by dsimp only; omega)

/-! ## The exact remainder -/

variable {a b : Binary F}

/-- The float that `frem_soft` returns is the remainder of the operands' units. -/
theorem frem_soft_eq (h : Fits F) (ha : a.Finite) (hb : 0 < b.mag) :
    ∃ r : Binary F, frem_soft (decompose a) (decompose b) a.neg F.man F.exp F.bias F.emin =
        .ok r.to_bits ∧ r.neg = a.neg ∧ r.Finite ∧ F.units r.mag = F.units a.mag % F.units b.mag := by
  obtain ⟨hma, hea, hea', hua⟩ := decompose_units a
  obtain ⟨hmb, heb, heb', hub⟩ := decompose_units b
  have hbias := h.bias
  have hman_le := h.man_le
  have hexp_le : (2 : Int) ^ F.exp ≤ 2 ^ 11 := pow_le_pow_right₀ (by omega) h.exp_le
  have hman : 2 ^ (F.man + 1) ≤ 2 ^ 53 := Nat.pow_le_pow_right Nat.two_pos (by omega)
  have hlsb : F.lsb = 1 - F.bias - F.man := rfl
  have hb_pos : 0 < (decompose b).1 := by
    have hpos := Format.units_pos (F := F) hb
    rw [hub] at hpos
    exact Nat.pos_of_mul_pos_right hpos
  obtain ⟨u, exp, hunits, hexp, hexp', hle, heq⟩ := frem_units_eq (hma.trans_le hman) hb_pos
    (hmb.trans_le hman) hea heb (by rw [abs_lt]; omega)
  rw [← hua, ← hub] at heq
  have hinf : u * 2 ^ (exp - F.lsb).toNat < F.units F.inf := by
    rw [heq]
    exact (Nat.mod_le _ _).trans_lt (Format.units_strictMono ha)
  have hsign : shl 64 a.neg.toNat (F.man + F.exp) = .ok (a.neg.toNat * 2 ^ (F.exp + F.man)) := by
    have hexp_le' := h.exp_le
    have hpow : 2 ^ (F.exp + F.man) ≤ 2 ^ 63 := Nat.pow_le_pow_right Nat.two_pos (by omega)
    have hneg : a.neg.toNat ≤ 1 := Bool.toNat_le a.neg
    have hmul := Nat.mul_le_mul hneg hpow
    rw [Nat.add_comm F.man, shl_eq (by omega) (by omega)]
  unfold frem_soft
  rw [hunits, bind_ok]
  dsimp only
  rw [hsign, bind_ok]
  by_cases hu : u = 0
  · -- a zero with the dividend's sign
    subst hu
    rw [Nat.zero_mul] at heq hinf
    have hpos : 0 < F.inf := Nat.pos_of_ne_zero fun h0 => by simp [h0] at hinf
    refine ⟨⟨a.neg, 0, Nat.two_pow_pos _⟩, ?_, rfl, hpos, ?_⟩
    · rw [if_pos rfl]
      rfl
    · rw [← heq]
      exact Format.units_zero
  · obtain ⟨m, hm, hmu, hpack⟩ := frem_pack_eq h (s := a.neg.toNat) hu
      (hle.elim (fun hle => by omega) fun hlt => by omega) hexp (by omega) hinf
    refine ⟨⟨a.neg, m, hm.trans Format.inf_lt⟩, ?_, rfl, hm, ?_⟩
    · rw [if_neg hu, hpack]
      rfl
    · rw [← heq]
      exact hmu

/-- `r` is the exact remainder of `a` by `b`, with the sign bit of `a`. -/
def IsRem (a b r : Binary F) : Prop :=
  r.Finite ∧ r.neg = a.neg ∧ r.value = a.value - b.value * toward_zero (a.value / b.value)

theorem tmod_units {r : Binary F} (hneg : r.neg = a.neg)
    (hunits : F.units r.mag = F.units a.mag % F.units b.mag) :
    r.units = a.units.tmod b.units := by
  unfold Binary.units
  rw [hneg, hunits, Int.ofNat_tmod]
  cases a.neg <;> cases b.neg <;> simp

theorem isRem_of_units {r : Binary F} (hfin : r.Finite) (hneg : r.neg = a.neg)
    (hunits : F.units r.mag = F.units a.mag % F.units b.mag) : IsRem a b r := by
  refine ⟨hfin, hneg, ?_⟩
  rw [Binary.value_rem, ← tmod_units hneg hunits]
  rfl

theorem fits_binary64 : Fits binary64 :=
  ⟨by decide, by decide⟩

theorem fits_binary32 : Fits binary32 :=
  ⟨by decide, by decide⟩

theorem frem_f64_eq {a b : F64} (ha : a.Finite) (hb : b.Finite) (ha0 : a.mag ≠ 0)
    (hb0 : b.mag ≠ 0) : frem_f64 a b =
      frem_soft (decompose a) (decompose b) a.neg binary64.man binary64.exp binary64.bias
        binary64.emin := by
  obtain ⟨hanan, hainf⟩ := ha.tests
  obtain ⟨hbnan, hbinf⟩ := hb.tests
  unfold frem_f64
  rw [hanan, hbnan, hainf, hbinf, decompose_f64_eq, decompose_f64_eq]
  simp [ha0, hb0]
  rfl

theorem frem_f32_eq {a b : F32} (ha : a.Finite) (hb : b.Finite) (ha0 : a.mag ≠ 0)
    (hb0 : b.mag ≠ 0) : frem_f32 a b =
      frem_soft (decompose a) (decompose b) a.neg binary32.man binary32.exp binary32.bias
        binary32.emin := by
  obtain ⟨hanan, hainf⟩ := ha.tests
  obtain ⟨hbnan, hbinf⟩ := hb.tests
  unfold frem_f32
  rw [hanan, hbnan, hainf, hbinf, decompose_f32_eq, decompose_f32_eq]
  simp [ha0, hb0]
  rfl

/-- **The float remainder is exact**: on finite, nonzero operands it ends without a panic (every
shift is in range and no product overflows), and what it returns is the pattern of a finite float
that is exactly the remainder of the truncated division. -/
theorem frem_exact :
    (∀ a b : F64, a.Finite → b.Finite → a.mag ≠ 0 → b.mag ≠ 0 →
      ∃ r : F64, frem_f64 a b = .ok r.to_bits ∧ IsRem a b r) ∧
    ∀ a b : F32, a.Finite → b.Finite → a.mag ≠ 0 → b.mag ≠ 0 →
      ∃ r : F32, frem_f32 a b = .ok r.to_bits ∧ IsRem a b r := by
  constructor
  · intro a b ha hb ha0 hb0
    obtain ⟨r, hr, hneg, hfin, hunits⟩ := frem_soft_eq fits_binary64 ha (Nat.pos_of_ne_zero hb0)
    exact ⟨r, (frem_f64_eq ha hb ha0 hb0).trans hr, isRem_of_units hfin hneg hunits⟩
  · intro a b ha hb ha0 hb0
    obtain ⟨r, hr, hneg, hfin, hunits⟩ := frem_soft_eq fits_binary32 ha (Nat.pos_of_ne_zero hb0)
    exact ⟨r, (frem_f32_eq ha hb ha0 hb0).trans hr, isRem_of_units hfin hneg hunits⟩

/-- The remainder of 5.5 by -2 and that of the largest finite `f32` by the least subnormal one. -/
theorem frem_exact_pair :
    (∃ r : F64, frem_f64 (.from_bits _ 0x4016000000000000) (.from_bits _ 0xC000000000000000) =
        .ok r.to_bits ∧
      IsRem (.from_bits _ 0x4016000000000000) (.from_bits _ 0xC000000000000000) r) ∧
    ∃ r : F32, frem_f32 (.from_bits _ 0x7F7FFFFF) (.from_bits _ 0x00000001) = .ok r.to_bits ∧
      IsRem (.from_bits _ 0x7F7FFFFF) (.from_bits _ 0x00000001) r :=
  ⟨frem_exact.1 _ _ (by decide +kernel) (by decide +kernel) (by decide +kernel) (by decide +kernel),
    frem_exact.2 _ _ (by decide +kernel) (by decide +kernel) (by decide +kernel)
      (by decide +kernel)⟩

example : frem_f64 (.from_bits _ 0x4016000000000000) (.from_bits _ 0xC000000000000000) =
    .ok 0x3FF8000000000000 := by
  decide +kernel

end Fors.Interp
