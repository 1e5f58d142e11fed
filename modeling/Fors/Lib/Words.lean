import Mathlib.Data.Nat.Notation
import Mathlib.Algebra.Group.Nat.Defs
import Mathlib.Data.BitVec

/-!
# Words

Sums and products of 64-bit words that report an overflow, or stick to the largest word.

A word is packed from fields by `|`: the `len` bits at `lo` are written over by clearing them and
or-ing the new value in.  `Clear` says that the rest of the word has nothing there, and is proved
field by field.

Principal result: `insert_over`.
-/

namespace Words

/-- `as u32` of a wider number. -/
def as_u32 (n : Nat) : Nat := n % 2 ^ 32

theorem as_u32_eq {n : Nat} (h : n < 2 ^ 32) : as_u32 n = n :=
  Nat.mod_eq_of_lt h

def U64_MAX : UInt64 := 0xFFFFFFFFFFFFFFFF

def checked_add (a b : UInt64) : Option UInt64 :=
  if a.toNat + b.toNat < 2 ^ 64 then some (a + b) else none

def saturating_add (a b : UInt64) : UInt64 :=
  (checked_add a b).getD U64_MAX

def saturating_mul (a b : UInt64) : UInt64 :=
  if a.toNat * b.toNat < 2 ^ 64 then a * b else U64_MAX

theorem max_word : U64_MAX.toNat + 1 = 2 ^ 64 :=
  rfl

theorem checked_add_cases (a b : UInt64) :
    (∃ s, checked_add a b = some s ∧ s.toNat = a.toNat + b.toNat) ∨
      checked_add a b = none ∧ U64_MAX.toNat < a.toNat + b.toNat := by
  unfold checked_add
  have hmax := max_word
  split
  · rename_i h
    exact .inl ⟨a + b, rfl, by rw [UInt64.toNat_add, Nat.mod_eq_of_lt h]⟩
  · exact .inr ⟨rfl, by omega⟩

theorem toNat_saturating_add (a b : UInt64) :
    (saturating_add a b).toNat = min (a.toNat + b.toNat) U64_MAX.toNat := by
  unfold saturating_add
  obtain ⟨s, hs, hsum⟩ | ⟨hnone, hover⟩ := checked_add_cases a b
  · rw [hs, Option.getD_some, hsum]
    have hlt := s.toNat_lt
    have hmax := max_word
    omega
  · rw [hnone, Option.getD_none]
    omega

theorem toNat_saturating_mul (a b : UInt64) :
    (saturating_mul a b).toNat = min (a.toNat * b.toNat) U64_MAX.toNat := by
  have hmax := max_word
  unfold saturating_mul
  split
  · rename_i h
    rw [UInt64.toNat_mul, Nat.mod_eq_of_lt h]
    omega
  · omega

theorem toNat_max (a b : UInt64) : (max a b).toNat = max a.toNat b.toNat := by
  change (if a ≤ b then b else a).toNat = _
  split
  · rename_i h
    exact (Nat.max_eq_right h).symm
  · rename_i h
    exact (Nat.max_eq_left (Nat.le_of_not_le h)).symm

end Words

/-! ## Bit-fields -/

namespace BitFields

variable {n : ℕ}

/-- The low `len` bits. -/
def mask (n len : ℕ) : BitVec n :=
  BitVec.ofNat n (2 ^ len - 1)

theorem getLsbD_mask (n len i : ℕ) : (mask n len).getLsbD i = (decide (i < n) && decide (i < len)) := by
  unfold mask
  rw [BitVec.getLsbD_ofNat, Nat.testBit_two_pow_sub_one]

theorem toNat_and_mask (v : BitVec n) {len : ℕ} (hlen : len ≤ n) :
    (v &&& mask n len).toNat = v.toNat % 2 ^ len := by
  have hpow : 2 ^ len ≤ 2 ^ n := Nat.pow_le_pow_right (by omega) hlen
  have hpos : 0 < 2 ^ len := Nat.two_pow_pos len
  unfold mask
  rw [BitVec.toNat_and, BitVec.toNat_ofNat, Nat.mod_eq_of_lt (by omega),
    Nat.and_two_pow_sub_one_eq_mod]

/-- A number that fits is not changed by the mask. -/
theorem ofInt_and_mask {k len : ℕ} (hk : k < 2 ^ len) (hlen : len ≤ n) :
    BitVec.ofInt n k &&& mask n len = BitVec.ofNat n k := by
  have hpow : 2 ^ len ≤ 2 ^ n := Nat.pow_le_pow_right (by omega) hlen
  apply BitVec.eq_of_toNat_eq
  rw [toNat_and_mask _ hlen, BitVec.ofInt_natCast, BitVec.toNat_ofNat,
    Nat.mod_eq_of_lt (hk.trans_le hpow), Nat.mod_eq_of_lt hk]

/-- The `len` bits of `w` at `lo` are zero. -/
def Clear (lo len : ℕ) (w : BitVec n) : Prop :=
  ∀ i, lo ≤ i → i < lo + len → w.getLsbD i = false

section Clear

variable {lo len : ℕ} {a b w : BitVec n}

theorem Clear.or (ha : Clear lo len a) (hb : Clear lo len b) : Clear lo len (a ||| b) := by
  intro i hi hi'
  rw [BitVec.getLsbD_or, ha i hi hi', hb i hi hi', Bool.or_false]

/-- A field above. -/
theorem clear_shiftLeft {k : ℕ} (hk : lo + len ≤ k) : Clear lo len (w <<< k) := by
  intro i _ hi
  rw [BitVec.getLsbD_shiftLeft, decide_eq_true (show i < k by omega)]
  simp

/-- A field below. -/
theorem clear_of_lt (hw : w.toNat < 2 ^ lo) : Clear lo len w := by
  intro i hi _
  exact Nat.testBit_lt_two_pow (hw.trans_le (Nat.pow_le_pow_right (by omega) hi))

/-- A field below that is shifted. -/
theorem clear_shiftLeft_of_lt {m k : ℕ} (hw : w.toNat < 2 ^ m) (hk : m + k ≤ lo) :
    Clear lo len (w <<< k) := by
  intro i hi _
  have hbit : w.getLsbD (i - k) = false :=
    Nat.testBit_lt_two_pow (hw.trans_le (Nat.pow_le_pow_right (by omega) (by omega)))
  rw [BitVec.getLsbD_shiftLeft, hbit, Bool.and_false]

/-- Writing a field over another value of it. -/
theorem insert_over (hb : Clear lo len b) (u v : BitVec n) :
    ((b ||| (u &&& mask n len) <<< lo) &&& ~~~(mask n len <<< lo)) ||| (v &&& mask n len) <<< lo =
      b ||| (v &&& mask n len) <<< lo := by
  apply BitVec.eq_of_getLsbD_eq
  intro i hi
  simp only [BitVec.getLsbD_or, BitVec.getLsbD_and, BitVec.getLsbD_not, BitVec.getLsbD_shiftLeft,
    getLsbD_mask, hi, decide_true, Bool.true_and]
  by_cases hlo : i < lo
  · simp [hlo]
  by_cases hin : i < lo + len
  · rw [hb i (by omega) hin]
    simp [hlo, show i - lo < len by omega, show i - lo < n by omega]
  · simp [show ¬ i - lo < len by omega]

end Clear

end BitFields
