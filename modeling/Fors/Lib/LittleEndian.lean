import Mathlib.Data.Nat.Init
import Mathlib.Tactic.Ring

/-!
# Little-endian bytes

The bytes of a number, the lowest first, and the number that a list of bytes stands for.

Principal results: `of_le_bytes_le_bytes` and `le_bytes_of_le_bytes`.
-/

namespace LittleEndian

open List

/-- The lowest `len` bytes of a number. -/
def le_bytes : Nat → Nat → List UInt8
  | 0, _ => []
  | len + 1, v => UInt8.ofNat v :: le_bytes len (v / 256)

/-- The number of a list of bytes. -/
def of_le_bytes : List UInt8 → Nat
  | [] => 0
  | b :: bytes => b.toNat + 256 * of_le_bytes bytes

@[simp] theorem length_le_bytes (len v : Nat) : (le_bytes len v).length = len := by
  induction len generalizing v with
  | zero => rfl
  | succ len ih => rw [le_bytes, length_cons, ih]

theorem of_le_bytes_lt (bytes : List UInt8) : of_le_bytes bytes < 256 ^ bytes.length := by
  induction bytes with
  | nil => exact Nat.one_pos
  | cons b bytes ih =>
    have hb := b.toNat_lt
    rw [of_le_bytes, length_cons, pow_succ]
    omega

theorem of_le_bytes_le_bytes (len v : Nat) : of_le_bytes (le_bytes len v) = v % 256 ^ len := by
  induction len generalizing v with
  | zero => rw [le_bytes, of_le_bytes, pow_zero, Nat.mod_one]
  | succ len ih =>
    rw [le_bytes, of_le_bytes, ih, pow_succ, Nat.mul_comm (256 ^ len), Nat.mod_mul]
    rfl

/-- Numbers that fit their width have different bytes. -/
theorem le_bytes_inj {len v w : Nat} (hv : v < 256 ^ len) (hw : w < 256 ^ len)
    (h : le_bytes len v = le_bytes len w) : v = w := by
  have hvalue := congrArg of_le_bytes h
  rwa [of_le_bytes_le_bytes, of_le_bytes_le_bytes, Nat.mod_eq_of_lt hv, Nat.mod_eq_of_lt hw]
    at hvalue

theorem le_bytes_of_le_bytes (bytes : List UInt8) :
    le_bytes bytes.length (of_le_bytes bytes) = bytes := by
  induction bytes with
  | nil => rfl
  | cons b bytes ih =>
    have hb := b.toNat_lt
    have hdiv : (b.toNat + 256 * of_le_bytes bytes) / 256 = of_le_bytes bytes := by omega
    have hlow : UInt8.ofNat (b.toNat + 256 * of_le_bytes bytes) = b := by
      apply UInt8.toNat_inj.1
      rw [UInt8.toNat_ofNat']
      omega
    rw [length_cons, of_le_bytes, le_bytes, hlow, hdiv, ih]

/-- The first bytes of a number do not depend on how many there are. -/
theorem take_le_bytes {n len : Nat} (h : n ≤ len) (v : Nat) :
    (le_bytes len v).take n = le_bytes n v := by
  induction n generalizing len v with
  | zero => rw [take_zero, le_bytes]
  | succ n ih =>
    cases len with
    | zero => omega
    | succ len => rw [le_bytes, take_succ_cons, ih (by omega), le_bytes]

theorem of_le_bytes_append (xs ys : List UInt8) :
    of_le_bytes (xs ++ ys) = of_le_bytes xs + 256 ^ xs.length * of_le_bytes ys := by
  induction xs with
  | nil => simp [of_le_bytes]
  | cons b xs ih =>
    rw [cons_append, of_le_bytes, ih, of_le_bytes, length_cons, pow_succ]
    ring

/-- Zeros at the top do not count. -/
theorem of_le_bytes_append_zeros (bytes : List UInt8) (k : Nat) :
    of_le_bytes (bytes ++ List.replicate k 0) = of_le_bytes bytes := by
  induction bytes with
  | nil =>
    induction k with
    | zero => rfl
    | succ k ih =>
      rw [nil_append] at ih ⊢
      show 0 + 256 * of_le_bytes (List.replicate k 0) = 0
      rw [ih]
      rfl
  | cons b bytes ih => rw [cons_append, of_le_bytes, ih, of_le_bytes]

end LittleEndian
