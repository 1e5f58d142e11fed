import Fors.Lib.LittleEndian
import Mathlib.Data.BitVec
import Mathlib.Data.Nat.Find
import Mathlib.NumberTheory.PrimeCounting

/-!
# The SHA-256 standard

FIPS 180-4 for messages of whole bytes: the functions and the constants of section 4, the padding of
section 5, and the schedule and the rounds of section 6.

Principal result: `blocks_append`.
-/

namespace Sha256

open LittleEndian List

abbrev Word := BitVec 32

/-! ## Functions -/

def ROTR (n : Nat) (x : Word) : Word :=
  x >>> n ||| x <<< (32 - n)

def SHR (n : Nat) (x : Word) : Word :=
  x >>> n

def Ch (x y z : Word) : Word :=
  (x &&& y) ^^^ (~~~x &&& z)

def Maj (x y z : Word) : Word :=
  (x &&& y) ^^^ (x &&& z) ^^^ (y &&& z)

def Sigma0 (x : Word) : Word :=
  ROTR 2 x ^^^ ROTR 13 x ^^^ ROTR 22 x

def Sigma1 (x : Word) : Word :=
  ROTR 6 x ^^^ ROTR 11 x ^^^ ROTR 25 x

def sigma0 (x : Word) : Word :=
  ROTR 7 x ^^^ ROTR 18 x ^^^ SHR 3 x

def sigma1 (x : Word) : Word :=
  ROTR 17 x ^^^ ROTR 19 x ^^^ SHR 10 x

/-! ## Constants -/

/-- The `k`-th root of a number, rounded down. -/
def root (k n : Nat) : Nat :=
  Nat.findGreatest (fun r => r ^ k ≤ n) n

theorem root_eq {k n r : Nat} (hk : k ≠ 0) (hle : r ^ k ≤ n) (hlt : n < (r + 1) ^ k) :
    root k n = r := by
  unfold root
  rw [Nat.findGreatest_eq_iff]
  refine ⟨?_, fun _ => hle, ?_⟩
  · calc r ≤ r ^ k := Nat.le_self_pow hk r
      _ ≤ n := hle
  · intro m hm _ hpow
    have hmono : (r + 1) ^ k ≤ m ^ k := Nat.pow_le_pow_left hm k
    omega

/-- The first thirty-two bits of the fractional part of the `k`-th root of a number. -/
def fraction (k n : Nat) : Word :=
  BitVec.ofNat 32 (root k (n * 2 ^ (32 * k)))

theorem fraction_eq {k n int : Nat} {w : Word} (hk : k ≠ 0)
    (hle : (int * 2 ^ 32 + w.toNat) ^ k ≤ n * 2 ^ (32 * k))
    (hlt : n * 2 ^ (32 * k) < (int * 2 ^ 32 + w.toNat + 1) ^ k) : fraction k n = w := by
  unfold fraction
  rw [root_eq hk hle hlt]
  apply BitVec.eq_of_toNat_eq
  rw [BitVec.toNat_ofNat, Nat.mul_add_mod_of_lt]
  exact w.isLt

/-- The cube roots of the first primes. -/
noncomputable def K (t : Nat) : Word :=
  fraction 3 (Nat.nth Nat.Prime t)

/-! ## Words and blocks -/

/-- The words that the rounds work on. -/
structure State where
  a : Word
  b : Word
  c : Word
  d : Word
  e : Word
  f : Word
  g : Word
  h : Word

/-- The square roots of the first eight primes. -/
noncomputable def H0 : State where
  a := fraction 2 (Nat.nth Nat.Prime 0)
  b := fraction 2 (Nat.nth Nat.Prime 1)
  c := fraction 2 (Nat.nth Nat.Prime 2)
  d := fraction 2 (Nat.nth Nat.Prime 3)
  e := fraction 2 (Nat.nth Nat.Prime 4)
  f := fraction 2 (Nat.nth Nat.Prime 5)
  g := fraction 2 (Nat.nth Nat.Prime 6)
  h := fraction 2 (Nat.nth Nat.Prime 7)

def State.words (s : State) : List Word :=
  [s.a, s.b, s.c, s.d, s.e, s.f, s.g, s.h]

/-- The bytes of a number, the highest first. -/
def be_bytes (len v : Nat) : List UInt8 :=
  (le_bytes len v).reverse

/-- The number of a list of bytes, the highest first. -/
def of_be_bytes (bytes : List UInt8) : Nat :=
  of_le_bytes bytes.reverse

/-- Word `t` of a block. -/
def word (block : List UInt8) (t : Nat) : Word :=
  BitVec.ofNat 32 (of_be_bytes ((block.drop (4 * t)).take 4))

/-- The blocks of `n` entries that a list begins with. -/
def blocks {α : Type*} (n : Nat) (xs : List α) : List (List α) :=
  (List.range (xs.length / n)).map fun i => (xs.drop (n * i)).take n

/-! ## Padding -/

/-- The zeros behind the first bit of the padding. -/
def zeros (len : Nat) : Nat :=
  (119 - len % 64) % 64

def pad (message : List UInt8) : List UInt8 :=
  message ++ 0x80 :: List.replicate (zeros message.length) 0 ++ be_bytes 8 (8 * message.length)

/-! ## The hash -/

/-- The message schedule of a block. -/
def W (block : List UInt8) (t : Nat) : Word :=
  if t < 16 then word block t
  else sigma1 (W block (t - 2)) + W block (t - 7) + sigma0 (W block (t - 15)) + W block (t - 16)
termination_by t

def round (k w : Word) (s : State) : State :=
  let T1 := s.h + Sigma1 s.e + Ch s.e s.f s.g + k + w
  let T2 := Sigma0 s.a + Maj s.a s.b s.c
  { a := T1 + T2, b := s.a, c := s.b, d := s.c, e := s.d + T1, f := s.e, g := s.f, h := s.g }

/-- The state after the first rounds. -/
noncomputable def rounds (block : List UInt8) (s : State) : Nat → State
  | 0 => s
  | t + 1 => round (K t) (W block t) (rounds block s t)

noncomputable def compression (H : State) (block : List UInt8) : State :=
  let s := rounds block H 64
  { a := s.a + H.a, b := s.b + H.b, c := s.c + H.c, d := s.d + H.d
    e := s.e + H.e, f := s.f + H.f, g := s.g + H.g, h := s.h + H.h }

noncomputable def digest (message : List UInt8) : List UInt8 :=
  ((blocks 64 (pad message)).foldl compression H0).words.flatMap fun w => be_bytes 4 w.toNat

/-! ## Blocks of a list -/

section Blocks

variable {α : Type*} {n : Nat} {xs ys : List α}

theorem length_of_mem_blocks {block : List α} (h : block ∈ blocks n xs) : block.length = n := by
  obtain ⟨i, hi, rfl⟩ := mem_map.mp h
  have hbound : n * (i + 1) ≤ n * (xs.length / n) := Nat.mul_le_mul_left n (mem_range.mp hi)
  have hdiv := Nat.mul_div_le xs.length n
  rw [Nat.mul_succ] at hbound
  rw [length_take, length_drop]
  omega

/-- Whole blocks in front stay blocks. -/
theorem blocks_append (h : n ∣ xs.length) : blocks n (xs ++ ys) = blocks n xs ++ blocks n ys := by
  obtain ⟨k, hk⟩ := h
  cases n with
  | zero =>
    unfold blocks
    rw [Nat.div_zero, Nat.div_zero, Nat.div_zero]
    rfl
  | succ n =>
    unfold blocks
    have hfront : xs.length / (n + 1) = k := by rw [hk, Nat.mul_div_cancel_left k n.succ_pos]
    have hcount : (xs ++ ys).length / (n + 1) = k + ys.length / (n + 1) := by
      rw [length_append, hk, Nat.mul_add_div n.succ_pos]
    rw [hfront, hcount, range_add, map_append, map_map]
    congr 1
    · apply map_congr_left
      intro i hi
      have hbound : (n + 1) * (i + 1) ≤ (n + 1) * k :=
        Nat.mul_le_mul_left (n + 1) (mem_range.mp hi)
      rw [Nat.mul_succ] at hbound
      rw [drop_append_of_le_length (by omega), take_append_of_le_length]
      rw [length_drop]
      omega
    · apply map_congr_left
      intro i _
      have hsplit : (n + 1) * (k + i) = xs.length + (n + 1) * i := by rw [hk, Nat.mul_add]
      show ((xs ++ ys).drop ((n + 1) * (k + i))).take (n + 1) = _
      rw [hsplit, drop_length_add_append]

end Blocks

end Sha256
