import Fors.Lib.Floats

/-!
# Fixed-width arithmetic

The operators of the fixed-width types as a debug build runs them: a result that does not fit and a
shift that is too long end the run.
-/

namespace Fors.Interp

open Floats

inductive Panic where
  | overflow
  | shift
  | divisor
  | assertion
  | fuel
  deriving DecidableEq

abbrev Checked := Except Panic

def u128_mul (x y : Nat) : Checked Nat :=
  if x * y < 2 ^ 128 then .ok (x * y) else .error .overflow

def u32_sub (x y : Nat) : Checked Nat :=
  if y ≤ x then .ok (x - y) else .error .overflow

/-- The result of an `i32` operation. -/
def i32 (x : Int) : Checked Int :=
  if -2 ^ 31 ≤ x ∧ x < 2 ^ 31 then .ok x else .error .overflow

def rem (x m : Nat) : Checked Nat :=
  if m = 0 then .error .divisor else .ok (x % m)

def shl (width x count : Nat) : Checked Nat :=
  if count < width then .ok (x <<< count % 2 ^ width) else .error .shift

/-- The cast of a signed integer to an unsigned one. -/
def as_unsigned (width : Nat) (x : Int) : Nat :=
  (x % 2 ^ width).toNat

def u64_leading_zeros (x : Nat) : Nat :=
  if x = 0 then 64 else 63 - Nat.log2 x

theorem bind_ok {α β : Type} (a : α) (f : α → Checked β) : (Except.ok a >>= f) = f a :=
  rfl

theorem u128_mul_eq {x y : Nat} (h : x * y < 2 ^ 128) : u128_mul x y = .ok (x * y) :=
  if_pos h

theorem u32_sub_eq {x y : Nat} (h : y ≤ x) : u32_sub x y = .ok (x - y) :=
  if_pos h

theorem i32_eq {x : Int} (hlo : -2 ^ 31 ≤ x) (hhi : x < 2 ^ 31) : i32 x = .ok x :=
  if_pos ⟨hlo, hhi⟩

theorem rem_eq {x m : Nat} (h : 0 < m) : rem x m = .ok (x % m) :=
  if_neg (by omega)

theorem shl_eq {width x count : Nat} (h : count < width) (hx : x * 2 ^ count < 2 ^ width) :
    shl width x count = .ok (x * 2 ^ count) := by
  unfold shl
  rw [if_pos h, Nat.shiftLeft_eq, Nat.mod_eq_of_lt hx]

theorem as_unsigned_eq {width : Nat} {x : Int} (hlo : 0 ≤ x) (hhi : x < 2 ^ width) :
    as_unsigned width x = x.toNat := by
  unfold as_unsigned
  rw [Int.emod_eq_of_lt hlo hhi]

/-! ## Float formats -/

def binary64 : Format := ⟨52, 11, by decide, by decide⟩

def binary32 : Format := ⟨23, 8, by decide, by decide⟩

abbrev F64 := Binary binary64

abbrev F32 := Binary binary32

def CANONICAL_F64_NAN : Nat := 0x7FF8000000000000

def CANONICAL_F32_NAN : Nat := 0x7FC00000

theorem binary64_lsb : binary64.lsb = -1074 :=
  rfl

theorem binary32_lsb : binary32.lsb = -149 :=
  rfl

end Fors.Interp
