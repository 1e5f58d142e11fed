import Mathlib.Data.BitVec
import Mathlib.Data.Fin.Basic

/-!
# Operands

Registers, condition codes, shifts, extends and the validated immediate wrappers of the assembler.
Each wrapper is built by its `new`, which rejects what its field cannot hold, and says what bits it
puts into the word.

A `u32` that is a word or a part of one is a `BitVec 32`; an `i64` is an `Int`.

Sources: `crates/fors-asm/src/operand.rs`, `crates/fors-asm/src/reg.rs`.
-/

namespace Fors.Asm

abbrev Word := BitVec 32

-- the literals of a register's number and of a shift's field
theorem neZero_num : NeZero 32 := ⟨by decide⟩

theorem neZero_raw : NeZero 64 := ⟨by decide⟩

/-- "Encoding failures." -/
inductive EncodeError where
  | ImmediateOutOfRange (what : String) (value : Int)
  | UnencodableLogicalImmediate (value : BitVec 64) (is64 : Bool)
  | MisalignedOffset (what : String) (value : Int)
  | InvalidShiftForForm (what : String)
  | RegisterWidthMismatch (what : String)
  | InvalidRegisterForForm (what : String)
  deriving DecidableEq

abbrev Result (α : Type) := Except EncodeError α

/-- `b as u32`. -/
def as_u32 (b : Bool) : Word := if b then 1 else 0

/-! ## Registers -/

/-- A general-purpose register: `is_sp` says which of the two registers number 31 is. -/
structure Reg where
  num : Fin 32
  is64 : Bool
  sp_flag : Bool
  deriving DecidableEq

namespace Reg

/-- `X0`-`X30`: the assertion of the source is the type of `n`. -/
def x (n : Fin 31) : Reg := ⟨n.castSucc, true, false⟩

def w (n : Fin 31) : Reg := ⟨n.castSucc, false, false⟩

def sp : Reg := ⟨31, true, true⟩

def wsp : Reg := ⟨31, false, true⟩

def xzr : Reg := ⟨31, true, false⟩

def wzr : Reg := ⟨31, false, false⟩

def is_sp (r : Reg) : Bool := r.num = 31 ∧ r.sp_flag

def is_zr (r : Reg) : Bool := r.num = 31 ∧ ¬ r.sp_flag

def encoding (r : Reg) : Word := BitVec.ofFin (r.num.castLE (by decide))

def with64 (r : Reg) (is64 : Bool) : Reg := ⟨r.num, is64, r.sp_flag⟩

end Reg

/-- Scalar floating-point register width. -/
inductive FpWidth where
  | S
  | D
  deriving DecidableEq

structure FpReg where
  num : Fin 32
  width : FpWidth
  deriving DecidableEq

namespace FpReg

def s (n : Fin 32) : FpReg := ⟨n, .S⟩

def d (n : Fin 32) : FpReg := ⟨n, .D⟩

def is_double (r : FpReg) : Bool := r.width = .D

def encoding (r : FpReg) : Word := BitVec.ofFin (r.num.castLE (by decide))

end FpReg

/-! ## Condition codes, shifts and extends -/

/-- "The 16 AArch64 condition codes." -/
structure Cond where
  bits : Fin 16
  deriving DecidableEq

namespace Cond

def EQ : Cond := ⟨0b0000⟩
def NE : Cond := ⟨0b0001⟩
def CS : Cond := ⟨0b0010⟩
def CC : Cond := ⟨0b0011⟩
def MI : Cond := ⟨0b0100⟩
def PL : Cond := ⟨0b0101⟩
def VS : Cond := ⟨0b0110⟩
def VC : Cond := ⟨0b0111⟩
def HI : Cond := ⟨0b1000⟩
def LS : Cond := ⟨0b1001⟩
def GE : Cond := ⟨0b1010⟩
def LT : Cond := ⟨0b1011⟩
def GT : Cond := ⟨0b1100⟩
def LE : Cond := ⟨0b1101⟩
def AL : Cond := ⟨0b1110⟩
def NV : Cond := ⟨0b1111⟩

def code (c : Cond) : Word := BitVec.ofFin (c.bits.castLE (by decide))

/-- "Flips the least-significant bit." -/
def inverted (c : Cond) : Cond := ⟨c.bits ^^^ 1⟩

end Cond

/-- Shift kind for shifted-register data-processing instructions. -/
inductive ShiftKind where
  | Lsl
  | Lsr
  | Asr
  | Ror
  deriving DecidableEq

def ShiftKind.encoding : ShiftKind → Word
  | .Lsl => 0b00
  | .Lsr => 0b01
  | .Asr => 0b10
  | .Ror => 0b11

/-- A validated `<shift> #<amount>` for a shifted-register operand. -/
structure RegShift where
  kind : ShiftKind
  raw : Fin 64
  deriving DecidableEq

namespace RegShift

def new (kind : ShiftKind) (amount : Nat) (is64 : Bool) : Result RegShift :=
  let max := if is64 then 63 else 31
  if h : amount ≤ max then .ok ⟨kind, ⟨amount, by dsimp only [max] at h; split at h <;> omega⟩⟩
  else .error (.ImmediateOutOfRange "shifted-register amount" amount)

def none : RegShift := ⟨.Lsl, 0⟩

def amount (s : RegShift) : Word := BitVec.ofFin (s.raw.castLE (by decide))

end RegShift

/-- Extend kind for extended-register `ADD`/`SUB` (and their `CMP`/`CMN` aliases). -/
inductive ExtendKind where
  | Uxtb
  | Uxth
  | Uxtw
  | Uxtx
  | Sxtb
  | Sxth
  | Sxtw
  | Sxtx
  deriving DecidableEq

def ExtendKind.encoding : ExtendKind → Word
  | .Uxtb => 0b000
  | .Uxth => 0b001
  | .Uxtw => 0b010
  | .Uxtx => 0b011
  | .Sxtb => 0b100
  | .Sxth => 0b101
  | .Sxtw => 0b110
  | .Sxtx => 0b111

/-- A validated `<extend> {#amount}` for an extended-register operand. -/
structure RegExtend where
  kind : ExtendKind
  raw : Fin 5
  deriving DecidableEq

namespace RegExtend

def new (kind : ExtendKind) (amount : Nat) : Result RegExtend :=
  if h : amount ≤ 4 then .ok ⟨kind, ⟨amount, by omega⟩⟩
  else .error (.ImmediateOutOfRange "extended-register amount" amount)

def amount (e : RegExtend) : Word := BitVec.ofFin (e.raw.castLE (by decide))

end RegExtend

/-! ## Immediates -/

/-- "A 12-bit unsigned immediate for `ADD`/`SUB` (immediate)". -/
structure Uimm12Lsl where
  bits : Fin 4096
  shift12 : Bool
  deriving DecidableEq

namespace Uimm12Lsl

def new (value : BitVec 64) : Result Uimm12Lsl :=
  if h : value.toNat ≤ 0xFFF then .ok ⟨⟨value.toNat, by omega⟩, false⟩
  else if h : value &&& 0xFFF = 0 ∧ (value >>> 12).toNat ≤ 0xFFF then
    .ok ⟨⟨(value >>> 12).toNat, by omega⟩, true⟩
  else .error (.ImmediateOutOfRange "ADD/SUB immediate" value.toInt)

def raw (i : Uimm12Lsl) : Word := BitVec.ofFin (i.bits.castLE (by decide))

end Uimm12Lsl

/-- Rotates the low `width` bits of `x` right by `amount`. -/
def ror (x : BitVec 64) (amount width : Nat) : BitVec 64 :=
  let mask : BitVec 64 := if width = 64 then -1 else (1#64 <<< width) - 1
  let x := x &&& mask
  let amount := amount % width
  if amount = 0 then x else (x >>> amount) ||| (x <<< (width - amount)) &&& mask

/-- The doublings of `replicate`: a width reaches `total` in at most 64 of them. -/
def replicate_from (total : Nat) : Nat → BitVec 64 → Nat → BitVec 64
  | 0, result, _ => result
  | fuel + 1, result, filled =>
    if filled < total then replicate_from total fuel (result ||| result <<< filled) (filled * 2)
    else result

/-- Tiles a `width`-bit pattern across `total` bits. -/
def replicate (pattern : BitVec 64) (width total : Nat) : BitVec 64 :=
  let result := replicate_from total 64 pattern width
  if total = 64 then result else result &&& ((1#64 <<< total) - 1)

/-- "Decodes `(N, immr, imms)` into the 32- or 64-bit pattern it represents". -/
def decode_bitmask (n : Fin 2) (immr imms : Fin 64) (reg_size : Nat) : Option (BitVec 64) :=
  let concat := n.val * 64 + (63 - imms.val)
  if concat = 0 then none
  else
    let len := Nat.log2 concat
    if len < 1 then none
    else
      let size := 2 ^ len
      if size > reg_size then none
      else
        let levels := size - 1
        let s := imms.val &&& levels
        let r := immr.val &&& levels
        if s = levels then none
        else some (replicate (ror ((1#64 <<< (s + 1)) - 1) r size) size reg_size)

/-- "Searches for an `(N, immr, imms)` triple that decodes to `value` at the given register size." -/
def encode_bitmask (value : BitVec 64) (reg_size : Nat) : Option (Fin 2 × Fin 64 × Fin 64) :=
  let all_ones : BitVec 64 := if reg_size = 64 then -1 else (1#64 <<< reg_size) - 1
  if value = 0 ∨ value = all_ones then none
  else
    let n_choices : List (Fin 2) := if reg_size = 64 then [1, 0] else [0]
    n_choices.findSome? fun n => (List.finRange 64).findSome? fun immr =>
      (List.finRange 64).findSome? fun imms =>
        if decode_bitmask n immr imms reg_size = some value then some (n, immr, imms) else none

/-- "A validated AArch64 bitmask immediate". -/
structure LogicalImm where
  n_bit : Fin 2
  rotate : Fin 64
  ones : Fin 64
  is64 : Bool
  value : BitVec 64
  deriving DecidableEq

namespace LogicalImm

def new (value : BitVec 64) (is64 : Bool) : Result LogicalImm :=
  let reg_size := if is64 then 64 else 32
  let target := if is64 then value else (value.setWidth 32).setWidth 64
  match encode_bitmask target reg_size with
  | some (n, immr, imms) => .ok ⟨n, immr, imms, is64, target⟩
  | none => .error (.UnencodableLogicalImmediate target is64)

def n (i : LogicalImm) : Word := BitVec.ofFin (i.n_bit.castLE (by decide))

def immr (i : LogicalImm) : Word := BitVec.ofFin (i.rotate.castLE (by decide))

def imms (i : LogicalImm) : Word := BitVec.ofFin (i.ones.castLE (by decide))

end LogicalImm

/-- "A signed, word-aligned PC-relative branch offset (bytes), validated to fit `bits` bits once
divided by 4." -/
structure BranchOffset where
  bits : Nat
  word_off : BitVec 32
  deriving DecidableEq

namespace BranchOffset

def new (bytes : Int) (bits : Nat) (what : String) : Result BranchOffset :=
  if bytes.tmod 4 ≠ 0 then .error (.MisalignedOffset what bytes)
  else
    let word_off := bytes.tdiv 4
    let min := -(2 ^ (bits - 1) : Int)
    let max := (2 ^ (bits - 1) : Int) - 1
    if word_off < min ∨ word_off > max then .error (.ImmediateOutOfRange what bytes)
    else .ok ⟨bits, .ofInt 32 word_off⟩

/-- A shift by 32 or more, which an overflow check would stop, wraps. -/
def encoding (o : BranchOffset) : Word := o.word_off &&& ((1#32 <<< (o.bits % 32)) - 1)

def bytes (o : BranchOffset) : Int := o.word_off.toInt * 4

end BranchOffset

/-- "A signed *byte* offset for `ADR` (21 bits, no alignment requirement)". -/
structure AdrOffset where
  bytes : BitVec 32
  deriving DecidableEq

namespace AdrOffset

def new (bytes : Int) : Result AdrOffset :=
  if ¬ (-(2 ^ 20 : Int) ≤ bytes ∧ bytes < 2 ^ 20) then
    .error (.ImmediateOutOfRange "ADR offset" bytes)
  else .ok ⟨.ofInt 32 bytes⟩

/-- `(immlo, immhi)` -/
def encoding (o : AdrOffset) : Word × Word :=
  let imm21 := o.bytes &&& 0x1FFFFF
  (imm21 &&& 0b11, imm21 >>> 2)

end AdrOffset

/-- "A signed *page count* for `ADRP` (21 bits)". -/
structure AdrpOffset where
  pages : BitVec 32
  deriving DecidableEq

namespace AdrpOffset

def new (pages : Int) : Result AdrpOffset :=
  if ¬ (-(2 ^ 20 : Int) ≤ pages ∧ pages < 2 ^ 20) then
    .error (.ImmediateOutOfRange "ADRP page offset" pages)
  else .ok ⟨.ofInt 32 pages⟩

def encoding (o : AdrpOffset) : Word × Word :=
  let imm21 := o.pages &&& 0x1FFFFF
  (imm21 &&& 0b11, imm21 >>> 2)

end AdrpOffset

/-- "A signed offset for unscaled loads/stores (`LDUR`/`STUR`) and pre/post-indexed addressing". -/
structure Simm9 where
  value : BitVec 16
  deriving DecidableEq

namespace Simm9

def new (bytes : Int) : Result Simm9 :=
  if ¬ (-256 ≤ bytes ∧ bytes < 256) then
    .error (.ImmediateOutOfRange "unscaled/indexed offset (simm9)" bytes)
  else .ok ⟨.ofInt 16 bytes⟩

def encoding (o : Simm9) : Word := o.value.signExtend 32 &&& 0x1FF

end Simm9

/-- "An unsigned, size-scaled offset for `LDR`/`STR` unsigned-offset form". -/
structure UScaledImm12 where
  scaled : BitVec 16
  access_size : Nat
  deriving DecidableEq

namespace UScaledImm12

def new (bytes : Int) (access_size : Nat) : Result UScaledImm12 :=
  if bytes < 0 ∨ bytes.toNat % access_size ≠ 0 then
    .error (.MisalignedOffset "LDR/STR unsigned-offset" bytes)
  else
    let scaled := bytes.toNat / access_size
    if scaled > 0xFFF then .error (.ImmediateOutOfRange "LDR/STR unsigned-offset" bytes)
    else .ok ⟨.ofNat 16 scaled, access_size⟩

def encoding (o : UScaledImm12) : Word := o.scaled.setWidth 32

def bytes (o : UScaledImm12) : Int := o.scaled.toNat * o.access_size

end UScaledImm12

/-- "A signed, size-scaled 7-bit offset for `LDP`/`STP`." -/
structure SImm7Scaled where
  scaled : BitVec 8
  access_size : Nat
  deriving DecidableEq

namespace SImm7Scaled

def new (bytes : Int) (access_size : Nat) : Result SImm7Scaled :=
  if bytes.tmod access_size ≠ 0 then .error (.MisalignedOffset "LDP/STP offset" bytes)
  else
    let scaled := bytes.tdiv access_size
    if ¬ (-64 ≤ scaled ∧ scaled < 64) then .error (.ImmediateOutOfRange "LDP/STP offset" bytes)
    else .ok ⟨.ofInt 8 scaled, access_size⟩

def encoding (o : SImm7Scaled) : Word := o.scaled.signExtend 32 &&& 0x7F

def bytes (o : SImm7Scaled) : Int := o.scaled.toInt * o.access_size

end SImm7Scaled

/-- "A validated `FMOV` 8-bit float immediate, plus the width it was validated for". -/
structure FpImm8 where
  imm8 : BitVec 8
  is64 : Bool
  bits : BitVec 64
  deriving DecidableEq

namespace FpImm8

/-- "Expands `imm8` to the 32- or 64-bit float bit pattern it represents." -/
def expand (imm8 : BitVec 8) (is64 : Bool) : BitVec 64 :=
  let sign : BitVec 64 := ((imm8 >>> 7) &&& 1).setWidth 64
  let b : BitVec 8 := (imm8 >>> 6) &&& 1
  let cd : BitVec 64 := ((imm8 >>> 4) &&& 0b11).setWidth 64
  let efgh : BitVec 64 := (imm8 &&& 0xF).setWidth 64
  let not_b : BitVec 64 := (1 - b.setWidth 64) &&& 1
  if is64 then
    let rep_b : BitVec 64 := if b = 1 then 0xFF else 0
    (sign <<< 63) ||| (((not_b <<< 10) ||| (rep_b <<< 2) ||| cd) <<< 52) ||| (efgh <<< 48)
  else
    let rep_b : BitVec 64 := if b = 1 then 0x1F else 0
    (sign <<< 31) ||| (((not_b <<< 7) ||| (rep_b <<< 2) ||| cd) <<< 23) ||| (efgh <<< 19)

def from_bits (bits : BitVec 64) (is64 : Bool) : Result FpImm8 :=
  let target := if is64 then bits else bits &&& 0xFFFFFFFF
  match (List.range 256).find? fun imm8 => expand (.ofNat 8 imm8) is64 = target with
  | some imm8 => .ok ⟨.ofNat 8 imm8, is64, target⟩
  | none => .error (.ImmediateOutOfRange
      "FMOV immediate (not one of the 256 representable values)" target.toInt)

def encoding (i : FpImm8) : Word := i.imm8.setWidth 32

end FpImm8

end Fors.Asm
