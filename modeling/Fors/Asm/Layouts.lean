import Fors.Asm.Built
import Fors.Asm.Encode
import Fors.Lib.Packing

/-!
# The layout of each encoding shape

A word of `encode` is the layout of the instruction's shape, filled with the instruction's values.
No word belongs to two shapes, unless a branch offset spills out of its field.

Principal results: `values_eq` and `encode_word_ne`.
-/

namespace Fors.Asm

open Packing

inductive LdStForm where
  | UnsignedOffset
  | Unscaled
  | PreIndex
  | PostIndex
  | RegOffset
  deriving DecidableEq

/-- An encoding shape: which bits are fixed. -/
inductive Shape where
  | MovWide
  | AddSubImm
  | AddSubShiftedReg
  | AddSubExtendedReg
  | LogicalImmInst
  | LogicalShiftedReg
  | Bitfield
  | DataProc2Source
  | DataProc3Source
  | DataProc1Source
  | CondSelect
  | Adr
  | Adrp
  | Branch
  | BranchCond
  | CompareBranch
  | TestBranch
  | BranchReg
  | BranchLinkReg
  | Ret
  | LoadStore (fp : Bool) (form : LdStForm)
  | LoadStorePair
  | Nop
  | Brk
  | Svc
  | Udf
  | FpDataProc1
  | FpConvert
  | FpDataProc2
  | FpCompare
  | FpCondSelect
  | FpImmMove
  | FpToGp
  | GpToFp
  | FpIntConvert
  | FpMadd
  deriving DecidableEq

def LdStForm.all : List LdStForm := [.UnsignedOffset, .Unscaled, .PreIndex, .PostIndex, .RegOffset]

def Shape.all : List Shape :=
  [.MovWide, .AddSubImm, .AddSubShiftedReg, .AddSubExtendedReg, .LogicalImmInst, .LogicalShiftedReg,
    .Bitfield, .DataProc2Source, .DataProc3Source, .DataProc1Source, .CondSelect, .Adr, .Adrp, .Branch,
    .BranchCond, .CompareBranch, .TestBranch, .BranchReg, .BranchLinkReg, .Ret, .LoadStorePair, .Nop,
    .Brk, .Svc, .Udf, .FpDataProc1, .FpConvert, .FpDataProc2, .FpCompare, .FpCondSelect, .FpImmMove,
    .FpToGp, .GpToFp, .FpIntConvert, .FpMadd] ++
    LdStForm.all.map (.LoadStore false) ++ LdStForm.all.map (.LoadStore true)

theorem Shape.mem_all (s : Shape) : s ∈ Shape.all := by
  cases s with
  | LoadStore fp form => cases fp <;> cases form <;> decide
  | _ => decide

def AddrMode.form : AddrMode → LdStForm
  | .UnsignedOffset _ => .UnsignedOffset
  | .Unscaled _ => .Unscaled
  | .PreIndex _ => .PreIndex
  | .PostIndex _ => .PostIndex
  | .RegOffset _ => .RegOffset

def shape : Inst → Shape
  | .MovWide .. => .MovWide
  | .AddSubImm .. => .AddSubImm
  | .AddSubShiftedReg .. => .AddSubShiftedReg
  | .AddSubExtendedReg .. => .AddSubExtendedReg
  | .LogicalImmInst .. => .LogicalImmInst
  | .LogicalShiftedReg .. => .LogicalShiftedReg
  | .Bitfield .. => .Bitfield
  | .DataProc2Source .. => .DataProc2Source
  | .DataProc3Source .. => .DataProc3Source
  | .DataProc1Source .. => .DataProc1Source
  | .CondSelect .. => .CondSelect
  | .Adr .. => .Adr
  | .Adrp .. => .Adrp
  | .Branch .. => .Branch
  | .BranchCond .. => .BranchCond
  | .CompareBranch .. => .CompareBranch
  | .TestBranch .. => .TestBranch
  | .BranchReg _ => .BranchReg
  | .BranchLinkReg _ => .BranchLinkReg
  | .Ret _ => .Ret
  | .LoadStoreImm _ _ _ mode => .LoadStore false mode.form
  | .LoadStorePair .. => .LoadStorePair
  | .FpLoadStoreImm _ _ _ mode => .LoadStore true mode.form
  | .System .Nop => .Nop
  | .System (.Brk _) => .Brk
  | .System (.Svc _) => .Svc
  | .System (.Udf _) => .Udf
  | .FpDataProc1 .. => .FpDataProc1
  | .FpConvert .. => .FpConvert
  | .FpDataProc2 .. => .FpDataProc2
  | .FpCompare .. => .FpCompare
  | .FpCondSelect .. => .FpCondSelect
  | .FpImmMove .. => .FpImmMove
  | .FpToGp .. => .FpToGp
  | .GpToFp .. => .GpToFp
  | .FpIntConvert .. => .FpIntConvert
  | .FpMadd .. => .FpMadd

/-- The end of a floating-point data-processing word: `ty`, then the fixed one. -/
def fp_layout (rest : Layout 32) : Layout 32 :=
  .bits 8 0b00011110 :: .bits 1 0 :: .field 1 :: .bits 1 1 :: rest

/-- A move between the register files: `sf`, `ty`, then the fixed `opcode`. -/
def fp_gp_layout (rest : Layout 32) : Layout 32 :=
  .field 1 :: .bits 7 0b0011110 :: .bits 1 0 :: .field 1 :: .bits 1 1 :: rest

def load_store_layout (fp : Bool) : LdStForm → Layout 32
  | .UnsignedOffset => [.field 2, .bits 3 0b111, .bits 1 (as_u32 fp), .bits 2 0b01, .field 2,
      .field 12, .field 5, .field 5]
  | .Unscaled => [.field 2, .bits 3 0b111, .bits 1 (as_u32 fp), .bits 2 0b00, .field 2, .bits 1 0,
      .field 9, .bits 2 0b00, .field 5, .field 5]
  | .PostIndex => [.field 2, .bits 3 0b111, .bits 1 (as_u32 fp), .bits 2 0b00, .field 2, .bits 1 0,
      .field 9, .bits 2 0b01, .field 5, .field 5]
  | .PreIndex => [.field 2, .bits 3 0b111, .bits 1 (as_u32 fp), .bits 2 0b00, .field 2, .bits 1 0,
      .field 9, .bits 2 0b11, .field 5, .field 5]
  | .RegOffset => [.field 2, .bits 3 0b111, .bits 1 (as_u32 fp), .bits 2 0b00, .field 2, .bits 1 1,
      .field 5, .field 3, .field 1, .bits 2 0b10, .field 5, .field 5]

def layout : Shape → Layout 32
  | .MovWide => [.field 1, .field 2, .bits 6 0b100101, .field 2, .field 16, .field 5]
  | .AddSubImm => [.field 1, .field 1, .field 1, .bits 6 0b100010, .field 1, .field 12, .field 5,
      .field 5]
  | .AddSubShiftedReg => [.field 1, .field 1, .field 1, .bits 5 0b01011, .field 2, .bits 1 0,
      .field 5, .field 6, .field 5, .field 5]
  | .AddSubExtendedReg => [.field 1, .field 1, .field 1, .bits 5 0b01011, .bits 2 0, .bits 1 1,
      .field 5, .field 3, .field 3, .field 5, .field 5]
  | .LogicalImmInst => [.field 1, .field 2, .bits 6 0b100100, .field 1, .field 6, .field 6, .field 5,
      .field 5]
  | .LogicalShiftedReg => [.field 1, .field 2, .bits 5 0b01010, .field 2, .field 1, .field 5,
      .field 6, .field 5, .field 5]
  | .Bitfield => [.field 1, .field 2, .bits 6 0b100110, .field 1, .field 6, .field 6, .field 5,
      .field 5]
  | .DataProc2Source => [.field 1, .bits 2 0, .bits 8 0b11010110, .field 5, .field 6, .field 5,
      .field 5]
  | .DataProc3Source => [.field 1, .bits 2 0, .bits 5 0b11011, .field 3, .field 5, .field 1, .field 5,
      .field 5, .field 5]
  | .DataProc1Source => [.field 1, .bits 1 1, .bits 1 0, .bits 8 0b11010110, .bits 5 0, .field 6,
      .field 5, .field 5]
  | .CondSelect => [.field 1, .field 1, .bits 1 0, .bits 8 0b11010100, .field 5, .field 4, .field 2,
      .field 5, .field 5]
  | .Adr => [.bits 1 0, .field 2, .bits 5 0b10000, .field 19, .field 5]
  | .Adrp => [.bits 1 1, .field 2, .bits 5 0b10000, .field 19, .field 5]
  | .Branch => [.field 1, .bits 5 0b00101, .field 26]
  | .BranchCond => [.bits 7 0b0101010, .bits 1 0, .field 19, .bits 1 0, .field 4]
  | .CompareBranch => [.field 1, .bits 6 0b011010, .field 1, .field 19, .field 5]
  | .TestBranch => [.field 1, .bits 6 0b011011, .field 1, .field 5, .field 14, .field 5]
  | .BranchReg => [.bits 22 (0xD61F0000 >>> 10), .field 5, .bits 5 0]
  | .BranchLinkReg => [.bits 22 (0xD63F0000 >>> 10), .field 5, .bits 5 0]
  | .Ret => [.bits 22 (0xD65F0000 >>> 10), .field 5, .bits 5 0]
  | .LoadStore fp form => load_store_layout fp form
  | .LoadStorePair => [.field 2, .bits 3 0b101, .bits 2 0, .field 2, .field 1, .field 7, .field 5,
      .field 5, .field 5]
  | .Nop => [.bits 32 0xD503201F]
  | .Brk => [.bits 11 (0xD4200000 >>> 21), .field 16, .bits 5 0]
  | .Svc => [.bits 11 (0xD4000001 >>> 21), .field 16, .bits 5 1]
  | .Udf => [.bits 16 0, .field 16]
  | .FpDataProc1 => fp_layout [.bits 4 0, .field 2, .bits 5 0b10000, .field 5, .field 5]
  | .FpConvert => fp_layout [.bits 5 0b00010, .field 1, .bits 5 0b10000, .field 5, .field 5]
  | .FpDataProc2 => fp_layout [.field 5, .field 4, .bits 2 0b10, .field 5, .field 5]
  | .FpCompare => fp_layout [.field 5, .bits 6 0b1000, .field 5, .bits 5 0]
  | .FpCondSelect => fp_layout [.field 5, .field 4, .bits 2 0b11, .field 5, .field 5]
  | .FpImmMove => fp_layout [.field 8, .bits 3 0b100, .bits 5 0, .field 5]
  | .FpToGp => fp_gp_layout [.bits 2 0, .bits 3 0b110, .bits 6 0, .field 5, .field 5]
  | .GpToFp => fp_gp_layout [.bits 2 0, .bits 3 0b111, .bits 6 0, .field 5, .field 5]
  | .FpIntConvert => fp_gp_layout [.field 2, .bits 1 0, .field 2, .bits 6 0, .field 5, .field 5]
  | .FpMadd => [.bits 8 0b00011111, .bits 1 0, .field 1, .bits 1 0, .field 5, .bits 1 0, .field 5,
      .field 5, .field 5]

theorem layout_sound (s : Shape) : Sound (layout s) := by
  have hall : ∀ s ∈ Shape.all, Sound (layout s) := by decide +kernel
  exact hall s s.mem_all

theorem layout_total (s : Shape) : total (layout s) = 32 := by
  have hall : ∀ s ∈ Shape.all, total (layout s) = 32 := by decide +kernel
  exact hall s s.mem_all

/-- A word tells its shape. -/
theorem layout_apart {s t : Shape} (hne : s ≠ t) :
    zeros (layout s) &&& ones (layout t) ≠ 0 ∨ zeros (layout t) &&& ones (layout s) ≠ 0 := by
  have hall : ∀ s ∈ Shape.all, ∀ t ∈ Shape.all, s ≠ t →
      zeros (layout s) &&& ones (layout t) ≠ 0 ∨ zeros (layout t) &&& ones (layout s) ≠ 0 := by
    decide +kernel
  exact hall s s.mem_all t t.mem_all hne

/-! ## The values of an instruction -/

def MovWideOp.opc : MovWideOp → Word
  | Movn => 0b00
  | Movz => 0b10
  | Movk => 0b11

def LogicalImmOp.opc : LogicalImmOp → Word
  | And => 0b00
  | Orr => 0b01
  | Eor => 0b10
  | Ands => 0b11

def LogicalShiftOp.opc_n : LogicalShiftOp → Word × Word
  | And => (0b00, 0)
  | Bic => (0b00, 1)
  | Orr => (0b01, 0)
  | Orn => (0b01, 1)
  | Eor => (0b10, 0)
  | Eon => (0b10, 1)
  | Ands => (0b11, 0)
  | Bics => (0b11, 1)

def BitfieldOp.opc : BitfieldOp → Word
  | Sbfm => 0b00
  | Bfm => 0b01
  | Ubfm => 0b10

def DataProc2Op.opcode : DataProc2Op → Word
  | Udiv => 0b000010
  | Sdiv => 0b000011
  | Lslv => 0b001000
  | Lsrv => 0b001001
  | Asrv => 0b001010
  | Rorv => 0b001011

def DataProc3Op.op31_o0 : DataProc3Op → Word × Word
  | Madd => (0b000, 0)
  | Msub => (0b000, 1)
  | Smulh => (0b010, 0)
  | Umulh => (0b110, 0)

def DataProc1Op.opcode : DataProc1Op → Bool → Word
  | Rbit, _ => 0b000000
  | Clz, _ => 0b000100
  | Rev, is64 => if is64 then 0b000011 else 0b000010

def CondSelectOp.opbit_op2 : CondSelectOp → Word × Word
  | Csel => (0, 0b00)
  | Csinc => (0, 0b01)
  | Csinv => (1, 0b00)
  | Csneg => (1, 0b01)

def PairIndex.mode : PairIndex → Word
  | PostIndex => 0b01
  | Offset => 0b10
  | PreIndex => 0b11

def FpUnaryOp.opcode : FpUnaryOp → Word
  | Fmov => 0b00
  | Fabs => 0b01
  | Fneg => 0b10
  | Fsqrt => 0b11

def FpBinOp.opcode : FpBinOp → Word
  | Fmul => 0b0000
  | Fdiv => 0b0001
  | Fadd => 0b0010
  | Fsub => 0b0011

def FpIntConvertOp.rmode_opcode : FpIntConvertOp → Word × Word
  | Scvtf => (0b00, 0b10)
  | Ucvtf => (0b00, 0b11)
  | Fcvtzs => (0b11, 0b00)
  | Fcvtzu => (0b11, 0b01)

def AddrMode.values : AddrMode → List Word
  | .UnsignedOffset imm => [imm.encoding]
  | .Unscaled imm => [imm.encoding]
  | .PreIndex imm => [imm.encoding]
  | .PostIndex imm => [imm.encoding]
  | .RegOffset ro => [ro.rm.encoding, ro.extend.option, as_u32 ro.shifted]

/-- What fills the fields of the layout, the highest first. -/
def values : Inst → List Word
  | .MovWide op rd imm16 shift =>
    [sf rd, op.opc, BitVec.ofNat 32 (shift / 16), imm16.setWidth 32, rd.encoding]
  | .AddSubImm op set_flags rd rn imm _ =>
    [sf rd, as_u32 (op = .Sub), as_u32 set_flags, as_u32 imm.shift12, imm.raw, rn.encoding, rd.encoding]
  | .AddSubShiftedReg op set_flags rd rn rm shift _ =>
    [sf rd, as_u32 (op = .Sub), as_u32 set_flags, shift.kind.encoding, rm.encoding, shift.amount,
      rn.encoding, rd.encoding]
  | .AddSubExtendedReg op set_flags rd rn rm extend _ =>
    [sf rd, as_u32 (op = .Sub), as_u32 set_flags, rm.encoding, extend.kind.encoding, extend.amount,
      rn.encoding, rd.encoding]
  | .LogicalImmInst op rd rn imm _ =>
    [sf rd, op.opc, imm.n, imm.immr, imm.imms, rn.encoding, rd.encoding]
  | .LogicalShiftedReg op rd rn rm shift _ =>
    [sf rd, op.opc_n.1, shift.kind.encoding, op.opc_n.2, rm.encoding, shift.amount, rn.encoding,
      rd.encoding]
  | .Bitfield op rd rn immr imms _ =>
    [sf rd, op.opc, sf rd, BitVec.ofNat 32 immr.val, BitVec.ofNat 32 imms.val, rn.encoding,
      rd.encoding]
  | .DataProc2Source op rd rn rm => [sf rd, rm.encoding, op.opcode, rn.encoding, rd.encoding]
  | .DataProc3Source op rd rn rm ra _ =>
    [sf rd, op.op31_o0.1, rm.encoding, op.op31_o0.2, ra.encoding, rn.encoding, rd.encoding]
  | .DataProc1Source op rd rn => [sf rd, op.opcode rd.is64, rn.encoding, rd.encoding]
  | .CondSelect op rd rn rm cond _ =>
    [sf rd, op.opbit_op2.1, rm.encoding, cond.code, op.opbit_op2.2, rn.encoding, rd.encoding]
  | .Adr rd offset => [offset.encoding.1, offset.encoding.2, rd.encoding]
  | .Adrp rd offset => [offset.encoding.1, offset.encoding.2, rd.encoding]
  | .Branch link offset => [as_u32 link, offset.encoding]
  | .BranchCond cond offset => [offset.encoding, cond.code]
  | .CompareBranch is64 is_nonzero rt offset =>
    [as_u32 is64, as_u32 is_nonzero, offset.encoding, rt.encoding]
  | .TestBranch is_nonzero rt bit offset =>
    [BitVec.ofNat 32 (bit.val >>> 5) &&& 1, as_u32 is_nonzero, BitVec.ofNat 32 bit.val &&& 0x1F,
      offset.encoding, rt.encoding]
  | .BranchReg rn => [rn.encoding]
  | .BranchLinkReg rn => [rn.encoding]
  | .Ret rn => [rn.encoding]
  | .LoadStoreImm op rt rn mode =>
    [op.size_opc.1, op.size_opc.2] ++ mode.values ++ [rn.encoding, rt.encoding]
  | .LoadStorePair is_load is64 rt1 rt2 rn imm index =>
    [if is64 then 0b10 else 0b00, index.mode, as_u32 is_load, imm.encoding, rt2.encoding, rn.encoding,
      rt1.encoding]
  | .FpLoadStoreImm is_load rt rn mode =>
    [if rt.is_double then 0b11 else 0b10, if is_load then 0b01 else 0b00] ++ mode.values ++
      [rn.encoding, rt.encoding]
  | .System .Nop => []
  | .System (.Brk imm16) => [imm16.setWidth 32]
  | .System (.Svc imm16) => [imm16.setWidth 32]
  | .System (.Udf imm16) => [imm16.setWidth 32]
  | .FpDataProc1 op rd rn => [as_u32 rd.is_double, op.opcode, rn.encoding, rd.encoding]
  | .FpConvert rd rn => [as_u32 (!rd.is_double), as_u32 rd.is_double, rn.encoding, rd.encoding]
  | .FpDataProc2 op rd rn rm =>
    [as_u32 rd.is_double, rm.encoding, op.opcode, rn.encoding, rd.encoding]
  | .FpCompare rn rm => [as_u32 rn.is_double, rm.encoding, rn.encoding]
  | .FpCondSelect rd rn rm cond =>
    [as_u32 rd.is_double, rm.encoding, cond.code, rn.encoding, rd.encoding]
  | .FpImmMove rd imm => [as_u32 rd.is_double, imm.encoding, rd.encoding]
  | .FpToGp rd rn => [sf rd, as_u32 rn.is_double, rn.encoding, rd.encoding]
  | .GpToFp rd rn => [sf rn, as_u32 rd.is_double, rn.encoding, rd.encoding]
  | .FpIntConvert op gp fp =>
    let int_to_fp : Bool := op = .Scvtf ∨ op = .Ucvtf
    [sf gp, as_u32 fp.is_double, op.rmode_opcode.1, op.rmode_opcode.2,
      if int_to_fp then gp.encoding else fp.encoding, if int_to_fp then fp.encoding else gp.encoding]
  | .FpMadd rd rn rm ra =>
    [as_u32 rd.is_double, rm.encoding, ra.encoding, rn.encoding, rd.encoding]

theorem encode_load_store_common_eq (fp : Bool) (size opc rt : Word) (rn : Reg) (mode : AddrMode) :
    encode_load_store_common size (as_u32 fp) opc rt rn mode =
      pack (load_store_layout fp mode.form) ([size, opc] ++ mode.values ++ [rn.encoding, rt]) := by
  cases mode <;>
    simp only [encode_load_store_common, load_store_layout, AddrMode.form, AddrMode.values,
      List.cons_append, List.nil_append, pack, total, Slot.width, BitVec.or_assoc, BitVec.or_zero,
      BitVec.zero_or, BitVec.zero_shiftLeft, BitVec.ofNat_eq_ofNat, BitVec.shiftLeft_zero,
      Nat.reduceAdd]

theorem encode_word_eq (i : Inst) : encode_word i = pack (layout (shape i)) (values i) := by
  cases i with
  | LoadStoreImm op rt rn mode => exact encode_load_store_common_eq false _ _ _ rn mode
  | FpLoadStoreImm is_load rt rn mode => exact encode_load_store_common_eq true _ _ _ rn mode
  | BranchReg rn | BranchLinkReg rn | Ret rn =>
    simp only [encode_word, layout, shape, values, pack, total, Slot.width, BitVec.or_zero,
      BitVec.ofNat_eq_ofNat, BitVec.zero_shiftLeft, Nat.reduceAdd]
    rfl
  | System op =>
    cases op with
    | Svc imm16 =>
      simp only [encode_word, layout, shape, values, pack, total, Slot.width, BitVec.or_zero,
        BitVec.ofNat_eq_ofNat, BitVec.shiftLeft_zero, Nat.reduceAdd]
      rw [BitVec.or_comm (BitVec.setWidth 32 imm16 <<< 5), ← BitVec.or_assoc]
      rfl
    | Brk imm16 =>
      simp only [encode_word, layout, shape, values, pack, total, Slot.width, BitVec.or_zero,
        BitVec.ofNat_eq_ofNat, BitVec.shiftLeft_zero, Nat.reduceAdd]
      rfl
    | _ =>
      simp only [encode_word, layout, shape, values, pack, total, Slot.width, BitVec.or_zero,
        BitVec.zero_or, BitVec.ofNat_eq_ofNat, BitVec.zero_shiftLeft, BitVec.shiftLeft_zero,
        Nat.reduceAdd]
  | MovWide op | LogicalImmInst op | LogicalShiftedReg op | Bitfield op | DataProc2Source op
  | DataProc3Source op | DataProc1Source op | CondSelect op | FpDataProc1 op | FpDataProc2 op =>
    cases op <;>
    simp only [encode_word, layout, shape, values, fp_layout, pack, total, Slot.width,
      BitVec.or_assoc, BitVec.or_zero, BitVec.zero_or, BitVec.zero_shiftLeft, BitVec.ofNat_eq_ofNat,
      BitVec.shiftLeft_zero, Nat.reduceAdd, MovWideOp.opc, LogicalImmOp.opc, LogicalShiftOp.opc_n,
      BitfieldOp.opc, DataProc2Op.opcode, DataProc3Op.op31_o0, DataProc1Op.opcode,
      CondSelectOp.opbit_op2, FpUnaryOp.opcode, FpBinOp.opcode]
  | FpIntConvert op =>
    cases op <;>
    simp only [encode_word, layout, shape, values, fp_gp_layout, pack, total, Slot.width,
      BitVec.or_assoc, BitVec.or_zero, BitVec.zero_or, BitVec.zero_shiftLeft, BitVec.ofNat_eq_ofNat,
      BitVec.shiftLeft_zero, Nat.reduceAdd, FpIntConvertOp.rmode_opcode] <;>
    rfl
  | LoadStorePair is_load is64 rt1 rt2 rn imm index =>
    cases index <;>
    simp only [encode_word, layout, shape, values, pack, total, Slot.width,
      BitVec.or_assoc, BitVec.or_zero, BitVec.zero_or, BitVec.zero_shiftLeft, BitVec.ofNat_eq_ofNat,
      BitVec.shiftLeft_zero, Nat.reduceAdd, PairIndex.mode]
  | FpConvert rd rn =>
    -- The two opcodes differ in their last bit only, which is the field.
    have hto_double : ∀ w : Word, 5#32 <<< 15 ||| w = 2#32 <<< 16 ||| (1#32 <<< 15 ||| w) := by
      intro w
      rw [← BitVec.or_assoc]
      rfl
    have hto_single : ∀ w : Word, 4#32 <<< 15 ||| w = 2#32 <<< 16 ||| (0#32 <<< 15 ||| w) := by
      intro w
      rw [← BitVec.or_assoc]
      rfl
    cases h : rd.is_double
    · simp only [encode_word, layout, shape, values, fp_layout, pack, total, Slot.width, h, as_u32,
        Bool.false_eq_true, if_false, Bool.not_false, if_true, BitVec.or_assoc, BitVec.or_zero,
        BitVec.zero_or, BitVec.ofNat_eq_ofNat, Nat.reduceAdd, hto_single, BitVec.zero_shiftLeft,
        BitVec.shiftLeft_zero]
    · simp only [encode_word, layout, shape, values, fp_layout, pack, total, Slot.width, h, as_u32,
        Bool.false_eq_true, if_false, Bool.not_true, if_true, BitVec.or_assoc, BitVec.or_zero,
        BitVec.zero_or, BitVec.ofNat_eq_ofNat, Nat.reduceAdd, hto_double, BitVec.zero_shiftLeft,
        BitVec.shiftLeft_zero]
  | _ =>
    simp only [encode_word, layout, shape, values, fp_layout, fp_gp_layout, pack, total, Slot.width,
      BitVec.or_assoc, BitVec.or_zero, BitVec.zero_or, BitVec.zero_shiftLeft, BitVec.ofNat_eq_ofNat,
      BitVec.shiftLeft_zero, Nat.reduceAdd]

/-! ## What fits -/

theorem as_u32_lt (b : Bool) : (as_u32 b).toNat < 2 ^ 1 := by
  cases b <;> decide

theorem sf_lt (r : Reg) : (sf r).toNat < 2 ^ 1 := as_u32_lt _

variable {k : Nat}

theorem ofFin_castLE_lt {m : Nat} (i : Fin m) (hm : m ≤ 2 ^ 32) (hk : m ≤ 2 ^ k) :
    (BitVec.ofFin (i.castLE hm) : Word).toNat < 2 ^ k :=
  Nat.lt_of_lt_of_le i.isLt hk

theorem Reg.encoding_lt (r : Reg) : r.encoding.toNat < 2 ^ 5 := ofFin_castLE_lt _ _ (by decide)

theorem FpReg.encoding_lt (r : FpReg) : r.encoding.toNat < 2 ^ 5 := ofFin_castLE_lt _ _ (by decide)

theorem Cond.code_lt (c : Cond) : c.code.toNat < 2 ^ 4 := ofFin_castLE_lt _ _ (by decide)

theorem RegShift.amount_lt (s : RegShift) : s.amount.toNat < 2 ^ 6 := ofFin_castLE_lt _ _ (by decide)

theorem RegExtend.amount_lt (e : RegExtend) : e.amount.toNat < 2 ^ 3 := ofFin_castLE_lt _ _ (by decide)

theorem Uimm12Lsl.raw_lt (i : Uimm12Lsl) : i.raw.toNat < 2 ^ 12 := ofFin_castLE_lt _ _ (by decide)

theorem LogicalImm.n_lt (i : LogicalImm) : i.n.toNat < 2 ^ 1 := ofFin_castLE_lt _ _ (by decide)

theorem LogicalImm.immr_lt (i : LogicalImm) : i.immr.toNat < 2 ^ 6 := ofFin_castLE_lt _ _ (by decide)

theorem LogicalImm.imms_lt (i : LogicalImm) : i.imms.toNat < 2 ^ 6 := ofFin_castLE_lt _ _ (by decide)

theorem ShiftKind.encoding_lt (k : ShiftKind) : k.encoding.toNat < 2 ^ 2 := by
  cases k <;> decide

theorem ExtendKind.encoding_lt (k : ExtendKind) : k.encoding.toNat < 2 ^ 3 := by
  cases k <;> decide

theorem LdStExtend.option_lt (e : LdStExtend) : e.option.toNat < 2 ^ 3 := by
  cases e <;> decide

theorem LdStOp.size_opc_lt (op : LdStOp) :
    op.size_opc.1.toNat < 2 ^ 2 ∧ op.size_opc.2.toNat < 2 ^ 2 := by
  cases op with
  | LdrSb is64 | LdrSh is64 => cases is64 <;> decide
  | _ => decide

theorem ofNat_fin64_lt (i : Fin 64) : (BitVec.ofNat 32 i.val).toNat < 2 ^ 6 := by
  rw [BitVec.toNat_ofNat, Nat.mod_eq_of_lt (by omega)]
  exact i.isLt

theorem setWidth_16_lt (v : BitVec 16) : (v.setWidth 32).toNat < 2 ^ 16 := by
  rw [BitVec.toNat_setWidth, Nat.mod_eq_of_lt (by omega)]
  exact v.isLt

/-- A mask of low bits bounds. -/
theorem and_lt {v m : Word} (hm : m.toNat < 2 ^ k) : (v &&& m).toNat < 2 ^ k := by
  rw [BitVec.toNat_and]
  exact Nat.lt_of_le_of_lt Nat.and_le_right hm

theorem AdrOffset.encoding_lt (o : AdrOffset) :
    o.encoding.1.toNat < 2 ^ 2 ∧ o.encoding.2.toNat < 2 ^ 19 := by
  refine ⟨and_lt (by decide), ?_⟩
  have hlow : (o.bytes &&& 0x1FFFFF).toNat < 2 ^ 21 := and_lt (by decide)
  show ((o.bytes &&& 0x1FFFFF) >>> 2).toNat < 2 ^ 19
  rw [BitVec.toNat_ushiftRight, Nat.shiftRight_eq_div_pow]
  omega

theorem AdrpOffset.encoding_lt (o : AdrpOffset) :
    o.encoding.1.toNat < 2 ^ 2 ∧ o.encoding.2.toNat < 2 ^ 19 :=
  AdrOffset.encoding_lt ⟨o.pages⟩

theorem Simm9.encoding_lt (o : Simm9) : o.encoding.toNat < 2 ^ 9 := and_lt (by decide)

theorem SImm7Scaled.encoding_lt (o : SImm7Scaled) : o.encoding.toNat < 2 ^ 7 := and_lt (by decide)

theorem FpImm8.encoding_lt (i : FpImm8) : i.encoding.toNat < 2 ^ 8 := by
  show (i.imm8.setWidth 32).toNat < 2 ^ 8
  rw [BitVec.toNat_setWidth, Nat.mod_eq_of_lt (by omega)]
  exact i.imm8.isLt

theorem BranchOffset.encoding_lt {o : BranchOffset} (hbits : o.bits = k) (hk : k < 32) :
    o.encoding.toNat < 2 ^ k := by
  subst hbits
  refine and_lt ?_
  have hone : (1#32 <<< (o.bits % 32)).toNat = 2 ^ o.bits := by
    have hlt : 2 ^ o.bits < 2 ^ 32 := Nat.pow_lt_pow_right (by decide) hk
    rw [Nat.mod_eq_of_lt hk, BitVec.toNat_shiftLeft, Nat.shiftLeft_eq, BitVec.toNat_ofNat]
    show 1 % 2 ^ 32 * 2 ^ o.bits % 2 ^ 32 = 2 ^ o.bits
    rw [Nat.mod_eq_of_lt (by decide : 1 < 2 ^ 32), Nat.one_mul, Nat.mod_eq_of_lt hlt]
  have hpos := Nat.two_pow_pos o.bits
  have hle : (1#32) ≤ 1#32 <<< (o.bits % 32) := by
    rw [BitVec.le_def, hone]
    exact hpos
  show (1#32 <<< (o.bits % 32) - 1#32).toNat < 2 ^ o.bits
  rw [BitVec.toNat_sub_of_le hle, hone]
  exact Nat.sub_lt hpos (by decide)

theorem UScaledImm12.Made.encoding_lt {o : UScaledImm12} (ho : o.Made) : o.encoding.toNat < 2 ^ 12 := by
  obtain ⟨bytes, access_size, -, -, h⟩ := ho
  unfold UScaledImm12.new at h
  rw [guard_eq_ok] at h
  dsimp only at h
  rw [guard_eq_ok, Except.ok.injEq] at h
  obtain ⟨-, hmax, rfl⟩ := h
  show ((BitVec.ofNat 16 (bytes.toNat / access_size)).setWidth 32).toNat < 2 ^ 12
  have hscaled : bytes.toNat / access_size ≤ 0xFFF := Nat.not_lt.1 hmax
  rw [BitVec.toNat_setWidth, BitVec.toNat_ofNat, Nat.mod_eq_of_lt (a := _ / _) (by omega),
    Nat.mod_eq_of_lt (by omega)]
  omega

/-- A branch offset was validated for the field that it goes into. -/
def InField : Inst → Prop
  | .Branch _ offset => offset.bits = 26
  | .BranchCond _ offset => offset.bits = 19
  | .CompareBranch _ _ _ offset => offset.bits = 19
  | .TestBranch _ _ _ offset => offset.bits = 14
  | _ => True

theorem MovWideOp.opc_lt (op : MovWideOp) : op.opc.toNat < 2 ^ 2 := by
  cases op <;> decide

theorem LogicalImmOp.opc_lt (op : LogicalImmOp) : op.opc.toNat < 2 ^ 2 := by
  cases op <;> decide

theorem LogicalShiftOp.opc_n_lt (op : LogicalShiftOp) :
    op.opc_n.1.toNat < 2 ^ 2 ∧ op.opc_n.2.toNat < 2 ^ 1 := by
  cases op <;> decide

theorem BitfieldOp.opc_lt (op : BitfieldOp) : op.opc.toNat < 2 ^ 2 := by
  cases op <;> decide

theorem DataProc2Op.opcode_lt (op : DataProc2Op) : op.opcode.toNat < 2 ^ 6 := by
  cases op <;> decide

theorem DataProc3Op.op31_o0_lt (op : DataProc3Op) :
    op.op31_o0.1.toNat < 2 ^ 3 ∧ op.op31_o0.2.toNat < 2 ^ 1 := by
  cases op <;> decide

theorem DataProc1Op.opcode_lt (op : DataProc1Op) (is64 : Bool) : (op.opcode is64).toNat < 2 ^ 6 := by
  cases op <;> cases is64 <;> decide

theorem CondSelectOp.opbit_op2_lt (op : CondSelectOp) :
    op.opbit_op2.1.toNat < 2 ^ 1 ∧ op.opbit_op2.2.toNat < 2 ^ 2 := by
  cases op <;> decide

theorem PairIndex.mode_lt (index : PairIndex) : index.mode.toNat < 2 ^ 2 := by
  cases index <;> decide

theorem FpUnaryOp.opcode_lt (op : FpUnaryOp) : op.opcode.toNat < 2 ^ 2 := by
  cases op <;> decide

theorem FpBinOp.opcode_lt (op : FpBinOp) : op.opcode.toNat < 2 ^ 4 := by
  cases op <;> decide

theorem FpIntConvertOp.rmode_opcode_lt (op : FpIntConvertOp) :
    op.rmode_opcode.1.toNat < 2 ^ 2 ∧ op.rmode_opcode.2.toNat < 2 ^ 2 := by
  cases op <;> decide

/-- The slots of a load or store around those of its addressing mode. -/
theorem load_store_fit {fp : Bool} {mode : AddrMode} (hmode : mode.Made) {size opc rn rt : Word}
    (hsize : size.toNat < 2 ^ 2) (hopc : opc.toNat < 2 ^ 2) (hrn : rn.toNat < 2 ^ 5)
    (hrt : rt.toNat < 2 ^ 5) :
    Fit (load_store_layout fp mode.form) ([size, opc] ++ mode.values ++ [rn, rt]) := by
  cases mode with
  | UnsignedOffset imm =>
    have himm := UScaledImm12.Made.encoding_lt hmode
    exact ⟨hsize, hopc, himm, hrn, hrt, rfl⟩
  | Unscaled imm | PreIndex imm | PostIndex imm => exact ⟨hsize, hopc, imm.encoding_lt, hrn, hrt, rfl⟩
  | RegOffset ro =>
    exact ⟨hsize, hopc, ro.rm.encoding_lt, ro.extend.option_lt, as_u32_lt _, hrn, hrt, rfl⟩

variable {i : Inst}

theorem values_fit (hi : Valid i) (hfield : InField i) :
    Fit (layout (shape i)) (values i) := by
  cases i with
  | MovWide op rd imm16 shift =>
    have hhw : (BitVec.ofNat 32 (shift / 16)).toNat < 2 ^ 2 := by
      obtain ⟨-, hmax, -⟩ := hi
      have hle : (if rd.is64 then 48 else 16) ≤ 48 := by split <;> decide
      rw [BitVec.toNat_ofNat]
      omega
    exact ⟨sf_lt _, op.opc_lt, hhw, setWidth_16_lt _, rd.encoding_lt, rfl⟩
  | LoadStoreImm op rt rn mode =>
    obtain ⟨-, -, hmode, -⟩ := hi
    exact load_store_fit hmode op.size_opc_lt.1 op.size_opc_lt.2 rn.encoding_lt rt.encoding_lt
  | FpLoadStoreImm is_load rt rn mode =>
    refine load_store_fit hi.2.1 ?_ ?_ rn.encoding_lt rt.encoding_lt
    · cases rt.is_double <;> decide
    · cases is_load <;> decide
  | LoadStorePair is_load is64 rt1 rt2 rn imm index =>
    refine ⟨?_, index.mode_lt, as_u32_lt _, imm.encoding_lt, rt2.encoding_lt, rn.encoding_lt,
      rt1.encoding_lt, rfl⟩
    cases is64 <;> decide
  | Branch link offset => exact ⟨as_u32_lt _, offset.encoding_lt hfield (by decide), rfl⟩
  | BranchCond cond offset =>
    exact ⟨offset.encoding_lt hfield (by decide), cond.code_lt, rfl⟩
  | CompareBranch is64 is_nonzero rt offset =>
    exact ⟨as_u32_lt _, as_u32_lt _, offset.encoding_lt hfield (by decide), rt.encoding_lt, rfl⟩
  | TestBranch is_nonzero rt bit offset =>
    exact ⟨and_lt (by decide), as_u32_lt _, and_lt (by decide), offset.encoding_lt hfield (by decide),
      rt.encoding_lt, rfl⟩
  | System op => cases op <;> simp only [shape, layout, values, Fit, setWidth_16_lt, and_self]
  | FpIntConvert op gp fp =>
    refine ⟨sf_lt _, as_u32_lt _, op.rmode_opcode_lt.1, op.rmode_opcode_lt.2, ?_, ?_, rfl⟩
    · split
      · exact gp.encoding_lt
      · exact fp.encoding_lt
    · split
      · exact fp.encoding_lt
      · exact gp.encoding_lt
  | _ =>
    simp only [shape, layout, values, fp_layout, fp_gp_layout, Fit, sf_lt, as_u32_lt,
      Reg.encoding_lt, FpReg.encoding_lt, Cond.code_lt, RegShift.amount_lt, RegExtend.amount_lt,
      Uimm12Lsl.raw_lt, LogicalImm.n_lt, LogicalImm.immr_lt, LogicalImm.imms_lt,
      ShiftKind.encoding_lt, ExtendKind.encoding_lt, ofNat_fin64_lt, AdrOffset.encoding_lt,
      AdrpOffset.encoding_lt, FpImm8.encoding_lt, LogicalImmOp.opc_lt, LogicalShiftOp.opc_n_lt,
      BitfieldOp.opc_lt, DataProc2Op.opcode_lt, DataProc3Op.op31_o0_lt, DataProc1Op.opcode_lt,
      CondSelectOp.opbit_op2_lt, FpUnaryOp.opcode_lt, FpBinOp.opcode_lt, and_self]

/-- Instructions of two shapes have different words. -/
theorem encode_word_ne {j : Inst} (hi : Valid i) (hj : Valid j) (hfi : InField i) (hfj : InField j)
    (hne : shape i ≠ shape j) : encode_word i ≠ encode_word j := by
  rw [encode_word_eq, encode_word_eq]
  rcases layout_apart hne with hij | hji
  · exact pack_ne (layout_sound _) (values_fit hi hfi) (Nat.le_of_eq (layout_total _)) hij
  · exact (pack_ne (layout_sound _) (values_fit hj hfj) (Nat.le_of_eq (layout_total _)) hji).symm

/-- Instructions of one shape with one word have the same values. -/
theorem values_eq {j : Inst} (hi : Valid i) (hj : Valid j) (hfi : InField i) (hfj : InField j)
    (hshape : shape i = shape j) (h : encode_word i = encode_word j) : values i = values j := by
  rw [encode_word_eq, encode_word_eq, ← hshape] at h
  have hfit : Fit (layout (shape i)) (values j) := by
    rw [hshape]
    exact values_fit hj hfj
  exact pack_inj (layout_sound _) (values_fit hi hfi) hfit (Nat.le_of_eq (layout_total _)) h

/-! ## Branches that spill -/

/-- The bits of `0b00101`, which every branch word has at 26. -/
def branch_bits : Word := 0b00101#32 <<< 26

/-- Words of these shapes have the bits of `B` set, so that an offset of `B` can be all of their
other bits. -/
def Shape.Crowded (s : Shape) : Prop := ones (layout s) &&& branch_bits = branch_bits

instance (s : Shape) : Decidable s.Crowded := inferInstanceAs (Decidable (_ = _))

theorem Shape.crowded_branches :
    ∀ s ∈ [Shape.Branch, .BranchCond, .CompareBranch, .TestBranch], s.Crowded := by
  decide +kernel

/-- The shapes of `InField` are crowded. -/
theorem InField.of_not_crowded (h : ¬ (shape i).Crowded) : InField i := by
  cases i with
  | Branch | BranchCond | CompareBranch | TestBranch =>
    exact absurd (Shape.crowded_branches _ (by simp [shape])) h
  | _ => trivial

theorem Shape.Crowded.encode_word (h : (shape i).Crowded) :
    encode_word i &&& branch_bits = branch_bits := by
  have hones := pack_and_ones (layout (shape i)) (values i)
  rw [encode_word_eq, ← h, ← BitVec.and_assoc, hones]

/-- The other words have one of these bits clear. -/
theorem encode_word_not_crowded (hi : Valid i) (h : ¬ (shape i).Crowded) :
    encode_word i &&& branch_bits ≠ branch_bits := by
  have hall : ∀ s ∈ Shape.all, ¬ s.Crowded → zeros (layout s) &&& branch_bits ≠ 0 := by
    decide +kernel
  have hzeros := pack_and_zeros (layout_sound _) (values_fit hi (.of_not_crowded h))
    (Nat.le_of_eq (layout_total _))
  intro hword
  apply hall _ (shape i).mem_all h
  rw [← hword, encode_word_eq, ← BitVec.and_assoc, BitVec.and_comm (zeros _), hzeros]
  exact BitVec.zero_and

end Fors.Asm
