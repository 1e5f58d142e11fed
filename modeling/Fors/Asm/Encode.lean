import Fors.Asm.Inst

/-!
# Encoding

`encode` turns a validated instruction into its word: "pure bit-packing".

Source: `crates/fors-asm/src/encode.rs`.
-/

namespace Fors.Asm

def sf (r : Reg) : Word := as_u32 r.is64

/-- "bits[25:24] select unsigned-offset (01) vs the immediate/register sub-group (00); within that
sub-group, bits[11:10] pick unscaled (00 ..), post-index (01) or pre-index (11)." -/
def encode_load_store_common (size v opc rt : Word) (rn : Reg) : AddrMode → Word
  | .UnsignedOffset imm =>
    (size <<< 30) ||| (0b111#32 <<< 27) ||| (v <<< 26) ||| (0b01#32 <<< 24) ||| (opc <<< 22) |||
      (imm.encoding <<< 10) ||| (rn.encoding <<< 5) ||| rt
  | .Unscaled imm =>
    (size <<< 30) ||| (0b111#32 <<< 27) ||| (v <<< 26) ||| (opc <<< 22) |||
      (imm.encoding <<< 12) ||| (rn.encoding <<< 5) ||| rt
  | .PostIndex imm =>
    (size <<< 30) ||| (0b111#32 <<< 27) ||| (v <<< 26) ||| (opc <<< 22) |||
      (imm.encoding <<< 12) ||| (0b01#32 <<< 10) ||| (rn.encoding <<< 5) ||| rt
  | .PreIndex imm =>
    (size <<< 30) ||| (0b111#32 <<< 27) ||| (v <<< 26) ||| (opc <<< 22) |||
      (imm.encoding <<< 12) ||| (0b11#32 <<< 10) ||| (rn.encoding <<< 5) ||| rt
  | .RegOffset ro =>
    (size <<< 30) ||| (0b111#32 <<< 27) ||| (v <<< 26) ||| (opc <<< 22) ||| (1#32 <<< 21) |||
      (ro.rm.encoding <<< 16) ||| (ro.extend.option <<< 13) ||| (as_u32 ro.shifted <<< 12) |||
      (0b10#32 <<< 10) ||| (rn.encoding <<< 5) ||| rt

def encode_load_store_gp (op : LdStOp) (rt rn : Reg) (mode : AddrMode) : Word :=
  let (size, opc) := op.size_opc
  encode_load_store_common size 0 opc rt.encoding rn mode

/-- "Scalar FP load/store: size encodes access width". -/
def encode_load_store_fp (is_load : Bool) (rt : FpReg) (rn : Reg) (mode : AddrMode) : Word :=
  let size : Word := if rt.is_double then 0b11 else 0b10
  let opc : Word := if is_load then 0b01 else 0b00
  encode_load_store_common size 1 opc rt.encoding rn mode

def encode_word : Inst → Word
  | .MovWide op rd imm16 shift =>
    let opc : Word := match op with
      | .Movn => 0b00
      | .Movz => 0b10
      | .Movk => 0b11
    let hw : Word := BitVec.ofNat 32 (shift / 16)
    (sf rd <<< 31) ||| (opc <<< 29) ||| (0b100101#32 <<< 23) ||| (hw <<< 21) |||
      (imm16.setWidth 32 <<< 5) ||| rd.encoding
  | .AddSubImm op set_flags rd rn imm _ =>
    let opbit := as_u32 (op = .Sub)
    (sf rd <<< 31) ||| (opbit <<< 30) ||| (as_u32 set_flags <<< 29) ||| (0b100010#32 <<< 23) |||
      (as_u32 imm.shift12 <<< 22) ||| (imm.raw <<< 10) ||| (rn.encoding <<< 5) ||| rd.encoding
  | .AddSubShiftedReg op set_flags rd rn rm shift _ =>
    let opbit := as_u32 (op = .Sub)
    (sf rd <<< 31) ||| (opbit <<< 30) ||| (as_u32 set_flags <<< 29) ||| (0b01011#32 <<< 24) |||
      (shift.kind.encoding <<< 22) ||| (rm.encoding <<< 16) ||| (shift.amount <<< 10) |||
      (rn.encoding <<< 5) ||| rd.encoding
  | .AddSubExtendedReg op set_flags rd rn rm extend _ =>
    let opbit := as_u32 (op = .Sub)
    (sf rd <<< 31) ||| (opbit <<< 30) ||| (as_u32 set_flags <<< 29) ||| (0b01011#32 <<< 24) |||
      (1#32 <<< 21) ||| (rm.encoding <<< 16) ||| (extend.kind.encoding <<< 13) |||
      (extend.amount <<< 10) ||| (rn.encoding <<< 5) ||| rd.encoding
  | .LogicalImmInst op rd rn imm _ =>
    let opc : Word := match op with
      | .And => 0b00
      | .Orr => 0b01
      | .Eor => 0b10
      | .Ands => 0b11
    (sf rd <<< 31) ||| (opc <<< 29) ||| (0b100100#32 <<< 23) ||| (imm.n <<< 22) |||
      (imm.immr <<< 16) ||| (imm.imms <<< 10) ||| (rn.encoding <<< 5) ||| rd.encoding
  | .LogicalShiftedReg op rd rn rm shift _ =>
    let (opc, n) : Word × Word := match op with
      | .And => (0b00, 0)
      | .Bic => (0b00, 1)
      | .Orr => (0b01, 0)
      | .Orn => (0b01, 1)
      | .Eor => (0b10, 0)
      | .Eon => (0b10, 1)
      | .Ands => (0b11, 0)
      | .Bics => (0b11, 1)
    (sf rd <<< 31) ||| (opc <<< 29) ||| (0b01010#32 <<< 24) ||| (shift.kind.encoding <<< 22) |||
      (n <<< 21) ||| (rm.encoding <<< 16) ||| (shift.amount <<< 10) ||| (rn.encoding <<< 5) |||
      rd.encoding
  | .Bitfield op rd rn immr imms _ =>
    let opc : Word := match op with
      | .Sbfm => 0b00
      | .Bfm => 0b01
      | .Ubfm => 0b10
    let n := sf rd
    (sf rd <<< 31) ||| (opc <<< 29) ||| (0b100110#32 <<< 23) ||| (n <<< 22) |||
      (BitVec.ofNat 32 immr.val <<< 16) ||| (BitVec.ofNat 32 imms.val <<< 10) ||| (rn.encoding <<< 5) |||
      rd.encoding
  | .DataProc2Source op rd rn rm =>
    let opcode : Word := match op with
      | .Udiv => 0b000010
      | .Sdiv => 0b000011
      | .Lslv => 0b001000
      | .Lsrv => 0b001001
      | .Asrv => 0b001010
      | .Rorv => 0b001011
    (sf rd <<< 31) ||| (0b11010110#32 <<< 21) ||| (rm.encoding <<< 16) ||| (opcode <<< 10) |||
      (rn.encoding <<< 5) ||| rd.encoding
  | .DataProc3Source op rd rn rm ra _ =>
    let (op31, o0) : Word × Word := match op with
      | .Madd => (0b000, 0)
      | .Msub => (0b000, 1)
      | .Smulh => (0b010, 0)
      | .Umulh => (0b110, 0)
    (sf rd <<< 31) ||| (0b11011#32 <<< 24) ||| (op31 <<< 21) ||| (rm.encoding <<< 16) |||
      (o0 <<< 15) ||| (ra.encoding <<< 10) ||| (rn.encoding <<< 5) ||| rd.encoding
  | .DataProc1Source op rd rn =>
    let opcode : Word := match op with
      | .Rbit => 0b000000
      | .Clz => 0b000100
      | .Rev => if rd.is64 then 0b000011 else 0b000010
    (sf rd <<< 31) ||| (1#32 <<< 30) ||| (0b11010110#32 <<< 21) ||| (opcode <<< 10) |||
      (rn.encoding <<< 5) ||| rd.encoding
  | .CondSelect op rd rn rm cond _ =>
    let (opbit, op2) : Word × Word := match op with
      | .Csel => (0, 0b00)
      | .Csinc => (0, 0b01)
      | .Csinv => (1, 0b00)
      | .Csneg => (1, 0b01)
    (sf rd <<< 31) ||| (opbit <<< 30) ||| (0b11010100#32 <<< 21) ||| (rm.encoding <<< 16) |||
      (cond.code <<< 12) ||| (op2 <<< 10) ||| (rn.encoding <<< 5) ||| rd.encoding
  | .Adr rd offset =>
    let (immlo, immhi) := offset.encoding
    (immlo <<< 29) ||| (0b10000#32 <<< 24) ||| (immhi <<< 5) ||| rd.encoding
  | .Adrp rd offset =>
    let (immlo, immhi) := offset.encoding
    (1#32 <<< 31) ||| (immlo <<< 29) ||| (0b10000#32 <<< 24) ||| (immhi <<< 5) ||| rd.encoding
  | .Branch link offset => (as_u32 link <<< 31) ||| (0b00101#32 <<< 26) ||| offset.encoding
  | .BranchCond cond offset => (0b0101010#32 <<< 25) ||| (offset.encoding <<< 5) ||| cond.code
  | .CompareBranch is64 is_nonzero rt offset =>
    (as_u32 is64 <<< 31) ||| (0b011010#32 <<< 25) ||| (as_u32 is_nonzero <<< 24) |||
      (offset.encoding <<< 5) ||| rt.encoding
  | .TestBranch is_nonzero rt bit offset =>
    let b5 : Word := BitVec.ofNat 32 (bit.val >>> 5) &&& 1
    let b40 : Word := BitVec.ofNat 32 bit.val &&& 0x1F
    (b5 <<< 31) ||| (0b011011#32 <<< 25) ||| (as_u32 is_nonzero <<< 24) ||| (b40 <<< 19) |||
      (offset.encoding <<< 5) ||| rt.encoding
  | .BranchReg rn => 0xD61F0000 ||| (rn.encoding <<< 5)
  | .BranchLinkReg rn => 0xD63F0000 ||| (rn.encoding <<< 5)
  | .Ret rn => 0xD65F0000 ||| (rn.encoding <<< 5)
  | .LoadStoreImm op rt rn mode => encode_load_store_gp op rt rn mode
  | .FpLoadStoreImm is_load rt rn mode => encode_load_store_fp is_load rt rn mode
  | .LoadStorePair is_load is64 rt1 rt2 rn imm index =>
    let opc : Word := if is64 then 0b10 else 0b00
    let mode : Word := match index with
      | .PostIndex => 0b01
      | .Offset => 0b10
      | .PreIndex => 0b11
    (opc <<< 30) ||| (0b101#32 <<< 27) ||| (mode <<< 23) ||| (as_u32 is_load <<< 22) |||
      (imm.encoding <<< 15) ||| (rt2.encoding <<< 10) ||| (rn.encoding <<< 5) ||| rt1.encoding
  | .System op => match op with
    | .Nop => 0xD503201F
    | .Brk imm16 => 0xD4200000 ||| (imm16.setWidth 32 <<< 5)
    | .Svc imm16 => 0xD4000001 ||| (imm16.setWidth 32 <<< 5)
    | .Udf imm16 => imm16.setWidth 32
  | .FpDataProc1 op rd rn =>
    let opcode : Word := match op with
      | .Fmov => 0b000000
      | .Fabs => 0b000001
      | .Fneg => 0b000010
      | .Fsqrt => 0b000011
    let ty := as_u32 rd.is_double
    (0b11110#32 <<< 24) ||| (ty <<< 22) ||| (1#32 <<< 21) ||| (opcode <<< 15) ||| (0b10000#32 <<< 10) |||
      (rn.encoding <<< 5) ||| rd.encoding
  | .FpConvert rd rn =>
    let (ty, opcode) : Word × Word := if rd.is_double then (0, 0b000101) else (1, 0b000100)
    (0b11110#32 <<< 24) ||| (ty <<< 22) ||| (1#32 <<< 21) ||| (opcode <<< 15) ||| (0b10000#32 <<< 10) |||
      (rn.encoding <<< 5) ||| rd.encoding
  | .FpDataProc2 op rd rn rm =>
    let opcode : Word := match op with
      | .Fmul => 0b0000
      | .Fdiv => 0b0001
      | .Fadd => 0b0010
      | .Fsub => 0b0011
    let ty := as_u32 rd.is_double
    (0b11110#32 <<< 24) ||| (ty <<< 22) ||| (1#32 <<< 21) ||| (rm.encoding <<< 16) |||
      (opcode <<< 12) ||| (0b10#32 <<< 10) ||| (rn.encoding <<< 5) ||| rd.encoding
  | .FpCompare rn rm =>
    let ty := as_u32 rn.is_double
    (0b11110#32 <<< 24) ||| (ty <<< 22) ||| (1#32 <<< 21) ||| (rm.encoding <<< 16) |||
      (0b1000#32 <<< 10) ||| (rn.encoding <<< 5)
  | .FpCondSelect rd rn rm cond =>
    let ty := as_u32 rd.is_double
    (0b11110#32 <<< 24) ||| (ty <<< 22) ||| (1#32 <<< 21) ||| (rm.encoding <<< 16) |||
      (cond.code <<< 12) ||| (0b11#32 <<< 10) ||| (rn.encoding <<< 5) ||| rd.encoding
  | .FpImmMove rd imm =>
    let ty := as_u32 rd.is_double
    (0b11110#32 <<< 24) ||| (ty <<< 22) ||| (1#32 <<< 21) ||| (imm.encoding <<< 13) |||
      (0b100#32 <<< 10) ||| rd.encoding
  | .FpToGp rd rn =>
    let ty := as_u32 rn.is_double
    (sf rd <<< 31) ||| (0b11110#32 <<< 24) ||| (ty <<< 22) ||| (1#32 <<< 21) ||| (0b110#32 <<< 16) |||
      (rn.encoding <<< 5) ||| rd.encoding
  | .GpToFp rd rn =>
    let ty := as_u32 rd.is_double
    (sf rn <<< 31) ||| (0b11110#32 <<< 24) ||| (ty <<< 22) ||| (1#32 <<< 21) ||| (0b111#32 <<< 16) |||
      (rn.encoding <<< 5) ||| rd.encoding
  | .FpIntConvert op gp fp =>
    let ty := as_u32 fp.is_double
    let (rmode, opcode) : Word × Word := match op with
      | .Scvtf => (0b00, 0b010)
      | .Ucvtf => (0b00, 0b011)
      | .Fcvtzs => (0b11, 0b000)
      | .Fcvtzu => (0b11, 0b001)
    let is_int_to_fp : Bool := op = .Scvtf ∨ op = .Ucvtf
    let (rn_enc, rd_enc) :=
      if is_int_to_fp then (gp.encoding, fp.encoding) else (fp.encoding, gp.encoding)
    (sf gp <<< 31) ||| (0b11110#32 <<< 24) ||| (ty <<< 22) ||| (1#32 <<< 21) ||| (rmode <<< 19) |||
      (opcode <<< 16) ||| (rn_enc <<< 5) ||| rd_enc
  | .FpMadd rd rn rm ra =>
    let ty := as_u32 rd.is_double
    (0b11111#32 <<< 24) ||| (ty <<< 22) ||| (rm.encoding <<< 16) ||| (ra.encoding <<< 10) |||
      (rn.encoding <<< 5) ||| rd.encoding

/-- No arm of the match of `encode` fails: "an `Inst` built through this crate's public API can only
ever hold an in-range value". -/
def encode (inst : Inst) : Result Word := .ok (encode_word inst)

end Fors.Asm
