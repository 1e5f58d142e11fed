import Fors.Asm.Operand

/-!
# Instructions

"One variant per AArch64 *encoding shape*, not per mnemonic": aliases are constructor functions.  The
constructors check what is "only meaningful once two operands are seen together".

Source: `crates/fors-asm/src/inst.rs`.
-/

namespace Fors.Asm

attribute [local instance] neZero_raw

inductive MovWideOp where
  | Movz
  | Movn
  | Movk
  deriving DecidableEq

inductive AddSubOp where
  | Add
  | Sub
  deriving DecidableEq

/-- "Which alias (if any) built" an instruction, "purely for `Display`". -/
inductive AddSubAlias where
  | None
  | Cmp
  | Cmn
  | Neg
  | Negs
  | Mov
  deriving DecidableEq

inductive LogicalShiftOp where
  | And
  | Bic
  | Orr
  | Orn
  | Eor
  | Eon
  | Ands
  | Bics
  deriving DecidableEq

inductive LogicalImmOp where
  | And
  | Orr
  | Eor
  | Ands
  deriving DecidableEq

inductive LogicalAlias where
  | None
  | Mvn
  | Tst
  | Mov
  deriving DecidableEq

inductive BitfieldOp where
  | Sbfm
  | Bfm
  | Ubfm
  deriving DecidableEq

inductive BitfieldAlias where
  | None
  | Lsl
  | Lsr
  | Asr
  | Sxtb
  | Sxth
  | Sxtw
  | Uxtb
  | Uxth
  deriving DecidableEq

inductive DataProc2Op where
  | Udiv
  | Sdiv
  | Lslv
  | Lsrv
  | Asrv
  | Rorv
  deriving DecidableEq

inductive DataProc3Op where
  | Madd
  | Msub
  | Smulh
  | Umulh
  deriving DecidableEq

inductive DataProc1Op where
  | Rbit
  | Clz
  | Rev
  deriving DecidableEq

inductive CondSelectOp where
  | Csel
  | Csinc
  | Csinv
  | Csneg
  deriving DecidableEq

inductive CondSelectAlias where
  | None
  | Cset
  | Csetm
  | Cinc
  | Cinv
  | Cneg
  deriving DecidableEq

/-- "GP load/store operation: which mnemonic". -/
inductive LdStOp where
  | StrB
  | LdrB
  | LdrSb (is64 : Bool)
  | StrH
  | LdrH
  | LdrSh (is64 : Bool)
  | StrW
  | LdrW
  | LdrSw
  | StrX
  | LdrX
  deriving DecidableEq

namespace LdStOp

def size_opc : LdStOp → Word × Word
  | StrB => (0b00, 0b00)
  | LdrB => (0b00, 0b01)
  | LdrSb true => (0b00, 0b10)
  | LdrSb false => (0b00, 0b11)
  | StrH => (0b01, 0b00)
  | LdrH => (0b01, 0b01)
  | LdrSh true => (0b01, 0b10)
  | LdrSh false => (0b01, 0b11)
  | StrW => (0b10, 0b00)
  | LdrW => (0b10, 0b01)
  | LdrSw => (0b10, 0b10)
  | StrX => (0b11, 0b00)
  | LdrX => (0b11, 0b01)

def rt_is64 : LdStOp → Bool
  | LdrSb is64 => is64
  | LdrSh is64 => is64
  | LdrSw => true
  | StrX => true
  | LdrX => true
  | _ => false

end LdStOp

inductive LdStExtend where
  | Uxtw
  | Lsl
  | Sxtw
  | Sxtx
  deriving DecidableEq

def LdStExtend.option : LdStExtend → Word
  | .Uxtw => 0b010
  | .Lsl => 0b011
  | .Sxtw => 0b110
  | .Sxtx => 0b111

def LdStExtend.rm_is64 : LdStExtend → Bool
  | .Lsl => true
  | .Sxtx => true
  | _ => false

/-- "Register-offset addressing". -/
structure RegOffset where
  rm : Reg
  extend : LdStExtend
  shifted : Bool
  deriving DecidableEq

def RegOffset.new (rm : Reg) (extend : LdStExtend) (shifted : Bool) : Result RegOffset :=
  if rm.is64 ≠ extend.rm_is64 then .error (.RegisterWidthMismatch "load/store register offset")
  else .ok ⟨rm, extend, shifted⟩

inductive AddrMode where
  | UnsignedOffset (imm : UScaledImm12)
  | Unscaled (imm : Simm9)
  | PreIndex (imm : Simm9)
  | PostIndex (imm : Simm9)
  | RegOffset (ro : RegOffset)
  deriving DecidableEq

inductive SysOp where
  | Nop
  | Brk (imm16 : BitVec 16)
  | Svc (imm16 : BitVec 16)
  | Udf (imm16 : BitVec 16)
  deriving DecidableEq

inductive PairIndex where
  | Offset
  | PreIndex
  | PostIndex
  deriving DecidableEq

inductive FpUnaryOp where
  | Fmov
  | Fabs
  | Fneg
  | Fsqrt
  deriving DecidableEq

inductive FpBinOp where
  | Fadd
  | Fsub
  | Fmul
  | Fdiv
  deriving DecidableEq

inductive FpIntConvertOp where
  | Scvtf
  | Ucvtf
  | Fcvtzs
  | Fcvtzu
  deriving DecidableEq

/-- "One AArch64 instruction, already fully validated". -/
inductive Inst where
  | MovWide (op : MovWideOp) (rd : Reg) (imm16 : BitVec 16) (shift : Nat)
  | AddSubImm (op : AddSubOp) (set_flags : Bool) (rd rn : Reg) (imm : Uimm12Lsl)
      (alias_ : AddSubAlias)
  | AddSubShiftedReg (op : AddSubOp) (set_flags : Bool) (rd rn rm : Reg) (shift : RegShift)
      (alias_ : AddSubAlias)
  | AddSubExtendedReg (op : AddSubOp) (set_flags : Bool) (rd rn rm : Reg) (extend : RegExtend)
      (alias_ : AddSubAlias)
  | LogicalImmInst (op : LogicalImmOp) (rd rn : Reg) (imm : LogicalImm) (alias_ : LogicalAlias)
  | LogicalShiftedReg (op : LogicalShiftOp) (rd rn rm : Reg) (shift : RegShift)
      (alias_ : LogicalAlias)
  | Bitfield (op : BitfieldOp) (rd rn : Reg) (immr imms : Fin 64) (alias_ : BitfieldAlias)
  | DataProc2Source (op : DataProc2Op) (rd rn rm : Reg)
  | DataProc3Source (op : DataProc3Op) (rd rn rm ra : Reg) (is_mul_alias : Bool)
  | DataProc1Source (op : DataProc1Op) (rd rn : Reg)
  | CondSelect (op : CondSelectOp) (rd rn rm : Reg) (cond : Cond) (alias_ : CondSelectAlias)
  | Adr (rd : Reg) (offset : AdrOffset)
  | Adrp (rd : Reg) (offset : AdrpOffset)
  | Branch (link : Bool) (offset : BranchOffset)
  | BranchCond (cond : Cond) (offset : BranchOffset)
  | CompareBranch (is64 is_nonzero : Bool) (rt : Reg) (offset : BranchOffset)
  | TestBranch (is_nonzero : Bool) (rt : Reg) (bit : Fin 64) (offset : BranchOffset)
  | BranchReg (rn : Reg)
  | BranchLinkReg (rn : Reg)
  | Ret (rn : Reg)
  | LoadStoreImm (op : LdStOp) (rt rn : Reg) (mode : AddrMode)
  | LoadStorePair (is_load is64 : Bool) (rt1 rt2 rn : Reg) (imm : SImm7Scaled) (index : PairIndex)
  | FpLoadStoreImm (is_load : Bool) (rt : FpReg) (rn : Reg) (mode : AddrMode)
  | System (op : SysOp)
  | FpDataProc1 (op : FpUnaryOp) (rd rn : FpReg)
  | FpConvert (rd rn : FpReg)
  | FpDataProc2 (op : FpBinOp) (rd rn rm : FpReg)
  | FpCompare (rn rm : FpReg)
  | FpCondSelect (rd rn rm : FpReg) (cond : Cond)
  | FpImmMove (rd : FpReg) (imm : FpImm8)
  | FpToGp (rd : Reg) (rn : FpReg)
  | GpToFp (rd : FpReg) (rn : Reg)
  | FpIntConvert (op : FpIntConvertOp) (gp : Reg) (fp : FpReg)
  | FpMadd (rd rn rm ra : FpReg)
  deriving DecidableEq

def check_same_width (a b : Reg) (what : String) : Result Unit :=
  if a.is64 ≠ b.is64 then .error (.RegisterWidthMismatch what) else .ok ()

namespace Inst

/-- The zero register of the width of `r`. -/
def zr_of (r : Reg) : Reg := if r.is64 then Reg.xzr else Reg.wzr

/-! ## MOVZ/MOVN/MOVK -/

def mov_wide (op : MovWideOp) (rd : Reg) (imm16 : BitVec 16) (shift : Nat) : Result Inst :=
  let max_shift := if rd.is64 then 48 else 16
  if shift > max_shift ∨ shift % 16 ≠ 0 then
    .error (.ImmediateOutOfRange "MOVZ/MOVN/MOVK shift" shift)
  else .ok (.MovWide op rd imm16 shift)

def movz (rd : Reg) (imm16 : BitVec 16) (shift : Nat) : Result Inst := mov_wide .Movz rd imm16 shift

def movn (rd : Reg) (imm16 : BitVec 16) (shift : Nat) : Result Inst := mov_wide .Movn rd imm16 shift

def movk (rd : Reg) (imm16 : BitVec 16) (shift : Nat) : Result Inst := mov_wide .Movk rd imm16 shift

/-! ## ADD/SUB (immediate / shifted-reg / extended-reg) -/

/-- "The field-31-meaning check shared by every ADD/SUB (immediate) form". -/
def add_sub_imm_common (set_flags : Bool) (rd rn : Reg) (what : String) : Result Unit := do
  check_same_width rd rn what
  if rn.is_zr then
    .error (.InvalidRegisterForForm
      "ADD/SUB immediate Rn (field 31 is always SP here, never XZR/WZR)")
  else if set_flags then
    if rd.is_sp then
      .error (.InvalidRegisterForForm
        "ADDS/SUBS Rd (field 31 is always XZR/WZR here, never SP; use ADD/SUB for an SP destination)")
    else .ok ()
  else if rd.is_zr then
    .error (.InvalidRegisterForForm
      "ADD/SUB Rd (field 31 is always SP here, never XZR/WZR; use ADDS/SUBS for a discarded/flags-only result)")
  else .ok ()

def add_imm (rd rn : Reg) (imm : Uimm12Lsl) : Result Inst := do
  add_sub_imm_common false rd rn "ADD (immediate)"
  .ok (.AddSubImm .Add false rd rn imm .None)

def adds_imm (rd rn : Reg) (imm : Uimm12Lsl) : Result Inst := do
  add_sub_imm_common true rd rn "ADDS (immediate)"
  .ok (.AddSubImm .Add true rd rn imm .None)

def sub_imm (rd rn : Reg) (imm : Uimm12Lsl) : Result Inst := do
  add_sub_imm_common false rd rn "SUB (immediate)"
  .ok (.AddSubImm .Sub false rd rn imm .None)

def subs_imm (rd rn : Reg) (imm : Uimm12Lsl) : Result Inst := do
  add_sub_imm_common true rd rn "SUBS (immediate)"
  .ok (.AddSubImm .Sub true rd rn imm .None)

/-- "`CMP <Rn>, #imm` — alias of `SUBS XZR/WZR, Rn, #imm`." -/
def cmp_imm (rn : Reg) (imm : Uimm12Lsl) : Result Inst := do
  let rd := zr_of rn
  add_sub_imm_common true rd rn "CMP (immediate)"
  .ok (.AddSubImm .Sub true rd rn imm .Cmp)

/-- "`CMN <Rn>, #imm` — alias of `ADDS XZR/WZR, Rn, #imm`." -/
def cmn_imm (rn : Reg) (imm : Uimm12Lsl) : Result Inst := do
  let rd := zr_of rn
  add_sub_imm_common true rd rn "CMN (immediate)"
  .ok (.AddSubImm .Add true rd rn imm .Cmn)

def add_sub_shifted (op : AddSubOp) (set_flags : Bool) (rd rn rm : Reg) (shift : RegShift)
    (alias_ : AddSubAlias) : Result Inst := do
  if shift.kind = .Ror then
    .error (.InvalidShiftForForm "ADD/SUB shifted-register (ROR is not legal here)")
  else
    check_same_width rd rn "ADD/SUB shifted-register"
    check_same_width rd rm "ADD/SUB shifted-register"
    if rd.is_sp ∨ rn.is_sp ∨ rm.is_sp then
      .error (.InvalidRegisterForForm
        "ADD/SUB shifted-register (no SP operand; use extended-register form)")
    else .ok (.AddSubShiftedReg op set_flags rd rn rm shift alias_)

def add_shifted (rd rn rm : Reg) (shift : RegShift) : Result Inst :=
  add_sub_shifted .Add false rd rn rm shift .None

def adds_shifted (rd rn rm : Reg) (shift : RegShift) : Result Inst :=
  add_sub_shifted .Add true rd rn rm shift .None

def sub_shifted (rd rn rm : Reg) (shift : RegShift) : Result Inst :=
  add_sub_shifted .Sub false rd rn rm shift .None

def subs_shifted (rd rn rm : Reg) (shift : RegShift) : Result Inst :=
  add_sub_shifted .Sub true rd rn rm shift .None

/-- "`CMP <Rn>, <Rm>{, shift}` — alias of `SUBS XZR/WZR, Rn, Rm{, shift}`." -/
def cmp_shifted (rn rm : Reg) (shift : RegShift) : Result Inst :=
  add_sub_shifted .Sub true (zr_of rn) rn rm shift .Cmp

def cmn_shifted (rn rm : Reg) (shift : RegShift) : Result Inst :=
  add_sub_shifted .Add true (zr_of rn) rn rm shift .Cmn

/-- "`NEG <Rd>, <Rm>{, shift}` — alias of `SUB Rd, XZR/WZR, Rm{, shift}`." -/
def neg (rd rm : Reg) (shift : RegShift) : Result Inst :=
  add_sub_shifted .Sub false rd (zr_of rd) rm shift .Neg

def negs (rd rm : Reg) (shift : RegShift) : Result Inst :=
  add_sub_shifted .Sub true rd (zr_of rd) rm shift .Negs

def add_sub_extended (op : AddSubOp) (set_flags : Bool) (rd rn rm : Reg) (extend : RegExtend)
    (alias_ : AddSubAlias) : Result Inst :=
  let rm_must_be_64 : Bool := extend.kind = .Uxtx ∨ extend.kind = .Sxtx
  if rm.is_sp then .error (.InvalidRegisterForForm "ADD/SUB extended-register Rm")
  else if rd.is64 ≠ rn.is64 then .error (.RegisterWidthMismatch "ADD/SUB extended-register")
  else if rm.is64 ≠ rm_must_be_64 then
    .error (.RegisterWidthMismatch
      "ADD/SUB extended-register Rm width vs extend kind (UXTB/UXTH/UXTW/SXTB/SXTH/SXTW need Wm; UXTX/SXTX need Xm)")
  else if rm_must_be_64 ∧ ¬ rd.is64 then
    .error (.RegisterWidthMismatch
      "ADD/SUB extended-register: UXTX/SXTX require a 64-bit (X) destination")
  else .ok (.AddSubExtendedReg op set_flags rd rn rm extend alias_)

def add_extended (rd rn rm : Reg) (extend : RegExtend) : Result Inst :=
  add_sub_extended .Add false rd rn rm extend .None

def adds_extended (rd rn rm : Reg) (extend : RegExtend) : Result Inst :=
  add_sub_extended .Add true rd rn rm extend .None

def sub_extended (rd rn rm : Reg) (extend : RegExtend) : Result Inst :=
  add_sub_extended .Sub false rd rn rm extend .None

def subs_extended (rd rn rm : Reg) (extend : RegExtend) : Result Inst :=
  add_sub_extended .Sub true rd rn rm extend .None

def cmp_extended (rn rm : Reg) (extend : RegExtend) : Result Inst :=
  add_sub_extended .Sub true (zr_of rn) rn rm extend .Cmp

def cmn_extended (rn rm : Reg) (extend : RegExtend) : Result Inst :=
  add_sub_extended .Add true (zr_of rn) rn rm extend .Cmn

/-- "`MOV <Rd>, <Rn>` between SP and a GP register — alias of `ADD Rd, Rn, #0`". -/
def mov_sp (rd rn : Reg) : Result Inst := do
  add_sub_imm_common false rd rn "MOV (to/from SP)"
  .ok (.AddSubImm .Add false rd rn ⟨0, false⟩ .Mov)

/-! ## Logical (immediate / shifted-register) -/

def logical_imm (op : LogicalImmOp) (rd rn : Reg) (imm : LogicalImm) (alias_ : LogicalAlias) :
    Result Inst := do
  check_same_width rd rn "AND/ORR/EOR/ANDS (immediate)"
  if rd.is64 ≠ imm.is64 then
    .error (.RegisterWidthMismatch "logical immediate width vs register width")
  else if rn.is_sp then
    .error (.InvalidRegisterForForm "AND/ORR/EOR/ANDS (immediate) Rn (no SP)")
  else if op = .Ands ∧ rd.is_sp then
    .error (.InvalidRegisterForForm "ANDS (immediate) Rd (no SP; flag-setting form)")
  else .ok (.LogicalImmInst op rd rn imm alias_)

def and_imm (rd rn : Reg) (imm : LogicalImm) : Result Inst := logical_imm .And rd rn imm .None

def orr_imm (rd rn : Reg) (imm : LogicalImm) : Result Inst := logical_imm .Orr rd rn imm .None

def eor_imm (rd rn : Reg) (imm : LogicalImm) : Result Inst := logical_imm .Eor rd rn imm .None

def ands_imm (rd rn : Reg) (imm : LogicalImm) : Result Inst := logical_imm .Ands rd rn imm .None

/-- "`TST <Rn>, #imm` — alias of `ANDS XZR/WZR, Rn, #imm`." -/
def tst_imm (rn : Reg) (imm : LogicalImm) : Result Inst :=
  logical_imm .Ands (zr_of rn) rn imm .Tst

def logical_shifted (op : LogicalShiftOp) (rd rn rm : Reg) (shift : RegShift)
    (alias_ : LogicalAlias) : Result Inst := do
  check_same_width rd rn "logical shifted-register"
  check_same_width rd rm "logical shifted-register"
  if rd.is_sp ∨ rn.is_sp ∨ rm.is_sp then
    .error (.InvalidRegisterForForm "logical shifted-register (no SP operand)")
  else .ok (.LogicalShiftedReg op rd rn rm shift alias_)

def and_shifted (rd rn rm : Reg) (shift : RegShift) : Result Inst :=
  logical_shifted .And rd rn rm shift .None

def orr_shifted (rd rn rm : Reg) (shift : RegShift) : Result Inst :=
  logical_shifted .Orr rd rn rm shift .None

def eor_shifted (rd rn rm : Reg) (shift : RegShift) : Result Inst :=
  logical_shifted .Eor rd rn rm shift .None

def ands_shifted (rd rn rm : Reg) (shift : RegShift) : Result Inst :=
  logical_shifted .Ands rd rn rm shift .None

def bic_shifted (rd rn rm : Reg) (shift : RegShift) : Result Inst :=
  logical_shifted .Bic rd rn rm shift .None

def orn_shifted (rd rn rm : Reg) (shift : RegShift) : Result Inst :=
  logical_shifted .Orn rd rn rm shift .None

def eon_shifted (rd rn rm : Reg) (shift : RegShift) : Result Inst :=
  logical_shifted .Eon rd rn rm shift .None

def bics_shifted (rd rn rm : Reg) (shift : RegShift) : Result Inst :=
  logical_shifted .Bics rd rn rm shift .None

/-- "`MVN <Rd>, <Rm>{, shift}` — alias of `ORN Rd, XZR/WZR, Rm{, shift}`." -/
def mvn (rd rm : Reg) (shift : RegShift) : Result Inst :=
  logical_shifted .Orn rd (zr_of rd) rm shift .Mvn

/-- "`TST <Rn>, <Rm>{, shift}` — alias of `ANDS XZR/WZR, Rn, Rm{, shift}`." -/
def tst_reg (rn rm : Reg) (shift : RegShift) : Result Inst :=
  logical_shifted .Ands (zr_of rn) rn rm shift .Tst

/-- "`MOV <Rd>, <Rm>` (no SP involved) — alias of `ORR Rd, XZR/WZR, Rm`." -/
def mov_reg (rd rm : Reg) : Result Inst := logical_shifted .Orr rd (zr_of rd) rm .none .Mov

/-! ## Bitfield: UBFM/SBFM/BFM + shift/extend aliases -/

def bitfield_raw (op : BitfieldOp) (rd rn : Reg) (immr imms : Fin 64) (alias_ : BitfieldAlias) :
    Result Inst := do
  check_same_width rd rn "UBFM/SBFM/BFM"
  let max := if rd.is64 then 63 else 31
  if immr.val > max then .error (.ImmediateOutOfRange "immr" immr.val)
  else if imms.val > max then .error (.ImmediateOutOfRange "imms" imms.val)
  else if rd.is_sp ∨ rn.is_sp then
    .error (.InvalidRegisterForForm "UBFM/SBFM/BFM (no SP operand)")
  else .ok (.Bitfield op rd rn immr imms alias_)

/-- `bitfield_raw` on a `u8` for each immediate. -/
def bitfield_u8 (op : BitfieldOp) (rd rn : Reg) (immr imms : Nat) (alias_ : BitfieldAlias) :
    Result Inst := do
  check_same_width rd rn "UBFM/SBFM/BFM"
  if hr : immr < 64 then
    if hs : imms < 64 then bitfield_raw op rd rn ⟨immr, hr⟩ ⟨imms, hs⟩ alias_
    else if immr > (if rd.is64 then 63 else 31) then .error (.ImmediateOutOfRange "immr" immr)
    else .error (.ImmediateOutOfRange "imms" imms)
  else .error (.ImmediateOutOfRange "immr" immr)

def ubfm (rd rn : Reg) (immr imms : Nat) : Result Inst := bitfield_u8 .Ubfm rd rn immr imms .None

def sbfm (rd rn : Reg) (immr imms : Nat) : Result Inst := bitfield_u8 .Sbfm rd rn immr imms .None

def bfm (rd rn : Reg) (immr imms : Nat) : Result Inst := bitfield_u8 .Bfm rd rn immr imms .None

/-- "`LSL <Rd>, <Rn>, #shift` — alias of `UBFM Rd, Rn, #(-shift MOD width), #(width-1-shift)`." -/
def lsl_imm (rd rn : Reg) (shift : Nat) : Result Inst :=
  let width := if rd.is64 then 64 else 32
  if shift ≥ width then .error (.ImmediateOutOfRange "LSL immediate shift" shift)
  else bitfield_u8 .Ubfm rd rn ((width - shift) % width) (width - 1 - shift) .Lsl

/-- "`LSR <Rd>, <Rn>, #shift` — alias of `UBFM Rd, Rn, #shift, #(width-1)`." -/
def lsr_imm (rd rn : Reg) (shift : Nat) : Result Inst :=
  let width := if rd.is64 then 64 else 32
  if shift ≥ width then .error (.ImmediateOutOfRange "LSR immediate shift" shift)
  else bitfield_u8 .Ubfm rd rn shift (width - 1) .Lsr

/-- "`ASR <Rd>, <Rn>, #shift` — alias of `SBFM Rd, Rn, #shift, #(width-1)`." -/
def asr_imm (rd rn : Reg) (shift : Nat) : Result Inst :=
  if h : shift < 64 ∧ (rd.is64 ∨ shift < 32) then
    bitfield_raw .Sbfm rd rn ⟨shift, h.1⟩ (if rd.is64 then 63 else 31) .Asr
  else .error (.ImmediateOutOfRange "ASR immediate shift" shift)

def sxtb (rd rn : Reg) : Result Inst := bitfield_raw .Sbfm rd rn 0 7 .Sxtb

def sxth (rd rn : Reg) : Result Inst := bitfield_raw .Sbfm rd rn 0 15 .Sxth

/-- "`SXTW <Xd>, <Wn>` — the one sign-extend alias that changes width". -/
def sxtw (rd rn : Reg) : Result Inst :=
  if ¬ rd.is64 ∨ rn.is64 then .error (.RegisterWidthMismatch "SXTW (Xd, Wn)")
  else bitfield_raw .Sbfm rd (rn.with64 true) 0 31 .Sxtw

def uxtb (rd rn : Reg) : Result Inst :=
  if rd.is64 ∨ rn.is64 then .error (.RegisterWidthMismatch "UXTB is a 32-bit-only alias")
  else bitfield_raw .Ubfm rd rn 0 7 .Uxtb

def uxth (rd rn : Reg) : Result Inst :=
  if rd.is64 ∨ rn.is64 then .error (.RegisterWidthMismatch "UXTH is a 32-bit-only alias")
  else bitfield_raw .Ubfm rd rn 0 15 .Uxth

/-! ## Data-processing -/

def data_proc_2 (op : DataProc2Op) (rd rn rm : Reg) : Result Inst := do
  check_same_width rd rn "data-processing (2 source)"
  check_same_width rd rm "data-processing (2 source)"
  if rd.is_sp ∨ rn.is_sp ∨ rm.is_sp then
    .error (.InvalidRegisterForForm "data-processing (2 source), no SP operand")
  else .ok (.DataProc2Source op rd rn rm)

def udiv (rd rn rm : Reg) : Result Inst := data_proc_2 .Udiv rd rn rm

def sdiv (rd rn rm : Reg) : Result Inst := data_proc_2 .Sdiv rd rn rm

def lslv (rd rn rm : Reg) : Result Inst := data_proc_2 .Lslv rd rn rm

def lsrv (rd rn rm : Reg) : Result Inst := data_proc_2 .Lsrv rd rn rm

def asrv (rd rn rm : Reg) : Result Inst := data_proc_2 .Asrv rd rn rm

def rorv (rd rn rm : Reg) : Result Inst := data_proc_2 .Rorv rd rn rm

def madd (rd rn rm ra : Reg) : Result Inst := do
  check_same_width rd rn "MADD"
  check_same_width rd rm "MADD"
  check_same_width rd ra "MADD"
  if rd.is_sp ∨ rn.is_sp ∨ rm.is_sp ∨ ra.is_sp then
    .error (.InvalidRegisterForForm "MADD (no SP operand)")
  else .ok (.DataProc3Source .Madd rd rn rm ra false)

def msub (rd rn rm ra : Reg) : Result Inst := do
  check_same_width rd rn "MSUB"
  check_same_width rd rm "MSUB"
  check_same_width rd ra "MSUB"
  if rd.is_sp ∨ rn.is_sp ∨ rm.is_sp ∨ ra.is_sp then
    .error (.InvalidRegisterForForm "MSUB (no SP operand)")
  else .ok (.DataProc3Source .Msub rd rn rm ra false)

/-- "`MUL <Rd>, <Rn>, <Rm>` — alias of `MADD Rd, Rn, Rm, XZR/WZR`." -/
def mul (rd rn rm : Reg) : Result Inst := do
  check_same_width rd rn "MUL"
  check_same_width rd rm "MUL"
  .ok (.DataProc3Source .Madd rd rn rm (zr_of rd) true)

def mulh (op : DataProc3Op) (rd rn rm : Reg) : Result Inst :=
  if ¬ rd.is64 ∨ ¬ rn.is64 ∨ ¬ rm.is64 then
    .error (.RegisterWidthMismatch "SMULH/UMULH is 64-bit only")
  else .ok (.DataProc3Source op rd rn rm Reg.xzr false)

def smulh (rd rn rm : Reg) : Result Inst := mulh .Smulh rd rn rm

def umulh (rd rn rm : Reg) : Result Inst := mulh .Umulh rd rn rm

def data_proc_1 (op : DataProc1Op) (rd rn : Reg) : Result Inst := do
  check_same_width rd rn "CLZ/RBIT/REV"
  if rd.is_sp ∨ rn.is_sp then
    .error (.InvalidRegisterForForm "CLZ/RBIT/REV (no SP operand)")
  else .ok (.DataProc1Source op rd rn)

def clz (rd rn : Reg) : Result Inst := data_proc_1 .Clz rd rn

def rbit (rd rn : Reg) : Result Inst := data_proc_1 .Rbit rd rn

def rev (rd rn : Reg) : Result Inst := data_proc_1 .Rev rd rn

/-! ## Conditional select -/

def cond_select (op : CondSelectOp) (rd rn rm : Reg) (cond : Cond) (alias_ : CondSelectAlias) :
    Result Inst := do
  check_same_width rd rn "CSEL/CSINC/CSINV/CSNEG"
  check_same_width rd rm "CSEL/CSINC/CSINV/CSNEG"
  if rd.is_sp ∨ rn.is_sp ∨ rm.is_sp then
    .error (.InvalidRegisterForForm "CSEL/CSINC/CSINV/CSNEG (no SP operand)")
  else .ok (.CondSelect op rd rn rm cond alias_)

def csel (rd rn rm : Reg) (cond : Cond) : Result Inst := cond_select .Csel rd rn rm cond .None

def csinc (rd rn rm : Reg) (cond : Cond) : Result Inst := cond_select .Csinc rd rn rm cond .None

def csinv (rd rn rm : Reg) (cond : Cond) : Result Inst := cond_select .Csinv rd rn rm cond .None

def csneg (rd rn rm : Reg) (cond : Cond) : Result Inst := cond_select .Csneg rd rn rm cond .None

def require_conditional (cond : Cond) (what : String) : Result Unit :=
  if cond = .AL ∨ cond = .NV then .error (.InvalidShiftForForm what) else .ok ()

/-- "`CSET <Rd>, <cond>` — alias of `CSINC Rd, ZR, ZR, invert(cond)`." -/
def cset (rd : Reg) (cond : Cond) : Result Inst := do
  require_conditional cond "CSET"
  cond_select .Csinc rd (zr_of rd) (zr_of rd) cond.inverted .Cset

def csetm (rd : Reg) (cond : Cond) : Result Inst := do
  require_conditional cond "CSETM"
  cond_select .Csinv rd (zr_of rd) (zr_of rd) cond.inverted .Csetm

def cinc (rd rn : Reg) (cond : Cond) : Result Inst := do
  require_conditional cond "CINC"
  cond_select .Csinc rd rn rn cond.inverted .Cinc

def cinv (rd rn : Reg) (cond : Cond) : Result Inst := do
  require_conditional cond "CINV"
  cond_select .Csinv rd rn rn cond.inverted .Cinv

def cneg (rd rn : Reg) (cond : Cond) : Result Inst := do
  require_conditional cond "CNEG"
  cond_select .Csneg rd rn rn cond.inverted .Cneg

/-! ## PC-relative address and branches -/

def adr (rd : Reg) (offset : AdrOffset) : Result Inst :=
  if ¬ rd.is64 then .error (.RegisterWidthMismatch "ADR destination is always 64-bit")
  else .ok (.Adr rd offset)

def adrp (rd : Reg) (offset : AdrpOffset) : Result Inst :=
  if ¬ rd.is64 then .error (.RegisterWidthMismatch "ADRP destination is always 64-bit")
  else .ok (.Adrp rd offset)

def b (offset : BranchOffset) : Inst := .Branch false offset

def bl (offset : BranchOffset) : Inst := .Branch true offset

def b_cond (cond : Cond) (offset : BranchOffset) : Inst := .BranchCond cond offset

def cbz (rt : Reg) (offset : BranchOffset) : Inst := .CompareBranch rt.is64 false rt offset

def cbnz (rt : Reg) (offset : BranchOffset) : Inst := .CompareBranch rt.is64 true rt offset

def test_branch (is_nonzero : Bool) (rt : Reg) (bit : Nat) (offset : BranchOffset) : Result Inst :=
  if h : bit < 64 ∧ (rt.is64 ∨ bit < 32) then .ok (.TestBranch is_nonzero rt ⟨bit, h.1⟩ offset)
  else .error (.ImmediateOutOfRange "TBZ/TBNZ bit index" bit)

def tbz (rt : Reg) (bit : Nat) (offset : BranchOffset) : Result Inst :=
  test_branch false rt bit offset

def tbnz (rt : Reg) (bit : Nat) (offset : BranchOffset) : Result Inst :=
  test_branch true rt bit offset

def br (rn : Reg) : Result Inst :=
  if ¬ rn.is64 then .error (.RegisterWidthMismatch "BR target is always 64-bit")
  else .ok (.BranchReg rn)

def blr (rn : Reg) : Result Inst :=
  if ¬ rn.is64 then .error (.RegisterWidthMismatch "BLR target is always 64-bit")
  else .ok (.BranchLinkReg rn)

def ret (rn : Reg) : Result Inst :=
  if ¬ rn.is64 then .error (.RegisterWidthMismatch "RET target is always 64-bit")
  else .ok (.Ret rn)

/-! ## Loads/stores -/

def AddrMode.has_writeback : AddrMode → Bool
  | .PreIndex _ => true
  | .PostIndex _ => true
  | _ => false

def load_store (op : LdStOp) (rt rn : Reg) (mode : AddrMode) : Result Inst :=
  if rt.is64 ≠ op.rt_is64 then
    .error (.RegisterWidthMismatch "load/store Rt width vs mnemonic")
  else if ¬ rn.is_sp ∧ rn.is_zr then
    .error (.InvalidRegisterForForm
      "load/store base register (XZR is not a real base; use an explicit address)")
  else if ¬ rn.is64 then
    .error (.RegisterWidthMismatch "load/store base register is always 64-bit")
  else if AddrMode.has_writeback mode ∧ rt.encoding = rn.encoding then
    .error (.InvalidRegisterForForm "load/store writeback: Rt and Rn name the same register")
  else .ok (.LoadStoreImm op rt rn mode)

def ldr (rt rn : Reg) (mode : AddrMode) : Result Inst :=
  load_store (if rt.is64 then .LdrX else .LdrW) rt rn mode

def str_ (rt rn : Reg) (mode : AddrMode) : Result Inst :=
  load_store (if rt.is64 then .StrX else .StrW) rt rn mode

def ldrb (rt rn : Reg) (mode : AddrMode) : Result Inst := load_store .LdrB rt rn mode

def strb (rt rn : Reg) (mode : AddrMode) : Result Inst := load_store .StrB rt rn mode

def ldrh (rt rn : Reg) (mode : AddrMode) : Result Inst := load_store .LdrH rt rn mode

def strh (rt rn : Reg) (mode : AddrMode) : Result Inst := load_store .StrH rt rn mode

def ldrsb (rt rn : Reg) (mode : AddrMode) : Result Inst := load_store (.LdrSb rt.is64) rt rn mode

def ldrsh (rt rn : Reg) (mode : AddrMode) : Result Inst := load_store (.LdrSh rt.is64) rt rn mode

def ldrsw (rt rn : Reg) (mode : AddrMode) : Result Inst := load_store .LdrSw rt rn mode

def load_store_pair (is_load : Bool) (rt1 rt2 rn : Reg) (imm : SImm7Scaled) (index : PairIndex) :
    Result Inst := do
  check_same_width rt1 rt2 "LDP/STP"
  let has_writeback := index = .PreIndex ∨ index = .PostIndex
  if ¬ rn.is64 then
    .error (.RegisterWidthMismatch "LDP/STP base register is always 64-bit")
  else if has_writeback ∧ (rt1.encoding = rn.encoding ∨ rt2.encoding = rn.encoding) then
    .error (.InvalidRegisterForForm "LDP/STP writeback: Rt1/Rt2 and Rn name the same register")
  else if is_load ∧ rt1.encoding = rt2.encoding then
    .error (.InvalidRegisterForForm "LDP Rt1 and Rt2 name the same register")
  else .ok (.LoadStorePair is_load rt1.is64 rt1 rt2 rn imm index)

def ldp (rt1 rt2 rn : Reg) (imm : SImm7Scaled) (index : PairIndex) : Result Inst :=
  load_store_pair true rt1 rt2 rn imm index

def stp (rt1 rt2 rn : Reg) (imm : SImm7Scaled) (index : PairIndex) : Result Inst :=
  load_store_pair false rt1 rt2 rn imm index

/-! ## System -/

def nop : Inst := .System .Nop

def brk (imm16 : BitVec 16) : Inst := .System (.Brk imm16)

def svc (imm16 : BitVec 16) : Inst := .System (.Svc imm16)

def udf (imm16 : BitVec 16) : Inst := .System (.Udf imm16)

/-! ## Scalar floating point -/

def check_same_fp_width (a b : FpReg) (what : String) : Result Unit :=
  if a.is_double ≠ b.is_double then .error (.RegisterWidthMismatch what) else .ok ()

def fp_unary (op : FpUnaryOp) (what : String) (rd rn : FpReg) : Result Inst := do
  check_same_fp_width rd rn what
  .ok (.FpDataProc1 op rd rn)

def fmov_reg (rd rn : FpReg) : Result Inst := fp_unary .Fmov "FMOV (register)" rd rn

def fabs (rd rn : FpReg) : Result Inst := fp_unary .Fabs "FABS" rd rn

def fneg (rd rn : FpReg) : Result Inst := fp_unary .Fneg "FNEG" rd rn

def fsqrt (rd rn : FpReg) : Result Inst := fp_unary .Fsqrt "FSQRT" rd rn

/-- "`FCVT <Dd>, <Sn>` or `FCVT <Sd>, <Dn>` — the two widths must differ". -/
def fcvt (rd rn : FpReg) : Result Inst :=
  if rd.is_double = rn.is_double then
    .error (.RegisterWidthMismatch "FCVT requires differing S/D widths (use FMOV for same-width)")
  else .ok (.FpConvert rd rn)

def fp_binop (op : FpBinOp) (rd rn rm : FpReg) : Result Inst := do
  check_same_fp_width rd rn "FADD/FSUB/FMUL/FDIV"
  check_same_fp_width rd rm "FADD/FSUB/FMUL/FDIV"
  .ok (.FpDataProc2 op rd rn rm)

def fadd (rd rn rm : FpReg) : Result Inst := fp_binop .Fadd rd rn rm

def fsub (rd rn rm : FpReg) : Result Inst := fp_binop .Fsub rd rn rm

def fmul (rd rn rm : FpReg) : Result Inst := fp_binop .Fmul rd rn rm

def fdiv (rd rn rm : FpReg) : Result Inst := fp_binop .Fdiv rd rn rm

def fmadd (rd rn rm ra : FpReg) : Result Inst := do
  check_same_fp_width rd rn "FMADD"
  check_same_fp_width rd rm "FMADD"
  check_same_fp_width rd ra "FMADD"
  .ok (.FpMadd rd rn rm ra)

def fcmp (rn rm : FpReg) : Result Inst := do
  check_same_fp_width rn rm "FCMP"
  .ok (.FpCompare rn rm)

def fcsel (rd rn rm : FpReg) (cond : Cond) : Result Inst := do
  check_same_fp_width rd rn "FCSEL"
  check_same_fp_width rd rm "FCSEL"
  .ok (.FpCondSelect rd rn rm cond)

def fmov_imm (rd : FpReg) (imm : FpImm8) : Result Inst :=
  if rd.is_double ≠ imm.is64 then
    .error (.RegisterWidthMismatch "FMOV immediate width vs destination register")
  else .ok (.FpImmMove rd imm)

def fmov_to_gp (rd : Reg) (rn : FpReg) : Result Inst :=
  if rd.is64 ≠ rn.is_double then
    .error (.RegisterWidthMismatch "FMOV Xd/Wd, Dn/Sn width mismatch")
  else .ok (.FpToGp rd rn)

def fmov_from_gp (rd : FpReg) (rn : Reg) : Result Inst :=
  if rd.is_double ≠ rn.is64 then
    .error (.RegisterWidthMismatch "FMOV Dd/Sd, Xn/Wn width mismatch")
  else .ok (.GpToFp rd rn)

def scvtf (rd : FpReg) (rn : Reg) : Result Inst := .ok (.FpIntConvert .Scvtf rn rd)

def ucvtf (rd : FpReg) (rn : Reg) : Result Inst := .ok (.FpIntConvert .Ucvtf rn rd)

def fcvtzs (rd : Reg) (rn : FpReg) : Result Inst := .ok (.FpIntConvert .Fcvtzs rd rn)

def fcvtzu (rd : Reg) (rn : FpReg) : Result Inst := .ok (.FpIntConvert .Fcvtzu rd rn)

def load_store_fp (is_load : Bool) (rt : FpReg) (rn : Reg) (mode : AddrMode) : Result Inst :=
  if ¬ rn.is64 then
    .error (.RegisterWidthMismatch "load/store base register is always 64-bit")
  else .ok (.FpLoadStoreImm is_load rt rn mode)

def ldr_fp (rt : FpReg) (rn : Reg) (mode : AddrMode) : Result Inst := load_store_fp true rt rn mode

def str_fp (rt : FpReg) (rn : Reg) (mode : AddrMode) : Result Inst := load_store_fp false rt rn mode

end Inst

end Fors.Asm
