import Fors.Asm.Inst

/-!
# What the constructors build

`Made` says of an operand that its own constructor returned it, `Built` says of an instruction that
one of the public constructors did.  What each of them checks is one lemma, and `Built.valid` puts
the checks together, encoding shape by encoding shape.

Principal result: `Built.valid`.
-/

namespace Fors.Asm

attribute [local instance] neZero_num

/-! ## Operands -/

/-- A register that the functions of `Reg` return. -/
inductive Reg.Made : Reg → Prop where
  | x (n : Fin 31) : Made (Reg.x n)
  | w (n : Fin 31) : Made (Reg.w n)
  | sp : Made Reg.sp
  | wsp : Made Reg.wsp
  | xzr : Made Reg.xzr
  | wzr : Made Reg.wzr
  | with64 {r : Reg} (is64 : Bool) (h : Made r) : Made (r.with64 is64)

def Uimm12Lsl.Made (imm : Uimm12Lsl) : Prop := ∃ value, Uimm12Lsl.new value = .ok imm

def LogicalImm.Made (imm : LogicalImm) : Prop := ∃ value is64, LogicalImm.new value is64 = .ok imm

def RegShift.Made (shift : RegShift) : Prop :=
  shift = .none ∨ ∃ kind amount is64, RegShift.new kind amount is64 = .ok shift

def RegExtend.Made (extend : RegExtend) : Prop := ∃ kind amount, RegExtend.new kind amount = .ok extend

/-- For another number of bits the bounds of `new` overflow. -/
def BranchOffset.Made (offset : BranchOffset) : Prop :=
  ∃ bytes bits what, 1 ≤ bits ∧ bits ≤ 63 ∧ BranchOffset.new bytes bits what = .ok offset

def AdrOffset.Made (offset : AdrOffset) : Prop := ∃ bytes, AdrOffset.new bytes = .ok offset

def AdrpOffset.Made (offset : AdrpOffset) : Prop := ∃ pages, AdrpOffset.new pages = .ok offset

def Simm9.Made (imm : Simm9) : Prop := ∃ bytes, Simm9.new bytes = .ok imm

/-- An access of no bytes stops `new` at its division. -/
def UScaledImm12.Made (imm : UScaledImm12) : Prop :=
  ∃ bytes access_size, 1 ≤ access_size ∧ access_size < 2 ^ 32 ∧
    UScaledImm12.new bytes access_size = .ok imm

def SImm7Scaled.Made (imm : SImm7Scaled) : Prop :=
  ∃ bytes access_size, 1 ≤ access_size ∧ access_size < 2 ^ 32 ∧
    SImm7Scaled.new bytes access_size = .ok imm

def FpImm8.Made (imm : FpImm8) : Prop := ∃ bits is64, FpImm8.from_bits bits is64 = .ok imm

def RegOffset.Made (ro : RegOffset) : Prop :=
  ∃ rm extend shifted, rm.Made ∧ RegOffset.new rm extend shifted = .ok ro

def AddrMode.Made : AddrMode → Prop
  | .UnsignedOffset imm => imm.Made
  | .Unscaled imm => imm.Made
  | .PreIndex imm => imm.Made
  | .PostIndex imm => imm.Made
  | .RegOffset ro => ro.Made

/-! ## Instructions -/

/-- An instruction that a public constructor returns. -/
inductive Built : Inst → Prop where
  | movz {rd imm16 shift i} (hrd : Reg.Made rd) (h : Inst.movz rd imm16 shift = .ok i) : Built i
  | movn {rd imm16 shift i} (hrd : Reg.Made rd) (h : Inst.movn rd imm16 shift = .ok i) : Built i
  | movk {rd imm16 shift i} (hrd : Reg.Made rd) (h : Inst.movk rd imm16 shift = .ok i) : Built i
  | add_imm {rd rn imm i} (hrd : Reg.Made rd) (hrn : Reg.Made rn) (himm : Uimm12Lsl.Made imm)
      (h : Inst.add_imm rd rn imm = .ok i) : Built i
  | adds_imm {rd rn imm i} (hrd : Reg.Made rd) (hrn : Reg.Made rn) (himm : Uimm12Lsl.Made imm)
      (h : Inst.adds_imm rd rn imm = .ok i) : Built i
  | sub_imm {rd rn imm i} (hrd : Reg.Made rd) (hrn : Reg.Made rn) (himm : Uimm12Lsl.Made imm)
      (h : Inst.sub_imm rd rn imm = .ok i) : Built i
  | subs_imm {rd rn imm i} (hrd : Reg.Made rd) (hrn : Reg.Made rn) (himm : Uimm12Lsl.Made imm)
      (h : Inst.subs_imm rd rn imm = .ok i) : Built i
  | cmp_imm {rn imm i} (hrn : Reg.Made rn) (himm : Uimm12Lsl.Made imm)
      (h : Inst.cmp_imm rn imm = .ok i) : Built i
  | cmn_imm {rn imm i} (hrn : Reg.Made rn) (himm : Uimm12Lsl.Made imm)
      (h : Inst.cmn_imm rn imm = .ok i) : Built i
  | add_shifted {rd rn rm shift i} (hrd : Reg.Made rd) (hrn : Reg.Made rn) (hrm : Reg.Made rm)
      (hs : RegShift.Made shift) (h : Inst.add_shifted rd rn rm shift = .ok i) : Built i
  | adds_shifted {rd rn rm shift i} (hrd : Reg.Made rd) (hrn : Reg.Made rn) (hrm : Reg.Made rm)
      (hs : RegShift.Made shift) (h : Inst.adds_shifted rd rn rm shift = .ok i) : Built i
  | sub_shifted {rd rn rm shift i} (hrd : Reg.Made rd) (hrn : Reg.Made rn) (hrm : Reg.Made rm)
      (hs : RegShift.Made shift) (h : Inst.sub_shifted rd rn rm shift = .ok i) : Built i
  | subs_shifted {rd rn rm shift i} (hrd : Reg.Made rd) (hrn : Reg.Made rn) (hrm : Reg.Made rm)
      (hs : RegShift.Made shift) (h : Inst.subs_shifted rd rn rm shift = .ok i) : Built i
  | cmp_shifted {rn rm shift i} (hrn : Reg.Made rn) (hrm : Reg.Made rm) (hs : RegShift.Made shift)
      (h : Inst.cmp_shifted rn rm shift = .ok i) : Built i
  | cmn_shifted {rn rm shift i} (hrn : Reg.Made rn) (hrm : Reg.Made rm) (hs : RegShift.Made shift)
      (h : Inst.cmn_shifted rn rm shift = .ok i) : Built i
  | neg {rd rm shift i} (hrd : Reg.Made rd) (hrm : Reg.Made rm) (hs : RegShift.Made shift)
      (h : Inst.neg rd rm shift = .ok i) : Built i
  | negs {rd rm shift i} (hrd : Reg.Made rd) (hrm : Reg.Made rm) (hs : RegShift.Made shift)
      (h : Inst.negs rd rm shift = .ok i) : Built i
  | add_extended {rd rn rm extend i} (hrd : Reg.Made rd) (hrn : Reg.Made rn) (hrm : Reg.Made rm)
      (he : RegExtend.Made extend) (h : Inst.add_extended rd rn rm extend = .ok i) : Built i
  | adds_extended {rd rn rm extend i} (hrd : Reg.Made rd) (hrn : Reg.Made rn) (hrm : Reg.Made rm)
      (he : RegExtend.Made extend) (h : Inst.adds_extended rd rn rm extend = .ok i) : Built i
  | sub_extended {rd rn rm extend i} (hrd : Reg.Made rd) (hrn : Reg.Made rn) (hrm : Reg.Made rm)
      (he : RegExtend.Made extend) (h : Inst.sub_extended rd rn rm extend = .ok i) : Built i
  | subs_extended {rd rn rm extend i} (hrd : Reg.Made rd) (hrn : Reg.Made rn) (hrm : Reg.Made rm)
      (he : RegExtend.Made extend) (h : Inst.subs_extended rd rn rm extend = .ok i) : Built i
  | cmp_extended {rn rm extend i} (hrn : Reg.Made rn) (hrm : Reg.Made rm)
      (he : RegExtend.Made extend) (h : Inst.cmp_extended rn rm extend = .ok i) : Built i
  | cmn_extended {rn rm extend i} (hrn : Reg.Made rn) (hrm : Reg.Made rm)
      (he : RegExtend.Made extend) (h : Inst.cmn_extended rn rm extend = .ok i) : Built i
  | mov_sp {rd rn i} (hrd : Reg.Made rd) (hrn : Reg.Made rn) (h : Inst.mov_sp rd rn = .ok i) : Built i
  | and_imm {rd rn imm i} (hrd : Reg.Made rd) (hrn : Reg.Made rn) (himm : LogicalImm.Made imm)
      (h : Inst.and_imm rd rn imm = .ok i) : Built i
  | orr_imm {rd rn imm i} (hrd : Reg.Made rd) (hrn : Reg.Made rn) (himm : LogicalImm.Made imm)
      (h : Inst.orr_imm rd rn imm = .ok i) : Built i
  | eor_imm {rd rn imm i} (hrd : Reg.Made rd) (hrn : Reg.Made rn) (himm : LogicalImm.Made imm)
      (h : Inst.eor_imm rd rn imm = .ok i) : Built i
  | ands_imm {rd rn imm i} (hrd : Reg.Made rd) (hrn : Reg.Made rn) (himm : LogicalImm.Made imm)
      (h : Inst.ands_imm rd rn imm = .ok i) : Built i
  | tst_imm {rn imm i} (hrn : Reg.Made rn) (himm : LogicalImm.Made imm)
      (h : Inst.tst_imm rn imm = .ok i) : Built i
  | and_shifted {rd rn rm shift i} (hrd : Reg.Made rd) (hrn : Reg.Made rn) (hrm : Reg.Made rm)
      (hs : RegShift.Made shift) (h : Inst.and_shifted rd rn rm shift = .ok i) : Built i
  | orr_shifted {rd rn rm shift i} (hrd : Reg.Made rd) (hrn : Reg.Made rn) (hrm : Reg.Made rm)
      (hs : RegShift.Made shift) (h : Inst.orr_shifted rd rn rm shift = .ok i) : Built i
  | eor_shifted {rd rn rm shift i} (hrd : Reg.Made rd) (hrn : Reg.Made rn) (hrm : Reg.Made rm)
      (hs : RegShift.Made shift) (h : Inst.eor_shifted rd rn rm shift = .ok i) : Built i
  | ands_shifted {rd rn rm shift i} (hrd : Reg.Made rd) (hrn : Reg.Made rn) (hrm : Reg.Made rm)
      (hs : RegShift.Made shift) (h : Inst.ands_shifted rd rn rm shift = .ok i) : Built i
  | bic_shifted {rd rn rm shift i} (hrd : Reg.Made rd) (hrn : Reg.Made rn) (hrm : Reg.Made rm)
      (hs : RegShift.Made shift) (h : Inst.bic_shifted rd rn rm shift = .ok i) : Built i
  | orn_shifted {rd rn rm shift i} (hrd : Reg.Made rd) (hrn : Reg.Made rn) (hrm : Reg.Made rm)
      (hs : RegShift.Made shift) (h : Inst.orn_shifted rd rn rm shift = .ok i) : Built i
  | eon_shifted {rd rn rm shift i} (hrd : Reg.Made rd) (hrn : Reg.Made rn) (hrm : Reg.Made rm)
      (hs : RegShift.Made shift) (h : Inst.eon_shifted rd rn rm shift = .ok i) : Built i
  | bics_shifted {rd rn rm shift i} (hrd : Reg.Made rd) (hrn : Reg.Made rn) (hrm : Reg.Made rm)
      (hs : RegShift.Made shift) (h : Inst.bics_shifted rd rn rm shift = .ok i) : Built i
  | mvn {rd rm shift i} (hrd : Reg.Made rd) (hrm : Reg.Made rm) (hs : RegShift.Made shift)
      (h : Inst.mvn rd rm shift = .ok i) : Built i
  | tst_reg {rn rm shift i} (hrn : Reg.Made rn) (hrm : Reg.Made rm) (hs : RegShift.Made shift)
      (h : Inst.tst_reg rn rm shift = .ok i) : Built i
  | mov_reg {rd rm i} (hrd : Reg.Made rd) (hrm : Reg.Made rm) (h : Inst.mov_reg rd rm = .ok i) :
      Built i
  | ubfm {rd rn immr imms i} (hrd : Reg.Made rd) (hrn : Reg.Made rn)
      (h : Inst.ubfm rd rn immr imms = .ok i) : Built i
  | sbfm {rd rn immr imms i} (hrd : Reg.Made rd) (hrn : Reg.Made rn)
      (h : Inst.sbfm rd rn immr imms = .ok i) : Built i
  | bfm {rd rn immr imms i} (hrd : Reg.Made rd) (hrn : Reg.Made rn)
      (h : Inst.bfm rd rn immr imms = .ok i) : Built i
  | lsl_imm {rd rn shift i} (hrd : Reg.Made rd) (hrn : Reg.Made rn)
      (h : Inst.lsl_imm rd rn shift = .ok i) : Built i
  | lsr_imm {rd rn shift i} (hrd : Reg.Made rd) (hrn : Reg.Made rn)
      (h : Inst.lsr_imm rd rn shift = .ok i) : Built i
  | asr_imm {rd rn shift i} (hrd : Reg.Made rd) (hrn : Reg.Made rn)
      (h : Inst.asr_imm rd rn shift = .ok i) : Built i
  | sxtb {rd rn i} (hrd : Reg.Made rd) (hrn : Reg.Made rn) (h : Inst.sxtb rd rn = .ok i) : Built i
  | sxth {rd rn i} (hrd : Reg.Made rd) (hrn : Reg.Made rn) (h : Inst.sxth rd rn = .ok i) : Built i
  | sxtw {rd rn i} (hrd : Reg.Made rd) (hrn : Reg.Made rn) (h : Inst.sxtw rd rn = .ok i) : Built i
  | uxtb {rd rn i} (hrd : Reg.Made rd) (hrn : Reg.Made rn) (h : Inst.uxtb rd rn = .ok i) : Built i
  | uxth {rd rn i} (hrd : Reg.Made rd) (hrn : Reg.Made rn) (h : Inst.uxth rd rn = .ok i) : Built i
  | udiv {rd rn rm i} (hrd : Reg.Made rd) (hrn : Reg.Made rn) (hrm : Reg.Made rm)
      (h : Inst.udiv rd rn rm = .ok i) : Built i
  | sdiv {rd rn rm i} (hrd : Reg.Made rd) (hrn : Reg.Made rn) (hrm : Reg.Made rm)
      (h : Inst.sdiv rd rn rm = .ok i) : Built i
  | lslv {rd rn rm i} (hrd : Reg.Made rd) (hrn : Reg.Made rn) (hrm : Reg.Made rm)
      (h : Inst.lslv rd rn rm = .ok i) : Built i
  | lsrv {rd rn rm i} (hrd : Reg.Made rd) (hrn : Reg.Made rn) (hrm : Reg.Made rm)
      (h : Inst.lsrv rd rn rm = .ok i) : Built i
  | asrv {rd rn rm i} (hrd : Reg.Made rd) (hrn : Reg.Made rn) (hrm : Reg.Made rm)
      (h : Inst.asrv rd rn rm = .ok i) : Built i
  | rorv {rd rn rm i} (hrd : Reg.Made rd) (hrn : Reg.Made rn) (hrm : Reg.Made rm)
      (h : Inst.rorv rd rn rm = .ok i) : Built i
  | madd {rd rn rm ra i} (hrd : Reg.Made rd) (hrn : Reg.Made rn) (hrm : Reg.Made rm)
      (hra : Reg.Made ra) (h : Inst.madd rd rn rm ra = .ok i) : Built i
  | msub {rd rn rm ra i} (hrd : Reg.Made rd) (hrn : Reg.Made rn) (hrm : Reg.Made rm)
      (hra : Reg.Made ra) (h : Inst.msub rd rn rm ra = .ok i) : Built i
  | mul {rd rn rm i} (hrd : Reg.Made rd) (hrn : Reg.Made rn) (hrm : Reg.Made rm)
      (h : Inst.mul rd rn rm = .ok i) : Built i
  | smulh {rd rn rm i} (hrd : Reg.Made rd) (hrn : Reg.Made rn) (hrm : Reg.Made rm)
      (h : Inst.smulh rd rn rm = .ok i) : Built i
  | umulh {rd rn rm i} (hrd : Reg.Made rd) (hrn : Reg.Made rn) (hrm : Reg.Made rm)
      (h : Inst.umulh rd rn rm = .ok i) : Built i
  | clz {rd rn i} (hrd : Reg.Made rd) (hrn : Reg.Made rn) (h : Inst.clz rd rn = .ok i) : Built i
  | rbit {rd rn i} (hrd : Reg.Made rd) (hrn : Reg.Made rn) (h : Inst.rbit rd rn = .ok i) : Built i
  | rev {rd rn i} (hrd : Reg.Made rd) (hrn : Reg.Made rn) (h : Inst.rev rd rn = .ok i) : Built i
  | csel {rd rn rm cond i} (hrd : Reg.Made rd) (hrn : Reg.Made rn) (hrm : Reg.Made rm)
      (h : Inst.csel rd rn rm cond = .ok i) : Built i
  | csinc {rd rn rm cond i} (hrd : Reg.Made rd) (hrn : Reg.Made rn) (hrm : Reg.Made rm)
      (h : Inst.csinc rd rn rm cond = .ok i) : Built i
  | csinv {rd rn rm cond i} (hrd : Reg.Made rd) (hrn : Reg.Made rn) (hrm : Reg.Made rm)
      (h : Inst.csinv rd rn rm cond = .ok i) : Built i
  | csneg {rd rn rm cond i} (hrd : Reg.Made rd) (hrn : Reg.Made rn) (hrm : Reg.Made rm)
      (h : Inst.csneg rd rn rm cond = .ok i) : Built i
  | cset {rd cond i} (hrd : Reg.Made rd) (h : Inst.cset rd cond = .ok i) : Built i
  | csetm {rd cond i} (hrd : Reg.Made rd) (h : Inst.csetm rd cond = .ok i) : Built i
  | cinc {rd rn cond i} (hrd : Reg.Made rd) (hrn : Reg.Made rn) (h : Inst.cinc rd rn cond = .ok i) :
      Built i
  | cinv {rd rn cond i} (hrd : Reg.Made rd) (hrn : Reg.Made rn) (h : Inst.cinv rd rn cond = .ok i) :
      Built i
  | cneg {rd rn cond i} (hrd : Reg.Made rd) (hrn : Reg.Made rn) (h : Inst.cneg rd rn cond = .ok i) :
      Built i
  | adr {rd offset i} (hrd : Reg.Made rd) (ho : AdrOffset.Made offset)
      (h : Inst.adr rd offset = .ok i) : Built i
  | adrp {rd offset i} (hrd : Reg.Made rd) (ho : AdrpOffset.Made offset)
      (h : Inst.adrp rd offset = .ok i) : Built i
  | b {offset} (ho : BranchOffset.Made offset) : Built (Inst.b offset)
  | bl {offset} (ho : BranchOffset.Made offset) : Built (Inst.bl offset)
  | b_cond {cond offset} (ho : BranchOffset.Made offset) : Built (Inst.b_cond cond offset)
  | cbz {rt offset} (hrt : Reg.Made rt) (ho : BranchOffset.Made offset) : Built (Inst.cbz rt offset)
  | cbnz {rt offset} (hrt : Reg.Made rt) (ho : BranchOffset.Made offset) : Built (Inst.cbnz rt offset)
  | tbz {rt bit offset i} (hrt : Reg.Made rt) (ho : BranchOffset.Made offset)
      (h : Inst.tbz rt bit offset = .ok i) : Built i
  | tbnz {rt bit offset i} (hrt : Reg.Made rt) (ho : BranchOffset.Made offset)
      (h : Inst.tbnz rt bit offset = .ok i) : Built i
  | br {rn i} (hrn : Reg.Made rn) (h : Inst.br rn = .ok i) : Built i
  | blr {rn i} (hrn : Reg.Made rn) (h : Inst.blr rn = .ok i) : Built i
  | ret {rn i} (hrn : Reg.Made rn) (h : Inst.ret rn = .ok i) : Built i
  | ldr {rt rn mode i} (hrt : Reg.Made rt) (hrn : Reg.Made rn) (hm : AddrMode.Made mode)
      (h : Inst.ldr rt rn mode = .ok i) : Built i
  | str_ {rt rn mode i} (hrt : Reg.Made rt) (hrn : Reg.Made rn) (hm : AddrMode.Made mode)
      (h : Inst.str_ rt rn mode = .ok i) : Built i
  | ldrb {rt rn mode i} (hrt : Reg.Made rt) (hrn : Reg.Made rn) (hm : AddrMode.Made mode)
      (h : Inst.ldrb rt rn mode = .ok i) : Built i
  | strb {rt rn mode i} (hrt : Reg.Made rt) (hrn : Reg.Made rn) (hm : AddrMode.Made mode)
      (h : Inst.strb rt rn mode = .ok i) : Built i
  | ldrh {rt rn mode i} (hrt : Reg.Made rt) (hrn : Reg.Made rn) (hm : AddrMode.Made mode)
      (h : Inst.ldrh rt rn mode = .ok i) : Built i
  | strh {rt rn mode i} (hrt : Reg.Made rt) (hrn : Reg.Made rn) (hm : AddrMode.Made mode)
      (h : Inst.strh rt rn mode = .ok i) : Built i
  | ldrsb {rt rn mode i} (hrt : Reg.Made rt) (hrn : Reg.Made rn) (hm : AddrMode.Made mode)
      (h : Inst.ldrsb rt rn mode = .ok i) : Built i
  | ldrsh {rt rn mode i} (hrt : Reg.Made rt) (hrn : Reg.Made rn) (hm : AddrMode.Made mode)
      (h : Inst.ldrsh rt rn mode = .ok i) : Built i
  | ldrsw {rt rn mode i} (hrt : Reg.Made rt) (hrn : Reg.Made rn) (hm : AddrMode.Made mode)
      (h : Inst.ldrsw rt rn mode = .ok i) : Built i
  | ldp {rt1 rt2 rn imm index i} (hrt1 : Reg.Made rt1) (hrt2 : Reg.Made rt2) (hrn : Reg.Made rn)
      (himm : SImm7Scaled.Made imm) (h : Inst.ldp rt1 rt2 rn imm index = .ok i) : Built i
  | stp {rt1 rt2 rn imm index i} (hrt1 : Reg.Made rt1) (hrt2 : Reg.Made rt2) (hrn : Reg.Made rn)
      (himm : SImm7Scaled.Made imm) (h : Inst.stp rt1 rt2 rn imm index = .ok i) : Built i
  | nop : Built Inst.nop
  | brk (imm16 : BitVec 16) : Built (Inst.brk imm16)
  | svc (imm16 : BitVec 16) : Built (Inst.svc imm16)
  | udf (imm16 : BitVec 16) : Built (Inst.udf imm16)
  | fmov_reg {rd rn i} (h : Inst.fmov_reg rd rn = .ok i) : Built i
  | fabs {rd rn i} (h : Inst.fabs rd rn = .ok i) : Built i
  | fneg {rd rn i} (h : Inst.fneg rd rn = .ok i) : Built i
  | fsqrt {rd rn i} (h : Inst.fsqrt rd rn = .ok i) : Built i
  | fcvt {rd rn i} (h : Inst.fcvt rd rn = .ok i) : Built i
  | fadd {rd rn rm i} (h : Inst.fadd rd rn rm = .ok i) : Built i
  | fsub {rd rn rm i} (h : Inst.fsub rd rn rm = .ok i) : Built i
  | fmul {rd rn rm i} (h : Inst.fmul rd rn rm = .ok i) : Built i
  | fdiv {rd rn rm i} (h : Inst.fdiv rd rn rm = .ok i) : Built i
  | fmadd {rd rn rm ra i} (h : Inst.fmadd rd rn rm ra = .ok i) : Built i
  | fcmp {rn rm i} (h : Inst.fcmp rn rm = .ok i) : Built i
  | fcsel {rd rn rm cond i} (h : Inst.fcsel rd rn rm cond = .ok i) : Built i
  | fmov_imm {rd imm i} (himm : FpImm8.Made imm) (h : Inst.fmov_imm rd imm = .ok i) : Built i
  | fmov_to_gp {rd rn i} (hrd : Reg.Made rd) (h : Inst.fmov_to_gp rd rn = .ok i) : Built i
  | fmov_from_gp {rd rn i} (hrn : Reg.Made rn) (h : Inst.fmov_from_gp rd rn = .ok i) : Built i
  | scvtf {rd rn i} (hrn : Reg.Made rn) (h : Inst.scvtf rd rn = .ok i) : Built i
  | ucvtf {rd rn i} (hrn : Reg.Made rn) (h : Inst.ucvtf rd rn = .ok i) : Built i
  | fcvtzs {rd rn i} (hrd : Reg.Made rd) (h : Inst.fcvtzs rd rn = .ok i) : Built i
  | fcvtzu {rd rn i} (hrd : Reg.Made rd) (h : Inst.fcvtzu rd rn = .ok i) : Built i
  | ldr_fp {rt rn mode i} (hrn : Reg.Made rn) (hm : AddrMode.Made mode)
      (h : Inst.ldr_fp rt rn mode = .ok i) : Built i
  | str_fp {rt rn mode i} (hrn : Reg.Made rn) (hm : AddrMode.Made mode)
      (h : Inst.str_fp rt rn mode = .ok i) : Built i

/-! ## What the constructors check -/

/-- Two registers of one width, neither of them SP. -/
structure TwoRegs (rd rn : Reg) : Prop where
  rd_made : rd.Made
  rn_made : rn.Made
  same_width : rd.is64 = rn.is64
  rd_no_sp : rd.is_sp = false
  rn_no_sp : rn.is_sp = false

/-- Three registers of one width, none of them SP. -/
structure ThreeRegs (rd rn rm : Reg) : Prop extends TwoRegs rd rn where
  rm_made : rm.Made
  rm_width : rd.is64 = rm.is64
  rm_no_sp : rm.is_sp = false

/-- `extend` reads a 64-bit register. -/
def reads_64 (extend : RegExtend) : Bool := extend.kind = .Uxtx ∨ extend.kind = .Sxtx

/-- `index` writes the base register. -/
def writes_back (index : PairIndex) : Prop := index = .PreIndex ∨ index = .PostIndex

/-- What is checked of the operands of each encoding shape. -/
def Valid : Inst → Prop
  | .MovWide _ rd _ shift =>
    rd.Made ∧ shift ≤ (if rd.is64 then 48 else 16) ∧ shift % 16 = 0
  | .AddSubImm _ set_flags rd rn _ _ =>
    rd.Made ∧ rn.Made ∧ rd.is64 = rn.is64 ∧ rn.is_zr = false ∧
      if set_flags then rd.is_sp = false else rd.is_zr = false
  | .AddSubShiftedReg _ _ rd rn rm _ _ => ThreeRegs rd rn rm
  | .AddSubExtendedReg _ _ rd rn rm extend _ =>
    rd.Made ∧ rn.Made ∧ rm.Made ∧ extend.Made ∧ rm.is_sp = false ∧ rd.is64 = rn.is64 ∧
      rm.is64 = reads_64 extend ∧ (reads_64 extend = true → rd.is64 = true)
  | .LogicalImmInst op rd rn imm _ =>
    rd.Made ∧ rn.Made ∧ imm.Made ∧ rd.is64 = rn.is64 ∧ rd.is64 = imm.is64 ∧ rn.is_sp = false ∧
      (op = .Ands → rd.is_sp = false)
  | .LogicalShiftedReg _ rd rn rm _ _ => ThreeRegs rd rn rm
  | .Bitfield _ rd rn _ _ _ => TwoRegs rd rn
  | .DataProc2Source _ rd rn rm => ThreeRegs rd rn rm
  | .DataProc3Source .Madd rd rn rm ra _ =>
    rd.Made ∧ rn.Made ∧ rm.Made ∧ ra.Made ∧ rd.is64 = rn.is64 ∧ rd.is64 = rm.is64 ∧
      rd.is64 = ra.is64 ∧ ra.is_sp = false ∧ (ra.num ≠ 31 → ThreeRegs rd rn rm)
  | .DataProc3Source .Msub rd rn rm ra _ => ThreeRegs rd rn rm ∧ TwoRegs rd ra
  | .DataProc3Source _ rd rn rm ra _ =>
    rd.Made ∧ rn.Made ∧ rm.Made ∧ rd.is64 = true ∧ rn.is64 = true ∧ rm.is64 = true ∧ ra = Reg.xzr
  | .DataProc1Source _ rd rn => TwoRegs rd rn
  | .CondSelect _ rd rn rm _ _ => ThreeRegs rd rn rm
  | .Adr rd offset => rd.Made ∧ offset.Made ∧ rd.is64 = true
  | .Adrp rd offset => rd.Made ∧ offset.Made ∧ rd.is64 = true
  | .Branch _ offset => offset.Made
  | .BranchCond _ offset => offset.Made
  | .CompareBranch is64 _ rt offset => rt.Made ∧ offset.Made ∧ is64 = rt.is64
  | .TestBranch _ rt bit offset => rt.Made ∧ offset.Made ∧ (rt.is64 = true ∨ bit.val < 32)
  | .BranchReg rn => rn.Made ∧ rn.is64 = true
  | .BranchLinkReg rn => rn.Made ∧ rn.is64 = true
  | .Ret rn => rn.Made ∧ rn.is64 = true
  | .LoadStoreImm op rt rn mode =>
    rt.Made ∧ rn.Made ∧ mode.Made ∧ rt.is64 = op.rt_is64 ∧ rn.is_zr = false ∧ rn.is64 = true ∧
      ¬ (Inst.AddrMode.has_writeback mode = true ∧ rt.encoding = rn.encoding)
  | .LoadStorePair is_load is64 rt1 rt2 rn imm index =>
    rt1.Made ∧ rt2.Made ∧ rn.Made ∧ imm.Made ∧ is64 = rt1.is64 ∧ rt1.is64 = rt2.is64 ∧
      rn.is64 = true ∧
      ¬ (writes_back index ∧ (rt1.encoding = rn.encoding ∨ rt2.encoding = rn.encoding)) ∧
      ¬ (is_load = true ∧ rt1.encoding = rt2.encoding)
  | .FpLoadStoreImm _ _ rn mode => rn.Made ∧ mode.Made ∧ rn.is64 = true
  | .System _ => True
  | .FpDataProc1 _ rd rn => rd.is_double = rn.is_double
  | .FpConvert rd rn => rd.is_double ≠ rn.is_double
  | .FpDataProc2 _ rd rn rm => rd.is_double = rn.is_double ∧ rd.is_double = rm.is_double
  | .FpCompare rn rm => rn.is_double = rm.is_double
  | .FpCondSelect rd rn rm _ => rd.is_double = rn.is_double ∧ rd.is_double = rm.is_double
  | .FpImmMove rd imm => imm.Made ∧ rd.is_double = imm.is64
  | .FpToGp rd rn => rd.Made ∧ rd.is64 = rn.is_double
  | .GpToFp rd rn => rn.Made ∧ rd.is_double = rn.is64
  | .FpIntConvert _ gp _ => gp.Made
  | .FpMadd rd rn rm ra =>
    rd.is_double = rn.is_double ∧ rd.is_double = rm.is_double ∧ rd.is_double = ra.is_double

variable {α : Type}

theorem guard_eq_ok {c : Prop} [Decidable c] {e : EncodeError} {t : Result α} {a : α} :
    (if c then .error e else t) = .ok a ↔ ¬ c ∧ t = .ok a := by
  by_cases h : c
  · simp [h]
  · simp [h]

variable {what : String} {f : Unit → Result α} {r : α}

theorem check_same_width_bind {a b : Reg} :
    (check_same_width a b what >>= f) = .ok r ↔ a.is64 = b.is64 ∧ f () = .ok r := by
  unfold check_same_width
  by_cases h : a.is64 = b.is64
  · simp [h, bind, Except.bind]
  · simp [h, bind, Except.bind]

theorem check_same_fp_width_bind {a b : FpReg} :
    (Inst.check_same_fp_width a b what >>= f) = .ok r ↔ a.is_double = b.is_double ∧ f () = .ok r := by
  unfold Inst.check_same_fp_width
  by_cases h : a.is_double = b.is_double
  · simp [h, bind, Except.bind]
  · simp [h, bind, Except.bind]

theorem zr_of_made (r : Reg) : (Inst.zr_of r).Made := by
  unfold Inst.zr_of
  split
  · exact .xzr
  · exact .wzr

theorem zr_of_is64 (r : Reg) : (Inst.zr_of r).is64 = r.is64 := by
  unfold Inst.zr_of
  cases h : r.is64 <;> rfl

theorem zr_of_no_sp (r : Reg) : (Inst.zr_of r).is_sp = false := by
  unfold Inst.zr_of
  split <;> rfl

theorem zr_of_num (r : Reg) : (Inst.zr_of r).num = 31 := by
  unfold Inst.zr_of
  split <;> rfl

variable {rd : Reg} {i : Inst}

theorem mov_wide_eq_ok {op : MovWideOp} {imm16 : BitVec 16} {shift : Nat} :
    Inst.mov_wide op rd imm16 shift = .ok i ↔
      (shift ≤ (if rd.is64 then 48 else 16) ∧ shift % 16 = 0) ∧ .MovWide op rd imm16 shift = i := by
  unfold Inst.mov_wide
  rw [guard_eq_ok, Except.ok.injEq]
  refine and_congr ?_ Iff.rfl
  rw [not_or, Nat.not_lt, not_not]

variable {set_flags : Bool} {rn : Reg}

theorem add_sub_imm_common_bind :
    (Inst.add_sub_imm_common set_flags rd rn what >>= f) = .ok r ↔
      (rd.is64 = rn.is64 ∧ rn.is_zr = false ∧
        if set_flags then rd.is_sp = false else rd.is_zr = false) ∧ f () = .ok r := by
  unfold Inst.add_sub_imm_common check_same_width
  by_cases hw : rd.is64 = rn.is64
  · cases hn : rn.is_zr
    · cases set_flags
      · cases hd : rd.is_zr <;> simp [hw, bind, Except.bind]
      · cases hd : rd.is_sp <;> simp [hw, bind, Except.bind]
    · simp [hw, bind, Except.bind]
  · simp [hw, bind, Except.bind]

variable {op : AddSubOp} {rm : Reg} {alias_ : AddSubAlias}

theorem add_sub_shifted_valid {shift : RegShift} (hrd : rd.Made) (hrn : rn.Made) (hrm : rm.Made)
    (h : Inst.add_sub_shifted op set_flags rd rn rm shift alias_ = .ok i) : Valid i := by
  unfold Inst.add_sub_shifted at h
  rw [guard_eq_ok, check_same_width_bind, check_same_width_bind, guard_eq_ok, Except.ok.injEq] at h
  obtain ⟨-, hn, hm, hsp, rfl⟩ := h
  simp only [not_or, Bool.not_eq_true] at hsp
  exact ⟨⟨hrd, hrn, hn, hsp.1, hsp.2.1⟩, hrm, hm, hsp.2.2⟩

theorem add_sub_extended_eq_ok {extend : RegExtend} :
    Inst.add_sub_extended op set_flags rd rn rm extend alias_ = .ok i ↔
      (rm.is_sp = false ∧ rd.is64 = rn.is64 ∧ rm.is64 = reads_64 extend ∧
        (reads_64 extend = true → rd.is64 = true)) ∧
      .AddSubExtendedReg op set_flags rd rn rm extend alias_ = i := by
  unfold Inst.add_sub_extended
  dsimp only
  rw [guard_eq_ok, guard_eq_ok, guard_eq_ok, guard_eq_ok, Except.ok.injEq]
  unfold reads_64
  simp only [Bool.not_eq_true, Bool.not_eq_false, not_not, not_and, and_assoc, ne_eq]

theorem logical_imm_eq_ok {op : LogicalImmOp} {imm : LogicalImm} {alias_ : LogicalAlias} :
    Inst.logical_imm op rd rn imm alias_ = .ok i ↔
      (rd.is64 = rn.is64 ∧ rd.is64 = imm.is64 ∧ rn.is_sp = false ∧ (op = .Ands → rd.is_sp = false)) ∧
      .LogicalImmInst op rd rn imm alias_ = i := by
  unfold Inst.logical_imm
  rw [check_same_width_bind, guard_eq_ok, guard_eq_ok, guard_eq_ok, Except.ok.injEq]
  simp only [Bool.not_eq_true, not_not, not_and, and_assoc, ne_eq]

theorem logical_shifted_valid {op : LogicalShiftOp} {shift : RegShift}
    {alias_ : LogicalAlias} (hrd : rd.Made) (hrn : rn.Made) (hrm : rm.Made)
    (h : Inst.logical_shifted op rd rn rm shift alias_ = .ok i) : Valid i := by
  unfold Inst.logical_shifted at h
  rw [check_same_width_bind, check_same_width_bind, guard_eq_ok, Except.ok.injEq] at h
  obtain ⟨hn, hm, hsp, rfl⟩ := h
  simp only [not_or, Bool.not_eq_true] at hsp
  exact ⟨⟨hrd, hrn, hn, hsp.1, hsp.2.1⟩, hrm, hm, hsp.2.2⟩

theorem bitfield_raw_valid {op : BitfieldOp} {immr imms : Fin 64}
    {alias_ : BitfieldAlias} (hrd : rd.Made) (hrn : rn.Made)
    (h : Inst.bitfield_raw op rd rn immr imms alias_ = .ok i) : Valid i := by
  unfold Inst.bitfield_raw at h
  dsimp only at h
  rw [check_same_width_bind, guard_eq_ok, guard_eq_ok, guard_eq_ok, Except.ok.injEq] at h
  obtain ⟨hn, -, -, hsp, rfl⟩ := h
  simp only [not_or, Bool.not_eq_true] at hsp
  exact ⟨hrd, hrn, hn, hsp.1, hsp.2⟩

theorem bitfield_u8_valid {op : BitfieldOp} {immr imms : Nat}
    {alias_ : BitfieldAlias} (hrd : rd.Made) (hrn : rn.Made)
    (h : Inst.bitfield_u8 op rd rn immr imms alias_ = .ok i) : Valid i := by
  unfold Inst.bitfield_u8 at h
  rw [check_same_width_bind] at h
  obtain ⟨-, h⟩ := h
  split at h
  · split at h
    · exact bitfield_raw_valid hrd hrn h
    · rw [guard_eq_ok] at h
      exact nomatch h.2
  · exact nomatch h

theorem data_proc_2_valid {op : DataProc2Op} (hrd : rd.Made)
    (hrn : rn.Made) (hrm : rm.Made) (h : Inst.data_proc_2 op rd rn rm = .ok i) : Valid i := by
  unfold Inst.data_proc_2 at h
  rw [check_same_width_bind, check_same_width_bind, guard_eq_ok, Except.ok.injEq] at h
  obtain ⟨hn, hm, hsp, rfl⟩ := h
  simp only [not_or, Bool.not_eq_true] at hsp
  exact ⟨⟨hrd, hrn, hn, hsp.1, hsp.2.1⟩, hrm, hm, hsp.2.2⟩

theorem mul_eq_ok :
    Inst.mul rd rn rm = .ok i ↔
      (rd.is64 = rn.is64 ∧ rd.is64 = rm.is64) ∧
      .DataProc3Source .Madd rd rn rm (Inst.zr_of rd) true = i := by
  unfold Inst.mul
  rw [check_same_width_bind, check_same_width_bind, Except.ok.injEq, and_assoc]

theorem mulh_eq_ok {op : DataProc3Op} :
    Inst.mulh op rd rn rm = .ok i ↔
      (rd.is64 = true ∧ rn.is64 = true ∧ rm.is64 = true) ∧
      .DataProc3Source op rd rn rm Reg.xzr false = i := by
  unfold Inst.mulh
  rw [guard_eq_ok, Except.ok.injEq]
  simp

theorem data_proc_1_valid {op : DataProc1Op} (hrd : rd.Made)
    (hrn : rn.Made) (h : Inst.data_proc_1 op rd rn = .ok i) : Valid i := by
  unfold Inst.data_proc_1 at h
  rw [check_same_width_bind, guard_eq_ok, Except.ok.injEq] at h
  obtain ⟨hn, hsp, rfl⟩ := h
  simp only [not_or, Bool.not_eq_true] at hsp
  exact ⟨hrd, hrn, hn, hsp.1, hsp.2⟩

theorem cond_select_valid {op : CondSelectOp} {cond : Cond}
    {alias_ : CondSelectAlias} (hrd : rd.Made) (hrn : rn.Made) (hrm : rm.Made)
    (h : Inst.cond_select op rd rn rm cond alias_ = .ok i) : Valid i := by
  unfold Inst.cond_select at h
  rw [check_same_width_bind, check_same_width_bind, guard_eq_ok, Except.ok.injEq] at h
  obtain ⟨hn, hm, hsp, rfl⟩ := h
  simp only [not_or, Bool.not_eq_true] at hsp
  exact ⟨⟨hrd, hrn, hn, hsp.1, hsp.2.1⟩, hrm, hm, hsp.2.2⟩

theorem require_conditional_bind {cond : Cond} (h : (Inst.require_conditional cond what >>= f) = .ok r) : f () = .ok r := by
  unfold Inst.require_conditional at h
  split at h
  · exact nomatch h
  · exact h

variable {rt : Reg}

theorem test_branch_eq_ok {is_nonzero : Bool} {bit : Nat} {offset : BranchOffset} :
    Inst.test_branch is_nonzero rt bit offset = .ok i ↔
      ∃ h : bit < 64 ∧ (rt.is64 ∨ bit < 32), .TestBranch is_nonzero rt ⟨bit, h.1⟩ offset = i := by
  unfold Inst.test_branch
  split
  · rename_i h
    rw [Except.ok.injEq]
    exact ⟨fun hi => ⟨h, hi⟩, fun ⟨_, hi⟩ => hi⟩
  · rename_i h
    exact ⟨nofun, fun ⟨h', _⟩ => absurd h' h⟩

variable {mode : AddrMode}

theorem load_store_eq_ok {op : LdStOp} :
    Inst.load_store op rt rn mode = .ok i ↔
      (rt.is64 = op.rt_is64 ∧ rn.is_zr = false ∧ rn.is64 = true ∧
        ¬ (Inst.AddrMode.has_writeback mode = true ∧ rt.encoding = rn.encoding)) ∧
      .LoadStoreImm op rt rn mode = i := by
  have hzr : (¬ rn.is_sp = true ∧ rn.is_zr = true) ↔ rn.is_zr = true := by
    unfold Reg.is_sp Reg.is_zr
    cases rn.sp_flag <;> simp
  unfold Inst.load_store
  rw [guard_eq_ok, guard_eq_ok, guard_eq_ok, guard_eq_ok, Except.ok.injEq, hzr]
  simp only [Bool.not_eq_true, Bool.not_eq_false, not_not, and_assoc, ne_eq]

variable {is_load : Bool}

theorem load_store_pair_eq_ok {rt1 rt2 : Reg} {imm : SImm7Scaled} {index : PairIndex} :
    Inst.load_store_pair is_load rt1 rt2 rn imm index = .ok i ↔
      (rt1.is64 = rt2.is64 ∧ rn.is64 = true ∧
        ¬ (writes_back index ∧ (rt1.encoding = rn.encoding ∨ rt2.encoding = rn.encoding)) ∧
        ¬ (is_load = true ∧ rt1.encoding = rt2.encoding)) ∧
      .LoadStorePair is_load rt1.is64 rt1 rt2 rn imm index = i := by
  unfold Inst.load_store_pair
  dsimp only
  rw [check_same_width_bind, guard_eq_ok, guard_eq_ok, guard_eq_ok, Except.ok.injEq]
  unfold writes_back
  simp only [not_not, and_assoc]

theorem load_store_fp_eq_ok {rt : FpReg} :
    Inst.load_store_fp is_load rt rn mode = .ok i ↔
      rn.is64 = true ∧ .FpLoadStoreImm is_load rt rn mode = i := by
  unfold Inst.load_store_fp
  rw [guard_eq_ok, Except.ok.injEq, not_not]

theorem fp_unary_valid {op : FpUnaryOp} {rd rn : FpReg}
    (h : Inst.fp_unary op what rd rn = .ok i) : Valid i := by
  unfold Inst.fp_unary at h
  rw [check_same_fp_width_bind, Except.ok.injEq] at h
  obtain ⟨hn, rfl⟩ := h
  exact hn

theorem fp_binop_valid {op : FpBinOp} {rd rn rm : FpReg}
    (h : Inst.fp_binop op rd rn rm = .ok i) : Valid i := by
  unfold Inst.fp_binop at h
  rw [check_same_fp_width_bind, check_same_fp_width_bind, Except.ok.injEq] at h
  obtain ⟨hn, hm, rfl⟩ := h
  exact ⟨hn, hm⟩

theorem AddSubImm_valid {imm : Uimm12Lsl} (hrd : rd.Made) (hrn : rn.Made)
    (h : (Inst.add_sub_imm_common set_flags rd rn what >>= fun _ =>
      .ok (.AddSubImm op set_flags rd rn imm alias_)) = .ok i) : Valid i := by
  rw [add_sub_imm_common_bind, Except.ok.injEq] at h
  obtain ⟨⟨hwidth, hbase, hdest⟩, rfl⟩ := h
  exact ⟨hrd, hrn, hwidth, hbase, hdest⟩

theorem mov_wide_valid {op : MovWideOp} {imm16 : BitVec 16} {shift : Nat}
    (hrd : rd.Made) (h : Inst.mov_wide op rd imm16 shift = .ok i) : Valid i := by
  obtain ⟨⟨hmax, hmod⟩, rfl⟩ := mov_wide_eq_ok.1 h
  exact ⟨hrd, hmax, hmod⟩

theorem add_sub_extended_valid {extend : RegExtend} (hrd : rd.Made) (hrn : rn.Made)
    (hrm : rm.Made) (he : extend.Made)
    (h : Inst.add_sub_extended op set_flags rd rn rm extend alias_ = .ok i) : Valid i := by
  obtain ⟨hchecks, rfl⟩ := add_sub_extended_eq_ok.1 h
  exact ⟨hrd, hrn, hrm, he, hchecks⟩

theorem logical_imm_valid {op : LogicalImmOp} {imm : LogicalImm}
    {alias_ : LogicalAlias} (hrd : rd.Made) (hrn : rn.Made) (himm : imm.Made)
    (h : Inst.logical_imm op rd rn imm alias_ = .ok i) : Valid i := by
  obtain ⟨hchecks, rfl⟩ := logical_imm_eq_ok.1 h
  exact ⟨hrd, hrn, himm, hchecks⟩

theorem madd_valid {ra : Reg} (hrd : rd.Made) (hrn : rn.Made) (hrm : rm.Made)
    (hra : ra.Made) (h : Inst.madd rd rn rm ra = .ok i) : Valid i := by
  unfold Inst.madd at h
  rw [check_same_width_bind, check_same_width_bind, check_same_width_bind, guard_eq_ok,
    Except.ok.injEq] at h
  obtain ⟨hn, hm, ha, hsp, rfl⟩ := h
  simp only [not_or, Bool.not_eq_true] at hsp
  exact ⟨hrd, hrn, hrm, hra, hn, hm, ha, hsp.2.2.2,
    fun _ => ⟨⟨hrd, hrn, hn, hsp.1, hsp.2.1⟩, hrm, hm, hsp.2.2.1⟩⟩

theorem msub_valid {ra : Reg} (hrd : rd.Made) (hrn : rn.Made) (hrm : rm.Made)
    (hra : ra.Made) (h : Inst.msub rd rn rm ra = .ok i) : Valid i := by
  unfold Inst.msub at h
  rw [check_same_width_bind, check_same_width_bind, check_same_width_bind, guard_eq_ok,
    Except.ok.injEq] at h
  obtain ⟨hn, hm, ha, hsp, rfl⟩ := h
  simp only [not_or, Bool.not_eq_true] at hsp
  exact ⟨⟨⟨hrd, hrn, hn, hsp.1, hsp.2.1⟩, hrm, hm, hsp.2.2.1⟩, hrd, hra, ha, hsp.1, hsp.2.2.2⟩

theorem mul_valid (hrd : rd.Made) (hrn : rn.Made) (hrm : rm.Made)
    (h : Inst.mul rd rn rm = .ok i) : Valid i := by
  obtain ⟨⟨hn, hm⟩, rfl⟩ := mul_eq_ok.1 h
  exact ⟨hrd, hrn, hrm, zr_of_made rd, hn, hm, (zr_of_is64 rd).symm, zr_of_no_sp rd,
    fun hra => absurd (zr_of_num rd) hra⟩

theorem smulh_valid (hrd : rd.Made) (hrn : rn.Made) (hrm : rm.Made)
    (h : Inst.smulh rd rn rm = .ok i) : Valid i := by
  obtain ⟨⟨hd, hn, hm⟩, rfl⟩ := mulh_eq_ok.1 h
  exact ⟨hrd, hrn, hrm, hd, hn, hm, rfl⟩

theorem umulh_valid (hrd : rd.Made) (hrn : rn.Made) (hrm : rm.Made)
    (h : Inst.umulh rd rn rm = .ok i) : Valid i := by
  obtain ⟨⟨hd, hn, hm⟩, rfl⟩ := mulh_eq_ok.1 h
  exact ⟨hrd, hrn, hrm, hd, hn, hm, rfl⟩

theorem test_branch_valid {is_nonzero : Bool} {bit : Nat} {offset : BranchOffset} (hrt : rt.Made) (ho : offset.Made)
    (h : Inst.test_branch is_nonzero rt bit offset = .ok i) : Valid i := by
  obtain ⟨hbit, rfl⟩ := test_branch_eq_ok.1 h
  exact ⟨hrt, ho, hbit.2⟩

theorem load_store_valid {op : LdStOp} (hrt : rt.Made)
    (hrn : rn.Made) (hm : mode.Made) (h : Inst.load_store op rt rn mode = .ok i) : Valid i := by
  obtain ⟨hchecks, rfl⟩ := load_store_eq_ok.1 h
  exact ⟨hrt, hrn, hm, hchecks⟩

theorem load_store_pair_valid {rt1 rt2 : Reg} {imm : SImm7Scaled}
    {index : PairIndex} (hrt1 : rt1.Made) (hrt2 : rt2.Made) (hrn : rn.Made)
    (himm : imm.Made) (h : Inst.load_store_pair is_load rt1 rt2 rn imm index = .ok i) : Valid i := by
  obtain ⟨hchecks, rfl⟩ := load_store_pair_eq_ok.1 h
  exact ⟨hrt1, hrt2, hrn, himm, rfl, hchecks⟩

theorem load_store_fp_valid {rt : FpReg}
    (hrn : rn.Made) (hm : mode.Made) (h : Inst.load_store_fp is_load rt rn mode = .ok i) :
    Valid i := by
  obtain ⟨hwidth, rfl⟩ := load_store_fp_eq_ok.1 h
  exact ⟨hrn, hm, hwidth⟩

/-- What a constructor returns has passed the checks of its encoding shape. -/
theorem Built.valid (h : Built i) : Valid i := by
  cases h with
  | movz hrd h | movn hrd h | movk hrd h => exact mov_wide_valid hrd h
  | add_imm hrd hrn _ h | adds_imm hrd hrn _ h | sub_imm hrd hrn _ h | subs_imm hrd hrn _ h
  | mov_sp hrd hrn h => exact AddSubImm_valid hrd hrn h
  | cmp_imm hrn _ h | cmn_imm hrn _ h => exact AddSubImm_valid (zr_of_made _) hrn h
  | add_shifted hrd hrn hrm _ h | adds_shifted hrd hrn hrm _ h | sub_shifted hrd hrn hrm _ h
  | subs_shifted hrd hrn hrm _ h => exact add_sub_shifted_valid hrd hrn hrm h
  | cmp_shifted hrn hrm _ h | cmn_shifted hrn hrm _ h =>
    exact add_sub_shifted_valid (zr_of_made _) hrn hrm h
  | neg hrd hrm _ h | negs hrd hrm _ h => exact add_sub_shifted_valid hrd (zr_of_made _) hrm h
  | add_extended hrd hrn hrm he h | adds_extended hrd hrn hrm he h | sub_extended hrd hrn hrm he h
  | subs_extended hrd hrn hrm he h => exact add_sub_extended_valid hrd hrn hrm he h
  | cmp_extended hrn hrm he h | cmn_extended hrn hrm he h =>
    exact add_sub_extended_valid (zr_of_made _) hrn hrm he h
  | and_imm hrd hrn himm h | orr_imm hrd hrn himm h | eor_imm hrd hrn himm h
  | ands_imm hrd hrn himm h => exact logical_imm_valid hrd hrn himm h
  | tst_imm hrn himm h => exact logical_imm_valid (zr_of_made _) hrn himm h
  | and_shifted hrd hrn hrm _ h | orr_shifted hrd hrn hrm _ h | eor_shifted hrd hrn hrm _ h
  | ands_shifted hrd hrn hrm _ h | bic_shifted hrd hrn hrm _ h | orn_shifted hrd hrn hrm _ h
  | eon_shifted hrd hrn hrm _ h | bics_shifted hrd hrn hrm _ h =>
    exact logical_shifted_valid hrd hrn hrm h
  | mvn hrd hrm _ h => exact logical_shifted_valid hrd (zr_of_made _) hrm h
  | tst_reg hrn hrm _ h => exact logical_shifted_valid (zr_of_made _) hrn hrm h
  | mov_reg hrd hrm h => exact logical_shifted_valid hrd (zr_of_made _) hrm h
  | ubfm hrd hrn h | sbfm hrd hrn h | bfm hrd hrn h => exact bitfield_u8_valid hrd hrn h
  | lsl_imm hrd hrn h => exact bitfield_u8_valid hrd hrn (guard_eq_ok.1 h).2
  | lsr_imm hrd hrn h => exact bitfield_u8_valid hrd hrn (guard_eq_ok.1 h).2
  | @asr_imm rd rn shift i hrd hrn h =>
    unfold Inst.asr_imm at h
    split at h
    · exact bitfield_raw_valid hrd hrn h
    · exact nomatch h
  | sxtb hrd hrn h | sxth hrd hrn h => exact bitfield_raw_valid hrd hrn h
  | sxtw hrd hrn h => exact bitfield_raw_valid hrd (.with64 true hrn) (guard_eq_ok.1 h).2
  | uxtb hrd hrn h | uxth hrd hrn h => exact bitfield_raw_valid hrd hrn (guard_eq_ok.1 h).2
  | udiv hrd hrn hrm h | sdiv hrd hrn hrm h | lslv hrd hrn hrm h | lsrv hrd hrn hrm h
  | asrv hrd hrn hrm h | rorv hrd hrn hrm h => exact data_proc_2_valid hrd hrn hrm h
  | madd hrd hrn hrm hra h => exact madd_valid hrd hrn hrm hra h
  | msub hrd hrn hrm hra h => exact msub_valid hrd hrn hrm hra h
  | mul hrd hrn hrm h => exact mul_valid hrd hrn hrm h
  | smulh hrd hrn hrm h => exact smulh_valid hrd hrn hrm h
  | umulh hrd hrn hrm h => exact umulh_valid hrd hrn hrm h
  | clz hrd hrn h | rbit hrd hrn h | rev hrd hrn h => exact data_proc_1_valid hrd hrn h
  | csel hrd hrn hrm h | csinc hrd hrn hrm h | csinv hrd hrn hrm h | csneg hrd hrn hrm h =>
    exact cond_select_valid hrd hrn hrm h
  | cset hrd h | csetm hrd h =>
    exact cond_select_valid hrd (zr_of_made _) (zr_of_made _) (require_conditional_bind h)
  | cinc hrd hrn h | cinv hrd hrn h | cneg hrd hrn h =>
    exact cond_select_valid hrd hrn hrn (require_conditional_bind h)
  | adr hrd ho h | adrp hrd ho h =>
    obtain ⟨hwidth, h⟩ := guard_eq_ok.1 h
    cases h
    exact ⟨hrd, ho, not_not.1 hwidth⟩
  | b ho | bl ho | b_cond ho => exact ho
  | cbz hrt ho | cbnz hrt ho => exact ⟨hrt, ho, rfl⟩
  | tbz hrt ho h | tbnz hrt ho h => exact test_branch_valid hrt ho h
  | br hrn h | blr hrn h | ret hrn h =>
    obtain ⟨hwidth, h⟩ := guard_eq_ok.1 h
    cases h
    exact ⟨hrn, not_not.1 hwidth⟩
  | ldr hrt hrn hm h | str_ hrt hrn hm h | ldrb hrt hrn hm h | strb hrt hrn hm h
  | ldrh hrt hrn hm h | strh hrt hrn hm h | ldrsb hrt hrn hm h | ldrsh hrt hrn hm h
  | ldrsw hrt hrn hm h => exact load_store_valid hrt hrn hm h
  | ldp hrt1 hrt2 hrn himm h | stp hrt1 hrt2 hrn himm h =>
    exact load_store_pair_valid hrt1 hrt2 hrn himm h
  | nop | brk | svc | udf => trivial
  | fmov_reg h | fabs h | fneg h | fsqrt h => exact fp_unary_valid h
  | fcvt h =>
    obtain ⟨hwidth, h⟩ := guard_eq_ok.1 h
    cases h
    exact hwidth
  | fadd h | fsub h | fmul h | fdiv h => exact fp_binop_valid h
  | fmadd h =>
    unfold Inst.fmadd at h
    rw [check_same_fp_width_bind, check_same_fp_width_bind, check_same_fp_width_bind,
      Except.ok.injEq] at h
    obtain ⟨hn, hm, ha, rfl⟩ := h
    exact ⟨hn, hm, ha⟩
  | fcmp h =>
    unfold Inst.fcmp at h
    rw [check_same_fp_width_bind, Except.ok.injEq] at h
    obtain ⟨hm, rfl⟩ := h
    exact hm
  | fcsel h =>
    unfold Inst.fcsel at h
    rw [check_same_fp_width_bind, check_same_fp_width_bind, Except.ok.injEq] at h
    obtain ⟨hn, hm, rfl⟩ := h
    exact ⟨hn, hm⟩
  | fmov_imm himm h =>
    obtain ⟨hwidth, h⟩ := guard_eq_ok.1 h
    cases h
    exact ⟨himm, not_not.1 hwidth⟩
  | fmov_to_gp hr h | fmov_from_gp hr h =>
    obtain ⟨hwidth, h⟩ := guard_eq_ok.1 h
    cases h
    exact ⟨hr, not_not.1 hwidth⟩
  | scvtf hr h | ucvtf hr h | fcvtzs hr h | fcvtzu hr h =>
    cases h
    exact hr
  | ldr_fp hrn hm h | str_fp hrn hm h => exact load_store_fp_valid hrn hm h

end Fors.Asm
