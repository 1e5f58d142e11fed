import Fors.Codegen.Seq

/-!
# The integer stencils

"One per (op, mode, type)".  `body` emits the instructions of a key; `all_keys` lists the keys in table
order.
-/

namespace Fors.Codegen

open Fors.Asm Fors.Fmir

attribute [local instance] Seq.neZero_idx

/-- "An integer type (the stencil key's width/sign)." -/
inductive IntTy where
  | I8
  | I16
  | I32
  | I64
  | U8
  | U16
  | U32
  | U64
  deriving DecidableEq

/-- "Zero-extension from the low 8/16/32 bits". -/
inductive RawExt where
  | None
  | B
  | H
  | W
  deriving DecidableEq

namespace IntTy

def ALL : List IntTy := [I8, I16, I32, I64, U8, U16, U32, U64]

def width : IntTy → Nat
  | I8 | U8 => 8
  | I16 | U16 => 16
  | I32 | U32 => 32
  | I64 | U64 => 64

def signed : IntTy → Bool
  | I8 | I16 | I32 | I64 => true
  | _ => false

def narrow (ty : IntTy) : Bool := ty.width < 64

/-- "Inclusive bounds as canonical 64-bit patterns." -/
def lo (ty : IntTy) : BitVec 64 :=
  if ty.signed then .ofInt 64 (-(2 ^ (ty.width - 1) : Int)) else 0

def hi (ty : IntTy) : BitVec 64 :=
  if ty.signed then .ofNat 64 (2 ^ (ty.width - 1) - 1)
  else if ty.width = 64 then -1
  else .ofNat 64 (2 ^ ty.width - 1)

/-- "The extend that re-reads the low `width` bits". -/
def ext : IntTy → Option ExtendKind
  | I8 => some .Sxtb
  | I16 => some .Sxth
  | I32 => some .Sxtw
  | U8 => some .Uxtb
  | U16 => some .Uxth
  | U32 => some .Uxtw
  | I64 | U64 => none

end IntTy

inductive ArMode where
  | Trap
  | Wrap
  | Sat
  deriving DecidableEq

inductive BinOp where
  | Add
  | Sub
  | Mul
  | Div
  | Rem
  deriving DecidableEq

inductive ShiftOp where
  | Shl
  | Shr
  deriving DecidableEq

inductive LogicOp where
  | And
  | Or
  | Xor
  deriving DecidableEq

inductive ConvOp where
  | Checked
  | Wrap
  | Sat
  deriving DecidableEq

/-- "`icmp`'s predicate as a key component." -/
inductive Pred where
  | Eq
  | Ne
  | Lt
  | Le
  | Gt
  | Ge
  deriving DecidableEq

namespace Pred

def ALL : List Pred := [Eq, Ne, Lt, Le, Gt, Ge]

def cond : Pred → Bool → Cond
  | Eq, _ => .EQ
  | Ne, _ => .NE
  | Lt, true => .LT
  | Le, true => .LE
  | Gt, true => .GT
  | Ge, true => .GE
  | Lt, false => .CC
  | Le, false => .LS
  | Gt, false => .HI
  | Ge, false => .CS

end Pred

/-- "Every stencil of the dev tier". -/
inductive Key where
  | Const
  | Copy
  | Bin (op : BinOp) (mode : ArMode) (ty : IntTy)
  | Shift (op : ShiftOp) (mode : ArMode) (ty : IntTy) (count : RawExt)
  | Neg (mode : ArMode) (ty : IntTy)
  | Logic (op : LogicOp)
  | Not (ty : IntTy)
  | NotBool
  | Icmp (pred : Pred) (signed : Bool)
  | Conv (op : ConvOp) (from_ty to_ty : IntTy)
  | WriteUint (ext : RawExt)
  | WriteLine
  | Prologue
  | Epilogue
  | TrapJump (kind : Nat)
  | Brk (kind : Nat)
  deriving DecidableEq

/-- `brk #(TRAP_BRK_BASE + kind)` is a trap site's one instruction. -/
def TRAP_BRK_BASE : Nat := 0x4600

def TRAP_KIND_COUNT : Nat := 8

def brk_imm (kind : Nat) : Option (BitVec 16) :=
  if kind < TRAP_KIND_COUNT then some (.ofNat 16 (TRAP_BRK_BASE + kind)) else none

/-- The keys of one type and mode. -/
def mode_keys (ty : IntTy) (mode : ArMode) : List Key :=
  ([.Add, .Sub, .Mul, .Div, .Rem].map fun op => Key.Bin op mode ty) ++
    ([.Shl, .Shr].flatMap fun op => [.None, .B, .H, .W].map fun count => Key.Shift op mode ty count) ++
    if ty.signed ∨ mode = .Wrap then [Key.Neg mode ty] else []

/-- The keys of one type. -/
def ty_keys (ty : IntTy) : List Key :=
  ([.Trap, .Wrap, .Sat].flatMap fun mode => mode_keys ty mode) ++ [Key.Not ty] ++
    IntTy.ALL.flatMap fun to_ty => [.Checked, .Wrap, .Sat].map fun op => Key.Conv op ty to_ty

/-- "Every key, in table order." -/
def all_keys : List Key :=
  [.Const, .Copy, .NotBool, .WriteLine, .Prologue, .Epilogue] ++
    IntTy.ALL.flatMap ty_keys ++
    ([.And, .Or, .Xor].map fun op => Key.Logic op) ++
    (Pred.ALL.flatMap fun pred => [true, false].map fun signed => Key.Icmp pred signed) ++
    ([.None, .B, .H, .W].map fun ext => Key.WriteUint ext) ++
    (List.range TRAP_KIND_COUNT).flatMap fun kind => [Key.TrapJump kind, Key.Brk kind]

/-! ## Registers -/

/-- The general-purpose registers by number. -/
abbrev Gp := Fin 31

def A : Gp := 10
def B : Gp := 11
def R : Gp := 12
def T1 : Gp := 13
def T2 : Gp := 14
def T3 : Gp := 15

def x (n : Gp) : Reg := Reg.x n

def w (n : Gp) : Reg := Reg.w n

def no_shift : RegShift := .none

/-- `None.expect(what)` panics. -/
def expect {α : Type} (what : String) (o : Option α) : SeqM α :=
  match o with
  | some a => pure a
  | none => throw (.expect what)

def trap_kind (k : Nat) : SeqM TrapKind :=
  expect "one of the eight kinds" (TrapKind.from_u32 (.ofNat k))

/-! ## Helpers -/

/-- The four 16-bit halves of a value, low first. -/
def halves (value : BitVec 64) : List (BitVec 16) :=
  (List.range 4).map fun i => (value >>> (16 * i)).setWidth 16

/-- The `movk`s of every half but the first one, where it is not `rest`. -/
def movk_rest (rd : Gp) (first : Nat) (rest : BitVec 16) (hs : List (BitVec 16)) : SeqM Unit :=
  hs.zipIdx.forM fun (h, i) =>
    if i ≠ first ∧ h ≠ rest then Seq.i (Inst.movk (x rd) h (16 * i)) else pure ()

/-- "`rd := value` with a fixed (hole-free) `movz`/`movn` + `movk` sequence." -/
def mov_imm (rd : Gp) (value : BitVec 64) : SeqM Unit :=
  let hs := halves value
  let zeros := hs.countP (· = 0)
  let ones := hs.countP (· = 0xFFFF)
  if ones > zeros then do
    let first := (hs.findIdx? (· ≠ 0xFFFF)).getD 0
    Seq.i (Inst.movn (x rd) (~~~ hs.getD first 0) (16 * first))
    movk_rest rd first 0xFFFF hs
  else do
    let first := (hs.findIdx? (· ≠ 0)).getD 0
    Seq.i (Inst.movz (x rd) (hs.getD first 0) (16 * first))
    movk_rest rd first 0 hs

/-- "`rd := canonical_ty(low bits of rn)`." -/
def canon (rd rn : Gp) : IntTy → SeqM Unit
  | .I8 => Seq.i (Inst.sxtb (x rd) (x rn))
  | .I16 => Seq.i (Inst.sxth (x rd) (x rn))
  | .I32 => Seq.i (Inst.sxtw (x rd) (w rn))
  | .U8 => Seq.i (Inst.uxtb (w rd) (w rn))
  | .U16 => Seq.i (Inst.uxth (w rd) (w rn))
  | .U32 => Seq.i (Inst.mov_reg (w rd) (w rn))
  | .I64 | .U64 => if rd ≠ rn then Seq.i (Inst.mov_reg (x rd) (x rn)) else pure ()

/-- "Raw-bits zero extension of `rn` into `rd`." -/
def raw (rd rn : Gp) : RawExt → SeqM Unit
  | .B => Seq.i (Inst.uxtb (w rd) (w rn))
  | .H => Seq.i (Inst.uxth (w rd) (w rn))
  | .W => Seq.i (Inst.mov_reg (w rd) (w rn))
  | .None => if rd ≠ rn then Seq.i (Inst.mov_reg (x rd) (x rn)) else pure ()

/-- "Narrow types: trap `kind` unless `x<r>` is the canonical form of its own low bits". -/
def fits_or_trap (r : Gp) (ty : IntTy) (kind : TrapKind) : SeqM Unit := do
  let e ← expect "narrow type" ty.ext
  Seq.i ((RegExtend.new e 0).bind fun e => Inst.cmp_extended (x r) (w r) e)
  Seq.trap_if .NE kind

/-- "Clamp signed `x12` to `[lo, hi]` of `ty` (signed comparisons)." -/
def clamp_signed (ty : IntTy) : SeqM Unit := do
  mov_imm T1 ty.hi
  Seq.i (Inst.cmp_shifted (x R) (x T1) no_shift)
  Seq.i (Inst.csel (x R) (x T1) (x R) .GT)
  mov_imm T1 ty.lo
  Seq.i (Inst.cmp_shifted (x R) (x T1) no_shift)
  Seq.i (Inst.csel (x R) (x T1) (x R) .LT)

/-- "Clamp `x12` (an exact non-negative value) to `hi` (unsigned compare)." -/
def clamp_hi_unsigned (hi : BitVec 64) : SeqM Unit := do
  mov_imm T1 hi
  Seq.i (Inst.cmp_shifted (x R) (x T1) no_shift)
  Seq.i (Inst.csel (x R) (x T1) (x R) .HI)

/-- "Clamp `x12` (an exact signed value) at zero from below." -/
def clamp_zero : SeqM Unit := do
  Seq.i ((Uimm12Lsl.new 0).bind fun i => Inst.cmp_imm (x R) i)
  Seq.i (Inst.csel (x R) Reg.xzr (x R) .LT)

/-- `i64::MAX as u64` -/
def I64_MAX : BitVec 64 := 0x7FFFFFFFFFFFFFFF

/-- "`x<rd> := (sign of x<from> < 0) ? i64::MIN : i64::MAX`." -/
def sat_by_sign (rd src : Gp) : SeqM Unit := do
  Seq.i (Inst.asr_imm (x rd) (x src) 63)
  Seq.i ((LogicalImm.new I64_MAX true).bind fun m => Inst.eor_imm (x rd) (x rd) m)

def load_ab : SeqM Unit := do
  Seq.ldr_slot A .SlotA
  Seq.ldr_slot B .SlotB

def store_r : SeqM Unit := Seq.str_slot R .SlotDst

/-- "The 64-bit signed `MIN / -1` (and `MIN % -1`) detector". -/
def min_by_minus_one (skip_to_after_vs : Int) : SeqM Unit := do
  Seq.i ((Uimm12Lsl.new 1).bind fun i => Inst.cmn_imm (x B) i)
  Seq.b_cond_local .NE skip_to_after_vs
  Seq.i (Inst.negs Reg.xzr (x A) no_shift)

/-! ## Bodies -/

/-- The narrow arms of `add` and `sub`. -/
def add_sub_narrow (add : Bool) (mode : ArMode) (ty : IntTy) : SeqM Unit := do
  Seq.i (if add then Inst.add_shifted (x R) (x A) (x B) no_shift
    else Inst.sub_shifted (x R) (x A) (x B) no_shift)
  match mode with
  | .Wrap => canon R R ty
  | .Trap => fits_or_trap R ty .Overflow
  | .Sat =>
    if ty.signed then clamp_signed ty
    else if add then clamp_hi_unsigned ty.hi
    else clamp_zero

/-- The 64-bit arms of `add` and `sub`. -/
def add_sub_wide (add : Bool) (mode : ArMode) (signed : Bool) : SeqM Unit :=
  let flag_setting : SeqM Unit :=
    Seq.i (if add then Inst.adds_shifted (x R) (x A) (x B) no_shift
      else Inst.subs_shifted (x R) (x A) (x B) no_shift)
  match mode with
  | .Wrap =>
    Seq.i (if add then Inst.add_shifted (x R) (x A) (x B) no_shift
      else Inst.sub_shifted (x R) (x A) (x B) no_shift)
  | .Trap => do
    flag_setting
    match signed, add with
    | true, _ => Seq.trap_if .VS .Overflow
    | false, true => Seq.trap_if .CS .Overflow
    | false, false => Seq.trap_if .CC .Overflow
  | .Sat => do
    flag_setting
    match signed, add with
    | true, _ =>
      -- "Signed overflow saturates toward a's sign."
      sat_by_sign T1 A
      Seq.i (Inst.csel (x R) (x T1) (x R) .VS)
    | false, true => Seq.i (Inst.csinv (x R) (x R) Reg.xzr .CC)
    | false, false => Seq.i (Inst.csel (x R) (x R) Reg.xzr .CS)

def mul_narrow (mode : ArMode) (ty : IntTy) : SeqM Unit := do
  Seq.i (Inst.mul (x R) (x A) (x B))
  match mode with
  | .Wrap => canon R R ty
  | .Trap => fits_or_trap R ty .Overflow
  | .Sat => if ty.signed then clamp_signed ty else clamp_hi_unsigned ty.hi

/-- "Overflow" of the signed product: its high half is not the sign of its low half. -/
def mul_high_test : SeqM Unit := do
  Seq.i (Inst.mul (x R) (x A) (x B))
  Seq.i (Inst.smulh (x T1) (x A) (x B))
  Seq.i ((RegShift.new .Asr 63 true).bind fun sh => Inst.cmp_shifted (x T1) (x R) sh)

def mul_wide (mode : ArMode) (signed : Bool) : SeqM Unit :=
  match mode, signed with
  | .Wrap, _ => Seq.i (Inst.mul (x R) (x A) (x B))
  | .Trap, true => do
    mul_high_test
    Seq.trap_if .NE .Overflow
  | .Trap, false => do
    Seq.i (Inst.umulh (x T1) (x A) (x B))
    Seq.trap_cbnz (x T1) .Overflow
    Seq.i (Inst.mul (x R) (x A) (x B))
  | .Sat, true => do
    mul_high_test
    -- "Overflow saturates toward the sign of the true product."
    Seq.i (Inst.eor_shifted (x T2) (x A) (x B) no_shift)
    sat_by_sign T2 T2
    Seq.i (Inst.csel (x R) (x R) (x T2) .EQ)
  | .Sat, false => do
    Seq.i (Inst.umulh (x T1) (x A) (x B))
    Seq.i (Inst.mul (x R) (x A) (x B))
    Seq.i ((Uimm12Lsl.new 0).bind fun i => Inst.cmp_imm (x T1) i)
    Seq.i (Inst.csinv (x R) (x R) Reg.xzr .EQ)

/-- The quotient into `x13`, then the remainder. -/
def rem_by (div : Reg → Reg → Reg → Result Inst) : SeqM Unit := do
  Seq.i (div (x T1) (x A) (x B))
  Seq.i (Inst.msub (x R) (x T1) (x B) (x A))

/-- "Exact in 64 bits: MIN / -1 = 2^(w-1), MIN % -1 = 0." -/
def div_rem_narrow (div : Bool) (mode : ArMode) (ty : IntTy) : SeqM Unit :=
  if div then do
    Seq.i (Inst.sdiv (x R) (x A) (x B))
    match mode with
    | .Trap => fits_or_trap R ty .Overflow
    | .Wrap => canon R R ty
    | .Sat => clamp_signed ty
  else do
    Seq.i (Inst.sdiv (x T1) (x A) (x B))
    -- "`MIN % -1` traps `overflow` (Q4): exactly when the quotient does not fit."
    match mode with
    | .Trap => fits_or_trap T1 ty .Overflow
    | _ => pure ()
    Seq.i (Inst.msub (x R) (x T1) (x B) (x A))

/-- "64-bit signed: the hardware gives MIN / -1 = MIN (wrap) and MIN % -1 = 0, so only Trap (both) and
Sat div (MAX) need the detector." -/
def div_rem_wide (div : Bool) (mode : ArMode) : SeqM Unit :=
  match mode, div with
  | .Trap, _ => do
    min_by_minus_one 3
    Seq.trap_if .VS .Overflow
    if div then Seq.i (Inst.sdiv (x R) (x A) (x B)) else rem_by Inst.sdiv
  | .Sat, true => do
    Seq.i (Inst.sdiv (x R) (x A) (x B))
    min_by_minus_one 4
    Seq.b_cond_local .VC 2
    mov_imm R I64_MAX
  | _, true => Seq.i (Inst.sdiv (x R) (x A) (x B))
  | _, false => rem_by Inst.sdiv

/-- "`div-zero` in every mode". -/
def div_rem (div : Bool) (mode : ArMode) (ty : IntTy) : SeqM Unit := do
  Seq.trap_cbz (x B) .DivZero
  if ¬ ty.signed then
    if div then Seq.i (Inst.udiv (x R) (x A) (x B)) else rem_by Inst.udiv
  else if ty.narrow then div_rem_narrow div mode ty
  else div_rem_wide div mode

def bin (op : BinOp) (mode : ArMode) (ty : IntTy) : SeqM Unit :=
  match op with
  | .Add => if ty.narrow then add_sub_narrow true mode ty else add_sub_wide true mode ty.signed
  | .Sub => if ty.narrow then add_sub_narrow false mode ty else add_sub_wide false mode ty.signed
  | .Mul => if ty.narrow then mul_narrow mode ty else mul_wide mode ty.signed
  | .Div => div_rem true mode ty
  | .Rem => div_rem false mode ty

/-- The saturating `shl`. -/
def shl_sat (ty : IntTy) : SeqM Unit := do
  Seq.i (Inst.lslv (x R) (x A) (x T1))
  if ty.narrow then
    -- "|a| < 2^32 and count < 32: the 64-bit shift is exact."
    if ty.signed then clamp_signed ty else clamp_hi_unsigned ty.hi
  else if ty.signed then do
    -- "Exact iff shifting back recovers a; else saturate by sign."
    Seq.i (Inst.asrv (x T2) (x R) (x T1))
    Seq.i (Inst.cmp_shifted (x T2) (x A) no_shift)
    sat_by_sign T3 A
    Seq.i (Inst.csel (x R) (x R) (x T3) .EQ)
  else do
    Seq.i (Inst.lsrv (x T2) (x R) (x T1))
    Seq.i (Inst.cmp_shifted (x T2) (x A) no_shift)
    Seq.i (Inst.csinv (x R) (x R) Reg.xzr .EQ)

/-- "After the count check: `x13` holds the (in-range) count." -/
def shift (op : ShiftOp) (mode : ArMode) (ty : IntTy) : SeqM Unit :=
  match op, mode with
  | .Shr, _ =>
    Seq.i (if ty.signed then Inst.asrv (x R) (x A) (x T1) else Inst.lsrv (x R) (x A) (x T1))
  | .Shl, .Sat => shl_sat ty
  | .Shl, _ => do
    -- "arith.rs `trap_shl`: only the count traps; the bits wrap."
    Seq.i (Inst.lslv (x R) (x A) (x T1))
    canon R R ty

def neg (mode : ArMode) (ty : IntTy) : SeqM Unit :=
  if ty.narrow then do
    Seq.i (Inst.neg (x R) (x A) no_shift)
    match mode with
    | .Wrap => canon R R ty
    | .Trap => fits_or_trap R ty .Overflow
    | .Sat => clamp_signed ty
  else
    match mode with
    | .Wrap => Seq.i (Inst.neg (x R) (x A) no_shift)
    | .Trap => do
      Seq.i (Inst.negs (x R) (x A) no_shift)
      Seq.trap_if .VS .Overflow
    | .Sat => do
      -- "-MIN overflows to MIN; its complement is MAX."
      Seq.i (Inst.negs (x R) (x A) no_shift)
      Seq.i (Inst.csinv (x R) (x R) (x R) .VC)

/-- "The value is exactly representable iff its canonical image in `to` is itself, AND (across a sign
change) it is not >= 2^63 as an unsigned source / negative as a signed source." -/
def conv_checked (from_ty to_ty : IntTy) : SeqM Unit := do
  canon R A to_ty
  Seq.i (Inst.cmp_shifted (x R) (x A) no_shift)
  Seq.trap_if .NE .CheckedConversion
  if from_ty.signed ≠ to_ty.signed then Seq.trap_tbnz (x A) 63 .CheckedConversion else pure ()

def conv_sat (from_ty to_ty : IntTy) : SeqM Unit := do
  Seq.i (Inst.mov_reg (x R) (x A))
  match from_ty.signed, to_ty.signed with
  | true, true => clamp_signed to_ty
  | false, false => clamp_hi_unsigned to_ty.hi
  | true, false =>
    clamp_zero
    clamp_hi_unsigned to_ty.hi
  | false, true => clamp_hi_unsigned to_ty.hi

def conv (op : ConvOp) (from_ty to_ty : IntTy) : SeqM Unit :=
  match op with
  | .Wrap => canon R A to_ty
  | .Checked => conv_checked from_ty to_ty
  | .Sat => conv_sat from_ty to_ty

def logic : LogicOp → Result Inst
  | .And => Inst.and_shifted (x R) (x A) (x B) no_shift
  | .Or => Inst.orr_shifted (x R) (x A) (x B) no_shift
  | .Xor => Inst.eor_shifted (x R) (x A) (x B) no_shift

/-- "Emits stencil `key`'s body into `s`." -/
def body : Key → SeqM Unit
  | .Const => do
    Seq.movz_imm (x R) 0 0
    Seq.movk_imm (x R) 1 16
    Seq.movk_imm (x R) 2 32
    Seq.movk_imm (x R) 3 48
    store_r
  | .Copy => do
    Seq.ldr_slot A .SlotA
    Seq.str_slot A .SlotDst
  | .Bin op mode ty => do
    load_ab
    bin op mode ty
    store_r
  | .Shift op mode ty count => do
    load_ab
    -- "The count is the raw low bits of `b`"; "`count >= width` traps `shift` in every mode."
    raw T1 B count
    Seq.i ((Uimm12Lsl.new (.ofNat 64 ty.width)).bind fun i => Inst.cmp_imm (x T1) i)
    Seq.trap_if .CS .Shift
    shift op mode ty
    store_r
  | .Neg mode ty => do
    Seq.ldr_slot A .SlotA
    neg mode ty
    store_r
  | .Logic op => do
    load_ab
    Seq.i (logic op)
    store_r
  | .Not ty => do
    Seq.ldr_slot A .SlotA
    Seq.i (Inst.mvn (x R) (x A) no_shift)
    if ¬ ty.signed then canon R R ty else pure ()
    store_r
  | .NotBool => do
    Seq.ldr_slot A .SlotA
    Seq.i ((LogicalImm.new 1 true).bind fun m => Inst.eor_imm (x R) (x A) m)
    store_r
  | .Icmp pred signed => do
    load_ab
    Seq.i (Inst.cmp_shifted (x A) (x B) no_shift)
    Seq.i (Inst.cset (x R) (pred.cond signed))
    store_r
  | .Conv op from_ty to_ty => do
    Seq.ldr_slot A .SlotA
    conv op from_ty to_ty
    store_r
  | .WriteUint ext => do
    Seq.ldr_slot 0 .SlotA
    raw 0 0 ext
    Seq.bl .WriteUint
  | .WriteLine => do
    Seq.adr_lit (x 0)
    Seq.movz_imm (x 1) 0 0
    Seq.movk_imm (x 1) 1 16
    Seq.bl .WriteLine
  | .Prologue => do
    Seq.i ((SImm7Scaled.new (-16) 8).bind fun o => Inst.stp (x 29) (x 30) Reg.sp o .PreIndex)
    Seq.i (Inst.mov_sp (x 29) Reg.sp)
    Seq.movz_imm (x A) 0 0
    Seq.i ((RegExtend.new .Uxtx 0).bind fun e => Inst.sub_extended Reg.sp Reg.sp (x A) e)
  | .Epilogue => do
    Seq.i (Inst.mov_sp Reg.sp (x 29))
    Seq.i ((SImm7Scaled.new 16 8).bind fun o => Inst.ldp (x 29) (x 30) Reg.sp o .PostIndex)
    Seq.i (Inst.ret (x 30))
  | .TrapJump kind => do
    let kind ← trap_kind kind
    Seq.trap_always kind
  | .Brk kind => do
    let imm ← expect "eight kinds" (brk_imm kind)
    Seq.fixed (Inst.brk imm)

end Fors.Codegen
