import Mathlib.Algebra.Group.Nat.Defs

/-!
# FMIR opcodes

The opcode set with its embedded modes, the `(discriminant, payload)` pair of the byte encoding
and its inverse `from_parts`, and the opcode classes the verifier and the dump ask for.

Source: `crates/fors-fmir/src/op.rs`. Principal result: `discriminant_of_from_parts`.
-/

namespace Fors.Fmir

/-- "No operand here" in an instruction slot, and the absent value of every id. -/
def ABSENT : UInt32 := 0xFFFFFFFF

def NO_OPERAND : UInt32 := ABSENT

inductive ArithMode where
  | Trap | Wrap | Sat | Unchecked
  deriving DecidableEq

namespace ArithMode

def as_u32 : ArithMode → UInt32
  | Trap => 0
  | Wrap => 1
  | Sat => 2
  | Unchecked => 3

def from_u32 (v : UInt32) : Option ArithMode :=
  if v = 0 then some Trap
  else if v = 1 then some Wrap
  else if v = 2 then some Sat
  else if v = 3 then some Unchecked
  else none

def debug : ArithMode → String
  | Trap => "Trap"
  | Wrap => "Wrap"
  | Sat => "Sat"
  | Unchecked => "Unchecked"

end ArithMode

/-- The `@fastmath` mask of a float opcode. -/
structure Relax where
  bits : UInt8
  deriving DecidableEq

inductive Policy where
  | Runtime | Off
  deriving DecidableEq

namespace Policy

def as_u32 : Policy → UInt32
  | Runtime => 0
  | Off => 1

def from_u32 (v : UInt32) : Option Policy :=
  if v = 0 then some Runtime
  else if v = 1 then some Off
  else none

def debug : Policy → String
  | Runtime => "Runtime"
  | Off => "Off"

end Policy

inductive CmpPred where
  | Eq | Ne | Lt | Le | Gt | Ge
  deriving DecidableEq

namespace CmpPred

def as_u32 : CmpPred → UInt32
  | Eq => 0
  | Ne => 1
  | Lt => 2
  | Le => 3
  | Gt => 4
  | Ge => 5

def from_u32 (v : UInt32) : Option CmpPred :=
  if v = 0 then some Eq
  else if v = 1 then some Ne
  else if v = 2 then some Lt
  else if v = 3 then some Le
  else if v = 4 then some Gt
  else if v = 5 then some Ge
  else none

def debug : CmpPred → String
  | Eq => "Eq"
  | Ne => "Ne"
  | Lt => "Lt"
  | Le => "Le"
  | Gt => "Gt"
  | Ge => "Ge"

end CmpPred

inductive TrapKind where
  | Bounds | Overflow | DivZero | Shift | CheckedConversion | ArenaGeneration | Contract
  | EmptyReduce
  deriving DecidableEq

namespace TrapKind

def as_str : TrapKind → String
  | Bounds => "bounds"
  | Overflow => "overflow"
  | DivZero => "div-zero"
  | Shift => "shift"
  | CheckedConversion => "checked-conversion"
  | ArenaGeneration => "arena-generation"
  | Contract => "contract"
  | EmptyReduce => "empty-reduce"

def from_u32 (v : UInt32) : Option TrapKind :=
  [Bounds, Overflow, DivZero, Shift, CheckedConversion, ArenaGeneration, Contract,
    EmptyReduce][v.toNat]?

end TrapKind

/-- The 71-opcode set. -/
inductive Op where
  | ConstInt | ConstFloat | ConstBool | ConstUnit | ConstStr | ConstFn
  | Add (m : ArithMode) | Sub (m : ArithMode) | Mul (m : ArithMode) | Div (m : ArithMode)
  | Rem (m : ArithMode) | Shl (m : ArithMode) | Shr (m : ArithMode) | Neg (m : ArithMode)
  | Fadd (r : Relax) | Fsub (r : Relax) | Fmul (r : Relax) | Fdiv (r : Relax) | Frem (r : Relax)
  | Fneg (r : Relax)
  | Icmp (p : CmpPred) | Fcmp (p : CmpPred) | And | Or | Xor | Not
  | ConvChecked | ConvWrap | ConvSat | ConvTrunc
  | AggNew | Field | VariantNew | Discr | Payload | TupleNew
  | MoveFrom | CopyFrom | Init | Borrow | BorrowMut | BorrowOut | Index | SliceRange
  | Alloc | Free | ArenaAlloc | ArenaDeref | ArenaReset
  | CallDirect | CallWitness | CallClosure | Intrinsic
  | CheckPre (p : Policy) | CheckPost (p : Policy) | CheckInv (p : Policy)
  | ReduceTree
  | EraseToDyn | Declassify
  | RegionEnter | RegionExit | Spawn | Sync
  | Br | CondBr | SwitchDiscr | TryBr | Ret | Raise | Trap | Unreachable
  /-- Not one of the 71: the sentinel a `tile.*` mnemonic parses to. -/
  | TileOp
  deriving DecidableEq

namespace Op

def is_terminator : Op → Bool
  | Br | CondBr | SwitchDiscr | TryBr | Ret | Raise | Trap | Unreachable => true
  | _ => false

def is_memory_producing : Op → Bool
  | Alloc | ArenaAlloc | ArenaDeref | Borrow | BorrowMut | BorrowOut | Index | SliceRange => true
  | _ => false

def arith_mode : Op → Option ArithMode
  | Add m | Sub m | Mul m | Div m | Rem m | Shl m | Shr m | Neg m => some m
  | _ => none

def is_secret_rejected_trapping_op (op : Op) : Bool :=
  op.arith_mode = some ArithMode.Trap || op = ConvChecked

def is_host_intrinsic (op : Op) : Bool :=
  op = Intrinsic

def is_contract_check : Op → Bool
  | CheckPre _ | CheckPost _ | CheckInv _ => true
  | _ => false

/-- `{:?}` of an opcode. -/
def debug (op : Op) : String :=
  let mode (name : String) (m : ArithMode) := name ++ "(" ++ m.debug ++ ")"
  let relax (name : String) (r : Relax) := name ++ "(Relax(" ++ toString r.bits ++ "))"
  let pred (name : String) (p : CmpPred) := name ++ "(" ++ p.debug ++ ")"
  let policy (name : String) (p : Policy) := name ++ "(" ++ p.debug ++ ")"
  match op with
  | ConstInt => "ConstInt" | ConstFloat => "ConstFloat" | ConstBool => "ConstBool"
  | ConstUnit => "ConstUnit" | ConstStr => "ConstStr" | ConstFn => "ConstFn"
  | Add m => mode "Add" m | Sub m => mode "Sub" m | Mul m => mode "Mul" m
  | Div m => mode "Div" m | Rem m => mode "Rem" m | Shl m => mode "Shl" m
  | Shr m => mode "Shr" m | Neg m => mode "Neg" m
  | Fadd r => relax "Fadd" r | Fsub r => relax "Fsub" r | Fmul r => relax "Fmul" r
  | Fdiv r => relax "Fdiv" r | Frem r => relax "Frem" r | Fneg r => relax "Fneg" r
  | Icmp p => pred "Icmp" p | Fcmp p => pred "Fcmp" p
  | And => "And" | Or => "Or" | Xor => "Xor" | Not => "Not"
  | ConvChecked => "ConvChecked" | ConvWrap => "ConvWrap" | ConvSat => "ConvSat"
  | ConvTrunc => "ConvTrunc"
  | AggNew => "AggNew" | Field => "Field" | VariantNew => "VariantNew" | Discr => "Discr"
  | Payload => "Payload" | TupleNew => "TupleNew"
  | MoveFrom => "MoveFrom" | CopyFrom => "CopyFrom" | Init => "Init" | Borrow => "Borrow"
  | BorrowMut => "BorrowMut" | BorrowOut => "BorrowOut" | Index => "Index"
  | SliceRange => "SliceRange"
  | Alloc => "Alloc" | Free => "Free" | ArenaAlloc => "ArenaAlloc" | ArenaDeref => "ArenaDeref"
  | ArenaReset => "ArenaReset"
  | CallDirect => "CallDirect" | CallWitness => "CallWitness" | CallClosure => "CallClosure"
  | Intrinsic => "Intrinsic"
  | CheckPre p => policy "CheckPre" p | CheckPost p => policy "CheckPost" p
  | CheckInv p => policy "CheckInv" p
  | ReduceTree => "ReduceTree"
  | EraseToDyn => "EraseToDyn" | Declassify => "Declassify"
  | RegionEnter => "RegionEnter" | RegionExit => "RegionExit" | Spawn => "Spawn" | Sync => "Sync"
  | Br => "Br" | CondBr => "CondBr" | SwitchDiscr => "SwitchDiscr" | TryBr => "TryBr"
  | Ret => "Ret" | Raise => "Raise" | Trap => "Trap" | Unreachable => "Unreachable"
  | TileOp => "TileOp"

def discriminant : Op → UInt32
  | ConstInt => 0 | ConstFloat => 1 | ConstBool => 2 | ConstUnit => 3 | ConstStr => 4
  | ConstFn => 5
  | Add _ => 6 | Sub _ => 7 | Mul _ => 8 | Div _ => 9 | Rem _ => 10 | Shl _ => 11 | Shr _ => 12
  | Neg _ => 13
  | Fadd _ => 14 | Fsub _ => 15 | Fmul _ => 16 | Fdiv _ => 17 | Frem _ => 18 | Fneg _ => 19
  | Icmp _ => 20 | Fcmp _ => 21 | And => 22 | Or => 23 | Xor => 24 | Not => 25
  | ConvChecked => 26 | ConvWrap => 27 | ConvSat => 28 | ConvTrunc => 29
  | AggNew => 30 | Field => 31 | VariantNew => 32 | Discr => 33 | Payload => 34 | TupleNew => 35
  | MoveFrom => 36 | CopyFrom => 37 | Init => 38 | Borrow => 39 | BorrowMut => 40
  | BorrowOut => 41 | Index => 42 | SliceRange => 43
  | Alloc => 44 | Free => 45 | ArenaAlloc => 46 | ArenaDeref => 47 | ArenaReset => 48
  | CallDirect => 49 | CallWitness => 50 | CallClosure => 51 | Intrinsic => 52
  | CheckPre _ => 53 | CheckPost _ => 54 | CheckInv _ => 55
  | ReduceTree => 56
  | EraseToDyn => 57 | Declassify => 58
  | RegionEnter => 59 | RegionExit => 60 | Spawn => 61 | Sync => 62
  | Br => 63 | CondBr => 64 | SwitchDiscr => 65 | TryBr => 66 | Ret => 67 | Raise => 68
  | Trap => 69 | Unreachable => 70
  | TileOp => 71

/-- `0` for every opcode with no embedded mode. -/
def payload : Op → UInt32
  | Add m | Sub m | Mul m | Div m | Rem m | Shl m | Shr m | Neg m => m.as_u32
  | Fadd r | Fsub r | Fmul r | Fdiv r | Frem r | Fneg r => r.bits.toUInt32
  | Icmp p | Fcmp p => p.as_u32
  | CheckPre p | CheckPost p | CheckInv p => p.as_u32
  | _ => 0

def from_parts (discriminant payload : UInt32) : Option Op :=
  let arith (ctor : ArithMode → Op) := (ArithMode.from_u32 payload).map ctor
  let relax (ctor : Relax → Op) := some (ctor ⟨payload.toUInt8⟩)
  let cmp (ctor : CmpPred → Op) := (CmpPred.from_u32 payload).map ctor
  let policy (ctor : Policy → Op) := (Policy.from_u32 payload).map ctor
  match discriminant.toNat with
  | 0 => some ConstInt | 1 => some ConstFloat | 2 => some ConstBool | 3 => some ConstUnit
  | 4 => some ConstStr | 5 => some ConstFn
  | 6 => arith Add | 7 => arith Sub | 8 => arith Mul | 9 => arith Div | 10 => arith Rem
  | 11 => arith Shl | 12 => arith Shr | 13 => arith Neg
  | 14 => relax Fadd | 15 => relax Fsub | 16 => relax Fmul | 17 => relax Fdiv | 18 => relax Frem
  | 19 => relax Fneg
  | 20 => cmp Icmp | 21 => cmp Fcmp
  | 22 => some And | 23 => some Or | 24 => some Xor | 25 => some Not
  | 26 => some ConvChecked | 27 => some ConvWrap | 28 => some ConvSat | 29 => some ConvTrunc
  | 30 => some AggNew | 31 => some Field | 32 => some VariantNew | 33 => some Discr
  | 34 => some Payload | 35 => some TupleNew
  | 36 => some MoveFrom | 37 => some CopyFrom | 38 => some Init | 39 => some Borrow
  | 40 => some BorrowMut | 41 => some BorrowOut | 42 => some Index | 43 => some SliceRange
  | 44 => some Alloc | 45 => some Free | 46 => some ArenaAlloc | 47 => some ArenaDeref
  | 48 => some ArenaReset
  | 49 => some CallDirect | 50 => some CallWitness | 51 => some CallClosure | 52 => some Intrinsic
  | 53 => policy CheckPre | 54 => policy CheckPost | 55 => policy CheckInv
  | 56 => some ReduceTree
  | 57 => some EraseToDyn | 58 => some Declassify
  | 59 => some RegionEnter | 60 => some RegionExit | 61 => some Spawn | 62 => some Sync
  | 63 => some Br | 64 => some CondBr | 65 => some SwitchDiscr | 66 => some TryBr | 67 => some Ret
  | 68 => some Raise | 69 => some Trap | 70 => some Unreachable
  | 71 => some TileOp
  | _ => none

end Op

theorem ArithMode.from_u32_as_u32 (m : ArithMode) : ArithMode.from_u32 m.as_u32 = some m := by
  cases m <;> rfl

theorem CmpPred.from_u32_as_u32 (p : CmpPred) : CmpPred.from_u32 p.as_u32 = some p := by
  cases p <;> rfl

theorem Policy.from_u32_as_u32 (p : Policy) : Policy.from_u32 p.as_u32 = some p := by
  cases p <;> rfl

namespace Op

theorem from_parts_parts (op : Op) : from_parts op.discriminant op.payload = some op := by
  cases op
  case Fadd r | Fsub r | Fmul r | Fdiv r | Frem r | Fneg r =>
    simp only [from_parts, discriminant, payload, UInt8.toUInt8_toUInt32]
    rfl
  all_goals
    first
      | rfl
      | exact congrArg (Option.map _) (ArithMode.from_u32_as_u32 _)
      | exact congrArg (Option.map _) (CmpPred.from_u32_as_u32 _)
      | exact congrArg (Option.map _) (Policy.from_u32_as_u32 _)

/-- The opcode word is decoded exactly; the payload word may carry what no writer writes. -/
theorem discriminant_of_from_parts {d p : UInt32} {op : Op} (h : from_parts d p = some op) :
    op.discriminant = d := by
  simp only [from_parts] at h
  split at h <;>
    first
      | (rename_i hd
         apply UInt32.toNat_inj.mp
         rw [hd]
         first
           | (cases h; rfl)
           | (obtain ⟨m, -, rfl⟩ := Option.map_eq_some_iff.mp h; rfl))
      | cases h

end Op

end Fors.Fmir
