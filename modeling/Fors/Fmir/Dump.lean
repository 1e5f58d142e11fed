import Fors.Fmir.Decl

/-!
# The textual dump

`dump` renders a declaration line by line. It adds a block's window bounds in `u32`, slices a
`switch_discr`'s arms and indexes the place pool for an `own` or `split` seed; each of these can
fault on a malformed declaration, everything else is clamped or guarded.

Source: `crates/fors-fmir/src/dump.rs`.
-/

namespace Fors.Fmir

def secret_tok (flags : UInt16) : String :=
  if flags &&& SECRET_UNSPECIFIED ≠ 0 then "?"
  else if flags &&& SECRET ≠ 0 then "secret"
  else "nosecret"

def ct_tok (ct : UInt16) : String :=
  if ct = CT_UNSPECIFIED then "ct=?" else s!"ct={ct}"

def conv_str : Conv → String
  | .Let => "let"
  | .Inout => "inout"
  | .Sink => "sink"
  | .Set => "set"

def mode_suffix : ArithMode → String
  | .Trap => ""
  | .Wrap => ":wrap"
  | .Sat => ":sat"
  | .Unchecked => ":unchecked"

def policy_suffix : Policy → String
  | .Runtime => ""
  | .Off => " policy=off"

def mnemonic (op : Op) : String :=
  match op with
  | .ConstInt => "const_int" | .ConstFloat => "const_float" | .ConstBool => "const_bool"
  | .ConstUnit => "const_unit" | .ConstStr => "const_str" | .ConstFn => "const_fn"
  | .Add m => "add" ++ mode_suffix m | .Sub m => "sub" ++ mode_suffix m
  | .Mul m => "mul" ++ mode_suffix m | .Div m => "div" ++ mode_suffix m
  | .Rem m => "rem" ++ mode_suffix m | .Shl m => "shl" ++ mode_suffix m
  | .Shr m => "shr" ++ mode_suffix m | .Neg m => "neg" ++ mode_suffix m
  | .Index => "index" | .SliceRange => "slice_range"
  | .Alloc => "alloc" | .ArenaAlloc => "arena_alloc" | .ArenaDeref => "arena_deref"
  | .ArenaReset => "arena_reset" | .Free => "free"
  | .CheckPre _ => "check_pre" | .CheckPost _ => "check_post" | .CheckInv _ => "check_inv"
  | .Intrinsic => "intrinsic" | .Declassify => "declassify" | .EraseToDyn => "erase_to_dyn"
  | .RegionEnter => "region_enter" | .RegionExit => "region_exit" | .Spawn => "spawn"
  | .Sync => "sync"
  | .Br => "br" | .CondBr => "cond_br" | .SwitchDiscr => "switch_discr" | .TryBr => "try_br"
  | .Ret => "ret" | .Raise => "raise" | .Trap => "trap" | .Unreachable => "unreachable"
  | .TileOp => "tile.op"
  | other => s!"unsupported({other.discriminant})"

def trailing_modifier : Op → String
  | .CheckPre p | .CheckPost p | .CheckInv p => policy_suffix p
  | _ => ""

def dump_switch (d : DeclFmir) (sw : SwitchRow) : Except Fault String := do
  let arms ← slice d.insts.switch_arms sw.arms
  return s!" %v{sw.discr} bb{sw.default}" ++
    String.join (arms.map fun arm => s!" {arm.value}:bb{arm.target}")

def dump_intrinsic (d : DeclFmir) (call : CallRow) : String :=
  let name := match call.callee with
    | .Intrinsic sym => s!" @{sym}"
    | _ => ""
  name ++ String.join ((d.insts.args call.args).map fun arg => s!" %v{arg}")

def dump_operands (d : DeclFmir) (inst : InstRow) : Except Fault String :=
  let val (v : UInt32) := s!" %v{v}"
  let bb (v : UInt32) := s!" bb{v}"
  match inst.op with
  | .Add _ | .Sub _ | .Mul _ | .Div _ | .Rem _ | .Shl _ | .Shr _
  | .Index | .Alloc | .ArenaAlloc => .ok (val inst.a ++ val inst.b)
  | .Neg _ | .ArenaDeref | .ArenaReset | .Declassify | .EraseToDyn | .Free
  | .CheckPre _ | .CheckPost _ | .CheckInv _ => .ok (val inst.a)
  | .SliceRange => .ok (val inst.a ++ val inst.b ++ val inst.c)
  | .Intrinsic =>
    match d.insts.calls[inst.a.toNat]? with
    | none => .ok ""
    | some call => .ok (dump_intrinsic d call)
  | .Br => .ok (bb inst.a)
  | .CondBr => .ok (val inst.a ++ bb inst.b ++ bb inst.c)
  | .SwitchDiscr =>
    match d.insts.switches[inst.a.toNat]? with
    | none => .ok ""
    | some sw => dump_switch d sw
  | .TryBr => .ok (s!" %inst{inst.a}" ++ bb inst.b ++ bb inst.c)
  | .Ret | .Raise => .ok (if inst.a ≠ NO_OPERAND then val inst.a else "")
  | .Trap =>
    let kind := ((TrapKind.from_u32 inst.a).map TrapKind.as_str).getD "?"
    .ok s!" kind={kind}"
  | .Spawn | .Sync | .RegionEnter | .RegionExit => .ok s!" r{inst.a}"
  | _ => .ok ""

def place_root (d : DeclFmir) (p : PlaceId) : Except Fault UInt32 := do
  let row ← index d.places.rows p
  return row.root

/-- The seed token of instruction `alias_idx`; a block's terminator has none. -/
def dump_seed (d : DeclFmir) (alias_idx : Option Nat) (inst : InstRow) : Except Fault String :=
  match alias_idx with
  | none => .ok ""
  | some i =>
    if ¬ inst.op.is_memory_producing then .ok ""
    else match d.insts.alias_ i with
    | .None => .ok ""
    | .Conv c => .ok (" seed conv-" ++ conv_str c)
    | .Own p => do
      let root ← place_root d p
      return s!" seed own{root}"
    | .Arena b => .ok s!" seed arena{b}"
    | .Split parent side => do
      let root ← place_root d parent
      return s!" seed split{root},{side}"

/-- Dumps one instruction as a `do`/`val =` line. -/
def dump_inst_as_do (d : DeclFmir) (alias_idx : Option Nat) (inst : InstRow)
    (dest : Option ValId) : Except Fault String := do
  let head := mnemonic inst.op
  let operands ← dump_operands d inst
  let trailing := trailing_modifier inst.op
  match dest, inst.op.is_terminator with
  | some val_id, false =>
    let row ← index d.vals.rows val_id
    let seed ← dump_seed d alias_idx inst
    return s!"val %v{val_id} = {head}{operands}{trailing} ty {row.ty} " ++
      s!"{secret_tok row.flags} {ct_tok row.ct}{seed}\n"
  | _, _ => return s!"do {head}{operands}{trailing}\n"

def dump_region (d : DeclFmir) (id : RegionId) (row : RegionRow) : String :=
  let kind := match row.kind with
    | .Spawn => "spawn"
    | .Parallel => "parallel"
    | .WithArena => "with-arena"
  let captures := if row.captures_absent then "" else
    " captures" ++ String.join ((clamped d.regions.captures row.captures).map fun cap =>
      s!" %v{cap.value}:{conv_str cap.conv}")
  s!"region r{id} {kind}{captures}\n"

/-- `InstId -> ValId`: the last value whose `def` names the instruction. -/
def inst_to_val (d : DeclFmir) : List (Option ValId) :=
  (all_rows d.vals.rows).foldl (fun table (val_id, row) =>
    match ValDef.decode row.def_ with
    | .Inst inst_id => table.set inst_id.toNat (some val_id)
    | .Param _ => table) (List.replicate d.insts.rows.length none)

def dump_param (id : ValId) (row : ValRow) : String :=
  match ValDef.decode row.def_ with
  | .Param ordinal =>
    s!"val %v{id} = param {ordinal} ty {row.ty} {secret_tok row.flags} {ct_tok row.ct}\n"
  | .Inst _ => ""

/-- The instructions `range` names that exist, with their positions. -/
def window (insts : InstPool) (range : Range) : List (InstRow × Nat) :=
  insts.rows.zipIdx.filter fun (_, i) => range.start.toNat ≤ i ∧ i < range.end_.toNat

def dump_block (d : DeclFmir) (names : List (Option ValId)) (id : BlockId) (block : BlockRow) :
    Except Fault String := do
  let range ← block.inst_range
  let insts ← (window d.insts range).mapM fun (row, i) =>
    dump_inst_as_do d (some i) row (names[i]?.getD none)
  let term ← dump_inst_as_do d none block.term none
  return s!"block bb{id}\n" ++ String.join insts ++ term

def dump (d : DeclFmir) : Except Fault String := do
  let unsafe_ := if d.is_unsafe_invariant then " unsafe" else ""
  let regions := (all_rows d.regions.rows).map fun (id, row) => dump_region d id row
  let params := (all_rows d.vals.rows).map fun (id, row) => dump_param id row
  let blocks ← (all_rows d.blocks).mapM fun (id, block) => dump_block d (inst_to_val d) id block
  return s!"decl {d.decl} sig {d.sig}{unsafe_}\n" ++ String.join regions ++ String.join params ++
    String.join blocks

end Fors.Fmir
