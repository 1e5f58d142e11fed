import Fors.Lib.Numerals
import Fors.Lib.Text
import Fors.Fmir.Dump
import Mathlib.Algebra.Group.Int.Defs

/-!
# The textual parser

`parse` reads the lines of a text twice: once for the names of the blocks, in file order, and once
to fill the pools. A value must be named above its first use; the last instruction of a block
becomes its terminator and stays in the pool.

Sources: `crates/fors-fmir/src/parse.rs`, `crates/fors-fmir/src/inst.rs`,
`crates/fors-fmir/src/encode.rs`, `crates/fors-fmir/src/op.rs`.
-/

namespace Fors.Fmir

open Numerals Text

structure ParseError where
  line : Nat
  message : String
  deriving DecidableEq

/-- What ends a parse without a declaration: an error of the parser's, or a panic on the way. -/
inductive ParseStop where
  | err (e : ParseError)
  | panic (fault : Fault)
  deriving DecidableEq

def err {α : Type} (line : Nat) (message : String) : Except ParseStop α :=
  .error (.err ⟨line, message⟩)

/-- A step that may panic. -/
def attempt {α : Type} : Except Fault α → Except ParseStop α
  | .ok a => .ok a
  | .error fault => .error (.panic fault)

/-! ## Pools -/

def ValDef.encode : ValDef → UInt32
  | .Inst id => id
  | .Param ordinal => PARAM_TAG ||| ordinal.toUInt32

def ValPool.push (vals : ValPool) (row : ValRow) : ValId × ValPool :=
  (UInt32.ofNat vals.entries.length, ⟨vals.entries ++ [(row, none)]⟩)

namespace InstPool

def push (insts : InstPool) (row : InstRow) (seed : AliasSeed) : InstId × InstPool :=
  (UInt32.ofNat insts.rows.length,
    { insts with rows := insts.rows ++ [row], aliases := insts.aliases ++ [seed] })

def push_operands (insts : InstPool) (vals : List ValId) (convs : List Conv) : Range × InstPool :=
  let start := UInt32.ofNat insts.operands.length
  let operands := insts.operands ++ vals
  (⟨start, UInt32.ofNat operands.length⟩,
    { insts with operands := operands, arg_convs := insts.arg_convs ++ convs })

def push_call (insts : InstPool) (row : CallRow) : UInt32 × InstPool :=
  (UInt32.ofNat insts.calls.length, { insts with calls := insts.calls ++ [row] })

def push_switch (insts : InstPool) (row : SwitchRow) : UInt32 × InstPool :=
  (UInt32.ofNat insts.switches.length, { insts with switches := insts.switches ++ [row] })

end InstPool

def RegionRow.ABSENT_CAPTURES : Range :=
  ⟨ABSENT, ABSENT⟩

/-! ## Words -/

/-- The words of a line from the first unread one on. -/
structure Toks where
  line_no : Nat
  toks : List String

def parse_u32 (s : String) : Option UInt32 :=
  (from_str_radix 0 (2 ^ 32 - 1) 10 s.toList).map fun n => .ofNat n.toNat

def parse_u16 (s : String) : Option UInt16 :=
  (from_str_radix 0 (2 ^ 16 - 1) 10 s.toList).map fun n => .ofNat n.toNat

def parse_u8 (s : String) : Option UInt8 :=
  (from_str_radix 0 (2 ^ 8 - 1) 10 s.toList).map fun n => .ofNat n.toNat

def parse_i64 (s : String) : Option Int64 :=
  (from_str_radix (-2 ^ 63) (2 ^ 63 - 1) 10 s.toList).map .ofInt

namespace Toks

def next (t : Toks) : Except ParseStop (String × Toks) :=
  match t.toks with
  | [] => err t.line_no "unexpected end of line"
  | tok :: toks => .ok (tok, ⟨t.line_no, toks⟩)

def peek (t : Toks) : Option String :=
  t.toks.head?

def u32 (t : Toks) : Except ParseStop (UInt32 × Toks) := do
  let (tok, t) ← t.next
  match parse_u32 tok with
  | some v => .ok (v, t)
  | none => err t.line_no s!"expected a u32, got `{tok}`"

def u16 (t : Toks) : Except ParseStop (UInt16 × Toks) := do
  let (tok, t) ← t.next
  match parse_u16 tok with
  | some v => .ok (v, t)
  | none => err t.line_no s!"expected a u16, got `{tok}`"

end Toks

/-- A map from names: the newest entry of a name counts. -/
abbrev Names := List (String × UInt32)

def parse_conv (s : String) (line_no : Nat) : Except ParseStop Conv :=
  match s with
  | "let" => .ok .Let
  | "inout" => .ok .Inout
  | "sink" => .ok .Sink
  | "set" => .ok .Set
  | other => err line_no s!"unknown convention `{other}`"

def lookup_val (name : String) (vals : Names) (line_no : Nat) : Except ParseStop ValId :=
  match vals.lookup name with
  | some v => .ok v
  | none => err line_no s!"unknown value `{name}`"

def lookup_block (name : String) (blocks : Names) (line_no : Nat) : Except ParseStop BlockId :=
  match blocks.lookup name with
  | some v => .ok v
  | none => err line_no s!"unknown block `{name}`"

def parse_ty (t : Toks) : Except ParseStop (UInt32 × Toks) := do
  let (tok, t) ← t.next
  if tok ≠ "ty" then err t.line_no "expected `ty <u32>`" else t.u32

def parse_secret (tok : String) (line_no : Nat) : Except ParseStop UInt16 :=
  match tok with
  | "secret" => .ok SECRET
  | "nosecret" => .ok 0
  | "?" => .ok SECRET_UNSPECIFIED
  | other => err line_no s!"expected `secret`/`nosecret`/`?`, got `{other}`"

def parse_ct (tok : String) (line_no : Nat) : Except ParseStop UInt16 :=
  if tok = "ct=?" then .ok CT_UNSPECIFIED
  else
    match strip_prefix "ct=" tok with
    | none => err line_no s!"expected `ct=<u16>` or `ct=?`, got `{tok}`"
    | some rest =>
      match parse_u16 rest with
      | some ct => .ok ct
      | none => err line_no s!"bad ct value in `{tok}`"

def parse_secret_and_ct (t : Toks) : Except ParseStop ((UInt16 × UInt16) × Toks) := do
  let (secret_tok, t) ← t.next
  let flags ← parse_secret secret_tok t.line_no
  let (ct_tok, t) ← t.next
  let ct ← parse_ct ct_tok t.line_no
  .ok ((flags, ct), t)

/-- The seed a word spells. A bare root is a place with an empty path. -/
def parse_seed (spec : String) (places : PlacePool) (line_no : Nat) :
    Except ParseStop (AliasSeed × PlacePool) :=
  if let some rest := strip_prefix "conv-" spec then do
    let conv ← parse_conv rest line_no
    .ok (.Conv conv, places)
  else if let some rest := strip_prefix "own" spec then
    match parse_u32 rest with
    | none => err line_no s!"bad place root in `{spec}`"
    | some root => do
      let (id, places) ← attempt (places.intern root [] 0)
      .ok (.Own id, places)
  else if let some rest := strip_prefix "arena" spec then
    match parse_u32 rest with
    | none => err line_no s!"bad brand id in `{spec}`"
    | some id => .ok (.Arena id, places)
  else if let some rest := strip_prefix "split" spec then
    match split_once ',' rest with
    | none => err line_no s!"expected `split<root>,<side>`, got `{spec}`"
    | some (root, side) =>
      match parse_u32 root with
      | none => err line_no s!"bad place root in `{spec}`"
      | some root =>
        match parse_u8 side with
        | none => err line_no s!"bad side in `{spec}`"
        | some side => do
          let (parent, places) ← attempt (places.intern root [] 0)
          .ok (.Split parent side, places)
  else err line_no s!"unknown seed spec `{spec}`"

/-- The seed clause at the end of a `val` line; what follows it is not read. -/
def parse_optional_seed (t : Toks) (places : PlacePool) :
    Except ParseStop (AliasSeed × PlacePool) :=
  if t.peek ≠ some "seed" then .ok (.None, places)
  else do
    let (_, t) ← t.next
    let (spec, t) ← t.next
    parse_seed spec places t.line_no

/-! ## Mnemonics -/

def parse_mode (mode_tag : Option String) (line_no : Nat) : Except ParseStop ArithMode :=
  match mode_tag with
  | none | some "trap" => .ok .Trap
  | some "wrap" => .ok .Wrap
  | some "sat" => .ok .Sat
  | some "unchecked" => .ok .Unchecked
  | some other => err line_no s!"unknown arithmetic mode `{other}`"

def parse_base (base : String) (mode : ArithMode) (line_no : Nat) : Except ParseStop Op :=
  match base with
  | "add" => .ok (.Add mode)
  | "sub" => .ok (.Sub mode)
  | "mul" => .ok (.Mul mode)
  | "div" => .ok (.Div mode)
  | "rem" => .ok (.Rem mode)
  | "shl" => .ok (.Shl mode)
  | "shr" => .ok (.Shr mode)
  | "neg" => .ok (.Neg mode)
  | "index" => .ok .Index
  | "slice_range" => .ok .SliceRange
  | "alloc" => .ok .Alloc
  | "free" => .ok .Free
  | "arena_alloc" => .ok .ArenaAlloc
  | "arena_deref" => .ok .ArenaDeref
  | "arena_reset" => .ok .ArenaReset
  | "check_pre" => .ok (.CheckPre .Runtime)
  | "check_post" => .ok (.CheckPost .Runtime)
  | "check_inv" => .ok (.CheckInv .Runtime)
  | "intrinsic" => .ok .Intrinsic
  | "declassify" => .ok .Declassify
  | "erase_to_dyn" => .ok .EraseToDyn
  | "region_enter" => .ok .RegionEnter
  | "region_exit" => .ok .RegionExit
  | "spawn" => .ok .Spawn
  | "sync" => .ok .Sync
  | "br" => .ok .Br
  | "cond_br" => .ok .CondBr
  | "switch_discr" => .ok .SwitchDiscr
  | "try_br" => .ok .TryBr
  | "ret" => .ok .Ret
  | "raise" => .ok .Raise
  | "trap" => .ok .Trap
  | "unreachable" => .ok .Unreachable
  | other => err line_no s!"unsupported mnemonic `{other}` (see dump.rs's scope note)"

/-- A mode is read on any mnemonic, and dropped by one that has none. -/
def parse_mnemonic (head : String) (line_no : Nat) : Except ParseStop Op :=
  match strip_prefix "tile." head with
  | some _ => .ok .TileOp
  | none => do
    let (base, mode_tag) := match split_once ':' head with
      | some (b, m) => (b, some m)
      | none => (head, none)
    let mode ← parse_mode mode_tag line_no
    parse_base base mode line_no

def apply_policy : Op → Op
  | .CheckPre _ => .CheckPre .Off
  | .CheckPost _ => .CheckPost .Off
  | .CheckInv _ => .CheckInv .Off
  | other => other

def apply_trailing_policy (op : Op) (t : Toks) : Op × Toks :=
  match t.toks with
  | "policy=off" :: toks => (apply_policy op, ⟨t.line_no, toks⟩)
  | _ => (op, t)

/-! ## Operands -/

structure Ctx where
  vals : Names
  blocks : Names

namespace Ctx

def val (ctx : Ctx) (t : Toks) : Except ParseStop (UInt32 × Toks) := do
  let (tok, t) ← t.next
  match strip_prefix "%" tok with
  | none => err t.line_no s!"expected a `%value`, got `{tok}`"
  | some name => do
    let v ← lookup_val ("%" ++ name) ctx.vals t.line_no
    .ok (v, t)

def bb (ctx : Ctx) (t : Toks) : Except ParseStop (UInt32 × Toks) := do
  let (tok, t) ← t.next
  let b ← lookup_block tok ctx.blocks t.line_no
  .ok (b, t)

/-- The arguments of an intrinsic, up to the type or a seed. -/
def args (ctx : Ctx) (line_no : Nat) : List String → Except ParseStop (List ValId × Toks)
  | [] => .ok ([], ⟨line_no, []⟩)
  | tok :: toks =>
    if tok = "seed" ∨ starts_with tok "ty" then .ok ([], ⟨line_no, tok :: toks⟩)
    else do
      let (v, _) ← ctx.val ⟨line_no, tok :: toks⟩
      let (args, t) ← ctx.args line_no toks
      .ok (v :: args, t)

def arm (ctx : Ctx) (line_no : Nat) (tok : String) : Except ParseStop SwitchArm :=
  match split_once ':' tok with
  | none => err line_no s!"expected `<i64>:bb<name>`, got `{tok}`"
  | some (value, target) =>
    match parse_i64 value with
    | none => err line_no s!"bad case value in `{tok}`"
    | some value => do
      let target ← lookup_block target ctx.blocks line_no
      .ok ⟨value, target⟩

/-- The arms of a switch, up to the type. -/
def arms (ctx : Ctx) (line_no : Nat) : List String → Except ParseStop (List SwitchArm × Toks)
  | [] => .ok ([], ⟨line_no, []⟩)
  | tok :: toks =>
    if starts_with tok "ty" then .ok ([], ⟨line_no, tok :: toks⟩)
    else do
      let arm ← ctx.arm line_no tok
      let (arms, t) ← ctx.arms line_no toks
      .ok (arm :: arms, t)

end Ctx

def parse_symbol (t : Toks) : Except ParseStop (Symbol × Toks) := do
  let (sym_tok, t) ← t.next
  match strip_prefix "@" sym_tok with
  | none => err t.line_no s!"expected `@<symbol-id>`, got `{sym_tok}`"
  | some rest =>
    match parse_u32 rest with
    | none => err t.line_no "bad intrinsic symbol id"
    | some sym => .ok (sym, t)

def parse_call_id (t : Toks) : Except ParseStop (UInt32 × Toks) := do
  let (call_tok, t) ← t.next
  match strip_prefix "%" call_tok |>.bind fun rest => strip_prefix "inst" rest |>.bind parse_u32 with
  | some id => .ok (id, t)
  | none => err t.line_no s!"expected `%inst<id>`, got `{call_tok}`"

def TrapKind.KINDS : List String :=
  ["bounds", "overflow", "div-zero", "shift", "checked-conversion", "arena-generation", "contract",
    "empty-reduce"]

def TrapKind.parse_name (s : String) : Option UInt32 :=
  (TrapKind.KINDS.findIdx? (· = s)).map UInt32.ofNat

/-- The kind of a trap, as the number its operand holds. -/
def parse_kind (t : Toks) : Except ParseStop (UInt32 × Toks) := do
  let (tok, t) ← t.next
  match strip_prefix "kind=" tok with
  | none => err t.line_no s!"expected `kind=<trapkind>`, got `{tok}`"
  | some kind_str =>
    match TrapKind.parse_name kind_str with
    | none => err t.line_no s!"unknown trap kind `{kind_str}`"
    | some kind => .ok (kind, t)

def parse_region_id (t : Toks) : Except ParseStop (UInt32 × Toks) := do
  let (tok, t) ← t.next
  match strip_prefix "r" tok |>.bind parse_u32 with
  | some id => .ok (id, t)
  | none => err t.line_no s!"expected `r<id>`, got `{tok}`"

/-- The three slots of an instruction. -/
abbrev Slots := UInt32 × UInt32 × UInt32

/-- Parses `op`'s operands per `op.rs`'s documented `a`/`b`/`c` convention, pushing to any side
table (`calls`, `switches`, `switch_arms`) the op needs along the way. -/
def parse_operands (op : Op) (t : Toks) (ctx : Ctx) (insts : InstPool) :
    Except ParseStop (Slots × Toks × InstPool) :=
  match op with
  | .Add _ | .Sub _ | .Mul _ | .Div _ | .Rem _ | .Shl _ | .Shr _
  | .Index | .Alloc | .ArenaAlloc => do
    let (a, t) ← ctx.val t
    let (b, t) ← ctx.val t
    .ok ((a, b, NO_OPERAND), t, insts)
  | .Neg _ | .ArenaDeref | .ArenaReset | .Free | .Declassify | .EraseToDyn
  | .CheckPre _ | .CheckPost _ | .CheckInv _ => do
    let (a, t) ← ctx.val t
    .ok ((a, NO_OPERAND, NO_OPERAND), t, insts)
  | .SliceRange => do
    let (a, t) ← ctx.val t
    let (b, t) ← ctx.val t
    let (c, t) ← ctx.val t
    .ok ((a, b, c), t, insts)
  | .Intrinsic => do
    let (sym, t) ← parse_symbol t
    let (args, t) ← ctx.args t.line_no t.toks
    let (range, insts) := insts.push_operands args (args.map fun _ => .Let)
    let (call_idx, insts) := insts.push_call ⟨.Intrinsic sym, range⟩
    .ok ((call_idx, NO_OPERAND, NO_OPERAND), t, insts)
  | .Br => do
    let (a, t) ← ctx.bb t
    .ok ((a, NO_OPERAND, NO_OPERAND), t, insts)
  | .CondBr => do
    let (a, t) ← ctx.val t
    let (b, t) ← ctx.bb t
    let (c, t) ← ctx.bb t
    .ok ((a, b, c), t, insts)
  | .TryBr => do
    let (call_id, t) ← parse_call_id t
    let (ok, t) ← ctx.bb t
    let (errb, t) ← ctx.bb t
    .ok ((call_id, ok, errb), t, insts)
  | .SwitchDiscr => do
    let (discr, t) ← ctx.val t
    let (default, t) ← ctx.bb t
    let (arms, t) ← ctx.arms t.line_no t.toks
    let arms_start := UInt32.ofNat insts.switch_arms.length
    let switch_arms := insts.switch_arms ++ arms
    let range : Range := ⟨arms_start, UInt32.ofNat switch_arms.length⟩
    let (idx, insts) :=
      { insts with switch_arms := switch_arms }.push_switch ⟨discr, default, range⟩
    .ok ((idx, NO_OPERAND, NO_OPERAND), t, insts)
  | .Ret | .Raise =>
    match t.peek with
    | some tok =>
      if starts_with tok "%" then do
        let (a, t) ← ctx.val t
        .ok ((a, NO_OPERAND, NO_OPERAND), t, insts)
      else .ok ((NO_OPERAND, NO_OPERAND, NO_OPERAND), t, insts)
    | none => .ok ((NO_OPERAND, NO_OPERAND, NO_OPERAND), t, insts)
  | .Trap => do
    let (kind, t) ← parse_kind t
    .ok ((kind, NO_OPERAND, NO_OPERAND), t, insts)
  | .Unreachable => .ok ((NO_OPERAND, NO_OPERAND, NO_OPERAND), t, insts)
  | .Spawn | .Sync | .RegionEnter | .RegionExit => do
    let (id, t) ← parse_region_id t
    .ok ((id, NO_OPERAND, NO_OPERAND), t, insts)
  | .TileOp => .ok ((NO_OPERAND, NO_OPERAND, NO_OPERAND), t, insts)
  | other => err t.line_no s!"`{other.debug}` has no parser (see dump.rs's scope note)"

/-! ## Lines -/

structure ParseState where
  decl_key : DeclKeyId
  sig : FnSigId
  is_unsafe_invariant : Bool
  saw_decl_line : Bool
  vals : ValPool
  insts : InstPool
  places : PlacePool
  regions : RegionPool
  val_names : Names
  blocks : List BlockRow
  /-- The open block's name and first instruction. -/
  current_block : Option (String × UInt32)

def ParseState.new : ParseState where
  decl_key := 0
  sig := 0
  is_unsafe_invariant := false
  saw_decl_line := false
  vals := ⟨[]⟩
  insts := ⟨[], [], [], [], [], [], [], []⟩
  places := .new
  regions := ⟨[], []⟩
  val_names := []
  blocks := []
  current_block := none

def parse_decl (s : ParseState) (t : Toks) : Except ParseStop ParseState :=
  if s.saw_decl_line then err t.line_no "duplicate `decl` line"
  else do
    let (decl_key, t) ← t.u32
    let (tok, t) ← t.next
    if tok ≠ "sig" then err t.line_no "expected `sig` after the decl id"
    else do
      let (sig, t) ← t.u32
      let is_unsafe := t.peek = some "unsafe" || s.is_unsafe_invariant
      .ok { s with
        saw_decl_line := true, decl_key := decl_key, sig := sig, is_unsafe_invariant := is_unsafe }

def parse_region_kind (tok : String) (line_no : Nat) : Except ParseStop RegionKind :=
  match tok with
  | "spawn" => .ok .Spawn
  | "parallel" => .ok .Parallel
  | "with-arena" => .ok .WithArena
  | other => err line_no s!"unknown region kind `{other}`"

def parse_capture (val_names : Names) (line_no : Nat) (tok : String) :
    Except ParseStop CaptureRow :=
  match split_once ':' tok with
  | none => err line_no s!"expected `%name:conv`, got `{tok}`"
  | some (name, conv) => do
    let value ← lookup_val name val_names line_no
    let conv ← parse_conv conv line_no
    .ok ⟨value, conv⟩

/-- The captures behind the keyword, if it is there. -/
def parse_captures (s : ParseState) (t : Toks) : Except ParseStop (Option (List CaptureRow)) :=
  match t.toks with
  | "captures" :: toks => do
    let captures ← toks.mapM (parse_capture s.val_names t.line_no)
    .ok (some captures)
  | _ => .ok none

def RegionPool.push (regions : RegionPool) (kind : RegionKind) :
    Option (List CaptureRow) → RegionPool
  | none =>
    { regions with rows := regions.rows ++ [⟨kind, RegionRow.ABSENT_CAPTURES, ABSENT⟩] }
  | some added =>
    let start := UInt32.ofNat regions.captures.length
    let captures := regions.captures ++ added
    let row : RegionRow := ⟨kind, ⟨start, UInt32.ofNat captures.length⟩, ABSENT⟩
    ⟨regions.rows ++ [row], captures⟩

def parse_region (s : ParseState) (t : Toks) : Except ParseStop ParseState := do
  let (_, t) ← t.next
  let (tok, t) ← t.next
  let kind ← parse_region_kind tok t.line_no
  let captures ← parse_captures s t
  .ok { s with regions := s.regions.push kind captures }

/-- The block of the instructions from `first_inst` on; the last one is its terminator. -/
def finish_block (name : String) (first_inst : UInt32) (insts : InstPool)
    (blocks : List BlockRow) (line_no : Nat) : Except ParseStop (List BlockRow) :=
  let total := UInt32.ofNat insts.rows.length
  if total ≤ first_inst then
    err line_no s!"block `{name}` has no instructions (needs at least a terminator)"
  else do
    let term ← attempt (index insts.rows (total - 1))
    .ok (blocks ++ [⟨first_inst, total - first_inst - 1, term, 0⟩])

/-- Closes the open block, if there is one. -/
def ParseState.finish (s : ParseState) (line_no : Nat) : Except ParseStop (List BlockRow) :=
  match s.current_block with
  | some (name, first_inst) => finish_block name first_inst s.insts s.blocks line_no
  | none => .ok s.blocks

def parse_block (s : ParseState) (t : Toks) : Except ParseStop ParseState := do
  let blocks ← s.finish t.line_no
  let (name, _) ← t.next
  .ok { s with
    blocks := blocks, current_block := some (name, UInt32.ofNat s.insts.rows.length) }

def ParseState.push_val (s : ParseState) (name : String) (row : ValRow) : ParseState :=
  let (id, vals) := s.vals.push row
  { s with vals := vals, val_names := (name, id) :: s.val_names }

def parse_param (s : ParseState) (name : String) (t : Toks) : Except ParseStop ParseState := do
  let (ordinal, t) ← t.u16
  let (ty, t) ← parse_ty t
  let ((flags, ct), _) ← parse_secret_and_ct t
  .ok (s.push_val name ⟨ty, flags, ct, (ValDef.Param ordinal).encode⟩)

/-- What both kinds of instruction line start with: the opcode, its slots and its policy. -/
def parse_inst (block_ids : Names) (s : ParseState) (head : String) (t : Toks) :
    Except ParseStop (Op × Slots × Toks × InstPool) := do
  let op ← parse_mnemonic head t.line_no
  let (slots, t, insts) ← parse_operands op t ⟨s.val_names, block_ids⟩ s.insts
  let (op, t) := apply_trailing_policy op t
  .ok (op, slots, t, insts)

def parse_val_inst (block_ids : Names) (s : ParseState) (name head : String) (t : Toks) :
    Except ParseStop ParseState :=
  if s.current_block.isNone then err t.line_no "`val = <inst>` outside any `block`"
  else do
    let (op, (a, b, c), t, insts) ← parse_inst block_ids s head t
    let (ty, t) ← parse_ty t
    let ((flags, ct), t) ← parse_secret_and_ct t
    let (seed, places) ← parse_optional_seed t s.places
    let (inst_id, insts) := insts.push ⟨op, a, b, c, ty, 0⟩ seed
    .ok ({ s with insts := insts, places := places }.push_val name
      ⟨ty, flags, ct, (ValDef.Inst inst_id).encode⟩)

def parse_val (block_ids : Names) (s : ParseState) (t : Toks) : Except ParseStop ParseState := do
  let (name, t) ← t.next
  let (tok, t) ← t.next
  if tok ≠ "=" then err t.line_no "expected `=` after a value name"
  else do
    let (head, t) ← t.next
    if head = "param" then parse_param s name t else parse_val_inst block_ids s name head t

def parse_do (block_ids : Names) (s : ParseState) (t : Toks) : Except ParseStop ParseState :=
  if s.current_block.isNone then err t.line_no "`do <inst>` outside any `block`"
  else do
    let (head, t) ← t.next
    let (op, (a, b, c), _, insts) ← parse_inst block_ids s head t
    let (_, insts) := insts.push ⟨op, a, b, c, TY_UNIT, 0⟩ .None
    .ok { s with insts := insts }

def parse_line (block_ids : Names) (line_no : Nat) (s : ParseState) (toks : List String) :
    Except ParseStop ParseState :=
  match toks with
  | [] => .ok s
  | "decl" :: toks => parse_decl s ⟨line_no, toks⟩
  | "region" :: toks => parse_region s ⟨line_no, toks⟩
  | "block" :: toks => parse_block s ⟨line_no, toks⟩
  | "val" :: toks => parse_val block_ids s ⟨line_no, toks⟩
  | "do" :: toks => parse_do block_ids s ⟨line_no, toks⟩
  | other :: _ => err line_no s!"unknown line kind `{other}`"

/-! ## Texts -/

/-- A line up to its comment. -/
def strip_comment : List Char → List Char
  | [] => []
  | '/' :: '/' :: _ => []
  | c :: cs => c :: strip_comment cs

/-- The words of every line. -/
def text_lines (text : String) : List (List String) :=
  (lines text.toList).map fun raw => (words (strip_comment raw)).map String.ofList

/-- The first pass: the block names, numbered in file order. -/
def parse_blocks : Nat → Names → List (List String) → Except ParseStop Names
  | _, ids, [] => .ok ids
  | n, ids, toks :: lines =>
    match toks with
    | ["block"] => err n "`block` needs a name"
    | "block" :: name :: _ =>
      if (ids.lookup name).isSome then err n s!"block `{name}` declared twice"
      else parse_blocks (n + 1) ((name, UInt32.ofNat ids.length) :: ids) lines
    | _ => parse_blocks (n + 1) ids lines

/-- The second pass. -/
def parse_lines (block_ids : Names) :
    Nat → ParseState → List (List String) → Except ParseStop ParseState
  | _, s, [] => .ok s
  | n, s, toks :: lines => do
    let s ← parse_line block_ids n s toks
    parse_lines block_ids (n + 1) s lines

def ParseState.into_decl (s : ParseState) (blocks : List BlockRow) : DeclFmir where
  decl := s.decl_key
  sig := s.sig
  vals := s.vals
  blocks := blocks
  insts := s.insts
  scopes := [.root ABSENT]
  places := s.places
  regions := s.regions
  sites := []
  consts := .new
  obligations := []
  scoped_sources := []
  defers := []
  exits := ⟨[], [], [], [], []⟩
  entry := 0
  is_unsafe_invariant := s.is_unsafe_invariant
  fingerprint := 0

def parse_words (lines : List (List String)) : Except ParseStop DeclFmir := do
  let block_ids ← parse_blocks 1 [] lines
  let s ← parse_lines block_ids 1 .new lines
  let blocks ← s.finish lines.length
  if ¬ s.saw_decl_line then err 0 "missing `decl <id> sig <id>` header line"
  else if blocks = [] then err 0 "declaration has no blocks"
  else .ok (s.into_decl blocks)

/-- Parses `text` into a `DeclFmir`. -/
def parse (text : String) : Except ParseStop DeclFmir :=
  parse_words (text_lines text)

end Fors.Fmir
