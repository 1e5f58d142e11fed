import Fors.Fmir.Decl

/-!
# The structural verifier

`verify` runs every check over one declaration and concatenates the diagnostics. Two checks can
end otherwise than by returning: `check_terminators` adds a block's window bounds in `u32`, and
`check_edge_scopes` follows parent links in a loop, which `fuel` bounds here.

Sources: `crates/fors-fmir/src/verify.rs`, `crates/fors-fmir/src/exit.rs`,
`crates/fors-fmir/src/block.rs`.
-/

namespace Fors.Fmir

inductive Anchor where
  | Inst (id : InstId)
  | Block (id : BlockId)
  | Val (id : ValId)
  | Decl
  deriving DecidableEq

inductive DiagCode where
  | MissingSecretField | MissingCtRegion | DetachWithoutCaptures | TileOpPresent
  | TwoTerminators | MemoryOpMissingAliasSeed | SecretPropagationViolated | SecretBranchOrIndex
  | SecretTrappingOp | SecretInContractCheck | SecretRaiseCondition | SecretIntrinsicArg
  | DeclassifyRequiresUnsafe | ExitEdgeWrongPendingMultiset | ExitEdgeWrongPendingOrder
  | ExitEdgeWrongKind | ExitEdgeScopesNotAChain | ExitEdgeNotASuccessor | ExitEdgeDuplicate
  | ExitEdgeMissingDischarge | ExitEdgeDuplicateDischarge | ExitEdgeUnknownDischarge
  | TrapHasExitEdge | DeferBodyMalformed | Malformed
  deriving DecidableEq

structure Diagnostic where
  code : DiagCode
  at_ : Anchor
  message : String
  deriving DecidableEq

/-! ## Values and instructions -/

/-- Whether `v` is secret; it may be dangling. -/
def is_secret (decl : DeclFmir) (v : ValId) : Bool :=
  match decl.vals.rows[v.toNat]? with
  | some row => row.is_secret
  | none => false

def val_or_none (raw : UInt32) : Option ValId :=
  if raw = NO_OPERAND then none else some raw

/-- An operand slot that names a secret value. -/
def secret_operand (decl : DeclFmir) (raw : UInt32) : Bool :=
  match val_or_none raw with
  | some v => is_secret decl v
  | none => false

def check_secret_fields (decl : DeclFmir) : List Diagnostic :=
  (all_rows decl.vals.rows).flatMap fun (id, row) =>
    (if row.is_secret_unspecified then
      [⟨.MissingSecretField, .Val id, "value has no secret field"⟩] else []) ++
    (if row.ct = CT_UNSPECIFIED then
      [⟨.MissingCtRegion, .Val id, "value has no ct_region field"⟩] else [])

/-- The positions of terminator-class opcodes in a block's instruction window. -/
def stray_terminator_indices (row : BlockRow) (insts : InstPool) :
    Except Fault (List UInt32) := do
  let range ← row.inst_range
  return ((clamped insts.rows range).zipIdx.filter fun (inst, _) => inst.op.is_terminator).map
    fun (_, i) => range.start + UInt32.ofNat i

def check_terminators (decl : DeclFmir) : Except Fault (List Diagnostic) := do
  let found ← (all_rows decl.blocks).mapM fun (id, row) => do
    let strays ← stray_terminator_indices row decl.insts
    return (strays.map fun stray => ⟨.TwoTerminators, .Inst stray,
        "block has a terminator-class op outside its `term` slot (two terminators)"⟩) ++
      (if row.term.op.is_terminator then [] else [⟨.TwoTerminators, .Block id,
        "block's `term` slot does not hold a terminator opcode"⟩])
  return found.flatten

def check_tile_ops (decl : DeclFmir) : List Diagnostic :=
  ((all_rows decl.insts.rows).flatMap fun (id, row) =>
    if row.op = .TileOp then
      [⟨.TileOpPresent, .Inst id, "tile.* is not defined before M6"⟩] else []) ++
  ((all_rows decl.blocks).flatMap fun (id, row) =>
    if row.term.op = .TileOp then
      [⟨.TileOpPresent, .Block id, "tile.* is not defined before M6"⟩] else [])

def check_alias_seeds (decl : DeclFmir) : List Diagnostic :=
  (all_rows decl.insts.rows).flatMap fun (id, row) =>
    if row.op.is_memory_producing ∧ decl.insts.alias_ id.toNat = .None then
      [⟨.MemoryOpMissingAliasSeed, .Inst id,
        "memory-producing instruction has no alias seed"⟩] else []

def REDUCE_BLOCK : UInt32 := 256
def REDUCE_LANES : UInt32 := 8

def check_reduce_shape (decl : DeclFmir) : List Diagnostic :=
  (all_rows decl.insts.rows).flatMap fun (id, row) =>
    if row.op ≠ .ReduceTree then []
    else match decl.insts.reduces[row.a.toNat]? with
    | none => [⟨.Malformed, .Inst id, "reduce_tree names no reduce row"⟩]
    | some red =>
      (if red.b ≠ REDUCE_BLOCK ∨ red.l ≠ REDUCE_LANES then
        [⟨.Malformed, .Inst id, "reduce_tree must carry REDUCE_BLOCK = 256 and " ++
          "REDUCE_LANES = 8 (ch03 Rule 11: neither is overridable)"⟩] else []) ++
      (if decl.vals.rows[red.xs.toNat]? = none then
        [⟨.Malformed, .Inst id,
          "reduce_tree's operand sequence is not a value of this body"⟩] else []) ++
      (if red.identity ≠ ABSENT ∧ decl.vals.rows[red.identity.toNat]? = none then
        [⟨.Malformed, .Inst id, "reduce_tree's identity is not a value of this body"⟩] else [])

/-- The instruction that opens a region, where there is one. -/
def region_anchor (decl : DeclFmir) (region : RegionId) : Anchor :=
  match (all_rows decl.insts.rows).find? fun (_, row) =>
      (row.op = .Spawn ∨ row.op = .RegionEnter) ∧ row.a = region with
  | some (id, _) => .Inst id
  | none => .Decl

def check_region_captures (decl : DeclFmir) : List Diagnostic :=
  (all_rows decl.regions.rows).flatMap fun (id, row) =>
    if row.kind = .Spawn ∧ row.captures_absent then
      [⟨.DetachWithoutCaptures, region_anchor decl id,
        s!"spawn region {id} has no capture list"⟩] else []

/-! ## Secrets -/

def propagation_operands (decl : DeclFmir) (row : InstRow) : List ValId :=
  match row.op with
  | .Add _ | .Sub _ | .Mul _ | .Div _ | .Rem _ | .Shl _ | .Shr _ | .Neg _
  | .Fadd _ | .Fsub _ | .Fmul _ | .Fdiv _ | .Frem _ | .Fneg _
  | .Icmp _ | .Fcmp _ | .And | .Or | .Xor | .Not =>
    [val_or_none row.a, val_or_none row.b].filterMap id
  | .ConvChecked | .ConvWrap | .ConvSat | .ConvTrunc
  | .Field | .Discr | .Payload => [val_or_none row.a].filterMap id
  | .AggNew | .TupleNew | .VariantNew => decl.insts.args ⟨row.a, row.b⟩
  | _ => []

def check_secret_propagation (decl : DeclFmir) : List Diagnostic :=
  (all_rows decl.insts.rows).flatMap fun (id, row) =>
    if (propagation_operands decl row).any (is_secret decl) then
      let result := decl.vals.rows.find? fun v => ValDef.decode v.def_ = .Inst id
      if result.map ValRow.is_secret = some false then
        [⟨.SecretPropagationViolated, .Inst id,
          "result is not secret despite a secret operand (ch05 Rule 6a)"⟩] else []
    else []

def check_one_secret_rejection (decl : DeclFmir) (at_ : Anchor) (row : InstRow) :
    List Diagnostic :=
  let branch : Diagnostic := ⟨.SecretBranchOrIndex, at_, "branch on a secret operand"⟩
  match row.op with
  | .CondBr => if secret_operand decl row.a then [branch] else []
  | .SwitchDiscr =>
    match decl.insts.switches[row.a.toNat]? with
    | some sw => if is_secret decl sw.discr then [branch] else []
    | none => []
  | .Index =>
    if secret_operand decl row.b then
      [⟨.SecretBranchOrIndex, at_, "index derived from secret"⟩] else []
  | .SliceRange =>
    [row.b, row.c].flatMap fun bound =>
      if secret_operand decl bound then
        [⟨.SecretBranchOrIndex, at_, "slice bound derived from secret"⟩] else []
  | op =>
    if op.is_secret_rejected_trapping_op then
      if [row.a, row.b].any (secret_operand decl) then
        [⟨.SecretTrappingOp, at_, "trapping arithmetic (or conv_checked) on a secret operand: " ++
          "use wrap_/sat_/unchecked_"⟩] else []
    else if op.is_contract_check then
      if secret_operand decl row.a then
        [⟨.SecretInContractCheck, at_, "contract check on a secret operand"⟩] else []
    else if op = .Intrinsic then
      match decl.insts.calls[row.a.toNat]? with
      | none => []
      | some call =>
        if op.is_host_intrinsic ∧ (decl.insts.args call.args).any (is_secret decl) then
          [⟨.SecretIntrinsicArg, at_, "secret argument to a host-effecting intrinsic"⟩] else []
    else if op = .Declassify ∧ ¬ decl.is_unsafe_invariant then
      [⟨.DeclassifyRequiresUnsafe, at_, "declassify outside @unsafe(invariant: ...)"⟩]
    else []

/-- Does a branch target end in a `raise`? -/
def leads_to_raise (decl : DeclFmir) (bb : BlockId) : Bool :=
  match decl.blocks[bb.toNat]? with
  | some target => bb ≠ NO_OPERAND ∧ target.term.op = .Raise
  | none => false

def check_secret_rejection (decl : DeclFmir) : List Diagnostic :=
  ((all_rows decl.insts.rows).flatMap fun (id, row) =>
    check_one_secret_rejection decl (.Inst id) row) ++
  ((all_rows decl.blocks).flatMap fun (id, block) =>
    let row := block.term
    check_one_secret_rejection decl (.Block id) row ++
    (if row.op = .CondBr ∧ secret_operand decl row.a ∧
        [row.b, row.c].any (leads_to_raise decl) then
      [⟨.SecretRaiseCondition, .Block id,
        "raise is reached only through a secret-derived branch"⟩] else []))

/-! ## Deferred bodies -/

/-- The blocks a terminator inside a deferred body goes on to, in push order. -/
def body_successors (decl : DeclFmir) (term : InstRow) : List BlockId :=
  match term.op with
  | .Br => [term.a]
  | .CondBr | .TryBr => [term.b, term.c]
  | .SwitchDiscr =>
    match decl.insts.switches[term.a.toNat]? with
    | some sw => sw.default :: (clamped decl.insts.switch_arms sw.arms).map SwitchArm.target
    | none => []
  | _ => []

/-- The walk over one body: `stack` has its top at the head, `reaches_end` is whether a
`br BODY_END` was met and `out` the diagnostics so far. -/
def walk_body (decl : DeclFmir) (i : Nat) (body : BlockId) :
    Nat → List Bool → List BlockId → Bool → List Diagnostic →
      Except Fault (Bool × List Diagnostic)
  | _, _, [], reaches_end, out => .ok (reaches_end, out)
  | 0, _, _ :: _, _, _ => .error .fuel
  | fuel + 1, seen, b :: stack, reaches_end, out =>
    if b = BODY_END then walk_body decl i body fuel seen stack true out
    else match decl.blocks[b.toNat]? with
    | none =>
      walk_body decl i body fuel seen stack reaches_end (out ++ [⟨.DeferBodyMalformed,
        .Block body, s!"defer row {i}'s body branches to missing block {b}"⟩])
    | some blk =>
      if seen.getD b.toNat false then walk_body decl i body fuel seen stack reaches_end out
      else
        let found : List Diagnostic :=
          if blk.term.op = .Ret ∨ blk.term.op = .Raise then
            [⟨.DeferBodyMalformed, .Block b, s!"defer row {i}'s body reaches a " ++
              s!"`{blk.term.op.debug}` terminator; ch01 R23c forbids `return`, `raise` and `?` " ++
              "inside a deferred body"⟩]
          else []
        walk_body decl i body fuel (seen.set b.toNat true)
          ((body_successors decl blk.term).reverse ++ stack) reaches_end (out ++ found)

def check_defer_bodies (fuel : Nat) (decl : DeclFmir) : Except Fault (List Diagnostic) := do
  let found ← decl.defers.zipIdx.mapM fun (row, i) =>
    let body := row.body
    if decl.blocks[body.toNat]? = none then
      .ok [⟨.DeferBodyMalformed, .Decl,
        s!"defer row {i} names block {body} which does not exist"⟩]
    else do
      let (reaches_end, out) ←
        walk_body decl i body fuel (List.replicate decl.blocks.length false) [body] false []
      return out ++ if reaches_end then [] else [⟨.DeferBodyMalformed, .Block body,
        s!"defer row {i}'s body never reaches `br BODY_END`, so the exit sequence " ++
          "could not resume after it"⟩]
  return found.flatten

/-! ## Exit edges -/

/-- The sort key `Reverse(stmt_order)`. -/
def later_first (x y : UInt16 × DeferId) : Bool :=
  y.1 ≤ x.1

/-- The pending bodies that must run on an edge of `kind` leaving `leaving`, innermost first:
one descending `stmt_order` sequence for each scope, `ErrDefer` on an error exit only. -/
def expected_pending (scopes : List ScopeRow) (defers : List DeferRow) (leaving : List ScopeId)
    (kind : ExitKind) : List DeferId :=
  leaving.flatMap fun scope =>
    match scopes[scope.toNat]? with
    | none => []
    | some row =>
      let here := ((clamped defers row.defers).zipIdx.filter fun (r, _) =>
          r.kind = .Defer ∨ kind = .Error).map
        fun (r, i) => (r.stmt_order, row.defers.start + UInt32.ofNat i)
      (here.mergeSort later_first).map Prod.snd

/-- The scopes an edge lists. -/
def DeclFmir.leaving (decl : DeclFmir) (row : ExitEdgeRow) : List ScopeId :=
  clamped decl.exits.scope_list row.scopes

/-- The targets of a `switch_discr`; none for a missing switch row. -/
def switch_targets (decl : DeclFmir) (term : InstRow) : List BlockId :=
  match decl.insts.switches[term.a.toNat]? with
  | some sw => sw.default :: (clamped decl.insts.switch_arms sw.arms).map SwitchArm.target
  | none => []

/-- Is `to` a successor of the terminator, and the kind that successor wants, if it wants one. -/
def edge_shape (decl : DeclFmir) (row : ExitEdgeRow) (term : InstRow) :
    Bool × Option ExitKind :=
  match term.op with
  | .Ret => (row.is_function_exit, some .Normal)
  | .Raise => (row.is_function_exit, some .Error)
  | .Br => (row.to_ = term.a, some .Normal)
  | .CondBr => (row.to_ = term.b ∨ row.to_ = term.c, none)
  | .TryBr =>
    if row.to_ = term.b then (true, some .Normal)
    else if row.to_ = term.c then (true, some .Error)
    else (false, none)
  | .SwitchDiscr => ((switch_targets decl term).contains row.to_, some .Normal)
  | _ => (false, none)

def check_edge_shape (decl : DeclFmir) (id : ExitEdgeId) (row : ExitEdgeRow) (term : InstRow) :
    List Diagnostic :=
  let (ok_successor, want_kind) := edge_shape decl row term
  (if ¬ ok_successor ∧ term.op ≠ .Trap then
    [⟨.ExitEdgeNotASuccessor, .Block row.from_, s!"exit edge {id} names a `to` that block " ++
      s!"{row.from_}'s `{term.op.debug}` terminator does not branch to"⟩] else []) ++
  match want_kind with
  | none => []
  | some want =>
    if row.kind ≠ want ∧ ok_successor then
      [⟨.ExitEdgeWrongKind, .Block row.from_, s!"exit edge {id} is marked " ++
        s!"`{row.kind.as_str}` but a `{term.op.debug}` edge is a `{want.as_str}` exit (ch02 R16)"⟩]
    else []

/-- The first place where the listed scopes stop being a parent chain, as its message. -/
def chain_fault (scopes : List ScopeRow) : List ScopeId → Option String
  | inner :: next :: rest =>
    match scopes[inner.toNat]? with
    | none => some s!"scope {inner} does not exist"
    | some row =>
      if next ≠ row.parent then
        some (s!"scope {next} follows scope {inner} in the list but is not its parent " ++
          s!"({row.parent}); the list must be the parent chain, innermost first")
      else chain_fault scopes (next :: rest)
  | _ => none

/-- The loop of `check_edge_scopes`: does the parent walk from `s` meet `stop` before it leaves
the pool? -/
def walk_to (scopes : List ScopeRow) (stop : ScopeId) : Nat → ScopeId → Except Fault Bool
  | 0, _ => .error .fuel
  | fuel + 1, s =>
    if s = stop then .ok true
    else match scopes[s.toNat]? with
    | none => .ok false
    | some row => walk_to scopes stop fuel row.parent

def check_edge_scopes (fuel : Nat) (decl : DeclFmir) (id : ExitEdgeId) (row : ExitEdgeRow)
    (from_scope : ScopeId) : Except Fault (List Diagnostic) :=
  let leaving := decl.leaving row
  let reject (why : String) : List Diagnostic :=
    [⟨.ExitEdgeScopesNotAChain, .Block row.from_, s!"exit edge {id}: {why}"⟩]
  match leaving.head?, leaving.getLast? with
  | some first, some last =>
    if first ≠ from_scope then
      .ok (reject (s!"the scopes list starts at scope {first} but block {row.from_} is in " ++
        s!"scope {from_scope} (innermost first)"))
    else match chain_fault decl.scopes leaving with
    | some why => .ok (reject why)
    | none =>
      match decl.scopes[last.toNat]? with
      | none => .ok (reject s!"scope {last} does not exist")
      | some lastRow =>
        if row.is_function_exit then .ok []
        else match decl.blocks[row.to_.toNat]? with
        | none => .ok []
        | some to_ => do
          let stop := lastRow.parent
          if ← walk_to decl.scopes stop fuel to_.scope then return []
          else
            let stopName := if stop = ABSENT then "<root>" else toString stop
            return reject (s!"the list leaves scopes up to {last} but block {row.to_} is in " ++
              s!"scope {to_.scope}, which is not inside scope {stopName}")
  | _, _ => .ok []

def check_edge_pending (decl : DeclFmir) (id : ExitEdgeId) (row : ExitEdgeRow) :
    List Diagnostic :=
  let leaving := decl.leaving row
  let want := expected_pending decl.scopes decl.defers leaving row.kind
  let got := clamped decl.exits.pending row.pending
  if got = want then []
  else
    let sorted (ids : List DeferId) := ids.mergeSort fun x y => x ≤ y
    let code := if sorted want = sorted got then DiagCode.ExitEdgeWrongPendingOrder
      else DiagCode.ExitEdgeWrongPendingMultiset
    [⟨code, .Block row.from_, s!"exit edge {id} carries pending bodies {got} but the " ++
      s!"{row.kind.as_str} exit of scopes {leaving} runs {want} " ++
      "(ch01 R23a reverse textual order, R23b `errdefer` only on an error exit)"⟩]

/-- The obligations of the scopes an edge lists, in list order. -/
def obligations_of (decl : DeclFmir) (leaving : List ScopeId) : List PlaceId :=
  leaving.flatMap fun scope =>
    match decl.scopes[scope.toNat]? with
    | none => []
    | some row => clamped decl.obligations row.obligations

/-- The discharge rows an edge carries. -/
def DeclFmir.discharges (decl : DeclFmir) (row : ExitEdgeRow) : List DischargeRow :=
  clamped decl.exits.discharges row.discharges

def check_edge_discharges (decl : DeclFmir) (id : ExitEdgeId) (row : ExitEdgeRow) :
    List Diagnostic :=
  let obligations := obligations_of decl (decl.leaving row)
  let discharges := decl.discharges row
  (discharges.zipIdx.flatMap fun (d, i) =>
    (if ¬ obligations.contains d.place then
      [⟨.ExitEdgeUnknownDischarge, .Block row.from_, s!"exit edge {id}'s discharge {i} names " ++
        s!"place {d.place}, which is not an obligation of any scope this edge leaves"⟩]
      else []) ++
    (if (discharges.take i).any fun e => e.place = d.place then
      [⟨.ExitEdgeDuplicateDischarge, .Block row.from_, s!"exit edge {id} discharges place " ++
        s!"{d.place} twice (design §5.2's `ub: double-consume`)"⟩] else [])) ++
  obligations.flatMap fun place =>
    if ¬ discharges.any fun d => d.place = place then
      [⟨.ExitEdgeMissingDischarge, .Block row.from_, s!"exit edge {id} leaves place {place} " ++
        "with an undischarged linear obligation (ch01 R22h); the interpreter reports this as " ++
        "`ub: linear-leak`, never a trap"⟩] else []

def check_exit_edge (fuel : Nat) (decl : DeclFmir) (id : ExitEdgeId) (row : ExitEdgeRow) :
    Except Fault (List Diagnostic) :=
  match decl.blocks[row.from_.toNat]? with
  | none => .ok [⟨.Malformed, .Decl, s!"exit edge {id} leaves missing block {row.from_}"⟩]
  | some from_ => do
    let trap : List Diagnostic :=
      if from_.term.op = .Trap then
        [⟨.TrapHasExitEdge, .Block row.from_, s!"exit edge {id} leaves block {row.from_}, " ++
          "whose terminator is `trap`: a trap has no successor, runs no deferred body and " ++
          "discharges nothing"⟩] else []
    let toName := if row.is_function_exit then "<return>" else toString row.to_
    let duplicate : List Diagnostic :=
      if (all_rows decl.exits.rows).any fun (other, o) =>
          other < id ∧ o.from_ = row.from_ ∧ o.to_ = row.to_ then
        [⟨.ExitEdgeDuplicate, .Block row.from_,
          s!"two exit edges for ({row.from_} -> {toName})"⟩] else []
    let scopes ← check_edge_scopes fuel decl id row from_.scope
    return trap ++ duplicate ++ check_edge_shape decl id row from_.term ++ scopes ++
      check_edge_pending decl id row ++ check_edge_discharges decl id row

def check_exit_edges (fuel : Nat) (decl : DeclFmir) : Except Fault (List Diagnostic) := do
  let found ← (all_rows decl.exits.rows).mapM fun (id, row) => check_exit_edge fuel decl id row
  return found.flatten

/-! ## All checks -/

def verify (fuel : Nat) (decl : DeclFmir) : Except Fault (List Diagnostic) := do
  let terminators ← check_terminators decl
  let bodies ← check_defer_bodies fuel decl
  let edges ← check_exit_edges fuel decl
  return check_secret_fields decl ++ terminators ++ check_tile_ops decl ++
    check_alias_seeds decl ++ check_region_captures decl ++ check_reduce_shape decl ++
    check_secret_propagation decl ++ check_secret_rejection decl ++ bodies ++ edges

end Fors.Fmir
