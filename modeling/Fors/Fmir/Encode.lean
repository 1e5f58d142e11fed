import Fors.Lib.Format
import Fors.Fmir.Decl

/-!
# The byte encoding and the canonical hash

`to_bytes` writes every pool as little-endian `u32` words in a fixed order, `from_bytes` reads
them back, rebuilding the place and constant pools by interning. `fmir_hash` hashes the encoding
of the canonicalized declaration, whose blocks are renumbered in traversal order.

Sources: `crates/fors-fmir/src/encode.rs`, `crates/fors-fmir/src/exit.rs`.
-/

namespace Fors.Fmir

/-- What ends a decode without a declaration: an error of the reader's, or a panic on the way. -/
inductive DecodeError where
  | err (message : String)
  | panic (fault : Fault)
  deriving DecidableEq

/-! ## Words and bytes -/

def to_le_bytes (w : UInt32) : List UInt8 :=
  [w.toUInt8, (w >>> 8).toUInt8, (w >>> 16).toUInt8, (w >>> 24).toUInt8]

def from_le_bytes (a b c d : UInt8) : UInt32 :=
  a.toUInt32 ||| b.toUInt32 <<< 8 ||| c.toUInt32 <<< 16 ||| d.toUInt32 <<< 24

def into_bytes (words : List UInt32) : List UInt8 :=
  words.flatMap to_le_bytes

/-- `bytes.as_chunks::<4>()`, without the remainder. -/
def from_chunks : List UInt8 → List UInt32
  | a :: b :: c :: d :: rest => from_le_bytes a b c d :: from_chunks rest
  | _ => []

/-! ## Writing -/

def write_bool (v : Bool) : List UInt32 :=
  [if v then 1 else 0]

def write_u16 (v : UInt16) : List UInt32 :=
  [v.toUInt32]

def write_u64 (v : UInt64) : List UInt32 :=
  [v.toUInt32, (v >>> 32).toUInt32]

def write_i64 (v : Int64) : List UInt32 :=
  write_u64 v.toUInt64

def write_range (r : Range) : List UInt32 :=
  [r.start, r.end_]

def conv_to_u32 : Conv → UInt32
  | .Let => 0
  | .Inout => 1
  | .Sink => 2
  | .Set => 3

def region_kind_to_u32 : RegionKind → UInt32
  | .Spawn => 0
  | .Parallel => 1
  | .WithArena => 2

def write_val_row (row : ValRow) : List UInt32 :=
  [row.ty] ++ write_u16 row.flags ++ write_u16 row.ct ++ [row.def_]

def write_scoped : Option Range → List UInt32
  | none => write_bool false
  | some range => write_bool true ++ write_range range

def write_seg : Seg → List UInt32
  | .Field i => [0, i.toUInt32]
  | .Index v => [1, v]
  | .Deref => [2, 0]

def write_inst_row (row : InstRow) : List UInt32 :=
  [row.op.discriminant, row.op.payload, row.a, row.b, row.c, row.ty, row.site]

def write_alias_seed : AliasSeed → List UInt32
  | .None => [0, 0, 0]
  | .Conv c => [1, conv_to_u32 c, 0]
  | .Own p => [2, p, 0]
  | .Arena b => [3, b, 0]
  | .Split parent side => [4, parent, side.toUInt32]

def write_callee : Callee → List UInt32
  | .Direct k => [0, k, 0]
  | .Witness table method => [1, table, method.toUInt32]
  | .Closure v => [2, v, 0]
  | .Intrinsic s => [3, s, 0]

def write_call (call : CallRow) : List UInt32 :=
  write_callee call.callee ++ write_range call.args

def write_reduce (red : ReduceRow) : List UInt32 :=
  write_callee red.op ++ [red.xs, red.identity, red.b, red.l]

def write_switch (sw : SwitchRow) : List UInt32 :=
  [sw.discr, sw.default] ++ write_range sw.arms

def write_switch_arm (arm : SwitchArm) : List UInt32 :=
  write_i64 arm.value ++ [arm.target]

def write_block (row : BlockRow) : List UInt32 :=
  [row.first_inst, row.inst_len] ++ write_inst_row row.term ++ [row.scope]

def write_scope (row : ScopeRow) : List UInt32 :=
  [row.parent, row.brand] ++ write_range row.defers ++ write_range row.obligations ++ [row.region]

def write_defer (row : DeferRow) : List UInt32 :=
  [if row.kind = .ErrDefer then 1 else 0, row.body] ++ write_u16 row.stmt_order

def write_region (row : RegionRow) : List UInt32 :=
  [region_kind_to_u32 row.kind] ++ write_range row.captures ++ [row.brand]

def write_capture (cap : CaptureRow) : List UInt32 :=
  [cap.value, conv_to_u32 cap.conv]

def write_site (row : SiteRow) : List UInt32 :=
  [row.line, row.col]

def write_const : ConstValue → List UInt32
  | .Int v => [0] ++ write_i64 v
  | .FloatBits v => [1] ++ write_u64 v
  | .Bool v => [2] ++ write_u64 (if v then 1 else 0)
  | .Unit => [3] ++ write_u64 0
  | .Str s => [4] ++ write_u64 s.toUInt64

def write_exit_row (row : ExitEdgeRow) : List UInt32 :=
  [row.from_, row.to_, row.kind.as_u32] ++ write_range row.scopes ++ write_range row.pending ++
    write_range row.drops ++ write_range row.discharges

/-- A tag and two payload words; the unused ones are zero. -/
def write_discharge : Discharge → List UInt32
  | .MovedTo i => [0, i, 0]
  | .DeferredBody scope body => [1, scope, body]
  | .Raised i => [2, i, 0]
  | .Returned => [3, 0, 0]

def write_discharge_row (row : DischargeRow) : List UInt32 :=
  [row.place] ++ write_discharge row.how

/-- A pool: its length, then its rows. -/
def write_pool {α : Type} (write : α → List UInt32) (rows : List α) : List UInt32 :=
  [UInt32.ofNat rows.length] ++ rows.flatMap write

def write_id (id : UInt32) : List UInt32 :=
  [id]

def write_place (pool : PlacePool) (row : PlaceRow) : List UInt32 :=
  [row.root, row.ty] ++ write_pool write_seg (pool.path row)

def write_vals (vals : ValPool) : List UInt32 :=
  write_pool write_val_row vals.rows ++ vals.scoped_sources.flatMap write_scoped

/-- The seeds follow the rows without a length of their own. -/
def write_insts (insts : InstPool) : List UInt32 :=
  write_pool write_inst_row insts.rows ++ insts.aliases.flatMap write_alias_seed ++
    write_pool write_id insts.operands ++
    write_pool (fun c => [conv_to_u32 c]) insts.arg_convs ++
    write_pool write_call insts.calls ++
    write_pool write_reduce insts.reduces ++
    write_pool write_switch insts.switches ++
    write_pool write_switch_arm insts.switch_arms

def write_exit_pool (exits : ExitEdgePool) : List UInt32 :=
  write_pool write_exit_row exits.rows ++
    write_pool write_id exits.scope_list ++
    write_pool write_id exits.pending ++
    write_pool write_id exits.drops ++
    write_pool write_discharge_row exits.discharges

def to_words (d : DeclFmir) : List UInt32 :=
  [d.decl, d.sig, d.entry] ++ write_bool d.is_unsafe_invariant ++
    write_vals d.vals ++
    write_pool (write_place d.places) d.places.rows ++
    write_insts d.insts ++
    write_pool write_block d.blocks ++
    write_pool write_scope d.scopes ++
    write_pool write_defer d.defers ++
    write_pool write_region d.regions.rows ++
    write_pool write_capture d.regions.captures ++
    write_pool write_site d.sites ++
    write_pool write_const d.consts.rows ++
    write_pool write_id d.obligations ++
    write_pool write_id d.scoped_sources ++
    write_exit_pool d.exits

/-- A faithful, order-preserving encoding of every pool. -/
def to_bytes (d : DeclFmir) : List UInt8 :=
  into_bytes (to_words d)

/-! ## Reading -/

abbrev Reader := Format.Reader UInt32 DecodeError

namespace Reader

def err {α : Type} (message : String) : Reader α :=
  fun _ => .error (.err message)

/-- A step that reads no word and may panic. -/
def attempt {α : Type} (step : Except Fault α) : Reader α :=
  fun s =>
    match step with
    | .ok a => .ok (a, s)
    | .error fault => .error (.panic fault)

def u32 : Reader UInt32
  | [] => .error (.err "unexpected end of input")
  | w :: rest => .ok (w, rest)

def u16 : Reader UInt16 := do
  let v ← u32
  if v.toNat < 2 ^ 16 then return v.toUInt16 else err "value out of range for u16"

def u8 : Reader UInt8 := do
  let v ← u32
  if v.toNat < 2 ^ 8 then return v.toUInt8 else err "value out of range for u8"

def bool : Reader Bool := do
  let v ← u32
  return v ≠ 0

def u64 : Reader UInt64 := do
  let lo ← u32
  let hi ← u32
  return lo.toUInt64 ||| hi.toUInt64 <<< 32

def i64 : Reader Int64 := do
  let v ← u64
  return v.toInt64

def range : Reader Range := do
  let start ← u32
  let end_ ← u32
  return ⟨start, end_⟩

/-- A pool: its length, then its rows. -/
def pool {α : Type} (item : Reader α) : Reader (List α) := do
  let n ← u32
  Format.many item n.toNat

end Reader

open Reader Format

def conv_from_u32 (v : UInt32) : Reader Conv :=
  if v = 0 then return .Let
  else if v = 1 then return .Inout
  else if v = 2 then return .Sink
  else if v = 3 then return .Set
  else err "bad Conv tag"

def region_kind_from_u32 (v : UInt32) : Reader RegionKind :=
  if v = 0 then return .Spawn
  else if v = 1 then return .Parallel
  else if v = 2 then return .WithArena
  else err "bad RegionKind tag"

def read_val_row : Reader ValRow := do
  let ty ← u32
  let flags ← u16
  let ct ← u16
  let def_ ← u32
  return ⟨ty, flags, ct, def_⟩

def read_scoped : Reader (Option Range) := do
  if ← bool then
    let r ← range
    return some r
  else return none

def read_seg : Reader Seg := do
  let tag ← u32
  let x ← u32
  if tag = 0 then
    if x.toNat < 2 ^ 16 then return .Field x.toUInt16 else err "field index out of range"
  else if tag = 1 then return .Index x
  else if tag = 2 then return .Deref
  else err "bad Seg tag"

def read_inst_row : Reader InstRow := do
  let discr ← u32
  let payload ← u32
  match Op.from_parts discr payload with
  | none => err "bad Op discriminant"
  | some op =>
    let a ← u32
    let b ← u32
    let c ← u32
    let ty ← u32
    let site ← u32
    return ⟨op, a, b, c, ty, site⟩

def read_alias_seed : Reader AliasSeed := do
  let tag ← u32
  let x ← u32
  if tag = 0 then
    let _ ← u32
    return .None
  else if tag = 1 then
    let _ ← u32
    let c ← conv_from_u32 x
    return .Conv c
  else if tag = 2 then
    let _ ← u32
    return .Own x
  else if tag = 3 then
    let _ ← u32
    return .Arena x
  else if tag = 4 then
    let side ← u8
    return .Split x side
  else err "bad AliasSeed tag"

def read_callee : Reader Callee := do
  let tag ← u32
  let x ← u32
  let y ← u32
  if tag = 0 then return .Direct x
  else if tag = 1 then
    if y.toNat < 2 ^ 16 then return .Witness x y.toUInt16 else err "method ordinal too large"
  else if tag = 2 then return .Closure x
  else if tag = 3 then return .Intrinsic x
  else err "bad Callee tag"

def read_call : Reader CallRow := do
  let callee ← read_callee
  let args ← range
  return ⟨callee, args⟩

def read_reduce : Reader ReduceRow := do
  let op ← read_callee
  let xs ← u32
  let identity ← u32
  let b ← u32
  let l ← u32
  return ⟨op, xs, identity, b, l⟩

def read_switch : Reader SwitchRow := do
  let discr ← u32
  let default ← u32
  let arms ← range
  return ⟨discr, default, arms⟩

def read_switch_arm : Reader SwitchArm := do
  let value ← i64
  let target ← u32
  return ⟨value, target⟩

def read_block : Reader BlockRow := do
  let first_inst ← u32
  let inst_len ← u32
  let term ← read_inst_row
  let scope ← u32
  return ⟨first_inst, inst_len, term, scope⟩

def read_scope : Reader ScopeRow := do
  let parent ← u32
  let brand ← u32
  let defers ← range
  let obligations ← range
  let region ← u32
  return ⟨parent, brand, defers, obligations, region⟩

def read_defer : Reader DeferRow := do
  let kind ← u32
  let body ← u32
  let stmt_order ← u16
  return ⟨if kind ≠ 0 then .ErrDefer else .Defer, body, stmt_order⟩

def read_region : Reader RegionRow := do
  let tag ← u32
  let kind ← region_kind_from_u32 tag
  let captures ← range
  let brand ← u32
  return ⟨kind, captures, brand⟩

def read_conv : Reader Conv := do
  let tag ← u32
  conv_from_u32 tag

def read_capture : Reader CaptureRow := do
  let value ← u32
  let conv ← read_conv
  return ⟨value, conv⟩

def read_site : Reader SiteRow := do
  let line ← u32
  let col ← u32
  return ⟨line, col⟩

def read_const : Reader ConstValue := do
  let tag ← u32
  if tag = 0 then
    let v ← i64
    return .Int v
  else if tag = 1 then
    let v ← u64
    return .FloatBits v
  else if tag = 2 then
    let v ← u64
    return .Bool (v ≠ 0)
  else if tag = 3 then
    let _ ← u64
    return .Unit
  else if tag = 4 then
    let v ← u64
    if v.toNat < 2 ^ 32 then return .Str v.toUInt32 else err "symbol id out of range"
  else err "bad ConstValue tag"

def read_exit_kind : Reader ExitKind := do
  let v ← u32
  match ExitKind.from_u32 v with
  | some kind => return kind
  | none => err "unknown ExitKind"

def read_exit_row : Reader ExitEdgeRow := do
  let from_ ← u32
  let to_ ← u32
  let kind ← read_exit_kind
  let scopes ← range
  let pending ← range
  let drops ← range
  let discharges ← range
  return ⟨from_, to_, kind, scopes, pending, drops, discharges⟩

def read_discharge : Reader Discharge := do
  let tag ← u32
  let a ← u32
  let b ← u32
  if tag = 0 then return .MovedTo a
  else if tag = 1 then return .DeferredBody a b
  else if tag = 2 then return .Raised a
  else if tag = 3 then return .Returned
  else err "unknown Discharge tag"

def read_discharge_row : Reader DischargeRow := do
  let place ← u32
  let how ← read_discharge
  return ⟨place, how⟩

def read_vals : Reader ValPool := do
  let n ← u32
  let rows ← many read_val_row n.toNat
  let sources ← many read_scoped n.toNat
  return ⟨rows.zip sources⟩

/-- The rows `expected..n` of the place pool, interned one by one; each must land on its own
id. -/
def read_places_from : Nat → UInt32 → PlacePool → Reader PlacePool
  | 0, _, places => return places
  | n + 1, expected, places => do
    let root ← u32
    let ty ← u32
    let segs ← pool read_seg
    let (got, places) ← attempt (places.intern root segs ty)
    if got ≠ expected then
      err "place pool did not replay to the same ids (non-canonical input)"
    else read_places_from n (expected + 1) places

def read_places : Reader PlacePool := do
  let n ← u32
  read_places_from n.toNat 0 .new

def read_insts : Reader InstPool := do
  let n ← u32
  let rows ← many read_inst_row n.toNat
  let seeds ← many read_alias_seed n.toNat
  let operands ← pool u32
  let arg_convs ← pool read_conv
  let calls ← pool read_call
  let reduces ← pool read_reduce
  let switches ← pool read_switch
  let switch_arms ← pool read_switch_arm
  return ⟨rows, seeds, operands, arg_convs, calls, reduces, switches, switch_arms⟩

/-- Constants are interned without a check of the id they land on. -/
def read_consts : Reader ConstPool := do
  let rows ← pool read_const
  return rows.foldl (fun consts v => (consts.intern v).2) .new

def read_exit_pool : Reader ExitEdgePool := do
  let rows ← pool read_exit_row
  let scope_list ← pool u32
  let pending ← pool u32
  let drops ← pool u32
  let discharges ← pool read_discharge_row
  return ⟨rows, scope_list, pending, drops, discharges⟩

def read_decl : Reader DeclFmir := do
  let decl ← u32
  let sig ← u32
  let entry ← u32
  let is_unsafe_invariant ← bool
  let vals ← read_vals
  let places ← read_places
  let insts ← read_insts
  let blocks ← pool read_block
  let scopes ← pool read_scope
  let defers ← pool read_defer
  let regions ← pool read_region
  let captures ← pool read_capture
  let sites ← pool read_site
  let consts ← read_consts
  let obligations ← pool u32
  let scoped_sources ← pool u32
  let exits ← read_exit_pool
  return {
    decl, sig, vals, blocks, insts, scopes, places, regions := ⟨regions, captures⟩, sites,
    consts, obligations, scoped_sources, defers, exits, entry, is_unsafe_invariant,
    fingerprint := 0 }

def from_words (words : List UInt32) : Except DecodeError DeclFmir := do
  let (d, rest) ← read_decl words
  if rest ≠ [] then .error (.err "trailing bytes after a complete decode") else .ok d

def from_bytes (bytes : List UInt8) : Except DecodeError DeclFmir :=
  if bytes.length % 4 ≠ 0 then .error (.err "byte length is not a multiple of 4")
  else from_words (from_chunks bytes)

/-! ## Canonical block order and the hash -/

/-- The target blocks of a terminator. The switch arms are sliced, not clamped. -/
def successors (term : InstRow) (insts : InstPool) : Except Fault (List BlockId) :=
  match term.op with
  | .Br => .ok [term.a]
  | .CondBr | .TryBr => .ok [term.b, term.c]
  | .SwitchDiscr =>
    match insts.switches[term.a.toNat]? with
    | none => .ok []
    | some sw => do
      let arms ← slice insts.switch_arms sw.arms
      return sw.default :: arms.map SwitchArm.target
  | _ => .ok []

/-- One `for target in successors(..)` loop: the unseen real blocks among the targets, in
order, are marked and queued. -/
def enqueue : List BlockId → List Bool → List BlockId → List Bool × List BlockId
  | [], seen, queue => (seen, queue)
  | target :: targets, seen, queue =>
    if seen[target.toNat]? = some false then
      enqueue targets (seen.set target.toNat true) (queue ++ [target])
    else enqueue targets seen queue

/-- The traversal loop: `order` are the blocks popped so far. -/
def traverse (d : DeclFmir) :
    Nat → List Bool → List BlockId → List BlockId → Except Fault (List Bool × List BlockId)
  | _, seen, [], order => .ok (seen, order)
  | 0, _, _ :: _, _ => .error .fuel
  | fuel + 1, seen, id :: queue, order => do
    let row ← index d.blocks id
    let targets ← successors row.term d.insts
    let (seen, queue) := enqueue targets seen queue
    traverse d fuel seen queue (order ++ [id])

/-- The blocks a traversal has not seen, in storage order. -/
def unseen (seen : List Bool) : List BlockId :=
  (seen.zipIdx.filter fun (s, _) => ¬ s).map fun (_, i) => UInt32.ofNat i

/-- The traversal from `entry`, which is only seeded when it names a real block. A block is
queued at most once, so there are as many rounds as blocks. -/
def traverse_entry (d : DeclFmir) : Except Fault (List Bool × List BlockId) :=
  let n := d.blocks.length
  let seen := List.replicate n false
  if d.entry.toNat < n then traverse d n (seen.set d.entry.toNat true) [d.entry] []
  else .ok (seen, [])

/-- The blocks in canonical order: the traversal from `entry`, then what it did not see. -/
def canonical_order (d : DeclFmir) : Except Fault (List BlockId) := do
  let (seen, order) ← traverse_entry d
  return order ++ unseen seen

/-- `old_to_canonical[old] = canonical`. -/
def canonical_block_order (d : DeclFmir) : Except Fault (List UInt32) := do
  let order ← canonical_order d
  return order.zipIdx.foldl (fun table (old, canonical) =>
    table.set old.toNat (UInt32.ofNat canonical)) (List.replicate d.blocks.length 0)

def safe_remap (old_to_canonical : List UInt32) (raw : UInt32) : UInt32 :=
  old_to_canonical[raw.toNat]?.getD raw

/-- Renames the branch targets a terminator holds itself. -/
def remap_targets (f : UInt32 → UInt32) (row : InstRow) : InstRow :=
  match row.op with
  | .Br => { row with a := f row.a }
  | .CondBr | .TryBr => { row with b := f row.b, c := f row.c }
  | _ => row

def remap_terminator (row : InstRow) (old_to_canonical : List UInt32) : InstRow :=
  remap_targets (safe_remap old_to_canonical) row

def remap_blocks (f : UInt32 → UInt32) (row : ExitEdgeRow) : ExitEdgeRow :=
  { row with
    from_ := f row.from_
    to_ := if row.to_ ≠ ABSENT then f row.to_ else row.to_ }

def remap_discharge_blocks (f : UInt32 → UInt32) (row : DischargeRow) : DischargeRow :=
  match row.how with
  | .DeferredBody scope body => { row with how := .DeferredBody scope (f body) }
  | _ => row

def remap_block (old_to_canonical : List UInt32) (row : BlockRow) : BlockRow :=
  { row with term := remap_terminator row.term old_to_canonical }

/-- `by_canonical` with every block at its canonical slot; a slot left empty would be the
`expect`'s panic. -/
def place_blocks (d : DeclFmir) (old_to_canonical : List UInt32) : Except Fault (List BlockRow) :=
  let by_canonical := d.blocks.zipIdx.foldl
    (fun (slots : List (Option BlockRow)) (row, old) =>
      slots.set (old_to_canonical[old]?.getD 0).toNat (some (remap_block old_to_canonical row)))
    (List.replicate d.blocks.length none)
  by_canonical.mapM fun slot =>
    match slot with
    | some row => .ok row
    | none => .error .index

/-- Renames every block reference outside the block pool itself and stores `blocks`. -/
def DeclFmir.remap (d : DeclFmir) (f : UInt32 → UInt32) (blocks : List BlockRow) : DeclFmir :=
  { d with
    entry := f d.entry
    blocks := blocks
    insts := { d.insts with
      switches := d.insts.switches.map fun sw => { sw with default := f sw.default }
      switch_arms := d.insts.switch_arms.map fun arm => { arm with target := f arm.target } }
    defers := d.defers.map fun row => { row with body := f row.body }
    exits := { d.exits with
      rows := d.exits.rows.map (remap_blocks f)
      discharges := d.exits.discharges.map (remap_discharge_blocks f) } }

def canonicalize (d : DeclFmir) : Except Fault DeclFmir := do
  let old_to_canonical ← canonical_block_order d
  let blocks ← place_blocks d old_to_canonical
  return d.remap (safe_remap old_to_canonical) blocks

/-! ## The hash primitive -/

def FNV_OFFSET_LO : UInt64 := 0xcbf29ce484222325
def FNV_PRIME_LO : UInt64 := 0x00000100000001B3
def FNV_OFFSET_HI : UInt64 := 0x84e02225cbf19d29
def FNV_PRIME_HI : UInt64 := 0x9E3779B185EBCA87

def splitmix64 (x : UInt64) : UInt64 :=
  let x := x ^^^ (x >>> 30)
  let x := x * 0xBF58476D1CE4E5B9
  let x := x ^^^ (x >>> 27)
  let x := x * 0x94D049BB133111EB
  x ^^^ (x >>> 31)

def fnv_step (h prime : UInt64) (byte : UInt8) : UInt64 :=
  (h ^^^ byte.toUInt64) * prime

def hash_bytes (bytes : List UInt8) : BitVec 128 :=
  let lo := bytes.foldl (fun h b => fnv_step h FNV_PRIME_LO b) FNV_OFFSET_LO
  let hi := bytes.foldl (fun h b => fnv_step h FNV_PRIME_HI b) FNV_OFFSET_HI
  let lo := splitmix64 lo
  let hi := splitmix64 (hi ^^^ lo)
  hi.toBitVec ++ lo.toBitVec

def fmir_hash (d : DeclFmir) : Except Fault (BitVec 128) := do
  let canonical ← canonicalize d
  return hash_bytes (to_bytes canonical)

end Fors.Fmir
