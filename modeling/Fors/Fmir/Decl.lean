import Fors.Fmir.Op

/-!
# One declaration's FMIR

The rows and pools of a `DeclFmir`. Every id is a bare `u32` into one pool of the same
declaration; `ABSENT` is the absent value of each. A pool is the list of its rows. Accessors
whose range comes out of a row are clamped (`clamp_range`), the ones that index directly fault.

Sources: `crates/fors-fmir/src/inst.rs`, `crates/fors-fmir/src/exit.rs`,
`crates/fors-fmir/src/scope.rs`, `crates/fors-fmir/src/block.rs`,
`crates/fors-fmir/src/constpool.rs`.
-/

namespace Fors.Fmir

/-! ## Ids -/

abbrev ValId := UInt32
abbrev BlockId := UInt32
abbrev InstId := UInt32
abbrev ScopeId := UInt32
abbrev PlaceId := UInt32
abbrev RegionId := UInt32
abbrev SiteId := UInt32
abbrev FmirConstId := UInt32
abbrev DeferId := UInt32
abbrev BrandId := UInt32
abbrev ExitEdgeId := UInt32
abbrev DeclKeyId := UInt32
abbrev FnSigId := UInt32
abbrev TyId := UInt32
abbrev Symbol := UInt32

/-- A Rust `Range<u32>`, as a row carries it: neither ordered nor in bounds. -/
structure Range where
  start : UInt32
  end_ : UInt32
  deriving DecidableEq

/-- What ends a run other than by returning: the panics of an index, a slice and an `u32`
addition, and a loop that outlasts the fuel it was given. -/
inductive Fault where
  | index | slice | overflow | fuel
  deriving DecidableEq

/-- The rows of a pool with their ids. -/
def all_rows {α : Type} (rows : List α) : List (UInt32 × α) :=
  rows.zipIdx.map fun (r, i) => (UInt32.ofNat i, r)

theorem mem_all_rows {α : Type} {rows : List α} {i : Nat} {r : α} (h : rows[i]? = some r) :
    (UInt32.ofNat i, r) ∈ all_rows rows :=
  List.mem_map.mpr ⟨(r, i), List.mk_mem_zipIdx_iff_getElem?.mpr h, rfl⟩

theorem exists_of_mem_all_rows {α : Type} {rows : List α} {p : UInt32 × α}
    (h : p ∈ all_rows rows) : ∃ i, rows[i]? = some p.2 ∧ p.1 = UInt32.ofNat i := by
  obtain ⟨⟨r, i⟩, hmem, rfl⟩ := List.mem_map.mp h
  exact ⟨i, List.mk_mem_zipIdx_iff_getElem?.mp hmem, rfl⟩

theorem ofNat_inj_of_lt {i j : Nat} (hi : i < 2 ^ 32) (hj : j < 2 ^ 32)
    (h : UInt32.ofNat i = UInt32.ofNat j) : i = j := by
  have := congrArg UInt32.toNat h
  rwa [UInt32.toNat_ofNat_of_lt' hi, UInt32.toNat_ofNat_of_lt' hj] at this

/-- A property of the rows alone may be checked on the pool. -/
theorem forall_mem_all_rows {α : Type} {rows : List α} {p : α → Prop} :
    (∀ x ∈ all_rows rows, p x.2) ↔ ∀ r ∈ rows, p r := by
  constructor
  · intro h r hr
    obtain ⟨i, hi⟩ := List.mem_iff_getElem?.mp hr
    exact h _ (mem_all_rows hi)
  · intro h x hx
    obtain ⟨i, hi, -⟩ := exists_of_mem_all_rows hx
    exact h _ (List.mem_of_getElem? hi)

/-- The clamped window of a data-carried range: empty when it is inverted. -/
def clamp_range (range : Range) (len : Nat) : Nat × Nat :=
  let start := min range.start.toNat len
  (start, max (min range.end_.toNat len) start)

/-- `&rows[clamp_range(range, rows.len())]`. -/
def clamped {α : Type} (rows : List α) (range : Range) : List α :=
  let (start, stop) := clamp_range range rows.length
  (rows.drop start).take (stop - start)

/-- `&rows[start..end]`, which panics on an inverted or out-of-range window. -/
def slice {α : Type} (rows : List α) (range : Range) : Except Fault (List α) :=
  if range.start ≤ range.end_ ∧ range.end_.toNat ≤ rows.length then
    .ok ((rows.drop range.start.toNat).take (range.end_.toNat - range.start.toNat))
  else
    .error .slice

/-- `rows[id.index()]`. -/
def index {α : Type} (rows : List α) (id : UInt32) : Except Fault α :=
  match rows[id.toNat]? with
  | some r => .ok r
  | none => .error .index

/-- `a + b` on `u32`. -/
def add_u32 (a b : UInt32) : Except Fault UInt32 :=
  if a.toNat + b.toNat < 2 ^ 32 then .ok (a + b) else .error .overflow

/-! ## Values -/

def SECRET : UInt16 := 0x1
def SECRET_UNSPECIFIED : UInt16 := 0x8000
def CT_UNSPECIFIED : UInt16 := 0xFFFF
def PARAM_TAG : UInt32 := 0x80000000

inductive ValDef where
  | Inst (id : InstId)
  | Param (ordinal : UInt16)
  deriving DecidableEq

def ValDef.decode (raw : UInt32) : ValDef :=
  if raw &&& PARAM_TAG ≠ 0 then .Param (raw &&& 0xFFFF).toUInt16 else .Inst raw

structure ValRow where
  ty : TyId
  flags : UInt16
  ct : UInt16
  def_ : UInt32
  deriving DecidableEq

namespace ValRow

def is_secret (row : ValRow) : Bool :=
  row.flags &&& SECRET ≠ 0

def is_secret_unspecified (row : ValRow) : Bool :=
  row.flags &&& SECRET_UNSPECIFIED ≠ 0

end ValRow

/-- A value row with its `SCOPED` sources: the pool's two parallel columns, which `push` extends
together, as one list. -/
structure ValPool where
  entries : List (ValRow × Option Range)
  deriving DecidableEq

namespace ValPool

def rows (vals : ValPool) : List ValRow :=
  vals.entries.map Prod.fst

def scoped_sources (vals : ValPool) : List (Option Range) :=
  vals.entries.map Prod.snd

end ValPool

/-! ## Places -/

inductive Seg where
  | Field (i : UInt16)
  | Index (v : ValId)
  | Deref
  deriving DecidableEq

structure PlaceRow where
  root : UInt32
  segs : Range
  ty : TyId
  deriving DecidableEq

structure PlacePool where
  rows : List PlaceRow
  segs : List Seg
  deriving DecidableEq

namespace PlacePool

def new : PlacePool := ⟨[], []⟩

/-- The projection path of a row. -/
def path (pool : PlacePool) (row : PlaceRow) : List Seg :=
  clamped pool.segs row.segs

/-- The comparison of a row's path, which slices by the row's own range. -/
def segs_eq (pool : PlacePool) (range : Range) (path : List Seg) : Except Fault Bool := do
  let existing ← slice pool.segs range
  return existing = path

/-- Whether a row has a shape; paths are compared only where the root and the type agree. -/
def has_shape (pool : PlacePool) (root : UInt32) (path : List Seg) (ty : TyId) (row : PlaceRow) :
    Except Fault Bool :=
  if row.root = root ∧ row.ty = ty then pool.segs_eq row.segs path else .ok false

/-- The first row of a shape, searched from row `i` on. -/
def find_shape (pool : PlacePool) (root : UInt32) (path : List Seg) (ty : TyId) :
    Nat → List PlaceRow → Except Fault (Option Nat)
  | _, [] => return none
  | i, row :: rows => do
    if ← pool.has_shape root path ty row then return some i else pool.find_shape root path ty (i + 1) rows

/-- Appends a row and its path; the two ends of its range are cast to `u32`. -/
def push (pool : PlacePool) (root : UInt32) (path : List Seg) (ty : TyId) : PlacePool :=
  let start := UInt32.ofNat pool.segs.length
  let segs := pool.segs ++ path
  let stop := UInt32.ofNat segs.length
  ⟨pool.rows ++ [⟨root, ⟨start, stop⟩, ty⟩], segs⟩

/-- Reuses the first row of the same shape, else appends one. -/
def intern (pool : PlacePool) (root : UInt32) (path : List Seg) (ty : TyId) :
    Except Fault (PlaceId × PlacePool) := do
  match ← pool.find_shape root path ty 0 pool.rows with
  | some i => return (UInt32.ofNat i, pool)
  | none => return (UInt32.ofNat pool.rows.length, pool.push root path ty)

end PlacePool

/-! ## Instructions -/

/-- A parameter convention. -/
inductive Conv where
  | Let | Inout | Sink | Set
  deriving DecidableEq

structure InstRow where
  op : Op
  a : UInt32
  b : UInt32
  c : UInt32
  ty : TyId
  site : SiteId
  deriving DecidableEq

/-- Which declaration a `call_direct`/`call_witness`/`call_closure`/ `intrinsic` invokes. -/
inductive Callee where
  | Direct (decl : DeclKeyId)
  | Witness (table : UInt32) (method : UInt16)
  | Closure (v : ValId)
  | Intrinsic (sym : Symbol)
  deriving DecidableEq

structure CallRow where
  callee : Callee
  args : Range
  deriving DecidableEq

structure ReduceRow where
  op : Callee
  xs : ValId
  identity : ValId
  b : UInt32
  l : UInt32
  deriving DecidableEq

structure SwitchRow where
  discr : ValId
  default : BlockId
  arms : Range
  deriving DecidableEq

structure SwitchArm where
  value : Int64
  target : BlockId
  deriving DecidableEq

inductive AliasSeed where
  | None
  | Conv (c : Fmir.Conv)
  | Own (p : PlaceId)
  | Arena (b : BrandId)
  | Split (parent : PlaceId) (side : UInt8)
  deriving DecidableEq

structure InstPool where
  rows : List InstRow
  aliases : List AliasSeed
  operands : List ValId
  arg_convs : List Fmir.Conv
  calls : List CallRow
  reduces : List ReduceRow
  switches : List SwitchRow
  switch_arms : List SwitchArm
  deriving DecidableEq

namespace InstPool

/-- The seed of an instruction; a column that is too short reads as `None`. -/
def alias_ (insts : InstPool) (i : Nat) : AliasSeed :=
  insts.aliases[i]?.getD AliasSeed.None

/-- A spilled operand list. -/
def args (insts : InstPool) (range : Range) : List ValId :=
  clamped insts.operands range

end InstPool

/-! ## Blocks, scopes and regions -/

structure BlockRow where
  first_inst : UInt32
  inst_len : UInt32
  term : InstRow
  scope : ScopeId
  deriving DecidableEq

def BlockRow.inst_range (row : BlockRow) : Except Fault Range := do
  let stop ← add_u32 row.first_inst row.inst_len
  return ⟨row.first_inst, stop⟩

inductive DeferKind where
  | Defer | ErrDefer
  deriving DecidableEq

structure DeferRow where
  kind : DeferKind
  body : BlockId
  stmt_order : UInt16
  deriving DecidableEq

/-- The block a deferred body's last `br` names. -/
def BODY_END : BlockId := ABSENT

inductive Discharge where
  | MovedTo (i : InstId)
  | DeferredBody (scope : ScopeId) (body : BlockId)
  | Raised (i : InstId)
  | Returned
  deriving DecidableEq

structure ScopeRow where
  parent : ScopeId
  brand : BrandId
  defers : Range
  obligations : Range
  region : RegionId
  deriving DecidableEq

inductive RegionKind where
  | Spawn | Parallel | WithArena
  deriving DecidableEq

structure CaptureRow where
  value : ValId
  conv : Conv
  deriving DecidableEq

structure RegionRow where
  kind : RegionKind
  captures : Range
  brand : BrandId
  deriving DecidableEq

def RegionRow.captures_absent (row : RegionRow) : Bool :=
  row.captures.start = ABSENT

structure RegionPool where
  rows : List RegionRow
  captures : List CaptureRow
  deriving DecidableEq

structure SiteRow where
  line : UInt32
  col : UInt32
  deriving DecidableEq

/-! ## Constants -/

inductive ConstValue where
  | Int (v : Int64)
  | FloatBits (v : UInt64)
  | Bool (v : Bool)
  | Unit
  | Str (s : Symbol)
  deriving DecidableEq

structure ConstPool where
  rows : List ConstValue
  deriving DecidableEq

namespace ConstPool

def new : ConstPool := ⟨[]⟩

def intern (pool : ConstPool) (v : ConstValue) : FmirConstId × ConstPool :=
  match pool.rows.findIdx? fun r => r = v with
  | some i => (UInt32.ofNat i, pool)
  | none => (UInt32.ofNat pool.rows.length, ⟨pool.rows ++ [v]⟩)

end ConstPool

/-! ## Exit edges -/

inductive ExitKind where
  | Normal | Error
  deriving DecidableEq

namespace ExitKind

def as_u32 : ExitKind → UInt32
  | Normal => 0
  | Error => 1

def from_u32 (v : UInt32) : Option ExitKind :=
  if v = 0 then some Normal
  else if v = 1 then some Error
  else none

def as_str : ExitKind → String
  | Normal => "normal"
  | Error => "error"

end ExitKind

structure DischargeRow where
  place : PlaceId
  how : Discharge
  deriving DecidableEq

/-- One exit edge of the CFG. -/
structure ExitEdgeRow where
  from_ : BlockId
  to_ : BlockId
  kind : ExitKind
  scopes : Range
  pending : Range
  drops : Range
  discharges : Range
  deriving DecidableEq

def ExitEdgeRow.is_function_exit (row : ExitEdgeRow) : Bool :=
  row.to_ = ABSENT

structure ExitEdgePool where
  rows : List ExitEdgeRow
  scope_list : List ScopeId
  pending : List DeferId
  drops : List PlaceId
  discharges : List DischargeRow
  deriving DecidableEq

/-! ## Declarations -/

structure DeclFmir where
  decl : DeclKeyId
  sig : FnSigId
  vals : ValPool
  blocks : List BlockRow
  insts : InstPool
  scopes : List ScopeRow
  places : PlacePool
  regions : RegionPool
  sites : List SiteRow
  consts : ConstPool
  obligations : List PlaceId
  scoped_sources : List PlaceId
  defers : List DeferRow
  exits : ExitEdgePool
  entry : BlockId
  is_unsafe_invariant : Bool
  fingerprint : BitVec 128
  deriving DecidableEq

def TY_UNIT : TyId := 1

def ScopeRow.root (brand : BrandId) : ScopeRow :=
  ⟨ABSENT, brand, ⟨0, 0⟩, ⟨0, 0⟩, ABSENT⟩

/-- A normal edge leaving no scope and running nothing — the shape every builder starts from and
then fills. -/
def ExitEdgeRow.plain (from_ to_ : BlockId) (kind : ExitKind) : ExitEdgeRow :=
  ⟨from_, to_, kind, ⟨0, 0⟩, ⟨0, 0⟩, ⟨0, 0⟩, ⟨0, 0⟩⟩

/-- A row that uses no operand slot. -/
def InstRow.plain (op : Op) : InstRow :=
  ⟨op, NO_OPERAND, NO_OPERAND, NO_OPERAND, TY_UNIT, 0⟩

/-- A minimal declaration: one block ending in `unreachable`, one scope, one site. -/
def DeclFmir.empty (decl : DeclKeyId) (sig : FnSigId) : DeclFmir where
  decl := decl
  sig := sig
  vals := ⟨[]⟩
  blocks := [⟨0, 0, .plain .Unreachable, 0⟩]
  insts := ⟨[], [], [], [], [], [], [], []⟩
  scopes := [.root ABSENT]
  places := .new
  regions := ⟨[], []⟩
  sites := [⟨0, 0⟩]
  consts := .new
  obligations := []
  scoped_sources := []
  defers := []
  exits := ⟨[], [], [], [], []⟩
  entry := 0
  is_unsafe_invariant := false
  fingerprint := 0

end Fors.Fmir
