import Fors.Exec.Mem

/-!
# A running machine

Frames, the allocation, arena, provenance and borrow tables, and the operands of an instruction.  The
entry function's frame is the last of `below`, so a running machine has a frame.  What a run keeps
besides (cells, strings, the host) is `rest`, of any type.

Sources: `crates/fors-interp/src/exec.rs`, `crates/fors-interp/src/ub.rs`,
`crates/fors-interp/src/program.rs`.
-/

namespace Fors.Exec

open Fors.Fmir

open Words (as_u32)

/-! ## How a step fails -/

/-- A clean interpreter diagnostic. -/
inductive InterpError where
  | NoEntry (what : String)
  | UnknownCallee (key : DeclKeyId)
  | UnsupportedOp (discriminant : UInt32)
  | DanglingOperand (inst slot : UInt32)
  | DanglingBlock (block : BlockId)
  | TypeMismatch (what : String)
  | MalformedExitEdge (what : String)
  | UnhandledRaise (func : String)
  | Unrepresentable (what : String)
  | StepBudget
  | StackOverflow
  /-- An error of an instruction that only computes a value. -/
  | Other (what : String)
  deriving DecidableEq

/-- One `ub:` report. -/
structure UbReport where
  class_ : UbClass
  inst : UInt32
  site : UInt32 × UInt32
  detail : String
  deriving DecidableEq

/-- A fault inside one instruction. -/
inductive Fault where
  | Trap (kind : TrapKind)
  | Ub (report : UbReport)
  | Error (e : InterpError)
  /-- An index out of its table. -/
  | Panic
  deriving DecidableEq

abbrev Result (α : Type) := Except Fault α

def mismatch {α : Type} (what : String) : Result α :=
  .error (.Error (.TypeMismatch what))

/-! ## Programs -/

/-- One lowered function in the program. -/
structure ProgFn where
  name : String
  decl : DeclFmir
  deriving DecidableEq

/-- A closed, runnable program. -/
structure Program where
  fns : List ProgFn
  entry : Nat
  deriving DecidableEq

/-! ## Frames -/

/-- A scope exit in progress. -/
structure ExitRun where
  edge : ExitEdgeId
  /-- The row of `edge`. -/
  row : ExitEdgeRow
  /-- How many of the pending bodies have been entered. -/
  done : Nat
  resume : BlockId
  result : Option Slot
  raising : Bool
  deriving DecidableEq

structure Frame where
  func : ProgFn
  serial : Nat
  vals : List Slot
  roots : List Slot
  block : BlockId
  pc : Nat
  /-- The exits this frame is in the middle of, innermost first. -/
  exits : List ExitRun
  raised : Bool
  raise_ty : TyId
  /-- Where the frame's `ret` value goes. -/
  dest : Option ValId
  deriving DecidableEq

/-- `slots[i] = s`, grown on demand. -/
def set_grown (slots : List Slot) (i : Nat) (s : Slot) : List Slot :=
  (slots ++ List.replicate (i + 1 - slots.length) Slot.uninit).set i s

namespace Frame

def decl (f : Frame) : DeclFmir := f.func.decl

def define (f : Frame) (v : ValId) (s : Slot) : Frame :=
  { f with vals := set_grown f.vals v.toNat s }

def set_root (f : Frame) (root : Nat) (s : Slot) : Frame :=
  { f with roots := set_grown f.roots root s }

end Frame

/-! ## Machines -/

def STEP_BUDGET : Nat := 100000000

def MAX_FRAMES : Nat := 1024

def ROOT_TAG : Nat := 0

def AMBIENT : AllocatorId := ABSENT

/-- A running machine. -/
structure Machine (σ : Type) where
  top : Frame
  /-- The callers, the innermost first. -/
  below : List Frame
  allocs : List Alloc
  arenas : List ArenaVal
  arena_region : List RegionId
  provs : List ProvRow
  borrows : BorrowKey → Option BorrowStack
  next_tag : Nat
  next_serial : Nat
  steps : Nat
  step_cap : Nat
  rest : σ

/-- The instructions that only compute a value, and the places inside an aggregate. -/
structure Engine (σ : Type) where
  scalar_width : TyId → Except InterpError Nat
  /-- The value of an instruction, the steps it charges and what it does to the rest. -/
  value : Machine σ → UInt32 → InstRow → Result (Slot × Nat × σ)
  read_cells : Machine σ → UInt32 → Slot → List Seg → Result Slot
  write_cells : Machine σ → UInt32 → Slot → List Seg → Slot → Result σ

namespace Machine

variable {σ : Type} (m : Machine σ)

/-- The index of the running frame. -/
def fr : Nat := m.below.length

def frame (i : Nat) : Option Frame :=
  if i = m.fr then some m.top else m.below.reverse[i]?

def set_frame (i : Nat) (f : Frame) : Machine σ :=
  if i = m.fr then { m with top := f }
  else { m with below := (m.below.reverse.set i f).reverse }

def slot (inst : UInt32) (v : ValId) : Result Slot :=
  match m.top.vals[v.toNat]? with
  | some s => .ok s
  | none => .error (.Error (.DanglingOperand inst v))

def define (v : ValId) (s : Slot) : Machine σ :=
  { m with top := m.top.define v s }

/-- `define` where the instruction has a result. -/
def define_dest (dest : Option ValId) (s : Slot) : Machine σ :=
  match dest with
  | some v => m.define v s
  | none => m

/-- `n` steps, against the runaway guard. -/
def charge (n : Nat) : Except InterpError (Machine σ) :=
  if m.steps + n > m.step_cap then .error .StepBudget else .ok { m with steps := m.steps + n }

def fresh_tag : Nat × Machine σ :=
  (m.next_tag + 1, { m with next_tag := m.next_tag + 1 })

def push_prov (target : MemTarget) (tag : Nat) : Nat × Machine σ :=
  (as_u32 m.provs.length, { m with provs := m.provs ++ [⟨target, tag⟩] })

def prov_of (s : Slot) : Result ProvRow :=
  if s.prov = PROV_NONE then mismatch "expected a pointer, got a value with no provenance"
  else match m.provs[s.prov]? with
    | some row => .ok row
    | none => mismatch "dangling provenance"

/-- The allocator in force in the running block. -/
def allocator_at (block : BlockId) : AllocatorId :=
  match m.top.decl.blocks[block.toNat]? with
  | none => AMBIENT
  | some row =>
    match m.top.decl.scopes[row.scope.toNat]? with
    | none => AMBIENT
    | some scope => scope.brand

def site_of (site : SiteId) : UInt32 × UInt32 :=
  match m.top.decl.sites[site.toNat]? with
  | some row => (row.line, row.col)
  | none => (0, 0)

/-- `none` is a violation; a range with no stack is unrestricted. -/
def borrow_access (key : BorrowKey) (tag : Nat) (how : Access) : Option (Machine σ) :=
  match m.borrows key with
  | none => some m
  | some stack =>
    match stack.access tag how with
    | none => none
    | some stack => some { m with borrows := fun k => if k = key then some stack else m.borrows k }

def borrow_stack (key : BorrowKey) : BorrowStack :=
  (m.borrows key).getD (.rooted ROOT_TAG)

def set_borrow (key : BorrowKey) (stack : BorrowStack) : Machine σ :=
  { m with borrows := fun k => if k = key then some stack else m.borrows k }

def ub (inst : UInt32) (site : SiteId) (class_ : UbClass) (detail : String) : Fault :=
  .Ub ⟨class_, inst, m.site_of site, detail⟩

/-! ## Operands -/

def val_operand (inst : UInt32) (site : SiteId) (raw : UInt32) : Result Slot :=
  if raw = NO_OPERAND then mismatch "missing operand"
  else do
    let s ← m.slot inst raw
    if s.live = false then
      .error (m.ub inst site .UseAfterMove s!"value %{raw} was moved out of before this use")
    else if s.init = false then
      .error (m.ub inst site .UninitRead s!"value %{raw} is read before it is initialised")
    else .ok s

/-- The value an instruction defines. -/
def result_of (inst : UInt32) : Option ValId :=
  ((all_rows m.top.decl.vals.rows).find? fun (_, r) => ValDef.decode r.def_ = .Inst inst).map
    Prod.fst

/-- Resolves a `PlaceId` operand to its `(root, segs, ty)`. -/
def place_shape (raw : UInt32) : Result (Nat × List Seg × TyId) :=
  match m.top.decl.places.rows[raw.toNat]? with
  | none => mismatch "dangling place"
  | some row => .ok (row.root.toNat, m.top.decl.places.path row, row.ty)

/-- A local slot that is dead, then one that is uninitialised, is a report. -/
def root_slot (inst : UInt32) (site : SiteId) (root : Nat) : Result Slot :=
  let s := m.top.roots.getD root Slot.uninit
  if s.live = false then
    .error (m.ub inst site .UseAfterMove
      s!"local slot {root} was moved out of (or dropped) before this read")
  else if s.init = false then
    .error (m.ub inst site .UninitRead s!"local slot {root} is read before it is initialised")
  else .ok s

end Machine

end Fors.Exec
