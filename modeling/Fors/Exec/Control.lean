import Fors.Exec.Inst
import Fors.Fmir.Verify

/-!
# Control

Terminators, scope exits and the dispatch loop.  A terminator along a pair that has an exit-edge row
pushes an `ExitRun`, whose pending bodies are entered one after the other; a body's `br BODY_END`
comes back to the run on top.

Source: `crates/fors-interp/src/exec.rs`.
-/

namespace Fors.Exec

open Fors.Fmir

inductive FrameStep where
  | Continue
  | Return (v : Slot)
  | Raise (err : Slot)
  | Trap (kind : TrapKind) (site : SiteId)
  | Ub (report : UbReport)
  deriving DecidableEq

/-- How the process ended. -/
inductive Exit where
  | Return
  | Raise
  | Trap (kind : TrapKind)
  | Ub (class_ : UbClass)
  deriving DecidableEq

namespace Machine

variable {σ : Type} (m : Machine σ)

/-! ## Transfers -/

def goto (b : BlockId) : Result (Machine σ) :=
  match m.top.decl.blocks[b.toNat]? with
  | none => .error (.Error (.DanglingBlock b))
  | some _ => .ok { m with top := { m.top with block := b, pc := 0 } }

/-- The transfer itself, once the exit sequence is done. -/
def finish_transfer (to_ : BlockId) (result : Option Slot) (raising : Bool) :
    Result (FrameStep × Machine σ) :=
  if to_ = ABSENT then
    let v := result.getD .unit
    .ok (if raising then .Raise v else .Return v, m)
  else do
    let m ← m.goto to_
    return (.Continue, m)

/-! ## Scope exits -/

/-- The first obligation that is discharged twice, or not at all. -/
def check_obligations (run : ExitRun) : Option Fault :=
  let decl := m.top.decl
  let site := match decl.blocks[run.row.from_.toNat]? with
    | some b => b.term.site
    | none => 0
  let discharges := clamped decl.exits.discharges run.row.discharges
  let twice := (discharges.zipIdx.find? fun (d, i) =>
    (discharges.take i).any fun e => e.place = d.place).map Prod.fst
  match twice with
  | some d => some (m.ub 0xFFFFFFFF site .DoubleConsume
      s!"exit edge {run.edge} discharges place {d.place} twice")
  | none =>
    let obligations := obligations_of decl (clamped decl.exits.scope_list run.row.scopes)
    match obligations.find? fun place => !discharges.any fun d => d.place = place with
    | some place => some (m.ub 0xFFFFFFFF site .LinearLeak (s!"place {place} carries a linear " ++
        s!"obligation that is undischarged on exit edge {run.edge} (ch01 R22h); this is a compiler " ++
        "bug, not a program trap"))
    | none => none

/-- The body that comes next, if one is left. -/
def next_body (run : ExitRun) : Result (Option BlockId) :=
  let decl := m.top.decl
  match (clamped decl.exits.pending run.row.pending)[run.done]? with
  | none => .ok none
  | some id =>
    match decl.defers[id.toNat]? with
    | none => .error (.Error (.MalformedExitEdge
        s!"exit edge {run.edge} names defer row {id}, which does not exist"))
    | some d =>
      if d.kind = .ErrDefer ∧ run.row.kind = .Normal then
        .error (.Error (.MalformedExitEdge (s!"exit edge {run.edge} is a normal exit but carries " ++
          s!"`errdefer` body {id}; ch01 R23b runs an `errdefer` only on an error exit")))
      else .ok (some d.body)

def drop_root (root : Nat) : Machine σ :=
  { m with top := { m.top with roots := m.top.roots.modify root Slot.moved_out } }

/-- The drops of an edge, in order. -/
def drop_all : List PlaceId → Machine σ → Result (Machine σ)
  | [], m => .ok m
  | place :: rest, m => do
    let (root, _, _) ← m.place_shape place
    drop_all rest (m.drop_root root)

def set_exits (exits : List ExitRun) : Machine σ :=
  { m with top := { m.top with exits := exits } }

/-- Enters the next pending body of the innermost exit, or ends that exit. -/
def advance_exit : Result (FrameStep × Machine σ) :=
  match m.top.exits with
  | [] => .error (.Error (.DanglingBlock ABSENT))
  | run :: outer => do
    match ← m.next_body run with
    | some body =>
      let m := m.set_exits ({ run with done := run.done + 1 } :: outer)
      let m ← m.goto body
      return (.Continue, m)
    | none =>
      let m ← drop_all (clamped m.top.decl.exits.drops run.row.drops) m
      match m.check_obligations run with
      | some fault => .error fault
      | none => (m.set_exits outer).finish_transfer run.resume run.result run.raising

/-- The edge of a pair of blocks. -/
def find_exit (pool : ExitEdgePool) (from_ to_ : BlockId) : Option (ExitEdgeId × ExitEdgeRow) :=
  (all_rows pool.rows).find? fun (_, r) => r.from_ = from_ ∧ r.to_ = to_

/-- Either begin this terminator's exit sequence, or transfer control directly when the edge leaves
no scope. -/
def begin_exit_or_goto (from_ to_ : BlockId) (result : Option Slot) (raising : Bool) :
    Result (FrameStep × Machine σ) :=
  match find_exit m.top.decl.exits from_ to_ with
  | some (edge, row) =>
    (m.set_exits (⟨edge, row, 0, to_, result, raising⟩ :: m.top.exits)).advance_exit
  | none => m.finish_transfer to_ result raising

/-! ## Terminators -/

/-- A terminator has no row of its own. -/
def read_terminator_operand (site : SiteId) (raw : UInt32) : Result Slot :=
  m.val_operand 0xFFFFFFFF site raw

def switch_target (term : InstRow) : Result BlockId :=
  match m.top.decl.insts.switches[term.a.toNat]? with
  | none => mismatch "switch_discr names no switch row"
  | some sw =>
    match slice m.top.decl.insts.switch_arms sw.arms with
    | .error _ => mismatch "switch_discr's arm range is out of range"
    | .ok arms => do
      let v ← m.read_terminator_operand term.site sw.discr
      return ((arms.find? fun a => a.value.toUInt64 = v.bits).map SwitchArm.target).getD sw.default

/-- A terminator. -/
def exec_term (block : BlockId) (term : InstRow) : Result (FrameStep × Machine σ) :=
  match term.op with
  | .Br =>
    if term.a = BODY_END then m.advance_exit
    else m.begin_exit_or_goto block term.a none false
  | .CondBr => do
    let c ← m.read_terminator_operand term.site term.a
    m.begin_exit_or_goto block (if c.bits ≠ 0 then term.b else term.c) none false
  | .SwitchDiscr => do
    let to_ ← m.switch_target term
    m.begin_exit_or_goto block to_ none false
  | .TryBr =>
    let to_ := if m.top.raised then term.c else term.b
    { m with top := { m.top with raised := false } }.begin_exit_or_goto block to_ none false
  | .Ret => do
    let v ← if term.a = NO_OPERAND then .ok .unit else m.read_terminator_operand term.site term.a
    m.begin_exit_or_goto block ABSENT (some v) false
  | .Raise => do
    let v ← if term.a = NO_OPERAND then .ok .unit else m.read_terminator_operand term.site term.a
    { m with top := { m.top with raise_ty := term.ty } }.begin_exit_or_goto block ABSENT (some v)
      true
  | .Trap =>
    match TrapKind.from_u32 term.a with
    | none => mismatch "bad trap kind"
    | some kind => .ok (.Trap kind term.site, m)
  | .Unreachable => mismatch "reached unreachable"
  | _ => .error (.Error (.UnsupportedOp term.op.discriminant))

/-! ## The dispatch loop -/

/-- A trap or a report is a result of the step; a diagnostic ends the run without one. -/
def settle (site : SiteId) : Result (FrameStep × Machine σ) → Result (FrameStep × Machine σ)
  | .ok r => .ok r
  | .error (.Trap kind) => .ok (.Trap kind site, m)
  | .error (.Ub report) => .ok (.Ub report, m)
  | .error e => .error e

def step_frame (p : Program) (e : Engine σ) : Result (FrameStep × Machine σ) := do
  let m ← lift (m.charge 1)
  match m.top.decl.blocks[m.top.block.toNat]? with
  | none => .error (.Error (.DanglingBlock m.top.block))
  | some row =>
    if m.top.pc < row.inst_len.toNat then
      let id := row.first_inst + UInt32.ofNat m.top.pc
      match m.top.decl.insts.rows[id.toNat]? with
      | none => .error (.Error (.DanglingBlock m.top.block))
      | some inst =>
        let m := { m with top := { m.top with pc := m.top.pc + 1 } }
        m.settle inst.site ((m.exec_inst p e id inst).map fun m => (.Continue, m))
    else m.settle row.term.site (m.exec_term m.top.block row.term)

/-- Pops the innermost frame and the borrow stacks of its locals. -/
def pop_frame (caller : Frame) (rest : List Frame) : Machine σ :=
  { m with
    top := caller
    below := rest
    borrows := fun k =>
      match k with
      | .Root frame _ => if frame = m.fr then none else m.borrows k
      | .Alloc _ => m.borrows k }

/-- Is a frame right after a call, in a block that ends in the `try_br` naming it? -/
def at_try_br (f : Frame) : Bool :=
  match f.decl.blocks[f.block.toNat]? with
  | none => false
  | some row =>
    row.term.op = .TryBr && f.pc = row.inst_len.toNat && 0 < row.inst_len.toNat &&
      row.term.a = row.first_inst + row.inst_len - 1

/-- A run goes on, or is over. -/
inductive Next (σ : Type) where
  | Run (m : Machine σ)
  | Done (exit : Exit) (v : Slot)

/-- One round of the loop. -/
def drive (p : Program) (e : Engine σ) : Result (Next σ) := do
  let (step, m) ← m.step_frame p e
  match step with
  | .Continue => return .Run m
  | .Return v =>
    match m.below with
    | [] => return .Done .Return v
    | caller :: rest => return .Run ((m.pop_frame caller rest).define_dest m.top.dest v)
  | .Raise err =>
    match m.below with
    | [] => return .Done .Raise .unit
    | caller :: rest =>
      if at_try_br caller then
        let m := (m.pop_frame caller rest).define_dest m.top.dest err
        return .Run { m with top := { m.top with raised := true } }
      else .error (.Error (.UnhandledRaise m.top.func.name))
  | .Trap kind _ => return .Done (.Trap kind) .unit
  | .Ub report => return .Done (.Ub report.class_) .unit

/-! ## Runs -/

/-- The machine of a program before its first step. -/
def start (func : ProgFn) (args : List Slot) (max_steps : Nat) (rest : σ) : Machine σ where
  top := new_frame func none args 0
  below := []
  allocs := [.new 0 1 .Static 0]
  arenas := []
  arena_region := []
  provs := [⟨.Alloc 0, 0⟩]
  borrows _ := none
  next_tag := 0
  next_serial := 1
  steps := 0
  step_cap := min max_steps STEP_BUDGET
  rest := rest

/-- One step of a run. -/
def Step (p : Program) (e : Engine σ) (m m' : Machine σ) : Prop :=
  m.drive p e = .ok (.Run m')

/-- The machines of every run of a program. -/
inductive Reached (p : Program) (e : Engine σ) : Machine σ → Prop
  | start (func : ProgFn) (hfunc : p.fns[p.entry]? = some func) (args : List Slot) (max_steps : Nat)
      (rest : σ) : Reached p e (start func args max_steps rest)
  | step {m m' : Machine σ} (h : Reached p e m) (hstep : Step p e m m') : Reached p e m'

/-- Later machines of the same run. -/
inductive Later (p : Program) (e : Engine σ) (m : Machine σ) : Machine σ → Prop
  | refl : Later p e m m
  | step {m1 m2 : Machine σ} (h : Later p e m m1) (hstep : Step p e m1 m2) : Later p e m m2

end Machine

end Fors.Exec
