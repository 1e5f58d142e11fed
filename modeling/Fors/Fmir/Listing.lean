import Fors.Fmir.Parse
import Mathlib.Algebra.GroupWithZero.Nat

/-!
# Listings

A listing is a declaration as its text states it, with the names resolved: the regions, the
parameters, and the lines of each block with their operands in place. `into_decl` lays it out in
the pools, the side tables of a line in the order of the lines.

Principal result: `layout_concat`.
-/

namespace Fors.Fmir

/-- What a `val` line says about its value. -/
structure Typed where
  ty : TyId
  flags : UInt16
  ct : UInt16
  deriving DecidableEq

inductive SeedSpec where
  | None
  | Conv (c : Fmir.Conv)
  | Own (root : UInt32)
  | Arena (id : BrandId)
  | Split (root : UInt32) (side : UInt8)
  deriving DecidableEq

/-- What a word behind a mnemonic names. -/
inductive Slot where
  | val | block | inst | region | kind
  deriving DecidableEq

inductive Operands where
  | slots (vs : List (Slot × UInt32))
  | call (sym : Symbol) (args : List ValId)
  | switch (discr : ValId) (default : BlockId) (arms : List SwitchArm)
  deriving DecidableEq

/-- A `val` or `do` line. -/
structure Line where
  op : Op
  operands : Operands
  dest : Option (Typed × SeedSpec)
  deriving DecidableEq

structure RegionLine where
  kind : RegionKind
  captures : Option (List CaptureRow)
  deriving DecidableEq

structure ParamLine where
  ordinal : UInt16
  typed : Typed
  deriving DecidableEq

structure Listing where
  decl : DeclKeyId
  sig : FnSigId
  is_unsafe_invariant : Bool
  regions : List RegionLine
  params : List ParamLine
  blocks : List (List Line)
  deriving DecidableEq

/-- The operands a mnemonic takes in its slots. -/
def Op.shapes : Op → List (List Slot)
  | .Add _ | .Sub _ | .Mul _ | .Div _ | .Rem _ | .Shl _ | .Shr _
  | .Index | .Alloc | .ArenaAlloc => [[.val, .val]]
  | .Neg _ | .ArenaDeref | .ArenaReset | .Free | .Declassify | .EraseToDyn
  | .CheckPre _ | .CheckPost _ | .CheckInv _ => [[.val]]
  | .SliceRange => [[.val, .val, .val]]
  | .Br => [[.block]]
  | .CondBr => [[.val, .block, .block]]
  | .TryBr => [[.inst, .block, .block]]
  | .Ret | .Raise => [[], [.val]]
  | .Trap => [[.kind]]
  | .Unreachable | .TileOp => [[]]
  | .Spawn | .Sync | .RegionEnter | .RegionExit => [[.region]]
  | _ => []

/-! ## Layout -/

/-- The pools while lines are laid out, with the roots of the places and, per instruction, the
value it defines. -/
structure Pools where
  vals : ValPool
  insts : InstPool
  roots : List UInt32
  dests : List (Option ValId)

def places_of (roots : List UInt32) : PlacePool :=
  ⟨roots.map fun root => ⟨root, ⟨0, 0⟩, 0⟩, []⟩

/-- The place of a root. -/
def intern_root (roots : List UInt32) (root : UInt32) : PlaceId × List UInt32 :=
  match roots.idxOf? root with
  | some i => (UInt32.ofNat i, roots)
  | none => (UInt32.ofNat roots.length, roots ++ [root])

def SeedSpec.push (roots : List UInt32) : SeedSpec → AliasSeed × List UInt32
  | .None => (.None, roots)
  | .Conv c => (.Conv c, roots)
  | .Own root => ((.Own (intern_root roots root).1), (intern_root roots root).2)
  | .Arena id => (.Arena id, roots)
  | .Split root side => ((.Split (intern_root roots root).1 side), (intern_root roots root).2)

/-- The three slots of the operands, the unused ones absent. -/
def slots_of (vs : List UInt32) : Slots :=
  (vs[0]?.getD NO_OPERAND, vs[1]?.getD NO_OPERAND, vs[2]?.getD NO_OPERAND)

def Operands.push (insts : InstPool) : Operands → Slots × InstPool
  | .slots vs => (slots_of (vs.map Prod.snd), insts)
  | .call sym args =>
    let (range, insts) := insts.push_operands args (args.map fun _ => .Let)
    let (idx, insts) := insts.push_call ⟨.Intrinsic sym, range⟩
    ((idx, NO_OPERAND, NO_OPERAND), insts)
  | .switch discr default arms =>
    let switch_arms := insts.switch_arms ++ arms
    let range : Range :=
      ⟨UInt32.ofNat insts.switch_arms.length, UInt32.ofNat switch_arms.length⟩
    let (idx, insts) :=
      { insts with switch_arms := switch_arms }.push_switch ⟨discr, default, range⟩
    ((idx, NO_OPERAND, NO_OPERAND), insts)

def Typed.row (v : Typed) (source : ValDef) : ValRow :=
  ⟨v.ty, v.flags, v.ct, source.encode⟩

def Line.row (l : Line) (slots : Slots) : InstRow :=
  ⟨l.op, slots.1, slots.2.1, slots.2.2, (l.dest.map fun dest => dest.1.ty).getD TY_UNIT, 0⟩

def Pools.push (p : Pools) (l : Line) : Pools :=
  let (slots, insts) := l.operands.push p.insts
  match l.dest with
  | none => ⟨p.vals, (insts.push (l.row slots) .None).2, p.roots, p.dests ++ [none]⟩
  | some (v, seed) =>
    let (alias_, roots) := seed.push p.roots
    let (inst_id, insts) := insts.push (l.row slots) alias_
    let (id, vals) := p.vals.push (v.row (.Inst inst_id))
    ⟨vals, insts, roots, p.dests ++ [some id]⟩

def ParamLine.entry (param : ParamLine) : ValRow × Option Range :=
  (param.typed.row (.Param param.ordinal), none)

/-- The pools before the first line. -/
def Pools.new (params : List ParamLine) : Pools :=
  ⟨⟨params.map ParamLine.entry⟩, ⟨[], [], [], [], [], [], [], []⟩, [], []⟩

def layout (params : List ParamLine) (ls : List Line) : Pools :=
  ls.foldl Pools.push (.new params)

def region_pool (regions : List RegionLine) : RegionPool :=
  regions.foldl (fun pool r => pool.push r.kind r.captures) ⟨[], []⟩

/-- The blocks of as many instructions each, from one on. The last one is the terminator. -/
def block_rows (rows : List InstRow) : Nat → List Nat → List BlockRow
  | _, [] => []
  | first, n :: ns =>
    let term := rows[first + n - 1]?.getD (.plain .Unreachable)
    ⟨UInt32.ofNat first, UInt32.ofNat (n - 1), term, 0⟩ :: block_rows rows (first + n) ns

namespace Listing

def pools (r : Listing) : Pools :=
  layout r.params r.blocks.flatten

def into_decl (r : Listing) : DeclFmir where
  decl := r.decl
  sig := r.sig
  vals := r.pools.vals
  blocks := block_rows r.pools.insts.rows 0 (r.blocks.map List.length)
  insts := r.pools.insts
  scopes := [.root ABSENT]
  places := places_of r.pools.roots
  regions := region_pool r.regions
  sites := []
  consts := .new
  obligations := []
  scoped_sources := []
  defers := []
  exits := ⟨[], [], [], [], []⟩
  entry := 0
  is_unsafe_invariant := r.is_unsafe_invariant
  fingerprint := 0

end Listing

/-! ## Well-formed listings -/

def Slot.InScope (nv nb : Nat) : Slot → UInt32 → Prop
  | .val, v => v.toNat < nv
  | .block, b => b.toNat < nb
  | .kind, k => k.toNat < 8
  | .inst, _ | .region, _ => True

namespace Operands

/-- The operands name the first `nv` values and `nb` blocks. -/
def InScope (nv nb : Nat) : Operands → Prop
  | .slots vs => ∀ v ∈ vs, v.1.InScope nv nb v.2
  | .call _ args => ∀ v ∈ args, v.toNat < nv
  | .switch discr default arms =>
    discr.toNat < nv ∧ default.toNat < nb ∧ ∀ arm ∈ arms, arm.target.toNat < nb

/-- The operands are of the form that the mnemonic takes. -/
def Fits (op : Op) : Operands → Prop
  | .slots vs => vs.map Prod.fst ∈ op.shapes
  | .call _ _ => op = .Intrinsic
  | .switch _ _ _ => op = .SwitchDiscr

/-- The words of the variable part. -/
def size : Operands → Nat
  | .slots _ => 0
  | .call _ args => args.length
  | .switch _ _ arms => arms.length

end Operands

/-- The flags a line can spell. -/
def Typed.Spelled (v : Typed) : Prop :=
  v.flags = SECRET ∨ v.flags = 0 ∨ v.flags = SECRET_UNSPECIFIED

structure Line.Wf (nv nb : Nat) (l : Line) : Prop where
  fits : l.operands.Fits l.op
  inScope : l.operands.InScope nv nb
  spelled : ∀ v seed, l.dest = some (v, seed) → v.Spelled

/-- The values that lines define. -/
def defs (ls : List Line) : Nat :=
  ls.countP fun l => l.dest.isSome

/-- Each line names values from above it. -/
def WfLines (nb : Nat) : Nat → List Line → Prop
  | _, [] => True
  | nv, l :: ls => l.Wf nv nb ∧ WfLines nb (nv + defs [l]) ls

/-- The words that must have been written for a list of lines. -/
def lines_size (ls : List Line) : Nat :=
  (ls.map fun l => l.operands.size + 1).sum

def regions_size (regions : List RegionLine) : Nat :=
  (regions.map fun r => (r.captures.getD []).length + 1).sum

namespace Listing

def size (r : Listing) : Nat :=
  regions_size r.regions + r.params.length + r.blocks.length + lines_size r.blocks.flatten

structure Wf (r : Listing) : Prop where
  lines : WfLines r.blocks.length r.params.length r.blocks.flatten
  params : ∀ param ∈ r.params, param.typed.Spelled
  nonempty : ∀ ls ∈ r.blocks, ls ≠ []
  blocks : r.blocks ≠ []

end Listing

/-! ## Lines one by one -/

section Lines

variable {params : List ParamLine} {ls ms : List Line} {l : Line} {nv nb : Nat}

@[simp] theorem layout_concat : layout params (ls ++ [l]) = (layout params ls).push l := by
  simp [layout]

@[simp] theorem defs_append : defs (ls ++ ms) = defs ls + defs ms :=
  List.countP_append

theorem defs_cons (l : Line) (ls : List Line) : defs (l :: ls) = defs [l] + defs ls := by
  rw [← defs_append, List.singleton_append]

@[simp] theorem lines_size_append : lines_size (ls ++ ms) = lines_size ls + lines_size ms := by
  simp [lines_size]

theorem wfLines_append : WfLines nb nv (ls ++ ms) ↔
    WfLines nb nv ls ∧ WfLines nb (nv + defs ls) ms := by
  induction ls generalizing nv with
  | nil => simp [WfLines, defs]
  | cons l ls ih =>
    rw [List.cons_append, WfLines, WfLines, ih, defs_cons l ls, and_assoc, Nat.add_assoc]

end Lines

end Fors.Fmir
