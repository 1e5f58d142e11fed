import Fors.Diag.Suggested
import Fors.Index.Module

/-!
# Scopes

What a name can mean inside one declaration: the frames of local bindings, the module's own names
and imports, the prelude, and of other modules their export tables only. A symbol is kept as the
text it was interned for.

Sources: `crates/fors-resolve/src/items.rs`, `crates/fors-resolve/src/scope.rs`,
`crates/fors-resolve/src/target.rs`, `crates/fors-resolve/src/paths.rs`.
-/

namespace Fors.Resolve

open Diag

open Index (Symbol Range join_dotted)

/-! ## Targets -/

/-- A module-scope or prelude entity. -/
inductive Entity where
  | Item (file decl : Nat)
  | Module (m : Nat)
  | Variant (file decl : Nat) (index : UInt32)
  | PreludeType (s : Symbol)
  | PreludeValue (s : Symbol)
  | PreludeModule (s : Symbol) (m : Option Nat)
  | Poisoned
  deriving DecidableEq

inductive DeferReason where
  | Diagnosed
  | StdAbsent
  | Member
  deriving DecidableEq

/-- What one name-use tree node resolves to. -/
inductive ResolvedTarget where
  | Entity (e : Entity)
  | Local (node : UInt32)
  | Deferred (reason : DeferReason)
  deriving DecidableEq

/-- A row of the side table of name uses. -/
structure NameUse where
  node : UInt32
  target : ResolvedTarget
  consumed : UInt8
  deriving DecidableEq

/-- One file's name-use side table. -/
structure NameUseTable where
  rows : List NameUse
  sorted : Bool
  deriving DecidableEq

/-- Records `target` at `node`, having consumed `consumed` of the path's segments (1 for anything
that is not a multi-segment path). -/
def NameUseTable.push (t : NameUseTable) (node : UInt32) (target : ResolvedTarget)
    (consumed : UInt8) : NameUseTable where
  rows := t.rows ++ [⟨node, target, consumed⟩]
  sorted := false

/-! ## Diagnostics -/

inductive Code where
  | N (rule : Nat)
  deriving DecidableEq

structure Diagnostic where
  start : UInt32
  end_ : UInt32
  code : Code
  message : String
  fixes : List Fix
  deriving DecidableEq

/-! ## Modules -/

inductive Origin where
  | Item
  | Use
  deriving DecidableEq

inductive Visibility where
  | Private
  | Public
  deriving DecidableEq

/-- One name of a module scope; the variants are there where it denotes an enum. -/
structure Row where
  name : Symbol
  entity : Entity
  origin : Origin
  vis : Visibility
  variants : List Symbol

/-- One module's name table. -/
structure ModuleScope where
  rows : List Row
  index : Symbol → Option (Fin rows.length)

/-- The result of asking a module for one of its names from outside. -/
inductive Export where
  | Public (row : Row)
  | Private

namespace ModuleScope

def lookup (s : ModuleScope) (name : Symbol) : Option Row :=
  (s.index name).map s.rows.get

/-- What another module may learn about a name. -/
def export_ (s : ModuleScope) (name : Symbol) : Option Export :=
  (s.lookup name).bind fun row =>
    match row.vis, row.origin with
    | .Public, _ => some (.Public row)
    | _, .Item => some .Private
    | _, _ => none

end ModuleScope

structure Prelude where
  entities : Symbol → Option Entity
  variant_names : Symbol → Option (List Symbol)

def Prelude.get (p : Prelude) (name : Symbol) : Option Entity :=
  p.entities name

def Prelude.variants (p : Prelude) (name : Symbol) : List Symbol :=
  (p.variant_names name).getD []

/-- The only view of other modules that body resolution gets. -/
structure Exports where
  scopes : List ModuleScope

def Exports.get (x : Exports) (m : Nat) (name : Symbol) : Option Export :=
  x.scopes[m]?.bind fun s => s.export_ name

structure ModuleTable where
  name : List (List Symbol)
  by_name : List Symbol → Option Nat

def ModuleTable.find (t : ModuleTable) (segs : List Symbol) : Option Nat :=
  t.by_name segs

/-! ## Names the compiler knows -/

def STD_MODULES : List Symbol :=
  ["io", "fs", "net", "proc", "time", "rand", "env", "gpu", "mem", "ffi"]

def is_std_module (name : Symbol) : Bool :=
  STD_MODULES.contains name

/-- Every prelude name that a misspelling may have meant. -/
def prelude_names : List Symbol :=
  ["i8", "i16", "i32", "i64", "u8", "u16", "u32", "u64", "isize", "usize", "f32", "f64", "bool",
    "Str", "Slice", "Array", "vector", "mask", "atomic", "rawptr", "Own", "Ref", "Arena", "Option",
    "Shared", "ErrorFrom", "never", "Range", "RangeIncl", "Copyable", "Eq", "Ord", "Add", "Sub",
    "Mul", "Div", "Rem", "Neg", "BitAnd", "BitOr", "BitXor", "Shl", "Shr", "Iterator", "Index",
    "IndexMut", "Allocator", "AllocError", "PageAllocator", "Buffer", "Vec", "Map", "String",
    "Utf8Error", "Linear", "Droppable", "some", "none", "reduce"]

/-! ## Nodes -/

inductive TokenKind where
  | Ident
  | Dot
  | Other
  deriving DecidableEq

structure Token where
  kind : TokenKind
  text : Symbol
  range : Range

/-- A node at a name-use position: the tokens before its first child, and the bytes of its whole
subtree. -/
structure PathNode where
  id : UInt32
  own : List Token
  byte_range : Range

/-- The identifiers a node owns directly. -/
def segments_with_ranges (node : PathNode) : List (Symbol × Range) :=
  (node.own.filter fun t => t.kind = .Ident).map fun t => (t.text, t.range)

inductive RootKind where
  | UseDecl
  | ModuleHdr
  | Other
  deriving DecidableEq

/-! ## The context of a body -/

structure BodyCtx where
  /-- The children of the file's root. -/
  root : List (RootKind × Range)
  modules : ModuleTable
  exports : Exports
  prelude : Prelude
  module : ModuleScope
  diags : List Diagnostic
  uses : NameUseTable
  /-- The innermost frame is the last. -/
  frames : List (List (Symbol × UInt32))
  fn_params : List Symbol

inductive Found where
  | Local (node : UInt32)
  | Entity (e : Entity) (variants : List Symbol)

namespace BodyCtx

def lookup (c : BodyCtx) (name : Symbol) : Option Found :=
  match c.frames.reverse.findSome? fun f => f.find? fun b => b.1 = name with
  | some b => some (.Local b.2)
  | none =>
    match c.module.lookup name with
    | some row => some (.Entity row.entity row.variants)
    | none => (c.prelude.get name).map fun e => .Entity e (c.prelude.variants name)

/-- Where a new `use` belongs, and whether it goes behind an item. -/
def use_insertion_point (c : BodyCtx) : UInt32 × Bool :=
  let at_ := c.root.foldl (fun at_ child =>
    if child.1 = .UseDecl ∨ child.1 = .ModuleHdr then some child.2.2 else at_) none
  match at_ with
  | some a => (a, true)
  | none => (0, false)

/-- The name in scope here that is most likely meant. -/
def nearest_name_in_scope (c : BodyCtx) (name : Symbol) : Option Symbol :=
  let candidates := c.frames.flatten.map Prod.fst ++ c.fn_params ++ c.module.rows.map Row.name ++
    prelude_names
  (suggest_in (Utf8.bytes name) (candidates.map Utf8.bytes)).bind fun b =>
    candidates.find? fun s => Utf8.bytes s = b

def record (c : BodyCtx) (node : UInt32) (target : ResolvedTarget) (consumed : UInt8) : BodyCtx :=
  { c with uses := c.uses.push node target consumed }

def report (c : BodyCtx) (range : Range) (rule : Nat) (message : String) (fixes : List Fix) :
    BodyCtx :=
  { c with diags := c.diags ++ [⟨range.1, range.2, .N rule, message, fixes⟩] }

/-- The first segment means nothing here. -/
def unresolved_head (c : BodyCtx) (node : PathNode) (name0 : Symbol) (range0 : Range)
    (segments : Nat) : BodyCtx :=
  let std_head := 1 < segments && is_std_module name0
  let msg :=
    if std_head then
      "unresolved name (add `use std." ++ name0 ++ ";` to import the std module `" ++ name0 ++ "`)"
    else "unresolved name"
  let own_module := std_head && (c.modules.find [name0]).isSome
  let fix :=
    if own_module then none
    else if std_head then
      let (at_, after_item) := c.use_insertion_point
      let text :=
        if after_item then "\nuse std." ++ name0 ++ ";" else "use std." ++ name0 ++ ";\n"
      some ⟨"add `use std." ++ name0 ++ ";`", .InsertStdImport, [⟨at_, at_, text⟩]⟩
    else
      (c.nearest_name_in_scope name0).map fun s =>
        ⟨"did you mean `" ++ s ++ "`?", .ReplaceIdentifier, [⟨range0.1, range0.2, s⟩]⟩
  (c.report range0 14 msg fix.toList).record node.id (.Deferred .Diagnosed) 0

def ends_on_module (c : BodyCtx) (node : PathNode) (idx : Nat) : BodyCtx :=
  (c.report node.byte_range 16 "the path ends on a module; a module is not a value or a type"
    []).record node.id (.Deferred .Diagnosed) idx.toUInt8

/-- The segment is no name that the module gives away. -/
def not_exported (c : BodyCtx) (node : PathNode) (m : Nat) (range : Range)
    (other : Option Export) (idx : Nat) : BodyCtx :=
  let mname := (c.modules.name[m]?.map join_dotted).getD ""
  let (code, msg) :=
    if other.isSome then (10, "this item of module `" ++ mname ++ "` is not `pub`")
    else (16, "module `" ++ mname ++ "` has no `pub` module-scope name at this segment")
  (c.report range code msg []).record node.id (.Deferred .Diagnosed) idx.toUInt8

/-- The loop, in at most `fuel` rounds: `head` is what the segments before `idx` denote. -/
def follow (c : BodyCtx) (node : PathNode) (segs : List (Symbol × Range)) :
    Nat → Entity → List Symbol → Nat → Option BodyCtx
  | 0, _, _, _ => none
  | fuel + 1, head, variants, idx =>
    match head with
    | .Module mid =>
      match segs[idx]? with
      | none => some (c.ends_on_module node idx)
      | some (sn, sr) =>
        match c.exports.get mid sn with
        | some (.Public row) => c.follow node segs fuel row.entity row.variants (idx + 1)
        | other => some (c.not_exported node mid sr other idx)
    | .PreludeModule _ m =>
      if idx < segs.length then
        match m with
        | some mid => c.follow node segs fuel (.Module mid) variants idx
        -- `std` is not part of this build: the rest is left to the checker
        | none => some (c.record node.id (.Deferred .StdAbsent) idx.toUInt8)
      else some (c.ends_on_module node idx)
    | .Poisoned => some (c.record node.id (.Deferred .Diagnosed) idx.toUInt8)
    | .Item file decl =>
      match segs[idx]?.bind fun s => variants.idxOf? s.1 with
      | some i =>
        some (c.record node.id (.Entity (.Variant file decl i.toUInt32)) (idx + 1).toUInt8)
      | none => some (c.record node.id (.Entity (.Item file decl)) idx.toUInt8)
    | head => some (c.record node.id (.Entity head) idx.toUInt8)

/-- Rule 16: a dotted path, segment by segment. -/
def resolve_path_within (c : BodyCtx) (node : PathNode) (fuel : Nat) : Option BodyCtx :=
  match segments_with_ranges node with
  | [] => some c
  | (name0, range0) :: tail =>
    match c.lookup name0 with
    | none => some (c.unresolved_head node name0 range0 (tail.length + 1))
    | some (.Local n) => some (c.record node.id (.Local n) 1)
    | some (.Entity e v) => c.follow node ((name0, range0) :: tail) fuel e v 1

end BodyCtx

end Fors.Resolve
