import Fors.Sigs.Encode

/-!
# Portable signatures

What a signature says, without the numbering of a build: a head is the path of its key, a name its
bytes, and an owner is the declaration, its parent or a path. `Ctx.sig` is what the tables show of
a declaration, with every list in the order it is stored in.
-/

namespace Fors.Sigs

open Fors.Ty Trees

/-- One row of a declaration key. -/
structure Segment where
  module : List Bytes
  kind : DeclKind
  name : Option Bytes
  disamb : UInt32
  deriving DecidableEq

/-- A declaration key by its rows, from the key outwards. -/
abbrev Path := List Segment

inductive Owner where
  | own
  | parent
  | key (path : Path)
  deriving DecidableEq

inductive Value where
  | I (v : BitVec 128)
  | B (v : Bool)
  | S (v : Bytes)
  deriving DecidableEq

/-- A constructor with what it holds besides types. -/
inductive Shape where
  | Error
  | Unit
  | Never
  | Prim (kind : Nat)
  | Nominal (path : Path)
  | Tuple
  | Fn (convs : List Conv) (raises closure : Bool)
  | Dyn (path : Path)
  | Param (owner : Owner) (ordinal : Nat)
  | Proj (path : Path) (name : Bytes)
  | Brand (owner : Owner) (ordinal : Nat)
  | ConstVal (v : Value)
  deriving DecidableEq

structure Mark where
  shape : Shape
  quals : Quals
  deriving DecidableEq

abbrev PTy := Rose Mark

structure PTraitRef where
  path : Path
  args : List PTy
  deriving DecidableEq

inductive PKind where
  | Type
  | Const (ty : PTy)
  | Brand
  | Callable (fn_ty : PTy)
  deriving DecidableEq

structure PGParam where
  kind : PKind
  bounds : List PTraitRef
  deriving DecidableEq

structure PParam where
  name : Bytes
  conv : Conv
  ty : PTy
  deriving DecidableEq

structure PFn where
  params : List PParam
  result : PTy
  raises : Option PTy
  scoped_ : UInt8
  receiver : UInt8
  contract_hash : BitVec 128
  deriving DecidableEq

structure PField where
  name : Bytes
  vis : UInt8
  ty : PTy
  deriving DecidableEq

inductive PPayload where
  | None
  | Tuple (tys : List PTy)
  | Record (fields : List PField)
  deriving DecidableEq

structure PVariant where
  name : Bytes
  payload : PPayload
  deriving DecidableEq

/-- An associated type: its bounds in a trait, its right-hand side in an impl. -/
structure PAssoc (α : Type) where
  name : Bytes
  what : α
  deriving DecidableEq

/-- The columns that a kind uses. -/
inductive Detail where
  | fn (f : Option PFn)
  | fields (fs : List PField)
  | variants (vs : List PVariant)
  | trait_ (assocs : List (PAssoc (List PTraitRef))) (items : List Path)
  | impl (self_ty : Option PTy) (trait_ref : Option PTraitRef) (assocs : List (PAssoc PTy))
      (items : List Path)
  | const (ty : Option PTy) (val : Option Value)
  | bare
  deriving DecidableEq

structure PConstraint where
  subject : PTy
  bounds : List PTraitRef
  deriving DecidableEq

structure PSig where
  kind : SigKind
  flags : UInt8
  generics : List PGParam
  constraints : List PConstraint
  detail : Detail
  deriving DecidableEq

/-! ## What the tables show -/

def name_of (names : Interner) : Option Symbol → Option (Option Bytes)
  | none => some none
  | some n => (names.resolve n).map some

/-- The rows from a key outwards, along at most `fuel` parents. -/
def path_within (keys : DeclKeyTable) (names : Interner) : Nat → DeclKeyId → Option Path
  | 0, _ => none
  | fuel + 1, key => do
    let row ← keys.rows[key]?
    let segs ← keys.segments row.module
    let segs ← segs.mapM names.resolve
    let name ← name_of names row.name
    let parent ← of_parent row.parent [] (path_within keys names fuel row.parent)
    return ⟨segs, row.kind, name, row.disamb⟩ :: parent

namespace Ctx

variable (c : Ctx)

def path (key : DeclKeyId) : Option Path :=
  if key = NO_DECL_KEY then none
  else path_within c.fir.keys c.names (c.fir.keys.rows.length + 1) key

def head (d : DefId) : Option Path :=
  c.path (c.key_of d)

def owner (d : DefId) : Option Owner :=
  let key := c.key_of d
  if key ≠ NO_DECL_KEY ∧ key = c.self_key then some .own
  else if key ≠ NO_DECL_KEY ∧ key = c.parent_key then some .parent
  else (c.path key).map .key

/-- A constant; an integer is an `i128`. -/
def value : ConstValue → Option Value
  | .I n => if -2 ^ 127 ≤ n ∧ n < 2 ^ 127 then some (.I (BitVec.ofInt 128 n)) else none
  | .B b => some (.B b)
  | .S s => (c.names.resolve s).map .S

/-- No fresh brand is in a signature, and no constant outside its pool. An ordinal is a `u16`. -/
def shape : Head → Option Shape
  | .Error => some .Error
  | .Unit => some .Unit
  | .Never => some .Never
  | .Prim kind => if kind < 15 then some (.Prim kind) else none
  | .Nominal d => (c.head d).map .Nominal
  | .Tuple => some .Tuple
  | .Fn convs raises closure => some (.Fn convs raises closure)
  | .Dyn d => (c.head d).map .Dyn
  | .Param o ordinal => if ordinal < 2 ^ 16 then (c.owner o).map fun o => .Param o ordinal else none
  | .Proj d name => do
    let path ← c.head d
    let name ← c.names.resolve name
    return .Proj path name
  | .Brand (.Param o ordinal) =>
    if ordinal < 2 ^ 16 then (c.owner o).map fun o => .Brand o ordinal else none
  | .Brand (.Fresh _ _) => none
  | .ConstVal (some v) => (c.value v).map .ConstVal
  | .ConstVal none => none

/-- The columns that a constructor leaves unused are zero, as the typed constructors set them. -/
def mark (l : Label) : Option Mark :=
  if l.spare = (0, 0) then (c.shape l.head).map fun shape => ⟨shape, l.quals⟩ else none

mutual

def pty : Rose Label → Option PTy
  | .node l cs => do
    let m ← c.mark l
    let us ← ptys cs
    return .node m us

def ptys : List (Rose Label) → Option (List PTy)
  | [] => some []
  | t :: ts => do
    let u ← pty t
    let us ← ptys ts
    return u :: us

end

def ty (t : TyId) : Option PTy :=
  if t < c.fir.tys.rows.length then c.pty (c.fir.tys.tree t) else none

def optional_ty (t : TyId) : Option (Option PTy) :=
  if t = NO_TY then some none else (c.ty t).map some

def trait_ref (tr : TraitRefId) : Option PTraitRef := do
  let (td, args) ← c.fir.tys.trait_refs[tr]?
  let xs ← c.fir.tys.args_at args
  let args ← xs.mapM c.ty
  let path ← c.head td
  return ⟨path, args⟩

def bounds (list : TraitRefListId) : Option (List PTraitRef) := do
  let bounds ← c.fir.sigs.bounds[list]?
  bounds.mapM c.trait_ref

def gparam_kind : GParamKind → Option PKind
  | .Type => some .Type
  | .Const ty => (c.ty ty).map .Const
  | .Brand => some .Brand
  | .Callable fn_ty => (c.ty fn_ty).map .Callable

def gparam (p : GParam) : Option PGParam := do
  let kind ← c.gparam_kind p.kind
  let bounds ← c.bounds p.bounds
  return ⟨kind, bounds⟩

def constraint (e : TyId × TraitRefListId) : Option PConstraint := do
  let subject ← c.ty e.1
  let bounds ← c.bounds e.2
  return ⟨subject, bounds⟩

def param (p : Param) : Option PParam := do
  let name ← c.names.resolve p.name
  let ty ← c.ty p.ty
  return ⟨name, p.conv, ty⟩

def fn_sig (id : FnSigId) : Option (Option PFn) :=
  if id = NO_FN_SIG then some none
  else do
    let f ← c.fir.sigs.fn_sigs[id]?
    let params ← f.params.mapM c.param
    let result ← c.ty f.result
    let raises ← c.optional_ty f.raises
    return some ⟨params, result, raises, f.scoped_, f.receiver, f.contract_hash⟩

def field (m : Member) : Option PField := do
  let name ← c.names.resolve m.name
  let ty ← c.ty m.ty
  return ⟨name, m.vis, ty⟩

def fields (list : MemberListId) : Option (List PField) := do
  let ms ← c.fir.sigs.member_store[list]?
  ms.mapM c.field

def payload (m : Member) : Option PPayload :=
  match m.payload with
  | .None => some .None
  | .Tuple => do
    let xs ← c.fir.tys.args_at m.args
    let tys ← xs.mapM c.ty
    return .Tuple tys
  | .Record => (c.fields m.sub).map .Record

def variant_ (m : Member) : Option PVariant := do
  let name ← c.names.resolve m.name
  let payload ← c.payload m
  return ⟨name, payload⟩

def variants (list : MemberListId) : Option (List PVariant) := do
  let ms ← c.fir.sigs.member_store[list]?
  ms.mapM c.variant_

/-- The keys of the items of a list. -/
def items (list : MemberListId) : Option (List Path) := do
  let ms ← c.fir.sigs.member_store[list]?
  (ms.filter fun m => m.kind = .Item).mapM fun m => c.head m.def_

def assoc {α : Type} (what : Assoc → Option α) (e : Assoc) : Option (PAssoc α) := do
  let name ← c.names.resolve e.name
  let what ← what e
  return ⟨name, what⟩

def assocs {α : Type} (what : Assoc → Option α) (list : AssocListId) :
    Option (List (PAssoc α)) := do
  let entries ← c.fir.sigs.assocs[list]?
  entries.mapM (c.assoc what)

def impl_trait_ref (tr : TraitRefId) : Option (Option PTraitRef) :=
  if tr = NO_TRAIT_REF then some none else (c.trait_ref tr).map some

def const_val (val : ConstId) : Option (Option Value) :=
  if val = NO_CONST then some none
  else do
    let v ← c.fir.tys.consts[val]?
    let v ← c.value v
    return some v

def detail (row : SigRow) : Option Detail :=
  match row.kind with
  | .Fn | .ExternFn => (c.fn_sig row.fn_sig).map .fn
  | .Struct => (c.fields row.members).map .fields
  | .Enum => (c.variants row.members).map .variants
  | .Trait => do
    let assocs ← c.assocs (fun e => c.bounds e.bounds) row.assoc
    let items ← c.items row.members
    return .trait_ assocs items
  | .Impl => do
    let self_ty ← c.optional_ty row.self_ty
    let trait_ref ← c.impl_trait_ref row.trait_ref
    let assocs ← c.assocs (fun e => c.ty e.rhs) row.assoc
    let items ← c.items row.members
    return .impl self_ty trait_ref assocs items
  | .Const => do
    let ty ← c.optional_ty row.const_ty
    let val ← c.const_val row.const_val
    return .const ty val
  | .Poisoned | .Absent => some .bare

def sig (def_ : DefId) : Option PSig := do
  let row ← c.fir.sigs.rows[def_]?
  let g ← c.fir.sigs.generics_store[row.generics]?
  let generics ← g.params.mapM c.gparam
  let list ← c.fir.sigs.constraints[g.constraints]?
  let constraints ← list.mapM c.constraint
  let detail ← c.detail row
  return ⟨row.kind, row.flags, generics, constraints, detail⟩

end Ctx

/-- What an encoding of `def_` reads. -/
def ctx_of (fir : Fir) (names : Interner) (def_ : DefId) (policy : FingerprintPolicy) :
    Option Ctx := do
  let self_key := fir.defs.key_of def_
  let parent_key ← parent_key fir self_key
  return ⟨fir, names, policy, self_key, parent_key⟩

/-- The signature that the tables show of a declaration. -/
def signature (fir : Fir) (names : Interner) (def_ : DefId) : Option PSig := do
  let c ← ctx_of fir names def_ FINGERPRINT_POLICY
  c.sig def_

/-! ## Bytes -/

def Segment.bytes (s : Segment) : Bytes :=
  uleb s.module.length ++ s.module.flatMap write_bytes ++ [s.kind.as_u8] ++
    (s.name.elim [0] fun name => 1 :: write_bytes name) ++ uleb s.disamb.toNat

def path_bytes : Path → Bytes
  | [] => [2]
  | s :: p => (if p = [] then [0] else 1 :: path_bytes p) ++ s.bytes

def Owner.bytes : Owner → Bytes
  | .own => 0 :: uleb 0
  | .parent => 0 :: uleb 1
  | .key p => 1 :: path_bytes p

def Value.bytes : Value → Bytes
  | .I v => 1 :: write_u128 v
  | .B b => [2, UInt8.ofNat b.toNat]
  | .S bytes => 3 :: write_bytes bytes

def Shape.tag : Shape → TyTag
  | .Error => .Error
  | .Unit => .Unit
  | .Never => .Never
  | .Prim _ => .Prim
  | .Nominal _ => .Nominal
  | .Tuple => .Tuple
  | .Fn _ _ _ => .Fn
  | .Dyn _ => .Dyn
  | .Param _ _ => .Param
  | .Proj _ _ => .Proj
  | .Brand _ _ => .Brand
  | .ConstVal _ => .ConstVal

/-- An entry after its tag and qualifiers, given the positions of the children. -/
def Shape.payload (refs : List Nat) : Shape → Bytes
  | .Error | .Unit | .Never => []
  | .Prim kind => [UInt8.ofNat kind]
  | .Nominal p | .Dyn p => path_bytes p ++ Ctx.list_refs refs
  | .Tuple => Ctx.list_refs refs
  | .Fn convs raises closure =>
    [Ctx.fn_flags closure raises] ++ uleb convs.length ++
      (convs.zip refs).flatMap Ctx.fn_param ++ (refs.drop convs.length).flatMap uleb
  | .Param o ordinal | .Brand o ordinal => o.bytes ++ uleb ordinal
  | .Proj p name =>
    (refs.take 1).flatMap uleb ++ path_bytes p ++ Ctx.list_refs (refs.drop 1) ++ write_bytes name
  | .ConstVal v => v.bytes ++ refs.flatMap uleb

def Mark.entry (m : Mark) (refs : List Nat) : Bytes :=
  [entry_tag m.shape.tag, UInt8.ofNat m.quals.toNat] ++ m.shape.payload refs

mutual

/-- The types that a type adds to those seen, each after its children. -/
def visit : PTy → List PTy → List PTy
  | .node m cs, seen =>
    if .node m cs ∈ seen then seen else visits cs seen ++ [.node m cs]

def visits : List PTy → List PTy → List PTy
  | [], seen => seen
  | t :: ts, seen => visits ts (visit t seen)

end

/-- The entry of a type among those of the section. -/
def entry_of (seen : List PTy) (t : PTy) : Bytes :=
  t.label.entry (t.children.map fun u => seen.idxOf u)

def ty_section (seen : List PTy) : Bytes :=
  seen.flatMap (entry_of seen)

def PTraitRef.bytes (seen : List PTy) (r : PTraitRef) : Bytes :=
  path_bytes r.path ++ Ctx.list_refs (r.args.map fun t => seen.idxOf t)

/-- An encoding of its own, with its own positions. -/
def PTraitRef.canon (r : PTraitRef) : Bytes :=
  let seen := visits r.args []
  uleb seen.length ++ ty_section seen ++ r.bytes seen

def canon_ty (t : PTy) : Bytes :=
  let seen := visit t []
  uleb seen.length ++ ty_section seen

/-! ## The order of emission -/

def sort_bounds (bounds : List PTraitRef) : List PTraitRef :=
  sort_by PTraitRef.canon bounds

/-- What the constraint entries are sorted by: the bounds are in the order of the store. -/
def PConstraint.key (e : PConstraint) : Bytes :=
  canon_ty e.subject ++ e.bounds.flatMap PTraitRef.canon

def PConstraint.arrange (e : PConstraint) : PConstraint :=
  ⟨e.subject, sort_bounds e.bounds⟩

def PGParam.arrange (p : PGParam) : PGParam :=
  ⟨p.kind, sort_bounds p.bounds⟩

def arrange_assocs {α : Type} (f : α → α) (assocs : List (PAssoc α)) : List (PAssoc α) :=
  (sort_by PAssoc.name assocs).map fun e => ⟨e.name, f e.what⟩

def Detail.arrange : Detail → Detail
  | .trait_ assocs items => .trait_ (arrange_assocs sort_bounds assocs) items
  | .impl self_ty trait_ref assocs items =>
    .impl self_ty trait_ref (arrange_assocs id assocs) items
  | d => d

/-- The signature with its unordered lists in the order they are emitted in. -/
def PSig.arrange (s : PSig) : PSig :=
  { s with
    generics := s.generics.map PGParam.arrange
    constraints := (sort_by PConstraint.key s.constraints).map PConstraint.arrange
    detail := s.detail.arrange }

/-! ## The structure section

For each part the types it mentions, in the order they are emitted in, and its bytes. -/

def bounds_tys (bounds : List PTraitRef) : List PTy :=
  bounds.flatMap PTraitRef.args

def bounds_bytes (seen : List PTy) (bounds : List PTraitRef) : Bytes :=
  uleb bounds.length ++ bounds.flatMap (PTraitRef.bytes seen)

def ref_bytes (seen : List PTy) (t : PTy) : Bytes :=
  uleb (seen.idxOf t)

namespace PKind

def tys : PKind → List PTy
  | .Const t | .Callable t => [t]
  | .Type | .Brand => []

def tag : PKind → UInt8
  | .Type => 0
  | .Const _ => 1
  | .Brand => 2
  | .Callable _ => 3

def bytes (seen : List PTy) (k : PKind) : Bytes :=
  k.tys.flatMap (ref_bytes seen)

end PKind

def PGParam.tys (p : PGParam) : List PTy :=
  p.kind.tys ++ bounds_tys p.bounds

def PGParam.bytes (seen : List PTy) (p : PGParam) : Bytes :=
  p.kind.tag :: p.kind.bytes seen ++ bounds_bytes seen p.bounds

def PConstraint.tys (e : PConstraint) : List PTy :=
  e.subject :: bounds_tys e.bounds

def PConstraint.bytes (seen : List PTy) (e : PConstraint) : Bytes :=
  ref_bytes seen e.subject ++ bounds_bytes seen e.bounds

def PParam.bytes (seen : List PTy) (p : PParam) : Bytes :=
  write_bytes p.name ++ [conv_as_u8 p.conv] ++ ref_bytes seen p.ty

def PField.bytes (seen : List PTy) (f : PField) : Bytes :=
  write_bytes f.name ++ [f.vis] ++ ref_bytes seen f.ty

/-- A list with its length. -/
def counted {α : Type} (bytes : α → Bytes) (xs : List α) : Bytes :=
  uleb xs.length ++ xs.flatMap bytes

def PFn.tys (f : PFn) : List PTy :=
  f.params.map PParam.ty ++ f.result :: f.raises.toList

def PFn.bytes (seen : List PTy) (f : PFn) : Bytes :=
  counted (PParam.bytes seen) f.params ++ ref_bytes seen f.result ++
    (f.raises.elim [0] fun t => 1 :: ref_bytes seen t) ++ [f.scoped_, f.receiver] ++
    write_u128 f.contract_hash

/-- A function whose signature was not lowered. -/
def no_fn_bytes : Bytes :=
  uleb 0 ++ uleb 0 ++ [0, NO_SLOT, NO_SLOT] ++ write_u128 0

namespace PPayload

def tys : PPayload → List PTy
  | .None => []
  | .Tuple ts => ts
  | .Record fs => fs.map PField.ty

def kind : PPayload → PayloadKind
  | .None => .None
  | .Tuple _ => .Tuple
  | .Record _ => .Record

def bytes (seen : List PTy) : PPayload → Bytes
  | .None => []
  | .Tuple ts => counted (ref_bytes seen) ts
  | .Record fs => counted (PField.bytes seen) fs

end PPayload

def PVariant.bytes (seen : List PTy) (v : PVariant) : Bytes :=
  write_bytes v.name ++ [v.payload.kind.as_u8] ++ v.payload.bytes seen

def PAssoc.bytes {α : Type} (what : α → Bytes) (e : PAssoc α) : Bytes :=
  write_bytes e.name ++ what e.what

/-- The position of a type, or the marker of an absent one. -/
def optional_bytes (seen : List PTy) (t : Option PTy) : Bytes :=
  t.elim (uleb (2 ^ 32 - 1)) (ref_bytes seen)

def trait_ref_bytes (seen : List PTy) (r : Option PTraitRef) : Bytes :=
  r.elim [0] fun r => 1 :: r.bytes seen

def value_bytes (v : Option Value) : Bytes :=
  v.elim [0] fun v => 1 :: v.bytes

namespace Detail

def tys : Detail → List PTy
  | .fn f => f.elim [] PFn.tys
  | .fields fs => fs.map PField.ty
  | .variants vs => vs.flatMap fun v => v.payload.tys
  | .trait_ assocs _ => assocs.flatMap fun e => bounds_tys e.what
  | .impl self_ty trait_ref assocs _ =>
    self_ty.toList ++ trait_ref.elim [] PTraitRef.args ++ assocs.map PAssoc.what
  | .const ty _ => ty.toList
  | .bare => []

def bytes (seen : List PTy) : Detail → Bytes
  | .fn f => f.elim no_fn_bytes (PFn.bytes seen)
  | .fields fs => counted (PField.bytes seen) fs
  | .variants vs => counted (PVariant.bytes seen) vs
  | .trait_ assocs items =>
    counted (PAssoc.bytes (bounds_bytes seen)) assocs ++ counted path_bytes items
  | .impl self_ty trait_ref assocs items =>
    optional_bytes seen self_ty ++ trait_ref_bytes seen trait_ref ++
      counted (PAssoc.bytes (ref_bytes seen)) assocs ++ counted path_bytes items
  | .const ty val => optional_bytes seen ty ++ value_bytes val
  | .bare => []

end Detail

namespace PSig

def tys (s : PSig) : List PTy :=
  s.generics.flatMap PGParam.tys ++ s.constraints.flatMap PConstraint.tys ++ s.detail.tys

def bytes (seen : List PTy) (s : PSig) : Bytes :=
  [s.kind.as_u8, s.flags] ++ counted (PGParam.bytes seen) s.generics ++
    counted (PConstraint.bytes seen) s.constraints ++ s.detail.bytes seen

/-- The canonical bytes of a signature whose lists are in the order of emission. -/
def wire (s : PSig) : Bytes :=
  let seen := visits s.tys []
  MAGIC ++ [FINGERPRINT_POLICY.to_byte] ++ uleb seen.length ++ ty_section seen ++ s.bytes seen

end PSig

end Fors.Sigs
