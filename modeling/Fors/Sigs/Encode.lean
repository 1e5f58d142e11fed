import Mathlib.Data.List.Lex
import Fors.Lib.LittleEndian
import Fors.Fmir.Encode
import Fors.Sigs.Reached

/-!
# The signature encoding

Types are emitted post-order into a section of their own and referred to by their position in it.
Every unordered list is sorted by bytes taken from an encoding of its own before it is emitted.
`none` is a panic: an id of another store, or a declaration key whose parents do not end.

Source: `crates/fors-fir/src/encode.rs`.
-/

namespace Fors.Sigs

open Fors.Ty LittleEndian

def MAGIC : Bytes := [0x46, 0x49, 0x52, 0x31]

def E_ERROR : UInt8 := 1
def E_UNIT : UInt8 := 2
def E_NEVER : UInt8 := 3
def E_PRIM : UInt8 := 4
def E_NOMINAL : UInt8 := 5
def E_TUPLE : UInt8 := 6
def E_FN : UInt8 := 7
def E_DYN : UInt8 := 8
def E_PARAM : UInt8 := 9
def E_PROJ : UInt8 := 10
def E_BRAND : UInt8 := 11
def E_CONSTVAL : UInt8 := 12

def FN_CLOSURE : UInt8 := 1
def FN_RAISES : UInt8 := 2

/-- The tag of a type entry. -/
def entry_tag : TyTag → UInt8
  | .Error => E_ERROR
  | .Unit => E_UNIT
  | .Never => E_NEVER
  | .Prim => E_PRIM
  | .Nominal => E_NOMINAL
  | .Tuple => E_TUPLE
  | .Fn => E_FN
  | .Dyn => E_DYN
  | .Param => E_PARAM
  | .Proj => E_PROJ
  | .Brand => E_BRAND
  | .ConstVal => E_CONSTVAL

structure FingerprintPolicy where
  include_const_value : Bool
  exclude_gparam_names : Bool
  sort_bound_lists : Bool
  deriving DecidableEq

def FingerprintPolicy.to_byte (p : FingerprintPolicy) : UInt8 :=
  UInt8.ofNat p.include_const_value.toNat ||| (UInt8.ofNat p.exclude_gparam_names.toNat <<< 1) |||
    (UInt8.ofNat p.sort_bound_lists.toNat <<< 2)

def FINGERPRINT_POLICY : FingerprintPolicy := ⟨true, true, true⟩

/-! ## Bytes -/

def uleb (v : Nat) : Bytes :=
  let byte := UInt8.ofNat (v &&& 0x7F)
  if v >>> 7 = 0 then [byte] else (byte ||| 0x80) :: uleb (v >>> 7)
termination_by v
decreasing_by
  rename_i h
  rw [Nat.shiftRight_eq_div_pow] at h ⊢
  omega

def write_bytes (bytes : Bytes) : Bytes :=
  uleb bytes.length ++ bytes

def write_u128 (v : BitVec 128) : Bytes :=
  le_bytes 16 v.toNat

/-- `x.cmp(y)` on byte strings, as their order. -/
def cmp_key (bytes : Bytes) : List Nat :=
  bytes.map UInt8.toNat

/-- `sort_by` of the keys, which keeps the order of entries with one key. -/
def sort_by {α : Type} (key : α → Bytes) (xs : List α) : List α :=
  xs.insertionSort fun x y => cmp_key (key x) ≤ cmp_key (key y)

/-! ## Keys and values -/

def write_name (names : Interner) : Option Symbol → Option Bytes
  | none => some [0]
  | some n => (names.resolve n).map fun bytes => 1 :: write_bytes bytes

/-- What a key without parent starts with, or what its parent's does. -/
def of_parent {α : Type} (parent : DeclKeyId) (root : α) (rest : Option α) : Option α :=
  if parent = NO_DECL_KEY then some root else rest

/-- `write_decl_key`, along at most `fuel` parents. -/
def decl_key_bytes (keys : DeclKeyTable) (names : Interner) : Nat → DeclKeyId → Option Bytes
  | 0, _ => none
  | fuel + 1, key =>
    if key = NO_DECL_KEY then some [2]
    else do
      let row ← keys.rows[key]?
      let parent ← of_parent row.parent [0]
        ((decl_key_bytes keys names fuel row.parent).map fun bytes => 1 :: bytes)
      let segs ← keys.segments row.module
      let segs ← segs.mapM names.resolve
      let name ← write_name names row.name
      return parent ++ uleb segs.length ++ segs.flatMap write_bytes ++ [row.kind.as_u8] ++ name ++
        uleb row.disamb.toNat

/-- A chain of parents longer than the table comes back to a key, and is followed forever. -/
def write_decl_key (keys : DeclKeyTable) (names : Interner) (key : DeclKeyId) : Option Bytes :=
  decl_key_bytes keys names (keys.rows.length + 1) key

def write_const_value (names : Interner) : ConstValue → Option Bytes
  | .I n => some (1 :: write_u128 (BitVec.ofInt 128 n))
  | .B b => some [2, UInt8.ofNat b.toNat]
  | .S s => (names.resolve s).map fun bytes => 3 :: write_bytes bytes

/-! ## Types -/

/-- What an encoding reads. -/
structure Ctx where
  fir : Fir
  names : Interner
  policy : FingerprintPolicy
  self_key : DeclKeyId
  parent_key : DeclKeyId

/-- What an encoding writes. -/
structure Enc where
  tys : Bytes
  body : Bytes
  pos : List (TyId × Nat)
  next : Nat
  deriving DecidableEq

def Enc.new : Enc := ⟨[], [], [], 0⟩

abbrev EncM := StateT Enc Option

/-- The positions of a type's children, with what else its entry needs. -/
structure Refs where
  head_ref : Nat
  child_refs : List Nat
  param_convs : List Conv
  result_ref : Nat
  raises_ref : Option Nat
  closure : Bool
  const_ty_ref : Nat

def Refs.none : Refs := ⟨0, [], [], 0, .none, false, 0⟩

namespace Ctx

variable (c : Ctx)

def key_of (d : DefId) : DeclKeyId :=
  c.fir.defs.key_of d

def write_head (d : DefId) : Option Bytes :=
  write_decl_key c.fir.keys c.names (c.key_of d)

/-- A parameter or brand owner. -/
def write_owner (owner : DefId) : Option Bytes :=
  let key := c.key_of owner
  if key ≠ NO_DECL_KEY ∧ key = c.self_key then some (0 :: uleb 0)
  else if key ≠ NO_DECL_KEY ∧ key = c.parent_key then some (0 :: uleb 1)
  else (write_decl_key c.fir.keys c.names key).map fun bytes => 1 :: bytes

/-- The type a signature raises, where it is there. -/
def emit_raises (emit : TyId → EncM Nat) (raises : TyId) : EncM (Option Nat) :=
  if raises = NO_TY then return none
  else do
    let r ← emit raises
    return some r

/-- Children first: this may append entries of its own. -/
def emit_children (emit : TyId → EncM Nat) (tag : TyTag) (a b : Nat) : EncM Refs :=
  match tag with
  | .Nominal | .Tuple => do
    let xs ← c.fir.tys.args_at b
    let refs ← xs.mapM emit
    return { Refs.none with child_refs := refs }
  | .Dyn => do
    let (_, args) ← c.fir.tys.trait_refs[a]?
    let xs ← c.fir.tys.args_at args
    let refs ← xs.mapM emit
    return { Refs.none with child_refs := refs }
  | .Fn => do
    let (params, result, raises, closure) ← c.fir.tys.fn_at a
    let refs ← (params.map Prod.snd).mapM emit
    let result_ref ← emit result
    let raises_ref ← emit_raises emit raises
    return ⟨0, refs, params.map Prod.fst, result_ref, raises_ref, closure, 0⟩
  | .Proj => do
    let head_ref ← emit a
    let (tr, _) ← c.fir.tys.proj_keys[b]?
    let (_, args) ← c.fir.tys.trait_refs[tr]?
    let xs ← c.fir.tys.args_at args
    let refs ← xs.mapM emit
    return { Refs.none with head_ref := head_ref, child_refs := refs }
  | .ConstVal => do
    let r ← emit b
    return { Refs.none with const_ty_ref := r }
  | _ => return Refs.none

/-- The references of a list, with its length. -/
def list_refs (refs : List Nat) : Bytes :=
  uleb refs.length ++ refs.flatMap uleb

def fn_flags (closure raises : Bool) : UInt8 :=
  (if closure then FN_CLOSURE else 0) ||| (if raises then FN_RAISES else 0)

/-- One parameter of a function type's entry. -/
def fn_param (p : Conv × Nat) : Bytes :=
  conv_as_u8 p.1 :: uleb p.2

/-- An entry is `tag, quals, payload`. -/
def entry (tag : TyTag) (a b : Nat) (quals : Quals) (r : Refs) : Option Bytes :=
  let start : Bytes := [entry_tag tag, UInt8.ofNat quals.toNat]
  match tag with
  | .Error | .Unit | .Never => some start
  | .Prim => some (start ++ [UInt8.ofNat a])
  | .Nominal => do
    let key ← c.write_head a
    return start ++ key ++ list_refs r.child_refs
  | .Tuple => some (start ++ list_refs r.child_refs)
  | .Fn =>
    some (start ++ [fn_flags r.closure r.raises_ref.isSome] ++ uleb r.child_refs.length ++
      (r.param_convs.zip r.child_refs).flatMap fn_param ++ uleb r.result_ref ++
      r.raises_ref.elim [] uleb)
  | .Dyn => do
    let (td, _) ← c.fir.tys.trait_refs[a]?
    let key ← c.write_head td
    return start ++ key ++ list_refs r.child_refs
  | .Param => do
    let owner ← c.write_owner a
    return start ++ owner ++ uleb b
  | .Proj => do
    let (tr, name) ← c.fir.tys.proj_keys[b]?
    let (td, _) ← c.fir.tys.trait_refs[tr]?
    let key ← c.write_head td
    let name ← c.names.resolve name
    return start ++ uleb r.head_ref ++ key ++ list_refs r.child_refs ++ write_bytes name
  | .Brand => do
    match ← c.fir.tys.brands[b]? with
    | .Param owner ordinal =>
      let owner ← c.write_owner owner
      return start ++ owner ++ uleb ordinal
    -- a fresh brand in a signature is a bug, and is written as the error type
    | .Fresh _ _ => return [E_ERROR, 0]
  | .ConstVal => do
    let v ← c.fir.tys.consts[a]?
    let value ← write_const_value c.names v
    return start ++ value ++ uleb r.const_ty_ref

/-- The entry goes to the end of the type section, under the next position. -/
def push_entry (t : TyId) (bytes : Bytes) : EncM Nat := fun e =>
  some (e.next, { e with
    tys := e.tys ++ bytes
    pos := (t, e.next) :: e.pos
    next := e.next + 1 })

/-- `emit_ty`, through at most `fuel` levels. -/
def emit_within : Nat → TyId → EncM Nat
  | 0, _ => fun _ => none
  | fuel + 1, t => do
    match (← get).pos.lookup t with
    | some p => return p
    | none =>
      let row ← c.fir.tys.rows[t]?
      let refs ← c.emit_children (emit_within fuel) row.tag row.a row.b
      let bytes ← c.entry row.tag row.a row.b row.quals refs
      push_entry t bytes

/-- A type's children are below it in the store, so its rows bound the levels. -/
def emit_ty (t : TyId) : EncM Nat :=
  c.emit_within c.fir.tys.rows.length t

def trait_ref_bytes (tr : TraitRefId) : EncM Bytes := do
  let (td, args) ← c.fir.tys.trait_refs[tr]?
  let xs ← c.fir.tys.args_at args
  let refs ← xs.mapM c.emit_ty
  let key ← c.write_head td
  return key ++ list_refs refs

def canon_trait_ref (tr : TraitRefId) : Option Bytes := do
  let (tail, sub) ← (c.trait_ref_bytes tr).run .new
  return uleb sub.next ++ sub.tys ++ tail

def canon_ty (t : TyId) : Option Bytes := do
  let (_, sub) ← (c.emit_ty t).run .new
  return uleb sub.next ++ sub.tys

/-- A key with what it is the key of. -/
def keyed {α : Type} (key : α → Option Bytes) (x : α) : Option (Bytes × α) := do
  let bytes ← key x
  return (bytes, x)

def keyed_all {α : Type} (key : α → Option Bytes) (xs : List α) : Option (List (Bytes × α)) :=
  xs.mapM (keyed key)

/-- Sorted by key, where the policy sorts. -/
def arrange {α : Type} (xs : List (Bytes × α)) : List α :=
  (if c.policy.sort_bound_lists then sort_by Prod.fst xs else xs).map Prod.snd

def bound_list_bytes (list : TraitRefListId) : EncM Bytes := do
  let bounds ← c.fir.sigs.bounds[list]?
  let entries ← keyed_all c.canon_trait_ref bounds
  let chunks ← (c.arrange entries).mapM c.trait_ref_bytes
  return uleb entries.length ++ chunks.flatten

/-! ## Structure -/

/-- `body.extend`. -/
def write (bytes : Bytes) : EncM Unit := fun e =>
  some ((), { e with body := e.body ++ bytes })

/-- The type of a parameter that has one. -/
def gparam_ty : GParamKind → EncM Bytes
  | .Const ty | .Callable ty => do
    let r ← c.emit_ty ty
    return uleb r
  | .Type | .Brand => return []

/-- The name, where the policy has it. -/
def gparam_name (p : GParam) : EncM Bytes :=
  if c.policy.exclude_gparam_names then return []
  else do
    let name ← c.names.resolve p.name
    return write_bytes name

def encode_gparam (p : GParam) : EncM Unit := do
  let ty ← c.gparam_ty p.kind
  let name ← c.gparam_name p
  let bounds ← c.bound_list_bytes p.bounds
  write (p.kind.tag :: ty ++ name ++ bounds)

def encode_generics (row : SigRow) : EncM Unit := do
  let g ← c.fir.sigs.generics_store[row.generics]?
  write (uleb g.params.length)
  g.params.forM c.encode_gparam

/-- The subject's encoding, followed by those of the bounds as the store has them. -/
def constraint_key (e : TyId × TraitRefListId) : Option Bytes := do
  let subject ← c.canon_ty e.1
  let bounds ← c.fir.sigs.bounds[e.2]?
  let keys ← bounds.mapM c.canon_trait_ref
  return subject ++ keys.flatten

def encode_constraint (e : TyId × TraitRefListId) : EncM Unit := do
  let r ← c.emit_ty e.1
  write (uleb r)
  let bounds ← c.bound_list_bytes e.2
  write bounds

def encode_constraints (row : SigRow) : EncM Unit := do
  let g ← c.fir.sigs.generics_store[row.generics]?
  let list ← c.fir.sigs.constraints[g.constraints]?
  let entries ← keyed_all c.constraint_key list
  write (uleb list.length)
  (c.arrange entries).forM c.encode_constraint

def encode_param (p : Param) : EncM Unit := do
  let r ← c.emit_ty p.ty
  let name ← c.names.resolve p.name
  write (write_bytes name ++ [conv_as_u8 p.conv] ++ uleb r)

def encode_raises (raises : TyId) : EncM Unit :=
  if raises = NO_TY then write [0]
  else do
    let r ← c.emit_ty raises
    write (1 :: uleb r)

def encode_fn (row : SigRow) : EncM Unit :=
  if row.fn_sig = NO_FN_SIG then
    write (uleb 0 ++ uleb 0 ++ [0, NO_SLOT, NO_SLOT] ++ write_u128 0)
  else do
    let f ← c.fir.sigs.fn_sigs[row.fn_sig]?
    write (uleb f.params.length)
    f.params.forM c.encode_param
    let r ← c.emit_ty f.result
    write (uleb r)
    c.encode_raises f.raises
    write ([f.scoped_, f.receiver] ++ write_u128 f.contract_hash)

def encode_field (m : Member) : EncM Unit := do
  let r ← c.emit_ty m.ty
  let name ← c.names.resolve m.name
  write (write_bytes name ++ [m.vis] ++ uleb r)

def encode_fields (list : MemberListId) : EncM Unit := do
  let ms ← c.fir.sigs.member_store[list]?
  write (uleb ms.length)
  ms.forM c.encode_field

def encode_payload (m : Member) : EncM Unit :=
  match m.payload with
  | .None => return ()
  | .Tuple => do
    let xs ← c.fir.tys.args_at m.args
    let refs ← xs.mapM c.emit_ty
    write (list_refs refs)
  | .Record => c.encode_fields m.sub

def encode_variant (m : Member) : EncM Unit := do
  let name ← c.names.resolve m.name
  write (write_bytes name ++ [m.payload.as_u8])
  c.encode_payload m

def encode_variants (list : MemberListId) : EncM Unit := do
  let ms ← c.fir.sigs.member_store[list]?
  write (uleb ms.length)
  ms.forM c.encode_variant

def encode_item (m : Member) : EncM Unit := do
  let key ← c.write_head m.def_
  write key

/-- Trait/impl items, as their declaration keys in source order. -/
def encode_items (list : MemberListId) : EncM Unit := do
  let ms ← c.fir.sigs.member_store[list]?
  let items := ms.filter fun m => m.kind = .Item
  write (uleb items.length)
  items.forM c.encode_item

def encode_assoc_entry (with_rhs : Bool) (e : Assoc) : EncM Unit := do
  let name ← c.names.resolve e.name
  write (write_bytes name)
  match with_rhs with
  | true => do
    let r ← c.emit_ty e.rhs
    write (uleb r)
  | false => do
    let bounds ← c.bound_list_bytes e.bounds
    write bounds

/-- A trait's associated-type declarations, or an impl's definitions. -/
def encode_assoc (row : SigRow) (with_rhs : Bool) : EncM Unit := do
  let list ← c.fir.sigs.assocs[row.assoc]?
  let entries ← keyed_all (fun e : Assoc => c.names.resolve e.name) list
  write (uleb list.length)
  ((sort_by Prod.fst entries).map Prod.snd).forM (c.encode_assoc_entry with_rhs)

/-- The position of a type, or the marker of an absent one. -/
def emit_optional (t : TyId) : EncM Nat :=
  if t = NO_TY then return 2 ^ 32 - 1 else c.emit_ty t

def encode_trait_ref (tr : TraitRefId) : EncM Unit :=
  if tr = NO_TRAIT_REF then write [0]
  else do
    let bytes ← c.trait_ref_bytes tr
    write (1 :: bytes)

def encode_const_val (val : ConstId) : EncM Unit :=
  if c.policy.include_const_value ∧ val ≠ NO_CONST then do
    let v ← c.fir.tys.consts[val]?
    let value ← write_const_value c.names v
    write (1 :: value)
  else write [0]

def encode_kind (row : SigRow) : EncM Unit :=
  match row.kind with
  | .Fn | .ExternFn => c.encode_fn row
  | .Struct => c.encode_fields row.members
  | .Enum => c.encode_variants row.members
  | .Trait => do
    c.encode_assoc row false
    c.encode_items row.members
  | .Impl => do
    let r ← c.emit_optional row.self_ty
    write (uleb r)
    c.encode_trait_ref row.trait_ref
    c.encode_assoc row true
    c.encode_items row.members
  | .Const => do
    let r ← c.emit_optional row.const_ty
    write (uleb r)
    c.encode_const_val row.const_val
  | .Poisoned | .Absent => return ()

def encode (def_ : DefId) : EncM Unit := do
  let row ← c.fir.sigs.rows[def_]?
  write [row.kind.as_u8, row.flags]
  c.encode_generics row
  c.encode_constraints row
  c.encode_kind row

end Ctx

/-- The buffers one encoding needs, reusable across declarations. -/
structure EncodeScratch where
  tys : Bytes
  body : Bytes
  pos : List (TyId × Nat)
  out : Bytes

def EncodeScratch.default : EncodeScratch := ⟨[], [], [], []⟩

/-- The key of the declaration's parent. -/
def parent_key (fir : Fir) (self_key : DeclKeyId) : Option DeclKeyId :=
  if self_key = NO_DECL_KEY then some NO_DECL_KEY else fir.keys.parent_of self_key

def EncodeScratch.clear (_ : EncodeScratch) : EncodeScratch := ⟨[], [], [], []⟩

def encode_sig_into (fir : Fir) (names : Interner) (def_ : DefId) (policy : FingerprintPolicy)
    (scratch : EncodeScratch) : Option (EncodeScratch × Bytes) := do
  let self_key := fir.defs.key_of def_
  let parent_key ← parent_key fir self_key
  let scratch := scratch.clear
  let c : Ctx := ⟨fir, names, policy, self_key, parent_key⟩
  let (_, e) ← (c.encode def_).run ⟨scratch.tys, scratch.body, scratch.pos, 0⟩
  let out := scratch.out ++ MAGIC ++ [policy.to_byte] ++ uleb e.next ++ e.tys ++ e.body
  return (⟨e.tys, e.body, e.pos, out⟩, out)

/-- The canonical bytes of one declaration's signature under `policy`. -/
def encode_sig (fir : Fir) (names : Interner) (def_ : DefId) (policy : FingerprintPolicy) :
    Option Bytes :=
  (encode_sig_into fir names def_ policy .default).map Prod.snd

def sig_hash (fir : Fir) (names : Interner) (def_ : DefId) : Option (BitVec 128) :=
  (encode_sig fir names def_ FINGERPRINT_POLICY).map Fmir.hash_bytes

end Fors.Sigs
