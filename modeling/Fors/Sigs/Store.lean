import Mathlib.Data.List.Sort
import Mathlib.Data.List.Dedup
import Fors.Sigs.Names

/-!
# Signatures

One row for each declaration, with the pools its columns refer to. A pool is a list of its rows
here: what one `push` is given is what its id reads back.

Source: `crates/fors-fir/src/sig.rs`.
-/

namespace Fors.Sigs

open Fors.Ty

open Words (as_u32)

abbrev GenericsId := Nat
abbrev FnSigId := Nat
abbrev MemberListId := Nat
abbrev AssocListId := Nat
abbrev TraitRefListId := Nat
abbrev ConstraintListId := Nat

def NO_GENERICS : GenericsId := 0
def NO_BOUNDS : TraitRefListId := 0
def NO_MEMBERS : MemberListId := 0
def NO_ASSOC : AssocListId := 0
def NO_CONSTRAINTS : ConstraintListId := 0
def NO_FN_SIG : FnSigId := 2 ^ 32 - 1
def NO_TRAIT_REF : TraitRefId := 2 ^ 32 - 1
def NO_CONST : ConstId := 2 ^ 32 - 1
def NO_SLOT : UInt8 := 0xFF

inductive SigKind where
  | Fn | ExternFn | Struct | Enum | Trait | Impl | Const | Poisoned | Absent
  deriving DecidableEq

/-- `kind as u8`. -/
def SigKind.as_u8 (k : SigKind) : UInt8 := UInt8.ofNat k.ctorIdx

/-- `conv as u8`. -/
def conv_as_u8 (c : Conv) : UInt8 := UInt8.ofNat c.ctorIdx

inductive GParamKind where
  | Type
  | Const (ty : TyId)
  | Brand
  | Callable (fn_ty : TyId)
  deriving DecidableEq

/-- The byte that identifies the shape in the canonical encoding. -/
def GParamKind.tag : GParamKind → UInt8
  | .Type => 0
  | .Const _ => 1
  | .Brand => 2
  | .Callable _ => 3

/-- One generic parameter as callers build and read it. -/
structure GParam where
  name : Symbol
  kind : GParamKind
  bounds : TraitRefListId
  deriving DecidableEq

structure GenericsRow where
  params : List GParam
  constraints : ConstraintListId
  deriving DecidableEq

/-- One value parameter. -/
structure Param where
  name : Symbol
  conv : Conv
  ty : TyId
  deriving DecidableEq

structure FnSigRow where
  params : List Param
  result : TyId
  raises : TyId
  scoped_ : UInt8
  receiver : UInt8
  contract_hash : BitVec 128
  deriving DecidableEq

inductive MemberKind where
  | Field | Variant | Item
  deriving DecidableEq

inductive PayloadKind where
  | None | Tuple | Record
  deriving DecidableEq

/-- `payload as u8`. -/
def PayloadKind.as_u8 (k : PayloadKind) : UInt8 := UInt8.ofNat k.ctorIdx

/-- One member as callers build and read it. -/
structure Member where
  kind : MemberKind
  name : Symbol
  vis : UInt8
  ty : TyId
  payload : PayloadKind
  args : ArgsId
  sub : MemberListId
  def_ : DefId
  deriving DecidableEq

structure Assoc where
  name : Symbol
  bounds : TraitRefListId
  rhs : TyId
  deriving DecidableEq

def SIG_SOA : UInt8 := 1
def SIG_SPECIALIZE : UInt8 := 2

/-- The columns of one declaration. -/
structure SigRow where
  kind : SigKind
  flags : UInt8
  generics : GenericsId
  fn_sig : FnSigId
  members : MemberListId
  self_ty : TyId
  trait_ref : TraitRefId
  assoc : AssocListId
  const_ty : TyId
  const_val : ConstId
  deriving DecidableEq

/-- What `push` appends: every column but the kind is absent. -/
def SigRow.absent (kind : SigKind) : SigRow :=
  ⟨kind, 0, NO_GENERICS, NO_FN_SIG, NO_MEMBERS, NO_TY, NO_TRAIT_REF, NO_ASSOC, NO_TY, NO_CONST⟩

structure SigStore where
  rows : List SigRow
  generics_store : List GenericsRow
  fn_sigs : List FnSigRow
  member_store : List (List Member)
  assocs : List (List Assoc)
  constraints : List (List (TyId × TraitRefListId))
  bounds : List (List TraitRefId)
  deriving DecidableEq

namespace SigStore

/-- `new`, where every interned pool starts with its empty list. -/
def new : SigStore where
  rows := []
  generics_store := [⟨[], NO_CONSTRAINTS⟩]
  fn_sigs := []
  member_store := [[]]
  assocs := [[]]
  constraints := [[]]
  bounds := [[]]

/-- Appends an empty row of `kind` and returns its `DefId`. -/
def push (s : SigStore) (kind : SigKind) : SigStore × DefId :=
  ({ s with rows := s.rows ++ [.absent kind] }, as_u32 s.rows.length)

/-- `TraitRefLists::intern`: the list is stored sorted by id and without duplicates. -/
def intern_bounds (s : SigStore) (bounds : List TraitRefId) : Option (SigStore × TraitRefListId) :=
  let sorted := (bounds.insertionSort (· ≤ ·)).dedup
  match s.bounds.idxOf? sorted with
  | some i => some (s, as_u32 i)
  | none =>
    -- `u16::try_from(sorted.len())` panics on a longer list, here and in the other pools
    if sorted.length < 2 ^ 16 then
      some ({ s with bounds := s.bounds ++ [sorted] }, as_u32 s.bounds.length)
    else none

def push_constraints (s : SigStore) (entries : List (TyId × TraitRefListId)) :
    Option (SigStore × ConstraintListId) :=
  if entries.length < 2 ^ 16 then
    some ({ s with constraints := s.constraints ++ [entries] },
      as_u32 s.constraints.length)
  else none

def push_generics (s : SigStore) (params : List GParam) (constraints : ConstraintListId) :
    Option (SigStore × GenericsId) :=
  if params.length < 2 ^ 16 then
    some ({ s with generics_store := s.generics_store ++ [⟨params, constraints⟩] },
      as_u32 s.generics_store.length)
  else none

def push_fn_sig (s : SigStore) (row : FnSigRow) : Option (SigStore × FnSigId) :=
  -- `u8::try_from(params.len())`
  if row.params.length < 2 ^ 8 then
    some ({ s with fn_sigs := s.fn_sigs ++ [row] }, as_u32 s.fn_sigs.length)
  else none

/-- A member list's length is stored as a `u32`. -/
def push_members (s : SigStore) (members : List Member) : SigStore × MemberListId :=
  ({ s with member_store := s.member_store ++ [members.take (as_u32 members.length)] },
    as_u32 s.member_store.length)

def push_assocs (s : SigStore) (entries : List Assoc) : Option (SigStore × AssocListId) :=
  if entries.length < 2 ^ 16 then
    some ({ s with assocs := s.assocs ++ [entries] }, as_u32 s.assocs.length)
  else none

/-- `GenericsStore::set_param`. -/
def set_param (s : SigStore) (id : GenericsId) (ordinal : Nat) (kind : GParamKind)
    (bounds : TraitRefListId) : Option SigStore := do
  let row ← s.generics_store[id]?
  let p ← row.params[ordinal]?
  let params := row.params.set ordinal { p with kind := kind, bounds := bounds }
  return { s with generics_store := s.generics_store.set id { row with params := params } }

/-- Replaces a row's constraint list. -/
def set_constraints (s : SigStore) (id : GenericsId) (c : ConstraintListId) :
    Option SigStore := do
  let row ← s.generics_store[id]?
  return { s with generics_store := s.generics_store.set id { row with constraints := c } }

/-- A write to a column of one row, which panics out of range. -/
def update (s : SigStore) (def_ : DefId) (f : SigRow → SigRow) : Option SigStore := do
  let row ← s.rows[def_]?
  return { s with rows := s.rows.set def_ (f row) }

section Columns

variable (s : SigStore) (def_ : DefId)

def set_kind (kind : SigKind) : Option SigStore :=
  s.update def_ fun row => { row with kind := kind }

/-- The flags with the bit set, or cleared. -/
def with_flag (flags bit : UInt8) (on : Bool) : UInt8 :=
  if on then flags ||| bit else flags &&& ~~~bit

def set_soa (soa : Bool) : Option SigStore :=
  s.update def_ fun row => { row with flags := with_flag row.flags SIG_SOA soa }

def set_specialize (on : Bool) : Option SigStore :=
  s.update def_ fun row => { row with flags := with_flag row.flags SIG_SPECIALIZE on }

def set_generics (g : GenericsId) : Option SigStore :=
  s.update def_ fun row => { row with generics := g }

def set_fn_sig (f : FnSigId) : Option SigStore :=
  s.update def_ fun row => { row with fn_sig := f }

def set_members (m : MemberListId) : Option SigStore :=
  s.update def_ fun row => { row with members := m }

def set_self_ty (t : TyId) : Option SigStore :=
  s.update def_ fun row => { row with self_ty := t }

def set_trait_ref (tr : TraitRefId) : Option SigStore :=
  s.update def_ fun row => { row with trait_ref := tr }

def set_assoc (a : AssocListId) : Option SigStore :=
  s.update def_ fun row => { row with assoc := a }

def set_const (ty : TyId) (val : ConstId) : Option SigStore :=
  s.update def_ fun row => { row with const_ty := ty, const_val := val }

end Columns

end SigStore

/-! ## The four tables -/

structure Fir where
  tys : TyStore
  sigs : SigStore
  keys : DeclKeyTable
  defs : DefKeys

namespace Fir

def new (k : Keys) : Option Fir := do
  let tys ← TyStore.new k
  return ⟨tys, .new, .new, .new⟩

def def_for_key (f : Fir) (key : DeclKeyId) : Fir × DefId :=
  if key = NO_DECL_KEY then (f, NO_DEF)
  else
    let existing := f.defs.def_of key
    if existing ≠ NO_DEF then (f, existing)
    else
      let (sigs, def_) := f.sigs.push .Absent
      ({ f with sigs := sigs, defs := f.defs.bind def_ key }, def_)

def declare (f : Fir) (key : DeclKeyId) (kind : SigKind) : Option (Fir × DefId) := do
  let (f, def_) := f.def_for_key key
  let sigs ← f.sigs.set_kind def_ kind
  return ({ f with sigs := sigs }, def_)

end Fir

/-! ## Runs -/

/-- A build's tables with the interner of its names. -/
structure Build where
  fir : Fir
  names : Interner

inductive Op where
  | name (bytes : Bytes)
  | path (segments : List Symbol)
  | key (key : DeclKey)
  | def_for_key (key : DeclKeyId)
  | declare (key : DeclKeyId) (kind : SigKind)
  | ty (op : TyStore.Op)
  | push (kind : SigKind)
  | bounds (bounds : List TraitRefId)
  | constraints (entries : List (TyId × TraitRefListId))
  | generics (params : List GParam) (constraints : ConstraintListId)
  | fn_sig (row : FnSigRow)
  | members (members : List Member)
  | assocs (entries : List Assoc)
  | set_param (id : GenericsId) (ordinal : Nat) (kind : GParamKind) (bounds : TraitRefListId)
  | set_constraints (id : GenericsId) (c : ConstraintListId)
  | set_kind (def_ : DefId) (kind : SigKind)
  | set_soa (def_ : DefId) (soa : Bool)
  | set_specialize (def_ : DefId) (on : Bool)
  | set_generics (def_ : DefId) (g : GenericsId)
  | set_fn_sig (def_ : DefId) (f : FnSigId)
  | set_members (def_ : DefId) (m : MemberListId)
  | set_self_ty (def_ : DefId) (t : TyId)
  | set_trait_ref (def_ : DefId) (tr : TraitRefId)
  | set_assoc (def_ : DefId) (a : AssocListId)
  | set_const (def_ : DefId) (ty : TyId) (val : ConstId)

/-- An operation on the signature store alone. -/
def SigStore.step (s : SigStore) : Op → Option SigStore
  | .push kind => some (s.push kind).1
  | .bounds bounds => (s.intern_bounds bounds).map Prod.fst
  | .constraints entries => (s.push_constraints entries).map Prod.fst
  | .generics params constraints => (s.push_generics params constraints).map Prod.fst
  | .fn_sig row => (s.push_fn_sig row).map Prod.fst
  | .members members => some (s.push_members members).1
  | .assocs entries => (s.push_assocs entries).map Prod.fst
  | .set_param id ordinal kind bounds => s.set_param id ordinal kind bounds
  | .set_constraints id c => s.set_constraints id c
  | .set_kind d kind => s.set_kind d kind
  | .set_soa d soa => s.set_soa d soa
  | .set_specialize d on_ => s.set_specialize d on_
  | .set_generics d g => s.set_generics d g
  | .set_fn_sig d f => s.set_fn_sig d f
  | .set_members d m => s.set_members d m
  | .set_self_ty d t => s.set_self_ty d t
  | .set_trait_ref d tr => s.set_trait_ref d tr
  | .set_assoc d a => s.set_assoc d a
  | .set_const d ty val => s.set_const d ty val
  | _ => none

namespace Build

def new (k : Keys) : Option Build := do
  let fir ← Fir.new k
  return ⟨fir, .new⟩

def step (k : Keys) (b : Build) : Op → Option Build
  | .name bytes => some { b with names := (b.names.intern bytes).1 }
  | .path segments => some { b with fir.keys := (b.fir.keys.intern_path segments).1 }
  | .key key => some { b with fir.keys := (b.fir.keys.intern key).1 }
  | .def_for_key key => some { b with fir := (b.fir.def_for_key key).1 }
  | .declare key kind => do
    let (fir, _) ← b.fir.declare key kind
    return { b with fir := fir }
  | .ty op => do
    let (tys, _) ← b.fir.tys.step k op
    return { b with fir.tys := tys }
  | op => do
    let sigs ← b.fir.sigs.step op
    return { b with fir.sigs := sigs }

def run (k : Keys) : List Op → Build → Option Build
  | [], b => some b
  | op :: ops, b => do
    let b ← b.step k op
    run k ops b

/-- A build is reached by a sequence of operations from `new`. -/
def Reached (k : Keys) (ops : List Op) (b : Build) : Prop :=
  ∃ b0, new k = some b0 ∧ run k ops b0 = some b

end Build

/-- No module path is longer than the `u16` its length is stored in. -/
def Op.Short : Op → Prop
  | .path segments => segments.length < 2 ^ 16
  | _ => True

end Fors.Sigs
