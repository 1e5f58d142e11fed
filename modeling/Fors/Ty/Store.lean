import Fors.Lib.Words
import Fors.Ty.Cons

/-!
# The type store

Rows and pools are hash-consed: each `intern` looks its entry up in a cons table before it appends
one, and a qualified row interns its unqualified twin on the way. The cons keys are a parameter:
the store never relies on what they are.

Sources: `crates/fors-fir/src/ty.rs`; `crates/fors-fir/src/impls.rs` for the rows of the impl index.
-/

namespace Fors.Ty

open Words (as_u32)

abbrev TyId := Nat
abbrev ArgsId := Nat
abbrev TraitRefId := Nat
abbrev ProjKeyId := Nat
abbrev FnTyId := Nat
abbrev BrandId := Nat
abbrev ConstId := Nat
abbrev DefId := Nat
abbrev DeclKeyId := Nat
abbrev Symbol := Nat

def TY_ERROR : TyId := 0
def TY_UNIT : TyId := 1
def TY_NEVER : TyId := 2
def NO_TY : TyId := 2 ^ 32 - 1
def NO_ARGS : ArgsId := 0

inductive TyTag where
  | Error | Unit | Never | Prim | Nominal | Tuple | Fn | Dyn | Param | Proj | Brand | ConstVal
  deriving DecidableEq

inductive PrimKind where
  | I8 | I16 | I32 | I64 | Isize | U8 | U16 | U32 | U64 | Usize | F32 | F64 | Bool | Str | RawPtr
  deriving DecidableEq

/-- `k as u32`. -/
def PrimKind.as_u32 (k : PrimKind) : Nat := k.ctorIdx

abbrev Quals := BitVec 8

def Quals.NONE : Quals := 0

abbrev Flags := BitVec 8

def F_PARAM : Flags := 1
def F_PROJ : Flags := 2
def F_BRAND : Flags := 4
def F_ERROR : Flags := 8
def F_FRESH : Flags := 16

inductive Conv where
  | Let | Inout | Sink | Set
  deriving DecidableEq

inductive BrandKind where
  | Param | Fresh
  deriving DecidableEq

/-- `kind as u32`. -/
def BrandKind.as_u32 (k : BrandKind) : Nat := k.ctorIdx

inductive BrandRow where
  | Param (owner : DefId) (ordinal : Nat)
  | Fresh (owner : DeclKeyId) (ordinal : Nat)
  deriving DecidableEq

def BrandRow.kind : BrandRow → BrandKind
  | .Param _ _ => .Param
  | .Fresh _ _ => .Fresh

inductive ConstValue where
  | I (v : Int)
  | B (v : Bool)
  | S (v : Symbol)
  deriving DecidableEq

/-- One row of the `Fn` pool; its parameters are a range of the pool's own columns. -/
structure FnRow where
  p_start : Nat
  p_len : Nat
  result : TyId
  raises : TyId
  closure : Bool
  deriving DecidableEq

structure TyRow where
  tag : TyTag
  a : Nat
  b : Nat
  quals : Quals
  flags : Flags
  unqual : TyId
  deriving DecidableEq

/-- The cons keys of the pools, as functions of what an entry holds. -/
structure Keys where
  args : List TyId → Nat
  trait_ref : DefId × ArgsId → Nat
  proj_key : TraitRefId × Symbol → Nat
  fn_ty : List (Conv × TyId) × TyId × TyId × Bool → Nat
  brand : BrandRow → Nat
  const : ConstValue → Nat
  row : TyTag × Nat × Nat × Quals → Nat

structure TyStore where
  rows : List TyRow
  args : List TyId
  /-- `args_start` and `args_len`. -/
  args_index : List (Nat × Nat)
  trait_refs : List (DefId × ArgsId)
  proj_keys : List (TraitRefId × Symbol)
  /-- `conv` and `ty` of the `Fn` pool. -/
  fn_params : List (Conv × TyId)
  fn_tys : List FnRow
  brands : List BrandRow
  consts : List ConstValue
  rows_cons : ConsTable
  args_cons : ConsTable
  tr_cons : ConsTable
  pk_cons : ConsTable
  fn_cons : ConsTable
  brand_cons : ConsTable
  const_cons : ConsTable

namespace TyStore

/-- `xs[start..start + len]`, which panics out of range. -/
def slice {α : Type} (xs : List α) (start len : Nat) : Option (List α) :=
  if start + len ≤ xs.length then some ((xs.drop start).take len) else none

/-- `args(id)`. -/
def args_at (s : TyStore) (id : ArgsId) : Option (List TyId) := do
  let (start, len) ← s.args_index[id]?
  slice s.args start len

/-- The parameters of a row of the `Fn` pool. -/
def params (s : TyStore) (id : FnTyId) : Option (List (Conv × TyId)) := do
  let row ← s.fn_tys[id]?
  slice s.fn_params row.p_start row.p_len

/-- A row of the `Fn` pool as `intern_fn_ty` is asked for it. -/
def fn_at (s : TyStore) (id : FnTyId) : Option (List (Conv × TyId) × TyId × TyId × Bool) := do
  let row ← s.fn_tys[id]?
  let params ← s.params id
  return (params, row.result, row.raises, row.closure)

def flags (s : TyStore) (t : TyId) : Option Flags :=
  (s.rows[t]?).map TyRow.flags

/-! ## Pools -/

/-- What the `intern` of a pool does: the id the table has, or the next one with the entry pushed. -/
def intern_in (s : TyStore) (cons : ConsTable) (key : Nat) (same : Nat → Bool) (len : Nat)
    (push : ConsTable → Option TyStore) : Option (TyStore × Nat) := do
  match ← cons.lookup key same with
  | some id => return (s, id)
  | none =>
    let cons ← cons.insert key (as_u32 len)
    let s ← push cons
    return (s, as_u32 len)

def intern_args (k : Keys) (s : TyStore) (xs : List TyId) : Option (TyStore × ArgsId) :=
  s.intern_in s.args_cons (k.args xs) (fun v => s.args_at v = some xs) s.args_index.length
    fun cons =>
      -- `u16::try_from(xs.len())` panics on a longer list
      if xs.length < 2 ^ 16 then some { s with
        args_index := s.args_index ++ [(as_u32 s.args.length, xs.length)]
        args := s.args ++ xs
        args_cons := cons }
      else none

def intern_trait_ref (k : Keys) (s : TyStore) (trait_def : DefId) (args : ArgsId) :
    Option (TyStore × TraitRefId) :=
  s.intern_in s.tr_cons (k.trait_ref (trait_def, args))
    (fun v => s.trait_refs[v]? = some (trait_def, args)) s.trait_refs.length fun cons =>
      some { s with trait_refs := s.trait_refs ++ [(trait_def, args)], tr_cons := cons }

def intern_proj_key (k : Keys) (s : TyStore) (tr : TraitRefId) (name : Symbol) :
    Option (TyStore × ProjKeyId) :=
  s.intern_in s.pk_cons (k.proj_key (tr, name)) (fun v => s.proj_keys[v]? = some (tr, name))
    s.proj_keys.length fun cons =>
      some { s with proj_keys := s.proj_keys ++ [(tr, name)], pk_cons := cons }

def intern_fn_ty (k : Keys) (s : TyStore) (params : List (Conv × TyId)) (result raises : TyId)
    (closure : Bool) : Option (TyStore × FnTyId) :=
  s.intern_in s.fn_cons (k.fn_ty (params, result, raises, closure))
    (fun v => s.fn_at v = some (params, result, raises, closure)) s.fn_tys.length fun cons =>
      -- `u8::try_from(params.len())` panics on more parameters
      if params.length < 2 ^ 8 then some { s with
        fn_tys := s.fn_tys ++
          [⟨as_u32 s.fn_params.length, params.length, result, raises, closure⟩]
        fn_params := s.fn_params ++ params
        fn_cons := cons }
      else none

def intern_brand (k : Keys) (s : TyStore) (row : BrandRow) : Option (TyStore × BrandId) :=
  s.intern_in s.brand_cons (k.brand row) (fun v => s.brands[v]? = some row) s.brands.length
    fun cons => some { s with brands := s.brands ++ [row], brand_cons := cons }

def intern_const (k : Keys) (s : TyStore) (v : ConstValue) : Option (TyStore × ConstId) :=
  s.intern_in s.const_cons (k.const v) (fun x => s.consts[x]? = some v) s.consts.length
    fun cons => some { s with consts := s.consts ++ [v], const_cons := cons }

/-! ## Rows -/

/-- The flags of a list of types, together. -/
def or_flags (s : TyStore) : List TyId → Option Flags
  | [] => some 0
  | x :: xs => do
    let f ← s.flags x
    let g ← s.or_flags xs
    return f ||| g

def or_args (s : TyStore) (id : ArgsId) : Option Flags := do
  let xs ← s.args_at id
  s.or_flags xs

def child_flags (s : TyStore) (tag : TyTag) (a b : Nat) : Option Flags :=
  match tag with
  | .Error => some F_ERROR
  | .Unit | .Never | .Prim => some 0
  | .Nominal | .Tuple => s.or_args b
  | .Fn => do
    let row ← s.fn_tys[a]?
    let ps ← s.params a
    let f ← s.or_flags (ps.map Prod.snd)
    let r ← s.flags row.result
    if row.raises = NO_TY then return f ||| r
    else do
      let g ← s.flags row.raises
      return f ||| r ||| g
  | .Dyn => do
    let (_, args) ← s.trait_refs[a]?
    s.or_args args
  | .Param => some F_PARAM
  | .Proj => do
    let f ← s.flags a
    let (tr, _) ← s.proj_keys[b]?
    let (_, args) ← s.trait_refs[tr]?
    let g ← s.or_args args
    return F_PROJ ||| f ||| g
  | .Brand => do
    let row ← s.brands[b]?
    return if row.kind = .Fresh then F_BRAND ||| F_FRESH else F_BRAND
  | .ConstVal => s.flags b

def find_row (k : Keys) (s : TyStore) (tag : TyTag) (a b : Nat) (quals : Quals) :
    Option (Option TyId) :=
  s.rows_cons.lookup (k.row (tag, a, b, quals)) fun v =>
    (s.rows[v]?).map (fun row => (row.tag, row.a, row.b, row.quals)) = some (tag, a, b, quals)

/-- The end of `intern`, where the row is new; a row without qualifiers is its own twin. -/
def push_row (k : Keys) (s : TyStore) (tag : TyTag) (a b : Nat) (quals : Quals) (flags : Flags)
    (unqual : Option TyId) : Option (TyStore × TyId) := do
  let id := as_u32 s.rows.length
  let cons ← s.rows_cons.insert (k.row (tag, a, b, quals)) id
  return ({ s with
    rows := s.rows ++ [⟨tag, a, b, quals, flags, unqual.getD id⟩]
    rows_cons := cons }, id)

/-- `intern` without qualifiers, where it does not call itself. -/
def intern_unqual (k : Keys) (s : TyStore) (tag : TyTag) (a b : Nat) : Option (TyStore × TyId) := do
  match ← s.find_row k tag a b .NONE with
  | some id => return (s, id)
  | none =>
    let flags ← s.child_flags tag a b
    s.push_row k tag a b .NONE flags none

/-- The one way a type row comes into existence. -/
def intern (k : Keys) (s : TyStore) (tag : TyTag) (a b : Nat) (quals : Quals) :
    Option (TyStore × TyId) :=
  if quals = .NONE then s.intern_unqual k tag a b
  else do
    match ← s.find_row k tag a b quals with
    | some id => return (s, id)
    | none =>
      let flags ← s.child_flags tag a b
      let (s, unqual) ← s.intern_unqual k tag a b
      s.push_row k tag a b quals flags (some unqual)

/-! ## Constructors -/

section Constructors

variable (k : Keys) (s : TyStore)

def prim (p : PrimKind) : Option (TyStore × TyId) :=
  s.intern k .Prim p.as_u32 0 .NONE

def nominal (d : DefId) (args : ArgsId) : Option (TyStore × TyId) :=
  s.intern k .Nominal d args .NONE

def nominal_of (d : DefId) (args : List TyId) : Option (TyStore × TyId) := do
  let (s, a) ← s.intern_args k args
  s.nominal k d a

def tuple (args : ArgsId) : Option (TyStore × TyId) :=
  s.intern k .Tuple 0 args .NONE

def tuple_of (args : List TyId) : Option (TyStore × TyId) := do
  let (s, a) ← s.intern_args k args
  s.tuple k a

def fn_ty (id : FnTyId) : Option (TyStore × TyId) :=
  s.intern k .Fn id 0 .NONE

def dyn_ty (tr : TraitRefId) : Option (TyStore × TyId) :=
  s.intern k .Dyn tr 0 .NONE

def param (owner : DefId) (ordinal : Nat) : Option (TyStore × TyId) :=
  s.intern k .Param owner ordinal .NONE

def proj (head : TyId) (key : ProjKeyId) : Option (TyStore × TyId) :=
  s.intern k .Proj head key .NONE

def proj_of (head : TyId) (trait_def : DefId) (trait_args : List TyId) (name : Symbol) :
    Option (TyStore × TyId) := do
  let (s, a) ← s.intern_args k trait_args
  let (s, tr) ← s.intern_trait_ref k trait_def a
  let (s, pk) ← s.intern_proj_key k tr name
  s.proj k head pk

def brand_ty (row : BrandRow) : Option (TyStore × TyId) := do
  let (s, id) ← s.intern_brand k row
  s.intern k .Brand row.kind.as_u32 id .NONE

def const_ty (v : ConstValue) (ty : TyId) : Option (TyStore × TyId) := do
  let (s, id) ← s.intern_const k v
  s.intern k .ConstVal id ty .NONE

/-- The same type with `quals` besides its own qualifiers. -/
def qualified (t : TyId) (quals : Quals) : Option (TyStore × TyId) := do
  let row ← s.rows[t]?
  if row.quals ||| quals = row.quals then return (s, t)
  else s.intern k row.tag row.a row.b (row.quals ||| quals)

end Constructors

/-- The store without rows, before `new` interns the reserved ones. -/
def blank : TyStore where
  rows := []
  args := []
  args_index := []
  trait_refs := []
  proj_keys := []
  fn_params := []
  fn_tys := []
  brands := []
  consts := []
  rows_cons := .new
  args_cons := .new
  tr_cons := .new
  pk_cons := .new
  fn_cons := .new
  brand_cons := .new
  const_cons := .new

/-- `new`, which asserts that the reserved entries have their constant ids. -/
def new (k : Keys) : Option TyStore := do
  let (s, empty) ← blank.intern_args k []
  let (s, err) ← s.intern k .Error 0 0 .NONE
  let (s, unit) ← s.intern k .Unit 0 0 .NONE
  let (s, never) ← s.intern k .Never 0 0 .NONE
  if empty = NO_ARGS ∧ err = TY_ERROR ∧ unit = TY_UNIT ∧ never = TY_NEVER then return s else none

/-! ## Runs -/

inductive Op where
  | intern_args (xs : List TyId)
  | intern_trait_ref (trait_def : DefId) (args : ArgsId)
  | intern_proj_key (tr : TraitRefId) (name : Symbol)
  | intern_fn_ty (params : List (Conv × TyId)) (result raises : TyId) (closure : Bool)
  | intern_brand (row : BrandRow)
  | intern_const (v : ConstValue)
  | intern (tag : TyTag) (a b : Nat) (quals : Quals)
  | prim (p : PrimKind)
  | nominal (d : DefId) (args : ArgsId)
  | nominal_of (d : DefId) (args : List TyId)
  | tuple (args : ArgsId)
  | tuple_of (args : List TyId)
  | fn_ty (id : FnTyId)
  | dyn_ty (tr : TraitRefId)
  | param (owner : DefId) (ordinal : Nat)
  | proj (head : TyId) (key : ProjKeyId)
  | proj_of (head : TyId) (trait_def : DefId) (trait_args : List TyId) (name : Symbol)
  | brand_ty (row : BrandRow)
  | const_ty (v : ConstValue) (ty : TyId)
  | qualified (t : TyId) (quals : Quals)

/-- An operation, with the id it returns. -/
def step (k : Keys) (s : TyStore) : Op → Option (TyStore × Nat)
  | .intern_args xs => s.intern_args k xs
  | .intern_trait_ref d args => s.intern_trait_ref k d args
  | .intern_proj_key tr name => s.intern_proj_key k tr name
  | .intern_fn_ty params result raises closure => s.intern_fn_ty k params result raises closure
  | .intern_brand row => s.intern_brand k row
  | .intern_const v => s.intern_const k v
  | .intern tag a b quals => s.intern k tag a b quals
  | .prim p => s.prim k p
  | .nominal d args => s.nominal k d args
  | .nominal_of d args => s.nominal_of k d args
  | .tuple args => s.tuple k args
  | .tuple_of args => s.tuple_of k args
  | .fn_ty id => s.fn_ty k id
  | .dyn_ty tr => s.dyn_ty k tr
  | .param owner ordinal => s.param k owner ordinal
  | .proj head key => s.proj k head key
  | .proj_of head d args name => s.proj_of k head d args name
  | .brand_ty row => s.brand_ty k row
  | .const_ty v ty => s.const_ty k v ty
  | .qualified t quals => s.qualified k t quals

/-- A sequence of operations that none of the source's panics ends. -/
def run (k : Keys) : List Op → TyStore → Option TyStore
  | [], s => some s
  | op :: ops, s => do
    let (s, _) ← s.step k op
    run k ops s

end TyStore

/-! ## Impls -/

/-- A type's outermost constructor, by which the index of impls files them. -/
inductive HeadKey where
  | Error | Unit | Never
  | Prim (kind : Nat)
  | Nominal (d : DefId)
  | Tuple (len : Nat)
  | Fn
  | Dyn (trait_def : DefId)
  | Param | Proj | Brand | ConstVal
  deriving DecidableEq

/-- One impl as the index stores it. -/
structure ImplRow where
  def_ : DefId
  trait_def : DefId
  trait_args : ArgsId
  self_ty : TyId
  head : HeadKey
  deriving DecidableEq

end Fors.Ty
