import Fors.Authority.Decls
import Fors.Lib.Utf8
import Fors.Ty.Linear

/-!
# Shared types

The two passes over the declarations that look through the components of a type: an `atomic` field
belongs to a type that implements `Shared`, and an `impl Shared` is checked field by field. Both
look into tuples and into the elements of arrays, and both give up 17 levels down.

Whether a type implements a trait, and what a component type is with a declaration's arguments in
place, is the trait solver's business, which is taken to be exact.

Source: `crates/fors-check/src/authority.rs`.
-/

namespace Fors.Authority

open Fors.Syntax Fors.Ty Trees

/-! ## Signatures -/

inductive PayloadKind where
  | None
  | Tuple (args : ArgsId)
  | Record (sub : List (Symbol × TyId))
  deriving DecidableEq

inductive MemberKind where
  | Field (ty : TyId)
  | Variant (payload : PayloadKind)
  | Item
  deriving DecidableEq

structure Member where
  name : Symbol
  kind : MemberKind
  deriving DecidableEq

structure Signature where
  members : List Member
  /-- How many generic parameters there are. -/
  arity : Nat
  deriving DecidableEq

structure ImplRow extends Fors.Ty.ImplRow where
  inherent : Bool
  deriving DecidableEq

/-! ## The trait solver -/

inductive Holds where
  | Yes | No | Unknown
  deriving DecidableEq

/-- The trait solver. An outer `none` is a panic. -/
structure Traits (k : Keys) where
  /-- A type with a binding in place and its projections normalised. -/
  subst_norm_n : TyStore → TyId → Binding → Option (TyStore × Option TyId)
  /-- What that is for the parameters of a declaration. -/
  in_place : DefId → List (Rose Label) → Rose Label → Option (Rose Label)
  subst_extends : ∀ {s t b s' out}, subst_norm_n s t b = some (s', out) → s.Extends s'
  subst_exact : ∀ {s t d args s' out}, s.Good k → (∀ a ∈ args, a < s.rows.length) →
    t < s.rows.length → subst_norm_n s t (bind_args d args.length args) = some (s', out) →
    s'.Fits → s'.Good k ∧ (∀ r, out = some r → r < s'.rows.length) ∧
      out.map s'.tree = in_place d (args.map s.tree) (s.tree t)
  /-- Whether a type implements a trait, in the scope of a declaration. -/
  holds : DefId → TyStore → TyId → TraitRefId → Option (TyStore × Holds)
  implements : DefId → DefId → Rose Label → Bool
  holds_extends : ∀ {scope s t want s' h}, holds scope s t want = some (s', h) → s.Extends s'
  holds_exact : ∀ {scope s t want tr s' h}, s.Good k → t < s.rows.length →
    s.trait_refs[want]? = some (tr, NO_ARGS) → holds scope s t want = some (s', h) → s'.Fits →
    s'.Good k ∧ h = if implements scope tr (s.tree t) then .Yes else .No

/-! ## The checker -/

structure Checker (k : Keys) where
  atomic : DefId
  array : DefId
  shared : DefId
  sigs : DefId → Signature
  defs : DefTable
  files : List FileCtx
  impls : List ImplRow
  poisoned : DefId → Bool
  /-- What has been said something about before. -/
  spoke : DefId → Bool
  resolve : Symbol → String
  show_ty : TyStore → TyId → String
  traits : Traits k

/-- A diagnostic, and the declaration it is charged to. -/
structure Report where
  home : DefId
  said : Diagnostic
  deriving DecidableEq

structure Pass where
  tys : TyStore
  out : List Report

section Passes

variable {k : Keys} (p : Checker k)

/-! ### Components -/

def raw_member (s : TyStore) (m : Member) : Option (List (Symbol × TyId)) :=
  match m.kind with
  | .Field ty => some [(m.name, ty)]
  | .Variant (.Tuple args) => (s.args_at args).map fun ts => ts.map fun t => (m.name, t)
  | .Variant (.Record sub) => some sub
  | .Variant .None => some []
  | .Item => some []

def raw_components (s : TyStore) : List Member → Option (List (Symbol × TyId))
  | [] => some []
  | m :: ms => do
    let xs ← raw_member s m
    let ys ← raw_components s ms
    return xs ++ ys

/-- A component stays as it is declared where its substitution fails. -/
def subst_all (b : Binding) :
    TyStore → List (Symbol × TyId) → Option (TyStore × List (Symbol × TyId))
  | s, [] => some (s, [])
  | s, (name, t) :: cs => do
    let (s, out) ← p.traits.subst_norm_n s t b
    let (s, cs) ← subst_all b s cs
    return (s, (name, out.getD t) :: cs)

/-- The type of every field and payload component of `d`, with `args` in place when they are
given. -/
def components (s : TyStore) (d : DefId) (args : List TyId) :
    Option (TyStore × List (Symbol × TyId)) := do
  let raw ← raw_components s (p.sigs d).members
  if 0 < (p.sigs d).arity ∧ args.length = (p.sigs d).arity then
    subst_all p (bind_args d (p.sigs d).arity args) s raw
  else some (s, raw)

/-! ### The walks

Each is at depth `17 - left`: the guard `depth > 16` is `left = 0`. -/

def mentions_atomic (s : TyStore) : Nat → TyId → Option Bool
  | 0, _ => some false
  | left + 1, t =>
    if t = TY_ERROR ∨ t = NO_TY then some false
    else do
      let row ← s.rows[t]?
      let row ← s.rows[row.unqual]?
      match row.tag with
      | .Nominal =>
        if row.a = p.atomic then some true
        else if row.a = p.array then do
          let args ← s.args_at row.b
          match args.head? with
          | none => some false
          | some e => mentions_atomic s left e
        else some false
      | .Tuple => do
        let args ← s.args_at row.b
        args.anyM (mentions_atomic s left)
      | _ => some false

def Q_IMM : Quals := 2

def is_imm (q : Quals) : Bool :=
  q &&& Q_IMM ≠ 0

/-- `all`, from left to right up to the first `false`. -/
def all_conform (f : TyStore → TyId → Option (TyStore × Bool)) :
    TyStore → List TyId → Option (TyStore × Bool)
  | s, [] => some (s, true)
  | s, x :: xs => do
    let (s, ok) ← f s x
    if ok then all_conform f s xs else some (s, false)

/-- `holds(bare, Shared)`. -/
def holds_shared (scope : DefId) (s : TyStore) (bare : TyId) : Option (TyStore × Holds) := do
  let (s, want) ← s.intern_trait_ref k p.shared NO_ARGS
  p.traits.holds scope s bare want

def conforms_shared (scope : DefId) : Nat → TyStore → TyId → Option (TyStore × Bool)
  | 0, s, _ => some (s, true)
  | left + 1, s, t =>
    -- undecidable here: silence
    if t = TY_ERROR ∨ t = NO_TY then some (s, true)
    else do
      let row ← s.rows[t]?
      if is_imm row.quals then some (s, true)
      else do
        let bare := row.unqual
        let row ← s.rows[bare]?
        match row.tag with
        | .Nominal =>
          if row.a = p.atomic then some (s, true)
          else if row.a = p.array then do
            let args ← s.args_at row.b
            conforms_shared scope left s (args.head?.getD TY_ERROR)
          else do
            let (s, h) ← holds_shared p scope s bare
            return (s, h ≠ .No)
        | .Tuple => do
          let args ← s.args_at row.b
          all_conform (conforms_shared scope left) s args
        | .Param | .Proj => do
          let (s, h) ← holds_shared p scope s bare
          return (s, h = .Yes)
        | .Error | .Brand | .ConstVal => some (s, true)
        -- a scalar, `dyn` or `fn` only if `imm`
        | tag => some (s, tag = .Unit ∨ tag = .Never)

/-! ### The passes -/

def decl_head (d : DefId) : Option (Nat × (Nat × Nat)) := do
  let row ← p.defs.get d
  let f ← p.files[row.file]?
  return (row.file, f.header_range row.node)

def def_text (d : DefId) : String :=
  match (p.defs.get d).bind DefRow.name with
  | some name => p.resolve name
  | none => "this function"

def spoken (out : List Report) (d : DefId) : Bool :=
  p.spoke d || out.any fun r => r.home = d

/-- `emit_code`: the declaration's budget is opened first, so what is said is heard. -/
def Pass.emit_code (st : Pass) (home : DefId) (head : Nat × (Nat × Nat)) (message : String) :
    Pass :=
  { st with out := st.out ++ [⟨home, ⟨head.1, head.2, .O 21, 21, message⟩⟩] }

def implements_shared (d : DefId) : Bool :=
  p.impls.any fun r =>
    r.trait_def = p.shared && (r.head = .Nominal d || r.self_ty = TY_ERROR)

/-- One round of `atomic_fields`. -/
def atomic_field (st : Pass) (d : DefId) : Option Pass :=
  if p.poisoned d || spoken p st.out d then some st
  else do
    let (tys, comps) ← components p st.tys d []
    let st := { st with tys := tys }
    match ← comps.findM? fun c => mentions_atomic p tys 17 c.2 with
    | none => some st
    | some (field, _) =>
      if implements_shared p d then some st
      else match decl_head p d with
        | none => some st
        | some head =>
          some (st.emit_code d head ("`" ++ def_text p d ++ "." ++ p.resolve field ++
            "` is an `atomic` field, which may appear only in a type that implements `Shared`; `" ++
            def_text p d ++ "` does not (ch01 R21)"))

/-- No pass where some `impl` has no row: it could be any type's `impl Shared`. -/
def atomic_fields (st : Pass) : Option Pass :=
  if p.defs.user_defs.any fun d =>
      d.2.kind = .Impl && !p.impls.any fun r => r.def_ = d.1 then some st
  else
    (((p.defs.user_defs.filter fun d => d.2.kind = .Struct ∨ d.2.kind = .Enum).map Prod.fst)).foldlM
      (atomic_field p) st

/-- The first component that does not conform. -/
def first_bad (scope : DefId) :
    TyStore → List (Symbol × TyId) → Option (TyStore × Option (Symbol × TyId))
  | s, [] => some (s, none)
  | s, c :: cs => do
    let (s, ok) ← conforms_shared p scope 17 s c.2
    if ok then first_bad scope s cs else some (s, some c)

/-- One round of `shared_impls`. -/
def shared_impl (st : Pass) (r : ImplRow) : Option Pass :=
  if r.trait_def ≠ p.shared ∨ r.self_ty = TY_ERROR ∨ r.inherent then some st
  else if p.poisoned r.def_ || spoken p st.out r.def_ then some st
  else do
    let row ← st.tys.rows[r.self_ty]?
    let bare ← st.tys.rows[row.unqual]?
    if bare.tag ≠ .Nominal then some st
    else match p.defs.get r.def_ with
      | none => some st
      | some decl =>
        match p.files[decl.file]? with
        | none => some st
        | some f =>
          -- the audited escape hatch
          if f.decl_has_attr decl.node (Utf8.bytes "unsafe") then some st
          else do
            let args ← st.tys.args_at bare.b
            let (tys, comps) ← components p st.tys bare.a args
            let (tys, bad) ← first_bad p r.def_ tys comps
            let st := { st with tys := tys }
            match bad with
            | none => some st
            | some (name, t) =>
              match decl_head p r.def_ with
              | none => some st
              | some head =>
                some (st.emit_code r.def_ head ("`impl Shared for " ++ def_text p bare.a ++
                  "` fails the field-wise check at `" ++ p.resolve name ++ ": " ++
                  p.show_ty tys t ++ "`, which is neither `atomic[U]`, `imm`, nor a type that " ++
                  "implements `Shared` (ch01 R21a)"))

def shared_impls (st : Pass) : Option Pass :=
  p.impls.foldlM (shared_impl p) st

/-- The two passes, one after the other. -/
def shared_decls (s : TyStore) : Option Pass := do
  let st ← atomic_fields p ⟨s, []⟩
  shared_impls p st

end Passes

end Fors.Authority
