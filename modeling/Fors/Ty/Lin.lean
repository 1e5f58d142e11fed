import Fors.Lib.Descent
import Fors.Ty.SubstTree

/-!
# Linearity

`lin` looks for a linear head among a type's by-value components, with the type's arguments
substituted. Its memo starts an entry at `false`, so that a type which contains itself ends, and it
gives up 65 levels down.

Source: `crates/fors-fir/src/ty.rs`.
-/

namespace Fors.Ty

open Trees TyStore

/-! ## Signatures -/

/-- The payload of an enum variant. -/
inductive Payload where
  | None
  | Tuple (args : ArgsId)
  | Record (sub : List TyId)
  deriving DecidableEq

inductive Member where
  | Field (ty : TyId)
  | Variant (payload : Payload)
  | Item
  deriving DecidableEq

/-- The members of a declaration, and how many generic parameters it has. -/
structure Sig where
  members : List Member
  generics : Nat
  deriving DecidableEq

/-- The signature of a `DefId` is at its index. -/
abbrev SigStore := List Sig

/-- The sorted slices of the source, which are only ever probed. -/
structure LinEnv where
  roots : List DefId
  by_value : List DefId
  own : List DefId
  opaque_ : List DefId
  rigid_linear : List TyId

/-- `HashMap<TyId, bool>`: the latest entry of a key counts. -/
abbrev Memo := List (TyId × Bool)

/-! ## The search

An outer `none` is a panic. -/

/-- The component types that a member declares. -/
def raw_member (s : TyStore) : Member → Option (List TyId)
  | .Field ty => some [ty]
  | .Variant (.Tuple args) => s.args_at args
  | .Variant (.Record sub) => some sub
  | .Variant .None => some []
  | .Item => some []

def raw_components (s : TyStore) : List Member → Option (List TyId)
  | [] => some []
  | m :: ms => do
    let xs ← raw_member s m
    let ys ← raw_components s ms
    return xs ++ ys

/-- The binding of a declaration's first `n` parameters to a type's arguments. -/
def bind_args (d : DefId) (n : Nat) (args : List TyId) : Binding :=
  args.zipIdx.foldl (fun b p => if p.2 < n then (b.bind d p.2 p.1).1 else b) (Binding.new [(d, n)])

/-- `subst_norm(tys, t, &b).unwrap_or(t)`, for each type. -/
def subst_or (k : Keys) (b : Binding) : TyStore → List TyId → Option (TyStore × List TyId)
  | s, [] => some (s, [])
  | s, t :: ts => do
    let (s, out) ← subst_norm k b (t + 1) s t
    let (s, us) ← subst_or k b s ts
    return (s, out.getD t :: us)

def components (k : Keys) (sigs : SigStore) (s : TyStore) (ty : TyId) :
    Option (TyStore × List TyId) := do
  let row ← s.rows[ty]?
  match sigs[row.a]? with
  | none => some (s, [])
  | some sig => do
    let raw ← raw_components s sig.members
    let args ← s.args_at row.b
    if args = [] then some (s, raw)
    else subst_or k (bind_args row.a (sig.generics % 2 ^ 16) args) s raw

/-- `any`, from left to right up to the first `true`. -/
def any_lin (f : TyStore → Memo → TyId → Option (TyStore × Memo × Bool)) :
    TyStore → Memo → List TyId → Option (TyStore × Memo × Bool)
  | s, m, [] => some (s, m, false)
  | s, m, x :: xs => do
    let (s, m, v) ← f s m x
    if v then some (s, m, true) else any_lin f s m xs

/-- The by-value components of an unqualified row that is not linear by itself. -/
def lin_parts (k : Keys) (sigs : SigStore) (env : LinEnv) (s : TyStore) (ty : TyId) :
    Option (TyStore × List TyId) := do
  let row ← s.rows[ty]?
  match row.tag with
  | .Nominal =>
    if row.a ∈ env.own ∨ row.a ∈ env.opaque_ then some (s, [])
    else if row.a ∈ env.by_value then do
      let args ← s.args_at row.b
      some (s, args.take 1)
    else components k sigs s ty
  | .Tuple => do
    let args ← s.args_at row.b
    some (s, args)
  | _ => some (s, [])

/-- `lin_body`; `top` is `depth == 0`, and `f` is `lin_uncached` one level down. -/
def lin_body (k : Keys) (sigs : SigStore) (env : LinEnv)
    (f : TyStore → Memo → TyId → Option (TyStore × Memo × Bool)) (top : Bool) (s : TyStore)
    (m : Memo) (ty : TyId) : Option (TyStore × Memo × Bool) := do
  let row ← s.rows[ty]?
  match row.tag with
  | .Param | .Proj => some (s, m, top && decide (ty ∈ env.rigid_linear))
  | .Nominal =>
    if row.a ∈ env.roots ∨ row.a ∈ env.own then some (s, m, true)
    else do
      let (s, parts) ← lin_parts k sigs env s ty
      any_lin f s m parts
  | .Tuple => do
    let (s, parts) ← lin_parts k sigs env s ty
    any_lin f s m parts
  | _ => some (s, m, false)

/-- `lin_uncached` at depth `65 - left`: the guard `depth > 64` is `left = 0`. -/
def lin_uncached (k : Keys) (sigs : SigStore) (env : LinEnv) :
    Nat → TyStore → Memo → TyId → Option (TyStore × Memo × Bool)
  | 0, s, m, _ => some (s, m, false)
  | left + 1, s, m, ty =>
    if ty = TY_ERROR ∨ ty = NO_TY then some (s, m, false)
    else do
      let row ← s.rows[ty]?
      let ty := row.unqual
      let row ← s.rows[ty]?
      let body := lin_body k sigs env (lin_uncached k sigs env left) (left = 64) s
      if row.tag = .Nominal ∨ row.tag = .Tuple then
        match m.lookup ty with
        | some v => some (s, m, v)
        | none => do
          let (s, m, v) ← body ((ty, false) :: m) ty
          some (s, (ty, v) :: m, v)
      else body m ty

def lin (k : Keys) (sigs : SigStore) (env : LinEnv) (s : TyStore) (m : Memo) (ty : TyId) :
    Option (TyStore × Memo × Bool) :=
  lin_uncached k sigs env 65 s m ty

def droppable (k : Keys) (sigs : SigStore) (env : LinEnv) (s : TyStore) (m : Memo) (ty : TyId) :
    Option (TyStore × Memo × Bool) := do
  let (s, m, v) ← lin k sigs env s m ty
  some (s, m, !v)

def lin_components (k : Keys) (sigs : SigStore) (env : LinEnv) (s : TyStore) (m : Memo) (ty : TyId) :
    Option (TyStore × Memo × Bool) := do
  let row ← s.rows[ty]?
  let (s, parts) ← lin_parts k sigs env s row.unqual
  any_lin (lin_uncached k sigs env 64) s m parts

end Fors.Ty
