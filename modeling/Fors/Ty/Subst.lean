import Fors.Ty.Store

/-!
# Substitution and the one-way match

`subst_norm` rebuilds a type with the bound parameters in place, `one_way_match` walks a pattern
and a target in lockstep and binds the parameters it meets. Both run without a projection solver:
a projection whose head is concrete cannot be reduced.

Sources: `crates/fors-fir/src/subst.rs`, `crates/fors-fir/src/ty.rs`.
-/

namespace Fors.Ty

/-! ## Bindings -/

/-- One owner's slice of the slot vector. -/
structure OwnerSlots where
  owner : DefId
  start : Nat
  len : Nat
  deriving DecidableEq

/-- The parameter bindings of one call or one impl selection. -/
structure Binding where
  owners : List OwnerSlots
  slots : List TyId
  deriving DecidableEq

namespace Binding

/-- One step of `new`'s loop over the owners. -/
def push (b : Binding) (owner : DefId × Nat) : Binding :=
  ⟨b.owners ++ [⟨owner.1, b.slots.length, owner.2⟩], b.slots ++ List.replicate owner.2 NO_TY⟩

def new (owners : List (DefId × Nat)) : Binding :=
  owners.foldl push ⟨[], []⟩

def owns (b : Binding) (owner : DefId) : Bool :=
  b.owners.any fun o => o.owner = owner

def at_ (b : Binding) (owner : DefId) (ordinal : Nat) : Option Nat := do
  let o ← b.owners.find? fun o => o.owner = owner
  if ordinal ≥ o.len then none else some (o.start + ordinal)

/-- The bound type, or `NO_TY`. -/
def slot (b : Binding) (owner : DefId) (ordinal : Nat) : TyId :=
  match b.at_ owner ordinal with
  | some i => b.slots.getD i NO_TY
  | none => NO_TY

/-- Binds a slot, or compares what it holds. -/
def bind (b : Binding) (owner : DefId) (ordinal : Nat) (ty : TyId) : Binding × Bool :=
  match b.at_ owner ordinal with
  | none => (b, false)
  | some i =>
    if b.slots.getD i NO_TY = NO_TY then ({ b with slots := b.slots.set i ty }, true)
    else (b, b.slots.getD i NO_TY = ty)

end Binding

namespace TyStore

/-- `is_monomorphic`: no flag of `F_OPEN`. -/
def is_monomorphic (row : TyRow) : Bool :=
  row.flags &&& (F_PARAM ||| F_PROJ ||| F_BRAND) = 0

def is_rigid (row : TyRow) : Bool :=
  row.tag = .Param ∨ row.tag = .Proj

/-! ## Substitution

The outer `Option` is a panic, or a walk deeper than its fuel; the inner one is the source's. -/

/-- The `?` of a walk that calls another one. -/
def then_ {α β : Type} (w : Option (TyStore × Option α))
    (f : TyStore → α → Option (TyStore × Option β)) : Option (TyStore × Option β) :=
  match w with
  | some (s, some a) => f s a
  | some (s, none) => some (s, none)
  | none => none

/-- A walk that ends with an interned row. -/
def done (r : Option (TyStore × TyId)) : Option (TyStore × Option TyId) :=
  r.map fun p => (p.1, some p.2)

/-- The walk over a list of types, from left to right. -/
def subst_list (f : TyStore → TyId → Option (TyStore × Option TyId)) :
    TyStore → List TyId → Option (TyStore × Option (List TyId))
  | s, [] => some (s, some [])
  | s, x :: xs => then_ (f s x) fun s y =>
      then_ (subst_list f s xs) fun s ys => some (s, some (y :: ys))

/-- `subst_norm` of a type that may be absent. -/
def subst_raises (f : TyStore → TyId → Option (TyStore × Option TyId)) (s : TyStore)
    (raises : TyId) : Option (TyStore × Option TyId) :=
  if raises = NO_TY then some (s, some NO_TY) else f s raises

/-- `subst_core` of the row `ty`; `f` is `subst_norm` one level down. -/
def subst_core (k : Keys) (b : Binding) (f : TyStore → TyId → Option (TyStore × Option TyId))
    (s : TyStore) (ty : TyId) : Option (TyStore × Option TyId) := do
  let row ← s.rows[ty]?
  match row.tag with
  | .Param =>
    if ¬ b.owns row.a then some (s, some ty)
    else
      let v := b.slot row.a (row.b % 2 ^ 16)
      some (s, if v = NO_TY then none else some v)
  | .Brand => do
    match ← s.brands[row.b]? with
    | .Param owner ordinal =>
      if b.owns owner then
        let v := b.slot owner ordinal
        some (s, if v = NO_TY then none else some v)
      else some (s, some ty)
    | .Fresh _ _ => some (s, some ty)
  | .Nominal => do
    let args ← s.args_at row.b
    then_ (subst_list f s args) fun s xs => done (s.nominal_of k row.a xs)
  | .Tuple => do
    let args ← s.args_at row.b
    then_ (subst_list f s args) fun s xs => done (s.tuple_of k xs)
  | .Dyn => do
    let (trait_def, args) ← s.trait_refs[row.a]?
    let args ← s.args_at args
    then_ (subst_list f s args) fun s xs => do
      let (s, id) ← s.intern_args k xs
      let (s, tr) ← s.intern_trait_ref k trait_def id
      done (s.dyn_ty k tr)
  | .Fn => do
    let (params, result, raises, closure) ← s.fn_at row.a
    then_ (subst_list f s (params.map Prod.snd)) fun s tys =>
      then_ (f s result) fun s result =>
        then_ (subst_raises f s raises) fun s raises => do
          let (s, id) ← s.intern_fn_ty k ((params.map Prod.fst).zip tys) result raises closure
          done (s.fn_ty k id)
  | .Proj => do
    let (tr, name) ← s.proj_keys[row.b]?
    let (trait_def, targs) ← s.trait_refs[tr]?
    let targs ← s.args_at targs
    then_ (subst_list f s targs) fun s xs => do
      let (s, id) ← s.intern_args k xs
      let (s, tr) ← s.intern_trait_ref k trait_def id
      let (s, key) ← s.intern_proj_key k tr name
      then_ (f s row.a) fun s head => do
        let head_row ← s.rows[head]?
        if is_rigid head_row then done (s.proj k head key) else some (s, none)
  | .ConstVal =>
    then_ (f s row.b) fun s t => do
      let v ← s.consts[row.a]?
      done (s.const_ty k v t)
  | _ => some (s, some ty)

/-- `subst_norm`, without a projection solver. -/
def subst_norm (k : Keys) (b : Binding) : Nat → TyStore → TyId → Option (TyStore × Option TyId)
  | 0, _, _ => none
  | fuel + 1, s, ty => do
    let row ← s.rows[ty]?
    if is_monomorphic row then some (s, some ty)
    else
      then_ (subst_core k b (subst_norm k b fuel) s row.unqual) fun s out =>
        if row.quals = .NONE then some (s, some out)
        else do
          let out_row ← s.rows[out]?
          if out_row.quals ≠ .NONE then some (s, none)
          else done (s.qualified k out row.quals)

/-! ## The match -/

inductive MatchMode where
  | Strict
  | NoFail
  deriving DecidableEq

/-- The `&&` of two matches. -/
def and_then (m : Option (TyStore × Binding × Bool))
    (f : TyStore → Binding → Option (TyStore × Binding × Bool)) :
    Option (TyStore × Binding × Bool) :=
  match m with
  | some (s, b, true) => f s b
  | some (s, b, false) => some (s, b, false)
  | none => none

/-- `match_args` on the lists themselves. -/
def match_list (f : TyStore → TyId → TyId → Binding → Option (TyStore × Binding × Bool)) :
    TyStore → List TyId → List TyId → Binding → Option (TyStore × Binding × Bool)
  | s, p :: ps, t :: ts, b => and_then (f s p t b) fun s b => match_list f s ps ts b
  | s, _, _, b => some (s, b, true)

def match_args (f : TyStore → TyId → TyId → Binding → Option (TyStore × Binding × Bool))
    (s : TyStore) (p t : ArgsId) (b : Binding) : Option (TyStore × Binding × Bool) := do
  let ps ← s.args_at p
  let ts ← s.args_at t
  if ts.length ≠ ps.length then some (s, b, false) else match_list f s ps ts b

/-- The loop over the parameters of two function types. -/
def match_params (f : TyStore → TyId → TyId → Binding → Option (TyStore × Binding × Bool)) :
    TyStore → List (Conv × TyId) → List (Conv × TyId) → Binding →
      Option (TyStore × Binding × Bool)
  | s, (pc, pt) :: ps, (tc, tt) :: ts, b =>
    if pc ≠ tc then some (s, b, false)
    else and_then (f s pt tt b) fun s b => match_params f s ps ts b
  | s, _, _, b => some (s, b, true)

/-- Whether the head chain of `p` ends in a parameter that is still unbound. -/
def proj_head_unbound (s : TyStore) (b : Binding) : Nat → TyId → Option Bool
  | 0, _ => none
  | fuel + 1, cur => do
    let row ← s.rows[cur]?
    match row.tag with
    | .Proj => proj_head_unbound s b fuel row.a
    | .Param => some (b.owns row.a ∧ b.slot row.a (row.b % 2 ^ 16) = NO_TY)
    | _ => some false

/-- The match of two rows that agree on their qualifiers; `f` is the match one level down. -/
def match_core (mode : MatchMode)
    (f : TyStore → TyId → TyId → Binding → Option (TyStore × Binding × Bool)) (s : TyStore)
    (pattern target : TyId) (b : Binding) : Option (TyStore × Binding × Bool) := do
  let p ← s.rows[pattern]?
  let t ← s.rows[target]?
  match p.tag with
  | .Brand =>
    if mode = .NoFail then some (s, b, true)
    else do
      match ← s.brands[p.b]? with
      | .Param owner ordinal =>
        if b.owns owner then
          let (b, ok) := b.bind owner ordinal target
          some (s, b, ok)
        else some (s, b, pattern = target)
      | .Fresh _ _ => some (s, b, pattern = target)
  | .Nominal =>
    if t.tag ≠ .Nominal ∨ t.a ≠ p.a then some (s, b, false) else match_args f s p.b t.b b
  | .Tuple => if t.tag ≠ .Tuple then some (s, b, false) else match_args f s p.b t.b b
  | .Dyn =>
    if t.tag ≠ .Dyn then some (s, b, false)
    else do
      let (pd, pa) ← s.trait_refs[p.a]?
      let (td, ta) ← s.trait_refs[t.a]?
      if pd ≠ td then some (s, b, false) else match_args f s pa ta b
  | .Fn =>
    if t.tag ≠ .Fn then some (s, b, false)
    else do
      let (ps, pr, pe, pc) ← s.fn_at p.a
      let (ts, tr, te, tc) ← s.fn_at t.a
      if pc ≠ tc then some (s, b, false)
      else if ts.length ≠ ps.length then some (s, b, false)
      else
        and_then (match_params f s ps ts b) fun s b =>
          and_then (f s pr tr b) fun s b =>
            if pe = NO_TY ∧ te = NO_TY then some (s, b, true)
            else if pe ≠ NO_TY ∧ te ≠ NO_TY then f s pe te b
            else some (s, b, false)
  | .ConstVal =>
    if t.tag ≠ .ConstVal ∨ t.a ≠ p.a then some (s, b, false) else f s p.b t.b b
  | _ => some (s, b, pattern = target)

/-- `one_way_match_mode`, without a projection solver. -/
def one_way_match (k : Keys) (mode : MatchMode) :
    Nat → TyStore → TyId → TyId → Binding → Option (TyStore × Binding × Bool)
  | 0, _, _, _, _ => none
  | fuel + 1, s, pattern, target, b => do
    let p ← s.rows[pattern]?
    if is_monomorphic p then some (s, b, pattern = target)
    else do
      let t ← s.rows[target]?
      match p.tag with
      | .Proj => do
        if ← proj_head_unbound s b (fuel + 1) pattern then some (s, b, true)
        else
          match ← subst_norm k b (fuel + 1) s pattern with
          | (s, some out) => some (s, b, out = target)
          | (s, none) => some (s, b, false)
      | .Param =>
        if ¬ b.owns p.a then some (s, b, pattern = target)
        else if p.quals = .NONE then
          let (b, ok) := b.bind p.a (p.b % 2 ^ 16) target
          some (s, b, ok)
        else if p.quals ≠ t.quals then some (s, b, false)
        else
          let (b, ok) := b.bind p.a (p.b % 2 ^ 16) t.unqual
          some (s, b, ok)
      | _ =>
        if p.quals ≠ t.quals then some (s, b, false)
        else match_core mode (one_way_match k mode fuel) s pattern target b

end TyStore

end Fors.Ty
