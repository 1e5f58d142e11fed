import Fors.Check.Pat
import Fors.Ty.Lin

/-!
# Exhaustiveness and usefulness

The plain usefulness algorithm over a matrix of lowered patterns, charged in matrix rows, and the
check of a `match` that asks it once for every arm and once for the row of a wildcard.

Sources: `crates/fors-check/src/exhaust.rs`, `crates/fors-check/src/pat.rs`.
-/

namespace Fors.Check

open Trees Coverage
open Ty

inductive SigKind where
  | Fn | ExternFn | Struct | Enum | Trait | Impl | Const | Poisoned | Absent
  deriving DecidableEq

/-- What the check reads of the checker: its types, the declarations, and `substituted`, a
declared type with the head's parameters bound. The types are those at the end of the check: a
type that is interned on the way changes none that is there. -/
structure Wf where
  tys : TyStore
  kind : DefId → SigKind
  members : DefId → List Member
  substituted : DefId → ArgsId → TyId → TyId

/-- The step budget is this many times the match's own pattern-node count. -/
def MATCH_STEP_FACTOR : Nat := 256

structure Budget where
  steps : Nat
  limit : Nat
  deriving DecidableEq

def Budget.new (limit : Nat) : Budget :=
  ⟨0, limit⟩

/-- Charges `n` steps; `false` once the total has crossed the limit. -/
def Budget.charge (b : Budget) (n : Nat) : Budget × Bool :=
  ({ b with steps := b.steps + n }, decide (b.steps + n ≤ b.limit))

/-- A witness is a tree of constructors and wildcards, as a pattern is. -/
abbrev Witness := Pat Ctor

def Witness.Wild : Witness :=
  .node none []

def Witness.Ctor (c : Ctor) (subs : List Witness) : Witness :=
  .node (some c) subs

/-- The complete constructor set of a column's type, each with the types of its parts. -/
inductive Sig where
  | Finite (ctors : List (Ctor × List TyId))
  | Infinite
  deriving DecidableEq

/-! ## Types -/

def PrimKind.ALL : List PrimKind :=
  [.I8, .I16, .I32, .I64, .Isize, .U8, .U16, .U32, .U64, .Usize, .F32, .F64, .Bool, .Str, .RawPtr]

def PrimKind.from_u8 (v : Nat) : Option PrimKind :=
  PrimKind.ALL[v]?

namespace Wf

variable (W : Wf)

/-- The row of `unqual(t)`. -/
def bare (t : TyId) : Option TyRow :=
  (W.tys.rows[t]?).bind fun row => W.tys.rows[row.unqual]?

def args (id : ArgsId) : List TyId :=
  (W.tys.args_at id).getD []

def scrutinee_args (t : TyId) (d : DefId) : ArgsId :=
  match W.bare t with
  | some row => if row.tag = .Nominal ∧ row.a = d then row.b else NO_ARGS
  | none => NO_ARGS

/-- The types of a declaration's fields; their names are only for the text of a diagnostic. -/
def struct_fields (d : DefId) (args : ArgsId) : List TyId :=
  (W.members d).filterMap fun
    | .Field ty => some (W.substituted d args ty)
    | _ => none

/-- One variant's own component types (tuple or record payload shape), declaration order,
substituted by `args`. -/
def variant_component_types (d : DefId) (args : ArgsId) : Payload → List TyId
  | .None => []
  | .Tuple parts => (W.args parts).map (W.substituted d args)
  | .Record sub => sub.map (W.substituted d args)

/-- The payloads of a declaration's variants. -/
def variants (d : DefId) : List Payload :=
  (W.members d).filterMap fun
    | .Variant payload => some payload
    | _ => none

def nth_variant (d : DefId) (index : Nat) : Option Payload :=
  (W.variants d)[index]?

/-- The types of a constructor's parts, from the column's type. -/
def ctor_sub_tys (ty : TyId) : Ctor → List TyId
  | .Bool _ | .Int _ | .Str _ => []
  | .Tuple _ =>
    match W.bare ty with
    | some row => if row.tag = .Tuple then W.args row.b else []
    | none => []
  | .Struct d => W.struct_fields d (W.scrutinee_args ty d)
  | .Variant d index =>
    match W.nth_variant d index with
    | some m => W.variant_component_types d (W.scrutinee_args ty d) m
    | none => []

/-- The primitive that a type is, under its qualifiers. -/
def prim (ty : TyId) : Option PrimKind :=
  if ty = TY_ERROR ∨ ty = NO_TY then none
  else
    match W.bare ty with
    | some row => if row.tag = .Prim then PrimKind.from_u8 (row.a % 2 ^ 8) else none
    | none => none

def signature_of (ty : TyId) : Sig :=
  if ty = TY_ERROR ∨ ty = NO_TY then .Infinite
  else
    match W.bare ty with
    | none => .Infinite
    | some row =>
      match row.tag with
      | .Prim =>
        if PrimKind.from_u8 (row.a % 2 ^ 8) = some .Bool then
          .Finite [(.Bool false, []), (.Bool true, [])]
        else .Infinite
      | .Tuple => .Finite [(.Tuple (W.args row.b).length, W.args row.b)]
      | .Nominal =>
        match W.kind row.a with
        | .Struct => .Finite [(.Struct row.a, W.struct_fields row.a row.b)]
        | .Enum =>
          let out := (W.variants row.a).zipIdx.map fun p =>
            (.Variant row.a p.2, W.variant_component_types row.a row.b p.1)
          if out = [] then .Infinite else .Finite out
        | _ => .Infinite
      | _ => .Infinite

/-! ## The matrix -/

section Matrix

variable (store : PatStore)

def specialize (c : Ctor) (arity : Nat) (rows : List (List PatId)) : List (List PatId) :=
  rows.flatMap fun
    | [] => []
    | r :: rest =>
      match store.ctor_of r with
      | none => [List.replicate arity store.wild ++ rest]
      | some rc => if rc = c then [store.subs r ++ rest] else []

def default_rows (rows : List (List PatId)) : List (List PatId) :=
  rows.flatMap fun
    | [] => []
    | r :: rest => if store.ctor_of r = none then [rest] else []

/-- Some row starts with the constructor. -/
def occurs (rows : List (List PatId)) (c : Ctor) : Bool :=
  rows.any fun
    | [] => false
    | r :: _ => store.ctor_of r = some c

/-- `format!("other{n}")`. -/
def other (n : Nat) : String :=
  "other" ++ toString n

/-- A value of an infinite column that no row uses: the first of as many candidates as there are
rows, and one more. -/
def missing_literal (ty : TyId) (rows : List (List PatId)) : Witness :=
  let candidate (n : Nat) : Ctor := if W.prim ty = some .Str then .Str (other n) else .Int n
  match (List.range (rows.length + 1)).find? fun n => ¬ occurs store rows (candidate n) with
  | some n => .Ctor (candidate n) []
  | none => .Wild

/-- The first `arity` witnesses become parts of `c`. -/
def combine_witness (c : Ctor) (arity : Nat) (w : List Witness) : List Witness :=
  .Ctor c (w.take arity) :: w.drop arity

/-- The budget after a walk, and its result: `none` once the budget is exhausted, else the witness
if there is one. -/
abbrev Walk := Budget × Option (Option (List Witness))

/-- The loop over a complete signature, which never stops early: the first witness is kept. -/
def try_ctors (f : Ctor × List TyId → Budget → Option Walk) :
    List (Ctor × List TyId) → Budget → Option (List Witness) → Option Walk
  | [], b, witness => some (b, some witness)
  | (c, sub_tys) :: ctors, b, witness => do
    let (b, r) ← f (c, sub_tys) b
    match r with
    | none => some (b, none)
    | some r =>
      try_ctors f ctors b (witness.or (r.map (combine_witness c sub_tys.length)))

/-- `usefulness`; the outer `none` is a recursion deeper than the fuel, or a column without a
type. -/
def usefulness : Nat → List TyId → List (List PatId) → List PatId → Budget → Option Walk
  | 0, _, _, _, _ => none
  | fuel + 1, col_tys, rows, v, b =>
    let (b, ok) := b.charge rows.length
    if ¬ ok then some (b, none)
    else
      match v, col_tys with
      | [], _ => some (b, some (if rows = [] then some [] else none))
      | _ :: _, [] => none
      | v0 :: vs, t :: ts =>
        match store.ctor_of v0 with
        | some c => do
          let sub_tys := W.ctor_sub_tys t c
          let (b, r) ← usefulness fuel (sub_tys ++ ts) (specialize store c sub_tys.length rows)
            (store.subs v0 ++ vs) b
          some (b, r.map (Option.map (combine_witness c sub_tys.length)))
        | none =>
          match W.signature_of t with
          | .Finite ctors =>
            match ctors.find? fun p => ¬ occurs store rows p.1 with
            | none =>
              try_ctors (fun p b => usefulness fuel (p.2 ++ ts)
                (specialize store p.1 p.2.length rows)
                (List.replicate p.2.length store.wild ++ vs) b) ctors b none
            | some (c, sub_tys) => do
              let (b, r) ← usefulness fuel ts (default_rows store rows) vs b
              some (b, r.map (Option.map fun rest =>
                .Ctor c (List.replicate sub_tys.length .Wild) :: rest))
          | .Infinite => do
            let (b, r) ← usefulness fuel ts (default_rows store rows) vs b
            some (b, r.map (Option.map fun rest => W.missing_literal store t rows :: rest))

/-! ## The match -/

/-- What the check of a `match` leaves behind. -/
inductive Outcome where
  /-- The scrutinee failed to type, or there are no arms. -/
  | silent
  /-- The step budget is exceeded. -/
  | step_budget (steps limit : Nat)
  /-- The pattern nodes of the arms that are not useful, whether the match is recorded exhaustive,
  and the witness that the diagnostic shows when it is not. -/
  | checked (unreachable : List Nat) (exhaustive : Bool) (missing : Option Witness)

/-- Each arm against every arm before it: the arms that are not useful, or `none` in the place of
these once the budget is exceeded. -/
def check_arms (fuel : Nat) (s : TyId) (before : List PatId) :
    List (Nat × PatId) → Budget → Option (Budget × Option (List Nat))
  | [], b => some (b, some [])
  | (node, p) :: arms, b => do
    let (b, r) ← W.usefulness store fuel [s] (before.map fun p => [p]) [p] b
    match r with
    | none => some (b, none)
    | some w =>
      let (b, rest) ← check_arms fuel s (before ++ [p]) arms b
      some (b, rest.map fun rest => if w.isNone then node :: rest else rest)

def check_match (fuel : Nat) (arms : List (Nat × PatId)) (s : TyId) : Option Outcome :=
  if s = TY_ERROR ∨ s = NO_TY ∨ arms = [] then some .silent
  else do
    let limit := MATCH_STEP_FACTOR * store.pattern_node_count
    let (b, unreachable) ← W.check_arms store fuel s [] arms (.new limit)
    match unreachable with
    | none => some (.step_budget b.steps limit)
    | some unreachable => do
      let (b, r) ← W.usefulness store fuel [s] (arms.map fun a => [a.2]) [store.wild] b
      match r with
      | none => some (.step_budget b.steps limit)
      | some missing =>
        some (.checked unreachable missing.isNone (missing.bind List.head?))

end Matrix

end Wf

end Fors.Check
