import Fors.Syntax.Tokens
import Fors.Ty.Store

/-!
# Declarations

The rows of the definition table that the authority checks read, where a declaration's head stands
in its file, and the form of a diagnostic.
-/

namespace Fors.Authority

open Fors.Syntax Fors.Ty

/-! ## Diagnostics -/

inductive Code where
  | N (n : Nat)
  | A (n : Nat)
  | T (n : Nat)
  | O (n : Nat)
  | F (n : Nat)
  | D (n : Nat)
  deriving DecidableEq

structure Diagnostic where
  file : Nat
  range : Nat × Nat
  code : Code
  site : Nat
  message : String
  deriving DecidableEq

/-! ## The definition table -/

def NO_DEF : DefId :=
  2 ^ 32 - 1

inductive DeclKind where
  | Fn | ExternFn | Struct | Enum | Trait | Impl | Const | Use | ModuleHeader | Needs | Inputs
  | Contracts
  deriving DecidableEq

structure DefRow where
  file : Nat
  kind : DeclKind
  name : Option Symbol
  /-- The enclosing `impl` or `trait`, or `NO_DEF`. -/
  parent : DefId
  /-- The declaration's node in its own file's tree. -/
  node : Nat
  deriving DecidableEq

/-- Rows below `first_user` are the prelude's and have no file. -/
structure DefTable where
  rows : List (Option DefRow)
  first_user : DefId
  deriving DecidableEq

namespace DefTable

variable (defs : DefTable)

def get (d : DefId) : Option DefRow :=
  (defs.rows[d]?).join

/-- The declarations of the user's source, in order. -/
def user_defs : List (DefId × DefRow) :=
  (List.range' defs.first_user (defs.rows.length - defs.first_user)).filterMap fun d =>
    (defs.get d).map fun row => (d, row)

variable {defs}

theorem mem_user_defs {d : DefId} {row : DefRow} :
    (d, row) ∈ defs.user_defs ↔ defs.first_user ≤ d ∧ defs.get d = some row := by
  simp only [user_defs, List.mem_filterMap, List.mem_range'_1, Option.map_eq_some_iff,
    Prod.mk.injEq]
  constructor
  · rintro ⟨d', ⟨hle, -⟩, row', hget, rfl, rfl⟩
    exact ⟨hle, hget⟩
  · rintro ⟨hle, hget⟩
    have hlt : d < defs.rows.length := by
      by_contra hge
      rw [get, List.getElem?_eq_none (Nat.le_of_not_lt hge)] at hget
      cases hget
    have hend : d < defs.first_user + (defs.rows.length - defs.first_user) := by
      rw [Nat.add_sub_cancel' (Nat.le_trans hle (Nat.le_of_lt hlt))]
      exact hlt
    exact ⟨d, ⟨hle, hend⟩, row, hget, rfl, rfl⟩

theorem nodup_user_defs (defs : DefTable) : (defs.user_defs.map Prod.fst).Nodup := by
  have hsub : (defs.user_defs.map Prod.fst).Sublist
      (List.range' defs.first_user (defs.rows.length - defs.first_user)) := by
    rw [user_defs]
    induction List.range' defs.first_user (defs.rows.length - defs.first_user) with
    | nil => exact .slnil
    | cons d ds ih =>
      rw [List.filterMap_cons]
      cases defs.get d with
      | none => exact ih.cons d
      | some row => exact ih.cons_cons d
  exact hsub.nodup List.nodup_range'

end DefTable

end Fors.Authority

namespace Fors.Syntax.FileCtx

/-- The children a declaration's head ends before. -/
def is_member : NodeKind → Bool
  | .Block | .Field | .EVariant | .FnDecl | .TraitItem | .AssocTypeDecl | .AssocTypeDef => true
  | _ => false

/-- A declaration's own header: its first significant token through the token before its first
member or body. -/
def header_range (f : FileCtx) (node : Nat) : Nat × Nat :=
  let r := f.tree.token_range node
  let stop := match (f.tree.children node).find? fun c => is_member (f.tree.kind c) with
    | none => r.2
    | some c => (f.tree.token_range c).1
  let sig := ((List.range (min (max stop r.1) f.tokens.kinds.length)).drop r.1).filter fun i =>
    !(f.tokens.kind i).is_trivia
  match sig.head?, sig.getLast? with
  | some x, some y => ((f.tokens.range x).1, (f.tokens.range y).2)
  | _, _ => f.byte_range node

end Fors.Syntax.FileCtx
