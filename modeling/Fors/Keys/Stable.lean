import Fors.Lib.LittleEndian
import Fors.Lib.PrefixCode
import Fors.Fmir.Encode
import Fors.Sigs.Names

/-!
# Stable keys

The key of a declaration is the hash of its module path, kind, name, disambiguator and container's
key. The disambiguator of an impl is the fold of its header, and each counts the declarations
before it that agree on container, kind and name or fold.

Source: `crates/fors-check/src/queries/keys.rs`.
-/

namespace Fors.Keys

open Fors.Sigs Fors.Ty LittleEndian

/-- A declaration's identity across revisions. -/
abbrev StableKey := UInt64

/-- A row of a file's declaration table. -/
structure DeclRow where
  kind : DeclKind
  name : Option Symbol
  /-- The row of the enclosing `impl` or `trait`. -/
  parent : Option Nat
  node : Nat
  deriving DecidableEq

def is_ident_continue (b : UInt8) : Prop :=
  48 ≤ b.toNat ∧ b.toNat ≤ 57 ∨ 65 ≤ b.toNat ∧ b.toNat ≤ 90 ∨ b.toNat = 95 ∨
    97 ≤ b.toNat ∧ b.toNat ≤ 122

/-- A file's declarations, as the declaration table has them: a container stands before its
members and has no container itself, an impl has no name, and names are identifiers. -/
structure DeclFile where
  interner : Interner
  module : List Symbol
  rows : List DeclRow
  fits : rows.length ≤ 2 ^ 32
  strings : interner.strings.Nodup
  names : ∀ row ∈ rows, ∀ s, row.name = some s →
    ∃ bytes, interner.resolve s = some bytes ∧ ∀ b ∈ bytes, is_ident_continue b
  unnamed : ∀ row ∈ rows, row.kind = .Impl → row.name = none
  parents : ∀ (i p : Nat) (row : DeclRow), rows[i]? = some row → row.parent = some p →
    p < i ∧ ∃ container : DeclRow, rows[p]? = some container ∧ container.parent = none

/-- Container, kind, and name or header fold. -/
abbrev OwnKey := Option Nat × DeclKind × Nat

/-- The count of one key, which is one more than before. -/
def bump (k : OwnKey) : List (OwnKey × Nat) → Nat × List (OwnKey × Nat)
  | [] => (0, [(k, 0)])
  | (x, n) :: seen =>
    if x = k then (n + 1, (x, n + 1) :: seen)
    else ((bump k seen).1, (x, n) :: (bump k seen).2)

def text (n : Interner) (s : Symbol) : Bytes :=
  (n.resolve s).getD []

def module_bytes (n : Interner) (module : List Symbol) : Bytes :=
  module.flatMap fun s => text n s ++ [0xFF]

def name_bytes (n : Interner) : Option Symbol → Bytes
  | some s => text n s
  | none => [0x00]

/-- What is hashed. -/
def encode_key (n : Interner) (module : List Symbol) (kind : DeclKind) (name : Option Symbol)
    (disamb parent_key : UInt64) : Bytes :=
  module_bytes n module ++ 0xFE :: kind.as_u8 :: (name_bytes n name ++ 0xFE ::
    (le_bytes 8 disamb.toNat ++ le_bytes 8 parent_key.toNat))

/-- `hash_bytes(..) as u64`. -/
def hash_key (bytes : Bytes) : StableKey :=
  ⟨(Fmir.hash_bytes bytes).setWidth 64⟩

section Keys

variable (impl_header_fold : Nat → UInt32)

def DeclRow.own (row : DeclRow) : Nat :=
  if row.kind = .Impl then (impl_header_fold row.node).toNat
  else match row.name with
    | some s => s
    | none => 2 ^ 64 - 1

def DeclRow.own_key (row : DeclRow) : OwnKey :=
  (row.parent, row.kind, row.own impl_header_fold)

def DeclRow.base (row : DeclRow) : Nat :=
  if row.kind = .Impl then (impl_header_fold row.node).toNat else 0

structure KeyState where
  out : List StableKey
  seen : List (OwnKey × Nat)

/-- The container's key among the keys so far. -/
def found_key (out : List StableKey) : Option Nat → StableKey
  | none => 0
  | some p => out.getD p 0

def key_step (file : DeclFile) (st : KeyState) (row : DeclRow) : KeyState :=
  let parent_key := found_key st.out row.parent
  let counted := bump (row.own_key impl_header_fold) st.seen
  let disamb := UInt64.ofNat (row.base impl_header_fold) + .ofNat counted.1
  let enc := encode_key file.interner file.module row.kind row.name disamb parent_key
  ⟨st.out ++ [hash_key enc], counted.2⟩

def file_decl_keys (file : DeclFile) : List StableKey :=
  (file.rows.foldl (key_step impl_header_fold file) ⟨[], []⟩).out

/-! ## What a key is made of -/

/-- How many rows before `i` agree with `row` on container, kind and name or fold. -/
def earlier (file : DeclFile) (i : Nat) (row : DeclRow) : Nat :=
  ((file.rows.take i).map (DeclRow.own_key impl_header_fold)).count (row.own_key impl_header_fold)

def disamb (file : DeclFile) (i : Nat) (row : DeclRow) : Nat :=
  row.base impl_header_fold + earlier impl_header_fold file i row

/-- The key of a container, which no row contains. -/
def container_key (file : DeclFile) (p : Nat) (row : DeclRow) : StableKey :=
  hash_key (encode_key file.interner file.module row.kind row.name
    (.ofNat (disamb impl_header_fold file p row)) 0)

def parent_key (file : DeclFile) (row : DeclRow) : StableKey :=
  match row.parent with
  | none => 0
  | some p => match file.rows[p]? with
    | none => 0
    | some container => container_key impl_header_fold file p container

def key_bytes (file : DeclFile) (i : Nat) (row : DeclRow) : Bytes :=
  encode_key file.interner file.module row.kind row.name
    (.ofNat (disamb impl_header_fold file i row)) (parent_key impl_header_fold file row)

end Keys

end Fors.Keys
