import Fors.Lib.Words

/-!
# The tree builder

Model of `crates/fors-syntax/src/tree.rs`: the flat syntax tree and its one-pass builder.  Nodes are
recorded in creation order, a wrapper is appended like any other node and linked from the node it
encloses, and `finish` emits the columns in pre-order.  Next to it stands an ordered tree that is built
by insertion.

Token positions are `u32` and wrap.  A creation index is a length cut by `as u32` (`push`,
`finish_node`); the columns of indices hold what the cut left, and a link that reads `NONE` is none.
-/

namespace Fors.Syntax

open Words (as_u32)

variable {K : Type}

/-! ## The tree -/

/-- The columns of a node. -/
structure TreeRow (K : Type) where
  kind : K
  first_token : UInt32
  token_len : UInt32
  subtree_len : Nat
  deriving DecidableEq

/-- The nodes in pre-order. -/
abbrev Tree (K : Type) := List (TreeRow K)

/-! ## The builder -/

/-- The index that stands for no node. -/
def NONE : Nat := 2 ^ 32 - 1

/-- What a column of links says when `idx` is written into it. -/
def link (idx : Nat) : Option Nat :=
  if idx = NONE then none else some idx

theorem link_of_lt {idx : Nat} (h : idx < NONE) : link idx = some idx :=
  if_neg (Nat.ne_of_lt h)

/-- The difference of two `u32`s. -/
def sub_u32 (a b : Nat) : Nat := as_u32 (a + 2 ^ 32 - b)

theorem sub_u32_eq {a b : Nat} (hle : b ≤ a) (ha : a < 2 ^ 32) : sub_u32 a b = a - b := by
  have hsum : a + 2 ^ 32 - b = a - b + 2 ^ 32 := by omega
  rw [sub_u32, hsum, as_u32, Nat.add_mod_right, Nat.mod_eq_of_lt (by omega)]

/-- The builder's columns of a node. -/
structure BuildRow (K : Type) where
  kind : K
  first_token : UInt32
  end_token : UInt32
  /-- Creation index one past the node's last descendant. -/
  end_idx : Nat
  /-- Where the node's subtree starts: itself, or the enclosed sibling's start for a wrapper. -/
  start_of : Nat
  /-- The wrapper that is emitted directly before this node. -/
  wrapper : Option Nat
  deriving DecidableEq

/-- The columns of a node in the tree. -/
def BuildRow.emit (row : BuildRow K) : TreeRow K :=
  ⟨row.kind, row.first_token, row.end_token - row.first_token, sub_u32 row.end_idx row.start_of⟩

structure TreeBuilder (K : Type) where
  rows : List (BuildRow K)
  /-- The open nodes, the innermost first. -/
  stack : List Nat
  cur_token : UInt32
  /-- The most recently finished child of the innermost open node. -/
  last_closed : Option Nat
  deriving DecidableEq

namespace TreeBuilder

def new : TreeBuilder K :=
  ⟨[], [], 0, none⟩

def push (b : TreeBuilder K) (kind : K) (first_token : UInt32) (start_of : Option Nat) :
    TreeBuilder K :=
  let idx := as_u32 b.rows.length
  { b with
    rows := b.rows ++ [⟨kind, first_token, first_token, as_u32 (idx + 1), start_of.getD idx, none⟩]
    stack := idx :: b.stack }

def start_node (b : TreeBuilder K) (kind : K) : TreeBuilder K :=
  { b.push kind b.cur_token none with last_closed := none }

def finish_node (b : TreeBuilder K) : TreeBuilder K :=
  match b.stack with
  | [] => b
  | idx :: stack =>
    { b with
      rows := b.rows.modify idx fun row =>
        { row with end_token := b.cur_token, end_idx := as_u32 b.rows.length }
      stack := stack
      last_closed := link idx }

/-- Wraps the most recently finished sibling in a new open node; starts a node where there is
none. -/
def wrap_last_sibling (b : TreeBuilder K) (kind : K) : TreeBuilder K :=
  match b.last_closed.bind fun i => (b.rows[i]?).map fun row => (i, row) with
  | none => b.start_node kind
  | some (i, row) =>
    let idx := as_u32 b.rows.length
    let b := b.push kind row.first_token (link row.start_of)
    { b with
      rows := b.rows.modify i fun row => { row with wrapper := link idx }
      last_closed := none }

/-- Relabels the currently open node (a production recognised only after some of its children were
parsed under a tentative kind). -/
def set_current_kind (b : TreeBuilder K) (kind : K) : TreeBuilder K :=
  match b.stack with
  | [] => b
  | idx :: _ => { b with rows := b.rows.modify idx fun row => { row with kind := kind } }

def set_last_kind (b : TreeBuilder K) (kind : K) : TreeBuilder K :=
  match b.last_closed with
  | none => b
  | some i => { b with rows := b.rows.modify i fun row => { row with kind := kind } }

/-- Advances the raw-token cursor by `n` (a significant token plus its leading trivia). -/
def bump_raw (b : TreeBuilder K) (n : UInt32) : TreeBuilder K :=
  { b with cur_token := b.cur_token + n }

def empty_node (b : TreeBuilder K) (kind : K) : TreeBuilder K :=
  (b.start_node kind).finish_node

/-! ### Emission -/

def wrapper_of (rows : List (BuildRow K)) (j : Nat) : Option Nat :=
  (rows[j]?).bind BuildRow.wrapper

/-- How many wrappers are above node `j`, and the node itself.  In a table of fewer than `2 ^ 32` rows a
wrapper is younger than what it encloses, so the table is long enough a bound. -/
def chain_len (rows : List (BuildRow K)) : Nat → Nat → Nat
  | 0, _ => 1
  | fuel + 1, j =>
    match wrapper_of rows j with
    | none => 1
    | some w => chain_len rows fuel w + 1

/-- Writes node `j` at `pos - 1` and its wrappers before it, the outermost first. -/
def write_chain (rows : List (BuildRow K)) : Nat → Nat → Nat → Tree K → Tree K
  | 0, _, _, tree => tree
  | fuel + 1, pos, j, tree =>
    let tree := match rows[j]? with
      | none => tree
      | some row => tree.set (pos - 1) row.emit
    match wrapper_of rows j with
    | none => tree
    | some w => write_chain rows fuel (pos - 1) w tree

/-- One round of `finish`: a wrapper is emitted with the subtree it encloses. -/
def emit_row (rows : List (BuildRow K)) (state : Nat × Tree K) (i : Nat) : Nat × Tree K :=
  let (out, tree) := state
  if (rows[i]?).map BuildRow.start_of ≠ some i then (out, tree)
  else
    let chain := chain_len rows rows.length i
    (out + chain, write_chain rows (rows.length + 1) (out + chain) i tree)

def close_all (b : TreeBuilder K) : TreeBuilder K :=
  b.stack.foldl (fun b _ => b.finish_node) b

/-- The columns in pre-order; an `error` row stands where none is written. -/
def finish (error : K) (b : TreeBuilder K) : Tree K :=
  let rows := b.close_all.rows
  ((List.range rows.length).foldl (emit_row rows)
    (0, List.replicate rows.length ⟨error, 0, 0, 0⟩)).2

end TreeBuilder

/-! ## The calls -/

inductive Call (K : Type) where
  | start_node (kind : K)
  | finish_node
  | wrap_last_sibling (kind : K)
  | set_current_kind (kind : K)
  | set_last_kind (kind : K)
  | bump_raw (n : UInt32)
  | empty_node (kind : K)
  deriving DecidableEq

def TreeBuilder.call (b : TreeBuilder K) : Call K → TreeBuilder K
  | .start_node kind => b.start_node kind
  | .finish_node => b.finish_node
  | .wrap_last_sibling kind => b.wrap_last_sibling kind
  | .set_current_kind kind => b.set_current_kind kind
  | .set_last_kind kind => b.set_last_kind kind
  | .bump_raw n => b.bump_raw n
  | .empty_node kind => b.empty_node kind

/-- How many nodes a call records. -/
def Call.creates : Call K → Nat
  | .start_node _ | .wrap_last_sibling _ | .empty_node _ => 1
  | _ => 0

/-- How many nodes the calls record. -/
def nodes_of (calls : List (Call K)) : Nat :=
  (calls.map Call.creates).sum

def TreeBuilder.run (calls : List (Call K)) : TreeBuilder K :=
  calls.foldl TreeBuilder.call .new

/-! ## The ordered tree -/

/-- A finished node with its children in order. -/
inductive Node (K : Type) where
  | mk (kind : K) (first_token token_len : UInt32) (children : List (Node K))

/-- A node whose children are still being added. `taken` holds the child it was wrapped around. -/
structure OpenNode (K : Type) where
  kind : K
  first_token : UInt32
  taken : List (Node K)
  children : List (Node K)

/-- The finished node. -/
def OpenNode.close (o : OpenNode K) (cur : UInt32) : Node K :=
  .mk o.kind o.first_token (cur - o.first_token) (o.taken ++ o.children)

namespace Node

def first_token : Node K → UInt32
  | mk _ first _ _ => first

def set_kind (kind : K) : Node K → Node K
  | mk _ first len children => mk kind first len children

mutual

/-- The number of nodes. -/
def size : Node K → Nat
  | mk _ _ _ children => size_all children + 1

def size_all : List (Node K) → Nat
  | [] => 0
  | node :: nodes => size node + size_all nodes

end

mutual

/-- The columns in pre-order. -/
def preorder : Node K → Tree K
  | mk kind first len children =>
    ⟨kind, first, len, size_all children + 1⟩ :: preorder_all children

def preorder_all : List (Node K) → Tree K
  | [] => []
  | node :: nodes => preorder node ++ preorder_all nodes

end

end Node

/-- The reference builder: the open nodes, the innermost first, and the finished top-level nodes. -/
structure OrderedBuilder (K : Type) where
  opened : List (OpenNode K)
  done : List (Node K)
  cur_token : UInt32

namespace OrderedBuilder

def new : OrderedBuilder K :=
  ⟨[], [], 0⟩

/-- The finished children of the innermost open node, or the top-level nodes. -/
def siblings (r : OrderedBuilder K) : List (Node K) :=
  match r.opened with
  | [] => r.done
  | o :: _ => o.children

def set_siblings (r : OrderedBuilder K) (nodes : List (Node K)) : OrderedBuilder K :=
  match r.opened with
  | [] => { r with done := nodes }
  | o :: rest => { r with opened := { o with children := nodes } :: rest }

def open_node (r : OrderedBuilder K) (kind : K) (first : UInt32) (taken : List (Node K)) :
    OrderedBuilder K :=
  { r with opened := ⟨kind, first, taken, []⟩ :: r.opened }

def finish_node (r : OrderedBuilder K) : OrderedBuilder K :=
  match r.opened with
  | [] => r
  | o :: rest =>
    let r := { r with opened := rest }
    r.set_siblings (r.siblings ++ [o.close r.cur_token])

/-- Replaces the last finished child by a new open node around it. -/
def wrap_last_sibling (r : OrderedBuilder K) (kind : K) : OrderedBuilder K :=
  match r.siblings.getLast? with
  | none => r.open_node kind r.cur_token []
  | some c => (r.set_siblings r.siblings.dropLast).open_node kind c.first_token [c]

/-- The same, where the child a node was wrapped around counts as its finished child. -/
def wrap_any (r : OrderedBuilder K) (kind : K) : OrderedBuilder K :=
  match r.siblings.getLast? with
  | none => r.open_node kind r.cur_token []
  | some c =>
    let r := r.set_siblings r.siblings.dropLast
    { r with opened := ⟨kind, c.first_token, [], [c]⟩ :: r.opened }

def set_current_kind (r : OrderedBuilder K) (kind : K) : OrderedBuilder K :=
  match r.opened with
  | [] => r
  | o :: rest => { r with opened := { o with kind := kind } :: rest }

def set_last_kind (r : OrderedBuilder K) (kind : K) : OrderedBuilder K :=
  match r.siblings.getLast? with
  | none => r
  | some c => r.set_siblings (r.siblings.dropLast ++ [c.set_kind kind])

def call (r : OrderedBuilder K) : Call K → OrderedBuilder K
  | .start_node kind => r.open_node kind r.cur_token []
  | .finish_node => r.finish_node
  | .wrap_last_sibling kind => r.wrap_last_sibling kind
  | .set_current_kind kind => r.set_current_kind kind
  | .set_last_kind kind => r.set_last_kind kind
  | .bump_raw n => { r with cur_token := r.cur_token + n }
  | .empty_node kind => (r.open_node kind r.cur_token []).finish_node

def call_any (r : OrderedBuilder K) : Call K → OrderedBuilder K
  | .wrap_last_sibling kind => r.wrap_any kind
  | c => r.call c

def run (calls : List (Call K)) : OrderedBuilder K :=
  calls.foldl call .new

def run_any (calls : List (Call K)) : OrderedBuilder K :=
  calls.foldl call_any .new

def close_all (r : OrderedBuilder K) : OrderedBuilder K :=
  r.opened.foldl (fun r _ => r.finish_node) r

def finish (r : OrderedBuilder K) : Tree K :=
  Node.preorder_all r.close_all.done

end OrderedBuilder

end Fors.Syntax
