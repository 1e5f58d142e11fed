import Fors.Diag.Edits
import Fors.Lib.Sorting
import Fors.Lib.Words
import Mathlib.Data.List.Destutter
import Mathlib.Data.Prod.Lex

/-!
# The module graph

`build_module_graph` and `detect_cycles` of `crates/fors-index/src/module.rs`: the `use` paths of
all file headers, resolved to modules by the longest-module-prefix rule, and the checks on the graph
they form: a header that names another module, a module that imports itself, a cycle of imports. A
symbol is kept as the text it was interned for. A module's id is its file's place, cut to 32 bits.
-/

namespace Fors.Index

open Diag (Fix FixKind)

open Words (as_u32)

abbrev Symbol := String

abbrev Segments := List Symbol

abbrev Range := UInt32 × UInt32

abbrev FileId := UInt32

abbrev ModuleId := Nat

def join_dotted (segs : List Symbol) : String :=
  ".".intercalate segs

/-- A text's bytes, which are compared as numbers. -/
def name_bytes (text : String) : List Nat :=
  (Utf8.bytes text).map UInt8.toNat

/-! ## Names -/

def KEYWORDS : List Symbol :=
  ["module", "use", "pub", "fn", "struct", "enum", "trait", "impl", "const", "extern", "let", "var",
    "inout", "sink", "if", "else", "match", "for", "in", "while", "break", "continue", "return",
    "raise", "raises", "with", "parallel", "simd", "spawn", "comptime", "move", "consume",
    "discard", "as", "and", "or", "not", "true", "false", "iso", "imm", "secret", "dyn", "asm",
    "import", "recover", "type", "spmd", "kernel", "defer", "errdefer"]

def is_lowercase (c : Char) : Bool :=
  'a' ≤ c && c ≤ 'z'

/-- Rule 24: a legal directory segment or file stem. -/
def is_legal_segment (seg : Symbol) : Bool :=
  match seg.toList with
  | [] => false
  | c :: cs =>
    seg ≠ "_" && (c = '_' || is_lowercase c) &&
      (c :: cs).all (fun c => c = '_' || is_lowercase c || ('0' ≤ c && c ≤ '9')) &&
      !KEYWORDS.contains seg

/-! ## Facts and diagnostics -/

/-- What one file contributes to the module graph. -/
structure FileFacts where
  header : Option (Segments × Range)
  /-- The header path's own span, leading trivia excluded: what a fix replaces. -/
  header_path : Option Range
  uses : List (Segments × Range)

/-- A file of the build, under the name that its place gives it. -/
structure File where
  file : FileId
  name : Segments
  facts : FileFacts

inductive DiagCode where
  | HeaderPathMismatch
  | ImportCycle
  | SelfImport
  deriving DecidableEq

structure Diagnostic where
  file : FileId
  start : UInt32
  end_ : UInt32
  code : DiagCode
  message : String
  fixes : List Fix
  deriving DecidableEq

structure Edge where
  source : ModuleId
  target : ModuleId
  range : Range

/-! ## Headers and uses -/

/-- Two files may have one name; the first keeps it, as `ModuleId(i as u32)`. -/
def by_name (files : List File) (segs : Segments) : Option ModuleId :=
  ((files.map File.name).idxOf? segs).map as_u32

/-- Rule 1: the header path must equal the file's derived name. -/
def header_diags (f : File) : List Diagnostic :=
  match f.facts.header with
  | none => []
  | some (header_segs, range) =>
    if header_segs = f.name then []
    else
      let got := join_dotted header_segs
      let want := join_dotted f.name
      let (fa, fb) := f.facts.header_path.getD range
      -- a file whose own name is illegal has no header that would match it
      let fixes :=
        if f.name.all is_legal_segment then
          [⟨"rewrite the header path to `" ++ want ++ "`", FixKind.FixModuleHeaderPath,
            [⟨fa, fb, want⟩]⟩]
        else []
      [⟨f.file, range.1, range.2, .HeaderPathMismatch, "module header `" ++ got ++
        "` does not match its file's module name `" ++ want ++ "`", fixes⟩]

/-- Rule 4: the whole path names a module, or all but its last segment does. -/
def use_target (files : List File) (path : Segments) : Option ModuleId :=
  match by_name files path with
  | some m => some m
  | none => if 2 ≤ path.length then by_name files path.dropLast else none

def push_edge_dedup (edges : List Edge) (e : Edge) : List Edge :=
  if edges.any fun x => x.source = e.source ∧ x.target = e.target then edges else edges ++ [e]

def resolve_use_edge (files : List File) (source : ModuleId) (source_file : FileId)
    (acc : List Edge × List Diagnostic) (use : Segments × Range) : List Edge × List Diagnostic :=
  match use_target files use.1 with
  | none => acc
  | some target =>
    if target = source then
      (acc.1, acc.2 ++ [⟨source_file, use.2.1, use.2.2, .SelfImport,
        "module imports itself via `" ++ join_dotted use.1 ++ "`", []⟩])
    else (push_edge_dedup acc.1 ⟨source, target, use.2⟩, acc.2)

/-- The edges of all files in their order, and the self imports. -/
def resolve_uses (files : List File) : List Edge × List Diagnostic :=
  files.zipIdx.foldl (fun acc f =>
    f.1.facts.uses.foldl (resolve_use_edge files (as_u32 f.2) f.1.file) acc) ([], [])

/-- Sorted and deduplicated. -/
def graph_edges (files : List File) : List Edge :=
  (Sorting.sort (fun e => toLex (e.source, e.target)) (resolve_uses files).1).destutter
    fun a b => ¬(a.source = b.source ∧ a.target = b.target)

/-! ## Cycles

The search does not depend on what its nodes are: the code's are module ids. -/

section Search

variable {V : Type} [DecidableEq V]

/-- The modules on a cycle, in order, and the range of the `use` path that forms each edge. -/
abbrev Cycle (V : Type) := List V × List Range

structure Dfs (V : Type) where
  visited : V → Bool
  on_stack : V → Bool
  stack : List V
  /-- How each node of the stack but the first was reached. -/
  edge_in : List Range

/-- The edges of the node on top of the stack. -/
def dfs_edges (visit : V → Dfs V → Option (Dfs V × Option (Cycle V))) :
    List (V × Range) → Dfs V → Option (Dfs V × Option (Cycle V))
  | [], st => some (st, none)
  | (v, range) :: edges, st =>
    if st.on_stack v then
      let pos := st.stack.idxOf v
      some (st, some (st.stack.drop pos, st.edge_in.drop pos ++ [range]))
    else if st.visited v then dfs_edges visit edges st
    else do
      let (st, found) ← visit v { st with edge_in := st.edge_in ++ [range] }
      match found with
      | some c => some (st, some c)
      | none => dfs_edges visit edges { st with edge_in := st.edge_in.dropLast }

/-- Nested at most `fuel` deep. -/
def dfs (adj : V → List (V × Range)) : Nat → V → Dfs V → Option (Dfs V × Option (Cycle V))
  | 0, _, _ => none
  | fuel + 1, u, st => do
    let (st, found) ← dfs_edges (dfs adj fuel) (adj u)
      { visited := Function.update st.visited u true
        on_stack := Function.update st.on_stack u true
        stack := st.stack ++ [u]
        edge_in := st.edge_in }
    match found with
    | some c => some (st, some c)
    | none => some ({ st with
        stack := st.stack.dropLast
        on_stack := Function.update st.on_stack u false }, none)

def find_from (adj : V → List (V × Range)) (fuel : Nat) :
    List V → (V → Bool) → Option (Option (Cycle V))
  | [], _ => some none
  | start :: order, visited =>
    if visited start then find_from adj fuel order visited
    else do
      let (st, found) ← dfs adj fuel start ⟨visited, fun _ => false, [], []⟩
      match found with
      | some c => some (some c)
      | none => find_from adj fuel order st.visited

/-- The first back edge that a depth-first search meets. -/
def find_one_cycle (adj : V → List (V × Range)) (order : List V) : Option (Option (Cycle V)) :=
  find_from adj order.length order fun _ => false

/-- The first place of the least name. -/
def min_position (text : V → String) (path : List V) : Nat :=
  (List.range path.length).foldl (fun best i =>
    match path[i]?, path[best]? with
    | some u, some v => if name_bytes (text u) < name_bytes (text v) then i else best
    | _, _ => best) 0

/-- Reports a cycle and removes its closing edge, until no cycle is left. An edge leads to an id: the
least module is cut to one before it is compared. -/
def report_cycles (as_id : V → V) (text : V → String) (file : V → FileId) (order : List V) :
    Nat → (V → List (V × Range)) → List Diagnostic → Option (List Diagnostic)
  | 0, _, out => some out
  | iters + 1, adj, out => do
    match ← find_one_cycle adj order with
    | none => some out
    | some (path, path_edges) =>
      let min_pos := min_position text path
      let names ← (List.range (path.length + 1)).mapM fun k => path[(min_pos + k) % path.length]?
      let closing_idx := (min_pos + path.length - 1) % path.length
      let closing_edge ← path_edges[closing_idx]?
      let tail ← path[closing_idx]?
      let head ← path[min_pos]?
      report_cycles as_id text file order iters
        (fun u => if u = tail then (adj u).filter (fun e => e.1 ≠ as_id head) else adj u)
        (out ++ [⟨file tail, closing_edge.1, closing_edge.2, .ImportCycle,
          "import cycle: " ++ " -> ".intercalate (names.map text), []⟩])

end Search

def module_text (files : List File) (m : ModuleId) : String :=
  join_dotted ((files.map File.name).getD m [])

/-- A module's edges, by target name. -/
def adjacency (files : List File) (m : ModuleId) : List (ModuleId × Range) :=
  Sorting.sort (fun e => name_bytes (module_text files e.1))
    (((graph_edges files).filter fun e => e.source = m).map fun e => (e.target, e.range))

def detect_cycles (files : List File) : Option (List Diagnostic) :=
  report_cycles as_u32 (module_text files) (fun m => (files.map File.file).getD m 0)
    (Sorting.sort (fun m => name_bytes (module_text files m)) (List.range files.length))
    ((graph_edges files).length + 1) (adjacency files) []

/-- The edges of the graph and all diagnostics. -/
def build_module_graph (files : List File) :
    Option (List (ModuleId × ModuleId) × List Diagnostic) := do
  let cycle_diags ← detect_cycles files
  some ((graph_edges files).map fun e => (e.source, e.target),
    files.flatMap header_diags ++ (resolve_uses files).2 ++ cycle_diags)

end Fors.Index
