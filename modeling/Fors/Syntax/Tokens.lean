import Fors.Syntax.TreeBuilder

/-!
# Files as the checker reads them

The columns of a file's tokens and of its tree, and the reads the checker's syntactic passes make
of them. Every token's text is a slice of the source, and a node is skipped by the length of its
subtree.

Token positions are naturals here; columns that a lexer or a parser cannot give are excluded by the
fields that say so.

Source: `crates/fors-syntax/src/tree.rs`.
-/

namespace Fors.Syntax

abbrev Bytes := List UInt8

/-! ## Tokens -/

inductive TokenKind where
  | Whitespace | LineComment | BlockComment
  | Ident | Int | Float | Str | MultilineStr
  | KwModule | KwUse | KwPub | KwFn | KwStruct | KwEnum | KwTrait | KwImpl | KwConst | KwExtern
  | KwLet | KwVar | KwInout | KwSink | KwIf | KwElse | KwMatch | KwFor | KwIn | KwWhile | KwBreak
  | KwContinue | KwReturn | KwRaise | KwRaises | KwWith | KwParallel | KwSimd | KwSpawn
  | KwComptime | KwMove | KwConsume | KwDiscard | KwAs | KwAnd | KwOr | KwNot | KwTrue | KwFalse
  | KwIso | KwImm | KwSecret | KwDyn | KwAsm | KwImport | KwRecover | Underscore
  | LParen | RParen | LBracket | RBracket | LBrace | RBrace | Comma | Semi | Colon | Dot | At
  | Question | Arrow | FatArrow | Eq | EqEq | NotEq | Lt | Gt | LtEq | GtEq | Plus | Minus | Star
  | Slash | Percent | Amp | Pipe | Caret | Shl | Shr | DotDotLt | DotDotEq | PlusEq | MinusEq
  | StarEq | SlashEq | PercentEq | AmpEq | PipeEq | CaretEq | ShlEq | ShrEq
  | Error | Eof
  | KwType | KwSpmd | KwKernel | KwDefer | KwErrdefer
  deriving DecidableEq

/-- White space and comments. -/
def TokenKind.is_trivia : TokenKind → Bool
  | .Whitespace | .LineComment | .BlockComment => true
  | _ => false

/-- The tokens of a file: `starts` has one more entry than `kinds`, where the last one ends. -/
structure Tokens where
  kinds : List TokenKind
  starts : List Nat
  length_starts : starts.length = kinds.length + 1
  sorted : starts.Pairwise (· ≤ ·)
  deriving DecidableEq

namespace Tokens

variable (tokens : Tokens)

def kind (i : Nat) : TokenKind :=
  tokens.kinds.getD i .Eof

/-- The bytes of token `i`. -/
def range (i : Nat) : Nat × Nat :=
  (tokens.starts.getD i 0, tokens.starts.getD (i + 1) 0)

def text (i : Nat) (source : Bytes) : Bytes :=
  let r := tokens.range i
  (source.take r.2).drop r.1

end Tokens

/-! ## Nodes -/

inductive NodeKind where
  | File | ModuleHdr | ContractsClause | NeedsClause | InputsClause | UseDecl | Path | DotLit
  | Attribute | AttrArg | FnDecl | ExternFnDecl | FnSig | Generics | GParam | Params | Param
  | Raises | Contract | StructDecl | Field | EnumDecl | EVariant | TraitDecl | TraitItem
  | ImplDecl | ConstDecl | Block | LetStmt | Binding | TupleBinding | AssignStmt | ExprStmt
  | ForStmt | WhileStmt | BreakStmt | ContinueStmt | ReturnStmt | RaiseStmt | WithStmt
  | ParallelStmt | ParallelForStmt | SimdForStmt | SpawnStmt | ConsumeStmt | DiscardStmt
  | AttrBlockStmt | OrExpr | AndExpr | NotExpr | CmpExpr | BitExpr | RangeExpr | AddExpr
  | MulExpr | CastExpr | UnaryExpr | CallExpr | Handler | Bracket | FieldExpr | TryExpr
  | NamedArg | InoutArg | SetArg | BareOp | Literal | NameExpr | StructLit | FInit | TupleOrParen
  | ArrayLit | AsmExpr | AsmItem | Closure | CParam | IfExpr | MatchExpr | Arm | ComptimeBlock
  | PatWild | PatLit | PatPath | PatDot | PatTuple | Payload | FPat | QualType | ScopedType
  | TypeApp | TupleType | FnType | FParam | DynType | Error | UseItem | PatLet | AssocTypeDecl
  | AssocTypeDef | GConstraint | DeferStmt | ErrdeferStmt
  deriving DecidableEq

/-- The tokens of a node: its first one and the one behind it. -/
def TreeRow.token_range {K : Type} (row : TreeRow K) : Nat × Nat :=
  (row.first_token.toNat, row.first_token.toNat + row.token_len.toNat)

namespace Tree

variable (tree : Tree NodeKind)

def kind (i : Nat) : NodeKind :=
  ((tree[i]?).map TreeRow.kind).getD .Error

def token_range (i : Nat) : Nat × Nat :=
  ((tree[i]?).map TreeRow.token_range).getD (0, 0)

/-- The node behind the subtree of node `i`. -/
def subtree_end (i : Nat) : Nat :=
  i + ((tree[i]?).map TreeRow.subtree_len).getD 1

/-- The siblings from `next` on. -/
def siblings (fin : Nat) : Nat → Nat → List Nat
  | 0, _ => []
  | fuel + 1, next => if fin ≤ next then [] else next :: siblings fin fuel (tree.subtree_end next)

/-- Direct children of node `i`, as their starting indices. -/
def children (i : Nat) : List Nat :=
  tree.siblings (tree.subtree_end i) tree.length (i + 1)

end Tree

/-! ## A file -/

structure FileCtx where
  file : Nat
  tree : Tree NodeKind
  tokens : Tokens
  source : Bytes
  /-- A subtree has its own node. -/
  grows : ∀ row ∈ tree, 0 < row.subtree_len

namespace FileCtx

variable (f : FileCtx)

/-- The tokens of a node that the file has. -/
def node_tokens (node : Nat) : List Nat :=
  let r := f.tree.token_range node
  (List.range (min r.2 f.tokens.kinds.length)).drop r.1

/-- Every identifier inside a node, in order. -/
def all_words (node : Nat) : List Bytes :=
  ((f.node_tokens node).filter fun i =>
    f.tokens.kind i = .Ident ∨ f.tokens.kind i = .KwAsm).map fun i => f.tokens.text i f.source

/-- The significant tokens of a node. -/
def sig_tokens (node : Nat) : List Nat :=
  (f.node_tokens node).filter fun i => !(f.tokens.kind i).is_trivia

/-- A string literal token's contents, quotes stripped. -/
def str_contents (tok : Nat) : Option Bytes :=
  if f.tokens.kind tok ≠ .Str then none
  else
    let t := f.tokens.text tok f.source
    if 2 ≤ t.length then some ((t.drop 1).dropLast) else none

/-- The header clause of kind `k`, if any. -/
def header_clause (k : NodeKind) : Option Nat :=
  if f.tree.isEmpty then none else (f.tree.children 0).find? fun c => f.tree.kind c = k

/-- Whether the module's own `needs` declares `cap`. -/
def needs_has (cap : List Bytes) : Bool :=
  match f.header_clause .NeedsClause with
  | none => false
  | some clause => (f.tree.children clause).any fun p => f.all_words p = cap

/-- Whether the attribute node `a` is `@name`. -/
def attr_is (a : Nat) (name : Bytes) : Bool :=
  match (f.sig_tokens a)[1]? with
  | none => false
  | some i => f.tokens.kind i = .Ident ∧ f.tokens.text i f.source = name

/-- Whether declaration `decl` carries the attribute `@name`. -/
def decl_has_attr (decl : Nat) (name : Bytes) : Bool :=
  (f.tree.children decl).any fun c => f.tree.kind c = .Attribute ∧ f.attr_is c name

/-- The bytes of a node, from its first significant token to its last. -/
def byte_range (node : Nat) : Nat × Nat :=
  match (f.sig_tokens node).head?, (f.sig_tokens node).getLast? with
  | some first, some last => ((f.tokens.range first).1, (f.tokens.range last).2)
  | _, _ =>
    let a := (f.tree.token_range node).1
    if a < f.tokens.kinds.length then ((f.tokens.range a).1, (f.tokens.range a).1) else (0, 0)

end FileCtx

end Fors.Syntax
