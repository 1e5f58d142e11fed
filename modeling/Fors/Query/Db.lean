import Fors.Lib.ReadTree
import Fors.Lib.Words
import Mathlib.Data.List.Sort

/-!
# The incremental query engine

Model of `crates/fors-query` (`key.rs`, `cycle.rs`, `stats.rs`, `db.rs`): node columns, the append-only
dependency arena, the in-flight stack, `pull` / `verify` / `execute` and the operations a caller has.

* A query set is a `ReadTree` for each key: `compute` asks for keys through `Db::read` and ends
  with an `Outcome`; a read answers with a value hash or with `Cancelled`.
* The cancellation flag is shared with other threads, which set and reset it when they like.  The
  engine only ever polls it, so the model keeps the answer of every poll (`CancelFlag.answers`).
* `Engine` is the database together with the calls the query set has received, newest first.
  A call of `compute` is logged with the database it was handed.
* `pull` calls itself through `verify` and `execute`; it takes a bound on the depth of that recursion.
  `Stop.fuel` is the bound running out, `Stop.panic` a failed assertion or an index out of range.

Node ids and arena positions are 32 bits wide, and the source cuts a length down to them with
`as u32` at three places: `Nodes::push`, `execute` and `compact`.  `Ids` is that cut.  The engine is
`Ids.u32`; `Ids.wide` keeps every length, and is what the proofs reason about (`Query/Narrow`).  The
capacity that `compact` asks for, the accessors and the rendering of the counters are left out.
-/

namespace Fors.Query

open Words (as_u32)

/-- What becomes of a length that is kept as a node id or as a place in the arena. -/
class Ids where
  of_len : Nat → Nat

/-- The source's ids: `len() as u32`. -/
instance Ids.u32 : Ids := ⟨as_u32⟩

/-- Ids without a bound. -/
@[reducible] def Ids.wide : Ids := ⟨fun n => n⟩

@[simp] theorem Ids.of_len_wide (n : Nat) : Ids.wide.of_len n = n := rfl

/-- One node of the graph, named by its query kind and two payload columns. -/
structure QueryKey where
  kind : UInt16
  a : UInt32
  b : UInt32
  deriving DecidableEq

def QueryKey.unit (kind : UInt16) : QueryKey := ⟨kind, 0, 0⟩

def QueryKey.one (kind : UInt16) (a : UInt32) : QueryKey := ⟨kind, a, 0⟩

/-- `u128`. -/
abbrev ValueHash := BitVec 128

/-- A demand abandoned because the cancellation flag was set. -/
inductive Cancelled where
  | cancelled
  deriving DecidableEq

/-- What a computation returns. -/
inductive Outcome where
  | value (v : ValueHash)
  | cancelled
  deriving DecidableEq

/-- The in-flight path handed to `on_cycle`. -/
structure Cycle where
  at_key : QueryKey
  path : List QueryKey
  deriving DecidableEq

/-- The query set. -/
structure Queries where
  compute : QueryKey → ReadTree QueryKey (Except Cancelled ValueHash) Outcome
  on_cycle : QueryKey → Cycle → ValueHash

/-- A node's value hash and the revision it last changed at. -/
structure Answer where
  value : ValueHash
  changed_at : Nat
  deriving DecidableEq

inductive State where
  | empty
  | valid
  deriving DecidableEq

/-- One row of the node columns. -/
structure Node where
  key : QueryKey
  value : ValueHash
  verified_at : Nat
  changed_at : Nat
  dep_start : Nat
  dep_len : Nat
  state : State
  is_input : Bool
  deriving DecidableEq

/-- The row `Nodes::push` appends. -/
def Node.new (key : QueryKey) : Node := ⟨key, 0, 0, 0, 0, 0, .empty, false⟩

/-- One in-flight query. -/
structure Frame where
  node : Nat
  deps : List Nat
  attributed : Bool
  deriving DecidableEq

/-- The counters the engine writes. -/
structure Stats where
  input_writes : Nat
  probes : Nat
  input_reads : Nat
  memo_hits : Nat
  green : Nat
  red : Nat
  executed : Nat
  cutoffs : Nat
  cycles : Nat
  cancellations : Nat
  by_kind : List Nat
  deriving DecidableEq

def Stats.zero : Stats := ⟨0, 0, 0, 0, 0, 0, 0, 0, 0, 0, []⟩

/-- Counts one execution of a kind. -/
def Stats.charge_kind (s : Stats) (kind : UInt16) : Stats :=
  let i := kind.toNat
  let by_kind := s.by_kind ++ List.replicate (i + 1 - s.by_kind.length) 0
  { s with by_kind := by_kind.modify i (· + 1) }

/-- `answers n` is what the `n`-th poll finds. -/
structure CancelFlag where
  answers : Nat → Bool
  polls : Nat

/-- The flag nobody sets. -/
def CancelFlag.never : CancelFlag := ⟨fun _ => false, 0⟩

/-- The incremental database. -/
structure Db where
  rev : Nat
  nodes : List Node
  index : List (QueryKey × Nat)
  deps : List Nat
  /-- The innermost frame first. -/
  stack : List Frame
  stats : Stats
  cancel : CancelFlag
  executed : List QueryKey
  window : Bool

inductive Stop where
  | panic
  | fuel
  deriving DecidableEq

namespace Db

def new (cancel : CancelFlag) : Db := ⟨0, [], [], [], [], .zero, cancel, [], false⟩

/-- Row `i` of the node columns. -/
def row (db : Db) (i : Nat) : Node := db.nodes.getD i (Node.new ⟨0, 0, 0⟩)

def set_row (db : Db) (i : Nat) (n : Node) : Db := { db with nodes := db.nodes.set i n }

def charge (db : Db) (f : Stats → Stats) : Db := { db with stats := f db.stats }

/-- What the next poll of the flag finds. -/
def is_cancelled (db : Db) : Bool := db.cancel.answers db.cancel.polls

def polled (db : Db) : Db := { db with cancel.polls := db.cancel.polls + 1 }

def find? (db : Db) (key : QueryKey) : Option Nat := db.index.lookup key

/-- The id of a key; a key that has none gets the next row. -/
def intern [Ids] (db : Db) (key : QueryKey) : Nat × Db :=
  match db.find? key with
  | some id => (id, db)
  | none =>
    let id := Ids.of_len db.nodes.length
    (id, { db with nodes := db.nodes ++ [Node.new key], index := (key, id) :: db.index })

/-- Declares `key` an input and gives it a value hash; whether the value changed. -/
def set_input [Ids] (db : Db) (key : QueryKey) (value : ValueHash) : Except Stop (Bool × Db) :=
  let (i, db) := db.intern key
  let n := db.row i
  if n.state = .valid ∧ n.is_input = false then .error .panic
  else if n.state = .valid ∧ n.value = value then
    .ok (false, db.set_row i { n with is_input := true })
  else
    let rev := db.rev + 1
    let db := { db with rev := rev }
    let db := db.set_row i
      { n with is_input := true, value := value, changed_at := rev, verified_at := rev, state := .valid }
    .ok (true, db.charge fun s => { s with input_writes := s.input_writes + 1 })

/-- An input's current value hash. -/
def input (db : Db) (key : QueryKey) : Option ValueHash :=
  match db.find? key with
  | none => none
  | some i =>
    if (db.row i).is_input ∧ (db.row i).state = .valid then some (db.row i).value else none

/-- A node's memoised value hash, without demanding it. -/
def value_of (db : Db) (key : QueryKey) : Option ValueHash :=
  match db.find? key with
  | none => none
  | some i => if (db.row i).state = .valid then some (db.row i).value else none

/-- The revision the value last changed at. -/
def changed_at (db : Db) (key : QueryKey) : Option Nat :=
  match db.find? key with
  | none => none
  | some i => if (db.row i).state = .valid then some (db.row i).changed_at else none

/-- `verified_at` of a node with a value. -/
def verified_at (db : Db) (key : QueryKey) : Option Nat :=
  match db.find? key with
  | none => none
  | some i => if (db.row i).state = .valid then some (db.row i).verified_at else none

/-- The ids in the dependency range of a row. -/
def range (db : Db) (n : Node) : List Nat := (db.deps.drop n.dep_start).take n.dep_len

/-- The edges a node recorded at its last execution. -/
def deps_of (db : Db) (key : QueryKey) : List QueryKey :=
  match db.find? key with
  | none => []
  | some i => (db.range (db.row i)).map fun d => (db.row d).key

/-- Opens a counting window. -/
def open_window (db : Db) : Db :=
  { db with
    executed := []
    window := true
    stats := { Stats.zero with by_kind := List.replicate db.stats.by_kind.length 0 } }

/-- The loop of `compact`: the rows with their new ranges, and the fresh arena. -/
def compact_rows [Ids] (arena : List Nat) : List Node → List Nat → Except Stop (List Node × List Nat)
  | [], fresh => .ok ([], fresh)
  | n :: ns, fresh =>
    if n.dep_start + n.dep_len ≤ arena.length then
      match compact_rows arena ns (fresh ++ (arena.drop n.dep_start).take n.dep_len) with
      | .error s => .error s
      | .ok (ns, arena') => .ok ({ n with dep_start := Ids.of_len fresh.length } :: ns, arena')
    else .error .panic

/-- Rebuilds the arena from the live ranges. -/
def compact [Ids] (db : Db) : Except Stop Db :=
  if db.stack ≠ [] then .error .panic
  else
    match compact_rows db.deps db.nodes [] with
    | .error s => .error s
    | .ok (nodes, deps) => .ok { db with nodes := nodes, deps := deps }

def answer (db : Db) (i : Nat) : Answer := ⟨(db.row i).value, (db.row i).changed_at⟩

/-- A read taken while `id`'s reader is on top of the stack. -/
def attribute_to (db : Db) (id : Nat) : Db :=
  match db.stack with
  | [] => db
  | f :: rest =>
    if f.attributed ∧ f.node ≠ id then
      { db with stack := { f with deps := f.deps ++ [id] } :: rest }
    else db

/-- The start of every probe: intern the key, count, record the edge. -/
def probe [Ids] (db : Db) (key : QueryKey) (attributed : Bool) : Nat × Db :=
  let (id, db) := db.intern key
  let db := db.charge fun s => { s with probes := s.probes + 1 }
  (id, if attributed then db.attribute_to id else db)

def push (db : Db) (f : Frame) : Db := { db with stack := f :: db.stack }

def pop (db : Db) : Db := { db with stack := db.stack.tail }

/-- The stack from the outermost occurrence of `id` inwards. -/
def cycle_report (db : Db) (id : Nat) (key : QueryKey) : Cycle where
  at_key := key
  path := (db.stack.reverse.dropWhile fun f => f.node != id).map fun f => (db.row f.node).key

/-- `Vec::dedup`: of equal neighbours one stays. -/
def dedup : List Nat → List Nat
  | [] => []
  | [d] => [d]
  | d :: d' :: ds => if d = d' then dedup (d' :: ds) else d :: dedup (d' :: ds)

/-- `sort_unstable` and `dedup`. -/
def edge_set (deps : List Nat) : List Nat := dedup (deps.insertionSort (· ≤ ·))

/-- Whether `value` differs from what node `id` holds. -/
def is_fresh (db : Db) (id : Nat) (value : ValueHash) : Bool :=
  (db.row id).state ≠ .valid ∨ (db.row id).value ≠ value

/-- The columns of node `id` after an execution that returned `value`. -/
def executed_row [Ids] (db : Db) (id : Nat) (dep_len : Nat) (value : ValueHash) : Node :=
  { db.row id with
    dep_start := Ids.of_len db.deps.length
    dep_len := Ids.of_len dep_len
    verified_at := db.rev
    value := if db.is_fresh id value then value else (db.row id).value
    changed_at := if db.is_fresh id value then db.rev else (db.row id).changed_at
    state := .valid }

/-- What `execute` writes when the computation returned a value. -/
def commit [Ids] (db : Db) (key : QueryKey) (id : Nat) (deps : List Nat) (value : ValueHash) : Db :=
  let deps := edge_set deps
  let stats := ({ db.stats with executed := db.stats.executed + 1 }).charge_kind key.kind
  { db with
    deps := db.deps ++ deps
    nodes := db.nodes.set id (db.executed_row id deps.length value)
    stats := if db.is_fresh id value then stats else { stats with cutoffs := stats.cutoffs + 1 }
    executed := if db.window then db.executed ++ [key] else db.executed }

end Db

/-- A call the query set received. -/
inductive Call where
  | compute (key : QueryKey) (db : Db)
  | on_cycle (key : QueryKey) (cycle : Cycle)

/-- The database and the calls its query set has received, newest first. -/
structure Engine where
  db : Db
  calls : List Call

def Engine.new (cancel : CancelFlag) : Engine := ⟨Db.new cancel, []⟩

/-- `pull` one level down. -/
abbrev Puller := QueryKey → Bool → Engine → Except Stop (Except Cancelled Answer × Engine)

/-- The walk over the recorded edges from `j` on; `true` means that one of them changed after
`verified`. -/
def verify_deps (pull : Puller) (verified s : Nat) :
    Nat → Nat → Engine → Except Stop (Except Cancelled Bool × Engine)
  | 0, _, e => .ok (.ok false, e)
  | l + 1, j, e =>
    match e.db.deps[s + j]? with
    | none => .error .panic
    | some dep =>
      match pull (e.db.row dep).key false e with
      | .error stop => .error stop
      | .ok (.error c, e) => .ok (.error c, e)
      | .ok (.ok a, e) =>
        if a.changed_at > verified then .ok (.ok true, e)
        else verify_deps pull verified s l (j + 1) e

/-- The red-green walk: `true` means up to date and re-stamped. -/
def verify (pull : Puller) (id : Nat) (e : Engine) :
    Except Stop (Except Cancelled Bool × Engine) :=
  let n := e.db.row id
  if n.state ≠ .valid then .ok (.ok false, e)
  else
    let walk := { e with db := e.db.push ⟨id, [], false⟩ }
    match verify_deps pull n.verified_at n.dep_start n.dep_len 0 walk with
    | .error stop => .error stop
    | .ok (.error c, e) => .ok (.error c, { e with db := e.db.pop })
    | .ok (.ok true, e) =>
      .ok (.ok false, { e with db := e.db.pop.charge fun s => { s with red := s.red + 1 } })
    | .ok (.ok false, e) =>
      let db := e.db.pop
      let db := db.set_row id { db.row id with verified_at := db.rev }
      .ok (.ok true, { e with db := db.charge fun s => { s with green := s.green + 1 } })

/-- A computation reading through the database. -/
def run_tree (pull : Puller) :
    ReadTree QueryKey (Except Cancelled ValueHash) Outcome → Engine → Except Stop (Outcome × Engine)
  | .done out, e => .ok (out, e)
  | .ask key next, e =>
    match pull key true e with
    | .error stop => .error stop
    | .ok (r, e) => run_tree pull (next (r.map (·.value))) e

def execute [Ids] (q : Queries) (pull : Puller) (key : QueryKey) (id : Nat) (e : Engine) :
    Except Stop (Except Cancelled Answer × Engine) :=
  let db := e.db.push ⟨id, [], true⟩
  match run_tree pull (q.compute key) ⟨db, .compute key db :: e.calls⟩ with
  | .error stop => .error stop
  | .ok (out, e) =>
    match e.db.stack with
    | [] => .error .panic
    | frame :: _ =>
      match out with
      | .cancelled =>
        let db := e.db.pop.charge fun s => { s with cancellations := s.cancellations + 1 }
        .ok (.error .cancelled, { e with db := db })
      | .value v =>
        let db := e.db.pop.commit key id frame.deps v
        .ok (.ok (db.answer id), { e with db := db })

/-- `pull` once the key is interned: an input, a memo hit, a cycle, or verify and execute. -/
def resolve [Ids] (q : Queries) (pull : Puller) (key : QueryKey) (id : Nat) (e : Engine) :
    Except Stop (Except Cancelled Answer × Engine) :=
  let n := e.db.row id
  if n.is_input then
    let db := e.db.charge fun s => { s with input_reads := s.input_reads + 1 }
    if n.state = .valid then .ok (.ok (db.answer id), { e with db := db })
    else .error .panic
  else if n.state = .valid ∧ n.verified_at = e.db.rev then
    let db := e.db.charge fun s => { s with memo_hits := s.memo_hits + 1 }
    .ok (.ok (db.answer id), { e with db := db })
  else if e.db.stack.any fun f => f.node == id then
    let db := e.db.charge fun s => { s with cycles := s.cycles + 1 }
    let cycle := db.cycle_report id key
    .ok (.ok ⟨q.on_cycle key cycle, db.rev⟩, ⟨db, .on_cycle key cycle :: e.calls⟩)
  else
    match verify pull id e with
    | .error stop => .error stop
    | .ok (.error c, e) => .ok (.error c, e)
    | .ok (.ok true, e) => .ok (.ok (e.db.answer id), e)
    | .ok (.ok false, e) => execute q pull key id e

/-- The body of `pull`, over a `pull` that goes one level less deep. -/
def pull_body [Ids] (q : Queries) (pull : Puller) : Puller := fun key attributed e =>
  let db := e.db.polled
  if e.db.is_cancelled then
    let db := db.charge fun s => { s with cancellations := s.cancellations + 1 }
    .ok (.error .cancelled, { e with db := db })
  else
    let (id, db) := db.probe key attributed
    resolve q pull key id { e with db := db }

def pull [Ids] (q : Queries) : Nat → Puller
  | 0 => fun _ _ _ => .error .fuel
  | fuel + 1 => pull_body q (pull q fuel)

/-- A demand at the top level. -/
def demand [Ids] (q : Queries) (fuel : Nat) (key : QueryKey) (e : Engine) :
    Except Stop (Except Cancelled ValueHash × Engine) :=
  match pull q fuel key true e with
  | .error stop => .error stop
  | .ok (r, e) => .ok (r.map (·.value), e)

/-- `is_red`: whether demanding `key` now would re-execute it. -/
def is_red [Ids] (q : Queries) (fuel : Nat) (key : QueryKey) (e : Engine) :
    Except Stop (Except Cancelled Bool × Engine) :=
  let db := e.db.polled
  if e.db.is_cancelled then
    let db := db.charge fun s => { s with cancellations := s.cancellations + 1 }
    .ok (.error .cancelled, { e with db := db })
  else
    let (id, db) := db.probe key false
    let n := db.row id
    if n.is_input then .ok (.ok false, { e with db := db })
    else if n.state = .valid ∧ n.verified_at = db.rev then
      let db := db.charge fun s => { s with memo_hits := s.memo_hits + 1 }
      .ok (.ok false, { e with db := db })
    else if db.stack.any fun f => f.node == id then .ok (.ok false, { e with db := db })
    else
      match verify (pull q fuel) id { e with db := db } with
      | .error stop => .error stop
      | .ok (.error c, e) => .ok (.error c, e)
      | .ok (.ok green, e) => .ok (.ok !green, e)

/-! ## Sequences of operations -/

inductive Op where
  | set_input (key : QueryKey) (value : ValueHash)
  | demand (key : QueryKey)
  | is_red (key : QueryKey)
  | compact
  | open_window
  deriving DecidableEq

/-- What an operation returned. -/
inductive Reply where
  | wrote (changed : Bool)
  | value (r : Except Cancelled ValueHash)
  | red (r : Except Cancelled Bool)
  | unit

def step [Ids] (q : Queries) (fuel : Nat) (op : Op) (e : Engine) : Except Stop (Reply × Engine) :=
  match op with
  | .set_input key value =>
    match e.db.set_input key value with
    | .error stop => .error stop
    | .ok (changed, db) => .ok (.wrote changed, { e with db := db })
  | .demand key =>
    match demand q fuel key e with
    | .error stop => .error stop
    | .ok (r, e) => .ok (.value r, e)
  | .is_red key =>
    match is_red q fuel key e with
    | .error stop => .error stop
    | .ok (r, e) => .ok (.red r, e)
  | .compact =>
    match e.db.compact with
    | .error stop => .error stop
    | .ok db => .ok (.unit, { e with db := db })
  | .open_window => .ok (.unit, { e with db := e.db.open_window })

/-- One operation of a run, with the engine it was applied to and what it returned. -/
structure Event where
  op : Op
  before : Engine
  reply : Reply

/-- Runs a sequence of operations; the events come back in order. -/
def run [Ids] (q : Queries) (fuel : Nat) : List Op → Engine → Except Stop (List Event × Engine)
  | [], e => .ok ([], e)
  | op :: ops, e =>
    match step q fuel op e with
    | .error stop => .error stop
    | .ok (reply, e') =>
      match run q fuel ops e' with
      | .error stop => .error stop
      | .ok (events, e'') => .ok (⟨op, e, reply⟩ :: events, e'')

end Fors.Query
