import Mathlib.Algebra.Group.Nat.Defs
import Mathlib.Data.List.Forall2
import Fors.Lib.Runs

/-!
# The `reduce` tree

`reduce_tree` gives the shape of a reduction as blocks of lanes, which `reduce_eval` runs level by
level; `unrolled` gives it as an explicit tree, which `eval_expr` runs depth first. Both forms
apply `op` to the same operands, so they succeed together and with one value; where several
applications fail they may meet another one first.

Source: `crates/fors-fmir/src/reduce.rs`. Principal result: `reduce_eval_agrees`.
-/

namespace Fors.Fmir.Reduce

open Runs List

/-! ## The source's two forms -/

inductive Panic where
  | assert | index | overflow | fuel
  deriving DecidableEq

/-- What ends an evaluation: a panic of its own, or an error of the operation's. -/
inductive Stop (E : Type) where
  | panic (p : Panic)
  | err (e : E)
  deriving DecidableEq

/-- `a + b` on `u32`. -/
def add (a b : Nat) : Except Panic Nat :=
  if a + b < 2 ^ 32 then .ok (a + b) else .error .overflow

/-- One lane of one leaf block. -/
structure LaneAssign where
  lane : Nat
  elems : List Nat
  deriving DecidableEq

/-- One leaf block. -/
structure BlockAssign where
  block : Nat
  start : Nat
  len : Nat
  lanes : List LaneAssign
  deriving DecidableEq

/-- The shape of `reduce(op, xs)` for `len(xs) == n`. -/
structure ReduceTree where
  n : Nat
  b : Nat
  l : Nat
  blocks : List BlockAssign
  deriving DecidableEq

/-- `(start..stop).step_by(step)`. -/
def step_by (start stop step : Nat) : List Nat :=
  List.range' start ((stop - start + (step - 1)) / step) step

/-- The lanes of the block `[start, start + len)`. -/
def block_lanes (l start len : Nat) : Except Panic (List LaneAssign) :=
  (List.range l).mapM fun lane => do
    let elems ← (step_by lane len l).mapM fun t => add start t
    return ⟨lane, elems⟩

/-- The partition loop from `start` on; the next block is number `block`. -/
def reduce_blocks (n b l : Nat) : Nat → Nat → Nat → Except Panic (List BlockAssign)
  | 0, start, _ => if start < n then .error .fuel else .ok []
  | fuel + 1, start, block =>
    if start < n then do
      let len := min (n - start) b
      let lanes ← block_lanes l start len
      let next ← add start len
      let rest ← reduce_blocks n b l fuel next (block + 1)
      return ⟨block, start, len, lanes⟩ :: rest
    else .ok []

def reduce_tree (n b l : Nat) : Except Panic ReduceTree :=
  if 1 ≤ b ∧ 1 ≤ l then do
    let blocks ← reduce_blocks n b l n 0 0
    return ⟨n, b, l, blocks⟩
  else .error .assert

section Eval

variable {T E : Type}

/-- One level: adjacent items in pairs, an empty side passed through, the last item carried. -/
def combine_pass (pair : T → T → Except (Stop E) T) :
    List (Option T) → Except (Stop E) (List (Option T))
  | some x :: some y :: items => do
    let v ← pair x y
    let rest ← combine_pass pair items
    return some v :: rest
  | some v :: none :: items | none :: some v :: items => do
    let rest ← combine_pass pair items
    return some v :: rest
  | none :: none :: items => do
    let rest ← combine_pass pair items
    return none :: rest
  | [a] => return [a]
  | [] => return []

/-- Levels until one item is left; each at most halves the items, rounded up. -/
def combine_levels (pair : T → T → Except (Stop E) T) :
    Nat → List (Option T) → Except (Stop E) (Option T)
  | _, [] => return none
  | _, [item] => return item
  | 0, _ => .error (.panic .fuel)
  | fuel + 1, items => do
    let next ← combine_pass pair items
    combine_levels pair fuel next

/-- `op` as an evaluator calls it. -/
def apply (op : T → T → Except E T) (x y : T) : Except (Stop E) T :=
  match op x y with
  | .ok v => .ok v
  | .error e => .error (.err e)

/-- `xs[i].clone()`. -/
def elem (xs : List T) (i : Nat) : Except (Stop E) T :=
  match xs[i]? with
  | some x => .ok x
  | none => .error (.panic .index)

/-- One element of a lane's fold: the accumulator is the left operand. -/
def lane_step (xs : List T) (op : T → T → Except E T) (acc : Option T) (e : Nat) :
    Except (Stop E) (Option T) := do
  let rhs ← elem xs e
  match acc with
  | none => return some rhs
  | some a => do
    let v ← apply op a rhs
    return some v

def lane_eval (xs : List T) (op : T → T → Except E T) (lane : LaneAssign) :
    Except (Stop E) (Option T) :=
  lane.elems.foldlM (lane_step xs op) none

def block_eval (xs : List T) (op : T → T → Except E T) (block : BlockAssign) :
    Except (Stop E) (Option T) := do
  let lanes ← block.lanes.mapM (lane_eval xs op)
  combine_levels (apply op) lanes.length lanes

def reduce_eval (tree : ReduceTree) (xs : List T) (op : T → T → Except E T) :
    Except (Stop E) (Option T) :=
  if xs.length = tree.n then do
    let partials ← tree.blocks.mapM (block_eval xs op)
    combine_levels (apply op) partials.length partials
  else .error (.panic .assert)

end Eval

inductive Expr where
  | Elem (i : Nat)
  | Op (a b : Expr)
  deriving DecidableEq

/-- One node of `unrolled`'s own level pairing. -/
def join : Option Expr → Option Expr → Option Expr
  | some x, some y => some (.Op x y)
  | some v, none | none, some v => some v
  | none, none => none

/-- `items[i].clone()`. -/
def item (items : List (Option Expr)) (i : Nat) : Except Panic (Option Expr) :=
  match items[i]? with
  | some a => .ok a
  | none => .error .index

/-- What the round at index `i` pushes. -/
def next_item (items : List (Option Expr)) (i : Nat) : Except Panic (Option Expr) :=
  if i + 1 < items.length then do
    let a ← item items i
    let bb ← item items (i + 1)
    return join a bb
  else item items i

/-- `unrolled`'s own level: the items from index `i` on, two at a time. -/
def levels_pass (items : List (Option Expr)) : Nat → Nat → Except Panic (List (Option Expr))
  | 0, i => if i < items.length then .error .fuel else .ok []
  | fuel + 1, i =>
    if i < items.length then do
      let pushed ← next_item items i
      let rest ← levels_pass items fuel (i + 2)
      return pushed :: rest
    else .ok []

def levels : Nat → List (Option Expr) → Except Panic (Option Expr)
  | _, [] => .ok none
  | _, [item] => .ok item
  | 0, _ => .error .fuel
  | fuel + 1, items => do
    let next ← levels_pass items items.length 0
    levels fuel next

/-- The accumulator of `unrolled`'s lane fold after element `i`. -/
def fold_step (acc : Option Expr) (i : Nat) : Option Expr :=
  match acc with
  | none => some (.Elem i)
  | some a => some (.Op a (.Elem i))

/-- `unrolled`'s own lane fold from offset `t` on. -/
def lane_expr (l start len : Nat) : Nat → Nat → Option Expr → Except Panic (Option Expr)
  | 0, t, acc => if t < len then .error .fuel else .ok acc
  | fuel + 1, t, acc =>
    if t < len then do
      let i ← add start t
      let next ← add t l
      lane_expr l start len fuel next (fold_step acc i)
    else .ok acc

def block_expr (l start len : Nat) : Except Panic (Option Expr) := do
  let lanes ← (List.range l).mapM fun lane => lane_expr l start len len lane none
  levels lanes.length lanes

def unrolled_blocks (n b l : Nat) : Nat → Nat → Except Panic (List (Option Expr))
  | 0, start => if start < n then .error .fuel else .ok []
  | fuel + 1, start =>
    if start < n then do
      let len := if n - start < b then n - start else b
      let part ← block_expr l start len
      let next ← add start len
      let rest ← unrolled_blocks n b l fuel next
      return part :: rest
    else .ok []

def unrolled (n b l : Nat) : Except Panic (Option Expr) :=
  if 1 ≤ b ∧ 1 ≤ l then
    if n = 0 then .ok none
    else do
      let partials ← unrolled_blocks n b l n 0
      levels partials.length partials
  else .error .assert

/-- Evaluates an explicit tree (left child = left operand). -/
def eval_expr {T E : Type} (xs : List T) (op : T → T → Except E T) : Expr → Except (Stop E) T
  | .Elem i => elem xs i
  | .Op a b => do
    let x ← eval_expr xs op a
    let y ← eval_expr xs op b
    apply op x y

/-! ## The shape both forms have -/

def join_pass : List (Option Expr) → List (Option Expr)
  | a :: b :: items => join a b :: join_pass items
  | items => items

def join_levels : Nat → List (Option Expr) → Option Expr
  | _, [] => none
  | _, [item] => item
  | 0, _ => none
  | fuel + 1, items => join_levels fuel (join_pass items)

/-- The left fold of a lane's elements. -/
def fold_lane (elems : List Nat) (acc : Option Expr) : Option Expr :=
  elems.foldl fold_step acc

/-- The elements of lane `lane` of the block `[start, start + len)`. -/
def lane_elems (l start len lane : Nat) : List Nat :=
  (step_by lane len l).map fun t => start + t

/-- `blk` holds the lanes of the block that starts at `p.1` and has `p.2` of the `n` elements. -/
def IsBlock (n l : Nat) (blk : BlockAssign) (p : Nat × Nat) : Prop :=
  p.1 + p.2 ≤ n ∧ List.Forall₂ (fun (asg : LaneAssign) lane =>
    asg.elems = lane_elems l p.1 p.2 lane) blk.lanes (List.range l)

def block_shape (l start len : Nat) : Option Expr :=
  join_levels l ((List.range l).map fun lane => fold_lane (lane_elems l start len lane) none)

/-- The starts and lengths of the blocks from `start` on. -/
def blocks_from (n b : Nat) : Nat → Nat → List (Nat × Nat)
  | 0, _ => []
  | fuel + 1, start =>
    if start < n then (start, min (n - start) b) :: blocks_from n b fuel (start + min (n - start) b)
    else []

def shape (n b l : Nat) : Option Expr :=
  let parts := (blocks_from n b n 0).map fun p => block_shape l p.1 p.2
  join_levels parts.length parts

section Shape

variable {l : Nat}

theorem length_join_pass (items : List (Option Expr)) :
    (join_pass items).length = (items.length + 1) / 2 := by
  induction items using join_pass.induct with
  | case1 a b items ih =>
    simp only [join_pass, length_cons, ih]
    omega
  | case2 items h =>
    match items with
    | [] => rfl
    | [a] => simp [join_pass]
    | a :: b :: rest => exact absurd rfl (h a b rest)

theorem step_by_eq (hl : 1 ≤ l) (t len : Nat) :
    step_by t len l = if t < len then t :: step_by (t + l) len l else [] := by
  rw [step_by, step_by]
  split
  · rename_i ht
    have hcount : (len - t + (l - 1)) / l = (len - (t + l) + (l - 1)) / l + 1 := by
      rw [← Nat.add_div_right _ (by omega)]
      by_cases hle : t + l ≤ len
      · congr 1
        omega
      · rw [show len - (t + l) + (l - 1) + l = l - 1 + l by omega]
        rw [Nat.add_div_right _ (by omega), Nat.div_eq_of_lt (show l - 1 < l by omega)]
        rw [show len - t + (l - 1) = (len - t - 1) + l by omega, Nat.add_div_right _ (by omega),
          Nat.div_eq_of_lt (show len - t - 1 < l by omega)]
    rw [hcount, List.range'_succ]
  · rename_i ht
    have hcount : (len - t + (l - 1)) / l = 0 := Nat.div_eq_of_lt (by omega)
    rw [hcount, List.range'_zero]

theorem mem_step_by (hl : 1 ≤ l) {t len i : Nat} (h : i ∈ step_by t len l) : i < len := by
  obtain ⟨k, hk, rfl⟩ := mem_range'.mp h
  have hk' : k * l ≤ len - t + (l - 1) - l := by
    have h1 := Nat.div_mul_le_self (len - t + (l - 1)) l
    have h2 : (k + 1) * l ≤ (len - t + (l - 1)) / l * l := Nat.mul_le_mul_right l hk
    rw [Nat.add_mul, Nat.one_mul] at h2
    omega
  have hpos : 0 < len - t := by
    by_contra h0
    have : len - t = 0 := by omega
    rw [this, Nat.zero_add, Nat.div_eq_of_lt (by omega)] at hk
    omega
  rw [Nat.mul_comm]
  omega

/-- The lane fold of `unrolled` ends, and gives the fold of the lane's elements. -/
theorem lane_expr_eq (hl : 1 ≤ l) {start len : Nat} (hlen : start + len < 2 ^ 32)
    (hstep : len + l ≤ 2 ^ 32) {fuel t : Nat} (hfuel : len ≤ fuel + t) (acc : Option Expr) :
    lane_expr l start len fuel t acc =
      .ok (fold_lane ((step_by t len l).map fun t => start + t) acc) := by
  induction fuel generalizing t acc with
  | zero =>
    rw [lane_expr, if_neg (by omega), step_by_eq hl, if_neg (by omega)]
    rfl
  | succ fuel ih =>
    rw [lane_expr, step_by_eq hl]
    split
    · rename_i ht
      have hi : add start t = .ok (start + t) := if_pos (by omega)
      have hnext : add t l = .ok (t + l) := if_pos (by omega)
      rw [hi, hnext]
      exact ih (by omega) _
    · rfl

theorem next_item_eq {items : List (Option Expr)} {i : Nat} (h : i < items.length) :
    next_item items i = .ok (if h' : i + 1 < items.length then join items[i] items[i + 1]
      else items[i]) := by
  have hget : item items i = .ok items[i] := by
    rw [item, getElem?_eq_getElem h]
  rw [next_item]
  split
  · rename_i h'
    have hget' : item items (i + 1) = .ok items[i + 1] := by
      rw [item, getElem?_eq_getElem h']
    rw [hget, hget']
    rfl
  · exact hget

/-- The index loop of one level pairs the items as `join_pass` does. -/
theorem levels_pass_eq (items : List (Option Expr)) {fuel i : Nat}
    (hfuel : items.length ≤ fuel + i) :
    levels_pass items fuel i = .ok (join_pass (items.drop i)) := by
  induction fuel generalizing i with
  | zero =>
    rw [levels_pass, if_neg (by omega), drop_eq_nil_of_le (by omega)]
    rfl
  | succ fuel ih =>
    rw [levels_pass]
    split
    · rename_i hi
      rw [next_item_eq hi, ih (by omega), drop_eq_getElem_cons hi]
      split
      · rename_i hi'
        rw [drop_eq_getElem_cons hi']
        rfl
      · rw [drop_eq_nil_of_le (show items.length ≤ i + 1 by omega),
          drop_eq_nil_of_le (show items.length ≤ i + 2 by omega)]
        rfl
    · rw [drop_eq_nil_of_le (by omega)]
      rfl

theorem levels_eq {fuel : Nat} {items : List (Option Expr)} (hfuel : items.length ≤ fuel) :
    levels fuel items = .ok (join_levels fuel items) := by
  induction fuel generalizing items with
  | zero =>
    obtain rfl := length_eq_zero_iff.mp (Nat.le_zero.mp hfuel)
    rfl
  | succ fuel ih =>
    match items with
    | [] => rfl
    | [item] => rfl
    | a :: b :: rest =>
      have hpass := @levels_pass_eq (a :: b :: rest) (a :: b :: rest).length 0 (Nat.le_refl _)
      have hlen : (join_pass (a :: b :: rest)).length ≤ fuel := by
        rw [length_join_pass]
        simp only [length_cons] at hfuel ⊢
        omega
      rw [levels, join_levels, hpass]
      · exact ih hlen
      all_goals simp

theorem block_expr_eq (hl : 1 ≤ l) {start len : Nat} (hlen : start + len < 2 ^ 32)
    (hstep : len + l ≤ 2 ^ 32) :
    block_expr l start len = .ok (block_shape l start len) := by
  have hlanes : (List.range l).mapM (fun lane => lane_expr l start len len lane none) =
      .ok ((List.range l).map fun lane => fold_lane (lane_elems l start len lane) none) := by
    rw [mapM_eq_ok, List.forall₂_map_right_iff, List.forall₂_same]
    intro lane _
    exact lane_expr_eq hl hlen hstep (by omega) none
  rw [block_expr, hlanes]
  simp only [bind, Except.bind, length_map, length_range]
  exact levels_eq (by simp)

theorem block_lanes_eq (hl : 1 ≤ l) {start len : Nat} (hlen : start + len < 2 ^ 32) :
    ∃ lanes, block_lanes l start len = .ok lanes ∧
      List.Forall₂ (fun (asg : LaneAssign) lane => asg.elems = lane_elems l start len lane)
        lanes (List.range l) := by
  refine ⟨(List.range l).map fun lane => ⟨lane, lane_elems l start len lane⟩, ?_, ?_⟩
  · rw [block_lanes, mapM_eq_ok, List.forall₂_map_right_iff, List.forall₂_same]
    intro lane _
    have helems : (step_by lane len l).mapM (fun t => add start t) =
        .ok (lane_elems l start len lane) := by
      rw [mapM_eq_ok, lane_elems, List.forall₂_map_right_iff, List.forall₂_same]
      intro t ht
      have ht := mem_step_by hl ht
      exact if_pos (by omega)
    rw [helems]
    rfl
  · rw [List.forall₂_map_left_iff, List.forall₂_same]
    exact fun _ _ => rfl

/-- The partition loop of `reduce_tree` ends, with the blocks of `blocks_from`. -/
theorem reduce_blocks_eq (hl : 1 ≤ l) {n b : Nat} (hb : 1 ≤ b) (hn : n < 2 ^ 32) {fuel start : Nat}
    (hfuel : n ≤ fuel + start) (block : Nat) :
    ∃ blocks, reduce_blocks n b l fuel start block = .ok blocks ∧
      List.Forall₂ (IsBlock n l) blocks (blocks_from n b fuel start) := by
  induction fuel generalizing start block with
  | zero =>
    refine ⟨[], ?_, .nil⟩
    rw [reduce_blocks, if_neg (by omega)]
  | succ fuel ih =>
    rw [reduce_blocks, blocks_from]
    split
    · rename_i hstart
      have hlen : start + min (n - start) b ≤ n := by omega
      have hnext : add start (min (n - start) b) = .ok (start + min (n - start) b) :=
        if_pos (by omega)
      obtain ⟨lanes, hlanes, hrel⟩ := block_lanes_eq hl (Nat.lt_of_le_of_lt hlen hn)
      obtain ⟨rest, hrest, hall⟩ := @ih (start + min (n - start) b) (by omega) (block + 1)
      refine ⟨⟨block, start, min (n - start) b, lanes⟩ :: rest, ?_, .cons ⟨hlen, hrel⟩ hall⟩
      simp only [hlanes, hnext, hrest, bind, Except.bind, pure, Except.pure]
    · exact ⟨[], rfl, .nil⟩

/-- The partition loop of `unrolled` ends, with the trees of the same blocks. -/
theorem unrolled_blocks_eq (hl : 1 ≤ l) {n b : Nat} (hb : 1 ≤ b) (hn : n < 2 ^ 32)
    (hbl : b + l < 2 ^ 32) {fuel start : Nat} (hfuel : n ≤ fuel + start) :
    unrolled_blocks n b l fuel start =
      .ok ((blocks_from n b fuel start).map fun p => block_shape l p.1 p.2) := by
  induction fuel generalizing start with
  | zero =>
    rw [unrolled_blocks, if_neg (by omega)]
    rfl
  | succ fuel ih =>
    rw [unrolled_blocks, blocks_from]
    split
    · rename_i hstart
      have hlen : (if n - start < b then n - start else b) = min (n - start) b := by
        split <;> omega
      have hnext : add start (min (n - start) b) = .ok (start + min (n - start) b) :=
        if_pos (by omega)
      have hblock := @block_expr_eq l hl start (min (n - start) b) (by omega) (by omega)
      have hrest := @ih (start + min (n - start) b) (by omega)
      simp only [hlen, hblock, hnext, hrest, bind, Except.bind, pure, Except.pure, map_cons]
    · rfl

theorem unrolled_eq (hl : 1 ≤ l) {n b : Nat} (hb : 1 ≤ b) (hn : n < 2 ^ 32)
    (hbl : b + l < 2 ^ 32) : unrolled n b l = .ok (shape n b l) := by
  rw [unrolled, if_pos ⟨hb, hl⟩]
  by_cases h0 : n = 0
  · subst h0
    rfl
  · rw [if_neg h0, unrolled_blocks_eq hl hb hn hbl (by omega)]
    exact levels_eq (Nat.le_refl _)

end Shape

section Agreement

variable {T E : Type} {xs : List T} {op : T → T → Except E T}

/-- Some node whose operands have values fails with `e`. -/
inductive Fails (xs : List T) (op : T → T → Except E T) : Expr → E → Prop
  | here {a b : Expr} {x y : T} {e : E} (ha : eval_expr xs op a = .ok x)
      (hb : eval_expr xs op b = .ok y) (he : op x y = .error e) : Fails xs op (.Op a b) e
  | left {a : Expr} {e : E} (b : Expr) (ha : Fails xs op a e) : Fails xs op (.Op a b) e
  | right {b : Expr} {e : E} (a : Expr) (hb : Fails xs op b e) : Fails xs op (.Op a b) e

/-- Every element is one of the first `n`. -/
def Within (n : Nat) : Expr → Prop
  | .Elem i => i < n
  | .Op a b => Within n a ∧ Within n b

/-- The trees `ts` contain an application that fails with `e`. -/
def FailsIn (xs : List T) (op : T → T → Except E T) (ts : List (Option Expr)) (e : E) : Prop :=
  ∃ t, some t ∈ ts ∧ Fails xs op t e

/-- An item of a level has the value of its tree, or both are empty. -/
def HasValue (xs : List T) (op : T → T → Except E T) : Option T → Option Expr → Prop :=
  Option.Rel fun v t => eval_expr xs op t = .ok v

/-- A level-by-level run over the trees `ts`: its result is as `R` says, or it met an application
of theirs that fails. -/
def Outcome {α : Type} (xs : List T) (op : T → T → Except E T) (ts : List (Option Expr))
    (R : α → Prop) : Except (Stop E) α → Prop
  | .ok a => R a
  | .error s => ∃ e, s = .err e ∧ FailsIn xs op ts e

variable {i : Nat}

theorem elem_eq_ok {v : T} : (elem xs i : Except (Stop E) T) = .ok v ↔ xs[i]? = some v := by
  rw [elem]
  cases xs[i]? <;> simp

variable {x y : T}

theorem apply_eq_ok {v : T} : apply op x y = .ok v ↔ op x y = .ok v := by
  rw [apply]
  cases op x y <;> simp

theorem eval_op {a b : Expr} (ha : eval_expr xs op a = .ok x)
    (hb : eval_expr xs op b = .ok y) : eval_expr xs op (.Op a b) = apply op x y := by
  rw [eval_expr, ha, hb]
  rfl

/-- A depth-first run ends with a value, or with the error of an application that fails. -/
theorem eval_expr_cases {t : Expr} (ht : Within xs.length t) :
    (∃ v, eval_expr xs op t = .ok v) ∨
      ∃ e, eval_expr xs op t = .error (.err e) ∧ Fails xs op t e := by
  induction t with
  | Elem i => exact .inl ⟨xs[i], elem_eq_ok.mpr (getElem?_eq_getElem ht)⟩
  | Op a b iha ihb =>
    obtain ⟨x, hx⟩ | ⟨e, hx, hfail⟩ := iha ht.1
    · obtain ⟨y, hy⟩ | ⟨e, hy, hfail⟩ := ihb ht.2
      · rw [eval_op hx hy, apply]
        cases hop : op x y with
        | ok v => exact .inl ⟨v, rfl⟩
        | error e => exact .inr ⟨e, rfl, .here hx hy hop⟩
      · refine .inr ⟨e, ?_, hfail.right a⟩
        rw [eval_expr, hx, hy]
        rfl
    · refine .inr ⟨e, ?_, hfail.left b⟩
      rw [eval_expr, hx]
      rfl

variable {e : E}

/-- A tree with a failing application has no value. -/
theorem Fails.not_ok {t : Expr} (h : Fails xs op t e) (v : T) :
    eval_expr xs op t ≠ .ok v := by
  induction h generalizing v with
  | here ha hb he =>
    rw [eval_op ha hb, ne_eq, apply_eq_ok, he]
    exact fun h => nomatch h
  | left b _ ih =>
    intro h
    rw [eval_expr, bind_eq_ok] at h
    obtain ⟨x, hx, -⟩ := h
    exact ih x hx
  | right a _ ih =>
    intro h
    simp only [eval_expr, bind_eq_ok] at h
    obtain ⟨x, -, y, hy, -⟩ := h
    exact ih y hy

variable {α β : Type} {ts : List (Option Expr)}

theorem Outcome.bind {us : List (Option Expr)} {R : α → Prop} {S : β → Prop}
    {r : Except (Stop E) α} {f : α → Except (Stop E) β} (hr : Outcome xs op ts R r)
    (hsub : ∀ e, FailsIn xs op ts e → FailsIn xs op us e)
    (hf : ∀ a, R a → Outcome xs op us S (f a)) : Outcome xs op us S (r >>= f) := by
  cases r with
  | ok a => exact hf a hr
  | error s =>
    obtain ⟨e, rfl, he⟩ := hr
    exact ⟨e, rfl, hsub e he⟩

variable {t : Option Expr}

theorem FailsIn.cons :
    FailsIn xs op (t :: ts) e ↔ (∃ t', t = some t' ∧ Fails xs op t' e) ∨ FailsIn xs op ts e := by
  simp only [FailsIn, mem_cons, or_and_right, exists_or, eq_comm]

/-- A pass hides no failing application. -/
theorem FailsIn.join_pass (h : FailsIn xs op ts e) :
    FailsIn xs op (join_pass ts) e := by
  induction ts using join_pass.induct with
  | case1 a b items ih =>
    rw [Reduce.join_pass, FailsIn.cons]
    rw [FailsIn.cons, FailsIn.cons] at h
    obtain ⟨t, rfl, ht⟩ | ⟨t, rfl, ht⟩ | h := h
    · cases b with
      | none => exact .inl ⟨t, rfl, ht⟩
      | some b => exact .inl ⟨_, rfl, ht.left b⟩
    · cases a with
      | none => exact .inl ⟨t, rfl, ht⟩
      | some a => exact .inl ⟨_, rfl, ht.right a⟩
    · exact .inr (ih h)
  | case2 items hitems => rwa [Reduce.join_pass.eq_2 _ hitems]

theorem FailsIn.join_levels {fuel : Nat} (h : FailsIn xs op ts e) (hfuel : ts.length ≤ fuel) :
    FailsIn xs op [join_levels fuel ts] e := by
  induction fuel generalizing ts with
  | zero =>
    obtain rfl := length_eq_zero_iff.mp (Nat.le_zero.mp hfuel)
    obtain ⟨t, ht, -⟩ := h
    exact absurd ht not_mem_nil
  | succ fuel ih =>
    match ts with
    | [] => exact absurd h.choose_spec.1 not_mem_nil
    | [t] => exact h
    | a :: b :: rest =>
      rw [Reduce.join_levels]
      · refine ih h.join_pass ?_
        rw [length_join_pass]
        simp only [length_cons] at hfuel ⊢
        omega
      all_goals simp

theorem apply_outcome {a b : Expr} (ha : eval_expr xs op a = .ok x)
    (hb : eval_expr xs op b = .ok y) :
    Outcome xs op [some (.Op a b)] (fun v => eval_expr xs op (.Op a b) = .ok v)
      (apply op x y) := by
  rw [eval_op ha hb, apply]
  cases hop : op x y with
  | ok v => rfl
  | error e => exact ⟨e, rfl, _, mem_singleton_self _, .here ha hb hop⟩

theorem FailsIn.mono {us : List (Option Expr)} (hsub : ts ⊆ us) (e : E)
    (h : FailsIn xs op ts e) : FailsIn xs op us e := by
  obtain ⟨t, ht, hfail⟩ := h
  exact ⟨t, hsub ht, hfail⟩

/-- One level meets the values of the joined trees. -/
theorem combine_pass_outcome {vs : List (Option T)} (h : List.Forall₂ (HasValue xs op) vs ts) :
    Outcome xs op (join_pass ts) (fun us => List.Forall₂ (HasValue xs op) us (join_pass ts))
      (combine_pass (apply op) vs) := by
  induction vs using combine_pass.induct generalizing ts with
  | case1 x y items ih =>
    obtain _ | ⟨ha, _ | ⟨hb, hrest⟩⟩ := h
    cases ha with | some ha =>
    cases hb with | some hb =>
    refine (apply_outcome ha hb).bind (FailsIn.mono (by simp [join_pass, join])) fun v hv => ?_
    exact (ih hrest).bind (FailsIn.mono (subset_cons_self _ _)) fun us hus =>
      .cons (.some hv) hus
  | case2 v items ih =>
    obtain _ | ⟨ha, _ | ⟨hb, hrest⟩⟩ := h
    cases ha with | some ha =>
    cases hb
    exact (ih hrest).bind (FailsIn.mono (subset_cons_self _ _)) fun us hus =>
      .cons (.some ha) hus
  | case3 v items ih =>
    obtain _ | ⟨ha, _ | ⟨hb, hrest⟩⟩ := h
    cases ha
    cases hb with | some hb =>
    exact (ih hrest).bind (FailsIn.mono (subset_cons_self _ _)) fun us hus =>
      .cons (.some hb) hus
  | case4 items ih =>
    obtain _ | ⟨ha, _ | ⟨hb, hrest⟩⟩ := h
    cases ha
    cases hb
    exact (ih hrest).bind (FailsIn.mono (subset_cons_self _ _)) fun us hus =>
      .cons .none hus
  | case5 a =>
    obtain _ | ⟨ha, _ | _⟩ := h
    simp only [combine_pass, join_pass]
    exact .cons ha .nil
  | case6 =>
    obtain _ | _ := h
    exact .nil

theorem combine_levels_outcome {fuel : Nat} {vs : List (Option T)}
    (h : List.Forall₂ (HasValue xs op) vs ts) (hfuel : ts.length ≤ fuel) :
    Outcome xs op [join_levels fuel ts] (fun v => HasValue xs op v (join_levels fuel ts))
      (combine_levels (apply op) fuel vs) := by
  induction fuel generalizing vs ts with
  | zero =>
    obtain rfl := length_eq_zero_iff.mp (Nat.le_zero.mp hfuel)
    obtain _ | _ := h
    exact .none
  | succ fuel ih =>
    match vs, ts, h with
    | [], [], .nil => exact .none
    | [v], [t], .cons ht .nil => exact ht
    | v :: w :: vs, a :: b :: ts, h =>
      have hlen : (join_pass (a :: b :: ts)).length ≤ fuel := by
        rw [length_join_pass]
        simp only [length_cons] at hfuel ⊢
        omega
      rw [combine_levels, join_levels]
      · exact (combine_pass_outcome h).bind (fun e he => he.join_levels hlen) fun us hus =>
          ih hus hlen
      all_goals simp

/-- Independent runs, one after the other. -/
theorem mapM_outcome {f : α → Except (Stop E) (Option T)} {g : β → Option Expr}
    {as : List α} {bs : List β}
    (h : List.Forall₂ (fun a b => Outcome xs op [g b] (fun v => HasValue xs op v (g b)) (f a))
      as bs) :
    Outcome xs op (bs.map g) (fun vs => List.Forall₂ (HasValue xs op) vs (bs.map g))
      (as.mapM f) := by
  induction h with
  | nil => exact .nil
  | cons hab _ ih =>
    rw [mapM_cons]
    refine hab.bind (FailsIn.mono (by simp)) fun v hv => ?_
    exact ih.bind (FailsIn.mono (subset_cons_self _ _)) fun vs hvs => .cons hv hvs

theorem FailsIn.fold_lane {elems : List Nat} {acc : Option Expr}
    (h : FailsIn xs op [acc] e) : FailsIn xs op [fold_lane elems acc] e := by
  induction elems generalizing acc with
  | nil => exact h
  | cons i elems ih =>
    refine ih ?_
    obtain ⟨t, ht, hfail⟩ := h
    obtain rfl := mem_singleton.mp ht
    exact ⟨_, mem_singleton_self _, hfail.left _⟩

theorem lane_step_outcome {acc : Option T} (hacc : HasValue xs op acc t) (hi : i < xs.length) :
    Outcome xs op [fold_step t i] (fun v => HasValue xs op v (fold_step t i))
      (lane_step xs op acc i) := by
  have helem : eval_expr xs op (.Elem i) = .ok xs[i] :=
    elem_eq_ok.mpr (getElem?_eq_getElem hi)
  rw [lane_step, show elem xs i = .ok xs[i] from helem]
  cases hacc with
  | none => exact .some helem
  | some ha => exact (apply_outcome ha helem).bind (fun _ h => h) fun v hv => .some hv

/-- A lane's fold meets the value of its left spine. -/
theorem fold_outcome {elems : List Nat} (helems : ∀ i ∈ elems, i < xs.length)
    {acc : Option T} (hacc : HasValue xs op acc t) :
    Outcome xs op [fold_lane elems t] (fun v => HasValue xs op v (fold_lane elems t))
      (elems.foldlM (lane_step xs op) acc) := by
  induction elems generalizing acc t with
  | nil => exact hacc
  | cons i elems ih =>
    rw [forall_mem_cons] at helems
    rw [foldlM_cons]
    exact (lane_step_outcome hacc helems.1).bind (fun e he => he.fold_lane) fun v hv =>
      ih helems.2 hv

theorem lane_elems_lt {l start len lane : Nat} (hl : 1 ≤ l)
    (h : i ∈ lane_elems l start len lane) : i < start + len := by
  obtain ⟨t, ht, rfl⟩ := mem_map.mp h
  have := mem_step_by hl ht
  omega

/-- Independent runs and then the levels over their results. -/
theorem levels_outcome (f : α → Except (Stop E) (Option T)) (g : β → Option Expr)
    {as : List α} {bs : List β}
    (h : List.Forall₂ (fun a b => Outcome xs op [g b] (fun v => HasValue xs op v (g b)) (f a))
      as bs) :
    Outcome xs op [join_levels bs.length (bs.map g)]
      (fun v => HasValue xs op v (join_levels bs.length (bs.map g)))
      (as.mapM f >>= fun vs => combine_levels (apply op) vs.length vs) := by
  have hlen : (bs.map g).length ≤ bs.length := Nat.le_of_eq (length_map g)
  refine (mapM_outcome h).bind (fun e he => he.join_levels hlen) fun vs hvs => ?_
  have heq : vs.length = bs.length := by
    rw [hvs.length_eq, length_map]
  rw [heq]
  exact combine_levels_outcome hvs hlen

theorem block_outcome {n l : Nat} (hl : 1 ≤ l) (hn : n ≤ xs.length) {block : BlockAssign}
    {p : Nat × Nat} (h : IsBlock n l block p) :
    Outcome xs op [block_shape l p.1 p.2] (fun v => HasValue xs op v (block_shape l p.1 p.2))
      (block_eval xs op block) := by
  obtain ⟨hlen, hlanes⟩ := h
  have hrun := levels_outcome (lane_eval xs op)
    (fun lane => fold_lane (lane_elems l p.1 p.2 lane) none) (hlanes.imp fun asg lane hasg => by
      rw [lane_eval, hasg]
      refine fold_outcome (fun i hi => ?_) .none
      have := lane_elems_lt hl hi
      omega)
  rw [length_range] at hrun
  exact hrun

/-- The runtime form meets the value of the tree, or an application of it that fails. -/
theorem reduce_outcome {n b l : Nat} (hl : 1 ≤ l) (hxs : xs.length = n)
    {blocks : List BlockAssign}
    (hblocks : List.Forall₂ (IsBlock n l) blocks (blocks_from n b n 0)) :
    Outcome xs op [shape n b l] (fun v => HasValue xs op v (shape n b l))
      (reduce_eval ⟨n, b, l, blocks⟩ xs op) := by
  have hrun := levels_outcome (block_eval xs op) (fun p : Nat × Nat => block_shape l p.1 p.2)
    (hblocks.imp fun blk p hp => block_outcome hl (Nat.le_of_eq hxs.symm) hp)
  rw [reduce_eval, if_pos hxs, shape, length_map]
  exact hrun

end Agreement

section Within

variable {n : Nat}

/-- Every tree of the level is over the first `n` elements. -/
def AllWithin (n : Nat) (ts : List (Option Expr)) : Prop :=
  ∀ t, some t ∈ ts → Within n t

theorem AllWithin.join_pass {ts : List (Option Expr)} (h : AllWithin n ts) :
    AllWithin n (join_pass ts) := by
  induction ts using join_pass.induct with
  | case1 a b items ih =>
    intro t ht
    rw [Reduce.join_pass, mem_cons] at ht
    obtain ht | ht := ht
    · cases a with
      | none =>
        cases b with
        | none => exact nomatch ht
        | some b => exact h t (by simp [ht, join])
      | some a =>
        cases b with
        | none => exact h t (by simp [ht, join])
        | some b =>
          cases ht
          exact ⟨h a (by simp), h b (by simp)⟩
    · refine ih (fun t ht => h t ?_) t ht
      exact mem_cons_of_mem _ (mem_cons_of_mem _ ht)
  | case2 items hitems => rwa [Reduce.join_pass.eq_2 _ hitems]

theorem AllWithin.join_levels {fuel : Nat} {ts : List (Option Expr)} (h : AllWithin n ts) :
    AllWithin n [join_levels fuel ts] := by
  induction fuel generalizing ts with
  | zero =>
    match ts with
    | [] => intro t ht; exact nomatch mem_singleton.mp ht
    | [t] => exact h
    | a :: b :: rest => intro t ht; exact nomatch mem_singleton.mp ht
  | succ fuel ih =>
    match ts with
    | [] => intro t ht; exact nomatch mem_singleton.mp ht
    | [t] => exact h
    | a :: b :: rest =>
      rw [Reduce.join_levels]
      · exact ih h.join_pass
      all_goals simp

theorem fold_lane_within {elems : List Nat} (helems : ∀ i ∈ elems, i < n) {acc : Option Expr}
    (h : AllWithin n [acc]) : AllWithin n [fold_lane elems acc] := by
  induction elems generalizing acc with
  | nil => exact h
  | cons i elems ih =>
    rw [forall_mem_cons] at helems
    refine ih helems.2 fun t ht => ?_
    cases acc with
    | none =>
      obtain rfl := Option.some.inj (mem_singleton.mp ht)
      exact helems.1
    | some a =>
      obtain rfl := Option.some.inj (mem_singleton.mp ht)
      exact ⟨h a (mem_singleton_self _), helems.1⟩

theorem blocks_from_le {b fuel start : Nat} {p : Nat × Nat} (h : p ∈ blocks_from n b fuel start) :
    p.1 + p.2 ≤ n := by
  induction fuel generalizing start with
  | zero => exact absurd h not_mem_nil
  | succ fuel ih =>
    rw [blocks_from] at h
    split at h
    · obtain rfl | h := mem_cons.mp h
      · simp only
        omega
      · exact ih h
    · exact absurd h not_mem_nil

theorem allWithin_map {α : Type} {f : α → Option Expr} {as : List α}
    (h : ∀ a ∈ as, AllWithin n [f a]) : AllWithin n (as.map f) := by
  intro t ht
  obtain ⟨a, ha, hat⟩ := mem_map.mp ht
  exact h a ha t (mem_singleton.mpr hat.symm)

theorem shape_within {b l : Nat} (hl : 1 ≤ l) : AllWithin n [shape n b l] := by
  refine AllWithin.join_levels (allWithin_map fun p hp => AllWithin.join_levels
    (allWithin_map fun lane _ => fold_lane_within (fun i hi => ?_) fun t ht => ?_))
  · have h1 := lane_elems_lt hl hi
    have h2 := blocks_from_le hp
    omega
  · exact nomatch mem_singleton.mp ht

end Within

/-! ## The two forms agree -/

/-- A tree has a value, or an application of it fails, and not both. -/
theorem eval_expr_ok_or_fails {T E : Type} {xs : List T} {op : T → T → Except E T} {t : Expr}
    (ht : Within xs.length t) :
    (∃ v, eval_expr xs op t = .ok v ∧ ¬ ∃ e, Fails xs op t e) ∨
      ∃ e, eval_expr xs op t = .error (.err e) ∧ Fails xs op t e := by
  obtain ⟨v, hv⟩ | hfail := eval_expr_cases ht
  · exact .inl ⟨v, hv, fun ⟨e, he⟩ => he.not_ok v hv⟩
  · exact .inr hfail

/-- Where no application fails both forms give one value, and where one fails both report the error
of an application that fails. -/
theorem reduce_eval_agrees {T E : Type} {n b l : Nat} (hb : 1 ≤ b) (hl : 1 ≤ l) (hn : n < 2 ^ 32)
    (hbl : b + l < 2 ^ 32) {xs : List T} (hxs : xs.length = n) (op : T → T → Except E T) :
    ∃ tree expr, reduce_tree n b l = .ok tree ∧ unrolled n b l = .ok expr ∧
      match expr with
      | none => reduce_eval tree xs op = .ok none
      | some t =>
        (∀ v, reduce_eval tree xs op = .ok (some v) ↔ eval_expr xs op t = .ok v) ∧
          ((¬ ∃ e, Fails xs op t e) → ∃ v, reduce_eval tree xs op = .ok (some v)) ∧
          ((∃ e, Fails xs op t e) → ∃ e e', reduce_eval tree xs op = .error (.err e) ∧
            eval_expr xs op t = .error (.err e') ∧ Fails xs op t e ∧ Fails xs op t e') := by
  obtain ⟨blocks, hblocks, hrel⟩ := @reduce_blocks_eq l hl n b hb hn n 0 (Nat.le_refl n) 0
  refine ⟨⟨n, b, l, blocks⟩, shape n b l, ?_, unrolled_eq hl hb hn hbl, ?_⟩
  · rw [reduce_tree, if_pos ⟨hb, hl⟩, hblocks]
    rfl
  have hrun := @reduce_outcome T E xs op n b l hl hxs blocks hrel
  have hwithin := @shape_within n b l hl
  generalize hr : reduce_eval ⟨n, b, l, blocks⟩ xs op = r at hrun ⊢
  cases hshape : shape n b l with
  | none =>
    rw [hshape] at hrun
    cases r with
    | ok v =>
      cases hrun
      rfl
    | error s =>
      obtain ⟨_, -, t, ht, -⟩ := hrun
      exact nomatch mem_singleton.mp ht
  | some t =>
    rw [hshape] at hrun hwithin
    have ht : Within xs.length t := by
      rw [hxs]
      exact hwithin t (mem_singleton_self _)
    cases r with
    | ok v =>
      cases hrun with | @some v _ hv =>
      have hno : ¬ ∃ e, Fails xs op t e := fun ⟨e, he⟩ => he.not_ok v hv
      refine ⟨fun w => ?_, fun _ => ⟨v, rfl⟩, fun h => absurd h hno⟩
      rw [hv]
      simp
    | error s =>
      obtain ⟨e, rfl, t', ht', hfail⟩ := hrun
      obtain rfl := Option.some.inj (mem_singleton.mp ht')
      obtain ⟨v, -, hno⟩ | ⟨e', he', hfail'⟩ := eval_expr_ok_or_fails ht
      · exact absurd ⟨e, hfail⟩ hno
      · refine ⟨fun w => ?_, fun h => absurd ⟨e, hfail⟩ h, fun _ => ⟨e, e', rfl, he', hfail, hfail'⟩⟩
        rw [he']
        simp

/-- Addition on `u8` that names its left operand when it overflows. -/
def add_u8 (x y : Nat) : Except Nat Nat :=
  if x + y < 256 then .ok (x + y) else .error x

theorem reduce_eval_agrees_ten :
    ∃ tree t, reduce_tree 10 4 3 = .ok tree ∧ unrolled 10 4 3 = .ok (some t) ∧
      (reduce_eval tree [1, 2, 3, 4, 5, 6, 7, 8, 9, 10] add_u8 = .ok (some 55) ↔
        eval_expr [1, 2, 3, 4, 5, 6, 7, 8, 9, 10] add_u8 t = .ok 55) := by
  obtain ⟨tree, expr, htree, hexpr, h⟩ := @reduce_eval_agrees Nat Nat 10 4 3 (by decide)
    (by decide) (by decide) (by decide) [1, 2, 3, 4, 5, 6, 7, 8, 9, 10] rfl add_u8
  cases expr with
  | none => exact absurd hexpr (by decide)
  | some t => exact ⟨tree, t, htree, hexpr, h.1 55⟩

/-- The runtime form folds every lane of a block before it combines two; the tree combines the
first two lanes before it reaches the third. Where a lane and a pair both fail the errors differ. -/
theorem reduce_eval_other_error :
    ∃ tree t, reduce_tree 6 8 3 = .ok tree ∧ unrolled 6 8 3 = .ok (some t) ∧
      reduce_eval tree [100, 100, 150, 100, 100, 150] add_u8 = .error (.err 150) ∧
      eval_expr [100, 100, 150, 100, 100, 150] add_u8 t = .error (.err 200) :=
  ⟨_, _, rfl, rfl, by decide, by decide⟩

end Fors.Fmir.Reduce
