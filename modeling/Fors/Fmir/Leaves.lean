import Mathlib.Data.List.Nodup
import Fors.Lib.Runs
import Fors.Fmir.Reduce
import Mathlib.Algebra.GroupWithZero.Nat

/-!
# The shape law of the `reduce` tree

Every element is one leaf of the tree, so the tree applies `op` once less than there are elements,
and an `op` that is associative and commutative cannot tell it from the left fold.

Source: `crates/fors-fmir/src/reduce.rs`. Principal result: `reduce_shape_law`.
-/

namespace Fors.Fmir.Reduce

open Accounts Runs List

/-! ## `op` with a state

`op` is an `FnMut`: it may change what it captures from one application to the next. -/

section FnMut

variable {σ T E : Type}

abbrev Run (σ E α : Type) := Account σ (Stop E) α

/-- A level, as `combine_pass`. -/
def combine_pass_mut (pair : T → T → Run σ E T) : List (Option T) → Run σ E (List (Option T))
  | some x :: some y :: items => do
    let v ← pair x y
    let rest ← combine_pass_mut pair items
    return some v :: rest
  | some v :: none :: items | none :: some v :: items => do
    let rest ← combine_pass_mut pair items
    return some v :: rest
  | none :: none :: items => do
    let rest ← combine_pass_mut pair items
    return none :: rest
  | [a] => return [a]
  | [] => return []

def combine_levels_mut (pair : T → T → Run σ E T) : Nat → List (Option T) → Run σ E (Option T)
  | _, [] => return none
  | _, [item] => return item
  | 0, _ => fun _ => .error (.panic .fuel)
  | fuel + 1, items => do
    let next ← combine_pass_mut pair items
    combine_levels_mut pair fuel next

def apply_mut (op : T → T → Account σ E T) (x y : T) : Run σ E T := fun s =>
  match op x y s with
  | .ok v => .ok v
  | .error e => .error (.err e)

def elem_mut (xs : List T) (i : Nat) : Run σ E T := fun s => (elem xs i).map fun x => (x, s)

def lane_step_mut (xs : List T) (op : T → T → Account σ E T) (acc : Option T) (e : Nat) :
    Run σ E (Option T) := do
  let rhs ← elem_mut xs e
  match acc with
  | none => return some rhs
  | some a => do
    let v ← apply_mut op a rhs
    return some v

def lane_eval_mut (xs : List T) (op : T → T → Account σ E T) (lane : LaneAssign) :
    Run σ E (Option T) :=
  lane.elems.foldlM (lane_step_mut xs op) none

def block_eval_mut (xs : List T) (op : T → T → Account σ E T) (block : BlockAssign) :
    Run σ E (Option T) := do
  let lanes ← block.lanes.mapM (lane_eval_mut xs op)
  combine_levels_mut (apply_mut op) lanes.length lanes

def reduce_eval_mut (tree : ReduceTree) (xs : List T) (op : T → T → Account σ E T) :
    Run σ E (Option T) :=
  if xs.length = tree.n then do
    let partials ← tree.blocks.mapM (block_eval_mut xs op)
    combine_levels_mut (apply_mut op) partials.length partials
  else fun _ => .error (.panic .assert)

/-! ### Without the state -/

theorem combine_pass_erases {pair : T → T → Run σ E T} {pair' : T → T → Except (Stop E) T}
    (h : ∀ x y, Erases (pair x y) (pair' x y)) (items : List (Option T)) :
    Erases (combine_pass_mut pair items) (combine_pass pair' items) := by
  induction items using combine_pass.induct with
  | case1 x y items ih =>
    rw [combine_pass_mut, combine_pass]
    exact (h x y).bind fun v => ih.bind fun rest => .pure _
  | case2 v items ih =>
    rw [combine_pass_mut, combine_pass]
    exact ih.bind fun rest => .pure _
  | case3 v items ih =>
    rw [combine_pass_mut, combine_pass]
    exact ih.bind fun rest => .pure _
  | case4 items ih =>
    rw [combine_pass_mut, combine_pass]
    exact ih.bind fun rest => .pure _
  | case5 a =>
    rw [combine_pass_mut, combine_pass]
    exact .pure _
  | case6 =>
    rw [combine_pass_mut, combine_pass]
    exact .pure _

theorem combine_levels_erases {pair : T → T → Run σ E T} {pair' : T → T → Except (Stop E) T}
    (h : ∀ x y, Erases (pair x y) (pair' x y)) (fuel : Nat) (items : List (Option T)) :
    Erases (combine_levels_mut pair fuel items) (combine_levels pair' fuel items) := by
  induction fuel generalizing items with
  | zero =>
    match items with
    | [] => exact .pure _
    | [item] => exact .pure _
    | a :: b :: rest => exact .throw _
  | succ fuel ih =>
    match items with
    | [] => exact .pure _
    | [item] => exact .pure _
    | a :: b :: rest => exact (combine_pass_erases h (a :: b :: rest)).bind fun next => ih next

variable {op : T → T → Account σ E T} {op' : T → T → Except E T}

theorem apply_erases (h : ∀ x y, Erases (op x y) (op' x y)) (x y : T) :
    Erases (apply_mut op x y) (apply op' x y) := by
  intro s
  have hs := h x y s
  unfold apply_mut apply
  cases hop : op x y s with
  | error e =>
    rw [hop] at hs
    rw [← hs]
    rfl
  | ok p =>
    rw [hop] at hs
    rw [← hs]
    rfl

theorem elem_erases (xs : List T) (i : Nat) :
    Erases (elem_mut xs i : Run σ E T) (elem xs i) := by
  intro s
  unfold elem_mut
  cases (elem xs i : Except (Stop E) T) <;> rfl

theorem lane_step_erases
    (h : ∀ x y, Erases (op x y) (op' x y)) (xs : List T) (acc : Option T) (e : Nat) :
    Erases (lane_step_mut xs op acc e) (lane_step xs op' acc e) := by
  refine (elem_erases xs e).bind fun rhs => ?_
  cases acc with
  | none => exact .pure _
  | some a => exact (apply_erases h a rhs).bind fun v => .pure _

/-- **The state of `op` does not change what is evaluated.** -/
theorem reduce_eval_erases
    (h : ∀ x y, Erases (op x y) (op' x y)) (tree : ReduceTree) (xs : List T) :
    Erases (reduce_eval_mut tree xs op) (reduce_eval tree xs op') := by
  have hblock : ∀ block, Erases (block_eval_mut xs op block) (block_eval xs op' block) :=
    fun block => (Erases.mapM (fun lane : LaneAssign =>
      Erases.foldlM (lane_step_erases h xs) lane.elems none) block.lanes).bind fun lanes =>
        combine_levels_erases (apply_erases h) lanes.length lanes
  unfold reduce_eval_mut reduce_eval
  split
  · exact (Erases.mapM hblock tree.blocks).bind fun partials =>
      combine_levels_erases (apply_erases h) partials.length partials
  · exact .throw _

/-! ### The number of applications -/

/-- An `op` that never fails. -/
def total (f : T → T → T) (x y : T) : Except E T :=
  .ok (f x y)

/-- The same, counting its applications. -/
def counted (f : T → T → T) (x y : T) : Account Nat E T :=
  fun k => .ok (f x y, k + 1)

theorem counted_erases (f : T → T → T) (x y : T) :
    Erases (counted f x y : Account Nat E T) (total f x y) :=
  fun _ => rfl

/-- An item that is there. -/
def weight : Option T → Nat
  | none => 0
  | some _ => 1

def present (items : List (Option T)) : Nat :=
  (items.map weight).sum

theorem present_cons (a : Option T) (items : List (Option T)) :
    present (a :: items) = weight a + present items := by
  rw [present, map_cons, sum_cons, present]

/-- An application makes one item of two. -/
theorem apply_spends (f : T → T → T) (x y : T) :
    Spends (apply_mut (counted f) x y : Run Nat E T) 2 fun _ => 1 :=
  fun s => ⟨f x y, s + 1, rfl, rfl⟩

theorem combine_pass_spends (f : T → T → T) (items : List (Option T)) :
    Spends (combine_pass_mut (apply_mut (counted f)) items : Run Nat E _) (present items)
      present := by
  induction items using combine_pass.induct with
  | case1 x y items ih =>
    rw [combine_pass_mut, present_cons, present_cons]
    have hpair := (apply_spends (E := E) f x y).frame (present items)
    rw [show weight (some x) + (weight (some y) + present items) = present items + 2 by
      simp only [weight]; omega]
    refine hpair.bind fun v _ => ?_
    rw [Nat.add_comm]
    exact (ih.frame 1).bind fun rest _ => .pure (present_cons _ _)
  | case2 v items ih =>
    rw [combine_pass_mut, present_cons, present_cons]
    rw [show weight (some v) + (weight (none : Option T) + present items) = 1 + present items by
      simp only [weight]; omega]
    exact (ih.frame 1).bind fun rest _ => .pure (present_cons _ _)
  | case3 v items ih =>
    rw [combine_pass_mut, present_cons, present_cons]
    rw [show weight (none : Option T) + (weight (some v) + present items) = 1 + present items by
      simp only [weight]; omega]
    exact (ih.frame 1).bind fun rest _ => .pure (present_cons _ _)
  | case4 items ih =>
    rw [combine_pass_mut, present_cons, present_cons, weight, Nat.zero_add, Nat.zero_add]
    refine ih.bind fun rest _ => .pure ?_
    rw [present_cons, weight, Nat.zero_add]
  | case5 a =>
    rw [combine_pass_mut]
    exact .pure rfl
  | case6 =>
    rw [combine_pass_mut]
    exact .pure rfl

theorem length_combine_pass {pair : T → T → Except (Stop E) T} {items next : List (Option T)}
    (h : combine_pass pair items = .ok next) : next.length = (items.length + 1) / 2 := by
  induction items using combine_pass.induct generalizing next with
  | case1 x y items ih =>
    simp only [combine_pass, bind_eq_ok, pure_eq_ok] at h
    obtain ⟨v, -, rest, hrest, rfl⟩ := h
    have := ih hrest
    simp only [length_cons]
    omega
  | case2 v items ih | case3 v items ih | case4 items ih =>
    simp only [combine_pass, bind_eq_ok, pure_eq_ok] at h
    obtain ⟨rest, hrest, rfl⟩ := h
    have := ih hrest
    simp only [length_cons]
    omega
  | case5 a =>
    simp only [combine_pass, pure_eq_ok] at h
    subst h
    simp
  | case6 =>
    simp only [combine_pass, pure_eq_ok] at h
    subst h
    simp

theorem combine_levels_spends (f : T → T → T) {fuel : Nat} {items : List (Option T)}
    (hfuel : items.length ≤ fuel) :
    Spends (combine_levels_mut (apply_mut (counted f)) fuel items : Run Nat E _) (present items)
      weight := by
  induction fuel generalizing items with
  | zero =>
    obtain rfl := length_eq_zero_iff.mp (Nat.le_zero.mp hfuel)
    exact .pure rfl
  | succ fuel ih =>
    match items with
    | [] => exact .pure rfl
    | [item] => exact .pure rfl
    | a :: b :: rest =>
      refine (combine_pass_spends f (a :: b :: rest)).bind fun next ⟨s, s', hnext⟩ => ih ?_
      have herase := combine_pass_erases (apply_erases (counted_erases (E := E) f)) (a :: b :: rest) s
      rw [hnext] at herase
      have hlen := length_combine_pass herase.symm
      simp only [length_cons] at hfuel hlen
      omega

theorem lane_step_spends (f : T → T → T) {xs : List T} {e : Nat} (he : e < xs.length)
    (acc : Option T) :
    Spends (lane_step_mut xs (counted f) acc e : Run Nat E _) (weight acc + 1) weight := by
  have helem : Spends (elem_mut xs e : Run Nat E T) (weight acc + 1) fun _ => weight acc + 1 :=
    fun s => ⟨xs[e], s, by rw [elem_mut, elem, getElem?_eq_getElem he]; rfl, rfl⟩
  refine helem.bind fun rhs _ => ?_
  cases acc with
  | none => exact .pure rfl
  | some a => exact (apply_spends f a rhs).bind fun v _ => .pure rfl

theorem lane_fold_spends (f : T → T → T) {xs : List T} {elems : List Nat}
    (helems : ∀ e ∈ elems, e < xs.length) (acc : Option T) :
    Spends (elems.foldlM (lane_step_mut xs (counted f)) acc : Run Nat E _)
      (weight acc + elems.length) weight := by
  induction elems generalizing acc with
  | nil => exact .pure rfl
  | cons e elems ih =>
    rw [forall_mem_cons] at helems
    rw [foldlM_cons, length_cons, Nat.add_comm elems.length, ← Nat.add_assoc,
      Nat.add_comm _ elems.length]
    refine ((lane_step_spends f helems.1 acc).frame elems.length).bind fun acc _ => ?_
    rw [Nat.add_comm]
    exact ih helems.2 acc

/-- The elements that a block's lanes name. -/
def elems_of (block : BlockAssign) : List Nat :=
  block.lanes.flatMap LaneAssign.elems

theorem block_eval_spends (f : T → T → T) {xs : List T} {block : BlockAssign}
    (helems : ∀ e ∈ elems_of block, e < xs.length) :
    Spends (block_eval_mut xs (counted f) block : Run Nat E _) (elems_of block).length weight := by
  have hlanes : Spends (block.lanes.mapM (lane_eval_mut xs (counted f)) : Run Nat E _)
      (block.lanes.map fun lane => lane.elems.length).sum present :=
    Spends.mapM fun lane hlane => by
      have h := lane_fold_spends (E := E) f
        (fun e he => helems e (mem_flatMap.2 ⟨lane, hlane, he⟩)) none
      rwa [weight, Nat.zero_add] at h
  rw [elems_of, length_flatMap]
  exact hlanes.bind fun lanes _ => combine_levels_spends f (Nat.le_refl _)

/-- Over the whole tree: every element but the one that is left has been counted. -/
theorem reduce_eval_spends (f : T → T → T) {xs : List T} {tree : ReduceTree}
    (hxs : xs.length = tree.n)
    (helems : ∀ e ∈ tree.blocks.flatMap elems_of, e < xs.length) :
    Spends (reduce_eval_mut tree xs (counted f) : Run Nat E _)
      (tree.blocks.flatMap elems_of).length weight := by
  have hblocks : Spends (tree.blocks.mapM (block_eval_mut xs (counted f)) : Run Nat E _)
      (tree.blocks.map fun block => (elems_of block).length).sum present :=
    Spends.mapM fun block hblock => block_eval_spends f fun e he =>
      helems e (mem_flatMap.2 ⟨block, hblock, he⟩)
  rw [reduce_eval_mut, if_pos hxs, length_flatMap]
  exact hblocks.bind fun partials _ => combine_levels_spends f (Nat.le_refl _)

end FnMut

/-! ## Leaves and applications -/

/-- The leaves of a tree, from the left. -/
def Expr.leaves : Expr → List Nat
  | .Elem i => [i]
  | .Op a b => a.leaves ++ b.leaves

/-- The applications of a tree. -/
def Expr.ops : Expr → Nat
  | .Elem _ => 0
  | .Op a b => a.ops + b.ops + 1

def leaves_of : Option Expr → List Nat
  | none => []
  | some t => t.leaves

def ops_of : Option Expr → Nat
  | none => 0
  | some t => t.ops

theorem length_leaves (t : Expr) : t.leaves.length = t.ops + 1 := by
  induction t with
  | Elem i => rfl
  | Op a b iha ihb =>
    rw [Expr.leaves, Expr.ops, length_append, iha, ihb]
    omega

theorem ops_of_eq (t : Option Expr) : ops_of t = (leaves_of t).length - 1 := by
  cases t with
  | none => rfl
  | some t =>
    rw [leaves_of, length_leaves]
    rfl

theorem leaves_of_join (a b : Option Expr) :
    leaves_of (join a b) = leaves_of a ++ leaves_of b := by
  cases a with
  | none => cases b <;> rfl
  | some a =>
    cases b with
    | none => exact (append_nil _).symm
    | some b => rfl

theorem leaves_of_join_pass (items : List (Option Expr)) :
    (join_pass items).flatMap leaves_of = items.flatMap leaves_of := by
  induction items using join_pass.induct with
  | case1 a b items ih =>
    rw [join_pass, flatMap_cons, flatMap_cons, flatMap_cons, ih, leaves_of_join,
      append_assoc]
  | case2 items h => rw [join_pass.eq_2 _ h]

/-- The levels keep every leaf, in its place. -/
theorem leaves_of_join_levels {fuel : Nat} {items : List (Option Expr)}
    (hfuel : items.length ≤ fuel) :
    leaves_of (join_levels fuel items) = items.flatMap leaves_of := by
  induction fuel generalizing items with
  | zero =>
    obtain rfl := length_eq_zero_iff.mp (Nat.le_zero.mp hfuel)
    rfl
  | succ fuel ih =>
    match items with
    | [] => rfl
    | [item] => exact (append_nil _).symm
    | a :: b :: rest =>
      have hlen : (join_pass (a :: b :: rest)).length ≤ fuel := by
        rw [length_join_pass]
        simp only [length_cons] at hfuel ⊢
        omega
      show leaves_of (join_levels fuel (join_pass (a :: b :: rest))) = _
      rw [ih hlen, leaves_of_join_pass]

theorem leaves_of_fold_lane (elems : List Nat) (acc : Option Expr) :
    leaves_of (fold_lane elems acc) = leaves_of acc ++ elems := by
  induction elems generalizing acc with
  | nil => exact (append_nil _).symm
  | cons i elems ih =>
    show leaves_of (fold_lane elems (fold_step acc i)) = _
    rw [ih]
    cases acc with
    | none => rfl
    | some a => exact append_assoc _ _ _

/-- The elements of a block, lane by lane. -/
def block_elems (l start len : Nat) : List Nat :=
  (List.range l).flatMap (lane_elems l start len)

theorem leaves_of_block_shape (l start len : Nat) :
    leaves_of (block_shape l start len) = block_elems l start len := by
  rw [block_shape, leaves_of_join_levels (Nat.le_of_eq (by rw [length_map, length_range])),
    flatMap_map, block_elems]
  congr 1
  funext lane
  rw [leaves_of_fold_lane]
  rfl

/-- The elements of all blocks. -/
def tree_elems (n b l : Nat) : List Nat :=
  (blocks_from n b n 0).flatMap fun p => block_elems l p.1 p.2

theorem leaves_of_shape (n b l : Nat) : leaves_of (shape n b l) = tree_elems n b l := by
  rw [shape, leaves_of_join_levels (Nat.le_refl _), flatMap_map, tree_elems]
  congr 1
  funext p
  exact leaves_of_block_shape l p.1 p.2

/-! ## Every element once -/

section Once

variable {l : Nat}

/-- A lane is a residue class. -/
theorem mem_step_by_iff (hl : 1 ≤ l) {lane len i : Nat} (hlane : lane < l) :
    i ∈ step_by lane len l ↔ i < len ∧ i % l = lane := by
  constructor
  · intro h
    refine ⟨mem_step_by hl h, ?_⟩
    obtain ⟨k, -, rfl⟩ := mem_range'.mp h
    rw [Nat.add_mul_mod_self_left, Nat.mod_eq_of_lt hlane]
  · rintro ⟨hi, hmod⟩
    have hdiv := Nat.mod_add_div i l
    refine mem_range'.mpr ⟨i / l, ?_, by omega⟩
    have hle : (i / l + 1) * l ≤ len - lane + (l - 1) := by
      rw [Nat.add_mul, Nat.one_mul, Nat.mul_comm]
      omega
    exact (Nat.le_div_iff_mul_le hl).2 hle

theorem nodup_step_by (hl : 1 ≤ l) (lane len : Nat) : (step_by lane len l).Nodup :=
  nodup_range' l hl

/-- The lanes of a block share its offsets out. -/
theorem lanes_perm (hl : 1 ≤ l) (len : Nat) :
    ((List.range l).flatMap fun lane => step_by lane len l).Perm (List.range len) := by
  refine (perm_ext_iff_of_nodup ?_ nodup_range).2 fun i => ?_
  · rw [nodup_flatMap]
    refine ⟨fun lane _ => nodup_step_by hl lane len, ?_⟩
    refine nodup_range.imp_of_mem fun {a b} ha hb hab => ?_
    intro i hia hib
    rw [mem_step_by_iff hl (mem_range.1 ha)] at hia
    rw [mem_step_by_iff hl (mem_range.1 hb)] at hib
    exact hab (hia.2.symm.trans hib.2)
  · rw [mem_flatMap, mem_range]
    constructor
    · rintro ⟨lane, -, hi⟩
      exact mem_step_by hl hi
    · intro hi
      have hlane := Nat.mod_lt i hl
      exact ⟨i % l, mem_range.2 hlane, (mem_step_by_iff hl hlane).2 ⟨hi, rfl⟩⟩

theorem block_elems_perm (hl : 1 ≤ l) (start len : Nat) :
    (block_elems l start len).Perm (List.range' start len) := by
  have h := (lanes_perm hl len).map (start + ·)
  rw [map_flatMap, ← List.range'_eq_map_range] at h
  exact h

theorem blocks_perm (hl : 1 ≤ l) {n b : Nat} (hb : 1 ≤ b) {fuel start : Nat}
    (hfuel : n ≤ fuel + start) :
    ((blocks_from n b fuel start).flatMap fun p => block_elems l p.1 p.2).Perm
      (List.range' start (n - start)) := by
  induction fuel generalizing start with
  | zero =>
    rw [blocks_from, Nat.sub_eq_zero_of_le (by omega)]
    exact .refl _
  | succ fuel ih =>
    rw [blocks_from]
    split
    · rename_i hstart
      have hsplit : List.range' start (n - start) =
          List.range' start (min (n - start) b) ++
            List.range' (start + min (n - start) b) (n - (start + min (n - start) b)) := by
        rw [List.range'_append_1]
        congr 1
        omega
      rw [flatMap_cons, hsplit]
      exact (block_elems_perm hl start _).append (ih (by omega))
    · rw [Nat.sub_eq_zero_of_le (by omega)]
      exact .refl _

/-- **Every element is a leaf once.** -/
theorem tree_elems_perm (hl : 1 ≤ l) {n b : Nat} (hb : 1 ≤ b) :
    (tree_elems n b l).Perm (List.range n) := by
  rw [range_eq_range']
  exact blocks_perm hl hb (Nat.le_refl n)

end Once

/-! ## The left fold -/

/-- `((x0 ∘ x1) ∘ x2) …` -/
def left_fold (n : Nat) : Option Expr :=
  if n = 0 then none
  else some ((List.range' 1 (n - 1)).foldl (fun acc i => .Op acc (.Elem i)) (.Elem 0))

/-- The fold of the values themselves. -/
def fold_values {T : Type} (f : T → T → T) : List T → Option T
  | [] => none
  | x :: xs => some (xs.foldl f x)

theorem leaves_foldl (is : List Nat) (acc : Expr) :
    (is.foldl (fun acc i => .Op acc (.Elem i)) acc).leaves = acc.leaves ++ is := by
  induction is generalizing acc with
  | nil => exact (append_nil _).symm
  | cons i is ih =>
    rw [foldl_cons, ih, Expr.leaves, append_assoc]
    rfl

theorem leaves_of_left_fold (n : Nat) : leaves_of (left_fold n) = List.range n := by
  rw [left_fold]
  split
  · rename_i h
    rw [h]
    rfl
  · rename_i h
    rw [leaves_of, leaves_foldl, range_eq_range', ← Nat.succ_pred_eq_of_pos (Nat.pos_of_ne_zero h)]
    rfl

/-! ### The value -/

section Value

variable {T E : Type} {xs : List T} {f : T → T → T}

/-- The values at a list of indices. -/
def Reads (xs : List T) (is : List Nat) (vs : List T) : Prop :=
  List.Forall₂ (fun i v => xs[i]? = some v) is vs

theorem Reads.eq_map {is : List Nat} {vs : List T} {d : T} (h : Reads xs is vs) :
    vs = is.map fun i => xs.getD i d := by
  induction h with
  | nil => rfl
  | cons hv _ ih => rw [map_cons, ← ih, List.getD, hv, Option.getD_some]

theorem map_getD_range (xs : List T) (d : T) :
    (List.range xs.length).map (fun i => xs.getD i d) = xs := by
  refine ext_getElem (by simp) fun i h1 h2 => ?_
  rw [getElem_map, getElem_range, List.getD, getElem?_eq_getElem h2,
    Option.getD_some]

/-- With an associative `f` a tree's value is the fold of its leaves. -/
theorem eval_total (hassoc : ∀ a b c, f (f a b) c = f a (f b c)) {t : Expr} {v : T}
    (h : eval_expr xs (total (E := E) f) t = .ok v) :
    ∃ y ys, Reads xs t.leaves (y :: ys) ∧ v = ys.foldl f y := by
  have : Std.Associative f := ⟨hassoc⟩
  induction t generalizing v with
  | Elem i => exact ⟨v, [], .cons (elem_eq_ok.1 h) .nil, rfl⟩
  | Op a b iha ihb =>
    simp only [eval_expr, bind_eq_ok] at h
    obtain ⟨va, ha, vb, hb, hv⟩ := h
    obtain ⟨y, ys, hys, rfl⟩ := iha ha
    obtain ⟨z, zs, hzs, rfl⟩ := ihb hb
    refine ⟨y, ys ++ z :: zs, rel_append hys hzs, ?_⟩
    obtain rfl : f (ys.foldl f y) (zs.foldl f z) = v := Except.ok.inj (apply_eq_ok.1 hv)
    rw [foldl_append, foldl_cons, foldl_assoc]

/-- The first element is the first leaf. -/
theorem tree_elems_head {n b l : Nat} (hl : 1 ≤ l) (hb : 1 ≤ b) (hn : 0 < n) :
    ∃ rest, tree_elems n b l = 0 :: rest := by
  obtain ⟨m, rfl⟩ := Nat.exists_eq_succ_of_ne_zero (Nat.ne_of_gt hn)
  obtain ⟨k, rfl⟩ := Nat.exists_eq_add_of_le' hl
  rw [tree_elems, blocks_from, if_pos hn, flatMap_cons, block_elems, range_succ_eq_map,
    flatMap_cons, lane_elems, step_by_eq hl, if_pos (by omega)]
  exact ⟨_, rfl⟩

/-- **The tree's value is the left fold's**, for an associative and commutative `f`. -/
theorem value_eq_fold (hassoc : ∀ a b c, f (f a b) c = f a (f b c))
    (hcomm : ∀ a b, f a b = f b a) {n b l : Nat} (hl : 1 ≤ l) (hb : 1 ≤ b) (hn : 0 < n)
    (hxs : xs.length = n) {t : Expr} (ht : shape n b l = some t) {v : T}
    (h : eval_expr xs (total (E := E) f) t = .ok v) : fold_values f xs = some v := by
  obtain ⟨y, ys, hreads, rfl⟩ := eval_total hassoc h
  obtain ⟨rest, hrest⟩ := tree_elems_head hl hb hn
  have hleaves : t.leaves = 0 :: rest := by
    rw [← hrest, ← leaves_of_shape, ht]
    rfl
  rw [hleaves] at hreads
  obtain ⟨x, xs', rfl⟩ := exists_cons_of_length_pos (hxs ▸ hn)
  obtain _ | ⟨hy, hys⟩ := hreads
  obtain rfl : x = y := Option.some.inj hy
  have hleft : x :: ys = (tree_elems n b l).map fun i => (x :: xs').getD i x := by
    rw [hrest]
    exact Reads.eq_map (.cons hy hys)
  have hright : (List.range n).map (fun i => (x :: xs').getD i x) = x :: xs' := by
    rw [← hxs]
    exact map_getD_range (x :: xs') x
  have hperm : (x :: ys).Perm (x :: xs') :=
    (Perm.of_eq hleft).trans (((tree_elems_perm hl hb).map _).trans (.of_eq hright))
  rw [fold_values, hperm.cons_inv.foldl_eq' (fun a _ b _ c => ?_)]
  rw [hassoc, hcomm a b, ← hassoc]

end Value

/-! ### The shape -/

variable {n : Nat}

/-- From nine elements on the second leaf is element 8. -/
theorem shape_ne_left_fold_of_lanes (hn : 9 ≤ n) : shape n 256 8 ≠ left_fold n := by
  intro h
  have hleaves : tree_elems n 256 8 = List.range n := by
    rw [← leaves_of_shape, h, leaves_of_left_fold]
  obtain ⟨m, rfl⟩ := Nat.exists_eq_add_of_le hn
  have hsecond : (tree_elems (9 + m) 256 8)[1]? = some 8 := by
    rw [tree_elems, Nat.add_comm 9 m, blocks_from, if_pos (by omega), flatMap_cons,
      block_elems, range_succ_eq_map, flatMap_cons, lane_elems, step_by_eq (by omega),
      if_pos (by omega), step_by_eq (by omega), if_pos (by omega)]
    rfl
  rw [hleaves, getElem?_range (by omega)] at hsecond
  cases hsecond

/-- The tree is the left fold for up to three elements only. -/
theorem shape_eq_left_fold_iff (n : Nat) : shape n 256 8 = left_fold n ↔ n ≤ 3 := by
  constructor
  · intro h
    by_contra hn
    rcases Nat.lt_or_ge n 9 with hlt | hge
    · have hcases : n = 4 ∨ n = 5 ∨ n = 6 ∨ n = 7 ∨ n = 8 := by omega
      obtain rfl | rfl | rfl | rfl | rfl := hcases <;> exact absurd h (by decide)
    · exact shape_ne_left_fold_of_lanes hge h
  · intro hn
    have hcases : n = 0 ∨ n = 1 ∨ n = 2 ∨ n = 3 := by omega
    obtain rfl | rfl | rfl | rfl := hcases <;> decide

/-! ## The law -/

theorem flatMap_eq_of_forall₂ {α β γ : Type} {f : α → List γ} {g : β → List γ} {as : List α}
    {bs : List β} (h : List.Forall₂ (fun a b => f a = g b) as bs) :
    as.flatMap f = bs.flatMap g := by
  induction h with
  | nil => rfl
  | cons hab _ ih => rw [flatMap_cons, flatMap_cons, hab, ih]

variable {b : Nat} {blocks : List BlockAssign}

/-- The blocks of `reduce_tree` name the tree's elements. -/
theorem elems_of_blocks {l : Nat} (h : List.Forall₂ (IsBlock n l) blocks (blocks_from n b n 0)) :
    blocks.flatMap elems_of = tree_elems n b l :=
  flatMap_eq_of_forall₂ (h.imp fun _ _ hblock => flatMap_eq_of_forall₂ hblock.2)

theorem total_not_fails {T E : Type} {xs : List T} {f : T → T → T} {t : Expr} {e : E} :
    ¬ Fails xs (total f) t e := by
  intro h
  induction h with
  | here _ _ he => cases he
  | left _ _ ih => exact ih
  | right _ _ ih => exact ih

/-- The free `op` rebuilds the tree. -/
theorem eval_free {E : Type} {t v : Expr}
    (h : eval_expr ((List.range n).map .Elem) (total (E := E) .Op) t = .ok v) : v = t := by
  induction t generalizing v with
  | Elem i =>
    have hget := elem_eq_ok.1 h
    rw [getElem?_map] at hget
    obtain ⟨j, hj, rfl⟩ := Option.map_eq_some_iff.1 hget
    rw [getElem?_eq_some_iff] at hj
    obtain ⟨hlt, rfl⟩ := hj
    rw [getElem_range]
  | Op a b iha ihb =>
    simp only [eval_expr, bind_eq_ok] at h
    obtain ⟨va, ha, vb, hb, hv⟩ := h
    rw [iha ha, ihb hb] at hv
    exact (Except.ok.inj (apply_eq_ok.1 hv)).symm

/-- A total `op` meets the value of the tree. -/
theorem reduce_eval_total {T E : Type} {l : Nat} (hl : 1 ≤ l)
    (hblocks : List.Forall₂ (IsBlock n l) blocks (blocks_from n b n 0)) (f : T → T → T)
    {xs : List T} (hxs : xs.length = n) :
    ∃ v, reduce_eval ⟨n, b, l, blocks⟩ xs (total (E := E) f) = .ok v ∧
      HasValue xs (total (E := E) f) v (shape n b l) := by
  have hrun := @reduce_outcome T E xs (total f) n b l hl hxs blocks hblocks
  cases hr : reduce_eval ⟨n, b, l, blocks⟩ xs (total (E := E) f) with
  | ok v =>
    rw [hr] at hrun
    exact ⟨v, rfl, hrun⟩
  | error s =>
    rw [hr] at hrun
    obtain ⟨e, -, t, -, hfail⟩ := hrun
    exact absurd hfail total_not_fails

/-- It is applied once less than there are elements. -/
theorem reduce_eval_count {T E : Type} {l : Nat} (hl : 1 ≤ l) (hb : 1 ≤ b)
    (hblocks : List.Forall₂ (IsBlock n l) blocks (blocks_from n b n 0)) (f : T → T → T)
    {xs : List T} (hxs : xs.length = n) {v : Option T}
    (hv : reduce_eval ⟨n, b, l, blocks⟩ xs (total (E := E) f) = .ok v)
    (hsome : v = none → n = 0) :
    (reduce_eval_mut ⟨n, b, l, blocks⟩ xs (counted f) : Run Nat E _) 0 = .ok (v, n - 1) := by
  have helems := elems_of_blocks hblocks
  have hperm := tree_elems_perm (n := n) hl hb
  have hin : ∀ e ∈ blocks.flatMap elems_of, e < xs.length := by
    intro e he
    rw [helems, hperm.mem_iff, mem_range] at he
    omega
  obtain ⟨w, k, hrun, hbal⟩ :=
    @reduce_eval_spends T E f xs ⟨n, b, l, blocks⟩ hxs hin 0
  have herase := reduce_eval_erases (counted_erases (E := E) f) ⟨n, b, l, blocks⟩ xs 0
  rw [hrun, hv] at herase
  obtain rfl : w = v := Except.ok.inj herase
  rw [show (blocks.flatMap elems_of).length = n by
    rw [helems, hperm.length_eq, length_range]] at hbal
  rw [hrun]
  have hk : k = n - 1 := by
    cases w with
    | none =>
      have := hsome rfl
      rw [weight] at hbal
      omega
    | some w =>
      rw [weight] at hbal
      omega
  rw [hk]

/-- **The shape law**: each of the `n` elements is one leaf, `op` is applied `n - 1` times, the value
is the left fold's for an associative and commutative `op`, and the shape is the left fold's for
`n ≤ 3` only. -/
theorem reduce_shape_law {n b l : Nat} (hb : 1 ≤ b) (hl : 1 ≤ l) (hn : n < 2 ^ 32)
    (hbl : b + l < 2 ^ 32) :
    ∃ tree expr, reduce_tree n b l = .ok tree ∧ unrolled n b l = .ok expr ∧
      (leaves_of expr).Perm (List.range n) ∧ ops_of expr = n - 1 ∧
      (∀ E : Type, reduce_eval tree ((List.range n).map .Elem) (total (E := E) .Op) = .ok expr) ∧
      (∀ (T E : Type) (f : T → T → T) (xs : List T), xs.length = n →
        ∃ v, reduce_eval tree xs (total (E := E) f) = .ok v ∧
          (reduce_eval_mut tree xs (counted f) : Run Nat E _) 0 = .ok (v, n - 1)) ∧
      (∀ (T E : Type) (f : T → T → T) (xs : List T), (∀ x y z, f (f x y) z = f x (f y z)) →
        (∀ x y, f x y = f y x) → xs.length = n →
          reduce_eval tree xs (total (E := E) f) = .ok (fold_values f xs) ∧
            ∀ t, expr = some t → ∃ v, eval_expr xs (total (E := E) f) t = .ok v ∧
              fold_values f xs = some v) ∧
      (unrolled n 256 8 = .ok (left_fold n) ↔ n ≤ 3) := by
  obtain ⟨blocks, hblocks, hrel⟩ := @reduce_blocks_eq l hl n b hb hn n 0 (Nat.le_refl n) 0
  have hperm : (leaves_of (shape n b l)).Perm (List.range n) := by
    rw [leaves_of_shape]
    exact tree_elems_perm hl hb
  have hempty : shape n b l = none → n = 0 := by
    intro h
    rw [h] at hperm
    have := hperm.length_eq
    rw [length_range] at this
    exact this.symm
  have hnone : ∀ {T E : Type} {xs : List T} {f : T → T → T} {v : Option T},
      HasValue xs (total (E := E) f) v (shape n b l) → v = none → n = 0 := by
    rintro T E xs f v hv rfl
    generalize hs : shape n b l = s at hv
    cases hv
    exact hempty hs
  refine ⟨⟨n, b, l, blocks⟩, shape n b l, ?_, unrolled_eq hl hb hn hbl, hperm, ?_, fun E => ?_,
    fun T E f xs hxs => ?_, fun T E f xs hassoc hcomm hxs => ?_, ?_⟩
  · rw [reduce_tree, if_pos ⟨hb, hl⟩, hblocks]
    rfl
  · rw [ops_of_eq, hperm.length_eq, length_range]
  · have hlen : ((List.range n).map Expr.Elem).length = n := by
      rw [length_map, length_range]
    obtain ⟨v, hv, hval⟩ := reduce_eval_total (E := E) hl hrel Expr.Op hlen
    rw [hv]
    generalize shape n b l = s at hval
    cases hval with
    | none => rfl
    | some h => rw [eval_free h]
  · obtain ⟨v, hv, hval⟩ := reduce_eval_total (E := E) hl hrel f hxs
    exact ⟨v, hv, reduce_eval_count hl hb hrel f hxs hv (hnone hval)⟩
  · obtain ⟨v, hv, hval⟩ := reduce_eval_total (E := E) hl hrel f hxs
    rw [hv]
    generalize hs : shape n b l = s at hval
    cases hval with
    | none =>
      have h0 := hempty hs
      rw [h0] at hxs
      rw [length_eq_zero_iff.1 hxs]
      exact ⟨rfl, fun t ht => (by cases ht)⟩
    | @some v t h =>
      have hpos : 0 < n := by
        by_contra hzero
        obtain rfl : n = 0 := by omega
        cases hs
      have hfold := value_eq_fold hassoc hcomm hl hb hpos hxs hs h
      rw [hfold]
      exact ⟨rfl, fun t' ht => ⟨v, (Option.some.inj ht) ▸ h, rfl⟩⟩
  · rw [unrolled_eq (by omega) (by omega) hn (by omega), Except.ok.injEq]
    exact shape_eq_left_fold_iff n

theorem reduce_shape_law_five :
    ∃ tree expr, reduce_tree 5 4 3 = .ok tree ∧ unrolled 5 4 3 = .ok expr ∧ ops_of expr = 4 ∧
      reduce_eval tree [1, 2, 3, 4, 5] (total (E := Unit) (· + ·)) = .ok (some 15) := by
  obtain ⟨tree, expr, htree, hexpr, -, hops, -, -, hvalue, -⟩ :=
    @reduce_shape_law 5 4 3 (by decide) (by decide) (by decide) (by decide)
  have h := (hvalue Nat Unit (· + ·) [1, 2, 3, 4, 5] Nat.add_assoc Nat.add_comm rfl).1
  exact ⟨tree, expr, htree, hexpr, hops, h⟩

end Fors.Fmir.Reduce
