import Fors.Syntax.TreeBuilder

/-!
# The one-pass builder builds the ordered tree

A slice of creation indices holds a finished subtree when emitting it gives the subtree's pre-order
columns, below whatever wrappers are put around it later.  Every call keeps the slices of the
builder in step with the open and finished nodes of the ordered tree.

Principal results: `Holds.wrap` and `Holds.close`.
-/

namespace Fors.Syntax

open List hiding head
open TreeBuilder Node

variable {K : Type}

/-! ## Pre-order -/

mutual

theorem length_preorder : ∀ node : Node K, (preorder node).length = size node
  | .mk _ _ _ children => by
    rw [preorder, size, length_cons, length_preorder_all children]

theorem length_preorder_all : ∀ nodes : List (Node K), (preorder_all nodes).length = size_all nodes
  | [] => rfl
  | node :: nodes => by
    rw [preorder_all, size_all, length_append, length_preorder node,
      length_preorder_all nodes]

end

theorem preorder_all_append (nodes nodes' : List (Node K)) :
    preorder_all (nodes ++ nodes') = preorder_all nodes ++ preorder_all nodes' := by
  induction nodes with
  | nil => rfl
  | cons node nodes ih => rw [cons_append, preorder_all, preorder_all, ih, append_assoc]

theorem preorder_all_snoc (nodes : List (Node K)) (node : Node K) :
    preorder_all (nodes ++ [node]) = preorder_all nodes ++ preorder node := by
  rw [preorder_all_append, preorder_all, preorder_all, append_nil]

/-- The first row of a node's columns. -/
def Node.head : Node K → TreeRow K
  | mk kind first len children => ⟨kind, first, len, size_all children + 1⟩

/-- The rows of what is inside a node. -/
def Node.inside : Node K → Tree K
  | mk _ _ _ children => preorder_all children

theorem preorder_eq (node : Node K) : preorder node = node.head :: node.inside := by
  cases node
  rw [preorder, head, inside]

/-! ## What is emitted -/

section Emission

variable {rows rows' : List (BuildRow K)}

/-- The rows of the nodes of a chain. -/
def emitted (rows : List (BuildRow K)) (js : List Nat) : Tree K :=
  js.filterMap fun j => (rows[j]?).map BuildRow.emit

theorem emitted_cons {j : Nat} {e : TreeRow K} (h : (rows[j]?).map BuildRow.emit = some e)
    (js : List Nat) : emitted rows (j :: js) = e :: emitted rows js :=
  filterMap_cons_some h

/-- `ws` are the wrappers above node `j`, the innermost first. -/
inductive Up (rows : List (BuildRow K)) : Nat → List Nat → Prop
  | last {j : Nat} (h : wrapper_of rows j = none) : Up rows j []
  | step {j w : Nat} {ws : List Nat} (h : wrapper_of rows j = some w) (hlt : j < w)
      (hlen : w < rows.length) (hup : Up rows w ws) : Up rows j (w :: ws)

/-- The rows that the nodes of `lo .. hi` emit. -/
inductive Emits (rows : List (BuildRow K)) : Nat → Nat → Tree K → Prop
  | nil (i : Nat) : Emits rows i i []
  | skip {i hi : Nat} {row : BuildRow K} {es : Tree K} (hrow : rows[i]? = some row)
      (hstart : row.start_of ≠ i) (h : Emits rows (i + 1) hi es) : Emits rows i hi es
  | chain {i hi : Nat} {row : BuildRow K} {ws : List Nat} {es : Tree K} (hrow : rows[i]? = some row)
      (hstart : row.start_of = i) (hup : Up rows i ws) (h : Emits rows (i + 1) hi es) :
      Emits rows i hi ((emitted rows (i :: ws)).reverse ++ es)

theorem Emits.append {lo mid hi : Nat} {es es' : Tree K} (h : Emits rows lo mid es)
    (h' : Emits rows mid hi es') : Emits rows lo hi (es ++ es') := by
  induction h with
  | nil i => exact h'
  | skip hrow hstart _ ih => exact .skip hrow hstart (ih h')
  | chain hrow hstart hup _ ih =>
    rw [append_assoc]
    exact .chain hrow hstart hup (ih h')

theorem Emits.le {lo hi : Nat} {es : Tree K} (h : Emits rows lo hi es) : lo ≤ hi := by
  induction h with
  | nil i => exact Nat.le_refl i
  | skip _ _ _ ih => exact Nat.le_of_succ_le ih
  | chain _ _ _ _ ih => exact Nat.le_of_succ_le ih

/-- The two tables are alike on `lo .. hi`, but for what is not the start of row `top`. -/
structure Agree (rows rows' : List (BuildRow K)) (lo hi top : Nat) : Prop where
  same : ∀ i, lo ≤ i → i < hi → i ≠ top → rows'[i]? = rows[i]?
  start : (rows'[top]?).map BuildRow.start_of = (rows[top]?).map BuildRow.start_of

/-- The slice `lo .. hi` is a subtree with top node `top` and the rows `rest` below it. -/
structure Holds (rows : List (BuildRow K)) (lo hi top : Nat) (rest : Tree K) : Prop where
  ge : lo ≤ top
  lt : top < hi
  room : hi ≤ rows.length
  start : (rows[top]?).map BuildRow.start_of = some lo
  count : rest.length + 1 = hi - lo
  emits : ∀ rows' : List (BuildRow K), rows.length ≤ rows'.length → Agree rows rows' lo hi top →
    ∀ ws, Up rows' top ws → Emits rows' lo hi ((emitted rows' (top :: ws)).reverse ++ rest)

namespace Holds

variable {lo mid hi top idx : Nat} {rest es : Tree K}

theorem of_agree (h : Holds rows lo hi top rest) (hlen : rows.length ≤ rows'.length)
    (hagree : Agree rows rows' lo hi top) : Holds rows' lo hi top rest where
  ge := h.ge
  lt := h.lt
  room := Nat.le_trans h.room hlen
  start := hagree.start.trans h.start
  count := h.count
  emits rows'' hlen' hagree' := h.emits rows'' (Nat.le_trans hlen hlen')
    ⟨fun i hlo hhi hne => (hagree'.same i hlo hhi hne).trans (hagree.same i hlo hhi hne),
      hagree'.start.trans hagree.start⟩

/-- A node of its own. -/
theorem plain (hidx : idx < rows.length) (hstart : (rows[idx]?).map BuildRow.start_of = some idx) :
    Holds rows idx (idx + 1) idx [] where
  ge := Nat.le_refl idx
  lt := Nat.lt_succ_self idx
  room := hidx
  start := hstart
  count := by simp
  emits rows' _ hagree ws hup := by
    obtain ⟨row, hrow, hrowstart⟩ := Option.map_eq_some_iff.1 (hagree.start.trans hstart)
    exact .chain hrow hrowstart hup (.nil _)

/-- A wrapper around the subtree before it. -/
theorem wrap {e : TreeRow K} (h : Holds rows lo mid top rest)
    (hwrapper : wrapper_of rows top = some mid) (hmid : mid < rows.length)
    (hstart : (rows[mid]?).map BuildRow.start_of = some lo)
    (he : (rows[top]?).map BuildRow.emit = some e) : Holds rows lo (mid + 1) mid (e :: rest) where
  ge := Nat.le_trans h.ge (Nat.le_of_lt h.lt)
  lt := Nat.lt_succ_self mid
  room := hmid
  start := hstart
  count := by
    have := h.count
    have := h.ge
    have := h.lt
    rw [length_cons]
    omega
  emits rows' hlen hagree ws hup := by
    have hge := h.ge
    have hlt := h.lt
    have htop : rows'[top]? = rows[top]? := hagree.same top hge (by omega) (by omega)
    have hagree' : Agree rows rows' lo mid top :=
      ⟨fun i hlo hhi _ => hagree.same i hlo (by omega) (by omega), by rw [htop]⟩
    have hup' : Up rows' top (mid :: ws) :=
      .step (by rw [wrapper_of, htop]; exact hwrapper) hlt (Nat.lt_of_lt_of_le hmid hlen) hup
    have hemits := h.emits rows' hlen hagree' (mid :: ws) hup'
    rw [emitted_cons (htop ▸ he), reverse_cons, append_assoc, singleton_append] at hemits
    obtain ⟨row, hrow, hrowstart⟩ := Option.map_eq_some_iff.1 (hagree.start.trans hstart)
    have hskip : Emits rows' mid (mid + 1) [] := .skip hrow (by omega) (.nil _)
    have := hemits.append hskip
    rwa [append_nil] at this

/-- More rows after the subtree belong to its top node. -/
theorem extend (h : Holds rows lo mid top rest) (hmid : mid ≤ hi) (hroom : hi ≤ rows.length)
    (hcount : es.length = hi - mid)
    (hes : ∀ rows' : List (BuildRow K), rows.length ≤ rows'.length →
      (∀ i, mid ≤ i → i < hi → rows'[i]? = rows[i]?) → Emits rows' mid hi es) :
    Holds rows lo hi top (rest ++ es) where
  ge := h.ge
  lt := Nat.lt_of_lt_of_le h.lt hmid
  room := hroom
  start := h.start
  count := by
    have := h.count
    have := h.ge
    have := h.lt
    rw [length_append]
    omega
  emits rows' hlen hagree ws hup := by
    have hlt := h.lt
    have hge := h.ge
    have hagree' : Agree rows rows' lo mid top :=
      ⟨fun i hlo hhi hne => hagree.same i hlo (by omega) hne, hagree.start⟩
    have hafter := hes rows' hlen fun i hlo hhi => hagree.same i (by omega) hhi (by omega)
    rw [← append_assoc]
    exact (h.emits rows' hlen hagree' ws hup).append hafter

end Holds

/-! ## Finished nodes -/

/-- The two tables are alike on `lo .. hi`. -/
def AgreeOn (rows rows' : List (BuildRow K)) (lo hi : Nat) : Prop :=
  ∀ i, lo ≤ i → i < hi → rows'[i]? = rows[i]?

/-- A finished node that no wrapper encloses. -/
structure NodeAt (rows : List (BuildRow K)) (lo hi top : Nat) (node : Node K) : Prop where
  head : (rows[top]?).map BuildRow.emit = some node.head
  holds : Holds rows lo hi top node.inside
  bare : wrapper_of rows top = none

/-- Finished siblings, side by side in `lo .. hi`; `last` is the top node of the last one. -/
inductive Forest (rows : List (BuildRow K)) (lo : Nat) : Nat → List (Node K) → Option Nat → Prop
  | nil (hlo : lo ≤ rows.length) : Forest rows lo lo [] none
  | snoc {mid hi top : Nat} {nodes : List (Node K)} {last : Option Nat} {node : Node K}
      (h : Forest rows lo mid nodes last) (hnode : NodeAt rows mid hi top node) :
      Forest rows lo hi (nodes ++ [node]) (some top)

section Finished

variable {lo mid hi top idx : Nat} {node : Node K} {nodes : List (Node K)} {last : Option Nat}

theorem NodeAt.of_agree (h : NodeAt rows lo hi top node) (hlen : rows.length ≤ rows'.length)
    (hagree : AgreeOn rows rows' lo hi) : NodeAt rows' lo hi top node := by
  have htop := hagree top h.holds.ge h.holds.lt
  refine ⟨by rw [htop, h.head], h.holds.of_agree hlen ⟨fun i hlo hhi _ => hagree i hlo hhi, ?_⟩, ?_⟩
  · rw [htop]
  · rw [wrapper_of, htop]
    exact h.bare

theorem NodeAt.emits (h : NodeAt rows lo hi top node) : Emits rows lo hi (preorder node) := by
  have hemits := h.holds.emits rows (Nat.le_refl _) ⟨fun _ _ _ _ => rfl, rfl⟩ [] (.last h.bare)
  rw [emitted_cons h.head] at hemits
  rw [preorder_eq]
  exact hemits

theorem NodeAt.count (h : NodeAt rows lo hi top node) : (preorder node).length = hi - lo := by
  rw [preorder_eq, length_cons]
  exact h.holds.count

theorem NodeAt.lt (h : NodeAt rows lo hi top node) : lo < hi :=
  Nat.lt_of_le_of_lt h.holds.ge h.holds.lt

theorem Forest.le (h : Forest rows lo hi nodes last) : lo ≤ hi ∧ hi ≤ rows.length := by
  induction h with
  | nil hlo => exact ⟨Nat.le_refl lo, hlo⟩
  | snoc _ hnode ih => exact ⟨Nat.le_trans ih.1 (Nat.le_of_lt hnode.lt), hnode.holds.room⟩

theorem Forest.of_agree (h : Forest rows lo hi nodes last) (hlen : rows.length ≤ rows'.length)
    (hagree : AgreeOn rows rows' lo hi) : Forest rows' lo hi nodes last := by
  induction h with
  | nil hlo => exact .nil (Nat.le_trans hlo hlen)
  | snoc h hnode ih =>
    have hle := h.le
    have hlt := hnode.lt
    exact .snoc (ih fun i hlo hhi => hagree i hlo (by omega))
      (hnode.of_agree hlen fun i hlo hhi => hagree i (by omega) hhi)

theorem Forest.emits (h : Forest rows lo hi nodes last) : Emits rows lo hi (preorder_all nodes) := by
  induction h with
  | nil => exact .nil lo
  | snoc _ hnode ih =>
    rw [preorder_all_snoc]
    exact ih.append hnode.emits

theorem Forest.count (h : Forest rows lo hi nodes last) : (preorder_all nodes).length = hi - lo := by
  induction h with
  | nil => rw [Nat.sub_self, preorder_all, length_nil]
  | snoc h hnode ih =>
    have hle := h.le
    have hlt := hnode.lt
    rw [preorder_all_snoc, length_append, ih, hnode.count]
    omega

/-- Siblings behind an open node come to be inside it. -/
theorem Holds.close {rest : Tree K} (h : Holds rows lo (idx + 1) idx rest)
    (hforest : Forest rows (idx + 1) hi nodes last) :
    Holds rows lo hi idx (rest ++ preorder_all nodes) :=
  h.extend hforest.le.1 hforest.le.2 hforest.count fun _ hlen hagree =>
    (hforest.of_agree hlen hagree).emits

end Finished

/-! ## Open nodes -/

/-- An open node: its row says what it will be, and the slice before it holds what it took. -/
structure OpenAt (rows : List (BuildRow K)) (lo idx : Nat) (o : OpenNode K) : Prop where
  row : ∃ row, rows[idx]? = some row ∧ row.kind = o.kind ∧ row.first_token = o.first_token ∧
    row.wrapper = none
  holds : Holds rows lo (idx + 1) idx (preorder_all o.taken)

/-- The open nodes and their finished children, the innermost last in the table. -/
inductive Frames (rows : List (BuildRow K)) :
    Nat → List Nat → List (OpenNode K) → List (Node K) → Option Nat → Prop
  | base {hi : Nat} {done : List (Node K)} {last : Option Nat} (h : Forest rows 0 hi done last) :
      Frames rows hi [] [] done last
  | cons {lo idx hi : Nat} {stack : List Nat} {opened : List (OpenNode K)} {o : OpenNode K}
      {done : List (Node K)} {last last' : Option Nat} (h : Frames rows lo stack opened done last')
      (hopen : OpenAt rows lo idx o) (hforest : Forest rows (idx + 1) hi o.children last) :
      Frames rows hi (idx :: stack) (o :: opened) done last

theorem OpenAt.of_agree {lo idx : Nat} {o : OpenNode K} (h : OpenAt rows lo idx o)
    (hlen : rows.length ≤ rows'.length) (hagree : AgreeOn rows rows' lo (idx + 1)) :
    OpenAt rows' lo idx o := by
  have hidx := hagree idx h.holds.ge (Nat.lt_succ_self idx)
  obtain ⟨row, hrow, hrest⟩ := h.row
  exact ⟨⟨row, hidx.trans hrow, hrest⟩,
    h.holds.of_agree hlen ⟨fun i hlo hhi _ => hagree i hlo hhi, by rw [hidx]⟩⟩

section Frames

variable {hi : Nat} {stack : List Nat} {last : Option Nat} {r : OrderedBuilder K}

theorem Frames.of_agree {opened : List (OpenNode K)} {done : List (Node K)}
    (h : Frames rows hi stack opened done last) (hlen : rows.length ≤ rows'.length)
    (hagree : AgreeOn rows rows' 0 hi) : Frames rows' hi stack opened done last := by
  induction h with
  | base h => exact .base (h.of_agree hlen hagree)
  | cons _ hopen hforest ih =>
    have hle := hforest.le
    have hge := hopen.holds.ge
    exact .cons (ih fun i hlo hhi => hagree i hlo (by omega))
      (hopen.of_agree hlen fun i hlo hhi => hagree i (Nat.zero_le i) (by omega))
      (hforest.of_agree hlen fun i hlo hhi => hagree i (Nat.zero_le i) hhi)

/-- The innermost siblings, and what may be put in their place. -/
theorem Frames.focus (h : Frames rows hi stack r.opened r.done last) :
    ∃ lo, Forest rows lo hi r.siblings last ∧
      ∀ {rows' : List (BuildRow K)} {hi' : Nat} {nodes' : List (Node K)} {last' : Option Nat},
        rows.length ≤ rows'.length → AgreeOn rows rows' 0 lo → Forest rows' lo hi' nodes' last' →
          Frames rows' hi' stack (r.set_siblings nodes').opened (r.set_siblings nodes').done
            last' := by
  obtain ⟨opened, done, cur⟩ := r
  cases h with
  | base h => exact ⟨0, h, fun _ _ h' => .base h'⟩
  | cons h hopen hforest =>
    refine ⟨_, hforest, fun hlen hagree h' => ?_⟩
    have hge := hopen.holds.ge
    refine .cons (h.of_agree hlen fun i hlo hhi => hagree i hlo (by omega)) ?_ h'
    have hopen' := hopen.of_agree hlen fun i hlo hhi => hagree i (Nat.zero_le i) hhi
    exact ⟨hopen'.row, hopen'.holds⟩

end Frames

end Emission

end Fors.Syntax
