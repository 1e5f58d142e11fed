import Fors.Index.Permute
import Fors.Lib.Graphs

/-!
# The order of linking

A module's imports are bound when the modules that it imports have theirs, so modules are linked in
an order that puts dependencies before dependents. Where imports form a cycle there is no such
order; the one that is taken then has each import first except on a way back to the importer.

Source: `crates/fors-resolve/src/items.rs`. Principal result: `link_order`.
-/

namespace Fors.Resolve

open Index Relation Sorting List

variable {edges edges' : List (ModuleId × ModuleId)} {names : List Segments} {n u v : Nat}
  {lists : List (List Nat)}

/-! ## The order -/

def push_edge (adj : List (List ModuleId)) (e : ModuleId × ModuleId) :
    Option (List (List ModuleId)) := do
  let l ← adj[e.1]?
  some (adj.set e.1 (l ++ [e.2]))

/-- "A node re-entered while `in_progress` just returns." There are as many modules as names. -/
def dependency_order (edges : List (ModuleId × ModuleId)) (names : List Segments) :
    Option (List ModuleId) := do
  let n := names.length
  let adj ← edges.foldlM push_edge (List.replicate n [])
  let adj := adj.map sort_dedup
  let order_idx := sort (fun a => name_bytes (join_dotted (names.getD a [])))
    (List.range n)
  let st ← DepthFirst.search (fun u => adj[u]?) (n + 1) order_idx
  some st.out

/-- The lists have the targets of the edges. -/
structure Lists (n : Nat) (edges : List (ModuleId × ModuleId)) (adj : List (List ModuleId)) :
    Prop where
  length : adj.length = n
  mem : ∀ u v, (∃ l, adj[u]? = some l ∧ v ∈ l) ↔ Imports edges u v

theorem lists_nil (n : Nat) : Lists n [] (List.replicate n []) where
  length := length_replicate
  mem u v := by
    constructor
    · rintro ⟨l, hl, hv⟩
      obtain rfl := eq_of_mem_replicate (mem_of_getElem? hl)
      exact absurd hv not_mem_nil
    · exact fun h => absurd h not_mem_nil

theorem Lists.push (h : Lists n edges lists) (hu : u < n) :
    ∃ lists', push_edge lists (u, v) = some lists' ∧ Lists n (edges ++ [(u, v)]) lists' := by
  have hlt : u < lists.length := h.length.symm ▸ hu
  refine ⟨lists.set u (lists[u] ++ [v]), ?_, ?_, ?_⟩
  · rw [push_edge, getElem?_eq_getElem hlt]
    rfl
  · rw [length_set, h.length]
  · intro x y
    unfold Imports
    rw [mem_append, mem_singleton, Prod.mk.injEq]
    change _ ↔ Imports edges x y ∨ _
    rw [← h.mem]
    by_cases hx : x = u
    · subst hx
      rw [getElem?_set_self hlt, getElem?_eq_getElem hlt]
      simp
    · rw [getElem?_set_ne (Ne.symm hx)]
      simp [hx]

theorem Lists.run (h : Lists n edges lists) (hedges : ∀ e ∈ edges', e.1 < n) :
    ∃ lists', edges'.foldlM push_edge lists = some lists' ∧ Lists n (edges ++ edges') lists' := by
  induction edges' generalizing edges lists with
  | nil => exact ⟨lists, rfl, (append_nil edges).symm ▸ h⟩
  | cons e edges' ih =>
    obtain ⟨mid, hstep, hmid⟩ := h.push (v := e.2) (hedges e mem_cons_self)
    obtain ⟨lists', hrun, hlists⟩ := ih hmid fun x hx => hedges x (mem_cons_of_mem e hx)
    refine ⟨lists', ?_, ?_⟩
    · rw [foldlM_cons, hstep]
      exact hrun
    · rwa [append_assoc] at hlists

/-! ### The search -/

/-- What the search is run on. -/
theorem lists_of_edges (hedges : ∀ e ∈ edges, e.1 < n) :
    ∃ lists, edges.foldlM push_edge (List.replicate n []) = some lists ∧ Lists n edges lists := by
  have h := (lists_nil n).run hedges
  rwa [nil_append] at h

theorem edge_iff (h : Lists n edges lists) :
    DepthFirst.Edge (fun u => (lists.map sort_dedup)[u]?) u v ↔ Imports edges u v := by
  rw [← h.mem, DepthFirst.Edge]
  simp only [getElem?_map, Option.map_eq_some_iff]
  constructor
  · rintro ⟨l, ⟨l', hl', rfl⟩, hv⟩
    exact ⟨l', hl', (mem_sort_dedup l').mp hv⟩
  · rintro ⟨l, hl, hv⟩
    exact ⟨sort_dedup l, ⟨l, hl, rfl⟩, (mem_sort_dedup l).mpr hv⟩

theorem reaches_of_edges (h : Lists n edges lists)
    (hreach : ReflTransGen (DepthFirst.Edge fun u => (lists.map sort_dedup)[u]?) u v) :
    ReflTransGen (Imports edges) u v :=
  ReflTransGen.mono (fun _ _ => (edge_iff h).mp) _ _ hreach

theorem closed_lists (h : Lists n edges lists) (hedges : ∀ e ∈ edges, e.2 < n) :
    DepthFirst.Closed (fun u => (lists.map sort_dedup)[u]?) (List.range n) where
  list u hu := by
    have hlt : u < (lists.map sort_dedup).length := by
      rw [length_map, h.length]
      exact mem_range.mp hu
    exact ⟨_, getElem?_eq_getElem hlt⟩
  edge u _ v hv := mem_range.mpr (hedges _ ((edge_iff h).mp hv))

/-- Each module once, and its imports before it, except those that import it again. -/
structure LinkOrder (n : Nat) (edges : List (ModuleId × ModuleId)) (order : List ModuleId) :
    Prop where
  perm : order.Perm (List.range n)
  first : ∀ u v, Imports edges u v →
    order.idxOf v < order.idxOf u ∨ ReflTransGen (Imports edges) v u

theorem dependency_order_spec (hedges : ∀ e ∈ edges, e.1 < names.length ∧ e.2 < names.length) :
    ∃ order, dependency_order edges names = some order ∧
      LinkOrder names.length edges order := by
  obtain ⟨lists, hrun, hlists⟩ := lists_of_edges fun e he => (hedges e he).1
  have hclosed := closed_lists hlists fun e he => (hedges e he).2
  obtain ⟨st, hsearch, hnodup, hmem, hordered⟩ := @DepthFirst.search_spec _ _ _
    (sort (fun a => name_bytes (join_dotted (names.getD a []))) (List.range names.length))
    (names.length + 1) _ hclosed (fun u => (perm_sort _).mem_iff) (by simp)
  refine ⟨st.out, ?_, ?_, ?_⟩
  · unfold dependency_order
    simp only [hrun, Option.bind_eq_bind, Option.bind_some]
    rw [hsearch, Option.bind_some]
  · exact (perm_ext_iff_of_nodup hnodup nodup_range).mpr hmem
  · intro u v huv
    have hu : u ∈ st.out := (hmem u).mpr (mem_range.mpr (hedges _ huv).1)
    obtain ⟨before, after, heq⟩ := append_of_mem hu
    obtain hbefore | hreach := hordered before u after heq v ((edge_iff hlists).mpr huv)
    · left
      rw [heq] at hnodup ⊢
      have hnot : u ∉ before := fun hmem =>
        (nodup_append.mp hnodup).2.2 u hmem u mem_cons_self rfl
      rw [idxOf_append_of_mem hbefore, idxOf_append_of_notMem hnot,
        idxOf_cons_self, Nat.add_zero]
      exact idxOf_lt_length_of_mem hbefore
    · exact .inr (reaches_of_edges hlists hreach)

/-! ## The order of a build -/

theorem graph_in_range (files : List File) [Numbered files] :
    ∀ e ∈ (graph_edges files).map fun e => (e.source, e.target),
      e.1 < (files.map File.name).length ∧ e.2 < (files.map File.name).length := by
  intro e he
  have hadj := adjacent_ordered (imports_iff.mp (show Imports _ e.1 e.2 from he))
  rw [length_map]
  exact ⟨mem_search_order.mp hadj.1, mem_search_order.mp hadj.2⟩

/-- Where no cycle is reported, every module is linked behind all its imports; where one is, behind
each but those that lead back to it. -/
theorem link_order (files : List File) (hids : files.length ≤ 2 ^ 32) : ∃ pairs diags order,
    build_module_graph files = some (pairs, diags) ∧
    dependency_order pairs (files.map File.name) = some order ∧
    order.Perm (List.range files.length) ∧
    (∀ u v, Imports pairs u v →
      order.idxOf v < order.idxOf u ∨ ReflTransGen (Imports pairs) v u) ∧
    ((¬∃ d ∈ diags, d.code = .ImportCycle) →
      ∀ u v, Imports pairs u v → order.idxOf v < order.idxOf u) := by
  have : Numbered files := ⟨hids⟩
  obtain ⟨ds, hrun, hbreaks⟩ := detect_breaks files
  obtain ⟨order, horder, hlink⟩ := dependency_order_spec (graph_in_range files)
  have hperm := hlink.perm
  rw [length_map] at hperm
  refine ⟨_, _, order, build_eq hrun, horder, hperm, hlink.first, ?_⟩
  intro hnone u v huv
  rw [← cycle_diags_nil, cycle_diags_eq hbreaks.code, hbreaks.nil_iff] at hnone
  obtain hfirst | hback := hlink.first u v huv
  · exact hfirst
  · exact absurd (TransGen.head' huv hback) (hnone u)

/-- `c` uses `b`, which uses `a`. -/
def chain_files : List File :=
  [⟨0, ["c"], ⟨none, none, [(["b"], (4, 5))]⟩⟩, ⟨1, ["b"], ⟨none, none, [(["a"], (4, 5))]⟩⟩,
    ⟨2, ["a"], ⟨none, none, []⟩⟩]

theorem chain_linked : ∃ order, dependency_order [(0, 1), (1, 2)] (chain_files.map File.name) =
    some order ∧ order.idxOf 1 < order.idxOf 0 ∧ order.idxOf 2 < order.idxOf 1 := by
  obtain ⟨pairs, diags, order, hgraph, horder, -, -, hfirst⟩ := link_order chain_files (by decide)
  have hchain : build_module_graph chain_files = some ([(0, 1), (1, 2)], []) := by decide +kernel
  rw [hchain] at hgraph
  cases hgraph
  have hall := hfirst (by simp)
  exact ⟨order, horder, hall 0 1 (by simp [Imports]), hall 1 2 (by simp [Imports])⟩

end Fors.Resolve
