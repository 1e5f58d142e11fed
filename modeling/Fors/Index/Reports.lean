import Fors.Index.Edges

/-!
# Import cycles are reported exactly

Over any files, a cycle is reported where the graph has one; each report is a cycle of what the
reports before it left, from its least module, at the use that closes it; and they leave a graph
without cycles.

Principal results: `detect_cycles_spec` and `breaks_of_reported`.
-/

namespace Fors.Index

open Option hiding mem_map
open Graphs Sorting List

open Words (as_u32)

variable {files : List File} {u v : ModuleId} {range : Range}

/-! ## The graph that is searched -/

theorem mem_adjacency : (v, range) ∈ adjacency files u ↔ ⟨u, v, range⟩ ∈ graph_edges files := by
  unfold adjacency
  rw [(perm_sort _).mem_iff, mem_map]
  constructor
  · rintro ⟨e, he, heq⟩
    obtain ⟨hmem, hsource⟩ := mem_filter.mp he
    rw [decide_eq_true_eq] at hsource
    cases heq
    rw [← hsource]
    exact hmem
  · intro h
    exact ⟨⟨u, v, range⟩, mem_filter.mpr ⟨h, by simp⟩, rfl⟩

/-- An edge is a use of its source that leads to its target. -/
theorem use_of_adjacency [Numbered files] (h : (v, range) ∈ adjacency files u) :
    ∃ f, files[u]? = some f ∧ ∃ use ∈ f.facts.uses, use_target files use.1 = some v ∧
      use.2 = range := by
  obtain ⟨f, hf, hfirst⟩ := mem_graph_edges.mp (mem_adjacency.mp h)
  obtain ⟨use, huse, heq⟩ := mem_filterMap.mp (mem_of_firsts hfirst)
  obtain ⟨t, ht, heq⟩ := map_eq_some_iff.mp heq
  cases heq
  exact ⟨f, hf, use, huse, (filter_eq_some_iff.mp ht).1, rfl⟩

variable {m : ModuleId}

theorem by_name_lt {segs : Segments} (h : by_name files segs = some m) :
    m < files.length := by
  obtain ⟨i, hi, rfl⟩ := map_eq_some_iff.mp h
  obtain ⟨hlt, -, -⟩ := idxOf?_eq_some_iff.mp hi
  rw [length_map] at hlt
  exact Nat.lt_of_le_of_lt (Nat.mod_le _ _) hlt

theorem use_target_lt {path : Segments} (h : use_target files path = some v) :
    v < files.length := by
  unfold use_target at h
  split at h
  · next m hm =>
    cases h
    exact by_name_lt hm
  · split at h
    · exact by_name_lt h
    · cases h

def search_order (files : List File) : List ModuleId :=
  sort (fun m => name_bytes (module_text files m)) (List.range files.length)

theorem mem_search_order : m ∈ search_order files ↔ m < files.length := by
  unfold search_order
  rw [(perm_sort _).mem_iff, mem_range]

theorem adjacent_ordered [Numbered files] (h : Adjacent (adjacency files) u v) :
    u ∈ search_order files ∧ v ∈ search_order files := by
  obtain ⟨range, h⟩ := h
  obtain ⟨f, hf, use, -, htarget, -⟩ := use_of_adjacency h
  exact ⟨mem_search_order.mpr (List.getElem?_eq_some_iff.mp hf).1,
    mem_search_order.mpr (use_target_lt htarget)⟩

theorem sum_ite_eq_count (order : List ModuleId) (m : ModuleId) :
    (order.map fun u => if m = u then 1 else 0).sum = order.count m := by
  induction order with
  | nil => rfl
  | cons u order ih =>
    rw [map_cons, sum_cons, ih, count_cons]
    by_cases hu : m = u
    · simp [hu, Nat.add_comm]
    · simp [hu, Ne.symm hu]

/-- The bound on the rounds is no smaller than the number of edges. -/
theorem edges_left_le (files : List File) :
    edges_left (search_order files) (adjacency files) ≤ (graph_edges files).length := by
  have hnodup : (search_order files).Nodup := by
    unfold search_order
    rw [(perm_sort _).nodup_iff]
    exact nodup_range
  unfold edges_left adjacency
  generalize graph_edges files = edges
  generalize search_order files = order at hnodup
  simp only [(perm_sort _).length_eq, length_map]
  induction edges with
  | nil => simp
  | cons e edges ih =>
    have hstep : (fun u => ((e :: edges).filter fun x => x.source = u).length) =
        fun u => (if e.source = u then 1 else 0) + (edges.filter fun x => x.source = u).length := by
      funext u
      by_cases hu : e.source = u
      · simp [hu, Nat.add_comm]
      · simp [hu]
    have hone : order.count e.source ≤ 1 := nodup_iff_count_le_one.mp hnodup _
    rw [hstep, sum_map_add, sum_ite_eq_count, length_cons]
    omega

/-! ## The reports -/

/-- The file that a module is. -/
def module_file (files : List File) (m : ModuleId) : FileId :=
  (files.map File.file).getD m 0

/-- The search runs as if no id could be cut. -/
theorem detect_cycles_spec (files : List File) [Numbered files] :
    ∃ ds, detect_cycles files = some ds ∧
      report_cycles id (module_text files) (module_file files) (search_order files)
        ((graph_edges files).length + 1) (adjacency files) [] = some ds ∧
      Reported (module_text files) (module_file files) (adjacency files) ds := by
  have hleft := edges_left_le files
  obtain ⟨ds, hrun, hreported⟩ := report_cycles_spec (module_text files) (module_file files)
    ((graph_edges files).length + 1) (adjacency files) [] (fun _ _ h => adjacent_ordered h)
    (by omega)
  refine ⟨ds, ?_, hrun id fun _ _ => rfl, hreported⟩
  exact hrun as_u32 fun m hm => as_u32_place (mem_search_order.mp hm)

/-- The graph without the closing edges of some cycles: from the last module to the first. -/
def Without (E : ModuleId → ModuleId → Prop) (cycle : List ModuleId) : ModuleId → ModuleId → Prop :=
  fun u v => E u v ∧ ¬(cycle.getLast? = some u ∧ cycle.head? = some v)

/-- A diagnostic that reports a cycle: from its least module, at a use of the one that closes it. -/
structure Reports (files : List File) (E : ModuleId → ModuleId → Prop) (cycle : List ModuleId)
    (d : Diagnostic) : Prop where
  around : IsCycle E cycle
  least : ∀ h ∈ cycle.head?, ∀ m ∈ cycle,
    name_bytes (module_text files h) ≤ name_bytes (module_text files m)
  code : d.code = .ImportCycle
  message : d.message = "import cycle: " ++
    " -> ".intercalate ((cycle ++ cycle.head?.toList).map (module_text files))
  located : ∃ last ∈ cycle.getLast?, ∃ head ∈ cycle.head?, ∃ f, files[last]? = some f ∧
    d.file = f.file ∧ ∃ use ∈ f.facts.uses, use_target files use.1 = some head ∧
      use.2 = (d.start, d.end_)

/-- Diagnostics that report cycles one after the other, each of what is left, until none is. -/
inductive Breaks (files : List File) : (ModuleId → ModuleId → Prop) → List Diagnostic → Prop where
  | done {E : ModuleId → ModuleId → Prop} : Acyclic E → Breaks files E []
  | report {E : ModuleId → ModuleId → Prop} {cycle : List ModuleId} {d : Diagnostic}
      {ds : List Diagnostic} : Reports files E cycle d → Breaks files (Without E cycle) ds →
      Breaks files E (d :: ds)

variable {f : File}

theorem module_file_eq (h : files[m]? = some f) :
    module_file files m = f.file := by
  unfold module_file
  rw [getD_eq_getElem?_getD, getElem?_map, h]
  rfl

variable {ds : List Diagnostic}

/-- What is reported of part of the graph, said of its edges alone. -/
theorem breaks_of_reported [Numbered files] {adj : ModuleId → List (ModuleId × Range)}
    (h : Reported (module_text files) (module_file files) adj ds) :
    ∀ E : ModuleId → ModuleId → Prop, (∀ u v, Adjacent adj u v ↔ E u v) →
      (∀ u v range, (v, range) ∈ adj u → (v, range) ∈ adjacency files u) → Breaks files E ds := by
  induction h with
  | done hacyclic =>
    intro E hE _
    exact .done (hacyclic.mono fun u v huv => (hE u v).mpr huv)
  | @report adj cycle head last range ds hcycle hhead hlast hedge hleast _ ih =>
    intro E hE hsub
    obtain ⟨f, hf, use, huse, htarget, hrange⟩ := use_of_adjacency (hsub _ _ _ hedge)
    refine .report (⟨?_, ?_, rfl, ?_, ?_⟩ : Reports files E cycle _) (ih _ ?_ ?_)
    · refine ⟨hcycle.ne_nil, hcycle.nodup, ?_⟩
      intro i u v hu hv
      exact (hE u v).mp (hcycle.edge i u v hu hv)
    · intro h hh m hm
      obtain rfl := some.inj (hhead.symm.trans hh)
      exact hleast m hm
    · rw [hhead]
      rfl
    · exact ⟨last, hlast, head, hhead, f, hf, module_file_eq hf, use, huse, htarget, hrange⟩
    · intro u v
      unfold Without
      rw [hhead, hlast, ← hE u v]
      constructor
      · rintro ⟨r, hr⟩
        obtain ⟨hr, hnot⟩ := mem_remove.mp hr
        refine ⟨⟨r, hr⟩, ?_⟩
        rintro ⟨hu, hv⟩
        exact hnot ⟨(some.inj hu).symm, (some.inj hv).symm⟩
      · rintro ⟨⟨r, hr⟩, hnot⟩
        refine ⟨r, mem_remove.mpr ⟨hr, ?_⟩⟩
        rintro ⟨rfl, rfl⟩
        exact hnot ⟨rfl, rfl⟩
    · intro u v r hr
      exact hsub u v r (mem_remove.mp hr).1

theorem Breaks.code {E : ModuleId → ModuleId → Prop} (h : Breaks files E ds) :
    ∀ d ∈ ds, d.code = .ImportCycle := by
  induction h with
  | done _ => exact nofun
  | report hreport _ ih =>
    intro d hd
    rcases mem_cons.mp hd with rfl | hd
    · exact hreport.code
    · exact ih d hd

/-- A report is there exactly where a cycle is. -/
theorem Breaks.nil_iff {E : ModuleId → ModuleId → Prop}
    (h : Breaks files E ds) : ds = [] ↔ Acyclic E := by
  cases h with
  | done hacyclic => exact ⟨fun _ => hacyclic, fun _ => rfl⟩
  | report hreport _ =>
    constructor
    · intro hnil
      cases hnil
    · intro hacyclic
      exact absurd hacyclic hreport.around.not_acyclic

/-! ## The build -/

/-- The edge relation of a result. -/
def Imports (pairs : List (ModuleId × ModuleId)) (u v : ModuleId) : Prop :=
  (u, v) ∈ pairs

def cycle_diags (diags : List Diagnostic) : List Diagnostic :=
  diags.filter fun d => d.code = .ImportCycle

theorem header_diags_code : ∀ d ∈ header_diags f, d.code = .HeaderPathMismatch := by
  intro d hd
  unfold header_diags at hd
  split at hd
  · cases hd
  · split at hd
    · cases hd
    · rw [mem_singleton.mp hd]

theorem self_diags_code :
    ∀ d ∈ self_diags files m f, d.code = .SelfImport := by
  intro d hd
  obtain ⟨use, -, heq⟩ := mem_filterMap.mp hd
  split at heq
  · rw [← some.inj heq]
  · cases heq

/-- The diagnostics of headers and self imports. -/
def other_diags (files : List File) : List Diagnostic :=
  files.flatMap header_diags ++ files.zipIdx.flatMap fun f => self_diags files f.2 f.1

theorem other_diags_code : ∀ d ∈ other_diags files, d.code ≠ .ImportCycle := by
  intro d hd hcode
  rcases mem_append.mp hd with hd | hd
  · obtain ⟨f, -, hd⟩ := mem_flatMap.mp hd
    rw [header_diags_code d hd] at hcode
    cases hcode
  · obtain ⟨f, -, hd⟩ := mem_flatMap.mp hd
    rw [self_diags_code d hd] at hcode
    cases hcode

theorem build_eq [Numbered files] (h : detect_cycles files = some ds) :
    build_module_graph files = some ((graph_edges files).map fun e => (e.source, e.target),
      other_diags files ++ ds) := by
  unfold build_module_graph other_diags
  rw [h, resolve_uses_eq]
  rfl

theorem imports_iff : Imports ((graph_edges files).map fun e => (e.source, e.target)) u v ↔
    Adjacent (adjacency files) u v := by
  unfold Imports
  rw [mem_map]
  constructor
  · rintro ⟨⟨source, target, range⟩, he, heq⟩
    cases heq
    exact ⟨range, mem_adjacency.mpr he⟩
  · rintro ⟨range, h⟩
    exact ⟨⟨u, v, range⟩, mem_adjacency.mp h, rfl⟩

theorem detect_breaks (files : List File) [Numbered files] : ∃ ds, detect_cycles files = some ds ∧
    Breaks files (Imports ((graph_edges files).map fun e => (e.source, e.target))) ds := by
  obtain ⟨ds, hrun, -, hreported⟩ := detect_cycles_spec files
  exact ⟨ds, hrun, breaks_of_reported hreported _ (fun _ _ => imports_iff.symm) fun _ _ _ h => h⟩

theorem cycle_diags_eq (h : ∀ d ∈ ds, d.code = .ImportCycle) :
    cycle_diags (other_diags files ++ ds) = ds := by
  unfold cycle_diags
  rw [filter_append, filter_eq_nil_iff.mpr, nil_append, filter_eq_self]
  · intro d hd
    rw [h d hd]
    rfl
  · intro d hd
    rw [decide_eq_true_eq]
    exact other_diags_code d hd

end Fors.Index
