import Fors.Index.Reports
import Fors.Index.Rename

/-!
# The order of the files

A module's place in the list of files is only its number. Where dotted names tell the modules apart,
the search runs just so on the names themselves, and on these every order of the files is alike.

Principal result: `cycles_reported`.
-/

namespace Fors.Index

open Option hiding map_map
open Graphs Sorting List

variable {files files' : List File} {f g : File} {m u v : ModuleId} {range : Range}
  {path : Segments}

theorem Numbered.of_perm [h : Numbered files] (hp : files'.Perm files) : Numbered files' :=
  ⟨hp.length_eq ▸ h.length_le⟩

/-! ## Modules by name -/

/-- No two modules have one dotted name. -/
def Named (files : List File) : Prop :=
  (files.map fun f => join_dotted f.name).Nodup

instance (files : List File) : Decidable (Named files) :=
  inferInstanceAs (Decidable (List.Nodup _))

theorem Named.names (h : Named files) : (files.map File.name).Nodup := by
  have hmap : (files.map fun f => join_dotted f.name) =
      (files.map File.name).map join_dotted := by
    rw [map_map]
    rfl
  unfold Named at h
  rw [hmap] at h
  exact h.of_map

theorem Named.dotted (h : Named files) (hf : f ∈ files) (hg : g ∈ files)
    (heq : join_dotted f.name = join_dotted g.name) : f = g :=
  inj_on_of_nodup_map h hf hg heq

theorem Named.perm (h : Named files) (hp : files'.Perm files) : Named files' :=
  (hp.map _).nodup_iff.mpr h

/-- A module under its name; a number that is no module under itself. -/
def node (files : List File) (m : ModuleId) : Segments ⊕ ModuleId :=
  match files[m]? with
  | some f => .inl f.name
  | none => .inr m

theorem node_eq (h : files[m]? = some f) : node files m = .inl f.name := by
  unfold node
  rw [h]

theorem node_injective (hnames : (files.map File.name).Nodup) : (node files).Injective := by
  intro u v heq
  unfold node at heq
  cases hu : files[u]? with
  | none =>
    cases hv : files[v]? with
    | none =>
      rw [hu, hv] at heq
      exact Sum.inr.inj heq
    | some g =>
      rw [hu, hv] at heq
      cases heq
  | some f =>
    cases hv : files[v]? with
    | none =>
      rw [hu, hv] at heq
      cases heq
    | some g =>
      rw [hu, hv] at heq
      have hname : f.name = g.name := Sum.inl.inj heq
      have hu' : (files.map File.name)[u]? = some f.name := by
        rw [List.getElem?_map, hu]
        rfl
      have hv' : (files.map File.name)[v]? = some f.name := by
        rw [List.getElem?_map, hv, hname]
        rfl
      have hlt := (List.getElem?_eq_some_iff.mp hu').1
      exact (List.getElem?_inj hlt hnames).mp (hu'.trans hv'.symm)

/-! ## Uses by name -/

/-- The module that a path leads to, by name. -/
def named_target (files : List File) (path : Segments) : Option Segments :=
  if path ∈ files.map File.name then some path
  else if 2 ≤ path.length ∧ path.dropLast ∈ files.map File.name then some path.dropLast
  else none

theorem by_name_some [Numbered files] (h : by_name files path = some m) :
    ∃ f, files[m]? = some f ∧ f.name = path := by
  obtain ⟨i, hi, rfl⟩ := map_eq_some_iff.mp h
  obtain ⟨hlt, hget, -⟩ := idxOf?_eq_some_iff.mp hi
  rw [getElem_map] at hget
  rw [length_map] at hlt
  rw [as_u32_place hlt]
  exact ⟨files[i], getElem?_eq_getElem hlt, hget⟩

theorem by_name_none : by_name files path = none ↔ path ∉ files.map File.name := by
  unfold by_name
  rw [map_eq_none_iff, idxOf?_eq_none_iff]

theorem use_target_named (files : List File) [Numbered files] (path : Segments) :
    match use_target files path with
    | some m => ∃ f, files[m]? = some f ∧ named_target files path = some f.name
    | none => named_target files path = none := by
  unfold use_target named_target
  cases hp : by_name files path with
  | some m =>
    obtain ⟨f, hf, hname⟩ := by_name_some hp
    refine ⟨f, hf, ?_⟩
    rw [if_pos, hname]
    rw [← hname]
    exact mem_map_of_mem (mem_of_getElem? hf)
  | none =>
    rw [if_neg (by_name_none.mp hp)]
    dsimp only
    by_cases hlong : 2 ≤ path.length
    · rw [if_pos hlong]
      cases hd : by_name files path.dropLast with
      | some m =>
        obtain ⟨f, hf, hname⟩ := by_name_some hd
        refine ⟨f, hf, ?_⟩
        rw [if_pos, hname]
        refine ⟨hlong, ?_⟩
        rw [← hname]
        exact mem_map_of_mem (mem_of_getElem? hf)
      | none =>
        dsimp only
        rw [if_neg]
        rintro ⟨-, hmem⟩
        exact by_name_none.mp hd hmem
    · rw [if_neg hlong]
      dsimp only
      rw [if_neg]
      rintro ⟨hlong', -⟩
      exact hlong hlong'

/-- The names that a file's uses lead to, but for its own. -/
def named_links (files : List File) (f : File) : List ((Segments ⊕ ModuleId) × Range) :=
  f.facts.uses.filterMap fun use =>
    ((named_target files use.1).filter (· ≠ f.name)).map fun n => (.inl n, use.2)

theorem name_inj (h : (files.map File.name).Nodup) (hu : files[u]? = some f) (hv : files[v]? = some g)
    (hname : f.name = g.name) : u = v := by
  apply node_injective h
  rw [node_eq hu, node_eq hv, hname]

theorem resolved_named [Numbered files] (h : (files.map File.name).Nodup) (hm : files[m]? = some f) :
    (resolved files m f.facts.uses).map (Prod.map (node files) id) = named_links files f := by
  unfold resolved named_links
  rw [map_filterMap]
  apply filterMap_congr
  intro use _
  have htarget := use_target_named files use.1
  cases ht : use_target files use.1 with
  | none =>
    rw [ht] at htarget
    rw [htarget]
    rfl
  | some t =>
    rw [ht] at htarget
    obtain ⟨g, hg, hname⟩ := htarget
    rw [hname]
    by_cases hself : t = m
    · obtain rfl : f = g := by
        rw [hself, hm] at hg
        exact some.inj hg
      simp [Option.filter, hself]
    · have hne : g.name ≠ f.name := fun heq => hself (name_inj h hg hm heq)
      simp [Option.filter, hself, hne, node_eq hg]

/-- The self imports of a file, by name. -/
def named_self (files : List File) (f : File) : List Diagnostic :=
  f.facts.uses.filterMap fun use =>
    if named_target files use.1 = some f.name then
      some ⟨f.file, use.2.1, use.2.2, .SelfImport,
        "module imports itself via `" ++ join_dotted use.1 ++ "`", []⟩
    else none

theorem self_named [Numbered files] (h : (files.map File.name).Nodup) (hm : files[m]? = some f) :
    self_diags files m f = named_self files f := by
  unfold self_diags named_self
  apply filterMap_congr
  intro use _
  have htarget := use_target_named files use.1
  have hiff : use_target files use.1 = some m ↔ named_target files use.1 = some f.name := by
    cases ht : use_target files use.1 with
    | none =>
      rw [ht] at htarget
      rw [htarget]
      simp
    | some t =>
      rw [ht] at htarget
      obtain ⟨g, hg, hname⟩ := htarget
      rw [hname, some.injEq, some.injEq]
      constructor
      · rintro rfl
        rw [hm] at hg
        rw [some.inj hg]
      · exact name_inj h hg hm
  by_cases hself : use_target files use.1 = some m
  · rw [if_pos hself, if_pos (hiff.mp hself)]
  · rw [if_neg hself, if_neg (fun h => hself (hiff.mpr h))]

theorem map_zipIdx {α : Type} (F : File × Nat → α) (G : File → α)
    (h : ∀ m f, files[m]? = some f → F (f, m) = G f) : files.zipIdx.map F = files.map G := by
  have hmap : files.zipIdx.map F = files.zipIdx.map fun p => G p.1 := by
    apply map_congr_left
    rintro ⟨f, m⟩ hp
    exact h m f (mem_zipIdx_iff_getElem?.mp hp)
  have hfst : files.zipIdx.map (fun p => G p.1) = (files.zipIdx.map Prod.fst).map G := by
    rw [map_map]
    rfl
  rw [hmap, hfst, zipIdx_map_fst]

/-- The other diagnostics are the files' own, in the order of the files. -/
theorem other_diags_named [Numbered files] (h : (files.map File.name).Nodup) :
    other_diags files = files.flatMap header_diags ++ files.flatMap (named_self files) := by
  unfold other_diags
  rw [flatMap_def (f := fun f : File × Nat => self_diags files f.2 f.1),
    map_zipIdx _ (named_self files) fun m f hm => self_named h hm, ← flatMap_def]

/-! ## The search on names -/

def node_text : Segments ⊕ ModuleId → String
  | .inl n => join_dotted n
  | .inr _ => join_dotted []

/-- The file of a name. -/
def named_file (files : List File) (n : Segments) : Option File :=
  files.find? fun f => f.name = n

def node_file (files : List File) : Segments ⊕ ModuleId → FileId
  | .inl n => ((named_file files n).map File.file).getD 0
  | .inr _ => 0

/-- The edges of a name, by target name. -/
def node_adjacency (files : List File) :
    Segments ⊕ ModuleId → List ((Segments ⊕ ModuleId) × Range)
  | .inl n =>
    match named_file files n with
    | some f => sort (fun e => name_bytes (node_text e.1)) (firsts (named_links files f))
    | none => []
  | .inr _ => []

def node_order (files : List File) : List (Segments ⊕ ModuleId) :=
  sort (fun n => name_bytes (node_text n)) (files.map fun f => .inl f.name)

theorem named_file_iff (h : (files.map File.name).Nodup) {n : Segments} :
    named_file files n = some f ↔ f ∈ files ∧ f.name = n := by
  unfold named_file
  constructor
  · intro hfind
    have hname := find?_some hfind
    rw [decide_eq_true_eq] at hname
    exact ⟨mem_of_find?_eq_some hfind, hname⟩
  · rintro ⟨hmem, rfl⟩
    cases hfind : files.find? fun g => g.name = f.name with
    | none =>
      have hnone := find?_eq_none.mp hfind f hmem
      exact absurd (decide_eq_true rfl) hnone
    | some g =>
      have hname := find?_some hfind
      rw [decide_eq_true_eq] at hname
      rw [inj_on_of_nodup_map h (mem_of_find?_eq_some hfind) hmem hname]

theorem module_text_eq (m : ModuleId) : module_text files m = node_text (node files m) := by
  unfold module_text node
  rw [getD_eq_getElem?_getD, getElem?_map]
  cases files[m]? with
  | none => rfl
  | some f => rfl

theorem module_file_named (h : (files.map File.name).Nodup) (m : ModuleId) :
    module_file files m = node_file files (node files m) := by
  cases hm : files[m]? with
  | none =>
    unfold module_file node
    rw [getD_eq_getElem?_getD, getElem?_map, hm]
    rfl
  | some f =>
    rw [module_file_eq hm, node_eq hm]
    show f.file = ((named_file files f.name).map File.file).getD 0
    rw [(named_file_iff h).mpr ⟨mem_of_getElem? hm, rfl⟩]
    rfl

theorem sort_map {α β : Type} {key : α → List Nat} (key' : β → List Nat) {F : α → β}
    (h : ∀ x, key' (F x) = key x) (xs : List α) : (sort key xs).map F = sort key' (xs.map F) := by
  apply map_insertionSort
  intro x _ y _
  rw [h x, h y]

/-- A module's edges are the first links of its file, in some order. -/
theorem edges_of_file [Numbered files] (hm : files[m]? = some f) :
    (((graph_edges files).filter fun e => e.source = m).map fun e => (e.target, e.range)).Perm
      (firsts (resolved files m f.facts.uses)) := by
  have hnodup : (((graph_edges files).filter fun e => e.source = m).map
      fun e => (e.target, e.range)).Nodup := by
    unfold List.Nodup
    rw [pairwise_map]
    apply Pairwise.imp_of_mem _ ((graph_edges_pairwise files).filter _)
    intro a b ha hb hne heq
    have hsa := (mem_filter.mp ha).2
    have hsb := (mem_filter.mp hb).2
    rw [decide_eq_true_eq] at hsa hsb
    exact hne ⟨hsa.trans hsb.symm, (Prod.mk.inj heq).1⟩
  have hfirsts : (firsts (resolved files m f.facts.uses)).Nodup := by
    apply (firsts_pairwise _).imp
    rintro x y hne rfl
    exact hne rfl
  refine (perm_ext_iff_of_nodup hnodup hfirsts).mpr ?_
  rintro ⟨t, r⟩
  have hadj : (t, r) ∈ adjacency files m ↔ ⟨m, t, r⟩ ∈ graph_edges files := mem_adjacency
  unfold adjacency at hadj
  rw [(perm_sort _).mem_iff] at hadj
  rw [hadj, mem_graph_edges]
  constructor
  · rintro ⟨g, hg, hmem⟩
    obtain rfl : f = g := some.inj (hm.symm.trans hg)
    exact hmem
  · intro hmem
    exact ⟨f, hm, hmem⟩

theorem mem_named_links [Numbered files] {n : Segments ⊕ ModuleId} (h : (n, range) ∈ named_links files f) :
    ∃ g ∈ files, n = .inl g.name := by
  obtain ⟨use, -, heq⟩ := mem_filterMap.mp h
  obtain ⟨path, hpath, heq⟩ := map_eq_some_iff.mp heq
  obtain ⟨rfl, -⟩ := Prod.mk.inj heq
  have htarget := use_target_named files use.1
  cases ht : use_target files use.1 with
  | none =>
    rw [ht] at htarget
    rw [htarget] at hpath
    cases hpath
  | some t =>
    rw [ht] at htarget
    obtain ⟨g, hg, hname⟩ := htarget
    rw [hname] at hpath
    have hsome := (filter_eq_some_iff.mp hpath).1
    rw [← some.inj hsome]
    exact ⟨g, mem_of_getElem? hg, rfl⟩

theorem name_bytes_inj {a b : String} (h : name_bytes a = name_bytes b) : a = b :=
  Utf8.bytes_inj (map_injective_iff.mpr (fun _ _ => UInt8.toNat_inj.mp) h)

/-- Dotted names tell a file's first links apart. -/
theorem links_told [Numbered files] (h : Named files) : ∀ x ∈ firsts (named_links files f),
    ∀ y ∈ firsts (named_links files f),
      name_bytes (node_text x.1) = name_bytes (node_text y.1) → x = y := by
  rintro ⟨n, r⟩ hx ⟨n', r'⟩ hy hbytes
  obtain ⟨g, hg, rfl⟩ := mem_named_links (mem_of_firsts hx)
  obtain ⟨g', hg', rfl⟩ := mem_named_links (mem_of_firsts hy)
  obtain rfl : g = g' := h.dotted hg hg' (name_bytes_inj hbytes)
  have hnodup : ((firsts (named_links files f)).map Prod.fst).Nodup :=
    pairwise_map.mpr (firsts_pairwise _)
  exact inj_on_of_nodup_map hnodup hx hy rfl

theorem adjacency_named [Numbered files] (h : Named files) (m : ModuleId) :
    node_adjacency files (node files m) = (adjacency files m).map (Prod.map (node files) id) := by
  cases hm : files[m]? with
  | none =>
    have hempty : adjacency files m = [] := by
      rw [eq_nil_iff_forall_not_mem]
      rintro ⟨v, range⟩ hmem
      obtain ⟨f, hf, -⟩ := use_of_adjacency hmem
      rw [hm] at hf
      cases hf
    have hnode : node files m = .inr m := by
      unfold node
      rw [hm]
    rw [hempty, hnode]
    rfl
  | some f =>
    have hnamed : node_adjacency files (node files m) =
        sort (fun e => name_bytes (node_text e.1)) (firsts (named_links files f)) := by
      rw [node_eq hm, node_adjacency, (named_file_iff h.names).mpr ⟨mem_of_getElem? hm, rfl⟩]
    have hfirsts : firsts (named_links files f) =
        (firsts (resolved files m f.facts.uses)).map (Prod.map (node files) id) := by
      rw [← resolved_named h.names hm, firsts_map (node_injective h.names)]
    have hperm := (edges_of_file hm).map (Prod.map (node files) id)
    unfold adjacency
    rw [hnamed, sort_map (fun e => name_bytes (node_text e.1))
      (fun e => by rw [module_text_eq]; rfl)]
    apply sort_eq_of_perm _ (links_told h)
    rw [hfirsts]
    exact hperm.symm

theorem order_named (files : List File) :
    (search_order files).map (node files) = node_order files := by
  have hrange : (List.range files.length).map (node files) =
      files.map fun f => (.inl f.name : Segments ⊕ ModuleId) := by
    apply ext_getElem
    · simp
    · intro i hi hi'
      rw [length_map] at hi'
      rw [getElem_map, getElem_map, getElem_range,
        node_eq (getElem?_eq_getElem hi')]
  unfold search_order node_order
  rw [sort_map (fun n => name_bytes (node_text n)) (fun m => by rw [module_text_eq]), hrange]

/-- The cycles are found and reported on the names alone. -/
theorem detect_cycles_named [Numbered files] (h : Named files) : detect_cycles files =
    report_cycles id node_text (node_file files) (node_order files)
      ((graph_edges files).length + 1) (node_adjacency files) [] := by
  have hmap := report_cycles_map (node_injective h.names) (fun m => (module_text_eq m).symm)
    (fun m => (module_file_named h.names m).symm) (search_order files)
    ((graph_edges files).length + 1) (adjacency files) (node_adjacency files) []
    (adjacency_named h)
  obtain ⟨ds, hrun, hid, -⟩ := detect_cycles_spec files
  rw [order_named, hid] at hmap
  exact hrun.trans hmap.symm

/-! ## Another order of the files -/

section Orders

variable (h : (files.map File.name).Nodup) (hp : files'.Perm files)

include h hp

theorem names_perm : (files'.map File.name).Nodup :=
  (hp.map _).nodup_iff.mpr h

theorem named_file_perm (n : Segments) : named_file files' n = named_file files n := by
  apply ext
  intro f
  rw [named_file_iff (names_perm h hp), named_file_iff h, hp.mem_iff]

omit h in
theorem named_target_perm (path : Segments) :
    named_target files' path = named_target files path := by
  unfold named_target
  simp [(hp.map File.name).mem_iff]

omit h in
theorem named_links_perm (f : File) : named_links files' f = named_links files f := by
  unfold named_links
  simp [named_target_perm hp]

omit h in
theorem named_self_perm (f : File) : named_self files' f = named_self files f := by
  unfold named_self
  simp [named_target_perm hp]

theorem node_file_perm : node_file files' = node_file files := by
  funext n
  cases n with
  | inl n => rw [node_file, node_file, named_file_perm h hp]
  | inr _ => rfl

theorem node_adjacency_perm : node_adjacency files' = node_adjacency files := by
  funext n
  cases n with
  | inl n =>
    rw [node_adjacency, node_adjacency, named_file_perm h hp]
    cases named_file files n with
    | none => rfl
    | some f =>
      dsimp only
      rw [named_links_perm hp]
  | inr _ => rfl

omit h in
theorem node_order_perm (h : Named files) :
    node_order files' = node_order files := by
  unfold node_order
  apply sort_eq_of_perm (hp.map _)
  intro x hx y hy hbytes
  obtain ⟨f, hf, rfl⟩ := mem_map.mp hx
  obtain ⟨g, hg, rfl⟩ := mem_map.mp hy
  rw [(h.perm hp).dotted hf hg (name_bytes_inj hbytes)]

omit hp in
theorem graph_edges_length [Numbered files] : (graph_edges files).length =
    (files.map fun f => (firsts (named_links files f)).length).sum := by
  rw [(graph_edges_perm files).length_eq, length_flatMap]
  congr 1
  apply map_zipIdx
  intro m f hm
  unfold own_edges
  rw [length_map, ← resolved_named h hm, firsts_map (node_injective h), length_map]

theorem graph_edges_length_perm [Numbered files] :
    (graph_edges files').length = (graph_edges files).length := by
  have := Numbered.of_perm hp
  rw [graph_edges_length (names_perm h hp), graph_edges_length h]
  simp only [named_links_perm hp]
  exact (hp.map _).sum_eq

omit h in
/-- The reported cycles do not depend on the order of the files. -/
theorem detect_cycles_perm [Numbered files] (h : Named files) :
    detect_cycles files' = detect_cycles files := by
  have := Numbered.of_perm hp
  rw [detect_cycles_named (h.perm hp), detect_cycles_named h, graph_edges_length_perm h.names hp,
    node_file_perm h.names hp, node_adjacency_perm h.names hp, node_order_perm hp h]

theorem other_diags_perm [Numbered files] : (other_diags files').Perm (other_diags files) := by
  have := Numbered.of_perm hp
  rw [other_diags_named (names_perm h hp), other_diags_named h]
  have hself : named_self files' = named_self files := funext (named_self_perm hp)
  rw [hself]
  exact (hp.flatMap_right _).append (hp.flatMap_right _)

end Orders

/-! ## The result -/

/-- The edge relation of a result, on the modules' names. -/
def NamedImports (files : List File) (pairs : List (ModuleId × ModuleId))
    (n n' : Segments) : Prop :=
  ∃ u v f g, Imports pairs u v ∧ files[u]? = some f ∧ f.name = n ∧ files[v]? = some g ∧ g.name = n'

theorem cycle_diags_nil {diags : List Diagnostic} :
    cycle_diags diags = [] ↔ ¬∃ d ∈ diags, d.code = .ImportCycle := by
  unfold cycle_diags
  rw [filter_eq_nil_iff]
  simp

theorem named_imports_iff [Numbered files] (h : (files.map File.name).Nodup) {n n' : Segments} :
    NamedImports files ((graph_edges files).map fun e => (e.source, e.target)) n n' ↔
      ∃ f ∈ files, f.name = n ∧ ∃ range, (.inl n', range) ∈ named_links files f := by
  constructor
  · rintro ⟨u, v, f, g, himports, hf, rfl, hg, rfl⟩
    obtain ⟨range, hmem⟩ := imports_iff.mp himports
    obtain ⟨f', hf', hfirst⟩ := mem_graph_edges.mp (mem_adjacency.mp hmem)
    obtain rfl := some.inj (hf.symm.trans hf')
    refine ⟨f, mem_of_getElem? hf, rfl, range, ?_⟩
    rw [← resolved_named h hf, ← node_eq hg]
    exact mem_map_of_mem (mem_of_firsts hfirst)
  · rintro ⟨f, hf, rfl, range, hmem⟩
    obtain ⟨u, hu⟩ := mem_iff_getElem?.mp hf
    rw [← resolved_named h hu] at hmem
    obtain ⟨⟨v, r⟩, hmem, heq⟩ := mem_map.mp hmem
    obtain ⟨r', hfirst⟩ := exists_mem_firsts hmem
    have hedge := mem_adjacency.mpr (mem_graph_edges.mpr ⟨f, hu, hfirst⟩)
    obtain ⟨g, hg⟩ : ∃ g, files[v]? = some g := by
      have hlt := (adjacent_ordered ⟨r', hedge⟩).2
      exact ⟨_, getElem?_eq_getElem (mem_search_order.mp hlt)⟩
    refine ⟨u, v, f, g, imports_iff.mpr ⟨r', hedge⟩, hu, rfl, hg, ?_⟩
    have hname := (Prod.mk.inj heq).1
    rw [node_eq hg] at hname
    exact Sum.inl.inj hname

/-- A cycle is reported where the graph has one, until none is left. An order of files with
different names changes no edge and no other diagnostic, and where dotted names tell the modules
apart no report either. -/
theorem cycles_reported (files : List File) (hids : files.length ≤ 2 ^ 32) : ∃ pairs diags,
    build_module_graph files = some (pairs, diags) ∧
    ((∃ d ∈ diags, d.code = .ImportCycle) ↔ ¬Acyclic (Imports pairs)) ∧
    Breaks files (Imports pairs) (cycle_diags diags) ∧
    ((files.map File.name).Nodup → ∀ files' : List File, files'.Perm files → ∃ pairs' diags',
      build_module_graph files' = some (pairs', diags') ∧
      (∀ n n', NamedImports files' pairs' n n' ↔ NamedImports files pairs n n') ∧
      (diags'.filter fun d => d.code ≠ .ImportCycle).Perm
        (diags.filter fun d => d.code ≠ .ImportCycle) ∧
      (Named files → (cycle_diags diags').map Diagnostic.message =
        (cycle_diags diags).map Diagnostic.message)) := by
  have : Numbered files := ⟨hids⟩
  obtain ⟨ds, hrun, hbreaks⟩ := detect_breaks files
  have hcycle : cycle_diags (other_diags files ++ ds) = ds := cycle_diags_eq hbreaks.code
  refine ⟨_, _, build_eq hrun, ?_, ?_, ?_⟩
  · have hnil := hbreaks.nil_iff
    rw [← hcycle, cycle_diags_nil] at hnil
    rw [← hnil, not_not]
  · rw [hcycle]
    exact hbreaks
  · intro h files' hp
    have : Numbered files' := Numbered.of_perm hp
    obtain ⟨ds', hrun', hbreaks'⟩ := detect_breaks files'
    have hothers : ∀ {ds : List Diagnostic}, (∀ d ∈ ds, d.code = .ImportCycle) →
        (ds.filter fun d => d.code ≠ .ImportCycle) = [] := by
      intro ds hcode
      rw [filter_eq_nil_iff]
      intro d hd
      simp [hcode d hd]
    refine ⟨_, _, build_eq hrun', ?_, ?_, ?_⟩
    · intro n n'
      rw [named_imports_iff (names_perm h hp), named_imports_iff h]
      simp only [hp.mem_iff, named_links_perm hp]
    · rw [filter_append, filter_append, hothers hbreaks.code, hothers hbreaks'.code]
      exact ((other_diags_perm h hp).filter _).append_right _
    · intro hnamed
      obtain rfl : ds' = ds := by
        rw [detect_cycles_perm hp hnamed, hrun] at hrun'
        exact (some.inj hrun').symm
      rw [hcycle, cycle_diags_eq hbreaks.code]

def cycle_messages (files : List File) : Option (List String) :=
  (build_module_graph files).map fun r => (cycle_diags r.2).map Diagnostic.message

/-- Two modules around a cycle, and a third that leads into it. -/
def ring_files : List File :=
  [⟨0, ["c"], ⟨none, none, [(["b"], (4, 5))]⟩⟩, ⟨1, ["b"], ⟨none, none, [(["a"], (4, 5))]⟩⟩,
    ⟨2, ["a"], ⟨none, none, [(["b"], (4, 5))]⟩⟩]

theorem ring_reported : Named ring_files ∧ ∀ files' : List File, files'.Perm ring_files →
    cycle_messages files' = some ["import cycle: a -> b -> a"] := by
  have hnamed : Named ring_files := by decide
  refine ⟨hnamed, fun files' hp => ?_⟩
  obtain ⟨pairs, diags, hrun, -, -, hperm⟩ := cycles_reported ring_files (by decide)
  obtain ⟨pairs', diags', hrun', -, -, hsame⟩ := hperm hnamed.names files' hp
  have hring : cycle_messages ring_files = some ["import cycle: a -> b -> a"] := by decide +kernel
  unfold cycle_messages at hring ⊢
  rw [hrun] at hring
  rw [hrun', map_some, hsame hnamed]
  exact hring

/-- Two names with one dotted text, each a use away from a cycle of its own. -/
def twin_files : List File :=
  [⟨0, ["a.b"], ⟨none, none, [(["p"], (4, 5))]⟩⟩, ⟨1, ["a", "b"], ⟨none, none, [(["q"], (4, 5))]⟩⟩,
    ⟨2, ["p"], ⟨none, none, [(["p2"], (4, 6))]⟩⟩, ⟨3, ["p2"], ⟨none, none, [(["p"], (4, 5))]⟩⟩,
    ⟨4, ["q"], ⟨none, none, [(["q2"], (4, 6))]⟩⟩, ⟨5, ["q2"], ⟨none, none, [(["q"], (4, 5))]⟩⟩]

/-- The twins are told apart as lists of segments, but not by the order of the search. -/
theorem twins_show_order : (twin_files.map File.name).Nodup ∧
    ∃ files' : List File, files'.Perm twin_files ∧
      cycle_messages files' ≠ cycle_messages twin_files := by
  refine ⟨by decide, twin_files[1] :: twin_files[0] :: twin_files.drop 2, ?_, ?_⟩
  · exact .swap _ _ _
  · decide +kernel

end Fors.Index
