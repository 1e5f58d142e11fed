import Fors.Index.Search
import Fors.Lib.Runs
import Mathlib.Algebra.Order.BigOperators.Group.List
import Mathlib.Algebra.Order.Ring.Nat
import Mathlib.Data.List.Zip

/-!
# The edges of a build

Where there are no more files than ids, no id is cut (`Numbered`). Each round reports a cycle of the edges that are left, from its least module, and takes its closing
edge away. An edge less is left each time, so the rounds end with a graph without cycles before
their bound is reached.

A file's edges are the first uses of its targets, and the edges of the build are those of its files
in the order of their targets' places. Sorting them leaves no two alike side by side.

Principal results: `report_cycles_spec` and `graph_edges_eq`.
-/

namespace Fors.Index

open Graphs Sorting
open List hiding getElem?_eq_some_iff

open Words (as_u32 as_u32_eq)

section Rounds

variable {V : Type} [DecidableEq V] {adj : V → List (V × Range)} {text : V → String}
  {file : V → FileId} {order path : List V} {u v : V}

/-! ## The least module -/

/-- No module of a path is less than the one at `m`. -/
def LeastAt (text : V → String) (path : List V) (n m : Nat) : Prop :=
  ∃ u, path[m]? = some u ∧
    ∀ i < n, ∀ v, path[i]? = some v → name_bytes (text u) ≤ name_bytes (text v)

omit [DecidableEq V] in
/-- A step that keeps the lesser of the best place and the next keeps the least of the places. -/
theorem fold_least (text : V → String) (hne : path ≠ []) {step : Nat → Nat → Nat}
    (hstep : ∀ best i u v, path[i]? = some u → path[best]? = some v →
      step best i = if name_bytes (text u) < name_bytes (text v) then i else best) {n : Nat}
    (hn : n ≤ path.length) : LeastAt text path n ((List.range n).foldl step 0) := by
  have hpos : 0 < path.length := length_pos_iff.mpr hne
  induction n with
  | zero => exact ⟨path[0], getElem?_eq_getElem hpos, fun i hi => absurd hi i.not_lt_zero⟩
  | succ n ih =>
    obtain ⟨u, hu, hleast⟩ := ih (by omega)
    have hat : path[n]? = some path[n] := getElem?_eq_getElem hn
    rw [range_succ, foldl_append, foldl_cons, foldl_nil,
      hstep _ _ _ _ hat hu]
    split
    · next hlt =>
      refine ⟨path[n], hat, ?_⟩
      intro i hi v hv
      rcases Nat.lt_succ_iff_lt_or_eq.mp hi with hi | rfl
      · exact le_trans hlt.le (hleast i hi v hv)
      · rw [hat] at hv
        rw [Option.some.inj hv]
    · next hge =>
      refine ⟨u, hu, ?_⟩
      intro i hi v hv
      rcases Nat.lt_succ_iff_lt_or_eq.mp hi with hi | rfl
      · exact hleast i hi v hv
      · rw [hat] at hv
        rw [← Option.some.inj hv]
        exact not_lt.mp hge

omit [DecidableEq V] in
theorem min_position_spec (text : V → String) (hne : path ≠ []) :
    LeastAt text path path.length (min_position text path) := by
  refine fold_least text hne ?_ (Nat.le_refl _)
  intro best i u v hu hv
  simp [hu, hv]

/-! ## One report -/

/-- The edges but for those between two nodes. -/
def remove (adj : V → List (V × Range)) (tail head : V) : V → List (V × Range) :=
  fun u => if u = tail then (adj u).filter (fun e => e.1 ≠ head) else adj u

theorem mem_remove {tail head : V} {range : Range} :
    (v, range) ∈ remove adj tail head u ↔ (v, range) ∈ adj u ∧ ¬(u = tail ∧ v = head) := by
  unfold remove
  split
  · next hu => simp [hu]
  · next hu => simp [hu]

/-- How many edges are left. -/
def edges_left (order : List V) (adj : V → List (V × Range)) : Nat :=
  (order.map fun u => (adj u).length).sum

theorem edges_left_remove {tail head : V} {range : Range} (htail : tail ∈ order)
    (h : (head, range) ∈ adj tail) :
    edges_left order (remove adj tail head) < edges_left order adj := by
  unfold edges_left
  apply sum_lt_sum
  · intro u _
    unfold remove
    split
    · exact length_filter_le _ _
    · exact Nat.le_refl _
  · refine ⟨tail, htail, ?_⟩
    unfold remove
    rw [if_pos rfl, length_filter_lt_length_iff_exists]
    exact ⟨(head, range), h, by simp⟩

/-- Diagnostics that break all cycles, one after the other. -/
inductive Reported (text : V → String) (file : V → FileId) :
    (V → List (V × Range)) → List Diagnostic → Prop where
  | done {adj : V → List (V × Range)} : Acyclic (Adjacent adj) → Reported text file adj []
  | report {adj : V → List (V × Range)} {cycle : List V} {head last : V} {range : Range}
      {ds : List Diagnostic} : IsCycle (Adjacent adj) cycle → cycle.head? = some head →
      cycle.getLast? = some last → (head, range) ∈ adj last →
      (∀ m ∈ cycle, name_bytes (text head) ≤ name_bytes (text m)) →
      Reported text file (remove adj last head) ds → Reported text file adj
        (⟨file last, range.1, range.2, .ImportCycle,
          "import cycle: " ++ " -> ".intercalate ((cycle ++ [head]).map text), []⟩ :: ds)

omit [DecidableEq V] in
/-- A path read once around from one of its places, and back to it. -/
theorem around_eq {pos : Nat} (hpos : pos < path.length) {head : V} (hhead : path[pos]? = some head) :
    (List.range (path.length + 1)).mapM (fun k => path[(pos + k) % path.length]?) =
      some (path.rotate pos ++ [head]) := by
  rw [MapM.mapM_eq_some, List.forall₂_iff_get]
  refine ⟨by simp, ?_⟩
  intro i h1 h2
  simp only [length_range] at h1
  simp only [get_eq_getElem, getElem_range]
  rcases Nat.lt_succ_iff_lt_or_eq.mp h1 with hi | rfl
  · rw [getElem_append_left (by simpa using hi), getElem_rotate,
      getElem?_eq_getElem (Nat.mod_lt _ (by omega))]
    congr 2
    rw [Nat.add_comm]
  · rw [Nat.add_mod_right, Nat.mod_eq_of_lt hpos, hhead]
    simp

omit [DecidableEq V] in
/-- The place before a place, around a path. -/
theorem closing_next {n pos : Nat} (hpos : pos < n) : ((pos + n - 1) % n + 1) % n = pos := by
  rw [Nat.mod_add_mod, show pos + n - 1 + 1 = pos + n by omega, Nat.add_mod_right,
    Nat.mod_eq_of_lt hpos]

omit [DecidableEq V] in
theorem getLast?_rotate {pos : Nat} (hpos : pos < path.length) :
    (path.rotate pos).getLast? = path[(pos + path.length - 1) % path.length]? := by
  rw [getLast?_eq_getElem?, length_rotate, getElem?_rotate (by omega)]
  congr 2
  omega

omit [DecidableEq V] in
theorem head?_rotate {pos : Nat} (hpos : pos < path.length) :
    (path.rotate pos).head? = path[pos]? := by
  rw [head?_eq_getElem?, getElem?_rotate (by omega), Nat.zero_add, Nat.mod_eq_of_lt hpos]

/-- The rounds end for want of cycles, and report what they break, however ids are cut that are none
of the nodes'. -/
theorem report_cycles_spec (text : V → String) (file : V → FileId) :
    ∀ (iters : Nat) (adj : V → List (V × Range)) (out : List Diagnostic),
      (∀ u v, Adjacent adj u v → u ∈ order ∧ v ∈ order) → edges_left order adj < iters →
      ∃ ds, (∀ as_id : V → V, (∀ v ∈ order, as_id v = v) →
          report_cycles as_id text file order iters adj out = some (out ++ ds)) ∧
        Reported text file adj ds := by
  intro iters
  induction iters with
  | zero => intro adj out _ hleft; omega
  | succ iters ih =>
    intro adj out horder hleft
    obtain ⟨found, hrun, hfound⟩ := find_one_cycle_spec fun u v h => (horder u v h).2
    cases found with
    | none =>
      refine ⟨[], fun as_id _ => ?_, .done hfound⟩
      rw [report_cycles, hrun, append_nil]
      rfl
    | some c =>
      obtain ⟨path, path_edges⟩ := c
      obtain ⟨head, hhead, hleast⟩ := min_position_spec text hfound.ne_nil
      have hpos : min_position text path < path.length := (List.getElem?_eq_some_iff.mp hhead).1
      obtain ⟨pos, hmin⟩ : ∃ pos, min_position text path = pos := ⟨_, rfl⟩
      rw [hmin] at hhead hpos
      have hclosing : (pos + path.length - 1) % path.length < path.length :=
        Nat.mod_lt _ (by omega)
      have hlength : path_edges.length = path.length := hfound.length
      obtain ⟨last, hlast⟩ : ∃ last, path[(pos + path.length - 1) % path.length]? = some last :=
        ⟨_, getElem?_eq_getElem hclosing⟩
      obtain ⟨range, hrange⟩ :
          ∃ range, path_edges[(pos + path.length - 1) % path.length]? = some range :=
        ⟨_, getElem?_eq_getElem (by omega)⟩
      have hnext : path[((pos + path.length - 1) % path.length + 1) % path.length]? = some head := by
        rw [closing_next hpos]
        exact hhead
      have hedge : (head, range) ∈ adj last := hfound.edge _ _ _ _ hlast hnext hrange
      obtain ⟨hin, hhead_in⟩ := horder last head ⟨range, hedge⟩
      have hfewer := edges_left_remove hin hedge
      obtain ⟨ds, hrest, hreported⟩ := ih (remove adj last head)
        (out ++ [⟨file last, range.1, range.2, .ImportCycle,
          "import cycle: " ++ " -> ".intercalate ((path.rotate pos ++ [head]).map text), []⟩])
        (fun u v ⟨r, hr⟩ => horder u v ⟨r, (mem_remove.mp hr).1⟩) (by omega)
      refine ⟨_ :: ds, ?_, .report (hfound.isCycle.rotate pos) ((head?_rotate hpos).trans hhead)
        ((getLast?_rotate hpos).trans hlast) hedge ?_ hreported⟩
      · intro as_id hid
        rw [report_cycles, hrun]
        simp only [Option.bind_eq_bind, Option.bind_some, hmin, around_eq hpos hhead, hrange, hlast,
          hhead, hid head hhead_in]
        rw [append_assoc] at hrest
        exact hrest as_id hid
      · intro m hm
        obtain ⟨i, hi⟩ := getElem?_of_mem (mem_rotate.mp hm)
        exact hleast i (List.getElem?_eq_some_iff.mp hi).1 m hi

end Rounds

/-! ## First occurrences -/

section Firsts

variable {K L R : Type} [DecidableEq K] [DecidableEq L] {xs : List (K × R)} {k : K} {r : R}

/-- The first entry of each key. -/
def firsts : List (K × R) → List (K × R)
  | [] => []
  | x :: xs => x :: (firsts xs).filter fun y => y.1 ≠ x.1

theorem mem_of_firsts (h : (k, r) ∈ firsts xs) : (k, r) ∈ xs := by
  induction xs with
  | nil => exact h
  | cons x xs ih =>
    rcases mem_cons.mp h with rfl | h
    · exact mem_cons_self
    · exact mem_cons_of_mem _ (ih (mem_filter.mp h).1)

theorem exists_mem_firsts (h : (k, r) ∈ xs) : ∃ r', (k, r') ∈ firsts xs := by
  induction xs with
  | nil => cases h
  | cons x xs ih =>
    by_cases hk : k = x.1
    · exact ⟨x.2, mem_cons.mpr (.inl (by rw [hk]))⟩
    · rcases mem_cons.mp h with rfl | h
      · exact absurd rfl hk
      · obtain ⟨r', hr'⟩ := ih h
        exact ⟨r', mem_cons_of_mem _ (mem_filter.mpr ⟨hr', decide_eq_true hk⟩)⟩

theorem firsts_pairwise (xs : List (K × R)) : (firsts xs).Pairwise fun x y => x.1 ≠ y.1 := by
  induction xs with
  | nil => exact .nil
  | cons x xs ih =>
    refine .cons ?_ (ih.filter _)
    intro y hy heq
    have hne := (mem_filter.mp hy).2
    rw [decide_eq_true_eq] at hne
    exact hne heq.symm

/-- Other names for the keys keep what is first. -/
theorem firsts_map {f : K → L} (hf : f.Injective) (xs : List (K × R)) :
    firsts (xs.map (Prod.map f id)) = (firsts xs).map (Prod.map f id) := by
  induction xs with
  | nil => rfl
  | cons x xs ih =>
    rw [map_cons, firsts, firsts, map_cons, ih, filter_map]
    congr 2
    apply filter_congr
    intro y _
    simp [hf.eq_iff]

end Firsts

/-! ## The edges of a file -/

/-- No more files than ids. -/
class Numbered (files : List File) : Prop where
  length_le : files.length ≤ 2 ^ 32

theorem as_u32_place {files : List File} [h : Numbered files] {m : Nat} (hm : m < files.length) :
    as_u32 m = m :=
  as_u32_eq (Nat.lt_of_lt_of_le hm h.length_le)

variable {files : List File} {f : File} {m u v : ModuleId} {range : Range}

/-- The other modules that a file's uses lead to. -/
def resolved (files : List File) (m : ModuleId) (uses : List (Segments × Range)) :
    List (ModuleId × Range) :=
  uses.filterMap fun use => ((use_target files use.1).filter (· ≠ m)).map fun t => (t, use.2)

/-- A file's uses that lead to itself. -/
def self_diags (files : List File) (m : ModuleId) (f : File) : List Diagnostic :=
  f.facts.uses.filterMap fun use =>
    if use_target files use.1 = some m then
      some ⟨f.file, use.2.1, use.2.2, .SelfImport,
        "module imports itself via `" ++ join_dotted use.1 ++ "`", []⟩
    else none

def own_edges (files : List File) (m : ModuleId) (f : File) : List Edge :=
  (firsts (resolved files m f.facts.uses)).map fun e => ⟨m, e.1, e.2⟩

theorem any_source (edges : List Edge) (m t : ModuleId) :
    (edges.any fun x => x.source = m ∧ x.target = t) = true ↔
      ∃ e ∈ edges, e.source = m ∧ e.target = t := by
  simp

/-- Uses of one module behind edges: its first uses of other modules than the edges have. -/
theorem foldl_resolve (files : List File) (m : ModuleId) (fid : FileId)
    (uses : List (Segments × Range)) (acc : List Edge × List Diagnostic) :
    uses.foldl (resolve_use_edge files m fid) acc =
      (acc.1 ++ ((firsts (resolved files m uses)).filter
        fun e => !(acc.1.any fun x => x.source = m ∧ x.target = e.1)).map fun e => ⟨m, e.1, e.2⟩,
      acc.2 ++ self_diags files m ⟨fid, [], ⟨none, none, uses⟩⟩) := by
  induction uses generalizing acc with
  | nil => simp [resolved, firsts, self_diags]
  | cons use uses ih =>
    rw [foldl_cons, ih]
    unfold resolve_use_edge
    cases ht : use_target files use.1 with
    | none =>
      have hresolved : resolved files m (use :: uses) = resolved files m uses := by
        simp [resolved, ht]
      simp [hresolved, self_diags, ht]
    | some t =>
      dsimp only
      by_cases hself : t = m
      · have hresolved : resolved files m (use :: uses) = resolved files m uses := by
          simp [resolved, ht, hself]
        rw [if_pos hself]
        simp [hresolved, self_diags, ht, hself]
      · have hresolved : resolved files m (use :: uses) =
            (t, use.2) :: resolved files m uses := by
          simp [resolved, ht, hself]
        rw [if_neg hself, hresolved, firsts]
        unfold push_edge_dedup
        by_cases hany : (acc.1.any fun x => x.source = m ∧ x.target = t) = true
        · have hrest : ((firsts (resolved files m uses)).filter fun y => y.1 ≠ t).filter
              (fun e => !(acc.1.any fun x => x.source = m ∧ x.target = e.1)) =
              (firsts (resolved files m uses)).filter
                fun e => !(acc.1.any fun x => x.source = m ∧ x.target = e.1) := by
            rw [filter_filter]
            apply filter_congr
            intro y _
            by_cases hy : y.1 = t
            · rw [hy, hany]
              rfl
            · simp [hy]
          rw [if_pos hany, filter_cons_of_neg (by rw [hany]; decide), hrest]
          simp [self_diags, ht, hself]
        · have hrest : ((firsts (resolved files m uses)).filter fun y => y.1 ≠ t).filter
              (fun e => !(acc.1.any fun x => x.source = m ∧ x.target = e.1)) =
              (firsts (resolved files m uses)).filter fun e =>
                !((acc.1 ++ [Edge.mk m t use.2]).any fun x => x.source = m ∧ x.target = e.1) := by
            rw [filter_filter]
            apply filter_congr
            intro y _
            by_cases hy : y.1 = t
            · simp [hy]
            · simp [hy, Ne.symm hy]
          rw [Bool.not_eq_true] at hany
          rw [if_neg (by rw [hany]; decide), filter_cons_of_pos (by rw [hany]; decide), hrest]
          simp [self_diags, ht, hself]

/-- A file's uses behind the edges of other files. -/
theorem foldl_file (files : List File) (m : ModuleId) (f : File)
    (acc : List Edge × List Diagnostic) (hacc : ∀ e ∈ acc.1, e.source ≠ m) :
    f.facts.uses.foldl (resolve_use_edge files m f.file) acc =
      (acc.1 ++ own_edges files m f, acc.2 ++ self_diags files m f) := by
  have hall : (firsts (resolved files m f.facts.uses)).filter
      (fun e => !(acc.1.any fun x => x.source = m ∧ x.target = e.1)) =
      firsts (resolved files m f.facts.uses) := by
    rw [filter_eq_self]
    intro y _
    rw [Bool.not_eq_true', ← Bool.not_eq_true, any_source]
    rintro ⟨e, he, hsource, -⟩
    exact hacc e he hsource
  rw [foldl_resolve, hall]
  rfl

theorem places_differ (files : List File) : files.zipIdx.Pairwise fun p q => p.2 ≠ q.2 := by
  have hnodup : (files.zipIdx.map Prod.snd).Nodup := by
    rw [zipIdx_map_snd]
    exact nodup_range'
  exact pairwise_map.mp hnodup

/-- All files' edges and self imports, file by file. -/
theorem resolve_uses_eq (files : List File) [Numbered files] : resolve_uses files =
    (files.zipIdx.flatMap fun f => own_edges files f.2 f.1,
      files.zipIdx.flatMap fun f => self_diags files f.2 f.1) := by
  have hall : ∀ (rest : List (File × Nat)) (acc : List Edge × List Diagnostic),
      (rest.Pairwise fun p q => p.2 ≠ q.2) → (∀ e ∈ acc.1, ∀ p ∈ rest, e.source ≠ p.2) →
      rest.foldl (fun acc f => f.1.facts.uses.foldl (resolve_use_edge files f.2 f.1.file) acc) acc =
        (acc.1 ++ rest.flatMap fun f => own_edges files f.2 f.1,
          acc.2 ++ rest.flatMap fun f => self_diags files f.2 f.1) := by
    intro rest
    induction rest with
    | nil => intro acc _ _; simp
    | cons p rest ih =>
      intro acc hpair hacc
      obtain ⟨hhead, htail⟩ := pairwise_cons.mp hpair
      rw [foldl_cons, foldl_file files p.2 p.1 acc fun e he => hacc e he p mem_cons_self,
        ih _ htail]
      · simp
      · intro e he q hq
        rcases mem_append.mp he with he | he
        · exact hacc e he q (mem_cons_of_mem _ hq)
        · obtain ⟨x, -, rfl⟩ := mem_map.mp he
          exact hhead q hq
  have huncut : resolve_uses files = files.zipIdx.foldl
      (fun acc f => f.1.facts.uses.foldl (resolve_use_edge files f.2 f.1.file) acc) ([], []) := by
    apply foldl_ext
    rintro acc ⟨f, m⟩ hf
    have hm := (List.getElem?_eq_some_iff.mp (mem_zipIdx_iff_getElem?.mp hf)).1
    rw [as_u32_place hm]
  have hrun := hall files.zipIdx ([], []) (places_differ files) nofun
  simp only [nil_append] at hrun
  exact huncut.trans hrun

/-! ## Sorting them -/

theorem own_edges_pairwise (files : List File) (m : ModuleId) (f : File) :
    (own_edges files m f).Pairwise fun a b => ¬(a.source = b.source ∧ a.target = b.target) := by
  unfold own_edges
  rw [pairwise_map]
  apply (firsts_pairwise _).imp
  rintro x y hne ⟨-, heq⟩
  exact hne heq

/-- No two edges of the build are alike. -/
theorem edges_pairwise (files : List File) [Numbered files] : (resolve_uses files).1.Pairwise
    fun a b => ¬(a.source = b.source ∧ a.target = b.target) := by
  rw [resolve_uses_eq, pairwise_flatMap]
  refine ⟨fun p _ => own_edges_pairwise files p.2 p.1, ?_⟩
  apply (places_differ files).imp
  rintro p q hne a ha b hb ⟨heq, -⟩
  obtain ⟨x, -, rfl⟩ := mem_map.mp ha
  obtain ⟨y, -, rfl⟩ := mem_map.mp hb
  exact hne heq

theorem sorted_edges_perm (files : List File) :
    (sort (fun e => toLex (e.source, e.target)) (resolve_uses files).1).Perm
      (resolve_uses files).1 :=
  perm_sort _

theorem sorted_edges_pairwise (files : List File) [Numbered files] :
    (sort (fun e => toLex (e.source, e.target)) (resolve_uses files).1).Pairwise
      fun a b => ¬(a.source = b.source ∧ a.target = b.target) := by
  refine ((sorted_edges_perm files).pairwise_iff ?_).mpr (edges_pairwise files)
  rintro a b hne ⟨hs, ht⟩
  exact hne ⟨hs.symm, ht.symm⟩

/-- The pass that takes out neighbours that are alike finds none. -/
theorem graph_edges_eq (files : List File) [Numbered files] : graph_edges files =
    sort (fun e => toLex (e.source, e.target)) (resolve_uses files).1 := by
  unfold graph_edges
  apply destutter_of_isChain
  exact (sorted_edges_pairwise files).isChain

theorem graph_edges_pairwise (files : List File) [Numbered files] : (graph_edges files).Pairwise
    fun a b => ¬(a.source = b.source ∧ a.target = b.target) := by
  rw [graph_edges_eq]
  exact sorted_edges_pairwise files

theorem graph_edges_perm (files : List File) [Numbered files] : (graph_edges files).Perm
    (files.zipIdx.flatMap fun f => own_edges files f.2 f.1) := by
  have hperm := sorted_edges_perm files
  rw [← graph_edges_eq] at hperm
  rwa [resolve_uses_eq] at hperm

theorem mem_graph_edges [Numbered files] : ⟨u, v, range⟩ ∈ graph_edges files ↔
    ∃ f, files[u]? = some f ∧ (v, range) ∈ firsts (resolved files u f.facts.uses) := by
  rw [(graph_edges_perm files).mem_iff, mem_flatMap]
  constructor
  · rintro ⟨⟨f, m⟩, hf, he⟩
    obtain ⟨x, hx, heq⟩ := mem_map.mp he
    obtain ⟨rfl, rfl, rfl⟩ := Edge.mk.inj heq
    exact ⟨f, mem_zipIdx_iff_getElem?.mp hf, hx⟩
  · rintro ⟨f, hf, hx⟩
    exact ⟨(f, u), mem_zipIdx_iff_getElem?.mpr hf, mem_map.mpr ⟨(v, range), hx, rfl⟩⟩

end Fors.Index
