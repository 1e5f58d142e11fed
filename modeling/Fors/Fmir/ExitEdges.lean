import Mathlib.Data.Fintype.EquivFin
import Mathlib.Data.List.TakeWhile
import Fors.Lib.Graphs
import Fors.Lib.Runs
import Fors.Fmir.Verify

/-!
# Exit edges

What a scope-exit edge has to carry (`ExactEdge`): the chain of scopes from its `from` block
outward to the innermost one that also encloses its `to` block, their pending bodies in order,
and one discharge for each of their obligations. A verified declaration meets it at an edge
exactly when the edge uses none of the escapes of `check_edge_scopes` (`Tight`).

Principal result: `exit_edges_exact_iff_tight`.
-/

namespace Fors.Fmir

open Ancestry Runs List

namespace DeclFmir

variable (d : DeclFmir)

/-- The parent link of a scope id; an id past the pool is outside every scope. -/
def up (s : ScopeId) : Option ScopeId :=
  d.scopes[s.toNat]?.map ScopeRow.parent

instance : Finite UInt32 :=
  Finite.of_injective UInt32.toFin fun _ _ => UInt32.toFin_inj.mp

/-- The scope parents form a forest. -/
def Forest : Prop :=
  Acyclic d.up

/-- The block an edge goes to; a function exit has none. -/
def target (row : ExitEdgeRow) : Option BlockRow :=
  if row.is_function_exit then none else d.blocks[row.to_.toNat]?

/-- The scopes that enclose the target of an edge, innermost first. -/
def EnclosesTarget (row : ExitEdgeRow) (tos : List ScopeId) : Prop :=
  match d.target row with
  | some to_ => Trail d.up to_.scope tos
  | none => tos = []

/-- The deferred bodies a scope owes to an exit of `kind`, each with its statement order. -/
def owedBodies (kind : ExitKind) (scope : ScopeId) : List (UInt16 × DeferId) :=
  match d.scopes[scope.toNat]? with
  | none => []
  | some row =>
    ((clamped d.defers row.defers).zipIdx.filter fun (r, _) =>
      r.kind = .Defer ∨ kind = .Error).map
      fun (r, i) => (r.stmt_order, row.defers.start + UInt32.ofNat i)

/-- One scope's share of a pending list: its owed bodies, each once, in descending statement
order. -/
def RunsBodies (kind : ExitKind) (scope : ScopeId) (ids : List DeferId) : Prop :=
  ∃ bodies : List (UInt16 × DeferId), bodies.Perm (d.owedBodies kind scope) ∧
    bodies.Pairwise (fun x y => y.1 ≤ x.1) ∧ ids = bodies.map Prod.snd

/-- What an edge carries when the scopes `left` are the ones it leaves. -/
structure Carries (row : ExitEdgeRow) (left : List ScopeId) : Prop where
  scopes : d.leaving row = left
  pending : ∃ parts, List.Forall₂ (d.RunsBodies row.kind) left parts ∧
    clamped d.exits.pending row.pending = parts.flatten
  discharged : ∀ p ∈ obligations_of d left, (d.discharges row).countP (·.place = p) = 1

/-- The edge leaves exactly the scopes between its two blocks and carries what they owe. -/
def ExactEdge (row : ExitEdgeRow) : Prop :=
  ∃ from_ froms tos, d.blocks[row.from_.toNat]? = some from_ ∧ Trail d.up from_.scope froms ∧
    d.EnclosesTarget row tos ∧ d.Carries row (froms.takeWhile fun s => decide (s ∉ tos))

/-- The edge takes none of the early returns of `check_edge_scopes` with the wrong chain. -/
structure Tight (row : ExitEdgeRow) : Prop where
  /-- An empty list leaves nothing: the `from` block's own scope encloses the target. -/
  empty : d.leaving row = [] → ∀ from_ tos, d.blocks[row.from_.toNat]? = some from_ →
    d.EnclosesTarget row tos → (d.up from_.scope).isSome → from_.scope ∈ tos
  /-- No listed scope encloses the target. -/
  outside : ∀ tos, d.EnclosesTarget row tos → ∀ s ∈ d.leaving row, s ∉ tos
  /-- Without a target the list ends at a scope that has no parent. -/
  root : d.target row = none → ∀ last p, (d.leaving row).getLast? = some last →
    d.up last = some p → d.up p = none

end DeclFmir

/-! ## What the checks establish -/

section Checks

variable {d : DeclFmir} {id : ExitEdgeId} {row : ExitEdgeRow} {fuel : Nat}

variable {tos : List ScopeId}

/-- The parent walk of `check_edge_scopes` meets the scope it looks for inside the trail. -/
theorem walk_to_spec {stop s : ScopeId} {met : Bool}
    (ht : Trail d.up s tos) (h : walk_to d.scopes stop fuel s = .ok met) :
    met = true → (d.up stop).isSome → stop ∈ tos := by
  induction fuel generalizing s tos with
  | zero => simp [walk_to] at h
  | succ fuel ih =>
    intro hmet hstop
    rw [walk_to] at h
    by_cases hs : s = stop
    · subst hs
      exact ht.head_mem hstop
    · rw [if_neg hs] at h
      cases hrow : d.scopes[s.toNat]? with
      | none =>
        simp only [hrow, Except.ok.injEq] at h
        simp [← h] at hmet
      | some r =>
        simp only [hrow] at h
        cases ht with
        | out hn => simp [DeclFmir.up, hrow] at hn
        | step hb ht =>
          obtain rfl : r.parent = _ := by simpa [DeclFmir.up, hrow] using hb
          exact mem_cons_of_mem _ (ih ht h hmet hstop)

/-- A list without a chain fault is a parent chain. -/
theorem chain_of_chain_fault {l : List ScopeId} (h : chain_fault d.scopes l = none) :
    List.IsChain (fun x y => d.up x = some y) l := by
  induction l with
  | nil => exact .nil
  | cons inner l ih =>
    cases l with
    | nil => exact .singleton _
    | cons next rest =>
      rw [chain_fault] at h
      cases hrow : d.scopes[inner.toNat]? with
      | none => simp [hrow] at h
      | some r =>
        simp only [hrow] at h
        split at h
        · cases h
        · rename_i hp
          refine isChain_cons_cons.mpr ⟨?_, ih h⟩
          simp only [DeclFmir.up, hrow, Option.map_some, ne_eq, not_not] at hp ⊢
          rw [hp]

/-- A nonempty list that passes `check_edge_scopes` starts the trail of the `from` scope, and
the scope it stops before encloses the target. -/
theorem check_edge_scopes_spec {from_scope first last : ScopeId}
    (ht : d.EnclosesTarget row tos) (hfirst : (d.leaving row).head? = some first)
    (hlast : (d.leaving row).getLast? = some last)
    (h : check_edge_scopes fuel d id row from_scope = .ok []) :
    first = from_scope ∧ List.IsChain (fun x y => d.up x = some y) (d.leaving row) ∧
      ∃ p, d.up last = some p ∧ (d.target row ≠ none → (d.up p).isSome → p ∈ tos) := by
  simp only [check_edge_scopes, hfirst, hlast] at h
  split at h
  · simp at h
  rename_i hfs
  split at h
  · simp at h
  rename_i hchain
  split at h
  · simp at h
  rename_i lastRow hrow
  have hup : d.up last = some lastRow.parent := by simp [DeclFmir.up, hrow]
  refine ⟨by simpa using hfs, chain_of_chain_fault hchain, lastRow.parent, hup, ?_⟩
  intro htarget
  by_cases hexit : row.is_function_exit
  · simp [DeclFmir.target, hexit] at htarget
  cases hto : d.blocks[row.to_.toNat]? with
  | none => simp [DeclFmir.target, hexit, hto] at htarget
  | some to_ =>
    simp only [DeclFmir.EnclosesTarget, DeclFmir.target, if_neg hexit, hto] at ht
    simp only [if_neg hexit, hto, bind_eq_ok] at h
    obtain ⟨met, hwalk, h⟩ := h
    cases met with
    | true => exact walk_to_spec ht hwalk rfl
    | false => simp [pure_eq_ok] at h

/-- The scopes an edge lists, when it lists any, are the inner part of the trail. -/
theorem leaving_prefix {from_scope : ScopeId} {froms : List ScopeId}
    (hf : Trail d.up from_scope froms) (ht : d.EnclosesTarget row tos)
    (hrest : ∀ s, ∃ l, Trail d.up s l) (hne : d.leaving row ≠ [])
    (h : check_edge_scopes fuel d id row from_scope = .ok []) :
    ∃ last p rest, (d.leaving row).getLast? = some last ∧ d.up last = some p ∧
      Trail d.up p rest ∧ froms = d.leaving row ++ rest ∧
      (d.target row ≠ none → (d.up p).isSome → p ∈ tos) := by
  obtain ⟨first, l, hl⟩ := exists_cons_of_ne_nil hne
  obtain ⟨last, hlast⟩ : ∃ last, (d.leaving row).getLast? = some last :=
    ⟨_, getLast?_eq_some_getLast hne⟩
  obtain ⟨rfl, hchain, p, hp, hmet⟩ := check_edge_scopes_spec ht (by rw [hl]; rfl) hlast h
  obtain ⟨rest, hr⟩ := hrest p
  refine ⟨last, p, rest, hlast, hp, hr, ?_, hmet⟩
  rw [hl] at hchain hlast ⊢
  exact hf.unique (Trail.append hchain hlast hp hr)

/-- The expected list sorts each scope's owed bodies by descending statement order. -/
theorem expected_pending_eq (leaving : List ScopeId) (kind : ExitKind) :
    expected_pending d.scopes d.defers leaving kind = (leaving.map fun s =>
      ((d.owedBodies kind s).mergeSort later_first).map Prod.snd).flatten := by
  rw [expected_pending, flatMap_def]
  congr 2
  funext s
  cases hrow : d.scopes[s.toNat]? with
  | none => simp [DeclFmir.owedBodies, hrow]
  | some r => simp [DeclFmir.owedBodies, hrow]

/-- A scope's sorted bodies are its share of a pending list. -/
theorem runsBodies_mergeSort (kind : ExitKind) (s : ScopeId) :
    d.RunsBodies kind s
      (((d.owedBodies kind s).mergeSort later_first).map Prod.snd) := by
  refine ⟨_, mergeSort_perm _ _, ?_, rfl⟩
  have sorted : ((d.owedBodies kind s).mergeSort later_first).Pairwise fun x y =>
      later_first x y = true := by
    apply pairwise_mergeSort
    · intro a b c hab hbc
      simp only [later_first, decide_eq_true_eq] at hab hbc ⊢
      exact UInt16.le_trans hbc hab
    · intro a b
      simp only [later_first, Bool.or_eq_true, decide_eq_true_eq]
      exact (UInt16.le_total a.1 b.1).symm
  exact sorted.imp fun h => by simpa [later_first] using h

/-- The carried pending list is one share after the other. -/
theorem check_edge_pending_spec (h : check_edge_pending d id row = []) :
    ∃ parts, List.Forall₂ (d.RunsBodies row.kind) (d.leaving row) parts ∧
      clamped d.exits.pending row.pending = parts.flatten := by
  rw [check_edge_pending] at h
  split at h
  · rename_i hgot
    refine ⟨_, ?_, hgot.trans (expected_pending_eq _ _)⟩
    rw [List.forall₂_map_right_iff]
    exact List.forall₂_same.mpr fun s _ => runsBodies_mergeSort row.kind s
  · simp at h

/-- No two discharge rows of a checked edge answer for one place. -/
theorem discharges_nodup (h : check_edge_discharges d id row = []) :
    ((d.discharges row).map DischargeRow.place).Nodup := by
  rw [check_edge_discharges, append_eq_nil_iff, flatMap_eq_nil_iff] at h
  rw [nodup_iff_pairwise_ne, pairwise_map, pairwise_iff_getElem]
  intro i j hi hj hij heq
  have once := h.1 ((d.discharges row)[j], j) (mk_mem_zipIdx_iff_getElem?.mpr (by simp [hj]))
  simp only [append_eq_nil_iff, ite_eq_right_iff, cons_ne_nil, imp_false,
    Bool.not_eq_true, any_eq_false] at once
  have := once.2 (d.discharges row)[i] (mem_take_iff_getElem.mpr ⟨i, by omega, rfl⟩)
  simp [heq] at this

theorem check_edge_discharges_spec (h : check_edge_discharges d id row = []) :
    ∀ p ∈ obligations_of d (d.leaving row), (d.discharges row).countP (·.place = p) = 1 := by
  intro p hp
  have nodup := discharges_nodup h
  rw [check_edge_discharges, append_eq_nil_iff] at h
  have answered := flatMap_eq_nil_iff.mp h.2 p hp
  have hmem : p ∈ (d.discharges row).map DischargeRow.place := by
    simpa using answered
  rw [← count_eq_one_of_mem nodup hmem, List.count, countP_map]
  rfl

/-- A checked edge carries what the scopes it lists owe. -/
theorem carries_leaving (hp : check_edge_pending d id row = [])
    (hd : check_edge_discharges d id row = []) : d.Carries row (d.leaving row) :=
  ⟨rfl, check_edge_pending_spec hp, check_edge_discharges_spec hd⟩

end Checks

/-! ## Edges of a verified declaration -/

/-- `takeWhile` stops exactly between two given parts. -/
theorem takeWhile_append_eq_left {α : Type} {p : α → Bool} {l rest : List α} :
    (l ++ rest).takeWhile p = l ↔ (∀ s ∈ l, p s) ∧ (rest.takeWhile p = []) := by
  constructor
  · intro h
    have all : ∀ s ∈ l, p s := by
      intro s hs
      rw [← h] at hs
      exact mem_takeWhile_imp hs
    rw [takeWhile_append_of_pos all] at h
    exact ⟨all, append_right_eq_self.mp h⟩
  · rintro ⟨all, hrest⟩
    rw [takeWhile_append_of_pos all, hrest, append_nil]

section Edge

variable {d : DeclFmir} {id : ExitEdgeId} {row : ExitEdgeRow} {fuel : Nat}

theorem exists_enclosesTarget (hd : d.Forest) (row : ExitEdgeRow) :
    ∃ tos, d.EnclosesTarget row tos := by
  unfold DeclFmir.EnclosesTarget
  cases d.target row with
  | none => exact ⟨[], rfl⟩
  | some to_ => exact hd.exists_trail to_.scope

variable {tos : List ScopeId}

theorem enclosesTarget_unique {tos' : List ScopeId} (h : d.EnclosesTarget row tos)
    (h' : d.EnclosesTarget row tos') : tos = tos' := by
  unfold DeclFmir.EnclosesTarget at h h'
  cases htarget : d.target row with
  | none => rw [htarget] at h h'; exact h.trans h'.symm
  | some to_ => rw [htarget] at h h'; exact h.unique h'

theorem enclosesTarget_none (h : d.EnclosesTarget row tos)
    (hn : d.target row = none) : tos = [] := by
  unfold DeclFmir.EnclosesTarget at h
  rwa [hn] at h

variable {from_ : BlockRow}

/-- What an exact edge is, once both trails are known and the carried lists are checked. -/
theorem exactEdge_iff {froms : List ScopeId}
    (hfrom : d.blocks[row.from_.toNat]? = some from_) (hf : Trail d.up from_.scope froms)
    (ht : d.EnclosesTarget row tos) (hp : check_edge_pending d id row = [])
    (hdis : check_edge_discharges d id row = []) :
    d.ExactEdge row ↔ froms.takeWhile (fun s => decide (s ∉ tos)) = d.leaving row := by
  constructor
  · rintro ⟨from', froms', tos', hfrom', hf', ht', hc⟩
    obtain rfl : from' = from_ := by simpa [hfrom] using hfrom'.symm
    obtain rfl := hf.unique hf'
    obtain rfl := enclosesTarget_unique ht ht'
    exact hc.scopes.symm
  · intro h
    exact ⟨from_, froms, tos, hfrom, hf, ht, h ▸ carries_leaving hp hdis⟩

/-- An edge with an empty list is exact when its `from` scope encloses the target. -/
theorem takeWhile_empty_iff_tight {froms : List ScopeId}
    (hfrom : d.blocks[row.from_.toNat]? = some from_) (hf : Trail d.up from_.scope froms)
    (ht : d.EnclosesTarget row tos) (hnil : d.leaving row = []) :
    froms.takeWhile (fun s => decide (s ∉ tos)) = [] ↔ d.Tight row := by
  constructor
  · intro h
    refine ⟨?_, ?_, ?_⟩
    · intro _ from' tos' hfrom' ht' hscope
      obtain rfl : from' = from_ := by simpa [hfrom] using hfrom'.symm
      obtain rfl := enclosesTarget_unique ht ht'
      have hhead := hf.head?_eq hscope
      cases froms with
      | nil => simp at hhead
      | cons s l =>
        obtain rfl : s = from'.scope := by simpa using hhead
        by_contra hs
        simp [hs] at h
    · simp [hnil]
    · simp [hnil]
  · intro h
    cases hf with
    | out => rfl
    | step hup =>
      have hs := h.empty hnil from_ tos hfrom ht (by simp [hup])
      simp [hs]

/-- An edge with scopes is exact when no listed scope encloses the target and, for want of a
target, the list reaches a root. -/
theorem takeWhile_eq_iff_tight {last p : ScopeId} {rest : List ScopeId}
    (ht : d.EnclosesTarget row tos) (hlast : (d.leaving row).getLast? = some last)
    (hup : d.up last = some p) (hrest : Trail d.up p rest)
    (hmet : d.target row ≠ none → (d.up p).isSome → p ∈ tos) :
    (d.leaving row ++ rest).takeWhile (fun s => decide (s ∉ tos)) = d.leaving row ↔
      d.Tight row := by
  rw [takeWhile_append_eq_left]
  constructor
  · rintro ⟨all, hstop⟩
    refine ⟨?_, ?_, ?_⟩
    · intro hnil
      simp [hnil] at hlast
    · intro tos' ht' s hs
      obtain rfl := enclosesTarget_unique ht ht'
      simpa using all s hs
    · intro hn last' p' hlast' hup'
      obtain rfl : last' = last := by simpa [hlast] using hlast'.symm
      obtain rfl : p' = p := by simpa [hup] using hup'.symm
      obtain rfl := enclosesTarget_none ht hn
      exact hrest.nil_iff.mp (by simpa using hstop)
  · intro h
    refine ⟨fun s hs => by simpa using h.outside tos ht s hs, ?_⟩
    cases hn : d.target row with
    | none => simp [hrest.nil_iff.mpr (h.root hn last p hlast hup)]
    | some to_ =>
      cases hrest with
      | out => rfl
      | step hb =>
        have hp := hmet (by simp [hn]) (by simp [hb])
        simp [hp]

theorem exactEdge_iff_tight (hd : d.Forest) (hfrom : d.blocks[row.from_.toNat]? = some from_)
    (hs : check_edge_scopes fuel d id row from_.scope = .ok [])
    (hp : check_edge_pending d id row = []) (hdis : check_edge_discharges d id row = []) :
    d.ExactEdge row ↔ d.Tight row := by
  obtain ⟨froms, hf⟩ := hd.exists_trail from_.scope
  obtain ⟨tos, ht⟩ := exists_enclosesTarget hd row
  rw [exactEdge_iff hfrom hf ht hp hdis]
  by_cases hne : d.leaving row = []
  · rw [hne]
    exact takeWhile_empty_iff_tight hfrom hf ht hne
  · obtain ⟨last, p, rest, hlast, hup, hrest, rfl, hmet⟩ :=
      leaving_prefix hf ht hd.exists_trail hne hs
    exact takeWhile_eq_iff_tight ht hlast hup hrest hmet

/-- The checks a verified declaration has passed at one of its edges. -/
theorem checks_of_verify (hv : verify fuel d = .ok []) (hrow : row ∈ d.exits.rows) :
    ∃ id from_, d.blocks[row.from_.toNat]? = some from_ ∧
      check_edge_scopes fuel d id row from_.scope = .ok [] ∧
      check_edge_pending d id row = [] ∧ check_edge_discharges d id row = [] := by
  simp only [verify, bind_eq_ok, pure_eq_ok, append_eq_nil_iff] at hv
  obtain ⟨_, _, _, _, edges, hedges, hnil⟩ := hv
  obtain rfl : edges = [] := hnil.2
  obtain ⟨i, hi⟩ := mem_iff_getElem?.mp hrow
  have hcheck := flatten_mapM_eq_nil.mp hedges _ (mem_all_rows hi)
  simp only [check_exit_edge] at hcheck
  split at hcheck
  · simp at hcheck
  · rename_i from_ hfrom
    simp only [bind_eq_ok, pure_eq_ok, append_eq_nil_iff] at hcheck
    obtain ⟨_, hscopes, ⟨⟨-, rfl⟩, hpending⟩, hdischarges⟩ := hcheck
    exact ⟨_, from_, hfrom, hscopes, hpending, hdischarges⟩

/-- In a verified declaration whose scope parents form a forest, the edges leave exactly the
right scopes with everything they owe if and only if none of them is loose. -/
theorem exit_edges_exact_iff_tight (d : DeclFmir) (fuel : Nat) (hd : d.Forest)
    (hv : verify fuel d = .ok []) :
    (∀ row ∈ d.exits.rows, d.ExactEdge row) ↔ ∀ row ∈ d.exits.rows, d.Tight row := by
  refine forall₂_congr fun row hrow => ?_
  obtain ⟨id, from_, hfrom, hs, hp, hdis⟩ := checks_of_verify hv hrow
  exact exactEdge_iff_tight hd hfrom hs hp hdis

end Edge

/-! ## Two declarations -/

/-- Scopes whose parents come earlier in the pool form a forest. -/
theorem forest_of_parents_before {d : DeclFmir} (hlen : d.scopes.length < 2 ^ 32)
    (h : ∀ p ∈ d.scopes.zipIdx, p.1.parent = ABSENT ∨ p.1.parent.toNat < p.2) : d.Forest := by
  refine acyclic_of_rank
    (fun s : ScopeId => if s.toNat < d.scopes.length then s.toNat + 1 else 0) ?_
  intro s p hp
  obtain ⟨r, hr, rfl⟩ := Option.map_eq_some_iff.mp hp
  have hs := (List.getElem?_eq_some_iff.mp hr).1
  simp only [hs, if_true]
  have before : r.parent = ABSENT ∨ r.parent.toNat < s.toNat :=
    h (r, s.toNat) (List.mk_mem_zipIdx_iff_getElem?.mpr hr)
  have absent : ABSENT.toNat = 2 ^ 32 - 1 := rfl
  rcases before with habs | hlt
  · rw [habs]
    split <;> omega
  · split <;> omega

/-- A root scope with one deferred body and a scope inside it with another. -/
def nestedScopes : List ScopeRow :=
  [{ ScopeRow.root ABSENT with defers := ⟨1, 2⟩ },
    { ScopeRow.root ABSENT with parent := 0, defers := ⟨0, 1⟩ }]

/-- The exit edge of a `ret` in the inner of the `nestedScopes`, which lists the scopes `edge`
and carries the bodies `pending`. -/
def deferring (edge : List ScopeId) (pending : List DeferId) : DeclFmir :=
  { DeclFmir.empty 0 0 with
    blocks := [⟨0, 0, .plain .Ret, 1⟩, ⟨0, 0, { InstRow.plain .Br with a := BODY_END }, 1⟩]
    scopes := nestedScopes
    defers := [⟨.Defer, 1, 0⟩, ⟨.Defer, 1, 0⟩]
    exits := ⟨[{ ExitEdgeRow.plain 0 ABSENT .Normal with
      scopes := ⟨0, UInt32.ofNat edge.length⟩
      pending := ⟨0, UInt32.ofNat pending.length⟩ }], edge, pending, [], []⟩ }

theorem deferring_forest (edge : List ScopeId) (pending : List DeferId) :
    (deferring edge pending).Forest :=
  forest_of_parents_before (show nestedScopes.length < 2 ^ 32 by decide)
    (show ∀ p ∈ nestedScopes.zipIdx, p.1.parent = ABSENT ∨ p.1.parent.toNat < p.2 by decide)

theorem exit_edges_exact_iff_tight_deferring :
    verify 2 (deferring [1, 0] [0, 1]) = .ok [] ∧
      ∀ row ∈ (deferring [1, 0] [0, 1]).exits.rows, (deferring [1, 0] [0, 1]).ExactEdge row := by
  have hv : verify 2 (deferring [1, 0] [0, 1]) = .ok [] := by decide +kernel
  refine ⟨hv, (exit_edges_exact_iff_tight _ 2 (deferring_forest _ _) hv).mpr ?_⟩
  intro row hrow
  obtain rfl := mem_singleton.mp hrow
  refine ⟨?_, ?_, ?_⟩
  · intro hnil
    exact absurd hnil (by decide)
  · intro tos ht s _
    obtain rfl := enclosesTarget_none ht rfl
    exact not_mem_nil
  · intro _ last p hlast hup
    obtain rfl : (0 : ScopeId) = last := Option.some.inj hlast
    obtain rfl : ABSENT = p := Option.some.inj hup
    rfl

/-- The verifier accepts an edge that lists no scope and skips both bodies. -/
theorem verified_edge_skips_bodies :
    ¬ ∀ (d : DeclFmir) (fuel : Nat), d.Forest → verify fuel d = .ok [] →
      ∀ row ∈ d.exits.rows, d.ExactEdge row := by
  intro h
  have hv : verify 2 (deferring [] []) = .ok [] := by decide +kernel
  obtain ⟨id, from_, hfrom, hs, hp, hdis⟩ := checks_of_verify hv mem_cons_self
  have exact := h _ 2 (deferring_forest _ _) hv _ mem_cons_self
  have tight := (exactEdge_iff_tight (deferring_forest _ _) hfrom hs hp hdis).mp exact
  obtain rfl : _ = from_ := Option.some.inj hfrom
  have := tight.empty rfl _ [] hfrom rfl rfl
  simp at this

end Fors.Fmir
