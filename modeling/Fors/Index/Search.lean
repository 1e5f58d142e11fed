import Fors.Index.Module
import Fors.Lib.Graphs

/-!
# The depth-first search finds a cycle exactly where there is one

The nodes that are visited and not on the stack are settled: they have no edge out of their set and
no cycle in it. A node joins them when all its edges lead there; an edge to the stack closes a cycle.

Principal result: `find_one_cycle_spec`.
-/

namespace Fors.Index

open Graphs
open List hiding getElem?_eq_some_iff

variable {V : Type} [DecidableEq V] {adj : V → List (V × Range)} {nodes : List V} {st st' : Dfs V}
  {u v : V} {range : Range}

/-- The edges, whatever their ranges. -/
def Adjacent (adj : V → List (V × Range)) (u v : V) : Prop :=
  ∃ range, (v, range) ∈ adj u

/-- A cycle with the range of each of its edges. -/
structure Closes (adj : V → List (V × Range)) (c : Cycle V) : Prop where
  ne_nil : c.1 ≠ []
  nodup : c.1.Nodup
  length : c.2.length = c.1.length
  edge : ∀ (i : Nat) (u v : V) (range : Range), c.1[i]? = some u →
    c.1[(i + 1) % c.1.length]? = some v → c.2[i]? = some range → (v, range) ∈ adj u

omit [DecidableEq V] in
theorem Closes.isCycle {c : Cycle V} (h : Closes adj c) : IsCycle (Adjacent adj) c.1 := by
  refine ⟨h.ne_nil, h.nodup, ?_⟩
  intro i u v hu hv
  have hi : i < c.2.length := by
    rw [h.length]
    exact (List.getElem?_eq_some_iff.mp hu).1
  exact ⟨_, h.edge i u v _ hu hv (getElem?_eq_getElem hi)⟩

/-! ## The stack -/

/-- A stack of different nodes, each reached from the one below it. -/
structure Stacked (adj : V → List (V × Range)) (stack : List V) (edge_in : List Range) : Prop where
  nodup : stack.Nodup
  length : edge_in.length + 1 = stack.length
  edge : ∀ (i : Nat) (u v : V) (range : Range), stack[i]? = some u → stack[i + 1]? = some v →
    edge_in[i]? = some range → (v, range) ∈ adj u

omit [DecidableEq V] in
theorem stacked_start (u : V) : Stacked adj [u] [] := by
  refine ⟨nodup_singleton u, rfl, ?_⟩
  intro i u' v range _ hv
  simp at hv

omit [DecidableEq V] in
theorem Stacked.push {stack : List V} {edge_in : List Range} (h : Stacked adj (stack ++ [u]) edge_in)
    (hv : (v, range) ∈ adj u) (hnew : v ∉ stack ++ [u]) :
    Stacked adj (stack ++ [u] ++ [v]) (edge_in ++ [range]) := by
  have hlen := h.length
  simp only [length_append, length_singleton] at hlen
  refine ⟨?_, by simp; omega, ?_⟩
  · rw [nodup_append]
    refine ⟨h.nodup, nodup_singleton v, ?_⟩
    intro x hx y hy
    obtain rfl := mem_singleton.mp hy
    rintro rfl
    exact hnew hx
  · intro i x y range' hx hy hrange
    rcases Nat.lt_or_ge i edge_in.length with hi | hi
    · rw [getElem?_append_left (by simp; omega)] at hx hy
      rw [getElem?_append_left hi] at hrange
      exact h.edge i x y range' hx hy hrange
    · have hlt := (List.getElem?_eq_some_iff.mp hrange).1
      simp only [length_append, length_singleton] at hlt
      obtain rfl : i = stack.length := by omega
      rw [getElem?_append_left (by simp), getElem?_append_right (Nat.le_refl _),
        Nat.sub_self] at hx
      rw [getElem?_append_right (by simp)] at hy
      rw [getElem?_append_right (by omega), show stack.length - edge_in.length = 0 by omega]
        at hrange
      obtain rfl : u = x := by simpa using hx
      obtain rfl : v = y := by simpa using hy
      obtain rfl : range = range' := by simpa using hrange
      exact hv

/-- An edge from the top back to the stack closes a cycle. -/
theorem Stacked.closes {stack : List V} {edge_in : List Range} (h : Stacked adj (stack ++ [u]) edge_in)
    (hv : (v, range) ∈ adj u) (hold : v ∈ stack ++ [u]) :
    Closes adj ((stack ++ [u]).drop ((stack ++ [u]).idxOf v),
      edge_in.drop ((stack ++ [u]).idxOf v) ++ [range]) := by
  have hpos : (stack ++ [u]).idxOf v < (stack ++ [u]).length := idxOf_lt_length_of_mem hold
  have hat : (stack ++ [u])[(stack ++ [u]).idxOf v]? = some v := by
    rw [getElem?_eq_getElem hpos, getElem_idxOf hpos]
  have hlen := h.length
  generalize (stack ++ [u]).idxOf v = pos at hpos hat
  have hdrop : ((stack ++ [u]).drop pos).length = stack.length + 1 - pos := by
    simp
  simp only [length_append, length_singleton] at hpos hlen
  refine ⟨?_, ?_, ?_, ?_⟩
  · intro hnil
    have hzero := congrArg List.length hnil
    rw [hdrop] at hzero
    simp at hzero
    omega
  · exact h.nodup.sublist (drop_sublist _ _)
  · show (edge_in.drop pos ++ [range]).length = ((stack ++ [u]).drop pos).length
    rw [hdrop, length_append, length_drop, length_singleton]
    omega
  · intro i x y range' hx hy hrange
    have hi := (List.getElem?_eq_some_iff.mp hx).1
    simp only [hdrop] at hi hy
    rw [getElem?_drop] at hx hy
    rcases Nat.lt_or_ge (i + 1) (stack.length + 1 - pos) with hlt | hge
    · rw [Nat.mod_eq_of_lt hlt] at hy
      rw [getElem?_append_left (by simp; omega), getElem?_drop] at hrange
      exact h.edge (pos + i) x y range' hx hy hrange
    · have hlast : i + 1 = stack.length + 1 - pos := by omega
      rw [hlast, Nat.mod_self, Nat.add_zero, hat] at hy
      rw [show pos + i = stack.length by omega, getElem?_append_right (Nat.le_refl _),
        Nat.sub_self] at hx
      rw [getElem?_append_right (by simp; omega)] at hrange
      obtain rfl : u = x := by simpa using hx
      obtain rfl : v = y := by simpa using hy
      have hend := (List.getElem?_eq_some_iff.mp hrange).1
      rw [length_singleton] at hend
      rw [show i - (edge_in.drop pos).length = 0 by omega] at hrange
      obtain rfl : range = range' := by simpa using hrange
      exact hv

/-! ## What is settled -/

/-- In the middle of a search: what is visited and not on the stack is settled. -/
structure Sound (adj : V → List (V × Range)) (st : Dfs V) : Prop where
  on_stack : ∀ v, st.on_stack v = true ↔ v ∈ st.stack
  visited : ∀ v ∈ st.stack, st.visited v = true
  settled : Settled (Adjacent adj) fun v => st.visited v = true ∧ v ∉ st.stack

/-- A part of the search that closed no cycle: the stack is as before, and more is visited. -/
structure Passed (adj : V → List (V × Range)) (st st' : Dfs V) : Prop where
  sound : Sound adj st'
  stack : st'.stack = st.stack
  edge_in : st'.edge_in = st.edge_in
  visited : ∀ v, st.visited v = true → st'.visited v = true

/-- What is left to visit. -/
def left (nodes : List V) (st : Dfs V) : Nat :=
  (nodes.filter fun v => !st.visited v).length

omit [DecidableEq V] in
theorem left_mono (h : ∀ v, st.visited v = true → st'.visited v = true) :
    left nodes st' ≤ left nodes st := by
  unfold left
  apply Sublist.length_le
  apply monotone_filter_right
  intro v hv
  cases hst : st.visited v with
  | false => rfl
  | true =>
    rw [h v hst] at hv
    cases hv

theorem left_visit (hu : u ∈ nodes) (hnew : st.visited u = false) (on_stack : V → Bool)
    (stack : List V) (edge_in : List Range) :
    left nodes ⟨Function.update st.visited u true, on_stack, stack, edge_in⟩ < left nodes st := by
  unfold left
  have hfilter : (nodes.filter fun v => !Function.update st.visited u true v) =
      (nodes.filter fun v => !st.visited v).filter fun v => v ≠ u := by
    rw [filter_filter]
    apply filter_congr
    intro v _
    by_cases hv : v = u
    · simp [hv]
    · simp [hv]
  rw [hfilter, length_filter_lt_length_iff_exists]
  exact ⟨u, mem_filter.mpr ⟨hu, by simp [hnew]⟩, by simp⟩

/-- A visit of a node whose edge was just taken: no cycle, or one that closes. -/
def Visits (adj : V → List (V × Range)) (nodes : List V) (fuel : Nat)
    (visit : V → Dfs V → Option (Dfs V × Option (Cycle V))) : Prop :=
  ∀ u st, u ∈ nodes → st.visited u = false → left nodes st ≤ fuel → Sound adj st →
    Stacked adj (st.stack ++ [u]) st.edge_in →
    ∃ st' found, visit u st = some (st', found) ∧ match found with
      | some c => Closes adj c
      | none => Passed adj st st' ∧ st'.visited u = true

omit [DecidableEq V] in
theorem Passed.refl (h : Sound adj st) : Passed adj st st :=
  ⟨h, rfl, rfl, fun _ hv => hv⟩

/-- The edges of the node on top: each one leads to a settled node, or a cycle closes. -/
theorem dfs_edges_spec {fuel : Nat} {visit : V → Dfs V → Option (Dfs V × Option (Cycle V))}
    (hvisit : Visits adj nodes fuel visit) (hnodes : ∀ u v, Adjacent adj u v → v ∈ nodes)
    {below : List V} : ∀ (edges : List (V × Range)) (st : Dfs V), (∀ e ∈ edges, e ∈ adj u) →
      st.stack = below ++ [u] → left nodes st ≤ fuel → Sound adj st →
      Stacked adj (below ++ [u]) st.edge_in →
      ∃ st' found, dfs_edges visit edges st = some (st', found) ∧ match found with
        | some c => Closes adj c
        | none => Passed adj st st' ∧ ∀ e ∈ edges, st'.visited e.1 = true ∧ e.1 ∉ st.stack := by
  intro edges
  induction edges with
  | nil =>
    intro st _ _ _ hsound _
    exact ⟨st, none, rfl, Passed.refl hsound, nofun⟩
  | cons e edges ih =>
    intro st hedges hstack hleft hsound hstacked
    obtain ⟨v, range⟩ := e
    have hv : (v, range) ∈ adj u := hedges (v, range) mem_cons_self
    have hrest : ∀ e ∈ edges, e ∈ adj u := fun e he => hedges e (mem_cons_of_mem _ he)
    rw [dfs_edges]
    split
    · next hon =>
      have hmem := (hsound.on_stack v).mp hon
      rw [hstack] at hmem ⊢
      exact ⟨st, _, rfl, hstacked.closes hv hmem⟩
    · next hoff =>
      have hmem : v ∉ st.stack := fun h => hoff ((hsound.on_stack v).mpr h)
      split
      · next hvisited =>
        obtain ⟨st', found, hrun, hfound⟩ := ih st hrest hstack hleft hsound hstacked
        refine ⟨st', found, hrun, ?_⟩
        cases found with
        | some c => exact hfound
        | none =>
          obtain ⟨hpassed, hall⟩ := hfound
          refine ⟨hpassed, ?_⟩
          intro e he
          rcases mem_cons.mp he with rfl | he
          · exact ⟨hpassed.visited v hvisited, hmem⟩
          · exact hall e he
      · next hnew =>
        have hsound' : Sound adj { st with edge_in := st.edge_in ++ [range] } :=
          ⟨hsound.on_stack, hsound.visited, hsound.settled⟩
        have hstacked' : Stacked adj (st.stack ++ [v]) (st.edge_in ++ [range]) := by
          rw [hstack] at hmem ⊢
          exact hstacked.push hv hmem
        obtain ⟨st', found, hrun, hfound⟩ := hvisit v { st with edge_in := st.edge_in ++ [range] }
          (hnodes u v ⟨range, hv⟩) (by simpa using hnew) hleft hsound' hstacked'
        rw [hrun]
        cases found with
        | some c => exact ⟨st', some c, rfl, hfound⟩
        | none =>
          obtain ⟨hpassed, hvisited⟩ := hfound
          have hedge : st'.edge_in.dropLast = st.edge_in := by
            rw [hpassed.edge_in, dropLast_concat]
          have hstack' : st'.stack = below ++ [u] := hpassed.stack.trans hstack
          have hsound'' : Sound adj { st' with edge_in := st'.edge_in.dropLast } :=
            ⟨hpassed.sound.on_stack, hpassed.sound.visited, hpassed.sound.settled⟩
          have hleft' : left nodes { st' with edge_in := st'.edge_in.dropLast } ≤ fuel :=
            Nat.le_trans (left_mono hpassed.visited) hleft
          obtain ⟨st'', found, hrun', hfound⟩ := ih { st' with edge_in := st'.edge_in.dropLast }
            hrest hstack' hleft' hsound'' (by rw [hedge]; exact hstacked)
          refine ⟨st'', found, hrun', ?_⟩
          cases found with
          | some c => exact hfound
          | none =>
            obtain ⟨hpassed', hall⟩ := hfound
            refine ⟨⟨hpassed'.sound, hpassed'.stack.trans hpassed.stack,
              hpassed'.edge_in.trans hedge, ?_⟩, ?_⟩
            · intro w hw
              exact hpassed'.visited w (hpassed.visited w hw)
            · intro e he
              rcases mem_cons.mp he with rfl | he
              · exact ⟨hpassed'.visited v hvisited, hmem⟩
              · obtain ⟨hw, hout⟩ := hall e he
                exact ⟨hw, fun h => hout (by rw [hpassed.stack]; exact h)⟩

/-! ## One node -/

/-- A node that is not visited yet is pushed. -/
theorem Sound.push (h : Sound adj st) (hnew : st.visited u = false) :
    Sound adj ⟨Function.update st.visited u true, Function.update st.on_stack u true,
      st.stack ++ [u], st.edge_in⟩ := by
  refine ⟨?_, ?_, h.settled.congr ?_⟩
  · intro v
    by_cases hv : v = u
    · simp [hv]
    · simp [hv, h.on_stack v]
  · intro v hv
    by_cases hvu : v = u
    · simp [hvu]
    · simp only [mem_append, mem_singleton, hvu, or_false] at hv
      simp [hvu, h.visited v hv]
  · intro v
    by_cases hv : v = u
    · simp [hv, hnew]
    · simp [hv]

/-- A node whose edges all lead to settled nodes is popped. -/
theorem Sound.pop {below : List V} (h : Sound adj st) (hstack : st.stack = below ++ [u])
    (hnodup : (below ++ [u]).Nodup)
    (hall : ∀ e ∈ adj u, st.visited e.1 = true ∧ e.1 ∉ st.stack) :
    Sound adj { st with stack := below, on_stack := Function.update st.on_stack u false } := by
  have hu : u ∉ below := by
    intro hmem
    have hapart := (nodup_append.mp hnodup).2.2 u hmem u mem_cons_self
    exact hapart rfl
  have hin : u ∈ st.stack := by
    rw [hstack]
    simp
  refine ⟨?_, ?_, ?_⟩
  · intro v
    by_cases hv : v = u
    · simp [hv, hu]
    · simp [hv, h.on_stack v, hstack]
  · intro v hv
    exact h.visited v (by rw [hstack]; exact mem_append_left _ hv)
  · have hsettled := h.settled.insert (u := u) (fun hB => hB.2 hin) (by
      rintro v ⟨range, hv⟩
      exact hall (v, range) hv)
    apply hsettled.congr
    intro v
    by_cases hv : v = u
    · simp [hv, hu, h.visited u hin]
    · simp [hv, hstack]

/-- A visit keeps what is settled, or closes a cycle; by induction on how deep it may nest. -/
theorem dfs_visits (hnodes : ∀ u v, Adjacent adj u v → v ∈ nodes) :
    ∀ fuel, Visits adj nodes fuel (dfs adj fuel) := by
  intro fuel
  induction fuel with
  | zero =>
    intro u st hu hnew hleft _ _
    have hin : u ∈ nodes.filter fun v => !st.visited v := mem_filter.mpr ⟨hu, by simp [hnew]⟩
    have hpos := length_pos_of_mem hin
    unfold left at hleft
    omega
  | succ fuel ih =>
    intro u st hu hnew hleft hsound hstacked
    have hlt := left_visit hu hnew (Function.update st.on_stack u true) (st.stack ++ [u]) st.edge_in
    obtain ⟨st', found, hrun, hfound⟩ := dfs_edges_spec ih hnodes (adj u) _ (fun _ he => he) rfl
      (by omega) (hsound.push hnew) hstacked
    rw [dfs, hrun]
    cases found with
    | some c => exact ⟨st', some c, rfl, hfound⟩
    | none =>
      obtain ⟨hpassed, hall⟩ := hfound
      have hstack : st'.stack = st.stack ++ [u] := hpassed.stack
      have hpop := hpassed.sound.pop hstack hstacked.nodup (by
        intro e he
        obtain ⟨hvisited, hout⟩ := hall e he
        exact ⟨hvisited, by rw [hstack]; exact hout⟩)
      have hdrop : st'.stack.dropLast = st.stack := by
        rw [hstack, dropLast_concat]
      refine ⟨_, none, rfl, ⟨?_, hdrop, hpassed.edge_in, ?_⟩, ?_⟩
      · rw [hdrop]
        exact hpop
      · intro v hv
        apply hpassed.visited
        by_cases hvu : v = u
        · simp [hvu]
        · simpa [hvu] using hv
      · apply hpassed.visited
        simp

/-! ## The whole search -/

omit [DecidableEq V] in
theorem sound_start {visited : V → Bool}
    (h : Settled (Adjacent adj) fun v => visited v = true) :
    Sound adj ⟨visited, fun _ => false, [], []⟩ := by
  refine ⟨?_, ?_, h.congr ?_⟩
  · intro v
    simp
  · intro v hv
    cases hv
  · intro v
    simp

theorem find_from_spec (hnodes : ∀ u v, Adjacent adj u v → v ∈ nodes) :
    ∀ (order : List V) (visited : V → Bool), (∀ v ∈ order, v ∈ nodes) →
      Settled (Adjacent adj) (fun v => visited v = true) →
      ∃ found, find_from adj nodes.length order visited = some found ∧ match found with
        | some c => Closes adj c
        | none => ∃ visited' : V → Bool, Settled (Adjacent adj) (fun v => visited' v = true) ∧
          (∀ v, visited v = true → visited' v = true) ∧ ∀ v ∈ order, visited' v = true := by
  intro order
  induction order with
  | nil =>
    intro visited _ hsettled
    exact ⟨none, rfl, visited, hsettled, fun _ hv => hv, nofun⟩
  | cons start order ih =>
    intro visited horder hsettled
    have hrest : ∀ v ∈ order, v ∈ nodes := fun v hv => horder v (mem_cons_of_mem _ hv)
    rw [find_from]
    split
    · next hold =>
      obtain ⟨found, hrun, hfound⟩ := ih visited hrest hsettled
      refine ⟨found, hrun, ?_⟩
      cases found with
      | some c => exact hfound
      | none =>
        obtain ⟨visited', hsettled', hmono, hall⟩ := hfound
        refine ⟨visited', hsettled', hmono, ?_⟩
        intro v hv
        rcases mem_cons.mp hv with rfl | hv
        · exact hmono v hold
        · exact hall v hv
    · next hnew =>
      obtain ⟨st', found, hrun, hfound⟩ := dfs_visits hnodes nodes.length start
        ⟨visited, fun _ => false, [], []⟩ (horder start mem_cons_self) (by simpa using hnew)
        (length_filter_le _ _) (sound_start hsettled) (stacked_start start)
      rw [hrun]
      cases found with
      | some c => exact ⟨some c, rfl, hfound⟩
      | none =>
        obtain ⟨hpassed, hvisited⟩ := hfound
        have hsettled' : Settled (Adjacent adj) fun v => st'.visited v = true := by
          apply hpassed.sound.settled.congr
          intro v
          simp [hpassed.stack]
        obtain ⟨found, hrun', hfound⟩ := ih st'.visited hrest hsettled'
        refine ⟨found, hrun', ?_⟩
        cases found with
        | some c => exact hfound
        | none =>
          obtain ⟨visited', hsettled'', hmono, hall⟩ := hfound
          refine ⟨visited', hsettled'', fun v hv => hmono v (hpassed.visited v hv), ?_⟩
          intro v hv
          rcases mem_cons.mp hv with rfl | hv
          · exact hmono v hvisited
          · exact hall v hv

/-- The search ends, and finds a cycle where there is one. -/
theorem find_one_cycle_spec {order : List V} (horder : ∀ u v, Adjacent adj u v → v ∈ order) :
    ∃ found, find_one_cycle adj order = some found ∧ match found with
      | some c => Closes adj c
      | none => Acyclic (Adjacent adj) := by
  have hnothing : Settled (Adjacent adj) fun _ => false = true := ⟨nofun, nofun⟩
  obtain ⟨found, hrun, hfound⟩ := find_from_spec horder order (fun _ => false) (fun _ hv => hv)
    hnothing
  refine ⟨found, hrun, ?_⟩
  cases found with
  | some c => exact hfound
  | none =>
    obtain ⟨visited, hsettled, -, hall⟩ := hfound
    intro v hcycle
    obtain ⟨u, -, huv⟩ := Relation.TransGen.tail'_iff.mp hcycle
    exact hsettled.acyclic v (hall v (horder u v huv)) hcycle

end Fors.Index
