import Fors.Index.Module

/-!
# The search does not see its nodes

Under other names for its nodes, told apart as before and taken in the same order, the search takes
the same steps, and its reports have the same texts.

Principal result: `report_cycles_map`.
-/

namespace Fors.Index

open List

variable {V W : Type} [DecidableEq V] [DecidableEq W] {f : V → W} {adj : V → List (V × Range)}
  {adj' : W → List (W × Range)}

/-- A search state under the other names. -/
structure Carried (f : V → W) (st : Dfs V) (st' : Dfs W) : Prop where
  visited : ∀ v, st'.visited (f v) = st.visited v
  on_stack : ∀ v, st'.on_stack (f v) = st.on_stack v
  stack : st'.stack = st.stack.map f
  edge_in : st'.edge_in = st.edge_in

/-- A result under the other names. -/
def Carries (f : V → W) : Option (Dfs V × Option (Cycle V)) →
    Option (Dfs W × Option (Cycle W)) → Prop :=
  Option.Rel fun r r' => Carried f r.1 r'.1 ∧ r'.2 = r.2.map (Prod.map (List.map f) id)

theorem idxOf_map (hf : f.Injective) (xs : List V) (v : V) :
    (xs.map f).idxOf (f v) = xs.idxOf v := by
  induction xs with
  | nil => rfl
  | cons x xs ih =>
    rw [map_cons]
    by_cases hx : x = v
    · rw [hx, idxOf_cons_self, idxOf_cons_self]
    · have hne : f x ≠ f v := fun h => hx (hf h)
      rw [idxOf_cons_ne _ hne, idxOf_cons_ne _ hx, ih]

theorem dfs_edges_map (hf : f.Injective) {visit : V → Dfs V → Option (Dfs V × Option (Cycle V))}
    {visit' : W → Dfs W → Option (Dfs W × Option (Cycle W))}
    (hvisit : ∀ v st st', Carried f st st' → Carries f (visit v st) (visit' (f v) st')) :
    ∀ (edges : List (V × Range)) (st : Dfs V) (st' : Dfs W), Carried f st st' →
      Carries f (dfs_edges visit edges st) (dfs_edges visit' (edges.map (Prod.map f id)) st') := by
  intro edges
  induction edges with
  | nil =>
    intro st st' h
    exact .some ⟨h, rfl⟩
  | cons e edges ih =>
    intro st st' h
    obtain ⟨v, range⟩ := e
    show Carries f (dfs_edges visit ((v, range) :: edges) st)
      (dfs_edges visit' ((f v, range) :: edges.map (Prod.map f id)) st')
    rw [dfs_edges, dfs_edges, h.on_stack v, h.visited v]
    split
    · refine .some ⟨h, ?_⟩
      simp [h.stack, h.edge_in, idxOf_map hf, map_drop]
    · split
      · exact ih st st' h
      · have hnext : Carried f { st with edge_in := st.edge_in ++ [range] }
            { st' with edge_in := st'.edge_in ++ [range] } :=
          ⟨h.visited, h.on_stack, h.stack, by rw [h.edge_in]⟩
        have hrel := hvisit v _ _ hnext
        generalize visit v { st with edge_in := st.edge_in ++ [range] } = r at hrel
        generalize visit' (f v) { st' with edge_in := st'.edge_in ++ [range] } = r' at hrel
        cases hrel with
        | none => exact .none
        | some hrel =>
          rename_i p p'
          obtain ⟨st1, found⟩ := p
          obtain ⟨st1', found'⟩ := p'
          obtain ⟨hcarried, rfl⟩ := hrel
          cases found with
          | some c => exact .some ⟨hcarried, rfl⟩
          | none =>
            apply ih
            exact ⟨hcarried.visited, hcarried.on_stack, hcarried.stack, by rw [hcarried.edge_in]⟩

theorem update_map (hf : f.Injective) {g : V → Bool} {g' : W → Bool} (h : ∀ v, g' (f v) = g v)
    (u : V) (b : Bool) (v : V) :
    Function.update g' (f u) b (f v) = Function.update g u b v := by
  by_cases hv : v = u
  · simp [hv]
  · have hne : f v ≠ f u := fun heq => hv (hf heq)
    simp [hv, hne, h v]

theorem dfs_map (hf : f.Injective) (hadj : ∀ v, adj' (f v) = (adj v).map (Prod.map f id)) :
    ∀ (fuel : Nat) (u : V) (st : Dfs V) (st' : Dfs W), Carried f st st' →
      Carries f (dfs adj fuel u st) (dfs adj' fuel (f u) st') := by
  intro fuel
  induction fuel with
  | zero =>
    intro u st st' _
    exact .none
  | succ fuel ih =>
    intro u st st' h
    have hnext : Carried f ⟨Function.update st.visited u true, Function.update st.on_stack u true,
        st.stack ++ [u], st.edge_in⟩ ⟨Function.update st'.visited (f u) true,
        Function.update st'.on_stack (f u) true, st'.stack ++ [f u], st'.edge_in⟩ :=
      ⟨update_map hf h.visited u true, update_map hf h.on_stack u true, by simp [h.stack],
        h.edge_in⟩
    have hrel := dfs_edges_map hf ih (adj u) _ _ hnext
    rw [← hadj] at hrel
    rw [dfs, dfs]
    generalize dfs_edges (dfs adj fuel) (adj u) _ = r at hrel
    generalize dfs_edges (dfs adj' fuel) (adj' (f u)) _ = r' at hrel
    cases hrel with
    | none => exact .none
    | some hrel =>
      rename_i p p'
      obtain ⟨st1, found⟩ := p
      obtain ⟨st1', found'⟩ := p'
      obtain ⟨hcarried, rfl⟩ := hrel
      cases found with
      | some c => exact .some ⟨hcarried, rfl⟩
      | none =>
        refine .some ⟨⟨hcarried.visited, update_map hf hcarried.on_stack u false, ?_,
          hcarried.edge_in⟩, rfl⟩
        have hstack : st1'.stack = st1.stack.map f := hcarried.stack
        show st1'.stack.dropLast = st1.stack.dropLast.map f
        rw [hstack, map_dropLast]

theorem find_from_map (hf : f.Injective) (hadj : ∀ v, adj' (f v) = (adj v).map (Prod.map f id))
    (fuel : Nat) : ∀ (order : List V) (visited : V → Bool) (visited' : W → Bool),
      (∀ v, visited' (f v) = visited v) → find_from adj' fuel (order.map f) visited' =
        (find_from adj fuel order visited).map (Option.map (Prod.map (List.map f) id)) := by
  intro order
  induction order with
  | nil =>
    intro visited visited' _
    rfl
  | cons start order ih =>
    intro visited visited' h
    rw [map_cons, find_from, find_from, h start]
    split
    · exact ih visited visited' h
    · have hrel := dfs_map hf hadj fuel start ⟨visited, fun _ => false, [], []⟩
        ⟨visited', fun _ => false, [], []⟩ ⟨h, fun _ => rfl, rfl, rfl⟩
      generalize dfs adj fuel start ⟨visited, fun _ => false, [], []⟩ = r at hrel
      generalize dfs adj' fuel (f start) ⟨visited', fun _ => false, [], []⟩ = r' at hrel
      cases hrel with
      | none => rfl
      | some hrel =>
        rename_i p p'
        obtain ⟨st1, found⟩ := p
        obtain ⟨st1', found'⟩ := p'
        obtain ⟨hcarried, rfl⟩ := hrel
        cases found with
        | some c => rfl
        | none => exact ih st1.visited st1'.visited hcarried.visited

theorem find_one_cycle_map (hf : f.Injective)
    (hadj : ∀ v, adj' (f v) = (adj v).map (Prod.map f id)) (order : List V) :
    find_one_cycle adj' (order.map f) =
      (find_one_cycle adj order).map (Option.map (Prod.map (List.map f) id)) := by
  unfold find_one_cycle
  rw [length_map]
  exact find_from_map hf hadj order.length order _ _ fun _ => rfl

variable {text : V → String} {text' : W → String} {file : V → FileId} {file' : W → FileId}

omit [DecidableEq V] [DecidableEq W] in
theorem min_position_map (htext : ∀ v, text' (f v) = text v) (path : List V) :
    min_position text' (path.map f) = min_position text path := by
  unfold min_position
  rw [length_map]
  congr 1
  funext best i
  rw [getElem?_map, getElem?_map]
  cases path[i]? with
  | none => rfl
  | some u =>
    cases path[best]? with
    | none => rfl
    | some v => simp [htext]

omit [DecidableEq V] [DecidableEq W] in
theorem mapM_getElem?_map (path : List V) (place : Nat → Nat) (ks : List Nat) :
    (ks.mapM fun k => (path.map f)[place k]?) =
      (ks.mapM fun k => path[place k]?).map (List.map f) := by
  induction ks with
  | nil => rfl
  | cons k ks ih =>
    rw [mapM_cons, mapM_cons, ih, getElem?_map]
    cases path[place k]? with
    | none => rfl
    | some u => cases ks.mapM fun k => path[place k]? <;> rfl

theorem remove_map (hf : f.Injective) (hadj : ∀ v, adj' (f v) = (adj v).map (Prod.map f id))
    (tail head v : V) :
    (if f v = f tail then (adj' (f v)).filter (fun e => e.1 ≠ f head) else adj' (f v)) =
      (if v = tail then (adj v).filter (fun e => e.1 ≠ head) else adj v).map (Prod.map f id) := by
  by_cases hv : v = tail
  · rw [if_pos (congrArg f hv), if_pos hv, hadj, filter_map]
    congr 1
    apply filter_congr
    intro e _
    simp [hf.eq_iff]
  · rw [if_neg (fun h => hv (hf h)), if_neg hv, hadj]

theorem report_cycles_map (hf : f.Injective) (htext : ∀ v, text' (f v) = text v)
    (hfile : ∀ v, file' (f v) = file v) (order : List V) :
    ∀ (iters : Nat) (adj : V → List (V × Range)) (adj' : W → List (W × Range))
      (out : List Diagnostic), (∀ v, adj' (f v) = (adj v).map (Prod.map f id)) →
      report_cycles id text' file' (order.map f) iters adj' out =
        report_cycles id text file order iters adj out := by
  intro iters
  induction iters with
  | zero =>
    intro adj adj' out _
    rfl
  | succ iters ih =>
    intro adj adj' out hadj
    rw [report_cycles, report_cycles, find_one_cycle_map hf hadj]
    cases find_one_cycle adj order with
    | none => rfl
    | some found =>
      cases found with
      | none => rfl
      | some c =>
        obtain ⟨path, path_edges⟩ := c
        simp only [Option.map_some, Prod.map_apply, Option.bind_eq_bind, Option.bind_some, id,
          length_map, min_position_map htext]
        generalize min_position text path = pos
        rw [mapM_getElem?_map, getElem?_map, getElem?_map]
        cases (List.range (path.length + 1)).mapM fun k => path[(pos + k) % path.length]? with
        | none => rfl
        | some names =>
          cases path_edges[(pos + path.length - 1) % path.length]? with
          | none => rfl
          | some edge =>
            cases path[(pos + path.length - 1) % path.length]? with
            | none => rfl
            | some tail =>
              cases path[pos]? with
              | none => rfl
              | some head =>
                have htexts : (names.map f).map text' = names.map text := by
                  rw [map_map]
                  exact map_congr_left fun v _ => htext v
                simp only [Option.map_some, Option.bind_some, htexts, hfile]
                exact ih _ _ _ (remove_map hf hadj tail head)

end Fors.Index
