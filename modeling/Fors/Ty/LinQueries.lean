import Fors.Ty.Search
import Fors.Ty.Inverse

/-!
# Queries that share a memo

Every query of a run is right when its own descent gives up on no linear type, whatever was asked
before it. A descent that reaches the depth guard answers `false`, and the memo keeps that answer.

Principal result: `lin_is_linearity`.
-/

namespace Fors.Ty

open Trees TyStore Matching Descent List Option

/-! ## Runs -/

inductive Query where
  | lin (t : TyId)
  | droppable (t : TyId)
  | lin_components (t : TyId)
  deriving DecidableEq

/-- An operation of the store, or a query. -/
inductive QueryStep where
  | op (op : Op)
  | ask (q : Query)

def Query.ty : Query → TyId
  | .lin t => t
  | .droppable t => t
  | .lin_components t => t

def ask (k : Keys) (sigs : SigStore) (env : LinEnv) (s : TyStore) (m : Memo) :
    Query → Option (TyStore × Memo × Bool)
  | .lin t => lin k sigs env s m t
  | .droppable t => droppable k sigs env s m t
  | .lin_components t => lin_components k sigs env s m t

/-- What was asked, of which store, and what the answer was. -/
abbrev Answer := TyStore × Query × Bool

def run_queries (k : Keys) (sigs : SigStore) (env : LinEnv) :
    List QueryStep → TyStore → Memo → Option (TyStore × List Answer)
  | [], s, _ => some (s, [])
  | .op op :: steps, s, m => do
    let (s, _) ← s.step k op
    run_queries k sigs env steps s m
  | .ask q :: steps, s, m => do
    let (s', m, v) ← ask k sigs env s m q
    let (s', answers) ← run_queries k sigs env steps s' m
    some (s', (s, q, v) :: answers)

/-! ## What a query asks -/

/-- The type asked about is there, and its descent gives up on no linear type. -/
def Answerable (D : Decls) (env : LinEnv) (s : TyStore) (q : Query) : Prop :=
  q.ty < s.rows.length ∧
    match q with
    | .lin t | .droppable t => Within (linear_parts D env) 65 (requal .NONE (s.tree t))
    | .lin_components t => Visits (linear_parts D env) (Within (linear_parts D env) 64)
        (by_value_parts D env (requal .NONE (s.tree t)))

/-- The answer by the definition. -/
def Answers (D : Decls) (env : LinEnv) (s : TyStore) (q : Query) (v : Bool) : Prop :=
  match q with
  | .lin t => v = true ↔ Linear D env (requal .NONE (s.tree t)) ∨ RigidLinear env s t
  | .droppable t => v = true ↔ ¬ (Linear D env (requal .NONE (s.tree t)) ∨ RigidLinear env s t)
  | .lin_components t => v = true ↔
    ∃ c, some c ∈ by_value_parts D env (requal .NONE (s.tree t)) ∧ Linear D env c

variable {k : Keys} {sigs : SigStore} {env : LinEnv} {s0 s s' : TyStore} {m m' : Memo} {v : Bool}
  {q : Query} {steps : List QueryStep} {answers : List Answer}

theorem ask_extends (hrun : ask k sigs env s m q = some (s', m', v)) : s.Extends s' := by
  cases q with
  | lin t => exact grows_lin_uncached s m t s' m' v hrun
  | droppable t =>
    obtain ⟨⟨s1, m1, w⟩, hlin, hrun⟩ := bind_eq_some_iff.mp hrun
    obtain ⟨rfl, rfl, rfl⟩ := answer_inj hrun
    exact grows_lin_uncached s m t s1 m1 w hlin
  | lin_components t =>
    obtain ⟨row, hrow, hrun⟩ := bind_eq_some_iff.mp hrun
    obtain ⟨⟨s1, cs⟩, hparts, hany⟩ := bind_eq_some_iff.mp hrun
    exact (lin_parts_extends hparts).trans (any_lin_extends grows_lin_uncached hany)

theorem ask_spec (hs0 : s0.Good k) (hover : SigsOver sigs s0)
    (hacyclic : Acyclic (rule sigs s0 env)) (hrun : ask k sigs env s m q = some (s', m', v))
    (hfit : s'.Fits) (h : Searching k sigs s0 env s m [])
    (hq : Answerable (decls sigs s0) env s q) :
    Searching k sigs s0 env s' m' [] ∧ Answers (decls sigs s0) env s q v := by
  have hsearches := fun {n} => @searches_lin_uncached k sigs env s0 n hs0 hover hacyclic
  cases q with
  | lin t =>
    obtain ⟨hsearch, hv⟩ :=
      hsearches (Nat.le_refl 65) s m t s' m' v hrun hfit [] h hq.1 (.nil _) hq.2
    exact ⟨hsearch, hv.trans (or_congr_right (and_iff_right rfl))⟩
  | droppable t =>
    obtain ⟨⟨s1, m1, w⟩, hlin, hrun⟩ := bind_eq_some_iff.mp hrun
    obtain ⟨rfl, rfl, rfl⟩ := answer_inj hrun
    obtain ⟨hsearch, hw⟩ :=
      hsearches (Nat.le_refl 65) s m t s1 m1 w hlin hfit [] h hq.1 (.nil _) hq.2
    refine ⟨hsearch, ?_⟩
    rw [Answers, Bool.not_eq_true', Bool.eq_false_iff]
    exact not_congr (hw.trans (or_congr_right (and_iff_right rfl)))
  | lin_components t =>
    obtain ⟨row, hrow, hrun⟩ := bind_eq_some_iff.mp hrun
    obtain ⟨⟨s1, cs⟩, hparts, hany⟩ := bind_eq_some_iff.mp hrun
    have htwin := (h.good.tree_unqual hrow).2
    obtain ⟨-, hvisits⟩ := hq
    simp only [← htwin] at hvisits
    rw [Answers, ← htwin]
    exact search_parts hs0 hover grows_lin_uncached (hsearches (show 64 ≤ 65 by decide))
      (by decide) hparts hany hfit h (fun _ _ => .nil _) hvisits

theorem run_queries_extends (hrun : run_queries k sigs env steps s m = some (s', answers)) :
    s.Extends s' := by
  induction steps generalizing s m answers with
  | nil =>
    obtain ⟨rfl, -⟩ := Prod.mk.inj (some.inj hrun)
    exact .refl s
  | cons step steps ih =>
    cases step with
    | op op =>
      obtain ⟨⟨s1, id⟩, hstep, hrest⟩ := bind_eq_some_iff.mp hrun
      exact (kept_extends.step hstep).trans (ih hrest)
    | ask q =>
      obtain ⟨⟨s1, m1, v⟩, hask, hrun⟩ := bind_eq_some_iff.mp hrun
      obtain ⟨⟨s2, rest⟩, hrest, hrun⟩ := bind_eq_some_iff.mp hrun
      obtain ⟨rfl, -⟩ := Prod.mk.inj (some.inj hrun)
      exact (ask_extends hask).trans (ih hrest)

theorem run_queries_answers (hs0 : s0.Good k) (hover : SigsOver sigs s0)
    (hacyclic : Acyclic (rule sigs s0 env)) (htyped : ∀ op, .op op ∈ steps → op.Typed)
    (hrun : run_queries k sigs env steps s m = some (s', answers)) (hfit : s'.Fits)
    (h : Searching k sigs s0 env s m [])
    (hanswerable : ∀ a ∈ answers, Answerable (decls sigs s0) env a.1 a.2.1) :
    ∀ a ∈ answers, Answers (decls sigs s0) env a.1 a.2.1 a.2.2 := by
  induction steps generalizing s m answers with
  | nil =>
    obtain ⟨-, rfl⟩ := Prod.mk.inj (some.inj hrun)
    exact fun a ha => absurd ha not_mem_nil
  | cons step steps ih =>
    have htail : ∀ op, .op op ∈ steps → op.Typed := fun op hop =>
      htyped op (mem_cons_of_mem _ hop)
    cases step with
    | op op =>
      obtain ⟨⟨s1, id⟩, hstep, hrest⟩ := bind_eq_some_iff.mp hrun
      have hfit1 := (run_queries_extends hrest).fits hfit
      have hgood := good_step (htyped op mem_cons_self) h.good hstep hfit1
      exact ih htail hrest (h.extends (kept_extends.step hstep) hgood) hanswerable
    | ask q =>
      obtain ⟨⟨s1, m1, v⟩, hask, hrun⟩ := bind_eq_some_iff.mp hrun
      obtain ⟨⟨s2, rest⟩, hrest, hrun⟩ := bind_eq_some_iff.mp hrun
      cases hrun
      rw [forall_mem_cons] at hanswerable
      have hfit1 := (run_queries_extends hrest).fits hfit
      obtain ⟨hsearch, hv⟩ := ask_spec hs0 hover hacyclic hask hfit1 h hanswerable.1
      exact forall_mem_cons.mpr ⟨hv, ih htail hrest hsearch hanswerable.2⟩

/-- `TY_ERROR` is the row that `new` interns for it. -/
theorem hasError_of_new (hnew : new k = some s) (hfit : s.Fits) : HasError s := by
  simp only [new, bind_eq_bind, bind_eq_some_iff, Prod.exists] at hnew
  obtain ⟨s1, empty, h1, s2, err, h2, s3, unit, h3, s4, never, h4, h⟩ := hnew
  split at h
  · rename_i hids
    cases h
    have hext := (extends_intern h3).trans (extends_intern h4)
    have hfit1 := (extends_intern h2).fits (hext.fits hfit)
    have hinv := (inv_intern_args (inv_blank k) h1 hfit1).1
    obtain ⟨-, row, hrow, hcontent⟩ := inv_intern hinv h2 (hext.fits hfit)
    rw [hids.2.1] at hrow
    exact HasError.extends ⟨row, hrow, congrArg Prod.fst hcontent⟩ hext
  · exact nomatch h

/-- Linearity by the definition: every query whose descent finds the components it visits, and
gives up on no linear one, is answered right, whatever was asked before it. -/
theorem lin_is_linearity {ops : List Op} (h : Reached k ops s) (htyped : ∀ op ∈ ops, op.Typed)
    (hover : SigsOver sigs s) (hacyclic : Acyclic (linear_parts (decls sigs s) env))
    (hsteps : ∀ op, .op op ∈ steps → op.Typed)
    (hrun : run_queries k sigs env steps s [] = some (s', answers)) (hfit : s'.Fits)
    (hanswerable : ∀ a ∈ answers, Answerable (decls sigs s) env a.1 a.2.1) :
    ∀ a ∈ answers, Answers (decls sigs s) env a.1 a.2.1 a.2.2 := by
  obtain ⟨s0, hnew, hreach⟩ := h
  have hfit_s := (run_queries_extends hrun).fits hfit
  have hfit0 := (kept_extends.run hreach).fits hfit_s
  have hgood := good_run htyped (good_new hnew hfit0) hreach hfit_s
  have herror := (hasError_of_new hnew hfit0).extends (kept_extends.run hreach)
  exact run_queries_answers hgood hover hacyclic hsteps hrun hfit
    ⟨.refl s, hgood, herror, by simp, by simp⟩ hanswerable

/-! ## A run -/

/-- `struct 0[T] { x: T }`, where row 3 is `T`. -/
def boxed : SigStore :=
  [⟨[.Field 3], 1⟩]

/-- Type 7 is linear. -/
def seven_linear : LinEnv where
  roots := [7]
  by_value := []
  own := []
  opaque_ := []
  rigid_linear := []

def leaf (head : Head) : Rose Label :=
  .node ⟨head, (0, 0), .NONE⟩ []

def boxed_decls : Decls where
  fields d := if d = 0 then [leaf (.Param 0 0)] else []
  generics d := if d = 0 then 1 else 0

theorem decls_boxed (h : s.tree 3 = leaf (.Param 0 0)) : decls boxed s = boxed_decls := by
  rw [decls, boxed_decls]
  congr 1
  · funext d
    cases d with
    | zero => simp [boxed, raw_components, raw_member, h]
    | succ d => simp [boxed]
  · funext d
    cases d with
    | zero => simp [boxed]
    | succ d => simp [boxed]

theorem sigsOver_boxed (h : 3 < s.rows.length) : SigsOver boxed s := by
  intro d sig hsig
  cases d with
  | zero =>
    cases hsig
    exact ⟨[3], rfl, by simpa using h⟩
  | succ d => cases hsig

def boxed_rank (T : Rose Label) : Nat :=
  2 * nodes T + if T.label.head = .Nominal 0 then 1 else 0

theorem boxed_rank_requal (q : Quals) (T : Rose Label) : boxed_rank (requal q T) = boxed_rank T := by
  cases T
  rfl

theorem boxed_rank_lt {l : Label} {c : Rose Label} {cs : List (Rose Label)} (h : c ∈ cs) :
    boxed_rank c < boxed_rank (.node l cs) := by
  have hle := nodes_le_of_mem h
  rw [boxed_rank, boxed_rank, nodes]
  split <;> omega

theorem boxed_parts (l : Label) (cs : List (Rose Label)) :
    by_value_parts boxed_decls seven_linear (.node l cs) =
      if l.head = .Nominal 0 ∧ cs = [] then [some (leaf (.Param 0 0))]
      else if l.head = .Nominal 0 then (cs.take 1).map fun c => some (requal .NONE c)
      else if l.head = .Tuple then cs.map fun c => some (requal .NONE c)
      else [] := by
  by_cases hn : l.head.tag = .Nominal
  · obtain ⟨head, spare, quals⟩ := l
    cases head with
    | Nominal d =>
      rw [by_value_parts_nominal rfl]
      match d, cs with
      | 0, [] => rfl
      | 0, c :: cs => rfl
      | d + 1, [] => rfl
      | d + 1, c :: cs => rfl
    | _ => exact nomatch hn
  · by_cases ht : l.head = .Tuple
    · rw [by_value_parts_tuple ht]
      simp [ht]
    · have htag : l.head.tag ≠ .Tuple := fun htag => by
        cases hhead : l.head <;> simp_all [Head.tag]
      have hzero : l.head ≠ .Nominal 0 := fun hzero => hn (by rw [hzero]; rfl)
      rw [by_value_parts_other (T := .node l cs) hn htag]
      simp [hzero, ht]

theorem acyclic_boxed : Acyclic (linear_parts boxed_decls seven_linear) := by
  refine acyclic_of_rank boxed_rank fun x c hc => ?_
  obtain ⟨l, cs⟩ := x
  have hchildren : ∀ {ds : List (Rose Label)}, ds ⊆ cs →
      some c ∈ ds.map (fun c => some (requal .NONE c)) →
      boxed_rank c < boxed_rank (.node l cs) := by
    intro ds hds hmem
    obtain ⟨d, hd, heq⟩ := mem_map.mp hmem
    cases heq
    rw [boxed_rank_requal]
    exact boxed_rank_lt (hds hd)
  change some c ∈ by_value_parts boxed_decls seven_linear (.node l cs) at hc
  rw [boxed_parts] at hc
  split at hc
  · rename_i hnil
    obtain rfl := some.inj (mem_singleton.mp hc)
    simp [boxed_rank, hnil.1, hnil.2, Rose.label, leaf, nodes, nodesList]
  · split at hc
    · exact hchildren (take_subset 1 cs) hc
    · split at hc
      · exact hchildren (List.Subset.refl cs) hc
      · exact absurd hc not_mem_nil

/-- A box of a linear type is linear. -/
theorem lin_is_linearity_boxed : ∃ s s' answers, Reached colliding [.param 0 0, .nominal_of 7 [],
      .nominal_of 0 [4]] s ∧
    run_queries colliding boxed seven_linear [.ask (.lin 5)] s [] = some (s', answers) ∧
    ∀ a ∈ answers, Answers (decls boxed s) seven_linear a.1 a.2.1 a.2.2 := by
  have h : ((new colliding).bind (run colliding [.param 0 0, .nominal_of 7 [],
      .nominal_of 0 [4]])).map (fun s => (s.tree 3, s.tree 5)) =
      some (leaf (.Param 0 0), .node ⟨.Nominal 0, (0, 0), .NONE⟩ [leaf (.Nominal 7)]) := by
    decide +kernel
  have hsizes : ((new colliding).bind (run colliding [.param 0 0, .nominal_of 7 [],
      .nominal_of 0 [4]])).map sizes = some ((6, 1, 2), (0, 0, 0), 0, 0, 0) := by
    decide +kernel
  have hlin : ((new colliding).bind (run colliding [.param 0 0, .nominal_of 7 [],
      .nominal_of 0 [4]])).bind (fun s => (lin colliding boxed seven_linear s [] 5).map fun r =>
        (sizes r.1, r.2.2)) = some (((6, 1, 2), (0, 0, 0), 0, 0, 0), true) := by
    decide +kernel
  obtain ⟨s, hs, htrees⟩ := map_eq_some_iff.mp h
  rw [hs] at hsizes hlin
  obtain ⟨s0, hnew, hrun⟩ := bind_eq_some_iff.mp hs
  obtain ⟨hparam, hbox⟩ := Prod.mk.inj htrees
  have hsizes := some.inj hsizes
  obtain ⟨⟨s', m, v⟩, hlin, hcols⟩ := map_eq_some_iff.mp hlin
  obtain ⟨hsizes', rfl⟩ := Prod.mk.inj hcols
  have hreached : Reached colliding _ s := ⟨s0, hnew, hrun⟩
  have hrows : s.rows.length = 6 := (Prod.mk.inj (Prod.mk.inj hsizes).1).1
  have hfit' := fits_of_sizes hsizes' (by omega) (by omega) (by omega) (by omega)
  have hqueries : run_queries colliding boxed seven_linear [.ask (.lin 5)] s [] =
      some (s', [(s, .lin 5, true)]) := by
    simp [run_queries, ask, hlin]
  have hover : SigsOver boxed s := sigsOver_boxed (by omega)
  have hacyclic : Acyclic (linear_parts (decls boxed s) seven_linear) := by
    rw [decls_boxed hparam]
    exact acyclic_boxed
  refine ⟨s, s', _, hreached, hqueries, lin_is_linearity hreached (by simp [Op.Typed]) hover hacyclic
    (by simp) hqueries hfit' ?_⟩
  rw [forall_mem_singleton, decls_boxed hparam]
  refine ⟨show 5 < s.rows.length by omega, ?_⟩
  have hparts : by_value_parts boxed_decls seven_linear
      (.node ⟨.Nominal 0, (0, 0), .NONE⟩ [leaf (.Nominal 7)]) = [some (leaf (.Nominal 7))] := by
    decide
  have hseven : DeclaredLinear seven_linear (leaf (.Nominal 7)) := ⟨7, rfl, .inl (by decide)⟩
  change Within _ 65 (requal .NONE (s.tree 5))
  rw [hbox]
  refine .inr ?_
  change Visits _ _ (by_value_parts boxed_decls seven_linear
    (.node ⟨.Nominal 0, (0, 0), .NONE⟩ [leaf (.Nominal 7)]))
  rw [hparts]
  exact ⟨_, rfl, .inl hseven, fun hno => absurd (.own hseven) hno⟩

/-! ## The depth guard -/

/-- `n` tuples around a type of the declaration 7, which row 4 is. -/
def nested (n : Nat) : List Op :=
  .param 0 0 :: .nominal_of 7 [] :: (List.range n).map fun i => .tuple_of [4 + i]

def nest : Nat → Rose Label
  | 0 => leaf (.Nominal 7)
  | n + 1 => .node ⟨.Tuple, (0, 0), .NONE⟩ [nest n]

theorem requal_nest (n : Nat) : requal .NONE (nest n) = nest n := by
  cases n <;> rfl

theorem linear_nest (D : Decls) (n : Nat) : Linear D seven_linear (nest n) := by
  induction n with
  | zero => exact .own ⟨7, rfl, .inl (by decide)⟩
  | succ n ih =>
    refine .part (c := nest n) ?_ ih
    change some (nest n) ∈ by_value_parts D seven_linear (nest (n + 1))
    rw [nest, by_value_parts_tuple rfl, map_singleton, requal_nest]
    exact mem_singleton_self _

/-- Keys that tell nested tuples apart. -/
def spread : Keys where
  args xs := xs.headD 0
  trait_ref _ := 0
  proj_key _ := 0
  fn_ty _ := 0
  brand _ := 0
  const _ := 0
  row c := c.2.2.1

/-- What the queries of a run answer. -/
def answers_of (s : TyStore) (qs : List Query) : Option (List Bool) :=
  (run_queries spread boxed seven_linear (qs.map .ask) s []).map fun r => r.2.map fun a => a.2.2

/-- The guard hides a linear type below 65 tuples, and the memo keeps the answer for the tuples
inside; asked from the inside, all of them are linear. -/
theorem depth_guard_hides : ∃ s, Reached spread (nested 65) s ∧ s.Fits ∧ SigsOver boxed s ∧
    Acyclic (linear_parts (decls boxed s) seven_linear) ∧
    Linear (decls boxed s) seven_linear (requal .NONE (s.tree 68)) ∧
    Linear (decls boxed s) seven_linear (requal .NONE (s.tree 69)) ∧
    answers_of s [.lin 69, .lin 68] = some [false, false] ∧
    answers_of s [.lin 68, .lin 69] = some [true, true] := by
  have h : ((new spread).bind (run spread (nested 65))).map (fun s =>
      (decide (sizes s = ((70, 65, 66), (0, 0, 0), 0, 0, 0)) &&
        decide (s.tree 3 = leaf (.Param 0 0)) && decide (s.tree 68 = nest 64) &&
        decide (s.tree 69 = nest 65) &&
        decide (answers_of s [.lin 69, .lin 68] = some [false, false]) &&
        decide (answers_of s [.lin 68, .lin 69] = some [true, true]))) = some true := by
    decide +kernel
  obtain ⟨s, hs, hcheck⟩ := map_eq_some_iff.mp h
  obtain ⟨s0, hnew, hrun⟩ := bind_eq_some_iff.mp hs
  simp only [Bool.and_eq_true, decide_eq_true_eq, and_assoc] at hcheck
  obtain ⟨hsizes, hparam, htree, htree', hanswers, hanswers'⟩ := hcheck
  have hfit := fits_of_sizes hsizes (by omega) (by omega) (by omega) (by omega)
  have hrows : s.rows.length = 70 := (Prod.mk.inj (Prod.mk.inj hsizes).1).1
  refine ⟨s, ⟨s0, hnew, hrun⟩, hfit, sigsOver_boxed (by omega), ?_, ?_, ?_, hanswers, hanswers'⟩
  · rw [decls_boxed hparam]
    exact acyclic_boxed
  · rw [htree, requal_nest]
    exact linear_nest _ 64
  · rw [htree', requal_nest]
    exact linear_nest _ 65

end Fors.Ty
