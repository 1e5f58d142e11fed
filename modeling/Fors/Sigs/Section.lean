import Fors.Sigs.Cuts

/-!
# A type section determines its types

Entries come after those of their children, so a section is read back from the front: each entry
is cut off, and the positions in it name types that are known already.

Principal result: `cut_section`.
-/

namespace Fors.Sigs

open Fors.Ty Trees PrefixCode MapM List Option

/-- Every constructor in the type has the children it needs. -/
def Formed (t : PTy) : Prop :=
  ∀ u : PTy, Rose.Sub u t → u.label.shape.Arity u.children.length

theorem Formed.child {m : Mark} {cs : List PTy} (h : Formed (.node m cs)) {u : PTy}
    (hu : u ∈ cs) : Formed u :=
  fun w hw => h w (.child hu hw)

/-! ## Shown types are formed -/

variable {c : Ctx} {us : List PTy}

theorem fn_arity {params : List (Conv × TyId)} {result raises : TyId}
    (h : (params.map Prod.snd ++ result :: if raises = NO_TY then [] else [raises]).mapM c.ty =
      some us) :
    us.length = (params.map Prod.fst).length + 1 + (decide (raises ≠ NO_TY)).toNat := by
  rw [length_of_mapM h, length_append, length_cons, length_map, length_map]
  by_cases hno : raises = NO_TY
  · simp [hno]
  · simp [hno]

/-- A row's label has the children of its row. -/
theorem shape_arity {tag : TyTag} {a b : Nat} {q : Quals} {l : Label} {cs : List TyId} {s : Shape} (hnode : c.fir.tys.node_of (tag, a, b, q) = some (l, cs))
    (hs : c.shape l.head = some s) (hus : cs.mapM c.ty = some us) : s.Arity us.length := by
  cases tag with
  | Error | Unit | Never =>
    cases hnode
    cases hs
    cases hus
    rfl
  | Prim =>
    cases hnode
    obtain ⟨hlt, hs⟩ := ite_none_right_eq_some.mp hs
    cases hs
    cases hus
    exact ⟨rfl, hlt⟩
  | Param =>
    cases hnode
    obtain ⟨o, -, hlt, rfl⟩ := Ctx.shape_param hs
    cases hus
    exact ⟨rfl, hlt⟩
  | Brand =>
    obtain ⟨row, -, hnode⟩ := bind_eq_some_iff.mp hnode
    cases hnode
    cases hus
    cases row with
    | Param o i =>
      obtain ⟨o, -, hlt, rfl⟩ := Ctx.shape_brand hs
      exact ⟨rfl, hlt⟩
    | Fresh o i => cases hs
  | Nominal =>
    obtain ⟨xs, -, hnode⟩ := bind_eq_some_iff.mp hnode
    cases hnode
    obtain ⟨p, -, rfl⟩ := map_eq_some_iff.mp hs
    exact trivial
  | Tuple =>
    obtain ⟨xs, -, hnode⟩ := bind_eq_some_iff.mp hnode
    cases hnode
    cases hs
    exact trivial
  | Dyn =>
    obtain ⟨⟨d, args⟩, -, hnode⟩ := bind_eq_some_iff.mp hnode
    obtain ⟨xs, -, hnode⟩ := bind_eq_some_iff.mp hnode
    cases hnode
    obtain ⟨p, -, rfl⟩ := map_eq_some_iff.mp hs
    exact trivial
  | Fn =>
    obtain ⟨⟨params, result, raises, closure⟩, -, hnode⟩ := bind_eq_some_iff.mp hnode
    cases hnode
    cases hs
    exact fn_arity hus
  | Proj =>
    obtain ⟨⟨tr, name⟩, -, hnode⟩ := bind_eq_some_iff.mp hnode
    obtain ⟨⟨d, args⟩, -, hnode⟩ := bind_eq_some_iff.mp hnode
    obtain ⟨xs, -, hnode⟩ := bind_eq_some_iff.mp hnode
    cases hnode
    obtain ⟨p, -, hs⟩ := bind_eq_some_iff.mp hs
    obtain ⟨n, -, hs⟩ := bind_eq_some_iff.mp hs
    cases hs
    obtain ⟨u, us, rfl, -, -⟩ := mapM_cons_eq_some.mp hus
    exact Nat.succ_pos _
  | ConstVal =>
    rw [TyStore.node_of] at hnode
    cases hv : c.fir.tys.consts[a]? with
    | none =>
      rw [hv] at hnode
      cases hnode
      cases hs
    | some v =>
      rw [hv] at hnode
      cases hnode
      obtain ⟨w, -, rfl⟩ := map_eq_some_iff.mp hs
      exact length_of_mapM hus

theorem formed_ty {k : Keys} (hc : c.Interned k) {t : TyId} {T : PTy}
    (hT : c.ty t = some T) : Formed T := by
  induction t using Nat.strongRecOn generalizing T with
  | ind t ih =>
    obtain ⟨row, l, cs, hrow, hnode, hdown, hm, hus⟩ := Ctx.ty_cases hc hT
    intro u hu
    cases hu with
    | refl => exact shape_arity hnode (Ctx.mark_eq_some.mp hm).2.1 hus
    | child hmem hsub =>
      obtain ⟨x, hx, hxu⟩ := exists_of_mem_mapM hus hmem
      exact ih x (hdown x hx) hxu u hsub

/-! ## Types of a section -/

/-- Types in an order where children come first. -/
inductive Built : List PTy → Prop
  | nil : Built []
  | snoc {seen : List PTy} {t : PTy} (h : Built seen) (hchildren : ∀ u ∈ t.children, u ∈ seen)
      (hform : t.label.shape.Arity t.children.length) : Built (seen ++ [t])

variable {seen : List PTy}

theorem Built.closed (h : Built seen) : Closed seen := by
  induction h with
  | nil => exact fun _ h => nomatch h
  | snoc _ hchildren _ ih =>
    intro t ht u hu
    obtain ht | ht := mem_append.mp ht
    · exact mem_append_left _ (ih t ht u hu)
    · obtain rfl := mem_singleton.mp ht
      exact mem_append_left _ (hchildren u hu)

mutual

theorem built_visit : ∀ (t : PTy) {seen : List PTy}, Formed t → Built seen → Built (visit t seen)
  | .node m cs, seen, hform, h => by
    by_cases hmem : .node m cs ∈ seen
    · rwa [visit_of_mem hmem]
    · rw [visit_node hmem]
      exact .snoc (built_visits cs (fun u hu => hform.child hu) h) (fun u hu => mem_visits hu seen)
        (hform _ (.refl _))

theorem built_visits : ∀ (ts : List PTy) {seen : List PTy}, (∀ t ∈ ts, Formed t) → Built seen →
    Built (visits ts seen)
  | [], _, _, h => h
  | t :: ts, _, hform, h =>
    built_visits ts (fun u hu => hform u (mem_cons_of_mem _ hu))
      (built_visit t (hform t mem_cons_self) h)

end

theorem idxOf_inj {t u : PTy} (ht : t ∈ seen) (h : seen.idxOf t = seen.idxOf u) : t = u :=
  (List.idxOf_inj ht).mp h

theorem map_idxOf_inj {ts : List PTy} (hts : ∀ t ∈ ts, t ∈ seen)
    (h : (ts.map fun t => seen.idxOf t) = us.map fun u => seen.idxOf u) : ts = us :=
  eq_of_map_eq h fun t ht _ _ htu => idxOf_inj (hts t ht) htu

/-- A section is cut off when the number of its types is known. -/
theorem cut_ty_section {seen' : List PTy} {s t : Bytes} (h : Built seen) (h' : Built seen')
    (hlen : seen.length = seen'.length)
    (heq : ty_section seen ++ s = ty_section seen' ++ t) : seen = seen' ∧ s = t := by
  induction h generalizing seen' s t with
  | nil =>
    obtain rfl := length_eq_zero_iff.mp hlen.symm
    exact ⟨rfl, heq⟩
  | @snoc seen x hseen hchildren hform ih =>
    cases h' with
    | nil => simp at hlen
    | @snoc seen' x' hseen' hchildren' hform' =>
      rw [length_append, length_append] at hlen
      rw [ty_section_concat hseen.closed hchildren, ty_section_concat hseen'.closed hchildren',
        append_assoc, append_assoc] at heq
      obtain ⟨rfl, hentry⟩ := ih hseen' (Nat.add_right_cancel hlen) heq
      obtain ⟨hlabel, hrefs, hst⟩ := cut_entry (by rwa [length_map])
        (by rwa [length_map]) hentry
      obtain ⟨m, cs⟩ := x
      obtain ⟨m', cs'⟩ := x'
      obtain rfl : m = m' := hlabel
      obtain rfl : cs = cs' := map_idxOf_inj hchildren hrefs
      exact ⟨rfl, hst⟩

/-- A section with the number of its types in front. -/
theorem cut_section : Cuts Built fun seen => uleb seen.length ++ ty_section seen := by
  intro seen seen' s t h h' heq
  rw [append_assoc, append_assoc] at heq
  obtain ⟨hlen, hrest⟩ := cut_uleb trivial trivial heq
  exact cut_ty_section h h' hlen hrest

/-! ## Canonical bytes -/

theorem visit_last (t : PTy) : (visit t []).getLast? = some t := by
  cases t with
  | node m cs =>
    rw [visit_node not_mem_nil, getLast?_append]
    rfl

theorem cut_canon_ty : Cuts Formed canon_ty := by
  intro t u s w ht hu heq
  obtain ⟨hvisit, hst⟩ := cut_section (built_visit t ht .nil) (built_visit u hu .nil) heq
  refine ⟨?_, hst⟩
  have hlast := congrArg List.getLast? hvisit
  rw [visit_last, visit_last] at hlast
  exact some.inj hlast

theorem cut_trait_ref (seen : List PTy) :
    Cuts (fun r : PTraitRef => ∀ t ∈ r.args, t ∈ seen) fun r => r.bytes seen := by
  intro r r' s t hr hr' heq
  obtain ⟨path, args⟩ := r
  obtain ⟨path', args'⟩ := r'
  simp only [PTraitRef.bytes, append_assoc] at heq
  obtain ⟨rfl, hrest⟩ := cut_path trivial trivial heq
  obtain ⟨hrefs, hst⟩ := cut_list_refs trivial trivial hrest
  exact ⟨congrArg _ (map_idxOf_inj hr hrefs), hst⟩

theorem cut_canon : Cuts (fun r : PTraitRef => ∀ t ∈ r.args, Formed t) PTraitRef.canon := by
  intro r r' s t hr hr' heq
  rw [PTraitRef.canon, PTraitRef.canon, append_assoc, append_assoc _ (r'.bytes _)] at heq
  obtain ⟨hseen, hrest⟩ := cut_section (built_visits r.args hr .nil)
    (built_visits r'.args hr' .nil) heq
  rw [hseen] at hrest
  exact cut_trait_ref (visits r'.args []) (fun t ht => hseen ▸ mem_visits ht [])
    (fun t ht => mem_visits ht []) hrest

theorem canon_ne_nil (r : PTraitRef) : r.canon ≠ [] := by
  rw [PTraitRef.canon]
  simp [uleb_ne_nil]

end Fors.Sigs
