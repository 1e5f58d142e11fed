import Fors.Ty.Match

/-!
# Matching inverts substitution

A match answers `true` exactly where some binding above the given one makes the pattern the target,
and then it ends with the least one. What a brand slot holds is unqualified here: a brand position
faces unqualified targets only.

Principal result: `match_inverts_subst`.
-/

namespace Fors.Ty

open Trees TyStore Matching List Option

namespace Binding

/-- `w` has every type that `b` holds, in the same slots. -/
structure Extends (b w : Binding) : Prop extends b.SameShape w where
  slots : ∀ (i : Nat) (v : TyId), b.slots[i]? = some v → v ≠ NO_TY → w.slots[i]? = some v

/-- The slot holds a type. -/
def Bound (b : Binding) (i : Nat) : Prop :=
  b.slots.getD i NO_TY ≠ NO_TY

/-- What the brands of a type stand for is unqualified. -/
def BrandsBare (s : TyStore) (w : Binding) (T : Rose Label) : Prop :=
  ∀ l cs, Rose.Sub (.node l cs) T → l.head.tag = .Brand →
    ∀ i u, w.slot_of l = some i → w.values s i = some u → u.label.quals = .NONE

end Binding

/-- `w` is above `b` and makes the pattern the target. -/
structure Solves (k : Keys) (s : TyStore) (b : Binding) (P A : TyId) (w : Binding) : Prop where
  extend : b.Extends w
  held : w.Over s
  bare : w.BrandsBare s (s.tree P)
  subst : ∃ fuel s', subst_norm k w fuel s P = some (s', some A) ∧ s'.Fits

variable {k : Keys} {s : TyStore} {b b' w : Binding} {P A : TyId}

/-! ## Bindings as values -/

theorem Binding.Extends.le (h : b.Extends w) : Le (b.values s) (w.values s) := by
  intro i u hu
  cases i with
  | none => exact nomatch hu
  | some i =>
    rw [values_slot] at hu
    split at hu
    · exact nomatch hu
    · rename_i hne
      cases hi : b.slots[i]? with
      | none => exact absurd (by rw [getD_eq_getElem?_getD, hi]; rfl) hne
      | some v =>
        have hd : b.slots.getD i NO_TY = v := by rw [getD_eq_getElem?_getD, hi]; rfl
        rw [hd] at hu hne
        have hw : w.slots.getD i NO_TY = v := by
          rw [getD_eq_getElem?_getD, h.slots i v hi hne]
          rfl
        rw [values_slot, hw, if_neg hne, hu]

variable {i : Nat}

theorem Binding.bound_iff : b.Bound i ↔ b.values s (some i) ≠ none := by
  rw [Bound, values_slot]
  split <;> simp_all

/-- Bindings that hold one type in a slot have one row there. -/
theorem Binding.Over.slot_eq (hs : s.Inv k) (h : b.Over s) (h' : b'.Over s)
    (heq : b'.values s (some i) = b.values s (some i)) :
    b'.slots.getD i NO_TY = b.slots.getD i NO_TY := by
  rw [values_slot, values_slot] at heq
  by_cases hno : b.slots.getD i NO_TY = NO_TY
  · rw [if_pos hno] at heq
    by_cases hno' : b'.slots.getD i NO_TY = NO_TY
    · rw [hno, hno']
    · rw [if_neg hno'] at heq
      exact nomatch heq
  · rw [if_neg hno] at heq
    by_cases hno' : b'.slots.getD i NO_TY = NO_TY
    · rw [if_pos hno'] at heq
      exact nomatch heq
    · rw [if_neg hno'] at heq
      exact (hs.tree_eq_iff ((h'.slot i).resolve_left hno') ((h.slot i).resolve_left hno)).mp
        (some.inj heq)

theorem getElem?_of_getD {xs ys : List TyId} (hlen : xs.length = ys.length) {d : TyId}
    (h : xs.getD i d = ys.getD i d) : xs[i]? = ys[i]? := by
  by_cases hi : i < xs.length
  · rw [getD_eq_getElem?_getD, getD_eq_getElem?_getD,
      getElem?_eq_getElem hi, getElem?_eq_getElem (hlen ▸ hi)] at h
    rw [getElem?_eq_getElem hi, getElem?_eq_getElem (hlen ▸ hi)]
    exact congrArg some h
  · rw [getElem?_eq_none (by omega), getElem?_eq_none (by omega)]

theorem Binding.extends_of_le (hs : s.Inv k) (hover : b.Over s) (hover' : w.Over s)
    (hshape : b.SameShape w) (hle : Le (b.values s) (w.values s)) : b.Extends w where
  toSameShape := hshape
  slots := by
    intro i v hi hne
    have hd : b.slots.getD i NO_TY = v := by rw [getD_eq_getElem?_getD, hi]; rfl
    have hv : b.values s (some i) = some (s.tree v) := by rw [values_slot, hd, if_neg hne]
    have heq := hover.slot_eq hs hover' ((hle _ _ hv).trans hv.symm)
    rw [getElem?_of_getD hshape.len heq, hi]

/-! ## Unqualified brands -/

variable {l : Label}

theorem node_of_slot {c : Content} {cs : List TyId} (h : s.node_of c = some (l, cs))
    (hslot : b.slot_of l ≠ none) : cs = [] := by
  obtain ⟨tag, x, y, q⟩ := c
  have htag : l.head.tag = tag := (node_of_tag h).1
  obtain hl | hl := slot_of_tag hslot
  all_goals
    rw [hl] at htag
    subst htag
    simp only [node_of, Option.bind_eq_bind, Option.bind_eq_some_iff, Option.pure_def,
      Option.some.injEq, Prod.mk.injEq] at h
    grind

/-- Slots have no types below them. -/
theorem slot_leaf (hs : s.Good k) {t : TyId} (ht : t < s.rows.length)
    {cs : List (Rose Label)} (hsub : Rose.Sub (.node l cs) (s.tree t)) (hslot : b.slot_of l ≠ none) :
    cs = [] := by
  induction t using Nat.strongRecOn with
  | ind t ih =>
    obtain ⟨row, hrow⟩ : ∃ row, s.rows[t]? = some row := ⟨_, getElem?_eq_getElem ht⟩
    obtain ⟨l', ds, hnode, hlt⟩ : ∃ l' ds, s.node_of row.content = some (l', ds) ∧
        ∀ c ∈ ds, c < t := ⟨_, _, (hs.node_spec hrow).1, (hs.node_spec hrow).2.1⟩
    rw [hs.tree_node hrow hnode] at hsub
    cases hsub with
    | refl => rw [node_of_slot hnode hslot, map_nil]
    | child hc hsub =>
      obtain ⟨c, hmem, rfl⟩ := mem_map.mp hc
      have hct := hlt c hmem
      exact ih c hct (hct.trans ht) hsub

/-- What makes a type an instance has unqualified types for its brands. -/
theorem brands_of_subst {v : Values Label (Option Nat)} {T U : Rose Label}
    (hleaf : ∀ l cs, Rose.Sub (.node l cs) T → b.slot_of l ≠ none → cs = [])
    (hsubst : subst (faces b) v T = some U) :
    ∀ l cs, Rose.Sub (.node l cs) T → l.head.tag = .Brand →
      ∀ i u, b.slot_of l = some i → v i = some u → u.label.quals = .NONE := by
  intro l cs hsub htag i u hslot hu
  induction hsub generalizing U with
  | refl =>
    rw [subst_slot ((faces_slot b l).trans hslot), hu, bind_some] at hsubst
    change b.put_bare l u = some U at hsubst
    rw [Binding.put_bare] at hsubst
    split at hsubst
    · cases hsubst
    · rename_i hbare
      exact (not_not.mp (not_and.mp hbare htag)).2
  | @child c label children hc hsub ih =>
    cases hlabel : b.slot_of label with
    | some j =>
      obtain rfl := hleaf label children (.refl _) (by rw [hlabel]; exact some_ne_none j)
      exact absurd hc not_mem_nil
    | none =>
      rw [subst_node ((faces_slot b label).trans hlabel)] at hsubst
      obtain ⟨us, hus, -⟩ := bind_eq_some_iff.mp hsubst
      obtain ⟨U', -, hU'⟩ := substList_mem hus c hc
      exact ih (fun l' cs' hsub' => hleaf l' cs' (.child hc hsub')) hU'

theorem Binding.BrandsBare.bare {T : Rose Label} (hbrands : Fors.Ty.BrandsBare T) (h : w.BrandsBare s T) :
    Bare w (w.values s) T :=
  fun l cs hsub htag => ⟨hbrands l cs hsub htag, h l cs hsub htag⟩

/-- A brand that is matched faces its own qualifiers. -/
theorem brand_face {cs : List (Rose Label)} {t : Rose Label}
    {v v' : Values Label (Option Nat)} (hskip : (skips .NoFail).skip l = true)
    (h : matchTree (faces b) .none (.node l cs) t v = some v') : (skips .NoFail).face l t = true := by
  have htag : l.head.tag = .Brand := of_decide_eq_true hskip
  have hnone : (Skips.none : Skips Label).skip l = false := none_skip l
  cases hslot : (faces b).slot l with
  | some i =>
    rw [match_slot hnone hslot, bind_eq_some_iff] at h
    obtain ⟨u, hu, -⟩ := h
    rw [faces_get, Binding.get_bare] at hu
    split at hu
    · cases hu
    · rename_i hbare
      obtain ⟨hl, ht⟩ := not_not.mp (not_and.mp hbare htag)
      exact decide_eq_true (hl.trans ht.symm)
  | none =>
    rw [match_node hnone hslot (decide_eq_false (by rw [htag]; decide)),
      ite_none_right_eq_some] at h
    exact decide_eq_true (congrArg Label.quals h.1)

/-! ## The inverse -/

variable {ops : List Op} {fuel : Nat}

/-- The instance under the final binding is the target, found without interning. -/
theorem subst_norm_target (hs : s.Good k) (hfit : s.Fits) (hover : w.Over s)
    (hP : P < s.rows.length) (hA : A < s.rows.length) (hfuel : P < fuel)
    (hbare : Bare w (w.values s) (s.tree P))
    (hsubst : subst (faces w) (w.values s) (s.tree P) = some (s.tree A)) :
    subst_norm k w fuel s P = some (s, some A) := by
  have hready : Ready k w (w.values s) s := ⟨hs, hover, rfl⟩
  rw [subst_faces _ hbare] at hsubst
  obtain ⟨out, hout⟩ := finds_subst_norm hready hfit fuel P hfuel hP (.inr ⟨A, hA, hsubst⟩)
  have hinst := (subst_norm_post k w (w.values s) fuel s P s out hout).2 hfit hready hP
  rw [hinst.tree] at hsubst
  obtain ⟨r, rfl, htree⟩ := map_eq_some_iff.mp hsubst
  rw [hout, (hs.tree_eq_iff (hinst.lt r rfl) hA).mp htree]

/-- A run of `subst_norm` that ends with the target makes the pattern's tree the target's. -/
theorem Solves.tree (h : Solves k s b P A w) (hs : s.Good k) (hP : P < s.rows.length)
    (hA : A < s.rows.length) (hbrands : BrandsBare (s.tree P)) :
    Matching.subst (faces w) (w.values s) (s.tree P) = some (s.tree A) := by
  obtain ⟨fuel, s', hrun, hfit'⟩ := h.subst
  obtain ⟨hext, hpost⟩ := subst_norm_post k w (w.values s) fuel s P s' (some A) hrun
  have hinst := hpost hfit' ⟨hs, h.held, rfl⟩ hP
  rw [subst_faces _ (h.bare.bare hbrands), hinst.tree, map_some,
    hs.tree_extends hext hinst.ready.good.toInv hA]

/-- A match answers `true` exactly where some binding above the given one makes the pattern the
target. It then ends with the least such binding, under which the pattern is the very row of the
target, and in the `NoFail` mode it binds the same slots outside brands. -/
theorem match_inverts_subst (h : Reached k ops s) (hfit : s.Fits) (hcanon : s.Canonical)
    (hover : b.Over s) (hP : P < s.rows.length) (hA : A < s.rows.length)
    (hpat : Pattern b (s.tree P)) (hfuel : P < fuel) :
    ∃ b' ok, one_way_match k .Strict fuel s P A b = some (s, b', ok) ∧
      (ok = true ↔ ∃ w, Solves k s b P A w) ∧
      (ok = true → Solves k s b P A b' ∧ subst_norm k b' fuel s P = some (s, some A) ∧
        (∀ w, Solves k s b P A w → b'.Extends w) ∧
        (∀ i, b'.Bound i ↔ b.Bound i ∨ some i ∈ mentions (faces b) .none (s.tree P)) ∧
        ∃ b'', one_way_match k .NoFail fuel s P A b = some (s, b'', true) ∧
          ∀ i, b''.slots[i]? = if some i ∈ mentions (faces b) (skips .NoFail) (s.tree P)
            then b'.slots[i]? else b.slots[i]?) := by
  have hs : s.Good k := { h.inv hfit with canonical := hcanon }
  obtain ⟨b', ok, hrun, hshape, hover', hmatch⟩ :=
    one_way_match_agrees hs hfit .Strict fuel P A b hfuel hP hA hover hpat
  -- a binding that solves is above what the match of trees finds
  have hcomplete : ∀ w, Solves k s b P A w →
      ok = true ∧ Le (b'.values s) (w.values s) := by
    intro w hw
    have hsubst := hw.tree hs hP hA hpat.brands
    rw [faces_congr hw.extend.owners] at hsubst
    obtain ⟨v', hv', hle⟩ := match_complete hw.extend.le hpat.plain hsubst
    change matchTree (faces b) (skips .Strict) _ _ _ = _ at hv'
    rw [hmatch] at hv'
    cases ok with
    | false => exact nomatch hv'
    | true =>
      cases hv'
      exact ⟨rfl, hle⟩
  have hsolves : ok = true → Solves k s b P A b' ∧
      subst_norm k b' fuel s P = some (s, some A) := by
    rintro rfl
    obtain ⟨hle, hsubst, -⟩ := match_sound hpat.plain hmatch
    have hsubst' := hsubst _ (.refl _)
    rw [← faces_congr hshape.owners] at hsubst'
    have hbare : b'.BrandsBare s (s.tree P) :=
      brands_of_subst (fun l cs hsub hslot => slot_leaf hs hP hsub hslot) hsubst'
    have htarget := subst_norm_target hs hfit hover' hP hA hfuel (hbare.bare hpat.brands) hsubst'
    exact ⟨⟨Binding.extends_of_le hs.toInv hover hover' hshape hle, hover', hbare,
      fuel, s, htarget, hfit⟩, htarget⟩
  refine ⟨b', ok, hrun, ⟨fun hok => ⟨b', (hsolves hok).1⟩, fun ⟨w, hw⟩ => (hcomplete w hw).1⟩,
    fun hok => ⟨(hsolves hok).1, (hsolves hok).2, fun w hw => ?_, fun i => ?_, ?_⟩⟩
  · have hsame : b'.SameShape w := ⟨by rw [hw.extend.owners, hshape.owners],
      by rw [hw.extend.len, hshape.len]⟩
    exact Binding.extends_of_le hs.toInv hover' hw.held hsame (hcomplete w hw).2
  · subst hok
    rw [Binding.bound_iff (s := s), Binding.bound_iff (s := s)]
    exact (match_sound hpat.plain hmatch).2.2 (some i)
  · subst hok
    obtain ⟨u, hu, hle, hle', hdom⟩ := match_skip (fun l cs t v v' => brand_face) hpat.plain hmatch
      (.refl _)
    obtain ⟨b'', ok'', hrun'', hshape'', hover'', hmatch''⟩ :=
      one_way_match_agrees hs hfit .NoFail fuel P A b hfuel hP hA hover hpat
    rw [hu] at hmatch''
    cases ok'' with
    | false => exact nomatch hmatch''
    | true =>
      cases hmatch''
      refine ⟨b'', hrun'', fun i => ?_⟩
      by_cases hi : some i ∈ mentions (faces b) (skips .NoFail) (s.tree P)
      · rw [if_pos hi]
        refine getElem?_of_getD (by rw [hshape''.len, hshape.len]) (hover'.slot_eq hs.toInv hover'' ?_)
        obtain ⟨x, hx⟩ := ne_none_iff_exists'.mp ((hdom (some i)).mpr (.inr hi))
        rw [hx, hle' _ x hx]
      · rw [if_neg hi]
        refine getElem?_of_getD hshape''.len (hover.slot_eq hs.toInv hover'' ?_)
        cases hx : b.values s (some i) with
        | some x => exact hle _ x hx
        | none =>
          by_contra hne
          obtain hold | hmem := (hdom (some i)).mp hne
          · exact hold hx
          · exact hi hmem

/-- The owner of one slot, unbound and bound to row 5. -/
def unbound : Binding := ⟨[⟨100, 0, 1⟩], [NO_TY]⟩

def bound_to_5 : Binding := ⟨[⟨100, 0, 1⟩], [5]⟩

/-- The sizes of a store's columns. -/
def sizes (s : TyStore) : (Nat × Nat × Nat) × (Nat × Nat × Nat) × Nat × Nat × Nat :=
  ((s.rows.length, s.args.length, s.args_index.length),
    (s.trait_refs.length, s.proj_keys.length, s.fn_params.length),
    s.fn_tys.length, s.brands.length, s.consts.length)

theorem fits_of_sizes {n m l : Nat} (h : sizes s = ((n, m, i), (0, 0, 0), 0, l, 0))
    (hn : n < 100) (hm : m < 100) (hi : i < 100) (hl : l < 100) : s.Fits := by
  simp only [sizes, Prod.mk.injEq, and_assoc] at h
  obtain ⟨hrows, hargs, hindex, htr, hpk, hparams, hfn, hbrands, hconsts⟩ := h
  have hempty : EMPTY = 2 ^ 32 - 1 := rfl
  constructor <;> omega

/-- `N[T, iso T]` against `N[i32, iso i32]`. -/
theorem match_inverts_subst_nominal : ∃ s, Reached colliding [.param 100 0, .qualified 3 1,
      .nominal_of 7 [3, 4], .prim .I32, .qualified 6 1, .nominal_of 7 [6, 7]] s ∧
    ∃ b' ok, one_way_match colliding .Strict 6 s 5 8 unbound = some (s, b', ok) ∧
      (ok = true ↔ ∃ w, Solves colliding s unbound 5 8 w) := by
  have h : ((new colliding).bind (run colliding [.param 100 0, .qualified 3 1,
      .nominal_of 7 [3, 4], .prim .I32, .qualified 6 1, .nominal_of 7 [6, 7]])).map
        (fun s => (sizes s, s.tree 5)) =
      some (((9, 4, 3), (0, 0, 0), 0, 0, 0), .node ⟨.Nominal 7, (0, 0), 0⟩
        [.node ⟨.Param 100 0, (0, 0), 0⟩ [], .node ⟨.Param 100 0, (0, 0), 1⟩ []]) := by
    decide +kernel
  obtain ⟨s, hs, hcols⟩ := map_eq_some_iff.mp h
  obtain ⟨s0, hnew, hrun⟩ := bind_eq_some_iff.mp hs
  obtain ⟨hsizes, htree⟩ := Prod.mk.inj hcols
  have hfit := fits_of_sizes hsizes (by omega) (by omega) (by omega) (by omega)
  have hreached : Reached colliding _ s := ⟨s0, hnew, hrun⟩
  have hrows : s.rows.length = 9 := (Prod.mk.inj (Prod.mk.inj hsizes).1).1
  have hpat : Pattern unbound (s.tree 5) := by
    rw [htree]
    refine ⟨by simp [Plain, PlainList, faces, marks, Binding.slot_of, unbound, Binding.owns, Head.tag], ?_⟩
    intro l cs hsub htag
    cases hsub with
    | refl => cases htag
    | child hc hsub =>
      simp only [mem_cons, not_mem_nil, or_false] at hc
      obtain rfl | rfl := hc
      all_goals
        cases hsub with
        | refl => cases htag
        | child hc _ => exact absurd hc not_mem_nil
  have hover : unbound.Over s := ⟨by simp [unbound], by simp [unbound]⟩
  obtain ⟨b', ok, hmatch, hiff, -⟩ := match_inverts_subst hreached hfit
    (hreached.good (by simp [Op.Typed]) hfit).canonical hover (show 5 < s.rows.length by omega)
    (show 8 < s.rows.length by omega) hpat (show 5 < 6 by decide)
  exact ⟨s, hreached, b', ok, hmatch, hiff⟩

/-- A brand parameter does not match a qualified type, which its slot may hold all the same. -/
theorem brand_faces_qualified : ∃ s s', Reached colliding [.brand_ty (.Param 100 0), .prim .I32,
      .qualified 4 1] s ∧ s.Fits ∧ Pattern unbound (s.tree 3) ∧
    one_way_match colliding .Strict 10 s 3 5 unbound = some (s, unbound, false) ∧
    unbound.Extends bound_to_5 ∧ bound_to_5.Over s ∧
    subst_norm colliding bound_to_5 10 s 3 = some (s', some 5) := by
  have h : ((new colliding).bind (run colliding [.brand_ty (.Param 100 0), .prim .I32,
      .qualified 4 1])).map (fun s => (sizes s, s.tree 3)) =
      some (((6, 0, 1), (0, 0, 0), 0, 1, 0), .node ⟨.Brand (.Param 100 0), (0, 0), 0⟩ []) := by
    decide +kernel
  have h' : ((new colliding).bind (run colliding [.brand_ty (.Param 100 0), .prim .I32,
      .qualified 4 1])).map (fun s =>
        ((one_way_match colliding .Strict 10 s 3 5 unbound).map (fun r => (r.2.1, r.2.2)),
          (subst_norm colliding bound_to_5 10 s 3).map Prod.snd)) =
      some (some (unbound, false), some (some 5)) := by
    decide +kernel
  obtain ⟨s, hs, hcols⟩ := map_eq_some_iff.mp h
  rw [hs] at h'
  obtain ⟨s0, hnew, hrun⟩ := bind_eq_some_iff.mp hs
  obtain ⟨hsizes, htree⟩ := Prod.mk.inj hcols
  obtain ⟨hmatch, hsubst⟩ := Prod.mk.inj (some.inj h')
  have hreached : Reached colliding _ s := ⟨s0, hnew, hrun⟩
  have hfit := fits_of_sizes hsizes (by omega) (by omega) (by omega) (by omega)
  have hrows : s.rows.length = 6 := (Prod.mk.inj (Prod.mk.inj hsizes).1).1
  have hpat : Pattern unbound (s.tree 3) := by
    rw [htree]
    refine ⟨by simp [Plain, faces, marks, Binding.slot_of, unbound, Binding.owns], ?_⟩
    intro l cs hsub _
    cases hsub with
    | refl => rfl
    | child hc _ => exact absurd hc not_mem_nil
  have hover : unbound.Over s := ⟨by simp [unbound], by simp [unbound]⟩
  have hs := hreached.good (by simp [Op.Typed]) hfit
  obtain ⟨b', ok, hrun', -, -, -⟩ := one_way_match_agrees hs hfit .Strict 10 3 5 unbound (by decide)
    (by omega) (by omega) hover hpat
  rw [hrun'] at hmatch
  cases hmatch
  obtain ⟨⟨s', out⟩, hsubst', rfl⟩ := map_eq_some_iff.mp hsubst
  refine ⟨s, s', hreached, hfit, hpat, hrun', ⟨⟨rfl, rfl⟩, fun i v hi hne => ?_⟩,
    ⟨by simp [bound_to_5], by simp [bound_to_5, hrows]⟩, hsubst'⟩
  cases i with
  | zero => exact absurd (some.inj hi).symm hne
  | succ i => cases hi

end Fors.Ty
