import Fors.Ty.SubstTree

/-!
# Instances that the store already has

Where the instance of a type is a row of the store, `subst_norm` returns that row and interns
nothing.

Principal result: `finds_subst_norm`.
-/

namespace Fors.Ty

open Trees TyStore Matching List
open Option hiding pure_def

variable {k : Keys} {b : Binding} {v : Values Label (Option Nat)} {s : TyStore} {t r : TyId}
  {f : TyStore → TyId → Option (TyStore × Option TyId)}

/-- The instance of the type is a row of the store, or the type has no slot. -/
def Stays (b : Binding) (v : Values Label (Option Nat)) (s : TyStore) (T : Rose Label) : Prop :=
  mentions (marks b) .none T = [] ∨ ∃ r, r < s.rows.length ∧ subst (marks b) v T = some (s.tree r)

variable {l : Label}

theorem Stays.children (h : s.Inv k) {Ts : List (Rose Label)}
    (hslot : b.slot_of l = none) (hstay : Stays b v s (.node l Ts)) : ∀ T ∈ Ts, Stays b v s T := by
  intro T hT
  obtain hnone | ⟨r, hr, hsub⟩ := hstay
  · rw [mentions_node hslot, mentionsList_eq_nil] at hnone
    exact .inl (hnone T hT)
  · change (marks b).slot l = none at hslot
    rw [subst_node hslot] at hsub
    obtain ⟨us, hus, hsub⟩ := bind_eq_some_iff.mp hsub
    obtain ⟨-, hsub⟩ := ite_none_right_eq_some.mp hsub
    obtain ⟨ys, -, rfl, hys⟩ := h.tree_children hr (some.inj hsub).symm
    obtain ⟨u, hu, hsubst⟩ := substList_mem hus T hT
    obtain ⟨y, hy, rfl⟩ := mem_map.mp hu
    exact .inr ⟨y, hys y hy, hsubst⟩

/-- When the children have instances, the row over them is there. -/
theorem Stays.node {Ts us : List (Rose Label)}
    (ht : t < s.rows.length) (htree : s.tree t = .node l Ts) (hslot : b.slot_of l = none)
    (hstay : Stays b v s (.node l Ts)) (hus : substList (marks b) v Ts = some us) :
    ∃ r, r < s.rows.length ∧ s.tree r = .node l us := by
  change (marks b).slot l = none at hslot
  obtain hnone | ⟨r, hr, hsub⟩ := hstay
  · rw [mentions_node hslot] at hnone
    rw [substList_self hnone hus]
    exact ⟨t, ht, htree⟩
  · rw [subst_node hslot, hus] at hsub
    obtain ⟨-, hsub⟩ := ite_none_right_eq_some.mp hsub
    exact ⟨r, hr, (some.inj hsub).symm⟩

variable {xs : List TyId}

/-- When the arguments of a projection have instances, a projection over them is there, of the
head's instance if it has one. -/
theorem Stays.proj (h : s.Inv k) {a : TyId} {ys : List TyId} {head : Option TyId}
    (ht : t < s.rows.length) (htree : s.tree t = .node l ((a :: xs).map s.tree))
    (ha : a < s.rows.length) (hslot : b.slot_of l = none) (hhead : Instance k b v (s.tree a) s head)
    (hinst : Instances k b v (xs.map s.tree) s (some ys))
    (hstay : Stays b v s (.node l ((a :: xs).map s.tree))) :
    ∃ r h', r < s.rows.length ∧ h' < s.rows.length ∧
      s.tree r = .node l ((h' :: ys).map s.tree) ∧ ∀ x, head = some x → h' = x := by
  change (marks b).slot l = none at hslot
  obtain hnone | ⟨r, hr, hsub⟩ := hstay
  · rw [mentions_node hslot, map_cons, mentionsList, append_eq_nil_iff] at hnone
    refine ⟨t, a, ht, ha, ?_, ?_⟩
    · have hself : ys.map s.tree = xs.map s.tree := substList_self hnone.2 hinst.trees
      rw [htree, map_cons, map_cons, hself]
    · rintro x rfl
      have hself := subst_self hnone.1 hhead.tree
      exact (h.tree_eq_iff ha (hhead.lt x rfl)).mp hself.symm
  · rw [subst_node hslot] at hsub
    obtain ⟨us, hus, hsub⟩ := bind_eq_some_iff.mp hsub
    obtain ⟨-, hsub⟩ := ite_none_right_eq_some.mp hsub
    rw [map_cons, substList, hhead.tree, hinst.trees] at hus
    cases head with
    | none => exact nomatch hus
    | some x =>
      cases hus
      refine ⟨r, x, hr, hhead.lt x rfl, (some.inj hsub).symm, ?_⟩
      rintro _ ⟨⟩
      rfl

/-! ## Constructors that find their row -/

section Found

variable {ys : List TyId}

variable {d : DefId}

theorem nominal_found (h : s.Inv k) (hys : ∀ y ∈ ys, y < s.rows.length)
    (hr : r < s.rows.length) (htree : s.tree r = .node ⟨.Nominal d, (0, 0), .NONE⟩ (ys.map s.tree)) :
    done (s.nominal_of k d ys) = some (s, some r) := by
  obtain ⟨tag, x, y, ⟨row, hrow, hcontent⟩, rfl, hnode⟩ := h.content_of hr hys htree
  simp only [Head.tag, node_of, bind_eq_bind, bind_eq_some_iff, Option.pure_def,
    some.injEq, Prod.mk.injEq, Label.mk.injEq, Head.Nominal.injEq] at hnode
  obtain ⟨ys', hargs, ⟨rfl, -⟩, hkids⟩ := hnode
  subst ys'
  have hrun : s.nominal_of k x ys = some (s, r) := by
    simp only [nominal_of, h.intern_args hargs, nominal, bind_eq_bind, bind_some]
    exact h.intern hrow hcontent
  rw [hrun]
  rfl

theorem tuple_found (h : s.Inv k) (hys : ∀ y ∈ ys, y < s.rows.length)
    (hr : r < s.rows.length) (htree : s.tree r = .node ⟨.Tuple, (0, 0), .NONE⟩ (ys.map s.tree)) :
    done (s.tuple_of k ys) = some (s, some r) := by
  obtain ⟨tag, x, y, ⟨row, hrow, hcontent⟩, rfl, hnode⟩ := h.content_of hr hys htree
  simp only [Head.tag, node_of, bind_eq_bind, bind_eq_some_iff, Option.pure_def,
    some.injEq, Prod.mk.injEq, Label.mk.injEq] at hnode
  obtain ⟨ys', hargs, ⟨-, ⟨rfl, -⟩, -⟩, hkids⟩ := hnode
  subst ys'
  have hrun : s.tuple_of k ys = some (s, r) := by
    simp only [tuple_of, h.intern_args hargs, tuple, bind_eq_bind, bind_some]
    exact h.intern hrow hcontent
  rw [hrun]
  rfl

theorem dyn_found (h : s.Inv k) (hys : ∀ y ∈ ys, y < s.rows.length)
    (hr : r < s.rows.length) (htree : s.tree r = .node ⟨.Dyn d, (0, 0), .NONE⟩ (ys.map s.tree)) :
    (do
      let (s, id) ← s.intern_args k ys
      let (s, tr) ← s.intern_trait_ref k d id
      done (s.dyn_ty k tr)) = some (s, some r) := by
  obtain ⟨tag, x, y, ⟨row, hrow, hcontent⟩, rfl, hnode⟩ := h.content_of hr hys htree
  simp only [Head.tag, node_of, bind_eq_bind, bind_eq_some_iff, Option.pure_def,
    some.injEq, Prod.mk.injEq, Label.mk.injEq, Head.Dyn.injEq, Prod.exists] at hnode
  obtain ⟨_, _, htr, _, hargs, ⟨rfl, ⟨-, rfl⟩, -⟩, rfl⟩ := hnode
  have hrun : s.dyn_ty k x = some (s, r) := h.intern hrow hcontent
  simp only [h.intern_args hargs, h.intern_trait_ref htr, bind_eq_bind, bind_some,
    hrun]
  rfl

theorem fn_found (h : s.Inv k) {params : List (Conv × TyId)} {result raises : TyId}
    {closure : Bool}
    (hys : ∀ y ∈ fn_children (params.map Prod.snd) result raises, y < s.rows.length)
    (hr : r < s.rows.length)
    (htree : s.tree r = .node ⟨.Fn (params.map Prod.fst) (raises ≠ NO_TY) closure, (0, 0), .NONE⟩
      ((fn_children (params.map Prod.snd) result raises).map s.tree)) :
    (do
      let (s, id) ← s.intern_fn_ty k params result raises closure
      done (s.fn_ty k id)) = some (s, some r) := by
  obtain ⟨tag, x, y, ⟨row, hrow, hcontent⟩, rfl, hnode⟩ := h.content_of hr hys htree
  simp only [Head.tag, node_of, bind_eq_bind, bind_eq_some_iff, Option.pure_def,
    some.injEq, Prod.mk.injEq, Label.mk.injEq, Head.Fn.injEq, Prod.exists] at hnode
  obtain ⟨ps, res, rs, cl, hfn, ⟨⟨hconvs, hraises, rfl⟩, ⟨-, rfl⟩, -⟩, hkids⟩ := hnode
  obtain ⟨rfl, rfl, rfl⟩ := fn_children_inj hconvs hraises hkids
  have hrun : s.fn_ty k x = some (s, r) := h.intern hrow hcontent
  simp only [h.intern_fn_ty hfn, bind_eq_bind, bind_some, hrun]
  rfl

theorem const_found (h : s.Inv k) {c : ConstValue} {ty : TyId} (hty : ty < s.rows.length)
    (hr : r < s.rows.length)
    (htree : s.tree r = .node ⟨.ConstVal (some c), (0, 0), .NONE⟩ [s.tree ty]) :
    done (s.const_ty k c ty) = some (s, some r) := by
  obtain ⟨tag, x, y, ⟨row, hrow, hcontent⟩, rfl, hnode⟩ :=
    @Inv.content_of k s r _ h hr [ty] (by simpa using hty) htree
  have hconst : s.consts[x]? = some c ∧ y = ty := by
    simp only [Head.tag, node_of] at hnode
    cases hx : s.consts[x]? with
    | none =>
      rw [hx] at hnode
      simp at hnode
    | some c' =>
      rw [hx] at hnode
      simpa using hnode
  obtain ⟨hx, rfl⟩ := hconst
  have hrun : s.const_ty k c y = some (s, r) := by
    simp only [const_ty, h.intern_const hx, bind_eq_bind, bind_some]
    exact h.intern hrow hcontent
  rw [hrun]
  rfl

/-- The pools' entries of a projection that the store has. -/
theorem proj_found (h : s.Inv k) {name : Symbol} {q : Quals} {head : TyId}
    (hys : ∀ y ∈ head :: ys, y < s.rows.length) (hr : r < s.rows.length)
    (htree : s.tree r = .node ⟨.Proj d name, (0, 0), q⟩ ((head :: ys).map s.tree)) :
    ∃ args tr key, s.args_at args = some ys ∧ s.trait_refs[tr]? = some (d, args) ∧
      s.proj_keys[key]? = some (tr, name) ∧
        (q = .NONE → s.proj k head key = some (s, r)) := by
  obtain ⟨tag, x, y, ⟨row, hrow, hcontent⟩, rfl, hnode⟩ := h.content_of hr hys htree
  simp only [Head.tag, node_of, bind_eq_bind, bind_eq_some_iff, Option.pure_def,
    some.injEq, Prod.mk.injEq, Label.mk.injEq, Head.Proj.injEq, Prod.exists,
    cons.injEq] at hnode
  obtain ⟨tr, _, hkey, _, args, htr, _, hargs, ⟨⟨rfl, rfl⟩, -⟩, rfl, rfl⟩ := hnode
  refine ⟨args, tr, y, hargs, htr, hkey, ?_⟩
  rintro rfl
  exact h.intern hrow hcontent

/-- A type under qualifiers, where the store has it. -/
theorem qualified_found (h : s.Inv k) {q : Quals} (hq : q ≠ .NONE) (ht : t < s.rows.length)
    (hunqual : (s.tree t).label.quals = .NONE) (hr : r < s.rows.length)
    (htree : s.tree r = requal q (s.tree t)) :
    done (s.qualified k t q) = some (s, some r) := by
  have hrow := getElem?_eq_getElem hr
  have hrow' := getElem?_eq_getElem ht
  obtain ⟨twin, htwin, hcontent⟩ := h.twin r _ hrow
  obtain ⟨hlt, htree'⟩ := h.tree_unqual hrow
  rw [htree, requal_requal, requal_self hunqual] at htree'
  obtain heq := (h.tree_eq_iff hlt ht).mp htree'
  rw [heq, hrow'] at htwin
  cases htwin
  simp only [TyRow.content, Prod.mk.injEq] at hcontent
  obtain ⟨htag, ha, hb, hquals⟩ := hcontent
  have hrquals := (h.label_quals hrow).1
  rw [htree, requal_quals] at hrquals
  have hrun : s.qualified k t q = some (s, r) := by
    rw [qualified, hrow']
    have hor : Quals.NONE ||| q = q := BitVec.zero_or
    simp only [bind_eq_bind, bind_some, hquals, hor, if_neg hq]
    refine h.intern hrow ?_
    rw [TyRow.content, htag, ha, hb, hrquals]
  rw [hrun]
  rfl

end Found

/-! ## Walks that intern nothing -/

/-- A walk that leaves the store as it is, on the rows below `n` whose instances are there. -/
def Finds (b : Binding) (v : Values Label (Option Nat)) (s : TyStore) (n : Nat)
    (f : TyStore → TyId → Option (TyStore × Option TyId)) : Prop :=
  ∀ x < n, x < s.rows.length → Stays b v s (s.tree x) → ∃ out, f s x = some (s, out)

variable {n : Nat}

theorem Finds.list (hf : Finds b v s n f) : ∀ xs : List TyId, (∀ x ∈ xs, x < n) →
    (∀ x ∈ xs, x < s.rows.length) → (∀ x ∈ xs, Stays b v s (s.tree x)) →
      ∃ out, subst_list f s xs = some (s, out)
  | [], _, _, _ => ⟨some [], rfl⟩
  | x :: xs, hn, hlt, hstay => by
    rw [forall_mem_cons] at hn hlt hstay
    obtain ⟨out, hout⟩ := hf x hn.1 hlt.1 hstay.1
    cases out with
    | none => exact ⟨none, by rw [subst_list, hout]; rfl⟩
    | some y =>
      obtain ⟨outs, houts⟩ := hf.list xs hn.2 hlt.2 hstay.2
      refine ⟨outs.map fun ys => y :: ys, ?_⟩
      rw [subst_list, hout, TyStore.then_, houts]
      cases outs <;> rfl

/-- The row that a walk starts from: unqualified, with its instance in the store. -/
structure Start (k : Keys) (b : Binding) (v : Values Label (Option Nat)) (s : TyStore) (n : Nat)
    (t : TyId) : Prop where
  ready : Ready k b v s
  fits : s.Fits
  below : ∀ c ∈ (s.node t).2, c < n
  unqual : (s.tree t).label.quals = .NONE
  stays : Stays b v s (s.tree t)

variable {row : TyRow}

theorem Start.children (h : Start k b v s n t) (hrow : s.rows[t]? = some row) (hnode : s.node_of row.content = some (l, xs))
    (hslot : b.slot_of l = none) :
    s.tree t = .node l (xs.map s.tree) ∧ l.Clean ∧ l.quals = .NONE ∧ ∀ x ∈ xs, x < n ∧
      x < s.rows.length ∧ Stays b v s (s.tree x) := by
  obtain ⟨htree, hlt, hclean⟩ := h.ready.node hrow hnode
  have heq := h.ready.good.node_eq hrow hnode
  have hq := h.unqual
  have hstay := h.stays
  rw [htree] at hq hstay
  refine ⟨htree, hclean, hq, fun x hx => ⟨h.below x (by rw [heq]; exact hx), hlt x hx,
    ?_⟩⟩
  exact hstay.children h.ready.good.toInv hslot _ (mem_map_of_mem hx)

theorem Start.list (h : Start k b v s n t) (hf : Finds b v s n f) (hsub : Substitutes k b v f) (hxs : ∀ x ∈ xs, x < n ∧ x < s.rows.length ∧ Stays b v s (s.tree x)) :
    ∃ out, subst_list f s xs = some (s, out) ∧ Instances k b v (xs.map s.tree) s out := by
  obtain ⟨out, hout⟩ := hf.list xs (fun x hx => (hxs x hx).1) (fun x hx => (hxs x hx).2.1)
    fun x hx => (hxs x hx).2.2
  exact ⟨out, hout, (subst_list_post hsub s xs s out hout).2 h.fits h.ready
    fun x hx => (hxs x hx).2.1⟩

/-- Rebuilding a row over its arguments finds a row. -/
theorem Start.args (h : Start k b v s n t) (hf : Finds b v s n f) (hsub : Substitutes k b v f) (hrow : s.rows[t]? = some row) {l0 : Label}
    {g : TyStore → List TyId → Option (TyStore × Option TyId)}
    (hnode : s.node_of row.content = some (l, xs)) (hslot : b.slot_of l = none)
    (hl : l.Clean → l.quals = .NONE → l = l0)
    (hg : ∀ ys r, ys.length = xs.length → (∀ y ∈ ys, y < s.rows.length) → r < s.rows.length →
      s.tree r = .node l0 (ys.map s.tree) → g s ys = some (s, some r)) :
    ∃ out, TyStore.then_ (subst_list f s xs) g = some (s, out) := by
  have ht := (List.getElem?_eq_some_iff.mp hrow).1
  obtain ⟨htree, hclean, hq, hxs⟩ := h.children hrow hnode hslot
  obtain rfl := hl hclean hq
  obtain ⟨out, hout, hinst⟩ := h.list hf hsub hxs
  rw [hout]
  cases out with
  | none => exact ⟨none, rfl⟩
  | some ys =>
    have hstay := h.stays
    rw [htree] at hstay
    obtain ⟨r, hr, hrtree⟩ := hstay.node ht htree hslot hinst.trees
    exact ⟨some r, hg ys r (subst_list_length hout) (hinst.lt ys rfl) hr hrtree⟩

theorem Start.fn (h : Start k b v s n t) (hf : Finds b v s n f) (hsub : Substitutes k b v f) (hrow : s.rows[t]? = some row) (htag : row.tag = .Fn)
    {params : List (Conv × TyId)} {result raises : TyId} {closure : Bool}
    (hfn : s.fn_at row.a = some (params, result, raises, closure)) :
    ∃ out, (TyStore.then_ (subst_list f s (params.map Prod.snd)) fun s tys =>
      TyStore.then_ (f s result) fun s result =>
        TyStore.then_ (subst_raises f s raises) fun s raises => do
          let (s, id) ← s.intern_fn_ty k ((params.map Prod.fst).zip tys) result raises closure
          done (s.fn_ty k id)) = some (s, out) := by
  have hnode : s.node_of row.content =
      some (⟨.Fn (params.map Prod.fst) (raises ≠ NO_TY) closure, (0, row.b), row.quals⟩,
        fn_children (params.map Prod.snd) result raises) := by
    simp [TyRow.content, htag, node_of, hfn, fn_children]
  rw [fn_walk s (params.map Prod.snd) result raises fun s p => do
    let (s, id) ← s.intern_fn_ty k ((params.map Prod.fst).zip p.1) p.2.1 p.2.2 closure
    done (s.fn_ty k id)]
  refine h.args hf hsub hrow hnode rfl (fun hclean => Label.eq_of rfl hclean)
    fun zs r hlen hzs hr htree => ?_
  rcases hparts : fn_parts (params.map Prod.snd).length raises zs with ⟨ys, res, e⟩
  have hno : ∀ z ∈ zs, z ≠ NO_TY := by
    intro z hz hno
    have hlt := hzs z hz
    rw [hno] at hlt
    exact absurd (Nat.lt_of_lt_of_le hlt h.fits.rows) (Nat.lt_irrefl _)
  obtain ⟨hys, hchildren, hraises⟩ := fn_children_parts hlen hno hparts
  obtain ⟨hfst, hsnd⟩ := map_fst_zip_of_length (hys.trans (length_map _))
  refine fn_found h.ready.good.toInv ?_ hr ?_
  · rw [hsnd, hchildren]
    exact hzs
  · rw [hfst, hsnd, hchildren, htree]
    simp only [hraises]

theorem Start.const (h : Start k b v s n t) (hf : Finds b v s n f) (hsub : Substitutes k b v f) (hrow : s.rows[t]? = some row) (htag : row.tag = .ConstVal) :
    ∃ out, (TyStore.then_ (f s row.b) fun s t => do
      let c ← s.consts[row.a]?
      done (s.const_ty k c t)) = some (s, out) := by
  cases hc : s.consts[row.a]? with
  | none =>
    have hnode : s.node_of row.content =
        some (⟨.ConstVal none, (row.a, 0), row.quals⟩, [row.b]) := by
      simp [TyRow.content, htag, node_of, hc]
    exact (h.ready.node hrow hnode).2.2.elim
  | some c =>
    have hnode : s.node_of row.content =
        some (⟨.ConstVal (some c), (0, 0), row.quals⟩, [row.b]) := by
      simp [TyRow.content, htag, node_of, hc]
    rw [const_walk]
    refine h.args hf hsub hrow hnode rfl (fun hclean => Label.eq_of rfl hclean)
      fun ys r hlen hys hr htree => ?_
    obtain ⟨y, rfl⟩ := length_eq_one_iff.mp hlen
    simp only [hc, bind_eq_bind, bind_some]
    exact const_found h.ready.good.toInv (hys y mem_cons_self) hr htree

theorem Start.proj (h : Start k b v s n t) (hf : Finds b v s n f) (hsub : Substitutes k b v f) (hrow : s.rows[t]? = some row) (htag : row.tag = .Proj) {tr : TraitRefId}
    {name : Symbol} {d : DefId} {args : ArgsId}
    (hkey : s.proj_keys[row.b]? = some (tr, name)) (htr : s.trait_refs[tr]? = some (d, args))
    (hxs : s.args_at args = some xs) :
    ∃ out, (TyStore.then_ (subst_list f s xs) fun s ys => do
      let (s, id) ← s.intern_args k ys
      let (s, tr) ← s.intern_trait_ref k d id
      let (s, key) ← s.intern_proj_key k tr name
      TyStore.then_ (f s row.a) fun s head => do
        let head_row ← s.rows[head]?
        if is_rigid head_row then done (s.proj k head key) else some (s, none)) =
      some (s, out) := by
  have ht := (List.getElem?_eq_some_iff.mp hrow).1
  have hnode : s.node_of row.content = some (⟨.Proj d name, (0, 0), row.quals⟩, row.a :: xs) := by
    simp [TyRow.content, htag, node_of, hkey, htr, hxs]
  obtain ⟨htree, hclean, hq, hcs⟩ := h.children hrow hnode rfl
  rw [List.forall_mem_cons] at hcs
  obtain ⟨hhead, hargs⟩ := hcs
  obtain ⟨out, hout, hinst⟩ := h.list hf hsub hargs
  rw [hout]
  cases out with
  | none => exact ⟨none, rfl⟩
  | some ys =>
    obtain ⟨head, hhead_run⟩ := hf row.a hhead.1 hhead.2.1 hhead.2.2
    have hone := (hsub s row.a s head hhead_run).2 h.fits h.ready hhead.2.1
    have hstay := h.stays
    rw [htree] at hstay
    obtain ⟨r, h', hr, hh', hrtree, hsame⟩ := hstay.proj h.ready.good.toInv ht htree hhead.2.1 rfl
      hone hinst
    have hys : ∀ y ∈ h' :: ys, y < s.rows.length := by
      rw [List.forall_mem_cons]
      exact ⟨hh', hinst.lt ys rfl⟩
    obtain ⟨args', tr', key', hargs', htr', hkey', hproj⟩ :=
      proj_found h.ready.good.toInv hys hr hrtree
    have hpools := h.ready.good.toPools
    simp only [TyStore.then_, hpools.intern_args hargs', hpools.intern_trait_ref htr',
      hpools.intern_proj_key hkey', bind_eq_bind, bind_some, hhead_run]
    cases head with
    | none => exact ⟨none, rfl⟩
    | some x =>
      obtain rfl := hsame x rfl
      have hrow' := List.getElem?_eq_getElem (hone.lt h' rfl)
      simp only [hrow', bind_some]
      by_cases hrigid : is_rigid s.rows[h'] = true
      · rw [if_pos hrigid, hproj hq]
        exact ⟨some r, rfl⟩
      · rw [if_neg hrigid]
        exact ⟨none, rfl⟩

/-- `subst_core` interns nothing. -/
theorem Start.core (h : Start k b v s n t) (hf : Finds b v s n f) (hsub : Substitutes k b v f)
    (ht : t < s.rows.length) : ∃ out, subst_core k b f s t = some (s, out) := by
  have hrow := getElem?_eq_getElem ht
  obtain ⟨row, hrow⟩ : ∃ row, s.rows[t]? = some row := ⟨_, hrow⟩
  obtain ⟨l, cs, hnode⟩ : ∃ l cs, s.node_of row.content = some (l, cs) :=
    ⟨_, _, (h.ready.good.node_spec hrow).1⟩
  rw [subst_core, hrow]
  simp only [bind_eq_bind, bind_some]
  cases htag : row.tag with
  | Error => exact ⟨_, rfl⟩
  | Unit => exact ⟨_, rfl⟩
  | Never => exact ⟨_, rfl⟩
  | Prim => exact ⟨_, rfl⟩
  | Param =>
    by_cases howns : ¬ b.owns row.a = true
    · exact ⟨_, if_pos howns⟩
    · exact ⟨_, if_neg howns⟩
  | Brand =>
    simp only [TyRow.content, htag, node_of, bind_eq_bind, bind_eq_some_iff] at hnode
    obtain ⟨brand, hbrand, -⟩ := hnode
    simp only [hbrand, bind_some]
    cases brand with
    | Param owner ordinal =>
      by_cases howns : b.owns owner = true
      · exact ⟨_, if_pos howns⟩
      · exact ⟨_, if_neg howns⟩
    | Fresh owner ordinal => exact ⟨_, rfl⟩
  | Nominal =>
    simp only [TyRow.content, htag, node_of, bind_eq_bind, bind_eq_some_iff] at hnode
    obtain ⟨xs, hxs, -⟩ := hnode
    simp only [hxs, bind_some]
    refine h.args hf hsub hrow (l := ⟨.Nominal row.a, (0, 0), row.quals⟩)
      (by simp [TyRow.content, htag, node_of, hxs]) rfl (fun hclean => Label.eq_of rfl hclean)
      fun ys r _ hys hr htree => nominal_found h.ready.good.toInv hys hr htree
  | Tuple =>
    simp only [TyRow.content, htag, node_of, bind_eq_bind, bind_eq_some_iff] at hnode
    obtain ⟨xs, hxs, -⟩ := hnode
    simp only [hxs, bind_some]
    refine h.args hf hsub hrow (l := ⟨.Tuple, (row.a, 0), row.quals⟩)
      (by simp [TyRow.content, htag, node_of, hxs]) rfl (fun hclean => Label.eq_of rfl hclean)
      fun ys r _ hys hr htree => tuple_found h.ready.good.toInv hys hr htree
  | Dyn =>
    simp only [TyRow.content, htag, node_of, bind_eq_bind, bind_eq_some_iff,
      Prod.exists] at hnode
    obtain ⟨d, args, htr, xs, hxs, -⟩ := hnode
    simp only [htr, hxs, bind_some]
    refine h.args hf hsub hrow (l := ⟨.Dyn d, (0, row.b), row.quals⟩)
      (by simp [TyRow.content, htag, node_of, htr, hxs]) rfl
      (fun hclean => Label.eq_of rfl hclean)
      fun ys r _ hys hr htree => dyn_found h.ready.good.toInv hys hr htree
  | Fn =>
    simp only [TyRow.content, htag, node_of, bind_eq_bind, bind_eq_some_iff,
      Prod.exists] at hnode
    obtain ⟨params, result, raises, closure, hfn, -⟩ := hnode
    simp only [hfn, bind_some]
    exact h.fn hf hsub hrow htag hfn
  | Proj =>
    simp only [TyRow.content, htag, node_of, bind_eq_bind, bind_eq_some_iff,
      Prod.exists] at hnode
    obtain ⟨tr, name, hkey, d, args, htr, xs, hxs, -⟩ := hnode
    simp only [hkey, htr, hxs, bind_some]
    exact h.proj hf hsub hrow htag hkey htr hxs
  | ConstVal => exact h.const hf hsub hrow htag

/-! ## The substitution -/

theorem mentions_requal (T : Rose Label) :
    mentions (marks b) .none (requal .NONE T) = mentions (marks b) .none T := by
  cases T
  rfl

/-- The twin's instance is there where the type's own is. -/
theorem Stays.twin (h : s.Inv k) {T : Rose Label} (hstay : Stays b v s T) :
    Stays b v s (requal .NONE T) := by
  obtain hnone | ⟨r, hr, hsub⟩ := hstay
  · exact .inl (by rw [mentions_requal, hnone])
  · rw [subst_requal] at hsub
    obtain ⟨u, hu, hsub⟩ := bind_eq_some_iff.mp hsub
    by_cases hq : T.label.quals = .NONE
    · rw [if_pos hq] at hsub
      exact .inr ⟨r, hr, by rw [hu, hsub]⟩
    · rw [if_neg hq, ite_none_right_eq_some] at hsub
      obtain ⟨huq, hsub⟩ := hsub
      obtain ⟨hlt, htwin⟩ := h.tree_unqual (getElem?_eq_getElem hr)
      refine .inr ⟨_, hlt, ?_⟩
      rw [hu, htwin, ← some.inj hsub, requal_requal, requal_self huq]

/-- Where the twin has an unqualified instance, the qualified one is there. -/
theorem Stays.qualified {T u : Rose Label} (ht : t < s.rows.length) (htree : s.tree t = T)
    (hstay : Stays b v s T) (hq : T.label.quals ≠ .NONE)
    (hu : subst (marks b) v (requal .NONE T) = some u) (huq : u.label.quals = .NONE) :
    ∃ r, r < s.rows.length ∧ s.tree r = requal T.label.quals u := by
  obtain hnone | ⟨r, hr, hsub⟩ := hstay
  · have hself := subst_self (by rw [mentions_requal, hnone]) hu
    exact ⟨t, ht, by rw [hself, requal_requal, requal_self rfl, htree]⟩
  · rw [subst_requal, hu, bind_some, if_neg hq, if_pos huq] at hsub
    exact ⟨r, hr, (some.inj hsub).symm⟩

theorem finds_subst_norm (hready : Ready k b v s) (hfit : s.Fits) (fuel : Nat) :
    Finds b v s fuel (subst_norm k b fuel) := by
  induction fuel with
  | zero => exact fun x hx => absurd hx (Nat.not_lt_zero x)
  | succ fuel ih =>
    intro t hfuel ht hstay
    have hrow := getElem?_eq_getElem ht
    obtain ⟨row, hrow⟩ : ∃ row, s.rows[t]? = some row := ⟨_, hrow⟩
    rw [subst_norm, hrow]
    simp only [bind_eq_bind, bind_some]
    by_cases hmono : is_monomorphic row = true
    · exact ⟨_, if_pos hmono⟩
    rw [if_neg hmono]
    obtain ⟨hlt, htwin⟩ := hready.good.tree_unqual hrow
    have hstart : Start k b v s fuel row.unqual := by
      refine ⟨hready, hfit, fun c hc => ?_, ?_, ?_⟩
      · obtain ⟨hnode, hbelow, -⟩ := hready.good.node_spec hrow
        obtain ⟨twin, htwin, hcontent⟩ := hready.good.twin t row hrow
        rw [hready.good.node_eq htwin (hcontent ▸ node_of_quals .NONE hnode)] at hc
        exact Nat.lt_of_lt_of_le (hbelow c hc) (Nat.le_of_lt_succ hfuel)
      · rw [htwin, requal_quals]
      · rw [htwin]
        exact hstay.twin hready.good.toInv
    have hwalk := subst_norm_post k b v fuel
    obtain ⟨out, hout⟩ := hstart.core ih hwalk hlt
    have hinst := (subst_core_post hwalk s row.unqual s out hout).2 hfit hready hstart.unqual
    rw [hout]
    cases out with
    | none => exact ⟨none, rfl⟩
    | some r =>
      simp only [TyStore.then_]
      by_cases hq : row.quals = .NONE
      · exact ⟨_, if_pos hq⟩
      rw [if_neg hq]
      have hr := hinst.lt r rfl
      have hrow' := getElem?_eq_getElem hr
      simp only [hrow', bind_some]
      by_cases hrq : s.rows[r].quals = .NONE
      · rw [if_neg (not_not.mpr hrq)]
        have hquals := (hready.good.label_quals hrow).1
        have hrquals := (hready.good.label_quals hrow').1
        rw [hrq] at hrquals
        have hu := hinst.tree
        rw [htwin, map_some] at hu
        obtain ⟨r', hr', htree⟩ := hstay.qualified ht rfl (by rw [hquals]; exact hq) hu hrquals
        rw [hquals] at htree
        exact ⟨_, qualified_found hready.good.toInv hq hr hrquals hr' htree⟩
      · exact ⟨_, if_pos hrq⟩

end Fors.Ty
