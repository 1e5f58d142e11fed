import Fors.Ty.HashCons

/-!
# Canonical stores

The typed constructors leave the columns they do not use at zero. In such a store a type keeps its
tree as the store grows, and a constructor that is asked for a type the store has returns its row.

Principal results: `Reached.good` and `Inv.content_of`.
-/

namespace Fors.Ty

open Trees List
open Option hiding pure_def

/-- The unused columns are as the typed constructors set them, and the constant is in its pool. -/
def Label.Clean (l : Label) : Prop :=
  match l.head with
  | .Brand row => l.spare = (row.kind.as_u32, 0)
  | .ConstVal none => False
  | _ => l.spare = (0, 0)

namespace TyStore

def Canonical (s : TyStore) : Prop :=
  ∀ t < s.rows.length, (s.node t).1.Clean

structure Good (k : Keys) (s : TyStore) : Prop extends Inv k s where
  canonical : s.Canonical

variable {k : Keys} {s s' : TyStore} {id : Nat} {t : TyId}

/-! ## Nodes -/

variable {l : Label} {cs : List TyId}

theorem Extends.node_of_clean (h : s.Extends s') {c : Content}
    (hc : s.node_of c = some (l, cs)) (hclean : l.Clean) : s'.node_of c = some (l, cs) := by
  obtain ⟨tag, a, b, q⟩ := c
  cases tag with
  | ConstVal =>
    simp only [TyStore.node_of] at hc ⊢
    cases ha : s.consts[a]? with
    | none =>
      rw [ha] at hc
      obtain ⟨rfl, -⟩ := Prod.mk.inj (some.inj hc)
      exact hclean.elim
    | some v =>
      rw [ha] at hc
      rw [getElem?_kept h.consts ha]
      exact hc
  | _ =>
    simp only [TyStore.node_of, bind_eq_bind, bind_eq_some_iff, Option.pure_def,
      Prod.exists] at hc ⊢
    grind [Extends.args_at, Extends.fn_at, getElem?_kept, Extends]

variable {row : TyRow}

theorem Inv.node_eq (h : s.Inv k) (hrow : s.rows[t]? = some row) (hnode : s.node_of row.content = some (l, cs)) : s.node t = (l, cs) :=
  some.inj ((h.node_spec hrow).1.symm.trans hnode)

theorem Inv.tree_node (h : s.Inv k) (hrow : s.rows[t]? = some row) (hnode : s.node_of row.content = some (l, cs)) :
    s.tree t = .node l (cs.map s.tree) := by
  have ht := (List.getElem?_eq_some_iff.mp hrow).1
  rw [tree, Trees.tree_eq h.descends ht, h.node_eq hrow hnode]

theorem Good.node_extends (h : s.Good k) (hext : s.Extends s') (h' : s'.Inv k)
    (ht : t < s.rows.length) : s'.node t = s.node t := by
  have hrow := getElem?_eq_getElem ht
  have hnode := hext.node_of_clean (h.node_spec hrow).1 (h.canonical t ht)
  exact h'.node_eq (getElem?_kept hext.rows hrow) hnode

theorem Good.tree_extends (h : s.Good k) (hext : s.Extends s') (h' : s'.Inv k)
    (ht : t < s.rows.length) : s'.tree t = s.tree t := by
  induction t using Nat.strongRecOn with
  | ind t ih =>
    have ht' : t < s'.rows.length := Nat.lt_of_lt_of_le ht hext.rows.length_le
    rw [tree, tree, Trees.tree_eq h.descends ht, Trees.tree_eq h'.descends ht',
      h.node_extends hext h' ht]
    congr 1
    refine map_congr_left fun c hc => ?_
    have hct := h.descends t ht c hc
    exact ih c hct (hct.trans ht)

variable {xs : List TyId}

theorem Good.map_tree_extends (h : s.Good k) (hext : s.Extends s') (h' : s'.Inv k) (hxs : ∀ x ∈ xs, x < s.rows.length) : xs.map s'.tree = xs.map s.tree :=
  map_congr_left fun x hx => h.tree_extends hext h' (hxs x hx)

/-- A row whose type is known is the row of that node. -/
theorem Inv.node_of_tree (h : s.Inv k) (hrow : s.rows[t]? = some row) (hcs : ∀ c ∈ cs, c < s.rows.length) (htree : s.tree t = .node l (cs.map s.tree)) :
    s.node_of row.content = some (l, cs) := by
  have ht := (List.getElem?_eq_some_iff.mp hrow).1
  obtain ⟨hnode, hlt, -⟩ := h.node_spec hrow
  rw [tree, Trees.tree_eq h.descends ht] at htree
  obtain ⟨hl, hmap⟩ := Rose.node.inj htree
  rw [hnode]
  refine congrArg some (Prod.ext hl (Trees.eq_of_map_eq hmap fun a ha b hb hab => ?_))
  have hat := hlt a ha
  exact Trees.tree_inj h.descends h.node_inj (hat.trans ht) (hcs b hb) hab

/-- The children of a row's tree are the trees of rows. -/
theorem Inv.tree_children (h : s.Inv k) (ht : t < s.rows.length)
    {us : List (Rose Label)} (htree : s.tree t = .node l us) :
    ∃ ys, s.node t = (l, ys) ∧ us = ys.map s.tree ∧ ∀ y ∈ ys, y < s.rows.length := by
  rw [tree, Trees.tree_eq h.descends ht] at htree
  obtain ⟨rfl, rfl⟩ := Rose.node.inj htree
  exact ⟨_, rfl, rfl, fun y hy => (h.descends t ht y hy).trans ht⟩

/-- The content of a row whose type is known. -/
theorem Inv.content_of (h : s.Inv k) (ht : t < s.rows.length) {ys : List TyId}
    (hys : ∀ y ∈ ys, y < s.rows.length) (htree : s.tree t = .node l (ys.map s.tree)) :
    ∃ tag a b, (∃ row, s.rows[t]? = some row ∧ row.content = (tag, a, b, l.quals)) ∧
      tag = l.head.tag ∧ s.node_of (tag, a, b, l.quals) = some (l, ys) := by
  have hrow := getElem?_eq_getElem ht
  have hnode := h.node_of_tree hrow hys htree
  obtain ⟨htag, hquals⟩ := node_of_tag hnode
  have hcontent : (s.rows[t]).content =
      ((s.rows[t]).tag, (s.rows[t]).a, (s.rows[t]).b, l.quals) := by
    rw [hquals]
    rfl
  refine ⟨_, _, _, ⟨_, hrow, hcontent⟩, htag.symm, ?_⟩
  rw [← hcontent]
  exact hnode

/-! ## Interning keeps the store canonical -/

theorem Good.of_inv (h : s.Good k) (hext : s.Extends s') (h' : s'.Inv k)
    (hnew : ∀ t, s.rows.length ≤ t → t < s'.rows.length → (s'.node t).1.Clean) : s'.Good k where
  toInv := h'
  canonical := by
    intro t ht
    by_cases hold : t < s.rows.length
    · rw [h.node_extends hext h' hold]
      exact h.canonical t hold
    · exact hnew t (by omega) ht

theorem Good.of_rows (h : s.Good k) (hext : s.Extends s') (h' : s'.Inv k)
    (hrows : s'.rows = s.rows) : s'.Good k :=
  h.of_inv hext h' fun t hold ht => absurd ht (by rw [hrows]; omega)

variable {tag : TyTag} {a b : Nat} {quals : Quals}

/-- A row that `intern` pushes has the columns it was asked for. -/
theorem intern_unqual_rows (hrun : s.intern_unqual k tag a b = some (s', id))
    (hold : s.rows.length ≤ t) (hrow : s'.rows[t]? = some row) :
    row.tag = tag ∧ row.a = a ∧ row.b = b := by
  obtain ⟨-, rfl⟩ | ⟨-, flags, -, hpush⟩ := intern_unqual_cases hrun
  · have := (List.getElem?_eq_some_iff.mp hrow).1
    omega
  · obtain ⟨-, cons, -, rfl⟩ := push_row_eq_some.mp hpush
    obtain hrow | ⟨-, rfl⟩ := getElem?_concat_eq_some.mp hrow
    · have := (List.getElem?_eq_some_iff.mp hrow).1
      omega
    · exact ⟨rfl, rfl, rfl⟩

theorem intern_rows (hrun : s.intern k tag a b quals = some (s', id))
    (hold : s.rows.length ≤ t) (hrow : s'.rows[t]? = some row) :
    row.tag = tag ∧ row.a = a ∧ row.b = b := by
  by_cases hq : quals = .NONE
  · rw [intern, if_pos hq] at hrun
    exact intern_unqual_rows hrun hold hrow
  · obtain ⟨-, rfl⟩ | ⟨-, flags, -, s1, u, hunqual, hpush⟩ := intern_cases hq hrun
    · have := (List.getElem?_eq_some_iff.mp hrow).1
      omega
    · obtain ⟨-, cons, -, rfl⟩ := push_row_eq_some.mp hpush
      obtain hrow | ⟨-, rfl⟩ := getElem?_concat_eq_some.mp hrow
      · exact intern_unqual_rows hunqual hold hrow
      · exact ⟨rfl, rfl, rfl⟩

/-- `intern` of clean columns returns a row of that content. -/
theorem good_intern (h : s.Good k) (hrun : s.intern k tag a b quals = some (s', id))
    (hfit : s'.Fits)
    (hclean : ∀ q l cs, s'.node_of (tag, a, b, q) = some (l, cs) → l.Clean) :
    s'.Good k ∧ ∃ row, s'.rows[id]? = some row ∧ row.content = (tag, a, b, quals) := by
  obtain ⟨h', hread⟩ := inv_intern h.toInv hrun hfit
  refine ⟨h.of_inv (extends_intern hrun) h' fun t hold ht => ?_, hread⟩
  have hrow := getElem?_eq_getElem ht
  obtain ⟨htag, ha, hb⟩ := intern_rows hrun hold hrow
  refine hclean (s'.rows[t]).quals _ (s'.node t).2 ?_
  rw [← htag, ← ha, ← hb]
  exact (h'.node_spec hrow).1

/-- `good_intern`, with the tree of the row. -/
theorem good_intern_tree (h : s.Good k) (hrun : s.intern k tag a b quals = some (s', id))
    (hfit : s'.Fits)
    (hnode : s'.node_of (tag, a, b, quals) = some (l, cs)) (hcs : ∀ c ∈ cs, c < s.rows.length)
    (hclean : ∀ q l cs, s'.node_of (tag, a, b, q) = some (l, cs) → l.Clean) :
    s'.Good k ∧ id < s'.rows.length ∧ s'.tree id = .node l (cs.map s.tree) := by
  obtain ⟨hgood, row, hrow, hcontent⟩ := good_intern h hrun hfit hclean
  refine ⟨hgood, (List.getElem?_eq_some_iff.mp hrow).1, ?_⟩
  rw [hgood.tree_node hrow (hcontent ▸ hnode),
    h.map_tree_extends (extends_intern hrun) hgood.toInv hcs]

/-! ## Constructors

What each typed constructor makes of types the store has. -/

theorem rows_intern_in {cons : ConsTable} {key : Nat} {same : Nat → Bool} {len : Nat}
    {push : ConsTable → Option TyStore}
    (hpush : ∀ cons' s'', push cons' = some s'' → s''.rows = s.rows)
    (h : s.intern_in cons key same len push = some (s', id)) : s'.rows = s.rows := by
  obtain ⟨-, rfl⟩ | ⟨-, -, cons', -, hs'⟩ := intern_in_cases h
  · rfl
  · exact hpush cons' s' hs'

theorem good_intern_args (h : s.Good k)
    (hrun : s.intern_args k xs = some (s', id)) (hfit : s'.Fits) :
    s'.Good k ∧ s'.args_at id = some xs := by
  obtain ⟨h', hread⟩ := inv_intern_args h.toInv hrun hfit
  refine ⟨h.of_rows (extends_intern_args hrun) h' (rows_intern_in (fun cons s'' hpush => ?_) hrun),
    hread⟩
  obtain ⟨-, hpush⟩ := ite_none_right_eq_some.mp hpush
  cases hpush
  rfl

variable {d : DefId} {args : ArgsId}

theorem good_intern_trait_ref (h : s.Good k)
    (hrun : s.intern_trait_ref k d args = some (s', id)) (hfit : s'.Fits) :
    s'.Good k ∧ s'.trait_refs[id]? = some (d, args) := by
  obtain ⟨h', hread⟩ := inv_intern_trait_ref h.toInv hrun hfit
  refine ⟨h.of_rows (extends_intern_trait_ref hrun) h'
    (rows_intern_in (fun cons s'' hpush => ?_) hrun), hread⟩
  cases hpush
  rfl

variable {tr : TraitRefId}

variable {name : Symbol}

theorem good_intern_proj_key (h : s.Good k)
    (hrun : s.intern_proj_key k tr name = some (s', id)) (hfit : s'.Fits) :
    s'.Good k ∧ s'.proj_keys[id]? = some (tr, name) := by
  obtain ⟨h', hread⟩ := inv_intern_proj_key h.toInv hrun hfit
  refine ⟨h.of_rows (extends_intern_proj_key hrun) h'
    (rows_intern_in (fun cons s'' hpush => ?_) hrun), hread⟩
  cases hpush
  rfl

variable {params : List (Conv × TyId)} {result raises : TyId} {closure : Bool}

theorem good_intern_fn_ty
    (h : s.Good k) (hrun : s.intern_fn_ty k params result raises closure = some (s', id))
    (hfit : s'.Fits) : s'.Good k ∧ s'.fn_at id = some (params, result, raises, closure) := by
  obtain ⟨h', hread⟩ := inv_intern_fn_ty h.toInv hrun hfit
  refine ⟨h.of_rows (extends_intern_fn_ty hrun) h'
    (rows_intern_in (fun cons s'' hpush => ?_) hrun), hread⟩
  obtain ⟨-, hpush⟩ := ite_none_right_eq_some.mp hpush
  cases hpush
  rfl

theorem good_intern_brand {row : BrandRow} (h : s.Good k)
    (hrun : s.intern_brand k row = some (s', id)) (hfit : s'.Fits) :
    s'.Good k ∧ s'.brands[id]? = some row := by
  obtain ⟨h', hread⟩ := inv_intern_brand h.toInv hrun hfit
  refine ⟨h.of_rows (extends_intern_brand hrun) h'
    (rows_intern_in (fun cons s'' hpush => ?_) hrun), hread⟩
  cases hpush
  rfl

variable {v : ConstValue}

theorem good_intern_const (h : s.Good k)
    (hrun : s.intern_const k v = some (s', id)) (hfit : s'.Fits) :
    s'.Good k ∧ s'.consts[id]? = some v := by
  obtain ⟨h', hread⟩ := inv_intern_const h.toInv hrun hfit
  refine ⟨h.of_rows (extends_intern_const hrun) h'
    (rows_intern_in (fun cons s'' hpush => ?_) hrun), hread⟩
  cases hpush
  rfl

/-- `r` is a row of that type. -/
def HasTree (s : TyStore) (r : TyId) (T : Rose Label) : Prop :=
  r < s.rows.length ∧ s.tree r = T

theorem good_nominal (h : s.Good k)
    (hargs : s.args_at args = some xs) (hxs : ∀ x ∈ xs, x < s.rows.length)
    (hrun : s.nominal k d args = some (s', id)) (hfit : s'.Fits) :
    s'.Good k ∧ s'.HasTree id (.node ⟨.Nominal d, (0, 0), .NONE⟩ (xs.map s.tree)) := by
  have hargs' := (extends_intern hrun).args_at hargs
  exact good_intern_tree h hrun hfit (by simp [node_of, hargs']) hxs
    (by simp [node_of, hargs', Label.Clean])

theorem good_tuple (h : s.Good k)
    (hargs : s.args_at args = some xs) (hxs : ∀ x ∈ xs, x < s.rows.length)
    (hrun : s.tuple k args = some (s', id)) (hfit : s'.Fits) :
    s'.Good k ∧ s'.HasTree id (.node ⟨.Tuple, (0, 0), .NONE⟩ (xs.map s.tree)) := by
  have hargs' := (extends_intern hrun).args_at hargs
  exact good_intern_tree h hrun hfit (by simp [node_of, hargs']) hxs
    (by simp [node_of, hargs', Label.Clean])

theorem good_dyn_ty (h : s.Good k)
    (htr : s.trait_refs[tr]? = some (d, args)) (hargs : s.args_at args = some xs)
    (hxs : ∀ x ∈ xs, x < s.rows.length) (hrun : s.dyn_ty k tr = some (s', id)) (hfit : s'.Fits) :
    s'.Good k ∧ s'.HasTree id (.node ⟨.Dyn d, (0, 0), .NONE⟩ (xs.map s.tree)) := by
  have hargs' := (extends_intern hrun).args_at hargs
  have htr' := getElem?_kept (extends_intern hrun).trait_refs htr
  exact good_intern_tree h hrun hfit (by simp [node_of, htr', hargs']) hxs
    (by simp [node_of, htr', hargs', Label.Clean])

/-- The children of a function type. -/
def fn_children (tys : List TyId) (result raises : TyId) : List TyId :=
  tys ++ result :: if raises = NO_TY then [] else [raises]

theorem good_fn_ty {f : FnTyId} (h : s.Good k) (hfn : s.fn_at f = some (params, result, raises, closure))
    (hxs : ∀ x ∈ fn_children (params.map Prod.snd) result raises, x < s.rows.length)
    (hrun : s.fn_ty k f = some (s', id)) (hfit : s'.Fits) :
    s'.Good k ∧ s'.HasTree id
      (.node ⟨.Fn (params.map Prod.fst) (raises ≠ NO_TY) closure, (0, 0), .NONE⟩
        ((fn_children (params.map Prod.snd) result raises).map s.tree)) := by
  have hfn' := (extends_intern hrun).fn_at hfn
  exact good_intern_tree h hrun hfit (by simp [node_of, hfn', fn_children]) hxs
    (by simp [node_of, hfn', Label.Clean])

theorem good_proj {head : TyId} {key : ProjKeyId} (h : s.Good k) (hkey : s.proj_keys[key]? = some (tr, name))
    (htr : s.trait_refs[tr]? = some (d, args)) (hargs : s.args_at args = some xs)
    (hxs : ∀ x ∈ head :: xs, x < s.rows.length) (hrun : s.proj k head key = some (s', id))
    (hfit : s'.Fits) :
    s'.Good k ∧ s'.HasTree id (.node ⟨.Proj d name, (0, 0), .NONE⟩ ((head :: xs).map s.tree)) := by
  have hargs' := (extends_intern hrun).args_at hargs
  have htr' := getElem?_kept (extends_intern hrun).trait_refs htr
  have hkey' := getElem?_kept (extends_intern hrun).proj_keys hkey
  exact good_intern_tree h hrun hfit (by simp [node_of, hkey', htr', hargs']) hxs
    (by simp [node_of, hkey', htr', hargs', Label.Clean])

theorem good_const_ty {ty : TyId} (h : s.Good k) (hty : ty < s.rows.length)
    (hrun : s.const_ty k v ty = some (s', id)) (hfit : s'.Fits) :
    s'.Good k ∧ s'.HasTree id (.node ⟨.ConstVal (some v), (0, 0), .NONE⟩ [s.tree ty]) := by
  obtain ⟨⟨s1, c⟩, hconst, hrow⟩ := bind_eq_some_iff.mp hrun
  change s1.intern k .ConstVal c ty .NONE = some (s', id) at hrow
  have hext := extends_intern_const hconst
  have hext' := extends_intern hrow
  obtain ⟨h1, hread⟩ := good_intern_const h hconst (hext'.fits hfit)
  have hread' := getElem?_kept hext'.consts hread
  have hnode : s'.node_of (.ConstVal, c, ty, .NONE) =
      some (⟨.ConstVal (some v), (0, 0), .NONE⟩, [ty]) := by simp [node_of, hread']
  rw [← h.tree_extends hext h1.toInv hty]
  refine good_intern_tree h1 hrow hfit hnode ?_ (by simp [node_of, hread', Label.Clean])
  simpa using Nat.lt_of_lt_of_le hty hext.rows.length_le

/-- The type with other qualifiers. -/
def requal (q : Quals) : Rose Label → Rose Label
  | .node l cs => .node { l with quals := q } cs

theorem node_of_quals (q : Quals) (h : s.node_of (tag, a, b, quals) = some (l, cs)) :
    s.node_of (tag, a, b, q) = some ({ l with quals := q }, cs) := by
  cases tag with
  | ConstVal =>
    rw [node_of] at h ⊢
    cases hc : s.consts[a]? <;> rw [hc] at h
    all_goals
      cases h
      rfl
  | _ =>
    simp only [node_of, bind_eq_bind, bind_eq_some_iff, Option.pure_def,
      some.injEq, Prod.mk.injEq, Prod.exists] at h ⊢
    grind

/-- The twin of a row is its type without qualifiers. -/
theorem Inv.tree_unqual (h : s.Inv k) (hrow : s.rows[t]? = some row) :
    s.HasTree row.unqual (requal .NONE (s.tree t)) := by
  obtain ⟨twin, htwin, hcontent⟩ := h.twin t row hrow
  obtain ⟨hnode, -⟩ := h.node_spec hrow
  refine ⟨(List.getElem?_eq_some_iff.mp htwin).1, ?_⟩
  have hnode' := node_of_quals .NONE hnode
  rw [h.tree_node htwin (hcontent ▸ hnode'), h.tree_node hrow hnode]
  rfl

theorem Inv.label_quals (h : s.Inv k) (hrow : s.rows[t]? = some row) :
    (s.tree t).label.quals = row.quals ∧ (s.tree t).label.head.tag = row.tag := by
  obtain ⟨hnode, -⟩ := h.node_spec hrow
  rw [h.tree_node hrow hnode]
  obtain ⟨htag, hquals⟩ := node_of_tag hnode
  exact ⟨hquals, htag⟩

theorem good_qualified {q : Quals} (h : s.Good k) (hrow : s.rows[t]? = some row)
    (hrun : s.qualified k t q = some (s', id)) (hfit : s'.Fits) :
    s'.Good k ∧ s'.HasTree id (requal (row.quals ||| q) (s.tree t)) := by
  rw [qualified, hrow] at hrun
  simp only [bind_eq_bind, bind_some] at hrun
  obtain ⟨hnode, hlt, -⟩ := h.node_spec hrow
  have ht := (List.getElem?_eq_some_iff.mp hrow).1
  by_cases hq : row.quals ||| q = row.quals
  · rw [if_pos hq] at hrun
    obtain ⟨rfl, rfl⟩ := Prod.mk.inj (some.inj hrun)
    refine ⟨h, ht, ?_⟩
    have hquals : (s.node t).1.quals = row.quals := (node_of_tag hnode).2
    rw [hq, ← hquals, h.tree_node hrow hnode]
    rfl
  · rw [if_neg hq] at hrun
    have hext := extends_intern hrun
    have hclean := h.canonical t ht
    have hnode' := hext.node_of_clean hnode hclean
    have htree := good_intern_tree h hrun hfit (node_of_quals (row.quals ||| q) hnode')
      (fun c hc => (hlt c hc).trans ht) fun q' l cs hl => ?_
    · rw [h.tree_node hrow hnode]
      exact htree
    · rw [node_of_quals q' hnode'] at hl
      obtain ⟨rfl, -⟩ := Prod.mk.inj (some.inj hl)
      exact hclean

/-! ## What the store already has

Asked for an entry that is there, every operation returns its id and the store as it is. -/

theorem intern_in_found {α : Type} {cons : ConsTable} {key : α → Nat} {entries : List α} {x : α}
    {same : Nat → Bool} {len : Nat} {push : ConsTable → Option TyStore}
    (hpool : Pool cons key entries)
    (hsame : ∀ v y, entries[v]? = some y → (same v = true ↔ y = x)) (hx : entries[id]? = some x) :
    s.intern_in cons (key x) same len push = some (s, id) := by
  obtain ⟨v, hv, hvx⟩ | ⟨-, hmem⟩ := hpool.lookup hsame
  · obtain rfl := hpool.index_inj hvx hx
    simp [intern_in, hv]
  · exact absurd (mem_of_getElem? hx) hmem

theorem Pools.intern_args (h : s.Pools k) (hx : s.args_at id = some xs) :
    s.intern_args k xs = some (s, id) :=
  intern_in_found h.args (fun v y hy => by simp [h.args_at_eq, hy]) (by rwa [← h.args_at_eq])

theorem Pools.intern_trait_ref (h : s.Pools k)
    (hx : s.trait_refs[id]? = some (d, args)) : s.intern_trait_ref k d args = some (s, id) :=
  intern_in_found h.trait_refs (fun v y hy => by simp [hy]) hx

theorem Pools.intern_proj_key (h : s.Pools k)
    (hx : s.proj_keys[id]? = some (tr, name)) : s.intern_proj_key k tr name = some (s, id) :=
  intern_in_found h.proj_keys (fun v y hy => by simp [hy]) hx

theorem Pools.intern_fn_ty (h : s.Pools k) (hx : s.fn_at id = some (params, result, raises, closure)) :
    s.intern_fn_ty k params result raises closure = some (s, id) :=
  intern_in_found h.fn_tys (fun v y hy => by simp [h.fn_at_eq, hy]) (by rwa [← h.fn_at_eq])

theorem Pools.intern_const (h : s.Pools k) (hx : s.consts[id]? = some v) :
    s.intern_const k v = some (s, id) :=
  intern_in_found h.consts (fun v y hy => by simp [hy]) hx

theorem Inv.find_row (h : s.Inv k) (hrow : s.rows[t]? = some row)
    (hcontent : row.content = (tag, a, b, quals)) :
    s.find_row k tag a b quals = some (some t) := by
  obtain ⟨u, row', hu, hrow', hcontent'⟩ | ⟨-, hmem⟩ := @find_row_spec k s tag a b quals h.rows
  · obtain rfl : u = t := by
      refine h.rows.index_inj (x := (tag, a, b, quals)) ?_ ?_
      · rw [getElem?_map, hrow', map_some, hcontent']
      · rw [getElem?_map, hrow, map_some, hcontent]
    exact hu
  · exact absurd (mem_map.mpr ⟨row, mem_of_getElem? hrow, hcontent⟩) hmem

theorem Inv.intern (h : s.Inv k) (hrow : s.rows[t]? = some row)
    (hcontent : row.content = (tag, a, b, quals)) : s.intern k tag a b quals = some (s, t) := by
  have hfound := h.find_row hrow hcontent
  by_cases hq : quals = .NONE
  · subst hq
    simp [TyStore.intern, intern_unqual, hfound]
  · simp [TyStore.intern, hq, hfound]

/-! ## Runs of the typed constructors -/

/-- Every operation but the raw `intern`, which the typed constructors alone call. -/
def Op.Typed : Op → Prop
  | .intern _ _ _ _ => False
  | _ => True

/-- The tags whose own columns `intern` is called with. -/
theorem clean_of_columns (hbrand : tag = .Brand → ∀ row, s.brands[b]? = some row → a = row.kind.as_u32)
    (hconst : tag = .ConstVal → s.consts[a]? ≠ none)
    (hzero : (tag = .Error ∨ tag = .Unit ∨ tag = .Never → a = 0 ∧ b = 0) ∧
      (tag = .Prim ∨ tag = .Fn ∨ tag = .Dyn → b = 0) ∧ (tag = .Tuple → a = 0)) :
    ∀ q l cs, s.node_of (tag, a, b, q) = some (l, cs) → l.Clean := by
  intro q l cs h
  obtain ⟨hleaf, hb, ha⟩ := hzero
  cases tag with
  | ConstVal =>
    rw [node_of] at h
    cases hc : s.consts[a]? with
    | none => exact absurd hc (hconst rfl)
    | some v =>
      rw [hc] at h
      obtain ⟨rfl, -⟩ := Prod.mk.inj (some.inj h)
      exact rfl
  | Brand =>
    simp only [node_of, bind_eq_bind, bind_eq_some_iff, Option.pure_def,
      some.injEq, Prod.mk.injEq] at h
    obtain ⟨row, hrow, rfl, -⟩ := h
    rw [Label.Clean, hbrand rfl row hrow]
  | _ =>
    simp only [node_of, bind_eq_bind, bind_eq_some_iff, Option.pure_def,
      some.injEq, Prod.mk.injEq, Prod.exists] at h
    grind [Label.Clean]

/-- `intern` with the columns of a typed constructor. -/
theorem good_intern_columns (h : s.Good k) (hrun : s.intern k tag a b quals = some (s', id))
    (hfit : s'.Fits)
    (hbrand : tag = .Brand → ∃ row, s.brands[b]? = some row ∧ a = row.kind.as_u32)
    (hconst : tag = .ConstVal → ∃ v, s.consts[a]? = some v)
    (hzero : (tag = .Error ∨ tag = .Unit ∨ tag = .Never → a = 0 ∧ b = 0) ∧
      (tag = .Prim ∨ tag = .Fn ∨ tag = .Dyn → b = 0) ∧ (tag = .Tuple → a = 0)) : s'.Good k := by
  have hext := extends_intern hrun
  refine (good_intern h hrun hfit (clean_of_columns (fun ht row hrow => ?_) (fun ht hnone => ?_)
    hzero)).1
  · obtain ⟨row', hrow', ha⟩ := hbrand ht
    rw [getElem?_kept hext.brands hrow'] at hrow
    rw [ha, some.inj hrow]
  · obtain ⟨v, hv⟩ := hconst ht
    rw [getElem?_kept hext.consts hv] at hnone
    exact nomatch hnone

theorem good_step {op : Op} (htyped : op.Typed) (h : s.Good k)
    (hrun : s.step k op = some (s', id)) (hfit : s'.Fits) : s'.Good k := by
  cases op with
  | intern tag a b quals => exact htyped.elim
  | intern_args xs => exact (good_intern_args h hrun hfit).1
  | intern_trait_ref d args => exact (good_intern_trait_ref h hrun hfit).1
  | intern_proj_key tr name => exact (good_intern_proj_key h hrun hfit).1
  | intern_fn_ty params result raises closure => exact (good_intern_fn_ty h hrun hfit).1
  | intern_brand row => exact (good_intern_brand h hrun hfit).1
  | intern_const v => exact (good_intern_const h hrun hfit).1
  | prim p =>
    change s.intern k .Prim p.as_u32 0 .NONE = _ at hrun
    exact good_intern_columns h hrun hfit nofun nofun (by simp)
  | nominal d args =>
    change s.intern k .Nominal d args .NONE = _ at hrun
    exact good_intern_columns h hrun hfit nofun nofun (by simp)
  | tuple args =>
    change s.intern k .Tuple 0 args .NONE = _ at hrun
    exact good_intern_columns h hrun hfit nofun nofun (by simp)
  | fn_ty f =>
    change s.intern k .Fn f 0 .NONE = _ at hrun
    exact good_intern_columns h hrun hfit nofun nofun (by simp)
  | dyn_ty tr =>
    change s.intern k .Dyn tr 0 .NONE = _ at hrun
    exact good_intern_columns h hrun hfit nofun nofun (by simp)
  | param owner ordinal =>
    change s.intern k .Param owner ordinal .NONE = _ at hrun
    exact good_intern_columns h hrun hfit nofun nofun (by simp)
  | proj head key =>
    change s.intern k .Proj head key .NONE = _ at hrun
    exact good_intern_columns h hrun hfit nofun nofun (by simp)
  | nominal_of d xs =>
    obtain ⟨⟨s1, args⟩, hargs, hrow⟩ := bind_eq_some_iff.mp hrun
    change s1.intern k .Nominal d args .NONE = _ at hrow
    have h1 := (good_intern_args h hargs ((extends_intern hrow).fits hfit)).1
    exact good_intern_columns h1 hrow hfit nofun nofun (by simp)
  | tuple_of xs =>
    obtain ⟨⟨s1, args⟩, hargs, hrow⟩ := bind_eq_some_iff.mp hrun
    change s1.intern k .Tuple 0 args .NONE = _ at hrow
    have h1 := (good_intern_args h hargs ((extends_intern hrow).fits hfit)).1
    exact good_intern_columns h1 hrow hfit nofun nofun (by simp)
  | proj_of head d xs name =>
    obtain ⟨⟨s1, args⟩, hargs, hrun⟩ := bind_eq_some_iff.mp hrun
    obtain ⟨⟨s2, tr⟩, htr, hrun⟩ := bind_eq_some_iff.mp hrun
    obtain ⟨⟨s3, pk⟩, hpk, hrow⟩ := bind_eq_some_iff.mp hrun
    change s3.intern k .Proj head pk .NONE = _ at hrow
    have hfit3 := (extends_intern hrow).fits hfit
    have hfit2 := (extends_intern_proj_key hpk).fits hfit3
    have hfit1 := (extends_intern_trait_ref htr).fits hfit2
    have h1 := (good_intern_args h hargs hfit1).1
    have h2 := (good_intern_trait_ref h1 htr hfit2).1
    have h3 := (good_intern_proj_key h2 hpk hfit3).1
    exact good_intern_columns h3 hrow hfit nofun nofun (by simp)
  | brand_ty row =>
    obtain ⟨⟨s1, brand⟩, hbrand, hrow⟩ := bind_eq_some_iff.mp hrun
    change s1.intern k .Brand row.kind.as_u32 brand .NONE = _ at hrow
    obtain ⟨h1, hread⟩ := good_intern_brand h hbrand ((extends_intern hrow).fits hfit)
    exact good_intern_columns h1 hrow hfit (fun _ => ⟨row, hread, rfl⟩) nofun (by simp)
  | const_ty v ty =>
    obtain ⟨⟨s1, c⟩, hconst, hrow⟩ := bind_eq_some_iff.mp hrun
    change s1.intern k .ConstVal c ty .NONE = _ at hrow
    obtain ⟨h1, hread⟩ := good_intern_const h hconst ((extends_intern hrow).fits hfit)
    exact good_intern_columns h1 hrow hfit nofun (fun _ => ⟨v, hread⟩) (by simp)
  | qualified t q =>
    obtain ⟨row, hrow, -⟩ := bind_eq_some_iff.mp hrun
    exact (good_qualified h hrow hrun hfit).1

theorem good_run {ops : List Op} (htyped : ∀ op ∈ ops, op.Typed) (h : s.Good k)
    (hrun : run k ops s = some s') (hfit : s'.Fits) : s'.Good k := by
  induction ops generalizing s with
  | nil =>
    cases hrun
    exact h
  | cons op ops ih =>
    rw [forall_mem_cons] at htyped
    obtain ⟨⟨s1, id⟩, hstep, hrest⟩ := bind_eq_some_iff.mp hrun
    have hfit1 := (kept_extends.run hrest).fits hfit
    exact ih htyped.2 (good_step htyped.1 h hstep hfit1) hrest

theorem good_new (hnew : new k = some s) (hfit : s.Fits) : s.Good k := by
  have hrun := run_of_new hnew
  obtain ⟨⟨s1, _⟩, h1, hrun⟩ := bind_eq_some_iff.mp hrun
  obtain ⟨⟨s2, _⟩, h2, hrun⟩ := bind_eq_some_iff.mp hrun
  obtain ⟨⟨s3, _⟩, h3, hrun⟩ := bind_eq_some_iff.mp hrun
  obtain ⟨⟨s4, _⟩, h4, hrun⟩ := bind_eq_some_iff.mp hrun
  cases hrun
  change s1.intern k .Error 0 0 .NONE = _ at h2
  change s2.intern k .Unit 0 0 .NONE = _ at h3
  change s3.intern k .Never 0 0 .NONE = _ at h4
  have hfit3 := (extends_intern h4).fits hfit
  have hfit2 := (extends_intern h3).fits hfit3
  have hblank : blank.Good k := { inv_blank k with canonical := by simp [Canonical, blank] }
  have hg1 := (good_intern_args hblank h1 ((extends_intern h2).fits hfit2)).1
  have hg2 := good_intern_columns hg1 h2 hfit2 (by simp) (by simp) (by simp)
  have hg3 := good_intern_columns hg2 h3 hfit3 (by simp) (by simp) (by simp)
  exact good_intern_columns hg3 h4 hfit (by simp) (by simp) (by simp)

/-- A store that only typed constructors made is canonical. -/
theorem Reached.good {ops : List Op} (h : Reached k ops s) (htyped : ∀ op ∈ ops, op.Typed)
    (hfit : s.Fits) : s.Good k := by
  obtain ⟨s0, hnew, hrun⟩ := h
  exact good_run htyped (good_new hnew ((kept_extends.run hrun).fits hfit)) hrun hfit

/-! ## Reserved rows -/

/-- The rows that `new` makes, by their constant ids. -/
structure Reserved (s : TyStore) : Prop where
  error : ∃ row, s.rows[TY_ERROR]? = some row ∧ row.content = (.Error, 0, 0, .NONE)
  unit : ∃ row, s.rows[TY_UNIT]? = some row ∧ row.content = (.Unit, 0, 0, .NONE)
  never : ∃ row, s.rows[TY_NEVER]? = some row ∧ row.content = (.Never, 0, 0, .NONE)

theorem Extends.reserved (h : s.Extends s') (hs : s.Reserved) : s'.Reserved := by
  obtain ⟨⟨e, he, hec⟩, ⟨u, hu, huc⟩, ⟨n, hn, hnc⟩⟩ := hs
  exact ⟨⟨e, getElem?_kept h.rows he, hec⟩, ⟨u, getElem?_kept h.rows hu, huc⟩,
    ⟨n, getElem?_kept h.rows hn, hnc⟩⟩

theorem reserved_new (h : new k = some s) (hfit : s.Fits) : s.Reserved := by
  simp only [new, bind_eq_bind, bind_eq_some_iff, Prod.exists] at h
  obtain ⟨s1, empty, h1, s2, err, h2, s3, unit, h3, s4, never, h4, h⟩ := h
  obtain ⟨⟨-, rfl, rfl, rfl⟩, hs⟩ := ite_none_right_eq_some.mp h
  cases hs
  have hfit3 := (extends_intern h4).fits hfit
  have hfit2 := (extends_intern h3).fits hfit3
  have hinv1 := (inv_intern_args (inv_blank k) h1 ((extends_intern h2).fits hfit2)).1
  obtain ⟨hinv2, e, he, hec⟩ := inv_intern hinv1 h2 hfit2
  obtain ⟨hinv3, u, hu, huc⟩ := inv_intern hinv2 h3 hfit3
  obtain ⟨-, n, hn, hnc⟩ := inv_intern hinv3 h4 hfit
  have hext := extends_intern h4
  exact ⟨⟨e, getElem?_kept ((extends_intern h3).trans hext).rows he, hec⟩,
    ⟨u, getElem?_kept hext.rows hu, huc⟩, ⟨n, hn, hnc⟩⟩

end TyStore

end Fors.Ty
