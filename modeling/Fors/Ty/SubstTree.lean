import Fors.Ty.Marks

/-!
# Substitution on trees

`subst_norm` walks rows and interns what it builds. Read as trees, what it returns is the type with
the binding's types in their places, and nothing else of the store changes.

Principal result: `subst_norm_post`.
-/

namespace Fors.Ty

open Trees TyStore Matching List Option

/-! ## Walks -/

/-- What a walk that ends leaves: a larger store, of which `Q` holds while the pools fit. -/
def Post {α : Type} (s : TyStore) (w : Option (TyStore × Option α))
    (Q : TyStore → Option α → Prop) : Prop :=
  ∀ s' out, w = some (s', out) → s.Extends s' ∧ (s'.Fits → Q s' out)

section Post

variable {α β γ : Type} {s : TyStore} {w : Option (TyStore × Option α)}
  {Q : TyStore → Option α → Prop} {R : TyStore → Option β → Prop}

theorem Post.pure {out : Option α} (h : Q s out) : Post s (some (s, out)) Q := by
  intro s' out' hw
  cases hw
  exact ⟨.refl s, fun _ => h⟩

theorem Post.bind {x : Option γ} {f : γ → Option (TyStore × Option α)}
    (h : ∀ a, x = some a → Post s (f a) Q) : Post s (x >>= f) Q := by
  intro s' out hw
  obtain ⟨a, ha, hw⟩ := bind_eq_some_iff.mp hw
  exact h a ha s' out hw

/-- A call of an `intern` on the way. -/
theorem Post.call {x : Option (TyStore × Nat)} {f : TyStore × Nat → Option (TyStore × Option α)}
    {P : TyStore → Nat → Prop} (hext : ∀ s1 id, x = some (s1, id) → s.Extends s1)
    (hx : ∀ s1 id, x = some (s1, id) → s1.Fits → P s1 id)
    (h : ∀ s1 id, s.Extends s1 → Post s1 (f (s1, id)) fun s' out => P s1 id → Q s' out) :
    Post s (x >>= f) Q := by
  intro s' out hw
  obtain ⟨⟨s1, id⟩, hx', hw⟩ := bind_eq_some_iff.mp hw
  obtain ⟨hext', hpost⟩ := h s1 id (hext s1 id hx') s' out hw
  exact ⟨(hext s1 id hx').trans hext', fun hfit => hpost hfit (hx s1 id hx' (hext'.fits hfit))⟩

theorem Post.done {x : Option (TyStore × TyId)} {Q : TyStore → Option TyId → Prop}
    (hext : ∀ s' r, x = some (s', r) → s.Extends s')
    (hx : ∀ s' r, x = some (s', r) → s'.Fits → Q s' (some r)) : Post s (done x) Q := by
  intro s' out hw
  obtain ⟨⟨s1, r⟩, hx', hw⟩ := map_eq_some_iff.mp hw
  cases hw
  exact ⟨hext s1 r hx', hx s1 r hx'⟩

theorem Post.then_ {f : TyStore → α → Option (TyStore × Option β)} (hw : Post s w Q)
    (hf : ∀ s1 a, w = some (s1, some a) → s.Extends s1 →
      Post s1 (f s1 a) fun s' out => Q s1 (some a) → R s' out)
    (hnone : ∀ s1, s.Extends s1 → Q s1 none → R s1 none) : Post s (TyStore.then_ w f) R := by
  intro s' out hrun
  cases w with
  | none => exact nomatch hrun
  | some p =>
    obtain ⟨s1, a⟩ := p
    obtain ⟨hext, hq⟩ := hw s1 a rfl
    cases a with
    | none =>
      obtain ⟨rfl, rfl⟩ := Prod.mk.inj (some.inj hrun)
      exact ⟨hext, fun hfit => hnone s1 hext (hq hfit)⟩
    | some a =>
      obtain ⟨hext', hr⟩ := hf s1 a rfl hext s' out hrun
      exact ⟨hext.trans hext', fun hfit => hr hfit (hq (hext'.fits hfit))⟩

end Post

/-! ## The type with the binding's types in their places -/

/-- The store that a walk with the binding starts from. -/
structure Ready (k : Keys) (b : Binding) (v : Values Label (Option Nat)) (s : TyStore) : Prop where
  good : s.Good k
  held : b.Over s
  values : b.values s = v

/-- What substitution leaves for a type: its instance, as a row. -/
structure Instance (k : Keys) (b : Binding) (v : Values Label (Option Nat)) (T : Rose Label)
    (s : TyStore) (out : Option TyId) : Prop where
  ready : Ready k b v s
  lt : ∀ r, out = some r → r < s.rows.length
  tree : subst (marks b) v T = out.map s.tree

/-- The same for a list of types. -/
structure Instances (k : Keys) (b : Binding) (v : Values Label (Option Nat)) (Ts : List (Rose Label))
    (s : TyStore) (out : Option (List TyId)) : Prop where
  ready : Ready k b v s
  lt : ∀ rs, out = some rs → ∀ r ∈ rs, r < s.rows.length
  trees : substList (marks b) v Ts = out.map fun rs => rs.map s.tree

variable {k : Keys} {b : Binding} {v : Values Label (Option Nat)} {s s' : TyStore} {t : TyId}
  {f : TyStore → TyId → Option (TyStore × Option TyId)}

theorem Ready.extends (h : Ready k b v s) (hext : s.Extends s') (hgood : s'.Good k) :
    Ready k b v s' where
  good := hgood
  held := h.held.extends hext
  values := by rw [h.held.values_extends h.good hext hgood.toInv, h.values]

/-- A walk that takes every type to its instance. -/
def Substitutes (k : Keys) (b : Binding) (v : Values Label (Option Nat))
    (f : TyStore → TyId → Option (TyStore × Option TyId)) : Prop :=
  ∀ s t, Post s (f s t) fun s' out =>
    Ready k b v s → t < s.rows.length → Instance k b v (s.tree t) s' out

theorem subst_list_post (hf : Substitutes k b v f) (s : TyStore) (ts : List TyId) :
    Post s (subst_list f s ts) fun s' out => Ready k b v s → (∀ t ∈ ts, t < s.rows.length) →
      Instances k b v (ts.map s.tree) s' out := by
  induction ts generalizing s with
  | nil => exact .pure fun h _ => ⟨h, by simp, rfl⟩
  | cons t ts ih =>
    refine .then_ (hf s t) (fun s1 r _ hext => ?_) (fun s1 hext hnone h hts => ?_)
    · refine .then_ (ih s1) (fun s2 rs _ hext' => .pure fun hrs hr h hts => ?_)
        (fun s2 hext' hnone hr h hts => ?_)
      all_goals
        rw [forall_mem_cons] at hts
        have hone := hr h hts.1
        have hstay := h.good.map_tree_extends hext hone.ready.good.toInv hts.2
        have hlen := hext.rows.length_le
      · have hrest := hrs hone.ready fun t ht => Nat.lt_of_lt_of_le (hts.2 t ht) hlen
        have hr' := hone.lt r rfl
        refine ⟨hrest.ready, ?_, ?_⟩
        · intro _ heq
          cases heq
          rw [forall_mem_cons]
          exact ⟨Nat.lt_of_lt_of_le hr' hext'.rows.length_le, hrest.lt rs rfl⟩
        · rw [map_cons, substList, hone.tree, ← hstay, hrest.trees]
          simp only [map_some, bind_some, map_cons,
            hone.ready.good.tree_extends hext' hrest.ready.good.toInv hr']
      · have hrest := hnone hone.ready fun t ht => Nat.lt_of_lt_of_le (hts.2 t ht) hlen
        refine ⟨hrest.ready, nofun, ?_⟩
        rw [map_cons, substList, hone.tree, ← hstay, hrest.trees]
        rfl
    · rw [forall_mem_cons] at hts
      have hone := hnone h hts.1
      refine ⟨hone.ready, nofun, ?_⟩
      rw [map_cons, substList, hone.tree]
      rfl

variable {row : TyRow} {l : Label}

theorem Ready.node (h : Ready k b v s) (hrow : s.rows[t]? = some row)
    {cs : List TyId} (hnode : s.node_of row.content = some (l, cs)) :
    s.tree t = .node l (cs.map s.tree) ∧ (∀ c ∈ cs, c < s.rows.length) ∧ l.Clean := by
  have ht := (List.getElem?_eq_some_iff.mp hrow).1
  have heq := h.good.node_eq hrow hnode
  refine ⟨h.good.tree_node hrow hnode, fun c hc => ?_, ?_⟩
  · have := h.good.descends t ht c (by rw [heq]; exact hc)
    exact this.trans ht
  · have := h.good.canonical t ht
    rw [heq] at this
    exact this

variable {ys : List TyId} {r : TyId}

/-- A type without slots at its root is rebuilt over the instances of its children. -/
theorem Instances.rebuild {Ts : List (Rose Label)}
    (h : Instances k b v Ts s (some ys)) (hext : s.Extends s') (hgood : s'.Good k)
    (htree : s'.HasTree r (.node l (ys.map s.tree))) (hslot : b.slot_of l = none)
    (hok : (marks b).ok l (ys.map s.tree) = true) : Instance k b v (.node l Ts) s' (some r) where
  ready := h.ready.extends hext hgood
  lt := by
    intro _ heq
    cases heq
    exact htree.1
  tree := by
    change (marks b).slot l = none at hslot
    rw [subst, hslot]
    simp only [h.trees, map_some, bind_some, hok, if_true, htree.2]

theorem Instances.fail {Ts : List (Rose Label)} (h : Instances k b v Ts s none)
    (hslot : b.slot_of l = none) : Instance k b v (.node l Ts) s none where
  ready := h.ready
  lt := nofun
  tree := by
    change (marks b).slot l = none at hslot
    rw [subst, hslot]
    simp only [h.trees, map_none, bind_none]

/-- A type without children and slots is its own instance. -/
theorem Ready.leaf (h : Ready k b v s) (htree : s.tree t = .node l [])
    (ht : t < s.rows.length) (hslot : b.slot_of l = none) (hproj : l.head.tag ≠ .Proj) :
    Instance k b v (s.tree t) s (some t) where
  ready := h
  lt := by
    intro _ heq
    cases heq
    exact ht
  tree := by
    change (marks b).slot l = none at hslot
    rw [htree, subst, hslot]
    simp only [substList, bind_some, marks, hproj, map_some, htree]
    simp

theorem Binding.values_at (s : TyStore) (b : Binding) (owner : DefId) (ordinal : Nat) :
    b.values s (b.at_ owner ordinal) = if b.slot owner ordinal = NO_TY then none
      else some (s.tree (b.slot owner ordinal)) := by
  rw [values, Binding.slot]
  cases b.at_ owner ordinal with
  | none => rfl
  | some i => rfl

variable {owner : DefId} {ordinal : Nat}

theorem Binding.Over.slot_lt (h : b.Over s)
    (hne : b.slot owner ordinal ≠ NO_TY) : b.slot owner ordinal < s.rows.length := by
  rw [Binding.slot] at hne ⊢
  cases hat : b.at_ owner ordinal with
  | none =>
    rw [hat] at hne
    exact absurd rfl hne
  | some i =>
    rw [hat] at hne
    exact (h.slot i).resolve_left hne

/-- A slot's instance is the type it holds. -/
theorem Ready.slot (h : Ready k b v s) (hslot : b.slot_of l = some (b.at_ owner ordinal))
    (hput : ∀ u, v (b.at_ owner ordinal) = some u → b.put l u = some u) :
    Instance k b v (.node l []) s
      (if b.slot owner ordinal = NO_TY then none else some (b.slot owner ordinal)) where
  ready := h
  lt := by
    intro r hr
    by_cases hno : b.slot owner ordinal = NO_TY
    · rw [if_pos hno] at hr
      exact nomatch hr
    · rw [if_neg hno] at hr
      cases hr
      exact h.held.slot_lt hno
  tree := by
    change (marks b).slot l = _ at hslot
    rw [subst, hslot]
    have hv := Binding.values_at s b owner ordinal
    rw [h.values] at hv
    change (v (b.at_ owner ordinal)).bind (b.put l) = _
    by_cases hno : b.slot owner ordinal = NO_TY
    · rw [hv, if_pos hno, if_pos hno]
      rfl
    · rw [if_neg hno] at hv ⊢
      rw [hv, bind_some, hput _ hv]
      rfl

/-- A slot within its owner's slots holds a type. -/
theorem Binding.slot_ne_lost {u : Rose Label}
    (hv : b.values s = v) (hslot : b.slot_of l = some (b.at_ owner ordinal))
    (hu : v (b.at_ owner ordinal) = some u) : b.slot_of l ≠ some none := by
  rw [hslot]
  intro hnone
  rw [some.inj hnone, ← hv] at hu
  exact nomatch hu

/-- What `subst_core` leaves for an unqualified row. -/
def CoreSpec (k : Keys) (b : Binding) (v : Values Label (Option Nat)) (s : TyStore) (t : TyId)
    (w : Option (TyStore × Option TyId)) : Prop :=
  Post s w fun s' out => Ready k b v s → (s.tree t).label.quals = .NONE →
    Instance k b v (s.tree t) s' out

theorem core_param (hrow : s.rows[t]? = some row) (htag : row.tag = .Param) :
    CoreSpec k b v s t
      (if ¬ b.owns row.a then some (s, some t)
       else some (s, if b.slot row.a (row.b % 2 ^ 16) = NO_TY then none
        else some (b.slot row.a (row.b % 2 ^ 16)))) := by
  have ht := (List.getElem?_eq_some_iff.mp hrow).1
  have hnode : s.node_of row.content = some (⟨.Param row.a row.b, (0, 0), row.quals⟩, []) := by
    rw [TyRow.content, htag]
    rfl
  by_cases howns : b.owns row.a = true
  · rw [if_neg (by simpa using howns)]
    refine .pure fun h hq => ?_
    have htree := (h.node hrow hnode).1
    rw [htree] at hq ⊢
    have hslot : b.slot_of ⟨.Param row.a row.b, (0, 0), row.quals⟩ =
        some (b.at_ row.a (row.b % 2 ^ 16)) := by simp [Binding.slot_of, howns]
    refine h.slot hslot fun u hu => ?_
    have hlost := Binding.slot_ne_lost h.values hslot hu
    have hq' : row.quals = .NONE := hq
    rw [Binding.put, if_neg hlost, if_pos hq']
  · rw [if_pos howns]
    refine .pure fun h hq => ?_
    exact h.leaf (h.node hrow hnode).1 ht (by simp [Binding.slot_of, howns]) (by simp [Head.tag])

theorem core_brand (hrow : s.rows[t]? = some row) (htag : row.tag = .Brand) (hbrand : s.brands[row.b]? = some (.Param owner ordinal)) :
    CoreSpec k b v s t
      (if b.owns owner then some (s, if b.slot owner ordinal = NO_TY then none
        else some (b.slot owner ordinal))
       else some (s, some t)) := by
  have ht := (List.getElem?_eq_some_iff.mp hrow).1
  have hnode : s.node_of row.content =
      some (⟨.Brand (.Param owner ordinal), (row.a, 0), row.quals⟩, []) := by
    rw [TyRow.content, htag]
    simp [node_of, hbrand]
  by_cases howns : b.owns owner = true
  · rw [if_pos howns]
    refine .pure fun h hq => ?_
    have htree := (h.node hrow hnode).1
    rw [htree] at hq ⊢
    have hslot : b.slot_of ⟨.Brand (.Param owner ordinal), (row.a, 0), row.quals⟩ =
        some (b.at_ owner ordinal) := by simp [Binding.slot_of, howns]
    refine h.slot hslot fun u hu => ?_
    have hlost := Binding.slot_ne_lost h.values hslot hu
    have hq' : row.quals = .NONE := hq
    rw [Binding.put, if_neg hlost, if_pos hq']
  · rw [if_neg howns]
    refine .pure fun h hq => ?_
    exact h.leaf (h.node hrow hnode).1 ht (by simp [Binding.slot_of, howns]) (by simp [Head.tag])

theorem core_fresh (hrow : s.rows[t]? = some row) (htag : row.tag = .Brand)
    {owner : DeclKeyId} (hbrand : s.brands[row.b]? = some (.Fresh owner ordinal)) :
    CoreSpec k b v s t (some (s, some t)) := by
  have ht := (List.getElem?_eq_some_iff.mp hrow).1
  have hnode : s.node_of row.content =
      some (⟨.Brand (.Fresh owner ordinal), (row.a, 0), row.quals⟩, []) := by
    rw [TyRow.content, htag]
    simp [node_of, hbrand]
  exact .pure fun h hq => h.leaf (h.node hrow hnode).1 ht rfl (by simp [Head.tag])

theorem core_atom (hrow : s.rows[t]? = some row)
    (htag : row.tag = .Error ∨ row.tag = .Unit ∨ row.tag = .Never ∨ row.tag = .Prim) :
    CoreSpec k b v s t (some (s, some t)) := by
  have ht := (List.getElem?_eq_some_iff.mp hrow).1
  refine .pure fun h hq => ?_
  obtain ⟨l, hnode, hslot, hproj⟩ : ∃ l, s.node_of row.content = some (l, []) ∧
      b.slot_of l = none ∧ l.head.tag ≠ .Proj := by
    obtain ⟨tag, x, y, q, fl, u⟩ := row
    obtain rfl | rfl | rfl | rfl := htag
    all_goals exact ⟨_, rfl, rfl, by simp [Head.tag]⟩
  exact h.leaf (h.node hrow hnode).1 ht hslot hproj

/-- What a constructor leaves for types the store has: a row of the type with these children. -/
def Builds (k : Keys) (l : Label) (xs : List TyId) (s : TyStore)
    (w : Option (TyStore × Option TyId)) : Prop :=
  Post s w fun s' out => s.Good k → (∀ x ∈ xs, x < s.rows.length) →
    ∃ r, out = some r ∧ s'.Good k ∧ s'.HasTree r (.node l (xs.map s.tree))

theorem nominal_builds (k : Keys) (d : DefId) (xs : List TyId) (s : TyStore) :
    Builds k ⟨.Nominal d, (0, 0), .NONE⟩ xs s (done (s.nominal_of k d xs)) := by
  refine .done (fun s' r hr => extends_step (.nominal_of d xs) hr)
    fun s' r hr hfit h hxs => ⟨r, rfl, ?_⟩
  obtain ⟨⟨s1, args⟩, hargs, hrow⟩ := bind_eq_some_iff.mp hr
  obtain ⟨h1, hread⟩ := good_intern_args h hargs ((extends_intern hrow).fits hfit)
  have hext := extends_intern_args hargs
  rw [← h.map_tree_extends hext h1.toInv hxs]
  exact good_nominal h1 hread (fun x hx => Nat.lt_of_lt_of_le (hxs x hx) hext.rows.length_le) hrow
    hfit

theorem tuple_builds (k : Keys) (xs : List TyId) (s : TyStore) :
    Builds k ⟨.Tuple, (0, 0), .NONE⟩ xs s (done (s.tuple_of k xs)) := by
  refine .done (fun s' r hr => extends_step (.tuple_of xs) hr)
    fun s' r hr hfit h hxs => ⟨r, rfl, ?_⟩
  obtain ⟨⟨s1, args⟩, hargs, hrow⟩ := bind_eq_some_iff.mp hr
  obtain ⟨h1, hread⟩ := good_intern_args h hargs ((extends_intern hrow).fits hfit)
  have hext := extends_intern_args hargs
  rw [← h.map_tree_extends hext h1.toInv hxs]
  exact good_tuple h1 hread (fun x hx => Nat.lt_of_lt_of_le (hxs x hx) hext.rows.length_le) hrow
    hfit

theorem dyn_builds (k : Keys) (d : DefId) (xs : List TyId) (s : TyStore) :
    Builds k ⟨.Dyn d, (0, 0), .NONE⟩ xs s (do
      let (s, id) ← s.intern_args k xs
      let (s, tr) ← s.intern_trait_ref k d id
      done (s.dyn_ty k tr)) := by
  refine .call (fun s1 id => extends_intern_args)
    (P := fun s1 id => s.Good k → s1.Good k ∧ s1.args_at id = some xs)
    (fun s1 id hrun hfit h => good_intern_args h hrun hfit) fun s1 args hext => ?_
  refine .call (fun s2 tr => extends_intern_trait_ref)
    (P := fun s2 tr => s1.Good k → s2.Good k ∧ s2.trait_refs[tr]? = some (d, args))
    (fun s2 tr hrun hfit h => good_intern_trait_ref h hrun hfit) fun s2 tr hext' => ?_
  refine .done (fun s' r hr => extends_intern hr) fun s' r hr hfit htr hargs h hxs => ⟨r, rfl, ?_⟩
  obtain ⟨h1, hread⟩ := hargs h
  obtain ⟨h2, hread'⟩ := htr h1
  have hext2 := hext.trans hext'
  rw [← h.map_tree_extends hext2 h2.toInv hxs]
  exact good_dyn_ty h2 hread' (hext'.args_at hread)
    (fun x hx => Nat.lt_of_lt_of_le (hxs x hx) hext2.rows.length_le) hr hfit

theorem fn_builds (k : Keys) (params : List (Conv × TyId)) (result raises : TyId) (closure : Bool)
    (s : TyStore) :
    Builds k ⟨.Fn (params.map Prod.fst) (raises ≠ NO_TY) closure, (0, 0), .NONE⟩
      (fn_children (params.map Prod.snd) result raises) s (do
        let (s, id) ← s.intern_fn_ty k params result raises closure
        done (s.fn_ty k id)) := by
  refine .call (fun s1 id => extends_intern_fn_ty)
    (P := fun s1 id => s.Good k → s1.Good k ∧ s1.fn_at id = some (params, result, raises, closure))
    (fun s1 id hrun hfit h => good_intern_fn_ty h hrun hfit) fun s1 id hext => ?_
  refine .done (fun s' r hr => extends_intern hr) fun s' r hr hfit hfn h hxs => ⟨r, rfl, ?_⟩
  obtain ⟨h1, hread⟩ := hfn h
  rw [← h.map_tree_extends hext h1.toInv hxs]
  exact good_fn_ty h1 hread (fun x hx => Nat.lt_of_lt_of_le (hxs x hx) hext.rows.length_le) hr hfit

theorem const_builds (k : Keys) (c : ConstValue) (ty : TyId) (s : TyStore) :
    Builds k ⟨.ConstVal (some c), (0, 0), .NONE⟩ [ty] s (done (s.const_ty k c ty)) := by
  refine .done (fun s' r hr => extends_step (.const_ty c ty) hr)
    fun s' r hr hfit h hxs => ⟨r, rfl, ?_⟩
  exact good_const_ty h (hxs ty mem_cons_self) hr hfit

variable {xs : List TyId}

theorem subst_list_length {s : TyStore}
    (h : subst_list f s xs = some (s', some ys)) : ys.length = xs.length := by
  induction xs generalizing s s' ys with
  | nil =>
    obtain ⟨-, heq⟩ := Prod.mk.inj (some.inj h)
    cases heq
    rfl
  | cons x xs ih =>
    rw [subst_list] at h
    match hx : f s x, h with
    | some (s1, some y), h =>
      simp only [TyStore.then_] at h
      match hxs : subst_list f s1 xs, h with
      | some (s2, some zs), h =>
        obtain ⟨-, heq⟩ := Prod.mk.inj (some.inj h)
        cases heq
        rw [length_cons, length_cons, ih hxs]

/-- A row that is rebuilt over the instances of its arguments. -/
theorem core_args (hf : Substitutes k b v f) (hrow : s.rows[t]? = some row)
    {l0 : Label} {g : TyStore → List TyId → Option (TyStore × Option TyId)}
    (hnode : s.node_of row.content = some (l, xs)) (hslot : b.slot_of l = none)
    (hproj : l.head.tag ≠ .Proj) (hl : l.Clean → l.quals = .NONE → l = l0)
    (hg : ∀ s1 ys, s.Extends s1 → ys.length = xs.length → Builds k l0 ys s1 (g s1 ys)) :
    CoreSpec k b v s t (TyStore.then_ (subst_list f s xs) g) := by
  refine .then_ (subst_list_post hf s xs) (fun s1 ys hys hext1 s2 out hrun => ?_)
    (fun s1 _ hnone h hq => ?_)
  · obtain ⟨hext, hbuilt⟩ := hg s1 ys hext1 (subst_list_length hys) s2 out hrun
    refine ⟨hext, fun hfit hsome h hq => ?_⟩
    obtain ⟨htree, hlt, hclean⟩ := h.node hrow hnode
    rw [htree] at hq ⊢
    obtain rfl := hl hclean hq
    have hys := hsome h hlt
    obtain ⟨r, rfl, hgood, htree'⟩ := hbuilt hfit hys.ready.good (hys.lt ys rfl)
    exact hys.rebuild hext hgood htree' hslot (by simp [marks, hproj])
  · obtain ⟨htree, hlt, -⟩ := h.node hrow hnode
    rw [htree]
    exact (hnone h hlt).fail hslot

theorem Label.eq_of {head : Head} (hhead : l.head = head) (hspare : l.spare = (0, 0))
    (hq : l.quals = .NONE) : l = ⟨head, (0, 0), .NONE⟩ := by
  obtain ⟨head', spare, quals⟩ := l
  obtain rfl : head' = head := hhead
  obtain rfl : spare = (0, 0) := hspare
  obtain rfl : quals = .NONE := hq
  rfl

theorem core_nominal (hf : Substitutes k b v f) (hrow : s.rows[t]? = some row)
    (htag : row.tag = .Nominal) (hxs : s.args_at row.b = some xs) :
    CoreSpec k b v s t (TyStore.then_ (subst_list f s xs) fun s ys =>
      done (s.nominal_of k row.a ys)) := by
  have hnode : s.node_of row.content = some (⟨.Nominal row.a, (0, 0), row.quals⟩, xs) := by
    simp [TyRow.content, htag, node_of, hxs]
  exact core_args hf hrow hnode rfl (by simp [Head.tag]) (fun hclean => Label.eq_of rfl hclean)
    fun s1 ys _ _ => nominal_builds k row.a ys s1

theorem core_tuple (hf : Substitutes k b v f) (hrow : s.rows[t]? = some row)
    (htag : row.tag = .Tuple) (hxs : s.args_at row.b = some xs) :
    CoreSpec k b v s t (TyStore.then_ (subst_list f s xs) fun s ys => done (s.tuple_of k ys)) := by
  have hnode : s.node_of row.content = some (⟨.Tuple, (row.a, 0), row.quals⟩, xs) := by
    simp [TyRow.content, htag, node_of, hxs]
  exact core_args hf hrow hnode rfl (by simp [Head.tag]) (fun hclean => Label.eq_of rfl hclean)
    fun s1 ys _ _ => tuple_builds k ys s1

theorem core_dyn (hf : Substitutes k b v f) (hrow : s.rows[t]? = some row)
    (htag : row.tag = .Dyn) {d : DefId} {args : ArgsId}
    (htr : s.trait_refs[row.a]? = some (d, args)) (hxs : s.args_at args = some xs) :
    CoreSpec k b v s t (TyStore.then_ (subst_list f s xs) fun s ys => do
      let (s, id) ← s.intern_args k ys
      let (s, tr) ← s.intern_trait_ref k d id
      done (s.dyn_ty k tr)) := by
  have hnode : s.node_of row.content = some (⟨.Dyn d, (0, row.b), row.quals⟩, xs) := by
    simp [TyRow.content, htag, node_of, htr, hxs]
  exact core_args hf hrow hnode rfl (by simp [Head.tag]) (fun hclean => Label.eq_of rfl hclean)
    fun s1 ys _ _ => dyn_builds k d ys s1

/-! ### Function types -/

theorem map_fst_zip_of_length {params : List (Conv × TyId)} (h : ys.length = params.length) :
    ((params.map Prod.fst).zip ys).map Prod.fst = params.map Prod.fst ∧
      ((params.map Prod.fst).zip ys).map Prod.snd = ys := by
  rw [map_fst_zip (by rw [length_map, h]), map_snd_zip (by rw [length_map, h])]
  exact ⟨rfl, rfl⟩

theorem then_congr {α β : Type} {w : Option (TyStore × Option α)}
    {f g : TyStore → α → Option (TyStore × Option β)}
    (h : ∀ s a, w = some (s, some a) → f s a = g s a) : TyStore.then_ w f = TyStore.then_ w g := by
  match w, h with
  | none, _ => rfl
  | some (s, none), _ => rfl
  | some (s, some a), h => exact h s a rfl

theorem then_assoc {α β γ : Type} (w : Option (TyStore × Option α))
    (f : TyStore → α → Option (TyStore × Option β)) (g : TyStore → β → Option (TyStore × Option γ)) :
    TyStore.then_ (TyStore.then_ w f) g = TyStore.then_ w fun s a => TyStore.then_ (f s a) g := by
  match w with
  | none => rfl
  | some (s, none) => rfl
  | some (s, some a) => rfl

theorem subst_list_append (s : TyStore) (xs ys : List TyId) :
    subst_list f s (xs ++ ys) = TyStore.then_ (subst_list f s xs) fun s us =>
      TyStore.then_ (subst_list f s ys) fun s ws => some (s, some (us ++ ws)) := by
  induction xs generalizing s with
  | nil =>
    simp only [nil_append, subst_list, TyStore.then_]
    match subst_list f s ys with
    | none => rfl
    | some (s, none) => rfl
    | some (s, some a) => rfl
  | cons x xs ih =>
    simp only [cons_append, subst_list, ih, then_assoc]
    refine then_congr fun s' a _ => then_congr fun s'' us _ => ?_
    simp only [TyStore.then_, cons_append]

/-- The types that a walk over `fn_children` gives back. -/
def fn_parts (n : Nat) (raises : TyId) (zs : List TyId) : List TyId × TyId × TyId :=
  (zs.take n, zs.getD n 0, if raises = NO_TY then NO_TY else zs.getD (n + 1) 0)

/-- The three walks over a function type are one walk over its children. -/
theorem fn_walk {α : Type} (s : TyStore) (tys : List TyId) (result raises : TyId)
    (g : TyStore → List TyId × TyId × TyId → Option (TyStore × Option α)) :
    (TyStore.then_ (subst_list f s tys) fun s ys => TyStore.then_ (f s result) fun s r =>
      TyStore.then_ (subst_raises f s raises) fun s e => g s (ys, r, e)) =
    TyStore.then_ (subst_list f s (fn_children tys result raises)) fun s zs =>
      g s (fn_parts tys.length raises zs) := by
  rw [fn_children, subst_list_append, then_assoc]
  refine then_congr fun s1 ys hys => ?_
  have hlen := subst_list_length hys
  rw [subst_list, then_assoc, then_assoc]
  refine then_congr fun s2 r _ => ?_
  by_cases hno : raises = NO_TY
  · simp only [subst_raises, if_pos hno, subst_list, TyStore.then_, fn_parts]
    simp [← hlen]
  · simp only [subst_raises, if_neg hno, subst_list, then_assoc]
    refine then_congr fun s3 e _ => ?_
    simp only [TyStore.then_, fn_parts, if_neg hno]
    simp [← hlen]

theorem fn_children_parts {tys : List TyId} {result raises : TyId} {zs : List TyId}
    (hlen : zs.length = (fn_children tys result raises).length) (hno : ∀ z ∈ zs, z ≠ NO_TY) {e : TyId} (hparts : fn_parts tys.length raises zs = (ys, r, e)) :
    ys.length = tys.length ∧ fn_children ys r e = zs ∧ (e ≠ NO_TY ↔ raises ≠ NO_TY) := by
  simp only [fn_parts, Prod.mk.injEq] at hparts
  obtain ⟨rfl, rfl, rfl⟩ := hparts
  obtain ⟨us, ws, rfl, hus⟩ : ∃ us ws, zs = us ++ ws ∧ us.length = tys.length :=
    ⟨zs.take tys.length, zs.drop tys.length, (take_append_drop _ _).symm, by
      rw [fn_children, length_append] at hlen
      rw [length_take]
      omega⟩
  rw [fn_children, length_append, length_append, hus] at hlen
  by_cases hraises : raises = NO_TY
  · rw [if_pos hraises] at hlen
    obtain ⟨r, rfl⟩ : ∃ r, ws = [r] := length_eq_one_iff.mp (by simpa using hlen)
    simp [fn_children, hraises, ← hus]
  · rw [if_neg hraises] at hlen
    obtain ⟨r, e, rfl⟩ : ∃ r e, ws = [r, e] := length_eq_two.mp (by simpa using hlen)
    have he : e ≠ NO_TY := hno e (by simp)
    simp [fn_children, hraises, ← hus, he]

theorem core_fn (hf : Substitutes k b v f) (hrow : s.rows[t]? = some row)
    (htag : row.tag = .Fn) {params : List (Conv × TyId)} {result raises : TyId} {closure : Bool}
    (hfn : s.fn_at row.a = some (params, result, raises, closure)) :
    CoreSpec k b v s t (TyStore.then_ (subst_list f s (params.map Prod.snd)) fun s tys =>
      TyStore.then_ (f s result) fun s result =>
        TyStore.then_ (subst_raises f s raises) fun s raises => do
          let (s, id) ← s.intern_fn_ty k ((params.map Prod.fst).zip tys) result raises closure
          done (s.fn_ty k id)) := by
  have hnode : s.node_of row.content =
      some (⟨.Fn (params.map Prod.fst) (raises ≠ NO_TY) closure, (0, row.b), row.quals⟩,
        fn_children (params.map Prod.snd) result raises) := by
    simp [TyRow.content, htag, node_of, hfn, fn_children]
  rw [fn_walk s (params.map Prod.snd) result raises fun s p => do
    let (s, id) ← s.intern_fn_ty k ((params.map Prod.fst).zip p.1) p.2.1 p.2.2 closure
    done (s.fn_ty k id)]
  refine core_args hf hrow hnode rfl (by simp [Head.tag]) (fun hclean => Label.eq_of rfl hclean)
    fun s1 zs _ hlen s2 out hrun => ?_
  rcases hparts : fn_parts (params.map Prod.snd).length raises zs with ⟨ys, r, e⟩
  rw [hparts] at hrun
  obtain ⟨hext, hbuilt⟩ := fn_builds k ((params.map Prod.fst).zip ys) r e closure s1 s2 out hrun
  refine ⟨hext, fun hfit h hzs => ?_⟩
  have hno : ∀ z ∈ zs, z ≠ NO_TY := by
    intro z hz hno
    have hlt := hzs z hz
    have hrows := (hext.fits hfit).rows
    rw [hno] at hlt
    exact absurd (Nat.lt_of_lt_of_le hlt hrows) (Nat.lt_irrefl _)
  obtain ⟨hys, hchildren, hraises⟩ := fn_children_parts hlen hno hparts
  obtain ⟨hfst, hsnd⟩ := map_fst_zip_of_length (hys.trans (length_map _))
  have hbuilt' := hbuilt hfit h
  rw [hfst, hsnd, hchildren] at hbuilt'
  have := hbuilt' hzs
  simpa only [hraises] using this

/-! ### Constants and projections -/

/-- The walk of a constant's type, as one over its children. -/
theorem const_walk (s : TyStore) (c ty : Nat) :
    (TyStore.then_ (f s ty) fun s t => do
      let c ← s.consts[c]?
      done (s.const_ty k c t)) =
    (TyStore.then_ (subst_list f s [ty]) fun s ys => do
      let c ← s.consts[c]?
      done (s.const_ty k c (ys.getD 0 0))) := by
  simp only [subst_list, then_assoc]
  rfl

theorem core_const (hf : Substitutes k b v f) (hrow : s.rows[t]? = some row)
    (htag : row.tag = .ConstVal) :
    CoreSpec k b v s t (TyStore.then_ (f s row.b) fun s t => do
      let c ← s.consts[row.a]?
      done (s.const_ty k c t)) := by
  cases hc : s.consts[row.a]? with
  | none =>
    have hnode : s.node_of row.content =
        some (⟨.ConstVal none, (row.a, 0), row.quals⟩, [row.b]) := by
      simp [TyRow.content, htag, node_of, hc]
    have habsurd : ¬ Ready k b v s := fun h => (h.node hrow hnode).2.2
    refine .then_ (hf s row.b) (fun s1 y _ hext => .bind fun c _ => ?_)
      (fun s1 hext _ h => absurd h habsurd)
    exact .done (fun s' r hr => extends_step (.const_ty c y) hr)
      fun s' r hr hfit _ h => absurd h habsurd
  | some c =>
    have hnode : s.node_of row.content =
        some (⟨.ConstVal (some c), (0, 0), row.quals⟩, [row.b]) := by
      simp [TyRow.content, htag, node_of, hc]
    rw [const_walk]
    refine core_args hf hrow hnode rfl (by simp [Head.tag]) (fun hclean => Label.eq_of rfl hclean)
      fun s1 ys hext hlen => ?_
    obtain ⟨y, rfl⟩ := length_eq_one_iff.mp hlen
    rw [getElem?_kept hext.consts hc]
    exact const_builds k c y s1

theorem Ready.rigid_iff (h : Ready k b v s)
    (hrow : s.rows[r]? = some row) : rigid (s.tree r) = is_rigid row := by
  obtain ⟨-, htag⟩ := h.good.label_quals hrow
  rw [rigid, is_rigid, htag]

theorem core_proj (hf : Substitutes k b v f) (hrow : s.rows[t]? = some row)
    (htag : row.tag = .Proj) {tr : TraitRefId} {name : Symbol} {d : DefId} {args : ArgsId} (hkey : s.proj_keys[row.b]? = some (tr, name))
    (htr : s.trait_refs[tr]? = some (d, args)) (hxs : s.args_at args = some xs) :
    CoreSpec k b v s t (TyStore.then_ (subst_list f s xs) fun s ys => do
      let (s, id) ← s.intern_args k ys
      let (s, tr) ← s.intern_trait_ref k d id
      let (s, key) ← s.intern_proj_key k tr name
      TyStore.then_ (f s row.a) fun s head => do
        let head_row ← s.rows[head]?
        if is_rigid head_row then done (s.proj k head key) else some (s, none)) := by
  have hnode : s.node_of row.content =
      some (⟨.Proj d name, (0, 0), row.quals⟩, row.a :: xs) := by
    simp [TyRow.content, htag, node_of, hkey, htr, hxs]
  have hslot : (marks b).slot ⟨.Proj d name, (0, 0), row.quals⟩ = none := rfl
  refine .then_ (subst_list_post hf s xs) (fun s1 ys _ hext1 => ?_)
    (fun s1 hext1 hnone h hq => ?_)
  · refine .call (fun s2 id => extends_intern_args)
      (P := fun s2 id => s1.Good k → s2.Good k ∧ s2.args_at id = some ys)
      (fun s2 id hrun hfit h => good_intern_args h hrun hfit) fun s2 id hext2 => ?_
    refine .call (fun s3 tr' => extends_intern_trait_ref)
      (P := fun s3 tr' => s2.Good k → s3.Good k ∧ s3.trait_refs[tr']? = some (d, id))
      (fun s3 tr' hrun hfit h => good_intern_trait_ref h hrun hfit) fun s3 tr' hext3 => ?_
    refine .call (fun s4 key => extends_intern_proj_key)
      (P := fun s4 key => s3.Good k → s4.Good k ∧ s4.proj_keys[key]? = some (tr', name))
      (fun s4 key hrun hfit h => good_intern_proj_key h hrun hfit) fun s4 key hext4 => ?_
    -- the store that the walk of the head starts from
    have hstart : Ready k b v s →
        (Ready k b v s → (∀ x ∈ xs, x < s.rows.length) →
          Instances k b v (xs.map s.tree) s1 (some ys)) →
        (s1.Good k → s2.Good k ∧ s2.args_at id = some ys) →
        (s2.Good k → s3.Good k ∧ s3.trait_refs[tr']? = some (d, id)) →
        (s3.Good k → s4.Good k ∧ s4.proj_keys[key]? = some (tr', name)) →
        Ready k b v s4 ∧ row.a < s4.rows.length ∧
          s4.tree row.a = s.tree row.a ∧ substList (marks b) v (xs.map s.tree) =
            some (ys.map s4.tree) ∧ (∀ y ∈ ys, y < s4.rows.length) ∧
          s4.args_at id = some ys ∧ s4.trait_refs[tr']? = some (d, id) ∧
          s4.proj_keys[key]? = some (tr', name) := by
      intro h hys h2 h3 h4
      obtain ⟨htree, hlt, -⟩ := h.node hrow hnode
      rw [forall_mem_cons] at hlt
      have hys := hys h hlt.2
      obtain ⟨h2, hargs⟩ := h2 hys.ready.good
      obtain ⟨h3, htr'⟩ := h3 h2
      obtain ⟨h4, hkey'⟩ := h4 h3
      have hext14 := hext2.trans (hext3.trans hext4)
      have hext04 := hext1.trans hext14
      have hhead := h.good.tree_extends hext04 h4.toInv hlt.1
      refine ⟨hys.ready.extends hext14 h4, Nat.lt_of_lt_of_le hlt.1 hext04.rows.length_le,
        hhead, ?_, fun y hy => Nat.lt_of_lt_of_le (hys.lt ys rfl y hy) hext14.rows.length_le,
        (hext3.trans hext4).args_at hargs, getElem?_kept hext4.trait_refs htr', hkey'⟩
      · rw [hys.trees, hys.ready.good.map_tree_extends hext14 h4.toInv (hys.lt ys rfl)]
        rfl
    refine .then_ (hf s4 row.a) (fun s5 head _ hext5 => .bind fun head_row hhead_row => ?_)
      (fun s5 hext5 hnone hp hr ha hys h hq => ?_)
    · by_cases hrigid : is_rigid head_row = true
      · rw [if_pos hrigid]
        refine .done (fun s' r hr => extends_intern hr)
          fun s' r hr hfit hhead hp htr3 ha hys h hq => ?_
        obtain ⟨h4, ha4, hhead4, hlist, hlt, hargs, htr', hkey'⟩ :=
          hstart h hys ha htr3 hp
        have hone := hhead h4 ha4
        rw [hhead4] at hone
        obtain ⟨htree, -, -⟩ := h.node hrow hnode
        rw [htree] at hq ⊢
        have hq' : row.quals = .NONE := hq
        have hlist' := h4.good.map_tree_extends hext5 hone.ready.good.toInv hlt
        have hall : ∀ x ∈ head :: ys, x < s5.rows.length := by
          rw [forall_mem_cons]
          exact ⟨hone.lt head rfl, fun y hy => Nat.lt_of_lt_of_le (hlt y hy) hext5.rows.length_le⟩
        obtain ⟨hgood, hbuilt⟩ := good_proj hone.ready.good
          (getElem?_kept hext5.proj_keys hkey') (getElem?_kept hext5.trait_refs htr')
          (hext5.args_at hargs) hall hr hfit
        refine ⟨hone.ready.extends (extends_intern hr) hgood, ?_, ?_⟩
        · intro _ heq
          cases heq
          exact hbuilt.1
        · have hok := hone.ready.rigid_iff hhead_row
          rw [hrigid] at hok
          rw [subst, hslot]
          simp only [map_cons, substList, hone.tree, hlist, map_some, bind_some,
            ← hlist', hbuilt.2, hq']
          simp [marks, hok]
      · rw [if_neg hrigid]
        refine .pure fun hhead hp htr3 ha hys h hq => ?_
        obtain ⟨h4, ha4, hhead4, hlist, hlt, hargs, htr', hkey'⟩ :=
          hstart h hys ha htr3 hp
        have hone := hhead h4 ha4
        rw [hhead4] at hone
        refine ⟨hone.ready, fun _ heq => (by cases heq), ?_⟩
        rw [(h.node hrow hnode).1, subst, hslot]
        have hok := hone.ready.rigid_iff hhead_row
        rw [Bool.eq_false_of_not_eq_true hrigid] at hok
        simp only [map_cons, substList, hone.tree, hlist, map_some, bind_some]
        simp [marks, hok, Head.tag]
    · obtain ⟨h4, ha4, hhead4, -⟩ := hstart h hys ha hr hp
      have hone := hnone h4 ha4
      rw [hhead4] at hone
      refine ⟨hone.ready, fun _ heq => (by cases heq), ?_⟩
      rw [(h.node hrow hnode).1, subst, hslot]
      simp only [map_cons, substList, hone.tree]
      rfl
  · obtain ⟨htree, hlt, -⟩ := h.node hrow hnode
    rw [htree]
    rw [forall_mem_cons] at hlt
    have hys := hnone h hlt.2
    refine ⟨hys.ready, fun _ heq => (by cases heq), ?_⟩
    rw [subst, hslot]
    simp only [map_cons, substList, hys.trees, map_none]
    cases subst (marks b) v (s.tree row.a) <;> rfl

theorem subst_core_post (hf : Substitutes k b v f) (s : TyStore) (t : TyId) :
    CoreSpec k b v s t (subst_core k b f s t) := by
  refine .bind fun row hrow => ?_
  cases htag : row.tag with
  | Error => exact core_atom hrow (.inl htag)
  | Unit => exact core_atom hrow (.inr (.inl htag))
  | Never => exact core_atom hrow (.inr (.inr (.inl htag)))
  | Prim => exact core_atom hrow (.inr (.inr (.inr htag)))
  | Param => exact core_param hrow htag
  | Brand =>
    refine .bind fun brand hbrand => ?_
    cases brand with
    | Param owner ordinal => exact core_brand hrow htag hbrand
    | Fresh owner ordinal => exact core_fresh hrow htag hbrand
  | Nominal => exact .bind fun xs hxs => core_nominal hf hrow htag hxs
  | Tuple => exact .bind fun xs hxs => core_tuple hf hrow htag hxs
  | Dyn => exact .bind fun _ htr => .bind fun xs hxs => core_dyn hf hrow htag htr hxs
  | Fn => exact .bind fun _ hfn => core_fn hf hrow htag hfn
  | Proj => exact .bind fun _ hkey => .bind fun _ htr => .bind fun xs hxs =>
      core_proj hf hrow htag hkey htr hxs
  | ConstVal => exact core_const hf hrow htag

/-! ## Qualifiers -/

theorem own_open (head : Head) : head.own &&& (F_PARAM ||| F_PROJ ||| F_BRAND) ≠ 0 ↔
    head.tag = .Param ∨ head.tag = .Proj ∨ head.tag = .Brand := by
  rcases head with _ | _ | _ | _ | _ | _ | _ | _ | _ | _ | ⟨_ | _⟩ | _ <;>
    simp [Head.own, Head.tag, BrandRow.kind, F_PARAM, F_PROJ, F_BRAND, F_FRESH, F_ERROR]

theorem slot_of_tag (h : b.slot_of l ≠ none) :
    l.head.tag = .Param ∨ l.head.tag = .Brand := by
  obtain ⟨head, spare, quals⟩ := l
  cases head with
  | Param => exact .inl rfl
  | Brand => exact .inr rfl
  | _ => exact absurd rfl h

/-- A monomorphic type is its own instance. -/
theorem Ready.monomorphic (h : Ready k b v s) (hrow : s.rows[t]? = some row)
    (hmono : is_monomorphic row = true) : Instance k b v (s.tree t) s (some t) where
  ready := h
  lt := by
    intro _ heq
    cases heq
    exact (List.getElem?_eq_some_iff.mp hrow).1
  tree := by
    refine subst_closed v _ fun l cs hsub => ?_
    have hclosed : ¬ s.Contains t fun head =>
        head.tag = .Param ∨ head.tag = .Proj ∨ head.tag = .Brand := by
      rw [← h.good.flags_iff own_open hrow, not_not]
      exact of_decide_eq_true hmono
    have hnone : ¬ (l.head.tag = .Param ∨ l.head.tag = .Proj ∨ l.head.tag = .Brand) :=
      fun hopen => hclosed ⟨l, cs, hsub, hopen⟩
    constructor
    · by_contra hslot
      obtain htag | htag := slot_of_tag hslot
      · exact hnone (.inl htag)
      · exact hnone (.inr (.inr htag))
    · simpa [marks] using fun hproj => hnone (.inr (.inl hproj))

theorem slot_of_quals (b : Binding) (q : Quals) (l : Label) :
    b.slot_of { l with quals := q } = b.slot_of l :=
  rfl

/-- The instance of a qualified type is the instance of its twin, qualified; there is none where
the twin's instance is qualified already. -/
theorem subst_requal (T : Rose Label) :
    subst (marks b) v T = (subst (marks b) v (requal .NONE T)).bind fun u =>
      if T.label.quals = .NONE then some u
      else if u.label.quals = .NONE then some (requal T.label.quals u) else none := by
  obtain ⟨l, cs⟩ := T
  by_cases hq : l.quals = .NONE
  · rw [requal_self (t := .node l cs) hq]
    simp [Rose.label, hq]
  · have hlabel : (Rose.node l cs).label.quals = l.quals := rfl
    rw [requal, hlabel]
    simp only [if_neg hq]
    cases hslot : (marks b).slot l with
    | some i =>
      have hslot' : (marks b).slot { l with quals := .NONE } = some i := hslot
      rw [subst_slot hslot, subst_slot hslot']
      cases v i with
      | none => rfl
      | some u =>
        change b.put l u = (b.put { l with quals := .NONE } u).bind _
        have hsame := slot_of_quals b .NONE l
        rw [Binding.put, Binding.put]
        simp only [hsame, hq, if_false, if_true]
        by_cases hlost : b.slot_of l = some none
        · rw [if_pos hlost, if_pos hlost]
          rfl
        · rw [if_neg hlost, if_neg hlost, bind_some]
    | none =>
      have hslot' : (marks b).slot { l with quals := .NONE } = none := hslot
      rw [subst_node hslot, subst_node hslot']
      cases substList (marks b) v cs with
      | none => rfl
      | some us =>
        change (if (marks b).ok l us = true then _ else _) =
          (if (marks b).ok l us = true then _ else _ : Option (Rose Label)).bind _
        by_cases hok : (marks b).ok l us = true
        · simp only [if_pos hok, bind_some]
          rfl
        · simp only [if_neg hok, bind_none]

theorem subst_norm_post (k : Keys) (b : Binding) (v : Values Label (Option Nat)) (fuel : Nat) :
    Substitutes k b v (subst_norm k b fuel) := by
  induction fuel with
  | zero => exact fun s t s' out hrun => nomatch hrun
  | succ fuel ih =>
    intro s t
    refine .bind fun row hrow => ?_
    by_cases hmono : is_monomorphic row = true
    · rw [if_pos hmono]
      exact .pure fun h _ => h.monomorphic hrow hmono
    rw [if_neg hmono]
    refine .then_ (subst_core_post ih s row.unqual) (fun s1 r _ hext => ?_)
      (fun s1 hext hnone h ht => ?_)
    · by_cases hq : row.quals = .NONE
      · rw [if_pos hq]
        refine .pure fun hcore h ht => ?_
        have htwin := (h.good.tree_unqual hrow).2
        have hquals := (h.good.label_quals hrow).1
        rw [hq] at hquals
        rw [requal_self hquals] at htwin
        rw [htwin] at hcore
        exact hcore h hquals
      · rw [if_neg hq]
        refine .bind fun out_row hout => ?_
        by_cases hout_quals : out_row.quals = .NONE
        · rw [if_neg (not_not.mpr hout_quals)]
          refine .done (fun s' r' hr => extends_step (.qualified r row.quals) hr)
            fun s' r' hr hfit hcore h ht => ?_
          have htwin := (h.good.tree_unqual hrow).2
          have hquals := (h.good.label_quals hrow).1
          rw [htwin] at hcore
          have hone := hcore h (requal_quals _ _)
          obtain ⟨hgood, hbuilt⟩ := good_qualified hone.ready.good hout hr hfit
          have hout' := (hone.ready.good.label_quals hout).1
          rw [hout_quals] at hout' hbuilt
          refine ⟨hone.ready.extends (extends_step (.qualified r row.quals) hr) hgood,
            ?_, ?_⟩
          · intro _ heq
            cases heq
            exact hbuilt.1
          · rw [subst_requal, hone.tree, hquals]
            simp only [map_some, bind_some, hq, if_false, hout', if_true, hbuilt.2]
            simp [Quals.NONE]
        · rw [if_pos hout_quals]
          refine .pure fun hcore h ht => ?_
          have htwin := (h.good.tree_unqual hrow).2
          have hquals := (h.good.label_quals hrow).1
          rw [htwin] at hcore
          have hone := hcore h (requal_quals _ _)
          have hout' := (hone.ready.good.label_quals hout).1
          refine ⟨hone.ready, nofun, ?_⟩
          rw [subst_requal, hone.tree, hquals]
          simp only [map_some, bind_some, hq, if_false, hout', hout_quals,
            map_none]
    · have htwin := (h.good.tree_unqual hrow).2
      rw [htwin] at hnone
      have hone := hnone h (requal_quals _ _)
      refine ⟨hone.ready, nofun, ?_⟩
      rw [subst_requal, hone.tree]
      rfl

end Fors.Ty
