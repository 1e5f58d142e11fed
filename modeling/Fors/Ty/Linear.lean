import Fors.Ty.Lin

/-!
# What linearity is

A type is linear when its head is declared linear or owned, or when one of its by-value components
is, with the type's arguments in place. `lin` finds this out, in any order of queries that share a
memo, as long as the descent of each query finds every component it visits and gives up on none
that is linear.

Principal result: `lin_parts_parts`.
-/

namespace Fors.Ty

open Option hiding map_id map_map pure_def
open Trees TyStore Matching Descent List

/-! ## Components as types -/

/-- The component types of the declarations, and how many parameters each has. -/
structure Decls where
  fields : DefId → List (Rose Label)
  generics : DefId → Nat

def decls (sigs : SigStore) (s : TyStore) : Decls where
  fields d := (((sigs[d]?).bind fun sig => raw_components s sig.members).getD []).map s.tree
  generics d := ((sigs[d]?).map fun sig => sig.generics % 2 ^ 16).getD 0

/-- The arguments of a type, as values of its declaration's first `n` parameters. -/
def args_values (n : Nat) (args : List (Rose Label)) : Values Label (Option Nat) :=
  fun i => i.bind fun i => if i < n then args[i]? else none

/-- The by-value components of a type, without their qualifiers, which do not change linearity. A
component is missing where its declared type has no instance at the arguments. -/
def by_value_parts (D : Decls) (env : LinEnv) (T : Rose Label) : List (Option (Rose Label)) :=
  match T.label.head with
  | .Nominal d =>
    if d ∈ env.own ∨ d ∈ env.opaque_ then []
    else if d ∈ env.by_value then (T.children.take 1).map fun c => some (requal .NONE c)
    else if T.children = [] then (D.fields d).map fun c => some (requal .NONE c)
    else (D.fields d).map fun c =>
      (subst (marks (Binding.new [(d, D.generics d)])) (args_values (D.generics d) T.children)
        c).map (requal .NONE)
  | .Tuple => T.children.map fun c => some (requal .NONE c)
  | _ => []

/-- The head is declared linear, or owns what it holds. -/
def DeclaredLinear (env : LinEnv) (T : Rose Label) : Prop :=
  ∃ d, T.label.head = .Nominal d ∧ (d ∈ env.roots ∨ d ∈ env.own)

def linear_parts (D : Decls) (env : LinEnv) : Parts (Rose Label) where
  own := DeclaredLinear env
  parts := by_value_parts D env

/-- Linear by (a) or (b) of the rule. -/
abbrev Linear (D : Decls) (env : LinEnv) : Rose Label → Prop :=
  Has (linear_parts D env)

/-- Linear by (c): a rigid type itself, which is not droppable. -/
def RigidLinear (env : LinEnv) (s : TyStore) (t : TyId) : Prop :=
  ∃ row, s.rows[t]? = some row ∧ is_rigid row = true ∧ row.unqual ∈ env.rigid_linear

variable {k : Keys} {sigs : SigStore} {env : LinEnv} {s s0 s' : TyStore} {t : TyId}

/-- Every component type that is declared is a row of the store. -/
def SigsOver (sigs : SigStore) (s : TyStore) : Prop :=
  ∀ (d : DefId) (sig : Sig), sigs[d]? = some sig →
    ∃ raw, raw_components s sig.members = some raw ∧ ∀ t ∈ raw, t < s.rows.length

/-! ## The components that the search computes -/

theorem raw_components_extends (h : s0.Extends s) {ms : List Member} {raw : List TyId}
    (hraw : raw_components s0 ms = some raw) : raw_components s ms = some raw := by
  induction ms generalizing raw with
  | nil => exact hraw
  | cons m ms ih =>
    simp only [raw_components, bind_eq_bind, bind_eq_some_iff, Option.pure_def,
      some.injEq] at hraw ⊢
    obtain ⟨xs, hxs, ys, hys, rfl⟩ := hraw
    refine ⟨xs, ?_, ys, ih hys, rfl⟩
    cases m with
    | Field ty => exact hxs
    | Variant payload =>
      cases payload with
      | Tuple args => exact h.args_at hxs
      | Record sub => exact hxs
      | None => exact hxs
    | Item => exact hxs

theorem bind_args_eq (d : DefId) (n : Nat) (args : List TyId) (hargs : ∀ a ∈ args, a ≠ NO_TY) :
    bind_args d n args =
      ⟨[⟨d, 0, n⟩], args.take n ++ List.replicate (n - args.length) NO_TY⟩ := by
  have hnew : Binding.new [(d, n)] = ⟨[⟨d, 0, n⟩], List.replicate n NO_TY⟩ := by
    simp [Binding.new, Binding.push]
  induction args using List.reverseRecOn with
  | nil => simp [bind_args, hnew]
  | append_singleton args a ih =>
    have ih := ih fun x hx => hargs x (mem_append_left _ hx)
    rw [bind_args] at ih ⊢
    rw [zipIdx_append, foldl_append, ih]
    simp only [zipIdx_singleton, foldl_cons, foldl_nil, Nat.zero_add]
    by_cases hlt : args.length < n
    · rw [if_pos hlt]
      have hat : Binding.at_ ⟨[⟨d, 0, n⟩], args.take n ++
          List.replicate (n - args.length) NO_TY⟩ d args.length = some args.length := by
        simp [Binding.at_, hlt]
      have htake : args.take n = args := take_of_length_le (Nat.le_of_lt hlt)
      have hrep : List.replicate (n - args.length) NO_TY =
          NO_TY :: List.replicate (n - (args.length + 1)) NO_TY := by
        rw [← replicate_succ]
        congr 1
        omega
      have htake' : (args ++ [a]).take n = args ++ [a] :=
        take_of_length_le (by rw [length_append, length_singleton]; omega)
      rw [Binding.bind, hat]
      simp only
      rw [if_pos (by rw [htake, hrep]; simp [List.getD])]
      simp only [htake, htake', hrep, length_append, length_singleton]
      simp
    · rw [if_neg hlt]
      have hlen : n ≤ args.length := by omega
      rw [take_append_of_le_length hlen]
      congr 2
      rw [length_append, length_singleton]
      congr 1
      omega

theorem bind_args_over (hfit : s.Fits) (d : DefId) (n : Nat) {args : List TyId}
    (hargs : ∀ a ∈ args, a < s.rows.length) :
    (bind_args d n args).owners = (Binding.new [(d, n)]).owners ∧ (bind_args d n args).Over s ∧
      (bind_args d n args).values s = args_values n (args.map s.tree) := by
  have hne : ∀ a ∈ args, a ≠ NO_TY := fun a ha hno => by
    have hlt := hargs a ha
    rw [hno] at hlt
    exact absurd (Nat.lt_of_lt_of_le hlt hfit.rows) (Nat.lt_irrefl _)
  rw [bind_args_eq d n args hne]
  refine ⟨by simp [Binding.new, Binding.push], ⟨?_, ?_⟩, ?_⟩
  · simp
    omega
  · intro v hv
    obtain hv | hv := mem_append.mp hv
    · exact .inr (hargs v (mem_of_mem_take hv))
    · exact .inl (eq_of_mem_replicate hv)
  · funext i
    cases i with
    | none => rfl
    | some i =>
      have hslot : (args.take n ++ List.replicate (n - args.length) NO_TY).getD i NO_TY =
          if i < n then args.getD i NO_TY else NO_TY := by
        simp only [getD_eq_getElem?_getD, getElem?_append, length_take,
          getElem?_take, getElem?_replicate]
        by_cases hn : i < n
        · by_cases hi : i < args.length
          · rw [if_pos (by omega), if_pos hn, if_pos hn]
          · rw [if_neg (by omega), if_pos hn, getElem?_eq_none (by omega)]
            split <;> rfl
        · rw [if_neg (by omega), if_neg hn, if_neg (by omega)]
          rfl
      simp only [Binding.values, args_values, bind_some, hslot, getElem?_map]
      by_cases hn : i < n
      · rw [if_pos hn, if_pos hn, getD_eq_getElem?_getD]
        cases hi : args[i]? with
        | none => rfl
        | some a => simp [hne a (mem_of_getElem? hi)]
      · simp [hn]

variable {b : Binding}

/-- Only the owners matter. -/
theorem marks_congr {b' : Binding} (h : b'.owners = b.owners) : marks b' = marks b := by
  obtain ⟨owners, slots⟩ := b
  obtain ⟨owners', slots'⟩ := b'
  subst h
  rfl

/-- The rows of components, where their types exist. -/
def PartsOf (s : TyStore) (cs : List TyId) (L : List (Option (Rose Label))) : Prop :=
  List.Forall₂ (fun c o => ∀ T, o = some T → c < s.rows.length ∧ requal .NONE (s.tree c) = T) cs L

variable {cs : List TyId}

theorem partsOf_map (f : TyId → TyId) (g : TyId → Option (Rose Label))
    (h : ∀ c ∈ cs, ∀ T, g c = some T → f c < s.rows.length ∧ requal .NONE (s.tree (f c)) = T) :
    PartsOf s (cs.map f) (cs.map g) := by
  rw [PartsOf, List.forall₂_map_left_iff, List.forall₂_map_right_iff, List.forall₂_same]
  exact h

/-- The rows themselves. -/
theorem partsOf_rows (h : ∀ c ∈ cs, c < s.rows.length) :
    PartsOf s cs ((cs.map s.tree).map fun c => some (requal .NONE c)) := by
  rw [map_map]
  have := @partsOf_map s cs id (fun c => some (requal .NONE (s.tree c)))
    fun c hc T hT => ⟨h c hc, some.inj hT⟩
  rwa [map_id] at this

theorem PartsOf.extends {L : List (Option (Rose Label))} (h : PartsOf s cs L)
    (hs : s.Good k) (hext : s.Extends s') (hs' : s'.Inv k) : PartsOf s' cs L :=
  Forall₂.imp (fun _ _ hc T hT => by
    obtain ⟨hlt, htree⟩ := hc T hT
    exact ⟨Nat.lt_of_lt_of_le hlt hext.rows.length_le, by rw [hs.tree_extends hext hs' hlt, htree]⟩) h

theorem subst_or_extends {ts us : List TyId}
    (hrun : subst_or k b s ts = some (s', us)) : s.Extends s' := by
  induction ts generalizing s us with
  | nil =>
    obtain ⟨rfl, rfl⟩ := Prod.mk.inj (some.inj hrun)
    exact .refl s
  | cons t ts ih =>
    simp only [subst_or, bind_eq_bind, bind_eq_some_iff, Prod.exists] at hrun
    obtain ⟨s1, out, hone, s2, rest, hrest, hrun⟩ := hrun
    cases hrun
    exact (subst_norm_post k b (fun _ => none) (t + 1) s t s1 out hone).1.trans (ih hrest)

theorem subst_or_parts {v : Values Label (Option Nat)} {ts us : List TyId}
    (hrun : subst_or k b s ts = some (s', us)) (hfit : s'.Fits) (h : Ready k b v s)
    (hts : ∀ t ∈ ts, t < s.rows.length) :
    s'.Good k ∧ PartsOf s' us
      ((ts.map s.tree).map fun c => (subst (marks b) v c).map (requal .NONE)) := by
  induction ts generalizing s us with
  | nil =>
    cases hrun
    exact ⟨h.good, .nil⟩
  | cons t ts ih =>
    simp only [subst_or, bind_eq_bind, bind_eq_some_iff, Prod.exists] at hrun
    obtain ⟨s1, out, hone, s2, rest, hrest, hrun⟩ := hrun
    cases hrun
    rw [forall_mem_cons] at hts
    have hext2 := subst_or_extends hrest
    obtain ⟨hext1, hpost⟩ := subst_norm_post k b v (t + 1) s t s1 out hone
    have hinst := hpost (hext2.fits hfit) h hts.1
    have hts1 : ∀ t ∈ ts, t < s1.rows.length := fun t ht =>
      Nat.lt_of_lt_of_le (hts.2 t ht) hext1.rows.length_le
    obtain ⟨hgood, hparts⟩ := ih hrest hinst.ready hts1
    rw [h.good.map_tree_extends hext1 hinst.ready.good.toInv hts.2] at hparts
    refine ⟨hgood, .cons (fun T hT => ?_) hparts⟩
    change ((subst (marks b) v (s.tree t)).map (requal .NONE)) = some T at hT
    rw [hinst.tree, Option.map_map] at hT
    obtain ⟨r, rfl, rfl⟩ := map_eq_some_iff.mp hT
    have hr := hinst.lt r rfl
    refine ⟨Nat.lt_of_lt_of_le hr hext2.rows.length_le, ?_⟩
    rw [getD_some, hinst.ready.good.tree_extends hext2 hgood.toInv hr]
    rfl

theorem components_extends {row : TyRow} (hrow : s.rows[t]? = some row)
    (hrun : components k sigs s t = some (s', cs)) : s.Extends s' := by
  rw [components, hrow] at hrun
  simp only [bind_eq_bind, bind_some] at hrun
  cases hsig : sigs[row.a]? with
  | none =>
    rw [hsig] at hrun
    obtain ⟨rfl, -⟩ := Prod.mk.inj (some.inj hrun)
    exact .refl s
  | some sig =>
    rw [hsig] at hrun
    obtain ⟨raw, hraw, hrun⟩ := bind_eq_some_iff.mp hrun
    obtain ⟨args, hargs, hrun⟩ := bind_eq_some_iff.mp hrun
    split at hrun
    · obtain ⟨rfl, -⟩ := Prod.mk.inj (some.inj hrun)
      exact .refl s
    · exact subst_or_extends hrun

/-- The fields of a declaration, in a later store. -/
theorem fields_eq (hs0 : s0.Good k) (hover : SigsOver sigs s0) (hext : s0.Extends s)
    (hs : s.Inv k) {d : DefId} {sig : Sig} (hsig : sigs[d]? = some sig) {raw : List TyId}
    (hraw : raw_components s sig.members = some raw) :
    (decls sigs s0).fields d = raw.map s.tree ∧ ∀ t ∈ raw, t < s.rows.length := by
  obtain ⟨raw0, hraw0, hlt⟩ := hover d sig hsig
  obtain rfl : raw0 = raw :=
    some.inj ((raw_components_extends hext hraw0).symm.trans hraw)
  refine ⟨?_, fun t ht => Nat.lt_of_lt_of_le (hlt t ht) hext.rows.length_le⟩
  rw [hs0.map_tree_extends hext hs hlt]
  simp [decls, hsig, hraw0]

theorem components_parts (hs0 : s0.Good k) (hover : SigsOver sigs s0) (hext : s0.Extends s)
    (hs : s.Good k) {row : TyRow} {args : List TyId} (hrow : s.rows[t]? = some row)
    (hargs : s.args_at row.b = some args) (hlt : ∀ a ∈ args, a < s.rows.length)
    (hrun : components k sigs s t = some (s', cs)) (hfit : s'.Fits) :
    s'.Good k ∧ PartsOf s' cs
      (if args.map s.tree = [] then ((decls sigs s0).fields row.a).map fun c => some (requal .NONE c)
      else ((decls sigs s0).fields row.a).map fun c =>
        (subst (marks (Binding.new [(row.a, (decls sigs s0).generics row.a)]))
          (args_values ((decls sigs s0).generics row.a) (args.map s.tree)) c).map
            (requal .NONE)) := by
  rw [components, hrow] at hrun
  simp only [bind_eq_bind, bind_some] at hrun
  cases hsig : sigs[row.a]? with
  | none =>
    rw [hsig] at hrun
    cases hrun
    refine ⟨hs, ?_⟩
    simp [decls, hsig, PartsOf]
  | some sig =>
    rw [hsig] at hrun
    obtain ⟨raw, hraw, hrun⟩ := bind_eq_some_iff.mp hrun
    obtain ⟨args', hargs', hrun⟩ := bind_eq_some_iff.mp hrun
    obtain rfl : args = args' := some.inj (hargs.symm.trans hargs')
    obtain ⟨hfields, hraw_lt⟩ := fields_eq hs0 hover hext hs.toInv hsig hraw
    have hgenerics : (decls sigs s0).generics row.a = sig.generics % 2 ^ 16 := by
      simp [decls, hsig]
    rw [hfields]
    by_cases hnil : args = []
    · rw [if_pos hnil] at hrun
      cases hrun
      rw [if_pos (by rw [hnil]; rfl)]
      exact ⟨hs, partsOf_rows hraw_lt⟩
    · rw [if_neg hnil] at hrun
      have hne : ¬ args.map s.tree = [] := fun h => hnil (map_eq_nil_iff.mp h)
      rw [if_neg hne, hgenerics]
      have hfit0 := (subst_or_extends hrun).fits hfit
      obtain ⟨howners, hbind, hvalues⟩ := bind_args_over hfit0 row.a (sig.generics % 2 ^ 16) hlt
      have hparts := subst_or_parts hrun hfit ⟨hs, hbind, hvalues⟩ hraw_lt
      rwa [marks_congr howners] at hparts

variable {D : Decls}

variable {l : Label}

theorem node_nominal {a b : Nat} {q : Quals} {xs : List TyId}
    (h : s.node_of (.Nominal, a, b, q) = some (l, xs)) :
    l.head = .Nominal a ∧ s.args_at b = some xs := by
  simp only [node_of, bind_eq_bind, bind_eq_some_iff, Option.pure_def,
    some.injEq, Prod.mk.injEq] at h
  obtain ⟨ys, hys, rfl, rfl⟩ := h
  exact ⟨rfl, hys⟩

theorem node_tuple {a b : Nat} {q : Quals} {xs : List TyId}
    (h : s.node_of (.Tuple, a, b, q) = some (l, xs)) :
    l.head = .Tuple ∧ s.args_at b = some xs := by
  simp only [node_of, bind_eq_bind, bind_eq_some_iff, Option.pure_def,
    some.injEq, Prod.mk.injEq] at h
  obtain ⟨ys, hys, rfl, rfl⟩ := h
  exact ⟨rfl, hys⟩

theorem by_value_parts_nominal {d : DefId} (h : l.head = .Nominal d)
    (cs : List (Rose Label)) : by_value_parts D env (.node l cs) =
      if d ∈ env.own ∨ d ∈ env.opaque_ then []
      else if d ∈ env.by_value then (cs.take 1).map fun c => some (requal .NONE c)
      else if cs = [] then (D.fields d).map fun c => some (requal .NONE c)
      else (D.fields d).map fun c =>
        (subst (marks (Binding.new [(d, D.generics d)])) (args_values (D.generics d) cs) c).map
          (requal .NONE) := by
  obtain ⟨head, spare, quals⟩ := l
  subst h
  rfl

theorem by_value_parts_tuple (h : l.head = .Tuple) (cs : List (Rose Label)) :
    by_value_parts D env (.node l cs) = cs.map fun c => some (requal .NONE c) := by
  obtain ⟨head, spare, quals⟩ := l
  subst h
  rfl

theorem by_value_parts_other {T : Rose Label} (hn : T.label.head.tag ≠ .Nominal)
    (ht : T.label.head.tag ≠ .Tuple) : by_value_parts D env T = [] := by
  rw [by_value_parts]
  split
  · rename_i d h
    rw [h] at hn
    exact absurd rfl hn
  · rename_i h
    rw [h] at ht
    exact absurd rfl ht
  · rfl

theorem lin_parts_extends (hrun : lin_parts k sigs env s t = some (s', cs)) :
    s.Extends s' := by
  obtain ⟨row, hrow, hrun⟩ := bind_eq_some_iff.mp hrun
  split at hrun
  · split at hrun
    · obtain ⟨rfl, -⟩ := Prod.mk.inj (some.inj hrun)
      exact .refl s
    · split at hrun
      · obtain ⟨args, -, hrun⟩ := bind_eq_some_iff.mp hrun
        obtain ⟨rfl, -⟩ := Prod.mk.inj (some.inj hrun)
        exact .refl s
      · exact components_extends hrow hrun
  · obtain ⟨args, -, hrun⟩ := bind_eq_some_iff.mp hrun
    obtain ⟨rfl, -⟩ := Prod.mk.inj (some.inj hrun)
    exact .refl s
  · obtain ⟨rfl, -⟩ := Prod.mk.inj (some.inj hrun)
    exact .refl s

/-- The rows that the search looks at are the by-value components. -/
theorem lin_parts_parts (hs0 : s0.Good k) (hover : SigsOver sigs s0) (hext : s0.Extends s)
    (hs : s.Good k) (hrun : lin_parts k sigs env s t = some (s', cs)) (hfit : s'.Fits) :
    s'.Good k ∧ PartsOf s' cs (by_value_parts (decls sigs s0) env (s.tree t)) := by
  obtain ⟨row, hrow, hrun⟩ := bind_eq_some_iff.mp hrun
  obtain ⟨l, xs, hnode, hlt⟩ : ∃ l xs, s.node_of row.content = some (l, xs) ∧
      ∀ c ∈ xs, c < s.rows.length := by
    obtain ⟨hnode, hlt, -⟩ := hs.node_spec hrow
    exact ⟨_, _, hnode, fun c hc => (hlt c hc).trans (List.getElem?_eq_some_iff.mp hrow).1⟩
  rw [hs.tree_node hrow hnode]
  have htag := (node_of_tag hnode).1
  rw [TyRow.content] at hnode htag
  split at hrun
  · rename_i hkind
    rw [hkind] at hnode
    obtain ⟨hhead, hargs⟩ := node_nominal hnode
    rw [by_value_parts_nominal hhead]
    split at hrun
    · rename_i hown
      cases hrun
      rw [if_pos hown]
      exact ⟨hs, .nil⟩
    · rename_i hown
      rw [if_neg hown]
      split at hrun
      · rename_i hvalue
        obtain ⟨args, hargs', hrun⟩ := bind_eq_some_iff.mp hrun
        cases hrun
        obtain rfl : xs = args := some.inj (hargs.symm.trans hargs')
        rw [if_pos hvalue, ← List.map_take]
        exact ⟨hs, partsOf_rows fun c hc => hlt c (List.mem_of_mem_take hc)⟩
      · rename_i hvalue
        rw [if_neg hvalue]
        exact components_parts hs0 hover hext hs hrow hargs hlt hrun hfit
  · rename_i hkind
    rw [hkind] at hnode
    obtain ⟨hhead, hargs⟩ := node_tuple hnode
    obtain ⟨args, hargs', hrun⟩ := bind_eq_some_iff.mp hrun
    obtain ⟨rfl, rfl⟩ := Prod.mk.inj (some.inj hrun)
    obtain rfl : xs = args := some.inj (hargs.symm.trans hargs')
    rw [by_value_parts_tuple hhead]
    exact ⟨hs, partsOf_rows hlt⟩
  · rename_i hnominal htuple
    cases hrun
    rw [by_value_parts_other]
    · exact ⟨hs, .nil⟩
    · exact fun h => hnominal (htag.symm.trans h)
    · exact fun h => htuple (htag.symm.trans h)

end Fors.Ty
