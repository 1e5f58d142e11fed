import Fors.Lib.Trees
import Fors.Ty.Extends

/-!
# Nodes of the type store

A row stands for a node: a label with the constructor, its heads and its qualifiers, and the rows
below it. While the pools index their entries once, a node determines the row it comes from.

Principal result: `Pools.node_of_inj`.
-/

namespace Fors.Ty

open Trees List
open Option hiding pure_def

/-- A constructor with what it holds besides types. -/
inductive Head where
  | Error
  | Unit
  | Never
  | Prim (kind : Nat)
  | Nominal (d : DefId)
  | Tuple
  | Fn (convs : List Conv) (raises closure : Bool)
  | Dyn (trait_def : DefId)
  | Param (owner : DefId) (ordinal : Nat)
  | Proj (trait_def : DefId) (name : Symbol)
  | Brand (row : BrandRow)
  | ConstVal (v : Option ConstValue)
  deriving DecidableEq

/-- What a row says besides its children. `spare` holds the columns its constructor leaves unused,
which only a raw `intern` sets. -/
structure Label where
  head : Head
  spare : Nat × Nat
  quals : Quals
  deriving DecidableEq

def Head.tag : Head → TyTag
  | .Error => .Error
  | .Unit => .Unit
  | .Never => .Never
  | .Prim _ => .Prim
  | .Nominal _ => .Nominal
  | .Tuple => .Tuple
  | .Fn _ _ _ => .Fn
  | .Dyn _ => .Dyn
  | .Param _ _ => .Param
  | .Proj _ _ => .Proj
  | .Brand _ => .Brand
  | .ConstVal _ => .ConstVal

/-- The flags a constructor adds to those of its children. -/
def Head.own : Head → Flags
  | .Error => F_ERROR
  | .Param _ _ => F_PARAM
  | .Proj _ _ => F_PROJ
  | .Brand row => if row.kind = .Fresh then F_BRAND ||| F_FRESH else F_BRAND
  | _ => 0

/-- What a row is interned by. -/
abbrev Content := TyTag × Nat × Nat × Quals

def TyRow.content (row : TyRow) : Content :=
  (row.tag, row.a, row.b, row.quals)

namespace TyStore

/-- The label and the children of a row's content. -/
def node_of (s : TyStore) : Content → Option (Label × List TyId)
  | (.Error, a, b, q) => some (⟨.Error, (a, b), q⟩, [])
  | (.Unit, a, b, q) => some (⟨.Unit, (a, b), q⟩, [])
  | (.Never, a, b, q) => some (⟨.Never, (a, b), q⟩, [])
  | (.Prim, a, b, q) => some (⟨.Prim a, (0, b), q⟩, [])
  | (.Nominal, a, b, q) => do
    let xs ← s.args_at b
    return (⟨.Nominal a, (0, 0), q⟩, xs)
  | (.Tuple, a, b, q) => do
    let xs ← s.args_at b
    return (⟨.Tuple, (a, 0), q⟩, xs)
  | (.Fn, a, b, q) => do
    let (params, result, raises, closure) ← s.fn_at a
    return (⟨.Fn (params.map Prod.fst) (raises ≠ NO_TY) closure, (0, b), q⟩,
      params.map Prod.snd ++ result :: if raises = NO_TY then [] else [raises])
  | (.Dyn, a, b, q) => do
    let (d, args) ← s.trait_refs[a]?
    let xs ← s.args_at args
    return (⟨.Dyn d, (0, b), q⟩, xs)
  | (.Param, a, b, q) => some (⟨.Param a b, (0, 0), q⟩, [])
  | (.Proj, a, b, q) => do
    let (tr, name) ← s.proj_keys[b]?
    let (d, args) ← s.trait_refs[tr]?
    let xs ← s.args_at args
    return (⟨.Proj d name, (0, 0), q⟩, a :: xs)
  | (.Brand, a, b, q) => do
    let row ← s.brands[b]?
    return (⟨.Brand row, (a, 0), q⟩, [])
  -- `child_flags` does not look at the constant, so its id may be one that no entry has yet
  | (.ConstVal, a, b, q) => match s.consts[a]? with
    | some v => some (⟨.ConstVal (some v), (0, 0), q⟩, [b])
    | none => some (⟨.ConstVal none, (a, 0), q⟩, [b])

/-- The node of a row. -/
def node (s : TyStore) (t : TyId) : Label × List TyId :=
  ((s.rows[t]?).bind fun row => s.node_of row.content).getD (⟨.Error, (0, 0), .NONE⟩, [])

/-- The type a row stands for. -/
def tree (s : TyStore) : TyId → Rose Label :=
  Trees.tree s.node

/-- The argument lists of the store. -/
def arg_lists (s : TyStore) : List (List TyId) :=
  s.args_index.map fun p => (s.args.drop p.1).take p.2

/-- The entries of the `Fn` pool. -/
def fn_entries (s : TyStore) : List (List (Conv × TyId) × TyId × TyId × Bool) :=
  s.fn_tys.map fun row =>
    ((s.fn_params.drop row.p_start).take row.p_len, row.result, row.raises, row.closure)

/-- Every pool is indexed by its table, and every range of a pool lies in its column. -/
structure Pools (k : Keys) (s : TyStore) : Prop where
  args : Pool s.args_cons k.args s.arg_lists
  args_range : ∀ p ∈ s.args_index, p.1 + p.2 ≤ s.args.length
  trait_refs : Pool s.tr_cons k.trait_ref s.trait_refs
  proj_keys : Pool s.pk_cons k.proj_key s.proj_keys
  fn_tys : Pool s.fn_cons k.fn_ty s.fn_entries
  fn_range : ∀ row ∈ s.fn_tys, row.p_start + row.p_len ≤ s.fn_params.length
  brands : Pool s.brand_cons k.brand s.brands
  consts : Pool s.const_cons k.const s.consts
  rows : Pool s.rows_cons k.row (s.rows.map TyRow.content)

/-- The content is that of a node over the first `n` rows with these flags. -/
def Resolved (s : TyStore) (n : Nat) (c : Content) (flags : Flags) : Prop :=
  ∃ label children g, s.node_of c = some (label, children) ∧ (∀ x ∈ children, x < n) ∧
    s.or_flags children = some g ∧ flags = label.head.own ||| g

/-- The row's twin has its content and no qualifiers. -/
def TwinOf (s : TyStore) (row : TyRow) : Prop :=
  ∃ twin, s.rows[row.unqual]? = some twin ∧ twin.content = (row.tag, row.a, row.b, .NONE)

structure Inv (k : Keys) (s : TyStore) : Prop extends Pools k s where
  resolved : ∀ (t : TyId) (row : TyRow), s.rows[t]? = some row → s.Resolved t row.content row.flags
  twin : ∀ (t : TyId) (row : TyRow), s.rows[t]? = some row → s.TwinOf row

/-- No id is above `u32::MAX - 1`, and every range of a pool starts below `2 ^ 32`. -/
structure Fits (s : TyStore) : Prop where
  rows : s.rows.length ≤ EMPTY
  args : s.args.length ≤ 2 ^ 32
  args_index : s.args_index.length ≤ EMPTY
  trait_refs : s.trait_refs.length ≤ EMPTY
  proj_keys : s.proj_keys.length ≤ EMPTY
  fn_params : s.fn_params.length ≤ 2 ^ 32
  fn_tys : s.fn_tys.length ≤ EMPTY
  brands : s.brands.length ≤ EMPTY
  consts : s.consts.length ≤ EMPTY

variable {k : Keys} {s s' : TyStore} {id : Nat}

theorem Extends.fits (h : s.Extends s') (hfit : s'.Fits) : s.Fits where
  rows := h.rows.length_le.trans hfit.rows
  args := h.args.length_le.trans hfit.args
  args_index := h.args_index.length_le.trans hfit.args_index
  trait_refs := h.trait_refs.length_le.trans hfit.trait_refs
  proj_keys := h.proj_keys.length_le.trans hfit.proj_keys
  fn_params := h.fn_params.length_le.trans hfit.fn_params
  fn_tys := h.fn_tys.length_le.trans hfit.fn_tys
  brands := h.brands.length_le.trans hfit.brands
  consts := h.consts.length_le.trans hfit.consts

/-! ## Nodes -/

variable {c : Content}

theorem node_of_tag {label : Label} {children : List TyId}
    (h : s.node_of c = some (label, children)) : label.head.tag = c.1 ∧ label.quals = c.2.2.2 := by
  obtain ⟨tag, a, b, q⟩ := c
  cases tag with
  | ConstVal =>
    rw [node_of] at h
    split at h
    all_goals
      obtain ⟨rfl, -⟩ := Prod.mk.inj (some.inj h)
      exact ⟨rfl, rfl⟩
  | _ =>
    simp only [node_of, bind_eq_bind, bind_eq_some_iff, Option.pure_def,
      some.injEq, Prod.mk.injEq, Prod.exists] at h
    grind [Head.tag]

theorem slice_eq {α : Type} {xs : List α} {start len : Nat} (h : start + len ≤ xs.length) :
    slice xs start len = some ((xs.drop start).take len) :=
  if_pos h

theorem Pools.args_at_eq (h : s.Pools k) (id : ArgsId) : s.args_at id = s.arg_lists[id]? := by
  rw [arg_lists, getElem?_map, args_at]
  cases hp : s.args_index[id]? with
  | none => rfl
  | some p => exact slice_eq (h.args_range p (mem_of_getElem? hp))

theorem Pools.fn_at_eq (h : s.Pools k) (id : FnTyId) : s.fn_at id = s.fn_entries[id]? := by
  rw [fn_entries, getElem?_map, fn_at, params]
  cases hrow : s.fn_tys[id]? with
  | none => rfl
  | some row =>
    simp only [bind_eq_bind, bind_some,
      slice_eq (h.fn_range row (mem_of_getElem? hrow))]
    rfl

theorem map_fst_snd_inj {α β : Type} {xs ys : List (α × β)} (hfst : xs.map Prod.fst = ys.map Prod.fst)
    (hsnd : xs.map Prod.snd = ys.map Prod.snd) : xs = ys := by
  rw [← zip_unzip xs, ← zip_unzip ys, unzip_eq_map, unzip_eq_map, hfst, hsnd]

theorem fn_children_inj {ps ps' : List (Conv × TyId)} {r r' raises raises' : TyId}
    (hconvs : ps'.map Prod.fst = ps.map Prod.fst)
    (hraises : decide (raises' ≠ NO_TY) = decide (raises ≠ NO_TY))
    (hkids : ps'.map Prod.snd ++ r' :: (if raises' = NO_TY then [] else [raises']) =
      ps.map Prod.snd ++ r :: (if raises = NO_TY then [] else [raises])) :
    ps' = ps ∧ r' = r ∧ raises' = raises := by
  have hlen : (ps'.map Prod.snd).length = (ps.map Prod.snd).length := by
    have := congrArg List.length hconvs
    simpa using this
  obtain ⟨hsnd, htail⟩ := append_inj hkids hlen
  obtain ⟨hr, hlast⟩ := cons.inj htail
  refine ⟨map_fst_snd_inj hconvs hsnd, hr, ?_⟩
  have hiff : raises' ≠ NO_TY ↔ raises ≠ NO_TY := decide_eq_decide.mp hraises
  by_cases hno : raises = NO_TY
  · rw [hno]
    by_contra hne
    exact hiff.mp hne hno
  · rw [if_neg hno, if_neg (hiff.mpr hno)] at hlast
    exact singleton_inj.mp hlast

/-- A node determines the content it was interned by. -/
theorem Pools.node_of_inj (h : s.Pools k) {c' : Content} {n : Label × List TyId}
    (hc : s.node_of c = some n) (hc' : s.node_of c' = some n) : c = c' := by
  obtain ⟨label, children⟩ := n
  obtain ⟨htag, hquals⟩ := node_of_tag hc
  obtain ⟨htag', hquals'⟩ := node_of_tag hc'
  obtain ⟨tag, a, b, q⟩ := c
  obtain ⟨tag', a', b', q'⟩ := c'
  obtain rfl : tag = tag' := htag.symm.trans htag'
  obtain rfl : q = q' := hquals.symm.trans hquals'
  cases tag with
  | Fn =>
    simp only [node_of, bind_eq_bind, bind_eq_some_iff, Option.pure_def,
      some.injEq, Prod.mk.injEq, h.fn_at_eq] at hc hc'
    obtain ⟨⟨ps, r, rs, cl⟩, hfn, rfl, rfl⟩ := hc
    obtain ⟨⟨ps', r', rs', cl'⟩, hfn', hlabel, hkids⟩ := hc'
    simp only [Label.mk.injEq, Head.Fn.injEq, Prod.mk.injEq, true_and, and_true] at hlabel
    obtain ⟨⟨hconvs, hraises, rfl⟩, rfl⟩ := hlabel
    obtain ⟨rfl, rfl, rfl⟩ := fn_children_inj hconvs hraises hkids
    rw [h.fn_tys.index_inj hfn hfn']
  | ConstVal =>
    simp only [node_of] at hc hc'
    cases ha : s.consts[a]? <;> cases ha' : s.consts[a']? <;> rw [ha] at hc <;> rw [ha'] at hc'
    all_goals
      simp only [some.injEq, Prod.mk.injEq] at hc hc'
      obtain ⟨rfl, rfl⟩ := hc
      obtain ⟨hlabel, hkids⟩ := hc'
      have hpool := h.consts
      grind [Pool.index_inj]
  | _ =>
    simp only [node_of, bind_eq_bind, bind_eq_some_iff, Option.pure_def,
      some.injEq, Prod.mk.injEq, Prod.exists, h.args_at_eq] at hc hc'
    grind [Pool.index_inj, Pools]

/-! ## Flags -/

variable {f : Flags}

theorem or_flags_append {xs ys : List TyId} {g : Flags} (hx : s.or_flags xs = some f)
    (hy : s.or_flags ys = some g) : s.or_flags (xs ++ ys) = some (f ||| g) := by
  induction xs generalizing f with
  | nil =>
    cases hx
    simp [hy]
  | cons x xs ih =>
    simp only [or_flags, bind_eq_bind, bind_eq_some_iff, Option.pure_def,
      some.injEq] at hx
    obtain ⟨f1, hf1, f2, hf2, rfl⟩ := hx
    simp only [cons_append, or_flags, hf1, ih hf2, bind_eq_bind, bind_some,
      Option.pure_def, BitVec.or_assoc]

theorem or_flags_lt {xs : List TyId} (h : s.or_flags xs = some f) :
    ∀ x ∈ xs, x < s.rows.length := by
  induction xs generalizing f with
  | nil => simp
  | cons x xs ih =>
    simp only [or_flags, bind_eq_bind, bind_eq_some_iff, flags,
      map_eq_some_iff] at h
    obtain ⟨_, ⟨row, hrow, -⟩, g, hg, -⟩ := h
    rw [List.forall_mem_cons]
    exact ⟨(List.getElem?_eq_some_iff.mp hrow).1, ih hg⟩

/-- What `child_flags` computes is the own flags of a node over existing rows, with those of its
children. -/
theorem resolved_of_child_flags {tag : TyTag} {a b : Nat} (q : Quals)
    (h : s.child_flags tag a b = some f) : s.Resolved s.rows.length (tag, a, b, q) f := by
  suffices hnode : ∃ label children g, s.node_of (tag, a, b, q) = some (label, children) ∧
      s.or_flags children = some g ∧ f = label.head.own ||| g by
    obtain ⟨label, children, g, hnode, hg, hf⟩ := hnode
    exact ⟨label, children, g, hnode, or_flags_lt hg, hg, hf⟩
  cases tag with
  | Error | Unit | Never | Prim | Param =>
    cases h
    exact ⟨_, _, 0, rfl, rfl, by simp [Head.own]⟩
  | Nominal =>
    simp only [child_flags, or_args, bind_eq_bind, bind_eq_some_iff] at h
    obtain ⟨xs, hxs, hg⟩ := h
    exact ⟨⟨.Nominal a, (0, 0), q⟩, xs, f, by simp [node_of, hxs], hg, by simp [Head.own]⟩
  | Tuple =>
    simp only [child_flags, or_args, bind_eq_bind, bind_eq_some_iff] at h
    obtain ⟨xs, hxs, hg⟩ := h
    exact ⟨⟨.Tuple, (a, 0), q⟩, xs, f, by simp [node_of, hxs], hg, by simp [Head.own]⟩
  | Fn =>
    simp only [child_flags, bind_eq_bind, bind_eq_some_iff] at h
    obtain ⟨row, hrow, ps, hps, fp, hfp, fr, hfr, h⟩ := h
    have hfn : s.fn_at a = some (ps, row.result, row.raises, row.closure) := by
      simp [fn_at, hrow, hps]
    refine ⟨⟨.Fn (ps.map Prod.fst) (row.raises ≠ NO_TY) row.closure, (0, b), q⟩,
      ps.map Prod.snd ++ row.result :: if row.raises = NO_TY then [] else [row.raises], f,
      by simp [node_of, hfn], ?_, by simp [Head.own]⟩
    by_cases hraises : row.raises = NO_TY
    · rw [if_pos hraises] at h ⊢
      cases h
      exact or_flags_append hfp (by simp [or_flags, hfr])
    · rw [if_neg hraises] at h ⊢
      obtain ⟨g, hg, h⟩ := bind_eq_some_iff.mp h
      cases h
      rw [BitVec.or_assoc]
      exact or_flags_append hfp (by simp [or_flags, hfr, hg])
  | Dyn =>
    simp only [child_flags, or_args, bind_eq_bind, bind_eq_some_iff] at h
    obtain ⟨⟨d, args⟩, htr, xs, hxs, hg⟩ := h
    exact ⟨⟨.Dyn d, (0, b), q⟩, xs, f, by simp [node_of, htr, hxs], hg, by simp [Head.own]⟩
  | Proj =>
    simp only [child_flags, or_args, bind_eq_bind, bind_eq_some_iff] at h
    obtain ⟨fh, hfh, ⟨tr, name⟩, hpk, ⟨d, args⟩, htr, g, ⟨xs, hxs, hg⟩, hf⟩ := h
    cases hf
    refine ⟨⟨.Proj d name, (0, 0), q⟩, a :: xs, fh ||| g, by simp [node_of, hpk, htr, hxs], ?_, ?_⟩
    · simp [or_flags, hfh, hg]
    · simp [Head.own, BitVec.or_assoc]
  | Brand =>
    simp only [child_flags, bind_eq_bind, bind_eq_some_iff] at h
    obtain ⟨row, hrow, hf⟩ := h
    cases hf
    exact ⟨⟨.Brand row, (a, 0), q⟩, [], 0, by simp [node_of, hrow], rfl, by simp [Head.own]⟩
  | ConstVal =>
    have hg : s.or_flags [b] = some f := by simp_all [child_flags, or_flags]
    rw [node_of]
    cases s.consts[a]? with
    | none => exact ⟨_, [b], f, rfl, hg, by simp [Head.own]⟩
    | some v => exact ⟨_, [b], f, rfl, hg, by simp [Head.own]⟩

/-- A node's children and its own flags stay as the store grows. -/
theorem Extends.node_of (h : s.Extends s') {label : Label} {children : List TyId}
    (hc : s.node_of c = some (label, children)) :
    ∃ label', s'.node_of c = some (label', children) ∧ label'.head.own = label.head.own := by
  obtain ⟨tag, a, b, q⟩ := c
  cases tag with
  | ConstVal =>
    simp only [TyStore.node_of] at hc ⊢
    cases ha : s.consts[a]? <;> cases ha' : s'.consts[a]? <;> rw [ha] at hc
    all_goals
      simp only [some.injEq, Prod.mk.injEq] at hc
      obtain ⟨rfl, rfl⟩ := hc
      exact ⟨_, rfl, rfl⟩
  | _ =>
    refine ⟨label, ?_, rfl⟩
    simp only [TyStore.node_of, bind_eq_bind, bind_eq_some_iff, Option.pure_def,
      Prod.exists] at hc ⊢
    grind [Extends.args_at, Extends.fn_at, getElem?_kept, Extends]

theorem Extends.resolved (h : s.Extends s') {n n' : Nat} (hn : n ≤ n')
    (hc : s.Resolved n c f) : s'.Resolved n' c f := by
  obtain ⟨label, children, g, hnode, hlt, hg, rfl⟩ := hc
  obtain ⟨label', hnode', hown⟩ := h.node_of hnode
  exact ⟨label', children, g, hnode', fun x hx => Nat.lt_of_lt_of_le (hlt x hx) hn,
    h.or_flags hg, by rw [hown]⟩

theorem Extends.twinOf (h : s.Extends s') {row : TyRow} (ht : s.TwinOf row) : s'.TwinOf row := by
  obtain ⟨twin, htwin, hcontent⟩ := ht
  exact ⟨twin, getElem?_kept h.rows htwin, hcontent⟩

end TyStore

end Fors.Ty
