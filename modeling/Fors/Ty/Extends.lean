import Mathlib.Data.List.Infix
import Fors.Ty.Store

/-!
# The store only grows

Every operation appends to the store's columns, so what could be read from it reads the same later.

Principal result: `kept_extends`.
-/

namespace Fors.Ty.TyStore

open List Option

open Words (as_u32)

/-- `s'` keeps every row and every entry of `s`, with its id. -/
structure Extends (s s' : TyStore) : Prop where
  rows : s.rows <+: s'.rows
  args : s.args <+: s'.args
  args_index : s.args_index <+: s'.args_index
  trait_refs : s.trait_refs <+: s'.trait_refs
  proj_keys : s.proj_keys <+: s'.proj_keys
  fn_params : s.fn_params <+: s'.fn_params
  fn_tys : s.fn_tys <+: s'.fn_tys
  brands : s.brands <+: s'.brands
  consts : s.consts <+: s'.consts

variable {k : Keys} {s s' s'' : TyStore}

theorem Extends.refl (s : TyStore) : s.Extends s :=
  ⟨prefix_rfl, prefix_rfl, prefix_rfl, prefix_rfl, prefix_rfl,
    prefix_rfl, prefix_rfl, prefix_rfl, prefix_rfl⟩

theorem Extends.trans (h : s.Extends s') (h' : s'.Extends s'') : s.Extends s'' where
  rows := h.rows.trans h'.rows
  args := h.args.trans h'.args
  args_index := h.args_index.trans h'.args_index
  trait_refs := h.trait_refs.trans h'.trait_refs
  proj_keys := h.proj_keys.trans h'.proj_keys
  fn_params := h.fn_params.trans h'.fn_params
  fn_tys := h.fn_tys.trans h'.fn_tys
  brands := h.brands.trans h'.brands
  consts := h.consts.trans h'.consts

/-! ## Reads -/

theorem getElem?_kept {α : Type} {xs ys : List α} (h : xs <+: ys) {i : Nat} {x : α}
    (hx : xs[i]? = some x) : ys[i]? = some x := by
  obtain ⟨zs, rfl⟩ := h
  obtain ⟨hi, -⟩ := List.getElem?_eq_some_iff.mp hx
  rw [List.getElem?_append_left hi, hx]

variable {len : Nat}

theorem slice_kept {α : Type} {xs ys zs : List α} (h : xs <+: ys) {start : Nat}
    (hx : slice xs start len = some zs) : slice ys start len = some zs := by
  obtain ⟨ws, rfl⟩ := h
  rw [slice] at hx ⊢
  split at hx
  · rename_i hlen
    rw [if_pos (by rw [length_append]; omega), drop_append_of_le_length (by omega),
      take_append_of_le_length (by rw [length_drop]; omega), hx]
  · exact nomatch hx

variable {xs : List TyId}

theorem Extends.args_at (h : s.Extends s') {id : ArgsId}
    (hx : s.args_at id = some xs) : s'.args_at id = some xs := by
  simp only [TyStore.args_at, bind_eq_bind, bind_eq_some_iff] at hx ⊢
  obtain ⟨p, hp, hx⟩ := hx
  exact ⟨p, getElem?_kept h.args_index hp, slice_kept h.args hx⟩

theorem Extends.fn_at (h : s.Extends s') {id : FnTyId}
    {fn : List (Conv × TyId) × TyId × TyId × Bool} (hx : s.fn_at id = some fn) :
    s'.fn_at id = some fn := by
  simp only [TyStore.fn_at, params, bind_eq_bind, bind_eq_some_iff] at hx ⊢
  obtain ⟨row, hrow, ps, ⟨_, hrow', hps⟩, hfn⟩ := hx
  exact ⟨row, getElem?_kept h.fn_tys hrow, ps,
    ⟨_, getElem?_kept h.fn_tys hrow', slice_kept h.fn_params hps⟩, hfn⟩

theorem Extends.flags (h : s.Extends s') {t : TyId} {f : Flags} (hf : s.flags t = some f) :
    s'.flags t = some f := by
  simp only [TyStore.flags, map_eq_some_iff] at hf ⊢
  obtain ⟨row, hrow, rfl⟩ := hf
  exact ⟨row, getElem?_kept h.rows hrow, rfl⟩

theorem Extends.or_flags (h : s.Extends s') {f : Flags}
    (hf : s.or_flags xs = some f) : s'.or_flags xs = some f := by
  induction xs generalizing f with
  | nil => exact hf
  | cons x xs ih =>
    simp only [TyStore.or_flags, bind_eq_bind, bind_eq_some_iff] at hf ⊢
    obtain ⟨g, hg, g', hg', hf⟩ := hf
    exact ⟨g, h.flags hg, g', ih hg', hf⟩

/-! ## Operations -/

variable {id : Nat}

/-- A pool's `intern` returns the store itself, or the store with the entry pushed. -/
theorem intern_in_cases {cons : ConsTable} {key : Nat} {same : Nat → Bool}
    {push : ConsTable → Option TyStore} (h : s.intern_in cons key same len push = some (s', id)) :
    (cons.lookup key same = some (some id) ∧ s' = s) ∨
      (cons.lookup key same = some none ∧ id = as_u32 len ∧
        ∃ cons', cons.insert key (as_u32 len) = some cons' ∧ push cons' = some s') := by
  simp only [intern_in, bind_eq_bind, bind_eq_some_iff] at h
  obtain ⟨found, hfound, h⟩ := h
  cases found with
  | some v =>
    cases h
    exact .inl ⟨hfound, rfl⟩
  | none =>
    simp only [bind_eq_some_iff] at h
    obtain ⟨cons', hcons, u, hu, h⟩ := h
    cases h
    exact .inr ⟨hfound, rfl, cons', hcons, hu⟩

theorem extends_intern_in {cons : ConsTable} {key : Nat} {same : Nat → Bool}
    {push : ConsTable → Option TyStore} (hpush : ∀ cons' s'', push cons' = some s'' → s.Extends s'')
    (h : s.intern_in cons key same len push = some (s', id)) : s.Extends s' := by
  obtain ⟨-, rfl⟩ | ⟨-, -, cons', -, hs'⟩ := intern_in_cases h
  · exact .refl s'
  · exact hpush cons' s' hs'

theorem extends_intern_args (h : s.intern_args k xs = some (s', id)) :
    s.Extends s' := by
  refine extends_intern_in (fun cons s'' hpush => ?_) h
  simp only [ite_none_right_eq_some, some.injEq] at hpush
  obtain ⟨-, rfl⟩ := hpush
  exact { Extends.refl s with
    args := prefix_append _ _
    args_index := prefix_append _ _ }

theorem extends_intern_trait_ref {d : DefId} {args : ArgsId}
    (h : s.intern_trait_ref k d args = some (s', id)) : s.Extends s' := by
  refine extends_intern_in (fun cons s'' hpush => ?_) h
  cases hpush
  exact { Extends.refl s with trait_refs := prefix_append _ _ }

theorem extends_intern_proj_key {tr : TraitRefId} {name : Symbol}
    (h : s.intern_proj_key k tr name = some (s', id)) : s.Extends s' := by
  refine extends_intern_in (fun cons s'' hpush => ?_) h
  cases hpush
  exact { Extends.refl s with proj_keys := prefix_append _ _ }

theorem extends_intern_fn_ty {params : List (Conv × TyId)} {result raises : TyId} {closure : Bool}
    (h : s.intern_fn_ty k params result raises closure = some (s', id)) : s.Extends s' := by
  refine extends_intern_in (fun cons s'' hpush => ?_) h
  simp only [ite_none_right_eq_some, some.injEq] at hpush
  obtain ⟨-, rfl⟩ := hpush
  exact { Extends.refl s with
    fn_tys := prefix_append _ _
    fn_params := prefix_append _ _ }

theorem extends_intern_brand {row : BrandRow} (h : s.intern_brand k row = some (s', id)) :
    s.Extends s' := by
  refine extends_intern_in (fun cons s'' hpush => ?_) h
  cases hpush
  exact { Extends.refl s with brands := prefix_append _ _ }

theorem extends_intern_const {v : ConstValue} (h : s.intern_const k v = some (s', id)) :
    s.Extends s' := by
  refine extends_intern_in (fun cons s'' hpush => ?_) h
  cases hpush
  exact { Extends.refl s with consts := prefix_append _ _ }

variable {tag : TyTag} {a b : Nat} {quals : Quals}

theorem push_row_eq_some {flags : Flags} {unqual : Option TyId} :
    s.push_row k tag a b quals flags unqual = some (s', id) ↔
      id = as_u32 s.rows.length ∧ ∃ cons,
        s.rows_cons.insert (k.row (tag, a, b, quals)) id = some cons ∧
          s' = { s with
            rows := s.rows ++ [⟨tag, a, b, quals, flags, unqual.getD id⟩]
            rows_cons := cons } := by
  simp only [push_row, Option.bind_eq_bind, Option.bind_eq_some_iff, Option.pure_def,
    Option.some.injEq, Prod.mk.injEq]
  constructor
  · rintro ⟨cons, hcons, rfl, rfl⟩
    exact ⟨rfl, cons, hcons, rfl⟩
  · rintro ⟨rfl, cons, hcons, rfl⟩
    exact ⟨cons, hcons, rfl, rfl⟩

theorem extends_push_row {flags : Flags} {unqual : Option TyId}
    (h : s.push_row k tag a b quals flags unqual = some (s', id)) : s.Extends s' := by
  obtain ⟨-, cons, -, rfl⟩ := push_row_eq_some.mp h
  exact { Extends.refl s with rows := prefix_append _ _ }

/-- `intern` without qualifiers finds the row, or pushes it. -/
theorem intern_unqual_cases (h : s.intern_unqual k tag a b = some (s', id)) :
    (s.find_row k tag a b .NONE = some (some id) ∧ s' = s) ∨
      (s.find_row k tag a b .NONE = some none ∧ ∃ flags, s.child_flags tag a b = some flags ∧
        s.push_row k tag a b .NONE flags none = some (s', id)) := by
  simp only [intern_unqual, bind_eq_bind, bind_eq_some_iff] at h
  obtain ⟨found, hfound, h⟩ := h
  cases found with
  | some v =>
    cases h
    exact .inl ⟨hfound, rfl⟩
  | none =>
    simp only [bind_eq_some_iff] at h
    exact .inr ⟨hfound, h⟩

/-- A qualified `intern` finds the row, or interns its twin and then pushes it. -/
theorem intern_cases (hq : quals ≠ .NONE) (h : s.intern k tag a b quals = some (s', id)) :
    (s.find_row k tag a b quals = some (some id) ∧ s' = s) ∨
      (s.find_row k tag a b quals = some none ∧ ∃ flags, s.child_flags tag a b = some flags ∧
        ∃ s'' unqual, s.intern_unqual k tag a b = some (s'', unqual) ∧
          s''.push_row k tag a b quals flags (some unqual) = some (s', id)) := by
  simp only [intern, if_neg hq, bind_eq_bind, bind_eq_some_iff] at h
  obtain ⟨found, hfound, h⟩ := h
  cases found with
  | some v =>
    cases h
    exact .inl ⟨hfound, rfl⟩
  | none =>
    simp only [bind_eq_some_iff] at h
    obtain ⟨flags, hflags, ⟨s'', unqual⟩, hunqual, h⟩ := h
    exact .inr ⟨hfound, flags, hflags, s'', unqual, hunqual, h⟩

theorem extends_intern_unqual (h : s.intern_unqual k tag a b = some (s', id)) : s.Extends s' := by
  obtain ⟨-, rfl⟩ | ⟨-, _, -, hpush⟩ := intern_unqual_cases h
  · exact .refl s'
  · exact extends_push_row hpush

theorem extends_intern (h : s.intern k tag a b quals = some (s', id)) : s.Extends s' := by
  by_cases hq : quals = .NONE
  · rw [intern, if_pos hq] at h
    exact extends_intern_unqual h
  · obtain ⟨-, rfl⟩ | ⟨-, _, -, _, _, hunqual, hpush⟩ := intern_cases hq h
    · exact .refl s'
    · exact (extends_intern_unqual hunqual).trans (extends_push_row hpush)

/-! ## Runs -/

/-- A relation between stores that holds across each pool's `intern` and across `intern`. -/
structure Kept (k : Keys) (R : TyStore → TyStore → Prop) : Prop where
  refl : ∀ s, R s s
  trans : ∀ {s s' s''}, R s s' → R s' s'' → R s s''
  args : ∀ {s s' id xs}, s.intern_args k xs = some (s', id) → R s s'
  trait_ref : ∀ {s s' id d args}, s.intern_trait_ref k d args = some (s', id) → R s s'
  proj_key : ∀ {s s' id tr name}, s.intern_proj_key k tr name = some (s', id) → R s s'
  fn_ty : ∀ {s s' id params result raises closure},
    s.intern_fn_ty k params result raises closure = some (s', id) → R s s'
  brand : ∀ {s s' id row}, s.intern_brand k row = some (s', id) → R s s'
  const : ∀ {s s' id v}, s.intern_const k v = some (s', id) → R s s'
  row : ∀ {s s' id tag a b quals}, s.intern k tag a b quals = some (s', id) → R s s'

variable {R : TyStore → TyStore → Prop}

/-- What is kept by the interning operations is kept by every constructor. -/
theorem Kept.step (h : Kept k R) {op : Op} (hstep : s.step k op = some (s', id)) : R s s' := by
  cases op with
  | intern_args xs => exact h.args hstep
  | intern_trait_ref d args => exact h.trait_ref hstep
  | intern_proj_key tr name => exact h.proj_key hstep
  | intern_fn_ty params result raises closure => exact h.fn_ty hstep
  | intern_brand row => exact h.brand hstep
  | intern_const v => exact h.const hstep
  | intern tag a b quals => exact h.row hstep
  | prim p =>
    unfold TyStore.step TyStore.prim at hstep
    exact h.row hstep
  | nominal d args =>
    unfold TyStore.step TyStore.nominal at hstep
    exact h.row hstep
  | tuple args =>
    unfold TyStore.step TyStore.tuple at hstep
    exact h.row hstep
  | fn_ty id =>
    unfold TyStore.step TyStore.fn_ty at hstep
    exact h.row hstep
  | dyn_ty tr =>
    unfold TyStore.step TyStore.dyn_ty at hstep
    exact h.row hstep
  | param owner ordinal =>
    unfold TyStore.step TyStore.param at hstep
    exact h.row hstep
  | proj head key =>
    unfold TyStore.step TyStore.proj at hstep
    exact h.row hstep
  | nominal_of d args =>
    obtain ⟨⟨s1, a⟩, hargs, hrow⟩ := bind_eq_some_iff.mp hstep
    exact h.trans (h.args hargs) (h.row hrow)
  | tuple_of args =>
    obtain ⟨⟨s1, a⟩, hargs, hrow⟩ := bind_eq_some_iff.mp hstep
    exact h.trans (h.args hargs) (h.row hrow)
  | proj_of head d args name =>
    obtain ⟨⟨s1, a⟩, hargs, hstep⟩ := bind_eq_some_iff.mp hstep
    obtain ⟨⟨s2, tr⟩, htr, hstep⟩ := bind_eq_some_iff.mp hstep
    obtain ⟨⟨s3, pk⟩, hpk, hrow⟩ := bind_eq_some_iff.mp hstep
    exact h.trans (h.trans (h.trans (h.args hargs) (h.trait_ref htr)) (h.proj_key hpk)) (h.row hrow)
  | brand_ty row =>
    obtain ⟨⟨s1, a⟩, hbrand, hrow⟩ := bind_eq_some_iff.mp hstep
    exact h.trans (h.brand hbrand) (h.row hrow)
  | const_ty v ty =>
    obtain ⟨⟨s1, a⟩, hconst, hrow⟩ := bind_eq_some_iff.mp hstep
    exact h.trans (h.const hconst) (h.row hrow)
  | qualified t quals =>
    obtain ⟨row, -, hstep⟩ := bind_eq_some_iff.mp hstep
    by_cases hq : row.quals ||| quals = row.quals
    · rw [if_pos hq] at hstep
      obtain ⟨rfl, -⟩ := Prod.mk.inj (some.inj hstep)
      exact h.refl s
    · rw [if_neg hq] at hstep
      exact h.row hstep

theorem Kept.run (h : Kept k R) {ops : List Op} (hrun : run k ops s = some s') : R s s' := by
  induction ops generalizing s with
  | nil =>
    obtain rfl := some.inj hrun
    exact h.refl s
  | cons op ops ih =>
    obtain ⟨⟨s1, id⟩, hstep, hrun⟩ := bind_eq_some_iff.mp hrun
    exact h.trans (h.step hstep) (ih hrun)

/-- No operation changes an existing row or entry. -/
theorem kept_extends : Kept k Extends where
  refl := .refl
  trans := .trans
  args := extends_intern_args
  trait_ref := extends_intern_trait_ref
  proj_key := extends_intern_proj_key
  fn_ty := extends_intern_fn_ty
  brand := extends_intern_brand
  const := extends_intern_const
  row := extends_intern

theorem extends_step (op : Op) (h : s.step k op = some (s', id)) : s.Extends s' :=
  kept_extends.step h

end Fors.Ty.TyStore
