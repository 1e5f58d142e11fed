import Fors.Ty.Node

/-!
# Hash consing

Every operation keeps the pools indexed and the rows resolved, as long as the pools stay within
32-bit ids. So two rows have one tree only where they are one row, whatever the cons keys are, and
a row's flags say what is inside its tree.

Principal result: `hash_consed`.
-/

namespace Fors.Ty

open Option hiding mem_map pure_def
open Trees List

open Words (as_u32)

namespace TyStore

variable {k : Keys} {s s' : TyStore} {id : Nat}

/-! ## Operations keep the invariant -/

/-- A pool's `intern` returns the entry's id, or pushes the entry under the next one. -/
theorem intern_in_spec {α : Type} {cons : ConsTable} {key : α → Nat} {entries : List α} {x : α}
    {same : Nat → Bool} {len : Nat} {push : ConsTable → Option TyStore}
    (hpool : Pool cons key entries) (hlen : entries.length = len)
    (hsame : ∀ v y, entries[v]? = some y → (same v = true ↔ y = x))
    (h : s.intern_in cons (key x) same len push = some (s', id)) :
    (s' = s ∧ entries[id]? = some x) ∨
      ∃ cons', push cons' = some s' ∧
        (len < EMPTY → id = len ∧ Pool cons' key (entries ++ [x])) := by
  subst hlen
  obtain ⟨hfound, rfl⟩ | ⟨hnone, rfl, cons', hinsert, hpush⟩ := intern_in_cases h
  · obtain ⟨v, hv, hx⟩ | ⟨hv, -⟩ := hpool.lookup hsame
    · obtain rfl : v = id := by
        rw [hv] at hfound
        exact some.inj (some.inj hfound)
      exact .inl ⟨rfl, hx⟩
    · rw [hv] at hfound
      exact nomatch hfound
  · refine .inr ⟨cons', hpush, fun hlt => ?_⟩
    have hid : as_u32 entries.length = entries.length := by
      refine Nat.mod_eq_of_lt ?_
      simp only [EMPTY] at hlt
      omega
    obtain ⟨v, hv, -⟩ | ⟨-, hx⟩ := hpool.lookup hsame
    · rw [hv] at hnone
      exact nomatch hnone
    · obtain ⟨u, hu, hpool'⟩ := hpool.insert hx hlt
      rw [hid] at hinsert ⊢
      obtain rfl := some.inj (hu.symm.trans hinsert)
      exact ⟨rfl, hpool'⟩

/-- A store that differs in its pools only keeps its rows. -/
theorem Inv.of_pools (h : s.Inv k) (hext : s.Extends s') (hrows : s'.rows = s.rows)
    (hpools : s'.Pools k) : s'.Inv k where
  toPools := hpools
  resolved := fun t row hrow => hext.resolved (Nat.le_refl t) (h.resolved t row (hrows ▸ hrow))
  twin := fun t row hrow => hext.twinOf (h.twin t row (hrows ▸ hrow))

theorem take_drop_append {α : Type} {xs : List α} (ys : List α) {start len : Nat}
    (h : start + len ≤ xs.length) :
    ((xs ++ ys).drop start).take len = (xs.drop start).take len := by
  rw [drop_append_of_le_length (by omega),
    take_append_of_le_length (by rw [length_drop]; omega)]

/-- A range pushed at the end of its column reads what was pushed, as long as its start fits. -/
theorem take_drop_pushed {α : Type} {xs ys : List α} (h : (xs ++ ys).length ≤ 2 ^ 32) :
    as_u32 xs.length + ys.length ≤ (xs ++ ys).length ∧
      ((xs ++ ys).drop (as_u32 xs.length)).take ys.length = ys := by
  rw [length_append] at h ⊢
  obtain hlt | heq := Nat.lt_or_eq_of_le (show xs.length ≤ 2 ^ 32 by omega)
  · rw [as_u32, Nat.mod_eq_of_lt hlt, drop_left, take_length]
    exact ⟨Nat.le_refl _, rfl⟩
  · obtain rfl : ys = [] := length_eq_zero_iff.mp (by omega)
    rw [as_u32, heq]
    simp

theorem arg_lists_push (h : s.Pools k) {xs : List TyId} (hargs : s'.args = s.args ++ xs)
    (hindex : s'.args_index = s.args_index ++ [(as_u32 s.args.length, xs.length)])
    (hfit : s'.args.length ≤ 2 ^ 32) : s'.arg_lists = s.arg_lists ++ [xs] := by
  rw [hargs] at hfit
  rw [arg_lists, hargs, hindex, map_append, map_singleton, (take_drop_pushed hfit).2]
  congr 1
  exact map_congr_left fun p hp => take_drop_append xs (h.args_range p hp)

theorem inv_intern_args {xs : List TyId} (h : s.Inv k) (hrun : s.intern_args k xs = some (s', id))
    (hfit : s'.Fits) : s'.Inv k ∧ s'.args_at id = some xs := by
  have hext := extends_intern_args hrun
  have hlen : s.arg_lists.length = s.args_index.length := length_map _
  obtain ⟨rfl, hid⟩ | ⟨cons', hpush, hnew⟩ := intern_in_spec h.args hlen
    (fun v y hy => by simp [h.args_at_eq, hy]) hrun
  · exact ⟨h, by rw [h.args_at_eq, hid]⟩
  · simp only [ite_none_right_eq_some, some.injEq] at hpush
    obtain ⟨-, rfl⟩ := hpush
    have hindex := hfit.args_index
    rw [length_append, length_singleton] at hindex
    obtain ⟨rfl, hpool⟩ := hnew (by omega)
    have hlists := arg_lists_push h.toPools rfl rfl hfit.args
    have hpools : Pools k { s with
        args_index := s.args_index ++ [(as_u32 s.args.length, xs.length)]
        args := s.args ++ xs
        args_cons := cons' } := { h.toPools with
      args := by rwa [hlists]
      args_range := by
        intro p hp
        obtain hp | hp := mem_append.mp hp
        · have := h.args_range p hp
          rw [length_append]
          omega
        · obtain rfl := mem_singleton.mp hp
          exact (take_drop_pushed hfit.args).1 }
    refine ⟨h.of_pools hext rfl hpools, ?_⟩
    rw [hpools.args_at_eq, hlists, ← hlen, getElem?_concat_length]

theorem inv_intern_trait_ref {d : DefId} {args : ArgsId} (h : s.Inv k)
    (hrun : s.intern_trait_ref k d args = some (s', id)) (hfit : s'.Fits) :
    s'.Inv k ∧ s'.trait_refs[id]? = some (d, args) := by
  have hext := extends_intern_trait_ref hrun
  obtain ⟨rfl, hid⟩ | ⟨cons', hpush, hnew⟩ := intern_in_spec h.trait_refs rfl
    (fun v y hy => by simp [hy]) hrun
  · exact ⟨h, hid⟩
  · cases hpush
    have hlen := hfit.trait_refs
    rw [length_append, length_singleton] at hlen
    obtain ⟨rfl, hpool⟩ := hnew (by omega)
    refine ⟨h.of_pools hext rfl { h.toPools with trait_refs := hpool }, ?_⟩
    exact getElem?_concat_length

theorem inv_intern_proj_key {tr : TraitRefId} {name : Symbol} (h : s.Inv k)
    (hrun : s.intern_proj_key k tr name = some (s', id)) (hfit : s'.Fits) :
    s'.Inv k ∧ s'.proj_keys[id]? = some (tr, name) := by
  have hext := extends_intern_proj_key hrun
  obtain ⟨rfl, hid⟩ | ⟨cons', hpush, hnew⟩ := intern_in_spec h.proj_keys rfl
    (fun v y hy => by simp [hy]) hrun
  · exact ⟨h, hid⟩
  · cases hpush
    have hlen := hfit.proj_keys
    rw [length_append, length_singleton] at hlen
    obtain ⟨rfl, hpool⟩ := hnew (by omega)
    refine ⟨h.of_pools hext rfl { h.toPools with proj_keys := hpool }, ?_⟩
    exact getElem?_concat_length

theorem inv_intern_brand {row : BrandRow} (h : s.Inv k)
    (hrun : s.intern_brand k row = some (s', id)) (hfit : s'.Fits) :
    s'.Inv k ∧ s'.brands[id]? = some row := by
  have hext := extends_intern_brand hrun
  obtain ⟨rfl, hid⟩ | ⟨cons', hpush, hnew⟩ := intern_in_spec h.brands rfl
    (fun v y hy => by simp [hy]) hrun
  · exact ⟨h, hid⟩
  · cases hpush
    have hlen := hfit.brands
    rw [length_append, length_singleton] at hlen
    obtain ⟨rfl, hpool⟩ := hnew (by omega)
    refine ⟨h.of_pools hext rfl { h.toPools with brands := hpool }, ?_⟩
    exact getElem?_concat_length

theorem inv_intern_const {v : ConstValue} (h : s.Inv k)
    (hrun : s.intern_const k v = some (s', id)) (hfit : s'.Fits) :
    s'.Inv k ∧ s'.consts[id]? = some v := by
  have hext := extends_intern_const hrun
  obtain ⟨rfl, hid⟩ | ⟨cons', hpush, hnew⟩ := intern_in_spec h.consts rfl
    (fun v y hy => by simp [hy]) hrun
  · exact ⟨h, hid⟩
  · cases hpush
    have hlen := hfit.consts
    rw [length_append, length_singleton] at hlen
    obtain ⟨rfl, hpool⟩ := hnew (by omega)
    refine ⟨h.of_pools hext rfl { h.toPools with consts := hpool }, ?_⟩
    exact getElem?_concat_length

theorem inv_intern_fn_ty {params : List (Conv × TyId)} {result raises : TyId} {closure : Bool}
    (h : s.Inv k) (hrun : s.intern_fn_ty k params result raises closure = some (s', id))
    (hfit : s'.Fits) : s'.Inv k ∧ s'.fn_at id = some (params, result, raises, closure) := by
  have hext := extends_intern_fn_ty hrun
  have hlen : s.fn_entries.length = s.fn_tys.length := length_map _
  obtain ⟨rfl, hid⟩ | ⟨cons', hpush, hnew⟩ := intern_in_spec h.fn_tys hlen
    (fun v y hy => by simp [h.fn_at_eq, hy]) hrun
  · exact ⟨h, by rw [h.fn_at_eq, hid]⟩
  · simp only [ite_none_right_eq_some, some.injEq] at hpush
    obtain ⟨-, rfl⟩ := hpush
    have hindex := hfit.fn_tys
    rw [length_append, length_singleton] at hindex
    obtain ⟨rfl, hpool⟩ := hnew (by omega)
    obtain ⟨hrange, hread⟩ := take_drop_pushed hfit.fn_params
    have hentries : fn_entries { s with
        fn_tys := s.fn_tys ++
          [⟨as_u32 s.fn_params.length, params.length, result, raises, closure⟩]
        fn_params := s.fn_params ++ params
        fn_cons := cons' } = s.fn_entries ++ [(params, result, raises, closure)] := by
      rw [fn_entries, map_append, map_singleton, hread]
      congr 1
      refine map_congr_left fun row hrow => ?_
      rw [take_drop_append params (h.fn_range row hrow)]
    have hpools : Pools k { s with
        fn_tys := s.fn_tys ++
          [⟨as_u32 s.fn_params.length, params.length, result, raises, closure⟩]
        fn_params := s.fn_params ++ params
        fn_cons := cons' } := { h.toPools with
      fn_tys := by rwa [hentries]
      fn_range := by
        intro row hrow
        obtain hrow | hrow := mem_append.mp hrow
        · have := h.fn_range row hrow
          rw [length_append]
          omega
        · obtain rfl := mem_singleton.mp hrow
          exact hrange }
    refine ⟨h.of_pools hext rfl hpools, ?_⟩
    rw [hpools.fn_at_eq, hentries, ← hlen, getElem?_concat_length]

/-! ### Rows -/

variable {tag : TyTag} {a b : Nat} {quals : Quals}

/-- A row is found by its content, whatever the keys. -/
theorem find_row_spec (h : Pool s.rows_cons k.row (s.rows.map TyRow.content)) :
    (∃ t row, s.find_row k tag a b quals = some (some t) ∧ s.rows[t]? = some row ∧
      row.content = (tag, a, b, quals)) ∨
    (s.find_row k tag a b quals = some none ∧
      (tag, a, b, quals) ∉ s.rows.map TyRow.content) := by
  obtain ⟨t, ht, hrow⟩ | hnone := @Pool.lookup _ _ k.row _ h (tag, a, b, quals)
    (fun v => (s.rows[v]?).map (fun row => (row.tag, row.a, row.b, row.quals)) =
      some (tag, a, b, quals)) (fun v y hy => by
        rw [getElem?_map] at hy
        change (s.rows[v]?).map (fun row => (row.tag, row.a, row.b, row.quals)) = some y at hy
        rw [hy]
        simp)
  · rw [getElem?_map, map_eq_some_iff] at hrow
    obtain ⟨row, hrow, hcontent⟩ := hrow
    exact .inl ⟨t, row, ht, hrow, hcontent⟩
  · exact .inr hnone

/-- Pushing a new row whose content is resolved and whose twin is there, or is the row itself. -/
theorem inv_push_row {flags : Flags} {unqual : Option TyId} (h : s.Inv k)
    (hnew : (tag, a, b, quals) ∉ s.rows.map TyRow.content)
    (hres : s.Resolved s.rows.length (tag, a, b, quals) flags)
    (htwin : match unqual with
      | some u => ∃ twin, s.rows[u]? = some twin ∧ twin.content = (tag, a, b, .NONE)
      | none => quals = .NONE)
    (hrun : s.push_row k tag a b quals flags unqual = some (s', id)) (hfit : s'.Fits) :
    s'.Inv k ∧ ∃ row, s'.rows[id]? = some row ∧ row.content = (tag, a, b, quals) := by
  have hext := extends_push_row hrun
  obtain ⟨hid, cons, hcons, rfl⟩ := push_row_eq_some.mp hrun
  have hlen := hfit.rows
  rw [length_append, length_singleton] at hlen
  have hid' : id = s.rows.length := by
    rw [hid, as_u32, Nat.mod_eq_of_lt]
    simp only [EMPTY] at hlen
    omega
  subst hid'
  obtain ⟨cons', hcons', hpool⟩ := h.rows.insert hnew (by rw [length_map]; omega)
  rw [length_map, hcons] at hcons'
  cases hcons'
  have hpushed : (s.rows ++ [⟨tag, a, b, quals, flags, unqual.getD s.rows.length⟩])[s.rows.length]?
      = some ⟨tag, a, b, quals, flags, unqual.getD s.rows.length⟩ := getElem?_concat_length
  refine ⟨⟨{ h.toPools with rows := ?_ }, fun t row hrow => ?_, fun t row hrow => ?_⟩, _, hpushed,
    rfl⟩
  · rw [map_append]
    exact hpool
  · obtain hrow | ⟨rfl, rfl⟩ := getElem?_concat_eq_some.mp hrow
    · exact hext.resolved (Nat.le_refl t) (h.resolved t row hrow)
    · exact hext.resolved (Nat.le_refl _) hres
  · obtain hrow | ⟨rfl, rfl⟩ := getElem?_concat_eq_some.mp hrow
    · exact hext.twinOf (h.twin t row hrow)
    · cases unqual with
      | some u => exact hext.twinOf htwin
      | none =>
        subst htwin
        exact ⟨_, hpushed, rfl⟩

theorem inv_intern_unqual (h : s.Inv k) (hrun : s.intern_unqual k tag a b = some (s', id))
    (hfit : s'.Fits) :
    s'.Inv k ∧ ∃ row, s'.rows[id]? = some row ∧ row.content = (tag, a, b, .NONE) := by
  obtain ⟨hfound, rfl⟩ | ⟨hnone, flags, hflags, hpush⟩ := intern_unqual_cases hrun
  · obtain ⟨t, row, ht, hrow, hcontent⟩ | ⟨ht, -⟩ := @find_row_spec k s' tag a b .NONE h.rows
    · rw [hfound] at ht
      obtain rfl := some.inj (some.inj ht)
      exact ⟨h, row, hrow, hcontent⟩
    · rw [hfound] at ht
      exact nomatch ht
  · obtain ⟨t, row, ht, -⟩ | ⟨-, hnew⟩ := @find_row_spec k s tag a b .NONE h.rows
    · rw [hnone] at ht
      exact nomatch ht
    · exact inv_push_row h hnew (resolved_of_child_flags .NONE hflags) rfl hpush hfit

/-- The row that interning the unqualified twin pushes is not the qualified one. -/
theorem not_mem_intern_unqual (hq : quals ≠ .NONE)
    (hnew : (tag, a, b, quals) ∉ s.rows.map TyRow.content)
    (hrun : s.intern_unqual k tag a b = some (s', id)) :
    (tag, a, b, quals) ∉ s'.rows.map TyRow.content := by
  obtain ⟨-, rfl⟩ | ⟨-, flags, -, hpush⟩ := intern_unqual_cases hrun
  · exact hnew
  · obtain ⟨-, cons, -, rfl⟩ := push_row_eq_some.mp hpush
    rw [map_append, mem_append, not_or]
    refine ⟨hnew, fun hmem => hq ?_⟩
    simp only [map_singleton, mem_singleton, TyRow.content, Prod.mk.injEq] at hmem
    exact hmem.2.2.2

theorem inv_intern (h : s.Inv k) (hrun : s.intern k tag a b quals = some (s', id))
    (hfit : s'.Fits) :
    s'.Inv k ∧ ∃ row, s'.rows[id]? = some row ∧ row.content = (tag, a, b, quals) := by
  by_cases hq : quals = .NONE
  · subst hq
    rw [intern, if_pos rfl] at hrun
    exact inv_intern_unqual h hrun hfit
  · obtain ⟨hfound, rfl⟩ | ⟨hnone, flags, hflags, s1, unqual, hunqual, hpush⟩ :=
      intern_cases hq hrun
    · obtain ⟨t, row, ht, hrow, hcontent⟩ | ⟨ht, -⟩ := @find_row_spec k s' tag a b quals h.rows
      · rw [hfound] at ht
        obtain rfl := some.inj (some.inj ht)
        exact ⟨h, row, hrow, hcontent⟩
      · rw [hfound] at ht
        cases ht
    · obtain ⟨t, row, ht, -⟩ | ⟨-, hnew⟩ := @find_row_spec k s tag a b quals h.rows
      · rw [hnone] at ht
        cases ht
      · have hext := extends_intern_unqual hunqual
        obtain ⟨h1, htwin⟩ := inv_intern_unqual h hunqual ((extends_push_row hpush).fits hfit)
        exact inv_push_row h1 (not_mem_intern_unqual hq hnew hunqual)
          (hext.resolved hext.rows.length_le (resolved_of_child_flags quals hflags)) htwin hpush hfit

/-! ## Runs -/

/-- The invariant is kept by every operation that leaves the pools within their ids. -/
theorem kept_inv : Kept k fun s s' => s.Extends s' ∧ (s.Inv k → s'.Fits → s'.Inv k) where
  refl s := ⟨.refl s, fun h _ => h⟩
  trans h h' := ⟨h.1.trans h'.1, fun hinv hfit => h'.2 (h.2 hinv (h'.1.fits hfit)) hfit⟩
  args hrun := ⟨extends_intern_args hrun, fun h hfit => (inv_intern_args h hrun hfit).1⟩
  trait_ref hrun :=
    ⟨extends_intern_trait_ref hrun, fun h hfit => (inv_intern_trait_ref h hrun hfit).1⟩
  proj_key hrun := ⟨extends_intern_proj_key hrun, fun h hfit => (inv_intern_proj_key h hrun hfit).1⟩
  fn_ty hrun := ⟨extends_intern_fn_ty hrun, fun h hfit => (inv_intern_fn_ty h hrun hfit).1⟩
  brand hrun := ⟨extends_intern_brand hrun, fun h hfit => (inv_intern_brand h hrun hfit).1⟩
  const hrun := ⟨extends_intern_const hrun, fun h hfit => (inv_intern_const h hrun hfit).1⟩
  row hrun := ⟨extends_intern hrun, fun h hfit => (inv_intern h hrun hfit).1⟩

theorem inv_blank (k : Keys) : blank.Inv k where
  args := .empty k.args
  args_range := by simp [blank]
  trait_refs := .empty k.trait_ref
  proj_keys := .empty k.proj_key
  fn_tys := .empty k.fn_ty
  fn_range := by simp [blank]
  brands := .empty k.brand
  consts := .empty k.const
  rows := .empty k.row
  resolved := by simp [blank]
  twin := by simp [blank]

/-- `new` is a run over the blank store. -/
theorem run_of_new (h : new k = some s) :
    run k [.intern_args [], .intern .Error 0 0 .NONE, .intern .Unit 0 0 .NONE,
      .intern .Never 0 0 .NONE] blank = some s := by
  simp only [new, bind_eq_bind, bind_eq_some_iff, Prod.exists] at h
  obtain ⟨s1, empty, h1, s2, err, h2, s3, unit, h3, s4, never, h4, h⟩ := h
  split at h
  · cases h
    simp only [run, step, h1, h2, h3, h4, bind_eq_bind, bind_some]
  · cases h

/-- A store is reached by a sequence of operations from `new`. -/
def Reached (k : Keys) (ops : List Op) (s : TyStore) : Prop :=
  ∃ s0, new k = some s0 ∧ run k ops s0 = some s

theorem Reached.inv {ops : List Op} (h : Reached k ops s) (hfit : s.Fits) : s.Inv k := by
  obtain ⟨s0, hnew, hrun⟩ := h
  obtain ⟨-, h₀⟩ := kept_inv.run (run_of_new hnew)
  obtain ⟨hext, h⟩ := kept_inv.run hrun
  exact h (h₀ (inv_blank k) (hext.fits hfit)) hfit

/-! ## Trees -/

variable {t u : TyId}

/-- The node of a row, with what `Resolved` says of it. -/
theorem Inv.node_spec (h : s.Inv k) {row : TyRow} (hrow : s.rows[t]? = some row) :
    s.node_of row.content = some (s.node t) ∧ (∀ c ∈ (s.node t).2, c < t) ∧
      ∃ g, s.or_flags (s.node t).2 = some g ∧ row.flags = (s.node t).1.head.own ||| g := by
  obtain ⟨label, children, g, hnode, hlt, hg, hflags⟩ := h.resolved t row hrow
  have hn : s.node t = (label, children) := by
    rw [node, hrow, bind_some, hnode]
    rfl
  rw [hn]
  exact ⟨hnode, hlt, g, hg, hflags⟩

theorem Inv.descends (h : s.Inv k) : Descends s.node s.rows.length := by
  intro t ht
  exact (h.node_spec (getElem?_eq_getElem ht)).2.1

theorem Inv.node_inj (h : s.Inv k) :
    ∀ t < s.rows.length, ∀ u < s.rows.length, s.node t = s.node u → t = u := by
  intro t ht u hu heq
  have hrow := getElem?_eq_getElem ht
  have hrow' := getElem?_eq_getElem hu
  have hcontent := h.node_of_inj (h.node_spec hrow).1 (heq ▸ (h.node_spec hrow').1)
  refine h.rows.index_inj (x := (s.rows[t]).content) ?_ ?_
  · rw [getElem?_map, hrow]
    rfl
  · rw [getElem?_map, hrow', hcontent]
    rfl

theorem Inv.tree_eq_iff (h : s.Inv k) (ht : t < s.rows.length) (hu : u < s.rows.length) :
    s.tree t = s.tree u ↔ t = u :=
  ⟨Trees.tree_inj h.descends h.node_inj ht hu, fun heq => heq ▸ rfl⟩

/-- Some node inside the type has such a constructor. -/
def Contains (s : TyStore) (t : TyId) (P : Head → Prop) : Prop :=
  ∃ label children, Rose.Sub (.node label children) (s.tree t) ∧ P label.head

theorem or_and_ne_zero (x y m : Flags) :
    (x ||| y) &&& m ≠ 0 ↔ x &&& m ≠ 0 ∨ y &&& m ≠ 0 := by
  rw [BitVec.and_comm, BitVec.and_or_distrib_left, BitVec.and_comm m x, BitVec.and_comm m y]
  have hor : ∀ v w : Flags, v ||| w = 0 ↔ v = 0 ∧ w = 0 := fun v w => BitVec.or_eq_zero_iff
  rw [ne_eq, hor, not_and_or]

theorem or_flags_and_ne_zero {xs : List TyId} {f m : Flags} (h : s.or_flags xs = some f) :
    f &&& m ≠ 0 ↔ ∃ x ∈ xs, ∃ g, s.flags x = some g ∧ g &&& m ≠ 0 := by
  induction xs generalizing f with
  | nil =>
    cases h
    simp
  | cons x xs ih =>
    simp only [or_flags, bind_eq_bind, bind_eq_some_iff, Option.pure_def,
      some.injEq] at h
    obtain ⟨g, hg, g', hg', rfl⟩ := h
    rw [or_and_ne_zero, ih hg']
    simp [hg]

/-- A flag says what is inside the type, when a constructor sets it exactly if it is of the kind. -/
theorem Inv.flags_iff (h : s.Inv k) {m : Flags} {P : Head → Prop}
    (hown : ∀ head : Head, head.own &&& m ≠ 0 ↔ P head) {row : TyRow}
    (hrow : s.rows[t]? = some row) : row.flags &&& m ≠ 0 ↔ s.Contains t P := by
  obtain ⟨ht, -⟩ := List.getElem?_eq_some_iff.mp hrow
  have hstep : ∀ t < s.rows.length, ((∃ g, s.flags t = some g ∧ g &&& m ≠ 0) ↔
      P (s.node t).1.head ∨ ∃ c ∈ (s.node t).2, ∃ g, s.flags c = some g ∧ g &&& m ≠ 0) := by
    intro t ht
    obtain ⟨-, -, g, hg, hflags⟩ := h.node_spec (List.getElem?_eq_getElem ht)
    rw [← hown, ← or_flags_and_ne_zero hg, ← or_and_ne_zero, ← hflags, flags,
      List.getElem?_eq_getElem ht]
    simp
  have hiff := has_iff_sub (fun label : Label => P label.head) h.descends hstep ht
  rw [Contains, tree, ← hiff, flags, hrow]
  simp

/-! ### Which constructor sets which flag -/

theorem own_param (head : Head) : head.own &&& F_PARAM ≠ 0 ↔ head.tag = .Param := by
  rcases head with _ | _ | _ | _ | _ | _ | _ | _ | _ | _ | ⟨_ | _⟩ | _ <;>
    simp [Head.own, Head.tag, BrandRow.kind, F_PARAM, F_PROJ, F_BRAND, F_FRESH, F_ERROR]

theorem own_proj (head : Head) : head.own &&& F_PROJ ≠ 0 ↔ head.tag = .Proj := by
  rcases head with _ | _ | _ | _ | _ | _ | _ | _ | _ | _ | ⟨_ | _⟩ | _ <;>
    simp [Head.own, Head.tag, BrandRow.kind, F_PARAM, F_PROJ, F_BRAND, F_FRESH, F_ERROR]

theorem own_brand (head : Head) : head.own &&& F_BRAND ≠ 0 ↔ head.tag = .Brand := by
  rcases head with _ | _ | _ | _ | _ | _ | _ | _ | _ | _ | ⟨_ | _⟩ | _ <;>
    simp [Head.own, Head.tag, BrandRow.kind, F_PARAM, F_PROJ, F_BRAND, F_FRESH, F_ERROR]

theorem own_fresh (head : Head) : head.own &&& F_FRESH ≠ 0 ↔
    ∃ owner ordinal, head = .Brand (.Fresh owner ordinal) := by
  rcases head with _ | _ | _ | _ | _ | _ | _ | _ | _ | _ | ⟨_ | _⟩ | _ <;>
    simp [Head.own, BrandRow.kind, F_PARAM, F_PROJ, F_BRAND, F_FRESH, F_ERROR]

theorem own_error (head : Head) : head.own &&& F_ERROR ≠ 0 ↔ head.tag = .Error := by
  rcases head with _ | _ | _ | _ | _ | _ | _ | _ | _ | _ | ⟨_ | _⟩ | _ <;>
    simp [Head.own, Head.tag, BrandRow.kind, F_PARAM, F_PROJ, F_BRAND, F_FRESH, F_ERROR]

/-- Whatever the cons keys, and as long as the pools stay within their ids: rows are equal exactly
where their types are, each row's twin has its content without qualifiers, its flags say what is
inside it, and no later operation changes a row or an entry. -/
theorem hash_consed {ops : List Op} (h : Reached k ops s) (hfit : s.Fits) :
    (∀ t u, t < s.rows.length → u < s.rows.length → (s.tree t = s.tree u ↔ t = u)) ∧
      (∀ (t : TyId) (row : TyRow), s.rows[t]? = some row →
        (∃ twin, s.rows[row.unqual]? = some twin ∧ twin.tag = row.tag ∧ twin.a = row.a ∧
          twin.b = row.b ∧ twin.quals = .NONE) ∧
        (row.flags &&& F_PARAM ≠ 0 ↔ s.Contains t fun head => head.tag = .Param) ∧
        (row.flags &&& F_PROJ ≠ 0 ↔ s.Contains t fun head => head.tag = .Proj) ∧
        (row.flags &&& F_BRAND ≠ 0 ↔ s.Contains t fun head => head.tag = .Brand) ∧
        (row.flags &&& F_FRESH ≠ 0 ↔
          s.Contains t fun head => ∃ owner ordinal, head = .Brand (.Fresh owner ordinal)) ∧
        (row.flags &&& F_ERROR ≠ 0 ↔ s.Contains t fun head => head.tag = .Error)) ∧
      ∀ ops' s', run k ops' s = some s' → s.Extends s' ∧
        (∀ id xs, s.args_at id = some xs → s'.args_at id = some xs) ∧
        ∀ id fn, s.fn_at id = some fn → s'.fn_at id = some fn := by
  have hinv := h.inv hfit
  refine ⟨fun t u => hinv.tree_eq_iff, fun t row hrow => ⟨?_, ?_, ?_, ?_, ?_, ?_⟩,
    fun ops' s' hrun => ?_⟩
  · obtain ⟨twin, htwin, hcontent⟩ := hinv.twin t row hrow
    simp only [TyRow.content, Prod.mk.injEq] at hcontent
    exact ⟨twin, htwin, hcontent.1, hcontent.2.1, hcontent.2.2.1, hcontent.2.2.2⟩
  · exact hinv.flags_iff own_param hrow
  · exact hinv.flags_iff own_proj hrow
  · exact hinv.flags_iff own_brand hrow
  · exact hinv.flags_iff own_fresh hrow
  · exact hinv.flags_iff own_error hrow
  · have hext := kept_extends.run hrun
    exact ⟨hext, fun id xs hx => hext.args_at hx, fun id fn hx => hext.fn_at hx⟩

/-- Keys that all collide. -/
def colliding : Keys where
  args _ := 0
  trait_ref _ := 0
  proj_key _ := 0
  fn_ty _ := 0
  brand _ := 0
  const _ := 0
  row _ := 0

/-- The columns of the store that `new` makes. -/
theorem new_colliding : ∃ s, new colliding = some s ∧
    (s.rows = [⟨.Error, 0, 0, .NONE, F_ERROR, 0⟩, ⟨.Unit, 0, 0, .NONE, 0, 1⟩,
      ⟨.Never, 0, 0, .NONE, 0, 2⟩] ∧ s.args = [] ∧ s.args_index = [(0, 0)]) ∧
    s.trait_refs.length = 0 ∧ s.proj_keys.length = 0 ∧ s.fn_params.length = 0 ∧
    s.fn_tys.length = 0 ∧ s.brands.length = 0 ∧ s.consts.length = 0 := by
  have h : (new colliding).map (fun s => (s.rows, s.args, s.args_index)) =
      some ([⟨.Error, 0, 0, .NONE, F_ERROR, 0⟩, ⟨.Unit, 0, 0, .NONE, 0, 1⟩,
        ⟨.Never, 0, 0, .NONE, 0, 2⟩], [], [(0, 0)]) := by
    decide +kernel
  have h' : (new colliding).map (fun s => ((s.trait_refs.length, s.proj_keys.length,
      s.fn_params.length), s.fn_tys.length, s.brands.length, s.consts.length)) =
      some ((0, 0, 0), 0, 0, 0) := by
    decide +kernel
  obtain ⟨s, hs, hcols⟩ := map_eq_some_iff.mp h
  rw [hs] at h'
  simp only [map_some, some.injEq, Prod.mk.injEq, and_assoc] at h' hcols
  exact ⟨s, hs, hcols, h'⟩

theorem hash_consed_pair : ∃ s, Reached colliding [.prim .I32, .tuple_of [3, 3],
      .qualified 4 1] s ∧ (s.tree 4 = s.tree 5 ↔ 4 = 5) := by
  have h : ((new colliding).bind (run colliding [.prim .I32, .tuple_of [3, 3],
      .qualified 4 1])).map (fun s => ((s.rows.length, s.args.length, s.args_index.length),
        (s.trait_refs.length, s.proj_keys.length, s.fn_params.length), s.fn_tys.length,
        s.brands.length, s.consts.length)) = some ((6, 2, 2), (0, 0, 0), 0, 0, 0) := by
    decide +kernel
  obtain ⟨s, hs, hcols⟩ := map_eq_some_iff.mp h
  obtain ⟨s0, hnew, hrun⟩ := bind_eq_some_iff.mp hs
  simp only [Prod.mk.injEq, and_assoc] at hcols
  obtain ⟨hrows, hargs, hindex, htr, hpk, hparams, hfn, hbrands, hconsts⟩ := hcols
  have hempty : EMPTY = 2 ^ 32 - 1 := rfl
  have hfit : s.Fits := by
    constructor <;> omega
  exact ⟨s, ⟨s0, hnew, hrun⟩, (hash_consed ⟨s0, hnew, hrun⟩ hfit).1 4 5 (by omega) (by omega)⟩

/-! ## Beyond 32-bit ranges

The range of an argument list starts at `args.len() as u32`, so after `2 ^ 32` arguments the next
list reads the first ones. -/

theorem intern_args_new {xs : List TyId} (h : s.Pools k) (hnew : xs ∉ s.arg_lists)
    (hlen : xs.length < 2 ^ 16) (hroom : s.args_index.length < EMPTY) :
    ∃ s', s.intern_args k xs = some (s', s.args_index.length) ∧ s'.args = s.args ++ xs ∧
      s'.args_index = s.args_index ++ [(as_u32 s.args.length, xs.length)] ∧ s'.rows = s.rows ∧
      s'.rows_cons = s.rows_cons ∧ (s.Fits → s'.args.length ≤ 2 ^ 32 → s'.Fits) := by
  have hcount : s.arg_lists.length = s.args_index.length := length_map _
  have hid : as_u32 s.args_index.length = s.args_index.length := by
    refine Nat.mod_eq_of_lt ?_
    simp only [EMPTY] at hroom
    omega
  obtain ⟨v, -, hv⟩ | ⟨hnone, -⟩ := @Pool.lookup _ _ k.args _ h.args xs
    (fun v => s.args_at v = some xs) (fun v y hy => by simp [h.args_at_eq, hy])
  · exact absurd (mem_of_getElem? hv) hnew
  · obtain ⟨cons, hcons, -⟩ := h.args.insert hnew (by omega)
    rw [hcount] at hcons
    refine ⟨{ s with
      args_index := s.args_index ++ [(as_u32 s.args.length, xs.length)]
      args := s.args ++ xs
      args_cons := cons }, ?_, rfl, rfl, rfl, rfl, fun hfit htotal => { hfit with
        args := htotal
        args_index := by
          rw [length_append, length_singleton]
          omega }⟩
    simp only [intern_args, intern_in, hnone, hid, hcons, hlen, if_true, bind_eq_bind,
      bind_some, Option.pure_def]

/-- The longest length that an argument list may have. -/
def LONG : Nat := 65535

/-- A longest argument list. -/
def long (i : Nat) : List TyId :=
  List.replicate LONG i

theorem length_long (i : Nat) : (long i).length = LONG :=
  length_replicate

theorem long_inj {i j : Nat} (h : long i = long j) : i = j :=
  (replicate_right_inj (by decide)).mp h

theorem length_flatMap_long (j : Nat) : ((List.range j).flatMap long).length = LONG * j := by
  induction j with
  | zero => rfl
  | succ j ih =>
    rw [range_succ, flatMap_append, length_append, ih, flatMap_singleton,
      length_long, Nat.mul_succ]

/-- The store after `j` of these lists. -/
structure Filled (j : Nat) (s : TyStore) : Prop where
  inv : s.Inv colliding
  fits : s.Fits
  rows : s.rows = [⟨.Error, 0, 0, .NONE, F_ERROR, 0⟩, ⟨.Unit, 0, 0, .NONE, 0, 1⟩,
    ⟨.Never, 0, 0, .NONE, 0, 2⟩]
  args : s.args = (List.range j).flatMap long
  args_index : s.args_index = (0, 0) :: (List.range j).map fun i => (LONG * i, LONG)
  arg_lists : s.arg_lists = [] :: (List.range j).map long

theorem filled_zero : ∃ s, new colliding = some s ∧ Filled 0 s := by
  obtain ⟨s, hs, ⟨hrows, hargs, hindex⟩, htr, hpk, hparams, hfn, hbrands, hconsts⟩ := new_colliding
  have hempty : EMPTY = 2 ^ 32 - 1 := rfl
  have hfit : s.Fits := by
    constructor <;> simp_all
  refine ⟨s, hs, @Reached.inv colliding s [] ⟨s, hs, rfl⟩ hfit, hfit, hrows, hargs, hindex, ?_⟩
  rw [arg_lists, hindex]
  simp

theorem Filled.not_mem {j i : Nat} (h : Filled j s) (hj : j ≤ i) : long i ∉ s.arg_lists := by
  rw [h.arg_lists, mem_cons, mem_map, not_or]
  refine ⟨fun h0 => absurd (congrArg List.length h0) (by rw [length_long]; decide), ?_⟩
  rintro ⟨i', hi', heq⟩
  have := long_inj heq
  rw [mem_range] at hi'
  omega

/-- A further list, as long as it ends within `2 ^ 32` arguments. -/
theorem Filled.succ {j : Nat} (h : Filled j s) (hj : j < 65537) :
    ∃ s', s.intern_args colliding (long j) = some (s', j + 1) ∧ Filled (j + 1) s' := by
  have hlen : s.args.length = LONG * j := by
    rw [h.args, length_flatMap_long]
  have hcount : s.args_index.length = j + 1 := by
    rw [h.args_index, length_cons, length_map, length_range]
  have hlong : LONG = 65535 := rfl
  have hempty : EMPTY = 2 ^ 32 - 1 := rfl
  obtain ⟨s', hrun, hargs, hindex, hrows, -, hfit⟩ := intern_args_new h.inv.toPools
    (h.not_mem (Nat.le_refl j)) (by rw [length_long]; decide) (by omega)
  rw [hcount] at hrun
  have hbound : LONG * (j + 1) ≤ LONG * 65537 := Nat.mul_le_mul_left LONG hj
  rw [Nat.mul_succ] at hbound
  have hstart : as_u32 s.args.length = LONG * j := by
    rw [hlen, as_u32, Nat.mod_eq_of_lt (by omega)]
  have htotal : s'.args.length ≤ 2 ^ 32 := by
    have : s'.args.length = LONG * j + LONG := by
      rw [hargs, length_append, hlen, length_long]
    omega
  have hfit' := hfit h.fits htotal
  obtain ⟨hinv, -⟩ := inv_intern_args h.inv hrun hfit'
  refine ⟨s', hrun, hinv, hfit', by rw [hrows, h.rows], ?_, ?_, ?_⟩
  · rw [hargs, h.args, range_succ, flatMap_append, flatMap_singleton]
  · rw [hindex, h.args_index, hstart, length_long, range_succ, map_append]
    rfl
  · rw [arg_lists_push h.inv.toPools hargs hindex htotal, h.arg_lists, range_succ,
      map_append]
    rfl

theorem run_append {ops ops' : List Op} :
    run k (ops ++ ops') s = (run k ops s).bind (run k ops') := by
  induction ops generalizing s with
  | nil => rfl
  | cons op ops ih =>
    simp only [cons_append, run, bind_eq_bind]
    cases s.step k op with
    | none => rfl
    | some r => exact ih

theorem exists_filled {j : Nat} (hj : j ≤ 65537) :
    ∃ s, Reached colliding ((List.range j).map fun i => .intern_args (long i)) s ∧ Filled j s := by
  induction j with
  | zero =>
    obtain ⟨s, hs, hfilled⟩ := filled_zero
    exact ⟨s, ⟨s, hs, rfl⟩, hfilled⟩
  | succ j ih =>
    obtain ⟨s, ⟨s0, hs0, hrun⟩, hfilled⟩ := ih (by omega)
    obtain ⟨s', hstep, hfilled'⟩ := hfilled.succ (by omega)
    refine ⟨s', ⟨s0, hs0, ?_⟩, hfilled'⟩
    rw [range_succ, map_append, run_append, hrun]
    simp only [bind_some, map_singleton, run, step, hstep, bind_eq_bind]

/-- A new row without qualifiers. -/
theorem intern_new (h : Pool s.rows_cons k.row (s.rows.map TyRow.content))
    (hnew : (tag, a, b, .NONE) ∉ s.rows.map TyRow.content) {f : Flags}
    (hflags : s.child_flags tag a b = some f) (hroom : s.rows.length < EMPTY) :
    ∃ cons, s.intern k tag a b .NONE = some ({ s with
        rows := s.rows ++ [⟨tag, a, b, .NONE, f, s.rows.length⟩]
        rows_cons := cons }, s.rows.length) ∧
      Pool cons k.row (s.rows.map TyRow.content ++ [(tag, a, b, .NONE)]) := by
  have hid : as_u32 s.rows.length = s.rows.length := by
    refine Nat.mod_eq_of_lt ?_
    simp only [EMPTY] at hroom
    omega
  obtain ⟨t, row, -, hrow, hcontent⟩ | ⟨hnone, -⟩ := @find_row_spec k s tag a b .NONE h
  · exact absurd (mem_map.mpr ⟨row, mem_of_getElem? hrow, hcontent⟩) hnew
  · obtain ⟨cons, hcons, hpool⟩ := h.insert hnew (by rwa [length_map])
    rw [length_map] at hcons
    refine ⟨cons, ?_, hpool⟩
    simp only [intern, if_true, intern_unqual, hnone, hflags, push_row, hid, hcons,
      bind_eq_bind, bind_some, Option.pure_def, getD_none]

/-- The first list is what a list reads that starts again at 0. -/
theorem slice_flatMap_long {j : Nat} (hj : 0 < j) (xs : List TyId) :
    slice ((List.range j).flatMap long ++ xs) 0 LONG = some (long 0) := by
  cases j with
  | zero => omega
  | succ j =>
    rw [range_succ_eq_map, flatMap_cons, append_assoc]
    have hlen := length_long 0
    rw [slice_eq (by rw [length_append, hlen]; omega), drop_zero, ← hlen,
      take_left']
    rfl

/-- A run to a store whose lists 1 and 65539 read the same. -/
theorem exists_wrapped : ∃ ops s, Reached colliding ops s ∧ s.args_at 1 = some (long 0) ∧
    s.args_at 65539 = some (long 0) ∧
    s.rows = [⟨.Error, 0, 0, .NONE, F_ERROR, 0⟩, ⟨.Unit, 0, 0, .NONE, 0, 1⟩,
      ⟨.Never, 0, 0, .NONE, 0, 2⟩] ∧
    Pool s.rows_cons colliding.row (s.rows.map TyRow.content) := by
  obtain ⟨s, ⟨s0, hs0, hrun⟩, h⟩ := exists_filled (Nat.le_refl 65537)
  have hlen : s.args.length = 2 ^ 32 - 1 := by
    rw [h.args, length_flatMap_long]
    rfl
  have hcount : s.args_index.length = 65538 := by
    rw [h.args_index, length_cons, length_map, length_range]
  have hempty : EMPTY = 2 ^ 32 - 1 := rfl
  have hlong := h.not_mem (show 65537 ≤ 70000 by decide)
  have hone : [0] ∉ s.arg_lists := by
    rw [h.arg_lists, mem_cons, mem_map, not_or]
    refine ⟨by simp, fun ⟨i, _, heq⟩ => ?_⟩
    have := congrArg List.length heq
    rw [length_long] at this
    exact absurd this (by decide)
  -- one more argument fills the 32-bit range exactly
  obtain ⟨s1, hrun1, hargs1, hindex1, hrows1, hcons1, hfit1⟩ := intern_args_new h.inv.toPools hone
    (by decide) (by omega)
  have hlen1 : s1.args.length = 2 ^ 32 := by
    rw [hargs1, length_append, hlen]
    rfl
  have hfits := hfit1 h.fits (Nat.le_of_eq hlen1)
  obtain ⟨hinv1, -⟩ := inv_intern_args h.inv hrun1 hfits
  have hlists := arg_lists_push h.inv.toPools hargs1 hindex1 (Nat.le_of_eq hlen1)
  have hcount1 : s1.args_index.length = 65539 := by
    rw [hindex1, length_append, hcount]
    rfl
  -- the next list starts at 0 again
  have hnew : long 70000 ∉ s1.arg_lists := by
    rw [hlists, mem_append, not_or]
    refine ⟨hlong, fun hmem => ?_⟩
    have := congrArg List.length (mem_singleton.mp hmem)
    rw [length_long] at this
    exact absurd this (by decide)
  obtain ⟨s2, hrun2, hargs2, hindex2, hrows2, hcons2, -⟩ := intern_args_new hinv1.toPools hnew
    (by rw [length_long]; decide) (by omega)
  have hstart : as_u32 s1.args.length = 0 := by
    rw [hlen1]
    rfl
  have hslice : slice s2.args 0 LONG = some (long 0) := by
    rw [hargs2, hargs1, h.args, append_assoc]
    exact slice_flatMap_long (by decide) _
  refine ⟨(List.range 65537).map (fun i => .intern_args (long i)) ++
    [.intern_args [0], .intern_args (long 70000)], s2, ⟨s0, hs0, ?_⟩, ?_, ?_, ?_, ?_⟩
  · rw [run_append, hrun]
    simp only [bind_some, run, step, hrun1, hrun2, bind_eq_bind]
  · have hfirst : s2.args_index[1]? = some (0, LONG) := by
      rw [hindex2, hindex1, append_assoc, getElem?_append_left (by omega), h.args_index,
        getElem?_cons_succ, getElem?_map, getElem?_range (by decide)]
      rfl
    rw [args_at, hfirst]
    exact hslice
  · have hlast : s2.args_index[65539]? = some (0, LONG) := by
      rw [hindex2, hstart, length_long, ← hcount1, getElem?_concat_length]
    rw [args_at, hlast]
    exact hslice
  · rw [hrows2, hrows1, h.rows]
  · rw [hcons2, hrows2]
    exact hinv1.rows

theorem exists_or_flags {xs : List TyId} (h : ∀ x ∈ xs, ∃ f, s.flags x = some f) :
    ∃ f, s.or_flags xs = some f := by
  induction xs with
  | nil => exact ⟨0, rfl⟩
  | cons x xs ih =>
    rw [forall_mem_cons] at h
    obtain ⟨⟨f, hf⟩, hxs⟩ := h
    obtain ⟨g, hg⟩ := ih hxs
    exact ⟨f ||| g, by simp [or_flags, hf, hg]⟩

/-- Two nominal rows over lists that read the same. -/
theorem tree_eq_of_args {d : DefId} {i j : ArgsId} {f g : Flags} {t u : TyId} {e : TyRow}
    {xs : List TyId} (he : s.rows[0]? = some e) (htag : e.tag = .Error)
    (hi : s.args_at i = some xs) (hj : s.args_at j = some xs) (hxs : ∀ x ∈ xs, x = 0)
    (ht : s.rows[t + 1]? = some ⟨.Nominal, d, i, .NONE, f, t + 1⟩)
    (hu : s.rows[u + 1]? = some ⟨.Nominal, d, j, .NONE, g, u + 1⟩) :
    s.tree (t + 1) = s.tree (u + 1) := by
  have hleaf : ∀ n, unfold s.node n 0 = .node (s.node 0).1 [] := by
    intro n
    have hnil : (s.node 0).2 = [] := by
      simp [node, he, node_of, TyRow.content, htag]
    cases n with
    | zero => rfl
    | succ n => rw [unfold, hnil, map_nil]
  have hnode : s.node (t + 1) = (⟨.Nominal d, (0, 0), .NONE⟩, xs) := by
    simp [node, ht, node_of, TyRow.content, hi]
  have hnode' : s.node (u + 1) = (⟨.Nominal d, (0, 0), .NONE⟩, xs) := by
    simp [node, hu, node_of, TyRow.content, hj]
  rw [tree, Trees.tree, Trees.tree, unfold, unfold, hnode, hnode']
  congr 1
  refine map_congr_left fun x hx => ?_
  rw [hxs x hx, hleaf, hleaf]

/-- After `2 ^ 32` arguments two rows have one type. -/
theorem wrapped_range : ∃ ops s, Reached colliding ops s ∧ 3 < s.rows.length ∧
    4 < s.rows.length ∧ s.tree 3 = s.tree 4 := by
  obtain ⟨ops, s, ⟨s0, hs0, hrun⟩, hone, hwrapped, hrows, hpool⟩ := exists_wrapped
  have hzero : ∀ x ∈ long 0, x = 0 := fun x hx => (mem_replicate.mp hx).2
  have hflags : ∃ f, s.or_flags (long 0) = some f := by
    refine exists_or_flags fun x hx => ⟨F_ERROR, ?_⟩
    rw [hzero x hx, flags, hrows]
    rfl
  obtain ⟨f, hf⟩ := hflags
  have hlen : s.rows.length = 3 := by
    rw [hrows]
    rfl
  have hcontents : s.rows.map TyRow.content =
      [(.Error, 0, 0, .NONE), (.Unit, 0, 0, .NONE), (.Never, 0, 0, .NONE)] := by
    rw [hrows]
    rfl
  obtain ⟨cons1, hrun1, hpool1⟩ := @intern_new colliding s .Nominal 7 1 hpool
    (by rw [hcontents]; decide) f (by simp [child_flags, or_args, hone, hf])
    (by rw [hlen]; decide)
  let s1 : TyStore := { s with
    rows := s.rows ++ [⟨.Nominal, 7, 1, .NONE, f, s.rows.length⟩]
    rows_cons := cons1 }
  have hext1 : s.Extends s1 := extends_intern hrun1
  have hcontents1 : s1.rows.map TyRow.content = s.rows.map TyRow.content ++
      [(.Nominal, 7, 1, .NONE)] := map_append
  obtain ⟨cons2, hrun2, -⟩ := @intern_new colliding s1 .Nominal 7 65539
    (by rw [hcontents1]; exact hpool1) (by rw [hcontents1, hcontents]; decide) f
    (by simp [child_flags, or_args, hext1.args_at hwrapped, hext1.or_flags hf])
    (by rw [← length_map, hcontents1, hcontents]; decide)
  have hext2 := extends_intern hrun2
  have hrow : s1.rows[3]? = some ⟨.Nominal, 7, 1, .NONE, f, 3⟩ := by
    rw [← hlen]
    exact getElem?_concat_length
  have hlen1 : s1.rows.length = 4 := by
    rw [← length_map, hcontents1, hcontents]
    rfl
  refine ⟨ops ++ [.nominal 7 1, .nominal 7 65539], _, ⟨s0, hs0, ?_⟩, ?_, ?_,
    @tree_eq_of_args _ 7 1 65539 f f 2 3 ⟨.Error, 0, 0, .NONE, F_ERROR, 0⟩ (long 0)
      (getElem?_kept (hext1.rows.trans hext2.rows) (by rw [hrows]; rfl)) rfl
      ((hext1.trans hext2).args_at hone) ((hext1.trans hext2).args_at hwrapped) hzero
      (getElem?_kept hext2.rows hrow) ?_⟩
  · rw [run_append, hrun]
    simp only [bind_some, run, step, nominal, hrun1, bind_eq_bind]
    rw [hrun2]
    rfl
  · rw [length_append, hlen1, length_singleton]
    decide
  · rw [length_append, hlen1, length_singleton]
    decide
  · change (s1.rows ++ [_])[4]? = some ⟨.Nominal, 7, 65539, .NONE, f, 4⟩
    rw [← hlen1]
    exact getElem?_concat_length

end TyStore

end Fors.Ty
