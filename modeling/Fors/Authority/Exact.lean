import Fors.Authority.FieldWise
import Fors.Ty.LinQueries

/-!
# Where the field-wise check is exact

An `impl Shared` is refused for an unshared leaf, and a declaration for an `atomic` one, down to 16
tuples and arrays: what lies deeper is not seen.

Source: `crates/fors-check/src/authority.rs`. Principal result: `shared_checked_iff`.
-/

namespace Fors.Authority

open Fors.Syntax Fors.Ty Fors.Ty.TyStore Trees Descent List

section Exact

variable {k : Keys} (p : Checker k) (s0 : TyStore)

def Reported (st : Pass) (d : DefId) : Prop :=
  ∃ rep ∈ st.out, rep.home = d

/-- The components of an `impl`'s type, with the `impl`'s arguments in place. -/
def instances (r : ImplRow) : List (Rose Label) :=
  (declared p s0 (self_def s0 r)).filterMap (placed p (self_def s0 r) (self_args s0 r))

/-- The components that no arguments can be put in place of. -/
def unplaced (r : ImplRow) : List (Rose Label) :=
  (declared p s0 (self_def s0 r)).filter fun T =>
    placed p (self_def s0 r) (self_args s0 r) T = none

def HoldsUnshared (r : ImplRow) : Prop :=
  ∃ T ∈ instances p s0 r, ∃ n y, Leaf (shared_inner p) n T y ∧ Unshared p r.def_ y

def HoldsAtomic (d : DefId) : Prop :=
  ∃ T ∈ declared p s0 d, ∃ n y, Leaf (container p) n T y ∧ is_atomic p y = true

def ImplementsShared (d : DefId) : Prop :=
  ∃ r ∈ p.impls, r.trait_def = p.shared ∧ r.head = .Nominal d

/-- An unshared leaf inside one of the types, at most 16 levels down. -/
def UnsharedWithin (r : ImplRow) (Ts : List (Rose Label)) : Prop :=
  ∃ T ∈ Ts, ∃ n y, n ≤ 16 ∧ Leaf (shared_inner p) n T y ∧ Unshared p r.def_ y

/-- If there is an unshared leaf, the check gets to one; and a component that keeps its declared
type shows it none on its own. -/
def ShallowImpl (r : ImplRow) : Prop :=
  (HoldsUnshared p s0 r →
    UnsharedWithin p r (walked p s0 (self_def s0 r) (self_args s0 r))) ∧
    (UnsharedWithin p r (unplaced p s0 r) → HoldsUnshared p s0 r)

/-- If there is an `atomic` inside, the check gets to one, or need not. -/
def ShallowType (d : DefId) : Prop :=
  HoldsAtomic p s0 d → ImplementsShared p d ∨
    ∃ T ∈ declared p s0 d, ∃ n y, n ≤ 16 ∧ Leaf (container p) n T y ∧ is_atomic p y = true

variable {p s0} {st' : Pass} {d : DefId} {r : ImplRow}

theorem label_requal (q : Quals) (T : Rose Label) : (requal q T).label.head = T.label.head := by
  cases T
  rfl

theorem atomicFault_iff : AtomicFault p s0 d ↔
    (∃ T ∈ declared p s0 d, ∃ n y, n ≤ 16 ∧ Leaf (container p) n T y ∧ is_atomic p y = true) ∧
      ¬ImplementsShared p d := by
  simp only [AtomicFault, ImplementsShared, finds_iff, Nat.lt_succ_iff]

theorem WellFormed.sharedFault_iff (hwf : WellFormed p s0) (hr : r ∈ p.impls) :
    SharedFault p s0 r ↔
      UnsharedWithin p r (walked p s0 (self_def s0 r) (self_args s0 r)) := by
  refine exists_congr fun T => and_congr_right fun hT => ?_
  rw [finds_iff]
  refine exists_congr fun n => exists_congr fun y => ?_
  rw [Nat.lt_succ_iff]
  refine and_congr_right fun _ => and_congr_right fun hleaf => ?_
  obtain ⟨herror, hbrand, hconst⟩ := hwf.values r hr T hT n y hleaf
  refine refuses_iff hleaf.empty herror hbrand hconst fun himpl => ?_
  have hstruct := hwf.structs _ _ himpl
  rw [label_requal] at hstruct
  exact hstruct

/-- What the check sees is there exactly where what is there is seen. -/
theorem unsharedWithin_iff :
    (UnsharedWithin p r (walked p s0 (self_def s0 r) (self_args s0 r)) ↔ HoldsUnshared p s0 r) ↔
      ShallowImpl p s0 r := by
  constructor
  · intro h
    refine ⟨h.mpr, fun ⟨T, hT, hleaf⟩ => h.mp ⟨T, ?_, hleaf⟩⟩
    obtain ⟨hT, hnone⟩ := mem_filter.mp hT
    refine mem_map.mpr ⟨T, hT, ?_⟩
    rw [of_decide_eq_true hnone, Option.getD_none]
  · rintro ⟨hseen, hthere⟩
    refine ⟨fun ⟨U, hU, n, y, hn, hleaf, hy⟩ => ?_, hseen⟩
    obtain ⟨T, hT, rfl⟩ := mem_map.mp hU
    cases hplaced : placed p (self_def s0 r) (self_args s0 r) T with
    | some V =>
      rw [hplaced] at hleaf
      exact ⟨V, mem_filterMap.mpr ⟨T, hT, hplaced⟩, n, y, hleaf, hy⟩
    | none =>
      rw [hplaced] at hleaf
      refine hthere ⟨T, ?_, n, y, hn, hleaf, hy⟩
      exact mem_filter.mpr ⟨hT, decide_eq_true hplaced⟩

theorem mem_types : d ∈ (p.defs.user_defs.filter fun d =>
    d.2.kind = .Struct ∨ d.2.kind = .Enum).map Prod.fst ↔ IsType p d := by
  rw [mem_map]
  constructor
  · rintro ⟨⟨d, row⟩, hmem, rfl⟩
    obtain ⟨hmem, hkind⟩ := mem_filter.mp hmem
    exact ⟨row, hmem, of_decide_eq_true hkind⟩
  · rintro ⟨row, hmem, hkind⟩
    exact ⟨(d, row), mem_filter.mpr ⟨hmem, decide_eq_true hkind⟩, rfl⟩

theorem WellFormed.apart (hwf : WellFormed p s0) (hd : IsType p d) (hr : r ∈ p.impls) :
    r.def_ ≠ d := by
  rintro rfl
  obtain ⟨row, hmem, hkind⟩ := hd
  have himpl := hwf.impl_kind r hr row (DefTable.mem_user_defs.mp hmem).2
  obtain hkind | hkind := hkind
  · exact nomatch hkind.symm.trans himpl
  · exact nomatch hkind.symm.trans himpl

/-- A run of both passes reports each declaration for its own fault. -/
theorem shared_decls_reports (hwf : WellFormed p s0) (hrun : shared_decls p s0 = some st') :
    s0.Extends st'.tys ∧ (st'.tys.Fits → Grown k s0 s0 →
      (∀ r, Checked p s0 r → (Reported st' r.def_ ↔ SharedFault p s0 r)) ∧
        ∀ d, IsType p d → (Reported st' d ↔ AtomicFault p s0 d)) := by
  obtain ⟨st1, hatomic, hshared⟩ := Option.bind_eq_some_iff.mp hrun
  rw [atomic_fields, if_neg] at hatomic
  swap
  · simp only [any_eq_true, Bool.and_eq_true, Bool.not_eq_true', any_eq_false,
      decide_eq_true_eq, not_exists, not_and, Prod.forall]
    intro d row hmem hkind hnone
    obtain ⟨r, hr, hdef⟩ := hwf.lowered d row hmem hkind
    exact hnone r hr hdef
  have hdistinct : (((p.defs.user_defs.filter fun d =>
      d.2.kind = .Struct ∨ d.2.kind = .Enum).map Prod.fst).map id).Nodup := by
    rw [map_id]
    exact (filter_sublist.map Prod.fst).nodup p.defs.nodup_user_defs
  obtain ⟨hext1, hspec1⟩ := @run_rounds _ _ _ _ _ id _ _ _ _ (atomic_field_round hwf) hdistinct hatomic
  obtain ⟨hext2, hspec2⟩ := run_rounds (shared_impl_round hwf) hwf.distinct hshared
  refine ⟨hext1.trans hext2, fun hfit h0 => ?_⟩
  obtain ⟨hgrown1, said, hout1, hhomes, hiff⟩ := hspec1 (hext2.fits hfit) h0
  obtain ⟨-, rest, hout2, hhomes', hiff'⟩ := hspec2 hfit hgrown1
  rw [nil_append] at hout1
  have hsaid : ∀ rep ∈ said, IsType p rep.home := fun rep hrep => by
    obtain ⟨d, hd, heq⟩ := hhomes rep hrep
    rw [heq]
    exact mem_types.mp hd
  refine ⟨fun r hr => ?_, fun d hd => ?_⟩
  · have hfresh : ∀ rep ∈ said, rep.home ≠ r.def_ := fun rep hrep heq =>
      hwf.apart (hsaid rep hrep) hr.mem heq.symm
    rw [← hiff' r hr.mem hr (by rw [hout1]; exact hfresh), Reported, hout2, hout1]
    constructor
    · rintro ⟨rep, hrep, heq⟩
      obtain hrep | hrep := mem_append.mp hrep
      · exact absurd heq (hfresh rep hrep)
      · exact ⟨rep, hrep, heq⟩
    · rintro ⟨rep, hrep, heq⟩
      exact ⟨rep, mem_append_right _ hrep, heq⟩
  · rw [← hiff d (mem_types.mpr hd) hd (by simp), Reported, hout2, hout1]
    constructor
    · rintro ⟨rep, hrep, heq⟩
      obtain hrep | hrep := mem_append.mp hrep
      · exact ⟨rep, hrep, heq⟩
      · obtain ⟨r, hr, heq'⟩ := hhomes' rep hrep
        exact absurd (heq'.symm.trans heq) (hwf.apart hd hr)
    · rintro ⟨rep, hrep, heq⟩
      exact ⟨rep, mem_append_left _ hrep, heq⟩

/-- An `impl Shared` is reported for its unshared leaves, and a declaration for its `atomic` ones,
exactly where the first of them is not hidden below 16 tuples and arrays, and no component is judged
by a type it does not have. -/
theorem shared_checked_iff {ops : List Op} (h : Reached k ops s0)
    (htyped : ∀ op ∈ ops, op.Typed) (hwf : WellFormed p s0)
    (hrun : shared_decls p s0 = some st') (hfit : st'.tys.Fits) :
    (∀ r, Checked p s0 r →
      ((Reported st' r.def_ ↔ HoldsUnshared p s0 r) ↔ ShallowImpl p s0 r)) ∧
    ∀ d, IsType p d →
      ((Reported st' d ↔ HoldsAtomic p s0 d ∧ ¬ImplementsShared p d) ↔ ShallowType p s0 d) := by
  obtain ⟨hext, hreports⟩ := shared_decls_reports hwf hrun
  obtain ⟨s1, hnew, hreach⟩ := h
  have hfit0 := hext.fits hfit
  have hfit1 := (kept_extends.run hreach).fits hfit0
  have hgood := good_run htyped (good_new hnew hfit1) hreach hfit0
  have herror := (hasError_of_new hnew hfit1).extends (kept_extends.run hreach)
  obtain ⟨himpls, htypes⟩ := hreports hfit ⟨hgood, .refl s0, hgood, herror⟩
  refine ⟨fun r hr => ?_, fun d hd => ?_⟩
  · rw [himpls r hr, hwf.sharedFault_iff hr.mem]
    exact unsharedWithin_iff
  · rw [htypes d hd, atomicFault_iff]
    constructor
    · intro hexact hholds
      by_cases himpl : ImplementsShared p d
      · exact .inl himpl
      · exact .inr (hexact.mpr ⟨hholds, himpl⟩).1
    · intro hshallow
      refine ⟨fun ⟨⟨T, hT, n, y, _, hleaf, hy⟩, hno⟩ => ⟨⟨T, hT, n, y, hleaf, hy⟩, hno⟩, ?_⟩
      exact fun ⟨hholds, hno⟩ => ⟨(hshallow hholds).resolve_left hno, hno⟩

end Exact

/-! ## A deep program -/

/-- The solver where no projection can be reduced, with the conformances of a table. -/
def neutral (k : Keys) (implements : DefId → DefId → Rose Label → Bool) : Traits k where
  subst_norm_n s t b := subst_norm k b (t + 1) s t
  in_place d args T :=
    Matching.subst (marks (Binding.new [(d, args.length)])) (args_values args.length args) T
  subst_extends hrun := (subst_norm_post k _ (fun _ => none) _ _ _ _ _ hrun).1
  subst_exact {s t d args s' out} hs hargs ht hrun hfit := by
    obtain ⟨hext, hpost⟩ :=
      subst_norm_post k _ (args_values args.length (args.map s.tree)) _ _ _ _ _ hrun
    obtain ⟨howners, hover, hvalues⟩ := bind_args_over (hext.fits hfit) d args.length hargs
    have hinst := hpost hfit ⟨hs, hover, hvalues⟩ ht
    refine ⟨hinst.ready.good, hinst.lt, ?_⟩
    rw [length_map, ← marks_congr howners, hinst.tree]
  holds scope s t want :=
    (s.trait_refs[want]?).map fun tr =>
      (s, if implements scope tr.1 (s.tree t) then .Yes else .No)
  implements := implements
  holds_extends hrun := by
    obtain ⟨tr, -, heq⟩ := Option.map_eq_some_iff.mp hrun
    obtain ⟨rfl, -⟩ := Prod.mk.inj heq
    exact .refl _
  holds_exact hs _ hwant hrun _ := by
    obtain ⟨tr, htr, heq⟩ := Option.map_eq_some_iff.mp hrun
    obtain rfl := Option.some.inj (hwant.symm.trans htr)
    cases heq
    exact ⟨hs, rfl⟩

/-- `struct B {}`, `struct A { x: T }` with an `impl Shared for A {}`, and `struct C { y: U }`,
where `T` is 17 tuples around `B` and `U` as many around `atomic[u64]`. -/
def deep_source : Bytes :=
  let opened := String.ofList (List.replicate 17 '(')
  let closed := String.join (List.replicate 17 ",)")
  Utf8.bytes ("module a;\nstruct B \x7b\x7d\nstruct A \x7b x: " ++ opened ++ "B" ++ closed ++
    " \x7d\nimpl Shared for A \x7b\x7d\nstruct C \x7b y: " ++ opened ++ "atomic[u64]" ++ closed ++
    " \x7d\n")

def deep_closed : List TokenKind :=
  (List.replicate 17 [.Comma, .RParen]).flatten

/-- A struct's tokens up to its field's type. -/
def deep_struct : List TokenKind :=
  [.KwStruct, .Whitespace, .Ident, .Whitespace, .LBrace, .Whitespace, .Ident, .Colon, .Whitespace]

def deep_kinds : List TokenKind :=
  List.flatten [[.KwModule, .Whitespace, .Ident, .Semi, .Whitespace],
    [.KwStruct, .Whitespace, .Ident, .Whitespace, .LBrace, .RBrace, .Whitespace],
    deep_struct, List.replicate 17 .LParen, [.Ident], deep_closed,
    [.Whitespace, .RBrace, .Whitespace],
    [.KwImpl, .Whitespace, .Ident, .Whitespace, .KwFor, .Whitespace, .Ident, .Whitespace, .LBrace,
      .RBrace, .Whitespace],
    deep_struct, List.replicate 17 .LParen, [.Ident, .LBracket, .Ident, .RBracket], deep_closed,
    [.Whitespace, .RBrace, .Whitespace, .Eof]]

/-- How long the tokens are. -/
def deep_widths : List Nat :=
  [6, 1, 1, 1, 1] ++ [6, 1, 1, 1, 1, 1, 1] ++ [6, 1, 1, 1, 1, 1, 1, 1, 1] ++
    List.replicate 55 1 ++ [4, 1, 6, 1, 3, 1, 1, 1, 1, 1, 1] ++ [6, 1, 1, 1, 1, 1, 1, 1, 1] ++
    List.replicate 17 1 ++ [6, 1, 3, 1] ++ List.replicate 37 1 ++ [0]

def deep_tokens : Tokens where
  kinds := deep_kinds
  starts := deep_widths.scanl (· + ·) 0
  length_starts := by decide +kernel
  sorted := by decide +kernel

/-- The 17 tuple types whose first parenthesis is token `first`, around `kids` nodes of `len`
tokens; the outermost one starts with the blank. -/
def deep_tuples (first len kids : Nat) : Syntax.Tree NodeKind :=
  (List.range 17).map fun i =>
    let blank := if i = 0 then 1 else 0
    ⟨.TupleType, .ofNat (first + i - blank), .ofNat (len + 3 * (17 - i) + blank), kids + 17 - i⟩

def deep_tree : Syntax.Tree NodeKind :=
  [⟨.File, 0, 155, 48⟩, ⟨.ModuleHdr, 0, 4, 2⟩, ⟨.Path, 1, 2, 1⟩, ⟨.StructDecl, 4, 7, 1⟩,
    ⟨.StructDecl, 11, 64, 20⟩, ⟨.Field, 17, 56, 19⟩] ++ deep_tuples 21 1 1 ++
    [⟨.TypeApp, 38, 1, 1⟩, ⟨.ImplDecl, 75, 11, 3⟩, ⟨.TypeApp, 77, 2, 1⟩, ⟨.TypeApp, 81, 2, 1⟩,
      ⟨.StructDecl, 86, 67, 21⟩, ⟨.Field, 92, 59, 20⟩] ++ deep_tuples 96 4 2 ++
    [⟨.TypeApp, 113, 4, 2⟩, ⟨.TypeApp, 115, 1, 1⟩]

example : deep_source.length = deep_widths.sum ∧ deep_tree.length = 48 := by
  decide +kernel

def deep_file : FileCtx :=
  ⟨0, deep_tree, deep_tokens, deep_source, by decide +kernel⟩

def deep_impls : List ImplRow :=
  [⟨⟨5, 2, NO_ARGS, 21, .Nominal 4⟩, false⟩]

/-- `atomic`, `Array` and `Shared` are 0, 1 and 2, and `B`, `A`, the `impl` and `C` 3 to 6. -/
def deep : Checker spread where
  atomic := 0
  array := 1
  shared := 2
  sigs d :=
    if d = 4 then ⟨[⟨3, .Field 20⟩], 0⟩ else if d = 6 then ⟨[⟨4, .Field 40⟩], 0⟩ else ⟨[], 0⟩
  defs := ⟨[none, none, none, some ⟨0, .Struct, some 0, NO_DEF, 3⟩,
    some ⟨0, .Struct, some 1, NO_DEF, 4⟩, some ⟨0, .Impl, none, NO_DEF, 24⟩,
    some ⟨0, .Struct, some 2, NO_DEF, 27⟩], 3⟩
  files := [deep_file]
  impls := deep_impls
  poisoned _ := false
  spoke _ := false
  resolve name := ["B", "A", "C", "x", "y"].getD name ""
  show_ty _ _ := ""
  traits := neutral spread fun _ tr T => deep_impls.any fun r =>
    r.trait_def = tr && match T.label.head with
      | .Nominal d => r.head = .Nominal d
      | _ => false

/-- Row 20 is the type of `x`, row 21 is `A`, and row 40 is the type of `y`. -/
def deep_types : List Op :=
  .nominal_of 3 [] :: (List.range 17).map (fun i => .tuple_of [3 + i]) ++
    [.nominal_of 4 [], .prim .U64, .nominal_of 0 [22]] ++
    (List.range 17).map fun i => .tuple_of [23 + i]

/-- `n` tuples around a type. -/
def wrapped (T : Rose Label) : Nat → Rose Label
  | 0 => T
  | n + 1 => .node ⟨.Tuple, (0, 0), .NONE⟩ [wrapped T n]

def atomic_u64 : Rose Label :=
  .node ⟨.Nominal 0, (0, 0), .NONE⟩ [leaf (.Prim (PrimKind.U64.as_u32))]

theorem leaf_wrapped {inner : Rose Label → Option (List (Rose Label))} {T y : Rose Label}
    (hwrap : ∀ m, inner (wrapped T (m + 1)) = some [wrapped T m]) (hT : inner T = none)
    {n m : Nat} : Leaf inner n (wrapped T m) y ↔ n = m ∧ y = T := by
  induction m generalizing n with
  | zero =>
    constructor
    · intro h
      cases h with
      | here _ => exact ⟨rfl, rfl⟩
      | inside h _ _ => exact nomatch hT.symm.trans h
    · rintro ⟨rfl, rfl⟩
      exact .here hT
  | succ m ih =>
    constructor
    · intro h
      cases h with
      | here h => exact nomatch (hwrap m).symm.trans h
      | inside h hc hy =>
        obtain rfl := Option.some.inj ((hwrap m).symm.trans h)
        rw [mem_singleton.mp hc] at hy
        obtain ⟨rfl, rfl⟩ := ih.mp hy
        exact ⟨rfl, rfl⟩
    · rintro ⟨rfl, rfl⟩
      exact .inside (hwrap m) (mem_singleton_self _) (ih.mpr ⟨rfl, rfl⟩)

/-- A store that the deep program's types are in. -/
structure DeepStore (s : TyStore) : Prop where
  rows : s.rows.length = 41
  x : s.tree 20 = wrapped (leaf (.Nominal 3)) 17
  A : s.tree 21 = leaf (.Nominal 4)
  y : s.tree 40 = wrapped atomic_u64 17

theorem deep_run : ∃ s st, Reached spread deep_types s ∧ DeepStore s ∧
    shared_decls deep s = some st ∧ st.tys.Fits ∧ st.out = [] := by
  have h : ((new spread).bind (run spread deep_types)).map (fun s =>
      (decide (s.rows.length = 41) && decide (s.tree 20 = wrapped (leaf (.Nominal 3)) 17) &&
        decide (s.tree 21 = leaf (.Nominal 4)) && decide (s.tree 40 = wrapped atomic_u64 17) &&
        decide ((shared_decls deep s).map (fun st => (sizes st.tys, st.out)) =
          some (((41, 35, 36), (0, 0, 0), 0, 0, 0), [])))) = some true := by
    decide +kernel
  obtain ⟨s, hs, hcheck⟩ := Option.map_eq_some_iff.mp h
  obtain ⟨s0, hnew, hrun⟩ := Option.bind_eq_some_iff.mp hs
  simp only [Bool.and_eq_true, decide_eq_true_eq, and_assoc] at hcheck
  obtain ⟨hrows, hx, hA, hy, hdecls⟩ := hcheck
  obtain ⟨st, hst, hcols⟩ := Option.map_eq_some_iff.mp hdecls
  obtain ⟨hsizes, hout⟩ := Prod.mk.inj hcols
  exact ⟨s, st, ⟨s0, hnew, hrun⟩, ⟨hrows, hx, hA, hy⟩, hst,
    fits_of_sizes hsizes (by omega) (by omega) (by omega) (by omega), hout⟩

section DeepStore

variable {s : TyStore}

theorem DeepStore.components_A (h : DeepStore s) (r : ImplRow) (hr : r ∈ deep_impls) :
    self_def s r = 4 ∧ declared deep s (self_def s r) = [wrapped (leaf (.Nominal 3)) 17] := by
  obtain rfl := mem_singleton.mp hr
  have hself : self_def s ⟨⟨5, 2, NO_ARGS, 21, .Nominal 4⟩, false⟩ = 4 := by
    rw [self_def, h.A]
    rfl
  rw [hself, ← h.x]
  exact ⟨rfl, rfl⟩

theorem DeepStore.components_C (h : DeepStore s) :
    declared deep s 6 = [wrapped atomic_u64 17] := by
  rw [← h.y]
  rfl

/-- `A` has no parameters. -/
theorem placed_A (args : List (Rose Label)) (T : Rose Label) : placed deep 4 args T = some T :=
  rfl

theorem DeepStore.walked_A (h : DeepStore s) (r : ImplRow) (hr : r ∈ deep_impls)
    (args : List (Rose Label)) :
    walked deep s (self_def s r) args = [wrapped (leaf (.Nominal 3)) 17] := by
  obtain ⟨hself, hdeclared⟩ := h.components_A r hr
  rw [walked, hdeclared, hself]
  rfl

theorem leaf_x {n : Nat} {y : Rose Label} :
    Leaf (shared_inner deep) n (wrapped (leaf (.Nominal 3)) 17) y ↔ n = 17 ∧ y = leaf (.Nominal 3) :=
  leaf_wrapped (fun _ => if_neg (show ¬is_imm .NONE = true by decide)) rfl

theorem leaf_y {n : Nat} {y : Rose Label} :
    Leaf (container deep) n (wrapped atomic_u64 17) y ↔ n = 17 ∧ y = atomic_u64 :=
  leaf_wrapped (fun _ => rfl) rfl

theorem DeepStore.wellFormed (h : DeepStore s) : WellFormed deep s where
  clean d := ⟨rfl, rfl⟩
  filed d row hmem := by
    have hfile : ∀ x ∈ deep.defs.user_defs, x.2.file = 0 := by decide
    rw [hfile _ hmem]
    exact ⟨deep_file, rfl⟩
  declares d := by
    by_cases hA : d = 4
    · subst hA
      exact ⟨[(3, 20)], rfl, by simp [h.rows]⟩
    by_cases hC : d = 6
    · subst hC
      exact ⟨[(4, 40)], rfl, by simp [h.rows]⟩
    · refine ⟨[], ?_, by simp⟩
      simp [deep, hA, hC, raw_components]
  lowered d row hmem hkind := by
    have hone : ∀ x ∈ deep.defs.user_defs, x.2.kind = .Impl → x.1 = 5 := by decide
    exact ⟨_, mem_singleton_self _, (hone _ hmem hkind).symm⟩
  distinct := by decide
  impl_kind r hr row hrow := by
    obtain rfl := mem_singleton.mp hr
    cases hrow
    rfl
  self_ty r hr := by
    obtain rfl := mem_singleton.mp hr
    rw [h.rows]
    decide
  values r hr T hT n y hleaf := by
    rw [h.walked_A r hr, mem_singleton] at hT
    subst hT
    obtain ⟨-, rfl⟩ := leaf_x.mp hleaf
    decide
  structs scope T himpl := by
    obtain ⟨r, -, hr⟩ := any_eq_true.mp himpl
    obtain ⟨⟨head, spare, quals⟩, cs⟩ := T
    cases head with
    | Nominal d => exact ⟨nofun, nofun, nofun⟩
    | _ => simp [Rose.label] at hr

theorem DeepStore.checked (h : DeepStore s) (r : ImplRow) (hr : r ∈ deep_impls) :
    Checked deep s r where
  mem := hr
  trait_def := by
    obtain rfl := mem_singleton.mp hr
    rfl
  inherent := by
    obtain rfl := mem_singleton.mp hr
    rfl
  nominal := by
    obtain rfl := mem_singleton.mp hr
    rw [h.A]
    rfl
  written := by
    obtain rfl := mem_singleton.mp hr
    have haudited : deep_file.decl_has_attr 24 (Utf8.bytes "unsafe") = false := by decide +kernel
    exact ⟨⟨0, .Impl, none, NO_DEF, 24⟩, deep_file, rfl, rfl, haudited⟩

theorem isType_C : IsType deep 6 :=
  ⟨⟨0, .Struct, some 2, NO_DEF, 27⟩, by decide, .inl rfl⟩

end DeepStore

theorem deep_typed : ∀ op ∈ deep_types, op.Typed := by
  intro op hop
  simp only [deep_types, cons_append, mem_cons, mem_append, mem_map,
    not_mem_nil, or_false] at hop
  obtain rfl | (⟨i, -, rfl⟩ | rfl | rfl | rfl) | ⟨i, -, rfl⟩ := hop <;> trivial

/-- The two are reported exactly where nothing is too deep. -/
theorem shared_checked_deep : ∃ s st, Reached spread deep_types s ∧
    shared_decls deep s = some st ∧
    (∀ r, Checked deep s r →
      ((Reported st r.def_ ↔ HoldsUnshared deep s r) ↔ ShallowImpl deep s r)) ∧
    ∀ d, IsType deep d →
      ((Reported st d ↔ HoldsAtomic deep s d ∧ ¬ImplementsShared deep d) ↔
        ShallowType deep s d) := by
  obtain ⟨s, st, hreached, hstore, hrun, hfit, -⟩ := deep_run
  exact ⟨s, st, hreached, hrun, shared_checked_iff hreached deep_typed
    hstore.wellFormed hrun hfit⟩

/-- Nothing is reported of `A`, which `B` inside of is not `Shared`, nor of `C`, which is not
`Shared` itself. -/
theorem deep_unreported : ∃ s st r d, Reached spread deep_types s ∧ WellFormed deep s ∧
    shared_decls deep s = some st ∧ st.tys.Fits ∧
    Checked deep s r ∧ ¬(Reported st r.def_ ↔ HoldsUnshared deep s r) ∧
    IsType deep d ∧ ¬(Reported st d ↔ HoldsAtomic deep s d ∧ ¬ImplementsShared deep d) := by
  obtain ⟨s, st, hreached, hstore, hrun, hfit, hout⟩ := deep_run
  have hsilent : ∀ d, ¬Reported st d := fun d ⟨rep, hrep, _⟩ => by
    rw [hout] at hrep
    exact absurd hrep not_mem_nil
  have hr : ⟨⟨5, 2, NO_ARGS, 21, .Nominal 4⟩, false⟩ ∈ deep_impls := mem_singleton_self _
  refine ⟨s, st, _, 6, hreached, hstore.wellFormed, hrun, hfit, hstore.checked _ hr, fun hiff => ?_,
    isType_C, fun hiff => ?_⟩
  · refine hsilent _ (hiff.mpr ⟨_, ?_, 17, leaf (.Nominal 3), leaf_x.mpr ⟨rfl, rfl⟩, ?_⟩)
    · obtain ⟨hself, hdeclared⟩ := hstore.components_A _ hr
      rw [instances, hdeclared, hself, mem_filterMap]
      exact ⟨_, mem_singleton_self _, placed_A _ _⟩
    · unfold Unshared
      decide
  · refine hsilent 6 (hiff.mpr ⟨⟨_, ?_, 17, atomic_u64, leaf_y.mpr ⟨rfl, rfl⟩, by decide⟩, ?_⟩)
    · rw [hstore.components_C]
      exact mem_singleton_self _
    · rintro ⟨r, hr, -, hhead⟩
      obtain rfl := mem_singleton.mp hr
      exact absurd hhead (by decide)

end Fors.Authority
