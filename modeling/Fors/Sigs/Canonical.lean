import Fors.Ty.HashCons
import Fors.Ty.Inverse
import Fors.Sigs.Same

/-!
# The encoding in two builds

Two declarations with the same signature have the same encoding, whatever their builds hold
besides, exactly when no order that a store has by chance reaches the encoder: the constraint
entries are sorted by keys that hold each entry's bounds in the order of the store.

Principal result: `encode_sig_canonical`.
-/

namespace Fors.Sigs

open Fors.Ty Trees MapM List Option

/-! ## Shown signatures are valid -/

namespace Ctx

variable {c : Ctx} {k : Keys}

theorem formed_tys (hc : c.Interned k) {xs : List TyId} {us : List PTy}
    (h : xs.mapM c.ty = some us) : ∀ t ∈ us, Formed t := by
  intro t ht
  obtain ⟨x, -, hx⟩ := exists_of_mem_mapM h ht
  exact formed_ty hc hx

/-- The types of a list of parts. -/
theorem formed_parts {ι κ : Type} {view : ι → Option κ} {tys : κ → List PTy} {xs : List ι}
    {ys : List κ} (h : xs.mapM view = some ys)
    (hpart : ∀ {x y}, view x = some y → ∀ t ∈ tys y, Formed t) :
    ∀ t ∈ ys.flatMap tys, Formed t := by
  intro t ht
  obtain ⟨y, hy, ht⟩ := mem_flatMap.mp ht
  obtain ⟨x, -, hx⟩ := exists_of_mem_mapM h hy
  exact hpart hx t ht

theorem formed_trait_ref (hc : c.Interned k) {tr : TraitRefId} {r : PTraitRef}
    (h : c.trait_ref tr = some r) : ∀ t ∈ r.args, Formed t := by
  obtain ⟨td, args, xs, -, -, hus, -⟩ := trait_ref_eq_some h
  exact formed_tys hc hus

theorem formed_bounds (hc : c.Interned k) {list : TraitRefListId} {bs : List PTraitRef}
    (h : c.bounds list = some bs) : ∀ t ∈ bounds_tys bs, Formed t := by
  obtain ⟨xs, -, hbs⟩ := bind_eq_some_iff.mp h
  exact formed_parts hbs fun hr => formed_trait_ref hc hr

theorem formed_optional (hc : c.Interned k) {t : TyId} {T : Option PTy}
    (h : c.optional_ty t = some T) : ∀ u ∈ T.toList, Formed u := by
  obtain ⟨-, rfl⟩ | ⟨-, u, rfl, hu⟩ := optional_ty_cases h
  · exact fun _ h => nomatch h
  · exact forall_mem_singleton.mpr (formed_ty hc hu)

theorem formed_gparam_kind (hc : c.Interned k) : ∀ (kind : GParamKind) {y : PKind},
    c.gparam_kind kind = some y → ∀ t ∈ y.tys, Formed t
  | .Type, y, h | .Brand, y, h => by
    cases h
    exact fun _ h => nomatch h
  | .Const ty, y, h | .Callable ty, y, h => by
    obtain ⟨T, hT, rfl⟩ := map_eq_some_iff.mp h
    exact forall_mem_singleton.mpr (formed_ty hc hT)

theorem formed_gparam (hc : c.Interned k) {p : GParam} {y : PGParam} (h : c.gparam p = some y) :
    ∀ t ∈ y.tys, Formed t := by
  obtain ⟨kind, hkind, h⟩ := bind_eq_some_iff.mp h
  obtain ⟨bounds, hbounds, h⟩ := bind_eq_some_iff.mp h
  cases h
  exact forall_mem_append.mpr ⟨formed_gparam_kind hc p.kind hkind, formed_bounds hc hbounds⟩

theorem formed_constraint_entry (hc : c.Interned k) {e : TyId × TraitRefListId} {y : PConstraint}
    (h : c.constraint e = some y) : ∀ t ∈ y.tys, Formed t := by
  obtain ⟨subject, hsubject, h⟩ := bind_eq_some_iff.mp h
  obtain ⟨bounds, hbounds, h⟩ := bind_eq_some_iff.mp h
  cases h
  exact forall_mem_cons.mpr ⟨formed_ty hc hsubject, formed_bounds hc hbounds⟩

theorem formed_fn (hc : c.Interned k) {id : FnSigId} {y : Option PFn}
    (h : c.fn_sig id = some y) : ∀ t ∈ (Detail.fn y).tys, Formed t := by
  rw [fn_sig] at h
  by_cases hno : id = NO_FN_SIG
  · rw [if_pos hno] at h
    cases h
    exact fun _ h => by cases h
  · rw [if_neg hno] at h
    obtain ⟨f, -, h⟩ := bind_eq_some_iff.mp h
    obtain ⟨params, hparams, h⟩ := bind_eq_some_iff.mp h
    obtain ⟨result, hresult, h⟩ := bind_eq_some_iff.mp h
    obtain ⟨raises, hraises, h⟩ := bind_eq_some_iff.mp h
    cases h
    refine forall_mem_append.mpr ⟨?_, forall_mem_cons.mpr
      ⟨formed_ty hc hresult, formed_optional hc hraises⟩⟩
    refine forall_mem_map.mpr fun p hp => ?_
    obtain ⟨x, -, hx⟩ := exists_of_mem_mapM hparams hp
    obtain ⟨name, -, hx⟩ := bind_eq_some_iff.mp hx
    obtain ⟨T, hT, hx⟩ := bind_eq_some_iff.mp hx
    cases hx
    exact formed_ty hc hT

theorem formed_fields (hc : c.Interned k) {list : MemberListId} {ys : List PField}
    (h : c.fields list = some ys) : ∀ t ∈ ys.map PField.ty, Formed t := by
  obtain ⟨ms, -, hys⟩ := bind_eq_some_iff.mp h
  refine forall_mem_map.mpr fun f hf => ?_
  obtain ⟨m, -, hm⟩ := exists_of_mem_mapM hys hf
  obtain ⟨name, -, hm⟩ := bind_eq_some_iff.mp hm
  obtain ⟨T, hT, hm⟩ := bind_eq_some_iff.mp hm
  cases hm
  exact formed_ty hc hT

theorem formed_payload (hc : c.Interned k) {m : Member} {y : PPayload}
    (h : c.payload m = some y) : ∀ t ∈ y.tys, Formed t := by
  rw [payload] at h
  cases hk : m.payload with
  | None =>
    rw [hk] at h
    cases h
    exact fun _ h => by cases h
  | Tuple =>
    rw [hk] at h
    obtain ⟨xs, -, h⟩ := bind_eq_some_iff.mp h
    obtain ⟨us, hus, h⟩ := bind_eq_some_iff.mp h
    cases h
    exact formed_tys hc hus
  | Record =>
    rw [hk] at h
    obtain ⟨fs, hfs, rfl⟩ := map_eq_some_iff.mp h
    exact formed_fields hc hfs

theorem formed_variants (hc : c.Interned k) {list : MemberListId} {ys : List PVariant}
    (h : c.variants list = some ys) : ∀ t ∈ (Detail.variants ys).tys, Formed t := by
  obtain ⟨ms, -, hys⟩ := bind_eq_some_iff.mp h
  refine formed_parts hys fun hv => ?_
  obtain ⟨name, -, hv⟩ := bind_eq_some_iff.mp hv
  obtain ⟨p, hp, hv⟩ := bind_eq_some_iff.mp hv
  cases hv
  exact formed_payload hc hp

theorem formed_assocs {α : Type} {what : Assoc → Option α} {M : α → List PTy}
    {list : AssocListId} {ys : List (PAssoc α)} (h : c.assocs what list = some ys)
    (hwhat : ∀ {e a}, what e = some a → ∀ t ∈ M a, Formed t) :
    ∀ t ∈ ys.flatMap fun e => M e.what, Formed t := by
  obtain ⟨es, -, hys⟩ := bind_eq_some_iff.mp h
  refine formed_parts hys fun he => ?_
  obtain ⟨name, -, he⟩ := bind_eq_some_iff.mp he
  obtain ⟨a, ha, he⟩ := bind_eq_some_iff.mp he
  cases he
  exact hwhat ha

theorem formed_detail (hc : c.Interned k) {row : SigRow} {d : Detail}
    (h : c.detail row = some d) : ∀ t ∈ d.tys, Formed t := by
  rw [detail] at h
  cases hk : row.kind with
  | Fn | ExternFn =>
    rw [hk] at h
    obtain ⟨f, hf, rfl⟩ := map_eq_some_iff.mp h
    exact formed_fn hc hf
  | Struct =>
    rw [hk] at h
    obtain ⟨fs, hfs, rfl⟩ := map_eq_some_iff.mp h
    exact formed_fields hc hfs
  | Enum =>
    rw [hk] at h
    obtain ⟨vs, hvs, rfl⟩ := map_eq_some_iff.mp h
    exact formed_variants hc hvs
  | Trait =>
    rw [hk] at h
    obtain ⟨as, has, h⟩ := bind_eq_some_iff.mp h
    obtain ⟨is, -, h⟩ := bind_eq_some_iff.mp h
    cases h
    exact formed_assocs has fun hb => formed_bounds hc hb
  | Impl =>
    rw [hk] at h
    obtain ⟨st, hst, h⟩ := bind_eq_some_iff.mp h
    obtain ⟨tr, htr, h⟩ := bind_eq_some_iff.mp h
    obtain ⟨as, has, h⟩ := bind_eq_some_iff.mp h
    obtain ⟨is, -, h⟩ := bind_eq_some_iff.mp h
    cases h
    refine forall_mem_append.mpr ⟨forall_mem_append.mpr
      ⟨formed_optional hc hst, ?_⟩, ?_⟩
    · rw [impl_trait_ref] at htr
      by_cases hno : row.trait_ref = NO_TRAIT_REF
      · rw [if_pos hno] at htr
        cases htr
        exact fun _ h => by cases h
      · rw [if_neg hno] at htr
        obtain ⟨r, hr, rfl⟩ := map_eq_some_iff.mp htr
        exact formed_trait_ref hc hr
    · have hassocs := formed_assocs (M := fun t => [t]) has fun ht =>
        forall_mem_singleton.mpr (formed_ty hc ht)
      rwa [← map_eq_flatMap] at hassocs
  | Const =>
    rw [hk] at h
    obtain ⟨T, hT, h⟩ := bind_eq_some_iff.mp h
    obtain ⟨v, -, h⟩ := bind_eq_some_iff.mp h
    cases h
    exact formed_optional hc hT
  | Poisoned | Absent =>
    rw [hk] at h
    cases h
    exact fun _ h => by cases h

theorem valid_sig (hc : c.Interned k) {d : DefId} {S : PSig} (h : c.sig d = some S) :
    S.Valid := by
  obtain ⟨row, g, list, -, -, hgs, -, hcs, hd, -, -⟩ := sig_eq_some h
  refine ⟨?_, ?_⟩
  · exact forall_mem_append.mpr ⟨forall_mem_append.mpr
      ⟨formed_parts hgs fun hp => formed_gparam hc hp,
        formed_parts hcs fun he => formed_constraint_entry hc he⟩, formed_detail hc hd⟩
  · intro e he e' he' hperm
    obtain ⟨x, -, hx⟩ := exists_of_mem_mapM hcs he
    obtain ⟨x', -, hx'⟩ := exists_of_mem_mapM hcs he'
    obtain ⟨_, -, hx⟩ := bind_eq_some_iff.mp hx
    obtain ⟨_, hbounds, hx⟩ := bind_eq_some_iff.mp hx
    obtain ⟨_, -, hx'⟩ := bind_eq_some_iff.mp hx'
    obtain ⟨_, hbounds', hx'⟩ := bind_eq_some_iff.mp hx'
    cases hx
    cases hx'
    exact bounds_perm hc hbounds hbounds' hperm

end Ctx

/-! ## Arranging keeps the types -/

variable {t : PTy}

theorem mem_sort_bounds {bs : List PTraitRef} :
    t ∈ bounds_tys (sort_bounds bs) ↔ t ∈ bounds_tys bs := by
  simp only [bounds_tys, mem_flatMap, sort_bounds, mem_sort_by]

theorem mem_arrange_assocs {α : Type} {f : α → α} {M : α → List PTy}
    (hf : ∀ a, ∀ t ∈ M (f a), t ∈ M a) {xs : List (PAssoc α)}
    (ht : t ∈ (arrange_assocs f xs).flatMap fun e => M e.what) :
    t ∈ xs.flatMap fun e => M e.what := by
  obtain ⟨e, he, ht⟩ := mem_flatMap.mp ht
  obtain ⟨e0, he0, rfl⟩ := mem_map.mp he
  exact mem_flatMap.mpr ⟨e0, mem_sort_by.mp he0, hf _ t ht⟩

theorem mem_arrange_detail {d : Detail} (ht : t ∈ d.arrange.tys) : t ∈ d.tys := by
  cases d with
  | trait_ assocs items =>
    exact mem_arrange_assocs (M := bounds_tys) (fun _ _ ht => mem_sort_bounds.mp ht) ht
  | impl st tr assocs items =>
    refine (mem_append.mp ht).elim (mem_append_left _) fun ht => ?_
    rw [map_eq_flatMap] at ht
    refine mem_append_right _ ?_
    rw [map_eq_flatMap]
    exact mem_arrange_assocs (M := fun t => [t]) (fun _ _ ht => ht) ht
  | fn | fields | variants | const | bare => exact ht

variable {S : PSig}

theorem mem_arrange_tys (ht : t ∈ S.arrange.tys) : t ∈ S.tys := by
  obtain ht | ht := mem_append.mp ht
  · refine mem_append_left _ ?_
    obtain ht | ht := mem_append.mp ht
    · obtain ⟨p, hp, ht⟩ := mem_flatMap.mp ht
      obtain ⟨p0, hp0, rfl⟩ := mem_map.mp hp
      refine mem_append_left _ (mem_flatMap.mpr ⟨p0, hp0, ?_⟩)
      exact mem_append.mpr ((mem_append.mp ht).imp id mem_sort_bounds.mp)
    · obtain ⟨e, he, ht⟩ := mem_flatMap.mp ht
      obtain ⟨e0, he0, rfl⟩ := mem_map.mp he
      refine mem_append_right _ (mem_flatMap.mpr ⟨e0, mem_sort_by.mp he0, ?_⟩)
      exact mem_cons.mpr ((mem_cons.mp ht).imp id mem_sort_bounds.mp)
  · exact mem_append_right _ (mem_arrange_detail ht)

theorem alike_arrange {d d' : Detail} (h : d.Same d') : d.arrange.Alike d'.arrange := by
  cases d <;> cases d' <;> simp only [Detail.Same, reduceCtorEq] at h
  case trait_.trait_ | bare.bare => trivial
  case impl.impl => exact congrArg Option.isSome h.1
  case fn.fn => exact congrArg Option.isSome (Detail.fn.inj h)
  case fields.fields | variants.variants => trivial
  case const.const => exact congrArg Option.isSome (Detail.const.inj h).1

/-- Two signatures that are the same have one wire form exactly when they agree. -/
theorem wire_eq_iff {T : PSig} (hS : S.Valid) (hT : T.Valid) (hsame : S.Same T) :
    S.arrange.wire = T.arrange.wire ↔ S.Agree T := by
  rw [← arrange_eq_iff hS hT hsame]
  constructor
  · exact wire_inj (alike_arrange hsame.detail) (fun t ht => hS.formed t (mem_arrange_tys ht))
      fun t ht => hT.formed t (mem_arrange_tys ht)
  · exact congrArg PSig.wire

/-! ## Two builds -/

theorem valid_signature {k : Keys} {b : Build} {d : DefId} (h : b.Inv k)
    (hS : signature b.fir b.names d = some S) : S.Valid := by
  obtain ⟨c, hc, hsig⟩ := bind_eq_some_iff.mp hS
  obtain ⟨_, -, hc⟩ := bind_eq_some_iff.mp hc
  cases hc
  exact Ctx.valid_sig (interned_of_inv h rfl rfl) hsig

/-- Declarations with the same signature, in any two builds, have the same canonical bytes, and
with them the same hash, whatever buffers were used before, exactly when the signatures agree. -/
theorem encode_sig_canonical {k1 k2 : Keys} {ops1 ops2 : List Op} {b1 b2 : Build}
    {d1 d2 : DefId} {S1 S2 : PSig} (h1 : Build.Reached k1 ops1 b1) (h2 : Build.Reached k2 ops2 b2)
    (hshort1 : ∀ op ∈ ops1, op.Short) (hshort2 : ∀ op ∈ ops2, op.Short) (hfit1 : b1.Fits)
    (hfit2 : b2.Fits) (hS1 : signature b1.fir b1.names d1 = some S1)
    (hS2 : signature b2.fir b2.names d2 = some S2) (hsame : S1.Same S2) :
    (∃ bytes, encode_sig b1.fir b1.names d1 FINGERPRINT_POLICY = some bytes ∧
        encode_sig b2.fir b2.names d2 FINGERPRINT_POLICY = some bytes ∧
        sig_hash b1.fir b1.names d1 = sig_hash b2.fir b2.names d2 ∧
        ∀ scratch,
          (encode_sig_into b1.fir b1.names d1 FINGERPRINT_POLICY scratch).map Prod.snd =
              some bytes ∧
            (encode_sig_into b2.fir b2.names d2 FINGERPRINT_POLICY scratch).map Prod.snd =
              some bytes) ↔
      S1.Agree S2 := by
  have hinv1 := h1.inv hshort1 hfit1
  have hinv2 := h2.inv hshort2 hfit2
  have hencode1 := encode_sig_eq hinv1 hS1
  have hencode2 := encode_sig_eq hinv2 hS2
  rw [← wire_eq_iff (valid_signature hinv1 hS1) (valid_signature hinv2 hS2) hsame]
  constructor
  · rintro ⟨bytes, hb1, hb2, -, -⟩
    exact some.inj ((hencode1.symm.trans hb1).trans (hb2.symm.trans hencode2))
  · intro hwire
    refine ⟨_, hencode1, hwire ▸ hencode2, ?_, fun scratch => ⟨?_, ?_⟩⟩
    · rw [sig_hash, sig_hash, hencode1, hencode2, hwire]
    · obtain ⟨scratch', hrun⟩ := encode_sig_into_eq hinv1 hS1 scratch
      rw [hrun]
      rfl
    · obtain ⟨scratch', hrun⟩ := encode_sig_into_eq hinv2 hS2 scratch
      rw [hrun, hwire]
      rfl

/-! ## A function with two entries on one subject

`fn f[T]() where T: A + C, T: B`, in builds that come upon the traits in different orders. -/

/-- The names and keys of `f`, `A`, `B` and `C`, and the type `T`. -/
def where_start : List Op :=
  [.name [102], .name [65], .name [66], .name [67], .name [84],
    .key ⟨NO_DECL_KEY, 0, .Fn, some 0, 0⟩, .key ⟨NO_DECL_KEY, 0, .Trait, some 1, 0⟩,
    .key ⟨NO_DECL_KEY, 0, .Trait, some 2, 0⟩, .key ⟨NO_DECL_KEY, 0, .Trait, some 3, 0⟩,
    .declare 0 .Fn, .declare 1 .Trait, .declare 2 .Trait, .declare 3 .Trait, .ty (.param 0 0)]

/-- The references to the traits in the order `traits`, which gives them the ids `a`, `b`, `c`. -/
def where_ops (traits : List DefId) (a b c : TraitRefId) : List Op :=
  where_start ++ (traits.map fun d => .ty (.intern_trait_ref d NO_ARGS)) ++
    [.bounds [a, c], .bounds [b], .constraints [(3, 1), (3, 2)],
      .generics [⟨4, .Type, NO_BOUNDS⟩] 1, .set_generics 0 1,
      .fn_sig ⟨[], TY_UNIT, NO_TY, NO_SLOT, NO_SLOT, 0⟩, .set_fn_sig 0 0]

/-- A trait at the root, by its name. -/
def where_trait (name : UInt8) : PTraitRef :=
  ⟨[⟨[], .Trait, some [name], 0⟩], []⟩

def where_entry (bounds : List PTraitRef) : PConstraint :=
  ⟨.node ⟨.Param .own 0, .NONE⟩ [], bounds⟩

/-- The function's signature, with the first entry's bounds as they are stored. -/
def where_sig (bounds : List PTraitRef) : PSig :=
  ⟨.Fn, 0, [⟨.Type, []⟩], [where_entry bounds, where_entry [where_trait 66]],
    .fn (some ⟨[], .node ⟨.Unit, .NONE⟩ [], none, NO_SLOT, NO_SLOT, 0⟩)⟩

theorem where_short (traits : List DefId) (a b c : TraitRefId) :
    ∀ op ∈ where_ops traits a b c, op.Short := by
  refine forall_mem_append.mpr ⟨forall_mem_append.mpr ⟨?_, ?_⟩, ?_⟩
  · simp [where_start, Op.Short]
  · exact forall_mem_map.mpr fun _ _ => trivial
  · simp [Op.Short]

/-- A build of a few rows that shows `S` for its first declaration. -/
def shows_small (S : PSig) (b : Build) : Bool :=
  decide (Ty.sizes b.fir.tys = ((4, 0, 1), (3, 0, 0), 0, 0, 0)) &&
    decide (b.fir.sigs.rows.length = 4) && decide (signature b.fir b.names 0 = some S)

theorem reached_of_shown {k : Keys} {ops : List Op}
    (h : ((Build.new k).bind (Build.run k ops)).any (shows_small S)) :
    ∃ b, Build.Reached k ops b ∧ b.Fits ∧ signature b.fir b.names 0 = some S := by
  obtain ⟨b, hb, hshows⟩ : ∃ b, (Build.new k).bind (Build.run k ops) = some b ∧
      shows_small S b = true := by
    cases hb : (Build.new k).bind (Build.run k ops) with
    | none =>
      rw [hb] at h
      exact nomatch h
    | some b =>
      rw [hb] at h
      exact ⟨b, rfl, h⟩
  obtain ⟨b0, hnew, hrun⟩ := bind_eq_some_iff.mp hb
  simp only [shows_small, Bool.and_eq_true, decide_eq_true_eq] at hshows
  obtain ⟨⟨hsizes, hrows⟩, hsig⟩ := hshows
  refine ⟨b, ⟨b0, hnew, hrun⟩, ⟨?_, ?_⟩, hsig⟩
  · simp only [Ty.sizes, Prod.mk.injEq, and_assoc] at hsizes
    obtain ⟨hrows, hargs, hindex, htr, hpk, hparams, hfn, hbrands, hconsts⟩ := hsizes
    have hempty : EMPTY = 2 ^ 32 - 1 := rfl
    constructor <;> omega
  · rw [hrows]
    decide

theorem where_in_order : ∃ b, Build.Reached TyStore.colliding (where_ops [1, 2, 3] 0 1 2) b ∧
    b.Fits ∧ signature b.fir b.names 0 = some (where_sig [where_trait 65, where_trait 67]) :=
  reached_of_shown (by decide +kernel)

/-- A build that comes upon `B` first stores the bounds in the same order. -/
theorem where_b_first : ∃ b, Build.Reached TyStore.colliding (where_ops [2, 1, 3] 1 0 2) b ∧
    b.Fits ∧ signature b.fir b.names 0 = some (where_sig [where_trait 65, where_trait 67]) :=
  reached_of_shown (by decide +kernel)

/-- A build that comes upon `C` before `A` stores `C` first. -/
theorem where_reversed : ∃ b, Build.Reached TyStore.colliding (where_ops [3, 2, 1] 2 1 0) b ∧
    b.Fits ∧ signature b.fir b.names 0 = some (where_sig [where_trait 67, where_trait 65]) :=
  reached_of_shown (by decide +kernel)

theorem where_same {bs bs' : List PTraitRef} (h : bs.Perm bs') :
    (where_sig bs).Same (where_sig bs') where
  kind := rfl
  flags := rfl
  generics := .cons ⟨rfl, .nil⟩ .nil
  constraints := ⟨(where_sig bs').constraints, .cons ⟨rfl, h⟩ (.cons ⟨rfl, .refl _⟩ .nil), .refl _⟩
  detail := rfl

theorem where_trait_canon (name : UInt8) :
    (where_trait name).canon = [0, 0, 0, 4, 1, 1, name, 0, 0] := by
  have hzero : uleb 0 = [0] := uleb_eq 0
  have hone : uleb 1 = [1] := uleb_eq 1
  simp [PTraitRef.canon, PTraitRef.bytes, where_trait, visits, ty_section, path_bytes,
    Segment.bytes, write_bytes, Ctx.list_refs, hzero, hone, DeclKind.as_u8, DeclKind.ctorIdx]

theorem where_key (bs : List UInt8) : (where_entry (bs.map where_trait)).bounds_key =
    bs.flatMap fun name => [0, 0, 0, 4, 1, 1, name.toNat, 0, 0] := by
  rw [PConstraint.bounds_key, where_entry, flatMap_map, cmp_key, map_flatMap]
  refine flatMap_congr fun name _ => ?_
  rw [where_trait_canon]
  rfl

/-- The bytes differ, though the signatures are the same: `B` lies between `A` and `C` by its
canonical bytes, and the entry with `A` and `C` is sorted by the one that is stored first. -/
theorem encode_sig_order : ∃ b1 b2,
    Build.Reached TyStore.colliding (where_ops [1, 2, 3] 0 1 2) b1 ∧
    Build.Reached TyStore.colliding (where_ops [3, 2, 1] 2 1 0) b2 ∧
    ∃ S1 S2, signature b1.fir b1.names 0 = some S1 ∧ signature b2.fir b2.names 0 = some S2 ∧
      S1.Same S2 ∧ encode_sig b1.fir b1.names 0 FINGERPRINT_POLICY ≠
        encode_sig b2.fir b2.names 0 FINGERPRINT_POLICY := by
  obtain ⟨b1, h1, hfit1, hS1⟩ := where_in_order
  obtain ⟨b2, h2, hfit2, hS2⟩ := where_reversed
  have hinv1 := h1.inv (where_short _ _ _ _) hfit1
  have hinv2 := h2.inv (where_short _ _ _ _) hfit2
  have hsame := where_same (Perm.swap (where_trait 67) (where_trait 65) [])
  refine ⟨b1, b2, h1, h2, _, _, hS1, hS2, hsame, fun heq => ?_⟩
  rw [encode_sig_eq hinv1 hS1, encode_sig_eq hinv2 hS2] at heq
  have hagree := (wire_eq_iff (valid_signature hinv1 hS1) (valid_signature hinv2 hS2) hsame).mp
    (some.inj heq)
  have hboth := hagree.constraints _ mem_cons_self _ (mem_cons_of_mem _ mem_cons_self)
    _ mem_cons_self _ (mem_cons_of_mem _ mem_cons_self)
    ⟨rfl, Perm.swap _ _ _⟩ ⟨rfl, .refl _⟩ rfl
  have hac := where_key [65, 67]
  have hca := where_key [67, 65]
  have hb := where_key [66]
  simp only [map_cons, map_nil] at hac hca hb
  rw [hac, hca, hb] at hboth
  exact absurd hboth (by decide)

/-- With `B` first the two builds agree. -/
theorem encode_sig_canonical_where : ∃ b1 b2,
    Build.Reached TyStore.colliding (where_ops [1, 2, 3] 0 1 2) b1 ∧
    Build.Reached TyStore.colliding (where_ops [2, 1, 3] 1 0 2) b2 ∧ ∃ bytes,
      encode_sig b1.fir b1.names 0 FINGERPRINT_POLICY = some bytes ∧
      encode_sig b2.fir b2.names 0 FINGERPRINT_POLICY = some bytes := by
  obtain ⟨b1, h1, hfit1, hS1⟩ := where_in_order
  obtain ⟨b2, h2, hfit2, hS2⟩ := where_b_first
  have hvalid := valid_signature (h1.inv (where_short _ _ _ _) hfit1) hS1
  have hsame := where_same (Perm.refl [where_trait 65, where_trait 67])
  obtain ⟨bytes, hbytes1, hbytes2, -⟩ := (encode_sig_canonical h1 h2 (where_short _ _ _ _)
    (where_short _ _ _ _) hfit1 hfit2 hS1 hS2 hsame).mpr
    ((arrange_eq_iff hvalid hvalid hsame).mp rfl)
  exact ⟨b1, b2, h1, h2, bytes, hbytes1, hbytes2⟩

end Fors.Sigs
