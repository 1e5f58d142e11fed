import Fors.Lib.Sorting
import Fors.Sigs.Emits

/-!
# The bytes of a signature

The encoder writes the wire form of what the tables show, arranged in the order of emission:
whatever the ids, the scratch buffers and the rest of the tables are.

Principal result: `encode_sig_into_eq`.
-/

namespace Fors.Sigs

open Option hiding bind_assoc pure_def
open Fors.Ty Trees Sorting MapM List

theorem length_sort_by {α : Type} (key : α → Bytes) (xs : List α) :
    (sort_by key xs).length = xs.length :=
  length_insertionSort _ xs

theorem mem_sort_by {α : Type} {key : α → Bytes} {xs : List α} {x : α} :
    x ∈ sort_by key xs ↔ x ∈ xs :=
  mem_insertionSort _

/-- Entries sorted by a key of their own show the entries sorted by the key they show. -/
theorem sorted_shows {ι κ : Type} {view : ι → Option κ} {F : ι → Option Bytes} {K : κ → Bytes}
    {xs : List ι} {ys : List κ} (hview : xs.mapM view = some ys)
    (hkey : ∀ {x y}, view x = some y → F x = some (K y)) :
    ∃ entries, Ctx.keyed_all F xs = some entries ∧ entries.length = ys.length ∧
      ((sort_by Prod.fst entries).map Prod.snd).mapM view = some (sort_by K ys) := by
  have hentries : ∃ entries, Ctx.keyed_all F xs = some entries ∧
      List.Forall₂ (fun p y => p.1 = K y ∧ view p.2 = some y) entries ys := by
    have hall := mapM_eq_some.mp hview
    induction hall with
    | nil => exact ⟨[], rfl, .nil⟩
    | cons hxy hrest ih =>
      obtain ⟨entries, hentries, hshow⟩ := ih (mapM_eq_some.mpr hrest)
      refine ⟨(K _, _) :: entries, mapM_cons_eq_some.mpr ⟨_, _, rfl, ?_, hentries⟩,
        .cons ⟨rfl, hxy⟩ hshow⟩
      rw [Ctx.keyed, hkey hxy]
      rfl
  obtain ⟨entries, hentries, hshow⟩ := hentries
  refine ⟨entries, hentries, hshow.length_eq, mapM_eq_some.mpr ?_⟩
  rw [List.forall₂_map_left_iff]
  refine (forall₂_insertionSort hshow fun hx hx' => ?_).imp fun p y h => h.2
  rw [hx.1, hx'.1]

theorem sort_on : FINGERPRINT_POLICY.sort_bound_lists = true := rfl

namespace Ctx

variable {c : Ctx} {k : Keys}

/-- The parts of a list that shows. -/
theorem emits_parts {ι κ : Type} {f : ι → EncM Unit} {view : ι → Option κ}
    {M : κ → List PTy} {B : κ → List PTy → Bytes} {xs : List ι} {ys : List κ}
    (hview : xs.mapM view = some ys)
    (h : ∀ {x y}, view x = some y → Emits c (f x) (M y) (fun _ => ()) (B y)) :
    Emits c (xs.forM f) (ys.flatMap M) (fun _ => ()) fun L => ys.flatMap fun y => B y L :=
  .forM ((mapM_eq_some.mp hview).imp fun _ _ hxy => h hxy)

/-- A list with its length in front. -/
theorem emits_counted {ι κ : Type} {f : ι → EncM Unit} {view : ι → Option κ}
    {M : κ → List PTy} {B : List PTy → κ → Bytes} {xs : List ι} {ys : List κ} {n : Nat}
    (hn : n = ys.length) (hview : xs.mapM view = some ys)
    (h : ∀ {x y}, view x = some y → Emits c (f x) (M y) (fun _ => ()) fun L => B L y) :
    Emits c (do write (uleb n); xs.forM f) (ys.flatMap M) (fun _ => ())
      fun L => counted (B L) ys := by
  subst hn
  exact (emits_parts (B := fun y L => B L y) hview h).after_write _

theorem emits_bounds (hc : c.Interned k) (hp : c.policy = FINGERPRINT_POLICY)
    {list : TraitRefListId} {ys : List PTraitRef} (h : c.bounds list = some ys) :
    Emits c (c.bound_list_bytes list) (bounds_tys (sort_bounds ys))
      (fun L => bounds_bytes L (sort_bounds ys)) fun _ => [] := by
  obtain ⟨bounds, hbounds, hys⟩ := bind_eq_some_iff.mp h
  obtain ⟨entries, hentries, hlen, hsorted⟩ := sorted_shows hys (canon_trait_ref_eq hc)
  simp only [bound_list_bytes, hbounds, hentries, lift_some]
  have harrange : c.arrange entries = (sort_by Prod.fst entries).map Prod.snd := by
    rw [arrange, hp, sort_on, if_pos rfl]
  rw [harrange]
  have hall : List.Forall₂ (fun tr r =>
      Emits c (c.trait_ref_bytes tr) r.args (fun L => r.bytes L) fun _ => [])
      ((sort_by Prod.fst entries).map Prod.snd) (sort_bounds ys) :=
    (mapM_eq_some.mp hsorted).imp fun _ _ hr => emits_trait_ref hc hr
  refine ((Emits.mapM (M := PTraitRef.args) hall).map
    fun chunks => uleb entries.length ++ chunks.flatten).congr rfl (fun L => ?_) fun L => ?_
  · rw [bounds_bytes, hlen, sort_bounds, length_sort_by, List.flatMap]
  · simp

/-! ## Generics -/

theorem emits_gparam_kind (hc : c.Interned k) : ∀ (kind : GParamKind) {y : PKind},
    c.gparam_kind kind = some y → kind.tag = y.tag ∧
      Emits c (c.gparam_ty kind) y.tys (fun L => y.bytes L) fun _ => []
  | .Type, y, h | .Brand, y, h => by
    cases h
    exact ⟨rfl, .pure []⟩
  | .Const ty, y, h | .Callable ty, y, h => by
    obtain ⟨T, hT, rfl⟩ := map_eq_some_iff.mp h
    refine ⟨rfl, ((emits_ty hc hT).map uleb).congr rfl (fun L => ?_) fun _ => rfl⟩
    exact (append_nil _).symm

theorem emits_gparam (hc : c.Interned k) (hp : c.policy = FINGERPRINT_POLICY) {p : GParam}
    {y : PGParam} (h : c.gparam p = some y) :
    Emits c (c.encode_gparam p) y.arrange.tys (fun _ => ()) fun L => y.arrange.bytes L := by
  obtain ⟨kind, hkind, h⟩ := bind_eq_some_iff.mp h
  obtain ⟨bounds, hbounds, h⟩ := bind_eq_some_iff.mp h
  cases h
  have hname : c.gparam_name p = pure [] := by
    rw [gparam_name, hp]
    rfl
  obtain ⟨htag, hty⟩ := emits_gparam_kind hc p.kind hkind
  rw [encode_gparam, hname]
  refine (hty.bind fun ty => (emits_bounds hc hp hbounds).then_write fun bounds =>
    p.kind.tag :: ty ++ [] ++ bounds).congr rfl (fun _ => rfl) fun L => ?_
  simp [PGParam.bytes, PGParam.arrange, htag]

theorem constraint_key_eq (hc : c.Interned k) {e : TyId × TraitRefListId} {y : PConstraint}
    (h : c.constraint e = some y) : c.constraint_key e = some y.key := by
  obtain ⟨subject, hsubject, h⟩ := bind_eq_some_iff.mp h
  obtain ⟨bounds, hbounds, h⟩ := bind_eq_some_iff.mp h
  cases h
  obtain ⟨list, hlist, hbounds⟩ := bind_eq_some_iff.mp hbounds
  have hkeys : list.mapM c.canon_trait_ref = some (bounds.map PTraitRef.canon) := by
    rw [mapM_eq_some, List.forall₂_map_right_iff]
    exact (mapM_eq_some.mp hbounds).imp fun _ _ hr => canon_trait_ref_eq hc hr
  simp only [constraint_key, canon_ty_eq hc hsubject, hlist, hkeys, bind_eq_bind,
    bind_some, Option.pure_def, PConstraint.key, List.flatMap]

theorem emits_constraint (hc : c.Interned k) (hp : c.policy = FINGERPRINT_POLICY)
    {e : TyId × TraitRefListId} {y : PConstraint} (h : c.constraint e = some y) :
    Emits c (c.encode_constraint e) y.arrange.tys (fun _ => ()) fun L => y.arrange.bytes L := by
  obtain ⟨subject, hsubject, h⟩ := bind_eq_some_iff.mp h
  obtain ⟨bounds, hbounds, h⟩ := bind_eq_some_iff.mp h
  cases h
  refine ((emits_ty hc hsubject).bind fun r => ((emits_bounds hc hp hbounds).then_write
    fun b => b).after_write (uleb r)).congr rfl (fun _ => rfl) fun L => ?_
  simp [PConstraint.bytes, PConstraint.arrange, ref_bytes]

/-! ## Functions -/

theorem emits_param (hc : c.Interned k) {p : Param} {y : PParam} (h : c.param p = some y) :
    Emits c (c.encode_param p) [y.ty] (fun _ => ()) fun L => y.bytes L := by
  obtain ⟨name, hname, h⟩ := bind_eq_some_iff.mp h
  obtain ⟨T, hT, h⟩ := bind_eq_some_iff.mp h
  cases h
  simp only [encode_param, hname, lift_some]
  exact ((emits_ty hc hT).then_write _).congr rfl (fun _ => rfl) fun _ => rfl

variable {t : TyId} {T : Option PTy}

theorem optional_ty_cases (h : c.optional_ty t = some T) :
    (t = NO_TY ∧ T = none) ∨ (t ≠ NO_TY ∧ ∃ u, T = some u ∧ c.ty t = some u) := by
  rw [optional_ty] at h
  by_cases hno : t = NO_TY
  · rw [if_pos hno] at h
    exact .inl ⟨hno, (some.inj h).symm⟩
  · rw [if_neg hno] at h
    obtain ⟨u, hu, rfl⟩ := map_eq_some_iff.mp h
    exact .inr ⟨hno, u, rfl, hu⟩

theorem emits_raises (hc : c.Interned k) (h : c.optional_ty t = some T) :
    Emits c (c.encode_raises t) T.toList (fun _ => ())
      fun L => T.elim [0] fun u => 1 :: ref_bytes L u := by
  rw [encode_raises]
  obtain ⟨hno, rfl⟩ | ⟨hno, u, rfl, hu⟩ := optional_ty_cases h
  · rw [if_pos hno]
    exact .write [0]
  · rw [if_neg hno]
    exact ((emits_ty hc hu).then_write _).congr rfl (fun _ => rfl) fun _ => rfl

variable {row : SigRow}

theorem emits_fn (hc : c.Interned k) {y : Option PFn} (h : c.fn_sig row.fn_sig = some y) :
    Emits c (c.encode_fn row) (Detail.fn y).tys (fun _ => ()) fun L => (Detail.fn y).bytes L := by
  rw [fn_sig] at h
  rw [encode_fn]
  by_cases hno : row.fn_sig = NO_FN_SIG
  · rw [if_pos hno] at h ⊢
    cases h
    exact .write _
  · rw [if_neg hno] at h ⊢
    obtain ⟨f, hf, h⟩ := bind_eq_some_iff.mp h
    obtain ⟨params, hparams, h⟩ := bind_eq_some_iff.mp h
    obtain ⟨result, hresult, h⟩ := bind_eq_some_iff.mp h
    obtain ⟨raises, hraises, h⟩ := bind_eq_some_iff.mp h
    cases h
    simp only [hf, lift_some]
    have hps := emits_counted (B := PParam.bytes) (M := fun p => [p.ty])
      (length_of_mapM hparams).symm hparams fun hp => emits_param hc hp
    have hrest := (emits_ty hc hresult).bind fun r =>
      ((emits_raises hc hraises).seq (.write ([f.scoped_, f.receiver] ++
        write_u128 f.contract_hash))).after_write (uleb r)
    refine (hps.seq hrest).congr ?_ (fun _ => rfl) fun L => ?_
    · show params.flatMap (fun p => [p.ty]) ++ ([result] ++ (raises.toList ++ [])) =
        params.map PParam.ty ++ result :: raises.toList
      rw [map_eq_flatMap, append_nil]
      rfl
    · simp [Detail.bytes, PFn.bytes, ref_bytes, append_assoc]

/-! ## Members -/

variable {m : Member}

theorem emits_field (hc : c.Interned k) {y : PField} (h : c.field m = some y) :
    Emits c (c.encode_field m) [y.ty] (fun _ => ()) fun L => y.bytes L := by
  obtain ⟨name, hname, h⟩ := bind_eq_some_iff.mp h
  obtain ⟨T, hT, h⟩ := bind_eq_some_iff.mp h
  cases h
  simp only [encode_field, hname, lift_some]
  exact ((emits_ty hc hT).then_write _).congr rfl (fun _ => rfl) fun _ => rfl

variable {list : MemberListId}

theorem emits_fields (hc : c.Interned k) {ys : List PField} (h : c.fields list = some ys) :
    Emits c (c.encode_fields list) (ys.map PField.ty) (fun _ => ())
      fun L => counted (PField.bytes L) ys := by
  obtain ⟨ms, hms, hys⟩ := bind_eq_some_iff.mp h
  simp only [encode_fields, hms, lift_some]
  refine (emits_counted (B := PField.bytes) (M := fun f => [f.ty])
    (length_of_mapM hys).symm hys fun hm => emits_field hc hm).congr ?_ (fun _ => rfl)
    fun _ => rfl
  rw [map_eq_flatMap]

theorem list_refs_eq (L ts : List PTy) :
    list_refs (ts.map fun t => L.idxOf t) = counted (ref_bytes L) ts := by
  rw [list_refs, counted, length_map, flatMap_map]
  rfl

theorem emits_payload (hc : c.Interned k) {y : PPayload} (h : c.payload m = some y) :
    m.payload = y.kind ∧
      Emits c (c.encode_payload m) y.tys (fun _ => ()) fun L => y.bytes L := by
  rw [payload] at h
  rw [encode_payload]
  cases hk : m.payload with
  | None =>
    rw [hk] at h
    cases h
    exact ⟨rfl, .pure ()⟩
  | Tuple =>
    rw [hk] at h
    obtain ⟨xs, hxs, h⟩ := bind_eq_some_iff.mp h
    obtain ⟨us, hus, h⟩ := bind_eq_some_iff.mp h
    cases h
    simp only [hxs, lift_some]
    refine ⟨rfl, ((emits_ty_list hc hus).then_write list_refs).congr rfl (fun _ => rfl)
      fun L => ?_⟩
    exact list_refs_eq L us
  | Record =>
    rw [hk] at h
    obtain ⟨fs, hfs, rfl⟩ := map_eq_some_iff.mp h
    exact ⟨rfl, emits_fields hc hfs⟩

theorem emits_variant (hc : c.Interned k) {y : PVariant} (h : c.variant_ m = some y) :
    Emits c (c.encode_variant m) y.payload.tys (fun _ => ()) fun L => y.bytes L := by
  obtain ⟨name, hname, h⟩ := bind_eq_some_iff.mp h
  obtain ⟨p, hp, h⟩ := bind_eq_some_iff.mp h
  cases h
  obtain ⟨hkind, hemits⟩ := emits_payload hc hp
  simp only [encode_variant, hname, lift_some, hkind]
  exact (hemits.after_write _).congr rfl (fun _ => rfl) fun _ => rfl

theorem emits_variants (hc : c.Interned k) {ys : List PVariant} (h : c.variants list = some ys) :
    Emits c (c.encode_variants list) (ys.flatMap fun v => v.payload.tys) (fun _ => ())
      fun L => counted (PVariant.bytes L) ys := by
  obtain ⟨ms, hms, hys⟩ := bind_eq_some_iff.mp h
  simp only [encode_variants, hms, lift_some]
  exact emits_counted (B := PVariant.bytes) (length_of_mapM hys).symm hys
    fun hm => emits_variant hc hm

theorem emits_items {ys : List Path} (h : c.items list = some ys) :
    Emits c (c.encode_items list) [] (fun _ => ()) fun _ => counted path_bytes ys := by
  obtain ⟨ms, hms, hys⟩ := bind_eq_some_iff.mp h
  simp only [encode_items, hms, lift_some]
  refine (emits_counted (M := fun _ => []) (B := fun _ p => path_bytes p)
    (length_of_mapM hys).symm hys fun {m p} hm => ?_).congr ?_ (fun _ => rfl) fun _ => rfl
  · simp only [encode_item, write_head_eq hm, lift_some]
    exact .write _
  · simp

/-! ## Associated types -/

theorem emits_assoc_entry {α : Type} {what : Assoc → Option α} {w : Bool} {f : α → α}
    {M : α → List PTy} {B : List PTy → α → Bytes} {e : Assoc} {y : PAssoc α}
    (h : c.assoc what e = some y)
    (hwhat : ∀ {a}, what e = some a →
      Emits c (match w with
        | true => do
          let r ← c.emit_ty e.rhs
          write (uleb r)
        | false => do
          let bounds ← c.bound_list_bytes e.bounds
          write bounds) (M (f a)) (fun _ => ()) fun L => B L (f a)) :
    Emits c (c.encode_assoc_entry w e) (M (f y.what)) (fun _ => ())
      fun L => PAssoc.bytes (B L) ⟨y.name, f y.what⟩ := by
  obtain ⟨name, hname, h⟩ := bind_eq_some_iff.mp h
  obtain ⟨a, ha, h⟩ := bind_eq_some_iff.mp h
  cases h
  simp only [encode_assoc_entry, hname, lift_some]
  exact (hwhat ha).after_write _

/-- Associated types are emitted by name, each with what `with_rhs` says. -/
theorem emits_assocs {α : Type} {what : Assoc → Option α} {w : Bool} {f : α → α}
    {M : α → List PTy} {B : List PTy → α → Bytes} {ys : List (PAssoc α)}
    (h : c.assocs what row.assoc = some ys) (hwhat : ∀ {e a}, what e = some a →
      Emits c (match w with
        | true => do
          let r ← c.emit_ty e.rhs
          write (uleb r)
        | false => do
          let bounds ← c.bound_list_bytes e.bounds
          write bounds) (M (f a)) (fun _ => ()) fun L => B L (f a)) :
    Emits c (c.encode_assoc row w) ((arrange_assocs f ys).flatMap fun e => M e.what)
      (fun _ => ()) fun L => counted (PAssoc.bytes (B L)) (arrange_assocs f ys) := by
  obtain ⟨list, hlist, hys⟩ := bind_eq_some_iff.mp h
  have hname : ∀ {e : Assoc} {y : PAssoc α}, c.assoc what e = some y →
      c.names.resolve e.name = some y.name := by
    intro e y he
    obtain ⟨name, hname, he⟩ := bind_eq_some_iff.mp he
    obtain ⟨a, -, he⟩ := bind_eq_some_iff.mp he
    cases he
    exact hname
  obtain ⟨entries, hentries, -, hsorted⟩ :=
    sorted_shows (F := fun e : Assoc => c.names.resolve e.name) hys hname
  simp only [encode_assoc, hlist, hentries, lift_some]
  have hparts := emits_parts (M := fun y => M (f y.what))
    (B := fun y L => PAssoc.bytes (B L) ⟨y.name, f y.what⟩) hsorted
    (f := c.encode_assoc_entry w) fun he => emits_assoc_entry he hwhat
  refine (hparts.after_write (uleb list.length)).congr ?_ (fun _ => rfl) fun L => ?_
  · rw [arrange_assocs, flatMap_map]
  · rw [counted, arrange_assocs, length_map, length_sort_by, length_of_mapM hys,
      flatMap_map]

/-! ## Kinds -/

theorem emits_optional (hc : c.Interned k) (h : c.optional_ty t = some T) :
    Emits c (do let r ← c.emit_optional t; write (uleb r)) T.toList (fun _ => ())
      fun L => optional_bytes L T := by
  rw [emit_optional]
  obtain ⟨hno, rfl⟩ | ⟨hno, u, rfl, hu⟩ := optional_ty_cases h
  · rw [if_pos hno]
    exact .write _
  · rw [if_neg hno]
    exact ((emits_ty hc hu).then_write uleb).congr rfl (fun _ => rfl) fun _ => rfl

theorem emits_impl_trait_ref (hc : c.Interned k) {tr : TraitRefId} {r : Option PTraitRef}
    (h : c.impl_trait_ref tr = some r) :
    Emits c (c.encode_trait_ref tr) (r.elim [] PTraitRef.args) (fun _ => ())
      fun L => Sigs.trait_ref_bytes L r := by
  rw [impl_trait_ref] at h
  rw [encode_trait_ref]
  by_cases hno : tr = NO_TRAIT_REF
  · rw [if_pos hno] at h ⊢
    cases h
    exact .write [0]
  · rw [if_neg hno] at h ⊢
    obtain ⟨r, hr, rfl⟩ := map_eq_some_iff.mp h
    exact ((emits_trait_ref hc hr).then_write fun bytes => 1 :: bytes).congr rfl (fun _ => rfl)
      fun _ => rfl

theorem emits_const_val (hp : c.policy = FINGERPRINT_POLICY) {val : ConstId} {v : Option Value}
    (h : c.const_val val = some v) :
    Emits c (c.encode_const_val val) [] (fun _ => ()) fun _ => value_bytes v := by
  rw [const_val] at h
  rw [encode_const_val, hp]
  by_cases hno : val = NO_CONST
  · rw [if_pos hno] at h
    rw [if_neg (by simp [hno])]
    cases h
    exact .write [0]
  · rw [if_neg hno] at h
    rw [if_pos ⟨rfl, hno⟩]
    obtain ⟨w, hw, h⟩ := bind_eq_some_iff.mp h
    obtain ⟨v, hv, h⟩ := bind_eq_some_iff.mp h
    cases h
    simp only [hw, lift_some, write_const_value_eq hv]
    exact .write _

theorem emits_kind (hc : c.Interned k) (hp : c.policy = FINGERPRINT_POLICY)
    {d : Detail} (h : c.detail row = some d) :
    Emits c (c.encode_kind row) d.arrange.tys (fun _ => ()) fun L => d.arrange.bytes L := by
  rw [detail] at h
  rw [encode_kind]
  cases hk : row.kind with
  | Fn | ExternFn =>
    rw [hk] at h
    obtain ⟨f, hf, rfl⟩ := map_eq_some_iff.mp h
    exact emits_fn hc hf
  | Struct =>
    rw [hk] at h
    obtain ⟨fs, hfs, rfl⟩ := map_eq_some_iff.mp h
    exact emits_fields hc hfs
  | Enum =>
    rw [hk] at h
    obtain ⟨vs, hvs, rfl⟩ := map_eq_some_iff.mp h
    exact emits_variants hc hvs
  | Trait =>
    rw [hk] at h
    obtain ⟨as, has, h⟩ := bind_eq_some_iff.mp h
    obtain ⟨is, his, h⟩ := bind_eq_some_iff.mp h
    cases h
    have hassocs := emits_assocs (w := false) (f := sort_bounds) (M := bounds_tys)
      (B := bounds_bytes) has fun hb => ((emits_bounds hc hp hb).then_write id).congr rfl
        (fun _ => rfl) fun _ => rfl
    exact (hassocs.seq (emits_items his)).congr (append_nil _) (fun _ => rfl) fun _ => rfl
  | Impl =>
    rw [hk] at h
    obtain ⟨st, hst, h⟩ := bind_eq_some_iff.mp h
    obtain ⟨tr, htr, h⟩ := bind_eq_some_iff.mp h
    obtain ⟨as, has, h⟩ := bind_eq_some_iff.mp h
    obtain ⟨is, his, h⟩ := bind_eq_some_iff.mp h
    cases h
    have hassocs := emits_assocs (w := true) (f := id) (M := fun t => [t])
      (B := ref_bytes) has fun ht => ((emits_ty hc ht).then_write uleb).congr rfl
        (fun _ => rfl) fun _ => rfl
    have hall := (emits_optional hc hst).seq
      ((emits_impl_trait_ref hc htr).seq (hassocs.seq (emits_items his)))
    rw [bind_assoc] at hall
    refine hall.congr ?_ (fun _ => rfl) fun L => ?_
    · show st.toList ++ (tr.elim [] PTraitRef.args ++
        ((arrange_assocs id as).flatMap (fun e => [e.what]) ++ [])) =
        st.toList ++ tr.elim [] PTraitRef.args ++ (arrange_assocs id as).map PAssoc.what
      rw [map_eq_flatMap, append_nil, append_assoc]
    · simp [Detail.arrange, Detail.bytes, append_assoc]
  | Const =>
    rw [hk] at h
    obtain ⟨T, hT, h⟩ := bind_eq_some_iff.mp h
    obtain ⟨v, hv, h⟩ := bind_eq_some_iff.mp h
    cases h
    have hall := (emits_optional hc hT).seq (emits_const_val hp hv)
    rw [bind_assoc] at hall
    exact hall.congr (append_nil _) (fun _ => rfl) fun _ => rfl
  | Poisoned | Absent =>
    rw [hk] at h
    cases h
    exact .pure ()

/-! ## Signatures -/

theorem sig_eq_some {d : DefId} {S : PSig} (h : c.sig d = some S) :
    ∃ row g list, c.fir.sigs.rows[d]? = some row ∧
      c.fir.sigs.generics_store[row.generics]? = some g ∧
      g.params.mapM c.gparam = some S.generics ∧
      c.fir.sigs.constraints[g.constraints]? = some list ∧
      list.mapM c.constraint = some S.constraints ∧ c.detail row = some S.detail ∧
      S.kind = row.kind ∧ S.flags = row.flags := by
  simp only [sig, bind_eq_bind, bind_eq_some_iff, Option.pure_def,
    some.injEq] at h
  obtain ⟨row, hrow, g, hg, gs, hgs, list, hlist, cs, hcs, d, hd, rfl⟩ := h
  exact ⟨row, g, list, hrow, hg, hgs, hlist, hcs, hd, rfl, rfl⟩

theorem emits_generics (hc : c.Interned k) (hp : c.policy = FINGERPRINT_POLICY)
    {g : GenericsRow} {ys : List PGParam} (hg : c.fir.sigs.generics_store[row.generics]? = some g)
    (hys : g.params.mapM c.gparam = some ys) :
    Emits c (c.encode_generics row) ((ys.map PGParam.arrange).flatMap PGParam.tys) (fun _ => ())
      fun L => counted (PGParam.bytes L) (ys.map PGParam.arrange) := by
  simp only [encode_generics, hg, lift_some]
  refine (emits_counted (B := fun L y => PGParam.bytes L y.arrange)
    (M := fun y => y.arrange.tys) (length_of_mapM hys).symm hys
    fun hy => emits_gparam hc hp hy).congr ?_ (fun _ => rfl) fun L => ?_
  · rw [flatMap_map]
  · rw [counted, counted, length_map, flatMap_map]

theorem emits_constraints (hc : c.Interned k) (hp : c.policy = FINGERPRINT_POLICY)
    {g : GenericsRow} {list : List (TyId × TraitRefListId)} {ys : List PConstraint}
    (hg : c.fir.sigs.generics_store[row.generics]? = some g)
    (hlist : c.fir.sigs.constraints[g.constraints]? = some list)
    (hys : list.mapM c.constraint = some ys) :
    Emits c (c.encode_constraints row)
      (((sort_by PConstraint.key ys).map PConstraint.arrange).flatMap PConstraint.tys)
      (fun _ => ()) fun L =>
        counted (PConstraint.bytes L) ((sort_by PConstraint.key ys).map PConstraint.arrange) := by
  obtain ⟨entries, hentries, -, hsorted⟩ := sorted_shows hys (constraint_key_eq hc)
  have harrange : c.arrange entries = (sort_by Prod.fst entries).map Prod.snd := by
    rw [arrange, hp, sort_on, if_pos rfl]
  simp only [encode_constraints, hg, hlist, hentries, harrange, lift_some]
  have hparts := emits_parts (M := fun y => y.arrange.tys)
    (B := fun y L => PConstraint.bytes L y.arrange) hsorted
    fun hy => emits_constraint hc hp hy
  refine (hparts.after_write (uleb list.length)).congr ?_ (fun _ => rfl) fun L => ?_
  · rw [flatMap_map]
  · rw [counted, length_map, length_sort_by, length_of_mapM hys, flatMap_map]

/-- The structure section is that of the arranged signature. -/
theorem emits_sig (hc : c.Interned k) (hp : c.policy = FINGERPRINT_POLICY) {d : DefId} {S : PSig}
    (h : c.sig d = some S) :
    Emits c (c.encode d) S.arrange.tys (fun _ => ()) fun L => S.arrange.bytes L := by
  obtain ⟨row, g, list, hrow, hg, hgs, hlist, hcs, hd, hkind, hflags⟩ := sig_eq_some h
  simp only [encode, hrow, lift_some]
  refine (((emits_generics hc hp hg hgs).seq ((emits_constraints hc hp hg hlist hcs).seq
    (emits_kind hc hp hd))).after_write [row.kind.as_u8, row.flags]).congr ?_ (fun _ => rfl)
    fun L => ?_
  · simp [PSig.tys, PSig.arrange, append_assoc]
  · simp [PSig.bytes, PSig.arrange, append_assoc, hkind, hflags]

end Ctx

/-! ## The encoding -/

variable {k : Keys} {b : Build} {d : DefId} {S : PSig}

theorem interned_of_inv (h : b.Inv k) {c : Ctx} (hfir : c.fir = b.fir) (hnames : c.names = b.names) :
    c.Interned k where
  tys := hfir ▸ h.tys
  bounds := hfir ▸ h.bounds
  strings := hnames ▸ h.strings
  paths := hfir ▸ h.paths
  keys := hfir ▸ h.keys
  paired := ⟨_, hfir ▸ h.paired⟩

/-- The encoding of a signature is the wire form of what the tables show, whatever buffers are
used again for it. -/
theorem encode_sig_into_eq (h : b.Inv k) (hS : signature b.fir b.names d = some S)
    (scratch : EncodeScratch) :
    ∃ scratch', encode_sig_into b.fir b.names d FINGERPRINT_POLICY scratch =
      some (scratch', S.arrange.wire) := by
  obtain ⟨c, hctx, hS⟩ := bind_eq_some_iff.mp hS
  obtain ⟨parent, hparent, hctx⟩ := bind_eq_some_iff.mp hctx
  cases hctx
  obtain ⟨e, hrun, hnext, htys, hbody⟩ := run_new (Ctx.emits_sig (interned_of_inv h rfl rfl) rfl hS)
  refine ⟨⟨e.tys, e.body, e.pos, S.arrange.wire⟩, ?_⟩
  have hstart : (⟨scratch.clear.tys, scratch.clear.body, scratch.clear.pos, 0⟩ : Enc) = .new := rfl
  simp only [encode_sig_into, hparent, bind_eq_bind, bind_some, hstart, hrun, hnext,
    htys, hbody, Option.pure_def]
  rfl

theorem encode_sig_eq (h : b.Inv k) (hS : signature b.fir b.names d = some S) :
    encode_sig b.fir b.names d FINGERPRINT_POLICY = some S.arrange.wire := by
  obtain ⟨scratch, hrun⟩ := encode_sig_into_eq h hS .default
  rw [encode_sig, hrun]
  rfl

end Fors.Sigs
