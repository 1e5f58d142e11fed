import Fors.Sigs.Section

/-!
# The bytes determine the arranged signature

With the types of the section known, every part of the structure is cut off from what follows it.
Only what the wire form does not tell apart is left to the hypotheses: a function that was not
lowered, and the marker of an absent type.

Principal result: `wire_inj`.
-/

namespace Fors.Sigs

open Fors.Ty Trees PrefixCode List

section Parts

variable {seen : List PTy}

theorem cut_counted {α : Type} {p : α → Prop} {write : α → Bytes} (h : Cuts p write) :
    Cuts (fun xs : List α => ∀ x ∈ xs, p x) (counted write) :=
  cut_uleb.counted h

theorem cut_ref (seen : List PTy) : Cuts (fun t => t ∈ seen) (ref_bytes seen) := by
  intro t u s w ht _ heq
  obtain ⟨hpos, hst⟩ := cut_uleb trivial trivial heq
  exact ⟨idxOf_inj ht hpos, hst⟩

theorem cut_bounds (seen : List PTy) :
    Cuts (fun bs : List PTraitRef => ∀ t ∈ bounds_tys bs, t ∈ seen) (bounds_bytes seen) :=
  (cut_counted (cut_trait_ref seen)).mono fun _ h r hr t ht =>
    h t (mem_flatMap.mpr ⟨r, hr, ht⟩)

/-! ## Generics -/

theorem cut_kind (seen : List PTy) :
    Cuts (fun k : PKind => ∀ t ∈ k.tys, t ∈ seen) fun k => k.tag :: k.bytes seen := by
  intro k k' s t hk hk' heq
  obtain ⟨htag, hrest⟩ := byte_inj heq
  cases k <;> cases k'
  case Type.Type | Brand.Brand => exact ⟨rfl, hrest⟩
  case Const.Const ty ty' | Callable.Callable ty ty' =>
    simp only [PKind.bytes, PKind.tys, flatMap_singleton] at hrest
    obtain ⟨rfl, hst⟩ := cut_ref seen (hk ty (mem_singleton.mpr rfl))
      (hk' ty' (mem_singleton.mpr rfl)) hrest
    exact ⟨rfl, hst⟩
  all_goals simp [PKind.tag] at htag

theorem cut_gparam (seen : List PTy) :
    Cuts (fun p : PGParam => ∀ t ∈ p.tys, t ∈ seen) (PGParam.bytes seen) := by
  intro p p' s t hp hp' heq
  obtain ⟨kind, bounds⟩ := p
  obtain ⟨kind', bounds'⟩ := p'
  obtain ⟨hkind, hbounds⟩ := forall_mem_append.mp hp
  obtain ⟨hkind', hbounds'⟩ := forall_mem_append.mp hp'
  rw [PGParam.bytes, PGParam.bytes, append_assoc, append_assoc] at heq
  obtain ⟨rfl, hrest⟩ := cut_kind seen hkind hkind' heq
  obtain ⟨rfl, hst⟩ := cut_bounds seen hbounds hbounds' hrest
  exact ⟨rfl, hst⟩

theorem cut_constraint (seen : List PTy) :
    Cuts (fun e : PConstraint => ∀ t ∈ e.tys, t ∈ seen) (PConstraint.bytes seen) := by
  intro e e' s t he he' heq
  obtain ⟨subject, bounds⟩ := e
  obtain ⟨subject', bounds'⟩ := e'
  obtain ⟨hsubject, hbounds⟩ := forall_mem_cons.mp he
  obtain ⟨hsubject', hbounds'⟩ := forall_mem_cons.mp he'
  rw [PConstraint.bytes, PConstraint.bytes, append_assoc, append_assoc] at heq
  obtain ⟨rfl, hrest⟩ := cut_ref seen hsubject hsubject' heq
  obtain ⟨rfl, hst⟩ := cut_bounds seen hbounds hbounds' hrest
  exact ⟨rfl, hst⟩

/-! ## Functions -/

theorem cut_param (seen : List PTy) :
    Cuts (fun p : PParam => p.ty ∈ seen) (PParam.bytes seen) := by
  intro p p' s t hp hp' heq
  obtain ⟨name, conv, ty⟩ := p
  obtain ⟨name', conv', ty'⟩ := p'
  simp only [PParam.bytes, append_assoc] at heq
  obtain ⟨rfl, h1⟩ := cut_bytes trivial trivial heq
  obtain ⟨hconv, h2⟩ := byte_inj h1
  obtain ⟨rfl, hst⟩ := cut_ref seen hp hp' h2
  rw [conv_as_u8_inj hconv]
  exact ⟨rfl, hst⟩

theorem cut_raises (seen : List PTy) :
    Cuts (fun t : Option PTy => ∀ u ∈ t.toList, u ∈ seen)
      fun t => t.elim [0] fun u => 1 :: ref_bytes seen u := by
  intro t t' s w ht ht' heq
  obtain - | u := t
  · obtain - | u' := t'
    · exact ⟨rfl, (byte_inj heq).2⟩
    · exact absurd (byte_inj heq).1 (by decide)
  · obtain - | u' := t'
    · exact absurd (byte_inj heq).1 (by decide)
    · obtain ⟨rfl, hst⟩ := cut_ref seen (ht u (mem_singleton.mpr rfl))
        (ht' u' (mem_singleton.mpr rfl)) (byte_inj heq).2
      exact ⟨rfl, hst⟩

theorem cut_fn (seen : List PTy) :
    Cuts (fun f : PFn => ∀ t ∈ f.tys, t ∈ seen) (PFn.bytes seen) := by
  intro f f' s t hf hf' heq
  obtain ⟨params, result, raises, scoped_, receiver, contract_hash⟩ := f
  obtain ⟨params', result', raises', scoped_', receiver', contract_hash'⟩ := f'
  obtain ⟨hparams, hrest⟩ := forall_mem_append.mp hf
  obtain ⟨hresult, hraises⟩ := forall_mem_cons.mp hrest
  obtain ⟨hparams', hrest'⟩ := forall_mem_append.mp hf'
  obtain ⟨hresult', hraises'⟩ := forall_mem_cons.mp hrest'
  simp only [PFn.bytes, append_assoc] at heq
  obtain ⟨rfl, h1⟩ := cut_counted (cut_param seen) (forall_mem_map.mp hparams)
    (forall_mem_map.mp hparams') heq
  obtain ⟨rfl, h2⟩ := cut_ref seen hresult hresult' h1
  obtain ⟨rfl, h3⟩ := cut_raises seen hraises hraises' h2
  obtain ⟨rfl, h4⟩ := byte_inj h3
  obtain ⟨rfl, h5⟩ := byte_inj h4
  obtain ⟨rfl, hst⟩ := cut_u128 trivial trivial h5
  exact ⟨rfl, hst⟩

/-! ## Members -/

theorem cut_field (seen : List PTy) :
    Cuts (fun f : PField => f.ty ∈ seen) (PField.bytes seen) := by
  intro f f' s t hf hf' heq
  obtain ⟨name, vis, ty⟩ := f
  obtain ⟨name', vis', ty'⟩ := f'
  simp only [PField.bytes, append_assoc] at heq
  obtain ⟨rfl, h1⟩ := cut_bytes trivial trivial heq
  obtain ⟨rfl, h2⟩ := byte_inj h1
  obtain ⟨rfl, hst⟩ := cut_ref seen hf hf' h2
  exact ⟨rfl, hst⟩

theorem cut_fields (seen : List PTy) :
    Cuts (fun fs : List PField => ∀ t ∈ fs.map PField.ty, t ∈ seen)
      (counted (PField.bytes seen)) :=
  (cut_counted (cut_field seen)).mono fun _ => forall_mem_map.mp

theorem payload_as_u8_inj {k k' : PayloadKind} (h : k.as_u8 = k'.as_u8) : k = k' := by
  revert h
  cases k <;> cases k' <;> decide

theorem cut_variant (seen : List PTy) :
    Cuts (fun v : PVariant => ∀ t ∈ v.payload.tys, t ∈ seen) (PVariant.bytes seen) := by
  intro v v' s t hv hv' heq
  obtain ⟨name, payload⟩ := v
  obtain ⟨name', payload'⟩ := v'
  simp only [PVariant.bytes, append_assoc] at heq
  obtain ⟨rfl, h1⟩ := cut_bytes trivial trivial heq
  obtain ⟨hkind, h2⟩ := byte_inj h1
  have htag := payload_as_u8_inj hkind
  cases payload <;> cases payload' <;> simp only [PPayload.kind, reduceCtorEq] at htag
  case None.None => exact ⟨rfl, h2⟩
  case Tuple.Tuple =>
    obtain ⟨rfl, hst⟩ := cut_counted (cut_ref seen) hv hv' h2
    exact ⟨rfl, hst⟩
  case Record.Record =>
    obtain ⟨rfl, hst⟩ := cut_fields seen hv hv' h2
    exact ⟨rfl, hst⟩

theorem cut_assoc {α : Type} {p : α → Prop} {write : α → Bytes} (h : Cuts p write) :
    Cuts (fun e : PAssoc α => p e.what) (PAssoc.bytes write) := by
  intro e e' s t he he' heq
  obtain ⟨name, what⟩ := e
  obtain ⟨name', what'⟩ := e'
  rw [PAssoc.bytes, PAssoc.bytes, append_assoc, append_assoc] at heq
  obtain ⟨rfl, hrest⟩ := cut_bytes trivial trivial heq
  obtain ⟨rfl, hst⟩ := h he he' hrest
  exact ⟨rfl, hst⟩

theorem cut_items : Cut (counted path_bytes) := by
  intro xs ys s t _ _ heq
  exact cut_counted cut_path (fun _ _ => trivial) (fun _ _ => trivial) heq

/-! ## Kinds -/

/-- The marker of an absent type is also the position `u32::MAX`. -/
theorem cut_optional {t t' : Option PTy} {s w : Bytes} (hsome : t.isSome = t'.isSome)
    (ht : ∀ u ∈ t.toList, u ∈ seen) (ht' : ∀ u ∈ t'.toList, u ∈ seen)
    (heq : optional_bytes seen t ++ s = optional_bytes seen t' ++ w) : t = t' ∧ s = w := by
  obtain - | u := t
  · obtain - | u' := t'
    · exact ⟨rfl, (cut_uleb trivial trivial heq).2⟩
    · exact nomatch hsome
  · obtain - | u' := t'
    · exact nomatch hsome
    · obtain ⟨rfl, hst⟩ := cut_ref seen (ht u (mem_singleton.mpr rfl))
        (ht' u' (mem_singleton.mpr rfl)) heq
      exact ⟨rfl, hst⟩

theorem cut_impl_trait_ref (seen : List PTy) :
    Cuts (fun r : Option PTraitRef => ∀ t ∈ r.elim [] PTraitRef.args, t ∈ seen)
      (trait_ref_bytes seen) := by
  intro r r' s t hr hr' heq
  obtain - | r := r
  · obtain - | r' := r'
    · exact ⟨rfl, (byte_inj heq).2⟩
    · exact absurd (byte_inj heq).1 (by decide)
  · obtain - | r' := r'
    · exact absurd (byte_inj heq).1 (by decide)
    · obtain ⟨rfl, hst⟩ := cut_trait_ref seen hr hr' (byte_inj heq).2
      exact ⟨rfl, hst⟩

theorem cut_const_val : Cut value_bytes := by
  intro v v' s t _ _ heq
  obtain - | v := v
  · obtain - | v' := v'
    · exact ⟨rfl, (byte_inj heq).2⟩
    · exact absurd (byte_inj heq).1 (by decide)
  · obtain - | v' := v'
    · exact absurd (byte_inj heq).1 (by decide)
    · obtain ⟨rfl, hst⟩ := cut_value trivial trivial (byte_inj heq).2
      exact ⟨rfl, hst⟩

/-- Details of one kind that have the same columns filled in. -/
def Detail.Alike : Detail → Detail → Prop
  | .fn f, .fn f' => f.isSome = f'.isSome
  | .fields _, .fields _ | .variants _, .variants _ | .trait_ _ _, .trait_ _ _
  | .bare, .bare => True
  | .impl st _ _ _, .impl st' _ _ _ => st.isSome = st'.isSome
  | .const ty _, .const ty' _ => ty.isSome = ty'.isSome
  | _, _ => False

theorem cut_detail {d d' : Detail} {s t : Bytes} (halike : d.Alike d')
    (hd : ∀ t ∈ d.tys, t ∈ seen) (hd' : ∀ t ∈ d'.tys, t ∈ seen)
    (heq : d.bytes seen ++ s = d'.bytes seen ++ t) : d = d' ∧ s = t := by
  cases d <;> cases d' <;> simp only [Detail.Alike] at halike
  case fn.fn f f' =>
    obtain - | f := f
    · obtain - | f' := f'
      · exact ⟨rfl, append_cancel_left heq⟩
      · exact nomatch halike
    · obtain - | f' := f'
      · exact nomatch halike
      · obtain ⟨rfl, hst⟩ := cut_fn seen hd hd' heq
        exact ⟨rfl, hst⟩
  case fields.fields =>
    obtain ⟨rfl, hst⟩ := cut_fields seen hd hd' heq
    exact ⟨rfl, hst⟩
  case variants.variants =>
    obtain ⟨rfl, hst⟩ := cut_counted (cut_variant seen)
      (fun v hv t ht => hd t (mem_flatMap.mpr ⟨v, hv, ht⟩))
      (fun v hv t ht => hd' t (mem_flatMap.mpr ⟨v, hv, ht⟩)) heq
    exact ⟨rfl, hst⟩
  case trait_.trait_ =>
    rw [Detail.bytes, Detail.bytes, append_assoc, append_assoc] at heq
    obtain ⟨rfl, hrest⟩ := cut_counted (cut_assoc (cut_bounds seen))
      (fun e he t ht => hd t (mem_flatMap.mpr ⟨e, he, ht⟩))
      (fun e he t ht => hd' t (mem_flatMap.mpr ⟨e, he, ht⟩)) heq
    obtain ⟨rfl, hst⟩ := cut_items trivial trivial hrest
    exact ⟨rfl, hst⟩
  case impl.impl =>
    obtain ⟨hself, hassocs⟩ := forall_mem_append.mp hd
    obtain ⟨hself, htrait⟩ := forall_mem_append.mp hself
    obtain ⟨hself', hassocs'⟩ := forall_mem_append.mp hd'
    obtain ⟨hself', htrait'⟩ := forall_mem_append.mp hself'
    simp only [Detail.bytes, append_assoc] at heq
    obtain ⟨rfl, h1⟩ := cut_optional halike hself hself' heq
    obtain ⟨rfl, h2⟩ := cut_impl_trait_ref seen htrait htrait' h1
    obtain ⟨rfl, h3⟩ := cut_counted (cut_assoc (cut_ref seen)) (forall_mem_map.mp hassocs)
      (forall_mem_map.mp hassocs') h2
    obtain ⟨rfl, hst⟩ := cut_items trivial trivial h3
    exact ⟨rfl, hst⟩
  case const.const =>
    rw [Detail.bytes, Detail.bytes, append_assoc, append_assoc] at heq
    obtain ⟨rfl, hrest⟩ := cut_optional halike hd hd' heq
    obtain ⟨rfl, hst⟩ := cut_const_val trivial trivial hrest
    exact ⟨rfl, hst⟩
  case bare.bare => exact ⟨rfl, heq⟩

end Parts

/-! ## Signatures -/

theorem sig_kind_inj {k k' : SigKind} (h : k.as_u8 = k'.as_u8) : k = k' := by
  revert h
  cases k <;> cases k' <;> decide

theorem bytes_inj {seen : List PTy} {S T : PSig} (halike : S.detail.Alike T.detail)
    (hS : ∀ t ∈ S.tys, t ∈ seen) (hT : ∀ t ∈ T.tys, t ∈ seen)
    (h : S.bytes seen = T.bytes seen) : S = T := by
  obtain ⟨kind, flags, generics, constraints, detail⟩ := S
  obtain ⟨kind', flags', generics', constraints', detail'⟩ := T
  obtain ⟨hS, hdetail⟩ := forall_mem_append.mp hS
  obtain ⟨hgenerics, hconstraints⟩ := forall_mem_append.mp hS
  obtain ⟨hT, hdetail'⟩ := forall_mem_append.mp hT
  obtain ⟨hgenerics', hconstraints'⟩ := forall_mem_append.mp hT
  simp only [PSig.bytes, append_assoc] at h
  obtain ⟨hkind, h1⟩ := byte_inj h
  obtain ⟨rfl, h2⟩ := byte_inj h1
  obtain ⟨rfl, h3⟩ := cut_counted (cut_gparam seen)
    (fun p hp t ht => hgenerics t (mem_flatMap.mpr ⟨p, hp, ht⟩))
    (fun p hp t ht => hgenerics' t (mem_flatMap.mpr ⟨p, hp, ht⟩)) h2
  obtain ⟨rfl, h4⟩ := cut_counted (cut_constraint seen)
    (fun e he t ht => hconstraints t (mem_flatMap.mpr ⟨e, he, ht⟩))
    (fun e he t ht => hconstraints' t (mem_flatMap.mpr ⟨e, he, ht⟩)) h3
  obtain ⟨rfl, -⟩ := cut_detail halike hdetail hdetail' (congrArg (· ++ []) h4)
  rw [sig_kind_inj hkind]

/-- Two signatures of one wire form are one signature. -/
theorem wire_inj {S T : PSig} (halike : S.detail.Alike T.detail) (hS : ∀ t ∈ S.tys, Formed t)
    (hT : ∀ t ∈ T.tys, Formed t) (h : S.wire = T.wire) : S = T := by
  have hsection : uleb (visits S.tys []).length ++ ty_section (visits S.tys []) ++
      S.bytes (visits S.tys []) = uleb (visits T.tys []).length ++
        ty_section (visits T.tys []) ++ T.bytes (visits T.tys []) := by
    simp only [PSig.wire, append_assoc] at h
    rw [append_assoc, append_assoc]
    exact append_cancel_left (append_cancel_left h)
  obtain ⟨hseen, hbytes⟩ := cut_section (built_visits S.tys hS .nil)
    (built_visits T.tys hT .nil) hsection
  rw [hseen] at hbytes
  exact bytes_inj halike (fun t ht => hseen ▸ mem_visits ht []) (fun t ht => mem_visits ht []) hbytes

end Fors.Sigs
