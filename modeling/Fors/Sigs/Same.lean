import Fors.Sigs.Unique

/-!
# Signatures that are the same up to order

Two signatures are the same when they differ in the order of their bound lists, constraint entries
and associated types at most. Their arranged forms agree exactly when the keys that the constraint
entries are sorted by leave entries of one subject in one order, and associated types of one name
come in one order.

Principal result: `arrange_eq_iff`.
-/

namespace Fors.Sigs

open Fors.Ty Trees PrefixCode Sorting List

/-- The same kind, and the same set of bounds. -/
def PGParam.Same (p q : PGParam) : Prop :=
  p.kind = q.kind ∧ p.bounds.Perm q.bounds

def PConstraint.Same (e f : PConstraint) : Prop :=
  e.subject = f.subject ∧ e.bounds.Perm f.bounds

def PAssoc.Same {α : Type} (R : α → α → Prop) (e f : PAssoc α) : Prop :=
  e.name = f.name ∧ R e.what f.what

def Detail.Same : Detail → Detail → Prop
  | .trait_ assocs items, .trait_ assocs' items' =>
    Sorting.Same (PAssoc.Same List.Perm) assocs assocs' ∧ items = items'
  | .impl st tr assocs items, .impl st' tr' assocs' items' =>
    st = st' ∧ tr = tr' ∧ assocs.Perm assocs' ∧ items = items'
  | d, d' => d = d'

/-- The same signature, up to the order its unordered lists are given in. -/
structure PSig.Same (S T : PSig) : Prop where
  kind : S.kind = T.kind
  flags : S.flags = T.flags
  generics : List.Forall₂ PGParam.Same S.generics T.generics
  constraints : Sorting.Same PConstraint.Same S.constraints T.constraints
  detail : S.detail.Same T.detail

/-- The bounds of an entry, by their canonical bytes in the order of the store. -/
def PConstraint.bounds_key (e : PConstraint) : List Nat :=
  cmp_key (e.bounds.flatMap PTraitRef.canon)

/-- Associated types of one name come in one order. -/
def Detail.Agree : Detail → Detail → Prop
  | .trait_ assocs _, .trait_ assocs' _ => ∀ name : Bytes,
    List.Forall₂ (PAssoc.Same List.Perm) (assocs.filter fun e => e.name = name)
      (assocs'.filter fun e => e.name = name)
  | .impl _ _ assocs _, .impl _ _ assocs' _ => ∀ name : Bytes,
    (assocs.filter fun e => e.name = name) = assocs'.filter fun e => e.name = name
  | _, _ => True

/-- The two stores leave nothing for the order of emission to depend on: the bounds of every two
constraint entries of one subject compare alike, and so does the order of associated types of one
name. -/
structure PSig.Agree (S T : PSig) : Prop where
  constraints : ∀ e ∈ S.constraints, ∀ e' ∈ S.constraints, ∀ f ∈ T.constraints,
    ∀ f' ∈ T.constraints, e.Same f → e'.Same f' → e.subject = e'.subject →
      (e.bounds_key ≤ e'.bounds_key ↔ f.bounds_key ≤ f'.bounds_key)
  detail : S.detail.Agree T.detail

/-- What the tables guarantee of a signature they show. -/
structure PSig.Valid (S : PSig) : Prop where
  formed : ∀ t ∈ S.tys, Formed t
  bounds : ∀ e ∈ S.constraints, ∀ e' ∈ S.constraints, e.bounds.Perm e'.bounds →
    e.bounds = e'.bounds

/-! ## Bounds -/

theorem cmp_key_inj {a b : Bytes} (h : cmp_key a = cmp_key b) : a = b :=
  map_injective_iff.mpr (fun _ _ => UInt8.toNat_inj.mp) h

/-- The canonical bytes tell formed bounds apart. -/
theorem canon_inj {bs : List PTraitRef} (h : ∀ t ∈ bounds_tys bs, Formed t) :
    ∀ r ∈ bs, ∀ r' ∈ bs, cmp_key r.canon = cmp_key r'.canon → r = r' := by
  intro r hr r' hr' hcanon
  exact cut_canon.inj (fun t ht => h t (mem_flatMap.mpr ⟨r, hr, ht⟩))
    (fun t ht => h t (mem_flatMap.mpr ⟨r', hr', ht⟩)) (cmp_key_inj hcanon)

theorem sort_bounds_eq_iff {bs bs' : List PTraitRef} (h : ∀ t ∈ bounds_tys bs, Formed t) :
    sort_bounds bs = sort_bounds bs' ↔ bs.Perm bs' :=
  sort_eq_iff_perm (canon_inj h)

theorem arrange_gparam_eq_iff {p q : PGParam} (h : ∀ t ∈ p.tys, Formed t) :
    p.arrange = q.arrange ↔ p.Same q := by
  rw [PGParam.arrange, PGParam.arrange, PGParam.mk.injEq, PGParam.Same,
    sort_bounds_eq_iff (forall_mem_append.mp h).2]

variable {e : PConstraint}

theorem arrange_constraint_eq_iff {f : PConstraint} (h : ∀ t ∈ e.tys, Formed t) :
    e.arrange = f.arrange ↔ e.Same f := by
  rw [PConstraint.arrange, PConstraint.arrange, PConstraint.mk.injEq, PConstraint.Same,
    sort_bounds_eq_iff (forall_mem_cons.mp h).2]

/-! ## Constraint entries -/

variable {e' : PConstraint}

theorem constraint_key_inj (h : ∀ t ∈ e.tys, Formed t)
    (h' : ∀ t ∈ e'.tys, Formed t) (hkey : cmp_key e.key = cmp_key e'.key) : e = e' := by
  obtain ⟨subject, bounds⟩ := e
  obtain ⟨subject', bounds'⟩ := e'
  obtain ⟨hsubject, hbounds⟩ := forall_mem_cons.mp h
  obtain ⟨hsubject', hbounds'⟩ := forall_mem_cons.mp h'
  obtain ⟨rfl, hrest⟩ := cut_canon_ty hsubject hsubject' (cmp_key_inj hkey)
  have hsame : bounds = bounds' := cut_canon.flatMap_inj (fun r _ => canon_ne_nil r)
    (fun r hr t ht => hbounds t (mem_flatMap.mpr ⟨r, hr, ht⟩))
    (fun r hr t ht => hbounds' t (mem_flatMap.mpr ⟨r, hr, ht⟩)) hrest
  rw [hsame]

theorem cmp_key_append (a b : Bytes) : cmp_key (a ++ b) = cmp_key a ++ cmp_key b :=
  map_append

/-- Entries of one subject are in the order of their bounds. -/
theorem key_le_iff_of_subject (h : e.subject = e'.subject) :
    cmp_key e.key ≤ cmp_key e'.key ↔ e.bounds_key ≤ e'.bounds_key := by
  rw [PConstraint.key, PConstraint.key, cmp_key_append, cmp_key_append, h, append_left_le_iff]
  rfl

/-- Entries of two subjects are in the order of the subjects. -/
theorem key_le_iff_of_ne (h : Formed e.subject) (h' : Formed e'.subject)
    (hne : e.subject ≠ e'.subject) :
    cmp_key e.key ≤ cmp_key e'.key ↔
      cmp_key (canon_ty e.subject) ≤ cmp_key (canon_ty e'.subject) := by
  rw [PConstraint.key, PConstraint.key, cmp_key_append, cmp_key_append]
  refine append_le_append_iff (fun s t hst => hne ?_) _ _
  -- a common start of the two words is one of the bytes they are the keys of
  have hbytes : ∀ x y : Bytes, ∀ s t : List Nat, cmp_key x ++ s = cmp_key y ++ t →
      ∃ s' t' : Bytes, x ++ s' = y ++ t' := by
    intro x y
    induction x generalizing y with
    | nil => exact fun _ _ _ => ⟨y, [], by simp⟩
    | cons a x ih =>
      intro s t hxy
      cases y with
      | nil => exact ⟨[], a :: x, by simp⟩
      | cons b y =>
        obtain ⟨hab, hrest⟩ := cons.inj hxy
        obtain ⟨s', t', hst⟩ := ih y s t hrest
        refine ⟨s', t', ?_⟩
        rw [cons_append, cons_append, UInt8.toNat_inj.mp hab, hst]
  obtain ⟨s', t', hst'⟩ := hbytes _ _ _ _ hst
  exact (cut_canon_ty h h' hst').1

variable {S T : PSig}

variable {α : Type}

theorem forall₂_arrange {β : Type} {f g : α → β} {R : α → α → Prop} {xs ys : List α}
    (h : ∀ x ∈ xs, ∀ y, f x = g y ↔ R x y) :
    xs.map f = ys.map g ↔ List.Forall₂ R xs ys := by
  rw [← List.forall₂_eq_eq_eq, List.forall₂_map_left_iff, List.forall₂_map_right_iff]
  constructor
  · exact fun hall => (forall₂_mem hall).imp fun x y hxy => (h x hxy.2.1 y).mp hxy.1
  · exact fun hall => (forall₂_mem hall).imp fun x y hxy => (h x hxy.2.1 y).mpr hxy.1

theorem formed_constraint (hS : S.Valid) (he : e ∈ S.constraints) :
    ∀ t ∈ e.tys, Formed t := fun t ht =>
  hS.formed t (mem_append_left _ (mem_append_right _
    (mem_flatMap.mpr ⟨e, he, ht⟩)))

/-- The constraint entries are emitted in one order where the keys agree on every subject. -/
theorem arrange_constraints_eq_iff (hS : S.Valid) (hT : T.Valid)
    (hsame : Sorting.Same PConstraint.Same S.constraints T.constraints) :
    (sort_by PConstraint.key S.constraints).map PConstraint.arrange =
        (sort_by PConstraint.key T.constraints).map PConstraint.arrange ↔
      ∀ e ∈ S.constraints, ∀ e' ∈ S.constraints, ∀ f ∈ T.constraints, ∀ f' ∈ T.constraints,
        e.Same f → e'.Same f' → e.subject = e'.subject →
          (e.bounds_key ≤ e'.bounds_key ↔ f.bounds_key ≤ f'.bounds_key) := by
  have hsorted : (sort_by PConstraint.key S.constraints).map PConstraint.arrange =
      (sort_by PConstraint.key T.constraints).map PConstraint.arrange ↔
      List.Forall₂ PConstraint.Same (sort (fun e => cmp_key e.key) S.constraints)
        (sort (fun e => cmp_key e.key) T.constraints) :=
    forall₂_arrange fun e he f =>
      arrange_constraint_eq_iff (formed_constraint hS ((perm_sort _).mem_iff.mp he))
  rw [hsorted, forall₂_sort_iff hsame]
  · constructor
    · intro h e he e' he' f hf f' hf' hef hef' hsub
      rw [← key_le_iff_of_subject hsub, h e he e' he' f hf f' hf' hef hef',
        key_le_iff_of_subject (hef.1.symm.trans (hsub.trans hef'.1))]
    · intro h e he e' he' f hf f' hf' hef hef'
      by_cases hsub : e.subject = e'.subject
      · rw [key_le_iff_of_subject hsub, h e he e' he' f hf f' hf' hef hef' hsub,
          key_le_iff_of_subject (hef.1.symm.trans (hsub.trans hef'.1))]
      · have hne : f.subject ≠ f'.subject := fun hf =>
          hsub (hef.1.trans (hf.trans hef'.1.symm))
        rw [key_le_iff_of_ne (formed_constraint hS he _ mem_cons_self)
          (formed_constraint hS he' _ mem_cons_self) hsub,
          key_le_iff_of_ne (formed_constraint hT hf _ mem_cons_self)
          (formed_constraint hT hf' _ mem_cons_self) hne, hef.1, hef'.1]
  · rintro ⟨s, bs⟩ he ⟨s', bs'⟩ he' f hf ⟨rfl, hbs⟩ ⟨rfl, hbs'⟩
    exact congrArg _ (hS.bounds _ he _ he' (hbs.trans hbs'.symm))
  · rintro e he ⟨s, bs⟩ hf ⟨s', bs'⟩ hf' ⟨rfl, hbs⟩ ⟨rfl, hbs'⟩
    exact congrArg _ (hT.bounds _ hf _ hf' (hbs.symm.trans hbs'))
  · intro e he e' he' hkey
    exact constraint_key_inj (formed_constraint hS he) (formed_constraint hS he') hkey
  · intro f hf f' hf' hkey
    exact constraint_key_inj (formed_constraint hT hf) (formed_constraint hT hf') hkey

/-! ## Associated types -/

def arrange_assoc {α : Type} (f : α → α) (e : PAssoc α) : PAssoc α :=
  ⟨e.name, f e.what⟩

theorem arrange_assocs_eq_sort (f : α → α) (xs : List (PAssoc α)) :
    arrange_assocs f xs = sort (fun e => cmp_key e.name) (xs.map (arrange_assoc f)) :=
  map_insertionSort (fun x y : PAssoc α => cmp_key x.name ≤ cmp_key y.name)
    (fun x y : PAssoc α => cmp_key x.name ≤ cmp_key y.name) (arrange_assoc f) xs
    fun _ _ _ _ => Iff.rfl

/-- Sorting by name keeps the order of the associated types of one name. -/
theorem arrange_assocs_eq_iff {f : α → α} {xs ys : List (PAssoc α)} :
    arrange_assocs f xs = arrange_assocs f ys ↔ ∀ name : Bytes,
      (xs.filter fun e => e.name = name).map (arrange_assoc f) =
        (ys.filter fun e => e.name = name).map (arrange_assoc f) := by
  have hfilter : ∀ (zs : List (PAssoc α)) (name : Bytes),
      ((zs.map (arrange_assoc f)).filter fun e => cmp_key e.name = cmp_key name) =
        (zs.filter fun e => e.name = name).map (arrange_assoc f) := by
    intro zs name
    rw [filter_map]
    congr 1
    refine filter_congr fun e _ => ?_
    exact decide_eq_decide.mpr ⟨cmp_key_inj, congrArg _⟩
  rw [arrange_assocs_eq_sort, arrange_assocs_eq_sort, sort_eq_iff]
  constructor
  · intro h name
    rw [← hfilter, h, hfilter]
  · intro h v
    by_cases hv : ∃ name, cmp_key name = v
    · obtain ⟨name, rfl⟩ := hv
      rw [hfilter, h, hfilter]
    · -- no name has this key
      have hnil : ∀ zs : List (PAssoc α), (zs.filter fun e => cmp_key e.name = v) = [] := fun zs =>
        filter_eq_nil_iff.mpr fun e _ he => hv ⟨e.name, of_decide_eq_true he⟩
      rw [hnil, hnil]

theorem formed_filter {xs : List (PAssoc (List PTraitRef))} {p : PAssoc (List PTraitRef) → Bool}
    (h : ∀ t ∈ xs.flatMap fun e => bounds_tys e.what, Formed t) {e : PAssoc (List PTraitRef)}
    (he : e ∈ xs.filter p) : ∀ t ∈ bounds_tys e.what, Formed t := fun t ht =>
  h t (mem_flatMap.mpr ⟨e, mem_of_mem_filter he, ht⟩)

/-- The details are emitted alike where the associated types agree on every name. -/
theorem arrange_detail_eq_iff {d d' : Detail} (hd : ∀ t ∈ d.tys, Formed t) (hsame : d.Same d') :
    d.arrange = d'.arrange ↔ d.Agree d' := by
  cases d <;> cases d' <;> simp only [Detail.Same, reduceCtorEq] at hsame
  case trait_.trait_ assocs items assocs' items' =>
    obtain ⟨-, rfl⟩ := hsame
    simp only [Detail.arrange, Detail.trait_.injEq, and_true, Detail.Agree,
      arrange_assocs_eq_iff]
    refine forall_congr' fun name => forall₂_arrange fun e he f => ?_
    rw [arrange_assoc, arrange_assoc, PAssoc.mk.injEq, sort_bounds_eq_iff (formed_filter hd he)]
    rfl
  case impl.impl st tr assocs items st' tr' assocs' items' =>
    obtain ⟨rfl, rfl, -, rfl⟩ := hsame
    have hid : arrange_assoc (id : PTy → PTy) = id := rfl
    simp only [Detail.arrange, Detail.impl.injEq, and_true, true_and, Detail.Agree,
      arrange_assocs_eq_iff, hid, map_id]
  case bare.bare => exact iff_of_true rfl trivial
  all_goals exact iff_of_true (congrArg Detail.arrange hsame) trivial

/-! ## Signatures -/

/-- The arranged forms of two signatures that are the same agree exactly when nothing in them
depends on the order of a store. -/
theorem arrange_eq_iff (hS : S.Valid) (hT : T.Valid) (hsame : S.Same T) :
    S.arrange = T.arrange ↔ S.Agree T := by
  have hgenerics : S.generics.map PGParam.arrange = T.generics.map PGParam.arrange := by
    refine (forall₂_arrange fun p hp q => arrange_gparam_eq_iff fun t ht => ?_).mpr hsame.generics
    exact hS.formed t (mem_append_left _ (mem_append_left _
      (mem_flatMap.mpr ⟨p, hp, ht⟩)))
  have hdetail := arrange_detail_eq_iff
    (fun t ht => hS.formed t (mem_append_right _ ht)) hsame.detail
  have hconstraints := arrange_constraints_eq_iff hS hT hsame.constraints
  constructor
  · intro h
    obtain ⟨-, -, -, hc, hd⟩ := PSig.mk.inj h
    exact ⟨hconstraints.mp hc, hdetail.mp hd⟩
  · intro h
    rw [PSig.arrange, PSig.arrange, hgenerics, hconstraints.mpr h.constraints,
      hdetail.mpr h.detail, hsame.kind, hsame.flags]

end Fors.Sigs
