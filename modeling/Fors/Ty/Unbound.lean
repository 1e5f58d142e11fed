import Fors.Ty.Inverse

/-!
# The first unbound slot

`first_unbound` walks a type as substitution does, and stops 64 levels down, where substitution goes
on.  What it answers is the first unbound slot within its reach.

Source: `crates/fors-fir/src/subst.rs`. Principal result: `first_unbound_separates_iff`.
-/

namespace Fors.Ty

open Trees TyStore Matching List
open Option hiding pure_def

/-- An owner's slot, and whether it is a brand. -/
abbrev SlotName := DefId × Nat × Bool

namespace TyStore

/-- `find_map` over types. -/
def find_map (f : TyId → Option (Option SlotName)) : List TyId → Option (Option SlotName)
  | [] => some none
  | x :: xs => do
    match ← f x with
    | some slot => some (some slot)
    | none => find_map f xs

/-- The walk with so many levels left; the source counts its depth up to 64. -/
def first_unbound_at (s : TyStore) (b : Binding) : Nat → TyId → Option (Option SlotName)
  | 0, _ => some none
  | levels + 1, ty => do
    let row ← s.rows[ty]?
    if is_monomorphic row then some none
    else do
      let base ← s.rows[row.unqual]?
      match base.tag with
      | .Param =>
        let ord := base.b % 2 ^ 16
        some (if b.owns base.a ∧ b.slot base.a ord = NO_TY then some (base.a, ord, false) else none)
      | .Brand => do
        match ← s.brands[base.b]? with
        | .Param owner ordinal =>
          some (if b.owns owner ∧ b.slot owner ordinal = NO_TY then some (owner, ordinal, true)
            else none)
        | .Fresh _ _ => some none
      | .Nominal | .Tuple => do
        let args ← s.args_at base.b
        find_map (s.first_unbound_at b levels) args
      | .Dyn => do
        let (_, args) ← s.trait_refs[base.a]?
        let args ← s.args_at args
        find_map (s.first_unbound_at b levels) args
      | .Fn => do
        let (params, result, raises, _) ← s.fn_at base.a
        find_map (s.first_unbound_at b levels)
          (params.map Prod.snd ++ result :: if raises = NO_TY then [] else [raises])
      | .Proj => do
        let (tr, _) ← s.proj_keys[base.b]?
        let (_, targs) ← s.trait_refs[tr]?
        match ← s.first_unbound_at b levels base.a with
        | some slot => some (some slot)
        | none => do
          let args ← s.args_at targs
          find_map (s.first_unbound_at b levels) args
      | .ConstVal => s.first_unbound_at b levels base.b
      | _ => some none

/-- The levels that the walk goes through: depths 0 to 64. -/
def UNBOUND_LEVELS : Nat := 65

/-- The first slot of `b` that `ty` mentions and that is still unbound, as `(owner, ordinal,
is_brand)`. -/
def first_unbound (s : TyStore) (ty : TyId) (b : Binding) : Option (Option SlotName) :=
  s.first_unbound_at b UNBOUND_LEVELS ty

end TyStore

/-! ## What a type mentions -/

/-- The slot of the binding's owners that a constructor names. -/
def Head.owned (b : Binding) : Head → Option SlotName
  | .Param owner ordinal => if b.owns owner then some (owner, ordinal % 2 ^ 16, false) else none
  | .Brand (.Param owner ordinal) => if b.owns owner then some (owner, ordinal, true) else none
  | _ => none

def Binding.Unbound (b : Binding) (slot : SlotName) : Prop :=
  b.slot slot.1 slot.2.1 = NO_TY

instance (b : Binding) (slot : SlotName) : Decidable (b.Unbound slot) :=
  inferInstanceAs (Decidable (_ = _))

/-- The type names the slot so many levels down. -/
inductive Mentions (b : Binding) : Rose Label → Nat → SlotName → Prop
  | here {l : Label} {cs : List (Rose Label)} {slot : SlotName} (h : l.head.owned b = some slot) :
      Mentions b (.node l cs) 0 slot
  | inside {l : Label} {cs : List (Rose Label)} {c : Rose Label} {d : Nat} {slot : SlotName}
      (hc : c ∈ cs) (h : Mentions b c d slot) : Mentions b (.node l cs) (d + 1) slot

theorem Mentions.sub {b : Binding} {T : Rose Label} {d : Nat} {slot : SlotName}
    (h : Mentions b T d slot) :
    ∃ l cs, Rose.Sub (.node l cs) T ∧ l.head.owned b = some slot := by
  induction h with
  | here h => exact ⟨_, _, .refl _, h⟩
  | inside hc _ ih =>
    obtain ⟨l, cs, hsub, howned⟩ := ih
    exact ⟨l, cs, .child hc hsub, howned⟩

/-! ## The walk -/

section Walk

variable {k : Keys} {s : TyStore} {b : Binding} {t : TyId}

variable {slot : SlotName}

/-- A parameter has nothing below it. -/
theorem owned_leaf {c : Content} {l : Label} {cs : List TyId} (h : s.node_of c = some (l, cs)) (howned : l.head.owned b = some slot) : cs = [] := by
  obtain ⟨tag, a, b', q⟩ := c
  cases tag with
  | ConstVal =>
    rw [node_of] at h
    split at h
    all_goals
      obtain ⟨rfl, -⟩ := Prod.mk.inj (some.inj h)
      cases howned
  | _ =>
    simp only [node_of, bind_eq_bind, bind_eq_some_iff, pure_def,
      some.injEq, Prod.mk.injEq, Prod.exists] at h
    grind [Head.owned]

theorem tag_of_owned {head : Head} (h : head.owned b = some slot) :
    head.tag = .Param ∨ head.tag = .Proj ∨ head.tag = .Brand := by
  cases head with
  | Param => exact .inl rfl
  | Brand => exact .inr (.inr rfl)
  | _ => exact nomatch h

/-- One level of the walk, on nodes. -/
theorem first_unbound_succ (hs : s.Inv k) {row : TyRow} (hrow : s.rows[t]? = some row)
    (hopen : is_monomorphic row = false) (levels : Nat) :
    s.first_unbound_at b (levels + 1) t = match (s.node t).1.head.owned b with
      | some slot => some (if b.Unbound slot then some slot else none)
      | none => find_map (s.first_unbound_at b levels) (s.node t).2 := by
  obtain ⟨twin, htwin, hcontent⟩ := hs.twin t row hrow
  have hnode := (hs.node_spec hrow).1
  generalize s.node t = node at hnode
  obtain ⟨l, cs⟩ := node
  simp only [TyRow.content, Prod.mk.injEq] at hcontent
  obtain ⟨htag, ha, hb, -⟩ := hcontent
  rw [first_unbound_at, hrow]
  simp only [bind_eq_bind, bind_some, hopen, Bool.false_eq_true, if_false, htwin, htag,
    ha, hb]
  rw [TyRow.content] at hnode
  cases htag : row.tag with
  | Error | Unit | Never | Prim =>
    rw [htag] at hnode
    cases hnode
    rfl
  | Param =>
    rw [htag] at hnode
    cases hnode
    dsimp only
    rw [Head.owned]
    by_cases howns : b.owns row.a = true
    · simp only [howns, true_and, if_true]
      rfl
    · simp [howns, find_map]
  | Brand =>
    rw [htag] at hnode
    simp only [node_of, bind_eq_bind, bind_eq_some_iff, pure_def,
      some.injEq, Prod.mk.injEq] at hnode
    obtain ⟨brand, hbrand, rfl, rfl⟩ := hnode
    simp only [hbrand, bind_some]
    cases brand with
    | Fresh owner ordinal => rfl
    | Param owner ordinal =>
      dsimp only
      rw [Head.owned]
      by_cases howns : b.owns owner = true
      · simp only [howns, true_and, if_true]
        rfl
      · simp [howns, find_map]
  | Nominal | Tuple =>
    rw [htag] at hnode
    simp only [node_of, bind_eq_bind, bind_eq_some_iff, pure_def,
      some.injEq, Prod.mk.injEq] at hnode
    obtain ⟨xs, hxs, rfl, rfl⟩ := hnode
    simp only [hxs, bind_some, Head.owned]
  | Dyn =>
    rw [htag] at hnode
    simp only [node_of, bind_eq_bind, bind_eq_some_iff, pure_def,
      some.injEq, Prod.mk.injEq, Prod.exists] at hnode
    obtain ⟨d, args, htr, xs, hxs, rfl, rfl⟩ := hnode
    simp only [htr, hxs, bind_some, Head.owned]
  | Fn =>
    rw [htag] at hnode
    simp only [node_of, bind_eq_bind, bind_eq_some_iff, pure_def,
      some.injEq, Prod.mk.injEq, Prod.exists] at hnode
    obtain ⟨params, result, raises, closure, hfn, rfl, rfl⟩ := hnode
    simp only [hfn, bind_some, Head.owned]
  | Proj =>
    rw [htag] at hnode
    simp only [node_of, bind_eq_bind, bind_eq_some_iff, pure_def,
      some.injEq, Prod.mk.injEq, Prod.exists] at hnode
    obtain ⟨tr, name, hkey, d, args, htr, xs, hxs, rfl, rfl⟩ := hnode
    simp only [hkey, htr, hxs, bind_some, Head.owned, find_map, bind_eq_bind]
  | ConstVal =>
    rw [htag, node_of] at hnode
    have hone : ∀ x : TyId, s.first_unbound_at b levels x = find_map (s.first_unbound_at b levels) [x] := by
      intro x
      rw [find_map]
      rcases s.first_unbound_at b levels x with _ | _ | slot <;> rfl
    split at hnode
    all_goals
      cases hnode
      exact hone row.b

/-- Below so many levels, the answer of the walk is right. -/
structure AnswersUnbound (b : Binding) (T : Rose Label) (levels : Nat) (r : Option SlotName) : Prop where
  none : r = none → ∀ d < levels, ∀ slot, Mentions b T d slot → ¬ b.Unbound slot
  some : ∀ slot, r = some slot → b.Unbound slot ∧ ∃ d < levels, Mentions b T d slot

theorem find_map_answers {f : TyId → Option (Option SlotName)} {tree : TyId → Rose Label}
    {levels : Nat} {xs : List TyId}
    (h : ∀ x ∈ xs, ∃ r, f x = some r ∧ AnswersUnbound b (tree x) levels r) :
    ∃ r, find_map f xs = some r ∧
      (r = none → ∀ x ∈ xs, ∀ d < levels, ∀ slot, Mentions b (tree x) d slot → ¬ b.Unbound slot) ∧
      ∀ slot, r = some slot → b.Unbound slot ∧ ∃ x ∈ xs, ∃ d < levels, Mentions b (tree x) d slot := by
  induction xs with
  | nil => exact ⟨none, rfl, fun _ x hx => absurd hx not_mem_nil, nofun⟩
  | cons x xs ih =>
    obtain ⟨r, hr, hanswers⟩ := h x mem_cons_self
    cases r with
    | some slot =>
      refine ⟨some slot, by rw [find_map, hr]; rfl, nofun, fun slot' hslot => ?_⟩
      obtain ⟨hunbound, d, hd, hmentions⟩ := hanswers.some slot' hslot
      exact ⟨hunbound, x, mem_cons_self, d, hd, hmentions⟩
    | none =>
      obtain ⟨r, hrest, hnone, hsome⟩ := ih fun y hy => h y (mem_cons_of_mem x hy)
      refine ⟨r, by rw [find_map, hr]; exact hrest, fun hr' => ?_, fun slot hslot => ?_⟩
      · rw [forall_mem_cons]
        exact ⟨hanswers.none rfl, hnone hr'⟩
      · obtain ⟨hunbound, y, hy, hmentions⟩ := hsome slot hslot
        exact ⟨hunbound, y, mem_cons_of_mem x hy, hmentions⟩

/-- A monomorphic type mentions no slot. -/
theorem TyStore.Inv.mentions_open (hs : s.Inv k) {row : TyRow} (hrow : s.rows[t]? = some row) {d : Nat} (h : Mentions b (s.tree t) d slot) : is_monomorphic row = false := by
  obtain ⟨l, cs, hsub, howned⟩ := h.sub
  have hcontains : s.Contains t fun head =>
      head.tag = .Param ∨ head.tag = .Proj ∨ head.tag = .Brand := ⟨l, cs, hsub, tag_of_owned howned⟩
  exact decide_eq_false ((hs.flags_iff own_open hrow).2 hcontains)

theorem TyStore.Inv.first_unbound_at (hs : s.Inv k) (levels : Nat) :
    ∀ t < s.rows.length, ∃ r, s.first_unbound_at b levels t = some r ∧
      AnswersUnbound b (s.tree t) levels r := by
  induction levels with
  | zero => exact fun t _ => ⟨none, rfl, fun _ d hd => absurd hd (Nat.not_lt_zero d), nofun⟩
  | succ levels ih =>
    intro t ht
    have hrow := getElem?_eq_getElem ht
    obtain ⟨hnode, hlt, -⟩ := hs.node_spec hrow
    have htree : s.tree t = .node (s.node t).1 ((s.node t).2.map s.tree) := tree_eq hs.descends ht
    cases hmono : is_monomorphic s.rows[t] with
    | true =>
      refine ⟨none, ?_, fun _ d _ slot hmentions => ?_, nofun⟩
      · rw [TyStore.first_unbound_at, hrow]
        simp [hmono]
      · rw [hs.mentions_open hrow hmentions] at hmono
        exact nomatch hmono
    | false =>
      rw [first_unbound_succ hs hrow hmono]
      generalize s.node t = node at *
      obtain ⟨l, cs⟩ := node
      rw [htree]
      cases howned : l.head.owned b with
      | some slot =>
        obtain rfl := owned_leaf hnode howned
        refine ⟨_, rfl, fun hnone d _ slot' hmentions => ?_, fun slot' hslot => ?_⟩
        · cases hmentions with
          | here h =>
            rw [howned] at h
            cases h
            exact fun hunbound => by simp [hunbound] at hnone
          | inside hc _ => exact absurd hc not_mem_nil
        · by_cases hunbound : b.Unbound slot
          · rw [if_pos hunbound] at hslot
            cases hslot
            exact ⟨hunbound, 0, Nat.succ_pos levels, .here howned⟩
          · rw [if_neg hunbound] at hslot
            exact nomatch hslot
      | none =>
        obtain ⟨r, hr, hnone, hsome⟩ := @find_map_answers _ _ s.tree _ _ fun x hx =>
          ih x (Nat.lt_trans (hlt x hx) ht)
        refine ⟨r, hr, fun hr' d hd slot hmentions => ?_, fun slot hslot => ?_⟩
        · cases hmentions with
          | here h =>
            rw [howned] at h
            exact nomatch h
          | inside hc h =>
            obtain ⟨x, hx, rfl⟩ := mem_map.1 hc
            exact hnone hr' x hx _ (Nat.lt_of_succ_lt_succ hd) slot h
        · obtain ⟨hunbound, x, hx, d, hd, hmentions⟩ := hsome slot hslot
          exact ⟨hunbound, d + 1, Nat.succ_lt_succ hd, .inside (mem_map_of_mem hx) hmentions⟩

end Walk

/-! ## Where substitution fails -/

/-- A projection in the type has a concrete head after substitution, or a qualified slot holds a
qualified type. -/
inductive Stuck (b : Binding) (s : TyStore) (T : Rose Label) : Prop
  | projection {l : Label} {head u : Rose Label} {args : List (Rose Label)}
      (hsub : Rose.Sub (.node l (head :: args)) T) (htag : l.head.tag = .Proj)
      (hhead : subst (marks b) (b.values s) head = some u) (hconcrete : rigid u = false)
  | qualified {l : Label} {cs : List (Rose Label)} {slot : SlotName} {row : TyRow}
      (hsub : Rose.Sub (.node l cs) T) (hslot : l.head.owned b = some slot) (hq : l.quals ≠ .NONE)
      (hrow : s.rows[b.slot slot.1 slot.2.1]? = some row) (hquals : row.quals ≠ .NONE)

theorem Stuck.inside {b : Binding} {s : TyStore} {l : Label} {c : Rose Label} {cs : List (Rose Label)}
    (h : Stuck b s c) (hc : c ∈ cs) : Stuck b s (.node l cs) := by
  cases h with
  | projection hsub htag hhead hconcrete => exact .projection (.child hc hsub) htag hhead hconcrete
  | qualified hsub hslot hq hrow hquals => exact .qualified (.child hc hsub) hslot hq hrow hquals

section Failure

variable {k : Keys} {s : TyStore} {b : Binding}

theorem slot_of_eq (b : Binding) (l : Label) :
    b.slot_of l = (l.head.owned b).map fun slot => b.at_ slot.1 slot.2.1 := by
  obtain ⟨head, spare, quals⟩ := l
  cases head with
  | Param owner ordinal =>
    simp only [Binding.slot_of, Head.owned]
    split <;> rfl
  | Brand row =>
    cases row with
    | Param owner ordinal =>
      simp only [Binding.slot_of, Head.owned]
      split <;> rfl
    | Fresh owner ordinal => rfl
  | _ => rfl

/-- A bound slot has no instance only where both its position and its type are qualified. -/
theorem stuck_of_slot (hs : s.Inv k) (hover : b.Over s) {l : Label} {cs : List (Rose Label)}
    {slot : SlotName} (hslot : l.head.owned b = some slot) (hbound : ¬ b.Unbound slot)
    (hnone : subst (marks b) (b.values s) (.node l cs) = none) : Stuck b s (.node l cs) := by
  have hmark : (marks b).slot l = some (b.at_ slot.1 slot.2.1) := by
    rw [marks_slot, slot_of_eq, hslot]
    rfl
  have hvalue := Binding.values_at s b slot.1 slot.2.1
  rw [if_neg (show b.slot slot.1 slot.2.1 ≠ NO_TY from hbound)] at hvalue
  have hlt := hover.slot_lt (show b.slot slot.1 slot.2.1 ≠ NO_TY from hbound)
  rw [subst_slot hmark, hvalue, bind_some] at hnone
  change b.put l _ = none at hnone
  have hlost := Binding.slot_ne_lost rfl hmark hvalue
  rw [Binding.put, if_neg hlost] at hnone
  by_cases hq : l.quals = .NONE
  · rw [if_pos hq] at hnone
    cases hnone
  · rw [if_neg hq] at hnone
    have hrow := getElem?_eq_getElem hlt
    have hquals : (s.tree (b.slot slot.1 slot.2.1)).label.quals =
        s.rows[b.slot slot.1 slot.2.1].quals := by
      rw [show s.tree _ = _ from tree_eq hs.descends hlt, Rose.label]
      exact (node_of_tag (hs.node_spec hrow).1).2
    refine .qualified (.refl _) hslot hq hrow fun hbare => ?_
    rw [if_pos (hquals.trans hbare)] at hnone
    cases hnone

/-- A projection has its head as its first child. -/
theorem proj_children {c : Content} {l : Label} {cs : List TyId} (h : s.node_of c = some (l, cs))
    (htag : l.head.tag = .Proj) : ∃ head args, cs = head :: args := by
  obtain ⟨tag, a, b', q⟩ := c
  obtain rfl : TyTag.Proj = tag := htag.symm.trans (node_of_tag h).1
  simp only [node_of, bind_eq_bind, bind_eq_some_iff, pure_def,
    some.injEq, Prod.mk.injEq] at h
  obtain ⟨-, -, -, -, args, -, -, rfl⟩ := h
  exact ⟨a, args, rfl⟩

/-- With every slot bound, a type has no instance only where it is stuck. -/
theorem stuck_of_subst (hs : s.Inv k) (hover : b.Over s) (t : TyId) (ht : t < s.rows.length)
    (hbound : ∀ d slot, Mentions b (s.tree t) d slot → ¬ b.Unbound slot)
    (hnone : subst (marks b) (b.values s) (s.tree t) = none) : Stuck b s (s.tree t) := by
  induction t using Nat.strongRecOn with
  | ind t ih =>
    have hrow := getElem?_eq_getElem ht
    obtain ⟨hnode, hlt, -⟩ := hs.node_spec hrow
    have htree : s.tree t = .node (s.node t).1 ((s.node t).2.map s.tree) := tree_eq hs.descends ht
    generalize s.node t = node at *
    obtain ⟨l, cs⟩ := node
    rw [htree] at hbound hnone ⊢
    cases howned : l.head.owned b with
    | some slot => exact stuck_of_slot hs hover howned (hbound 0 slot (.here howned)) hnone
    | none =>
      have hmark : (marks b).slot l = none := by
        rw [marks_slot, slot_of_eq, howned]
        rfl
      rw [subst_node hmark] at hnone
      cases hlist : substList (marks b) (b.values s) (cs.map s.tree) with
      | none =>
        obtain ⟨c, hc, hsubst⟩ := substList_eq_none hlist
        obtain ⟨x, hx, rfl⟩ := mem_map.1 hc
        have hstuck := ih x (hlt x hx) (Nat.lt_trans (hlt x hx) ht)
          (fun d slot h => hbound (d + 1) slot (.inside hc h)) hsubst
        exact hstuck.inside hc
      | some us =>
        rw [hlist, bind_some] at hnone
        have hok : ¬ (marks b).ok l us = true := fun hok => by
          rw [if_pos hok] at hnone
          exact nomatch hnone
        simp only [marks, decide_eq_true_eq, not_or, not_not, not_exists, not_and] at hok
        obtain ⟨htag, hconcrete⟩ := hok
        obtain ⟨head, args, rfl⟩ := proj_children hnode htag
        rw [map_cons, substList] at hlist
        obtain ⟨u, hu, us', -, rfl⟩ : ∃ u, subst (marks b) (b.values s) (s.tree head) = some u ∧
            ∃ us', substList (marks b) (b.values s) (args.map s.tree) = some us' ∧ u :: us' = us := by
          simpa only [bind_eq_some_iff, map_eq_some_iff] using hlist
        have hrigid : rigid u = false := by simpa using hconcrete u (by simp)
        exact .projection (.refl _) htag hu hrigid

/-! ## Undetermined and un-normalised -/

/-- `first_unbound` names a slot exactly when the type mentions an unbound one, and it names such a
slot; where it names none, substitution fails only on what is stuck. -/
def Separates (k : Keys) (s : TyStore) (b : Binding) (t : TyId) : Prop :=
  ∃ r, s.first_unbound t b = some r ∧
    (r = none ↔ ∀ d slot, Mentions b (s.tree t) d slot → ¬ b.Unbound slot) ∧
    (∀ slot, r = some slot → b.Unbound slot ∧ ∃ d, Mentions b (s.tree t) d slot) ∧
    (r = none → ∀ fuel s', subst_norm k b fuel s t = some (s', none) → s'.Fits →
      Stuck b s (s.tree t))

/-- Some unbound slot is within the walk's reach, if any is mentioned. -/
def Shallow (b : Binding) (T : Rose Label) : Prop :=
  (∀ d slot, Mentions b T d slot → ¬ b.Unbound slot) ∨
    ∃ d ≤ 64, ∃ slot, Mentions b T d slot ∧ b.Unbound slot

theorem first_unbound_separates_iff {ops : List Op} {t : TyId} (h : Reached k ops s)
    (htyped : ∀ op ∈ ops, op.Typed) (hfit : s.Fits) (hover : b.Over s) (ht : t < s.rows.length) :
    Separates k s b t ↔ Shallow b (s.tree t) := by
  have hs := h.good htyped hfit
  obtain ⟨r, hr, hanswers⟩ := hs.toInv.first_unbound_at (b := b) UNBOUND_LEVELS t ht
  have hfails : (∀ d slot, Mentions b (s.tree t) d slot → ¬ b.Unbound slot) →
      ∀ fuel s', subst_norm k b fuel s t = some (s', none) → s'.Fits → Stuck b s (s.tree t) := by
    intro hbound fuel s' hrun hfit'
    have hpost := (subst_norm_post k b (b.values s) fuel s t s' none hrun).2 hfit' ⟨hs, hover, rfl⟩ ht
    exact stuck_of_subst hs.toInv hover t ht hbound hpost.tree
  constructor
  · rintro ⟨r', hr', hnone, -, -⟩
    obtain rfl : r = r' := some.inj (hr.symm.trans hr')
    cases r with
    | none => exact .inl (hnone.1 rfl)
    | some slot =>
      obtain ⟨hunbound, d, hd, hmentions⟩ := hanswers.some slot rfl
      exact .inr ⟨d, Nat.le_of_lt_succ hd, slot, hmentions, hunbound⟩
  · intro hshallow
    have hiff : r = none ↔ ∀ d slot, Mentions b (s.tree t) d slot → ¬ b.Unbound slot := by
      constructor
      · intro hnone
        rcases hshallow with hbound | ⟨d, hd, slot, hmentions, hunbound⟩
        · exact hbound
        · exact absurd hunbound (hanswers.none hnone d (Nat.lt_succ_of_le hd) slot hmentions)
      · intro hbound
        cases r with
        | none => rfl
        | some slot =>
          obtain ⟨hunbound, d, -, hmentions⟩ := hanswers.some slot rfl
          exact absurd hunbound (hbound d slot hmentions)
    refine ⟨r, hr, hiff, fun slot hslot => ?_, fun hnone => hfails (hiff.1 hnone)⟩
    obtain ⟨hunbound, d, -, hmentions⟩ := hanswers.some slot hslot
    exact ⟨hunbound, d, hmentions⟩

/-- A parameter under a tuple. -/
theorem first_unbound_separates_pair : ∃ s, Reached colliding [.param 100 0, .tuple_of [3]] s ∧
    (Separates colliding s unbound 4 ↔ Shallow unbound (s.tree 4)) := by
  have h : ((new colliding).bind (run colliding [.param 100 0, .tuple_of [3]])).map sizes =
      some ((5, 1, 2), (0, 0, 0), 0, 0, 0) := by
    decide +kernel
  obtain ⟨s, hs, hsizes⟩ := map_eq_some_iff.mp h
  obtain ⟨s0, hnew, hrun⟩ := bind_eq_some_iff.mp hs
  have hfit := fits_of_sizes hsizes (by omega) (by omega) (by omega) (by omega)
  have hrows : s.rows.length = 5 := (Prod.mk.inj (Prod.mk.inj hsizes).1).1
  have hover : unbound.Over s := ⟨by simp [unbound], by simp [unbound]⟩
  exact ⟨s, ⟨s0, hnew, hrun⟩, first_unbound_separates_iff ⟨s0, hnew, hrun⟩ (by simp [Op.Typed]) hfit
    hover (show 4 < s.rows.length by omega)⟩

/-- A parameter under 65 tuples. -/
def buried : List Op :=
  .param 100 0 :: (List.range 65).map fun i => .tuple_of [i + 3]

/-- Keys that seldom collide. -/
def spread_keys : Keys where
  args xs := xs.sum
  trait_ref _ := 0
  proj_key _ := 0
  fn_ty _ := 0
  brand _ := 0
  const _ := 0
  row c := c.2.1 + c.2.2.1

/-- The walk does not see the unbound parameter, which would be the next one it came to. -/
theorem buried_parameter : ∃ s, Reached spread_keys buried s ∧ (∀ op ∈ buried, op.Typed) ∧ s.Fits ∧
    unbound.Over s ∧ 68 < s.rows.length ∧ ¬ Separates spread_keys s unbound 68 := by
  have h : ((new spread_keys).bind (run spread_keys buried)).map (fun s =>
      decide (sizes s = ((69, 65, 66), (0, 0, 0), 0, 0, 0) ∧
        s.first_unbound 68 unbound = some none ∧
        s.first_unbound_at unbound 66 68 = some (some (100, 0, false)))) = some true := by
    decide +kernel
  obtain ⟨s, hs, h⟩ := map_eq_some_iff.mp h
  obtain ⟨hsizes, hfirst, hnext⟩ := of_decide_eq_true h
  obtain ⟨s0, hnew, hrun⟩ := bind_eq_some_iff.mp hs
  have hreached : Reached spread_keys buried s := ⟨s0, hnew, hrun⟩
  have htyped : ∀ op ∈ buried, op.Typed := by
    simp [buried, Op.Typed]
  have hfit := fits_of_sizes hsizes (by omega) (by omega) (by omega) (by omega)
  have hrows : s.rows.length = 69 := (Prod.mk.inj (Prod.mk.inj hsizes).1).1
  have hlt : 68 < s.rows.length := by omega
  refine ⟨s, hreached, htyped, hfit, ⟨by simp [unbound], by simp [unbound]⟩, hlt, ?_⟩
  rintro ⟨r, hr, hnone, -, -⟩
  obtain rfl := some.inj (hfirst.symm.trans hr)
  obtain ⟨r, hr, hanswers⟩ := (hreached.inv hfit).first_unbound_at (b := unbound) 66 68 hlt
  obtain rfl := some.inj (hnext.symm.trans hr)
  obtain ⟨hunbound, d, -, hmentions⟩ := hanswers.some _ rfl
  exact hnone.1 rfl d _ hmentions hunbound

end Failure

end Fors.Ty
