import Fors.Ty.Reproduce

/-!
# The one-way match on trees

`one_way_match` walks two rows. Read as trees, it is the match of the library: it answers as that
does, binds what that binds, and leaves the store as it is.

Principal result: `one_way_match_agrees`.
-/

namespace Fors.Ty

open Option hiding or_self pure_def
open Trees TyStore Matching List

/-- No brand in the type is qualified. -/
def BrandsBare (T : Rose Label) : Prop :=
  ∀ l cs, Rose.Sub (.node l cs) T → l.head.tag = .Brand → l.quals = .NONE

/-- Types that a match is defined on: brands are unqualified, and projections mention no slot. -/
structure Pattern (b : Binding) (T : Rose Label) : Prop where
  plain : Plain (faces b) T
  brands : BrandsBare T

/-- Every brand in the type is unqualified, and so is what its slot holds. -/
def Bare (b : Binding) (v : Values Label (Option Nat)) (T : Rose Label) : Prop :=
  ∀ l cs, Rose.Sub (.node l cs) T → l.head.tag = .Brand →
    l.quals = .NONE ∧ ∀ i u, b.slot_of l = some i → v i = some u → u.label.quals = .NONE

mutual

/-- On such types, what a match compares is what substitution makes. -/
theorem subst_faces {b : Binding} {v : Values Label (Option Nat)} : ∀ T : Rose Label, Bare b v T →
    subst (faces b) v T = subst (marks b) v T
  | .node l cs, h => by
    have hcs := substList_faces cs fun c hc l' cs' hsub => h l' cs' (.child hc hsub)
    cases hslot : b.slot_of l with
    | none =>
      rw [subst_node ((faces_slot b l).trans hslot), subst_node ((marks_slot b l).trans hslot), hcs]
      rfl
    | some i =>
      rw [subst_slot ((faces_slot b l).trans hslot), subst_slot ((marks_slot b l).trans hslot)]
      cases hu : v i with
      | none => rfl
      | some u =>
        refine if_neg ?_
        rintro ⟨htag, hne⟩
        obtain ⟨hq, hbare⟩ := h l cs (.refl _) htag
        exact hne ⟨hq, hbare i u hslot hu⟩

theorem substList_faces {b : Binding} {v : Values Label (Option Nat)} : ∀ Ts : List (Rose Label),
    (∀ T ∈ Ts, Bare b v T) → substList (faces b) v Ts = substList (marks b) v Ts
  | [], _ => rfl
  | T :: Ts, h => by
    rw [forall_mem_cons] at h
    rw [substList, substList, subst_faces T h.1, substList_faces Ts h.2]

end

/-- `NoFail` passes over brands, once their qualifiers agree. -/
def skips : MatchMode → Skips Label
  | .Strict => .none
  | .NoFail => ⟨fun l => l.head.tag = .Brand, fun l t => l.quals = t.label.quals⟩

theorem skips_eq_false {mode : MatchMode} {l : Label} (h : l.head.tag ≠ .Brand) :
    (skips mode).skip l = false := by
  cases mode with
  | Strict => rfl
  | NoFail => exact decide_eq_false h

/-- `b'` has the owners and as many slots as `b`. -/
structure Binding.SameShape (b b' : Binding) : Prop where
  owners : b'.owners = b.owners
  len : b'.slots.length = b.slots.length

theorem Binding.SameShape.refl (b : Binding) : b.SameShape b :=
  ⟨rfl, rfl⟩

theorem Binding.SameShape.trans {b b' b'' : Binding} (h : b.SameShape b') (h' : b'.SameShape b'') :
    b.SameShape b'' :=
  ⟨h'.owners.trans h.owners, h'.len.trans h.len⟩

/-- The run of a match leaves the store, and ends as the match of trees does. -/
def Agrees (s : TyStore) (b : Binding) (m : Option (Values Label (Option Nat)))
    (r : Option (TyStore × Binding × Bool)) : Prop :=
  ∃ b' ok, r = some (s, b', ok) ∧ b.SameShape b' ∧ b'.Over s ∧
    m = if ok then some (b'.values s) else none

variable {k : Keys} {mode : MatchMode} {s : TyStore} {b : Binding} {p t : TyId} {n : Nat}
  {f : TyStore → TyId → TyId → Binding → Option (TyStore × Binding × Bool)}

variable {m : Option (Values Label (Option Nat))}

theorem Agrees.fail (hover : b.Over s) (hm : m = none) :
    Agrees s b m (some (s, b, false)) :=
  ⟨b, false, rfl, .refl b, hover, hm⟩

theorem Agrees.decide (hover : b.Over s) {P : Prop} [Decidable P] {c : Bool} (hc : c = true ↔ P)
    (hm : m = if P then some (b.values s) else none) : Agrees s b m (some (s, b, c)) := by
  refine ⟨b, c, rfl, .refl b, hover, ?_⟩
  rw [hm]
  by_cases hP : P
  · rw [if_pos hP, if_pos (hc.mpr hP)]
  · rw [if_neg hP, if_neg (fun h => hP (hc.mp h))]

/-- Two matches, one after the other. -/
theorem Agrees.and_then {g : Values Label (Option Nat) → Option (Values Label (Option Nat))}
    {r : Option (TyStore × Binding × Bool)}
    {f : TyStore → Binding → Option (TyStore × Binding × Bool)} (h : Agrees s b m r)
    (hg : ∀ b', b.SameShape b' → b'.Over s → Agrees s b' (g (b'.values s)) (f s b')) :
    Agrees s b (m.bind g) (and_then r f) := by
  obtain ⟨b', ok, rfl, hshape, hover, rfl⟩ := h
  cases ok with
  | false => exact ⟨b', false, rfl, hshape, hover, rfl⟩
  | true =>
    obtain ⟨b'', ok, hrun, hshape', hover', hm⟩ := hg b' hshape hover
    exact ⟨b'', ok, hrun, hshape.trans hshape', hover', hm⟩

/-! ## Binding a slot -/

theorem Binding.values_slot (s : TyStore) (b : Binding) (i : Nat) :
    b.values s (some i) = if b.slots.getD i NO_TY = NO_TY then none
      else some (s.tree (b.slots.getD i NO_TY)) :=
  rfl

variable {ty : TyId}

theorem Binding.values_set {i : Nat} (hi : i < b.slots.length) (hty : ty ≠ NO_TY) :
    Binding.values s { b with slots := b.slots.set i ty } =
      Function.update (b.values s) (some i) (some (s.tree ty)) := by
  funext j
  cases j with
  | none =>
    rw [Function.update_of_ne (by simp)]
    rfl
  | some j =>
    by_cases hj : j = i
    · subst hj
      rw [Function.update_self, Binding.values_slot]
      simp only [getD_eq_getElem?_getD, getElem?_set_self hi, getD_some]
      rw [if_neg hty]
    · rw [Function.update_of_ne (by simpa using hj), Binding.values_slot, Binding.values_slot]
      simp only [getD_eq_getElem?_getD, getElem?_set_ne (Ne.symm hj)]

theorem ne_no_ty (hfit : s.Fits) (hty : ty < s.rows.length) : ty ≠ NO_TY := by
  rintro rfl
  exact absurd (Nat.lt_of_lt_of_le hty hfit.rows) (Nat.lt_irrefl _)

/-- `bind` is the library's, on the types that the slots hold. -/
theorem bind_agrees (hs : s.Inv k) (hfit : s.Fits) (hover : b.Over s) {owner : DefId}
    {ordinal : Nat} (hty : ty < s.rows.length) {i : Nat} (hat : b.at_ owner ordinal = some i) :
    Agrees s b (bindSlot (b.values s) (some i) (s.tree ty))
      (some (s, (b.bind owner ordinal ty).1, (b.bind owner ordinal ty).2)) := by
  have hi := hover.at_lt hat
  have hne := ne_no_ty hfit hty
  refine ⟨_, _, rfl, ?_, hover.bind hty, ?_⟩
  · rw [Binding.bind, hat]
    simp only
    split
    · exact ⟨rfl, length_set⟩
    · exact .refl b
  · rw [Binding.bind, hat, bindSlot, Binding.values_slot]
    simp only
    by_cases hno : b.slots.getD i NO_TY = NO_TY
    · simp only [if_pos hno, if_true, Binding.values_set hi hne]
    · have hiff := hs.tree_eq_iff ((hover.slot i).resolve_left hno) hty
      simp only [if_neg hno, reduceCtorEq, if_false, some.injEq, hiff, decide_eq_true_eq]

/-- Past its owner's slots a parameter binds nothing. -/
theorem bind_lost (hover : b.Over s) {owner : DefId} {ordinal : Nat}
    (hat : b.at_ owner ordinal = none) (hm : m = none) :
    Agrees s b m (some (s, (b.bind owner ordinal ty).1, (b.bind owner ordinal ty).2)) := by
  rw [Binding.bind, hat]
  exact .fail hover hm

/-! ## Lists of types -/

/-- A match of rows below `n` that agrees with the match of their trees. -/
def Matches (mode : MatchMode) (s : TyStore) (n : Nat)
    (f : TyStore → TyId → TyId → Binding → Option (TyStore × Binding × Bool)) : Prop :=
  ∀ p t b, p < n → p < s.rows.length → t < s.rows.length → b.Over s → Pattern b (s.tree p) →
    Agrees s b (matchTree (faces b) (skips mode) (s.tree p) (s.tree t) (b.values s)) (f s p t b)

theorem Pattern.congr {b' : Binding} {T : Rose Label} (hshape : b.SameShape b')
    (h : Pattern b T) : Pattern b' T where
  plain := by
    rw [faces_congr hshape.owners]
    exact h.plain
  brands := h.brands

theorem matchList_ne {S : Slots Label (Option Nat)} {K : Skips Label} {ps ts : List (Rose Label)}
    {v : Values Label (Option Nat)} (hlen : ts.length ≠ ps.length) :
    matchList S K ps ts v = none := by
  cases h : matchList S K ps ts v with
  | none => rfl
  | some w => exact absurd (matchList_length h).symm hlen

theorem match_list_agrees (hf : Matches mode s n f) : ∀ (ps ts : List TyId) (b : Binding),
    ts.length = ps.length → (∀ p ∈ ps, p < n) → (∀ p ∈ ps, p < s.rows.length) →
    (∀ t ∈ ts, t < s.rows.length) → b.Over s → (∀ p ∈ ps, Pattern b (s.tree p)) →
    Agrees s b (matchList (faces b) (skips mode) (ps.map s.tree) (ts.map s.tree) (b.values s))
      (match_list f s ps ts b)
  | [], [], b, _, _, _, _, hover, _ =>
    ⟨b, true, rfl, .refl b, hover, by rw [map_nil, matchList, if_pos rfl]⟩
  | p :: ps, t :: ts, b, hlen, hn, hps, hts, hover, hpat => by
    rw [forall_mem_cons] at hn hps hts hpat
    rw [map_cons, map_cons, matchList, match_list]
    refine .and_then (hf p t b hn.1 hps.1 hts.1 hover hpat.1) fun b' hshape hover' => ?_
    rw [← faces_congr hshape.owners]
    exact match_list_agrees hf ps ts b' (by simpa using hlen) hn.2 hps.2 hts.2 hover'
      fun p hp => (hpat.2 p hp).congr hshape
  | [], t :: ts, b, hlen, _, _, _, _, _ => absurd hlen (by simp)
  | p :: ps, [], b, hlen, _, _, _, _, _ => absurd hlen (by simp)

theorem match_args_agrees (hf : Matches mode s n f) {pa ta : ArgsId} {ps ts : List TyId}
    (hpa : s.args_at pa = some ps) (hta : s.args_at ta = some ts) (hn : ∀ p ∈ ps, p < n)
    (hps : ∀ p ∈ ps, p < s.rows.length) (hts : ∀ t ∈ ts, t < s.rows.length) (hover : b.Over s)
    (hpat : ∀ p ∈ ps, Pattern b (s.tree p)) :
    Agrees s b (matchList (faces b) (skips mode) (ps.map s.tree) (ts.map s.tree) (b.values s))
      (match_args f s pa ta b) := by
  rw [match_args, hpa, hta]
  simp only [bind_eq_bind, bind_some]
  by_cases hlen : ts.length = ps.length
  · rw [if_neg (not_not.mpr hlen)]
    exact match_list_agrees hf ps ts b hlen hn hps hts hover hpat
  · rw [if_pos hlen]
    exact .fail hover (matchList_ne (by simpa using hlen))

theorem match_params_agrees (hf : Matches mode s n f) : ∀ (ps ts : List (Conv × TyId)) (b : Binding),
    ts.length = ps.length → (∀ p ∈ ps.map Prod.snd, p < n) →
    (∀ p ∈ ps.map Prod.snd, p < s.rows.length) → (∀ t ∈ ts.map Prod.snd, t < s.rows.length) →
    b.Over s → (∀ p ∈ ps.map Prod.snd, Pattern b (s.tree p)) →
    Agrees s b (if ps.map Prod.fst = ts.map Prod.fst then matchList (faces b) (skips mode)
        ((ps.map Prod.snd).map s.tree) ((ts.map Prod.snd).map s.tree) (b.values s) else none)
      (match_params f s ps ts b)
  | [], [], b, _, _, _, _, hover, _ =>
    ⟨b, true, rfl, .refl b, hover, by simp [matchList]⟩
  | (pc, pt) :: ps, (tc, tt) :: ts, b, hlen, hn, hps, hts, hover, hpat => by
    simp only [map_cons, forall_mem_cons] at hn hps hts hpat
    rw [match_params]
    by_cases hconv : pc = tc
    · subst hconv
      rw [if_neg (not_not.mpr rfl)]
      have hbind : (if ((pc, pt) :: ps).map Prod.fst = ((pc, tt) :: ts).map Prod.fst then
          matchList (faces b) (skips mode) ((((pc, pt) :: ps).map Prod.snd).map s.tree)
            ((((pc, tt) :: ts).map Prod.snd).map s.tree) (b.values s) else none) =
          (matchTree (faces b) (skips mode) (s.tree pt) (s.tree tt) (b.values s)).bind fun w =>
            if ps.map Prod.fst = ts.map Prod.fst then matchList (faces b) (skips mode)
              ((ps.map Prod.snd).map s.tree) ((ts.map Prod.snd).map s.tree) w else none := by
        simp only [map_cons, cons.injEq, true_and, matchList]
        by_cases hrest : ps.map Prod.fst = ts.map Prod.fst
        · simp only [if_pos hrest]
        · simp only [if_neg hrest, bind_fun_none]
      rw [hbind]
      refine .and_then (hf pt tt b hn.1 hps.1 hts.1 hover hpat.1) fun b' hshape hover' => ?_
      rw [← faces_congr hshape.owners]
      exact match_params_agrees hf ps ts b' (by simpa using hlen) hn.2 hps.2 hts.2 hover'
        fun p hp => (hpat.2 p hp).congr hshape
    · rw [if_pos hconv]
      exact .fail hover (by simp [hconv])
  | [], t :: ts, b, hlen, _, _, _, _, _ => absurd hlen (by simp)
  | p :: ps, [], b, hlen, _, _, _, _, _ => absurd hlen (by simp)

/-! ## The match of two rows -/

/-- What a match of two rows needs: the rows themselves, and patterns below. -/
structure Rows (k : Keys) (mode : MatchMode) (s : TyStore) (b : Binding) (n : Nat) (p t : TyId)
    (prow trow : TyRow) : Prop where
  good : s.Good k
  fits : s.Fits
  held : b.Over s
  pattern : Pattern b (s.tree p)
  prow : s.rows[p]? = some prow
  trow : s.rows[t]? = some trow
  below : ∀ c ∈ (s.node p).2, c < n

variable {prow trow : TyRow} {l : Label} {cs : List TyId}

theorem Pattern.child {l : Label} {cs : List TyId} (h : Pattern b (.node l (cs.map s.tree)))
    (hslot : b.slot_of l = none) : ∀ c ∈ cs, Pattern b (s.tree c) := by
  have hplain := h.plain
  change (faces b).slot l = none at hslot
  rw [Plain, hslot] at hplain
  have hlist : ∀ Ts : List (Rose Label), PlainList (faces b) Ts → ∀ T ∈ Ts, Plain (faces b) T := by
    intro Ts
    induction Ts with
    | nil => simp
    | cons T Ts ih =>
      rintro ⟨hT, hTs⟩
      rw [forall_mem_cons]
      exact ⟨hT, ih hTs⟩
  exact fun c hc => ⟨hlist _ hplain.2 _ (mem_map_of_mem hc),
    fun l' cs' hsub => h.brands l' cs' (.child (mem_map_of_mem hc) hsub)⟩

theorem Rows.pnode (h : Rows k mode s b n p t prow trow)
    (hnode : s.node_of prow.content = some (l, cs)) :
    s.tree p = .node l (cs.map s.tree) ∧ l.Clean ∧ (∀ c ∈ cs, c < n) ∧
      ∀ c ∈ cs, c < s.rows.length := by
  have hp := (List.getElem?_eq_some_iff.mp h.prow).1
  have heq := h.good.node_eq h.prow hnode
  refine ⟨h.good.tree_node h.prow hnode, ?_, ?_, fun c hc => ?_⟩
  · have := h.good.canonical p hp
    rwa [heq] at this
  · have := h.below
    rwa [heq] at this
  · have := h.good.descends p hp c (by rw [heq]; exact hc)
    exact this.trans hp

theorem Rows.tnode (h : Rows k mode s b n p t prow trow)
    (hnode : s.node_of trow.content = some (l, cs)) :
    s.tree t = .node l (cs.map s.tree) ∧ l.Clean ∧ ∀ c ∈ cs, c < s.rows.length := by
  have ht := (List.getElem?_eq_some_iff.mp h.trow).1
  have heq := h.good.node_eq h.trow hnode
  refine ⟨h.good.tree_node h.trow hnode, ?_, fun c hc => ?_⟩
  · have := h.good.canonical t ht
    rwa [heq] at this
  · have := h.good.descends t ht c (by rw [heq]; exact hc)
    exact this.trans ht

/-- The match of a node that is neither slot nor projection. -/
theorem Rows.match_node (h : Rows k mode s b n p t prow trow)
    (hnode : s.node_of prow.content = some (l, cs)) (hslot : b.slot_of l = none)
    (hproj : l.head.tag ≠ .Proj) (hbrand : l.head.tag ≠ .Brand) {l' : Label} {ds : List TyId}
    (hnode' : s.node_of trow.content = some (l', ds)) :
    matchTree (faces b) (skips mode) (s.tree p) (s.tree t) (b.values s) =
      if l = l' then matchList (faces b) (skips mode) (cs.map s.tree) (ds.map s.tree) (b.values s)
      else none := by
  rw [(h.pnode hnode).1, (h.tnode hnode').1,
    Matching.match_node (skips_eq_false hbrand) hslot (by simpa [faces, marks] using hproj)]
  rfl

theorem Rows.match_tag (h : Rows k mode s b n p t prow trow)
    (hnode : s.node_of prow.content = some (l, cs)) (hslot : b.slot_of l = none)
    (hproj : l.head.tag ≠ .Proj) (hbrand : l.head.tag ≠ .Brand) (htag : trow.tag ≠ prow.tag) :
    matchTree (faces b) (skips mode) (s.tree p) (s.tree t) (b.values s) = none := by
  obtain ⟨hnode', -⟩ := h.good.node_spec h.trow
  rw [h.match_node hnode hslot hproj hbrand hnode', if_neg]
  intro heq
  have htag' := (node_of_tag hnode').1
  rw [← heq, (node_of_tag hnode).1] at htag'
  exact htag htag'.symm

/-- The arms of `match_core` over argument lists. -/
theorem Rows.args (h : Rows k mode s b n p t prow trow) (hf : Matches mode s n f) {pa ta : ArgsId}
    {l' : Label} {ds : List TyId} (hnode : s.node_of prow.content = some (l, cs))
    (hnode' : s.node_of trow.content = some (l', ds)) (hslot : b.slot_of l = none)
    (hproj : l.head.tag ≠ .Proj) (hbrand : l.head.tag ≠ .Brand) (hl : l = l')
    (hpa : s.args_at pa = some cs) (hta : s.args_at ta = some ds) :
    Agrees s b (matchTree (faces b) (skips mode) (s.tree p) (s.tree t) (b.values s))
      (match_args f s pa ta b) := by
  rw [h.match_node hnode hslot hproj hbrand hnode', if_pos hl]
  obtain ⟨htree, -, hn, hlt⟩ := h.pnode hnode
  have hpat := h.pattern
  rw [htree] at hpat
  exact match_args_agrees hf hpa hta hn hlt (h.tnode hnode').2.2 h.held (hpat.child hslot)

/-- A row without children matches itself only. -/
theorem Rows.leaf (h : Rows k mode s b n p t prow trow)
    (hnode : s.node_of prow.content = some (l, [])) (hslot : b.slot_of l = none)
    (hproj : l.head.tag ≠ .Proj) (hskip : (skips mode).skip l = false) :
    Agrees s b (matchTree (faces b) (skips mode) (s.tree p) (s.tree t) (b.values s))
      (some (s, b, p = t)) := by
  have hp := (List.getElem?_eq_some_iff.mp h.prow).1
  have ht := (List.getElem?_eq_some_iff.mp h.trow).1
  refine .decide h.held (P := s.tree p = s.tree t) ?_ ?_
  · rw [h.good.tree_eq_iff hp ht]
    exact decide_eq_true_iff
  · rw [(h.pnode hnode).1, List.map_nil]
    refine match_closed _ _ fun l' cs' hsub => ?_
    cases hsub with
    | refl => exact ⟨hskip, hslot, decide_eq_false hproj⟩
    | child hc => exact absurd hc List.not_mem_nil

theorem Rows.brand (h : Rows k mode s b n p t prow trow) (htag : prow.tag = .Brand)
    (hq : prow.quals = trow.quals) :
    Agrees s b (matchTree (faces b) (skips mode) (s.tree p) (s.tree t) (b.values s))
      (if mode = .NoFail then some (s, b, true)
       else do
         match ← s.brands[prow.b]? with
         | .Param owner ordinal =>
           if b.owns owner then
             let (b, ok) := b.bind owner ordinal t
             some (s, b, ok)
           else some (s, b, p = t)
         | .Fresh _ _ => some (s, b, p = t)) := by
  obtain ⟨brand, hbrand⟩ : ∃ brand, s.brands[prow.b]? = some brand := by
    obtain ⟨hnode, -⟩ := h.good.node_spec h.prow
    simp only [TyRow.content, htag, node_of, bind_eq_bind, bind_eq_some_iff] at hnode
    obtain ⟨brand, hbrand, -⟩ := hnode
    exact ⟨brand, hbrand⟩
  have hnode : s.node_of prow.content =
      some (⟨.Brand brand, (prow.a, 0), prow.quals⟩, []) := by
    simp [TyRow.content, htag, node_of, hbrand]
  have htree := (h.pnode hnode).1
  have htquals := (h.good.label_quals h.trow).1
  have ht := (List.getElem?_eq_some_iff.mp h.trow).1
  cases mode with
  | NoFail =>
    have hface : (skips .NoFail).face ⟨.Brand brand, (prow.a, 0), prow.quals⟩ (s.tree t) = true :=
      decide_eq_true (hq.trans htquals.symm)
    rw [if_pos rfl, htree, match_skipped (K := skips .NoFail) (by rfl), if_pos hface]
    exact ⟨b, true, rfl, .refl b, h.held, rfl⟩
  | Strict =>
    rw [if_neg (by decide), hbrand]
    simp only [bind_eq_bind, bind_some]
    cases brand with
    | Fresh owner ordinal => exact h.leaf hnode rfl (by simp [Head.tag]) rfl
    | Param owner ordinal =>
      by_cases howns : b.owns owner = true
      · simp only [if_pos howns]
        have hslot : b.slot_of ⟨.Brand (.Param owner ordinal), (prow.a, 0), prow.quals⟩ =
            some (b.at_ owner ordinal) := by simp [Binding.slot_of, howns]
        have hslot' := (faces_slot b _).trans hslot
        rw [htree, match_slot (K := skips .Strict) rfl hslot']
        change Agrees s b ((b.get_bare _ _).bind _) _
        have hbare := h.pattern.brands
        rw [htree] at hbare
        have hpq : prow.quals = .NONE := hbare _ _ (.refl _) rfl
        have hget : b.get_bare ⟨.Brand (.Param owner ordinal), (prow.a, 0), prow.quals⟩ (s.tree t) =
            b.get ⟨.Brand (.Param owner ordinal), (prow.a, 0), prow.quals⟩ (s.tree t) :=
          if_neg fun hne => hne.2 ⟨hpq, by rw [htquals, ← hq, hpq]⟩
        rw [hget]
        cases hat : b.at_ owner ordinal with
        | none =>
          rw [hat] at hslot
          refine bind_lost h.held hat ?_
          rw [Binding.get, if_pos hslot]
          rfl
        | some i =>
          rw [hat] at hslot
          have hne : b.slot_of ⟨.Brand (.Param owner ordinal), (prow.a, 0), prow.quals⟩ ≠
              some none := by
            rw [hslot]
            exact fun heq => by cases heq
          rw [Binding.get, if_neg hne, if_pos hpq]
          exact bind_agrees h.good.toInv h.fits h.held ht hat
      · simp only [if_neg howns]
        exact h.leaf hnode (by simp [Binding.slot_of, howns]) (by simp [Head.tag]) rfl

theorem Rows.fn (h : Rows k mode s b n p t prow trow) (hf : Matches mode s n f)
    (htag : prow.tag = .Fn) (htag' : trow.tag = .Fn) (hq : prow.quals = trow.quals)
    {ps ts : List (Conv × TyId)} {pr pe tr te : TyId} {pc tc : Bool}
    (hpfn : s.fn_at prow.a = some (ps, pr, pe, pc))
    (htfn : s.fn_at trow.a = some (ts, tr, te, tc)) :
    Agrees s b (matchTree (faces b) (skips mode) (s.tree p) (s.tree t) (b.values s))
      (if pc ≠ tc then some (s, b, false)
       else if ts.length ≠ ps.length then some (s, b, false)
       else
         and_then (match_params f s ps ts b) fun s b =>
           and_then (f s pr tr b) fun s b =>
             if pe = NO_TY ∧ te = NO_TY then some (s, b, true)
             else if pe ≠ NO_TY ∧ te ≠ NO_TY then f s pe te b
             else some (s, b, false)) := by
  have hnode : s.node_of prow.content =
      some (⟨.Fn (ps.map Prod.fst) (pe ≠ NO_TY) pc, (0, prow.b), prow.quals⟩,
        fn_children (ps.map Prod.snd) pr pe) := by
    simp [TyRow.content, htag, node_of, hpfn, fn_children]
  have hnode' : s.node_of trow.content =
      some (⟨.Fn (ts.map Prod.fst) (te ≠ NO_TY) tc, (0, trow.b), trow.quals⟩,
        fn_children (ts.map Prod.snd) tr te) := by
    simp [TyRow.content, htag', node_of, htfn, fn_children]
  rw [h.match_node hnode rfl (by simp [Head.tag]) (by simp [Head.tag]) hnode']
  obtain ⟨htree, hclean, hn, hlt⟩ := h.pnode hnode
  obtain ⟨-, hclean', htlt⟩ := h.tnode hnode'
  have hspare : (0, prow.b) = (0, trow.b) := hclean.trans hclean'.symm
  have hpat := h.pattern
  rw [htree] at hpat
  have hchild := hpat.child rfl
  by_cases hclosure : pc = tc
  · subst hclosure
    rw [if_neg (not_not.mpr rfl)]
    by_cases hlen : ts.length = ps.length
    · rw [if_neg (not_not.mpr hlen)]
      have hsplit : (if (⟨.Fn (ps.map Prod.fst) (pe ≠ NO_TY) pc, (0, prow.b), prow.quals⟩ : Label) =
            ⟨.Fn (ts.map Prod.fst) (te ≠ NO_TY) pc, (0, trow.b), trow.quals⟩ then
          matchList (faces b) (skips mode) ((fn_children (ps.map Prod.snd) pr pe).map s.tree)
            ((fn_children (ts.map Prod.snd) tr te).map s.tree) (b.values s) else none) =
          (if ps.map Prod.fst = ts.map Prod.fst then matchList (faces b) (skips mode)
            ((ps.map Prod.snd).map s.tree) ((ts.map Prod.snd).map s.tree) (b.values s)
            else none).bind fun w =>
              (matchTree (faces b) (skips mode) (s.tree pr) (s.tree tr) w).bind fun w =>
                if pe = NO_TY ∧ te = NO_TY then some w
                else if pe ≠ NO_TY ∧ te ≠ NO_TY then
                  matchTree (faces b) (skips mode) (s.tree pe) (s.tree te) w
                else none := by
        have hlabel : (⟨.Fn (ps.map Prod.fst) (pe ≠ NO_TY) pc, (0, prow.b), prow.quals⟩ : Label) =
            ⟨.Fn (ts.map Prod.fst) (te ≠ NO_TY) pc, (0, trow.b), trow.quals⟩ ↔
            ps.map Prod.fst = ts.map Prod.fst ∧ (pe = NO_TY ↔ te = NO_TY) := by
          simp only [Label.mk.injEq, Head.Fn.injEq, hspare, hq, and_true, decide_eq_decide, ne_eq,
            not_iff_not]
        have htys : ((ps.map Prod.snd).map s.tree).length = ((ts.map Prod.snd).map s.tree).length := by
          simp [hlen]
        by_cases hconvs : ps.map Prod.fst = ts.map Prod.fst
        · rw [if_pos hconvs, fn_children, fn_children, map_append, map_append,
            matchList_append htys, map_cons, map_cons]
          cases matchList (faces b) (skips mode) ((ps.map Prod.snd).map s.tree)
            ((ts.map Prod.snd).map s.tree) (b.values s) with
          | none => simp
          | some w =>
            simp only [bind_some, matchList]
            by_cases hpe : pe = NO_TY <;> by_cases hte : te = NO_TY
            · rw [if_pos (hlabel.mpr ⟨hconvs, by simp [hpe, hte]⟩)]
              simp [hpe, hte, matchList]
            · rw [if_neg (fun heq => hte ((hlabel.mp heq).2.mp hpe))]
              simp [hpe, hte]
            · rw [if_neg (fun heq => hpe ((hlabel.mp heq).2.mpr hte))]
              simp [hpe, hte]
            · rw [if_pos (hlabel.mpr ⟨hconvs, by simp [hpe, hte]⟩)]
              simp [hpe, hte, matchList]
        · rw [if_neg hconvs, if_neg fun heq => hconvs (hlabel.mp heq).1, bind_none]
      rw [hsplit]
      have hmem : ∀ x ∈ ps.map Prod.snd, x ∈ fn_children (ps.map Prod.snd) pr pe :=
        fun x hx => mem_append_left _ hx
      refine .and_then (match_params_agrees hf ps ts b hlen (fun x hx => hn x (hmem x hx))
        (fun x hx => hlt x (hmem x hx)) (fun x hx => htlt x (mem_append_left _ hx)) h.held
        fun x hx => hchild x (hmem x hx)) fun b1 hshape1 hover1 => ?_
      have hpr : pr ∈ fn_children (ps.map Prod.snd) pr pe := by simp [fn_children]
      have htr : tr ∈ fn_children (ts.map Prod.snd) tr te := by simp [fn_children]
      rw [← faces_congr hshape1.owners]
      refine .and_then (hf pr tr b1 (hn pr hpr) (hlt pr hpr) (htlt tr htr) hover1
        ((hchild pr hpr).congr hshape1)) fun b2 hshape2 hover2 => ?_
      by_cases hboth : pe = NO_TY ∧ te = NO_TY
      · rw [if_pos hboth, if_pos hboth]
        exact ⟨b2, true, rfl, .refl b2, hover2, rfl⟩
      rw [if_neg hboth, if_neg hboth]
      by_cases hneither : pe ≠ NO_TY ∧ te ≠ NO_TY
      · rw [if_pos hneither, if_pos hneither, ← faces_congr hshape2.owners]
        have hpe : pe ∈ fn_children (ps.map Prod.snd) pr pe := by simp [fn_children, hneither.1]
        have hte : te ∈ fn_children (ts.map Prod.snd) tr te := by simp [fn_children, hneither.2]
        exact hf pe te b2 (hn pe hpe) (hlt pe hpe) (htlt te hte) hover2
          ((hchild pe hpe).congr (hshape1.trans hshape2))
      · rw [if_neg hneither, if_neg hneither]
        exact .fail hover2 rfl
    · rw [if_pos hlen, if_neg]
      · exact .fail h.held rfl
      · intro heq
        have hconvs := congrArg List.length (Head.Fn.inj (congrArg Label.head heq)).1
        rw [length_map, length_map] at hconvs
        exact hlen hconvs.symm
  · rw [if_pos hclosure, if_neg]
    · exact .fail h.held rfl
    · intro heq
      exact hclosure (Head.Fn.inj (congrArg Label.head heq)).2.2

theorem Rows.const (h : Rows k mode s b n p t prow trow) (hf : Matches mode s n f)
    (htag : prow.tag = .ConstVal) (hq : prow.quals = trow.quals) :
    Agrees s b (matchTree (faces b) (skips mode) (s.tree p) (s.tree t) (b.values s))
      (if trow.tag ≠ .ConstVal ∨ trow.a ≠ prow.a then some (s, b, false)
       else f s prow.b trow.b b) := by
  obtain ⟨c, hc, hnode⟩ : ∃ c, s.consts[prow.a]? = some c ∧ s.node_of prow.content =
      some (⟨.ConstVal (some c), (0, 0), prow.quals⟩, [prow.b]) := by
    cases hc : s.consts[prow.a]? with
    | none =>
      have hnode : s.node_of prow.content =
          some (⟨.ConstVal none, (prow.a, 0), prow.quals⟩, [prow.b]) := by
        simp [TyRow.content, htag, node_of, hc]
      exact (h.pnode hnode).2.1.elim
    | some c => exact ⟨c, rfl, by simp [TyRow.content, htag, node_of, hc]⟩
  by_cases htag' : trow.tag = .ConstVal
  · obtain ⟨c', hc', hnode'⟩ : ∃ c, s.consts[trow.a]? = some c ∧ s.node_of trow.content =
        some (⟨.ConstVal (some c), (0, 0), trow.quals⟩, [trow.b]) := by
      cases hc' : s.consts[trow.a]? with
      | none =>
        have hnode' : s.node_of trow.content =
            some (⟨.ConstVal none, (trow.a, 0), trow.quals⟩, [trow.b]) := by
          simp [TyRow.content, htag', node_of, hc']
        exact (h.tnode hnode').2.1.elim
      | some c => exact ⟨c, rfl, by simp [TyRow.content, htag', node_of, hc']⟩
    rw [h.match_node hnode rfl (by simp [Head.tag]) (by simp [Head.tag]) hnode']
    by_cases ha : trow.a = prow.a
    · rw [ha, hc] at hc'
      cases hc'
      rw [if_pos (by rw [hq]), if_neg (by simp [htag', ha])]
      obtain ⟨htree, -, hn, hlt⟩ := h.pnode hnode
      have hpat := h.pattern
      rw [htree] at hpat
      have hmem : prow.b ∈ [prow.b] := mem_cons_self
      have hone := hf prow.b trow.b b (hn _ hmem) (hlt _ hmem)
        ((h.tnode hnode').2.2 _ mem_cons_self) h.held (hpat.child rfl _ hmem)
      simpa [matchList] using hone
    · rw [if_neg, if_pos (.inr ha)]
      · exact .fail h.held rfl
      · intro heq
        have hcc := Head.ConstVal.inj (congrArg Label.head heq)
        rw [some.inj hcc] at hc
        exact ha (h.good.consts.index_inj hc' hc)
  · rw [if_pos (.inl htag'), h.match_tag hnode rfl (by simp [Head.tag]) (by simp [Head.tag])
      (by rw [htag]; exact htag')]
    exact .fail h.held rfl

/-- `match_core` on rows that agree on their qualifiers. -/
theorem Rows.core (h : Rows k mode s b n p t prow trow) (hf : Matches mode s n f)
    (hq : prow.quals = trow.quals) (hparam : prow.tag ≠ .Param) (hproj : prow.tag ≠ .Proj) :
    Agrees s b (matchTree (faces b) (skips mode) (s.tree p) (s.tree t) (b.values s))
      (match_core mode f s p t b) := by
  obtain ⟨hnode, -⟩ := h.good.node_spec h.prow
  obtain ⟨hnode', -⟩ := h.good.node_spec h.trow
  rw [match_core, h.prow, h.trow]
  simp only [bind_eq_bind, bind_some]
  cases htag : prow.tag with
  | Param => exact absurd htag hparam
  | Proj => exact absurd htag hproj
  | Brand => exact h.brand htag hq
  | ConstVal => exact h.const hf htag hq
  | Error =>
    exact h.leaf (l := ⟨.Error, (prow.a, prow.b), prow.quals⟩) (by rw [TyRow.content, htag]; rfl)
      rfl (by simp [Head.tag]) (skips_eq_false (by simp [Head.tag]))
  | Unit =>
    exact h.leaf (l := ⟨.Unit, (prow.a, prow.b), prow.quals⟩) (by rw [TyRow.content, htag]; rfl)
      rfl (by simp [Head.tag]) (skips_eq_false (by simp [Head.tag]))
  | Never =>
    exact h.leaf (l := ⟨.Never, (prow.a, prow.b), prow.quals⟩) (by rw [TyRow.content, htag]; rfl)
      rfl (by simp [Head.tag]) (skips_eq_false (by simp [Head.tag]))
  | Prim =>
    exact h.leaf (l := ⟨.Prim prow.a, (0, prow.b), prow.quals⟩) (by rw [TyRow.content, htag]; rfl)
      rfl (by simp [Head.tag]) (skips_eq_false (by simp [Head.tag]))
  | Nominal =>
    simp only [TyRow.content, htag, node_of, bind_eq_bind, bind_eq_some_iff] at hnode
    obtain ⟨xs, hxs, -⟩ := hnode
    have hnode : s.node_of prow.content = some (⟨.Nominal prow.a, (0, 0), prow.quals⟩, xs) := by
      simp [TyRow.content, htag, node_of, hxs]
    by_cases htag' : trow.tag = .Nominal
    · simp only [TyRow.content, htag', node_of, bind_eq_bind, bind_eq_some_iff]
        at hnode'
      obtain ⟨ys, hys, -⟩ := hnode'
      have hnode' : s.node_of trow.content = some (⟨.Nominal trow.a, (0, 0), trow.quals⟩, ys) := by
        simp [TyRow.content, htag', node_of, hys]
      by_cases ha : trow.a = prow.a
      · simp only [htag', ha, ne_eq, not_true_eq_false, or_self, if_false]
        exact h.args hf hnode hnode' rfl (by simp [Head.tag]) (by simp [Head.tag])
          (by rw [ha, hq]) hxs hys
      · simp only [ha, ne_eq, not_false_eq_true, or_true, if_true]
        refine .fail h.held ?_
        rw [h.match_node hnode rfl (by simp [Head.tag]) (by simp [Head.tag]) hnode', if_neg]
        exact fun heq => ha (Head.Nominal.inj (congrArg Label.head heq)).symm
    · simp only [htag', ne_eq, not_false_eq_true, true_or, if_true]
      exact .fail h.held (h.match_tag hnode rfl (by simp [Head.tag]) (by simp [Head.tag])
        (by rw [htag]; exact htag'))
  | Tuple =>
    simp only [TyRow.content, htag, node_of, bind_eq_bind, bind_eq_some_iff] at hnode
    obtain ⟨xs, hxs, -⟩ := hnode
    have hnode : s.node_of prow.content = some (⟨.Tuple, (prow.a, 0), prow.quals⟩, xs) := by
      simp [TyRow.content, htag, node_of, hxs]
    by_cases htag' : trow.tag = .Tuple
    · simp only [TyRow.content, htag', node_of, bind_eq_bind, bind_eq_some_iff]
        at hnode'
      obtain ⟨ys, hys, -⟩ := hnode'
      have hnode' : s.node_of trow.content = some (⟨.Tuple, (trow.a, 0), trow.quals⟩, ys) := by
        simp [TyRow.content, htag', node_of, hys]
      have hspare : (prow.a, 0) = (trow.a, 0) := (h.pnode hnode).2.1.trans (h.tnode hnode').2.1.symm
      simp only [htag', ne_eq, not_true_eq_false, if_false]
      exact h.args hf hnode hnode' rfl (by simp [Head.tag]) (by simp [Head.tag])
        (by rw [hspare, hq]) hxs hys
    · simp only [htag', ne_eq, not_false_eq_true, if_true]
      exact .fail h.held (h.match_tag hnode rfl (by simp [Head.tag]) (by simp [Head.tag])
        (by rw [htag]; exact htag'))
  | Dyn =>
    simp only [TyRow.content, htag, node_of, bind_eq_bind, bind_eq_some_iff,
      Prod.exists] at hnode
    obtain ⟨d, args, htr, xs, hxs, -⟩ := hnode
    have hnode : s.node_of prow.content = some (⟨.Dyn d, (0, prow.b), prow.quals⟩, xs) := by
      simp [TyRow.content, htag, node_of, htr, hxs]
    by_cases htag' : trow.tag = .Dyn
    · simp only [TyRow.content, htag', node_of, bind_eq_bind, bind_eq_some_iff,
        Prod.exists] at hnode'
      obtain ⟨d', args', htr', ys, hys, -⟩ := hnode'
      have hnode' : s.node_of trow.content = some (⟨.Dyn d', (0, trow.b), trow.quals⟩, ys) := by
        simp [TyRow.content, htag', node_of, htr', hys]
      have hspare : (0, prow.b) = (0, trow.b) := (h.pnode hnode).2.1.trans (h.tnode hnode').2.1.symm
      simp only [htag', ne_eq, not_true_eq_false, if_false, htr, htr', bind_some]
      by_cases hd : d = d'
      · rw [if_neg (not_not.mpr hd)]
        exact h.args hf hnode hnode' rfl (by simp [Head.tag]) (by simp [Head.tag])
          (by rw [hspare, hq, hd]) hxs hys
      · rw [if_pos hd]
        refine .fail h.held ?_
        rw [h.match_node hnode rfl (by simp [Head.tag]) (by simp [Head.tag]) hnode', if_neg]
        exact fun heq => hd (Head.Dyn.inj (congrArg Label.head heq))
    · simp only [htag', ne_eq, not_false_eq_true, if_true]
      exact .fail h.held (h.match_tag hnode rfl (by simp [Head.tag]) (by simp [Head.tag])
        (by rw [htag]; exact htag'))
  | Fn =>
    simp only [TyRow.content, htag, node_of, bind_eq_bind, bind_eq_some_iff,
      Prod.exists] at hnode
    obtain ⟨ps, pr, pe, pc, hpfn, -⟩ := hnode
    have hnode : s.node_of prow.content =
        some (⟨.Fn (ps.map Prod.fst) (pe ≠ NO_TY) pc, (0, prow.b), prow.quals⟩,
          fn_children (ps.map Prod.snd) pr pe) := by
      simp [TyRow.content, htag, node_of, hpfn, fn_children]
    by_cases htag' : trow.tag = .Fn
    · simp only [TyRow.content, htag', node_of, bind_eq_bind, bind_eq_some_iff,
        Prod.exists] at hnode'
      obtain ⟨ts, tr, te, tc, htfn, -⟩ := hnode'
      simp only [htag', ne_eq, not_true_eq_false, if_false, hpfn, htfn, bind_some]
      exact h.fn hf htag htag' hq hpfn htfn
    · simp only [htag', ne_eq, not_false_eq_true, if_true]
      exact .fail h.held (h.match_tag hnode rfl (by simp [Head.tag]) (by simp [Head.tag])
        (by rw [htag]; exact htag'))

/-! ## The whole match -/

/-- A row whose type mentions no slot does not end in one of the binding's parameters. -/
theorem proj_head_bound (hs : s.Good k) : ∀ (fuel : Nat) {cur : TyId}, cur < fuel →
    cur < s.rows.length → mentions (faces b) .none (s.tree cur) = [] →
    proj_head_unbound s b fuel cur = some false
  | 0, cur, hfuel, _, _ => absurd hfuel (Nat.not_lt_zero cur)
  | fuel + 1, cur, hfuel, hcur, hnone => by
    have hrow := getElem?_eq_getElem hcur
    obtain ⟨row, hrow⟩ : ∃ row, s.rows[cur]? = some row := ⟨_, hrow⟩
    obtain ⟨hnode, hbelow, -⟩ := hs.node_spec hrow
    rw [proj_head_unbound, hrow]
    simp only [bind_eq_bind, bind_some]
    cases htag : row.tag with
    | Proj =>
      obtain ⟨l, cs, hnode'⟩ : ∃ l cs, s.node_of row.content = some (l, row.a :: cs) := by
        simp only [TyRow.content, htag, node_of, bind_eq_bind, bind_eq_some_iff,
          Option.pure_def, some.injEq, Prod.exists] at hnode
        obtain ⟨tr, name, hkey, d, args, htr, xs, hxs, -⟩ := hnode
        exact ⟨⟨.Proj d name, (0, 0), row.quals⟩, xs, by
          simp [TyRow.content, htag, node_of, hkey, htr, hxs]⟩
      have heq := hs.node_eq hrow hnode'
      have hmem : row.a ∈ (s.node cur).2 := by
        rw [heq]
        exact mem_cons_self
      have hlt := hbelow row.a hmem
      refine proj_head_bound hs fuel (Nat.lt_of_lt_of_le hlt (Nat.le_of_lt_succ hfuel))
        (hlt.trans hcur) ?_
      have htree := hs.tree_node hrow hnode'
      rw [htree] at hnone
      rw [mentions_node (slot_eq_none hnone), mentionsList_eq_nil] at hnone
      exact hnone _ (mem_map_of_mem mem_cons_self)
    | Param =>
      have hnode' : s.node_of row.content = some (⟨.Param row.a row.b, (0, 0), row.quals⟩, []) := by
        rw [TyRow.content, htag]
        rfl
      have htree := hs.tree_node hrow hnode'
      rw [htree] at hnone
      have hslot := slot_eq_none hnone
      have howns : ¬ b.owns row.a = true := fun howns => by
        simp [faces_slot, Binding.slot_of, howns] at hslot
      simp [howns]
    | _ => rfl

theorem Rows.mono (h : Rows k mode s b n p t prow trow) (hmono : is_monomorphic prow = true) :
    Agrees s b (matchTree (faces b) (skips mode) (s.tree p) (s.tree t) (b.values s))
      (some (s, b, p = t)) := by
  have hp := (List.getElem?_eq_some_iff.mp h.prow).1
  have ht := (List.getElem?_eq_some_iff.mp h.trow).1
  have hclosed : ¬ s.Contains p fun head =>
      head.tag = .Param ∨ head.tag = .Proj ∨ head.tag = .Brand := by
    rw [← h.good.flags_iff own_open h.prow, not_not]
    exact of_decide_eq_true hmono
  refine .decide h.held (P := s.tree p = s.tree t) ?_ ?_
  · rw [h.good.tree_eq_iff hp ht]
    exact decide_eq_true_iff
  · refine match_closed _ _ fun l cs hsub => ?_
    have hnone : ¬ (l.head.tag = .Param ∨ l.head.tag = .Proj ∨ l.head.tag = .Brand) :=
      fun hopen => hclosed ⟨l, cs, hsub, hopen⟩
    refine ⟨skips_eq_false fun htag => hnone (.inr (.inr htag)), ?_, ?_⟩
    · by_contra hslot
      obtain htag | htag := slot_of_tag hslot
      · exact hnone (.inl htag)
      · exact hnone (.inr (.inr htag))
    · exact decide_eq_false fun hproj => hnone (.inr (.inl hproj))

theorem Pattern.bare {T : Rose Label} (h : Pattern b T)
    (hnone : mentions (faces b) .none T = []) (v : Values Label (Option Nat)) : Bare b v T := by
  intro l cs hsub htag
  refine ⟨h.brands l cs hsub htag, fun i u hslot _ => ?_⟩
  have hno := slot_of_sub hnone hsub
  rw [faces_slot, hslot] at hno
  exact nomatch hno

theorem Rows.proj (h : Rows k mode s b n p t prow trow) {fuel : Nat} (hfuel : p < fuel)
    (htag : prow.tag = .Proj) :
    Agrees s b (matchTree (faces b) (skips mode) (s.tree p) (s.tree t) (b.values s)) (do
      if ← proj_head_unbound s b fuel p then some (s, b, true)
      else
        match ← subst_norm k b fuel s p with
        | (s, some out) => some (s, b, out = t)
        | (s, none) => some (s, b, false)) := by
  have hp := (List.getElem?_eq_some_iff.mp h.prow).1
  have ht := (List.getElem?_eq_some_iff.mp h.trow).1
  obtain ⟨l, cs, hl, hnode⟩ : ∃ l cs, l.head.tag = .Proj ∧
      s.node_of prow.content = some (l, cs) := by
    obtain ⟨hnode, -⟩ := h.good.node_spec h.prow
    exact ⟨_, _, by rw [(node_of_tag hnode).1]; exact htag, hnode⟩
  obtain ⟨htree, -⟩ := h.pnode hnode
  have hslot : (faces b).slot l = none := by
    by_contra hne
    obtain htag' | htag' := slot_of_tag hne
    all_goals
      rw [hl] at htag'
      exact nomatch htag'
  have hfix : (faces b).fixed l = true := decide_eq_true hl
  have hnone : mentions (faces b) .none (s.tree p) = [] := by
    have hplain := h.pattern.plain
    rw [htree, Plain, hslot] at hplain
    rw [htree, mentions_node hslot]
    exact hplain.1 hfix
  have hready : Ready k b (b.values s) s := ⟨h.good, h.held, rfl⟩
  have hsame : mentions (faces b) .none (s.tree p) = mentions (marks b) .none (s.tree p) :=
    mentions_congr (show (faces b).slot = (marks b).slot from rfl) (s.tree p)
  have hnone' : mentions (marks b) .none (s.tree p) = [] := hsame.symm.trans hnone
  obtain ⟨out, hout⟩ := finds_subst_norm hready h.fits fuel p hfuel hp (.inl hnone')
  have hinst := (subst_norm_post k b (b.values s) fuel s p s out hout).2 h.fits hready hp
  have hfaces := subst_faces _ (h.pattern.bare hnone (b.values s))
  simp only [proj_head_bound h.good fuel hfuel hp hnone, hout, bind_eq_bind,
    bind_some, Bool.false_eq_true, if_false]
  have hm : matchTree (faces b) (skips mode) (s.tree p) (s.tree t) (b.values s) =
      if subst (marks b) (b.values s) (s.tree p) = some (s.tree t) then some (b.values s)
      else none := by
    rw [← hfaces, htree, match_fixed (skips_eq_false (by rw [hl]; decide)) hslot hfix]
  cases out with
  | none =>
    refine .fail h.held ?_
    rw [hm, hinst.tree]
    rfl
  | some r =>
    refine .decide h.held (P := s.tree r = s.tree t) ?_ ?_
    · rw [h.good.tree_eq_iff (hinst.lt r rfl) ht]
      exact decide_eq_true_iff
    · rw [hm, hinst.tree]
      simp only [map_some, some.injEq]

theorem Rows.param (h : Rows k mode s b n p t prow trow) (htag : prow.tag = .Param) :
    Agrees s b (matchTree (faces b) (skips mode) (s.tree p) (s.tree t) (b.values s))
      (if ¬ b.owns prow.a then some (s, b, p = t)
       else if prow.quals = .NONE then
         let (b, ok) := b.bind prow.a (prow.b % 2 ^ 16) t
         some (s, b, ok)
       else if prow.quals ≠ trow.quals then some (s, b, false)
       else
         let (b, ok) := b.bind prow.a (prow.b % 2 ^ 16) trow.unqual
         some (s, b, ok)) := by
  have ht := (List.getElem?_eq_some_iff.mp h.trow).1
  have hnode : s.node_of prow.content = some (⟨.Param prow.a prow.b, (0, 0), prow.quals⟩, []) := by
    rw [TyRow.content, htag]
    rfl
  have hskip : (skips mode).skip ⟨.Param prow.a prow.b, (0, 0), prow.quals⟩ = false :=
    skips_eq_false (by simp [Head.tag])
  by_cases howns : b.owns prow.a = true
  · rw [if_neg (not_not.mpr howns), (h.pnode hnode).1]
    have hslot : b.slot_of ⟨.Param prow.a prow.b, (0, 0), prow.quals⟩ =
        some (b.at_ prow.a (prow.b % 2 ^ 16)) := by simp [Binding.slot_of, howns]
    have hslot' := (faces_slot b _).trans hslot
    rw [match_slot hskip hslot']
    have htquals := (h.good.label_quals h.trow).1
    rw [faces_get, b.get_bare_of_tag (by simp [Head.tag])]
    cases hat : b.at_ prow.a (prow.b % 2 ^ 16) with
    | none =>
      rw [hat] at hslot
      have hget : b.get ⟨.Param prow.a prow.b, (0, 0), prow.quals⟩ (s.tree t) = none := by
        rw [Binding.get, if_pos hslot]
      rw [hget]
      by_cases hq : prow.quals = .NONE
      · rw [if_pos hq]
        exact bind_lost h.held hat rfl
      · rw [if_neg hq]
        by_cases hqq : prow.quals = trow.quals
        · rw [if_neg (not_not.mpr hqq)]
          exact bind_lost h.held hat rfl
        · rw [if_pos hqq]
          exact .fail h.held rfl
    | some i =>
      rw [hat] at hslot
      have hne : b.slot_of ⟨.Param prow.a prow.b, (0, 0), prow.quals⟩ ≠ some none := by
        rw [hslot]
        exact fun heq => by cases heq
      have hget : b.get ⟨.Param prow.a prow.b, (0, 0), prow.quals⟩ (s.tree t) =
          if prow.quals = .NONE then some (s.tree t)
          else if trow.quals = prow.quals then some (requal .NONE (s.tree t)) else none := by
        rw [Binding.get, if_neg hne, htquals]
      rw [hget]
      by_cases hq : prow.quals = .NONE
      · rw [if_pos hq, if_pos hq]
        exact bind_agrees h.good.toInv h.fits h.held ht hat
      · rw [if_neg hq, if_neg hq]
        by_cases hqq : prow.quals = trow.quals
        · rw [if_pos hqq.symm, if_neg (not_not.mpr hqq)]
          obtain ⟨hlt, htwin⟩ := h.good.tree_unqual h.trow
          rw [bind_some, ← htwin]
          exact bind_agrees h.good.toInv h.fits h.held hlt hat
        · rw [if_neg (Ne.symm hqq), if_pos hqq]
          exact .fail h.held rfl
  · rw [if_pos howns]
    exact h.leaf hnode (by simp [Binding.slot_of, howns]) (by simp [Head.tag]) hskip

/-- Rows whose qualifiers differ do not match, parameters and projections apart. -/
theorem Rows.quals (h : Rows k mode s b n p t prow trow) (hq : prow.quals ≠ trow.quals)
    (hparam : prow.tag ≠ .Param) (hproj : prow.tag ≠ .Proj) :
    matchTree (faces b) (skips mode) (s.tree p) (s.tree t) (b.values s) = none := by
  obtain ⟨l, cs, hnode⟩ : ∃ l cs, s.node_of prow.content = some (l, cs) :=
    ⟨_, _, (h.good.node_spec h.prow).1⟩
  obtain ⟨l', ds, hnode'⟩ : ∃ l cs, s.node_of trow.content = some (l, cs) :=
    ⟨_, _, (h.good.node_spec h.trow).1⟩
  obtain ⟨htag, hquals⟩ := node_of_tag hnode
  have htquals := (h.good.label_quals h.trow).1
  have hne : l.quals ≠ (s.tree t).label.quals := by
    rw [hquals, htquals]
    exact hq
  by_cases hbrand : l.head.tag = .Brand
  · rw [(h.pnode hnode).1]
    cases mode with
    | NoFail =>
      rw [match_skipped (K := skips .NoFail) (decide_eq_true hbrand)]
      exact if_neg (by simpa [skips] using hne)
    | Strict =>
      have hskip : (skips .Strict).skip l = false := rfl
      cases hslot : (faces b).slot l with
      | some i =>
        rw [match_slot hskip hslot]
        have hget : b.get_bare l (s.tree t) = none :=
          if_pos ⟨hbrand, fun ⟨h1, h2⟩ => hne (h1.trans h2.symm)⟩
        change (b.get_bare _ _).bind _ = none
        rw [hget]
        rfl
      | none =>
        rw [Matching.match_node hskip hslot (decide_eq_false (by rw [hbrand]; decide)), if_neg]
        intro heq
        exact hne (congrArg Label.quals heq)
  · have hslot : b.slot_of l = none := by
      by_contra hsome
      obtain htag' | htag' := slot_of_tag hsome
      · exact hparam (htag.symm.trans htag')
      · exact hbrand htag'
    rw [h.match_node hnode hslot (by rw [htag]; exact hproj) hbrand hnode', if_neg]
    intro heq
    have := congrArg Label.quals heq
    rw [hquals, (node_of_tag hnode').2] at this
    exact hq this

/-- The match of rows is the match of their trees, and leaves the store as it is. -/
theorem one_way_match_agrees (hs : s.Good k) (hfit : s.Fits) (mode : MatchMode) (fuel : Nat) :
    Matches mode s fuel (one_way_match k mode fuel) := by
  induction fuel with
  | zero => exact fun p t b hp => absurd hp (Nat.not_lt_zero p)
  | succ fuel ih =>
    intro p t b hfuel hp ht hover hpat
    obtain ⟨prow, hprow⟩ : ∃ row, s.rows[p]? = some row := ⟨_, getElem?_eq_getElem hp⟩
    obtain ⟨trow, htrow⟩ : ∃ row, s.rows[t]? = some row := ⟨_, getElem?_eq_getElem ht⟩
    have h : Rows k mode s b fuel p t prow trow := by
      refine ⟨hs, hfit, hover, hpat, hprow, htrow, fun c hc => ?_⟩
      have hlt : c < p := hs.descends p hp c hc
      exact Nat.lt_of_lt_of_le hlt (Nat.le_of_lt_succ hfuel)
    rw [one_way_match, hprow, htrow]
    simp only [bind_eq_bind, bind_some]
    by_cases hmono : is_monomorphic prow = true
    · rw [if_pos hmono]
      exact h.mono hmono
    rw [if_neg hmono]
    by_cases hparam : prow.tag = .Param
    · simp only [hparam]
      exact h.param hparam
    by_cases hproj : prow.tag = .Proj
    · simp only [hproj]
      exact h.proj hfuel hproj
    have hrest : Agrees s b (matchTree (faces b) (skips mode) (s.tree p) (s.tree t) (b.values s))
        (if prow.quals ≠ trow.quals then some (s, b, false)
         else match_core mode (one_way_match k mode fuel) s p t b) := by
      by_cases hq : prow.quals = trow.quals
      · rw [if_neg (not_not.mpr hq)]
        exact h.core ih hq hparam hproj
      · rw [if_pos hq]
        exact .fail h.held (h.quals hq hparam hproj)
    cases htag : prow.tag with
    | Param => exact absurd htag hparam
    | Proj => exact absurd htag hproj
    | _ => exact hrest

end Fors.Ty
