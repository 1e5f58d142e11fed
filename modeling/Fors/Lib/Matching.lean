import Fors.Lib.Trees

/-!
# Matching as the inverse of substitution

Trees in which some labels stand for slots. Substitution puts the slots' values in their places,
matching takes them from a target. A pattern matches a target exactly where some values make it
the target, and the values it then binds are the least ones that do.

Principal results: `match_sound` and `match_complete`.
-/

namespace Matching

open Option hiding or_assoc
open Trees List

/-- Which labels stand for slots. `put` is what a slot's label makes of its value and `get` takes
the value back out; a `fixed` label is only ever compared after substitution, and may then fail. -/
structure Slots (σ ι : Type) where
  slot : σ → Option ι
  put : σ → Rose σ → Option (Rose σ)
  get : σ → Rose σ → Option (Rose σ)
  put_iff : ∀ l v t, put l v = some t ↔ get l t = some v
  fixed : σ → Bool
  ok : σ → List (Rose σ) → Bool
  ok_of_not_fixed : ∀ l cs, fixed l = false → ok l cs = true

variable {σ ι : Type} (S : Slots σ ι)

/-- Values of the slots; an unbound one has none. -/
abbrev Values (σ ι : Type) := ι → Option (Rose σ)

/-- `w` has every value of `v`. -/
def Le (v w : Values σ ι) : Prop :=
  ∀ i t, v i = some t → w i = some t

theorem Le.refl (v : Values σ ι) : Le v v := fun _ _ h => h

variable {v w : Values σ ι}

theorem Le.trans {u : Values σ ι} (h : Le u v) (h' : Le v w) : Le u w :=
  fun i t ht => h' i t (h i t ht)

mutual

/-- The tree with the values in their places. -/
def subst (v : Values σ ι) : Rose σ → Option (Rose σ)
  | .node l cs =>
    match S.slot l with
    | some i => (v i).bind (S.put l)
    | none => (substList v cs).bind fun cs => if S.ok l cs then some (.node l cs) else none

def substList (v : Values σ ι) : List (Rose σ) → Option (List (Rose σ))
  | [] => some []
  | c :: cs => (subst v c).bind fun c => (substList v cs).map fun cs => c :: cs

end

/-- Which labels a match passes over, and what such a label may face. -/
structure Skips (σ : Type) where
  skip : σ → Bool
  face : σ → Rose σ → Bool

/-- A match that compares everything. -/
def Skips.none : Skips σ := ⟨fun _ => false, fun _ _ => false⟩

theorem none_skip (l : σ) : (Skips.none : Skips σ).skip l = false := rfl

mutual

/-- The slots that the tree mentions. -/
def mentions (K : Skips σ) : Rose σ → List ι
  | .node l cs =>
    if K.skip l then [] else match S.slot l with
      | some i => [i]
      | Option.none => mentionsList K cs

def mentionsList (K : Skips σ) : List (Rose σ) → List ι
  | [] => []
  | c :: cs => mentions K c ++ mentionsList K cs

end

mutual

/-- No slot lies below a fixed label. -/
def Plain : Rose σ → Prop
  | .node l cs =>
    match S.slot l with
    | some _ => True
    | none => (S.fixed l = true → mentionsList S .none cs = []) ∧ PlainList cs

def PlainList : List (Rose σ) → Prop
  | [] => True
  | c :: cs => Plain c ∧ PlainList cs

end

variable [DecidableEq σ] [DecidableEq ι]

/-- The value for slot `i`: a new one, or the one it has. -/
def bindSlot (v : Values σ ι) (i : ι) (t : Rose σ) : Option (Values σ ι) :=
  if v i = none then some (Function.update v i (some t)) else if v i = some t then some v else none

mutual

/-- The values that make the pattern the target, on top of `v`. -/
def matchTree (K : Skips σ) : Rose σ → Rose σ → Values σ ι → Option (Values σ ι)
  | .node l cs, t, v =>
    if K.skip l then if K.face l t then some v else Option.none
    else match S.slot l with
      | some i => (S.get l t).bind (bindSlot v i)
      | Option.none =>
        if S.fixed l then if subst S v (.node l cs) = some t then some v else Option.none
        else if l = t.label then matchList K cs t.children v else Option.none

def matchList (K : Skips σ) :
    List (Rose σ) → List (Rose σ) → Values σ ι → Option (Values σ ι)
  | [], [], v => some v
  | c :: cs, c' :: cs', v => (matchTree K c c' v).bind (matchList K cs cs')
  | _, _, _ => Option.none

end

variable {S} {K : Skips σ}

omit [DecidableEq σ] [DecidableEq ι] in
theorem subst_slot {v : Values σ ι} {l : σ} {cs : List (Rose σ)} {i : ι} (h : S.slot l = some i) :
    subst S v (.node l cs) = (v i).bind (S.put l) := by
  rw [subst, h]

omit [DecidableEq σ] [DecidableEq ι] in
theorem subst_node {v : Values σ ι} {l : σ} {cs : List (Rose σ)} (h : S.slot l = none) :
    subst S v (.node l cs) =
      (substList S v cs).bind fun cs => if S.ok l cs then some (.node l cs) else none := by
  rw [subst, h]

variable {i : ι} {t : Rose σ}

theorem bindSlot_eq_some :
    bindSlot v i t = some w ↔
      (v i = none ∧ w = Function.update v i (some t)) ∨ (v i = some t ∧ w = v) := by
  rw [bindSlot]
  cases hv : v i with
  | none => simp [eq_comm]
  | some t' =>
    rw [if_neg (some_ne_none t')]
    by_cases h : t' = t
    · simp [h, eq_comm]
    · simp [h]

/-- Binding a slot gives the least values that hold there. -/
theorem bindSlot_spec (h : bindSlot v i t = some w) :
    Le v w ∧ w i = some t ∧ ∀ j, w j ≠ none ↔ v j ≠ none ∨ j = i := by
  obtain ⟨hv, rfl⟩ | ⟨hv, rfl⟩ := bindSlot_eq_some.mp h
  · refine ⟨fun j u hu => ?_, Function.update_self .., fun j => ?_⟩
    · rw [Function.update_of_ne, hu]
      rintro rfl
      rw [hv] at hu
      exact nomatch hu
    · by_cases hj : j = i
      · simp [hj]
      · simp [hj]
  · refine ⟨.refl w, hv, fun j => ⟨.inl, ?_⟩⟩
    rintro (hj | rfl)
    · exact hj
    · simp [hv]

/-- A slot can be bound to what greater values hold there. -/
theorem exists_bindSlot {s : Values σ ι} (hle : Le v s)
    (h : s i = some t) : ∃ w, bindSlot v i t = some w ∧ Le w s := by
  cases hv : v i with
  | none =>
    refine ⟨_, bindSlot_eq_some.mpr (.inl ⟨hv, rfl⟩), fun j u hu => ?_⟩
    by_cases hj : j = i
    · subst hj
      rw [Function.update_self] at hu
      rw [h, hu]
    · rw [Function.update_of_ne hj] at hu
      exact hle j u hu
  | some t' =>
    have : t' = t := some.inj ((hle i t' hv).symm.trans h)
    subst this
    exact ⟨v, bindSlot_eq_some.mpr (.inr ⟨hv, rfl⟩), hle⟩

omit [DecidableEq σ] [DecidableEq ι] in
mutual

/-- Without slots, the values do not matter. -/
theorem subst_congr (v w : Values σ ι) :
    ∀ t : Rose σ, mentions S .none t = [] → subst S v t = subst S w t
  | .node l cs, h => by
    rw [mentions] at h
    simp only [none_skip, Bool.false_eq_true, if_false] at h
    rw [subst, subst]
    cases hl : S.slot l with
    | some i =>
      rw [hl] at h
      exact nomatch h
    | none =>
      rw [hl] at h
      simp [substList_congr v w cs h]

theorem substList_congr (v w : Values σ ι) :
    ∀ ts : List (Rose σ), mentionsList S .none ts = [] → substList S v ts = substList S w ts
  | [], _ => rfl
  | t :: ts, h => by
    rw [mentionsList, append_eq_nil_iff] at h
    rw [substList, substList, subst_congr v w t h.1, substList_congr v w ts h.2]

end

omit [DecidableEq σ] [DecidableEq ι] in
mutual

/-- A tree without slots and fixed labels is its own instance. -/
theorem subst_closed (v : Values σ ι) : ∀ t : Rose σ,
    (∀ l cs, Rose.Sub (.node l cs) t → S.slot l = none ∧ S.fixed l = false) → subst S v t = some t
  | .node l cs, h => by
    obtain ⟨hslot, hfix⟩ := h l cs (.refl _)
    have hcs := substList_closed v cs fun c hc l' cs' hsub => h l' cs' (.child hc hsub)
    rw [subst, hslot]
    simp [hcs, S.ok_of_not_fixed l cs hfix]

theorem substList_closed (v : Values σ ι) : ∀ ts : List (Rose σ),
    (∀ t ∈ ts, ∀ l cs, Rose.Sub (.node l cs) t → S.slot l = none ∧ S.fixed l = false) →
      substList S v ts = some ts
  | [], _ => rfl
  | t :: ts, h => by
    rw [forall_mem_cons] at h
    rw [substList, subst_closed v t h.1, substList_closed v ts h.2]
    rfl

end

omit [DecidableEq σ] [DecidableEq ι] in
omit [DecidableEq σ] [DecidableEq ι] in
theorem mentions_node {l : σ} {cs : List (Rose σ)} (h : S.slot l = none) :
    mentions S .none (.node l cs) = mentionsList S .none cs := by
  rw [mentions]
  simp [none_skip, h]

omit [DecidableEq σ] [DecidableEq ι] in
theorem slot_eq_none {l : σ} {cs : List (Rose σ)} (h : mentions S .none (.node l cs) = []) :
    S.slot l = none := by
  rw [mentions] at h
  simp only [none_skip, Bool.false_eq_true, if_false] at h
  cases hl : S.slot l with
  | none => rfl
  | some i =>
    rw [hl] at h
    exact nomatch h

omit [DecidableEq σ] [DecidableEq ι] in
mutual

/-- A tree without slots has no other instance than itself. -/
theorem subst_self {v : Values σ ι} : ∀ {t u : Rose σ}, mentions S .none t = [] →
    subst S v t = some u → u = t
  | .node l cs, u, h, hu => by
    have hslot := slot_eq_none h
    rw [mentions_node hslot] at h
    rw [subst_node hslot] at hu
    obtain ⟨us, hus, hu⟩ := bind_eq_some_iff.mp hu
    obtain ⟨-, hu⟩ := ite_none_right_eq_some.mp hu
    rw [← some.inj hu, substList_self h hus]

theorem substList_self {v : Values σ ι} : ∀ {ts us : List (Rose σ)}, mentionsList S .none ts = [] →
    substList S v ts = some us → us = ts
  | [], us, _, hu => (some.inj hu).symm
  | t :: ts, us, h, hu => by
    rw [mentionsList, append_eq_nil_iff] at h
    simp only [substList, bind_eq_some_iff, map_eq_some_iff] at hu
    obtain ⟨u, hu, us, hus, rfl⟩ := hu
    rw [subst_self h.1 hu, substList_self h.2 hus]

end

omit [DecidableEq σ] [DecidableEq ι] in
theorem mentionsList_eq_nil {ts : List (Rose σ)} :
    mentionsList S .none ts = [] ↔ ∀ t ∈ ts, mentions S .none t = [] := by
  induction ts with
  | nil => simp [mentionsList]
  | cons t ts ih => rw [mentionsList, append_eq_nil_iff, ih, forall_mem_cons]

omit [DecidableEq σ] [DecidableEq ι] in
variable {ts : List (Rose σ)}

/-- A list without an instance has a tree without one. -/
theorem substList_eq_none (h : substList S v ts = none) :
    ∃ t ∈ ts, subst S v t = none := by
  induction ts with
  | nil => exact nomatch h
  | cons t ts ih =>
    cases ht : subst S v t with
    | none => exact ⟨t, mem_cons_self, ht⟩
    | some u =>
      rw [substList, ht, bind_some, map_eq_none_iff] at h
      obtain ⟨t', hmem, ht'⟩ := ih h
      exact ⟨t', mem_cons_of_mem t hmem, ht'⟩

omit [DecidableEq σ] [DecidableEq ι] in
theorem substList_mem {v : Values σ ι} {ts us : List (Rose σ)} (h : substList S v ts = some us) :
    ∀ t ∈ ts, ∃ u ∈ us, subst S v t = some u := by
  induction ts generalizing us with
  | nil => simp
  | cons t ts ih =>
    simp only [substList, bind_eq_some_iff, map_eq_some_iff] at h
    obtain ⟨u, hu, us, hus, rfl⟩ := h
    rw [forall_mem_cons]
    refine ⟨⟨u, mem_cons_self, hu⟩, fun t' ht' => ?_⟩
    obtain ⟨u', hu', heq⟩ := ih hus t' ht'
    exact ⟨u', mem_cons_of_mem _ hu', heq⟩

omit [DecidableEq σ] [DecidableEq ι] in
theorem slot_of_sub {t : Rose σ} (h : mentions S .none t = []) {l : σ} {cs : List (Rose σ)}
    (hsub : Rose.Sub (.node l cs) t) : S.slot l = none := by
  induction hsub with
  | refl => exact slot_eq_none h
  | @child c label children hc hsub ih =>
    have hslot := slot_eq_none h
    rw [mentions_node hslot, mentionsList_eq_nil] at h
    exact ih (h c hc)

omit [DecidableEq σ] [DecidableEq ι] in
mutual

/-- What is mentioned depends on which labels are slots only. -/
theorem mentions_congr {S' : Slots σ ι} (h : S'.slot = S.slot) :
    ∀ t : Rose σ, mentions S' K t = mentions S K t
  | .node l cs => by
    rw [mentions, mentions, h, mentionsList_congr h cs]

theorem mentionsList_congr {S' : Slots σ ι} (h : S'.slot = S.slot) :
    ∀ ts : List (Rose σ), mentionsList S' K ts = mentionsList S K ts
  | [] => rfl
  | t :: ts => by
    rw [mentionsList, mentionsList, mentions_congr h t, mentionsList_congr h ts]

end

/-! ## Matching -/

variable {l : σ} {cs : List (Rose σ)}

theorem match_node (hskip : K.skip l = false) (hslot : S.slot l = none) (hfix : S.fixed l = false) :
    matchTree S K (.node l cs) t v =
      if l = t.label then matchList S K cs t.children v else none := by
  rw [matchTree, if_neg (by rw [hskip]; exact Bool.false_ne_true), hslot]
  exact if_neg (by rw [hfix]; exact Bool.false_ne_true)

theorem match_slot (hskip : K.skip l = false) (hslot : S.slot l = some i) :
    matchTree S K (.node l cs) t v = (S.get l t).bind (bindSlot v i) := by
  rw [matchTree, if_neg (by rw [hskip]; exact Bool.false_ne_true), hslot]

theorem match_fixed (hskip : K.skip l = false) (hslot : S.slot l = none) (hfix : S.fixed l = true) :
    matchTree S K (.node l cs) t v =
      if subst S v (.node l cs) = some t then some v else none := by
  rw [matchTree, if_neg (by rw [hskip]; exact Bool.false_ne_true), hslot]
  exact if_pos hfix

theorem match_skipped (hskip : K.skip l = true) :
    matchTree S K (.node l cs) t v = if K.face l t then some v else none := by
  rw [matchTree, if_pos hskip]

theorem matchList_length {ps : List (Rose σ)}
    (h : matchList S K ps ts v = some w) : ps.length = ts.length := by
  induction ps generalizing ts v with
  | nil =>
    cases ts with
    | nil => rfl
    | cons t ts =>
      rw [matchList] at h
      · exact nomatch h
      all_goals simp
  | cons p ps ih =>
    cases ts with
    | nil =>
      rw [matchList] at h
      · exact nomatch h
      all_goals simp
    | cons t ts =>
      rw [matchList, bind_eq_some_iff] at h
      obtain ⟨u, -, h⟩ := h
      rw [length_cons, length_cons, ih h]

theorem matchList_append {ps qs us : List (Rose σ)} (h : ps.length = ts.length) :
    matchList S K (ps ++ qs) (ts ++ us) v = (matchList S K ps ts v).bind (matchList S K qs us) := by
  induction ps generalizing ts v with
  | nil =>
    obtain rfl := length_eq_zero_iff.mp h.symm
    rw [matchList]
    rfl
  | cons p ps ih =>
    cases ts with
    | nil => exact nomatch h
    | cons t ts =>
      rw [cons_append, cons_append, matchList, matchList, bind_assoc]
      congr 1
      funext w
      exact ih (Nat.succ.inj h)

mutual

/-- A tree that is neither slot nor passed over anywhere matches itself only. -/
theorem match_closed {v : Values σ ι} : ∀ p t : Rose σ, (∀ l cs, Rose.Sub (.node l cs) p →
    K.skip l = false ∧ S.slot l = none ∧ S.fixed l = false) →
      matchTree S K p t v = if p = t then some v else none
  | .node l cs, .node l' cs', h => by
    obtain ⟨hskip, hslot, hfix⟩ := h l cs (.refl _)
    rw [match_node hskip hslot hfix, Rose.label, Rose.children,
      matchList_closed cs cs' fun c hc l' cs' hsub => h l' cs' (.child hc hsub)]
    by_cases hl : l = l'
    · simp [hl]
    · simp [hl]

theorem matchList_closed {v : Values σ ι} : ∀ ps ts : List (Rose σ),
    (∀ p ∈ ps, ∀ l cs, Rose.Sub (.node l cs) p →
      K.skip l = false ∧ S.slot l = none ∧ S.fixed l = false) →
      matchList S K ps ts v = if ps = ts then some v else none
  | [], [], _ => by simp [matchList]
  | p :: ps, t :: ts, h => by
    rw [forall_mem_cons] at h
    rw [matchList, match_closed p t h.1]
    by_cases hp : p = t
    · simp [hp, matchList_closed ps ts h.2]
    · simp [hp]
  | [], t :: ts, _ => by
    rw [matchList]
    · simp
    all_goals simp
  | p :: ps, [], _ => by
    rw [matchList]
    · simp
    all_goals simp

end

mutual

/-- A match extends the values, just enough that the pattern becomes the target. -/
theorem match_sound {v v' : Values σ ι} :
    ∀ {p t : Rose σ}, Plain S p → matchTree S .none p t v = some v' →
      Le v v' ∧ (∀ w, Le v' w → subst S w p = some t) ∧
        ∀ i, v' i ≠ none ↔ v i ≠ none ∨ i ∈ mentions S .none p
  | .node l cs, t, hp, h => by
    rw [matchTree] at h
    rw [Plain] at hp
    simp only [none_skip, Bool.false_eq_true, if_false, mentions, subst] at h ⊢
    cases hl : S.slot l with
    | some i =>
      simp only [hl, bind_eq_some_iff] at h
      obtain ⟨u, hu, h⟩ := h
      obtain ⟨hle, hi, hdom⟩ := bindSlot_spec h
      refine ⟨hle, fun w hw => ?_, by simpa using hdom⟩
      rw [bind_eq_some_iff]
      exact ⟨u, hw i u hi, (S.put_iff l u t).mpr hu⟩
    | none =>
      simp only [hl] at h hp
      by_cases hfix : S.fixed l = true
      · rw [if_pos hfix, ite_none_right_eq_some] at h
        obtain ⟨hsub, hv⟩ := h
        cases hv
        refine ⟨.refl v, fun w _ => ?_, fun i => by simp [hp.1 hfix]⟩
        rw [← hsub, substList_congr v w cs (hp.1 hfix)]
      · rw [if_neg hfix, ite_none_right_eq_some] at h
        obtain ⟨rfl, h⟩ := h
        obtain ⟨hle, hsub, hdom⟩ := matchList_sound hp.2 h
        refine ⟨hle, fun w hw => ?_, hdom⟩
        rw [hsub w hw, bind_some, S.ok_of_not_fixed _ _ (by simpa using hfix), if_pos rfl]
        cases t with | node l' cs' => rfl

theorem matchList_sound {v v' : Values σ ι} :
    ∀ {ps ts : List (Rose σ)}, PlainList S ps → matchList S .none ps ts v = some v' →
      Le v v' ∧ (∀ w, Le v' w → substList S w ps = some ts) ∧
        ∀ i, v' i ≠ none ↔ v i ≠ none ∨ i ∈ mentionsList S .none ps
  | [], [], _, h => by
    rw [matchList] at h
    cases h
    exact ⟨.refl v, fun w _ => rfl, fun i => by simp [mentionsList]⟩
  | p :: ps, t :: ts, hp, h => by
    rw [matchList, bind_eq_some_iff] at h
    obtain ⟨u, hu, h⟩ := h
    obtain ⟨hle, hsub, hdom⟩ := match_sound hp.1 hu
    obtain ⟨hle', hsub', hdom'⟩ := matchList_sound hp.2 h
    refine ⟨hle.trans hle', fun w hw => ?_, fun i => ?_⟩
    · rw [substList, hsub w (hle'.trans hw), hsub' w hw]
      rfl
    · rw [hdom', hdom, mentionsList, mem_append, or_assoc]
  | [], t :: ts, _, h => by
    rw [matchList] at h
    · exact nomatch h
    all_goals simp
  | p :: ps, [], _, h => by
    rw [matchList] at h
    · exact nomatch h
    all_goals simp

end

mutual

/-- A match finds values below any that make the pattern the target. -/
theorem match_complete {v s : Values σ ι} (hle : Le v s) :
    ∀ {p t : Rose σ}, Plain S p → subst S s p = some t →
      ∃ v', matchTree S .none p t v = some v' ∧ Le v' s
  | .node l cs, t, hp, h => by
    rw [matchTree]
    rw [Plain] at hp
    simp only [none_skip, Bool.false_eq_true, if_false]
    cases hl : S.slot l with
    | some i =>
      simp only [subst, hl, bind_eq_some_iff] at h
      obtain ⟨u, hu, h⟩ := h
      obtain ⟨w, hw, hws⟩ := exists_bindSlot hle hu
      refine ⟨w, ?_, hws⟩
      simp [(S.put_iff l u t).mp h, hw]
    | none =>
      simp only [hl] at hp ⊢
      by_cases hfix : S.fixed l = true
      · rw [if_pos hfix]
        have hsub : subst S v (.node l cs) = some t := by
          rw [← h]
          simp [subst, hl, substList_congr v s cs (hp.1 hfix)]
        exact ⟨v, by rw [if_pos hsub], hle⟩
      · rw [if_neg hfix]
        simp only [subst, hl, bind_eq_some_iff, ite_none_right_eq_some] at h
        obtain ⟨ts, hts, -, h⟩ := h
        cases h
        rw [Rose.label, Rose.children, if_pos rfl]
        exact matchList_complete hle hp.2 hts

theorem matchList_complete {v s : Values σ ι} (hle : Le v s) :
    ∀ {ps ts : List (Rose σ)}, PlainList S ps → substList S s ps = some ts →
      ∃ v', matchList S .none ps ts v = some v' ∧ Le v' s
  | [], ts, _, h => by
    cases h
    exact ⟨v, by rw [matchList], hle⟩
  | p :: ps, ts, hp, h => by
    simp only [substList, bind_eq_some_iff, map_eq_some_iff] at h
    obtain ⟨t, ht, ts, hts, rfl⟩ := h
    obtain ⟨u, hu, hus⟩ := match_complete hle hp.1 ht
    obtain ⟨w, hw, hws⟩ := matchList_complete hus hp.2 hts
    exact ⟨w, by rw [matchList, hu, bind_some, hw], hws⟩

end

omit [DecidableEq σ] [DecidableEq ι] in
mutual

theorem mentions_none {i : ι} : ∀ p : Rose σ, i ∈ mentions S K p → i ∈ mentions S .none p
  | .node l cs, h => by
    rw [mentions] at h ⊢
    simp only [none_skip, Bool.false_eq_true, if_false]
    split at h
    · exact nomatch h
    · cases hl : S.slot l with
      | some j => simpa [hl] using h
      | none =>
        simp only [hl] at h
        exact mentionsList_none cs h

theorem mentionsList_none {i : ι} :
    ∀ ps : List (Rose σ), i ∈ mentionsList S K ps → i ∈ mentionsList S .none ps
  | [], h => nomatch h
  | p :: ps, h => by
    rw [mentionsList, mem_append] at h ⊢
    exact h.imp (mentions_none p) (mentionsList_none ps)

end

mutual

/-- A match that passes over labels binds the other slots of the pattern, and those alike. -/
theorem match_skip {v v' u : Values σ ι} (hface : ∀ l cs t v v', K.skip l = true →
      matchTree S .none (.node l cs) t v = some v' → K.face l t = true) :
    ∀ {p t : Rose σ}, Plain S p → matchTree S .none p t v = some v' → Le u v →
      ∃ u', matchTree S K p t u = some u' ∧ Le u u' ∧ Le u' v' ∧
        ∀ i, u' i ≠ none ↔ u i ≠ none ∨ i ∈ mentions S K p
  | .node l cs, t, hp, h, hle => by
    by_cases hskip : K.skip l = true
    · have hf := hface l cs t v v' hskip h
      refine ⟨u, ?_, .refl u, hle.trans (match_sound hp h).1, fun i => ?_⟩
      · rw [matchTree, if_pos hskip, if_pos hf]
      · rw [mentions, if_pos hskip]
        simp
    · rw [matchTree] at h ⊢
      rw [Plain] at hp
      simp only [none_skip, Bool.false_eq_true, if_false, if_neg hskip, mentions] at h ⊢
      cases hl : S.slot l with
      | some i =>
        simp only [hl, bind_eq_some_iff] at h
        obtain ⟨x, hx, h⟩ := h
        obtain ⟨hle', hi, -⟩ := bindSlot_spec h
        obtain ⟨u', hu', hub⟩ := exists_bindSlot (hle.trans hle') hi
        obtain ⟨hext, -, hdom⟩ := bindSlot_spec hu'
        refine ⟨u', ?_, hext, hub, by simpa using hdom⟩
        simp [hx, hu']
      | none =>
        simp only [hl] at h hp ⊢
        by_cases hfix : S.fixed l = true
        · rw [if_pos hfix, ite_none_right_eq_some] at h
          obtain ⟨hsub, hv⟩ := h
          cases hv
          have hno := hp.1 hfix
          have hsub' : subst S u (.node l cs) = some t := by
            rw [← hsub]
            simp [subst, hl, substList_congr u v cs hno]
          refine ⟨u, by rw [if_pos hfix, if_pos hsub'], .refl u, hle, fun i => ?_⟩
          have hnone : i ∉ mentionsList S K cs := fun hi => by
            have := mentionsList_none cs hi
            rw [hno] at this
            exact not_mem_nil this
          simp [hnone]
        · rw [if_neg hfix, ite_none_right_eq_some] at h
          obtain ⟨rfl, h⟩ := h
          obtain ⟨u', hu', hrest⟩ := matchList_skip hface hp.2 h hle
          exact ⟨u', by rw [if_neg hfix, if_pos rfl, hu'], hrest⟩

theorem matchList_skip {v v' u : Values σ ι} (hface : ∀ l cs t v v', K.skip l = true →
      matchTree S .none (.node l cs) t v = some v' → K.face l t = true) :
    ∀ {ps ts : List (Rose σ)}, PlainList S ps → matchList S .none ps ts v = some v' → Le u v →
      ∃ u', matchList S K ps ts u = some u' ∧ Le u u' ∧ Le u' v' ∧
        ∀ i, u' i ≠ none ↔ u i ≠ none ∨ i ∈ mentionsList S K ps
  | [], [], _, h, hle => by
    rw [matchList] at h ⊢
    cases h
    exact ⟨u, rfl, .refl u, hle, fun i => by simp [mentionsList]⟩
  | p :: ps, t :: ts, hp, h, hle => by
    rw [matchList, bind_eq_some_iff] at h
    obtain ⟨v1, hv1, h⟩ := h
    obtain ⟨u1, hu1, hle1, hle1', hdom1⟩ := match_skip hface hp.1 hv1 hle
    obtain ⟨u2, hu2, hle2, hle2', hdom2⟩ := matchList_skip hface hp.2 h hle1'
    refine ⟨u2, ?_, hle1.trans hle2, hle2', fun i => ?_⟩
    · rw [matchList, hu1, bind_some, hu2]
    · rw [hdom2, hdom1, mentionsList, mem_append, or_assoc]
  | [], t :: ts, _, h, _ => by
    rw [matchList] at h
    · exact nomatch h
    all_goals simp
  | p :: ps, [], _, h, _ => by
    rw [matchList] at h
    · exact nomatch h
    all_goals simp

end

end Matching
