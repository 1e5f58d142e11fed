import Fors.Lib.Trees
import Mathlib.Algebra.GroupWithZero.Nat

/-!
# Values, patterns and what a matrix of patterns covers

A pattern is a tree of constructors with wildcards; a value is a tree of constructors without any,
and may be infinite, so that every type has one. The rows of a matrix cover the vectors of values
that one of them matches. A column splits by the constructor of its values.

Principal results: `useful_ctor`, `useful_wild` and `useful_default`.
-/

namespace Coverage

open Trees List

variable {C τ : Type}

/-! ## Values -/

/-- At every path a constructor, and how many parts it has. -/
structure Value (C : Type) where
  at_ : List Nat → C × Nat

namespace Value

def head (v : Value C) : C :=
  (v.at_ []).1

def parts (v : Value C) : List (Value C) :=
  (List.range (v.at_ []).2).map fun i => ⟨fun p => v.at_ (i :: p)⟩

/-- The constructor over the parts. -/
def node (c : C) (vs : List (Value C)) : Value C where
  at_
    | [] => (c, vs.length)
    | i :: p => (vs[i]?.map fun v => v.at_ p).getD (c, 0)

@[simp] theorem head_node (c : C) (vs : List (Value C)) : (node c vs).head = c :=
  rfl

@[simp] theorem parts_node (c : C) (vs : List (Value C)) : (node c vs).parts = vs := by
  apply ext_getElem
  · simp [parts, node]
  · intro i h hi
    simp [parts, node, hi]

end Value

/-- The constructors of each type, and the types of their parts. -/
structure Typing (C τ : Type) where
  has : τ → C → Prop
  parts : τ → C → List τ
  pick : ∀ t, ∃ c, has t c

namespace Typing

variable (S : Typing C τ)

/-- A value of the type: wherever it is looked at, the constructor is one of the type's. -/
def Of (t : τ) (v : Value C) : Prop :=
  ∃ R : τ → Value C → Prop, R t v ∧
    ∀ t v, R t v → S.has t v.head ∧ List.Forall₂ R (S.parts t v.head) v.parts

variable {S} {t : τ} {ts : List τ} {v : Value C} {vs : List (Value C)} {c : C}

theorem of_iff : S.Of t v ↔ S.has t v.head ∧ List.Forall₂ S.Of (S.parts t v.head) v.parts := by
  constructor
  · rintro ⟨R, hR, hstep⟩
    obtain ⟨hhas, hparts⟩ := hstep t v hR
    exact ⟨hhas, Forall₂.imp (fun t v hR => ⟨R, hR, hstep⟩) hparts⟩
  · rintro ⟨hhas, hparts⟩
    refine ⟨fun u w => S.Of u w ∨ u = t ∧ w = v, .inr ⟨rfl, rfl⟩, ?_⟩
    have hstep : ∀ {u w}, S.Of u w → S.has u w.head ∧
        List.Forall₂ (fun u w => S.Of u w ∨ u = t ∧ w = v) (S.parts u w.head) w.parts := by
      rintro u w ⟨R, hR, hstep⟩
      obtain ⟨hhas, hparts⟩ := hstep u w hR
      exact ⟨hhas, Forall₂.imp (fun u w hR => .inl ⟨R, hR, hstep⟩) hparts⟩
    rintro u w (h | ⟨rfl, rfl⟩)
    · exact hstep h
    · exact ⟨hhas, Forall₂.imp (fun _ _ h => .inl h) hparts⟩

theorem of_node (hc : S.has t c) (hvs : List.Forall₂ S.Of (S.parts t c) vs) :
    S.Of t (.node c vs) := by
  rw [of_iff, Value.head_node, Value.parts_node]
  exact ⟨hc, hvs⟩

/-- The path of the value that takes the picked constructor everywhere. -/
noncomputable def pick_at (S : Typing C τ) (t : τ) : List Nat → C × Nat
  | [] => ((S.pick t).choose, (S.parts t (S.pick t).choose).length)
  | i :: p => ((S.parts t (S.pick t).choose)[i]?.map fun u => pick_at S u p).getD
      ((S.pick t).choose, 0)

noncomputable def any (S : Typing C τ) (t : τ) : Value C :=
  ⟨pick_at S t⟩

theorem parts_any (t : τ) : (S.any t).parts = (S.parts t (S.any t).head).map S.any := by
  apply ext_getElem
  · simp [Value.parts, Value.head, any, pick_at]
  · intro i h hi
    have hi : i < (S.parts t (S.pick t).choose).length := by
      rw [length_map] at hi
      exact hi
    simp [Value.parts, Value.head, any, pick_at, hi]

theorem of_any (t : τ) : S.Of t (S.any t) := by
  refine ⟨fun u w => w = S.any u, rfl, ?_⟩
  rintro u _ rfl
  refine ⟨(S.pick u).choose_spec, ?_⟩
  rw [parts_any]
  exact List.forall₂_map_right_iff.mpr (List.forall₂_same.mpr fun _ _ => rfl)

theorem exists_of_all (ts : List τ) : ∃ vs, List.Forall₂ S.Of ts vs :=
  ⟨ts.map S.any, List.forall₂_map_right_iff.mpr (List.forall₂_same.mpr fun t _ => of_any t)⟩

end Typing

/-! ## Patterns -/

/-- A tree of constructors; a node without one matches anything. -/
abbrev Pat (C : Type) := Rose (Option C)

def wild : Pat C :=
  .node none []

mutual

def Matches : Pat C → Value C → Prop
  | .node none _, _ => True
  | .node (some c) ps, v => v.head = c ∧ MatchesAll ps v.parts

def MatchesAll : List (Pat C) → List (Value C) → Prop
  | [], [] => True
  | p :: ps, v :: vs => Matches p v ∧ MatchesAll ps vs
  | _, _ => False

end

mutual

/-- The pattern's constructors are of the types that they stand at. -/
def Typed (has : τ → C → Prop) (parts : τ → C → List τ) : Pat C → τ → Prop
  | .node none _, _ => True
  | .node (some c) ps, t => has t c ∧ TypedAll has parts ps (parts t c)

def TypedAll (has : τ → C → Prop) (parts : τ → C → List τ) : List (Pat C) → List τ → Prop
  | [], [] => True
  | p :: ps, t :: ts => Typed has parts p t ∧ TypedAll has parts ps ts
  | _, _ => False

end

mutual

/-- The number of constructors. -/
def weight : Pat C → Nat
  | .node none _ => 0
  | .node (some _) ps => weightAll ps + 1

def weightAll : List (Pat C) → Nat
  | [] => 0
  | p :: ps => weight p + weightAll ps

end

variable {S : Typing C τ} {has has' : τ → C → Prop} {parts : τ → C → List τ} {p : Pat C}
  {ps qs : List (Pat C)} {t : τ} {ts us : List τ} {v : Value C} {vs ws : List (Value C)} {c : C}
  {n : Nat}

@[simp] theorem matches_wild (v : Value C) : Matches wild v := by
  simp [wild, Matches]

theorem matches_none (h : p.label = none) (v : Value C) : Matches p v := by
  obtain ⟨l, ps⟩ := p
  change l = none at h
  subst h
  simp [Matches]

theorem matches_some (h : p.label = some c) (v : Value C) :
    Matches p v ↔ v.head = c ∧ MatchesAll p.children v.parts := by
  obtain ⟨l, ps⟩ := p
  change l = some c at h
  subst h
  simp [Matches, Rose.children]

theorem typed_none (h : p.label = none) (t : τ) : Typed has parts p t := by
  obtain ⟨l, ps⟩ := p
  change l = none at h
  subst h
  simp [Typed]

theorem typed_some (h : p.label = some c) (t : τ) :
    Typed has parts p t ↔ has t c ∧ TypedAll has parts p.children (parts t c) := by
  obtain ⟨l, ps⟩ := p
  change l = some c at h
  subst h
  simp [Typed, Rose.children]

theorem weight_some (h : p.label = some c) : weight p = weightAll p.children + 1 := by
  obtain ⟨l, ps⟩ := p
  change l = some c at h
  subst h
  simp [weight, Rose.children]

theorem matchesAll_length (h : MatchesAll ps vs) : ps.length = vs.length := by
  induction ps generalizing vs with
  | nil =>
    cases vs with
    | nil => rfl
    | cons v vs => simp [MatchesAll] at h
  | cons p ps ih =>
    cases vs with
    | nil => simp [MatchesAll] at h
    | cons v vs =>
      rw [MatchesAll] at h
      rw [length_cons, length_cons, ih h.2]

theorem matchesAll_append (h : ps.length = vs.length) :
    MatchesAll (ps ++ qs) (vs ++ ws) ↔ MatchesAll ps vs ∧ MatchesAll qs ws := by
  induction ps generalizing vs with
  | nil =>
    obtain rfl := eq_nil_of_length_eq_zero h.symm
    simp [MatchesAll]
  | cons p ps ih =>
    cases vs with
    | nil => exact nomatch h
    | cons v vs =>
      rw [cons_append, cons_append, MatchesAll, MatchesAll, ih (Nat.succ.inj h),
        and_assoc]

theorem matchesAll_wilds (h : vs.length = n) : MatchesAll (List.replicate n wild) vs := by
  induction vs generalizing n with
  | nil =>
    subst h
    simp [MatchesAll]
  | cons v vs ih =>
    subst h
    rw [length_cons, replicate_succ, MatchesAll]
    exact ⟨matches_wild v, ih rfl⟩

theorem typedAll_length (h : TypedAll has parts ps ts) : ps.length = ts.length := by
  induction ps generalizing ts with
  | nil =>
    cases ts with
    | nil => rfl
    | cons t ts => simp [TypedAll] at h
  | cons p ps ih =>
    cases ts with
    | nil => simp [TypedAll] at h
    | cons t ts =>
      rw [TypedAll] at h
      rw [length_cons, length_cons, ih h.2]

theorem typedAll_append (h : ps.length = ts.length) :
    TypedAll has parts (ps ++ qs) (ts ++ us) ↔
      TypedAll has parts ps ts ∧ TypedAll has parts qs us := by
  induction ps generalizing ts with
  | nil =>
    obtain rfl := eq_nil_of_length_eq_zero h.symm
    simp [TypedAll]
  | cons p ps ih =>
    cases ts with
    | nil => exact nomatch h
    | cons t ts =>
      rw [cons_append, cons_append, TypedAll, TypedAll, ih (Nat.succ.inj h), and_assoc]

theorem typedAll_wilds (h : ts.length = n) : TypedAll has parts (List.replicate n wild) ts := by
  induction ts generalizing n with
  | nil =>
    subst h
    simp [TypedAll]
  | cons t ts ih =>
    subst h
    rw [length_cons, replicate_succ, TypedAll]
    exact ⟨typed_none rfl t, ih rfl⟩

mutual

theorem Typed.mono (h : ∀ t c, has t c → has' t c) :
    ∀ {p : Pat C} {t : τ}, Typed has parts p t → Typed has' parts p t
  | .node none _, t, _ => typed_none rfl t
  | .node (some c) ps, t, hp => by
    rw [Typed] at hp ⊢
    exact ⟨h t c hp.1, TypedAll.mono h hp.2⟩

theorem TypedAll.mono (h : ∀ t c, has t c → has' t c) :
    ∀ {ps : List (Pat C)} {ts : List τ}, TypedAll has parts ps ts → TypedAll has' parts ps ts
  | [], [], _ => by simp [TypedAll]
  | p :: ps, t :: ts, hp => by
    rw [TypedAll] at hp ⊢
    exact ⟨Typed.mono h hp.1, TypedAll.mono h hp.2⟩
  | [], _ :: _, hp => by simp [TypedAll] at hp
  | _ :: _, [], hp => by simp [TypedAll] at hp

end

/-! Every pattern of a type has a value. -/

mutual

theorem exists_matches :
    ∀ {p : Pat C} {t : τ}, Typed S.has S.parts p t → ∃ v, S.Of t v ∧ Matches p v
  | .node none _, t, _ => ⟨S.any t, Typing.of_any t, matches_none rfl _⟩
  | .node (some c) ps, t, hp => by
    rw [Typed] at hp
    obtain ⟨vs, hvs, hmatch⟩ := exists_matchesAll hp.2
    refine ⟨.node c vs, Typing.of_node hp.1 hvs, ?_⟩
    rw [Matches, Value.head_node, Value.parts_node]
    exact ⟨rfl, hmatch⟩

theorem exists_matchesAll :
    ∀ {ps : List (Pat C)} {ts : List τ}, TypedAll S.has S.parts ps ts →
      ∃ vs, List.Forall₂ S.Of ts vs ∧ MatchesAll ps vs
  | [], [], _ => ⟨[], .nil, by simp [MatchesAll]⟩
  | p :: ps, t :: ts, hp => by
    rw [TypedAll] at hp
    obtain ⟨v, hv, hmatch⟩ := exists_matches hp.1
    obtain ⟨vs, hvs, hrest⟩ := exists_matchesAll hp.2
    refine ⟨v :: vs, .cons hv hvs, ?_⟩
    rw [MatchesAll]
    exact ⟨hmatch, hrest⟩
  | [], _ :: _, hp => by simp [TypedAll] at hp
  | _ :: _, [], hp => by simp [TypedAll] at hp

end

theorem weightAll_append (ps qs : List (Pat C)) :
    weightAll (ps ++ qs) = weightAll ps + weightAll qs := by
  induction ps with
  | nil => simp [weightAll]
  | cons p ps ih =>
    rw [cons_append, weightAll, weightAll, ih]
    omega

theorem weightAll_wilds (n : Nat) : weightAll (List.replicate n (wild : Pat C)) = 0 := by
  induction n with
  | zero => simp [weightAll]
  | succ n ih =>
    rw [replicate_succ, weightAll, ih]
    simp [wild, weight]

/-! ## Matrices -/

/-- Some row matches. -/
def Covered (rows : List (List (Pat C))) (vs : List (Value C)) : Prop :=
  ∃ r ∈ rows, MatchesAll r vs

/-- What a row says of the parts of a value with constructor `c`, of which there are `n`. -/
def specializeRow [DecidableEq C] (c : C) (n : Nat) : List (Pat C) → List (List (Pat C))
  | [] => []
  | p :: ps =>
    match p.label with
    | none => [List.replicate n wild ++ ps]
    | some c' => if c' = c then [p.children ++ ps] else []

def specialize [DecidableEq C] (c : C) (n : Nat) (rows : List (List (Pat C))) :
    List (List (Pat C)) :=
  rows.flatMap (specializeRow c n)

/-- What a row says of the columns behind a value that no constructor of the matrix matches. -/
def defaultRow : List (Pat C) → List (List (Pat C))
  | [] => []
  | p :: ps => if p.label = none then [ps] else []

def defaults (rows : List (List (Pat C))) : List (List (Pat C)) :=
  rows.flatMap defaultRow

/-- The row's first pattern has that constructor. -/
def HeadedBy (c : C) (r : List (Pat C)) : Prop :=
  ∃ p ps, r = p :: ps ∧ p.label = some c

def weights (rows : List (List (Pat C))) : Nat :=
  (rows.map weightAll).sum

variable [DecidableEq C] {rows : List (List (Pat C))} {r : List (Pat C)}

theorem matchesAll_specializeRow (hc : v.head = c) (hn : v.parts.length = n)
    (harity : ∀ p ps, r = p :: ps → p.label = some c → p.children.length = n) :
    Covered (specializeRow c n r) (v.parts ++ vs) ↔ MatchesAll r (v :: vs) := by
  cases r with
  | nil => simp [specializeRow, Covered, MatchesAll]
  | cons p ps =>
    rw [specializeRow, MatchesAll]
    cases hl : p.label with
    | none =>
      simp only [Covered, mem_singleton, exists_eq_left]
      rw [matchesAll_append (by rw [length_replicate, hn])]
      simp [matchesAll_wilds hn, matches_none hl]
    | some c' =>
      rw [matches_some hl]
      by_cases heq : c' = c
      · subst heq
        simp only [if_true, Covered, mem_singleton, exists_eq_left]
        rw [matchesAll_append (by rw [harity p ps rfl hl, hn])]
        simp [hc]
      · have hne : ¬ v.head = c' := fun h => heq (h.symm.trans hc)
        simp [heq, hne, Covered]

/-- The column split by a constructor covers a value of it as the matrix does. -/
theorem covered_specialize (hc : v.head = c) (hn : v.parts.length = n)
    (harity : ∀ r ∈ rows, ∀ p ps, r = p :: ps → p.label = some c → p.children.length = n) :
    Covered (specialize c n rows) (v.parts ++ vs) ↔ Covered rows (v :: vs) := by
  constructor
  · rintro ⟨r', hr', hmatch⟩
    obtain ⟨r, hr, hmem⟩ := mem_flatMap.mp hr'
    exact ⟨r, hr, (matchesAll_specializeRow hc hn (harity r hr)).mp ⟨r', hmem, hmatch⟩⟩
  · rintro ⟨r, hr, hmatch⟩
    obtain ⟨r', hr', hmatch'⟩ := (matchesAll_specializeRow hc hn (harity r hr)).mpr hmatch
    exact ⟨r', mem_flatMap.mpr ⟨r, hr, hr'⟩, hmatch'⟩

omit [DecidableEq C] in
theorem covered_defaultRow (hno : ¬ HeadedBy v.head r) (h : MatchesAll r (v :: vs)) :
    Covered (defaultRow r) vs := by
  cases r with
  | nil => simp [MatchesAll] at h
  | cons p ps =>
    rw [MatchesAll] at h
    cases hl : p.label with
    | none =>
      rw [defaultRow, if_pos hl]
      exact ⟨ps, mem_singleton_self ps, h.2⟩
    | some c' =>
      rw [matches_some hl] at h
      exact absurd ⟨p, ps, rfl, by rw [hl, h.1.1]⟩ hno

omit [DecidableEq C] in
theorem covered_of_defaults (v : Value C) (h : Covered (defaults rows) vs) :
    Covered rows (v :: vs) := by
  obtain ⟨r', hr', hmatch⟩ := h
  obtain ⟨r, hr, hmem⟩ := mem_flatMap.mp hr'
  refine ⟨r, hr, ?_⟩
  cases r with
  | nil => simp [defaultRow] at hmem
  | cons p ps =>
    rw [defaultRow] at hmem
    split at hmem
    · rename_i hl
      obtain rfl := mem_singleton.mp hmem
      rw [MatchesAll]
      exact ⟨matches_none hl v, hmatch⟩
    · exact absurd hmem not_mem_nil

omit [DecidableEq C] in
/-- Behind a value whose constructor no row has, the default matrix covers as the matrix does. -/
theorem covered_defaults (hno : ∀ r ∈ rows, ¬ HeadedBy v.head r) :
    Covered (defaults rows) vs ↔ Covered rows (v :: vs) := by
  constructor
  · exact covered_of_defaults v
  · rintro ⟨r, hr, hmatch⟩
    obtain ⟨r', hr', hmatch'⟩ := covered_defaultRow (hno r hr) hmatch
    exact ⟨r', mem_flatMap.mpr ⟨r, hr, hr'⟩, hmatch'⟩

/-- Every row is of the column types. -/
def RowsTyped (has : τ → C → Prop) (parts : τ → C → List τ) (ts : List τ)
    (rows : List (List (Pat C))) : Prop :=
  ∀ r ∈ rows, TypedAll has parts r ts

omit [DecidableEq C] in
theorem RowsTyped.arity (h : RowsTyped has parts (t :: ts) rows) :
    ∀ r ∈ rows, ∀ p ps, r = p :: ps → p.label = some c →
      p.children.length = (parts t c).length := by
  rintro r hr p ps rfl hl
  have hp := h _ hr
  rw [TypedAll, typed_some hl] at hp
  exact typedAll_length hp.1.2

theorem RowsTyped.specialize (h : RowsTyped has parts (t :: ts) rows) (c : C) :
    RowsTyped has parts (parts t c ++ ts) (specialize c (parts t c).length rows) := by
  intro r' hr'
  obtain ⟨r, hr, hmem⟩ := mem_flatMap.mp hr'
  have htyped := h r hr
  cases r with
  | nil => simp [specializeRow] at hmem
  | cons p ps =>
    rw [TypedAll] at htyped
    rw [specializeRow] at hmem
    cases hl : p.label with
    | none =>
      simp only [hl, mem_singleton] at hmem
      subst hmem
      rw [typedAll_append (by rw [length_replicate])]
      exact ⟨typedAll_wilds rfl, htyped.2⟩
    | some c' =>
      simp only [hl] at hmem
      split at hmem
      · rename_i heq
        subst heq
        obtain rfl := mem_singleton.mp hmem
        have hp := ((typed_some hl t).mp htyped.1).2
        rw [typedAll_append (typedAll_length hp)]
        exact ⟨hp, htyped.2⟩
      · exact absurd hmem not_mem_nil

omit [DecidableEq C] in
theorem RowsTyped.defaults (h : RowsTyped has parts (t :: ts) rows) :
    RowsTyped has parts ts (defaults rows) := by
  intro r' hr'
  obtain ⟨r, hr, hmem⟩ := mem_flatMap.mp hr'
  have htyped := h r hr
  cases r with
  | nil => simp [defaultRow] at hmem
  | cons p ps =>
    rw [TypedAll] at htyped
    rw [defaultRow] at hmem
    split at hmem
    · obtain rfl := mem_singleton.mp hmem
      exact htyped.2
    · exact absurd hmem not_mem_nil

/-! ### Sizes -/

omit [DecidableEq C] in
theorem weights_flatMap_le {f : List (Pat C) → List (List (Pat C))}
    (h : ∀ r, weights (f r) ≤ weightAll r) : weights (rows.flatMap f) ≤ weights rows := by
  induction rows with
  | nil => simp [weights]
  | cons r rows ih =>
    have hr := h r
    simp only [weights, flatMap_cons, map_append, sum_append, map_cons,
      sum_cons] at ih hr ⊢
    omega

theorem weights_specializeRow_le (c : C) (n : Nat) (r : List (Pat C)) :
    weights (specializeRow c n r) ≤ weightAll r := by
  cases r with
  | nil => simp [specializeRow, weights]
  | cons p ps =>
    rw [specializeRow, weightAll]
    cases hl : p.label with
    | none => simp [weights, weightAll_append, weightAll_wilds]
    | some c' =>
      have hw := weight_some hl
      simp only
      split
      · simp only [weights, map_cons, map_nil, sum_cons, sum_nil,
          weightAll_append]
        omega
      · simp [weights]

theorem weights_specialize_le (c : C) (n : Nat) (rows : List (List (Pat C))) :
    weights (specialize c n rows) ≤ weights rows :=
  weights_flatMap_le (weights_specializeRow_le c n)

omit [DecidableEq C] in
theorem weights_defaults_le (rows : List (List (Pat C))) :
    weights (defaults rows) ≤ weights rows := by
  refine weights_flatMap_le fun r => ?_
  cases r with
  | nil => simp [defaultRow, weights]
  | cons p ps =>
    rw [defaultRow, weightAll]
    split <;> simp [weights]

/-- A row with the constructor loses it. -/
theorem weights_specialize_lt (hr : r ∈ rows) (hc : HeadedBy c r) (n : Nat) :
    weights (specialize c n rows) < weights rows := by
  induction rows with
  | nil => exact absurd hr not_mem_nil
  | cons r' rows ih =>
    have hle := weights_specializeRow_le c n r'
    have hle' := weights_specialize_le c n rows
    have hsplit : weights (specialize c n (r' :: rows)) =
        weights (specializeRow c n r') + weights (specialize c n rows) := by
      simp [weights, specialize]
    have hsum : weights (r' :: rows) = weightAll r' + weights rows := by simp [weights]
    rw [hsplit, hsum]
    obtain rfl | hr := mem_cons.mp hr
    · obtain ⟨p, ps, rfl, hl⟩ := hc
      have hw := weight_some hl
      have hlt : weights (specializeRow c n (p :: ps)) < weightAll (p :: ps) := by
        simp only [specializeRow, hl, if_true, weights, map_cons, map_nil,
          sum_cons, sum_nil, weightAll_append, weightAll]
        omega
      omega
    · have := ih hr
      omega

/-! ## Usefulness -/

/-- Some values match the row and no row of the matrix. -/
def Useful (S : Typing C τ) (ts : List τ) (rows : List (List (Pat C))) (q : List (Pat C)) : Prop :=
  ∃ vs, List.Forall₂ S.Of ts vs ∧ MatchesAll q vs ∧ ¬ Covered rows vs

/-- All values that the witness matches match the row and no row of the matrix. -/
def Gap (S : Typing C τ) (ts : List τ) (rows : List (List (Pat C))) (q w : List (Pat C)) : Prop :=
  ∀ vs, List.Forall₂ S.Of ts vs → MatchesAll w vs → MatchesAll q vs ∧ ¬ Covered rows vs

variable {q w : List (Pat C)}

omit [DecidableEq C] in
/-- The rows have no columns left. -/
theorem covered_nil (h : RowsTyped has parts ([] : List τ) rows) :
    Covered rows ([] : List (Value C)) ↔ rows ≠ [] := by
  constructor
  · rintro ⟨r, hr, -⟩ rfl
    exact absurd hr not_mem_nil
  · intro hne
    obtain ⟨r, hr⟩ := exists_mem_of_ne_nil rows hne
    obtain rfl := eq_nil_of_length_eq_zero (typedAll_length (h r hr))
    exact ⟨[], hr, by simp [MatchesAll]⟩

omit [DecidableEq C] in
/-- A vector over the parts of a constructor, as a value and the rest. -/
theorem exists_split (hc : S.has t c) (hvs : List.Forall₂ S.Of (S.parts t c ++ ts) vs) :
    ∃ v rest, S.Of t v ∧ v.head = c ∧ v.parts.length = (S.parts t c).length ∧
      List.Forall₂ S.Of ts rest ∧ vs = v.parts ++ rest := by
  have hparts := List.forall₂_take (S.parts t c).length hvs
  have hrest := List.forall₂_drop (S.parts t c).length hvs
  rw [take_left] at hparts
  rw [drop_left] at hrest
  refine ⟨.node c (vs.take (S.parts t c).length), vs.drop (S.parts t c).length,
    Typing.of_node hc hparts, rfl, ?_, hrest, ?_⟩
  · rw [Value.parts_node, ← hparts.length_eq]
  · rw [Value.parts_node, take_append_drop]

omit [DecidableEq C] in
/-- The parts of a value before the rest. -/
theorem of_parts (hv : S.Of t v) (hvs : List.Forall₂ S.Of ts vs) :
    S.has t v.head ∧ v.parts.length = (S.parts t v.head).length ∧
      List.Forall₂ S.Of (S.parts t v.head ++ ts) (v.parts ++ vs) := by
  obtain ⟨hhas, hparts⟩ := Typing.of_iff.mp hv
  exact ⟨hhas, hparts.length_eq.symm, rel_append hparts hvs⟩

omit [DecidableEq C] in
/-- What is put together over the first `n` columns matches as they do. -/
theorem matchesAll_join (h : MatchesAll (.node (some c) (w.take n) :: w.drop n) (v :: vs)) :
    v.head = c ∧ MatchesAll w (v.parts ++ vs) := by
  rw [MatchesAll, matches_some rfl] at h
  obtain ⟨⟨hhead, hsub⟩, hrest⟩ := h
  change MatchesAll (w.take n) v.parts at hsub
  refine ⟨hhead, ?_⟩
  rw [← take_append_drop n w, matchesAll_append (matchesAll_length hsub)]
  exact ⟨hsub, hrest⟩

section Split

variable (hrows : RowsTyped S.has S.parts (t :: ts) rows)
include hrows

/-- A row that starts with a constructor is useful as its parts are. -/
theorem useful_ctor (hl : p.label = some c) (hp : Typed S.has S.parts p t) :
    Useful S (t :: ts) rows (p :: ps) ↔
      Useful S (S.parts t c ++ ts) (specialize c (S.parts t c).length rows) (p.children ++ ps) := by
  obtain ⟨hc, hchildren⟩ := (typed_some hl t).mp hp
  have harity := hrows.arity (c := c)
  constructor
  · rintro ⟨_, hvs, hmatch, hnot⟩
    obtain _ | ⟨hv, hvs⟩ := hvs
    rename_i v vs
    obtain ⟨hhas, hlen, hall⟩ := of_parts hv hvs
    rw [MatchesAll, matches_some hl] at hmatch
    obtain ⟨⟨rfl, hmatch⟩, hrest⟩ := hmatch
    rw [← covered_specialize rfl hlen harity] at hnot
    refine ⟨_, hall, ?_, hnot⟩
    rw [matchesAll_append (matchesAll_length hmatch)]
    exact ⟨hmatch, hrest⟩
  · rintro ⟨_, hvs, hmatch, hnot⟩
    obtain ⟨v, rest, hv, hhead, hlen, hrest, rfl⟩ := exists_split hc hvs
    rw [covered_specialize hhead hlen harity] at hnot
    rw [matchesAll_append (by rw [typedAll_length hchildren, hlen])] at hmatch
    refine ⟨_, .cons hv hrest, ?_, hnot⟩
    rw [MatchesAll, matches_some hl]
    exact ⟨⟨hhead, hmatch.1⟩, hmatch.2⟩

/-- A row that starts with a wildcard is useful when it is under some constructor. -/
theorem useful_wild (hl : p.label = none) :
    Useful S (t :: ts) rows (p :: ps) ↔ ∃ c, S.has t c ∧
      Useful S (S.parts t c ++ ts) (specialize c (S.parts t c).length rows)
        (List.replicate (S.parts t c).length wild ++ ps) := by
  constructor
  · rintro ⟨_, hvs, hmatch, hnot⟩
    obtain _ | ⟨hv, hvs⟩ := hvs
    rename_i v vs
    obtain ⟨hhas, hlen, hall⟩ := of_parts hv hvs
    rw [MatchesAll] at hmatch
    rw [← covered_specialize rfl hlen (hrows.arity (c := v.head))] at hnot
    refine ⟨v.head, hhas, _, hall, ?_, hnot⟩
    rw [matchesAll_append (by rw [length_replicate, hlen])]
    exact ⟨matchesAll_wilds hlen, hmatch.2⟩
  · rintro ⟨c, hc, _, hvs, hmatch, hnot⟩
    obtain ⟨v, rest, hv, hhead, hlen, hrest, rfl⟩ := exists_split hc hvs
    rw [covered_specialize hhead hlen (hrows.arity (c := c))] at hnot
    rw [matchesAll_append (by rw [length_replicate, hlen])] at hmatch
    refine ⟨_, .cons hv hrest, ?_, hnot⟩
    rw [MatchesAll]
    exact ⟨matches_none hl v, hmatch.2⟩

/-- A witness for the parts of the row's constructor, put together. -/
theorem gap_ctor (hl : p.label = some c) (hp : Typed S.has S.parts p t)
    (hw : Gap S (S.parts t c ++ ts) (specialize c (S.parts t c).length rows) (p.children ++ ps) w)
    (hlen : w.length = (S.parts t c ++ ts).length) :
    Gap S (t :: ts) rows (p :: ps)
      (.node (some c) (w.take (S.parts t c).length) :: w.drop (S.parts t c).length) := by
  obtain ⟨hc, hchildren⟩ := (typed_some hl t).mp hp
  intro _ hvs hmatch
  obtain _ | ⟨hv, hvs⟩ := hvs
  rename_i v vs
  obtain ⟨-, hparts, hall⟩ := of_parts hv hvs
  obtain ⟨rfl, hjoin⟩ := matchesAll_join hmatch
  obtain ⟨hq, hnot⟩ := hw _ hall hjoin
  rw [matchesAll_append (by rw [typedAll_length hchildren, hparts])] at hq
  rw [covered_specialize rfl hparts (hrows.arity (c := v.head))] at hnot
  rw [MatchesAll, matches_some hl]
  exact ⟨⟨⟨rfl, hq.1⟩, hq.2⟩, hnot⟩

theorem gap_wild (hl : p.label = none)
    (hw : Gap S (S.parts t c ++ ts) (specialize c (S.parts t c).length rows)
      (List.replicate (S.parts t c).length wild ++ ps) w) :
    Gap S (t :: ts) rows (p :: ps)
      (.node (some c) (w.take (S.parts t c).length) :: w.drop (S.parts t c).length) := by
  intro _ hvs hmatch
  obtain _ | ⟨hv, hvs⟩ := hvs
  rename_i v vs
  obtain ⟨-, hparts, hall⟩ := of_parts hv hvs
  obtain ⟨rfl, hjoin⟩ := matchesAll_join hmatch
  obtain ⟨hq, hnot⟩ := hw _ hall hjoin
  rw [matchesAll_append (by rw [length_replicate, hparts])] at hq
  rw [covered_specialize rfl hparts (hrows.arity (c := v.head))] at hnot
  rw [MatchesAll]
  exact ⟨⟨matches_none hl v, hq.2⟩, hnot⟩

end Split

omit [DecidableEq C] in
/-- Where some constructor of the type is in no row, only the default matrix matters. -/
theorem useful_default (hl : p.label = none) (hc : S.has t c)
    (hno : ∀ r ∈ rows, ¬ HeadedBy c r) :
    Useful S (t :: ts) rows (p :: ps) ↔ Useful S ts (defaults rows) ps := by
  constructor
  · rintro ⟨_, hvs, hmatch, hnot⟩
    obtain _ | ⟨hv, hvs⟩ := hvs
    rename_i v vs
    rw [MatchesAll] at hmatch
    exact ⟨vs, hvs, hmatch.2, fun hcov => hnot (covered_of_defaults v hcov)⟩
  · rintro ⟨vs, hvs, hmatch, hnot⟩
    obtain ⟨parts, hparts⟩ := Typing.exists_of_all (S := S) (S.parts t c)
    refine ⟨.node c parts :: vs, .cons (Typing.of_node hc hparts) hvs, ?_, ?_⟩
    · rw [MatchesAll]
      exact ⟨matches_none hl _, hmatch⟩
    · rwa [← covered_defaults hno]

omit [DecidableEq C] in
theorem gap_default (hl : p.label = none) (hno : ∀ r ∈ rows, ¬ HeadedBy c r)
    (hw : Gap S ts (defaults rows) ps w) :
    Gap S (t :: ts) rows (p :: ps) (.node (some c) qs :: w) := by
  intro _ hvs hmatch
  obtain _ | ⟨hv, hvs⟩ := hvs
  rename_i v vs
  rw [MatchesAll, matches_some rfl] at hmatch
  obtain ⟨⟨rfl, -⟩, hrest⟩ := hmatch
  obtain ⟨hq, hnot⟩ := hw vs hvs hrest
  rw [covered_defaults hno] at hnot
  rw [MatchesAll]
  exact ⟨⟨matches_none hl v, hq⟩, hnot⟩

omit [DecidableEq C] in
/-- A witness that is put together is of the types that its parts were of. -/
theorem typedAll_join (hlen : w.length = (parts t c ++ ts).length) :
    TypedAll has parts
      (.node (some c) (w.take (parts t c).length) :: w.drop (parts t c).length) (t :: ts) ↔
      has t c ∧ TypedAll has parts w (parts t c ++ ts) := by
  have htake : (w.take (parts t c).length).length = (parts t c).length := by
    rw [length_take, hlen, length_append]
    omega
  rw [TypedAll, typed_some rfl, and_assoc]
  nth_rewrite 3 [← take_append_drop (parts t c).length w]
  rw [typedAll_append htake]
  rfl

omit [DecidableEq C] in
theorem Gap.useful (h : Gap S ts rows q w) (hw : TypedAll S.has S.parts w ts) :
    Useful S ts rows q := by
  obtain ⟨vs, hvs, hmatch⟩ := exists_matchesAll hw
  exact ⟨vs, hvs, h vs hvs hmatch⟩

end Coverage
