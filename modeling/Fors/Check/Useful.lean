import Mathlib
import Fors.Check.Exhaust

/-!
# The walk decides usefulness

The constructors that the values of a type have: those of a complete signature, every string and
every integer for the literals, whose domains count as infinite, and anything for a type that the
check does not recognise.

The walk over node ids is the splitting of matrices of patterns, so its answer is whether the row
is useful, and its witness matches only values that the matrix leaves to the row.

Principal result: `usefulness_answers`.
-/

namespace Fors.Check

open Trees Coverage List
open Ty

/-! ## Integer ranges -/

def PrimKind.is_integer : PrimKind → Bool
  | .I8 | .I16 | .I32 | .I64 | .Isize | .U8 | .U16 | .U32 | .U64 | .Usize => true
  | _ => false

def range_of : PrimKind → Option (Int × Int)
  | .I8 => some (-2 ^ 7, 2 ^ 7 - 1)
  | .I16 => some (-2 ^ 15, 2 ^ 15 - 1)
  | .I32 => some (-2 ^ 31, 2 ^ 31 - 1)
  | .I64 => some (-2 ^ 63, 2 ^ 63 - 1)
  | .U8 => some (0, 2 ^ 8 - 1)
  | .U16 => some (0, 2 ^ 16 - 1)
  | .U32 => some (0, 2 ^ 32 - 1)
  | .U64 => some (0, 2 ^ 64 - 1)
  | .Isize => some (-2 ^ 63, 2 ^ 63 - 1)
  | .Usize => some (0, 2 ^ 64 - 1)
  | _ => none

/-- `fits` of an integer constant. -/
def fits (n : Int) (p : PrimKind) : Bool :=
  match range_of p with
  | some (lo, hi) => decide (n ≥ lo ∧ n ≤ hi)
  | none => false

namespace Wf

variable (W : Wf)

/-! ## Values -/

/-- The constructors of the values of a type. -/
def has (t : TyId) (c : Ctor) : Prop :=
  match W.signature_of t with
  | .Finite ctors => c ∈ ctors.map Prod.fst
  | .Infinite =>
    match W.prim t with
    | some .Str => ∃ s, c = .Str s
    | some p => PrimKind.is_integer p = true → ∃ n, c = .Int n
    | none => True

/-- The constructors that a pattern may test at a type without a diagnostic. -/
def checks (t : TyId) (c : Ctor) : Prop :=
  if t = TY_ERROR ∨ t = NO_TY then True
  else
    match W.signature_of t with
    | .Finite ctors => c ∈ ctors.map Prod.fst
    | .Infinite =>
      match W.prim t with
      | some .Str => ∃ s, c = .Str s
      | some p => ∃ n, c = .Int n ∧ fits n p = true
      | none => False

variable {W} {t : TyId} {c : Ctor} {ctors : List (Ctor × List TyId)}

theorem has_of_finite (h : W.signature_of t = .Finite ctors) :
    W.has t c ↔ c ∈ ctors.map Prod.fst := by
  rw [has, h]

theorem checks_of_mem (h : W.signature_of t = .Finite ctors) {q : Ctor × List TyId}
    (hq : q ∈ ctors) : W.checks t q.1 := by
  unfold checks
  split
  · trivial
  · rw [h]
    exact mem_map_of_mem hq

theorem signature_ne_nil : W.signature_of t ≠ .Finite [] := by
  unfold signature_of
  intro h
  split at h
  · exact nomatch h
  · split at h
    · exact nomatch h
    · split at h
      · split at h <;> exact nomatch h
      · exact nomatch h
      · split at h
        · exact nomatch h
        · dsimp only at h
          split at h
          · exact nomatch h
          · rename_i hne
            exact hne (Sig.Finite.inj h)
        · exact nomatch h
      · exact nomatch h

/-- The parts that a signature lists for a constructor are those that its column is split into. -/
theorem sub_tys_of_mem (h : W.signature_of t = .Finite ctors) {sub_tys : List TyId}
    (hmem : (c, sub_tys) ∈ ctors) : W.ctor_sub_tys t c = sub_tys := by
  unfold signature_of at h
  split at h
  · exact nomatch h
  · split at h
    · exact nomatch h
    · rename_i row hrow
      split at h
      · split at h
        · obtain rfl := Sig.Finite.inj h
          simp only [mem_cons, not_mem_nil, or_false, Prod.mk.injEq] at hmem
          obtain ⟨rfl, rfl⟩ | ⟨rfl, rfl⟩ := hmem <;> rfl
        · exact nomatch h
      · rename_i htag
        obtain rfl := Sig.Finite.inj h
        obtain ⟨rfl, rfl⟩ := Prod.mk.inj (mem_singleton.mp hmem)
        simp [ctor_sub_tys, hrow, htag]
      · rename_i htag
        have hargs : W.scrutinee_args t row.a = row.b := by simp [scrutinee_args, hrow, htag]
        split at h
        · obtain rfl := Sig.Finite.inj h
          obtain ⟨rfl, rfl⟩ := Prod.mk.inj (mem_singleton.mp hmem)
          simp [ctor_sub_tys, hargs]
        · dsimp only at h
          split at h
          · exact nomatch h
          · obtain rfl := Sig.Finite.inj h
            obtain ⟨⟨payload, index⟩, hp, heq⟩ := mem_map.mp hmem
            cases heq
            have hget : (W.variants row.a)[index]? = some payload :=
              mem_zipIdx_iff_getElem?.mp hp
            simp [ctor_sub_tys, nth_variant, hget, hargs]
        · exact nomatch h
      · exact nomatch h

theorem exists_has (t : TyId) : ∃ c, W.has t c := by
  unfold has
  split
  · rename_i ctors h
    cases ctors with
    | nil => exact absurd h signature_ne_nil
    | cons p ps => exact ⟨p.1, by simp⟩
  · split
    · exact ⟨.Str "", _, rfl⟩
    · exact ⟨.Int 0, fun _ => ⟨0, rfl⟩⟩
    · exact ⟨.Int 0, trivial⟩

/-- Every type has values, and the literals are infinitely many. -/
def typing (W : Wf) : Typing Ctor TyId where
  has := W.has
  parts := W.ctor_sub_tys
  pick := exists_has

theorem has_of_checks (h : W.checks t c) : W.has t c := by
  unfold checks at h
  unfold has
  split at h
  · rename_i hno
    have hsig : W.signature_of t = .Infinite := if_pos hno
    have hprim : W.prim t = none := if_pos hno
    rw [hsig, hprim]
    trivial
  · split at h
    · exact h
    · split at h
      · exact h
      · obtain ⟨n, rfl, -⟩ := h
        exact fun _ => ⟨n, rfl⟩
      · exact h.elim

end Wf

end Fors.Check

/-! ## Usefulness -/

namespace Fors.Check

open Trees Coverage List
open Ty

/-! ## Matrices of ids -/

/-- The rows as patterns. -/
def pats (S : PatStore) (rows : List (List PatId)) : List (List (Pat Ctor)) :=
  rows.map fun r => r.map S.pat

/-- Every id is a node of the arena. -/
def Valid (S : PatStore) (r : List PatId) : Prop :=
  ∀ p ∈ r, p < S.kind.length

variable {W : Wf} {S : PatStore} {rows : List (List PatId)} {r v : List PatId} {p : PatId}
  {c : Ctor} {n : Nat}

theorem Valid.append {r' : List PatId} (h : Valid S r) (h' : Valid S r') : Valid S (r ++ r') :=
  fun p hp => (mem_append.mp hp).elim (h p) (h' p)

theorem valid_wilds (hS : S.WF) (n : Nat) : Valid S (List.replicate n S.wild) :=
  fun _ hp => eq_of_mem_replicate hp ▸ hS.wild_lt

theorem label_pat (hS : S.WF) (hp : p < S.kind.length) : (S.pat p).label = S.ctor_of p := by
  rw [hS.pat_eq hp]
  rfl

theorem children_pat (hS : S.WF) (hp : p < S.kind.length) :
    (S.pat p).children = (S.subs p).map S.pat := by
  rw [hS.pat_eq hp]
  rfl

theorem map_wilds (hS : S.WF) (n : Nat) :
    (List.replicate n S.wild).map S.pat = List.replicate n Coverage.wild := by
  rw [map_replicate, hS.pat_wild]

theorem pats_specialize (hS : S.WF) (h : ∀ r ∈ rows, Valid S r) (c : Ctor) (n : Nat) :
    pats S (Wf.specialize S c n rows) = Coverage.specialize c n (pats S rows) := by
  induction rows with
  | nil => rfl
  | cons r rows ih =>
    rw [forall_mem_cons] at h
    have ih := ih h.2
    simp only [pats, Wf.specialize, Coverage.specialize, flatMap_cons, map_append,
      map_cons] at ih ⊢
    rw [ih]
    congr 1
    cases r with
    | nil => rfl
    | cons p ps =>
      have hp := h.1 p mem_cons_self
      simp only [map_cons, specializeRow, label_pat hS hp]
      cases hc : S.ctor_of p with
      | none => simp [hS.pat_wild]
      | some c' =>
        by_cases heq : c' = c
        · simp [heq, children_pat hS hp]
        · simp [heq]

theorem pats_default_rows (hS : S.WF) (h : ∀ r ∈ rows, Valid S r) :
    pats S (Wf.default_rows S rows) = defaults (pats S rows) := by
  induction rows with
  | nil => rfl
  | cons r rows ih =>
    rw [forall_mem_cons] at h
    have ih := ih h.2
    simp only [pats, Wf.default_rows, defaults, flatMap_cons, map_append,
      map_cons] at ih ⊢
    rw [ih]
    congr 1
    cases r with
    | nil => rfl
    | cons p ps =>
      have hp := h.1 p mem_cons_self
      simp only [map_cons, defaultRow, label_pat hS hp]
      split <;> rfl

theorem valid_specialize (hS : S.WF) (h : ∀ r ∈ rows, Valid S r) (c : Ctor) (n : Nat) :
    ∀ r ∈ Wf.specialize S c n rows, Valid S r := by
  intro r' hr'
  obtain ⟨r, hr, hmem⟩ := mem_flatMap.mp hr'
  have hvalid := h r hr
  cases r with
  | nil => exact absurd hmem not_mem_nil
  | cons p ps =>
    have hp := hvalid p mem_cons_self
    have hps : Valid S ps := fun q hq => hvalid q (mem_cons_of_mem p hq)
    simp only at hmem
    split at hmem
    · obtain rfl := mem_singleton.mp hmem
      exact (valid_wilds hS n).append hps
    · split at hmem
      · obtain rfl := mem_singleton.mp hmem
        exact Valid.append (hS.subs_lt hp) hps
      · exact absurd hmem not_mem_nil

theorem valid_default_rows (h : ∀ r ∈ rows, Valid S r) :
    ∀ r ∈ Wf.default_rows S rows, Valid S r := by
  intro r' hr'
  obtain ⟨r, hr, hmem⟩ := mem_flatMap.mp hr'
  have hvalid := h r hr
  cases r with
  | nil => exact absurd hmem not_mem_nil
  | cons p ps =>
    simp only at hmem
    split at hmem
    · obtain rfl := mem_singleton.mp hmem
      exact fun q hq => hvalid q (mem_cons_of_mem p hq)
    · exact absurd hmem not_mem_nil

theorem occurs_iff (hS : S.WF) (h : ∀ r ∈ rows, Valid S r) :
    Wf.occurs S rows c = true ↔ ∃ r ∈ pats S rows, HeadedBy c r := by
  simp only [Wf.occurs, any_eq_true, pats, mem_map,
    exists_exists_and_eq_and]
  refine exists_congr fun r => and_congr_right fun hr => ?_
  cases r with
  | nil => simp [HeadedBy]
  | cons p ps =>
    have hp := h _ hr p mem_cons_self
    rw [decide_eq_true_iff, ← label_pat hS hp]
    constructor
    · intro hl
      exact ⟨_, _, rfl, hl⟩
    · rintro ⟨q, qs, heq, hl⟩
      rw [map_cons] at heq
      rw [(cons.inj heq).1]
      exact hl

theorem not_occurs (hS : S.WF) (h : ∀ r ∈ rows, Valid S r) (hno : ¬ Wf.occurs S rows c = true) :
    ∀ r ∈ pats S rows, ¬ HeadedBy c r :=
  fun r hr hhead => hno ((occurs_iff hS h).mpr ⟨r, hr, hhead⟩)

/-! ## The literal of an infinite column -/

/-- Among one more candidate than there are rows, one is not in them. -/
theorem exists_candidate {candidate : Nat → Ctor} (hinj : Function.Injective candidate)
    (rows : List (List PatId)) :
    ∃ n ∈ List.range (rows.length + 1), ¬ Wf.occurs S rows (candidate n) = true := by
  by_contra hall
  push Not at hall
  have hsub : (List.range (rows.length + 1)).map candidate ⊆
      rows.filterMap fun r => r.head?.bind S.ctor_of := by
    intro c hc
    obtain ⟨n, hn, rfl⟩ := mem_map.mp hc
    obtain ⟨r, hr, hocc⟩ := any_eq_true.mp (hall n hn)
    cases r with
    | nil => exact nomatch hocc
    | cons p ps => exact mem_filterMap.mpr ⟨_, hr, of_decide_eq_true hocc⟩
  have hnodup : ((List.range (rows.length + 1)).map candidate).Nodup :=
    nodup_range.map hinj
  have hle := (subperm_of_subset hnodup hsub).length_le
  rw [length_map, length_range] at hle
  have := length_filterMap_le (fun r => r.head?.bind S.ctor_of) rows
  omega

theorem other_injective : Function.Injective Wf.other := by
  intro m n h
  have h := congrArg String.toList h
  simp only [Wf.other, String.toList_append, append_cancel_left_eq] at h
  exact Nat.repr_injective (String.toList_inj.mp h)

/-- The candidates of a column of literals. -/
def candidate (W : Wf) (t : TyId) (n : Nat) : Ctor :=
  if W.prim t = some .Str then .Str (Wf.other n) else .Int n

theorem candidate_injective (t : TyId) : Function.Injective (candidate W t) := by
  intro m n h
  unfold candidate at h
  split at h
  · exact other_injective (Ctor.Str.inj h)
  · exact Int.ofNat_inj.mp (Ctor.Int.inj h)

@[simp] theorem sub_tys_candidate (t : TyId) (n : Nat) :
    W.ctor_sub_tys t (candidate W t n) = [] := by
  unfold candidate
  split <;> rfl

theorem has_candidate {t : TyId} (h : W.signature_of t = .Infinite) (n : Nat) :
    W.has t (candidate W t n) := by
  unfold Wf.has
  rw [h]
  simp only [candidate]
  split
  · rename_i hprim
    rw [if_pos hprim]
    exact ⟨_, rfl⟩
  · rename_i hne hprim
    intro _
    rw [if_neg fun hstr => hne (hprim.symm.trans hstr |> Option.some.inj)]
    exact ⟨n, rfl⟩
  · trivial

/-- The literal is the first candidate that no row has. -/
theorem missing_literal_eq (W : Wf) (S : PatStore) (t : TyId) (rows : List (List PatId)) :
    ∃ n, W.missing_literal S t rows = .node (some (candidate W t n)) [] ∧
      ¬ Wf.occurs S rows (candidate W t n) = true ∧
      ∀ m < n, Wf.occurs S rows (candidate W t m) = true := by
  obtain ⟨n, hn, hno⟩ := exists_candidate (S := S) (candidate_injective (W := W) t) rows
  cases hfind : (List.range (rows.length + 1)).find? fun n =>
      ¬ Wf.occurs S rows (candidate W t n) with
  | none =>
    have hnone := find?_eq_none.mp hfind n hn
    simp [hno] at hnone
  | some n' =>
    obtain ⟨hno', -, hbefore⟩ := find?_range_eq_some.mp hfind
    refine ⟨n', ?_, by simpa using hno', fun m hm => ?_⟩
    · unfold candidate at hfind
      simp only [Wf.missing_literal, hfind]
      rfl
    · simpa using hbefore m hm

/-! ## The walk -/

/-- What an answer of the walk says of its matrix. -/
def Answers (W : Wf) (S : PatStore) (tys : List TyId) (rows : List (List PatId))
    (v : List PatId) : Option (List Witness) → Prop
  | none => ¬ Useful W.typing tys (pats S rows) (v.map S.pat)
  | some w => w.length = tys.length ∧ TypedAll W.has W.ctor_sub_tys w tys ∧
    Gap W.typing tys (pats S rows) (v.map S.pat) w

/-- The matrix and the row are of the column types. -/
structure Matrix (W : Wf) (S : PatStore) (tys : List TyId) (rows : List (List PatId))
    (v : List PatId) : Prop where
  rows_valid : ∀ r ∈ rows, Valid S r
  v_valid : Valid S v
  rows_typed : RowsTyped W.has W.ctor_sub_tys tys (pats S rows)
  v_typed : TypedAll W.has W.ctor_sub_tys (v.map S.pat) tys

variable {t : TyId} {tys ts : List TyId} {b b' : Budget} {vs : List PatId}

theorem Matrix.head_lt (h : Matrix W S tys rows (p :: vs)) : p < S.kind.length :=
  h.v_valid p mem_cons_self

theorem Matrix.typed_head (h : Matrix W S (t :: ts) rows (p :: vs)) :
    Typed W.has W.ctor_sub_tys (S.pat p) t ∧
      TypedAll W.has W.ctor_sub_tys (vs.map S.pat) ts := by
  have htyped := h.v_typed
  rwa [map_cons, TypedAll] at htyped

theorem Matrix.rest_valid (h : Matrix W S tys rows (p :: vs)) : Valid S vs :=
  fun q hq => h.v_valid q (mem_cons_of_mem p hq)

/-- The matrix under the constructor that the row starts with. -/
theorem Matrix.ctor (hS : S.WF) (h : Matrix W S (t :: ts) rows (p :: vs))
    (hc : S.ctor_of p = some c) :
    Matrix W S (W.ctor_sub_tys t c ++ ts)
      (Wf.specialize S c (W.ctor_sub_tys t c).length rows) (S.subs p ++ vs) where
  rows_valid := valid_specialize hS h.rows_valid c _
  v_valid := Valid.append (hS.subs_lt h.head_lt) h.rest_valid
  rows_typed := by
    rw [pats_specialize hS h.rows_valid]
    exact h.rows_typed.specialize c
  v_typed := by
    have hl := (label_pat hS h.head_lt).trans hc
    obtain ⟨hp, hvs⟩ := h.typed_head
    have hsub := ((typed_some hl t).mp hp).2
    rw [children_pat hS h.head_lt] at hsub
    rw [map_append, typedAll_append (typedAll_length hsub)]
    exact ⟨hsub, hvs⟩

/-- The matrix under a constructor, for a row that starts with a wildcard. -/
theorem Matrix.wilds (hS : S.WF) (h : Matrix W S (t :: ts) rows (p :: vs)) (c : Ctor) :
    Matrix W S (W.ctor_sub_tys t c ++ ts)
      (Wf.specialize S c (W.ctor_sub_tys t c).length rows)
      (List.replicate (W.ctor_sub_tys t c).length S.wild ++ vs) where
  rows_valid := valid_specialize hS h.rows_valid c _
  v_valid := (valid_wilds hS _).append h.rest_valid
  rows_typed := by
    rw [pats_specialize hS h.rows_valid]
    exact h.rows_typed.specialize c
  v_typed := by
    rw [map_append, map_wilds hS, typedAll_append (by rw [length_replicate])]
    exact ⟨typedAll_wilds rfl, h.typed_head.2⟩

theorem Matrix.defaults (hS : S.WF) (h : Matrix W S (t :: ts) rows (p :: vs)) :
    Matrix W S ts (Wf.default_rows S rows) vs where
  rows_valid := valid_default_rows h.rows_valid
  v_valid := h.rest_valid
  rows_typed := by
    rw [pats_default_rows hS h.rows_valid]
    exact h.rows_typed.defaults
  v_typed := h.typed_head.2

/-! ### One step -/

variable {w : List Witness}

theorem length_combine {us : List TyId} (h : w.length = (us ++ ts).length) :
    (Wf.combine_witness c us.length w).length = (t :: ts).length := by
  rw [Wf.combine_witness, length_cons, length_drop, h, length_append,
    length_cons]
  omega

theorem answers_ctor (hS : S.WF) (h : Matrix W S (t :: ts) rows (p :: vs))
    (hc : S.ctor_of p = some c) {r : Option (List Witness)}
    (hr : Answers W S (W.ctor_sub_tys t c ++ ts)
      (Wf.specialize S c (W.ctor_sub_tys t c).length rows) (S.subs p ++ vs) r) :
    Answers W S (t :: ts) rows (p :: vs)
      (r.map (Wf.combine_witness c (W.ctor_sub_tys t c).length)) := by
  have hl := (label_pat hS h.head_lt).trans hc
  have hp := h.typed_head.1
  cases r with
  | none =>
    simp only [Answers, pats_specialize hS h.rows_valid, map_append,
      ← children_pat hS h.head_lt] at hr
    simp only [Option.map_none, Answers, map_cons]
    rw [useful_ctor (S := W.typing) h.rows_typed hl hp]
    exact hr
  | some w =>
    simp only [Answers, pats_specialize hS h.rows_valid, map_append,
      ← children_pat hS h.head_lt] at hr
    obtain ⟨hlen, htyped, hgap⟩ := hr
    exact ⟨length_combine hlen, (typedAll_join hlen).mpr ⟨((typed_some hl t).mp hp).1, htyped⟩,
      gap_ctor (S := W.typing) h.rows_typed hl hp hgap hlen⟩

theorem answers_wild (hS : S.WF) (h : Matrix W S (t :: ts) rows (p :: vs))
    (hc : S.ctor_of p = none) (hhas : W.has t c) (hr : Answers W S (W.ctor_sub_tys t c ++ ts)
      (Wf.specialize S c (W.ctor_sub_tys t c).length rows)
      (List.replicate (W.ctor_sub_tys t c).length S.wild ++ vs) (some w)) :
    Answers W S (t :: ts) rows (p :: vs)
      (some (Wf.combine_witness c (W.ctor_sub_tys t c).length w)) := by
  have hl := (label_pat hS h.head_lt).trans hc
  simp only [Answers, pats_specialize hS h.rows_valid, map_append, map_wilds hS] at hr
  obtain ⟨hlen, htyped, hgap⟩ := hr
  exact ⟨length_combine hlen, (typedAll_join hlen).mpr ⟨hhas, htyped⟩,
    gap_wild (S := W.typing) h.rows_typed hl hgap⟩

/-- No constructor of the type leaves values to the row. -/
theorem answers_none (hS : S.WF) (h : Matrix W S (t :: ts) rows (p :: vs))
    (hc : S.ctor_of p = none)
    (hr : ∀ c, W.has t c → Answers W S (W.ctor_sub_tys t c ++ ts)
      (Wf.specialize S c (W.ctor_sub_tys t c).length rows)
      (List.replicate (W.ctor_sub_tys t c).length S.wild ++ vs) none) :
    Answers W S (t :: ts) rows (p :: vs) none := by
  have hl := (label_pat hS h.head_lt).trans hc
  rw [Answers, map_cons, useful_wild (S := W.typing) h.rows_typed hl]
  rintro ⟨c, hhas, huseful⟩
  have hnot := hr c hhas
  simp only [Answers, pats_specialize hS h.rows_valid, map_append, map_wilds hS] at hnot
  exact hnot huseful

/-- Some constructor of the type is in no row. -/
theorem answers_default (hS : S.WF) (h : Matrix W S (t :: ts) rows (p :: vs))
    (hp : S.ctor_of p = none) (hhas : W.has t c) (hno : ¬ Wf.occurs S rows c = true)
    {subs : List Witness} (hsubs : TypedAll W.has W.ctor_sub_tys subs (W.ctor_sub_tys t c))
    {r : Option (List Witness)} (hr : Answers W S ts (Wf.default_rows S rows) vs r) :
    Answers W S (t :: ts) rows (p :: vs) (r.map fun rest => .node (some c) subs :: rest) := by
  have hl := (label_pat hS h.head_lt).trans hp
  have hno := not_occurs hS h.rows_valid hno
  cases r with
  | none =>
    simp only [Answers, pats_default_rows hS h.rows_valid] at hr
    rw [Option.map_none, Answers, map_cons, useful_default (S := W.typing) hl hhas hno]
    exact hr
  | some w =>
    simp only [Answers, pats_default_rows hS h.rows_valid] at hr
    obtain ⟨hlen, htyped, hgap⟩ := hr
    refine ⟨by rw [length_cons, length_cons, hlen], ?_, gap_default hl hno hgap⟩
    rw [TypedAll, typed_some rfl]
    exact ⟨⟨hhas, hsubs⟩, htyped⟩

/-- A walk whose answer is changed on the way out. -/
theorem walk_map {walk : Option Wf.Walk} {g : List Witness → List Witness}
    {r : Option (List Witness)}
    (h : (do let (b, r) ← walk; some (b, r.map (Option.map g))) = some (b', some r)) :
    ∃ r1, walk = some (b', some r1) ∧ r = r1.map g := by
  obtain ⟨⟨b1, o⟩, rfl, h⟩ := Option.bind_eq_some_iff.mp h
  obtain ⟨rfl, hr⟩ := Prod.mk.inj (Option.some.inj h)
  obtain ⟨r1, rfl, rfl⟩ := Option.map_eq_some_iff.mp hr
  exact ⟨r1, rfl, rfl⟩

/-! ### The loop over a complete signature -/

variable {f : Ctor × List TyId → Budget → Option Wf.Walk}

/-- A step of the loop that ends. -/
theorem try_ctors_cons
    {q : Ctor × List TyId} {ctors : List (Ctor × List TyId)} {w r : Option (List Witness)}
    (h : Wf.try_ctors f (q :: ctors) b w = some (b', some r)) :
    ∃ b1 r1, f q b = some (b1, some r1) ∧
      Wf.try_ctors f ctors b1 (w.or (r1.map (Wf.combine_witness q.1 q.2.length))) =
        some (b', some r) := by
  rw [Wf.try_ctors] at h
  obtain ⟨⟨b1, o⟩, hq, h⟩ := Option.bind_eq_some_iff.mp h
  cases o with
  | none => exact nomatch h
  | some r1 => exact ⟨b1, r1, hq, h⟩

theorem try_ctors_some {ctors : List (Ctor × List TyId)} {r : Option (List Witness)}
    (h : Wf.try_ctors f ctors b (some w) = some (b', some r)) : r = some w := by
  induction ctors generalizing b with
  | nil => exact (Option.some.inj (Prod.mk.inj (Option.some.inj h)).2).symm
  | cons q ctors ih =>
    obtain ⟨b1, r1, -, hrest⟩ := try_ctors_cons h
    exact ih hrest

/-- The first constructor with a witness gives it. -/
theorem try_ctors_spec
    {P : Ctor × List TyId → Option (List Witness) → Prop} {ctors : List (Ctor × List TyId)}
    {r : Option (List Witness)} (hf : ∀ q ∈ ctors, ∀ b b' r, f q b = some (b', some r) → P q r)
    (h : Wf.try_ctors f ctors b none = some (b', some r)) :
    (r = none ∧ ∀ q ∈ ctors, P q none) ∨
      ∃ before q after w, ctors = before ++ q :: after ∧ (∀ q' ∈ before, P q' none) ∧
        P q (some w) ∧ r = some (Wf.combine_witness q.1 q.2.length w) := by
  induction ctors generalizing b with
  | nil =>
    obtain rfl := Option.some.inj (Prod.mk.inj (Option.some.inj h)).2
    exact .inl ⟨rfl, fun q hq => absurd hq not_mem_nil⟩
  | cons q ctors ih =>
    obtain ⟨b1, r1, hq, hrest⟩ := try_ctors_cons h
    have hP := hf q mem_cons_self b b1 r1 hq
    have hf' := fun q' hq' => hf q' (mem_cons_of_mem q hq')
    cases r1 with
    | none =>
      obtain ⟨hr, hall⟩ | ⟨before, q', after, w, rfl, hbefore, hq', hr⟩ := ih hf' hrest
      · exact .inl ⟨hr, forall_mem_cons.mpr ⟨hP, hall⟩⟩
      · exact .inr ⟨q :: before, q', after, w, rfl, forall_mem_cons.mpr ⟨hP, hbefore⟩,
          hq', hr⟩
    | some w =>
      exact .inr ⟨[], q, ctors, w, rfl, by simp, hP, try_ctors_some hrest⟩

/-! ### The walk -/

/-- The answer of the walk is whether the row is useful. -/
theorem usefulness_answers (hS : S.WF) {fuel : Nat} {r : Option (List Witness)}
    (hrun : W.usefulness S fuel tys rows v b = some (b', some r)) (h : Matrix W S tys rows v) :
    Answers W S tys rows v r := by
  induction fuel generalizing tys rows v b b' r with
  | zero => exact nomatch hrun
  | succ fuel ih =>
    unfold Wf.usefulness at hrun
    simp only at hrun
    split at hrun
    · exact nomatch hrun
    · match v, tys, h, hrun with
      | [], tys, h, hrun =>
        obtain rfl : r = if rows = [] then some [] else none :=
          (Option.some.inj (Prod.mk.inj (Option.some.inj hrun)).2).symm
        obtain rfl : tys = [] := eq_nil_of_length_eq_zero (typedAll_length h.v_typed).symm
        split
        · rename_i hnil
          subst hnil
          refine ⟨rfl, by simp [TypedAll], fun vs _ hmatch => ⟨hmatch, ?_⟩⟩
          rintro ⟨r, hr, -⟩
          exact absurd hr not_mem_nil
        · rename_i hne
          rintro ⟨vs, hvs, -, hnot⟩
          cases hvs
          refine hnot ((covered_nil h.rows_typed).mpr fun hnil => hne ?_)
          exact map_eq_nil_iff.mp hnil
      | p :: vs, t :: ts, h, hrun =>
        simp only at hrun
        split at hrun
        · rename_i c hc
          obtain ⟨r1, hwalk, rfl⟩ := walk_map hrun
          exact answers_ctor hS h hc (ih hwalk (h.ctor hS hc))
        · rename_i hp
          split at hrun
          · rename_i ctors hsig
            split at hrun
            · have hsub (q : Ctor × List TyId) (hq : q ∈ ctors) : W.ctor_sub_tys t q.1 = q.2 :=
                Wf.sub_tys_of_mem hsig hq
              have hwalk (q) (hq : q ∈ ctors) (b b' r) (hrun : W.usefulness S fuel (q.2 ++ ts)
                  (Wf.specialize S q.1 q.2.length rows)
                  (List.replicate q.2.length S.wild ++ vs) b = some (b', some r)) :
                  Answers W S (W.ctor_sub_tys t q.1 ++ ts)
                    (Wf.specialize S q.1 (W.ctor_sub_tys t q.1).length rows)
                    (List.replicate (W.ctor_sub_tys t q.1).length S.wild ++ vs) r := by
                rw [← hsub q hq] at hrun
                exact ih hrun (h.wilds hS q.1)
              obtain ⟨rfl, hall⟩ | ⟨before, q, after, w, rfl, -, hq, rfl⟩ :=
                try_ctors_spec hwalk hrun
              · refine answers_none hS h hp fun c hhas => ?_
                obtain ⟨q, hq, rfl⟩ := mem_map.mp ((Wf.has_of_finite hsig).mp hhas)
                exact hall q hq
              · have hmem : q ∈ before ++ q :: after := mem_append_right _ mem_cons_self
                rw [← hsub q hmem]
                exact answers_wild hS h hp
                  ((Wf.has_of_finite hsig).mpr (mem_map_of_mem hmem)) hq
            · rename_i c sub_tys hmissing
              obtain ⟨r1, hwalk, rfl⟩ := walk_map hrun
              have hmem := mem_of_find?_eq_some hmissing
              have hno : ¬ Wf.occurs S rows c = true := by simpa using find?_some hmissing
              have hhas : W.has t c := (Wf.has_of_finite hsig).mpr (mem_map_of_mem hmem)
              refine answers_default hS h hp hhas hno ?_ (ih hwalk (h.defaults hS))
              rw [Wf.sub_tys_of_mem hsig hmem]
              exact typedAll_wilds rfl
          · rename_i hsig
            obtain ⟨r1, hwalk, rfl⟩ := walk_map hrun
            obtain ⟨n, hlit, hno, -⟩ := missing_literal_eq W S t rows
            rw [hlit]
            refine answers_default hS h hp (has_candidate hsig n) hno ?_ (ih hwalk (h.defaults hS))
            rw [sub_tys_candidate]
            simp [TypedAll]

end Fors.Check
