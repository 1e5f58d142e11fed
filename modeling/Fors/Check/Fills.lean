import Fors.Check.Useful

/-!
# When the witness is a pattern of the scrutinee

The witness that a match is not exhaustive takes, column by column, the first constructor that no
row has, or the first under which values are left. In a column of literals it takes a string or a
natural number, whatever the column's type is: it is a pattern of that type only where the number
is a literal of it.

Principal result: `typed_iff_fills`.
-/

namespace Fors.Check

open Trees Coverage List
open Ty

variable {W : Wf} {S : PatStore} {t : TyId} {tys ts : List TyId} {c : Ctor} {b b' : Budget}

/-- Some row starts with the constructor. -/
def Heads (c : Ctor) (rows : List (List (Pat Ctor))) : Prop :=
  ∃ r ∈ rows, HeadedBy c r

/-- Some values of the column types are in no row. -/
def Uncovered (W : Wf) (tys : List TyId) (rows : List (List (Pat Ctor))) : Prop :=
  ∃ vs, List.Forall₂ W.typing.Of tys vs ∧ ¬ Covered rows vs

/-- A column without a complete signature that has a literal for the witness: one of strings, one
of integers of which some natural number is in no row, or one that failed to type. -/
def Spellable (W : Wf) (t : TyId) (rows : List (List (Pat Ctor))) : Prop :=
  if t = TY_ERROR ∨ t = NO_TY then True
  else
    match W.prim t with
    | some .Str => True
    | some p => ∃ n : Nat, fits n p = true ∧ ¬ Heads (.Int n) rows
    | none => False

/-- Every literal column on the way to the first gap is spellable. -/
inductive Fills (W : Wf) : List TyId → List (List (Pat Ctor)) → Prop
  | nil : Fills W [] []
  | missing {t : TyId} {ts : List TyId} {rows : List (List (Pat Ctor))}
      {before after : List (Ctor × List TyId)} {q : Ctor × List TyId}
      (hsig : W.signature_of t = .Finite (before ++ q :: after))
      (hbefore : ∀ q' ∈ before, Heads q'.1 rows) (hq : ¬ Heads q.1 rows)
      (hrest : Fills W ts (defaults rows)) : Fills W (t :: ts) rows
  | complete {t : TyId} {ts : List TyId} {rows : List (List (Pat Ctor))}
      {before after : List (Ctor × List TyId)} {q : Ctor × List TyId}
      (hsig : W.signature_of t = .Finite (before ++ q :: after))
      (hall : ∀ q' ∈ before ++ q :: after, Heads q'.1 rows)
      (hbefore : ∀ q' ∈ before,
        ¬ Uncovered W (q'.2 ++ ts) (Coverage.specialize q'.1 q'.2.length rows))
      (hq : Uncovered W (q.2 ++ ts) (Coverage.specialize q.1 q.2.length rows))
      (hrest : Fills W (q.2 ++ ts) (Coverage.specialize q.1 q.2.length rows)) :
      Fills W (t :: ts) rows
  | infinite {t : TyId} {ts : List TyId} {rows : List (List (Pat Ctor))}
      (hsig : W.signature_of t = .Infinite) (hspell : Spellable W t rows)
      (hrest : Fills W ts (defaults rows)) : Fills W (t :: ts) rows

/-! ## Inversion -/

/-- A list has one first element without the property. -/
theorem first_unique {α : Type} {P : α → Prop} {before before' after after' : List α} {q q' : α}
    (h : before ++ q :: after = before' ++ q' :: after') (hbefore : ∀ x ∈ before, P x)
    (hq : ¬ P q) (hbefore' : ∀ x ∈ before', P x) (hq' : ¬ P q') : q = q' := by
  induction before generalizing before' with
  | nil =>
    cases before' with
    | nil => exact (cons.inj h).1
    | cons x xs =>
      obtain rfl : q = x := (cons.inj h).1
      exact absurd (hbefore' q mem_cons_self) hq
  | cons x xs ih =>
    cases before' with
    | nil =>
      obtain rfl : x = q' := (cons.inj h).1
      exact absurd (hbefore x mem_cons_self) hq'
    | cons y ys =>
      exact ih (cons.inj h).2 (fun z hz => hbefore z (mem_cons_of_mem x hz))
        (fun z hz => hbefore' z (mem_cons_of_mem y hz))

section Inversion

variable {rows : List (List (Pat Ctor))} {before after : List (Ctor × List TyId)}
  {q : Ctor × List TyId}

theorem fills_missing (hsig : W.signature_of t = .Finite (before ++ q :: after))
    (hbefore : ∀ q' ∈ before, Heads q'.1 rows) (hq : ¬ Heads q.1 rows) :
    Fills W (t :: ts) rows ↔ Fills W ts (defaults rows) := by
  constructor
  · intro h
    cases h with
    | missing _ _ _ hrest => exact hrest
    | complete hsig' hall _ _ _ =>
      rw [hsig] at hsig'
      rw [← Sig.Finite.inj hsig'] at hall
      exact absurd (hall q (mem_append_right _ mem_cons_self)) hq
    | infinite hsig' _ _ => exact nomatch hsig.symm.trans hsig'
  · exact .missing hsig hbefore hq

theorem fills_complete (hsig : W.signature_of t = .Finite (before ++ q :: after))
    (hall : ∀ q' ∈ before ++ q :: after, Heads q'.1 rows)
    (hbefore : ∀ q' ∈ before,
      ¬ Uncovered W (q'.2 ++ ts) (Coverage.specialize q'.1 q'.2.length rows))
    (hq : Uncovered W (q.2 ++ ts) (Coverage.specialize q.1 q.2.length rows)) :
    Fills W (t :: ts) rows ↔ Fills W (q.2 ++ ts) (Coverage.specialize q.1 q.2.length rows) := by
  constructor
  · intro h
    cases h with
    | missing hsig' _ hq' _ =>
      rw [hsig] at hsig'
      rw [Sig.Finite.inj hsig'] at hall
      exact absurd (hall _ (mem_append_right _ mem_cons_self)) hq'
    | complete hsig' _ hbefore' hq' hrest =>
      rw [hsig] at hsig'
      obtain rfl := first_unique (P := fun q : Ctor × List TyId =>
        ¬ Uncovered W (q.2 ++ ts) (Coverage.specialize q.1 q.2.length rows))
        (Sig.Finite.inj hsig') hbefore (not_not_intro hq) hbefore' (not_not_intro hq')
      exact hrest
    | infinite hsig' _ _ => exact nomatch hsig.symm.trans hsig'
  · exact .complete hsig hall hbefore hq

theorem fills_infinite (hsig : W.signature_of t = .Infinite) :
    Fills W (t :: ts) rows ↔ Spellable W t rows ∧ Fills W ts (defaults rows) := by
  constructor
  · intro h
    cases h with
    | missing hsig' _ _ _ => exact nomatch hsig.symm.trans hsig'
    | complete hsig' _ _ _ _ => exact nomatch hsig.symm.trans hsig'
    | infinite _ hspell hrest => exact ⟨hspell, hrest⟩
  · rintro ⟨hspell, hrest⟩
    exact .infinite hsig hspell hrest

end Inversion

/-! ## The literal -/

theorem fits_of_le {m n : Nat} {p : PrimKind} (h : fits n p = true) (hle : m ≤ n) :
    fits m p = true := by
  cases p <;> simp only [fits, range_of, decide_eq_true_eq] at h ⊢ <;>
    omega

variable {rows : List (List PatId)}

theorem heads_iff (hS : S.WF) (h : ∀ r ∈ rows, Valid S r) :
    Heads c (pats S rows) ↔ Wf.occurs S rows c = true :=
  (occurs_iff hS h).symm

/-- The first candidate that no row has is a literal of the column's type if any is. -/
theorem checks_candidate (hS : S.WF) (h : ∀ r ∈ rows, Valid S r)
    (hsig : W.signature_of t = .Infinite) {n : Nat}
    (hno : ¬ Wf.occurs S rows (candidate W t n) = true)
    (hbefore : ∀ m < n, Wf.occurs S rows (candidate W t m) = true) :
    W.checks t (candidate W t n) ↔ Spellable W t (pats S rows) := by
  unfold Wf.checks Spellable
  by_cases herr : t = TY_ERROR ∨ t = NO_TY
  · rw [if_pos herr, if_pos herr]
  rw [if_neg herr, if_neg herr, hsig]
  cases hprim : W.prim t with
  | none => rfl
  | some p =>
    by_cases hstr : p = .Str
    · subst hstr
      simp [candidate, hprim]
    · have hcand (m : Nat) : candidate W t m = .Int m :=
        if_neg fun h => hstr (Option.some.inj (hprim.symm.trans h))
      simp only [hcand] at hno hbefore ⊢
      have hiff : (∃ i : Int, Ctor.Int n = .Int i ∧ fits i p = true) ↔
          ∃ m : Nat, fits m p = true ∧ ¬ Heads (.Int m) (pats S rows) := by
        constructor
        · rintro ⟨i, hi, hfits⟩
          obtain rfl := Ctor.Int.inj hi
          exact ⟨n, hfits, fun hhead => hno ((heads_iff hS h).mp hhead)⟩
        · rintro ⟨m, hfits, hm⟩
          refine ⟨n, rfl, fits_of_le hfits (Nat.le_of_not_lt fun hlt => hm ?_)⟩
          exact (heads_iff hS h).mpr (hbefore m hlt)
      cases p <;> exact hiff

/-! ## The walk -/

theorem useful_wilds {rows : List (List (Pat Ctor))} :
    Useful W.typing tys rows (List.replicate tys.length Coverage.wild) ↔ Uncovered W tys rows := by
  refine exists_congr fun vs => and_congr_right fun hvs => ?_
  rw [and_iff_right]
  exact matchesAll_wilds hvs.length_eq.symm

theorem wilds_append (n : Nat) :
    List.replicate n S.wild ++ List.replicate ts.length S.wild =
      List.replicate (n + ts.length) S.wild :=
  replicate_append_replicate

/-- An answer for the row of wildcards. -/
theorem Answers.uncovered (hS : S.WF) {r : Option (List Witness)}
    (h : Answers W S tys rows (List.replicate tys.length S.wild) r) :
    Uncovered W tys (pats S rows) ↔ r.isSome = true := by
  rw [← useful_wilds, ← map_wilds hS]
  cases r with
  | none => exact iff_of_false h (by simp)
  | some w => exact iff_of_true (Gap.useful h.2.2 h.2.1) rfl

/-- The witness against the row of wildcards is a pattern of the column types when every literal
column on the way to the gap is spellable. -/
theorem typed_iff_fills (hS : S.WF) {fuel : Nat} {w : List Witness}
    (hrun : W.usefulness S fuel tys rows (List.replicate tys.length S.wild) b =
      some (b', some (some w)))
    (h : Matrix W S tys rows (List.replicate tys.length S.wild)) :
    TypedAll W.checks W.ctor_sub_tys w tys ↔ Fills W tys (pats S rows) := by
  induction fuel generalizing tys rows b b' w with
  | zero => cases hrun
  | succ fuel ih =>
    unfold Wf.usefulness at hrun
    simp only at hrun
    split at hrun
    · cases hrun
    cases tys with
    | nil =>
      simp only [length_nil, replicate_zero] at hrun
      have hr := Option.some.inj (Prod.mk.inj (Option.some.inj hrun)).2
      split at hr
      · rename_i hnil
        subst hnil
        cases hr
        simp only [TypedAll, true_iff]
        exact .nil
      · cases hr
    | cons t ts =>
      simp only [length_cons, replicate_succ] at hrun h
      simp only [hS.wild_ctor] at hrun
      split at hrun
      · rename_i ctors hsig
        split at hrun
        · rename_i hcomplete
          have hsub (q : Ctor × List TyId) (hq : q ∈ ctors) : W.ctor_sub_tys t q.1 = q.2 :=
            Wf.sub_tys_of_mem hsig hq
          have hmatrix (q : Ctor × List TyId) (hq : q ∈ ctors) :
              Matrix W S (q.2 ++ ts) (Wf.specialize S q.1 q.2.length rows)
                (List.replicate (q.2 ++ ts).length S.wild) := by
            have hwilds := h.wilds hS q.1
            rw [hsub q hq, wilds_append, ← length_append] at hwilds
            exact hwilds
          have hwalk (q : Ctor × List TyId) (hq : q ∈ ctors) (b b' r)
              (hrun : W.usefulness S fuel (q.2 ++ ts) (Wf.specialize S q.1 q.2.length rows)
                (List.replicate q.2.length S.wild ++ List.replicate ts.length S.wild) b =
                  some (b', some r)) :
              Answers W S (q.2 ++ ts) (Wf.specialize S q.1 q.2.length rows)
                  (List.replicate (q.2 ++ ts).length S.wild) r ∧
                ∀ w, r = some w → (TypedAll W.checks W.ctor_sub_tys w (q.2 ++ ts) ↔
                  Fills W (q.2 ++ ts) (pats S (Wf.specialize S q.1 q.2.length rows))) := by
            rw [wilds_append, ← length_append] at hrun
            refine ⟨usefulness_answers hS hrun (hmatrix q hq), ?_⟩
            rintro w rfl
            exact ih hrun (hmatrix q hq)
          obtain ⟨hr, -⟩ | ⟨before, q, after, w, rfl, hbefore, ⟨hq, hfills⟩, hr⟩ :=
            try_ctors_spec hwalk hrun
          · cases hr
          · cases hr
            have hmem : q ∈ before ++ q :: after := mem_append_right _ mem_cons_self
            have hrows := pats_specialize hS h.rows_valid
            have hall (q') (hq' : q' ∈ before ++ q :: after) : Heads q'.1 (pats S rows) :=
              (heads_iff hS h.rows_valid).mpr (by simpa using find?_eq_none.mp hcomplete q' hq')
            have hnone (q') (hq' : q' ∈ before) : ¬ Uncovered W (q'.2 ++ ts)
                (Coverage.specialize q'.1 q'.2.length (pats S rows)) := by
              rw [← hrows, (hbefore q' hq').1.uncovered hS]
              exact Bool.false_ne_true
            have hsome : Uncovered W (q.2 ++ ts)
                (Coverage.specialize q.1 q.2.length (pats S rows)) := by
              rw [← hrows, hq.uncovered hS]
              rfl
            rw [fills_complete hsig hall hnone hsome, ← hrows, ← hfills w rfl, ← hsub q hmem,
              Wf.combine_witness]
            rw [← hsub q hmem] at hq
            refine (typedAll_join hq.1).trans (and_iff_right ?_)
            exact Wf.checks_of_mem hsig hmem
        · rename_i c sub_tys hmissing
          obtain ⟨r1, hwalk, hr⟩ := walk_map hrun
          obtain ⟨rest, rfl, rfl⟩ := Option.map_eq_some_iff.mp hr.symm
          obtain ⟨hno, before, after, rfl, hbefore⟩ := find?_eq_some_iff_append.mp hmissing
          have hmem := mem_of_find?_eq_some hmissing
          have hheads (q : Ctor × List TyId) :
              Heads q.1 (pats S rows) ↔ Wf.occurs S rows q.1 = true := heads_iff hS h.rows_valid
          rw [fills_missing (q := (c, sub_tys)) hsig
            (fun q hq => (hheads q).mpr (by simpa using hbefore q hq))
            (fun hc => by simp [(hheads (c, sub_tys)).mp hc] at hno),
            ← pats_default_rows hS h.rows_valid, ← ih hwalk (h.defaults hS), TypedAll,
            typed_some rfl, Wf.sub_tys_of_mem hsig hmem]
          exact and_iff_right ⟨Wf.checks_of_mem hsig hmem, typedAll_wilds rfl⟩
      · rename_i hsig
        obtain ⟨r1, hwalk, hr⟩ := walk_map hrun
        obtain ⟨rest, rfl, rfl⟩ := Option.map_eq_some_iff.mp hr.symm
        obtain ⟨n, hlit, hno, hbefore⟩ := missing_literal_eq W S t rows
        have hdefaults := h.defaults hS
        rw [fills_infinite hsig, ← checks_candidate hS h.rows_valid hsig hno hbefore,
          ← pats_default_rows hS h.rows_valid, ← ih hwalk hdefaults, hlit, TypedAll,
          typed_some rfl, sub_tys_candidate]
        simp [TypedAll, Rose.children]

end Fors.Check
