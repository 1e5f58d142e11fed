import Fors.Check.Fills

/-!
# The check of a match

The walk ends: under a constructor that some row tests the matrix loses one, and otherwise it loses
a column. The check of a `match` reports the arms that are not useful, records whether the match is
exhaustive, and when it is not shows a witness.

Principal result: `check_match_decides`.
-/

namespace Fors.Check

open Option hiding map_map
open Trees Coverage List
open Ty

variable {W : Wf} {S : PatStore} {t s : TyId} {tys ts : List TyId} {rows : List (List PatId)}
  {v vs : List PatId} {p : PatId} {c : Ctor} {b b' : Budget}

/-! ## Termination -/

/-- The walk ends, whatever the budget. -/
def Ends (W : Wf) (S : PatStore) (tys : List TyId) (rows : List (List PatId)) (v : List PatId) :
    Prop :=
  ∃ k, ∀ b, ∃ o, ∀ fuel ≥ k, W.usefulness S fuel tys rows v b = some o

/-- The constructors in the rows and in the row. -/
def weigh (S : PatStore) (rows : List (List PatId)) (v : List PatId) : Nat :=
  weights (pats S rows) + weightAll (v.map S.pat)

theorem weigh_ctor (hS : S.WF) (h : Matrix W S (t :: ts) rows (p :: vs))
    (hc : S.ctor_of p = some c) (n : Nat) :
    weigh S (Wf.specialize S c n rows) (S.subs p ++ vs) < weigh S rows (p :: vs) := by
  have hrows := weights_specialize_le c n (pats S rows)
  have hp := weight_some ((label_pat hS h.head_lt).trans hc)
  rw [children_pat hS h.head_lt] at hp
  unfold weigh
  rw [pats_specialize hS h.rows_valid, map_append, weightAll_append, map_cons, weightAll]
  omega

theorem weigh_wild (hS : S.WF) (h : Matrix W S (t :: ts) rows (p :: vs))
    (hc : Wf.occurs S rows c = true) (n : Nat) :
    weigh S (Wf.specialize S c n rows) (List.replicate n S.wild ++ vs) <
      weigh S rows (p :: vs) := by
  obtain ⟨r, hr, hhead⟩ := (occurs_iff hS h.rows_valid).mp hc
  have hrows := weights_specialize_lt hr hhead n
  unfold weigh
  rw [pats_specialize hS h.rows_valid, map_append, map_wilds hS, weightAll_append,
    weightAll_wilds, map_cons, weightAll]
  omega

theorem weigh_defaults (hS : S.WF) (h : Matrix W S (t :: ts) rows (p :: vs)) :
    weigh S (Wf.default_rows S rows) vs ≤ weigh S rows (p :: vs) := by
  have hrows := weights_defaults_le (pats S rows)
  unfold weigh
  rw [pats_default_rows hS h.rows_valid, map_cons, weightAll]
  omega

/-- A walk that ends if its body does, given one more fuel. -/
theorem ends_of_body {k : Nat}
    (h : ∀ b, (b.charge rows.length).2 = true →
      ∃ o, ∀ fuel ≥ k, W.usefulness S (fuel + 1) tys rows v b = some o) :
    Ends W S tys rows v := by
  refine ⟨k + 1, fun b => ?_⟩
  by_cases hcharge : (b.charge rows.length).2 = true
  · obtain ⟨o, ho⟩ := h b hcharge
    refine ⟨o, fun fuel hfuel => ?_⟩
    obtain ⟨fuel, rfl⟩ := Nat.exists_eq_add_of_le' (Nat.le_trans (Nat.le_add_left 1 k) hfuel)
    exact ho fuel (Nat.le_of_succ_le_succ hfuel)
  · refine ⟨((b.charge rows.length).1, none), fun fuel hfuel => ?_⟩
    obtain ⟨fuel, rfl⟩ := Nat.exists_eq_add_of_le' (Nat.le_trans (Nat.le_add_left 1 k) hfuel)
    unfold Wf.usefulness
    simp only [if_pos hcharge]

theorem ends_nil : Ends W S tys rows [] := by
  refine ends_of_body (k := 0) fun b hcharge => ?_
  apply Exists.intro
  intro fuel _
  unfold Wf.usefulness
  simp only [hcharge, not_true_eq_false, if_false]
  rfl

theorem ends_ctor (hc : S.ctor_of p = some c)
    (h : Ends W S (W.ctor_sub_tys t c ++ ts)
      (Wf.specialize S c (W.ctor_sub_tys t c).length rows) (S.subs p ++ vs)) :
    Ends W S (t :: ts) rows (p :: vs) := by
  obtain ⟨k, h⟩ := h
  refine ends_of_body (k := k) fun b hcharge => ?_
  obtain ⟨o, ho⟩ := h (b.charge rows.length).1
  apply Exists.intro
  intro fuel hfuel
  unfold Wf.usefulness
  simp only [hcharge, not_true_eq_false, if_false, hc, ho fuel hfuel]
  rfl

theorem ends_defaults (hp : S.ctor_of p = none)
    (hno : ∀ ctors, W.signature_of t = .Finite ctors →
      ∃ q ∈ ctors, ¬ Wf.occurs S rows q.1 = true)
    (h : Ends W S ts (Wf.default_rows S rows) vs) : Ends W S (t :: ts) rows (p :: vs) := by
  obtain ⟨k, h⟩ := h
  refine ends_of_body (k := k) fun b hcharge => ?_
  obtain ⟨o, ho⟩ := h (b.charge rows.length).1
  cases hsig : W.signature_of t with
  | Infinite =>
    apply Exists.intro
    intro fuel hfuel
    unfold Wf.usefulness
    simp only [hcharge, not_true_eq_false, if_false, hp, hsig, ho fuel hfuel]
    rfl
  | Finite ctors =>
    obtain ⟨q, hq, hocc⟩ := hno ctors hsig
    cases hmissing : ctors.find? fun q => ¬ Wf.occurs S rows q.1 with
    | none => exact absurd (find?_eq_none.mp hmissing q hq) (by simpa using hocc)
    | some q =>
      apply Exists.intro
      intro fuel hfuel
      unfold Wf.usefulness
      simp only [hcharge, not_true_eq_false, if_false, hp, hsig, hmissing, ho fuel hfuel]
      rfl

theorem try_ctors_ends {k : Nat} {f : Nat → Ctor × List TyId → Budget → Option Wf.Walk}
    {ctors : List (Ctor × List TyId)}
    (hf : ∀ q ∈ ctors, ∀ b, ∃ o, ∀ fuel ≥ k, f fuel q b = some o) (b : Budget)
    (w : Option (List Witness)) :
    ∃ o, ∀ fuel ≥ k, Wf.try_ctors (f fuel) ctors b w = some o := by
  induction ctors generalizing b w with
  | nil => exact ⟨_, fun _ _ => rfl⟩
  | cons q ctors ih =>
    obtain ⟨⟨b1, r⟩, ho⟩ := hf q mem_cons_self b
    have hf' := fun q' hq' => hf q' (mem_cons_of_mem q hq')
    cases r with
    | none => exact ⟨(b1, none), fun fuel hfuel => by rw [Wf.try_ctors, ho fuel hfuel]; rfl⟩
    | some r =>
      obtain ⟨o, hrest⟩ := ih hf' b1 (w.or (r.map (Wf.combine_witness q.1 q.2.length)))
      refine ⟨o, fun fuel hfuel => ?_⟩
      rw [Wf.try_ctors, ho fuel hfuel]
      exact hrest fuel hfuel

/-- The fuel that is enough for each of several walks is enough for all. -/
theorem exists_fuel {α : Type} {P : α → Nat → Prop} {xs : List α}
    (hmono : ∀ x m n, m ≤ n → P x m → P x n) (h : ∀ x ∈ xs, ∃ k, P x k) :
    ∃ k, ∀ x ∈ xs, P x k := by
  induction xs with
  | nil => exact ⟨0, by simp⟩
  | cons x xs ih =>
    obtain ⟨m, hm⟩ := h x mem_cons_self
    obtain ⟨n, hn⟩ := ih fun y hy => h y (mem_cons_of_mem x hy)
    refine ⟨max m n, forall_mem_cons.mpr ⟨hmono x m _ (Nat.le_max_left m n) hm, ?_⟩⟩
    exact fun y hy => hmono y n _ (Nat.le_max_right m n) (hn y hy)

theorem ends_all {ctors : List (Ctor × List TyId)} (hp : S.ctor_of p = none)
    (hsig : W.signature_of t = .Finite ctors)
    (hall : ∀ q ∈ ctors, Wf.occurs S rows q.1 = true)
    (h : ∀ q ∈ ctors, Ends W S (q.2 ++ ts) (Wf.specialize S q.1 q.2.length rows)
      (List.replicate q.2.length S.wild ++ vs)) : Ends W S (t :: ts) rows (p :: vs) := by
  obtain ⟨k, hk⟩ := exists_fuel (fun q m n hle hq b =>
    (hq b).imp fun o ho fuel hfuel => ho fuel (Nat.le_trans hle hfuel)) h
  have hmissing : (ctors.find? fun q => ¬ Wf.occurs S rows q.1) = none :=
    find?_eq_none.mpr fun q hq => by simpa using hall q hq
  refine ends_of_body (k := k) fun b hcharge => ?_
  obtain ⟨o, ho⟩ := try_ctors_ends (f := fun fuel q b => W.usefulness S fuel (q.2 ++ ts)
    (Wf.specialize S q.1 q.2.length rows) (List.replicate q.2.length S.wild ++ vs) b) hk
    (b.charge rows.length).1 none
  refine ⟨o, fun fuel hfuel => ?_⟩
  unfold Wf.usefulness
  simp only [hcharge, not_true_eq_false, if_false, hp, hsig, hmissing]
  exact ho fuel hfuel

/-- The walk ends, also over a type whose values contain values of it. -/
theorem usefulness_ends (hS : S.WF) (h : Matrix W S tys rows v) : Ends W S tys rows v := by
  induction hm : weigh S rows v using Nat.strong_induction_on generalizing tys rows v with
  | _ m ihm =>
    subst hm
    induction v generalizing tys rows with
    | nil => exact ends_nil
    | cons p vs ihv =>
      obtain ⟨t, ts, rfl⟩ : ∃ t ts, tys = t :: ts := by
        cases tys with
        | nil => exact nomatch typedAll_length h.v_typed
        | cons t ts => exact ⟨t, ts, rfl⟩
      have hdefaults : Ends W S ts (Wf.default_rows S rows) vs := by
        refine ihv (h.defaults hS) fun m hm => ?_
        exact ihm m (Nat.lt_of_lt_of_le hm (weigh_defaults hS h))
      cases hc : S.ctor_of p with
      | some c => exact ends_ctor hc (ihm _ (weigh_ctor hS h hc _) (h.ctor hS hc) rfl)
      | none =>
        by_cases hno : ∀ ctors, W.signature_of t = .Finite ctors →
            ∃ q ∈ ctors, ¬ Wf.occurs S rows q.1 = true
        · exact ends_defaults hc hno hdefaults
        · push Not at hno
          obtain ⟨ctors, hsig, hall⟩ := hno
          refine ends_all hc hsig hall fun q hq => ?_
          have hsub := Wf.sub_tys_of_mem hsig hq
          rw [← hsub]
          exact ihm _ (weigh_wild hS h (hall q hq) _) (h.wilds hS q.1) rfl

/-! ## Arms -/

/-- Every value that the arm matches is matched by one of the arms before it. -/
def Redundant (W : Wf) (S : PatStore) (s : TyId) (before : List PatId) (p : PatId) : Prop :=
  ∀ v, W.typing.Of s v → Matches (S.pat p) v → ∃ q ∈ before, Matches (S.pat q) v

/-- Every value is matched by some arm. -/
def Exhaustive (W : Wf) (S : PatStore) (s : TyId) (arms : List (Nat × PatId)) : Prop :=
  ∀ v, W.typing.Of s v → ∃ a ∈ arms, Matches (S.pat a.2) v

variable {before ps : List PatId}

theorem covered_column {v : Value Ctor} :
    Covered (pats S (ps.map fun p => [p])) [v] ↔ ∃ q ∈ ps, Matches (S.pat q) v := by
  simp [Covered, pats, MatchesAll]

theorem useful_column :
    Useful W.typing [s] (pats S (before.map fun p => [p])) [S.pat p] ↔
      ¬ Redundant W S s before p := by
  unfold Redundant
  push Not
  constructor
  · rintro ⟨vs, hvs, hmatch, hnot⟩
    obtain _ | ⟨hv, hnil⟩ := hvs
    cases hnil
    rw [covered_column] at hnot
    push Not at hnot
    rw [MatchesAll] at hmatch
    exact ⟨_, hv, hmatch.1, hnot⟩
  · rintro ⟨v, hv, hmatch, hnot⟩
    refine ⟨[v], .cons hv .nil, by simpa [MatchesAll] using hmatch, ?_⟩
    rw [covered_column]
    push Not
    exact hnot

/-- A pattern that was checked at the scrutinee's type without a diagnostic. -/
def Checked (W : Wf) (S : PatStore) (s : TyId) (p : PatId) : Prop :=
  p < S.kind.length ∧ Typed W.checks W.ctor_sub_tys (S.pat p) s

theorem checked_wild (hS : S.WF) : Checked W S s S.wild :=
  ⟨hS.wild_lt, by rw [hS.pat_wild]; exact typed_none rfl s⟩

theorem matrix_arms (hbefore : ∀ q ∈ before, Checked W S s q) (hp : Checked W S s p) :
    Matrix W S [s] (before.map fun p => [p]) [p] where
  rows_valid := by
    intro r hr
    obtain ⟨q, hq, rfl⟩ := mem_map.mp hr
    exact forall_mem_singleton.mpr (hbefore q hq).1
  v_valid := forall_mem_singleton.mpr hp.1
  rows_typed := by
    intro r hr
    obtain ⟨_, hcolumn, rfl⟩ := mem_map.mp hr
    obtain ⟨q, hq, rfl⟩ := mem_map.mp hcolumn
    simpa [TypedAll] using (hbefore q hq).2.mono fun _ _ => Wf.has_of_checks
  v_typed := by simpa [TypedAll] using hp.2.mono fun _ _ => Wf.has_of_checks

theorem answers_column {r : Option (List Witness)}
    (h : Answers W S [s] (before.map fun p => [p]) [p] r) :
    r = none ↔ Redundant W S s before p := by
  rw [← not_iff_not, ← useful_column]
  cases r with
  | none => exact iff_of_false (by simp) h
  | some w => exact iff_of_true (by simp) (Gap.useful h.2.2 h.2.1)

/-- The places of the arms that are not useful. -/
def Reported (W : Wf) (S : PatStore) (s : TyId) (before : List PatId)
    (arms : List (Nat × PatId)) (unreachable : List Nat) : Prop :=
  ∃ idx : List Nat, idx.Pairwise (· < ·) ∧
    unreachable = idx.filterMap (fun i => arms[i]?.map Prod.fst) ∧
    ∀ i, i ∈ idx ↔ ∃ a, arms[i]? = some a ∧
      Redundant W S s (before ++ (arms.take i).map Prod.snd) a.2

variable {arms : List (Nat × PatId)} {unreachable : List Nat}

theorem reported_cons {n : Nat} (h : Reported W S s (before ++ [p]) arms unreachable) :
    (Redundant W S s before p → Reported W S s before ((n, p) :: arms) (n :: unreachable)) ∧
      (¬ Redundant W S s before p → Reported W S s before ((n, p) :: arms) unreachable) := by
  obtain ⟨idx, hsorted, rfl, hmem⟩ := h
  have hsucc (i : Nat) : i + 1 ∈ idx.map Nat.succ ↔ i ∈ idx := by simp
  have hsorted' : (idx.map Nat.succ).Pairwise (· < ·) :=
    pairwise_map.mpr (hsorted.imp Nat.succ_lt_succ)
  have hmap : (idx.map Nat.succ).filterMap (fun i => ((n, p) :: arms)[i]?.map Prod.fst) =
      idx.filterMap fun i => arms[i]?.map Prod.fst := by
    rw [filterMap_map]
    rfl
  constructor
  · intro hred
    refine ⟨0 :: idx.map Nat.succ, pairwise_cons.mpr ⟨by simp, hsorted'⟩, ?_, ?_⟩
    · rw [filterMap_cons, hmap]
      rfl
    · intro i
      cases i with
      | zero => simpa using hred
      | succ i => simp [hmem i]
  · intro hred
    refine ⟨idx.map Nat.succ, hsorted', hmap.symm, ?_⟩
    intro i
    cases i with
    | zero => simpa using hred
    | succ i => simp [hmem i]

theorem check_arms_reports (hS : S.WF) {fuel : Nat} (hbefore : ∀ q ∈ before, Checked W S s q)
    (harms : ∀ a ∈ arms, Checked W S s a.2)
    (hrun : W.check_arms S fuel s before arms b = some (b', some unreachable)) :
    Reported W S s before arms unreachable := by
  induction arms generalizing before b unreachable with
  | nil =>
    obtain rfl := some.inj (Prod.mk.inj (some.inj hrun)).2
    exact ⟨[], .nil, rfl, by simp⟩
  | cons a arms ih =>
    obtain ⟨n, p⟩ := a
    rw [forall_mem_cons] at harms
    obtain ⟨⟨b1, r⟩, hwalk, hrun⟩ := bind_eq_some_iff.mp hrun
    cases r with
    | none => exact nomatch hrun
    | some w =>
      obtain ⟨⟨b2, rest⟩, hrest, hrun⟩ := bind_eq_some_iff.mp hrun
      obtain ⟨rfl, hr⟩ := Prod.mk.inj (some.inj hrun)
      obtain ⟨rest, rfl, rfl⟩ := map_eq_some_iff.mp hr
      have hbefore' : ∀ q ∈ before ++ [p], Checked W S s q := by
        simpa [or_imp, forall_and] using ⟨hbefore, harms.1⟩
      have hcons := reported_cons (n := n) (ih hbefore' harms.2 hrest)
      have hw := answers_column (usefulness_answers hS hwalk (matrix_arms hbefore harms.1))
      cases w with
      | none => exact hcons.1 (hw.mp rfl)
      | some w => exact hcons.2 fun hred => nomatch hw.mpr hred

theorem check_arms_ends (hS : S.WF)
    (hbefore : ∀ q ∈ before, Checked W S s q) (harms : ∀ a ∈ arms, Checked W S s a.2) :
    ∃ k, ∀ b, ∃ o, ∀ fuel ≥ k, W.check_arms S fuel s before arms b = some o := by
  induction arms generalizing before with
  | nil => exact ⟨0, fun b => ⟨_, fun _ _ => rfl⟩⟩
  | cons a arms ih =>
    obtain ⟨n, p⟩ := a
    rw [forall_mem_cons] at harms
    have hbefore' : ∀ q ∈ before ++ [p], Checked W S s q := by
      simpa [or_imp, forall_and] using ⟨hbefore, harms.1⟩
    obtain ⟨k1, hwalk⟩ := usefulness_ends hS (matrix_arms hbefore harms.1)
    obtain ⟨k2, hrest⟩ := ih hbefore' harms.2
    refine ⟨max k1 k2, fun b => ?_⟩
    obtain ⟨⟨b1, r⟩, ho⟩ := hwalk b
    obtain ⟨o, ho'⟩ := hrest b1
    cases r with
    | none =>
      refine ⟨(b1, none), fun fuel hfuel => ?_⟩
      rw [Wf.check_arms, ho fuel (Nat.le_trans (Nat.le_max_left k1 k2) hfuel)]
      rfl
    | some w =>
      apply Exists.intro
      intro fuel hfuel
      rw [Wf.check_arms, ho fuel (Nat.le_trans (Nat.le_max_left k1 k2) hfuel)]
      simp only [bind_eq_bind, bind_some,
        ho' fuel (Nat.le_trans (Nat.le_max_right k1 k2) hfuel)]
      rfl

theorem checked_column (harms : ∀ a ∈ arms, Checked W S s a.2) :
    ∀ q ∈ arms.map Prod.snd, Checked W S s q := by
  intro q hq
  obtain ⟨a, ha, rfl⟩ := mem_map.mp hq
  exact harms a ha

theorem column_arms (arms : List (Nat × PatId)) :
    (arms.map fun a => [a.2]) = (arms.map Prod.snd).map fun p => [p] := by
  rw [map_map]
  rfl

theorem matrix_match (hS : S.WF) (harms : ∀ a ∈ arms, Checked W S s a.2) :
    Matrix W S [s] (arms.map fun a => [a.2]) [S.wild] := by
  rw [column_arms]
  exact matrix_arms (checked_column harms) (checked_wild hS)

/-! ## The match -/

theorem check_match_ends (hS : S.WF) (harms : ∀ a ∈ arms, Checked W S s a.2) :
    ∃ k o, ∀ fuel ≥ k, W.check_match S fuel arms s = some o := by
  by_cases hsilent : s = TY_ERROR ∨ s = NO_TY ∨ arms = []
  · exact ⟨0, .silent, fun fuel _ => if_pos hsilent⟩
  obtain ⟨k1, h1⟩ := check_arms_ends hS (forall_mem_nil _) harms
  obtain ⟨k2, h2⟩ := usefulness_ends hS (matrix_match hS harms)
  obtain ⟨⟨b1, r⟩, ho⟩ := h1 (.new (MATCH_STEP_FACTOR * S.pattern_node_count))
  obtain ⟨⟨b2, r'⟩, ho'⟩ := h2 b1
  have hk1 {fuel : Nat} (hfuel : fuel ≥ max k1 k2) := ho fuel (le_of_max_le_left hfuel)
  have hk2 {fuel : Nat} (hfuel : fuel ≥ max k1 k2) := ho' fuel (le_of_max_le_right hfuel)
  refine ⟨max k1 k2, ?_⟩
  unfold Wf.check_match
  simp only [if_neg hsilent]
  cases r with
  | none => exact ⟨_, fun fuel hfuel => by rw [hk1 hfuel]; rfl⟩
  | some unreachable =>
    cases r' with
    | none => exact ⟨_, fun fuel hfuel => by
      rw [hk1 hfuel, bind_eq_bind, bind_some]
      simp only [hk2 hfuel]
      rfl⟩
    | some missing => exact ⟨_, fun fuel hfuel => by
      rw [hk1 hfuel, bind_eq_bind, bind_some]
      simp only [hk2 hfuel]
      rfl⟩

/-- A check that was not silent and stayed in the budget. -/
theorem check_match_checked {fuel : Nat} {exhaustive : Bool} {missing : Option Witness}
    (hrun : W.check_match S fuel arms s = some (.checked unreachable exhaustive missing)) :
    ∃ b b1 b2 r, W.check_arms S fuel s [] arms b = some (b1, some unreachable) ∧
      W.usefulness S fuel [s] (arms.map fun a => [a.2]) [S.wild] b1 = some (b2, some r) ∧
      exhaustive = r.isNone ∧ missing = r.bind List.head? := by
  unfold Wf.check_match at hrun
  split at hrun
  · exact nomatch hrun
  obtain ⟨⟨b1, o⟩, harms, hrun⟩ := bind_eq_some_iff.mp hrun
  cases o with
  | none => exact nomatch hrun
  | some unreachable' =>
    obtain ⟨⟨b2, r⟩, hwalk, hrun⟩ := bind_eq_some_iff.mp hrun
    cases r with
    | none => exact nomatch hrun
    | some r =>
      obtain ⟨rfl, rfl, rfl⟩ := Wf.Outcome.checked.inj (some.inj hrun)
      exact ⟨_, b1, b2, r, harms, hwalk, rfl, rfl⟩

/-- What a check that decides the match leaves behind: the arms that are not useful, whether the match is
exhaustive, and otherwise a pattern of the scrutinee's type whose values no arm matches. -/
structure Decides (W : Wf) (S : PatStore) (s : TyId) (arms : List (Nat × PatId))
    (unreachable : List Nat) (exhaustive : Bool) (missing : Option Witness) : Prop where
  reported : Reported W S s [] arms unreachable
  recorded : exhaustive = true ↔ Exhaustive W S s arms
  shown : exhaustive = false → ∃ w, missing = some w ∧ Typed W.checks W.ctor_sub_tys w s ∧
    ∀ v, W.typing.Of s v → Matches w v → ∀ a ∈ arms, ¬ Matches (S.pat a.2) v

theorem covered_arms {v : Value Ctor} :
    Covered (pats S (arms.map fun a => [a.2])) [v] ↔ ∃ a ∈ arms, Matches (S.pat a.2) v := by
  simp [Covered, pats, MatchesAll]

theorem exhaustive_iff :
    Exhaustive W S s arms ↔ ¬ Uncovered W [s] (pats S (arms.map fun a => [a.2])) := by
  unfold Exhaustive Uncovered
  push Not
  constructor
  · intro h vs hvs
    obtain _ | ⟨hv, hnil⟩ := hvs
    cases hnil
    exact covered_arms.mpr (h _ hv)
  · intro h v hv
    exact covered_arms.mp (h [v] (.cons hv .nil))

/-- The check of a match ends. Where it stays in the budget it reports the arms that are not useful
and records whether the match is exhaustive; what it shows otherwise is a pattern of the
scrutinee's type with values that no arm matches, exactly when the literal columns on the way to
the gap are spellable. -/
theorem check_match_decides (hS : S.Built) {arms : List (Nat × PatId)}
    (harms : ∀ a ∈ arms, Checked W S s a.2) :
    (∃ k o, ∀ fuel ≥ k, W.check_match S fuel arms s = some o) ∧
      ∀ fuel unreachable exhaustive missing,
        W.check_match S fuel arms s = some (.checked unreachable exhaustive missing) →
          (Decides W S s arms unreachable exhaustive missing ↔
            Exhaustive W S s arms ∨ Fills W [s] (pats S (arms.map fun a => [a.2]))) := by
  have hS := hS.wf
  refine ⟨check_match_ends hS harms, fun fuel unreachable exhaustive missing hrun => ?_⟩
  obtain ⟨b, b1, b2, r, harmsrun, hwalk, rfl, rfl⟩ := check_match_checked hrun
  have hmatrix := matrix_match hS harms
  have hanswers : Answers W S [s] _ (List.replicate [s].length S.wild) r :=
    usefulness_answers hS hwalk hmatrix
  have hreported := check_arms_reports hS (forall_mem_nil _) harms harmsrun
  have hrecorded : r.isNone = true ↔ Exhaustive W S s arms := by
    rw [exhaustive_iff, hanswers.uncovered hS]
    cases r <;> simp
  cases r with
  | none =>
    refine iff_of_true ⟨hreported, hrecorded, fun h => nomatch h⟩ (.inl (hrecorded.mp rfl))
  | some w =>
    have hno : ¬ Exhaustive W S s arms := fun h => nomatch hrecorded.mpr h
    have hfills : TypedAll W.checks W.ctor_sub_tys w [s] ↔ Fills W [s] _ :=
      typed_iff_fills hS hwalk hmatrix
    rw [or_iff_right hno, ← hfills]
    obtain ⟨hlen, -, hgap⟩ := hanswers
    obtain ⟨w, rfl⟩ := length_eq_one_iff.mp hlen
    constructor
    · intro h
      obtain ⟨w', hw', htyped, -⟩ := h.shown rfl
      cases hw'
      simpa [TypedAll] using htyped
    · intro htyped
      refine ⟨hreported, hrecorded, fun _ => ⟨w, rfl, by simpa [TypedAll] using htyped, ?_⟩⟩
      intro v hv hmatch a ha harm
      refine (hgap [v] (.cons hv .nil) (by simpa [MatchesAll] using hmatch)).2 ?_
      exact covered_arms.mpr ⟨a, ha, harm⟩

/-! ### A column of floats -/

/-- The type `(bool, f64)`, in the store that interning it leaves behind. -/
def bool_f64 : Wf where
  tys := ((TyStore.new ⟨fun _ => 0, fun _ => 0, fun _ => 0, fun _ => 0, fun _ => 0, fun _ => 0,
    fun _ => 0⟩).bind (TyStore.run ⟨fun _ => 0, fun _ => 0, fun _ => 0, fun _ => 0, fun _ => 0,
      fun _ => 0, fun _ => 0⟩ [.prim .Bool, .prim .F64, .tuple_of [3, 4]])).getD TyStore.blank
  kind := fun _ => .Absent
  members := fun _ => []
  substituted := fun _ _ t => t

/-- The pattern `(true, _)`. -/
def true_pair : PatStore :=
  ((PatStore.new.touch.touch.touch.ctor (.Bool true) []).1.ctor (.Tuple 2) [1, 0]).1

theorem true_pair_built : true_pair.Built :=
  .ctor (.ctor (.touch (.touch (.touch .new))) _ [] ⟨by decide, by decide⟩ (by simp)) _ [1, 0]
    ⟨by decide, by decide⟩ (by decide)

theorem true_pair_checked : ∀ a ∈ [(7, 2)], Checked bool_f64 true_pair 5 a.2 := by
  have hpat : true_pair.pat 2 =
      .node (some (.Tuple 2)) [.node (some (.Bool true)) [], .node none []] := rfl
  have htuple : bool_f64.checks 5 (.Tuple 2) :=
    Wf.checks_of_mem rfl (mem_singleton_self (Ctor.Tuple 2, [3, 4]))
  have hbool : bool_f64.checks 3 (.Bool true) :=
    Wf.checks_of_mem rfl
      (mem_cons_of_mem (Ctor.Bool false, []) (mem_singleton_self (Ctor.Bool true, [])))
  intro a ha
  obtain rfl := mem_singleton.mp ha
  refine ⟨by decide, ?_⟩
  rw [hpat, Typed]
  refine ⟨htuple, ?_⟩
  change TypedAll _ _ _ [3, 4]
  rw [TypedAll, TypedAll, TypedAll, Typed, Typed]
  refine ⟨⟨hbool, ?_⟩, trivial, trivial⟩
  change TypedAll _ _ [] []
  rw [TypedAll]
  trivial

/-- The gap that the check shows. -/
def false_zero : Witness :=
  .Ctor (.Tuple 2) [.Ctor (.Bool false) [], .Ctor (.Int 0) []]

theorem check_match_float :
    bool_f64.check_match true_pair 4 [(7, 2)] 5 = some (.checked [] false (some false_zero)) :=
  rfl

theorem check_match_decides_float :
    Decides bool_f64 true_pair 5 [(7, 2)] [] false (some false_zero) ↔
      Exhaustive bool_f64 true_pair 5 [(7, 2)] ∨ Fills bool_f64 [5] (pats true_pair [[2]]) :=
  (check_match_decides true_pair_built true_pair_checked).2 4 [] false _ check_match_float

/-- The number 0 is no pattern of a float. -/
theorem float_gap :
    bool_f64.check_match true_pair 4 [(7, 2)] 5 = some (.checked [] false (some false_zero)) ∧
      ¬ Decides bool_f64 true_pair 5 [(7, 2)] [] false (some false_zero) := by
  refine ⟨check_match_float, fun h => ?_⟩
  obtain ⟨w, hw, htyped, -⟩ := h.shown rfl
  cases hw
  simp only [false_zero, Witness.Ctor, Typed] at htyped
  obtain ⟨-, htyped⟩ := htyped
  change TypedAll _ _ _ [3, 4] at htyped
  simp only [TypedAll, Typed] at htyped
  obtain ⟨-, ⟨hfloat, -⟩, -⟩ := htyped
  obtain ⟨n, -, hfits⟩ : ∃ n, Ctor.Int 0 = .Int n ∧ fits n .F64 = true := hfloat
  exact nomatch hfits

end Fors.Check
