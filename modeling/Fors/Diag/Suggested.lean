import Fors.Lib.Utf8
import Fors.Lib.Alignment
import Mathlib.Data.Prod.Lex
import Mathlib.Data.List.Lex
import Mathlib.Data.List.MinMax
import Mathlib.Data.UInt

/-!
# Did you mean

`suggest_in` of `crates/fors-diag/src/lib.rs`: the one candidate that a name is most likely a
misspelling of, ranked by case-only difference, distance and bytes.

The alignment keeps three rows that the caller owns and that it rotates after each row of the table.
They hold what the recursion says whatever was in them before (`osa_distance_eq`), and the candidate
that is kept is the least of those that the definition accepts (`suggest_exact`).

Principal result: `suggest_exact`.
-/

namespace Fors.Diag

open Alignment List

def to_ascii_lowercase (b : UInt8) : UInt8 :=
  if 'A'.toUInt8 ≤ b ∧ b ≤ 'Z'.toUInt8 then b + 0x20 else b

def eq_ignore_ascii_case (a b : List UInt8) : Bool :=
  a.map to_ascii_lowercase == b.map to_ascii_lowercase

/-- The order of the keys: case-only differences first, then the nearest, then by bytes. -/
def key_lt (a b : Bool × Nat × List UInt8) : Bool :=
  (!a.1 && b.1) || (a.1 == b.1 && (a.2.1 < b.2.1 || (a.2.1 == b.2.1 && a.2.2 < b.2.2)))

/-! ## The rows of a caller -/

/-- The row before the last, the last, and the one that is filled next. -/
structure Rows where
  pp : List Nat
  p : List Nat
  cur : List Nat

/-- Row `i` of the table, written over what stands there. -/
def fill_row (a b : List UInt8) (i : Nat) (rows : Rows) : List Nat :=
  (List.range' 1 b.length).foldl (fun cur j =>
    let cost := if a[i - 1]? ≠ b[j - 1]? then 1 else 0
    let d := min (min (cur.getD (j - 1) 0 + 1) (rows.p.getD j 0 + 1))
      (rows.p.getD (j - 1) 0 + cost)
    cur.set j
      (if i > 1 ∧ j > 1 ∧ a[i - 1]? = b[j - 2]? ∧ a[i - 2]? = b[j - 1]? then
        min d (rows.pp.getD (j - 2) 0 + 1)
      else d)) (rows.cur.set 0 i)

/-- Fills a row and swaps it to the second place, and the second to the first. -/
def next_row (a b : List UInt8) (rows : Rows) (i : Nat) : Rows where
  pp := rows.p
  p := fill_row a b i rows
  cur := rows.pp

/-- Optimal string alignment over bytes. -/
def osa_distance_in (a b : List UInt8) (rows : Rows) : Nat × Rows :=
  if a.length = 0 then (b.length, rows)
  else if b.length = 0 then (a.length, rows)
  else
    let rows := (List.range' 1 a.length).foldl (next_row a b)
      { pp := List.replicate (b.length + 1) 0
        p := List.range (b.length + 1)
        cur := List.replicate (b.length + 1) 0 }
    (rows.p.getD b.length 0, rows)

/-- One candidate: the best key so far, and the rows. -/
def consider (name : List UInt8) (acc : Option (Bool × Nat × List UInt8) × Rows)
    (c : List UInt8) : Option (Bool × Nat × List UInt8) × Rows :=
  let threshold := max (name.length / 3) 1
  if c = name then acc
  else
    let case_only := eq_ignore_ascii_case name c
    let gap := max name.length c.length - min name.length c.length
    if !case_only && (gap > threshold || min name.length c.length ≤ 1) then acc
    else
      let (d, rows) := osa_distance_in name c acc.2
      if !case_only && (d > threshold || d ≥ min name.length c.length) then (acc.1, rows)
      else if acc.1.all fun b => key_lt (!case_only, d, c) b then
        (some (!case_only, d, c), rows)
      else (acc.1, rows)

def suggest_in (name : List UInt8) (candidates : List (List UInt8)) : Option (List UInt8) :=
  (candidates.foldl (consider name) (none, ⟨[], [], []⟩)).1.map fun b => b.2.2

/-! ## The table -/

variable {a b : List UInt8} {i k : Nat} {rows : Rows}

/-- The rows before row `i + 1` is filled. -/
structure RowsAt (a b : List UInt8) (i : Nat) (rows : Rows) : Prop where
  length_pp : rows.pp.length = b.length + 1
  length_p : rows.p.length = b.length + 1
  length_cur : rows.cur.length = b.length + 1
  p : ∀ j ≤ b.length, rows.p.getD j 0 = osa a b i j
  pp : 0 < i → ∀ j ≤ b.length, rows.pp.getD j 0 = osa a b (i - 1) j

theorem getD_set (xs : List Nat) (n j v : Nat) (h : n < xs.length) :
    (xs.set n v).getD j 0 = if j = n then v else xs.getD j 0 := by
  rw [getD_eq_getElem?_getD, getElem?_set, getD_eq_getElem?_getD]
  by_cases hj : n = j
  · rw [if_pos hj, if_pos h, if_pos hj.symm]
    rfl
  · rw [if_neg hj, if_neg (Ne.symm hj)]

/-- Row `i + 1`, as far as it is filled, is the recursion. -/
theorem fill_row_spec (h : RowsAt a b i rows) : (fill_row a b (i + 1) rows).length = b.length + 1 ∧
    ∀ j ≤ b.length, (fill_row a b (i + 1) rows).getD j 0 = osa a b (i + 1) j := by
  unfold fill_row
  have hfill : ∀ k ≤ b.length, ∀ cur, cur = (List.range' 1 k).foldl (fun cur j =>
      let cost := if a[i + 1 - 1]? ≠ b[j - 1]? then 1 else 0
      let d := min (min (cur.getD (j - 1) 0 + 1) (rows.p.getD j 0 + 1))
        (rows.p.getD (j - 1) 0 + cost)
      cur.set j
        (if i + 1 > 1 ∧ j > 1 ∧ a[i + 1 - 1]? = b[j - 2]? ∧ a[i + 1 - 2]? = b[j - 1]? then
          min d (rows.pp.getD (j - 2) 0 + 1)
        else d)) (rows.cur.set 0 (i + 1)) →
      cur.length = b.length + 1 ∧ ∀ j ≤ k, cur.getD j 0 = osa a b (i + 1) j := by
    intro k
    induction k with
    | zero =>
      rintro - cur rfl
      refine ⟨?_, ?_⟩
      · rw [List.range'_zero, foldl_nil, length_set, h.length_cur]
      · intro j hj
        obtain rfl : j = 0 := by omega
        rw [List.range'_zero, foldl_nil, getD_set _ _ _ _ (by rw [h.length_cur]; omega),
          if_pos rfl, osa_zero_right]
    | succ k ih =>
      rintro hk cur rfl
      rw [List.range'_1_concat, foldl_append]
      obtain ⟨hlen, hget⟩ := ih (by omega) _ rfl
      generalize (List.range' 1 k).foldl _ (rows.cur.set 0 (i + 1)) = cur at hlen hget
      rw [foldl_cons, foldl_nil]
      refine ⟨?_, ?_⟩
      · rw [length_set, hlen]
      · intro j hj
        rw [getD_set _ _ _ _ (by omega)]
        by_cases hlast : j = 1 + k
        · obtain rfl : j = k + 1 := by omega
          have hk1 : 1 + k - 1 = k := by omega
          have hk2 : 1 + k - 2 = k - 1 := by omega
          have hi2 : i + 1 - 2 = i - 1 := by omega
          have hup := h.p (1 + k) (by omega)
          rw [if_pos hlast, hk1, hk2, hi2, Nat.add_sub_cancel, hget k le_rfl, hup,
            h.p k (by omega), ite_not, Nat.add_comm 1 k, osa]
          by_cases hswap : 0 < i ∧ 0 < k ∧ a[i]? = b[k - 1]? ∧ a[i - 1]? = b[k]?
          · have hguard : i + 1 > 1 ∧ k + 1 > 1 ∧ a[i]? = b[k - 1]? ∧ a[i - 1]? = b[k]? := by
              obtain ⟨hi, hk, hboth⟩ := hswap
              exact ⟨by omega, by omega, hboth⟩
            rw [if_pos hguard, if_pos hswap, h.pp hswap.1 (k - 1) (by omega)]
          · have hguard : ¬ (i + 1 > 1 ∧ k + 1 > 1 ∧ a[i]? = b[k - 1]? ∧ a[i - 1]? = b[k]?) := by
              rintro ⟨hi, hk, hboth⟩
              exact hswap ⟨by omega, by omega, hboth⟩
            rw [if_neg hguard, if_neg hswap]
        · rw [if_neg hlast]
          exact hget j (by omega)
  exact hfill b.length le_rfl _ rfl

theorem next_row_spec (h : RowsAt a b i rows) : RowsAt a b (i + 1) (next_row a b rows (i + 1)) := by
  obtain ⟨hlen, hget⟩ := fill_row_spec h
  exact ⟨h.length_p, hlen, h.length_pp, hget, fun _ => h.p⟩

/-- What the rows held does not count. -/
theorem osa_distance_eq (a b : List UInt8) (rows : Rows) :
    (osa_distance_in a b rows).1 = distance a b := by
  unfold osa_distance_in distance
  by_cases ha : a.length = 0
  · rw [if_pos ha, ha, osa_zero_left]
  · rw [if_neg ha]
    by_cases hb : b.length = 0
    · rw [if_pos hb, hb, osa_zero_right]
    · rw [if_neg hb]
      have hrows : ∀ n, RowsAt a b n ((List.range' 1 n).foldl (next_row a b)
          ⟨List.replicate (b.length + 1) 0, List.range (b.length + 1),
            List.replicate (b.length + 1) 0⟩) := by
        intro n
        induction n with
        | zero =>
          refine ⟨length_replicate, length_range, length_replicate, ?_, ?_⟩
          · intro j hj
            show (List.range (b.length + 1)).getD j 0 = _
            rw [osa_zero_left, getD_eq_getElem?_getD, getElem?_range (by omega)]
            rfl
          · intro h
            exact absurd h (Nat.lt_irrefl 0)
        | succ n ih =>
          rw [List.range'_1_concat, foldl_append, foldl_cons, foldl_nil,
            Nat.add_comm 1 n]
          exact next_row_spec ih
      exact (hrows a.length).p b.length le_rfl

/-! ## The order of the candidates -/

/-- The name is not meant, and the candidate is near enough or differs in case only. -/
def Accepted (name c : List UInt8) : Prop :=
  c ≠ name ∧ (eq_ignore_ascii_case name c = true ∨
    distance name c ≤ max 1 (name.length / 3) ∧ distance name c < min name.length c.length)

instance (name c : List UInt8) : Decidable (Accepted name c) :=
  inferInstanceAs (Decidable (_ ∧ _))

/-- Case-only differences first, then the nearest, then by bytes. -/
def rank (name c : List UInt8) : Bool ×ₗ ℕ ×ₗ List ℕ :=
  toLex (!eq_ignore_ascii_case name c, toLex (distance name c, c.map UInt8.toNat))

variable {name c c' : List UInt8} {candidates candidates' : List (List UInt8)}

theorem rank_injective (name : List UInt8) : (rank name).Injective := by
  intro c c' h
  have hbytes := (Prod.mk.inj (Prod.mk.inj h).2).2
  exact map_injective_iff.mpr (fun _ _ => UInt8.toNat_inj.mp) hbytes

theorem map_toNat_lt (c c' : List UInt8) : c.map UInt8.toNat < c'.map UInt8.toNat ↔ c < c' := by
  induction c generalizing c' with
  | nil =>
    cases c' with
    | nil => simp
    | cons y c' => simp
  | cons x c ih =>
    cases c' with
    | nil => simp
    | cons y c' =>
      rw [map_cons, map_cons, cons_lt_cons_iff, cons_lt_cons_iff, ih,
        UInt8.lt_iff_toNat_lt, UInt8.toNat_inj]

/-- The order of the keys is that of the ranks. -/
theorem key_lt_iff : key_lt (!eq_ignore_ascii_case name c, distance name c, c)
    (!eq_ignore_ascii_case name c', distance name c', c') = true ↔ rank name c < rank name c' := by
  unfold key_lt rank
  rw [Prod.Lex.toLex_lt_toLex, Prod.Lex.toLex_lt_toLex, map_toNat_lt]
  cases eq_ignore_ascii_case name c with
  | true => cases eq_ignore_ascii_case name c' <;> simp
  | false => cases eq_ignore_ascii_case name c' <;> simp

/-! ## The fold -/

/-- What is kept of a candidate. -/
def key (name c : List UInt8) : Bool × Nat × List UInt8 :=
  (!eq_ignore_ascii_case name c, distance name c, c)

/-- The filters on the lengths leave out only what the definition leaves out. -/
theorem length_filter (hne : c ≠ name) (hgap : max 1 (name.length / 3) <
    max name.length c.length - min name.length c.length ∨ min name.length c.length ≤ 1) :
    ¬ (distance name c ≤ max 1 (name.length / 3) ∧
      distance name c < min name.length c.length) := by
  rintro ⟨hnear, hshared⟩
  cases hgap with
  | inl hgap =>
    obtain ⟨hlong, hshort⟩ := length_sub_le name c
    omega
  | inr hshort =>
    have hpos := distance_pos hne.symm
    omega

theorem consider_eq (name c : List UInt8) (acc : Option (Bool × Nat × List UInt8) × Rows) :
    (consider name acc c).1 =
      if Accepted name c ∧ (acc.1.all fun b => key_lt (key name c) b) = true then
        some (key name c)
      else acc.1 := by
  unfold consider
  by_cases hname : c = name
  · rw [if_pos hname, if_neg]
    exact fun h => h.1.1 hname
  rw [if_neg hname]
  have hthreshold : max (name.length / 3) 1 = max 1 (name.length / 3) := Nat.max_comm _ _
  have hkey : key name c =
      (!eq_ignore_ascii_case name c, (osa_distance_in name c acc.2).1, c) := by
    rw [osa_distance_eq]
    rfl
  cases hcase : eq_ignore_ascii_case name c with
  | true =>
    have haccepted : Accepted name c := ⟨hname, Or.inl hcase⟩
    rw [hcase] at hkey
    simp only [Bool.not_true, Bool.false_and, Bool.false_eq_true, if_false, haccepted, true_and,
      hkey, apply_ite Prod.fst]
  | false =>
    rw [hcase] at hkey
    by_cases hgap : max 1 (name.length / 3) <
        max name.length c.length - min name.length c.length ∨ min name.length c.length ≤ 1
    · have hrejected : ¬ Accepted name c := by
        rintro ⟨-, hcased | hnear⟩
        · rw [hcase] at hcased
          cases hcased
        · exact length_filter hname hgap hnear
      simp only [hthreshold, Bool.not_false, Bool.true_and, Bool.or_eq_true, decide_eq_true_eq,
        gt_iff_lt, hgap, if_true, hrejected, false_and, if_false]
    · have hfar : Accepted name c ↔ ¬ (max 1 (name.length / 3) < distance name c ∨
          min name.length c.length ≤ distance name c) := by
        unfold Accepted
        rw [hcase, not_or, not_lt, not_le]
        simp only [ne_eq, hname, not_false_eq_true, Bool.false_eq_true, false_or, true_and]
      simp only [hthreshold, Bool.not_false, Bool.true_and, Bool.or_eq_true, decide_eq_true_eq,
        gt_iff_lt, ge_iff_le, hgap, if_false, hkey, osa_distance_eq, apply_ite Prod.fst]
      by_cases hmax : max 1 (name.length / 3) < distance name c ∨
          min name.length c.length ≤ distance name c
      · have hrejected : ¬ Accepted name c := fun h => hfar.mp h hmax
        simp only [hmax, if_true, hrejected, false_and, if_false]
      · have haccepted : Accepted name c := hfar.mpr hmax
        simp only [hmax, if_false, haccepted, true_and]

/-- Whatever stood in the rows, the best key is that of the least accepted candidate. -/
theorem foldl_consider (name : List UInt8) (candidates : List (List UInt8)) (rows : Rows) :
    (candidates.foldl (consider name) (none, rows)).1 =
      ((candidates.filter fun c => decide (Accepted name c)).argmin (rank name)).map
        (key name) := by
  induction candidates using List.reverseRecOn with
  | nil => rfl
  | append_singleton candidates c ih =>
    rw [foldl_append, foldl_cons, foldl_nil, consider_eq, ih, filter_append]
    by_cases haccepted : Accepted name c
    · rw [filter_singleton, decide_eq_true haccepted, cond_true, argmin_concat]
      cases (candidates.filter fun c => decide (Accepted name c)).argmin (rank name) with
      | none => exact if_pos ⟨haccepted, rfl⟩
      | some least =>
        show (if Accepted name c ∧ key_lt (key name c) (key name least) = true then _ else _) =
          Option.map (key name) (if rank name c < rank name least then some c else some least)
        by_cases hless : rank name c < rank name least
        · rw [if_pos hless, if_pos ⟨haccepted, key_lt_iff.mpr hless⟩]
          rfl
        · rw [if_neg hless, if_neg]
          exact fun h => hless (key_lt_iff.mp h.2)
    · rw [filter_singleton, decide_eq_false haccepted, cond_false, append_nil, if_neg]
      exact fun h => haccepted h.1

theorem suggest_in_eq (name : List UInt8) (candidates : List (List UInt8)) :
    suggest_in name candidates =
      (candidates.filter fun c => decide (Accepted name c)).argmin (rank name) := by
  unfold suggest_in
  rw [foldl_consider, Option.map_map]
  exact Option.map_id'

theorem suggest_in_eq_some : suggest_in name candidates = some c ↔
    (c ∈ candidates ∧ Accepted name c) ∧
      ∀ c' ∈ candidates, Accepted name c' → rank name c ≤ rank name c' := by
  rw [suggest_in_eq, argmin_eq_some_iff, mem_filter, decide_eq_true_eq]
  constructor
  · rintro ⟨hmem, hleast, -⟩
    refine ⟨hmem, fun c' hc' haccepted => ?_⟩
    exact hleast c' (mem_filter.mpr ⟨hc', decide_eq_true haccepted⟩)
  · rintro ⟨hmem, hleast⟩
    refine ⟨hmem, ?_, ?_⟩
    · intro c' hc'
      obtain ⟨hc', haccepted⟩ := mem_filter.mp hc'
      exact hleast c' hc' (of_decide_eq_true haccepted)
    · intro c' hc' hle
      -- Two candidates of one rank are the same bytes.
      obtain ⟨hc', haccepted⟩ := mem_filter.mp hc'
      have hsame := le_antisymm hle (hleast c' hc' (of_decide_eq_true haccepted))
      rw [rank_injective name hsame]

theorem suggest_in_eq_none : suggest_in name candidates = none ↔
    ∀ c ∈ candidates, ¬ Accepted name c := by
  rw [suggest_in_eq, argmin_eq_none, filter_eq_nil_iff]
  constructor
  · intro h c hc haccepted
    exact h c hc (decide_eq_true haccepted)
  · intro h c hc haccepted
    exact h c hc (of_decide_eq_true haccepted)

theorem suggest_in_congr (h : ∀ c, c ∈ candidates ↔ c ∈ candidates') :
    suggest_in name candidates = suggest_in name candidates' := by
  apply Option.ext
  intro c
  rw [suggest_in_eq_some, suggest_in_eq_some, h c]
  simp [h]

/-- The suggestion is the least accepted candidate and there is none only when none is accepted,
whatever the rows held and in whatever order, and however often, the candidates came. -/
theorem suggest_exact (name : List UInt8) (candidates : List (List UInt8)) :
    (∀ c, suggest_in name candidates = some c ↔ (c ∈ candidates ∧ Accepted name c) ∧
      ∀ c' ∈ candidates, Accepted name c' → rank name c ≤ rank name c') ∧
    (suggest_in name candidates = none ↔ ∀ c ∈ candidates, ¬ Accepted name c) ∧
    (∀ candidates', (∀ c, c ∈ candidates ↔ c ∈ candidates') →
      suggest_in name candidates' = suggest_in name candidates) ∧
    (∀ (c : List UInt8) (rows : Rows), (osa_distance_in name c rows).1 = distance name c) ∧
    ∀ (acc : Option (Bool × Nat × List UInt8)) (rows rows' : Rows),
      (candidates.foldl (consider name) (acc, rows)).1 =
        (candidates.foldl (consider name) (acc, rows')).1 := by
  refine ⟨fun c => suggest_in_eq_some, suggest_in_eq_none, ?_, fun c => osa_distance_eq name c, ?_⟩
  · exact fun candidates' h => (suggest_in_congr h).symm
  · intro acc rows rows'
    induction candidates using List.reverseRecOn with
    | nil => rfl
    | append_singleton candidates c ih =>
      rw [foldl_append, foldl_append, foldl_cons, foldl_nil, foldl_cons,
        foldl_nil, consider_eq, consider_eq, ih]

end Fors.Diag
