import Mathlib.Data.List.Sort
import Mathlib.Data.List.Destutter

/-!
# Stable sorting by a key

Two lists whose entries correspond, and compare alike, correspond after sorting. A stable sort of
one multiset of entries depends on its order only where different entries share a key.

Principal results: `sort_eq_of_perm` and `forall₂_sort_iff`.
-/

namespace Sorting

open List

variable {α β κ : Type}

section Transport

variable {R : α → β → Prop} {r : α → α → Prop} {s : β → β → Prop} [DecidableRel r] [DecidableRel s]
  {xs : List α} {ys : List β}

theorem forall₂_orderedInsert {a : α} {b : β} (hab : R a b) (h : List.Forall₂ R xs ys)
    (hcmp : ∀ {x x' y y'}, R x y → R x' y' → (r x x' ↔ s y y')) :
    List.Forall₂ R (xs.orderedInsert r a) (ys.orderedInsert s b) := by
  induction h with
  | nil => exact .cons hab .nil
  | @cons x y xs ys hxy hrest ih =>
    rw [List.orderedInsert, List.orderedInsert]
    by_cases hle : r a x
    · rw [if_pos hle, if_pos ((hcmp hab hxy).mp hle)]
      exact .cons hab (.cons hxy hrest)
    · rw [if_neg hle, if_neg (fun hs => hle ((hcmp hab hxy).mpr hs))]
      exact .cons hxy ih

/-- Sorting keeps a correspondence under which entries compare alike. -/
theorem forall₂_insertionSort (h : List.Forall₂ R xs ys)
    (hcmp : ∀ {x x' y y'}, R x y → R x' y' → (r x x' ↔ s y y')) :
    List.Forall₂ R (xs.insertionSort r) (ys.insertionSort s) := by
  induction h with
  | nil => exact .nil
  | cons hxy _ ih => exact forall₂_orderedInsert hxy ih hcmp

end Transport

section Keyed

variable [LinearOrder κ] (key : α → κ)

/-- Sorted by a key; entries with one key keep their order. -/
abbrev sort (xs : List α) : List α :=
  xs.insertionSort fun x y => key x ≤ key y

variable {key} {xs ys : List α}

instance total_key : Std.Total fun x y : α => key x ≤ key y :=
  ⟨fun x y => le_total (key x) (key y)⟩

instance trans_key : IsTrans α fun x y : α => key x ≤ key y :=
  ⟨fun _ _ _ => le_trans⟩

theorem pairwise_sort (xs : List α) : (sort key xs).Pairwise fun x y => key x ≤ key y :=
  pairwise_insertionSort _ xs

theorem perm_sort (xs : List α) : (sort key xs).Perm xs :=
  perm_insertionSort _ xs

/-- Where the key tells the entries apart, their order does not matter. -/
theorem sort_eq_of_perm (h : xs.Perm ys)
    (hinj : ∀ x ∈ xs, ∀ y ∈ xs, key x = key y → x = y) : sort key xs = sort key ys := by
  have hperm : (sort key xs).Perm (sort key ys) :=
    (perm_sort xs).trans (h.trans (perm_sort ys).symm)
  refine hperm.eq_of_pairwise ?_ (pairwise_sort xs) (pairwise_sort ys)
  intro x y hx hy hxy hyx
  exact hinj x ((perm_sort xs).mem_iff.mp hx) y (h.symm.mem_iff.mp ((perm_sort ys).mem_iff.mp hy))
    (le_antisymm hxy hyx)

theorem sort_eq_iff_perm (hinj : ∀ x ∈ xs, ∀ y ∈ xs, key x = key y → x = y) :
    sort key xs = sort key ys ↔ xs.Perm ys := by
  constructor
  · intro h
    exact (perm_sort xs).symm.trans (h ▸ perm_sort ys)
  · exact fun h => sort_eq_of_perm h hinj

/-! ### Stability -/

variable [DecidableEq κ]

theorem filter_orderedInsert (v : κ) (x : α) (xs : List α) :
    (xs.orderedInsert (fun x y => key x ≤ key y) x).filter (fun y => key y = v) =
      (x :: xs).filter fun y => key y = v := by
  induction xs with
  | nil => rfl
  | cons y xs ih =>
    rw [List.orderedInsert]
    by_cases hle : key x ≤ key y
    · rw [if_pos hle]
    · rw [if_neg hle, filter_cons, ih]
      have hne : key y ≠ key x := fun h => hle h.ge
      simp only [filter_cons]
      -- an entry that is passed has another key
      by_cases hy : key y = v
      · have hx : key x ≠ v := fun hx => hne (hy.trans hx.symm)
        simp [hx]
      · simp [hy]

/-- The entries of one key keep their order. -/
theorem filter_sort (v : κ) (xs : List α) :
    (sort key xs).filter (fun y => key y = v) = xs.filter fun y => key y = v := by
  induction xs with
  | nil => rfl
  | cons x xs ih =>
    rw [sort, List.insertionSort, foldr_cons]
    refine (filter_orderedInsert v x _).trans ?_
    rw [filter_cons, filter_cons]
    have hrest : (xs.foldr (List.orderedInsert fun x y => key x ≤ key y) []).filter
        (fun y => key y = v) = xs.filter fun y => key y = v := ih
    rw [hrest]

omit [DecidableEq κ] in
theorem key_head_le {x y : α} (h : (x :: xs).Pairwise fun x y => key x ≤ key y)
    (hy : y ∈ x :: xs) : key x ≤ key y := by
  obtain rfl | hy := mem_cons.mp hy
  · exact le_rfl
  · exact rel_of_pairwise_cons h hy

/-- Sorted lists with the same entries of every key are one list. -/
theorem eq_of_filters (hxs : xs.Pairwise fun x y => key x ≤ key y)
    (hys : ys.Pairwise fun x y => key x ≤ key y)
    (h : ∀ v, (xs.filter fun x => key x = v) = ys.filter fun y => key y = v) : xs = ys := by
  have hmem : ∀ x, x ∈ xs ↔ x ∈ ys := by
    intro x
    have hx : x ∈ xs ↔ x ∈ xs.filter fun y => key y = key x := by simp
    rw [hx, h (key x)]
    simp
  induction xs generalizing ys with
  | nil =>
    cases ys with
    | nil => rfl
    | cons y ys => exact absurd ((hmem y).mpr mem_cons_self) not_mem_nil
  | cons x xs ih =>
    cases ys with
    | nil => exact absurd ((hmem x).mp mem_cons_self) not_mem_nil
    | cons y ys =>
      have hxy : key x = key y :=
        le_antisymm (key_head_le hxs ((hmem y).mpr mem_cons_self))
          (key_head_le hys ((hmem x).mp mem_cons_self))
      have hhead := h (key x)
      rw [filter_cons_of_pos (by simp), filter_cons_of_pos (by simp [hxy])] at hhead
      obtain rfl := (cons.inj hhead).1
      have htail : ∀ v, (xs.filter fun x => key x = v) = ys.filter fun y => key y = v := by
        intro v
        have hv := h v
        by_cases hxv : key x = v
        · rw [filter_cons_of_pos (by simp [hxv]),
            filter_cons_of_pos (by simp [hxv])] at hv
          exact (cons.inj hv).2
        · rwa [filter_cons_of_neg (by simp [hxv]),
            filter_cons_of_neg (by simp [hxv])] at hv
      congr 1
      refine ih (pairwise_cons.mp hxs).2 (pairwise_cons.mp hys).2 htail fun z => ?_
      have hz : z ∈ xs ↔ z ∈ xs.filter fun y => key y = key z := by simp
      rw [hz, htail (key z)]
      simp

/-- A stable sort forgets everything but the order of the entries of one key. -/
theorem sort_eq_iff : sort key xs = sort key ys ↔
    ∀ v, (xs.filter fun x => key x = v) = ys.filter fun y => key y = v := by
  constructor
  · intro h v
    rw [← filter_sort, h, filter_sort]
  · intro h
    refine eq_of_filters (pairwise_sort xs) (pairwise_sort ys) fun v => ?_
    rw [filter_sort, filter_sort, h]

end Keyed

/-! ## Two orders of the same entries -/

section Orders

variable {κ' γ : Type} [LinearOrder κ] [LinearOrder κ'] {key : α → κ} {key' : β → κ'}
  {R : α → β → Prop} {xs : List α} {ys : List β}

/-- Two entries of corresponding lists come in one order in both. -/
theorem order_of_forall₂ {p : α → α → Prop} {q : β → β → Prop} (h : List.Forall₂ R xs ys)
    (hxs : xs.Pairwise p) (hys : ys.Pairwise q) {x x' : α} (hx : x ∈ xs) (hx' : x' ∈ xs) :
    ∃ y ∈ ys, ∃ y' ∈ ys, R x y ∧ R x' y' ∧
      (x = x' ∧ y = y' ∨ p x x' ∧ q y y' ∨ p x' x ∧ q y' y) := by
  induction h generalizing x x' with
  | nil => exact nomatch hx
  | @cons a b as bs hab hrest ih =>
    obtain ⟨ha, has⟩ := pairwise_cons.mp hxs
    obtain ⟨hb, hbs⟩ := pairwise_cons.mp hys
    have hother : ∀ z ∈ as, ∃ w ∈ bs, R z w := fun z hz => by
      obtain ⟨w, hw, -, -, hzw, -⟩ := ih has hbs hz hz
      exact ⟨w, hw, hzw⟩
    obtain hxa | hmem := mem_cons.mp hx
    · subst hxa
      obtain hxa' | hmem' := mem_cons.mp hx'
      · subst hxa'
        exact ⟨b, mem_cons_self, b, mem_cons_self, hab, hab, .inl ⟨rfl, rfl⟩⟩
      · obtain ⟨w, hw, hxw⟩ := hother x' hmem'
        exact ⟨b, mem_cons_self, w, mem_cons_of_mem _ hw, hab, hxw,
          .inr (.inl ⟨ha x' hmem', hb w hw⟩)⟩
    · obtain hxa' | hmem' := mem_cons.mp hx'
      · subst hxa'
        obtain ⟨w, hw, hxw⟩ := hother x hmem
        exact ⟨w, mem_cons_of_mem _ hw, b, mem_cons_self, hxw, hab,
          .inr (.inr ⟨ha x hmem, hb w hw⟩)⟩
      · obtain ⟨y, hy, y', hy', hrel⟩ := ih has hbs hmem hmem'
        exact ⟨y, mem_cons_of_mem _ hy, y', mem_cons_of_mem _ hy', hrel⟩

theorem forall₂_mem (h : List.Forall₂ R xs ys) :
    List.Forall₂ (fun x y => R x y ∧ x ∈ xs ∧ y ∈ ys) xs ys := by
  obtain ⟨hlen, hzip⟩ := List.forall₂_iff_zip.mp h
  refine List.forall₂_iff_zip.mpr ⟨hlen, fun {x y} hxy => ?_⟩
  exact ⟨hzip hxy, of_mem_zip hxy⟩

/-- Entries that correspond one to one, whatever their order. -/
def Same (R : α → β → Prop) (xs : List α) (ys : List β) : Prop :=
  ∃ zs, List.Forall₂ R xs zs ∧ zs.Perm ys

/-- Lists of the same entries, each sorted by a key of its own, correspond exactly when the keys
order every two entries alike. -/
theorem forall₂_sort_iff (hsame : Same R xs ys)
    (hleft : ∀ x ∈ xs, ∀ x' ∈ xs, ∀ y ∈ ys, R x y → R x' y → x = x')
    (hright : ∀ x ∈ xs, ∀ y ∈ ys, ∀ y' ∈ ys, R x y → R x y' → y = y')
    (hkey : ∀ x ∈ xs, ∀ x' ∈ xs, key x = key x' → x = x')
    (hkey' : ∀ y ∈ ys, ∀ y' ∈ ys, key' y = key' y' → y = y') :
    List.Forall₂ R (sort key xs) (sort key' ys) ↔
      ∀ x ∈ xs, ∀ x' ∈ xs, ∀ y ∈ ys, ∀ y' ∈ ys, R x y → R x' y' →
        (key x ≤ key x' ↔ key' y ≤ key' y') := by
  constructor
  · intro h x hx x' hx' y hy y' hy' hxy hxy'
    have hys : ∀ z ∈ sort key' ys, z ∈ ys := fun z hz => (perm_sort ys).mem_iff.mp hz
    obtain ⟨w, hw, w', hw', hxw, hxw', horder⟩ := order_of_forall₂ h (pairwise_sort xs)
      (pairwise_sort ys) ((perm_sort xs).mem_iff.mpr hx) ((perm_sort xs).mem_iff.mpr hx')
    obtain rfl := hright x hx y hy w (hys w hw) hxy hxw
    obtain rfl := hright x' hx' y' hy' w' (hys w' hw') hxy' hxw'
    obtain ⟨rfl, rfl⟩ | ⟨hp, hq⟩ | ⟨hp, hq⟩ := horder
    · exact iff_of_true le_rfl le_rfl
    · exact iff_of_true hp hq
    · constructor
      · intro hle
        obtain rfl := hkey x hx x' hx' (le_antisymm hle hp)
        rw [hright x hx y hy y' hy' hxy hxy']
      · intro hle
        obtain rfl := hkey' y hy y' hy' (le_antisymm hle hq)
        rw [hleft x hx x' hx' y hy hxy hxy']
  · intro h
    obtain ⟨zs, hzs, hperm⟩ := hsame
    rw [← sort_eq_of_perm hperm fun y hy y' hy' =>
      hkey' y (hperm.mem_iff.mp hy) y' (hperm.mem_iff.mp hy')]
    refine (forall₂_insertionSort (forall₂_mem hzs) ?_).imp fun _ _ hxy => hxy.1
    rintro x x' y y' ⟨hxy, hx, hy⟩ ⟨hxy', hx', hy'⟩
    exact h x hx x' hx' y (hperm.mem_iff.mp hy) y' (hperm.mem_iff.mp hy') hxy hxy'

end Orders

/-! ## Each entry once -/

section Once

variable [LinearOrder κ] {x : κ}

/-- Sorted, and without repetitions. -/
def sort_dedup (xs : List κ) : List κ :=
  (sort id xs).destutter (· ≠ ·)

theorem mem_destutter_ne (xs : List κ) : x ∈ xs.destutter (· ≠ ·) ↔ x ∈ xs := by
  have hfrom : ∀ (xs : List κ) (a : κ), x ∈ xs.destutter' (· ≠ ·) a ↔ x = a ∨ x ∈ xs := by
    intro xs
    induction xs with
    | nil => intro a; simp
    | cons b xs ih =>
      intro a
      rw [List.destutter'_cons]
      by_cases hab : a ≠ b
      · rw [if_pos hab, mem_cons, ih, mem_cons]
      · rw [if_neg hab, ih, mem_cons, ← not_not.mp hab]
        tauto
  cases xs with
  | nil => rfl
  | cons a xs =>
    rw [destutter_cons', hfrom, mem_cons]

theorem mem_sort_dedup (xs : List κ) : x ∈ sort_dedup xs ↔ x ∈ xs := by
  rw [sort_dedup, mem_destutter_ne, (perm_sort xs).mem_iff]

end Once

end Sorting
