import Mathlib.Data.List.Basic
import Mathlib.Order.Basic

/-!
# Optimal string alignment

The least number of insertions, deletions, substitutions and swaps of neighbours that align two
lists, no part of which is edited twice, by its recursion on the prefixes.

Principal results: `take_eq_of_osa_eq_zero` and `length_le_osa`.
-/

namespace Alignment

variable {α : Type*} [DecidableEq α]

/-- The distance of the first `i` entries of one list from the first `j` of another. -/
def osa (a b : List α) : Nat → Nat → Nat
  | 0, j => j
  | i + 1, 0 => i + 1
  | i + 1, j + 1 =>
    let d := min (min (osa a b (i + 1) j + 1) (osa a b i (j + 1) + 1))
      (osa a b i j + if a[i]? = b[j]? then 0 else 1)
    if 0 < i ∧ 0 < j ∧ a[i]? = b[j - 1]? ∧ a[i - 1]? = b[j]? then
      min d (osa a b (i - 1) (j - 1) + 1)
    else d
termination_by i j => i + j

/-- The distance of two lists. -/
def distance (a b : List α) : Nat :=
  osa a b a.length b.length

variable {a b : List α} {i j : Nat}

@[simp] theorem osa_zero_left (a b : List α) (j : Nat) : osa a b 0 j = j := by
  rw [osa]

@[simp] theorem osa_zero_right (a b : List α) (i : Nat) : osa a b i 0 = i := by
  cases i with
  | zero => rw [osa]
  | succ i => rw [osa]

/-- The entries that differ in number have to be inserted or deleted. -/
theorem length_le_osa (a b : List α) (i j : Nat) :
    i ≤ j + osa a b i j ∧ j ≤ i + osa a b i j := by
  fun_induction osa a b i j with
  | case1 j => omega
  | case2 i => omega
  | case3 i j d _ _ _ _ _ => omega
  | case4 i j d _ _ _ _ => omega

theorem min_eq_zero {x y z : Nat} {p : Prop} [Decidable p]
    (h : min (min (x + 1) (y + 1)) (z + if p then 0 else 1) = 0) : z = 0 ∧ p := by
  by_cases hp : p
  · rw [if_pos hp] at h
    exact ⟨by omega, hp⟩
  · rw [if_neg hp] at h
    omega

/-- Only equal lists have distance zero. -/
theorem take_eq_of_osa_eq_zero (a b : List α) (i j : Nat) (h : osa a b i j = 0) :
    a.take i = b.take j := by
  fun_induction osa a b i j with
  | case1 j =>
    rw [h]
    rfl
  | case2 i => cases h
  | case3 i j d _ _ _ hdiag _ =>
    have hd : d = 0 := by omega
    obtain ⟨hzero, hsame⟩ := min_eq_zero hd
    rw [List.take_add_one, List.take_add_one, hdiag hzero, hsame]
  | case4 i j d _ _ _ hdiag =>
    obtain ⟨hzero, hsame⟩ := min_eq_zero h
    rw [List.take_add_one, List.take_add_one, hdiag hzero, hsame]

theorem length_sub_le (a b : List α) : a.length - b.length ≤ distance a b ∧
    b.length - a.length ≤ distance a b := by
  obtain ⟨ha, hb⟩ := length_le_osa a b a.length b.length
  unfold distance
  omega

theorem distance_pos (h : a ≠ b) : 0 < distance a b := by
  rw [Nat.pos_iff_ne_zero]
  intro hzero
  apply h
  have htake := take_eq_of_osa_eq_zero a b a.length b.length hzero
  rwa [List.take_length, List.take_length] at htake

end Alignment
