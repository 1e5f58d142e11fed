import Mathlib.Algebra.Group.Nat.Defs
import Mathlib.Data.Nat.Find
import Mathlib.Logic.Function.Basic

/-!
# Linear probing

A table of `n` slots in which an item lies at its home slot or after it, with no empty slot on the
way. A probe that starts at an item's home meets it before the first empty slot, and an item put
into the first empty slot keeps the table so.

Principal results: `Table.put` and `Table.met`.
-/

namespace Probing

variable {α : Type} {n : Nat} {home : α → Nat} {slots : Nat → Option α}

/-- The `d` slots from `i` on, around the end, are taken. -/
def Taken (n : Nat) (slots : Nat → Option α) (i d : Nat) : Prop :=
  ∀ j < d, slots ((i + j) % n) ≠ none

/-- The probe from `i` first meets an empty slot after `d` steps. -/
structure FirstEmpty (n : Nat) (slots : Nat → Option α) (i d : Nat) : Prop where
  lt : d < n
  empty : slots ((i + d) % n) = none
  taken : Taken n slots i d

/-- Every item is reached from its home, and some slot is empty. -/
structure Table (n : Nat) (home : α → Nat) (slots : Nat → Option α) : Prop where
  reach : ∀ i < n, ∀ a, slots i = some a →
    ∃ d < n, (home a + d) % n = i ∧ Taken n slots (home a) d
  room : ∃ i < n, slots i = none

theorem exists_steps {i : Nat} (hi : i < n) (start : Nat) : ∃ d < n, (start + d) % n = i := by
  have hn : 0 < n := by omega
  have hr : start % n < n := Nat.mod_lt _ hn
  by_cases h : start % n ≤ i
  · refine ⟨i - start % n, by omega, ?_⟩
    rw [Nat.add_mod, Nat.mod_eq_of_lt (show i - start % n < n by omega), Nat.mod_eq_of_lt (by omega)]
    omega
  · refine ⟨i + n - start % n, by omega, ?_⟩
    rw [Nat.add_mod, Nat.mod_eq_of_lt (show i + n - start % n < n by omega),
      show start % n + (i + n - start % n) = i + n by omega, Nat.add_mod_right,
      Nat.mod_eq_of_lt hi]

theorem exists_firstEmpty (hroom : ∃ i < n, slots i = none) (start : Nat) :
    ∃ d, FirstEmpty n slots start d := by
  classical
  obtain ⟨i, hi, hempty⟩ := hroom
  obtain ⟨d, hd, rfl⟩ := exists_steps hi start
  have hex : ∃ d, slots ((start + d) % n) = none := ⟨d, hempty⟩
  refine ⟨Nat.find hex, ?_, Nat.find_spec hex, ?_⟩
  · exact Nat.lt_of_le_of_lt (Nat.find_min' hex hempty) hd
  · intro j hj
    exact Nat.find_min hex hj

/-- An item is met before the first empty slot of a probe from its home. -/
theorem Table.met (h : Table n home slots) {i : Nat} (hi : i < n) {a : α}
    (ha : slots i = some a) {d : Nat} (hd : FirstEmpty n slots (home a) d) :
    ∃ j < d, slots ((home a + j) % n) = some a := by
  obtain ⟨j, -, hji, htaken⟩ := h.reach i hi a ha
  refine ⟨j, ?_, by rw [hji, ha]⟩
  by_contra hlt
  obtain hlt | heq := Nat.lt_or_eq_of_le (Nat.le_of_not_lt hlt)
  · exact htaken d hlt hd.empty
  · have := hd.empty
    rw [heq, hji, ha] at this
    exact nomatch this

/-- Filling the first empty slot from an item's home, while another stays empty. -/
theorem Table.put (h : Table n home slots) {a : α} {d : Nat} (hd : FirstEmpty n slots (home a) d)
    (hroom : ∃ i < n, i ≠ (home a + d) % n ∧ slots i = none) :
    Table n home (Function.update slots ((home a + d) % n) (some a)) := by
  have hkeep : ∀ i, slots i ≠ none →
      Function.update slots ((home a + d) % n) (some a) i ≠ none := by
    intro i hi
    rw [Function.update_apply]
    split
    · exact Option.some_ne_none a
    · exact hi
  constructor
  · intro i hi b hb
    rw [Function.update_apply] at hb
    split at hb
    · rename_i heq
      cases hb
      exact ⟨d, hd.lt, heq.symm, fun j hj => hkeep _ (hd.taken j hj)⟩
    · obtain ⟨d', hd', heq, htaken⟩ := h.reach i hi b hb
      exact ⟨d', hd', heq, fun j hj => hkeep _ (htaken j hj)⟩
  · obtain ⟨i, hi, hne, hempty⟩ := hroom
    refine ⟨i, hi, ?_⟩
    rw [Function.update_of_ne hne, hempty]

theorem Table.empty (hn : 0 < n) (hempty : ∀ i, slots i = none) : Table n home slots :=
  ⟨fun i _ _ ha => (nomatch (hempty i).symm.trans ha), ⟨0, hn, hempty 0⟩⟩

end Probing
