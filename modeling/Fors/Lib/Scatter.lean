import Mathlib.Data.List.Nodup

/-!
# Scattered writes

A loop that writes `value` at `index` for each pair of a list, as a fold of `List.set`. When the
indices are distinct, every written cell holds its own value and every other cell is unchanged.

Principal result: `foldl_set_eq`.
-/

namespace Scatter

open List

variable {α β : Type*}

/-- The list after the writes. -/
def scatter (writes : List (ℕ × β)) (cells : List β) : List β :=
  writes.foldl (fun cells w => cells.set w.1 w.2) cells

@[simp] theorem scatter_cons (w : ℕ × β) (writes : List (ℕ × β)) (cells : List β) :
    scatter (w :: writes) cells = scatter writes (cells.set w.1 w.2) := rfl

/-- A fold that writes one cell for each element is a scatter. -/
theorem foldl_set_eq (index : α → ℕ) (value : α → β) (xs : List α) (cells : List β) :
    xs.foldl (fun cells x => cells.set (index x) (value x)) cells =
      scatter (xs.map fun x => (index x, value x)) cells := by
  rw [scatter, foldl_map]

@[simp] theorem length_scatter (writes : List (ℕ × β)) (cells : List β) :
    (scatter writes cells).length = cells.length := by
  induction writes generalizing cells with
  | nil => rfl
  | cons w writes ih => rw [scatter_cons, ih, length_set]

/-- A cell nobody writes is unchanged. -/
theorem getElem?_scatter_of_not_mem {writes : List (ℕ × β)} {i : ℕ}
    (hi : i ∉ writes.map Prod.fst) (cells : List β) : (scatter writes cells)[i]? = cells[i]? := by
  induction writes generalizing cells with
  | nil => rfl
  | cons w writes ih =>
    simp only [map_cons, mem_cons, not_or] at hi
    rw [scatter_cons, ih hi.2, getElem?_set_ne (Ne.symm hi.1)]

/-- A written cell holds its value. -/
theorem getElem?_scatter_of_mem {writes : List (ℕ × β)} {i : ℕ} {v : β}
    (hn : (writes.map Prod.fst).Nodup) (hw : (i, v) ∈ writes) {cells : List β}
    (hi : i < cells.length) : (scatter writes cells)[i]? = some v := by
  induction writes generalizing cells with
  | nil => simp at hw
  | cons w writes ih =>
    simp only [map_cons, nodup_cons] at hn
    rw [scatter_cons]
    rcases mem_cons.mp hw with rfl | hw
    · rw [getElem?_scatter_of_not_mem hn.1, getElem?_set_self hi]
    · exact ih hn.2 hw (by rwa [length_set])

end Scatter
