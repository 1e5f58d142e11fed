import Mathlib.Data.List.TakeWhile

/-!
# Quoted text

The body of a literal stands for a text: a mark starts an escape, which stands for values of its
own, and everything else stands for itself. While no mark comes before the end of the first word
of a body, the body and its text have the same first word.

Principal result: `first_word_denoted`.
-/

namespace Quoting

open List

variable {α : Type*}

/-! ## Words -/

section Words

variable (space : α → Bool)

def first_word (xs : List α) : List α :=
  (xs.dropWhile space).takeWhile fun x => !space x

/-- What is before the end of the first word. -/
def opening (xs : List α) : List α :=
  xs.takeWhile space ++ first_word space xs

variable {space}

theorem first_word_append {blanks word rest : List α} (hblanks : ∀ x ∈ blanks, space x)
    (hword : ∀ x ∈ word, space x = false)
    (hrest : rest = [] ∨ word ≠ [] ∧ ∃ x tail, rest = x :: tail ∧ space x) :
    first_word space (blanks ++ (word ++ rest)) = word := by
  have hdrop : (word ++ rest).dropWhile space = word ++ rest := by
    cases word with
    | nil =>
      have : rest = [] := hrest.resolve_right fun h => h.1 rfl
      rw [this]
      rfl
    | cons x word =>
      rw [cons_append, dropWhile_cons_of_neg]
      rw [hword x mem_cons_self]
      exact Bool.false_ne_true
  have hstop : rest.takeWhile (fun x => !space x) = [] := by
    rcases hrest with rfl | ⟨-, x, tail, rfl, hx⟩
    · rfl
    · exact takeWhile_cons_of_neg (by rw [hx]; exact Bool.false_ne_true)
  rw [first_word, dropWhile_append_of_pos hblanks, hdrop,
    takeWhile_append_of_pos (fun x hx => by rw [hword x hx]; rfl), hstop, append_nil]

variable (space) in
/-- Behind the first word there is nothing, or a space. -/
theorem exists_behind (xs : List α) :
    ∃ rest, xs = opening space xs ++ rest ∧
      (rest = [] ∨ first_word space xs ≠ [] ∧ ∃ x tail, rest = x :: tail ∧ space x) := by
  refine ⟨(xs.dropWhile space).dropWhile fun x => !space x, ?_, ?_⟩
  · rw [opening, first_word, append_assoc, takeWhile_append_dropWhile,
      takeWhile_append_dropWhile]
  · cases hdrop : xs.dropWhile space with
    | nil => exact .inl rfl
    | cons y ys =>
      have hy : space y = false := by
        have := head_dropWhile_not space (by rw [hdrop]; exact cons_ne_nil _ _)
        simpa only [hdrop, head_cons] using this
      cases hrest : (y :: ys).dropWhile fun x => !space x with
      | nil => exact .inl rfl
      | cons x tail =>
        have hx := head_dropWhile_not (fun x => !space x)
          (by rw [hrest]; exact cons_ne_nil _ _)
        refine .inr ⟨?_, x, tail, rfl, by simpa [hrest] using hx⟩
        rw [first_word, hdrop, takeWhile_cons_of_pos (by rw [hy]; rfl)]
        exact cons_ne_nil _ _

end Words

/-! ## Escapes -/

section Escapes

variable [DecidableEq α] (mark : α)
/- What is behind a mark: what the escape stands for, and how much of it the escape is. -/
variable (escape : List α → List α × Nat)

def unquote : Nat → List α → List α
  | _, [] => []
  | 0, _ :: _ => []
  | fuel + 1, x :: xs =>
    if x = mark then
      let r := escape xs
      r.1 ++ unquote fuel (xs.drop r.2)
    else x :: unquote fuel xs

/-- The text a body stands for. -/
def denoted (xs : List α) : List α :=
  unquote mark escape xs.length xs

variable {mark escape}

theorem unquote_append {xs : List α} (h : mark ∉ xs) (fuel : Nat) (rest : List α) :
    unquote mark escape (xs.length + fuel) (xs ++ rest) = xs ++ unquote mark escape fuel rest := by
  induction xs with
  | nil => rw [length_nil, Nat.zero_add, nil_append, nil_append]
  | cons x xs ih =>
    have hx : x ≠ mark := fun he => h (he ▸ mem_cons_self)
    rw [length_cons, Nat.succ_add, cons_append, unquote, if_neg hx,
      ih fun hmem => h (mem_cons_of_mem x hmem), cons_append]

/-- The first word of a text stands in its body as it is, if no mark comes before its end. -/
theorem first_word_denoted {space : α → Bool} (hmark : space mark = false) {xs : List α}
    (h : mark ∉ opening space xs) :
    first_word space (denoted mark escape xs) = first_word space xs := by
  obtain ⟨rest, hxs, hrest⟩ := exists_behind space xs
  have htext : denoted mark escape xs =
      opening space xs ++ unquote mark escape rest.length rest := by
    have := @unquote_append α _ mark escape _ h rest.length rest
    rwa [← length_append, ← hxs] at this
  rw [htext, opening, append_assoc]
  refine first_word_append (fun x hx => mem_takeWhile_imp hx)
    (fun x hx => by simpa using mem_takeWhile_imp hx) ?_
  refine hrest.imp (fun hnil => by rw [hnil]; rfl) fun ⟨hne, x, tail, hcons, hx⟩ => ⟨hne, x, ?_⟩
  have hxm : x ≠ mark := fun he => by rw [he, hmark] at hx; exact Bool.false_ne_true hx
  refine ⟨unquote mark escape tail.length tail, ?_, hx⟩
  rw [hcons, length_cons, unquote, if_neg hxm]

end Escapes

end Quoting
