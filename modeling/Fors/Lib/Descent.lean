import Mathlib.Logic.Relation

/-!
# Properties found by descent

A thing has a property when it has it by itself, or when one of its parts does. A search goes
through the parts in order, stops at the first that has it, and gives up below some depth; a part
may also be missing. It is right about everything it visits as long as what it visits is there, and
what it gives up on does not have the property.

Where only the things without anything inside count, a search that gives up below some depth finds
exactly what is above it.

Principal results: `has_iff` and `finds_iff`.
-/

namespace Descent

variable {α : Type}

structure Parts (α : Type) where
  own : α → Prop
  parts : α → List (Option α)

variable {D : Parts α}

inductive Has (D : Parts α) : α → Prop
  | own {x : α} (h : D.own x) : Has D x
  | part {x c : α} (hc : some c ∈ D.parts x) (h : Has D c) : Has D x

variable {x : α}

theorem has_iff : Has D x ↔ D.own x ∨ ∃ c, some c ∈ D.parts x ∧ Has D c := by
  constructor
  · intro h
    cases h with
    | own h => exact .inl h
    | part hc h => exact .inr ⟨_, hc, h⟩
  · rintro (h | ⟨c, hc, h⟩)
    · exact .own h
    · exact .part hc h

/-- Every part is there that is visited: the first, and the next when the one before has not the
property. `K` holds of each. -/
def Visits (D : Parts α) (K : α → Prop) : List (Option α) → Prop
  | [] => True
  | o :: os => ∃ c, o = some c ∧ K c ∧ (¬ Has D c → Visits D K os)

/-- A search that gives up after `n` levels is right about `x`. -/
def Within (D : Parts α) : Nat → α → Prop
  | 0, x => ¬ Has D x
  | n + 1, x => D.own x ∨ Visits D (Within D n) (D.parts x)

def IsPart (D : Parts α) (x c : α) : Prop :=
  some c ∈ D.parts x

/-- Nothing is a part of itself. -/
def Acyclic (D : Parts α) : Prop :=
  ∀ x, ¬ Relation.TransGen (IsPart D) x x

/-- Where parts are smaller, nothing is a part of itself. -/
theorem acyclic_of_rank (rank : α → Nat) (h : ∀ x c, IsPart D x c → rank c < rank x) :
    Acyclic D := by
  have hlt : ∀ x c, Relation.TransGen (IsPart D) x c → rank c < rank x := by
    intro x c hxc
    induction hxc with
    | single hc => exact h _ _ hc
    | tail _ hc ih => exact Nat.lt_trans (h _ _ hc) ih
  exact fun x hx => Nat.lt_irrefl _ (hlt x x hx)

/-- The things on a path: each has the next below it. -/
def Above (D : Parts α) (stack : List α) (x : α) : Prop :=
  ∀ y ∈ stack, Relation.TransGen (IsPart D) y x

theorem Above.nil (x : α) : Above D [] x :=
  fun _ hy => absurd hy List.not_mem_nil

theorem Above.not_mem {stack : List α} (hD : Acyclic D) (h : Above D stack x) : x ∉ stack :=
  fun hx => hD x (h x hx)

theorem Above.push {stack : List α} {c : α} (h : Above D stack x) (hc : IsPart D x c) :
    Above D (x :: stack) c := by
  intro y hy
  rw [List.mem_cons] at hy
  obtain rfl | hy := hy
  · exact .single hc
  · exact (h y hy).tail hc

/-! ## Leaves -/

section Leaves

variable (inner : α → Option (List α))

/-- `y` lies `n` levels inside `x` and has nothing inside of it. -/
inductive Leaf : Nat → α → α → Prop
  | here {x : α} (h : inner x = none) : Leaf 0 x x
  | inside {n : Nat} {x c y : α} {cs : List α} (h : inner x = some cs) (hc : c ∈ cs)
      (hy : Leaf n c y) : Leaf (n + 1) x y

/-- Whether a leaf less than `left` levels inside has the property. -/
def finds (p : α → Bool) : Nat → α → Bool
  | 0, _ => false
  | left + 1, x =>
    match inner x with
    | none => p x
    | some cs => cs.any (finds p left)

variable {inner} {p : α → Bool}

variable {x : α}

theorem finds_leaf (h : inner x = none) (left : Nat) : finds inner p (left + 1) x = p x := by
  rw [finds, h]

theorem finds_inside {cs : List α} (h : inner x = some cs) (left : Nat) :
    finds inner p (left + 1) x = cs.any (finds inner p left) := by
  rw [finds, h]

theorem Leaf.empty {n : Nat} {y : α} (h : Leaf inner n x y) : inner y = none := by
  induction h with
  | here h => exact h
  | inside _ _ _ ih => exact ih

theorem finds_iff {left : Nat} :
    finds inner p left x = true ↔ ∃ n y, n < left ∧ Leaf inner n x y ∧ p y = true := by
  induction left generalizing x with
  | zero => exact ⟨fun h => (nomatch h), fun ⟨n, _, hn, _⟩ => absurd hn (Nat.not_lt_zero n)⟩
  | succ left ih =>
    unfold finds
    cases hx : inner x with
    | none =>
      constructor
      · exact fun h => ⟨0, x, Nat.succ_pos left, .here hx, h⟩
      · rintro ⟨n, y, -, hy, hp⟩
        cases hy with
        | here _ => exact hp
        | inside h _ _ => exact nomatch hx.symm.trans h
    | some cs =>
      dsimp only
      rw [List.any_eq_true]
      constructor
      · rintro ⟨c, hc, hfinds⟩
        obtain ⟨n, y, hn, hy, hp⟩ := ih.mp hfinds
        exact ⟨n + 1, y, Nat.succ_lt_succ hn, .inside hx hc hy, hp⟩
      · rintro ⟨n, y, hn, hy, hp⟩
        cases hy with
        | here h => exact nomatch hx.symm.trans h
        | inside h hc hy =>
          obtain rfl := Option.some.inj (hx.symm.trans h)
          exact ⟨_, hc, ih.mpr ⟨_, y, Nat.lt_of_succ_lt_succ hn, hy, hp⟩⟩

end Leaves

end Descent
