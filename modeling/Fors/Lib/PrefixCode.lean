import Mathlib.Data.List.Lex
import Mathlib.Order.Lattice

/-!
# Prefix codes

A writer cuts when the words of a value can be told from whatever follows them: two writings that
agree as far as they go are of one value. Writers compose by cutting one part after another.

Principal results: `Cuts.counted` and `split_inj`.
-/

namespace PrefixCode

open List

variable {W α : Type}

/-- Among the values with `p`, no writing is the start of another value's. -/
def Cuts (p : α → Prop) (write : α → List W) : Prop :=
  ∀ ⦃a b : α⦄ ⦃s t : List W⦄, p a → p b → write a ++ s = write b ++ t → a = b ∧ s = t

/-- Every value is told from every other. -/
abbrev Cut (write : α → List W) : Prop :=
  Cuts (fun _ => True) write

variable {p : α → Prop} {write : α → List W}

theorem Cuts.inj (h : Cuts p write) {a b : α} (ha : p a) (hb : p b) (hab : write a = write b) :
    a = b :=
  (h ha hb (congrArg (· ++ []) hab)).1

theorem Cuts.mono {q : α → Prop} (h : Cuts p write) (hqp : ∀ a, q a → p a) : Cuts q write :=
  fun _ _ _ _ ha hb hab => h (hqp _ ha) (hqp _ hb) hab

/-- Words of one width that determine the value. -/
theorem cuts_of_width {n : Nat} (hlen : ∀ a, p a → (write a).length = n)
    (hinj : ∀ a b, p a → p b → write a = write b → a = b) : Cuts p write := by
  intro a b s t ha hb h
  obtain ⟨hab, hst⟩ := append_inj h ((hlen a ha).trans (hlen b hb).symm)
  exact ⟨hinj a b ha hb hab, hst⟩

/-- Items that are written one after another, when it is known how many there are. -/
theorem Cuts.many (h : Cuts p write) {as bs : List α} {s t : List W} (ha : ∀ a ∈ as, p a)
    (hb : ∀ b ∈ bs, p b) (hlen : as.length = bs.length)
    (heq : as.flatMap write ++ s = bs.flatMap write ++ t) : as = bs ∧ s = t := by
  induction as generalizing bs with
  | nil =>
    obtain rfl := length_eq_zero_iff.mp hlen.symm
    exact ⟨rfl, heq⟩
  | cons a as ih =>
    obtain ⟨b, bs, rfl⟩ := exists_cons_of_length_eq_add_one hlen.symm
    obtain ⟨ha, has⟩ := forall_mem_cons.mp ha
    obtain ⟨hb, hbs⟩ := forall_mem_cons.mp hb
    rw [flatMap_cons, flatMap_cons, append_assoc, append_assoc] at heq
    obtain ⟨rfl, hrest⟩ := h ha hb heq
    obtain ⟨rfl, hst⟩ := ih has hbs (Nat.succ.inj hlen) hrest
    exact ⟨rfl, hst⟩

/-- Items with their number in front. -/
theorem Cuts.counted {count : Nat → List W} (hcount : Cut count) (h : Cuts p write) :
    Cuts (fun as : List α => ∀ a ∈ as, p a) fun as => count as.length ++ as.flatMap write := by
  intro as bs s t ha hb heq
  rw [append_assoc, append_assoc] at heq
  obtain ⟨hlen, heq⟩ := hcount trivial trivial heq
  exact h.many ha hb hlen heq

/-- The first place of a word cuts. -/
theorem split_inj {d : W} {x y s t : List W} (hx : d ∉ x) (hy : d ∉ y)
    (h : x ++ d :: s = y ++ d :: t) : x = y ∧ s = t := by
  induction x generalizing y with
  | nil =>
    cases y with
    | nil => exact ⟨rfl, (cons.inj h).2⟩
    | cons b y => exact absurd ((cons.inj h).1 ▸ mem_cons_self) hy
  | cons a x ih =>
    cases y with
    | nil => exact absurd ((cons.inj h).1 ▸ mem_cons_self) hx
    | cons b y =>
      obtain ⟨rfl, hrest⟩ := cons.inj h
      obtain ⟨rfl, hst⟩ := ih (fun hd => hx (mem_cons_of_mem _ hd))
        (fun hd => hy (mem_cons_of_mem _ hd)) hrest
      exact ⟨rfl, hst⟩

/-- Words that end with one that stands nowhere in them. -/
theorem cuts_ended {d : W} (hinj : ∀ a b, p a → p b → write a = write b → a = b)
    (hd : ∀ a, p a → d ∉ write a) : Cuts p fun a => write a ++ [d] := by
  intro a b s t ha hb h
  rw [append_assoc, append_assoc, singleton_append, singleton_append] at h
  obtain ⟨hab, hst⟩ := split_inj (hd a ha) (hd b hb) h
  exact ⟨hinj a b ha hb hab, hst⟩

/-- Items that are written as some words determine their list, even without its length. -/
theorem Cuts.flatMap_inj (h : Cuts p write) (hne : ∀ a, p a → write a ≠ []) {as bs : List α}
    (ha : ∀ a ∈ as, p a) (hb : ∀ b ∈ bs, p b) (heq : as.flatMap write = bs.flatMap write) :
    as = bs := by
  induction as generalizing bs with
  | nil =>
    cases bs with
    | nil => rfl
    | cons b bs =>
      have hnil := (append_eq_nil_iff.mp ((flatMap_cons ..).symm.trans heq.symm)).1
      exact absurd hnil (hne b (hb b mem_cons_self))
  | cons a as ih =>
    cases bs with
    | nil =>
      have hnil := (append_eq_nil_iff.mp ((flatMap_cons ..).symm.trans heq)).1
      exact absurd hnil (hne a (ha a mem_cons_self))
    | cons b bs =>
      obtain ⟨ha, has⟩ := forall_mem_cons.mp ha
      obtain ⟨hb, hbs⟩ := forall_mem_cons.mp hb
      rw [flatMap_cons, flatMap_cons] at heq
      obtain ⟨rfl, hrest⟩ := h ha hb heq
      rw [ih has hbs hrest]

/-! ## Lexicographic order -/

section Order

variable [LinearOrder W] {u v : List W}

theorem append_left_lt_iff (u x y : List W) : u ++ x < u ++ y ↔ x < y := by
  induction u with
  | nil => exact Iff.rfl
  | cons a u ih =>
    rw [cons_append, cons_append, cons_lt_cons_iff]
    simp [ih]

theorem append_left_le_iff (u x y : List W) : u ++ x ≤ u ++ y ↔ x ≤ y := by
  rw [← not_lt, append_left_lt_iff, not_lt]

/-- Words that are told apart are ordered before what follows them is looked at. -/
theorem append_lt_append_iff (h : ∀ s t, u ++ s ≠ v ++ t) (x y : List W) :
    u ++ x < v ++ y ↔ u < v := by
  induction u generalizing v with
  | nil => exact absurd (append_nil v).symm (h v [])
  | cons a u ih =>
    cases v with
    | nil => exact absurd (append_nil (a :: u)) (h [] (a :: u))
    | cons b v =>
      rw [cons_append, cons_append, cons_lt_cons_iff, cons_lt_cons_iff]
      refine or_congr_right (and_congr_right fun hab => ih fun s t hst => h s t ?_)
      rw [cons_append, cons_append, hab, hst]

theorem append_le_append_iff (h : ∀ s t, u ++ s ≠ v ++ t) (x y : List W) :
    u ++ x ≤ v ++ y ↔ u ≤ v := by
  rw [← not_lt, append_lt_append_iff (fun s t hst => h t s hst.symm), not_lt]

end Order

end PrefixCode
