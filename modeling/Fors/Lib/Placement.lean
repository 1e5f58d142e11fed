import Mathlib.Data.Nat.Bitwise
import Mathlib.Order.Lattice

/-!
# Placing blocks at aligned offsets

A block has a size and an alignment. Blocks are placed one after another, each at the first offset
past the one before that is a multiple of its alignment. Counting with a largest number that sums
stick to gives the same offsets, cut at that number.

Principal results: `place_disjoint` and `min_up`.
-/

namespace Placement

open List

/-! ## Rounding up -/

/-- The least multiple of `a` that is at least `n`. -/
def up (n a : Nat) : Nat :=
  (n + (a - 1)) / a * a

variable {n m a M : Nat}

theorem dvd_up (n a : Nat) : a ∣ up n a :=
  Nat.dvd_mul_left a _

theorem le_up (ha : 0 < a) : n ≤ up n a := by
  unfold up
  have hmod := Nat.mod_lt (n + (a - 1)) ha
  have hdiv := Nat.div_add_mod' (n + (a - 1)) a
  omega

theorem up_lt (ha : 0 < a) : up n a < n + a := by
  unfold up
  have hdiv := Nat.div_mul_le_self (n + (a - 1)) a
  omega

theorem up_le (hm : a ∣ m) (h : n ≤ m) : up n a ≤ m := by
  obtain ⟨k, rfl⟩ := hm
  obtain rfl | ha := Nat.eq_zero_or_pos a
  · simp [up]
  · unfold up
    rw [Nat.mul_comm a k]
    apply Nat.mul_le_mul_right
    apply Nat.le_of_lt_succ
    rw [Nat.div_lt_iff_lt_mul ha, Nat.succ_mul, Nat.mul_comm k a]
    omega

theorem up_eq (ha : 0 < a) (h : a ∣ n) : up n a = n :=
  Nat.le_antisymm (up_le h (Nat.le_refl n)) (le_up ha)

theorem up_mono (ha : 0 < a) (h : n ≤ m) : up n a ≤ up m a :=
  up_le (dvd_up m a) (Nat.le_trans h (le_up ha))

/-- Clearing the low bits rounds down. -/
theorem and_compl_eq {s w k : Nat} (hs : s < 2 ^ w) :
    s &&& (2 ^ w - 1 - (2 ^ k - 1)) = s / 2 ^ k * 2 ^ k := by
  apply Nat.eq_of_testBit_eq
  intro i
  rw [Nat.testBit_and, Nat.testBit_mul_two_pow, Nat.testBit_div_two_pow]
  obtain hi | hi := Nat.lt_or_ge i w
  · obtain hk | hk := Nat.lt_or_ge w k
    · have hzero : 2 ^ w - 1 - (2 ^ k - 1) = 0 := by
        have := Nat.pow_le_pow_right Nat.two_pos (Nat.le_of_lt hk)
        omega
      have hik : ¬ k ≤ i := by omega
      simp [hzero, hik]
    · have hpos := Nat.two_pow_pos k
      have hlt : 2 ^ k - 1 < 2 ^ w := by
        have := Nat.pow_le_pow_right Nat.two_pos hk
        omega
      rw [Nat.sub_sub, Nat.add_comm 1, Nat.testBit_two_pow_sub_succ hlt,
        Nat.testBit_two_pow_sub_one]
      by_cases hik : k ≤ i
      · have hnot : ¬ i < k := by omega
        simp [hi, hik, hnot]
      · have hlt : i < k := by omega
        simp [hik, hlt]
  · have hzero : s.testBit i = false :=
      Nat.testBit_lt_two_pow (Nat.lt_of_lt_of_le hs (Nat.pow_le_pow_right Nat.two_pos hi))
    by_cases hik : k ≤ i
    · simp [hzero, hik]
    · simp [hzero, hik]

/-! ## Sums that stick -/

theorem min_add (m n M : Nat) : min (min m M + min n M) M = min (m + n) M := by
  omega

theorem min_mul (n k M : Nat) : min (min n M * k) M = min (n * k) M := by
  obtain rfl | hk := Nat.eq_zero_or_pos k
  · simp
  obtain hn | hn := Nat.le_total n M
  · rw [Nat.min_eq_left hn]
  · have hM : M ≤ M * k := Nat.le_mul_of_pos_right M hk
    have hmul : M * k ≤ n * k := Nat.mul_le_mul_right k hn
    rw [Nat.min_eq_right hn]
    omega

/-- Rounding up below a limit that sums stick to. -/
theorem min_up (ha : 0 < a) (hM : a ∣ M + 1) :
    (if min n M + (a - 1) ≤ M then up (min n M) a else M) = min (up n a) M := by
  have hle : n ≤ up n a := le_up ha
  split
  · rename_i h
    obtain hn | hn := Nat.lt_or_ge M n
    · obtain rfl : a = 1 := by omega
      rw [Nat.min_eq_right (Nat.le_of_lt hn), up_eq Nat.one_pos (Nat.one_dvd M)]
      omega
    · have hup : up n a < n + a := up_lt ha
      rw [Nat.min_eq_left hn] at h ⊢
      omega
  · rename_i h
    have hM' : M + 1 ≤ up (min n M) a := by
      have hdiv : (M + 1) / a ≤ (min n M + (a - 1)) / a := Nat.div_le_div_right (by omega)
      calc M + 1 = (M + 1) / a * a := (Nat.div_mul_cancel hM).symm
        _ ≤ up (min n M) a := Nat.mul_le_mul_right a hdiv
    have hmono : up (min n M) a ≤ up n a := up_mono ha (Nat.min_le_left n M)
    omega

/-! ## Placement -/

structure Block where
  size : Nat
  align : Nat
  deriving DecidableEq

/-- The offsets of the blocks, and the end of the last one. -/
def place : Nat → List Block → List Nat × Nat
  | off, [] => ([], off)
  | off, b :: bs =>
    let (offsets, stop) := place (up off b.align + b.size) bs
    (up off b.align :: offsets, stop)

/-- The largest alignment, from `a` on. -/
def max_align (a : Nat) (bs : List Block) : Nat :=
  bs.foldl (fun a b => max a b.align) a

variable {off : Nat} {b b' : Block} {bs : List Block} {i j o o' : Nat}

theorem place_cons (off : Nat) (b : Block) (bs : List Block) :
    place off (b :: bs) = (up off b.align :: (place (up off b.align + b.size) bs).1,
      (place (up off b.align + b.size) bs).2) :=
  rfl

theorem length_place (off : Nat) (bs : List Block) : (place off bs).1.length = bs.length := by
  induction bs generalizing off with
  | nil => rfl
  | cons b bs ih => rw [place_cons, length_cons, length_cons, ih]

theorem place_aligned (hb : bs[i]? = some b) (ho : (place off bs).1[i]? = some o) :
    b.align ∣ o := by
  induction bs generalizing off i with
  | nil => exact nomatch hb
  | cons b' bs ih =>
    rw [place_cons] at ho
    cases i with
    | zero =>
      obtain rfl := Option.some.inj hb
      obtain rfl := Option.some.inj ho
      exact dvd_up off b'.align
    | succ i => exact ih hb ho

theorem le_place (hpos : ∀ b ∈ bs, 0 < b.align) : off ≤ (place off bs).2 := by
  induction bs generalizing off with
  | nil => exact Nat.le_refl off
  | cons b bs ih =>
    rw [forall_mem_cons] at hpos
    have hup : off ≤ up off b.align := le_up hpos.1
    have hrest : up off b.align + b.size ≤ (place (up off b.align + b.size) bs).2 := ih hpos.2
    rw [place_cons]
    omega

theorem place_inside (hpos : ∀ b ∈ bs, 0 < b.align) (hb : bs[i]? = some b)
    (ho : (place off bs).1[i]? = some o) : off ≤ o ∧ o + b.size ≤ (place off bs).2 := by
  induction bs generalizing off i with
  | nil => exact nomatch hb
  | cons b' bs ih =>
    rw [forall_mem_cons] at hpos
    rw [place_cons] at ho ⊢
    have hup : off ≤ up off b'.align := le_up hpos.1
    cases i with
    | zero =>
      cases hb
      cases ho
      exact ⟨hup, le_place hpos.2⟩
    | succ i =>
      obtain ⟨hle, hstop⟩ := ih hpos.2 hb ho
      exact ⟨by omega, hstop⟩

/-- A block ends before the next ones start. -/
theorem place_disjoint (hpos : ∀ b ∈ bs, 0 < b.align) (hij : i < j) (hb : bs[i]? = some b)
    (ho : (place off bs).1[i]? = some o) (hj : j < bs.length)
    (ho' : (place off bs).1[j]? = some o') : o + b.size ≤ o' := by
  induction bs generalizing off i j with
  | nil => exact nomatch hb
  | cons b' bs ih =>
    rw [forall_mem_cons] at hpos
    rw [place_cons] at ho ho'
    obtain ⟨j, rfl⟩ := Nat.exists_eq_add_of_le' (Nat.zero_lt_of_lt hij)
    have hj : j < bs.length := Nat.lt_of_succ_lt_succ hj
    cases i with
    | zero =>
      cases hb
      cases ho
      exact (place_inside hpos.2 (getElem?_eq_getElem hj) ho').1
    | succ i => exact ih hpos.2 (Nat.lt_of_succ_lt_succ hij) hb ho hj ho'

theorem place_first (hpos : ∀ b ∈ bs, 0 < b.align) (hb : bs[0]? = some b)
    (ho : (place off bs).1[0]? = some o) : o < off + b.align := by
  cases bs with
  | nil => exact nomatch hb
  | cons b' bs =>
    obtain rfl := Option.some.inj hb
    obtain rfl := Option.some.inj ho
    exact up_lt (hpos b' mem_cons_self)

/-- Less than one alignment is left free before a block. -/
theorem place_next (hpos : ∀ b ∈ bs, 0 < b.align) (hb : bs[i]? = some b)
    (ho : (place off bs).1[i]? = some o) (hb' : bs[i + 1]? = some b')
    (ho' : (place off bs).1[i + 1]? = some o') : o' < o + b.size + b'.align := by
  induction bs generalizing off i with
  | nil => exact nomatch hb
  | cons c bs ih =>
    rw [forall_mem_cons] at hpos
    rw [place_cons] at ho ho'
    cases i with
    | zero =>
      cases hb
      cases ho
      exact place_first hpos.2 hb' ho'
    | succ i => exact ih hpos.2 hb ho hb' ho'

theorem max_align_cons (a : Nat) (b : Block) (bs : List Block) :
    max_align a (b :: bs) = max_align (max a b.align) bs :=
  rfl

theorem le_max_align (a : Nat) (bs : List Block) : a ≤ max_align a bs := by
  induction bs generalizing a with
  | nil => exact Nat.le_refl a
  | cons b bs ih => exact Nat.le_trans (Nat.le_max_left a b.align) (ih _)

theorem align_le_max_align (hb : b ∈ bs) (a : Nat) : b.align ≤ max_align a bs := by
  induction bs generalizing a with
  | nil => exact absurd hb not_mem_nil
  | cons b' bs ih =>
    obtain rfl | hb := mem_cons.mp hb
    · exact Nat.le_trans (Nat.le_max_right a b.align) (le_max_align _ bs)
    · exact ih hb _

/-- The largest alignment is one of them. -/
theorem max_align_induction {P : Nat → Prop} (ha : P a) (h : ∀ b ∈ bs, P b.align) :
    P (max_align a bs) := by
  induction bs generalizing a with
  | nil => exact ha
  | cons b bs ih =>
    rw [forall_mem_cons] at h
    rw [max_align_cons]
    apply ih _ h.2
    obtain hle | hle := Nat.le_total a b.align
    · rw [Nat.max_eq_right hle]
      exact h.1
    · rw [Nat.max_eq_left hle]
      exact ha

end Placement
