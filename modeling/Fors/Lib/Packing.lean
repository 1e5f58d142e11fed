import Mathlib.Data.BitVec

/-!
# Words packed from slots

A layout cuts a word into slots, the highest first: some hold the same bits in every word of the
layout, the others hold a value of the word's own.  Words of one layout whose values fit their slots
are equal only when the values are (`pack_inj`); the slots that are always the same tell the layout
(`pack_and_ones`, `pack_and_zeros`).
-/

namespace Packing

variable {n : ℕ}

/-- A stretch of a word. -/
inductive Slot (n : ℕ) where
  | bits (width : ℕ) (literal : BitVec n)
  | field (width : ℕ)

namespace Slot

def width : Slot n → ℕ
  | bits w _ => w
  | field w => w

end Slot

abbrev Layout (n : ℕ) := List (Slot n)

def total : Layout n → ℕ
  | [] => 0
  | s :: l => s.width + total l

/-- The word: a value for each field, in order. -/
def pack : Layout n → List (BitVec n) → BitVec n
  | [], _ => 0
  | .bits _ c :: l, vs => c <<< total l ||| pack l vs
  | .field _ :: l, v :: vs => v <<< total l ||| pack l vs
  | .field _ :: l, [] => pack l []

/-- The literals fit their slots. -/
def Sound : Layout n → Prop
  | [] => True
  | .bits w c :: l => c.toNat < 2 ^ w ∧ Sound l
  | .field _ :: l => Sound l

instance : ∀ l : Layout n, Decidable (Sound l)
  | [] => isTrue trivial
  | .bits w c :: l =>
    have := instDecidableSound l
    inferInstanceAs (Decidable (c.toNat < 2 ^ w ∧ Sound l))
  | .field _ :: l => instDecidableSound l

/-- There is a value for each field, and it fits. -/
def Fit : Layout n → List (BitVec n) → Prop
  | [], vs => vs = []
  | .bits _ _ :: l, vs => Fit l vs
  | .field w :: l, v :: vs => v.toNat < 2 ^ w ∧ Fit l vs
  | .field _ :: _, [] => False

/-- The bits that are one in every word of the layout. -/
def ones : Layout n → BitVec n
  | [] => 0
  | .bits _ c :: l => c <<< total l ||| ones l
  | .field _ :: l => ones l

/-- The bits that are zero in every word of the layout whose values fit. -/
def zeros : Layout n → BitVec n
  | [] => 0
  | .bits w c :: l => (BitVec.ofNat n (2 ^ w - 1) &&& ~~~c) <<< total l ||| zeros l
  | .field _ :: l => zeros l

/-! ## One slot over the rest -/

variable {v r : BitVec n} {w t : ℕ}

/-- A slot over a rest that stays below it adds up. -/
theorem toNat_shiftLeft_or (hv : v.toNat < 2 ^ w) (hr : r.toNat < 2 ^ t)
    (hn : w + t ≤ n) : (v <<< t ||| r).toNat = v.toNat * 2 ^ t + r.toNat := by
  have hlt : v.toNat * 2 ^ t < 2 ^ n := calc
    v.toNat * 2 ^ t < 2 ^ w * 2 ^ t := Nat.mul_lt_mul_of_pos_right hv (Nat.two_pow_pos t)
    _ = 2 ^ (w + t) := (Nat.pow_add 2 w t).symm
    _ ≤ 2 ^ n := Nat.pow_le_pow_right (by decide) hn
  rw [BitVec.toNat_or, BitVec.toNat_shiftLeft, Nat.shiftLeft_eq, Nat.mod_eq_of_lt hlt,
    ← Nat.shiftLeft_eq, ← Nat.shiftLeft_add_eq_or_of_lt hr]

theorem shiftLeft_or_lt (hv : v.toNat < 2 ^ w) (hr : r.toNat < 2 ^ t)
    (hn : w + t ≤ n) : (v <<< t ||| r).toNat < 2 ^ (w + t) := by
  rw [toNat_shiftLeft_or hv hr hn, Nat.pow_add]
  have hstep : v.toNat * 2 ^ t + 2 ^ t ≤ 2 ^ w * 2 ^ t := by
    rw [← Nat.succ_mul]
    exact Nat.mul_le_mul_right _ hv
  omega

/-- Both parts can be read back. -/
theorem shiftLeft_or_inj {v' r' : BitVec n} (hv : v.toNat < 2 ^ w)
    (hv' : v'.toNat < 2 ^ w) (hr : r.toNat < 2 ^ t) (hr' : r'.toNat < 2 ^ t) (hn : w + t ≤ n)
    (h : v <<< t ||| r = v' <<< t ||| r') : v = v' ∧ r = r' := by
  have hsum := congrArg BitVec.toNat h
  rw [toNat_shiftLeft_or hv hr hn, toNat_shiftLeft_or hv' hr' hn] at hsum
  have hquot : v.toNat = v'.toNat := by
    have hdiv := congrArg (· / 2 ^ t) hsum
    simpa only [Nat.mul_add_div (Nat.two_pow_pos t), Nat.mul_comm _ (2 ^ t),
      Nat.div_eq_of_lt hr, Nat.div_eq_of_lt hr', Nat.add_zero] using hdiv
  refine ⟨BitVec.eq_of_toNat_eq hquot, BitVec.eq_of_toNat_eq ?_⟩
  rw [hquot] at hsum
  omega

/-- A bit of a slot over a rest comes from one of the two. -/
theorem getLsbD_shiftLeft_or {i : ℕ} (hr : r.toNat < 2 ^ t) (hi : i < n) :
    (v <<< t ||| r).getLsbD i = if i < t then r.getLsbD i else v.getLsbD (i - t) := by
  rw [BitVec.getLsbD_or, BitVec.getLsbD_shiftLeft, decide_eq_true hi, Bool.true_and]
  split
  · rename_i hlow
    simp [hlow]
  · rename_i hhigh
    have hbit : r.getLsbD i = false :=
      Nat.testBit_lt_two_pow (Nat.lt_of_lt_of_le hr (Nat.pow_le_pow_right (by decide) (by omega)))
    simp [hhigh, hbit]

theorem shiftLeft_or_and {v' r' : BitVec n} (hr : r.toNat < 2 ^ t) (hr' : r'.toNat < 2 ^ t) :
    (v <<< t ||| r) &&& (v' <<< t ||| r') = (v &&& v') <<< t ||| (r &&& r') := by
  apply BitVec.eq_of_getLsbD_eq
  intro i hi
  have hand : (r &&& r').toNat < 2 ^ t := by
    rw [BitVec.toNat_and]
    exact Nat.lt_of_le_of_lt Nat.and_le_left hr
  rw [BitVec.getLsbD_and, getLsbD_shiftLeft_or hr hi, getLsbD_shiftLeft_or hr' hi,
    getLsbD_shiftLeft_or hand hi]
  split
  · rw [BitVec.getLsbD_and]
  · rw [BitVec.getLsbD_and]

/-! ## Layouts -/

variable {l : Layout n} {vs : List (BitVec n)}

theorem pack_lt (hl : Sound l) (hvs : Fit l vs)
    (hn : total l ≤ n) : (pack l vs).toNat < 2 ^ total l := by
  induction l generalizing vs with
  | nil => simp [pack, total]
  | cons s l ih =>
    cases s with
    | bits w c =>
      have hw : w + total l ≤ n := hn
      exact shiftLeft_or_lt hl.1 (ih hl.2 hvs (by omega)) hw
    | field w =>
      have hw : w + total l ≤ n := hn
      cases vs with
      | nil => exact hvs.elim
      | cons v vs => exact shiftLeft_or_lt hvs.1 (ih hl hvs.2 (by omega)) hw

theorem pack_inj {ws : List (BitVec n)} (hl : Sound l) (hvs : Fit l vs)
    (hws : Fit l ws) (hn : total l ≤ n) (h : pack l vs = pack l ws) : vs = ws := by
  induction l generalizing vs ws with
  | nil => exact Eq.trans hvs (Eq.symm hws)
  | cons s l ih =>
    cases s with
    | bits w c =>
      have hw : w + total l ≤ n := hn
      have hrest : total l ≤ n := by omega
      exact ih hl.2 hvs hws hrest (shiftLeft_or_inj hl.1 hl.1 (pack_lt hl.2 hvs hrest)
        (pack_lt hl.2 hws hrest) hw h).2
    | field w =>
      have hw : w + total l ≤ n := hn
      have hrest : total l ≤ n := by omega
      have hl : Sound l := hl
      cases vs with
      | nil => exact hvs.elim
      | cons v vs =>
        cases ws with
        | nil => exact hws.elim
        | cons v' ws =>
          obtain ⟨rfl, hpack⟩ := shiftLeft_or_inj hvs.1 hws.1 (pack_lt hl hvs.2 hrest)
            (pack_lt hl hws.2 hrest) hw h
          rw [ih hl hvs.2 hws.2 hrest hpack]

/-- The fixed ones are there whatever the values. -/
theorem pack_and_ones (l : Layout n) (vs : List (BitVec n)) : pack l vs &&& ones l = ones l := by
  have habsorb : ∀ a b c : BitVec n, b &&& c = c → (a ||| b) &&& c = c := by
    intro a b c h
    apply BitVec.eq_of_getLsbD_eq
    intro i hi
    have hbit := congrArg (·.getLsbD i) h
    simp only [BitVec.getLsbD_and, BitVec.getLsbD_or] at hbit ⊢
    cases hc : c.getLsbD i <;> simp_all
  have hboth : ∀ a b c : BitVec n, b &&& c = c → (a ||| b) &&& (a ||| c) = a ||| c := by
    intro a b c h
    apply BitVec.eq_of_getLsbD_eq
    intro i hi
    have hbit := congrArg (·.getLsbD i) h
    simp only [BitVec.getLsbD_and, BitVec.getLsbD_or] at hbit ⊢
    cases hc : c.getLsbD i <;> cases ha : a.getLsbD i <;> simp_all
  induction l generalizing vs with
  | nil => exact BitVec.and_self
  | cons s l ih =>
    cases s with
    | bits w c => exact hboth _ _ _ (ih vs)
    | field w =>
      cases vs with
      | nil => exact ih []
      | cons v vs => exact habsorb _ _ _ (ih vs)

theorem zeros_lt (hn : total l ≤ n) : (zeros l).toNat < 2 ^ total l := by
  induction l with
  | nil => simp [zeros, total]
  | cons s l ih =>
    cases s with
    | bits w c =>
      have hw : w + total l ≤ n := hn
      refine shiftLeft_or_lt ?_ (ih (by omega)) hw
      rw [BitVec.toNat_and, BitVec.toNat_ofNat]
      have hpos : 2 ^ w - 1 < 2 ^ w := Nat.sub_lt (Nat.two_pow_pos w) Nat.one_pos
      exact Nat.lt_of_le_of_lt Nat.and_le_left (Nat.lt_of_le_of_lt (Nat.mod_le _ _) hpos)
    | field w =>
      have hw : w + total l ≤ n := hn
      exact Nat.lt_of_lt_of_le (ih (by omega)) (Nat.pow_le_pow_right (by decide) (Nat.le_add_left _ _))

theorem pack_and_zeros (hl : Sound l) (hvs : Fit l vs)
    (hn : total l ≤ n) : pack l vs &&& zeros l = 0 := by
  induction l generalizing vs with
  | nil => exact BitVec.and_self
  | cons s l ih =>
    cases s with
    | bits w c =>
      have hw : w + total l ≤ n := hn
      have hrest : total l ≤ n := by omega
      have hliteral : c &&& (BitVec.ofNat n (2 ^ w - 1) &&& ~~~c) = 0 := by
        rw [BitVec.and_comm, BitVec.and_assoc, BitVec.and_comm (~~~c) c, BitVec.and_not_self]
        exact BitVec.and_zero
      show (c <<< total l ||| pack l vs) &&&
        ((BitVec.ofNat n (2 ^ w - 1) &&& ~~~c) <<< total l ||| zeros l) = 0
      rw [shiftLeft_or_and (pack_lt hl.2 hvs hrest) (zeros_lt hrest), ih hl.2 hvs hrest, hliteral]
      simp
    | field w =>
      have hw : w + total l ≤ n := hn
      have hrest : total l ≤ n := by omega
      have hl : Sound l := hl
      cases vs with
      | nil => exact hvs.elim
      | cons v vs =>
        have hzeros : zeros l = (0 : BitVec n) <<< total l ||| zeros l := by simp
        show (v <<< total l ||| pack l vs) &&& zeros l = 0
        rw [hzeros, shiftLeft_or_and (pack_lt hl hvs.2 hrest) (zeros_lt (l := l) hrest),
          ih hl hvs.2 hrest]
        simp

/-- Layouts that fix a bit differently have no word in common. -/
theorem pack_ne {l' : Layout n} {vs' : List (BitVec n)} (hl : Sound l) (hvs : Fit l vs)
    (hn : total l ≤ n) (hapart : zeros l &&& ones l' ≠ 0) : pack l vs ≠ pack l' vs' := by
  intro h
  apply hapart
  rw [← pack_and_ones l' vs', ← BitVec.and_assoc, ← h, BitVec.and_comm (zeros l),
    pack_and_zeros hl hvs hn]
  simp

end Packing
