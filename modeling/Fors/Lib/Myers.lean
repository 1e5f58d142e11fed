import Mathlib.Data.Nat.Lattice
import Mathlib.Order.Bounds.Basic
import Mathlib.Tactic.Linarith

/-!
# Greedy edit scripts

Turning one list into another by deletions and insertions is a walk through the grid of their
positions: right deletes, down inserts, and a diagonal step keeps an element that both have. The
greedy search keeps, after each further deletion or insertion, the furthest point of every diagonal.
The grid is taken without its right and lower border: the search may step over them.

Principal results: `trail_matches` and `corner_of_first`.
-/

namespace Myers

open List

variable {α : Type*}

/-! ## Edit scripts -/

/-- The second list comes from the first by so many deletions and insertions. -/
inductive Edits : List α → List α → Nat → Prop where
  | nil : Edits [] [] 0
  | keep {xs ys : List α} {d : Nat} (x : α) : Edits xs ys d → Edits (x :: xs) (x :: ys) d
  | delete {xs ys : List α} {d : Nat} (x : α) : Edits xs ys d → Edits (x :: xs) ys (d + 1)
  | insert {xs ys : List α} {d : Nat} (y : α) : Edits xs ys d → Edits xs (y :: ys) (d + 1)

/-- The least number of deletions and insertions. -/
noncomputable def distance (xs ys : List α) : Nat :=
  sInf {d | Edits xs ys d}

theorem edits_all (xs ys : List α) : Edits xs ys (xs.length + ys.length) := by
  induction xs with
  | nil =>
    induction ys with
    | nil => exact .nil
    | cons y ys ih =>
      have h := Edits.insert y ih
      simpa using h
  | cons x xs ih =>
    have h := Edits.delete x ih
    rwa [length_cons, Nat.add_right_comm]

theorem edits_distance (xs ys : List α) : Edits xs ys (distance xs ys) :=
  Nat.sInf_mem (s := {d | Edits xs ys d}) ⟨_, edits_all xs ys⟩

variable {a b xs ys : List α} {d i j : Nat}

theorem distance_le (h : Edits xs ys d) : distance xs ys ≤ d :=
  Nat.sInf_le h

theorem Edits.delete_last (h : Edits xs ys d) (x : α) : Edits (xs ++ [x]) ys (d + 1) := by
  induction h with
  | nil => exact .delete x .nil
  | keep y _ ih => exact .keep y ih
  | delete y _ ih => exact .delete y ih
  | insert y _ ih => exact .insert y ih

theorem Edits.insert_last (h : Edits xs ys d) (y : α) : Edits xs (ys ++ [y]) (d + 1) := by
  induction h with
  | nil => exact .insert y .nil
  | keep x _ ih => exact .keep x ih
  | delete x _ ih => exact .delete x ih
  | insert x _ ih => exact .insert x ih

theorem Edits.keep_last (h : Edits xs ys d) (x : α) : Edits (xs ++ [x]) (ys ++ [x]) d := by
  induction h with
  | nil => exact .keep x .nil
  | keep y _ ih => exact .keep y ih
  | delete y _ ih => exact .delete y ih
  | insert y _ ih => exact .insert y ih

theorem Edits.map {β : Type*} (h : Edits xs ys d) (f : α → β) :
    Edits (xs.map f) (ys.map f) d := by
  induction h with
  | nil => exact .nil
  | keep x _ ih => exact .keep (f x) ih
  | delete x _ ih => exact .delete (f x) ih
  | insert y _ ih => exact .insert (f y) ih

theorem edits_of_map {β : Type*} {f : α → β} (h : Edits (xs.map f) (ys.map f) d)
    (hf : ∀ x ∈ xs, ∀ y ∈ ys, f x = f y → x = y) : Edits xs ys d := by
  generalize hxs : xs.map f = us at h
  generalize hys : ys.map f = vs at h
  induction h generalizing xs ys with
  | nil =>
    rw [map_eq_nil_iff] at hxs hys
    rw [hxs, hys]
    exact .nil
  | keep u _ ih =>
    obtain ⟨x, xs, rfl, hx, rfl⟩ := map_eq_cons_iff.mp hxs
    obtain ⟨y, ys, rfl, hy, rfl⟩ := map_eq_cons_iff.mp hys
    obtain rfl := hf x mem_cons_self y mem_cons_self (hx.trans hy.symm)
    refine .keep x (ih ?_ rfl rfl)
    intro x' hx' y' hy'
    exact hf x' (mem_cons_of_mem _ hx') y' (mem_cons_of_mem _ hy')
  | delete u _ ih =>
    obtain ⟨x, xs, rfl, -, rfl⟩ := map_eq_cons_iff.mp hxs
    refine .delete x (ih ?_ rfl hys)
    intro x' hx' y' hy'
    exact hf x' (mem_cons_of_mem _ hx') y' hy'
  | insert v _ ih =>
    obtain ⟨y, ys, rfl, -, rfl⟩ := map_eq_cons_iff.mp hys
    refine .insert y (ih ?_ hxs rfl)
    intro x' hx' y' hy'
    exact hf x' hx' y' (mem_cons_of_mem _ hy')

/-- Names that tell the elements apart keep the distance. -/
theorem distance_map {β : Type*} {f : α → β} (hf : ∀ x ∈ xs, ∀ y ∈ ys, f x = f y → x = y) :
    distance (xs.map f) (ys.map f) = distance xs ys := by
  apply Nat.le_antisymm
  · exact distance_le ((edits_distance xs ys).map f)
  · exact distance_le (edits_of_map (edits_distance _ _) hf)

theorem distance_self (xs : List α) : distance xs xs = 0 := by
  apply Nat.eq_zero_of_le_zero
  apply distance_le
  induction xs with
  | nil => exact .nil
  | cons x xs ih => exact .keep x ih

/-! ## Walks -/

/-- A walk to a point takes so many steps right and down. -/
inductive Reach (a b : List α) : Nat → Nat → Nat → Prop where
  | origin : Reach a b 0 0 0
  | right {d i j : Nat} : Reach a b d i j → Reach a b (d + 1) (i + 1) j
  | down {d i j : Nat} : Reach a b d i j → Reach a b (d + 1) i (j + 1)
  | diag {d i j : Nat} {x : α} : Reach a b d i j → a[i]? = some x → b[j]? = some x →
      Reach a b d (i + 1) (j + 1)

theorem Reach.bounds (h : Reach a b d i j) : i ≤ j + d ∧ j ≤ i + d ∧ (i + j + d) % 2 = 0 := by
  induction h <;> omega

/-- Beyond the border a walk only loses. -/
theorem Reach.clip (h : Reach a b d i j) : ∃ d', Reach a b d' (min i a.length) (min j b.length) ∧
    d' + (i - a.length) + (j - b.length) = d := by
  induction h with
  | origin => exact ⟨0, by simpa using Reach.origin, by omega⟩
  | @right d i j _ ih =>
    obtain ⟨d', hreach, hd⟩ := ih
    rcases Nat.lt_or_ge i a.length with hi | hi
    · refine ⟨d' + 1, ?_, by omega⟩
      have hnext := hreach.right
      rwa [Nat.min_eq_left (by omega)] at hnext ⊢
    · refine ⟨d', ?_, by omega⟩
      rwa [Nat.min_eq_right (by omega)] at hreach ⊢
  | @down d i j _ ih =>
    obtain ⟨d', hreach, hd⟩ := ih
    rcases Nat.lt_or_ge j b.length with hj | hj
    · refine ⟨d' + 1, ?_, by omega⟩
      have hnext := hreach.down
      rwa [Nat.min_eq_left (a := j) (by omega), ← Nat.min_eq_left (a := j + 1) (b := b.length)
        (by omega)] at hnext
    · refine ⟨d', ?_, by omega⟩
      rwa [Nat.min_eq_right (a := j) (by omega), ← Nat.min_eq_right (a := j + 1) (b := b.length)
        (by omega)] at hreach
  | @diag d i j x _ hx hy ih =>
    obtain ⟨d', hreach, hd⟩ := ih
    have hi : i < a.length := (List.getElem?_eq_some_iff.mp hx).1
    have hj : j < b.length := (List.getElem?_eq_some_iff.mp hy).1
    rw [Nat.min_eq_left (by omega), Nat.min_eq_left (by omega)] at hreach
    refine ⟨d', ?_, by omega⟩
    rw [Nat.min_eq_left (by omega), Nat.min_eq_left (by omega)]
    exact hreach.diag hx hy

variable {x : α}

theorem take_next (h : a[i]? = some x) : a.take (i + 1) = a.take i ++ [x] := by
  rw [take_add_one, h]
  rfl

theorem Reach.edits (h : Reach a b d i j) (hi : i ≤ a.length) (hj : j ≤ b.length) :
    Edits (a.take i) (b.take j) d := by
  induction h with
  | origin => exact .nil
  | right _ ih =>
    rw [take_next (getElem?_eq_getElem hi)]
    exact (ih (by omega) hj).delete_last _
  | down _ ih =>
    rw [take_next (getElem?_eq_getElem hj)]
    exact (ih hi (by omega)).insert_last _
  | diag _ hx hy ih =>
    rw [take_next hx, take_next hy]
    exact (ih (by omega) (by omega)).keep_last _

theorem getElem?_append_cons (pre xs : List α) (x : α) : (pre ++ x :: xs)[pre.length]? = some x := by
  rw [getElem?_append_right (Nat.le_refl _), Nat.sub_self]
  rfl

theorem Edits.reach_from (h : Edits xs ys d) : ∀ (pre pre' : List α) (d0 : Nat),
    Reach (pre ++ xs) (pre' ++ ys) d0 pre.length pre'.length →
    Reach (pre ++ xs) (pre' ++ ys) (d0 + d) (pre ++ xs).length (pre' ++ ys).length := by
  induction h with
  | nil =>
    intro pre pre' d0 hreach
    simpa using hreach
  | @keep xs ys d x _ ih =>
    intro pre pre' d0 hreach
    have hnext := hreach.diag (getElem?_append_cons pre xs x) (getElem?_append_cons pre' ys x)
    rw [append_cons pre, append_cons pre'] at hnext ⊢
    apply ih
    simpa using hnext
  | @delete xs ys d x _ ih =>
    intro pre pre' d0 hreach
    have hnext := hreach.right
    rw [append_cons pre] at hnext ⊢
    rw [show d0 + (d + 1) = d0 + 1 + d by omega]
    apply ih
    simpa using hnext
  | @insert xs ys d y _ ih =>
    intro pre pre' d0 hreach
    have hnext := hreach.down
    rw [append_cons pre'] at hnext ⊢
    rw [show d0 + (d + 1) = d0 + 1 + d by omega]
    apply ih
    simpa using hnext

/-- Scripts are walks to the far corner. -/
theorem edits_iff : Edits a b d ↔ Reach a b d a.length b.length := by
  constructor
  · intro h
    have hreach := h.reach_from [] [] 0 .origin
    rwa [Nat.zero_add] at hreach
  · intro h
    have hedits := h.edits (Nat.le_refl _) (Nat.le_refl _)
    rwa [take_length, take_length] at hedits

/-! ## Diagonal runs -/

variable [DecidableEq α]

/-- How many elements two lists begin with in common. -/
def common : List α → List α → Nat
  | x :: xs, y :: ys => if x = y then common xs ys + 1 else 0
  | _, _ => 0

variable {t : Nat}

theorem common_get (h : t < common xs ys) : ∃ x, xs[t]? = some x ∧ ys[t]? = some x := by
  induction xs, ys using common.induct generalizing t with
  | case1 xs x ys ih =>
    rw [common, if_pos rfl] at h
    cases t with
    | zero => exact ⟨x, rfl, rfl⟩
    | succ t => exact ih (by omega)
  | case2 x xs y ys hne =>
    rw [common, if_neg hne] at h
    omega
  | case3 xs ys hnot =>
    rw [common] at h
    · omega
    · exact hnot

theorem common_stop (hx : xs[common xs ys]? = some x) : ys[common xs ys]? ≠ some x := by
  intro hy
  induction xs, ys using common.induct with
  | case1 xs z ys ih =>
    rw [common, if_pos rfl] at hx hy
    exact ih hx hy
  | case2 z xs y ys hne =>
    rw [common, if_neg hne] at hx hy
    cases hx
    cases hy
    exact hne rfl
  | case3 xs ys hnot =>
    rw [common] at hx hy
    · cases xs with
      | nil => cases hx
      | cons z xs =>
        cases ys with
        | nil => cases hy
        | cons y ys => exact hnot z xs y ys rfl rfl
    · exact hnot
    · exact hnot

/-- The diagonal steps that are open at a point. -/
def snake (a b : List α) (i j : Nat) : Nat :=
  common (a.drop i) (b.drop j)

theorem snake_get (h : t < snake a b i j) :
    ∃ x, a[i + t]? = some x ∧ b[j + t]? = some x := by
  obtain ⟨x, hx, hy⟩ := common_get h
  rw [getElem?_drop] at hx hy
  exact ⟨x, hx, hy⟩

theorem snake_stop (hx : a[i + snake a b i j]? = some x) :
    b[j + snake a b i j]? ≠ some x := by
  intro hy
  rw [← getElem?_drop] at hx hy
  exact common_stop hx hy

theorem snake_step (hx : a[i]? = some x) (hy : b[j]? = some x) :
    snake a b i j = snake a b (i + 1) (j + 1) + 1 := by
  obtain ⟨hi, rfl⟩ := List.getElem?_eq_some_iff.mp hx
  obtain ⟨hj, hget⟩ := List.getElem?_eq_some_iff.mp hy
  unfold snake
  rw [List.drop_eq_getElem_cons hi, List.drop_eq_getElem_cons hj, common, if_pos hget.symm]

theorem snake_zero (h : ∀ x, a[i]? = some x → b[j]? ≠ some x) : snake a b i j = 0 := by
  by_contra hne
  obtain ⟨x, hx, hy⟩ := snake_get (Nat.pos_of_ne_zero hne)
  exact h x hx hy

theorem Reach.along (h : Reach a b d i j) (ht : t ≤ snake a b i j) :
    Reach a b d (i + t) (j + t) := by
  induction t with
  | zero => exact h
  | succ t ih =>
    obtain ⟨x, hx, hy⟩ := snake_get ht
    exact (ih (by omega)).diag hx hy

/-! ## The furthest points -/

/-- The diagonals that round `d` visits. -/
structure On (d : Nat) (k : Int) : Prop where
  lo : -d ≤ k
  hi : k ≤ d
  even : (k + d) % 2 = 0

/-- The diagonal from which a round enters diagonal `k`. -/
def entry (far : Int → Int) (d : Nat) (k : Int) : Int :=
  if k = -d ∨ (k ≠ d ∧ far (k - 1) < far (k + 1)) then k + 1 else k - 1

/-- Where it enters: a step down from the diagonal above, or right from the one below. -/
def start (far : Int → Int) (d : Nat) (k : Int) : Int :=
  if k = -d ∨ (k ≠ d ∧ far (k - 1) < far (k + 1)) then far (k + 1) else far (k - 1) + 1

/-- The furthest point of a diagonal before round `d`, by its column. -/
def furthest (a b : List α) : Nat → Int → Int
  | 0 => fun _ => 0
  | d + 1 => fun k =>
    let x := start (furthest a b d) d k
    x + snake a b x.toNat (x - k).toNat

variable {k : Int}

theorem On.entry (h : On (d + 1) k) (far : Int → Int) : On d (entry far (d + 1) k) := by
  obtain ⟨lo, hi, even⟩ := h
  unfold Myers.entry
  split
  · next hdown => exact ⟨by omega, by omega, by omega⟩
  · next hright => exact ⟨by omega, by omega, by omega⟩

/-- A point that a walk of `d` steps right and down reaches. -/
def Reached (a b : List α) (d : Nat) (k x : Int) : Prop :=
  ∃ i j : Nat, x = i ∧ x - k = j ∧ Reach a b d i j

theorem furthest_eq (hi : start (furthest a b d) d k = i)
    (hj : start (furthest a b d) d k - k = j) :
    furthest a b (d + 1) k = i + snake a b i j := by
  show start (furthest a b d) d k + _ = _
  rw [hj, hi, Int.toNat_natCast, Int.toNat_natCast]

theorem Reached.furthest (h : Reached a b d k (start (furthest a b d) d k)) :
    Reached a b d k (furthest a b (d + 1) k) := by
  obtain ⟨i, j, hi, hj, hreach⟩ := h
  have hfar := furthest_eq hi hj
  exact ⟨i + snake a b i j, j + snake a b i j, by omega, by omega, hreach.along (Nat.le_refl _)⟩

theorem start_reached (h : On d k) :
    Reached a b d k (start (furthest a b d) d k) := by
  induction d generalizing k with
  | zero =>
    obtain ⟨lo, hi, even⟩ := h
    obtain rfl : k = 0 := by omega
    exact ⟨0, 0, rfl, rfl, .origin⟩
  | succ d ih =>
    have hfar := (ih (h.entry (furthest a b (d + 1)))).furthest
    obtain ⟨i, j, hi, hj, hreach⟩ := hfar
    unfold Myers.entry at hi hj
    unfold start
    split at hi
    · next hdown =>
      rw [if_pos hdown] at hj ⊢
      exact ⟨i, j + 1, hi, by omega, hreach.down⟩
    · next hright =>
      rw [if_neg hright] at hj ⊢
      exact ⟨i + 1, j, by omega, by omega, hreach.right⟩

theorem furthest_reached (h : On d k) : Reached a b d k (furthest a b (d + 1) k) :=
  (start_reached h).furthest

theorem start_le : start (furthest a b d) d k ≤ furthest a b (d + 1) k := by
  show _ ≤ start (furthest a b d) d k + _
  omega

/-- No walk gets further on a diagonal. -/
theorem Reach.le_furthest (h : Reach a b d i j) : (i : Int) ≤ furthest a b (d + 1) (i - j) := by
  induction h with
  | origin =>
    obtain ⟨i, j, hi, -, -⟩ := furthest_reached (a := a) (b := b) (⟨by omega, by omega, rfl⟩ : On 0 0)
    show (0 : Int) ≤ furthest a b (0 + 1) 0
    omega
  | @right d i j hreach ih =>
    have hbounds := hreach.bounds
    have hstart := start_le (a := a) (b := b) (d := d + 1) (k := (i + 1 : Nat) - j)
    rw [show ((i : Int) - j) = (i + 1 : Nat) - j - 1 by omega] at ih
    unfold start at hstart
    split at hstart
    · next hdown => omega
    · omega
  | @down d i j hreach ih =>
    have hbounds := hreach.bounds
    have hstart := start_le (a := a) (b := b) (d := d + 1) (k := i - (j + 1 : Nat))
    rw [show ((i : Int) - j) = i - (j + 1 : Nat) + 1 by omega] at ih
    unfold start at hstart
    split at hstart
    · omega
    · next hright =>
      rw [not_or, not_and, not_lt] at hright
      have hle := hright.2 (by omega)
      omega
  | @diag d i j x hreach hx hy ih =>
    have hbounds := hreach.bounds
    have hon : On d ((i : Int) - j) := ⟨by omega, by omega, by omega⟩
    obtain ⟨s, t, hs, ht, -⟩ := start_reached (a := a) (b := b) hon
    have hfar := furthest_eq hs ht
    rw [show (((i + 1 : Nat) : Int) - (j + 1 : Nat)) = i - j by omega]
    -- at its furthest point a diagonal has no step left
    have hne : (i : Int) ≠ furthest a b (d + 1) (i - j) := by
      intro heq
      obtain rfl : i = s + snake a b s t := by omega
      obtain rfl : j = t + snake a b s t := by omega
      exact snake_stop hx hy
    omega

/-! ## The first round that comes through -/

/-- The furthest point of a diagonal is the far corner, or beyond it. -/
def Passes (a b : List α) (d : Nat) (k : Int) : Prop :=
  a.length ≤ furthest a b (d + 1) k ∧ b.length ≤ furthest a b (d + 1) k - k

theorem passes_of_reach (h : Reach a b d a.length b.length) :
    On d (a.length - b.length) ∧ Passes a b d (a.length - b.length) := by
  have hbounds := h.bounds
  have hle := h.le_furthest
  exact ⟨⟨by omega, by omega, by omega⟩, hle, by omega⟩

theorem passes_distance :
    On (distance a b) (a.length - b.length) ∧ Passes a b (distance a b) (a.length - b.length) :=
  passes_of_reach (edits_iff.mp (edits_distance a b))

theorem reach_of_passes (hk : On d k) (h : Passes a b d k) :
    ∃ i j d', furthest a b (d + 1) k = (i : Nat) ∧ furthest a b (d + 1) k - k = (j : Nat) ∧
      Reach a b d' a.length b.length ∧ d' + (i - a.length) + (j - b.length) = d := by
  obtain ⟨i, j, hi, hj, hreach⟩ := furthest_reached (a := a) (b := b) hk
  obtain ⟨d', hclip, hd⟩ := hreach.clip
  obtain ⟨hn, hm⟩ := h
  rw [Nat.min_eq_right (by omega), Nat.min_eq_right (by omega)] at hclip
  exact ⟨i, j, d', hi, hj, hclip, hd⟩

/-- The first point at or beyond the far corner is the corner: a walk over the border is longer. -/
theorem corner_of_first (hk : On d k) (h : Passes a b d k)
    (hfirst : ∀ d' < d, ∀ k', On d' k' → ¬Passes a b d' k') :
    furthest a b (d + 1) k = a.length ∧ furthest a b (d + 1) k - k = b.length ∧
      distance a b = d := by
  obtain ⟨i, j, d', hi, hj, hreach, hd⟩ := reach_of_passes hk h
  obtain ⟨hn, hm⟩ := h
  have hdistance : d ≤ distance a b := by
    by_contra hlt
    obtain ⟨hon, hpasses⟩ := passes_distance (a := a) (b := b)
    exact hfirst _ (by omega) _ hon hpasses
  have hle := distance_le (edits_iff.mpr hreach)
  omega

/-! ## The elements kept on the way -/

/-- A run of diagonal steps. -/
def run (i j t : Nat) : List (Nat × Nat) :=
  (List.range t).map fun s => (i + s, j + s)

/-- The pairs kept on the way to the furthest point of a diagonal before round `d`. -/
def trail (a b : List α) : Nat → Int → List (Nat × Nat)
  | 0, _ => []
  | d + 1, k =>
    let x := start (furthest a b d) d k
    trail a b d (entry (furthest a b d) d k) ++
      run x.toNat (x - k).toNat (snake a b x.toNat (x - k).toNat)

/-- Pairs of equal elements before a point, strictly increasing in both places. -/
structure Matches (a b : List α) (ps : List (Nat × Nat)) (i j : Nat) : Prop where
  sorted : ps.Pairwise fun p q => p.1 < q.1 ∧ p.2 < q.2
  below : ∀ p ∈ ps, p.1 < i ∧ p.2 < j
  equal : ∀ p ∈ ps, ∃ x, a[p.1]? = some x ∧ b[p.2]? = some x

omit [DecidableEq α] in
theorem Matches.mono {ps : List (Nat × Nat)} {i' j' : Nat} (h : Matches a b ps i j) (hi : i ≤ i')
    (hj : j ≤ j') : Matches a b ps i' j' := by
  refine ⟨h.sorted, ?_, h.equal⟩
  intro p hp
  obtain ⟨hlt, hlt'⟩ := h.below p hp
  omega

theorem Matches.along {ps : List (Nat × Nat)} (h : Matches a b ps i j)
    (ht : t ≤ snake a b i j) : Matches a b (ps ++ run i j t) (i + t) (j + t) := by
  have hrun : ∀ p ∈ run i j t, ∃ s < t, p = (i + s, j + s) := by
    intro p hp
    obtain ⟨s, hs, rfl⟩ := mem_map.mp hp
    exact ⟨s, mem_range.mp hs, rfl⟩
  refine ⟨?_, ?_, ?_⟩
  · rw [pairwise_append]
    refine ⟨h.sorted, ?_, ?_⟩
    · unfold run
      rw [pairwise_map]
      apply Pairwise.imp _ pairwise_lt_range
      intro s s' hlt
      simp only
      omega
    · intro p hp q hq
      obtain ⟨hlt, hlt'⟩ := h.below p hp
      obtain ⟨s, -, rfl⟩ := hrun q hq
      simp only
      omega
  · intro p hp
    rcases mem_append.mp hp with hp | hp
    · obtain ⟨hlt, hlt'⟩ := h.below p hp
      omega
    · obtain ⟨s, hs, rfl⟩ := hrun p hp
      simp only
      omega
  · intro p hp
    rcases mem_append.mp hp with hp | hp
    · exact h.equal p hp
    · obtain ⟨s, hs, rfl⟩ := hrun p hp
      exact snake_get (by omega)

/-- The trail to a furthest point keeps all but one element a round. -/
theorem trail_matches (h : On d k) : ∃ i j : Nat, furthest a b (d + 1) k = i ∧
    furthest a b (d + 1) k - k = j ∧ Matches a b (trail a b (d + 1) k) i j ∧
    2 * (trail a b (d + 1) k).length + d = i + j := by
  induction d generalizing k with
  | zero =>
    obtain ⟨lo, hi, even⟩ := h
    obtain rfl : k = 0 := by omega
    have hfar : furthest a b (0 + 1) 0 = (0 : Nat) + snake a b 0 0 :=
      furthest_eq (k := 0) rfl rfl
    have hnil : Matches a b [] 0 0 := ⟨.nil, nofun, nofun⟩
    have hrun : trail a b (0 + 1) 0 = [] ++ run 0 0 (snake a b 0 0) := rfl
    refine ⟨snake a b 0 0, snake a b 0 0, by omega, by omega, ?_, ?_⟩
    · rw [hrun]
      simpa using hnil.along (Nat.le_refl _)
    · rw [hrun]
      simp [run]
      omega
  | succ d ih =>
    obtain ⟨i, j, hi, hj, hmatches, hlen⟩ := ih (h.entry (furthest a b (d + 1)))
    have hlong {s t : Nat} (hs : start (furthest a b (d + 1)) (d + 1) k = s)
        (ht : start (furthest a b (d + 1)) (d + 1) k - k = t) (hbefore : i ≤ s ∧ j ≤ t)
        (hone : i + j + 1 = s + t) : ∃ i j : Nat, furthest a b (d + 1 + 1) k = i ∧
          furthest a b (d + 1 + 1) k - k = j ∧ Matches a b (trail a b (d + 1 + 1) k) i j ∧
          2 * (trail a b (d + 1 + 1) k).length + (d + 1) = i + j := by
      have hfar := furthest_eq hs ht
      have htrail : trail a b (d + 1 + 1) k =
          trail a b (d + 1) (entry (furthest a b (d + 1)) (d + 1) k) ++
            run s t (snake a b s t) := by
        rw [trail, ht, hs, Int.toNat_natCast, Int.toNat_natCast]
      refine ⟨s + snake a b s t, t + snake a b s t, by omega, by omega, ?_, ?_⟩
      · rw [htrail]
        exact (hmatches.mono hbefore.1 hbefore.2).along (Nat.le_refl _)
      · rw [htrail, length_append]
        simp only [run, length_map, length_range]
        omega
    unfold entry at hi hj
    unfold start at hlong
    split at hi
    · next hdown =>
      simp only [if_pos hdown] at hj hlong
      exact hlong (s := i) (t := j + 1) hi (by omega) (by omega) (by omega)
    · next hright =>
      simp only [if_neg hright] at hj hlong
      exact hlong (s := i + 1) (t := j) (by omega) (by omega) (by omega) (by omega)

end Myers
