import Fors.Fmt.Diff
import Fors.Lib.Myers

/-!
# The search finds a shortest script

Round `d` finds, at index `k + offset`, the furthest points of the diagonals of round `d - 1`, and
leaves its own between them. A window keeps what the round read, so the way back takes the decisions
of the way there; the one place outside a window that is read is the first round's, and answers 0
like the array did.

Principal result: `myers_eq`.
-/

namespace Fors.Fmt

open Myers List Option

variable {a b : List UInt64} {v vv : List Int} {tr : List (List Int)} {d i j offset : Nat}
  {k : Int}

theorem as_usize_natCast (n : Nat) : as_usize n = n := by
  unfold as_usize
  rw [if_pos (by omega)]
  exact Int.toNat_natCast n

theorem as_usize_of_nonneg {x : Int} (h : 0 ≤ x) : as_usize x = x.toNat :=
  if_pos h

/-! ## One diagonal -/

theorem follow_eq : ∀ (fuel i j : Nat), a.length - i < fuel →
    follow a b fuel i j = some (((i + snake a b i j : Nat) : Int), ((j + snake a b i j : Nat) : Int)) := by
  intro fuel
  induction fuel with
  | zero => intro i j hfuel; omega
  | succ fuel ih =>
    intro i j hfuel
    rw [follow, as_usize_natCast, as_usize_natCast]
    split
    · next hin =>
      obtain ⟨hi, hj⟩ := hin
      rw [List.getElem?_eq_getElem hi, List.getElem?_eq_getElem hj]
      simp only [bind_eq_bind, bind_some]
      split
      · next heq =>
        have hsnake : snake a b i j = snake a b (i + 1) (j + 1) + 1 :=
          snake_step (List.getElem?_eq_getElem hi) (by rw [List.getElem?_eq_getElem hj, heq])
        have hnext := ih (i + 1) (j + 1) (by omega)
        rw [hsnake, ← Nat.add_assoc, Nat.add_right_comm, ← Nat.add_assoc, Nat.add_right_comm j]
        exact hnext
      · next hne =>
        rw [snake_zero]
        · rfl
        · intro x hx hy
          rw [List.getElem?_eq_getElem hi] at hx
          rw [List.getElem?_eq_getElem hj] at hy
          exact hne (some.inj (hx.trans hy.symm))
    · next hout =>
      rw [snake_zero]
      · rfl
      · intro x hx hy
        exact hout ⟨(List.getElem?_eq_some_iff.mp hx).1, (List.getElem?_eq_some_iff.mp hy).1⟩

/-- The diagonals that round `d` reads. -/
def Near (d : Nat) (k : Int) : Prop :=
  (k + d) % 2 = 1 ∧ (-d < k ∧ k < d ∨ d = 0 ∧ k = 1)

/-- Before round `d` the array has the furthest points that it reads. -/
def Holds (a b : List UInt64) (offset : Nat) (v : List Int) (d : Nat) : Prop :=
  ∀ k, Near d k → v[(k + offset).toNat]? = some (furthest a b d k)

theorem On.near_above (h : On d k) (hk : k = -d ∨ k ≠ d) : Near d (k + 1) := by
  obtain ⟨lo, hi, even⟩ := h
  refine ⟨by omega, ?_⟩
  omega

theorem On.near_below (h : On d k) (hk : k ≠ -d) : Near d (k - 1) := by
  obtain ⟨lo, hi, even⟩ := h
  refine ⟨by omega, ?_⟩
  omega

theorem enter_eq (hd : d ≤ offset) (hon : On d k) (h : Holds a b offset v d) :
    enter v (as_usize (k + offset)) d k = some (start (furthest a b d) d k) := by
  have hlo := hon.lo
  have hidx : as_usize (k + offset) = (k + offset).toNat := as_usize_of_nonneg (by omega)
  have habove (hk : k = -d ∨ k ≠ d) :
      v[as_usize (k + offset) + 1]? = some (furthest a b d (k + 1)) := by
    rw [← h _ (On.near_above hon hk), hidx]
    congr 1
    omega
  have hbelow (hk : k ≠ -d) :
      read_before v (as_usize (k + offset)) = some (furthest a b d (k - 1)) := by
    unfold read_before
    rw [if_neg (by omega), ← h _ (On.near_below hon hk), hidx]
    congr 1
    omega
  unfold enter start
  by_cases hlow : k = -d
  · rw [if_pos hlow, if_pos (.inl hlow), habove (.inl hlow)]
  · rw [if_neg hlow, hbelow hlow]
    by_cases hhigh : k ≠ d
    · rw [if_pos hhigh, habove (.inr hhigh)]
      simp [hlow, hhigh]
    · rw [if_neg hhigh, if_neg (by tauto)]
      rfl

/-! ## The way back -/

/-- A window answers what the round read. -/
def Window (a b : List UInt64) (vv : List Int) (d : Nat) : Prop :=
  ∀ k, Near d k → at_ vv d k = furthest a b d k

theorem window_slice (hd : d ≤ offset) (hlen : v.length = 2 * offset + 2)
    (h : Holds a b offset v d) : ∃ vv,
      slice v (as_usize ((offset : Int) - d)) (as_usize ((offset : Int) + d) + 1) = some vv ∧
        Window a b vv d := by
  have hlo : as_usize ((offset : Int) - d) = offset - d := by
    rw [as_usize_of_nonneg (by omega)]
    omega
  have hhi : as_usize ((offset : Int) + d) = offset + d := by
    rw [as_usize_of_nonneg (by omega)]
    omega
  unfold slice
  rw [hlo, hhi, if_pos ⟨by omega, by omega⟩]
  refine ⟨_, rfl, ?_⟩
  intro k hk
  have hread := h k hk
  obtain ⟨hodd, hin⟩ := hk
  have hwidth : ((v.drop (offset - d)).take (offset + d + 1 - (offset - d))).length = 2 * d + 1 := by
    rw [length_take, length_drop]
    omega
  unfold at_
  rcases hin with ⟨hlow, hhigh⟩ | ⟨rfl, rfl⟩
  · have hi : as_usize (k + d) = (k + d).toNat := as_usize_of_nonneg (by omega)
    rw [if_neg (by rw [hi, hwidth]; omega), hi, getD_eq_getElem?_getD,
      getElem?_take_of_lt (by omega), getElem?_drop,
      show offset - d + (k + d).toNat = (k + offset).toNat by omega, hread]
    rfl
  · -- the one place outside a window
    rw [if_pos]
    · rfl
    · right
      rw [hwidth]
      exact Nat.le_refl _

theorem prev_diagonal_eq (hon : On d k) (h : Window a b vv d) :
    prev_diagonal vv d k = entry (furthest a b d) d k := by
  unfold prev_diagonal entry
  by_cases hlow : k = -d
  · rw [if_pos (.inl hlow), if_pos (.inl hlow)]
  · by_cases hhigh : k ≠ d
    · rw [h _ (On.near_below hon hlow), h _ (On.near_above hon (.inr hhigh))]
    · rw [if_neg (by tauto), if_neg (by tauto)]

theorem entry_near (hon : On d k) (far : Int → Int) : Near d (entry far d k) := by
  unfold entry
  split
  · next hdown =>
    apply On.near_above hon
    tauto
  · next hright =>
    apply On.near_below hon
    tauto

theorem run_succ (i j t : Nat) : run i j (t + 1) = run i j t ++ [(i + t, j + t)] := by
  unfold run
  rw [range_succ, map_append]
  rfl

/-- The walk back over the run that ends at a point. -/
theorem walk_back_eq {prev_x prev_y : Int} (hx : prev_x ≤ i) (hy : prev_y ≤ j)
    (hstart : prev_x = i ∨ prev_y = j) : ∀ (t fuel : Nat) (pairs : List (Nat × Nat)), t < fuel →
      walk_back prev_x prev_y fuel (i + t : Nat) (j + t : Nat) pairs =
        some (pairs ++ (run i j t).reverse) := by
  intro t
  induction t with
  | zero =>
    intro fuel pairs hfuel
    obtain ⟨fuel, rfl⟩ : ∃ f, fuel = f + 1 := ⟨fuel - 1, by omega⟩
    rw [walk_back, if_neg (by omega)]
    simp [run]
  | succ t ih =>
    intro fuel pairs hfuel
    obtain ⟨fuel, rfl⟩ : ∃ f, fuel = f + 1 := ⟨fuel - 1, by omega⟩
    have hpx : ((i + (t + 1) : Nat) : Int) - 1 = (i + t : Nat) := by omega
    have hpy : ((j + (t + 1) : Nat) : Int) - 1 = (j + t : Nat) := by omega
    rw [walk_back, if_pos (by omega), hpx, hpy, as_usize_natCast, as_usize_natCast,
      ih _ _ (by omega), run_succ, reverse_append, append_assoc]
    rfl

theorem backtrack_step (hd : (tr)[d]? = some vv) (hwin : Window a b vv d) (hon : On d k)
    (pairs : List (Nat × Nat)) : ∃ kept, trail a b (d + 1) k =
      trail a b d (entry (furthest a b d) d k) ++ kept ∧
        backtrack tr (d + 1) (furthest a b (d + 1) k) (furthest a b (d + 1) k - k) pairs =
          backtrack tr d (furthest a b d (entry (furthest a b d) d k))
            (furthest a b d (entry (furthest a b d) d k) - entry (furthest a b d) d k)
            (pairs ++ kept.reverse) := by
  obtain ⟨s, t, hs, ht, -⟩ := start_reached (a := a) (b := b) hon
  have hfar := furthest_eq hs ht
  have hprev := prev_diagonal_eq hon hwin
  have hat := hwin _ (entry_near hon (furthest a b d))
  have hpx : furthest a b (d + 1) k = (s + snake a b s t : Nat) := by omega
  have hpy : furthest a b (d + 1) k - k = (t + snake a b s t : Nat) := by omega
  have hfrom : furthest a b d (entry (furthest a b d) d k) ≤ s ∧
      furthest a b d (entry (furthest a b d) d k) - entry (furthest a b d) d k ≤ t ∧
        (furthest a b d (entry (furthest a b d) d k) = s ∨
          furthest a b d (entry (furthest a b d) d k) - entry (furthest a b d) d k = t) := by
    unfold start at hs ht
    unfold entry
    split at hs
    · next hdown =>
      rw [if_pos hdown] at ht ⊢
      omega
    · next hright =>
      rw [if_neg hright] at ht ⊢
      omega
  obtain ⟨hx, hy, hstart⟩ := hfrom
  refine ⟨run s t (snake a b s t), ?_, ?_⟩
  · rw [trail, ht, hs, Int.toNat_natCast, Int.toNat_natCast]
  · have hk : ((s + snake a b s t : Nat) : Int) - (t + snake a b s t : Nat) = k := by omega
    have hback := walk_back_eq hx hy hstart (snake a b s t) (s + snake a b s t + 1) pairs (by omega)
    rw [hpy, hpx, backtrack, hd]
    simp only [bind_eq_bind, bind_some, hk, hprev, hat, as_usize_natCast, hback]

/-- The way back from a furthest point collects its trail. -/
theorem backtrack_eq (htr : ∀ dd ≤ d, ∃ vv, (tr)[dd]? = some vv ∧ Window a b vv dd)
    (hon : On d k) (pairs : List (Nat × Nat)) :
    backtrack tr (d + 1) (furthest a b (d + 1) k) (furthest a b (d + 1) k - k) pairs =
      some (trail a b (d + 1) k ++ pairs.reverse) := by
  induction d generalizing k pairs with
  | zero =>
    obtain ⟨vv, hvv, hwin⟩ := htr 0 (Nat.le_refl _)
    obtain ⟨kept, htrail, hstep⟩ := backtrack_step hvv hwin hon pairs
    rw [hstep, htrail, backtrack, trail]
    simp
  | succ d ih =>
    obtain ⟨vv, hvv, hwin⟩ := htr (d + 1) (Nat.le_refl _)
    obtain ⟨kept, htrail, hstep⟩ := backtrack_step hvv hwin hon pairs
    have hrest := ih (fun dd hdd => htr dd (by omega)) (hon.entry (furthest a b (d + 1)))
      (pairs ++ kept.reverse)
    rw [hstep, hrest, htrail]
    simp

/-! ## One round -/

/-- In the middle of round `d`: the diagonals before `k` have their new points. -/
structure Mid (a b : List UInt64) (offset : Nat) (v : List Int) (d : Nat) (k : Int) : Prop where
  length : v.length = 2 * offset + 2
  old : Holds a b offset v d
  new : ∀ k' < k, On d k' → v[(k' + offset).toNat]? = some (furthest a b (d + 1) k')

theorem Mid.set (h : Mid a b offset v d k) (hd : d ≤ offset) (hon : On d k) :
    Mid a b offset (v.set (k + offset).toNat (furthest a b (d + 1) k)) d (k + 2) := by
  have hlo := hon.lo
  have heven := hon.even
  have hlen := h.length
  have hhi := hon.hi
  refine ⟨by rw [length_set, hlen], ?_, ?_⟩
  · intro k' hk'
    have hread := h.old k' hk'
    obtain ⟨hodd, hin⟩ := hk'
    rw [getElem?_set_ne (by omega), hread]
  · intro k' hk' hon'
    have heven' := hon'.even
    have hlo' := hon'.lo
    rcases Int.lt_or_le k' k with hlt | hle
    · rw [getElem?_set_ne (by omega)]
      exact h.new k' hlt hon'
    · obtain rfl : k' = k := by omega
      rw [getElem?_set_self (by omega)]

theorem Mid.done (h : Mid a b offset v d k) (hk : d < k) : Holds a b offset v (d + 1) := by
  intro k' hk'
  obtain ⟨hodd, hin⟩ := hk'
  exact h.new k' (by omega) ⟨by omega, by omega, by omega⟩

theorem diagonals_eq (tr : List (List Int)) (hd : d ≤ offset) : ∀ (fuel : Nat) (k : Int) (v : List Int),
    Mid a b offset v d k → (k + d) % 2 = 0 → -d ≤ k → k ≤ d + 2 → d - k + 2 < 2 * fuel →
    (∃ k', On d k' ∧ Passes a b d k' ∧ diagonals a b tr offset d fuel k v =
      (backtrack tr (d + 1) a.length b.length []).map .found) ∨
    (∀ k', k ≤ k' → On d k' → ¬Passes a b d k') ∧ ∃ v', v'.length = 2 * offset + 2 ∧
      Holds a b offset v' (d + 1) ∧ diagonals a b tr offset d fuel k v = some (.next v') := by
  intro fuel
  induction fuel with
  | zero => intro k v hmid heven hlo hhi hfuel; omega
  | succ fuel ih =>
    intro k v hmid heven hlo hhi hfuel
    rcases Int.lt_or_le d k with hout | hin
    · right
      refine ⟨?_, v, hmid.length, hmid.done hout, ?_⟩
      · intro k' hle hon
        have hhi := hon.hi
        omega
      · have hnot : ¬k ≤ (d : Int) := by omega
        rw [diagonals, if_neg hnot]
    · have hon : On d k := ⟨hlo, hin, heven⟩
      obtain ⟨s, t, hs, ht, -⟩ := start_reached (a := a) (b := b) hon
      have hfar : furthest a b (d + 1) k = (s + snake a b s t : Nat) := furthest_eq hs ht
      have henter := enter_eq hd hon hmid.old
      have hfollow := follow_eq (a := a) (b := b) (a.length + 1) s t (by omega)
      have hidx : as_usize (k + offset) = (k + offset).toNat := as_usize_of_nonneg (by omega)
      have hlen := hmid.length
      have hround : diagonals a b tr offset d (fuel + 1) k v =
          if a.length ≤ s + snake a b s t ∧ b.length ≤ t + snake a b s t then
            (backtrack tr (d + 1) a.length b.length []).map .found
          else diagonals a b tr offset d fuel (k + 2)
            (v.set (k + offset).toNat (furthest a b (d + 1) k)) := by
        rw [diagonals, if_pos hin]
        dsimp only
        rw [henter]
        simp only [bind_eq_bind, bind_some, ht]
        rw [hs, hfollow]
        simp only [bind_some, hidx]
        rw [if_pos (by omega)]
        simp only [as_usize_natCast, hfar]
      have hpasses : Passes a b d k ↔
          a.length ≤ s + snake a b s t ∧ b.length ≤ t + snake a b s t := by
        unfold Passes
        omega
      rw [hround]
      split
      · next hthrough => exact .inl ⟨k, hon, hpasses.mpr hthrough, rfl⟩
      · next hshort =>
        have hnext := ih (k + 2) _ (hmid.set hd hon) (by omega) (by omega) (by omega) (by omega)
        rcases hnext with hfound | ⟨hnone, hrest⟩
        · exact .inl hfound
        · refine .inr ⟨?_, hrest⟩
          intro k' hle hon'
          have heven' := hon'.even
          rcases Int.lt_or_le k' (k + 2) with hlt | hge
          · obtain rfl : k' = k := by omega
            exact fun hp => hshort (hpasses.mp hp)
          · exact hnone k' hge hon'

/-! ## All rounds -/

theorem rounds_eq : ∀ (left d : Nat) (v : List Int) (tr : List (List Int)), d + left ≤ offset + 1 →
    v.length = 2 * offset + 2 → Holds a b offset v d → tr.length = d →
    (∀ dd < d, ∃ vv, (tr)[dd]? = some vv ∧ Window a b vv dd) →
    (∀ d' < d, ∀ k', On d' k' → ¬Passes a b d' k') →
    (distance a b < d + left → ∃ ps, rounds a b offset left d v tr = some (some ps) ∧
      Matches a b ps a.length b.length ∧ 2 * ps.length + distance a b = a.length + b.length) ∧
    (d + left ≤ distance a b → rounds a b offset left d v tr = some none) := by
  intro left
  induction left with
  | zero =>
    intro d v tr hd hlen hv hcount htr hfirst
    refine ⟨?_, fun _ => rfl⟩
    intro hlt
    obtain ⟨hon, hpasses⟩ := passes_distance (a := a) (b := b)
    exact absurd hpasses (hfirst _ hlt _ hon)
  | succ left ih =>
    intro d v tr hd hlen hv hcount htr hfirst
    obtain ⟨vv, hslice, hwin⟩ := window_slice (by omega) hlen hv
    have htr' : ∀ dd ≤ d, ∃ w, (tr ++ [vv])[dd]? = some w ∧ Window a b w dd := by
      intro dd hdd
      rcases Nat.lt_or_ge dd d with hlt | hge
      · rw [getElem?_append_left (by omega)]
        exact htr dd hlt
      · obtain rfl : dd = d := by omega
        refine ⟨vv, ?_, hwin⟩
        rw [getElem?_append_right (by omega), hcount, Nat.sub_self]
        rfl
    have hmid : Mid a b offset v d (-d) := by
      refine ⟨hlen, hv, ?_⟩
      intro k' hlt hon
      have hlo := hon.lo
      omega
    have hstop {pairs : List (Nat × Nat)}
        (h : diagonals a b (tr ++ [vv]) offset d (d + 2) (-d) v = some (.found pairs)) :
        rounds a b offset (left + 1) d v tr = some (some pairs) := by
      simp [rounds, hslice, h]
    have hround {w : List Int}
        (h : diagonals a b (tr ++ [vv]) offset d (d + 2) (-d) v = some (.next w)) :
        rounds a b offset (left + 1) d v tr = rounds a b offset left (d + 1) w (tr ++ [vv]) := by
      simp [rounds, hslice, h]
    rcases diagonals_eq (tr ++ [vv]) (by omega) (d + 2) (-d) v hmid (by omega) (by omega)
      (by omega) (by omega) with ⟨k, hon, hpasses, hfound⟩ | ⟨hnone, v', hlen', hv', hnext⟩
    · obtain ⟨hn, hm, hdistance⟩ := corner_of_first hon hpasses hfirst
      have hback := backtrack_eq htr' hon []
      obtain ⟨i, j, hi, hj, hmatches, hcount'⟩ := trail_matches (a := a) (b := b) hon
      obtain rfl : i = a.length := by omega
      obtain rfl : j = b.length := by omega
      rw [hm, hn, reverse_nil, append_nil] at hback
      rw [hback] at hfound
      rw [hstop hfound]
      refine ⟨?_, by omega⟩
      intro _
      exact ⟨trail a b (d + 1) k, rfl, hmatches, by omega⟩
    · have hrest := ih (d + 1) v' (tr ++ [vv]) (by omega) hlen' hv' (by simp [hcount])
        (fun dd hdd => htr' dd (by omega)) ?_
      · rw [hround hnext]
        rw [show d + (left + 1) = d + 1 + left by omega]
        exact hrest
      · intro d' hd' k' hon
        rcases Nat.lt_or_ge d' d with hlt | hge
        · exact hfirst d' hlt k' hon
        · obtain rfl : d' = d := by omega
          exact hnone k' hon.lo hon

/-- The search reads inside its arrays, ends, and finds a shortest script where it is allowed to. -/
theorem myers_eq (a b : List UInt64) (max_d : Nat) :
    (distance a b ≤ max_d → ∃ ps, myers a b max_d = some (some ps) ∧
      Matches a b ps a.length b.length ∧ 2 * ps.length + distance a b = a.length + b.length) ∧
    (max_d < distance a b → myers a b max_d = some none) := by
  have hmax := distance_le (edits_all a b)
  have hzero : Holds a b (a.length + b.length)
      (List.replicate (2 * (a.length + b.length) + 2) 0) 0 := by
    intro k hk
    obtain ⟨hodd, hin⟩ := hk
    rw [getElem?_replicate_of_lt (by omega)]
    rfl
  have hrounds := rounds_eq (min (a.length + b.length) max_d + 1) 0 _ [] (by omega)
    length_replicate hzero rfl nofun nofun
  obtain ⟨hfound, hnone⟩ := hrounds
  exact ⟨fun h => hfound (by omega), fun h => hnone (by omega)⟩

end Fors.Fmt
