import Fors.Lib.ReadTree
import Mathlib.Logic.Function.Basic
import Mathlib.Data.Nat.Basic
import Mathlib.Logic.Relation
import Mathlib.Order.Basic

/-!
# Red-green memo tables

The mathematics of an incremental table, apart from any engine that fills it.

* `Rules K V` — how the value of a key is computed from the values of other keys: `eval`, and
  the keys it looks at, `reads`.  Which keys are read may depend on the values read.
* `Solves inp D` — the valuation `D` gives every input its value and every other key the value of
  its rule.  Under a rank (`Ranked`) there is exactly one (`solves_solution`, `Solves.unique`).
* `Table K V` — what an engine has memoised: for each key its value, the revision it was last
  verified at, the revision its value last changed at, and the keys its last evaluation read.
* `History K V` — the inputs at every revision and a valuation for each.
* `Sound` — the invariant.  It follows the set of pairs `(r, k)` for which `k` was verified at
  revision `r` (`Seen`): such a key has kept its value unless its `changed_at` is later than `r`,
  and if it is later, a key read at `r` has a later `changed_at` as well.

Principal results: the three table operations keep the invariant (`Sound.write`, `Sound.stamp`,
`Sound.commit`); a row whose recorded reads did not change is the current value
(`Sound.green_value`); a changed read leads down the recorded edges to a changed input
(`Sound.changed_input`).
-/

namespace RedGreen

open Option

/-- Deterministic rules over keys.  `shared` says that two evaluations agree on what they read up
to the first key the valuations disagree on. -/
structure Rules (K V : Type) where
  eval : (K → V) → K → V
  reads : (K → V) → K → List K
  eval_congr : ∀ {D D' : K → V} {k : K}, (∀ d ∈ reads D k, D d = D' d) → eval D' k = eval D k
  reads_congr : ∀ {D D' : K → V} {k : K}, (∀ d ∈ reads D k, D d = D' d) → reads D' k = reads D k
  shared : ∀ {D D' : K → V} {k : K}, (∃ d ∈ reads D k, D d ≠ D' d) →
    ∃ d ∈ reads D k, d ∈ reads D' k ∧ D d ≠ D' d

namespace Rules

variable {K V : Type}

/-- The rules a family of read trees gives.  `ans` is how a value is answered to a tree, `out` how
a tree's result is read as a value. -/
def of_trees {A R : Type} (trees : K → ReadTree K A R) (ans : V → A) (out : R → V)
    (hans : Function.Injective ans) : Rules K V where
  eval D k := out ((trees k).run fun d => ans (D d))
  reads D k := (trees k).trace fun d => ans (D d)
  eval_congr h := congrArg out (ReadTree.run_congr fun d hd => congrArg ans (h d hd))
  reads_congr h := ReadTree.trace_congr fun d hd => congrArg ans (h d hd)
  shared := by
    rintro D D' k ⟨d, hd, hne⟩
    have hchanged : ∃ d ∈ (trees k).trace fun d => ans (D d), ans (D d) ≠ ans (D' d) :=
      ⟨d, hd, hans.ne hne⟩
    obtain ⟨e, he, he', hne'⟩ := ReadTree.exists_changed_mem_trace hchanged
    exact ⟨e, he, he', fun h => hne' (congrArg ans h)⟩

variable (R : Rules K V)

theorem exists_shared_of_eval_ne {D D' : K → V} {k : K} (h : R.eval D' k ≠ R.eval D k) :
    ∃ d ∈ R.reads D k, d ∈ R.reads D' k ∧ D d ≠ D' d := by
  apply R.shared
  by_contra hc
  push Not at hc
  exact h (R.eval_congr hc)

/-! ## Valuations -/

/-- `D` values every input as given and every other key by its rule. -/
def Solves (inp : K → Option V) (D : K → V) : Prop := ∀ k, D k = (inp k).getD (R.eval D k)

/-- Under every valuation a key reads only keys of smaller rank. -/
def Ranked (rank : K → Nat) : Prop := ∀ D k d, d ∈ R.reads D k → rank d < rank k

variable [Inhabited V]

/-- The valuation after `n` rounds of evaluation. -/
def approx (inp : K → Option V) : Nat → K → V
  | 0 => fun k => (inp k).getD default
  | n + 1 => fun k => (inp k).getD (R.eval (approx inp n) k)

/-- The valuation a rank gives: evaluate as often as the key's rank needs. -/
def solution (rank : K → Nat) (inp : K → Option V) (k : K) : V := R.approx inp (rank k + 1) k

variable {R}

theorem approx_stable {rank : K → Nat} (hr : R.Ranked rank) (inp : K → Option V) :
    ∀ n m k, rank k < n → rank k < m → R.approx inp n k = R.approx inp m k
  | 0, _, _, hn, _ => by omega
  | _, 0, _, _, hm => by omega
  | n + 1, m + 1, k, hn, hm => by
    unfold approx
    cases inp k with
    | some v => rfl
    | none =>
      simp only [getD_none]
      refine (R.eval_congr fun d hd => ?_).symm
      have := hr _ k d hd
      exact approx_stable hr inp n m d (by omega) (by omega)

theorem solution_input {inp : K → Option V} {k : K} {v : V} (rank : K → Nat)
    (h : inp k = some v) : R.solution rank inp k = v := by
  simp [solution, approx, h]

/-- **A rank gives a solution.** -/
theorem solves_solution {rank : K → Nat} (hr : R.Ranked rank) (inp : K → Option V) :
    R.Solves inp (R.solution rank inp) := by
  intro k
  show (inp k).getD (R.eval (R.approx inp (rank k)) k) = _
  cases inp k with
  | some v => rfl
  | none =>
    simp only [getD_none]
    refine (R.eval_congr fun d hd => ?_).symm
    have := hr _ k d hd
    exact approx_stable hr inp _ _ d (by omega) (by omega)

end Rules

/-! ## Tables -/

/-- One memoised key. -/
structure Row (K V : Type) where
  value : V
  verified_at : Nat
  changed_at : Nat
  deps : List K
  is_input : Bool

abbrev Table (K V : Type) := K → Option (Row K V)

namespace Table

variable {K V : Type}

/-- `k` has a value that holds at revision `rev`. -/
def Current (T : Table K V) (rev : Nat) (k : K) : Prop :=
  ∃ row, T k = some row ∧ (row.is_input = true ∨ row.verified_at = rev)

/-- `k` was memoised with `d` among its reads. -/
def Edge (T : Table K V) (k d : K) : Prop :=
  ∃ row, T k = some row ∧ row.is_input = false ∧ d ∈ row.deps

/-- Along every edge recorded by a ranked key the rank goes down.  Rank `0` marks the keys that
are not ranked, and no edge leads from a ranked key to one of them. -/
def Ranked (T : Table K V) (rank : K → Nat) : Prop :=
  ∀ {k d}, 0 < rank k → T.Edge k d → 0 < rank d ∧ rank d < rank k

end Table

/-- A new input value at revision `rev`. -/
def Row.written {K V : Type} (v : V) (rev : Nat) : Row K V := ⟨v, rev, rev, [], true⟩

/-- A row found up to date at revision `rev`. -/
def Row.stamped {K V : Type} (row : Row K V) (rev : Nat) : Row K V := { row with verified_at := rev }

/-- The row of a key evaluated at revision `rev`; an equal value keeps its `changed_at`. -/
def Row.committed {K V : Type} [DecidableEq V] (old : Option (Row K V)) (v : V) (deps : List K)
    (rev : Nat) : Row K V where
  value := v
  verified_at := rev
  changed_at :=
    match old with
    | some o => if o.value = v then o.changed_at else rev
    | none => rev
  deps := deps
  is_input := false

/-- The inputs at every revision, and a valuation that extends them. -/
structure History (K V : Type) where
  inputs : Nat → K → Option V
  value : Nat → K → V
  value_input : ∀ {r k v}, inputs r k = some v → value r k = v

/-- The table invariant; `Seen r k` says that `k` was verified at revision `r`. -/
structure Sound {K V : Type} (R : Rules K V) (H : History K V) (Seen : Nat → K → Prop) (rev : Nat)
    (T : Table K V) : Prop where
  stamps : ∀ {k row}, T k = some row → row.changed_at ≤ row.verified_at ∧ row.verified_at ≤ rev
  input_row : ∀ {k v}, H.inputs rev k = some v →
    ∃ row, T k = some row ∧ row.is_input = true ∧ row.value = v
  row_input : ∀ {k row}, T k = some row → row.is_input = true → ∀ r, row.changed_at ≤ r → r ≤ rev →
    H.inputs r k = some row.value
  written : ∀ {k row}, T k = some row → row.is_input = true →
    H.inputs (row.changed_at - 1) k ≠ some row.value
  inputs_mono : ∀ {r k}, r ≤ rev → (H.inputs r k).isSome → (H.inputs rev k).isSome
  seen_row : ∀ {r k}, Seen r k → ∃ row, T k = some row ∧ row.is_input = false ∧ r ≤ row.verified_at
  row_seen : ∀ {k row}, T k = some row → row.is_input = false → Seen row.verified_at k
  solves : ∀ {r k}, Seen r k → H.value r k = R.eval (H.value r) k
  reads : ∀ {r k}, Seen r k → ∀ d ∈ R.reads (H.value r) k, Seen r d ∨ (H.inputs r d).isSome
  value : ∀ {r k row}, Seen r k → T k = some row → row.changed_at ≤ r → H.value r k = row.value
  changed : ∀ {r k row}, Seen r k → T k = some row → r < row.changed_at →
    ∃ d ∈ R.reads (H.value r) k, ∃ row', T d = some row' ∧ r < row'.changed_at
  deps : ∀ {k row}, T k = some row → row.is_input = false →
    ∀ d, d ∈ row.deps ↔ d ∈ R.reads (H.value row.verified_at) k

namespace Sound

variable {K V : Type} {R : Rules K V} {H : History K V} {Seen : Nat → K → Prop} {rev : Nat}
  {T : Table K V}

theorem init (h : ∀ k, H.inputs 0 k = none) : Sound R H (fun _ _ => False) 0 fun _ => none where
  stamps h := by cases h
  input_row hk := by simp [h] at hk
  row_input h := by cases h
  written h := by cases h
  inputs_mono hr hk := by
    obtain rfl : _ = 0 := Nat.le_zero.mp hr
    exact hk
  seen_row h := h.elim
  row_seen h := by cases h
  solves h := h.elim
  reads h := h.elim
  value h := h.elim
  changed h := h.elim
  deps h := by cases h

theorem changed_le (h : Sound R H Seen rev T) {k : K} {row : Row K V} (ht : T k = some row) :
    row.changed_at ≤ rev := (h.stamps ht).1.trans (h.stamps ht).2

variable {r : Nat}

theorem seen_le (h : Sound R H Seen rev T) {k : K} (hs : Seen r k) : r ≤ rev := by
  obtain ⟨row, ht, _, hle⟩ := h.seen_row hs
  exact hle.trans (h.stamps ht).2

variable {d : K}

/-- What is read at `r` has a row now. -/
theorem exists_row (h : Sound R H Seen rev T) (hr : r ≤ rev)
    (hd : Seen r d ∨ (H.inputs r d).isSome) : ∃ row, T d = some row := by
  rcases hd with hd | hd
  · obtain ⟨row, ht, _⟩ := h.seen_row hd
    exact ⟨row, ht⟩
  · obtain ⟨v, hv⟩ := isSome_iff_exists.mp (h.inputs_mono hr hd)
    obtain ⟨row, ht, _⟩ := h.input_row hv
    exact ⟨row, ht⟩

/-- A key read or verified at `r` that has not changed since has kept its value. -/
theorem unchanged_value (h : Sound R H Seen rev T) {row : Row K V}
    (hr : r ≤ rev) (hd : Seen r d ∨ (H.inputs r d).isSome) (ht : T d = some row)
    (hc : row.changed_at ≤ r) : H.value r d = row.value := by
  rcases hd with hd | hd
  · exact h.value hd ht hc
  · obtain ⟨v, hv⟩ := isSome_iff_exists.mp (h.inputs_mono hr hd)
    obtain ⟨row', ht', hi, _⟩ := h.input_row hv
    obtain rfl : row' = row := by rw [ht] at ht'; exact (some.inj ht').symm
    exact H.value_input (h.row_input ht hi r hc hr)

theorem current_iff (h : Sound R H Seen rev T) {k : K} :
    T.Current rev k ↔ Seen rev k ∨ (H.inputs rev k).isSome := by
  constructor
  · rintro ⟨row, ht, hi | hv⟩
    · exact .inr (by rw [h.row_input ht hi rev (h.changed_le ht) le_rfl]; rfl)
    · cases hi : row.is_input with
      | true => exact .inr (by rw [h.row_input ht hi rev (h.changed_le ht) le_rfl]; rfl)
      | false => exact .inl (hv ▸ h.row_seen ht hi)
  · rintro (hs | hi)
    · obtain ⟨row, ht, _, hle⟩ := h.seen_row hs
      exact ⟨row, ht, .inr (le_antisymm (h.stamps ht).2 hle)⟩
    · obtain ⟨v, hv⟩ := isSome_iff_exists.mp hi
      obtain ⟨row, ht, hi, _⟩ := h.input_row hv
      exact ⟨row, ht, .inl hi⟩

/-- **A current row holds the current value.** -/
theorem current_value (h : Sound R H Seen rev T) {k : K} {row : Row K V} (hc : T.Current rev k)
    (ht : T k = some row) : row.value = H.value rev k :=
  (h.unchanged_value le_rfl (h.current_iff.mp hc) ht (h.changed_le ht)).symm

/-- The recorded reads of a row were read, or were inputs, when it was last verified. -/
theorem seen_dep (h : Sound R H Seen rev T) {k : K} {row : Row K V} (ht : T k = some row)
    (hi : row.is_input = false) (hd : d ∈ row.deps) :
    Seen row.verified_at d ∨ (H.inputs row.verified_at d).isSome :=
  h.reads (h.row_seen ht hi) d ((h.deps ht hi d).mp hd)

theorem dep_row (h : Sound R H Seen rev T) {k : K} {row : Row K V} (ht : T k = some row)
    (hi : row.is_input = false) (hd : d ∈ row.deps) : ∃ row', T d = some row' :=
  h.exists_row (h.stamps ht).2 (h.seen_dep ht hi hd)

/-- Only the history up to the current revision matters. -/
theorem congr (h : Sound R H Seen rev T) {H' : History K V}
    (hi : ∀ r ≤ rev, H'.inputs r = H.inputs r) (hv : ∀ r ≤ rev, H'.value r = H.value r) :
    Sound R H' Seen rev T where
  stamps := h.stamps
  input_row {k v} hk := h.input_row (by rw [← hi rev le_rfl]; exact hk)
  row_input ht hin r hc hr := by rw [hi r hr]; exact h.row_input ht hin r hc hr
  written ht hin := by
    rw [hi _ ((Nat.sub_le ..).trans (h.changed_le ht))]
    exact h.written ht hin
  inputs_mono hr := by rw [hi _ hr, hi rev le_rfl]; exact h.inputs_mono hr
  seen_row := h.seen_row
  row_seen := h.row_seen
  solves hs := by rw [hv _ (h.seen_le hs)]; exact h.solves hs
  reads hs := by rw [hv _ (h.seen_le hs), hi _ (h.seen_le hs)]; exact h.reads hs
  value hs := by rw [hv _ (h.seen_le hs)]; exact h.value hs
  changed hs := by rw [hv _ (h.seen_le hs)]; exact h.changed hs
  deps ht hin := by rw [hv _ (h.stamps ht).2]; exact h.deps ht hin

section Green

variable {k : K} {row : Row K V} (h : Sound R H Seen rev T) (ht : T k = some row)
  (hi : row.is_input = false)
  (hg : ∀ d ∈ row.deps, T.Current rev d ∧ ∀ row', T d = some row' → row'.changed_at ≤ row.verified_at)

include h ht hi hg

/-- The reads of a row none of whose recorded reads changed have their old values. -/
theorem green_reads : ∀ d ∈ R.reads (H.value row.verified_at) k,
    H.value row.verified_at d = H.value rev d := by
  intro d hd
  have hm : d ∈ row.deps := (h.deps ht hi d).mpr hd
  obtain ⟨hcur, hch⟩ := hg d hm
  obtain ⟨row', ht', _⟩ := hcur
  rw [h.unchanged_value (h.stamps ht).2 (h.seen_dep ht hi hm) ht' (hch row' ht'),
    h.current_value ⟨row', ht', by assumption⟩ ht']

/-- **Green.**  A row none of whose recorded reads changed holds the value of its rule now. -/
theorem green_value : row.value = R.eval (H.value rev) k := by
  have hs := h.row_seen ht hi
  rw [← h.value hs ht (h.stamps ht).1, h.solves hs]
  exact (R.eval_congr (h.green_reads ht hi hg)).symm

end Green

variable [DecidableEq K]

/-- Writing an input: the next revision, with one input changed. -/
theorem write (h : Sound R H Seen rev T) {k : K} {v : V}
    (hk : ∀ row, T k = some row → row.is_input = true) (hne : H.inputs rev k ≠ some v)
    (hH : H.inputs (rev + 1) = Function.update (H.inputs rev) k (some v)) :
    Sound R H Seen (rev + 1) (Function.update T k (some (Row.written v (rev + 1)))) where
  stamps {k' row} ht := by
    by_cases hkk : k' = k
    · subst hkk
      simp only [Function.update_self, some.injEq] at ht
      subst ht
      simp [Row.written]
    · rw [Function.update_of_ne hkk] at ht
      have := h.stamps ht
      omega
  input_row {k' v'} hv := by
    rw [hH] at hv
    by_cases hkk : k' = k
    · subst hkk
      simp only [Function.update_self, some.injEq] at hv
      exact ⟨_, Function.update_self .., rfl, hv⟩
    · rw [Function.update_of_ne hkk] at hv
      obtain ⟨row, ht, hi, hval⟩ := h.input_row hv
      exact ⟨row, by rw [Function.update_of_ne hkk]; exact ht, hi, hval⟩
  row_input {k' row} ht hi r hc hr := by
    by_cases hkk : k' = k
    · subst hkk
      simp only [Function.update_self, some.injEq] at ht
      subst ht
      simp only [Row.written] at hc
      obtain rfl : r = rev + 1 := by omega
      rw [hH, Function.update_self]
      rfl
    · rw [Function.update_of_ne hkk] at ht
      rcases Nat.lt_or_ge rev r with hlt | hle
      · obtain rfl : r = rev + 1 := by omega
        rw [hH, Function.update_of_ne hkk]
        exact h.row_input ht hi rev (h.changed_le ht) le_rfl
      · exact h.row_input ht hi r hc hle
  written {k' row} ht hi := by
    by_cases hkk : k' = k
    · subst hkk
      simp only [Function.update_self, some.injEq] at ht
      subst ht
      exact hne
    · rw [Function.update_of_ne hkk] at ht
      exact h.written ht hi
  inputs_mono {r k'} hr hs := by
    rw [hH]
    by_cases hkk : k' = k
    · subst hkk; simp
    · rw [Function.update_of_ne hkk]
      rcases Nat.lt_or_ge rev r with hlt | hle
      · obtain rfl : r = rev + 1 := by omega
        rwa [hH, Function.update_of_ne hkk] at hs
      · exact h.inputs_mono hle hs
  seen_row {r k'} hs := by
    obtain ⟨row, ht, hi, hle⟩ := h.seen_row hs
    have hkk : k' ≠ k := by
      rintro rfl
      simp [hk row ht] at hi
    exact ⟨row, by rw [Function.update_of_ne hkk]; exact ht, hi, hle⟩
  row_seen {k' row} ht hi := by
    by_cases hkk : k' = k
    · subst hkk
      simp only [Function.update_self, some.injEq] at ht
      subst ht
      simp [Row.written] at hi
    · rw [Function.update_of_ne hkk] at ht
      exact h.row_seen ht hi
  solves := h.solves
  reads := h.reads
  value {r k' row} hs ht hc := by
    have hle := h.seen_le hs
    by_cases hkk : k' = k
    · subst hkk
      simp only [Function.update_self, some.injEq] at ht
      subst ht
      simp only [Row.written] at hc
      omega
    · rw [Function.update_of_ne hkk] at ht
      exact h.value hs ht hc
  changed {r k' row} hs ht hc := by
    have hkk : k' ≠ k := by
      rintro rfl
      obtain ⟨row', ht', hi', _⟩ := h.seen_row hs
      simp [hk row' ht'] at hi'
    rw [Function.update_of_ne hkk] at ht
    obtain ⟨d, hd, row', ht', hc'⟩ := h.changed hs ht hc
    refine ⟨d, hd, ?_⟩
    by_cases hdk : d = k
    · subst hdk
      refine ⟨_, Function.update_self .., ?_⟩
      have := h.seen_le hs
      simp only [Row.written]
      omega
    · exact ⟨row', by rw [Function.update_of_ne hdk]; exact ht', hc'⟩
  deps {k' row} ht hi := by
    by_cases hkk : k' = k
    · subst hkk
      simp only [Function.update_self, some.injEq] at ht
      subst ht
      simp [Row.written] at hi
    · rw [Function.update_of_ne hkk] at ht
      exact h.deps ht hi

section Commit

variable [DecidableEq V]

omit [DecidableEq K] in
theorem committed_changed_at_ge (h : Sound R H Seen rev T) {k : K} {row : Row K V} {v : V}
    {ds : List K} (ht : T k = some row) :
    row.changed_at ≤ (Row.committed (T k) v ds rev).changed_at := by
  have := h.changed_le ht
  simp only [Row.committed, ht]
  split <;> omega

/-- A commit moves no `changed_at` back. -/
theorem changed_commit (h : Sound R H Seen rev T) {k d : K} {v : V} {ds : List K} {r : Nat}
    (hd : ∃ row, T d = some row ∧ r < row.changed_at) :
    ∃ row, Function.update T k (some (Row.committed (T k) v ds rev)) d = some row ∧
      r < row.changed_at := by
  obtain ⟨row, ht, hc⟩ := hd
  by_cases hdk : d = k
  · subst hdk
    exact ⟨_, Function.update_self .., hc.trans_le (h.committed_changed_at_ge ht)⟩
  · exact ⟨row, by rw [Function.update_of_ne hdk]; exact ht, hc⟩

omit [DecidableEq K] [DecidableEq V] in
/-- A verified key that changes its value has a read that changed. -/
theorem changed_of_value_ne (h : Sound R H Seen rev T) {r : Nat} {k : K} {o : Row K V}
    (hs : Seen r k) (ho : T k = some o) (hsol : H.value rev k = R.eval (H.value rev) k)
    (hcur : ∀ d ∈ R.reads (H.value rev) k, T.Current rev d) (hne : o.value ≠ H.value rev k) :
    ∃ d ∈ R.reads (H.value r) k, ∃ row, T d = some row ∧ r < row.changed_at := by
  rcases Nat.lt_or_ge r o.changed_at with hlt | hge
  · exact h.changed hs ho hlt
  have hval : R.eval (H.value rev) k ≠ R.eval (H.value r) k := by
    rw [← hsol, ← h.solves hs, h.value hs ho hge]
    exact hne.symm
  obtain ⟨d, hd, hd', hdne⟩ := R.exists_shared_of_eval_ne hval
  obtain ⟨row, ht, hrow⟩ := hcur d hd'
  refine ⟨d, hd, row, ht, ?_⟩
  by_contra hle
  apply hdne
  rw [h.unchanged_value (h.seen_le hs) (h.reads hs d hd) ht (by omega),
    h.current_value ⟨row, ht, hrow⟩ ht]

/-- **Committing an evaluation.**  The key is now verified at the current revision. -/
theorem commit (h : Sound R H Seen rev T) {k : K} {ds : List K}
    (hk : ∀ row, T k = some row → row.is_input = false)
    (hsol : H.value rev k = R.eval (H.value rev) k)
    (hcur : ∀ d ∈ R.reads (H.value rev) k, T.Current rev d)
    (hds : ∀ d, d ∈ ds ↔ d ∈ R.reads (H.value rev) k) :
    Sound R H (fun r d => Seen r d ∨ r = rev ∧ d = k) rev
      (Function.update T k (some (Row.committed (T k) (H.value rev k) ds rev))) where
  stamps {k' row} ht := by
    by_cases hkk : k' = k
    · subst hkk
      simp only [Function.update_self, some.injEq] at ht
      subst ht
      refine ⟨?_, le_rfl⟩
      simp only [Row.committed]
      split
      · rename_i o ho
        split
        · exact h.changed_le ho
        · exact le_rfl
      · exact le_rfl
    · rw [Function.update_of_ne hkk] at ht
      exact h.stamps ht
  input_row {k' v} hv := by
    obtain ⟨row, ht, hi, hval⟩ := h.input_row hv
    have hkk : k' ≠ k := by
      rintro rfl
      simp [hk row ht] at hi
    exact ⟨row, by rw [Function.update_of_ne hkk]; exact ht, hi, hval⟩
  row_input {k' row} ht hi := by
    by_cases hkk : k' = k
    · subst hkk
      simp only [Function.update_self, some.injEq] at ht
      subst ht
      simp [Row.committed] at hi
    · rw [Function.update_of_ne hkk] at ht
      exact h.row_input ht hi
  written {k' row} ht hi := by
    by_cases hkk : k' = k
    · subst hkk
      simp only [Function.update_self, some.injEq] at ht
      subst ht
      simp [Row.committed] at hi
    · rw [Function.update_of_ne hkk] at ht
      exact h.written ht hi
  inputs_mono := h.inputs_mono
  seen_row {r k'} hs := by
    have hle : r ≤ rev := by
      rcases hs with hs | ⟨rfl, _⟩
      · exact h.seen_le hs
      · exact le_rfl
    by_cases hkk : k' = k
    · subst hkk
      exact ⟨_, Function.update_self .., rfl, hle⟩
    · obtain ⟨row, ht, hi, hv⟩ := h.seen_row (hs.resolve_right fun hc => hkk hc.2)
      exact ⟨row, by rw [Function.update_of_ne hkk]; exact ht, hi, hv⟩
  row_seen {k' row} ht hi := by
    by_cases hkk : k' = k
    · subst hkk
      simp only [Function.update_self, some.injEq] at ht
      subst ht
      exact .inr ⟨rfl, rfl⟩
    · rw [Function.update_of_ne hkk] at ht
      exact .inl (h.row_seen ht hi)
  solves {r k'} hs := by
    rcases hs with hs | ⟨rfl, rfl⟩
    · exact h.solves hs
    · exact hsol
  reads {r k'} hs d hd := by
    rcases hs with hs | ⟨rfl, rfl⟩
    · exact (h.reads hs d hd).imp_left .inl
    · exact (h.current_iff.mp (hcur d hd)).imp_left .inl
  value {r k' row} hs ht hc := by
    by_cases hkk : k' = k
    · subst hkk
      simp only [Function.update_self, some.injEq] at ht
      subst ht
      rcases hs with hs | ⟨rfl, _⟩
      · obtain ⟨o, ho, _, _⟩ := h.seen_row hs
        simp only [Row.committed, ho] at hc ⊢
        split at hc
        · rename_i heq
          rw [h.value hs ho hc, heq]
        · rw [le_antisymm (h.seen_le hs) hc]
      · rfl
    · rw [Function.update_of_ne hkk] at ht
      exact h.value (hs.resolve_right fun hc => hkk hc.2) ht hc
  changed {r k' row} hs ht hc := by
    suffices hT : ∃ d ∈ R.reads (H.value r) k', ∃ row', T d = some row' ∧ r < row'.changed_at by
      obtain ⟨d, hd, hrow⟩ := hT
      exact ⟨d, hd, h.changed_commit hrow⟩
    by_cases hkk : k' = k
    · subst hkk
      simp only [Function.update_self, some.injEq] at ht
      subst ht
      rcases hs with hs | ⟨rfl, _⟩
      · obtain ⟨o, ho, _, _⟩ := h.seen_row hs
        simp only [Row.committed, ho] at hc
        split at hc
        · exact h.changed hs ho hc
        · rename_i hne
          exact h.changed_of_value_ne hs ho hsol hcur hne
      · -- nothing changes after the current revision
        exfalso
        simp only [Row.committed] at hc
        split at hc
        · rename_i o ho
          have := h.changed_le ho
          split at hc <;> omega
        · omega
    · rw [Function.update_of_ne hkk] at ht
      exact h.changed (hs.resolve_right fun hc => hkk hc.2) ht hc
  deps {k' row} ht hi := by
    by_cases hkk : k' = k
    · subst hkk
      simp only [Function.update_self, some.injEq] at ht
      subst ht
      exact hds
    · rw [Function.update_of_ne hkk] at ht
      exact h.deps ht hi

/-- **Stamping a green row** is committing the value it already holds. -/
theorem stamp (h : Sound R H Seen rev T) {k : K} {row : Row K V} (ht : T k = some row)
    (hi : row.is_input = false) (hsol : H.value rev k = R.eval (H.value rev) k)
    (hg : ∀ d ∈ row.deps,
      T.Current rev d ∧ ∀ row', T d = some row' → row'.changed_at ≤ row.verified_at) :
    Sound R H (fun r d => Seen r d ∨ r = rev ∧ d = k) rev
      (Function.update T k (some (row.stamped rev))) := by
  have hreads : R.reads (H.value rev) k = R.reads (H.value row.verified_at) k :=
    R.reads_congr (h.green_reads ht hi hg)
  have hval : row.value = H.value rev k := by rw [hsol]; exact h.green_value ht hi hg
  have hrow : row.stamped rev = Row.committed (T k) (H.value rev k) row.deps rev := by
    simp [Row.stamped, Row.committed, ht, ← hval, ← hi]
  rw [hrow]
  refine h.commit (fun row' ht' => ?_) hsol (fun d hd => ?_) (fun d => ?_)
  · rw [ht] at ht'
    exact some.inj ht' ▸ hi
  · rw [hreads] at hd
    exact (hg d ((h.deps ht hi d).mpr hd)).1
  · rw [hreads]
    exact h.deps ht hi d

end Commit

omit [DecidableEq K] in
/-- A recorded read that changed after `r` has a recorded read that changed after `r`. -/
theorem changed_dep (h : Sound R H Seen rev T) {k : K} {row : Row K V} (hs : Seen r k)
    (ht : T k = some row) (hc : r < row.changed_at) :
    ∃ d ∈ row.deps, (Seen r d ∨ (H.inputs r d).isSome) ∧
      ∃ row', T d = some row' ∧ r < row'.changed_at := by
  have hi : row.is_input = false := by
    obtain ⟨row', ht', hi, _⟩ := h.seen_row hs
    rw [ht] at ht'
    exact some.inj ht' ▸ hi
  by_cases hall : ∀ d ∈ R.reads (H.value r) k, H.value r d = H.value row.verified_at d
  · obtain ⟨d, hd, hrow⟩ := h.changed hs ht hc
    refine ⟨d, (h.deps ht hi d).mpr ?_, h.reads hs d hd, hrow⟩
    rw [R.reads_congr hall]
    exact hd
  · push Not at hall
    obtain ⟨d, hd, hd', hne⟩ := R.shared hall
    have hm : d ∈ row.deps := (h.deps ht hi d).mpr hd'
    obtain ⟨row', ht'⟩ := h.dep_row ht hi hm
    refine ⟨d, hm, h.reads hs d hd, row', ht', ?_⟩
    by_contra hle
    have hrv : r ≤ row.verified_at := by
      have := (h.stamps ht).1
      omega
    apply hne
    rw [h.unchanged_value (h.seen_le hs) (h.reads hs d hd) ht' (by omega),
      h.unchanged_value (h.stamps ht).2 (h.seen_dep ht hi hm) ht' (by omega)]

omit [DecidableEq K] in
/-- **Every change comes from an input.**  Down the recorded edges of a key that changed after it
was read at `r` there is an input of revision `r` that changed after `r`. -/
theorem changed_input (h : Sound R H Seen rev T) {rank : K → Nat} (hrank : T.Ranked rank) (hr : r ≤ rev) :
    ∀ {k : K} {row : Row K V}, 0 < rank k → (Seen r k ∨ (H.inputs r k).isSome) →
      T k = some row → r < row.changed_at →
      ∃ x rowx, Relation.ReflTransGen T.Edge k x ∧ T x = some rowx ∧ rowx.is_input = true ∧
        r < rowx.changed_at ∧ (H.inputs r x).isSome := by
  intro k
  induction hn : rank k using Nat.strong_induction_on generalizing k with
  | _ n ih =>
    subst hn
    intro row hk hs ht hc
    rcases hs with hs | hi
    · obtain ⟨d, hd, hsd, row', ht', hc'⟩ := h.changed_dep hs ht hc
      have hi : row.is_input = false := by
        obtain ⟨row1, ht1, hi, _⟩ := h.seen_row hs
        rw [ht] at ht1
        exact some.inj ht1 ▸ hi
      have hedge : T.Edge k d := ⟨row, ht, hi, hd⟩
      obtain ⟨hd0, hlt⟩ := hrank hk hedge
      obtain ⟨x, rowx, hp, hx⟩ := ih _ hlt rfl hd0 hsd ht' hc'
      exact ⟨x, rowx, .head hedge hp, hx⟩
    · obtain ⟨v, hv⟩ := isSome_iff_exists.mp (h.inputs_mono hr hi)
      obtain ⟨row', ht', hin, _⟩ := h.input_row hv
      obtain rfl : row' = row := by rw [ht] at ht'; exact (some.inj ht').symm
      exact ⟨k, row', .refl, ht, hin, hc, hi⟩

end Sound

end RedGreen
