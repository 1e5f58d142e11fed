import Mathlib.Data.List.Nodup
import Mathlib.Data.Nat.Bitwise
import Fors.Lib.Probing

/-!
# The cons table

Open addressing with linear probing over 64-bit keys. A probe ends because the table grows before
it is full, and the equality it is given tells entries of one key apart.

Source: `crates/fors-fir/src/cons.rs`. Principal results: `Pool.lookup` and `Pool.insert`.
-/

namespace Fors.Ty

open Probing
open List hiding getElem?_eq_some_iff

/-- Marks an empty slot. -/
def EMPTY : Nat := 2 ^ 32 - 1

def LOAD_NUM : Nat := 7
def LOAD_DEN : Nat := 8

structure ConsTable where
  keys : List Nat
  vals : List Nat
  mask : Nat
  len : Nat
  deriving DecidableEq

namespace ConsTable

/-- `with_capacity` of a power of two that is at least 8. -/
def with_capacity (cap : Nat) : ConsTable :=
  ⟨List.replicate cap 0, List.replicate cap EMPTY, cap - 1, 0⟩

def new : ConsTable := with_capacity 64

/-- The probe loop of `lookup`: the outer `none` is a loop that does not end, or a bad index. -/
def lookup_loop (t : ConsTable) (key : Nat) (eq : Nat → Bool) : Nat → Nat → Option (Option Nat)
  | 0, _ => none
  | fuel + 1, i =>
    match t.vals[i]?, t.keys[i]? with
    | some v, some k =>
      if v = EMPTY then some none
      else if k = key ∧ eq v then some (some v)
      else t.lookup_loop key eq fuel ((i + 1) &&& t.mask)
    | _, _ => none

/-- Returns the value whose key is `key` and for which `eq` holds, probing past hash collisions. -/
def lookup (t : ConsTable) (key : Nat) (eq : Nat → Bool) : Option (Option Nat) :=
  t.lookup_loop key eq t.vals.length (key &&& t.mask)

/-- The first empty slot from `i` on. -/
def empty_slot (vals : List Nat) (mask : Nat) : Nat → Nat → Option Nat
  | 0, _ => none
  | fuel + 1, i =>
    match vals[i]? with
    | some v => if v = EMPTY then some i else empty_slot vals mask fuel ((i + 1) &&& mask)
    | none => none

/-- Writes the entry into the first empty slot of its probe. -/
def place (t : ConsTable) (key val : Nat) : Option ConsTable :=
  match empty_slot t.vals t.mask t.vals.length (key &&& t.mask) with
  | some i => some { t with keys := t.keys.set i key, vals := t.vals.set i val }
  | none => none

/-- The rehash loop of `grow`. -/
def place_all : List (Nat × Nat) → ConsTable → Option ConsTable
  | [], t => some t
  | (k, v) :: entries, t =>
    if v = EMPTY then place_all entries t
    else match t.place k v with
      | some t => place_all entries t
      | none => none

def grow (t : ConsTable) : Option ConsTable :=
  let cap := t.keys.length * 2
  place_all (t.keys.zip t.vals) ⟨List.replicate cap 0, List.replicate cap EMPTY, cap - 1, t.len⟩

/-- Room for one more entry. -/
def reserve (t : ConsTable) : Option ConsTable :=
  if (t.len + 1) * LOAD_DEN > t.keys.length * LOAD_NUM then t.grow else some t

/-- Inserts `(key, val)`. -/
def insert (t : ConsTable) (key val : Nat) : Option ConsTable := do
  let t ← t.reserve
  let t ← t.place key val
  return { t with len := t.len + 1 }

/-! ## What the table holds -/

/-- Slot `i` as an entry, or empty. -/
def slots (t : ConsTable) (i : Nat) : Option (Nat × Nat) :=
  match t.keys[i]?, t.vals[i]? with
  | some k, some v => if v = EMPTY then none else some (k, v)
  | _, _ => none

/-- The entry `(key, val)` is in the table. -/
def Holds (t : ConsTable) (key val : Nat) : Prop :=
  ∃ i < t.vals.length, t.slots i = some (key, val)

/-- The number of taken slots. -/
def used (t : ConsTable) : Nat :=
  t.vals.countP fun v => v ≠ EMPTY

/-- The slots are a probing table of a power of two. -/
structure WF (t : ConsTable) : Prop where
  cap : ∃ k, t.vals.length = 2 ^ k
  keys : t.keys.length = t.vals.length
  mask : t.mask = t.vals.length - 1
  table : Table t.vals.length (fun e : Nat × Nat => e.1 % t.vals.length) t.slots

/-- Between operations `len` counts the entries, and at least 8 slots are there. -/
structure Sound (t : ConsTable) : Prop extends WF t where
  len : t.used = t.len
  min : 8 ≤ t.vals.length

variable {t : ConsTable} {key val : Nat}

theorem WF.pos (h : t.WF) : 0 < t.vals.length := by
  obtain ⟨k, hk⟩ := h.cap
  rw [hk]
  exact Nat.two_pow_pos k

/-- The mask picks the remainder by the number of slots. -/
theorem WF.and_mask (h : t.WF) (i : Nat) : i &&& t.mask = i % t.vals.length := by
  obtain ⟨k, hk⟩ := h.cap
  rw [h.mask, hk, Nat.and_two_pow_sub_one_eq_mod]

theorem WF.vals_at (h : t.WF) {i : Nat} (hi : i < t.vals.length) :
    ∃ k v, t.keys[i]? = some k ∧ t.vals[i]? = some v ∧
      t.slots i = if v = EMPTY then none else some (k, v) := by
  have hi' : i < t.keys.length := by
    rw [h.keys]
    exact hi
  refine ⟨t.keys[i], t.vals[i], getElem?_eq_getElem hi', getElem?_eq_getElem hi, ?_⟩
  rw [slots, getElem?_eq_getElem hi', getElem?_eq_getElem hi]

/-- The probe of `lookup` from `i`, up to the first empty slot. -/
theorem lookup_loop_spec (h : t.WF) (eq : Nat → Bool) {fuel i d : Nat}
    (hd : slots t ((i + d) % t.vals.length) = none)
    (htaken : Taken t.vals.length t.slots i d) (hfuel : d < fuel) :
    ∃ r, t.lookup_loop key eq fuel (i % t.vals.length) = some r ∧
      (∀ v, r = some v → eq v = true ∧ t.Holds key v) ∧
      (r = none → ∀ j < d, ∀ v, t.slots ((i + j) % t.vals.length) = some (key, v) →
        eq v = false) := by
  induction fuel generalizing i d with
  | zero => omega
  | succ fuel ih =>
    have hi : i % t.vals.length < t.vals.length := Nat.mod_lt _ h.pos
    obtain ⟨k, v, hk, hv, hslot⟩ := h.vals_at hi
    rw [lookup_loop, hk, hv]
    by_cases hempty : v = EMPTY
    · refine ⟨none, if_pos hempty, fun v hv => (nomatch hv), fun _ j hj w hw => ?_⟩
      have := htaken 0 (by omega)
      rw [Nat.add_zero, hslot, if_pos hempty] at this
      exact absurd rfl this
    · rw [if_neg hempty] at hslot
      by_cases hmatch : k = key ∧ eq v
      · obtain ⟨rfl, heq⟩ := hmatch
        refine ⟨some v, by simp [hempty, heq], fun w hw => ?_, fun hw => nomatch hw⟩
        cases hw
        exact ⟨heq, _, hi, hslot⟩
      · have hd0 : d ≠ 0 := by
          rintro rfl
          rw [Nat.add_zero, hslot] at hd
          exact nomatch hd
        have hshift : ∀ j, i + 1 + j = i + (j + 1) := fun j => by omega
        obtain ⟨r, hr, hsome, hnone⟩ := @ih (i + 1) (d - 1)
          (by rw [hshift, Nat.sub_add_cancel (by omega), hd])
          (fun j hj => by rw [hshift]; exact htaken (j + 1) (by omega)) (by omega)
        refine ⟨r, ?_, hsome, fun hrn j hj w hw => ?_⟩
        · simp only [hempty, if_false, if_neg hmatch]
          rw [h.and_mask, Nat.mod_add_mod]
          exact hr
        · cases j with
          | zero =>
            rw [Nat.add_zero, hslot] at hw
            cases hw
            simpa using hmatch
          | succ j => exact hnone hrn j (by omega) w (by rw [hshift]; exact hw)

/-- A lookup ends; it finds an entry of the key that the equality accepts, if there is one. -/
theorem lookup_spec (h : t.WF) (key : Nat) (eq : Nat → Bool) :
    (∃ v, t.lookup key eq = some (some v) ∧ eq v = true ∧ t.Holds key v) ∨
      (t.lookup key eq = some none ∧ ∀ v, t.Holds key v → eq v = false) := by
  obtain ⟨d, hd⟩ := exists_firstEmpty h.table.room (key % t.vals.length)
  obtain ⟨r, hr, hsome, hnone⟩ :=
    @lookup_loop_spec t key h eq t.vals.length _ d hd.empty hd.taken hd.lt
  rw [Nat.mod_mod] at hr
  rw [lookup, h.and_mask, hr]
  cases r with
  | some v => exact .inl ⟨v, rfl, hsome v rfl⟩
  | none =>
    refine .inr ⟨rfl, fun v ⟨i, hi, hv⟩ => ?_⟩
    obtain ⟨j, hj, hmet⟩ := h.table.met hi hv hd
    exact hnone rfl j hj v hmet

/-- The probe for an empty slot finds the first one. -/
theorem empty_slot_eq (h : t.WF) {fuel i d : Nat}
    (hd : slots t ((i + d) % t.vals.length) = none)
    (htaken : Taken t.vals.length t.slots i d) (hfuel : d < fuel) :
    empty_slot t.vals t.mask fuel (i % t.vals.length) = some ((i + d) % t.vals.length) := by
  induction fuel generalizing i d with
  | zero => omega
  | succ fuel ih =>
    have hi : i % t.vals.length < t.vals.length := Nat.mod_lt _ h.pos
    obtain ⟨k, v, -, hv, hslot⟩ := h.vals_at hi
    simp only [empty_slot, hv]
    split
    · rename_i hempty
      cases d with
      | zero => rfl
      | succ d =>
        have := htaken 0 (by omega)
        rw [Nat.add_zero, hslot, if_pos hempty] at this
        exact absurd rfl this
    · rename_i hempty
      cases d with
      | zero =>
        rw [Nat.add_zero, hslot, if_neg hempty] at hd
        exact nomatch hd
      | succ d =>
        have hshift : ∀ j, i + 1 + j = i + (j + 1) := fun j => by omega
        rw [h.and_mask, Nat.mod_add_mod, ← hshift d]
        refine @ih (i + 1) d ?_ ?_ (by omega)
        · rw [hshift, hd]
        · intro j hj
          rw [hshift]
          exact htaken (j + 1) (by omega)

theorem slots_set {i : Nat} (hkeys : t.keys.length = t.vals.length) (hi : i < t.vals.length)
    (hval : val ≠ EMPTY) :
    slots { t with keys := t.keys.set i key, vals := t.vals.set i val } =
      Function.update t.slots i (some (key, val)) := by
  funext j
  rw [Function.update_apply]
  by_cases hji : j = i
  · subst hji
    rw [if_pos rfl, slots, getElem?_set_self (by omega), getElem?_set_self hi]
    exact if_neg hval
  · rw [if_neg hji, slots, getElem?_set_ne (Ne.symm hji), getElem?_set_ne (Ne.symm hji)]
    rfl

/-- A slot is empty as long as not every slot is taken. -/
theorem exists_empty {vals : List Nat} (h : vals.countP (fun v => v ≠ EMPTY) < vals.length) :
    ∃ j : Nat, vals[j]? = some EMPTY := by
  by_contra hall
  have hfull : vals.countP (fun v => v ≠ EMPTY) = vals.length := by
    rw [countP_eq_length]
    intro v hv
    obtain ⟨j, hj⟩ := mem_iff_getElem?.mp hv
    have : v ≠ EMPTY := fun h0 => hall ⟨j, by rw [hj, h0]⟩
    simpa using this
  omega

theorem slots_eq_none_of_vals {j : Nat} (h : t.vals[j]? = some EMPTY) : t.slots j = none := by
  rw [slots, h]
  cases t.keys[j]? <;> simp

/-- Placing an entry while two slots are empty. -/
theorem place_spec (h : t.WF) (hroom : t.used + 1 < t.vals.length) (hval : val ≠ EMPTY) :
    ∃ u, t.place key val = some u ∧ u.WF ∧ u.vals.length = t.vals.length ∧ u.len = t.len ∧
      u.used = t.used + 1 ∧ ∀ k v, u.Holds k v ↔ t.Holds k v ∨ (k = key ∧ v = val) := by
  obtain ⟨d, hd⟩ := exists_firstEmpty h.table.room (key % t.vals.length)
  have hslot := empty_slot_eq h hd.empty hd.taken hd.lt
  rw [Nat.mod_mod] at hslot
  generalize hi : (key % t.vals.length + d) % t.vals.length = i at hslot
  have hlt : i < t.vals.length := by
    rw [← hi]
    exact Nat.mod_lt _ h.pos
  obtain ⟨k0, v0, -, hv0, hnone⟩ := h.vals_at hlt
  have hempty : v0 = EMPTY := by
    rw [← hi, hd.empty] at hnone
    by_contra hne
    rw [if_neg hne] at hnone
    exact nomatch hnone
  have hused : (t.vals.set i val).countP (fun v => v ≠ EMPTY) = t.used + 1 := by
    rw [countP_set hlt, used]
    obtain ⟨_, hget⟩ := getElem?_eq_some_iff.mp hv0
    simp [hget, hempty, hval]
  have hset := @slots_set t key val i h.keys hlt hval
  refine ⟨{ t with keys := t.keys.set i key, vals := t.vals.set i val }, ?_, ?_,
    length_set, rfl, hused, ?_⟩
  · rw [place, h.and_mask, hslot]
  · refine ⟨?_, ?_, ?_, ?_⟩
    · simpa using h.cap
    · simpa using h.keys
    · simpa using h.mask
    · simp only [length_set, hset]
      obtain ⟨j, hj⟩ := @exists_empty (t.vals.set i val) (by rw [hused, length_set]; exact hroom)
      have hji : j ≠ i := by
        rintro rfl
        rw [getElem?_set_self hlt] at hj
        exact hval (Option.some.inj hj)
      rw [getElem?_set_ne hji.symm] at hj
      obtain ⟨hjlt, -⟩ := getElem?_eq_some_iff.mp hj
      rw [← hi] at hji ⊢
      exact h.table.put (a := (key, val)) hd ⟨j, hjlt, hji, slots_eq_none_of_vals hj⟩
  · intro k v
    simp only [Holds, hset, length_set, Function.update_apply]
    constructor
    · rintro ⟨j, hj, hjv⟩
      split at hjv
      · cases hjv
        exact .inr ⟨rfl, rfl⟩
      · exact .inl ⟨j, hj, hjv⟩
    · rintro (⟨j, hj, hjv⟩ | ⟨rfl, rfl⟩)
      · refine ⟨j, hj, ?_⟩
        rw [if_neg, hjv]
        rintro rfl
        rw [← hi, hd.empty] at hjv
        exact nomatch hjv
      · exact ⟨i, hlt, if_pos rfl⟩

/-- The rehash loop keeps what the table holds and adds the entries. -/
theorem place_all_spec {entries : List (Nat × Nat)} (h : t.WF)
    (hroom : t.used + entries.countP (fun e => e.2 ≠ EMPTY) < t.vals.length) :
    ∃ u, place_all entries t = some u ∧ u.WF ∧ u.vals.length = t.vals.length ∧ u.len = t.len ∧
      u.used = t.used + entries.countP (fun e => e.2 ≠ EMPTY) ∧
      ∀ k v, u.Holds k v ↔ t.Holds k v ∨ ((k, v) ∈ entries ∧ v ≠ EMPTY) := by
  induction entries generalizing t with
  | nil => exact ⟨t, rfl, h, rfl, rfl, rfl, by simp⟩
  | cons e entries ih =>
    obtain ⟨k, v⟩ := e
    rw [place_all]
    rw [countP_cons] at hroom ⊢
    by_cases hv : v = EMPTY
    · subst hv
      obtain ⟨u, hu, hwf, hcap, hlen, hused, hholds⟩ := ih h (by simpa using hroom)
      refine ⟨u, by rw [if_pos rfl, hu], hwf, hcap, hlen, by simpa using hused, fun k' v' => ?_⟩
      rw [hholds, mem_cons]
      grind
    · simp only [hv, ne_eq, not_false_eq_true, decide_true, if_true] at hroom
      obtain ⟨t', ht', hwf', hcap', hlen', hused', hholds'⟩ :=
        @place_spec t k v h (by omega) hv
      obtain ⟨u, hu, hwf, hcap, hlen, hused, hholds⟩ := ih hwf' (by
        rw [hused', hcap']
        simp only [ne_eq]
        omega)
      refine ⟨u, ?_, hwf, by rw [hcap, hcap'], by rw [hlen, hlen'], ?_, fun k' v' => ?_⟩
      · rw [if_neg hv, ht']
        exact hu
      · rw [hused, hused']
        simp only [hv, ne_eq, not_false_eq_true, decide_true, if_true]
        omega
      · rw [hholds, hholds', mem_cons]
        grind

theorem holds_iff_mem_zip (hkeys : t.keys.length = t.vals.length) :
    t.Holds key val ↔ (key, val) ∈ t.keys.zip t.vals ∧ val ≠ EMPTY := by
  rw [mem_iff_getElem?]
  constructor
  · rintro ⟨i, hi, hslot⟩
    rw [slots, getElem?_eq_getElem hi, getElem?_eq_getElem (by omega)] at hslot
    simp only [Option.ite_none_left_eq_some, Option.some.injEq, Prod.mk.injEq] at hslot
    obtain ⟨hne, rfl, rfl⟩ := hslot
    exact ⟨⟨i, by simp [hi, hkeys]⟩, hne⟩
  · rintro ⟨⟨i, hi⟩, hne⟩
    rw [getElem?_zip_eq_some] at hi
    obtain ⟨hi', -⟩ := getElem?_eq_some_iff.mp hi.2
    refine ⟨i, hi', ?_⟩
    rw [slots, hi.1, hi.2]
    exact if_neg hne

/-- A table without entries. -/
theorem slots_blank (cap mask len i : Nat) :
    slots ⟨List.replicate cap 0, List.replicate cap EMPTY, mask, len⟩ i = none := by
  by_cases hi : i < cap
  · exact slots_eq_none_of_vals (by simp [hi])
  · rw [slots]
    simp [hi]

theorem blank_wf (k len : Nat) :
    WF ⟨List.replicate (2 ^ k) 0, List.replicate (2 ^ k) EMPTY, 2 ^ k - 1, len⟩ := by
  refine ⟨⟨k, by simp⟩, by simp, by simp, ?_⟩
  simp only [length_replicate]
  exact Table.empty (Nat.two_pow_pos k) (slots_blank _ _ _)

theorem blank_used (cap mask len : Nat) :
    used ⟨List.replicate cap 0, List.replicate cap EMPTY, mask, len⟩ = 0 := by
  simp [used, countP_replicate]

theorem grow_spec (h : t.Sound) :
    ∃ u, t.grow = some u ∧ u.Sound ∧ u.vals.length = t.vals.length * 2 ∧ u.len = t.len ∧
      ∀ k v, u.Holds k v ↔ t.Holds k v := by
  obtain ⟨k, hk⟩ := h.cap
  have hcap : t.keys.length * 2 = 2 ^ (k + 1) := by
    rw [h.keys, hk, Nat.pow_succ]
  have hentries : (t.keys.zip t.vals).countP (fun e => e.2 ≠ EMPTY) = t.len := by
    rw [← h.len, used]
    conv_rhs => rw [← map_snd_zip (Nat.le_of_eq h.keys.symm), countP_map]
    rfl
  have hlen : t.len ≤ t.vals.length := by
    rw [← h.len]
    exact countP_le_length
  have hmin := h.min
  obtain ⟨u, hu, hwf, hulen, hlen', hused, hholds⟩ :=
    @place_all_spec _ (t.keys.zip t.vals) (blank_wf (k + 1) t.len) (by
      rw [blank_used, hentries]
      simp only [length_replicate, Nat.pow_succ]
      omega)
  rw [blank_used, hentries, Nat.zero_add] at hused
  simp only [length_replicate] at hulen
  have hcap' : u.vals.length = t.vals.length * 2 := by
    rw [hulen, ← hcap, h.keys]
  refine ⟨u, ?_, ⟨hwf, by rw [hused, hlen'], by omega⟩, hcap', hlen', fun k v => ?_⟩
  · rw [grow, hcap]
    exact hu
  · rw [hholds, ← holds_iff_mem_zip h.keys]
    refine or_iff_right ?_
    rintro ⟨i, -, hslot⟩
    rw [slots_blank] at hslot
    exact nomatch hslot

/-- At least two slots are empty where an entry is to be placed. -/
theorem reserve_spec (h : t.Sound) :
    ∃ u, t.reserve = some u ∧ u.Sound ∧ u.used + 1 < u.vals.length ∧ u.len = t.len ∧
      ∀ k v, u.Holds k v ↔ t.Holds k v := by
  have hmin := h.min
  have hlen : t.len ≤ t.vals.length := by
    rw [← h.len]
    exact countP_le_length
  rw [reserve]
  split
  · obtain ⟨u, hu, hsound, hcap, hulen, hholds⟩ := grow_spec h
    refine ⟨u, hu, hsound, ?_, hulen, hholds⟩
    rw [hsound.len, hulen, hcap]
    omega
  · rename_i hload
    refine ⟨t, rfl, h, ?_, rfl, fun _ _ => Iff.rfl⟩
    rw [h.keys] at hload
    simp only [LOAD_DEN, LOAD_NUM] at hload
    rw [h.len]
    omega

/-- An insertion ends, and adds the one entry. -/
theorem insert_spec (h : t.Sound) (hval : val ≠ EMPTY) :
    ∃ u, t.insert key val = some u ∧ u.Sound ∧
      ∀ k v, u.Holds k v ↔ t.Holds k v ∨ (k = key ∧ v = val) := by
  obtain ⟨g, hg, hsound, hroom, hlen, hholds⟩ := reserve_spec h
  obtain ⟨u, hu, hwf, hcap, hulen, hused, hput⟩ := @place_spec g key val hsound.toWF hroom hval
  refine ⟨{ u with len := t.len + 1 }, ?_, ?_, fun k v => ?_⟩
  · rw [insert, hg]
    simp [hu, hulen, hlen]
  · have := hsound.min
    refine ⟨⟨hwf.cap, hwf.keys, hwf.mask, hwf.table⟩, ?_, by simp only; omega⟩
    rw [show used { u with len := t.len + 1 } = u.used from rfl, hused, hsound.len, hlen]
  · rw [← hholds]
    exact hput k v

theorem new_sound : new.Sound :=
  ⟨blank_wf 6 0, blank_used 64 63 0, by simp [new, with_capacity]⟩

theorem not_holds_new : ¬ new.Holds key val := by
  rintro ⟨i, -, hslot⟩
  rw [new, with_capacity, slots_blank] at hslot
  exact nomatch hslot

end ConsTable

/-! ## Pools -/

section Pool

variable {α : Type} {t : ConsTable} {key : α → Nat} {entries : List α}

/-- The table indexes the entries, each once and under its own key. -/
structure Pool (t : ConsTable) (key : α → Nat) (entries : List α) : Prop where
  sound : t.Sound
  holds : ∀ k v, t.Holds k v ↔ ∃ x, entries[v]? = some x ∧ key x = k
  nodup : entries.Nodup

theorem Pool.empty (key : α → Nat) : Pool .new key [] :=
  ⟨ConsTable.new_sound, by simp [ConsTable.not_holds_new], nodup_nil⟩

/-- A lookup finds the entry exactly where it is in the pool, whatever the keys. -/
theorem Pool.lookup (h : Pool t key entries) {x : α} {same : Nat → Bool}
    (hsame : ∀ v y, entries[v]? = some y → (same v = true ↔ y = x)) :
    (∃ v, t.lookup (key x) same = some (some v) ∧ entries[v]? = some x) ∨
      (t.lookup (key x) same = some none ∧ x ∉ entries) := by
  obtain ⟨v, hv, heq, hholds⟩ | ⟨hnone, hall⟩ :=
    ConsTable.lookup_spec h.sound.toWF (key x) same
  · obtain ⟨y, hy, -⟩ := (h.holds _ _).mp hholds
    obtain rfl := (hsame v y hy).mp heq
    exact .inl ⟨v, hv, hy⟩
  · refine .inr ⟨hnone, fun hx => ?_⟩
    obtain ⟨v, hv⟩ := mem_iff_getElem?.mp hx
    have := hall v ((h.holds _ _).mpr ⟨x, hv, rfl⟩)
    rw [(hsame v x hv).mpr rfl] at this
    exact nomatch this

theorem getElem?_concat_eq_some {xs : List α} {x y : α} {i : Nat} :
    (xs ++ [x])[i]? = some y ↔ xs[i]? = some y ∨ (i = xs.length ∧ y = x) := by
  obtain hi | rfl | hi := Nat.lt_trichotomy i xs.length
  · rw [getElem?_append_left hi]
    exact (or_iff_left fun h => absurd h.1 (by omega)).symm
  · rw [getElem?_concat_length, getElem?_eq_none (Nat.le_refl _)]
    simp [eq_comm]
  · rw [getElem?_eq_none (by simp; omega), getElem?_eq_none (by omega)]
    simp
    omega

/-- Inserting a new entry under the next id. -/
theorem Pool.insert (h : Pool t key entries) {x : α} (hx : x ∉ entries)
    (hlen : entries.length < EMPTY) :
    ∃ u, t.insert (key x) entries.length = some u ∧ Pool u key (entries ++ [x]) := by
  obtain ⟨u, hu, hsound, hholds⟩ := @ConsTable.insert_spec t (key x) entries.length h.sound
    (Nat.ne_of_lt hlen)
  refine ⟨u, hu, hsound, fun k v => ?_, ?_⟩
  · rw [hholds, h.holds]
    simp only [getElem?_concat_eq_some]
    constructor
    · rintro (⟨y, hy, hk⟩ | ⟨rfl, rfl⟩)
      · exact ⟨y, .inl hy, hk⟩
      · exact ⟨x, .inr ⟨rfl, rfl⟩, rfl⟩
    · rintro ⟨y, hy | ⟨rfl, rfl⟩, hk⟩
      · exact .inl ⟨y, hy, hk⟩
      · exact .inr ⟨hk.symm, rfl⟩
  · rw [nodup_append]
    refine ⟨h.nodup, pairwise_singleton _ x, fun y hy z hz hyz => ?_⟩
    obtain rfl := mem_singleton.mp hz
    exact hx (hyz ▸ hy)

theorem Pool.index_inj (h : Pool t key entries) {i j : Nat} {x : α} (hi : entries[i]? = some x)
    (hj : entries[j]? = some x) : i = j := by
  obtain ⟨hi', hix⟩ := getElem?_eq_some_iff.mp hi
  obtain ⟨hj', hjx⟩ := getElem?_eq_some_iff.mp hj
  exact (Nodup.getElem_inj_iff h.nodup).mp (hix.trans hjx.symm)

end Pool

end Fors.Ty
