import Fors.Exec.Mem
import Fors.Lib.Words

/-!
# The bits of the initialisation map

The map is kept in words of 64 bits. Each operation on the words is the one on the map that has one
entry for each byte, for the bits behind the last byte are never set.

Source: `crates/fors-interp/src/mem.rs`. Principal result: `init_bits_exact`.
-/

namespace Fors.Exec

open List

/-! ## The map of initialised bytes -/

theorem length_set_range (map : InitMap) (start len : Nat) (value : Bool) :
    (map.set_range start len value).length = map.length := by
  unfold InitMap.set_range
  rw [length_map, length_zipIdx]

theorem get_set_range (map : InitMap) (start len : Nat) (value : Bool) (i : Nat) :
    (map.set_range start len value).get i =
      if i < map.length ∧ start ≤ i ∧ i < saturating_add start len then value else map.get i := by
  unfold InitMap.set_range InitMap.get
  rw [getD_eq_getElem?_getD, getElem?_map, getElem?_zipIdx,
    getD_eq_getElem?_getD]
  by_cases hi : i < map.length
  · rw [getElem?_eq_getElem hi]
    by_cases hin : start ≤ i ∧ i < saturating_add start len
    · simp [hi, hin]
    · simp [hin]
  · rw [getElem?_eq_none (by omega), if_neg (by omega)]
    rfl

theorem length_init_grow (map : InitMap) (len : Nat) :
    (map.grow_to len).length = max map.length len := by
  unfold InitMap.grow_to
  rw [length_append, length_replicate]
  omega

theorem get_init_grow (map : InitMap) (len i : Nat) : (map.grow_to len).get i = map.get i := by
  unfold InitMap.grow_to InitMap.get
  rw [getD_eq_getElem?_getD, getD_eq_getElem?_getD, getElem?_append]
  by_cases hi : i < map.length
  · rw [if_pos hi]
  · rw [if_neg hi, getElem?_eq_none (l := map) (by omega), getElem?_replicate]
    split <;> rfl

theorem all_set_iff {off width : Nat} (map : InitMap) (h : off + width ≤ U32_MAX) :
    map.all_set off width = true ↔ ∀ i, off ≤ i → i < off + width → map.get i = true := by
  have hsat : saturating_add off width = off + width := min_eq_left h
  unfold InitMap.all_set
  rw [hsat, Nat.add_sub_cancel_left, all_eq_true]
  constructor
  · intro hall i hlo hhi
    have hget := hall (i - off) (mem_range.mpr (by omega))
    rwa [Nat.add_sub_cancel' hlo] at hget
  · intro hall k hk
    rw [mem_range] at hk
    exact hall (off + k) (by omega) (by omega)

/-! ## Its words -/

/-- The words, and how many of their bits count. -/
structure InitBits where
  words : List (BitVec 64)
  len : Nat

namespace InitBits

def zeros (len : Nat) : InitBits :=
  ⟨List.replicate ((len + 63) / 64) 0, len⟩

def grow_to (b : InitBits) (len : Nat) : InitBits :=
  if len > b.len then
    ⟨b.words ++ List.replicate ((len + 63) / 64 - b.words.length) 0, len⟩
  else b

def get (b : InitBits) (i : Nat) : Bool :=
  if i ≥ b.len then false
  else b.words.getD (i / 64) 0 >>> (i % 64) &&& 1#64 = 1#64

def set (b : InitBits) (i : Nat) (value : Bool) : InitBits :=
  let w := b.words.getD (i / 64) 0
  { b with
    words := b.words.set (i / 64)
      (if value then w ||| 1#64 <<< (i % 64) else w &&& ~~~(1#64 <<< (i % 64))) }

/-- The next `n` bits from `i` on, until there are none. -/
def set_next (value : Bool) : Nat → Nat → InitBits → InitBits
  | 0, _, b => b
  | n + 1, i, b => if i ≥ b.len then b else set_next value n (i + 1) (b.set i value)

def set_range (b : InitBits) (start len : Nat) (value : Bool) : InitBits :=
  b.set_next value (saturating_add start len - start) start

def all_set (b : InitBits) (start len : Nat) : Bool :=
  (List.range (saturating_add start len - start)).all fun k => b.get (start + k)

/-! ### The map they stand for -/

/-- One entry for each byte. -/
def map (b : InitBits) : InitMap :=
  (List.range b.len).map b.get

/-- There are just enough words, and no bit behind the last byte is set. -/
structure Sound (b : InitBits) : Prop where
  length : b.words.length = (b.len + 63) / 64
  clear : ∀ i, b.len ≤ i → (b.words.getD (i / 64) 0).getLsbD (i % 64) = false

variable {b : InitBits} {i j len start : Nat} {value : Bool}

/-- The shift and the mask read one bit. -/
theorem get_eq (b : InitBits) (i : Nat) :
    b.get i = (decide (i < b.len) && (b.words.getD (i / 64) 0).getLsbD (i % 64)) := by
  have hbit : ∀ (w : BitVec 64) (k : Nat), decide (w >>> k &&& 1#64 = 1#64) = w.getLsbD k := by
    intro w k
    rw [Bool.eq_iff_iff, decide_eq_true_eq]
    constructor
    · intro h
      have hzero := congrArg (fun v : BitVec 64 => v.getLsbD 0) h
      simpa using hzero
    · intro h
      apply BitVec.eq_of_getLsbD_eq
      intro j hj
      rw [BitVec.getLsbD_and, BitVec.getLsbD_ushiftRight]
      cases j with
      | zero =>
        rw [Nat.add_zero, h]
        rfl
      | succ j =>
        have hone : (1#64).getLsbD (j + 1) = false := by
          rw [BitVec.getLsbD_one]
          simp
        rw [hone, Bool.and_false]
  unfold get
  by_cases hi : i < b.len
  · rw [if_neg (by omega), hbit, decide_eq_true hi, Bool.true_and]
  · rw [if_pos (by omega), decide_eq_false hi, Bool.false_and]

theorem get_map (b : InitBits) (i : Nat) : b.map.get i = b.get i := by
  unfold map InitMap.get
  rw [getD_eq_getElem?_getD, getElem?_map]
  by_cases hi : i < b.len
  · rw [getElem?_range hi]
    rfl
  · rw [getElem?_eq_none (by rw [length_range]; omega), get_eq, decide_eq_false hi]
    rfl

theorem map_ext {m : InitMap} (hlen : m.length = b.len) (h : ∀ i, i < b.len → b.get i = m.get i) :
    b.map = m := by
  apply ext_getElem
  · unfold map
    rw [length_map, length_range, hlen]
  · intro i hi hi'
    unfold map at hi ⊢
    rw [length_map, length_range] at hi
    rw [getElem_map, getElem_range, h i hi]
    unfold InitMap.get
    rw [getD_eq_getElem?_getD, getElem?_eq_getElem hi']
    rfl

/-! ### The operations -/

theorem sound_zeros (len : Nat) : (zeros len).Sound := by
  refine ⟨?_, ?_⟩
  · exact length_replicate
  · intro i _
    unfold zeros
    rw [getD_eq_getElem?_getD, getElem?_replicate]
    split
    · exact BitVec.getLsbD_zero
    · exact BitVec.getLsbD_zero

theorem map_zeros (len : Nat) : (zeros len).map = InitMap.zeros len := by
  apply map_ext
  · exact length_replicate
  · intro i hi
    rw [get_eq]
    unfold zeros InitMap.zeros InitMap.get
    rw [getD_eq_getElem?_getD, getD_eq_getElem?_getD, getElem?_replicate,
      getElem?_replicate]
    split
    · split <;> simp
    · split <;> simp

theorem getD_append_zeros (words : List (BitVec 64)) (n k : Nat) :
    (words ++ List.replicate n 0).getD k 0 = words.getD k 0 := by
  rw [getD_eq_getElem?_getD, getD_eq_getElem?_getD, getElem?_append]
  split
  · rfl
  · next hk =>
    rw [getElem?_eq_none (l := words) (by omega), getElem?_replicate]
    split <;> rfl

theorem sound_grow_to (h : b.Sound) (len : Nat) : (b.grow_to len).Sound := by
  unfold grow_to
  split
  · next hgt =>
    refine ⟨?_, ?_⟩
    · show (b.words ++ List.replicate _ 0).length = _
      have hlen := h.length
      rw [length_append, length_replicate]
      show _ = (len + 63) / 64
      omega
    · intro i hi
      show ((b.words ++ List.replicate _ 0).getD (i / 64) 0).getLsbD _ = _
      have hi' : len ≤ i := hi
      rw [getD_append_zeros]
      exact h.clear i (by omega)
  · exact h

/-- The new bytes are not initialised, for their bits were clear. -/
theorem map_grow_to (h : b.Sound) (len : Nat) : (b.grow_to len).map = b.map.grow_to len := by
  have hmap : b.map.length = b.len := by
    unfold map
    rw [length_map, length_range]
  apply map_ext
  · rw [length_init_grow, hmap]
    unfold grow_to
    split
    · exact max_eq_right (by omega)
    · exact max_eq_left (by omega)
  · intro i hi
    rw [get_init_grow, get_map, get_eq, get_eq, decide_eq_true hi, Bool.true_and]
    unfold grow_to at hi ⊢
    split
    · show ((b.words ++ List.replicate _ 0).getD (i / 64) 0).getLsbD _ = _
      rw [getD_append_zeros]
      by_cases hin : i < b.len
      · rw [decide_eq_true hin, Bool.true_and]
      · rw [decide_eq_false hin, Bool.false_and]
        exact h.clear i (by omega)
    · next hle =>
      rw [if_neg hle] at hi
      rw [decide_eq_true hi, Bool.true_and]

theorem getLsbD_set (h : b.Sound) (hi : i < b.len) (value : Bool) (j : Nat) :
    (((b.set i value).words).getD (j / 64) 0).getLsbD (j % 64) =
      if j = i then value else (b.words.getD (j / 64) 0).getLsbD (j % 64) := by
  have hword : i / 64 < b.words.length := by
    rw [h.length]
    omega
  have hone : ∀ k, (1#64 <<< (i % 64)).getLsbD k =
      (decide (k < 64) && decide (k = i % 64)) := by
    intro k
    rw [BitVec.getLsbD_shiftLeft, BitVec.getLsbD_one]
    by_cases hk : k = i % 64
    · subst hk
      simp
    · by_cases hlt : k < i % 64
      · simp [hk, hlt]
      · have hne : ¬k - i % 64 = 0 := by omega
        simp [hk, hne]
  unfold set
  dsimp only
  rw [getD_eq_getElem?_getD (l := b.words.set _ _), getElem?_set]
  by_cases hsame : i / 64 = j / 64
  · rw [if_pos hsame, if_pos hword, Option.getD_some, ← hsame]
    have hlt : j % 64 < 64 := Nat.mod_lt _ (by decide)
    by_cases hj : j = i
    · subst hj
      rw [if_pos rfl]
      cases value with
      | true =>
        rw [if_pos rfl, BitVec.getLsbD_or, hone]
        simp [hlt]
      | false =>
        rw [if_neg (by decide), BitVec.getLsbD_and, BitVec.getLsbD_not, hone]
        simp [hlt]
    · have hne : ¬j % 64 = i % 64 := by omega
      rw [if_neg hj]
      cases value with
      | true =>
        rw [if_pos rfl, BitVec.getLsbD_or, hone]
        simp [hne]
      | false =>
        rw [if_neg (by decide), BitVec.getLsbD_and, BitVec.getLsbD_not, hone]
        simp [hne, hlt]
  · have hj : j ≠ i := fun h => hsame (by rw [h])
    rw [if_neg hsame, if_neg hj, getD_eq_getElem?_getD]

theorem sound_set (h : b.Sound) (hi : i < b.len) (value : Bool) : (b.set i value).Sound := by
  refine ⟨?_, ?_⟩
  · show (b.words.set _ _).length = _
    rw [length_set]
    exact h.length
  · intro j hj
    have hlen : (b.set i value).len = b.len := rfl
    rw [hlen] at hj
    rw [getLsbD_set h hi, if_neg (by omega)]
    exact h.clear j hj

theorem set_next_spec (value : Bool) (n : Nat) : ∀ (i : Nat) (b : InitBits), b.Sound →
    (set_next value n i b).Sound ∧ (set_next value n i b).len = b.len ∧
      ∀ j, (set_next value n i b).get j =
        if j < b.len ∧ i ≤ j ∧ j < i + n then value else b.get j := by
  induction n with
  | zero =>
    intro i b h
    refine ⟨h, rfl, ?_⟩
    intro j
    rw [if_neg (by omega)]
    rfl
  | succ n ih =>
    intro i b h
    rw [set_next]
    by_cases hi : i ≥ b.len
    · rw [if_pos hi]
      refine ⟨h, rfl, ?_⟩
      intro j
      rw [if_neg (by omega)]
    · have hlt : i < b.len := by omega
      rw [if_neg hi]
      obtain ⟨hsound, hlen, hget⟩ := ih (i + 1) (b.set i value) (sound_set h hlt value)
      have hsame : (b.set i value).len = b.len := rfl
      rw [hsame] at hlen
      refine ⟨hsound, hlen, ?_⟩
      intro j
      rw [hget j, hsame]
      by_cases hin : j < b.len ∧ i + 1 ≤ j ∧ j < i + 1 + n
      · rw [if_pos hin, if_pos (by omega)]
      · rw [if_neg hin, get_eq, hsame, getLsbD_set h hlt]
        by_cases hj : j = i
        · rw [if_pos hj, if_pos (by omega), decide_eq_true (by omega), Bool.true_and]
        · rw [if_neg hj, if_neg (by omega), get_eq]

theorem sound_set_range (h : b.Sound) (start len : Nat) (value : Bool) :
    (b.set_range start len value).Sound :=
  (set_next_spec value _ start b h).1

theorem map_set_range (h : b.Sound) (start len : Nat) (value : Bool) :
    (b.set_range start len value).map = b.map.set_range start len value := by
  obtain ⟨-, hlen, hget⟩ := set_next_spec value (saturating_add start len - start) start b h
  have hmap : b.map.length = b.len := by
    unfold map
    rw [length_map, length_range]
  apply map_ext
  · rw [length_set_range, hmap]
    exact hlen.symm
  · intro i hi
    have hi' : i < b.len := by
      unfold set_range at hi
      rwa [hlen] at hi
    unfold set_range
    rw [hget i, get_set_range, hmap, get_map]
    by_cases hin : start ≤ i ∧ i < saturating_add start len
    · rw [if_pos (by omega), if_pos (by omega)]
    · rw [if_neg (by omega), if_neg (by omega)]

theorem all_set_map (b : InitBits) (start len : Nat) :
    b.map.all_set start len = b.all_set start len := by
  unfold InitMap.all_set all_set
  simp [get_map]

/-! ### Runs -/

/-- What is done to the map of an object. -/
inductive InitOp where
  | Grow (len : Nat)
  | Set (start len : Nat) (value : Bool)

def step (b : InitBits) : InitOp → InitBits
  | .Grow len => b.grow_to len
  | .Set start len value => b.set_range start len value

def map_step (map : InitMap) : InitOp → InitMap
  | .Grow len => map.grow_to len
  | .Set start len value => map.set_range start len value

theorem step_spec (h : b.Sound) (op : InitOp) :
    (b.step op).Sound ∧ (b.step op).map = map_step b.map op := by
  cases op with
  | Grow len => exact ⟨sound_grow_to h len, map_grow_to h len⟩
  | Set start len value => exact ⟨sound_set_range h start len value, map_set_range h start len value⟩

theorem run_spec (h : b.Sound) (ops : List InitOp) :
    (ops.foldl step b).Sound ∧ (ops.foldl step b).map = ops.foldl map_step b.map := by
  induction ops generalizing b with
  | nil => exact ⟨h, rfl⟩
  | cons op ops ih =>
    obtain ⟨hsound, hmap⟩ := step_spec h op
    rw [foldl_cons, foldl_cons, ← hmap]
    exact ih hsound

/-- Over every run the words answer as one entry for each byte does, and no answer is looked for in
a word that is not there. -/
theorem init_bits_exact (size : Nat) (ops : List InitOp) :
    (∀ i, (ops.foldl step (zeros size)).get i = (ops.foldl map_step (.zeros size)).get i) ∧
    (∀ off width, (ops.foldl step (zeros size)).all_set off width =
      (ops.foldl map_step (.zeros size)).all_set off width) ∧
    ∀ i < (ops.foldl step (zeros size)).len, i / 64 < (ops.foldl step (zeros size)).words.length := by
  obtain ⟨hsound, hmap⟩ := run_spec (sound_zeros size) ops
  rw [map_zeros] at hmap
  refine ⟨fun i => ?_, fun off width => ?_, fun i hi => ?_⟩
  · rw [← hmap, get_map]
  · rw [← hmap, all_set_map]
  · rw [hsound.length]
    omega

end InitBits

end Fors.Exec
