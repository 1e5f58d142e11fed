import Fors.Fmt.Lines
import Fors.Fmt.Search

/-!
# The edits turn the old buffer into the new one

The pairs that the search keeps cut both buffers into runs of lines: those between two kept lines
become one edit. Applied from the back, an edit finds everything before its end as it was.

Principal result: `diff_turns`.
-/

namespace Fors.Fmt

open Myers Option
open List hiding getElem?_eq_some_iff

variable {la lb : List (List UInt8)} {old new : List UInt8} {pairs : List (Nat × Nat)}
  {ai aj bi bj n m i j : Nat}

/-- The buffer after all edits, the last one first. -/
def apply_edits (old : List UInt8) (edits : List TextEdit) : List UInt8 :=
  edits.foldr (fun e buf => buf.take e.start.toNat ++ e.new_text ++ buf.drop e.end_.toNat) old

/-- A place before a line of a buffer, or at its end. -/
def Boundary (old : List UInt8) (o : Nat) : Prop :=
  ∃ i ≤ (lines old).length, o = offset (lines old) i

/-- How many lines an edit deletes and how many it inserts. -/
def deleted (old : List UInt8) (e : TextEdit) : Nat :=
  (lines ((old.drop e.start.toNat).take (e.end_.toNat - e.start.toNat))).length

def inserted (e : TextEdit) : Nat :=
  (lines e.new_text).length

/-! ## The script of a list of pairs -/

/-- One changed run, if it is not empty. -/
def changed (la lb : List (List UInt8)) (ai aj bi bj : Nat) : List TextEdit :=
  if ai = aj ∧ bi = bj then []
  else [⟨(offset la ai).toUInt32, (offset la aj).toUInt32, ((lb.drop bi).take (bj - bi)).flatten⟩]

def script (la lb : List (List UInt8)) : List (Nat × Nat) → Nat → Nat → List TextEdit
  | [], ai, bi => changed la lb ai la.length bi lb.length
  | (x, y) :: pairs, ai, bi => changed la lb ai x bi y ++ script la lb pairs (x + 1) (y + 1)

/-- The pairs go on from a place, and have equal lines. -/
def Kept (la lb : List (List UInt8)) : List (Nat × Nat) → Nat → Nat → Prop
  | [], i, j => i ≤ la.length ∧ j ≤ lb.length
  | (x, y) :: pairs, i, j =>
    i ≤ x ∧ j ≤ y ∧ (∃ l, la[x]? = some l ∧ lb[y]? = some l) ∧ Kept la lb pairs (x + 1) (y + 1)

theorem kept_of_matches (h : Matches la lb pairs la.length lb.length)
    (hfrom : ∀ p ∈ pairs, i ≤ p.1 ∧ j ≤ p.2) (hi : i ≤ la.length) (hj : j ≤ lb.length) :
    Kept la lb pairs i j := by
  obtain ⟨hsorted, hbelow, hequal⟩ := h
  induction pairs generalizing i j with
  | nil => exact ⟨hi, hj⟩
  | cons p pairs ih =>
    obtain ⟨x, y⟩ := p
    obtain ⟨hhead, hsorted⟩ := pairwise_cons.mp hsorted
    obtain ⟨hx, hy⟩ := hfrom (x, y) mem_cons_self
    obtain ⟨hx', hy'⟩ := hbelow (x, y) mem_cons_self
    refine ⟨hx, hy, hequal (x, y) mem_cons_self, ?_⟩
    apply ih
    · intro p hp
      obtain ⟨hlt, hlt'⟩ := hhead p hp
      exact ⟨hlt, hlt'⟩
    · exact hx'
    · exact hy'
    · exact hsorted
    · intro p hp
      exact hbelow p (mem_cons_of_mem _ hp)
    · intro p hp
      exact hequal p (mem_cons_of_mem _ hp)

theorem Kept.le (h : Kept la lb pairs i j) : i ≤ la.length ∧ j ≤ lb.length := by
  cases pairs with
  | nil => exact h
  | cons p pairs =>
    obtain ⟨x, y⟩ := p
    obtain ⟨hx, hy, ⟨l, hl, hl'⟩, -⟩ := h
    have hxlt := (getElem?_eq_some_iff.mp hl).1
    have hylt := (getElem?_eq_some_iff.mp hl').1
    omega

/-! ### It is what the code pushes -/

theorem flush_eq (edits : List TextEdit) (ha : ai ≤ aj) (hb : bi ≤ bj) (haj : aj ≤ (lines old).length)
    (hbj : bj ≤ (lines new).length) :
    flush (line_starts old) (line_starts new) new ai aj bi bj edits =
      some (edits ++ changed (lines old) (lines new) ai aj bi bj) := by
  unfold flush changed
  split
  · rw [append_nil]
  · have hslice := slice_eq (lines new) hb
    rw [flatten_lines] at hslice
    rw [line_starts_get (by omega), line_starts_get haj, line_starts_get (by omega),
      line_starts_get hbj]
    simp only [bind_eq_bind, bind_some, hslice]
    rfl

theorem flush_pairs_eq (edits : List TextEdit) (h : Kept (lines old) (lines new) pairs ai bi) :
    flush_pairs (line_starts old) (line_starts new) new (lines old).length (lines new).length pairs
      ai bi edits = some (edits ++ script (lines old) (lines new) pairs ai bi) := by
  induction pairs generalizing ai bi edits with
  | nil =>
    rw [flush_pairs, script]
    exact flush_eq edits h.1 h.2 (Nat.le_refl _) (Nat.le_refl _)
  | cons p pairs ih =>
    obtain ⟨x, y⟩ := p
    obtain ⟨hx, hy, -, hrest⟩ := h
    have hle := hrest.le
    rw [flush_pairs, flush_eq edits hx hy (by omega) (by omega), script]
    simp only [bind_eq_bind, bind_some]
    rw [ih _ hrest, append_assoc]

/-! ### It is right -/

theorem toNat_offset (hsmall : la.flatten.length < 2 ^ 32) (i : Nat) :
    (offset la i).toUInt32.toNat = offset la i :=
  UInt32.toNat_ofNat_of_lt' (Nat.lt_of_le_of_lt (offset_le la i) hsmall)

/-- One changed run is put in where its lines were. -/
theorem apply_changed (hsmall : la.flatten.length < 2 ^ 32) (ha : ai ≤ aj) (hb : bi ≤ bj)
    (lb : List (List UInt8)) (rest : List UInt8) :
    apply_edits ((la.take aj).flatten ++ rest) (changed la lb ai aj bi bj) =
      (la.take ai).flatten ++ ((lb.drop bi).take (bj - bi)).flatten ++ rest := by
  unfold changed
  split
  · next hsame =>
    obtain ⟨rfl, rfl⟩ := hsame
    simp [apply_edits]
  · have hend : ((la.take aj).flatten ++ rest).drop (offset la aj) = rest := drop_left
    have hstart : ((la.take aj).flatten ++ rest).take (offset la ai) = (la.take ai).flatten := by
      have hle : offset la ai ≤ (la.take aj).flatten.length := offset_mono ha
      rw [take_append_of_le_length hle]
      have htake := flatten_take (la.take aj) ai
      unfold offset at htake ⊢
      rwa [take_take, Nat.min_eq_left ha] at htake
    simp [apply_edits, toNat_offset hsmall, hend, hstart]

theorem apply_append (old : List UInt8) (edits edits' : List TextEdit) :
    apply_edits old (edits ++ edits') = apply_edits (apply_edits old edits') edits := by
  unfold apply_edits
  rw [foldr_append]

/-- The edits behind a place leave what is before it, and put the new lines behind it. -/
theorem apply_script (hsmall : la.flatten.length < 2 ^ 32) (h : Kept la lb pairs i j) :
    apply_edits la.flatten (script la lb pairs i j) =
      (la.take i).flatten ++ (lb.drop j).flatten := by
  induction pairs generalizing i j with
  | nil =>
    obtain ⟨hi, hj⟩ := h
    have happly := apply_changed hsmall hi hj lb []
    rw [append_nil, append_nil, take_length] at happly
    rw [script, happly, ← length_drop, take_length]
  | cons p pairs ih =>
    obtain ⟨x, y⟩ := p
    obtain ⟨hx, hy, ⟨l, hl, hl'⟩, hrest⟩ := h
    have hylt := (getElem?_eq_some_iff.mp hl').1
    have hline : lb.drop j = (lb.drop j).take (y - j) ++ l :: lb.drop (y + 1) := by
      conv_lhs => rw [← take_append_drop (y - j) (lb.drop j)]
      rw [drop_drop, Nat.add_sub_cancel' hy, drop_eq_getElem_cons hylt,
        (getElem?_eq_some_iff.mp hl').2]
    have htake : (la.take (x + 1)).flatten = (la.take x).flatten ++ l := by
      rw [take_next hl, flatten_append, flatten_singleton]
    rw [script, apply_append, ih hrest, htake, append_assoc, apply_changed hsmall hx hy lb]
    conv_rhs => rw [hline, flatten_append, flatten_cons]
    simp

theorem mem_changed {e : TextEdit} (hsmall : la.flatten.length < 2 ^ 32)
    (h : e ∈ changed la lb ai aj bi bj) : e.start.toNat = offset la ai ∧
      e.end_.toNat = offset la aj ∧ e.new_text = ((lb.drop bi).take (bj - bi)).flatten := by
  unfold changed at h
  split at h
  · cases h
  · obtain rfl := mem_singleton.mp h
    exact ⟨toNat_offset hsmall ai, toNat_offset hsmall aj, rfl⟩

/-- The runs of lines that its edits replace. -/
theorem mem_script {e : TextEdit} (hsmall : la.flatten.length < 2 ^ 32)
    (h : Kept la lb pairs i j) (he : e ∈ script la lb pairs i j) : ∃ s t, i ≤ s ∧ s ≤ t ∧
      t ≤ la.length ∧ e.start.toNat = offset la s ∧ e.end_.toNat = offset la t := by
  induction pairs generalizing i j with
  | nil =>
    obtain ⟨hstart, hend, -⟩ := mem_changed hsmall he
    exact ⟨i, la.length, Nat.le_refl _, h.1, Nat.le_refl _, hstart, hend⟩
  | cons p pairs ih =>
    obtain ⟨x, y⟩ := p
    obtain ⟨hx, hy, ⟨l, hl, -⟩, hrest⟩ := h
    have hxlt := (getElem?_eq_some_iff.mp hl).1
    rcases mem_append.mp he with he | he
    · obtain ⟨hstart, hend, -⟩ := mem_changed hsmall he
      exact ⟨i, x, Nat.le_refl _, hx, by omega, hstart, hend⟩
    · obtain ⟨s, t, hs, hst, ht, hstart, hend⟩ := ih hrest he
      exact ⟨s, t, by omega, hst, ht, hstart, hend⟩

theorem changed_pairwise (R : TextEdit → TextEdit → Prop) :
    (changed la lb ai aj bi bj).Pairwise R := by
  unfold changed
  split
  · exact .nil
  · exact pairwise_singleton _ _

/-- Its edits are in order, and none begins where another ends: a kept line is between them. -/
theorem script_ordered (hform : Broken la) (hsmall : la.flatten.length < 2 ^ 32)
    (h : Kept la lb pairs i j) :
    (script la lb pairs i j).Pairwise fun e e' => e.end_ < e'.start := by
  induction pairs generalizing i j with
  | nil => exact changed_pairwise _
  | cons p pairs ih =>
    obtain ⟨x, y⟩ := p
    obtain ⟨hx, hy, ⟨l, hl, -⟩, hrest⟩ := h
    rw [script, pairwise_append]
    refine ⟨changed_pairwise _, ih hrest, ?_⟩
    intro e he e' he'
    obtain ⟨-, hend, -⟩ := mem_changed hsmall he
    obtain ⟨s, t, hs, -, -, hstart, -⟩ := mem_script hsmall hrest he'
    have hline : offset la (x + 1) = offset la x + l.length := by
      unfold offset
      rw [take_next hl, flatten_append, flatten_singleton, length_append]
    have hne : 0 < l.length := length_pos_iff.mpr (hform.ne_nil (mem_of_getElem? hl))
    have hmono : offset la (x + 1) ≤ offset la s := offset_mono hs
    rw [UInt32.lt_iff_toNat_lt]
    omega

/-- One changed run deletes its lines of the one buffer and inserts those of the other. -/
theorem changed_count (hform : Broken la) (hform' : Broken lb) (hsmall : la.flatten.length < 2 ^ 32)
    (ha : ai ≤ aj) (haj : aj ≤ la.length) (hb : bi ≤ bj) (hbj : bj ≤ lb.length) :
    ((changed la lb ai aj bi bj).map fun e => deleted la.flatten e + inserted e).sum =
      (aj - ai) + (bj - bi) := by
  unfold changed
  split
  · next hsame =>
    obtain ⟨rfl, rfl⟩ := hsame
    simp
  · have hdeleted := ((hform.drop ai).take (aj - ai)).lines_flatten
    have hinserted := ((hform'.drop bi).take (bj - bi)).lines_flatten
    simp only [map_cons, map_nil, sum_cons, sum_nil, deleted, inserted,
      toNat_offset hsmall, slice_lines ha, hdeleted, hinserted, length_take, length_drop]
    omega

/-- It deletes and inserts the lines that no pair keeps. -/
theorem script_count (hform : Broken la) (hform' : Broken lb) (hsmall : la.flatten.length < 2 ^ 32)
    (h : Kept la lb pairs i j) :
    ((script la lb pairs i j).map fun e => deleted la.flatten e + inserted e).sum +
      2 * pairs.length = (la.length - i) + (lb.length - j) := by
  induction pairs generalizing i j with
  | nil =>
    rw [script, changed_count hform hform' hsmall h.1 (Nat.le_refl _) h.2 (Nat.le_refl _)]
    rfl
  | cons p pairs ih =>
    obtain ⟨x, y⟩ := p
    obtain ⟨hx, hy, -, hrest⟩ := h
    have hle := hrest.le
    have hcount := ih hrest
    rw [script, map_append, sum_append,
      changed_count hform hform' hsmall hx (by omega) hy (by omega), length_cons]
    omega

/-! ## The whole buffer -/

/-- What a diff promises: edits at line boundaries, one behind the other, that give the new buffer
and change as few lines as can be; past the bound, one edit for all. -/
structure Turns (old new : List UInt8) (edits : List TextEdit) : Prop where
  ordered : edits.Pairwise fun e e' => e.end_ < e'.start
  bounded : ∀ e ∈ edits, e.start ≤ e.end_ ∧ Boundary old e.start.toNat ∧ Boundary old e.end_.toNat
  applied : apply_edits old edits = new
  shortest : distance (lines old) (lines new) ≤ BOUND →
    (edits.map fun e => deleted old e + inserted e).sum = distance (lines old) (lines new)
  coarse : BOUND < distance (lines old) (lines new) →
    edits = [⟨0, old.length.toUInt32, new⟩]

theorem turns_refl (old : List UInt8) : Turns old old [] where
  ordered := .nil
  bounded := nofun
  applied := rfl
  shortest := fun _ => (distance_self _).symm
  coarse := by
    rw [distance_self]
    intro h
    omega

theorem turns_script (hsmall : old.length < 2 ^ 32) (h : Kept (lines old) (lines new) pairs 0 0)
    (hbound : distance (lines old) (lines new) ≤ BOUND)
    (hcount : 2 * pairs.length + distance (lines old) (lines new) =
      (lines old).length + (lines new).length) :
    Turns old new (script (lines old) (lines new) pairs 0 0) := by
  have hflat : (lines old).flatten.length < 2 ^ 32 := by rwa [flatten_lines]
  refine ⟨script_ordered (broken_lines old) hflat h, ?_, ?_, ?_, by omega⟩
  · intro e he
    obtain ⟨s, t, -, hst, ht, hstart, hend⟩ := mem_script hflat h he
    refine ⟨?_, ⟨s, by omega, hstart⟩, ⟨t, ht, hend⟩⟩
    rw [UInt32.le_iff_toNat_le, hstart, hend]
    exact offset_mono hst
  · have happly := apply_script hflat h
    rwa [flatten_lines, take_zero, flatten_nil, nil_append, drop_zero,
      flatten_lines] at happly
  · intro _
    have hsum := script_count (broken_lines old) (broken_lines new) hflat h
    rw [flatten_lines] at hsum
    omega

theorem turns_whole (hsmall : old.length < 2 ^ 32)
    (hbound : BOUND < distance (lines old) (lines new)) :
    Turns old new [⟨0, old.length.toUInt32, new⟩] := by
  have hlen : old.length.toUInt32.toNat = old.length := UInt32.toNat_ofNat_of_lt' hsmall
  have hend : old.length = offset (lines old) (lines old).length := by
    rw [offset_length, flatten_lines]
  refine ⟨pairwise_singleton _ _, ?_, ?_, by omega, fun _ => rfl⟩
  · intro e he
    obtain rfl := mem_singleton.mp he
    refine ⟨?_, ⟨0, Nat.zero_le _, rfl⟩, ⟨_, Nat.le_refl _, hlen.trans hend⟩⟩
    rw [UInt32.le_iff_toNat_le]
    exact Nat.zero_le _
  · simp [apply_edits, hlen]

/-- No two different lines of the buffers have one hash. -/
def Told (old new : List UInt8) : Prop :=
  ∀ l ∈ lines old ++ lines new, ∀ l' ∈ lines old ++ lines new, line_hash l = line_hash l' → l = l'

theorem Told.across (h : Told old new) :
    ∀ l ∈ lines old, ∀ l' ∈ lines new, line_hash l = line_hash l' → l = l' := by
  intro l hl l' hl'
  exact h l (mem_append_left _ hl) l' (mem_append_right _ hl')

theorem matches_lines (h : Told old new)
    (hm : Matches ((lines old).map line_hash) ((lines new).map line_hash) pairs n m) :
    Matches (lines old) (lines new) pairs n m := by
  refine ⟨hm.sorted, hm.below, ?_⟩
  intro p hp
  obtain ⟨x, hx, hy⟩ := hm.equal p hp
  rw [getElem?_map, map_eq_some_iff] at hx hy
  obtain ⟨l, hl, rfl⟩ := hx
  obtain ⟨l', hl', heq⟩ := hy
  obtain rfl := h.across l (mem_of_getElem? hl) l' (mem_of_getElem? hl') heq.symm
  exact ⟨l, hl, hl'⟩

/-- The pairs that the search keeps are equal lines, strictly increasing in both buffers. -/
theorem pairs_increase (h : Told old new) : ∃ found,
    myers ((lines old).map line_hash) ((lines new).map line_hash) BOUND = some found ∧
      ∀ pairs, found = some pairs →
        Matches (lines old) (lines new) pairs (lines old).length (lines new).length := by
  obtain ⟨hshort, hlong⟩ := myers_eq ((lines old).map line_hash) ((lines new).map line_hash) BOUND
  rcases le_or_gt (distance ((lines old).map line_hash) ((lines new).map line_hash)) BOUND with
    hle | hlt
  · obtain ⟨ps, hps, hmatches, -⟩ := hshort hle
    refine ⟨some ps, hps, ?_⟩
    rintro pairs ⟨⟩
    rw [length_map, length_map] at hmatches
    exact matches_lines h hmatches
  · exact ⟨none, hlong hlt, nofun⟩

theorem turns_of_told (hsmall : old.length < 2 ^ 32) (h : Told old new) :
    ∃ edits, diff old new = some edits ∧ Turns old new edits := by
  unfold diff
  split
  · next hsame =>
    rw [← hsame]
    exact ⟨[], rfl, turns_refl old⟩
  · obtain ⟨hshort, hlong⟩ :=
      myers_eq ((lines old).map line_hash) ((lines new).map line_hash) BOUND
    rw [distance_map h.across] at hshort hlong
    simp only [hashes_eq, bind_eq_bind, bind_some, length_map]
    rcases le_or_gt (distance (lines old) (lines new)) BOUND with hle | hlt
    · obtain ⟨ps, hps, hmatches, hcount⟩ := hshort hle
      rw [length_map, length_map] at hmatches hcount
      have hkept : Kept (lines old) (lines new) ps 0 0 :=
        kept_of_matches (matches_lines h hmatches) (fun _ _ => ⟨Nat.zero_le _, Nat.zero_le _⟩)
          (Nat.zero_le _) (Nat.zero_le _)
      refine ⟨_, ?_, turns_script hsmall hkept hle hcount⟩
      rw [hps]
      exact flush_pairs_eq [] hkept
    · refine ⟨_, ?_, turns_whole hsmall hlt⟩
      rw [hlong hlt]
      rfl

/-- The diff is right and shortest, and reads inside its arrays. The lexer accepts no buffer that an
offset of 32 bits does not reach into, and only what it accepts is formatted. -/
theorem diff_turns (hsmall : old.length < 2 ^ 32) (h : Told old new) :
    (∃ edits, diff old new = some edits ∧ Turns old new edits) ∧
      (∃ ha hb found, hashes old (line_starts old) = some ha ∧
        hashes new (line_starts new) = some hb ∧ myers ha hb BOUND = some found ∧
        ∀ pairs, found = some pairs → (pairs.Pairwise fun p q => p.1 < q.1 ∧ p.2 < q.2) ∧
          ∀ p ∈ pairs, ∃ l, (lines old)[p.1]? = some l ∧ (lines new)[p.2]? = some l) ∧
      ∀ (a b : List UInt64) (max_d : Nat), (myers a b max_d).isSome := by
  refine ⟨turns_of_told hsmall h, ?_, ?_⟩
  · obtain ⟨found, hfound, hpairs⟩ := pairs_increase h
    refine ⟨_, _, found, hashes_eq old, hashes_eq new, hfound, ?_⟩
    intro pairs heq
    exact ⟨(hpairs pairs heq).sorted, (hpairs pairs heq).equal⟩
  · intro a b max_d
    obtain ⟨hshort, hlong⟩ := myers_eq a b max_d
    rcases le_or_gt (distance a b) max_d with hle | hlt
    · obtain ⟨ps, hps, -⟩ := hshort hle
      rw [hps]
      rfl
    · rw [hlong hlt]
      rfl

/-- A line is inserted behind a kept one. -/
theorem diff_turns_inserted : Told [97, 10] [97, 10, 98, 10] ∧
    ∃ edits, diff [97, 10] [97, 10, 98, 10] = some edits ∧
      Turns [97, 10] [97, 10, 98, 10] edits := by
  have htold : Told [97, 10] [97, 10, 98, 10] := by
    unfold Told
    decide +kernel
  exact ⟨htold, (diff_turns (by decide) htold).1⟩

end Fors.Fmt
