import Fors.Lsp.Lines
import Fors.Fmt.Edits

/-!
# Positions read back

The walk over a line stops at its first place that is far enough, so that it finds every place again
from its position, and the edits of a formatting request are read as they were meant.

Principal results: `offset_reaches` and `offset_pos`.
-/

namespace Fors.Lsp

open List

open Fmt (TextEdit slice newlines NEWLINE apply_edits Told diff)
open Utf8 Positions

variable {s p q w t l a b : List Char} {c : Char} {n character : Nat}

/-! ## The walk -/

theorem walk_step (a : List Char) (c : Char) (b : List Char) (character : UInt32) (used : UInt32) :
    walk (encode (a ++ c :: b)) character used (encode a).length =
      if used ≥ character then (encode a).length
      else walk (encode (a ++ c :: b)) character (used + (units c).toUInt32)
        (encode (a ++ [c])).length := by
  obtain ⟨x, rest, heq, -, -⟩ := encode_char_shape c
  have hsplit : encode (a ++ c :: b) = encode a ++ x :: (rest ++ encode b) := by
    rw [encode_append, encode_cons, heq]
    rfl
  have hlen := congrArg List.length hsplit
  rw [length_append, length_cons, length_append] at hlen
  have hnext : (encode (a ++ [c])).length = (encode a).length + (rest.length + 1) := by
    rw [length_encode_append, encode_cons, heq, encode_nil, append_nil, length_cons]
  have hlt : (encode a).length < (encode (a ++ c :: b)).length := by omega
  have hlead : (encode (a ++ c :: b))[(encode a).length] = x := by
    apply Option.some.inj
    rw [← getElem?_eq_getElem hlt, hsplit, getElem?_append_right (Nat.le_refl _),
      Nat.sub_self]
    rfl
  rw [walk, dif_pos hlt, hlead, utf8_char_eq c heq, hnext]
  congr 1
  congr 1
  exact Nat.min_eq_left (by omega)

/-- The walk stops at the first place that has the units, or at the end. -/
theorem walk_spec (a b : List Char) (hsmall : (encode (a ++ b)).length < 2 ^ 32)
    (character : UInt32) : ∃ b1 b2, b = b1 ++ b2 ∧
      walk (encode (a ++ b)) character (width a).toUInt32 (encode a).length =
        (encode (a ++ b1)).length ∧
      (b2 = [] ∨ character.toNat ≤ width (a ++ b1)) ∧
      ∀ d e, b1 = d ++ e → e ≠ [] → width (a ++ d) < character.toNat := by
  induction b generalizing a with
  | nil =>
    refine ⟨[], [], rfl, ?_, Or.inl rfl, ?_⟩
    · rw [append_nil, walk, dif_neg (Nat.lt_irrefl _)]
    · intro d e hnil hne
      exact absurd (append_eq_nil_iff.mp hnil.symm).2 hne
  | cons c b ih =>
    have hwidth := width_le a
    have hlen := length_encode_append a (c :: b)
    have hused : (width a).toUInt32 ≥ character ↔ character.toNat ≤ width a := by
      rw [ge_iff_le, UInt32.le_iff_toNat_le, toNat_toUInt32 (by omega)]
    by_cases hstop : character.toNat ≤ width a
    · refine ⟨[], c :: b, rfl, ?_, Or.inr ?_, ?_⟩
      · rw [walk_step, if_pos (hused.mpr hstop), append_nil]
      · rwa [append_nil]
      · intro d e hnil hne
        exact absurd (append_eq_nil_iff.mp hnil.symm).2 hne
    · have hcons : a ++ c :: b = a ++ [c] ++ b := by rw [append_assoc]; rfl
      have hnext : (width a).toUInt32 + (units c).toUInt32 = (width (a ++ [c])).toUInt32 := by
        rw [width_append, width_cons, width_nil, Nat.add_zero]
        exact (UInt32.ofNat_add _ _).symm
      obtain ⟨b1, b2, rfl, hwalk, hfar, hnear⟩ := ih (a ++ [c]) (by rwa [← hcons])
      refine ⟨c :: b1, b2, rfl, ?_, ?_, ?_⟩
      · rw [walk_step, if_neg (fun h => hstop (hused.mp h)), hnext, hcons, hwalk, append_assoc]
        rfl
      · rwa [append_assoc] at hfar
      · intro d e heq hne
        cases d with
        | nil =>
          rw [append_nil]
          omega
        | cons x d =>
          obtain ⟨rfl, heq⟩ := cons.inj heq
          have hd := hnear d e (by simpa using heq) hne
          rwa [append_assoc] at hd

/-! ## From a line and a character -/

/-- Nothing more of the line follows. -/
def AtEnd (q : List Char) : Prop :=
  q = [] ∨ ∃ r, q = '\n' :: r

/-- The first place of line `n` at a column or behind it, or the end of the line where it has no
such place. -/
structure Reaches (s : List Char) (n character : Nat) (p q : List Char) : Prop where
  split : s = p ++ q
  line : line p = n
  far : character ≤ column p ∨ AtEnd q
  first : ∀ p' q', s = p' ++ q' → Positions.line p' = n → p'.length < p.length →
    column p' < character

theorem exists_end (t : List Char) : ∃ l r, t = l ++ r ∧ '\n' ∉ l ∧ AtEnd r := by
  induction t with
  | nil => exact ⟨[], [], rfl, not_mem_nil, Or.inl rfl⟩
  | cons c t ih =>
    by_cases hc : c = '\n'
    · exact ⟨[], c :: t, rfl, not_mem_nil, Or.inr ⟨t, by rw [hc]⟩⟩
    · obtain ⟨l, r, rfl, hl, hr⟩ := ih
      refine ⟨c :: l, r, rfl, ?_, hr⟩
      rw [mem_cons, not_or]
      exact ⟨Ne.symm hc, hl⟩

/-- Two places of one text are in order. -/
theorem prefix_of_length_le (h : p ++ q = w ++ t) (hle : p.length ≤ w.length) : ∃ d, w = p ++ d := by
  obtain ⟨d, hw, -⟩ | ⟨d, hp, -⟩ := append_eq_append_iff.mp h
  · exact ⟨d, hw⟩
  · refine ⟨[], ?_⟩
    have hlen := congrArg List.length hp
    rw [length_append] at hlen
    obtain rfl : d = [] := length_eq_zero_iff.mp (by omega)
    rw [hp]
    simp

theorem offset_eq (hline : n < 2 ^ 32) (w l r : List Char) (hw : Whole w) (hn : line w = n)
    (hl : '\n' ∉ l) (hr : AtEnd r) (hsmall : (encode (w ++ (l ++ r))).length < 2 ^ 32)
    (character : UInt32) :
    (LineIndex.new (encode (w ++ (l ++ r)))).offset (encode (w ++ (l ++ r))) n.toUInt32 character =
      some ((encode w).length.toUInt32 + (walk (encode l) character 0 0).toUInt32) := by
  have hlen : (encode (w ++ (l ++ r))).length =
      (encode w).length + ((encode l).length + (encode r).length) := by
    rw [length_encode_append, length_encode_append]
  have hstart : (LineIndex.new (encode (w ++ (l ++ r)))).starts[n]? =
      some (encode w).length.toUInt32 := by
    rw [starts_getElem, ← hn, line_starts_getElem hw]
    rfl
  have hbytes : encode (w ++ (l ++ r)) = encode w ++ encode l ++ encode r := by
    rw [encode_append, encode_append, append_assoc]
  have hslice : slice (encode (w ++ (l ++ r))) (encode w).length
      ((encode w).length + (encode l).length) = some (encode l) := by
    rw [hbytes, slice_middle]
  have hwhole : Positions.line (w ++ l) = n := by
    rw [line_append, line_of_notMem hl, hn, Nat.add_zero]
  unfold LineIndex.offset
  simp only [toNat_toUInt32 hline, hstart]
  obtain rfl | ⟨r, rfl⟩ := hr
  · -- The last line ends with the buffer.
    have hlast : (LineIndex.new (encode (w ++ (l ++ [])))).starts[n + 1]? = none := by
      rw [starts_getElem, getElem?_eq_none]
      · rfl
      · rw [length_line_starts, append_nil, hwhole]
    have hend : (encode (w ++ (l ++ []))).length = (encode w).length + (encode l).length := hlen
    rw [hend] at hsmall
    rw [hlast]
    simp only [Option.bind_eq_bind, Option.bind_some, hend,
      toNat_toUInt32 (show (encode w).length < 2 ^ 32 by omega), hslice]
    rfl
  · have hnext : (LineIndex.new (encode (w ++ (l ++ '\n' :: r)))).starts[n + 1]? =
        some ((encode w).length + (encode l).length + 1).toUInt32 := by
      have hsplit : w ++ (l ++ '\n' :: r) = w ++ l ++ ['\n'] ++ r := by simp
      have hcount : Positions.line (w ++ l ++ ['\n']) = n + 1 := by
        rw [line_append, hwhole]
        rfl
      have hplace : (encode (w ++ l ++ ['\n'])).length =
          (encode w).length + (encode l).length + 1 := by
        rw [length_encode_append, length_encode_append]
        rfl
      rw [starts_getElem, hsplit, ← hcount, line_starts_getElem (Or.inr ⟨_, rfl⟩), hplace]
      rfl
    have hrest : (encode ('\n' :: r)).length = (encode r).length + 1 := by
      rw [encode_cons, length_append, Nat.add_comm]
      rfl
    have hsum : (encode w).length + (encode l).length + 1 < 2 ^ 32 := by omega
    have hne : ¬ ((encode w).length + (encode l).length + 1).toUInt32 = 0 := by
      intro h
      have hzero := congrArg UInt32.toNat h
      rw [toNat_toUInt32 hsum] at hzero
      exact absurd hzero (Nat.succ_ne_zero _)
    rw [hnext]
    simp only [hne, if_false, Option.bind_eq_bind, Option.bind_some, toNat_toUInt32 hsum,
      Nat.add_sub_cancel, toNat_toUInt32 (show (encode w).length < 2 ^ 32 by omega), hslice]
    rfl

/-- Within the buffer, the offset is that of the first place at the column or behind it. -/
theorem offset_reaches (hsmall : (encode s).length < 2 ^ 32) (hn : n ≤ line s)
    (character : UInt32) : ∃ p q, Reaches s n character.toNat p q ∧
      (LineIndex.new (encode s)).offset (encode s) n.toUInt32 character =
        some (encode p).length.toUInt32 := by
  have hlines := line_lt s
  obtain ⟨w, t, rfl, hw, hline⟩ := exists_line hn
  obtain ⟨l, r, rfl, hl, hr⟩ := exists_end t
  have hlen : (encode (w ++ (l ++ r))).length =
      (encode w).length + ((encode l).length + (encode r).length) := by
    rw [length_encode_append, length_encode_append]
  obtain ⟨l1, l2, rfl, hwalk, hfar, hnear⟩ := walk_spec [] l (by rw [nil_append]; omega) character
  rw [nil_append, nil_append] at hwalk
  rw [nil_append] at hfar
  have hl1 : '\n' ∉ l1 := fun h => hl (mem_append_left _ h)
  have hcolumn (d : List Char) (hd : '\n' ∉ d) : column (w ++ d) = width d := by
    unfold column
    rw [current_append hw hd]
  refine ⟨w ++ l1, l2 ++ r, ⟨?_, ?_, ?_, ?_⟩, ?_⟩
  · simp
  · rw [line_append, line_of_notMem hl1, hline, Nat.add_zero]
  · rw [hcolumn l1 hl1]
    obtain rfl | hfar := hfar
    · exact Or.inr hr
    · exact Or.inl hfar
  · intro p' q' hsplit hp' hshort
    rw [length_append] at hshort
    rcases Nat.lt_or_ge p'.length w.length with hbefore | hbehind
    · -- A place before the line is on another one.
      obtain ⟨d, hd⟩ := prefix_of_length_le hsplit.symm (Nat.le_of_lt hbefore)
      exfalso
      obtain rfl | ⟨b, rfl⟩ := hw
      · exact absurd hbefore (Nat.not_lt_zero _)
      · have hdne : d ≠ [] := by
          rintro rfl
          rw [hd, append_nil] at hbefore
          exact Nat.lt_irrefl _ hbefore
        have hmem : '\n' ∈ d := by
          have hlast := getLast?_concat (l := b) (a := '\n')
          rw [hd, getLast?_append_of_ne_nil p' hdne] at hlast
          exact mem_of_getLast? hlast
        have hpos : 0 < line d := count_pos_iff.mpr hmem
        rw [hd, line_append] at hline
        omega
    · obtain ⟨d, rfl⟩ := prefix_of_length_le hsplit hbehind
      rw [append_assoc w d, append_cancel_left_eq, append_assoc] at hsplit
      rw [length_append] at hshort
      obtain ⟨e, he⟩ := prefix_of_length_le hsplit.symm (by omega)
      have hene : e ≠ [] := by
        rintro rfl
        rw [he, append_nil] at hshort
        exact Nat.lt_irrefl _ hshort
      have hd : '\n' ∉ d := fun h => hl1 (by rw [he]; exact mem_append_left _ h)
      rw [hcolumn d hd]
      exact hnear d e he hene
  · have hsum : (encode (w ++ l1)).length = (encode w).length + (encode l1).length :=
      length_encode_append _ _
    rw [offset_eq (by omega) w (l1 ++ l2) r hw hline hl hr hsmall]
    have hzero : walk (encode (l1 ++ l2)) character 0 0 = (encode l1).length := hwalk
    rw [hzero, hsum]
    exact congrArg some (UInt32.ofNat_add _ _).symm

/-- Past the last line, it is the end of the buffer. -/
theorem offset_past (hn : line s < n) (hn' : n < 2 ^ 32) (character : UInt32) :
    (LineIndex.new (encode s)).offset (encode s) n.toUInt32 character =
      some (encode s).length.toUInt32 := by
  have hnone : (LineIndex.new (encode s)).starts[n]? = none := by
    rw [starts_getElem, getElem?_eq_none]
    · rfl
    · rw [length_line_starts]
      omega
  unfold LineIndex.offset
  rw [toNat_toUInt32 hn', hnone]

/-- A place is the one that its own position reaches. -/
theorem Reaches.eq (h : Reaches (p ++ q) (Positions.line p) (column p) w t) : w = p ∧ t = q := by
  rcases Nat.lt_trichotomy w.length p.length with hlt | heq | hgt
  · exfalso
    obtain ⟨d, hd⟩ := prefix_of_length_le h.split.symm (Nat.le_of_lt hlt)
    have hne : d ≠ [] := by
      rintro rfl
      rw [hd, append_nil] at hlt
      exact Nat.lt_irrefl _ hlt
    have hline := h.line
    have hfar := h.far
    have horder := position_lt (p := w) hne
    rw [← hd] at horder
    have hend : AtEnd t := by
      rcases hfar with hfar | hend
      · omega
      · exact hend
    have hsplit := h.split
    rw [hd, append_assoc, append_cancel_left_eq] at hsplit
    cases d with
    | nil => exact hne rfl
    | cons x d =>
      obtain rfl | ⟨r, rfl⟩ := hend
      · cases hsplit
      · obtain ⟨rfl, -⟩ := cons.inj hsplit
        have hnewline : 0 < Positions.line ('\n' :: d) :=
          count_pos_iff.mpr mem_cons_self
        rw [hd, line_append] at hline
        omega
  · obtain ⟨hw, ht⟩ := append_inj h.split heq.symm
    exact ⟨hw.symm, ht.symm⟩
  · exact absurd (h.first p q rfl rfl hgt) (Nat.lt_irrefl _)

/-- Every place is found again. -/
theorem offset_pos (hsmall : (encode (p ++ q)).length < 2 ^ 32) :
    (LineIndex.new (encode (p ++ q))).offset (encode (p ++ q)) (line p).toUInt32
      (column p).toUInt32 = some (encode p).length.toUInt32 := by
  have hline : line p ≤ line (p ++ q) := by
    rw [line_append]
    omega
  have hcolumn := column_le p
  have hlen := length_encode_append p q
  obtain ⟨w, t, hreaches, hoffset⟩ := offset_reaches hsmall hline (column p).toUInt32
  rw [toNat_toUInt32 (by omega)] at hreaches
  obtain ⟨rfl, rfl⟩ := hreaches.eq
  exact hoffset

end Fors.Lsp
