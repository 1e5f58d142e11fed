import Fors.Fmt.Diff
import Fors.Lib.Positions
import Mathlib.Data.UInt
import Fors.Fmt.Lines

/-!
# Positions on the wire

The protocol counts lines from 0 and characters in UTF-16 code units; the compiler counts bytes.
A read outside an array and an index below zero have no value here.

A table of the line starts tells the line of a place, and the two width tables tell the same units:
the one from the first byte of a character, the other from all bytes that do not go on with one.

Source: `crates/fors-lsp/src/lib.rs`. Principal result: `pos_eq`.
-/

namespace Fors.Lsp

open List

open Fmt (TextEdit slice diff)
open Utf8 (from_utf8_lossy)

/-! ## The table of the lines -/

structure LineIndex where
  starts : List UInt32

/-- Byte length and UTF-16 width of the character whose lead byte is `b`. -/
def utf8_char (b : UInt8) : Nat × UInt32 :=
  if b ≤ 0x7F then (1, 1)
  else if 0xC0 ≤ b ∧ b ≤ 0xDF then (2, 1)
  else if 0xE0 ≤ b ∧ b ≤ 0xEF then (3, 1)
  else if 0xF0 ≤ b ∧ b ≤ 0xF7 then (4, 2)
  -- a stray continuation byte
  else (1, 1)

/-- UTF-16 length of a UTF-8 slice, without decoding it. -/
def utf16_units (bytes : List UInt8) : UInt32 :=
  bytes.foldl (fun n b =>
    if b &&& 0xC0 ≠ 0x80 then
      if b ≥ 0xF0 then n + 1 + 1 else n + 1
    else n) 0

theorem utf8_char_pos (b : UInt8) : 0 < (utf8_char b).1 := by
  unfold utf8_char
  split_ifs <;> exact Nat.succ_pos _

/-- How many entries in front a predicate holds of, that holds of no entry behind them. -/
def partition_point {α : Type} (p : α → Bool) (xs : List α) : Nat :=
  (xs.takeWhile p).length

/-- The loop over a line, from the byte `i` on, before which `used` units stand. -/
def walk (line_bytes : List UInt8) (character : UInt32) (used : UInt32) (i : Nat) : Nat :=
  if h : i < line_bytes.length then
    if used ≥ character then i
    else
      walk line_bytes character (used + (utf8_char line_bytes[i]).2)
        (min (i + (utf8_char line_bytes[i]).1) line_bytes.length)
  else i
termination_by line_bytes.length - i
decreasing_by
  have hpos := utf8_char_pos line_bytes[i]
  omega

namespace LineIndex

def new (src : List UInt8) : LineIndex where
  starts := src.zipIdx.foldl (fun starts b =>
    if b.1 = '\n'.toUInt8 then starts ++ [b.2.toUInt32 + 1] else starts) [0]

/-- A byte offset as a line and a character, clamped to the buffer. -/
def pos (ix : LineIndex) (src : List UInt8) (off : UInt32) : Option (UInt32 × UInt32) := do
  let off := min off src.length.toUInt32
  let n := partition_point (fun s => s ≤ off) ix.starts
  let line ← if n = 0 then none else some (n - 1)
  let start ← ix.starts[line]?
  let bytes ← slice src start.toNat off.toNat
  pure (line.toUInt32, utf16_units bytes)

/-- A line and a character as a byte offset, clamped to the line. -/
def offset (ix : LineIndex) (src : List UInt8) (line character : UInt32) : Option UInt32 :=
  match ix.starts[line.toNat]? with
  | none => some src.length.toUInt32
  | some at_ => do
    let end_ ← match ix.starts[line.toNat + 1]? with
      | none => some src.length
      | some n => if n = 0 then none else some (n.toNat - 1)
    let line_bytes ← slice src at_.toNat end_
    pure (at_ + (walk line_bytes character 0 0).toUInt32)

end LineIndex

/-! ## Formatting -/

/-- Two positions. -/
abbrev Range :=
  (UInt32 × UInt32) × (UInt32 × UInt32)

/-- An edit as it is sent. -/
structure SentEdit where
  range : Range
  newText : List Char

def range_json (ix : LineIndex) (src : List UInt8) (start end_ : UInt32) : Option Range := do
  let s ← ix.pos src start
  let e ← ix.pos src end_
  pure (s, e)

def json_range (ix : LineIndex) (src : List UInt8) (r : Range) : Option (UInt32 × UInt32) := do
  let s ← ix.offset src r.1.1 r.1.2
  let e ← ix.offset src r.2.1 r.2.2
  pure (min s e, max e s)

/-- What the formatter gives: the text, and whether it changed. -/
abbrev Formatter :=
  List UInt8 → List UInt8 × Bool

def check_source (format_source : Formatter) (src : List UInt8) : Option (List TextEdit) :=
  if (format_source src).2 then diff src (format_source src).1 else some []

def format_range (format_source : Formatter) (src : List UInt8) (start end_ : UInt32) :
    Option (List TextEdit) :=
  (check_source format_source src).map fun edits =>
    edits.filter fun e => e.start < max end_ (start + 1) ∧ e.end_ > start

/-- The edits that a request asks for, and as they are sent. -/
def check (format_source : Formatter) (src : List UInt8) (range : Option Range) :
    Option (List TextEdit) :=
  match range with
  | none => check_source format_source src
  | some r => do
    let (s, e) ← json_range (.new src) src r
    format_range format_source src s e

def format (format_source : Formatter) (doc : Option (List UInt8)) (range : Option Range) :
    Option (List SentEdit) :=
  match doc with
  | none => some []
  | some src => do
    let edits ← check format_source src range
    edits.mapM fun e => do
      let range ← range_json (.new src) src e.start e.end_
      pure ⟨range, from_utf8_lossy e.new_text⟩

/-- An edit as a client reads it. -/
def read_back (src : List UInt8) (e : SentEdit) : Option TextEdit := do
  let start ← (LineIndex.new src).offset src e.range.1.1 e.range.1.2
  let end_ ← (LineIndex.new src).offset src e.range.2.1 e.range.2.2
  pure ⟨start, end_, Utf8.encode e.newText⟩

end Fors.Lsp

/-! ## Positions are exact -/

namespace Fors.Lsp

open List

open Fmt (TextEdit slice newlines NEWLINE)
open Utf8 Positions

variable {s p q w t l a b : List Char} {c : Char} {o n : Nat} {src bs cs : List UInt8}

/-! ## Widths -/

theorem continues_iff (x : UInt8) : x &&& 0xC0 = 0x80 ↔ Continues x := by
  obtain ⟨v⟩ := x
  show _ ↔ 0x80 ≤ v.toNat ∧ v.toNat < 0xC0
  rw [← UInt8.toBitVec_inj]
  revert v
  decide +kernel

theorem utf8_char_eq (c : Char) {x : UInt8} {rest : List UInt8}
    (h : String.utf8EncodeChar c = x :: rest) :
    utf8_char x = (rest.length + 1, (units c).toUInt32) := by
  obtain ⟨x', rest', heq, -, hshape⟩ := encode_char_shape c
  rw [heq] at h
  obtain ⟨rfl, rfl⟩ := cons.inj h
  unfold utf8_char
  simp only [UInt8.le_iff_toNat_le, UInt8.reduceToNat]
  rcases hshape with ⟨hx, hlen, hunits⟩ | ⟨hx, hx', hlen, hunits⟩ | ⟨hx, hx', hlen, hunits⟩ |
    ⟨hx, hx', hlen, hunits⟩
  · rw [if_pos (by omega), hlen, hunits]
    rfl
  · rw [if_neg (by omega), if_pos (by omega), hlen, hunits]
    rfl
  · rw [if_neg (by omega), if_neg (by omega), if_pos (by omega), hlen, hunits]
    rfl
  · rw [if_neg (by omega), if_neg (by omega), if_neg (by omega), if_pos (by omega), hlen, hunits]
    rfl

/-- One step of the count of units. -/
def unit_step (n : UInt32) (x : UInt8) : UInt32 :=
  if x &&& 0xC0 ≠ 0x80 then
    if x ≥ 0xF0 then n + 1 + 1 else n + 1
  else n

theorem foldl_continues {rest : List UInt8} (h : ∀ x ∈ rest, Continues x) (n : UInt32) :
    rest.foldl unit_step n = n := by
  induction rest with
  | nil => rfl
  | cons x rest ih =>
    obtain ⟨hx, hrest⟩ := forall_mem_cons.mp h
    have hstep : unit_step n x = n := if_neg (not_not_intro ((continues_iff x).mpr hx))
    rw [foldl_cons, hstep, ih hrest]

theorem foldl_char (c : Char) (n : UInt32) :
    (String.utf8EncodeChar c).foldl unit_step n = n + (units c).toUInt32 := by
  obtain ⟨x, rest, heq, hrest, hshape⟩ := encode_char_shape c
  have hlead : ¬ Continues x := by
    unfold Continues
    omega
  rw [heq, foldl_cons, foldl_continues hrest]
  unfold unit_step
  rw [if_pos (fun h => hlead ((continues_iff x).mp h))]
  by_cases hlong : 0xF0 ≤ x.toNat
  · have hunits : units c = 2 := by omega
    have hge : x ≥ 0xF0 := UInt8.le_iff_toNat_le.mpr hlong
    rw [if_pos hge, hunits, UInt32.add_assoc]
    rfl
  · have hunits : units c = 1 := by omega
    have hlt : ¬ x ≥ 0xF0 := fun h => hlong (UInt8.le_iff_toNat_le.mp h)
    rw [if_neg hlt, hunits]
    rfl

/-- The two tables agree. -/
theorem utf16_units_eq (s : List Char) : utf16_units (encode s) = (width s).toUInt32 := by
  have hfold (n : UInt32) : (encode s).foldl unit_step n = n + (width s).toUInt32 := by
    induction s generalizing n with
    | nil => exact (UInt32.add_zero n).symm
    | cons c s ih =>
      rw [encode_cons, foldl_append, foldl_char, ih, width_cons, UInt32.add_assoc]
      congr 1
      exact (UInt32.ofNat_add _ _).symm
  exact (hfold 0).trans (UInt32.zero_add _)

theorem units_le_length (c : Char) : units c ≤ (String.utf8EncodeChar c).length := by
  obtain ⟨x, rest, heq, -, hshape⟩ := encode_char_shape c
  rw [heq, length_cons]
  omega

theorem width_le (s : List Char) : width s ≤ (encode s).length := by
  induction s with
  | nil => exact Nat.le_refl 0
  | cons c s ih =>
    have hc := units_le_length c
    rw [encode_cons, width_cons, length_append]
    omega

theorem length_encode_append (p q : List Char) :
    (encode (p ++ q)).length = (encode p).length + (encode q).length := by
  rw [encode_append, length_append]

/-! ## Line starts -/

theorem newlines_append (o : Nat) (bs cs : List UInt8) :
    newlines o (bs ++ cs) = newlines o bs ++ newlines (o + bs.length) cs := by
  induction bs generalizing o with
  | nil => rfl
  | cons x bs ih =>
    have hlen : o + 1 + bs.length = o + (x :: bs).length := by
      rw [length_cons]
      omega
    rw [cons_append, newlines, newlines, ih, hlen]
    split
    · rfl
    · rfl

theorem mem_newlines {x : Nat} (h : x ∈ newlines o bs) : o < x ∧ x ≤ o + bs.length := by
  induction bs generalizing o with
  | nil => exact absurd h not_mem_nil
  | cons y bs ih =>
    rw [newlines] at h
    rw [length_cons]
    split at h
    · rcases mem_cons.mp h with rfl | h
      · omega
      · have := ih h
        omega
    · have := ih h
      omega

theorem length_newlines (o : Nat) (bs : List UInt8) : (newlines o bs).length = bs.count NEWLINE := by
  induction bs generalizing o with
  | nil => rfl
  | cons x bs ih =>
    rw [newlines]
    split
    · next hx => rw [hx, length_cons, ih, count_cons_self]
    · next hx => rw [ih, count_cons_of_ne hx]

theorem count_char (c : Char) :
    (String.utf8EncodeChar c).count NEWLINE = if c = '\n' then 1 else 0 := by
  by_cases hc : c = '\n'
  · rw [if_pos hc, hc]
    rfl
  · rw [if_neg hc, count_eq_zero]
    intro hmem
    have henc : NEWLINE ∈ encode [c] := by
      rw [encode_cons]
      exact mem_append_left _ hmem
    obtain ⟨d, hd, heq⟩ := mem_encode_ascii henc (by decide)
    obtain rfl := mem_singleton.mp hd
    exact hc (Char.toNat_inj.mp heq)

theorem count_encode (s : List Char) : (encode s).count NEWLINE = line s := by
  induction s with
  | nil => rfl
  | cons c s ih =>
    have hline : line (c :: s) = line [c] + line s := line_append [c] s
    rw [encode_cons, count_append, ih, count_char, hline]
    unfold line
    rw [count_singleton]
    by_cases hc : c = '\n'
    · rw [if_pos hc, hc]
      rfl
    · rw [if_neg hc, if_neg]
      exact fun h => hc (beq_iff_eq.mp h)

/-- Where the lines of a text start. -/
def line_starts (s : List Char) : List Nat :=
  0 :: newlines 0 (encode s)

theorem starts_eq (src : List UInt8) :
    (LineIndex.new src).starts = (0 :: newlines 0 src).map Nat.toUInt32 := by
  have hfold (bs : List UInt8) (o : Nat) (v : List UInt32) : (bs.zipIdx o).foldl (fun starts b =>
      if b.1 = '\n'.toUInt8 then starts ++ [b.2.toUInt32 + 1] else starts) v =
        v ++ (newlines o bs).map Nat.toUInt32 := by
    induction bs generalizing o v with
    | nil => exact (append_nil v).symm
    | cons x bs ih =>
      have hnext : (o + 1).toUInt32 = o.toUInt32 + 1 := UInt32.ofNat_add o 1
      rw [zipIdx_cons, foldl_cons, ih, newlines]
      split
      · rw [append_assoc, map_cons, hnext]
        rfl
      · rfl
  exact hfold src 0 [0]

theorem starts_getElem (s : List Char) (i : Nat) :
    (LineIndex.new (encode s)).starts[i]? = (line_starts s)[i]?.map Nat.toUInt32 := by
  rw [starts_eq, getElem?_map]
  rfl

/-- Behind whole lines a line starts. -/
theorem line_starts_getElem (hw : Whole w) (t : List Char) :
    (line_starts (w ++ t))[line w]? = some (encode w).length := by
  obtain rfl | ⟨b, rfl⟩ := hw
  · rfl
  · have hline : line (b ++ ['\n']) = (newlines 0 (encode b)).length + 1 := by
      rw [line_append, length_newlines, count_encode]
      rfl
    have hstarts : line_starts (b ++ ['\n'] ++ t) = 0 :: (newlines 0 (encode b) ++
        ((encode b).length + 1) :: newlines ((encode b).length + 1) (encode t)) := by
      unfold line_starts
      rw [append_assoc, encode_append, newlines_append, Nat.zero_add]
      rfl
    rw [hline, hstarts, getElem?_cons_succ, getElem?_append_right (Nat.le_refl _),
      Nat.sub_self, length_encode_append]
    rfl

theorem length_line_starts (s : List Char) : (line_starts s).length = line s + 1 := by
  unfold line_starts
  rw [length_cons, length_newlines, count_encode]

theorem toNat_toUInt32 (h : n < 2 ^ 32) : n.toUInt32.toNat = n :=
  UInt32.toNat_ofNat_of_lt' h

/-- The starts up to a place are those of the lines in front of it and its own. -/
theorem partition_point_eq (p q : List Char) (hsmall : (encode (p ++ q)).length < 2 ^ 32) :
    partition_point (fun x => x ≤ (encode p).length.toUInt32)
      (LineIndex.new (encode (p ++ q))).starts = line p + 1 := by
  rw [length_encode_append] at hsmall
  have hoff : (encode p).length.toUInt32.toNat = (encode p).length := toNat_toUInt32 (by omega)
  have hle {x : Nat} (hx : x < 2 ^ 32) :
      x.toUInt32 ≤ (encode p).length.toUInt32 ↔ x ≤ (encode p).length := by
    rw [UInt32.le_iff_toNat_le, hoff, toNat_toUInt32 hx]
  unfold partition_point
  rw [starts_eq, encode_append, newlines_append, Nat.zero_add, ← cons_append, map_append,
    takeWhile_append_of_pos]
  · cases hrest : newlines (encode p).length (encode q) with
    | nil =>
      rw [map_nil, takeWhile_nil, append_nil, length_map, length_cons,
        length_newlines, count_encode]
    | cons x rest =>
      have hx := mem_newlines (hrest ▸ mem_cons_self : x ∈ newlines (encode p).length (encode q))
      have hbeyond : ¬ decide (x.toUInt32 ≤ (encode p).length.toUInt32) = true := by
        rw [decide_eq_true_eq, hle (by omega)]
        omega
      have hnone : (List.map Nat.toUInt32 (x :: rest)).takeWhile
          (fun y => decide (y ≤ (encode p).length.toUInt32)) = [] :=
        takeWhile_cons_of_neg hbeyond
      rw [hnone, append_nil, length_map, length_cons, length_newlines, count_encode]
  · intro y hy
    obtain ⟨x, hx, rfl⟩ := mem_map.mp hy
    refine decide_eq_true ?_
    rcases mem_cons.mp hx with rfl | hx
    · rw [hle (by omega)]
      omega
    · have hbound := mem_newlines hx
      rw [hle (by omega)]
      omega

theorem slice_middle (a b c : List UInt8) :
    slice (a ++ b ++ c) a.length (a.length + b.length) = some b := by
  unfold slice
  rw [if_pos, append_assoc, drop_left, Nat.add_sub_cancel_left, take_left]
  rw [length_append, length_append]
  omega

theorem line_lt (p : List Char) : line p ≤ (encode p).length := by
  rw [← count_encode]
  exact count_le_length

theorem column_le (p : List Char) : column p ≤ (encode p).length := by
  obtain ⟨w, -, hp, -⟩ := exists_current p
  have hwidth := width_le (current p)
  have hlen := length_encode_append w (current p)
  rw [← hp] at hlen
  unfold column
  omega

/-- The line and the character of a place. -/
theorem pos_eq (p q : List Char) (hsmall : (encode (p ++ q)).length < 2 ^ 32) :
    (LineIndex.new (encode (p ++ q))).pos (encode (p ++ q)) (encode p).length.toUInt32 =
      some ((line p).toUInt32, (column p).toUInt32) := by
  obtain ⟨w, hw, hp, hmem⟩ := exists_current p
  have hlen := length_encode_append p q
  have hplen : (encode p).length = (encode w).length + (encode (current p)).length := by
    conv_lhs => rw [hp]
    exact length_encode_append _ _
  have hline : line p = line w := by
    conv_lhs => rw [hp]
    rw [line_append, line_of_notMem hmem, Nat.add_zero]
  have hmin : min (encode p).length.toUInt32 (encode (p ++ q)).length.toUInt32 =
      (encode p).length.toUInt32 := by
    apply if_pos
    rw [UInt32.le_iff_toNat_le, toNat_toUInt32 (by omega), toNat_toUInt32 hsmall]
    omega
  have hstart : (LineIndex.new (encode (p ++ q))).starts[line p]? =
      some (encode w).length.toUInt32 := by
    have hsplit : p ++ q = w ++ (current p ++ q) := by
      rw [← append_assoc, ← hp]
    rw [starts_getElem, hline, hsplit, line_starts_getElem hw]
    rfl
  have hslice : slice (encode (p ++ q)) (encode w).length (encode p).length =
      some (encode (current p)) := by
    have hbytes : encode (p ++ q) = encode w ++ encode (current p) ++ encode q := by
      conv_lhs => rw [hp]
      rw [encode_append, encode_append]
    rw [hbytes, hplen, slice_middle]
  unfold LineIndex.pos
  simp only [hmin, partition_point_eq p q hsmall, Nat.add_sub_cancel, Nat.succ_ne_zero, if_false,
    Option.bind_eq_bind, Option.bind_some, hstart, toNat_toUInt32 (show (encode w).length < 2 ^ 32 by
      omega), toNat_toUInt32 (show (encode p).length < 2 ^ 32 by omega), hslice, utf16_units_eq]
  rfl

end Fors.Lsp
