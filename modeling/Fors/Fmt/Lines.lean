import Fors.Fmt.Diff
import Fors.Lib.Runs

/-!
# Lines

A buffer is the run of its lines, each with its newline; only the last may lack it. Where the lines
begin is where `line_starts` says, and the bytes between two of these places have just the lines
there.

Principal results: `slice_lines` and `hashes_eq`.
-/

namespace Fors.Fmt

open List

abbrev NEWLINE : UInt8 :=
  '\n'.toUInt8

/-- A buffer's lines, terminators included. -/
def lines : List UInt8 → List (List UInt8)
  | [] => []
  | b :: bs =>
    if b = NEWLINE then [b] :: lines bs
    else match lines bs with
      | [] => [[b]]
      | l :: ls => (b :: l) :: ls

variable {src : List UInt8} {l : List UInt8} {ls : List (List UInt8)} {i j : Nat}

theorem lines_newline (bs : List UInt8) : lines (NEWLINE :: bs) = [NEWLINE] :: lines bs := by
  rw [lines, if_pos rfl]

theorem flatten_lines (src : List UInt8) : (lines src).flatten = src := by
  induction src with
  | nil => rfl
  | cons b bs ih =>
    rw [lines]
    split
    · rw [flatten_cons, ih]
      rfl
    · cases hls : lines bs with
      | nil =>
        rw [hls] at ih
        rw [← ih]
        rfl
      | cons l ls =>
        rw [hls] at ih
        rw [← ih]
        rfl

/-! ## The form of lines -/

/-- Lines that end at their newline and nowhere before, the last one perhaps without. -/
inductive Broken : List (List UInt8) → Prop where
  | nil : Broken []
  | last {l : List UInt8} : l ≠ [] → NEWLINE ∉ l → Broken [l]
  | whole {l : List UInt8} {ls : List (List UInt8)} : NEWLINE ∉ l → Broken ls →
      Broken ((l ++ [NEWLINE]) :: ls)

theorem broken_lines (src : List UInt8) : Broken (lines src) := by
  induction src with
  | nil => exact .nil
  | cons b bs ih =>
    rw [lines]
    split
    · next hb =>
      rw [hb]
      exact .whole (l := []) not_mem_nil ih
    · next hb =>
      have hnot {l : List UInt8} (h : NEWLINE ∉ l) : NEWLINE ∉ b :: l := by
        rw [mem_cons, not_or]
        exact ⟨Ne.symm hb, h⟩
      cases hls : lines bs with
      | nil => exact .last (cons_ne_nil _ _) (hnot not_mem_nil)
      | cons l ls =>
        rw [hls] at ih
        cases ih with
        | last _ hl => exact .last (cons_ne_nil _ _) (hnot hl)
        | whole hl hls => exact .whole (hnot hl) hls

theorem lines_whole (hl : NEWLINE ∉ l) (bs : List UInt8) :
    lines (l ++ NEWLINE :: bs) = (l ++ [NEWLINE]) :: lines bs := by
  induction l with
  | nil => exact lines_newline bs
  | cons b l ih =>
    rw [mem_cons, not_or] at hl
    rw [cons_append, lines, if_neg (Ne.symm hl.1), ih hl.2]
    rfl

theorem lines_last (hl : NEWLINE ∉ l) (hne : l ≠ []) : lines l = [l] := by
  induction l with
  | nil => exact absurd rfl hne
  | cons b l ih =>
    rw [mem_cons, not_or] at hl
    rw [lines, if_neg (Ne.symm hl.1)]
    cases l with
    | nil => rfl
    | cons b' l => rw [ih hl.2 (cons_ne_nil _ _)]

/-- Lines in form are the lines of their bytes. -/
theorem Broken.lines_flatten (h : Broken ls) : lines ls.flatten = ls := by
  induction h with
  | nil => rfl
  | last hne hl =>
    rw [flatten_singleton]
    exact lines_last hl hne
  | whole hl _ ih =>
    rw [flatten_cons, append_assoc, singleton_append, lines_whole hl, ih]

theorem Broken.drop (h : Broken ls) (i : Nat) : Broken (ls.drop i) := by
  induction h generalizing i with
  | nil => rw [drop_nil]; exact .nil
  | last hne hl =>
    cases i with
    | zero => exact .last hne hl
    | succ i => rw [drop_succ_cons, drop_nil]; exact .nil
  | whole hl hls ih =>
    cases i with
    | zero => exact .whole hl hls
    | succ i => exact ih i

theorem Broken.take (h : Broken ls) (i : Nat) : Broken (ls.take i) := by
  induction h generalizing i with
  | nil => rw [take_nil]; exact .nil
  | last hne hl =>
    cases i with
    | zero => exact .nil
    | succ i => rw [take_succ_cons, take_nil]; exact .last hne hl
  | whole hl _ ih =>
    cases i with
    | zero => exact .nil
    | succ i => exact .whole hl (ih i)

theorem Broken.ne_nil (h : Broken ls) (hl : l ∈ ls) : l ≠ [] := by
  induction h with
  | nil => cases hl
  | last hne _ =>
    rw [mem_singleton.mp hl]
    exact hne
  | whole _ _ ih =>
    rcases mem_cons.mp hl with rfl | hl
    · simp
    · exact ih hl

/-! ## Where lines begin -/

/-- The place before line `i`. -/
def offset (ls : List (List UInt8)) (i : Nat) : Nat :=
  (ls.take i).flatten.length

/-- The places behind the lines from `o` on. -/
def ends (o : Nat) : List (List UInt8) → List Nat
  | [] => []
  | l :: ls => (o + l.length) :: ends (o + l.length) ls

theorem ends_get (o : Nat) (hi : i ≤ ls.length) : (o :: ends o ls)[i]? = some (o + offset ls i) := by
  induction ls generalizing o i with
  | nil =>
    obtain rfl : i = 0 := by simpa using hi
    rfl
  | cons l ls ih =>
    cases i with
    | zero => rfl
    | succ i =>
      rw [ends, getElem?_cons_succ, ih (o + l.length) (by simpa using hi)]
      unfold offset
      rw [take_succ_cons, flatten_cons, length_append, Nat.add_assoc]

/-- The places behind the newlines from `o` on. -/
def newlines (o : Nat) : List UInt8 → List Nat
  | [] => []
  | b :: bs => if b = NEWLINE then (o + 1) :: newlines (o + 1) bs else newlines (o + 1) bs

theorem foldl_newlines (bs : List UInt8) (o : Nat) (v : List Nat) :
    (bs.zipIdx o).foldl (fun v b => if b.1 = NEWLINE then v ++ [b.2 + 1] else v) v =
      v ++ newlines o bs := by
  induction bs generalizing o v with
  | nil => simp [newlines]
  | cons b bs ih =>
    rw [zipIdx_cons, foldl_cons, ih, newlines]
    split
    · rw [append_assoc]
      rfl
    · rfl

/-- With the end of the buffer where no newline stands before it. -/
def closed (o : Nat) (bs : List UInt8) : List Nat :=
  if (o :: newlines o bs).getLast? ≠ some (o + bs.length) then newlines o bs ++ [o + bs.length]
  else newlines o bs

theorem closed_eq (o : Nat) (bs : List UInt8) : closed o bs = ends o (lines bs) := by
  induction bs generalizing o with
  | nil => simp [closed, newlines, lines, ends]
  | cons b bs ih =>
    have hlen : o + (b :: bs).length = o + 1 + bs.length := by
      rw [length_cons]
      omega
    by_cases hb : b = NEWLINE
    · rw [hb, lines_newline, ends, length_singleton, ← ih]
      unfold closed
      rw [newlines, if_pos rfl, ← hb, hlen, getLast?_cons_cons]
      split <;> rfl
    · have hnewlines : newlines o (b :: bs) = newlines (o + 1) bs := by
        rw [newlines, if_neg hb]
      rw [lines, if_neg hb]
      cases hls : lines bs with
      | nil =>
        obtain rfl : bs = [] := by rw [← flatten_lines bs, hls]; rfl
        simp [closed, hb, newlines, ends]
      | cons l ls =>
        have hpos : 0 < bs.length := by
          rw [length_pos_iff]
          rintro rfl
          cases hls
        have hclosed : closed o (b :: bs) = closed (o + 1) bs := by
          unfold closed
          rw [hnewlines, hlen]
          cases newlines (o + 1) bs with
          | nil =>
            have hlow : (o : Nat) ≠ o + 1 + bs.length := by omega
            have hhigh : o + 1 ≠ o + 1 + bs.length := by omega
            rw [if_pos (by simpa using hlow), if_pos (by simpa using hhigh)]
          | cons x xs => rw [getLast?_cons_cons, getLast?_cons_cons]
        rw [hclosed, ih, hls, ends, ends, length_cons, Nat.add_right_comm, ← Nat.add_assoc]

theorem line_starts_eq (src : List UInt8) : line_starts src = 0 :: ends 0 (lines src) := by
  unfold line_starts
  simp only [foldl_newlines]
  rw [← closed_eq]
  unfold closed
  simp only [singleton_append, Nat.zero_add]
  split <;> rfl

theorem line_starts_get (hi : i ≤ (lines src).length) :
    (line_starts src)[i]? = some (offset (lines src) i) := by
  rw [line_starts_eq, ends_get 0 hi, Nat.zero_add]

/-! ### Slices at lines -/

theorem offset_length (ls : List (List UInt8)) : offset ls ls.length = ls.flatten.length := by
  unfold offset
  rw [take_length]

theorem offset_add (ls : List (List UInt8)) (i k : Nat) :
    offset ls (i + k) = offset ls i + ((ls.drop i).take k).flatten.length := by
  unfold offset
  rw [take_add, flatten_append, length_append]

theorem offset_mono (hij : i ≤ j) : offset ls i ≤ offset ls j := by
  obtain ⟨k, rfl⟩ := Nat.exists_eq_add_of_le hij
  rw [offset_add]
  exact Nat.le_add_right _ _

theorem offset_le (ls : List (List UInt8)) (i : Nat) : offset ls i ≤ ls.flatten.length := by
  have hsplit : ls.flatten = (ls.take i).flatten ++ (ls.drop i).flatten := by
    rw [← flatten_append, take_append_drop]
  unfold offset
  rw [hsplit, length_append]
  exact Nat.le_add_right _ _

theorem flatten_take (ls : List (List UInt8)) (i : Nat) :
    ls.flatten.take (offset ls i) = (ls.take i).flatten := by
  unfold offset
  conv_lhs => rw [← take_append_drop i ls, flatten_append]
  rw [take_append_drop]
  exact take_left

theorem flatten_drop (ls : List (List UInt8)) (i : Nat) :
    ls.flatten.drop (offset ls i) = (ls.drop i).flatten := by
  unfold offset
  conv_lhs => rw [← take_append_drop i ls, flatten_append]
  rw [take_append_drop]
  exact drop_left

/-- The bytes between two places before lines. -/
theorem slice_lines (hij : i ≤ j) :
    (ls.flatten.drop (offset ls i)).take (offset ls j - offset ls i) =
      ((ls.drop i).take (j - i)).flatten := by
  obtain ⟨k, rfl⟩ := Nat.exists_eq_add_of_le hij
  rw [flatten_drop, offset_add, Nat.add_sub_cancel_left, Nat.add_sub_cancel_left]
  exact flatten_take (ls.drop i) k

theorem slice_eq (ls : List (List UInt8)) (hij : i ≤ j) : slice ls.flatten (offset ls i) (offset ls j) =
    some ((ls.drop i).take (j - i)).flatten := by
  unfold slice
  rw [if_pos ⟨offset_mono hij, offset_le ls j⟩, slice_lines hij]

/-! ## The hashes -/

theorem hashes_from (pre : List UInt8) (ls : List (List UInt8)) :
    ((pre.length :: ends pre.length ls).zip (ends pre.length ls)).mapM
      (fun w => (slice (pre ++ ls.flatten) w.1 w.2).map line_hash) = some (ls.map line_hash) := by
  induction ls generalizing pre with
  | nil => rfl
  | cons l ls ih =>
    have hslice : slice (pre ++ (l :: ls).flatten) pre.length (pre.length + l.length) = some l := by
      unfold slice
      rw [if_pos (by simp), drop_left, Nat.add_sub_cancel_left, flatten_cons,
        take_left]
    have hrest := ih (pre ++ l)
    rw [length_append, append_assoc] at hrest
    rw [ends, zip_cons_cons, mapM_cons, hslice, flatten_cons, hrest]
    rfl

/-- Each line is hashed. -/
theorem hashes_eq (src : List UInt8) :
    hashes src (line_starts src) = some ((lines src).map line_hash) := by
  have hall := hashes_from [] (lines src)
  rw [nil_append, flatten_lines] at hall
  rw [line_starts_eq]
  exact hall

end Fors.Fmt
