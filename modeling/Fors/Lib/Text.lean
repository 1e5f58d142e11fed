import Mathlib.Data.List.SplitOn

/-!
# Text

A text is its lines and a line is its words. Lines end in a newline, words are what stands
between the white space, and a text that is written word by word and line by line reads as what
was written.
-/

namespace Text

open List

/-- The code points with the property `White_Space`. -/
def is_whitespace (c : Char) : Bool :=
  let n := c.toNat
  (0x09 ≤ n ∧ n ≤ 0x0D) ∨ n = 0x20 ∨ n = 0x85 ∨ n = 0xA0 ∨ n = 0x1680 ∨
    (0x2000 ≤ n ∧ n ≤ 0x200A) ∨ n = 0x2028 ∨ n = 0x2029 ∨ n = 0x202F ∨ n = 0x205F ∨ n = 0x3000

/-- The lines, without their `\n` or `\r\n`; the last one may lack it. -/
def lines : List Char → List (List Char)
  | [] => []
  | '\r' :: '\n' :: cs => [] :: lines cs
  | '\n' :: cs => [] :: lines cs
  | c :: cs =>
    match lines cs with
    | [] => [[c]]
    | l :: ls => (c :: l) :: ls

def words (s : List Char) : List (List Char) :=
  (s.splitOnP is_whitespace).filter (· ≠ [])

/-- What follows `p`, which `s` starts with. -/
def strip_prefix (p s : String) : Option String :=
  if p.toList <+: s.toList then some (String.ofList (s.toList.drop p.toList.length)) else none

def starts_with (s p : String) : Bool :=
  p.toList <+: s.toList

/-- What stands before and behind the first `c`. -/
def split_once (c : Char) (s : String) : Option (String × String) :=
  match s.toList.dropWhile (· ≠ c) with
  | [] => none
  | _ :: rest => some (String.ofList (s.toList.takeWhile (· ≠ c)), String.ofList rest)

/-! ## Written text -/

/-- Words behind others on their line. -/
def spaced (ws : List (List Char)) : List Char :=
  ws.flatMap (' ' :: ·)

/-- A word: something without white space. -/
def Word (w : List Char) : Prop :=
  w ≠ [] ∧ ∀ c ∈ w, is_whitespace c = false

variable {w l s : List Char} {ws ls : List (List Char)}

theorem lines_append_newline (hl : ∀ c ∈ l, c ≠ '\n' ∧ c ≠ '\r') :
    lines (l ++ '\n' :: s) = l :: lines s := by
  induction l with
  | nil => rw [nil_append, lines]
  | cons c l ih =>
    obtain ⟨hnewline, hreturn⟩ := hl c mem_cons_self
    rw [cons_append, lines, ih fun c hc => hl c (mem_cons_of_mem _ hc)]
    · intro cs hc
      exact absurd hc hreturn
    · exact hnewline

theorem words_word (hw : Word w) : words w = [w] := by
  simp only [words]
  rw [splitOnP_eq_singleton hw.2, filter_cons_of_pos (by simpa using hw.1)]
  rfl

theorem words_word_space (hw : Word w) (s : List Char) : words (w ++ ' ' :: s) = w :: words s := by
  simp only [words]
  rw [splitOnP_append_cons_of_forall_mem hw.2 ' ' (by decide),
    filter_cons_of_pos (by simpa using hw.1)]

theorem words_append_spaced (hw : Word w) (hws : ∀ v ∈ ws, Word v) :
    words (w ++ spaced ws) = w :: ws := by
  induction ws generalizing w with
  | nil => simpa [spaced] using words_word hw
  | cons v ws ih =>
    have hv := hws v mem_cons_self
    change words (w ++ ' ' :: (v ++ spaced ws)) = w :: v :: ws
    rw [words_word_space hw, ih hv fun v hv => hws v (mem_cons_of_mem _ hv)]

variable {c : Char}

/-- White space only separates. -/
theorem is_whitespace_of_line_end (hc : is_whitespace c = false) :
    c ≠ '\n' ∧ c ≠ '\r' := by
  refine ⟨?_, ?_⟩ <;> rintro rfl <;> exact absurd hc (by decide)

/-! ## Parts of a word -/

theorem strip_prefix_append (p s : String) : strip_prefix p (p ++ s) = some s := by
  simp [ strip_prefix, String.toList_append]

theorem starts_with_append (p s : String) : starts_with (p ++ s) p = true := by
  simp [starts_with, String.toList_append]

/-- Two words that differ in the first letter. -/
theorem strip_prefix_ne {p s : String} {d : Char} {cs ds : List Char} (hp : p.toList = c :: cs)
    (hs : s.toList = d :: ds) (hcd : c ≠ d) : strip_prefix p s = none := by
  unfold strip_prefix
  rw [if_neg]
  rw [hp, hs, cons_prefix_cons]
  exact fun h => hcd h.1

theorem starts_with_ne {p s : String} {d : Char} {cs ds : List Char} (hp : p.toList = c :: cs)
    (hs : s.toList = d :: ds) (hcd : c ≠ d) : starts_with s p = false := by
  unfold starts_with
  rw [decide_eq_false_iff_not, hp, hs, cons_prefix_cons]
  exact fun h => hcd h.1

theorem split_once_append {a b : String} (ha : c ∉ a.toList) :
    split_once c (a ++ String.singleton c ++ b) = some (a, b) := by
  have hne : ∀ x ∈ a.toList, decide (x ≠ c) = true := by
    intro x hx
    exact decide_eq_true fun h => ha (h ▸ hx)
  unfold split_once
  simp only [String.toList_append, String.toList_singleton, append_assoc]
  rw [dropWhile_append_of_pos hne, takeWhile_append_of_pos hne]
  simp

end Text
