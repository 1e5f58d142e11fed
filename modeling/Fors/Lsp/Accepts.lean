import Fors.Lsp.Strict

/-!
# What the reader accepts

Every text of the standard is UTF-8 and is read as the value it stands for. The converse holds of
the tidy texts, and of them only.

Principal result: `parse_exact_iff`.
-/

namespace Fors.Lsp

open Floats Outcomes.Outcome Fors.Lsp.Parser

variable {s t w rest : List UInt8} {d : Nat} {v : Json} {b : UInt8}

/-! ## The standard's texts -/

section
variable {α : Type} {P P' : List UInt8 → α → Prop} {opening closing : UInt8}

theorem padded_mono (hP : ∀ {s : List UInt8} {a : α}, P s a → P' s a) {a : α}
    (h : Padded P s a) : Padded P' s a := by
  obtain ⟨hw, hs, hw'⟩ := h
  exact ⟨hw, hP hs, hw'⟩

theorem seq_mono (hP : ∀ {s : List UInt8} {a : α}, P s a → P' s a) {v : List α}
    (h : Seq P s v) : Seq P' s v := by
  induction h with
  | one h => exact .one (hP h)
  | cons h _ ih => exact .cons (hP h) ih

theorem listed_mono (hP : ∀ {s : List UInt8} {a : α}, P s a → P' s a) {v : List α}
    (h : Listed P opening closing s v) : Listed P' opening closing s v := by
  cases h with
  | none hw => exact .none hw
  | some h => exact .some (seq_mono hP h)

end

theorem chr_lax {c : Char} (h : Chr rfc s c) : Chr lax s c := by
  cases h with
  | raw _ hquote hslash => exact .raw trivial hquote hslash
  | short he => exact .short he
  | unit hu => exact .unit (unit_lax hu)
  | pair hu hl hhigh hhigh' hlow hlow' hc =>
    exact .pair (unit_lax hu) (unit_lax hl) hhigh hhigh' hlow hlow' hc

theorem str_lax {cs : List Char} (h : Str rfc s cs) : Str lax s cs := by
  obtain ⟨h⟩ := h
  refine ⟨?_⟩
  induction h with
  | nil => exact .nil
  | cons hc _ ih => exact .cons (chr_lax hc) ih

theorem atom_lax (h : Atom rfc s v) : Atom lax s v := by
  cases h with
  | null => exact .null
  | true => exact .true
  | false => exact .false
  | num hnum hn hfin => exact .num (number_numeral hnum) hn hfin
  | str h => exact .str (str_lax h)

theorem value_lax (d : Nat) {s : List UInt8} {v : Json} (h : Value rfc d s v) :
    Value lax d s v := by
  induction d generalizing s v with
  | zero => exact atom_lax h
  | succ d ih =>
    rcases h with h | ⟨es, h, rfl⟩ | ⟨ms, h, rfl⟩
    · exact value_atom (atom_lax h)
    · exact value_array (listed_mono (padded_mono ih) h)
    · refine value_object (listed_mono (fun hm => ?_) h)
      obtain ⟨hk, hs⟩ := hm
      exact ⟨padded_mono str_lax hk, padded_mono ih hs⟩

theorem doc_lax (h : Doc rfc s v) : Doc lax s v :=
  padded_mono (value_lax _) h

/-! ### Their bytes are UTF-8 -/

section
variable {α : Type} {P : List UInt8 → α → Prop} {a : α} {opening closing : UInt8}

theorem valid_ws (hw : Ws w) : Utf8.Valid w := by
  refine Utf8.exists_ascii fun b hb => ?_
  have hb := hw b hb
  simp only [is_ws, Bool.or_eq_true, beq_iff_eq] at hb
  rcases hb with ((rfl | rfl) | rfl) | rfl <;> decide

theorem padded_valid (hP : ∀ {s : List UInt8} {a : α}, P s a → Utf8.Valid s)
    (h : Padded P s a) : Utf8.Valid s := by
  obtain ⟨hw, hs, hw'⟩ := h
  exact ((valid_ws hw).append (hP hs)).append (valid_ws hw')

theorem seq_valid (hP : ∀ {s : List UInt8} {a : α}, P s a → Utf8.Valid s) {v : List α}
    (h : Seq P s v) : Utf8.Valid s := by
  induction h with
  | one h => exact hP h
  | cons h _ ih => exact (hP h).append (.cons (by decide) ih)

theorem listed_valid (hP : ∀ {s : List UInt8} {a : α}, P s a → Utf8.Valid s)
    (hopen : opening.toNat < 128) (hclose : closing.toNat < 128) {v : List α}
    (h : Listed P opening closing s v) : Utf8.Valid s := by
  have hend : Utf8.Valid [closing] := .cons hclose ⟨[], rfl⟩
  cases h with
  | none hw => exact (Utf8.Valid.cons hopen (valid_ws hw)).append hend
  | some h => exact (Utf8.Valid.cons hopen (seq_valid hP h)).append hend

end

theorem unit_valid {n : Nat} (h : Unit lax s n) : Utf8.Valid s := by
  obtain ⟨h, rfl, hh⟩ := h
  refine .cons (by decide) (.cons (by decide) ?_)
  rcases hh with hh | ⟨ds, rfl, hh⟩
  · exact Utf8.exists_ascii (hexDigits_ascii hh)
  · exact .cons (by decide) (Utf8.exists_ascii (hexDigits_ascii hh))

theorem str_valid {cs : List Char} (h : Str lax s cs) : Utf8.Valid s := by
  obtain ⟨h⟩ := h
  have hend : Utf8.Valid ['"'.toUInt8] := .cons (by decide) ⟨[], rfl⟩
  refine Utf8.Valid.append (.cons (by decide) ?_) hend
  induction h with
  | nil => exact ⟨[], rfl⟩
  | cons hc _ ih =>
    refine Utf8.Valid.append ?_ ih
    cases hc with
    | raw => exact ⟨_, rfl⟩
    | short he =>
      have hascii : ∀ p ∈ ESCAPES, p.1.toNat < 128 := by decide
      exact .cons (by decide) (.cons (hascii _ he) ⟨[], rfl⟩)
    | unit hu => exact unit_valid hu
    | pair hu hl => exact (unit_valid hu).append (unit_valid hl)

theorem numeral_ascii (h : Decimal.is_numeral b = true) : b.toNat < 128 := by
  simp only [Decimal.is_numeral, Decimal.is_digit, Bool.or_eq_true, Bool.and_eq_true, beq_iff_eq,
    decide_eq_true_eq, UInt8.le_iff_toNat_le] at h
  have h9 : ('9'.toUInt8).toNat = 57 := rfl
  rcases h with ((((h | rfl) | rfl) | rfl) | rfl) | rfl
  · omega
  all_goals decide

theorem atom_valid (h : Atom lax s v) : Utf8.Valid s := by
  cases h with
  | null => exact ⟨_, rfl⟩
  | true => exact ⟨_, rfl⟩
  | false => exact ⟨_, rfl⟩
  | num hnum => exact Utf8.exists_ascii fun b hb => numeral_ascii (hnum b hb)
  | str h => exact str_valid h

theorem value_valid (d : Nat) {s : List UInt8} {v : Json} (h : Value lax d s v) :
    Utf8.Valid s := by
  induction d generalizing s v with
  | zero => exact atom_valid h
  | succ d ih =>
    rcases h with h | ⟨es, h, rfl⟩ | ⟨ms, h, rfl⟩
    · exact atom_valid h
    · exact listed_valid (padded_valid ih) (by decide) (by decide) h
    · refine listed_valid (fun hm => ?_) (by decide) (by decide) h
      obtain ⟨hk, hs⟩ := hm
      exact (padded_valid str_valid hk).append (.cons (by decide) (padded_valid ih hs))

/-! ## What the reader accepts -/

theorem bounded_nil : Bounded [] :=
  fun _ hb => nomatch hb

/-- On a tidy text the lax grammar has what the standard has. -/
theorem doc_of_tidy (h : Doc lax s v) (ht : Tidy .out s) : Doc rfc s v := by
  rw [← List.append_nil s] at ht
  exact (tells_padded (tells_value _) h bounded_nil ht).1

/-- Every text of the standard is tidy. -/
theorem tidy_of_doc (h : Doc rfc s v) : Tidy .out s := by
  have ht := keeps_padded (keeps_value _) h bounded_nil (by unfold Tidy; trivial)
  rwa [List.append_nil] at ht

/-- Enough steps neither run out nor end in a panic: the reader gives its value or its `None`. -/
theorem parse_within_eq {fuel : Nat} (h : 2 * s.length < fuel) :
    parse_within fuel s = some_of (parse s) := by
  have hok : (parse_within fuel s).ok = parse s :=
    Option.ext fun _ => ok_eq_some.trans ((parse_within_iff h).trans parse_iff.symm)
  exact (parse_within_answers h).eq_of_option.trans (by rw [hok]; rfl)

/-- The reader stops without a panic, and it accepts exactly the texts of the standard with the
value each of them stands for, where what the lax grammar takes is tidy. -/
theorem parse_exact_iff (s : List UInt8) :
    ((∀ fuel, 2 * s.length < fuel → parse_within fuel s = some_of (parse s)) ∧
      ∀ v, parse s = some v ↔ Utf8.Valid s ∧ Doc rfc s v) ↔
      ((∃ v, Doc lax s v) → Tidy .out s) := by
  constructor
  · rintro ⟨-, h⟩ ⟨v, hv⟩
    exact tidy_of_doc ((h v).mp (parse_iff.mpr hv)).2
  · intro htidy
    refine ⟨fun _ => parse_within_eq, fun v => ⟨fun h => ?_, fun h => ?_⟩⟩
    · have hlax := parse_iff.mp h
      exact ⟨padded_valid (value_valid _) hlax, doc_of_tidy hlax (htidy ⟨v, hlax⟩)⟩
    · exact parse_iff.mpr (doc_lax h.2)

/-- A string with a raw line feed in it is accepted. -/
theorem line_feed_accepted : parse [0x22, 0x0A, 0x22] = some (.Str ['\n']) ∧
    ¬∃ v, Doc rfc [0x22, 0x0A, 0x22] v := by
  constructor
  · have hstr : Str lax ('"'.toUInt8 :: (Utf8.encode ['\n'] ++ []) ++ ['"'.toUInt8]) ['\n'] :=
      ⟨.cons (.raw trivial (by decide) (by decide)) .nil⟩
    exact parse_iff.mpr ⟨ws_nil, value_atom (.str hstr), ws_nil⟩
  · rintro ⟨v, hv⟩
    have ht := tidy_of_doc hv
    revert ht
    unfold Tidy
    rw [if_pos (by decide)]
    unfold Tidy
    rw [if_neg (by decide), if_neg (by decide)]
    exact fun ht => absurd ht.1 (by decide)

end Fors.Lsp
