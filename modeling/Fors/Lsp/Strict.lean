import Fors.Lsp.Reads

/-!
# Texts beyond the standard

The reader takes what RFC 8259 derives and more: numerals that only the float reader has, control
characters in strings, and an escape with a sign. A text is tidy where it has none of these, which
one pass over its bytes tells; on the tidy texts the two grammars agree.

Principal results: `keeps_value` and `tells_value`.
-/

namespace Fors.Lsp

open Floats MapM Fors.Lsp.Parser List

variable {s t w rest : List UInt8} {d : Nat} {v : Json} {b : UInt8}

/-- Where in a text a byte stands: between lexemes, in a numeral, in a string, behind a backslash. -/
inductive Place where
  | out
  | num
  | str
  | esc

/-- A byte that a numeral may start with. -/
def starts (b : UInt8) : Bool :=
  Decimal.is_digit b || b == '.'.toUInt8 || b == '+'.toUInt8 || b == '-'.toUInt8

/-- Every numeral is a number of the standard, no control character stands in a string and no
sign behind `\u`. -/
def Tidy : Place → List UInt8 → Prop
  | _, [] => True
  | .out, b :: t =>
    if b = '"'.toUInt8 then Tidy .str t
    else if starts b then Number ((b :: t).takeWhile Decimal.is_numeral) ∧ Tidy .num t
    else Tidy .out t
  | .num, b :: t =>
    if Decimal.is_numeral b then Tidy .num t
    else if b = '"'.toUInt8 then Tidy .str t
    else Tidy .out t
  | .str, b :: t =>
    if b = '"'.toUInt8 then Tidy .out t
    else if b = '\\'.toUInt8 then Tidy .esc t
    else 0x20 ≤ b.toNat ∧ Tidy .str t
  | .esc, b :: t => (b = 'u'.toUInt8 → t.head? ≠ some '+'.toUInt8) ∧ Tidy .str t

theorem starts_numeral (h : starts b = true) : Decimal.is_numeral b = true := by
  simp only [starts, Decimal.is_numeral, Bool.or_eq_true] at h ⊢
  tauto

theorem tidy_out_cons (hq : b ≠ '"'.toUInt8) (hs : starts b = false) :
    Tidy .out (b :: t) ↔ Tidy .out t := by
  rw [Tidy, if_neg hq, if_neg (by rw [hs]; decide)]

theorem not_starts (h : Decimal.is_numeral b = false) : starts b = false := by
  cases hs : starts b with
  | false => rfl
  | true => rw [starts_numeral hs] at h; cases h

theorem tidy_word (hw : ∀ b ∈ w, b ≠ '"'.toUInt8 ∧ starts b = false) :
    Tidy .out (w ++ t) ↔ Tidy .out t := by
  induction w with
  | nil => exact Iff.rfl
  | cons b w ih =>
    obtain ⟨hq, hs⟩ := hw b mem_cons_self
    rw [cons_append, tidy_out_cons hq hs, ih fun c hc => hw c (mem_cons_of_mem _ hc)]

theorem tidy_ws (hw : Ws w) : Tidy .out (w ++ t) ↔ Tidy .out t := by
  refine tidy_word fun b hb => ⟨?_, not_starts (not_numeral_of_ws (hw b hb))⟩
  rintro rfl
  cases hw _ hb

/-! ## Numerals -/

theorem tidy_num (hrest : Bounded rest) : Tidy .num rest ↔ Tidy .out rest := by
  cases rest with
  | nil => rw [Tidy, Tidy]
  | cons b rest =>
    have hb := hrest b rfl
    rw [Tidy, Tidy, if_neg (by rw [hb]; decide)]
    by_cases hq : b = '"'.toUInt8
    · rw [if_pos hq, if_pos hq]
    · rw [if_neg hq, if_neg hq, if_neg (by rw [not_starts hb]; decide)]

theorem tidy_num_append (ht : ∀ b ∈ t, Decimal.is_numeral b = true) :
    Tidy .num (t ++ rest) ↔ Tidy .num rest := by
  induction t with
  | nil => exact Iff.rfl
  | cons b t ih =>
    rw [cons_append, Tidy, if_pos (ht b mem_cons_self),
      ih fun c hc => ht c (mem_cons_of_mem _ hc)]

theorem starts_of_from_str {n : Interp.F64} (ht : lax.num (b :: t))
    (hn : Decimal.from_str (b :: t) = some n) : starts b = true := by
  have hb := ht b mem_cons_self
  have hexp : ¬(b = 'e'.toUInt8 ∨ b = 'E'.toUInt8) := by
    intro h
    rw [Decimal.from_str_exponent h] at hn
    cases hn
  simp only [starts, Decimal.is_numeral, Bool.or_eq_true, beq_iff_eq] at hb ⊢
  tauto

/-- A numeral is tidy where it is a number of the standard. -/
theorem tidy_numeral {n : Interp.F64} (ht : lax.num t) (hn : Decimal.from_str t = some n)
    (hrest : Bounded rest) : Tidy .out (t ++ rest) ↔ Number t ∧ Tidy .out rest := by
  cases t with
  | nil => cases hn
  | cons b t =>
    have hstart := starts_of_from_str ht hn
    have hq : b ≠ '"'.toUInt8 := by
      rintro rfl
      cases hstart
    have hstop : rest.takeWhile Decimal.is_numeral = [] := by
      cases rest with
      | nil => rfl
      | cons c rest => exact takeWhile_cons_of_neg (by rw [hrest c rfl]; decide)
    rw [cons_append, Tidy, if_neg hq, if_pos hstart, ← cons_append,
      takeWhile_append_of_pos ht, hstop, append_nil,
      tidy_num_append fun c hc => ht c (mem_cons_of_mem _ hc), tidy_num hrest]

theorem digits_numeral (h : Digits t) : ∀ b ∈ t, Decimal.is_numeral b = true :=
  fun b hb => Decimal.is_numeral_of_digit (all_eq_true.mp h.2 b hb)

theorem number_numeral (h : Number t) : lax.num t := by
  obtain ⟨minus, int, frac, exp, rfl, hminus, hint, hfrac, hexp⟩ := h
  intro b hb
  simp only [mem_append] at hb
  rcases hb with ((hb | hb) | hb) | hb
  · rcases hminus with rfl | rfl
    · cases hb
    · rw [mem_singleton.mp hb]
      decide
  · rcases hint with rfl | ⟨hint, -⟩
    · rw [mem_singleton.mp hb]
      decide
    · exact digits_numeral hint b hb
  · rcases hfrac with rfl | ⟨ds, hds, rfl⟩
    · cases hb
    · rcases mem_cons.mp hb with rfl | hb
      · decide
      · exact digits_numeral hds b hb
  · rcases hexp with rfl | ⟨e, sign, ds, hds, he, hsign, rfl⟩
    · cases hb
    · rcases mem_append.mp hb with hb | hb
      · rcases mem_cons.mp hb with rfl | hb
        · rcases he with rfl | rfl <;> decide
        · rcases hsign with rfl | rfl | rfl
          · cases hb
          · rw [mem_singleton.mp hb]
            decide
          · rw [mem_singleton.mp hb]
            decide
      · exact digits_numeral hds b hb

/-! ## Strings -/

/-- Bytes of a string that are neither its end nor an escape. -/
theorem tidy_str_append (hs : ∀ b ∈ s, b ≠ '"'.toUInt8 ∧ b ≠ '\\'.toUInt8) :
    Tidy .str (s ++ rest) ↔ (∀ b ∈ s, 0x20 ≤ b.toNat) ∧ Tidy .str rest := by
  induction s with
  | nil => simp
  | cons b s ih =>
    obtain ⟨hquote, hslash⟩ := hs b mem_cons_self
    rw [cons_append, Tidy, if_neg hquote, if_neg hslash,
      ih fun c hc => hs c (mem_cons_of_mem _ hc), forall_mem_cons, and_assoc]

variable {n : Nat}

theorem hex_digit_plain (h : hex_digit b = some n) : b ≠ '"'.toUInt8 ∧
    b ≠ '\\'.toUInt8 ∧ b ≠ '+'.toUInt8 ∧ 0x20 ≤ b.toNat := by
  refine ⟨?_, ?_, ?_, ?_⟩
  · rintro rfl
    cases h
  · rintro rfl
    cases h
  · rintro rfl
    cases h
  · have h0 : ('0'.toUInt8).toNat = 48 := rfl
    have hA : ('A'.toUInt8).toNat = 65 := rfl
    have ha : ('a'.toUInt8).toNat = 97 := rfl
    by_contra hlt
    unfold hex_digit at h
    simp only [UInt8.le_iff_toNat_le] at h
    rw [if_neg (by omega), if_neg (by omega), if_neg (by omega)] at h
    cases h

/-- A row of digits is tidy. -/
theorem tidy_digits {k : Nat} (h : HexDigits k s n) :
    Tidy .str (s ++ rest) ↔ Tidy .str rest := by
  obtain ⟨-, ds, hds, -⟩ := h
  have hplain : ∀ b ∈ s, ∃ n, hex_digit b = some n := fun b hb => exists_of_mem hds hb
  rw [tidy_str_append]
  · refine and_iff_right fun b hb => ?_
    obtain ⟨n, hn⟩ := hplain b hb
    exact (hex_digit_plain hn).2.2.2
  · intro b hb
    obtain ⟨n, hn⟩ := hplain b hb
    exact ⟨(hex_digit_plain hn).1, (hex_digit_plain hn).2.1⟩

theorem tidy_unit (h : Unit lax s n) :
    Tidy .str (s ++ rest) ↔ Unit rfc s n ∧ Tidy .str rest := by
  obtain ⟨h, rfl, hh⟩ := h
  have hescape : Tidy .str ('\\'.toUInt8 :: 'u'.toUInt8 :: h ++ rest) ↔
      (h ++ rest).head? ≠ some '+'.toUInt8 ∧ Tidy .str (h ++ rest) := by
    rw [cons_append, cons_append, Tidy, if_neg (by decide), if_pos rfl, Tidy]
    exact and_congr_left fun _ => ⟨fun hu => hu rfl, fun hu _ => hu⟩
  rw [hescape]
  rcases hh with hh | ⟨ds, rfl, hh⟩
  · have hhead : (h ++ rest).head? ≠ some '+'.toUInt8 := by
      obtain ⟨hlen, ds, hds, -⟩ := hh
      cases h with
      | nil => cases hlen
      | cons b h =>
        obtain ⟨n, hn⟩ := exists_of_mem hds mem_cons_self
        exact fun heq => (hex_digit_plain hn).2.2.1 (Option.some.inj heq)
    rw [tidy_digits hh]
    exact ⟨fun ht => ⟨⟨h, rfl, hh⟩, ht.2⟩, fun ht => ⟨hhead, ht.2⟩⟩
  · constructor
    · rintro ⟨hne, -⟩
      exact absurd rfl hne
    · rintro ⟨⟨h', heq, -, ds', hds', -⟩, -⟩
      obtain rfl := (cons.inj (cons.inj heq).2).2
      obtain ⟨n, hn⟩ := exists_of_mem hds' mem_cons_self
      cases hn

variable {c : Char}

theorem tidy_raw (hquote : c ≠ '"') (hslash : c ≠ '\\') :
    Tidy .str (Utf8.encode [c] ++ rest) ↔ 0x20 ≤ c.toNat ∧ Tidy .str rest := by
  have hbyte : ∀ {b : UInt8}, b ∈ Utf8.encode [c] → b.toNat < 128 → c.toNat = b.toNat := by
    intro b hb hlt
    obtain ⟨d, hd, heq⟩ := Utf8.mem_encode_ascii hb hlt
    rwa [mem_singleton.mp hd] at heq
  rw [tidy_str_append]
  · refine and_congr_left fun _ => ⟨fun h => ?_, fun h b hb => ?_⟩
    · by_contra hlt
      have hone := Utf8.encode_ascii (c := c) (by omega)
      have hmem : UInt8.ofNat c.toNat ∈ Utf8.encode [c] := by
        rw [encode_singleton, hone]
        exact mem_singleton_self _
      have hle := h _ hmem
      rw [UInt8.toNat_ofNat'] at hle
      omega
    · by_contra hlt
      have heq := hbyte hb (by omega)
      omega
  · intro b hb
    refine ⟨?_, ?_⟩
    · rintro rfl
      exact hquote (Char.toNat_inj.mp (hbyte hb (by decide)))
    · rintro rfl
      exact hslash (Char.toNat_inj.mp (hbyte hb (by decide)))

theorem tidy_short {e : UInt8} (h : (e, c) ∈ ESCAPES) :
    Tidy .str (['\\'.toUInt8, e] ++ rest) ↔ Tidy .str rest := by
  have hu : e ≠ 'u'.toUInt8 := by
    rintro rfl
    have hnone : short_escape 'u'.toUInt8 = none := by decide
    have hsome := short_escape_eq_some.mpr h
    rw [hnone] at hsome
    cases hsome
  rw [cons_append, singleton_append, Tidy, if_neg (by decide), if_pos rfl, Tidy]
  exact and_iff_right fun heq => absurd heq hu

theorem unit_lax (h : Unit rfc s n) : Unit lax s n := by
  obtain ⟨h, rfl, hh⟩ := h
  exact ⟨h, rfl, .inl hh⟩

theorem chr_of_tidy (h : Chr lax s c) (ht : Tidy .str (s ++ rest)) :
    Chr rfc s c ∧ Tidy .str rest := by
  cases h with
  | raw _ hquote hslash =>
    obtain ⟨hc, hrest⟩ := (tidy_raw hquote hslash).mp ht
    exact ⟨.raw hc hquote hslash, hrest⟩
  | short he => exact ⟨.short he, (tidy_short he).mp ht⟩
  | unit hu =>
    obtain ⟨hu, hrest⟩ := (tidy_unit hu).mp ht
    exact ⟨.unit hu, hrest⟩
  | pair hu hl hhigh hhigh' hlow hlow' hc =>
    rw [append_assoc] at ht
    obtain ⟨hu, ht⟩ := (tidy_unit hu).mp ht
    obtain ⟨hl, hrest⟩ := (tidy_unit hl).mp ht
    exact ⟨.pair hu hl hhigh hhigh' hlow hlow' hc, hrest⟩

theorem tidy_of_chr (h : Chr rfc s c) (ht : Tidy .str rest) :
    Tidy .str (s ++ rest) := by
  cases h with
  | raw hc hquote hslash => exact (tidy_raw hquote hslash).mpr ⟨hc, ht⟩
  | short he => exact (tidy_short he).mpr ht
  | unit hu => exact (tidy_unit (unit_lax hu)).mpr ⟨hu, ht⟩
  | pair hu hl =>
    rw [append_assoc]
    exact (tidy_unit (unit_lax hu)).mpr ⟨hu, (tidy_unit (unit_lax hl)).mpr ⟨hl, ht⟩⟩

theorem chars_of_tidy {cs : List Char} (h : Chars lax s cs) (ht : Tidy .str (s ++ rest)) :
    Chars rfc s cs ∧ Tidy .str rest := by
  induction h with
  | nil => exact ⟨.nil, ht⟩
  | cons hc _ ih =>
    rw [append_assoc] at ht
    obtain ⟨hc, ht⟩ := chr_of_tidy hc ht
    obtain ⟨hcs, hrest⟩ := ih ht
    exact ⟨.cons hc hcs, hrest⟩

theorem tidy_of_chars {cs : List Char} (h : Chars rfc s cs) (ht : Tidy .str rest) :
    Tidy .str (s ++ rest) := by
  induction h with
  | nil => exact ht
  | cons hc _ ih =>
    rw [append_assoc]
    exact tidy_of_chr hc ih

/-! ## Values -/

section
variable {α : Type} (P P' : List UInt8 → α → Prop)

/-- On tidy texts one grammar has what the other has. -/
def Tells : Prop :=
  ∀ {s : List UInt8} {a : α} {rest : List UInt8}, P s a → Bounded rest → Tidy .out (s ++ rest) →
    P' s a ∧ Tidy .out rest

/-- All that a grammar has is tidy. -/
def Keeps : Prop :=
  ∀ {s : List UInt8} {a : α} {rest : List UInt8}, P s a → Bounded rest → Tidy .out rest →
    Tidy .out (s ++ rest)

end

section
variable {α : Type} {P P' : List UInt8 → α → Prop} {opening closing : UInt8}

theorem tells_padded (hP : Tells P P') : Tells (Padded P) (Padded P') := by
  intro s a rest h hrest ht
  obtain @⟨w, s, w', a, hw, hs, hw'⟩ := h
  rw [append_assoc, append_assoc, tidy_ws hw] at ht
  obtain ⟨hs, ht⟩ := hP hs (bounded_append hw' hrest) ht
  exact ⟨⟨hw, hs, hw'⟩, (tidy_ws hw').mp ht⟩

theorem keeps_padded (hP : Keeps P) : Keeps (Padded P) := by
  intro s a rest h hrest ht
  obtain @⟨w, s, w', a, hw, hs, hw'⟩ := h
  rw [append_assoc, append_assoc, tidy_ws hw]
  exact hP hs (bounded_append hw' hrest) ((tidy_ws hw').mpr ht)

theorem tidy_mark (hq : b ≠ '"'.toUInt8) (hn : Decimal.is_numeral b = false) :
    Tidy .out (b :: t) ↔ Tidy .out t :=
  tidy_out_cons hq (not_starts hn)

theorem tells_seq (hP : Tells P P') : Tells (Seq P) (Seq P') := by
  intro s v rest h hrest ht
  induction h with
  | one h =>
    obtain ⟨h, ht⟩ := hP h hrest ht
    exact ⟨.one h, ht⟩
  | @cons s t a v h _ ih =>
    rw [append_assoc] at ht
    obtain ⟨h, ht⟩ := hP h (bounded_cons (by decide)) ht
    obtain ⟨hv, hrest⟩ := ih ((tidy_mark (by decide) (by decide)).mp ht)
    exact ⟨.cons h hv, hrest⟩

theorem keeps_seq (hP : Keeps P) : Keeps (Seq P) := by
  intro s v rest h hrest ht
  induction h with
  | one h => exact hP h hrest ht
  | @cons s t a v h _ ih =>
    rw [append_assoc]
    exact hP h (bounded_cons (by decide)) ((tidy_mark (by decide) (by decide)).mpr ih)

theorem tells_listed (hP : Tells P P') (hopen : opening ≠ '"'.toUInt8)
    (hopen' : Decimal.is_numeral opening = false) (hclose : closing ≠ '"'.toUInt8)
    (hclose' : Decimal.is_numeral closing = false) :
    Tells (Listed P opening closing) (Listed P' opening closing) := by
  intro s v rest h hrest ht
  cases h with
  | none hw =>
    rw [append_assoc, cons_append, tidy_mark hopen hopen', tidy_ws hw] at ht
    exact ⟨.none hw, (tidy_mark hclose hclose').mp ht⟩
  | some h =>
    rw [append_assoc, cons_append, tidy_mark hopen hopen'] at ht
    obtain ⟨h, ht⟩ := tells_seq hP h (bounded_cons hclose') ht
    exact ⟨.some h, (tidy_mark hclose hclose').mp ht⟩

theorem keeps_listed (hP : Keeps P) (hopen : opening ≠ '"'.toUInt8)
    (hopen' : Decimal.is_numeral opening = false) (hclose : closing ≠ '"'.toUInt8)
    (hclose' : Decimal.is_numeral closing = false) : Keeps (Listed P opening closing) := by
  intro s v rest h hrest ht
  have hend : Tidy .out ([closing] ++ rest) := (tidy_mark hclose hclose').mpr ht
  cases h with
  | none hw =>
    rw [append_assoc, cons_append, tidy_mark hopen hopen', tidy_ws hw]
    exact hend
  | some h =>
    rw [append_assoc, cons_append, tidy_mark hopen hopen']
    exact keeps_seq hP h (bounded_cons hclose') hend

end

theorem tells_str : Tells (Str lax) (Str rfc) := by
  intro s cs rest h _ ht
  obtain ⟨h⟩ := h
  rw [append_assoc, cons_append, Tidy, if_pos rfl] at ht
  obtain ⟨h, ht⟩ := chars_of_tidy h ht
  rw [singleton_append, Tidy, if_pos rfl] at ht
  exact ⟨⟨h⟩, ht⟩

theorem keeps_str : Keeps (Str rfc) := by
  intro s cs rest h _ ht
  obtain ⟨h⟩ := h
  rw [append_assoc, cons_append, Tidy, if_pos rfl]
  refine tidy_of_chars h ?_
  rw [singleton_append, Tidy, if_pos rfl]
  exact ht

theorem tells_member {P P' : List UInt8 → Json → Prop} (hP : Tells P P') :
    Tells (Member lax P) (Member rfc P') := by
  intro s m rest h hrest ht
  obtain ⟨hk, hs⟩ := h
  rw [append_assoc] at ht
  obtain ⟨hk, ht⟩ := tells_padded tells_str hk (bounded_cons (by decide)) ht
  obtain ⟨hs, ht⟩ := tells_padded hP hs hrest ((tidy_mark (by decide) (by decide)).mp ht)
  exact ⟨⟨hk, hs⟩, ht⟩

theorem keeps_member {P : List UInt8 → Json → Prop} (hP : Keeps P) : Keeps (Member rfc P) := by
  intro s m rest h hrest ht
  obtain ⟨hk, hs⟩ := h
  rw [append_assoc]
  refine keeps_padded keeps_str hk (bounded_cons (by decide)) ?_
  exact (tidy_mark (by decide) (by decide)).mpr (keeps_padded hP hs hrest ht)

theorem tells_atom : Tells (Atom lax) (Atom rfc) := by
  intro s v rest h hrest ht
  cases h with
  | null => exact ⟨.null, (tidy_word (by decide +kernel)).mp ht⟩
  | true => exact ⟨.true, (tidy_word (by decide +kernel)).mp ht⟩
  | false => exact ⟨.false, (tidy_word (by decide +kernel)).mp ht⟩
  | num hnum hn hfin =>
    obtain ⟨hnum, ht⟩ := (tidy_numeral hnum hn hrest).mp ht
    exact ⟨.num hnum hn hfin, ht⟩
  | str h =>
    obtain ⟨h, ht⟩ := tells_str h hrest ht
    exact ⟨.str h, ht⟩

theorem keeps_atom : Keeps (Atom rfc) := by
  intro s v rest h hrest ht
  cases h with
  | null => exact (tidy_word (by decide +kernel)).mpr ht
  | true => exact (tidy_word (by decide +kernel)).mpr ht
  | false => exact (tidy_word (by decide +kernel)).mpr ht
  | num hnum hn => exact (tidy_numeral (number_numeral hnum) hn hrest).mpr ⟨hnum, ht⟩
  | str h => exact keeps_str h hrest ht

theorem tells_value (d : Nat) : Tells (Value lax d) (Value rfc d) := by
  induction d with
  | zero => exact tells_atom
  | succ d ih =>
    intro s v rest h hrest ht
    rcases h with h | ⟨es, h, rfl⟩ | ⟨ms, h, rfl⟩
    · obtain ⟨h, ht⟩ := tells_atom h hrest ht
      exact ⟨value_atom h, ht⟩
    · obtain ⟨h, ht⟩ := tells_listed (tells_padded ih) (by decide) (by decide) (by decide)
        (by decide) h hrest ht
      exact ⟨value_array h, ht⟩
    · obtain ⟨h, ht⟩ := tells_listed (tells_member ih) (by decide) (by decide) (by decide)
        (by decide) h hrest ht
      exact ⟨value_object h, ht⟩

theorem keeps_value (d : Nat) : Keeps (Value rfc d) := by
  induction d with
  | zero => exact keeps_atom
  | succ d ih =>
    intro s v rest h hrest ht
    rcases h with h | ⟨es, h, rfl⟩ | ⟨ms, h, rfl⟩
    · exact keeps_atom h hrest ht
    · exact keeps_listed (keeps_padded ih) (by decide) (by decide) (by decide) (by decide) h hrest ht
    · exact keeps_listed (keeps_member ih) (by decide) (by decide) (by decide) (by decide) h hrest ht

end Fors.Lsp
