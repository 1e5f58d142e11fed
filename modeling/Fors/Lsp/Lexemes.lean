import Fors.Lib.Runs
import Fors.Lsp.Grammar

/-!
# Lexemes

Every reader of a lexeme takes a prefix of the input that the lax lexicon derives, and takes
every such prefix.

Principal results: `string_sound`, `string_complete` and `number_complete`.
-/

namespace Fors.Lsp

open Floats Numerals MapM Outcomes Outcome List Option

variable {p q : Parser} {s t : List UInt8} {fuel : Nat}

theorem some_of_eq {α : Type} {x : Option α} {a : α} : some_of x = value a ↔ x = some a :=
  of_option_eq_value

theorem some_of_some {α : Type} (a : α) : some_of (some a) = value a :=
  rfl

/-! ## Cursors -/

namespace Parser

/-- The parser before it took `s`. -/
def back (q : Parser) (s : List UInt8) : Parser :=
  ⟨s ++ q.rest, q.depth⟩

theorem back_append (q : Parser) (s t : List UInt8) : q.back (s ++ t) = (q.back t).back s := by
  unfold back
  rw [append_assoc]

theorem back_cons (q : Parser) (b : UInt8) (s : List UInt8) :
    q.back (b :: s) = (q.back s).back [b] :=
  back_append q [b] s

theorem rest_back (q : Parser) (s : List UInt8) : (q.back s).rest = s ++ q.rest :=
  rfl

theorem length_back (q : Parser) (s : List UInt8) :
    (q.back s).rest.length = s.length + q.rest.length :=
  length_append

theorem depth_back (q : Parser) (s : List UInt8) : (q.back s).depth = q.depth :=
  rfl

theorem eq_back_of_rest {rest : List UInt8} (h : p.rest = s ++ rest) :
    p = back { p with rest } s := by
  cases p
  exact congrArg (Parser.mk · _) h

variable {c : UInt8}

theorem eat_eq_some : p.eat c = some q ↔ p = q.back [c] := by
  obtain ⟨rest, depth⟩ := p
  cases rest with
  | nil => simp [eat, back]
  | cons b rest =>
    obtain ⟨rest', depth'⟩ := q
    simp only [eat, back, ite_none_right_eq_some, some.injEq, Parser.mk.injEq,
      singleton_append, cons.injEq]
    tauto

theorem eat_back (q : Parser) (c : UInt8) : (q.back [c]).eat c = some q :=
  eat_eq_some.mpr rfl

theorem eat_eq_none : p.eat c = none ↔ p.rest.head? ≠ some c := by
  obtain ⟨rest, depth⟩ := p
  cases rest <;> simp [eat]

theorem eat_back_other (q : Parser) {b : UInt8} (h : b ≠ c) : (q.back (b :: s)).eat c = none := by
  rw [eat_eq_none]
  simpa [back] using h

theorem leave_eq : p.leave = .value q ↔ p.rest = q.rest ∧ p.depth = q.depth + 1 := by
  obtain ⟨rest, depth⟩ := q
  unfold leave
  simp only [bind_eq_value, sub_eq_value, pure_eq_value, Parser.mk.injEq]
  constructor
  · rintro ⟨_, hd, hrest, rfl⟩
    exact ⟨hrest, hd⟩
  · rintro ⟨hrest, hd⟩
    exact ⟨depth, hd, hrest, rfl⟩

theorem leave_mk (rest : List UInt8) (depth : Nat) :
    leave ⟨rest, depth + 1⟩ = .value ⟨rest, depth⟩ :=
  leave_eq.mpr ⟨rfl, rfl⟩

theorem lit_eq_some {v w : Json} : p.lit s v = some (w, q) ↔ p = q.back s ∧ w = v := by
  obtain ⟨rest, depth⟩ := p
  obtain ⟨rest', depth'⟩ := q
  simp only [lit, back, ite_none_right_eq_some, some.injEq, Prod.mk.injEq,
    Parser.mk.injEq, isPrefixOf_iff_prefix]
  constructor
  · rintro ⟨⟨r, rfl⟩, rfl, hrest, rfl⟩
    rw [drop_left] at hrest
    exact ⟨⟨by rw [hrest], rfl⟩, rfl⟩
  · rintro ⟨⟨rfl, rfl⟩, rfl⟩
    exact ⟨prefix_append _ _, rfl, drop_left, rfl⟩

end Parser

/-! ## Whitespace -/

theorem ws_nil : Ws [] :=
  fun _ h => nomatch h

theorem exists_ws (p : Parser) : ∃ w, Ws w ∧ p = p.ws.back w :=
  ⟨p.rest.takeWhile is_ws, fun _ hb => mem_takeWhile_imp hb,
    Parser.eq_back_of_rest (takeWhile_append_dropWhile).symm⟩

/-- The next byte is no whitespace. -/
def Inked (rest : List UInt8) : Prop :=
  ∀ b ∈ rest.head?, is_ws b = false

theorem ws_of_inked (h : Inked p.rest) : p.ws = p := by
  obtain ⟨rest, depth⟩ := p
  unfold Parser.ws
  cases rest with
  | nil => rfl
  | cons b rest => rw [dropWhile_cons_of_neg (by rw [h b rfl]; decide)]

theorem inked_ws (p : Parser) : Inked p.ws.rest := by
  intro b hb
  have hhead := head?_dropWhile_not is_ws p.rest
  rw [show (p.rest.dropWhile is_ws).head? = some b from hb] at hhead
  simpa using hhead

theorem ws_back {w : List UInt8} (hw : Ws w) (h : Inked q.rest) : (q.back w).ws = q := by
  have hdrop : (w ++ q.rest).dropWhile is_ws = q.rest.dropWhile is_ws :=
    dropWhile_append_of_pos hw
  have hink := congrArg Parser.rest (ws_of_inked h)
  change q.rest.dropWhile is_ws = q.rest at hink
  unfold Parser.ws Parser.back
  simp [hdrop, hink]

/-! ## Hexadecimal digits -/

variable {c : Char}

theorem hex_digit_ascii (h : c.toNat < 128) :
    hex_digit (UInt8.ofNat c.toNat) = to_digit 16 c := by
  have hall : ∀ n < 128, hex_digit (UInt8.ofNat n) = to_digit 16 (Char.ofNat n) := by decide
  have hc := hall c.toNat h
  rwa [Char.ofNat_toNat] at hc

variable {b : UInt8}

theorem hex_digit_lt {d : Nat} (h : hex_digit b = some d) : b.toNat < 128 := by
  have hall : ∀ b : UInt8, 128 ≤ b.toNat → hex_digit b = none := by
    intro b hb
    unfold hex_digit
    have h9 : ('9'.toUInt8).toNat = 57 := rfl
    have hF : ('F'.toUInt8).toNat = 70 := rfl
    have hf : ('f'.toUInt8).toNat = 102 := rfl
    simp only [UInt8.le_iff_toNat_le]
    rw [if_neg (by omega), if_neg (by omega), if_neg (by omega)]
  by_contra hge
  rw [hall b (by omega)] at h
  cases h

theorem to_digit_lt_ascii {d : Nat} (h : to_digit 16 c = some d) : c.toNat < 128 := by
  unfold to_digit at h
  simp only [filter_eq_some_iff] at h
  have h9 : '9'.toNat = 57 := rfl
  have hz : 'z'.toNat = 122 := rfl
  have hZ : 'Z'.toNat = 90 := rfl
  have hle : ∀ {a b : Char}, a ≤ b → a.toNat ≤ b.toNat := fun h => h
  obtain ⟨h, -⟩ := h
  split at h
  · rename_i hc
    have := hle hc.2
    omega
  · split at h
    · rename_i hc
      have := hle hc.2
      omega
    · split at h
      · rename_i hc
        have := hle hc.2
        omega
      · cases h

/-- The digits of a text are those of its bytes. -/
theorem mapM_hex_digit (cs : List Char) :
    (Utf8.encode cs).mapM hex_digit = cs.mapM (to_digit 16) := by
  induction cs with
  | nil => rfl
  | cons c cs ih =>
    rw [Utf8.encode_cons, mapM_cons, ← ih]
    by_cases hc : c.toNat < 128
    · rw [Utf8.encode_ascii hc, singleton_append, mapM_cons, hex_digit_ascii hc]
    · obtain ⟨b, s, hbytes, hb⟩ := Utf8.encode_not_ascii hc
      have hbyte : hex_digit b = none := by
        cases h : hex_digit b with
        | none => rfl
        | some d => exact absurd (hex_digit_lt h) (by omega)
      have hchar : to_digit 16 c = none := by
        cases h : to_digit 16 c with
        | none => rfl
        | some d => exact absurd (to_digit_lt_ascii h) hc
      rw [hbytes, cons_append, mapM_cons, hbyte, hchar]
      rfl

variable {k n : Nat} {cs : List Char}

theorem hexDigits_encode : HexDigits k (Utf8.encode cs) n ↔
    cs.length = k ∧ ∃ ds, cs.mapM (to_digit 16) = some ds ∧ n = number 16 0 ds := by
  unfold HexDigits
  rw [mapM_hex_digit]
  constructor
  · rintro ⟨hlen, ds, hds, hn⟩
    have hbytes := length_of_mapM ((mapM_hex_digit cs).trans hds)
    exact ⟨by rw [← length_of_mapM hds]; omega, ds, hds, hn⟩
  · rintro ⟨hlen, ds, hds, hn⟩
    have hbytes := length_of_mapM ((mapM_hex_digit cs).trans hds)
    exact ⟨by rw [← hlen, ← length_of_mapM hds, hbytes], ds, hds, hn⟩

theorem hexDigits_ascii (h : HexDigits k s n) : ∀ b ∈ s, b.toNat < 128 := by
  obtain ⟨-, ds, hds, -⟩ := h
  intro b hb
  obtain ⟨d, hd⟩ := exists_of_mem hds hb
  exact hex_digit_lt hd

theorem hexDigits_lt (h : HexDigits k s n) : n < 16 ^ k := by
  obtain ⟨cs, rfl⟩ := Utf8.exists_ascii (hexDigits_ascii h)
  obtain ⟨hlen, ds, hds, rfl⟩ := hexDigits_encode.mp h
  have hlt : number 16 0 ds < (0 + 1) * 16 ^ ds.length := by
    refine number_lt fun d hd => ?_
    obtain ⟨c, -, hc⟩ := exists_of_mem_mapM hds hd
    exact to_digit_lt hc
  rwa [length_of_mapM hds, hlen, Nat.zero_add, Nat.one_mul] at hlt

/-- A radix reader takes what the lax lexicon has. -/
theorem read_hex : lax.hex (Utf8.encode cs) n ↔
    (Utf8.encode cs).length = 4 ∧ from_str_radix 0 (2 ^ 32 - 1) 16 cs = some (n : Int) := by
  have hread : ∀ {k : Nat} {cs : List Char}, k ≤ 4 → (HexDigits k (Utf8.encode cs) n ↔
      (Utf8.encode cs).length = k ∧ accumulate 0 (2 ^ 32 - 1) 16 false 0 cs = some (n : Int)) := by
    intro k cs hk
    have hacc : accumulate 0 (2 ^ 32 - 1) 16 false (0 : Nat) cs = some (n : Int) ↔
        ∃ ds, cs.mapM (to_digit 16) = some ds ∧ (n : Int) = (number 16 0 ds : Nat) ∧
          (n : Int) ≤ 2 ^ 32 - 1 :=
      accumulate_eq_some (by omega) (by omega) (by omega)
    change (accumulate 0 (2 ^ 32 - 1) 16 false 0 cs = _ ↔ _) at hacc
    rw [hacc]
    constructor
    · intro h
      have hlt := hexDigits_lt h
      have hpow : 16 ^ k ≤ 16 ^ 4 := Nat.pow_le_pow_right (by omega) hk
      obtain ⟨-, ds, hds, hn⟩ := hexDigits_encode.mp h
      exact ⟨h.1, ds, hds, congrArg Int.ofNat hn, by omega⟩
    · rintro ⟨hlen, ds, hds, hn, -⟩
      exact ⟨hlen, ds, (mapM_hex_digit cs).trans hds, Int.ofNat.inj hn⟩
  rw [from_str_radix_eq_some]
  constructor
  · rintro (h | ⟨ds, hcs, h⟩)
    · obtain ⟨hlen, hacc⟩ := (hread (Nat.le_refl 4)).mp h
      refine ⟨hlen, fun hnil => ?_, .inl hacc⟩
      rw [hnil] at hlen
      cases hlen
    · obtain ⟨ts, rfl⟩ := Utf8.exists_ascii (hexDigits_ascii h)
      obtain ⟨hlen, hacc⟩ := (hread (by omega)).mp h
      obtain rfl : cs = '+' :: ts := Utf8.encode_inj hcs
      refine ⟨by rw [hcs, length_cons, hlen], cons_ne_nil _ _, .inr ⟨ts, rfl, ?_, hacc⟩⟩
      rintro rfl
      cases hlen
  · rintro ⟨hlen, -, hacc | ⟨ts, rfl, -, hacc⟩⟩
    · exact .inl ((hread (Nat.le_refl 4)).mpr ⟨hlen, hacc⟩)
    · have hplus : Utf8.encode ('+' :: ts) = '+'.toUInt8 :: Utf8.encode ts := rfl
      rw [hplus, length_cons] at hlen
      exact .inr ⟨_, hplus, (hread (by omega)).mpr ⟨by omega, hacc⟩⟩

theorem hex4_iff : p.hex4 = some (n, q) ↔ ∃ h, lax.hex h n ∧ p = q.back h := by
  constructor
  · intro h
    unfold Parser.hex4 at h
    split at h
    · cases h
    rename_i hlen
    simp only [bind_eq_bind, bind_eq_some_iff, some.injEq,
      Prod.mk.injEq] at h
    obtain ⟨cs, hcs, v, hv, rfl, rfl⟩ := h
    have hbytes := Utf8.decode_eq_some.mp hcs
    have hpos := unsigned_nonneg (by omega) (by omega) hv
    refine ⟨p.rest.take 4, ?_, Parser.eq_back_of_rest (take_append_drop 4 _).symm⟩
    rw [hbytes, read_hex, ← hbytes, length_take]
    exact ⟨by omega, by rw [hv, Int.toNat_of_nonneg hpos]⟩
  · rintro ⟨h, hh, rfl⟩
    have htext : ∃ cs, h = Utf8.encode cs := by
      rcases hh with hh | ⟨ds, rfl, hh⟩
      · exact Utf8.exists_ascii (hexDigits_ascii hh)
      · obtain ⟨cs, rfl⟩ := Utf8.exists_ascii (hexDigits_ascii hh)
        exact ⟨'+' :: cs, rfl⟩
    obtain ⟨cs, rfl⟩ := htext
    obtain ⟨hlen, hread⟩ := read_hex.mp hh
    unfold Parser.hex4
    rw [if_neg (by rw [Parser.rest_back, length_append]; omega), Parser.rest_back,
      take_left' hlen, drop_left' hlen]
    simp only [Utf8.decode_encode, hread, bind_eq_bind, bind_some]
    rfl

/-! ## Characters -/

theorem from_u32_eq_some : from_u32 n = some c ↔ c.toNat = n := by
  unfold from_u32
  constructor
  · intro h
    split at h
    · rename_i hvalid
      rw [← some.inj h, Utf8.toNat_ofNat hvalid]
    · cases h
  · rintro rfl
    rw [if_pos (show c.toNat.isValidChar from c.valid), Char.ofNat_toNat]

theorem short_escape_eq_some {e : UInt8} :
    short_escape e = some c ↔ (e, c) ∈ ESCAPES := by
  constructor
  · intro h
    unfold short_escape at h
    repeat' split at h
    all_goals first
      | (cases h; done)
      | (rename_i he; subst he; obtain rfl := some.inj h; decide)
  · intro h
    simp only [ESCAPES, mem_cons, Prod.mk.injEq, not_mem_nil, or_false] at h
    rcases h with h | h | h | h | h | h | h | h <;> obtain ⟨rfl, rfl⟩ := h <;> decide

/-- What stands behind `\u`. -/
def Units (s : List UInt8) (c : Char) : Prop :=
  lax.hex s c.toNat ∨ ∃ h l hi lo, s = h ++ '\\'.toUInt8 :: 'u'.toUInt8 :: l ∧ lax.hex h hi ∧
    lax.hex l lo ∧ (0xD800 ≤ hi ∧ hi < 0xDC00) ∧ (0xDC00 ≤ lo ∧ lo < 0xE000) ∧
    c.toNat = 0x10000 + (hi - 0xD800) * 0x400 + (lo - 0xDC00)

theorem unicode_iff : p.unicode = value (c, q) ↔ ∃ s, Units s c ∧ p = q.back s := by
  unfold Parser.unicode
  simp only [bind_eq_value, some_of_eq, Prod.exists, hex4_iff]
  constructor
  · rintro ⟨hi, p1, ⟨h, hh, rfl⟩, hrest⟩
    split at hrest
    · rename_i hhigh
      simp only [bind_eq_value, some_of_eq, Prod.exists, hex4_iff, Parser.eat_eq_some] at hrest
      obtain ⟨p2, rfl, p3, rfl, lo, p4, ⟨l, hl, rfl⟩, hrest⟩ := hrest
      split at hrest
      · rename_i hlow
        simp only [bind_eq_value, some_of_eq, sub_eq_value, from_u32_eq_some, pure_eq_value,
          Prod.mk.injEq] at hrest
        obtain ⟨high, rfl, low, rfl, _, hc, rfl, rfl⟩ := hrest
        rw [Nat.shiftLeft_eq] at hc
        refine ⟨h ++ '\\'.toUInt8 :: 'u'.toUInt8 :: l,
          .inr ⟨h, l, _, _, rfl, hh, hl, hhigh, hlow, ?_⟩, ?_⟩
        · rw [Nat.add_sub_cancel, Nat.add_sub_cancel]
          exact hc
        · exact (Parser.back_append p4 h ('\\'.toUInt8 :: 'u'.toUInt8 :: l)).symm
      · cases hrest
    · simp only [bind_eq_value, some_of_eq, from_u32_eq_some, pure_eq_value, Prod.mk.injEq] at hrest
      obtain ⟨_, rfl, rfl, rfl⟩ := hrest
      exact ⟨h, .inl hh, rfl⟩
  · rintro ⟨s, hs | ⟨h, l, hi, lo, rfl, hh, hl, hhigh, hlow, hc⟩, rfl⟩
    · refine ⟨c.toNat, q, ⟨s, hs, rfl⟩, ?_⟩
      have hvalid : c.toNat < 0xD800 ∨ 0xDFFF < c.toNat := c.valid.imp_right And.left
      rw [if_neg (by omega), from_u32_eq_some.mpr rfl]
      rfl
    · refine ⟨hi, q.back ('\\'.toUInt8 :: 'u'.toUInt8 :: l), ⟨h, hh, Parser.back_append ..⟩, ?_⟩
      rw [if_pos hhigh, Parser.back_cons, Parser.eat_back, Parser.back_cons]
      refine bind_eq_value.mpr ⟨_, rfl, ?_⟩
      rw [Parser.eat_back]
      refine bind_eq_value.mpr ⟨_, rfl, bind_eq_value.mpr ⟨(lo, q), ?_, ?_⟩⟩
      · exact some_of_eq.mpr (hex4_iff.mpr ⟨l, hl, rfl⟩)
      · simp only
        rw [if_pos hlow, sub_eq hhigh.1, sub_eq hlow.1, value_bind, value_bind,
          from_u32_eq_some.mpr (hc.trans (by rw [Nat.shiftLeft_eq]))]
        rfl

theorem chr_units (h : Units s c) :
    Chr lax ('\\'.toUInt8 :: 'u'.toUInt8 :: s) c := by
  rcases h with h | ⟨h, l, hi, lo, rfl, hh, hl, hhigh, hlow, hc⟩
  · exact .unit ⟨s, rfl, h⟩
  · exact .pair ⟨h, rfl, hh⟩ ⟨l, rfl, hl⟩ hhigh.1 hhigh.2 hlow.1 hlow.2 hc

/-- The first byte of a character that is no escape. -/
theorem head_encode (h : (Utf8.encode [c]).head? = some b)
    (hb : b.toNat < 128) : c.toNat = b.toNat := by
  obtain ⟨d, hd, heq⟩ := Utf8.mem_encode_ascii (mem_of_head? h) hb
  rwa [mem_singleton.mp hd] at heq

theorem chr_escaped : Chr lax ('\\'.toUInt8 :: s) c ↔
    (∃ e, (e, c) ∈ ESCAPES ∧ s = [e]) ∨ ∃ t, Units t c ∧ s = 'u'.toUInt8 :: t := by
  constructor
  · intro h
    generalize hs : '\\'.toUInt8 :: s = s' at h
    cases h with
    | raw _ _ hne =>
      have hhead := head_encode (c := c) (b := '\\'.toUInt8) (by rw [← hs]; rfl) (by decide)
      exact absurd (Char.toNat_inj.mp hhead) hne
    | short he => exact .inl ⟨_, he, (cons.inj hs).2⟩
    | unit hu =>
      obtain ⟨h, rfl, hh⟩ := hu
      exact .inr ⟨h, .inl hh, (cons.inj hs).2⟩
    | pair hu hl hhigh hhigh' hlow hlow' hc =>
      obtain ⟨h, rfl, hh⟩ := hu
      obtain ⟨l, rfl, hl⟩ := hl
      exact .inr ⟨_, .inr ⟨h, l, _, _, rfl, hh, hl, ⟨hhigh, hhigh'⟩, ⟨hlow, hlow'⟩, hc⟩,
        (cons.inj hs).2⟩
  · rintro (⟨e, he, rfl⟩ | ⟨t, ht, rfl⟩)
    · exact .short he
    · exact chr_units ht

theorem escape_iff :
    p.escape = value (c, q) ↔ ∃ s, Chr lax ('\\'.toUInt8 :: s) c ∧ p = q.back s := by
  simp only [chr_escaped]
  constructor
  · intro h
    unfold Parser.escape at h
    split at h
    · cases h
    rename_i e rest hrest
    split at h
    · rename_i d hd
      obtain ⟨rfl, rfl⟩ := Prod.mk.inj (value.inj h)
      exact ⟨[e], .inl ⟨e, short_escape_eq_some.mp hd, rfl⟩, Parser.eq_back_of_rest hrest⟩
    · split at h
      · rename_i he
        obtain ⟨t, ht, hq⟩ := unicode_iff.mp h
        refine ⟨'u'.toUInt8 :: t, .inr ⟨t, ht, rfl⟩, ?_⟩
        rw [Parser.back_cons, ← hq]
        exact Parser.eq_back_of_rest (he ▸ hrest)
      · cases h
  · rintro ⟨s, ⟨e, he, rfl⟩ | ⟨t, ht, rfl⟩, rfl⟩
    · unfold Parser.escape
      simp only [Parser.rest_back, singleton_append, short_escape_eq_some.mpr he]
      rfl
    · have hshort : short_escape 'u'.toUInt8 = none := by decide
      unfold Parser.escape
      simp only [Parser.rest_back, cons_append, hshort, if_true]
      exact unicode_iff.mpr ⟨t, ht, rfl⟩

theorem utf8_len_head (h : (String.utf8EncodeChar c).head? = some b) :
    utf8_len b = (String.utf8EncodeChar c).length := by
  have hmax : c.val.toNat < 0x110000 := by
    rcases c.valid with hlt | ⟨-, hlt⟩ <;> omega
  have hle : ∀ {a b : UInt8}, a ≤ b ↔ a.toNat ≤ b.toNat := UInt8.le_iff_toNat_le
  unfold utf8_len String.utf8EncodeChar at *
  simp only [hle, UInt8.reduceToNat] at h ⊢
  split at h
  · rename_i h1
    cases h
    rw [if_pos h1, UInt8.toNat_ofNat', if_pos (by omega)]
    rfl
  rename_i h1
  rw [if_neg h1]
  split at h
  · rename_i h2
    cases h
    rw [if_pos h2, UInt8.toNat_ofNat', if_neg (by omega), if_pos (by omega)]
    rfl
  rename_i h2
  rw [if_neg h2]
  split at h
  · rename_i h3
    cases h
    rw [if_pos h3, UInt8.toNat_ofNat', if_neg (by omega), if_neg (by omega), if_pos (by omega)]
    rfl
  · rename_i h3
    cases h
    rw [if_neg h3, UInt8.toNat_ofNat', if_neg (by omega), if_neg (by omega), if_neg (by omega)]
    rfl

theorem encode_singleton (c : Char) : Utf8.encode [c] = String.utf8EncodeChar c :=
  append_nil _

theorem encode_eq_nil (h : Utf8.encode cs = []) : cs = [] :=
  Utf8.encode_inj h

/-- The length that the first byte tells is that of one character. -/
theorem raw_iff (hb : p.rest.head? = some b) :
    p.raw b = some (cs, q) ↔ ∃ c, cs = [c] ∧ p = q.back (Utf8.encode [c]) := by
  unfold Parser.raw
  constructor
  · intro h
    simp only at h
    split at h
    · cases h
    rename_i hlen
    simp only [bind_eq_bind, bind_eq_some_iff, some.injEq,
      Prod.mk.injEq] at h
    obtain ⟨text, hread, rfl, rfl⟩ := h
    have hbytes := Utf8.decode_eq_some.mp hread
    have hsplit := take_append_drop (utf8_len b) p.rest
    have hpos : 0 < utf8_len b := by
      unfold utf8_len
      repeat' split
      all_goals omega
    have hhead : (p.rest.take (utf8_len b)).head? = some b := by
      rw [head?_take, if_neg (by omega), hb]
    rw [hbytes] at hhead
    cases text with
    | nil => cases hhead
    | cons c cs =>
      rw [Utf8.encode_cons] at hbytes hhead
      rw [head?_append_of_ne_nil _ (Utf8.encode_char_ne_nil c)] at hhead
      have hone := utf8_len_head hhead
      have htotal := congrArg List.length hbytes
      rw [length_take, length_append, ← hone] at htotal
      have hnil : Utf8.encode cs = [] := eq_nil_of_length_eq_zero (by omega)
      obtain rfl := encode_eq_nil hnil
      refine ⟨c, rfl, Parser.eq_back_of_rest ?_⟩
      rw [encode_singleton, ← hsplit, hbytes, hnil, append_nil, drop_left' hone.symm]
  · rintro ⟨c, rfl, rfl⟩
    rw [Parser.rest_back, encode_singleton,
      head?_append_of_ne_nil _ (Utf8.encode_char_ne_nil c)] at hb
    have hone := utf8_len_head hb
    have hread : Utf8.decode (String.utf8EncodeChar c) = some [c] := by
      rw [← encode_singleton, Utf8.decode_encode]
    simp only [Parser.rest_back, encode_singleton]
    rw [if_neg (by rw [length_append]; omega), take_left' hone.symm,
      drop_left' hone.symm, hread]
    rfl

/-! ## Strings -/

theorem chr_cases (h : Chr lax s c) : (∃ t, s = '\\'.toUInt8 :: t) ∨
    ∃ b t, s = b :: t ∧ s = Utf8.encode [c] ∧ b ≠ '"'.toUInt8 ∧ b ≠ '\\'.toUInt8 := by
  cases h with
  | raw _ hquote hslash =>
    cases hs : Utf8.encode [c] with
    | nil => exact nomatch encode_eq_nil hs
    | cons b t =>
      have hhead : (Utf8.encode [c]).head? = some b := by rw [hs]; rfl
      refine .inr ⟨b, t, rfl, rfl, ?_, ?_⟩
      · rintro rfl
        exact hquote (Char.toNat_inj.mp (head_encode hhead (by decide)))
      · rintro rfl
        exact hslash (Char.toNat_inj.mp (head_encode hhead (by decide)))
  | short => exact .inl ⟨_, rfl⟩
  | unit hu =>
    obtain ⟨h, rfl, -⟩ := hu
    exact .inl ⟨_, rfl⟩
  | pair hu =>
    obtain ⟨h, rfl, -⟩ := hu
    exact .inl ⟨_, rfl⟩

theorem chars_close (q : Parser) (acc : List Char) :
    (q.back ['"'.toUInt8]).chars (fuel + 1) acc = value (acc, q) := by
  unfold Parser.chars
  simp only [Parser.rest_back, singleton_append, if_true]
  rfl

theorem chars_step (h : Chr lax s c) (acc : List Char) :
    (q.back s).chars (fuel + 1) acc = q.chars fuel (acc ++ [c]) := by
  rcases chr_cases h with ⟨t, rfl⟩ | ⟨b, t, hs, henc, hquote, hslash⟩
  · have hread := escape_iff.mpr ⟨t, h, Eq.refl (q.back t)⟩
    have hquote : '\\'.toUInt8 ≠ '"'.toUInt8 := by decide
    rw [Parser.chars]
    simp only [Parser.rest_back, cons_append, if_neg hquote, if_true]
    change ((q.back t).escape >>= _) = _
    rw [hread]
    rfl
  · have hread : (q.back s).raw b = some ([c], q) :=
      (raw_iff (by rw [hs]; rfl)).mpr ⟨c, rfl, by rw [henc]⟩
    rw [Parser.chars]
    simp only [Parser.rest_back, hs, cons_append, if_neg hquote, if_neg hslash]
    rw [← hs, hread]
    rfl

/-- A string ends here, or goes on behind one character. -/
theorem chars_cases {acc : List Char} {r : List Char × Parser}
    (h : p.chars (fuel + 1) acc = value r) :
    (∃ q : Parser, p = q.back ['"'.toUInt8] ∧ r = (acc, q)) ∨
      ∃ s c, ∃ q : Parser, Chr lax s c ∧ p = q.back s ∧ q.chars fuel (acc ++ [c]) = value r := by
  rw [Parser.chars] at h
  split at h
  · cases h
  rename_i b rest hrest
  split at h
  · rename_i hquote
    exact .inl ⟨_, Parser.eq_back_of_rest (hquote ▸ hrest), (value.inj h).symm⟩
  rename_i hquote
  split at h
  · rename_i hslash
    obtain ⟨⟨c, q⟩, hread, hnext⟩ := bind_eq_value.mp h
    obtain ⟨t, ht, hq⟩ := escape_iff.mp hread
    refine .inr ⟨_, c, q, ht, ?_, hnext⟩
    rw [Parser.back_cons, ← hq]
    exact Parser.eq_back_of_rest (hslash ▸ hrest)
  · rename_i hslash
    obtain ⟨⟨cs, q⟩, hread, hnext⟩ := bind_eq_value.mp h
    obtain ⟨c, rfl, rfl⟩ := (raw_iff (by rw [hrest]; rfl)).mp (some_of_eq.mp hread)
    refine .inr ⟨_, c, q, .raw trivial ?_ ?_, rfl, hnext⟩
    · rintro rfl
      exact hquote (cons.inj hrest).1.symm
    · rintro rfl
      exact hslash (cons.inj hrest).1.symm

theorem chars_sound {acc t : List Char} (h : p.chars fuel acc = value (t, q)) :
    ∃ s cs, Chars lax s cs ∧ t = acc ++ cs ∧ p = q.back (s ++ ['"'.toUInt8]) := by
  induction fuel generalizing acc p with
  | zero => cases h
  | succ fuel ih =>
    rcases chars_cases h with ⟨q', rfl, hr⟩ | ⟨s, c, q', hs, rfl, hnext⟩
    · cases hr
      exact ⟨[], [], .nil, (append_nil t).symm, rfl⟩
    · obtain ⟨s', cs, hs', rfl, rfl⟩ := ih hnext
      exact ⟨s ++ s', c :: cs, .cons hs hs', append_assoc .., by
        rw [← Parser.back_append, append_assoc]⟩

theorem chr_ne_nil (h : Chr lax s c) : s ≠ [] := by
  rcases chr_cases h with ⟨t, rfl⟩ | ⟨b, t, rfl, -⟩
  · exact cons_ne_nil _ _
  · exact cons_ne_nil _ _

theorem chars_complete (h : Chars lax s cs) (hfuel : s.length < fuel)
    (acc : List Char) : (q.back (s ++ ['"'.toUInt8])).chars fuel acc = value (acc ++ cs, q) := by
  induction h generalizing fuel acc with
  | nil =>
    obtain ⟨fuel, rfl⟩ := Nat.exists_eq_succ_of_ne_zero (Nat.ne_of_gt hfuel)
    rw [append_nil]
    exact chars_close q acc
  | @cons s t c cs hs _ ih =>
    have hpos := length_pos_iff.mpr (chr_ne_nil hs)
    rw [length_append] at hfuel
    obtain ⟨fuel, rfl⟩ := Nat.exists_eq_succ_of_ne_zero (n := fuel) (by omega)
    rw [append_assoc, Parser.back_append, chars_step hs, ih (by omega), append_assoc]
    rfl

theorem string_sound (h : p.string fuel = value (cs, q)) :
    ∃ s, Str lax s cs ∧ p = q.back s := by
  obtain ⟨p', hopen, hchars⟩ := bind_eq_value.mp h
  obtain rfl := Parser.eat_eq_some.mp (some_of_eq.mp hopen)
  obtain ⟨s, cs, hs, rfl, heq⟩ := chars_sound hchars
  change p' = _ at heq
  exact ⟨_, .quoted hs, by rw [heq, cons_append, ← Parser.back_cons]⟩

theorem string_complete (h : Str lax s cs) (hfuel : s.length ≤ fuel) :
    (q.back s).string fuel = value (cs, q) := by
  cases h with
  | @quoted s cs hs =>
    unfold Parser.string
    rw [cons_append, Parser.back_cons, Parser.eat_back]
    rw [length_append, length_cons] at hfuel
    exact chars_complete hs (by omega) []

/-! ## Strings end -/

/-- The differences of a pair stand under the guards that keep them from a panic. -/
theorem unicode_answers (p : Parser) : Answers p.unicode .none := by
  refine (Answers.of_option _).bind fun ⟨hi, p⟩ _ => ?_
  simp only
  split
  · rename_i hhigh
    refine (Answers.of_option _).bind fun p _ => (Answers.of_option _).bind fun p _ => ?_
    refine (Answers.of_option _).bind fun ⟨lo, p⟩ _ => ?_
    simp only
    split
    · rename_i hlow
      refine (Answers.sub hhigh.1).bind fun _ _ => (Answers.sub hlow.1).bind fun _ _ => ?_
      exact (Answers.of_option _).bind fun _ _ => .inl ⟨_, rfl⟩
    · exact .inr rfl
  · exact (Answers.of_option _).bind fun _ _ => .inl ⟨_, rfl⟩

theorem escape_answers (p : Parser) : Answers p.escape .none := by
  unfold Parser.escape
  split
  · exact .inr rfl
  split
  · exact .inl ⟨_, rfl⟩
  split
  · exact unicode_answers _
  · exact .inr rfl

theorem chars_answers (hfuel : p.rest.length < fuel) (acc : List Char) :
    Answers (p.chars fuel acc) .none := by
  induction fuel generalizing p acc with
  | zero => exact absurd hfuel (Nat.not_lt_zero _)
  | succ fuel ih =>
    rw [Parser.chars]
    split
    · exact .inr rfl
    rename_i b rest hrest
    rw [hrest, length_cons] at hfuel
    split
    · exact .inl ⟨_, rfl⟩
    split
    · refine (escape_answers _).bind fun ⟨c, q⟩ hread => ih ?_ _
      obtain ⟨s, -, heq⟩ := escape_iff.mp hread
      have hlen := congrArg (·.rest.length) heq
      simp only [Parser.length_back] at hlen
      omega
    · refine (Answers.of_option _).bind fun ⟨cs, q⟩ hread => ih ?_ _
      obtain ⟨c, -, heq⟩ := (raw_iff (by rw [hrest]; rfl)).mp (some_of_eq.mp hread)
      have hpos := length_pos_iff.mpr (Utf8.encode_char_ne_nil c)
      have hlen := congrArg (·.rest.length) heq
      simp only [Parser.length_back, encode_singleton, hrest, length_cons] at hlen
      omega

theorem string_answers (hfuel : p.rest.length ≤ fuel) : Answers (p.string fuel) .none := by
  refine (Answers.of_option _).bind fun q hopen => chars_answers ?_ _
  have hlen := congrArg (·.rest.length) (Parser.eat_eq_some.mp (some_of_eq.mp hopen))
  simp only [Parser.length_back, length_singleton] at hlen
  omega

/-! ## Numbers -/

/-- The next byte is none of a numeral. -/
def Bounded (rest : List UInt8) : Prop :=
  ∀ b ∈ rest.head?, Decimal.is_numeral b = false

/-- The sign is a byte of the numeral like the others. -/
theorem numeral_len (rest : List UInt8) :
    (if rest.head? = some '-'.toUInt8 then 1 else 0) +
      ((rest.drop (if rest.head? = some '-'.toUInt8 then 1 else 0)).takeWhile
        Decimal.is_numeral).length = (rest.takeWhile Decimal.is_numeral).length := by
  split
  · rename_i h
    cases rest with
    | nil => cases h
    | cons b rest =>
      cases h
      have hminus : Decimal.is_numeral '-'.toUInt8 = true := by decide
      rw [takeWhile_cons_of_pos hminus, length_cons, Nat.add_comm]
      rfl
  · rw [Nat.zero_add, drop_zero]

theorem number_eq (p : Parser) : p.number =
    (Decimal.from_str (p.rest.takeWhile Decimal.is_numeral)).bind fun n : Interp.F64 =>
      if n.Finite then some (.Num n, { p with rest := p.rest.dropWhile Decimal.is_numeral })
      else none := by
  have hsplit := takeWhile_append_dropWhile (p := Decimal.is_numeral) (l := p.rest)
  have htake := (prefix_iff_eq_take.mp ( takeWhile_prefix Decimal.is_numeral
    (l := p.rest))).symm
  have hdrop := take_append_drop (p.rest.takeWhile Decimal.is_numeral).length p.rest
  rw [htake] at hdrop
  unfold Parser.number
  simp only [numeral_len, htake, append_cancel_left (hdrop.trans hsplit.symm)]
  rfl

theorem number_sound {v : Json} (h : p.number = some (v, q)) :
    ∃ t n, lax.num t ∧ Decimal.from_str t = some n ∧ n.Finite ∧ v = .Num n ∧ p = q.back t := by
  rw [number_eq] at h
  obtain ⟨n, hn, h⟩ := bind_eq_some_iff.mp h
  split at h
  · rename_i hfin
    cases h
    exact ⟨_, n, fun b hb => mem_takeWhile_imp hb, hn, hfin, rfl,
      Parser.eq_back_of_rest takeWhile_append_dropWhile.symm⟩
  · cases h

theorem number_complete {n : Interp.F64} (ht : lax.num t) (hn : Decimal.from_str t = some n)
    (hfin : n.Finite) (hrest : Bounded q.rest) : (q.back t).number = some (.Num n, q) := by
  have hstop : q.rest.takeWhile Decimal.is_numeral = [] ∧
      q.rest.dropWhile Decimal.is_numeral = q.rest := by
    cases hq : q.rest with
    | nil => exact ⟨rfl, rfl⟩
    | cons b rest =>
      have hb : ¬Decimal.is_numeral b = true := by rw [hrest b (by rw [hq]; rfl)]; decide
      exact ⟨takeWhile_cons_of_neg hb, dropWhile_cons_of_neg hb⟩
  rw [number_eq, Parser.rest_back, takeWhile_append_of_pos ht, hstop.1, append_nil, hn,
    bind_some, if_pos hfin, dropWhile_append_of_pos ht, hstop.2]
  rfl

end Fors.Lsp
