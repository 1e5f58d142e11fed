import Fors.Lsp.Offsets

/-!
# A formatting request

The edits of a diff begin and end where lines do and carry whole lines, so that their places are
characters' and their texts are texts. A client that reads them gets the edits that were meant.

Principal result: `positions_exact`.
-/

namespace Fors.Lsp

open List Option

open Fmt (TextEdit slice newlines NEWLINE flush flush_pairs apply_edits Told diff)
open Utf8 Positions

variable {s p q p' q' : List Char} {old new bs : List UInt8} {o : Nat} {e : TextEdit}
  {edits edits' : List TextEdit}

/-! ## The edits of a diff -/

/-- What stands between two places of a text is a text. -/
theorem slice_valid {text : List UInt8} (hp : s = p ++ q) (hp' : s = p' ++ q')
    (h : slice (encode s) (encode p).length (encode p').length = some text) : Valid text := by
  have hle : (encode p).length ≤ (encode p').length := by
    unfold slice at h
    split at h
    · next hbounds => exact hbounds.1
    · cases h
  rcases Nat.lt_or_ge p'.length p.length with hlt | hge
  · exfalso
    obtain ⟨d, hd⟩ := prefix_of_length_le (hp'.symm.trans hp) (Nat.le_of_lt hlt)
    cases d with
    | nil =>
      rw [hd, append_nil] at hlt
      exact Nat.lt_irrefl _ hlt
    | cons c d =>
      obtain ⟨x, rest, heq, -, -⟩ := encode_char_shape c
      rw [hd, length_encode_append, encode_cons, heq, length_append, length_cons] at hle
      omega
  · obtain ⟨d, rfl⟩ := prefix_of_length_le (hp.symm.trans hp') hge
    rw [hp', length_encode_append, encode_append, encode_append, slice_middle] at h
    exact ⟨d, (some.inj h).symm⟩

/-- Its ends and those of its text are line starts. -/
def LineEdit (old new : List UInt8) (e : TextEdit) : Prop :=
  (∃ a ∈ Fmt.line_starts old, e.start = a.toUInt32) ∧
    (∃ b ∈ Fmt.line_starts old, e.end_ = b.toUInt32) ∧
    ∃ i ∈ Fmt.line_starts new, ∃ j ∈ Fmt.line_starts new, slice new i j = some e.new_text

theorem flush_edits {ai aj bi bj : Nat} (hedits : ∀ e ∈ edits, LineEdit old new e)
    (h : flush (Fmt.line_starts old) (Fmt.line_starts new) new ai aj bi bj edits = some edits') :
    ∀ e ∈ edits', LineEdit old new e := by
  unfold flush at h
  split at h
  · cases h
    exact hedits
  · simp only [Option.bind_eq_bind, Option.bind_eq_some_iff, Option.pure_def,
      Option.some.injEq] at h
    obtain ⟨a, ha, b, hb, i, hi, j, hj, text, htext, rfl⟩ := h
    intro e he
    rcases mem_append.mp he with he | he
    · exact hedits e he
    · obtain rfl := mem_singleton.mp he
      exact ⟨⟨a, mem_of_getElem? ha, rfl⟩, ⟨b, mem_of_getElem? hb, rfl⟩,
        i, mem_of_getElem? hi, j, mem_of_getElem? hj, htext⟩

theorem flush_pairs_edits {pairs : List (Nat × Nat)} {n m ai bi : Nat}
    (hedits : ∀ e ∈ edits, LineEdit old new e)
    (h : flush_pairs (Fmt.line_starts old) (Fmt.line_starts new) new n m pairs ai bi edits =
      some edits') : ∀ e ∈ edits', LineEdit old new e := by
  induction pairs generalizing ai bi edits with
  | nil => exact flush_edits hedits h
  | cons xy pairs ih =>
    obtain ⟨next, hnext, h⟩ := bind_eq_some_iff.mp h
    exact ih (flush_edits hedits hnext) h

theorem mem_line_starts {src : List UInt8} : o ∈ Fmt.line_starts src ↔
    o = 0 ∨ o ∈ newlines 0 src ∨ o = src.length := by
  have hfold := Fmt.foldl_newlines src 0 [0]
  unfold Fmt.line_starts
  simp only [hfold]
  split
  · simp
  · next hlast =>
    have hend : src.length ∈ [0] ++ newlines 0 src :=
      mem_of_getLast? (not_not.mp hlast)
    constructor
    · intro h
      rcases mem_append.mp h with h | h
      · exact Or.inl (mem_singleton.mp h)
      · exact Or.inr (Or.inl h)
    · rintro (rfl | h | rfl)
      · exact mem_append_left _ mem_cons_self
      · exact mem_append_right _ h
      · exact hend

theorem diff_edits (h : diff old new = some edits) : ∀ e ∈ edits, LineEdit old new e := by
  unfold diff at h
  split at h
  · cases h
    exact fun e he => absurd he not_mem_nil
  · simp only [bind_eq_bind, bind_eq_some_iff] at h
    obtain ⟨ha, -, hb, -, found, -, h⟩ := h
    cases found with
    | some pairs => exact flush_pairs_edits (fun e he => absurd he not_mem_nil) h
    | none =>
      cases h
      intro e he
      obtain rfl := mem_singleton.mp he
      refine ⟨⟨0, mem_line_starts.mpr (Or.inl rfl), rfl⟩,
        ⟨old.length, mem_line_starts.mpr (Or.inr (Or.inr rfl)), rfl⟩,
        0, mem_line_starts.mpr (Or.inl rfl),
        new.length, mem_line_starts.mpr (Or.inr (Or.inr rfl)), ?_⟩
      unfold slice
      rw [if_pos ⟨Nat.zero_le _, Nat.le_refl _⟩, drop_zero, Nat.sub_zero, take_length]

theorem mem_newlines_split (h : o ∈ newlines 0 bs) : ∃ a t, bs = a ++ NEWLINE :: t ∧
    o = a.length + 1 := by
  induction bs using List.reverseRecOn generalizing o with
  | nil => exact absurd h not_mem_nil
  | append_singleton bs x ih =>
    rw [newlines_append] at h
    rcases mem_append.mp h with h | h
    · obtain ⟨a, t, rfl, ho⟩ := ih h
      exact ⟨a, t ++ [x], by rw [append_assoc]; rfl, ho⟩
    · rw [newlines] at h
      split at h
      · next hx =>
        rw [Nat.zero_add] at h
        exact ⟨bs, [], by rw [hx], mem_singleton.mp h⟩
      · exact absurd h not_mem_nil

/-- A line starts at a place of the text. -/
theorem line_start_place (h : o ∈ Fmt.line_starts (encode s)) :
    ∃ p q, s = p ++ q ∧ o = (encode p).length := by
  rcases mem_line_starts.mp h with rfl | h | rfl
  · exact ⟨[], s, rfl, rfl⟩
  · obtain ⟨a, t, hsplit, rfl⟩ := mem_newlines_split h
    obtain ⟨p, c, q, rfl, rfl, hc, -⟩ := encode_split (by decide) hsplit
    have hone : (String.utf8EncodeChar c).length = 1 := by
      have hascii : NEWLINE.toNat < 128 := by decide
      rw [encode_ascii (by omega)]
      rfl
    refine ⟨p ++ [c], q, by rw [append_assoc]; rfl, ?_⟩
    rw [length_encode_append, encode_cons, length_append, hone]
    rfl
  · exact ⟨s, [], (append_nil s).symm, rfl⟩

/-! ## Sending and reading -/

/-- How a line edit is sent, and that it is read as it is. -/
theorem sent_edit (hsmall : (encode s).length < 2 ^ 32) (hnew : Valid new)
    (h : LineEdit (encode s) new e) : ∃ range,
      range_json (.new (encode s)) (encode s) e.start e.end_ = some range ∧
      read_back (encode s) ⟨range, from_utf8_lossy e.new_text⟩ = some e := by
  obtain ⟨⟨a, ha, hstart⟩, ⟨b, hb, hend⟩, i, hi, j, hj, htext⟩ := h
  obtain ⟨p, q, hp, rfl⟩ := line_start_place ha
  obtain ⟨p', q', hp', rfl⟩ := line_start_place hb
  obtain ⟨t, rfl⟩ := hnew
  obtain ⟨w, _, hw, rfl⟩ := line_start_place hi
  obtain ⟨w', _, hw', rfl⟩ := line_start_place hj
  obtain ⟨m, hm⟩ := slice_valid hw hw' htext
  have hpos := pos_eq p q (hp ▸ hsmall)
  have hpos' := pos_eq p' q' (hp' ▸ hsmall)
  have hoffset := offset_pos (hp ▸ hsmall)
  have hoffset' := offset_pos (hp' ▸ hsmall)
  rw [← hp] at hpos hoffset
  rw [← hp'] at hpos' hoffset'
  refine ⟨(((line p).toUInt32, (column p).toUInt32), ((line p').toUInt32, (column p').toUInt32)),
    ?_, ?_⟩
  · unfold range_json
    rw [hstart, hend, hpos, hpos']
    rfl
  · unfold read_back
    simp only [hoffset, hoffset', hm, from_utf8_lossy_encode, Option.bind_eq_bind,
      Option.bind_some, Option.pure_def]
    rw [← hstart, ← hend, ← hm]

theorem sent_edits (hsmall : (encode s).length < 2 ^ 32) (hnew : Valid new)
    (h : ∀ e ∈ edits, LineEdit (encode s) new e) : ∃ sent, (edits.mapM fun e => do
      let range ← range_json (.new (encode s)) (encode s) e.start e.end_
      pure (SentEdit.mk range (from_utf8_lossy e.new_text))) = some sent ∧
      sent.mapM (read_back (encode s)) = some edits := by
  induction edits with
  | nil => exact ⟨[], rfl, rfl⟩
  | cons e edits ih =>
    obtain ⟨he, hedits⟩ := forall_mem_cons.mp h
    obtain ⟨range, hrange, hread⟩ := sent_edit hsmall hnew he
    obtain ⟨sent, hsent, hreads⟩ := ih hedits
    refine ⟨⟨range, from_utf8_lossy e.new_text⟩ :: sent, ?_, ?_⟩
    · rw [mapM_cons, hrange, hsent]
      rfl
    · rw [mapM_cons, hread, hreads]
      rfl

variable {format_source : Formatter}

theorem check_source_edits (h : check_source format_source old = some edits) :
    ∀ e ∈ edits, LineEdit old (format_source old).1 e := by
  unfold check_source at h
  split at h
  · exact diff_edits h
  · cases h
    exact fun e he => absurd he not_mem_nil

theorem check_edits {range : Option Range} (h : check format_source old range = some edits) :
    ∀ e ∈ edits, LineEdit old (format_source old).1 e := by
  cases range with
  | none => exact check_source_edits h
  | some r =>
    obtain ⟨⟨start, end_⟩, -, h⟩ := bind_eq_some_iff.mp h
    obtain ⟨all, hall, rfl⟩ := map_eq_some_iff.mp h
    intro e he
    exact check_source_edits hall e (mem_of_mem_filter he)

/-- The edits that are sent are read back as they were. -/
theorem format_read {range : Option Range}
    (hsmall : (encode s).length < 2 ^ 32) (hnew : Valid (format_source (encode s)).1)
    (h : check format_source (encode s) range = some edits) : ∃ sent,
      format format_source (some (encode s)) range = some sent ∧
      sent.mapM (read_back (encode s)) = some edits := by
  obtain ⟨sent, hsent, hread⟩ := sent_edits hsmall hnew (check_edits h)
  refine ⟨sent, ?_, hread⟩
  show (check format_source (encode s) range).bind _ = _
  rw [h]
  exact hsent

/-- A client that applies them has the formatter's text. -/
theorem format_applied (hsmall : (encode s).length < 2 ^ 32)
    (hnew : Valid (format_source (encode s)).1)
    (hsame : (format_source (encode s)).2 = false → (format_source (encode s)).1 = encode s)
    (htold : Told (encode s) (format_source (encode s)).1) : ∃ sent edits,
      format format_source (some (encode s)) none = some sent ∧
      sent.mapM (read_back (encode s)) = some edits ∧
      apply_edits (encode s) edits = (format_source (encode s)).1 := by
  have hcheck : ∃ edits, check format_source (encode s) none = some edits ∧
      apply_edits (encode s) edits = (format_source (encode s)).1 := by
    show ∃ edits, check_source format_source (encode s) = some edits ∧ _
    unfold check_source
    cases hchanged : (format_source (encode s)).2 with
    | false => exact ⟨[], rfl, (hsame hchanged).symm⟩
    | true =>
      obtain ⟨edits, hdiff, hturns⟩ := Fmt.turns_of_told hsmall htold
      exact ⟨edits, hdiff, hturns.applied⟩
  obtain ⟨edits, hcheck, happlied⟩ := hcheck
  obtain ⟨sent, hsent, hread⟩ := format_read hsmall hnew hcheck
  exact ⟨sent, edits, hsent, hread, happlied⟩

/-! ## Both directions -/

theorem place_bounds (p q : List Char) (hsmall : (encode (p ++ q)).length < 2 ^ 32) :
    line p < 2 ^ 32 ∧ column p < 2 ^ 32 := by
  have hline := line_lt p
  have hcolumn := column_le p
  rw [length_encode_append] at hsmall
  omega

/-- A place has the line and the character that its text tells, in order, and is found again from
them; a line and a character give the first place of the line that is far enough, or its end; and
the edits of a formatting request are read as they were meant. -/
theorem positions_exact (s : List Char) (hsmall : (encode s).length < 2 ^ 32) :
    (∀ p q, s = p ++ q → ∃ n character : UInt32,
      (LineIndex.new (encode s)).pos (encode s) (encode p).length.toUInt32 = some (n, character) ∧
        n.toNat = line p ∧ character.toNat = column p) ∧
    (∀ p d q, s = p ++ d ++ q → d ≠ [] → ∃ n character n' character' : UInt32,
      (LineIndex.new (encode s)).pos (encode s) (encode p).length.toUInt32 = some (n, character) ∧
        (LineIndex.new (encode s)).pos (encode s) (encode (p ++ d)).length.toUInt32 =
          some (n', character') ∧
        (n < n' ∨ n = n' ∧ character < character')) ∧
    (∀ p q, s = p ++ q → ∃ n character : UInt32,
      (LineIndex.new (encode s)).pos (encode s) (encode p).length.toUInt32 = some (n, character) ∧
        (LineIndex.new (encode s)).offset (encode s) n character =
          some (encode p).length.toUInt32) ∧
    (∀ n character : UInt32, ∃ p q, s = p ++ q ∧
      (LineIndex.new (encode s)).offset (encode s) n character =
        some (encode p).length.toUInt32 ∧
      (Reaches s n.toNat character.toNat p q ∨ line s < n.toNat ∧ q = [])) ∧
    (∀ (format_source : Formatter) (range : Option Range) (edits : List TextEdit),
      Valid (format_source (encode s)).1 → check format_source (encode s) range = some edits →
        ∃ sent, format format_source (some (encode s)) range = some sent ∧
          sent.mapM (read_back (encode s)) = some edits) ∧
    (∀ format_source : Formatter, Valid (format_source (encode s)).1 →
      ((format_source (encode s)).2 = false → (format_source (encode s)).1 = encode s) →
      Told (encode s) (format_source (encode s)).1 → ∃ sent edits,
        format format_source (some (encode s)) none = some sent ∧
        sent.mapM (read_back (encode s)) = some edits ∧
        apply_edits (encode s) edits = (format_source (encode s)).1) := by
  refine ⟨?_, ?_, ?_, ?_, ?_, ?_⟩
  · rintro p q rfl
    obtain ⟨hline, hcolumn⟩ := place_bounds p q hsmall
    exact ⟨_, _, pos_eq p q hsmall, toNat_toUInt32 hline, toNat_toUInt32 hcolumn⟩
  · rintro p d q rfl hd
    have hsmall' : (encode (p ++ (d ++ q))).length < 2 ^ 32 := by rwa [← append_assoc]
    obtain ⟨hline, hcolumn⟩ := place_bounds p (d ++ q) hsmall'
    obtain ⟨hline', hcolumn'⟩ := place_bounds (p ++ d) q hsmall
    have hpos := pos_eq p (d ++ q) hsmall'
    rw [← append_assoc] at hpos
    refine ⟨_, _, _, _, hpos, pos_eq (p ++ d) q hsmall, ?_⟩
    rw [UInt32.lt_iff_toNat_lt, UInt32.lt_iff_toNat_lt, ← UInt32.toNat_inj, toNat_toUInt32 hline,
      toNat_toUInt32 hcolumn, toNat_toUInt32 hline', toNat_toUInt32 hcolumn']
    exact position_lt hd
  · rintro p q rfl
    exact ⟨_, _, pos_eq p q hsmall, offset_pos hsmall⟩
  · intro n character
    have hn : n.toNat.toUInt32 = n := UInt32.ofNat_toNat
    rcases Nat.lt_or_ge (line s) n.toNat with hpast | hwithin
    · refine ⟨s, [], (append_nil s).symm, ?_, Or.inr ⟨hpast, rfl⟩⟩
      have hoffset := offset_past hpast n.toNat_lt character
      rwa [hn] at hoffset
    · obtain ⟨p, q, hreaches, hoffset⟩ := offset_reaches hsmall hwithin character
      rw [hn] at hoffset
      exact ⟨p, q, hreaches.split, hoffset, Or.inl hreaches⟩
  · intro format_source range edits hnew hcheck
    exact format_read hsmall hnew hcheck
  · intro format_source hnew hsame htold
    exact format_applied hsmall hnew hsame htold

/-- `module`, the blanks before its name and a character of two units in a comment. The formatter
leaves one blank. -/
def header (blanks : List Char) : List Char :=
  "module".toList ++ blanks ++ "a; // ".toList ++ [Char.ofNat 0x1F600, '\n']

theorem positions_pair : (encode (header [' ', ' '])).length < 2 ^ 32 ∧
    (∃ n character : UInt32,
      (LineIndex.new (encode (header [' ', ' ']))).pos (encode (header [' ', ' ']))
          (encode ((header [' ', ' ']).take 15)).length.toUInt32 = some (n, character) ∧
        n.toNat = line ((header [' ', ' ']).take 15) ∧
        character.toNat = column ((header [' ', ' ']).take 15)) ∧
    ∃ sent edits,
      format (fun _ => (encode (header [' ']), true)) (some (encode (header [' ', ' ']))) none =
          some sent ∧
        sent.mapM (read_back (encode (header [' ', ' ']))) = some edits ∧
        apply_edits (encode (header [' ', ' '])) edits = encode (header [' ']) := by
  have hexact := positions_exact (header [' ', ' ']) (by decide)
  have htold : Told (encode (header [' ', ' '])) (encode (header [' '])) := by
    unfold Told
    decide +kernel
  refine ⟨by decide, hexact.1 _ ((header [' ', ' ']).drop 15) (take_append_drop 15 _).symm, ?_⟩
  exact hexact.2.2.2.2.2 (fun _ => (encode (header [' ']), true)) ⟨header [' '], rfl⟩
    (fun h => nomatch h) htold

/-- Past the end of a line that is not the last, no place of the line has the column, and the
buffer does not end there. -/
theorem past_the_end : ¬ ∀ (s : List Char) (n character : UInt32), (encode s).length < 2 ^ 32 →
    n.toNat ≤ line s → ∃ p q, s = p ++ q ∧ line p = n.toNat ∧
      (LineIndex.new (encode s)).offset (encode s) n character =
        some (encode p).length.toUInt32 ∧
      (character.toNat ≤ column p ∨ q = []) := by
  intro h
  obtain ⟨p, q, hsplit, hline, -, hfar⟩ := h ['a', '\n', 'b'] 0 5 (by decide) (by decide)
  cases p with
  | nil =>
    obtain rfl : q = ['a', '\n', 'b'] := hsplit.symm
    revert hfar
    decide
  | cons x p =>
    obtain ⟨rfl, hrest⟩ := cons.inj hsplit
    cases p with
    | nil =>
      obtain rfl : q = ['\n', 'b'] := hrest.symm
      revert hfar
      decide
    | cons y p =>
      -- The newline is before this place.
      obtain ⟨rfl, -⟩ := cons.inj hrest
      have hpos : 0 < line ('a' :: '\n' :: p) :=
        count_pos_iff.mpr (mem_cons_of_mem _ mem_cons_self)
      rw [hline] at hpos
      exact absurd hpos (Nat.lt_irrefl 0)

end Fors.Lsp
