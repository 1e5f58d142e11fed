import Fors.Lsp.Lexemes

/-!
# What the reader reads

The reader takes exactly the texts of the grammar with the lax lexicon, and gives the value the
grammar gives. The counter for the nesting is what a value found it at, on every way out.

Principal results: `parse_within_iff` and `parse_within_answers`.
-/

namespace Fors.Lsp

open Floats Outcomes Outcomes.Outcome Fors.Lsp.Parser List

variable {p q : Parser} {s t w : List UInt8} {fuel d : Nat} {v : Json} {L : Lexicon}

/-! ## What is read is in the grammar -/

theorem value_atom (h : Atom L s v) : Value L d s v := by
  cases d with
  | zero => exact h
  | succ d => exact .inl h

theorem value_array {es : List Json}
    (h : Listed (Padded (Value L d)) '['.toUInt8 ']'.toUInt8 s es) : Value L (d + 1) s (.Arr es) :=
  .inr (.inl ⟨es, h, rfl⟩)

variable {ms : List (List Char × Json)}

theorem value_object (h : Listed (Member L (Value L d)) '{'.toUInt8 '}'.toUInt8 s ms) :
    Value L (d + 1) s (.Obj ms) :=
  .inr (.inr ⟨ms, h, rfl⟩)

theorem ws_append {w w' : List UInt8} (h : Ws w) (h' : Ws w') : Ws (w ++ w') := by
  intro b hb
  rcases mem_append.mp hb with hb | hb
  · exact h b hb
  · exact h' b hb

section
variable {α : Type} {P : List UInt8 → α → Prop} {a : α} {es : List α} {closing : UInt8}

theorem padded_ws (hw : Ws w) (h : Padded P s a) : Padded P (w ++ s) a := by
  obtain @⟨w1, s, w2, a, hw1, hs, hw2⟩ := h
  rw [← append_assoc, ← append_assoc]
  exact ⟨ws_append hw hw1, hs, hw2⟩

theorem member_ws {P : List UInt8 → Json → Prop} {m : List Char × Json} (hw : Ws w)
    (h : Member L P s m) : Member L P (w ++ s) m := by
  obtain ⟨hk, hs⟩ := h
  rw [← append_assoc]
  exact ⟨padded_ws hw hk, hs⟩

theorem seq_ws (hP : ∀ {w s : List UInt8} {a : α}, Ws w → P s a → P (w ++ s) a) (hw : Ws w)
    (h : Seq P s es) : Seq P (w ++ s) es := by
  cases h with
  | one h => exact .one (hP hw h)
  | cons h hs =>
    rw [← append_assoc]
    exact .cons (hP hw h) hs

theorem listed_none (opening : UInt8) (h : p.ws.eat closing = some q) :
    ∃ t, Listed P opening closing (opening :: t) [] ∧ p = q.back t := by
  obtain ⟨w, hw, hback⟩ := exists_ws p
  refine ⟨w ++ [closing], .none hw, ?_⟩
  rw [back_append, ← eat_eq_some.mp h, ← hback]

theorem listed_some (opening : UInt8) (hP : ∀ {w s : List UInt8} {a : α}, Ws w → P s a → P (w ++ s) a)
    (h : Seq P s es) {rest : List UInt8} (hrest : p.ws.rest = s ++ closing :: rest) :
    ∃ t, Listed P opening closing (opening :: t) es ∧ p.rest = t ++ rest := by
  obtain ⟨w, hw, hback⟩ := exists_ws p
  refine ⟨w ++ s ++ [closing], .some (seq_ws hP hw h), ?_⟩
  have hsplit : p.rest = w ++ p.ws.rest := congrArg Parser.rest hback
  rw [hsplit, hrest, append_assoc, append_assoc, singleton_append]

end

/-- The elements of an array up to its end. -/
def SoundElements (fuel : Nat) : Prop :=
  ∀ {acc : List Json} {p q : Parser} {v : Json}, p.elements fuel acc = .value (v, q) →
    0 < p.depth → p.depth ≤ MAX_DEPTH → ∃ s es, Seq (Padded (Value lax (MAX_DEPTH - p.depth))) s es ∧
      v = .Arr (acc ++ es) ∧ p.rest = s ++ ']'.toUInt8 :: q.rest ∧ p.depth = q.depth + 1

def SoundMembers (fuel : Nat) : Prop :=
  ∀ {acc : List (List Char × Json)} {p q : Parser} {v : Json}, p.members fuel acc = .value (v, q) →
    0 < p.depth → p.depth ≤ MAX_DEPTH →
      ∃ s ms, Seq (Member lax (Value lax (MAX_DEPTH - p.depth))) s ms ∧
        v = .Obj (acc ++ ms) ∧ p.rest = s ++ '}'.toUInt8 :: q.rest ∧ p.depth = q.depth + 1

def SoundValue (fuel : Nat) : Prop :=
  ∀ {p q : Parser} {v : Json}, p.value fuel = .value (v, q) → p.depth ≤ MAX_DEPTH →
    ∃ w s, Ws w ∧ Value lax (MAX_DEPTH - p.depth) s v ∧ p = q.back (w ++ s)

theorem back_of_ws (hw : p = p.ws.back w) (h : p.ws = q.back s) : p = q.back (w ++ s) := by
  rw [hw, h, back_append]

theorem sound_value (helems : SoundElements fuel) (hmems : SoundMembers fuel) :
    SoundValue (fuel + 1) := by
  intro p q v h hdepth
  obtain ⟨w, hw, hback⟩ := exists_ws p
  have hwd : p.ws.depth = p.depth := rfl
  have hdone : ∀ {s : List UInt8}, Value lax (MAX_DEPTH - p.depth) s v → p.ws = q.back s →
      ∃ w s, Ws w ∧ Value lax (MAX_DEPTH - p.depth) s v ∧ p = q.back (w ++ s) :=
    fun hval heq => ⟨w, _, hw, hval, back_of_ws hback heq⟩
  rw [Parser.value] at h
  simp only at h
  split at h
  · cases h
  rename_i b rest hrest
  have hopen : ∀ {t : List UInt8}, rest = t ++ q.rest → p.depth = q.depth →
      p.ws = q.back (b :: t) := by
    intro t ht hd
    unfold back
    rw [cons_append, ← ht, ← hrest, ← hd]
    rfl
  split at h
  · obtain ⟨heq, rfl⟩ := lit_eq_some.mp (some_of_eq.mp h)
    exact hdone (value_atom .null) heq
  split at h
  · obtain ⟨heq, rfl⟩ := lit_eq_some.mp (some_of_eq.mp h)
    exact hdone (value_atom .true) heq
  split at h
  · obtain ⟨heq, rfl⟩ := lit_eq_some.mp (some_of_eq.mp h)
    exact hdone (value_atom .false) heq
  split at h
  · obtain ⟨⟨cs, q'⟩, hstr, hval⟩ := bind_eq_value.mp h
    obtain ⟨rfl, rfl⟩ := Prod.mk.inj (pure_eq_value.mp hval)
    obtain ⟨s, hs, heq⟩ := string_sound hstr
    exact hdone (value_atom (.str hs)) heq
  split at h
  · -- an array
    rename_i hb
    split at h
    · cases h
    rename_i hfits
    replace hfits : p.depth + 1 ≤ MAX_DEPTH := Nat.le_of_not_lt hfits
    have hd : MAX_DEPTH - p.depth = MAX_DEPTH - (p.depth + 1) + 1 := by omega
    split at h
    · rename_i q' hempty
      obtain ⟨_, hleave, hval⟩ := bind_eq_value.mp h
      obtain ⟨rfl, rfl⟩ := Prod.mk.inj (pure_eq_value.mp hval)
      obtain ⟨hsame, hdown⟩ := leave_eq.mp hleave
      obtain ⟨t, ht, heq⟩ := listed_none (P := Padded (Value lax (MAX_DEPTH - (p.depth + 1)))) b
        hempty
      obtain ⟨hrest', hdepth'⟩ := Parser.mk.inj heq
      refine hdone (s := b :: t) ?_ (hopen (hsame ▸ hrest') (Nat.succ.inj (hdepth'.trans hdown)))
      rw [hd]
      exact value_array (hb ▸ ht)
    · obtain ⟨s, es, hs, rfl, hrest', hdepth'⟩ := helems h (Nat.succ_pos _) hfits
      obtain ⟨t, ht, heq⟩ := listed_some b padded_ws hs hrest'
      refine hdone (s := b :: t) ?_ (hopen heq (Nat.succ.inj hdepth'))
      rw [hd]
      exact value_array (hb ▸ ht)
  split at h
  · -- an object
    rename_i hb
    split at h
    · cases h
    rename_i hfits
    replace hfits : p.depth + 1 ≤ MAX_DEPTH := Nat.le_of_not_lt hfits
    have hd : MAX_DEPTH - p.depth = MAX_DEPTH - (p.depth + 1) + 1 := by omega
    split at h
    · rename_i q' hempty
      obtain ⟨_, hleave, hval⟩ := bind_eq_value.mp h
      obtain ⟨rfl, rfl⟩ := Prod.mk.inj (pure_eq_value.mp hval)
      obtain ⟨hsame, hdown⟩ := leave_eq.mp hleave
      obtain ⟨t, ht, heq⟩ := listed_none (P := Member lax (Value lax (MAX_DEPTH - (p.depth + 1)))) b
        hempty
      obtain ⟨hrest', hdepth'⟩ := Parser.mk.inj heq
      refine hdone (s := b :: t) ?_ (hopen (hsame ▸ hrest') (Nat.succ.inj (hdepth'.trans hdown)))
      rw [hd]
      exact value_object (hb ▸ ht)
    · obtain ⟨s, ms, hs, rfl, hrest', hdepth'⟩ := hmems h (Nat.succ_pos _) hfits
      obtain ⟨t, ht, heq⟩ := listed_some b member_ws hs hrest'
      refine hdone (s := b :: t) ?_ (hopen heq (Nat.succ.inj hdepth'))
      rw [hd]
      exact value_object (hb ▸ ht)
  · obtain ⟨t, n, ht, hn, hfin, rfl, heq⟩ := number_sound (some_of_eq.mp h)
    exact hdone (value_atom (.num ht hn hfin)) heq

theorem sound_elements (hvalue : SoundValue fuel) (helems : SoundElements fuel) :
    SoundElements (fuel + 1) := by
  intro acc p q v h hpos hdepth
  rw [Parser.elements] at h
  obtain ⟨⟨e, p1⟩, hread, hnext⟩ := bind_eq_value.mp h
  obtain ⟨w, s, hw, hs, rfl⟩ := hvalue hread hdepth
  obtain ⟨w', hw', hback⟩ := exists_ws p1
  have hpad : Padded (Value lax (MAX_DEPTH - p1.depth)) (w ++ s ++ w') e := ⟨hw, hs, hw'⟩
  simp only at hnext
  split at hnext
  · rename_i p2 hcomma
    have heq := eat_eq_some.mp hcomma
    have hd2 : p2.depth = p1.depth := (congrArg Parser.depth heq).symm
    obtain ⟨t, es, ht, rfl, hrest, hq⟩ := helems hnext (hd2 ▸ hpos) (hd2 ▸ hdepth)
    refine ⟨w ++ s ++ w' ++ ','.toUInt8 :: t, e :: es, .cons hpad (hd2 ▸ ht), ?_, ?_, hd2 ▸ hq⟩
    · rw [append_assoc]
      rfl
    · have hrest1 : p1.rest = w' ++ ','.toUInt8 :: p2.rest := by
        rw [hback, heq]
        rfl
      rw [rest_back, hrest1, hrest]
      simp
  · obtain ⟨p2, hleave, hnext⟩ := bind_eq_value.mp hnext
    obtain ⟨p3, hclose, hval⟩ := bind_eq_value.mp hnext
    obtain ⟨rfl, rfl⟩ := Prod.mk.inj (pure_eq_value.mp hval)
    obtain rfl := eat_eq_some.mp (some_of_eq.mp hclose)
    obtain ⟨hrest, hq⟩ := leave_eq.mp hleave
    refine ⟨w ++ s ++ w', [e], .one hpad, rfl, ?_, hq⟩
    have hrest1 : p1.rest = w' ++ ']'.toUInt8 :: p3.rest := by
      rw [hback, rest_back, hrest]
      rfl
    rw [rest_back, hrest1]
    simp

theorem sound_members (hvalue : SoundValue fuel) (hmems : SoundMembers fuel) :
    SoundMembers (fuel + 1) := by
  intro acc p q v h hpos hdepth
  rw [Parser.members] at h
  obtain ⟨⟨k, p1⟩, hname, hcolon⟩ := bind_eq_value.mp h
  obtain ⟨p2, hcolon, hvalued⟩ := bind_eq_value.mp hcolon
  obtain ⟨⟨e, p3⟩, hread, hnext⟩ := bind_eq_value.mp hvalued
  obtain ⟨w0, hw0, hback0⟩ := exists_ws p
  obtain ⟨ks, hks, hback1⟩ := string_sound hname
  obtain ⟨w1, hw1, hback2⟩ := exists_ws p1
  have hback3 := eat_eq_some.mp (some_of_eq.mp hcolon)
  have hdepth2 : p2.depth = p.depth := by
    rw [hback0, hback1, hback2, hback3]
    rfl
  obtain ⟨w, s, hw, hs, hback4⟩ := hvalue hread (hdepth2 ▸ hdepth)
  obtain ⟨w', hw', hback5⟩ := exists_ws p3
  have hmember : Member lax (Value lax (MAX_DEPTH - p.depth))
      (w0 ++ ks ++ w1 ++ ':'.toUInt8 :: (w ++ s ++ w')) (k, e) :=
    ⟨⟨hw0, hks, hw1⟩, ⟨hw, hdepth2 ▸ hs, hw'⟩⟩
  have hrest : p.rest = w0 ++ ks ++ w1 ++ ':'.toUInt8 :: (w ++ s ++ w') ++ p3.ws.rest := by
    have h0 : p.rest = w0 ++ p.ws.rest := congrArg Parser.rest hback0
    have h1 : p.ws.rest = ks ++ p1.rest := congrArg Parser.rest hback1
    have h2 : p1.rest = w1 ++ p1.ws.rest := congrArg Parser.rest hback2
    have h3 : p1.ws.rest = ':'.toUInt8 :: p2.rest := congrArg Parser.rest hback3
    have h4 : p2.rest = w ++ s ++ p3.rest := congrArg Parser.rest hback4
    have h5 : p3.rest = w' ++ p3.ws.rest := congrArg Parser.rest hback5
    rw [h0, h1, h2, h3, h4, h5]
    simp
  have hdepth3 : p3.depth = p.depth := by
    rw [← hdepth2, hback4]
    rfl
  simp only at hnext
  split at hnext
  · rename_i p4 hcomma
    have heq := eat_eq_some.mp hcomma
    have hd4 : p4.depth = p.depth := (congrArg Parser.depth heq).symm.trans hdepth3
    obtain ⟨t, ms, ht, rfl, hrest4, hq⟩ := hmems hnext (hd4 ▸ hpos) (hd4 ▸ hdepth)
    refine ⟨_, (k, e) :: ms, .cons hmember (hd4 ▸ ht), ?_, ?_, hd4 ▸ hq⟩
    · rw [append_assoc]
      rfl
    · rw [hrest, heq, rest_back, hrest4]
      simp
  · obtain ⟨p4, hleave, hnext⟩ := bind_eq_value.mp hnext
    obtain ⟨p5, hclose, hval⟩ := bind_eq_value.mp hnext
    obtain ⟨rfl, rfl⟩ := Prod.mk.inj (pure_eq_value.mp hval)
    obtain rfl := eat_eq_some.mp (some_of_eq.mp hclose)
    obtain ⟨hrest4, hq⟩ := leave_eq.mp hleave
    refine ⟨_, [(k, e)], .one hmember, rfl, ?_, hdepth3.symm.trans hq⟩
    rw [hrest, hrest4]
    rfl

theorem sound (fuel : Nat) : SoundValue fuel ∧ SoundElements fuel ∧ SoundMembers fuel := by
  induction fuel with
  | zero => exact ⟨fun h => (nomatch h), fun h => (nomatch h), fun h => (nomatch h)⟩
  | succ fuel ih =>
    obtain ⟨hvalue, helems, hmems⟩ := ih
    exact ⟨sound_value helems hmems, sound_elements hvalue helems, sound_members hvalue hmems⟩

variable {bytes : List UInt8}

theorem doc_of_parse (h : parse_within fuel bytes = .value v) :
    Doc lax bytes v := by
  obtain ⟨⟨v', q⟩, hread, hend⟩ := bind_eq_value.mp h
  simp only at hend
  split at hend
  · rename_i hrest
    obtain rfl := value.inj hend
    obtain ⟨w, s, hw, hs, hback⟩ := (sound fuel).1 hread (Nat.zero_le _)
    obtain ⟨w0, hw0, hback0⟩ := exists_ws ⟨bytes, 0⟩
    obtain ⟨w', hw', hback'⟩ := exists_ws q
    have hbytes : bytes = w0 ++ w ++ s ++ w' := by
      have h0 : bytes = w0 ++ (ws ⟨bytes, 0⟩).rest := congrArg Parser.rest hback0
      have h1 : (ws ⟨bytes, 0⟩).rest = w ++ s ++ q.rest := congrArg Parser.rest hback
      have h2 : q.rest = w' ++ q.ws.rest := congrArg Parser.rest hback'
      rw [h0, h1, h2, hrest]
      simp
    rw [hbytes]
    exact ⟨ws_append hw0 hw, hs, hw'⟩
  · cases hend

/-! ## What is in the grammar is read -/

theorem ws_ws (p : Parser) : p.ws.ws = p.ws :=
  ws_of_inked (inked_ws p)

theorem value_ws (p : Parser) (fuel : Nat) : p.ws.value fuel = p.value fuel := by
  cases fuel with
  | zero => rfl
  | succ fuel =>
    rw [Parser.value, Parser.value]
    simp [ws_ws]

theorem elements_ws (p : Parser) (fuel : Nat) (acc : List Json) :
    p.ws.elements fuel acc = p.elements fuel acc := by
  cases fuel with
  | zero => rfl
  | succ fuel =>
    rw [Parser.elements, Parser.elements]
    simp [value_ws]

theorem members_ws (p : Parser) (fuel : Nat) (acc : List (List Char × Json)) :
    p.ws.members fuel acc = p.members fuel acc := by
  cases fuel with
  | zero => rfl
  | succ fuel =>
    rw [Parser.members, Parser.members]
    simp [ws_ws]

variable {b : UInt8}

theorem inked_cons (hb : is_ws b = false) : Inked (b :: t) := by
  intro c hc
  cases hc
  exact hb

theorem not_numeral_of_ws (h : is_ws b = true) : Decimal.is_numeral b = false := by
  simp only [is_ws, Bool.or_eq_true, beq_iff_eq] at h
  rcases h with ((rfl | rfl) | rfl) | rfl <;> decide

theorem bounded_cons (h : Decimal.is_numeral b = false) : Bounded (b :: t) := by
  intro c hc
  cases hc
  exact h

/-- Whitespace ends a numeral, too. -/
theorem bounded_append (hw : Ws w) (h : Bounded t) : Bounded (w ++ t) := by
  intro c hc
  cases w with
  | nil => exact h c hc
  | cons a w =>
    obtain rfl := Option.some.inj hc
    exact not_numeral_of_ws (hw a mem_cons_self)

theorem numeral_head (h : Decimal.is_numeral b = true) : is_ws b = false ∧
    ∀ c ∈ ['n', 't', 'f', '"', '[', '{', ']'], b ≠ c.toUInt8 := by
  refine ⟨?_, ?_⟩
  · cases hws : is_ws b with
    | false => rfl
    | true => rw [not_numeral_of_ws hws] at h; cases h
  · intro c hc
    simp only [mem_cons, not_mem_nil, or_false] at hc
    rcases hc with rfl | rfl | rfl | rfl | rfl | rfl | rfl <;> rintro rfl <;>
      exact absurd h (by decide)

theorem number_cons {n : Interp.F64} (ht : lax.num t) (hn : Decimal.from_str t = some n) :
    ∃ b r, t = b :: r ∧ Decimal.is_numeral b = true := by
  cases t with
  | nil => cases hn
  | cons b r => exact ⟨b, r, rfl, ht b mem_cons_self⟩

theorem atom_head (h : Atom lax s v) : ∃ b t, s = b :: t ∧ is_ws b = false ∧ b ≠ ']'.toUInt8 := by
  cases h with
  | null => exact ⟨'n'.toUInt8, Utf8.bytes "ull", by decide, by decide, by decide⟩
  | true => exact ⟨'t'.toUInt8, Utf8.bytes "rue", by decide, by decide, by decide⟩
  | false => exact ⟨'f'.toUInt8, Utf8.bytes "alse", by decide, by decide, by decide⟩
  | num ht hn =>
    obtain ⟨b, r, rfl, hb⟩ := number_cons ht hn
    exact ⟨b, r, rfl, (numeral_head hb).1, (numeral_head hb).2 ']' (by simp)⟩
  | str hs =>
    obtain ⟨hs⟩ := hs
    exact ⟨'"'.toUInt8, _, rfl, by decide, by decide⟩

theorem value_head (h : Value lax d s v) :
    ∃ b t, s = b :: t ∧ is_ws b = false ∧ b ≠ ']'.toUInt8 := by
  cases d with
  | zero => exact atom_head h
  | succ d =>
    rcases h with h | ⟨es, h, rfl⟩ | ⟨ms, h, rfl⟩
    · exact atom_head h
    · cases h <;> exact ⟨'['.toUInt8, _, rfl, by decide, by decide⟩
    · cases h <;> exact ⟨'{'.toUInt8, _, rfl, by decide, by decide⟩

theorem complete_atom (h : Atom lax s v) (hfuel : s.length ≤ fuel) (hq : Bounded q.rest) :
    (q.back s).value (fuel + 1) = .value (v, q) := by
  obtain ⟨b, t, hs, hb, -⟩ := atom_head h
  have hws : (q.back s).ws = q.back s := ws_of_inked (hs ▸ inked_cons hb)
  have hrest : (q.back s).rest = b :: (t ++ q.rest) := by rw [rest_back, hs, cons_append]
  rw [Parser.value]
  simp only [hws, hrest]
  have hhead : s.head? = some b := hs ▸ rfl
  cases h with
  | null =>
    have hn : (Utf8.bytes "null").head? = some 'n'.toUInt8 := by decide
    obtain rfl := Option.some.inj (hn.symm.trans hhead)
    rw [if_pos rfl]
    exact some_of_eq.mpr (lit_eq_some.mpr ⟨rfl, rfl⟩)
  | true =>
    have ht : (Utf8.bytes "true").head? = some 't'.toUInt8 := by decide
    obtain rfl := Option.some.inj (ht.symm.trans hhead)
    rw [if_neg (by decide), if_pos rfl]
    exact some_of_eq.mpr (lit_eq_some.mpr ⟨rfl, rfl⟩)
  | false =>
    have hf : (Utf8.bytes "false").head? = some 'f'.toUInt8 := by decide
    obtain rfl := Option.some.inj (hf.symm.trans hhead)
    rw [if_neg (by decide), if_neg (by decide), if_pos rfl]
    exact some_of_eq.mpr (lit_eq_some.mpr ⟨rfl, rfl⟩)
  | num ht hn hfin =>
    obtain ⟨c, r, hcons, hc⟩ := number_cons ht hn
    obtain rfl : c = b := (cons.inj (hcons.symm.trans hs)).1
    have hne := (numeral_head hc).2
    simp only [forall_mem_cons] at hne
    rw [if_neg hne.1, if_neg hne.2.1, if_neg hne.2.2.1, if_neg hne.2.2.2.1, if_neg hne.2.2.2.2.1,
      if_neg hne.2.2.2.2.2.1]
    exact some_of_eq.mpr (number_complete ht hn hfin hq)
  | str hstr =>
    have hread := string_complete (q := q) hstr hfuel
    obtain ⟨hchars⟩ := hstr
    cases hhead
    rw [if_neg (by decide), if_neg (by decide), if_neg (by decide), if_pos rfl, hread]
    rfl

/-- Whatever the grammar derives is read, behind whitespace too. -/
def CompleteValue (d : Nat) : Prop :=
  ∀ {s : List UInt8} {v : Json}, Value lax d s v → ∀ {fuel : Nat} {q : Parser} {w : List UInt8},
    Ws w → Bounded q.rest → q.depth + d ≤ MAX_DEPTH →
      2 * (w.length + s.length + q.rest.length) < fuel → (q.back (w ++ s)).value fuel = .value (v, q)

theorem read_padded (fuel : Nat) (hvalue : CompleteValue d) (h : Padded (Value lax d) s v)
    (hq : q.rest = b :: t) (hb : is_ws b = false) (hnum : Decimal.is_numeral b = false)
    (hdepth : q.depth + d ≤ MAX_DEPTH) (hfuel : 2 * (s.length + q.rest.length) < fuel) :
    ∃ q', (q.back s).value fuel = .value (v, q') ∧ q'.ws = q := by
  obtain @⟨w, s, w', v, hw, hs, hw'⟩ := h
  rw [length_append] at hfuel
  refine ⟨q.back w', ?_, ws_back hw' (hq ▸ inked_cons hb)⟩
  rw [back_append]
  refine hvalue hs hw ?_ hdepth ?_
  · rw [rest_back, hq]
    exact bounded_append hw' (bounded_cons hnum)
  · rw [rest_back, length_append]
    rw [length_append] at hfuel
    omega

theorem not_comma (rest : List UInt8) (depth : Nat) (hb : b ≠ ','.toUInt8) :
    Parser.eat ⟨b :: rest, depth⟩ ','.toUInt8 = none :=
  eat_back_other ⟨rest, depth⟩ (s := []) hb

theorem read_name (fuel : Nat) {cs : List Char} (h : Padded (Str lax) s cs) (hq : q.rest = b :: t)
    (hb : is_ws b = false) (hfuel : s.length ≤ fuel) :
    ∃ q', (q.back s).ws.string fuel = .value (cs, q') ∧ q'.ws = q := by
  obtain @⟨w, s, w', cs, hw, hs, hw'⟩ := h
  rw [length_append, length_append] at hfuel
  refine ⟨q.back w', ?_, ws_back hw' (hq ▸ inked_cons hb)⟩
  have hink : Inked ((q.back w').back s).rest := by
    obtain ⟨hs⟩ := hs
    exact inked_cons (by decide)
  rw [back_append, back_append, ws_back hw hink]
  exact string_complete hs (by omega)

theorem complete_elements (hvalue : CompleteValue d) {es : List Json}
    (h : Seq (Padded (Value lax d)) s es) (hdepth : q.depth + 1 + d ≤ MAX_DEPTH)
    (hfuel : 2 * (s.length + q.rest.length) + 3 < fuel) (acc : List Json) :
    (back ⟨']'.toUInt8 :: q.rest, q.depth + 1⟩ s).elements fuel acc = .value (.Arr (acc ++ es), q) := by
  obtain ⟨fuel, rfl⟩ : ∃ k, fuel = k + 1 := ⟨fuel - 1, by omega⟩
  induction h generalizing fuel acc with
  | @one s e hs =>
    obtain ⟨q', hread, hws⟩ := read_padded (q := ⟨']'.toUInt8 :: q.rest, q.depth + 1⟩) fuel
      hvalue hs rfl (by decide) (by decide) hdepth (by rw [length_cons]; omega)
    rw [Parser.elements, hread]
    simp only [value_bind, hws]
    rw [not_comma q.rest _ (by decide)]
    simp only [leave_mk, value_bind]
    change (some_of ((q.back [']'.toUInt8]).eat _) >>= _) = _
    rw [eat_back]
    rfl
  | @cons s t e es hs _ ih =>
    rw [length_append, length_cons] at hfuel
    obtain ⟨fuel, rfl⟩ : ∃ k, fuel = k + 1 := ⟨fuel - 1, by omega⟩
    obtain ⟨q', hread, hws⟩ := read_padded
      (q := (back ⟨']'.toUInt8 :: q.rest, q.depth + 1⟩ t).back [','.toUInt8]) (fuel + 1)
      hvalue hs rfl (by decide) (by decide) hdepth (by
        simp only [rest_back, length_append, length_cons, length_nil]
        omega)
    rw [back_append, back_cons, Parser.elements, hread]
    simp only [value_bind, hws, eat_back]
    rw [ih _ fuel (by omega), append_assoc]
    rfl

theorem complete_members (hvalue : CompleteValue d)
    (h : Seq (Member lax (Value lax d)) s ms) (hdepth : q.depth + 1 + d ≤ MAX_DEPTH)
    (hfuel : 2 * (s.length + q.rest.length) + 3 < fuel) (acc : List (List Char × Json)) :
    (back ⟨'}'.toUInt8 :: q.rest, q.depth + 1⟩ s).members fuel acc = .value (.Obj (acc ++ ms), q) := by
  obtain ⟨fuel, rfl⟩ : ∃ k, fuel = k + 1 := ⟨fuel - 1, by omega⟩
  induction h generalizing fuel acc with
  | @one s m hs =>
    obtain @⟨k, s, cs, e, hk, hs⟩ := hs
    rw [length_append, length_cons] at hfuel
    obtain ⟨p1, hname, hws1⟩ := read_name
      (q := (back ⟨'}'.toUInt8 :: q.rest, q.depth + 1⟩ s).back [':'.toUInt8]) fuel
      hk rfl (by decide) (by omega)
    obtain ⟨p2, hread, hws2⟩ := read_padded (q := ⟨'}'.toUInt8 :: q.rest, q.depth + 1⟩)
      fuel hvalue hs rfl (by decide) (by decide) hdepth (by
        rw [length_cons]
        omega)
    rw [back_append, back_cons, Parser.members]
    simp only [hname, value_bind, hws1, eat_back, some_of_some, hread, hws2]
    rw [not_comma q.rest _ (by decide)]
    simp only [leave_mk, value_bind]
    change (some_of ((q.back ['}'.toUInt8]).eat _) >>= _) = _
    rw [eat_back]
    rfl
  | @cons s t m ms hs _ ih =>
    obtain @⟨k, s, cs, e, hk, hs⟩ := hs
    simp only [length_append, length_cons] at hfuel
    obtain ⟨fuel, rfl⟩ : ∃ k, fuel = k + 1 := ⟨fuel - 1, by omega⟩
    obtain ⟨p1, hname, hws1⟩ := read_name
      (q := (((back ⟨'}'.toUInt8 :: q.rest, q.depth + 1⟩ t).back [','.toUInt8]).back s).back
        [':'.toUInt8]) (fuel + 1) hk rfl (by decide) (by omega)
    obtain ⟨p2, hread, hws2⟩ := read_padded
      (q := (back ⟨'}'.toUInt8 :: q.rest, q.depth + 1⟩ t).back [','.toUInt8]) (fuel + 1)
      hvalue hs rfl (by decide) (by decide) hdepth (by
        simp only [rest_back, length_append, length_cons, length_nil]
        omega)
    rw [back_append, back_append, back_cons _ ','.toUInt8, back_cons _ ':'.toUInt8 s, Parser.members]
    simp only [hname, value_bind, hws1, eat_back, some_of_some, hread, hws2]
    rw [ih _ fuel (by omega), append_assoc]
    rfl

variable {c : UInt8}

/-- What starts with something else is not taken for the end. -/
theorem padded_open {α : Type} {P : List UInt8 → α → Prop} {a : α}
    (hhead : ∀ {s : List UInt8} {a : α}, P s a → ∃ b t, s = b :: t ∧ is_ws b = false ∧ b ≠ c)
    (h : Padded P s a) : (q.back s).ws.eat c = none := by
  obtain @⟨w, s, w', a, hw, hs, hw'⟩ := h
  obtain ⟨b, t, rfl, hb, hne⟩ := hhead hs
  rw [append_assoc, back_append, ws_back hw (inked_cons hb)]
  exact eat_back_other q hne

theorem str_head {cs : List Char} (h : Str lax s cs) :
    ∃ b t, s = b :: t ∧ is_ws b = false ∧ b ≠ '}'.toUInt8 := by
  obtain ⟨hs⟩ := h
  exact ⟨'"'.toUInt8, _, rfl, by decide, by decide⟩

theorem elements_open {es : List Json} (h : Seq (Padded (Value lax d)) s es) :
    (q.back s).ws.eat ']'.toUInt8 = none := by
  cases h with
  | one h => exact padded_open value_head h
  | cons h hs =>
    rw [back_append]
    exact padded_open value_head h

theorem member_open {m : List Char × Json} (h : Member lax (Value lax d) s m) :
    (q.back s).ws.eat '}'.toUInt8 = none := by
  obtain ⟨hk, hs⟩ := h
  rw [back_append]
  exact padded_open str_head hk

theorem members_open (h : Seq (Member lax (Value lax d)) s ms) :
    (q.back s).ws.eat '}'.toUInt8 = none := by
  cases h with
  | one h => exact member_open h
  | cons h hs =>
    rw [back_append]
    exact member_open h

theorem complete_array (hvalue : CompleteValue d) {es : List Json}
    (h : Listed (Padded (Value lax d)) '['.toUInt8 ']'.toUInt8 s es)
    (hdepth : q.depth + (d + 1) ≤ MAX_DEPTH) (hfuel : 2 * (s.length + q.rest.length) < fuel) :
    (q.back s).value fuel = .value (.Arr es, q) := by
  obtain ⟨fuel, rfl⟩ : ∃ k, fuel = k + 1 := ⟨fuel - 1, by omega⟩
  have hws : ∀ t, (q.back ('['.toUInt8 :: t)).ws = q.back ('['.toUInt8 :: t) :=
    fun t => ws_of_inked (inked_cons (by decide))
  have hfits : ¬MAX_DEPTH < q.depth + 1 := by omega
  cases h with
  | @none w hw =>
    have hend : (Parser.ws ⟨w ++ [']'.toUInt8] ++ q.rest, q.depth + 1⟩).eat ']'.toUInt8 =
        some ⟨q.rest, q.depth + 1⟩ := by
      have hback := ws_back (q := back ⟨q.rest, q.depth + 1⟩ [']'.toUInt8]) hw
        (inked_cons (by decide))
      rw [← back_append] at hback
      exact (congrArg (Parser.eat · _) hback).trans (eat_back _ _)
    rw [Parser.value]
    simp only [cons_append, hws, rest_back, depth_back, hend]
    rw [if_neg (by decide), if_neg (by decide), if_neg (by decide), if_neg (by decide),
      if_pos trivial, if_neg hfits]
    rfl
  | @some s es hs =>
    have hopen : (Parser.ws ⟨s ++ ']'.toUInt8 :: q.rest, q.depth + 1⟩).eat ']'.toUInt8 = none :=
      elements_open (q := ⟨']'.toUInt8 :: q.rest, q.depth + 1⟩) hs
    have hrest : s ++ [']'.toUInt8] ++ q.rest = s ++ ']'.toUInt8 :: q.rest := by
      rw [append_assoc]
      rfl
    simp only [cons_append, length_cons, length_append, length_nil] at hfuel
    rw [Parser.value]
    simp only [cons_append, hws, rest_back, depth_back, hrest]
    rw [if_neg (by decide), if_neg (by decide), if_neg (by decide), if_neg (by decide),
      if_pos trivial, if_neg hfits]
    simp only [hopen]
    exact (elements_ws _ _ _).trans (complete_elements hvalue hs (by omega) (by omega) [])

theorem complete_object (hvalue : CompleteValue d)
    (h : Listed (Member lax (Value lax d)) '{'.toUInt8 '}'.toUInt8 s ms)
    (hdepth : q.depth + (d + 1) ≤ MAX_DEPTH) (hfuel : 2 * (s.length + q.rest.length) < fuel) :
    (q.back s).value fuel = .value (.Obj ms, q) := by
  obtain ⟨fuel, rfl⟩ : ∃ k, fuel = k + 1 := ⟨fuel - 1, by omega⟩
  have hws : ∀ t, (q.back ('{'.toUInt8 :: t)).ws = q.back ('{'.toUInt8 :: t) :=
    fun t => ws_of_inked (inked_cons (by decide))
  have hfits : ¬MAX_DEPTH < q.depth + 1 := by omega
  cases h with
  | @none w hw =>
    have hend : (Parser.ws ⟨w ++ ['}'.toUInt8] ++ q.rest, q.depth + 1⟩).eat '}'.toUInt8 =
        some ⟨q.rest, q.depth + 1⟩ := by
      have hback := ws_back (q := back ⟨q.rest, q.depth + 1⟩ ['}'.toUInt8]) hw
        (inked_cons (by decide))
      rw [← back_append] at hback
      exact (congrArg (Parser.eat · _) hback).trans (eat_back _ _)
    rw [Parser.value]
    simp only [cons_append, hws, rest_back, depth_back, hend]
    rw [if_neg (by decide), if_neg (by decide), if_neg (by decide), if_neg (by decide),
      if_neg (by decide), if_pos trivial, if_neg hfits]
    rfl
  | @some s ms hs =>
    have hopen : (Parser.ws ⟨s ++ '}'.toUInt8 :: q.rest, q.depth + 1⟩).eat '}'.toUInt8 = none :=
      members_open (q := ⟨'}'.toUInt8 :: q.rest, q.depth + 1⟩) hs
    have hrest : s ++ ['}'.toUInt8] ++ q.rest = s ++ '}'.toUInt8 :: q.rest := by
      rw [append_assoc]
      rfl
    simp only [cons_append, length_cons, length_append, length_nil] at hfuel
    rw [Parser.value]
    simp only [cons_append, hws, rest_back, depth_back, hrest]
    rw [if_neg (by decide), if_neg (by decide), if_neg (by decide), if_neg (by decide),
      if_neg (by decide), if_pos trivial, if_neg hfits]
    simp only [hopen]
    exact (members_ws _ _ _).trans (complete_members hvalue hs (by omega) (by omega) [])

theorem complete_value (d : Nat) : CompleteValue d := by
  have hstart : ∀ {d : Nat} {s w : List UInt8} {v : Json} {q : Parser} {fuel : Nat},
      Value lax d s v → Ws w → (q.back (w ++ s)).value fuel = (q.back s).value fuel := by
    intro d s w v q fuel hs hw
    obtain ⟨b, t, rfl, hb, -⟩ := value_head hs
    rw [back_append, ← value_ws, ws_back hw (inked_cons hb)]
  have hatom : ∀ {s : List UInt8} {v : Json} {q : Parser} {fuel : Nat}, Atom lax s v →
      Bounded q.rest → 2 * (s.length + q.rest.length) < fuel → (q.back s).value fuel = .value (v, q) := by
    intro s v q fuel hs hq hfuel
    obtain ⟨fuel, rfl⟩ : ∃ k, fuel = k + 1 := ⟨fuel - 1, by omega⟩
    exact complete_atom hs (by omega) hq
  induction d with
  | zero =>
    intro s v h fuel q w hw hq hdepth hfuel
    rw [hstart h hw]
    exact hatom h hq (by omega)
  | succ d ih =>
    intro s v h fuel q w hw hq hdepth hfuel
    rw [hstart h hw]
    rcases h with h | ⟨es, h, rfl⟩ | ⟨ms, h, rfl⟩
    · exact hatom h hq (by omega)
    · exact complete_array ih h hdepth (by omega)
    · exact complete_object ih h hdepth (by omega)

/-! ## There is always an answer -/

/-- A value takes a byte at least, and leaves the counter as it was. -/
theorem value_shorter (h : p.value fuel = .value (v, q)) (hdepth : p.depth ≤ MAX_DEPTH) :
    q.rest.length < p.rest.length ∧ q.depth = p.depth := by
  obtain ⟨w, s, -, hs, rfl⟩ := (sound fuel).1 h hdepth
  obtain ⟨b, t, rfl, -⟩ := value_head hs
  refine ⟨?_, rfl⟩
  rw [length_back, length_append, length_cons]
  omega

theorem length_ws_le (p : Parser) : p.ws.rest.length ≤ p.rest.length :=
  length_dropWhile_le ..

theorem eat_shorter (h : p.eat c = some q) :
    p.rest.length = q.rest.length + 1 ∧ q.depth = p.depth := by
  rw [eat_eq_some.mp h, length_back, length_singleton, Nat.add_comm]
  exact ⟨rfl, rfl⟩

/-- Two steps for every byte are enough, and the counter is never taken below zero. -/
def AnswersValue (fuel : Nat) : Prop :=
  ∀ {p : Parser}, p.depth ≤ MAX_DEPTH → 2 * p.rest.length < fuel → Answers (p.value fuel) .none

def AnswersElements (fuel : Nat) : Prop :=
  ∀ {p : Parser} (acc : List Json), 0 < p.depth → p.depth ≤ MAX_DEPTH →
    2 * p.rest.length + 1 < fuel → Answers (p.elements fuel acc) .none

def AnswersMembers (fuel : Nat) : Prop :=
  ∀ {p : Parser} (acc : List (List Char × Json)), 0 < p.depth → p.depth ≤ MAX_DEPTH →
    2 * p.rest.length + 1 < fuel → Answers (p.members fuel acc) .none

theorem answers_close {f : Parser → Json × Parser} (hpos : 0 < p.depth) :
    Answers (do
      let p ← p.leave
      let p ← some_of (p.eat c)
      return f p) Stop.none := by
  refine Answers.bind (.bind (.sub hpos) fun _ _ => .inl ⟨_, rfl⟩) fun p _ => ?_
  exact (Answers.of_option _).bind fun _ _ => .inl ⟨_, rfl⟩

theorem answers_elements (hvalue : AnswersValue fuel) (helems : AnswersElements fuel) :
    AnswersElements (fuel + 1) := by
  intro p acc hpos hdepth hfuel
  rw [Parser.elements]
  refine (hvalue hdepth (by omega)).bind fun ⟨e, p1⟩ hread => ?_
  obtain ⟨hshort, hsame⟩ := value_shorter hread hdepth
  have hws := length_ws_le p1
  have hd : p1.ws.depth = p.depth := hsame
  simp only
  split
  · rename_i p2 hcomma
    obtain ⟨hlen, hd2⟩ := eat_shorter hcomma
    exact helems _ (by omega) (by omega) (by omega)
  · exact answers_close (hd ▸ hpos)

theorem answers_members (hvalue : AnswersValue fuel) (hmems : AnswersMembers fuel) :
    AnswersMembers (fuel + 1) := by
  intro p acc hpos hdepth hfuel
  have hws := length_ws_le p
  rw [Parser.members]
  refine (string_answers (by omega)).bind fun ⟨k, p1⟩ hname => ?_
  obtain ⟨s, -, heq⟩ := string_sound hname
  have hlen := congrArg (·.rest.length) heq
  have hd1 : p1.ws.depth = p.depth := (congrArg Parser.depth heq).symm
  simp only [length_back] at hlen
  have hws1 := length_ws_le p1
  refine (Answers.of_option _).bind fun p2 hcolon => ?_
  obtain ⟨hlen2, hd2⟩ := eat_shorter (some_of_eq.mp hcolon)
  refine (hvalue (by omega) (by omega)).bind fun ⟨e, p3⟩ hread => ?_
  obtain ⟨hshort, hsame⟩ := value_shorter hread (by omega)
  have hws3 := length_ws_le p3
  have hd3 : p3.ws.depth = p2.depth := hsame
  simp only
  split
  · rename_i p4 hcomma
    obtain ⟨hlen4, hd4⟩ := eat_shorter hcomma
    exact hmems _ (by omega) (by omega) (by omega)
  · exact answers_close (by omega)

theorem answers_value (helems : AnswersElements fuel) (hmems : AnswersMembers fuel) :
    AnswersValue (fuel + 1) := by
  intro p hdepth hfuel
  have hws := length_ws_le p
  have hd : p.ws.depth = p.depth := rfl
  rw [Parser.value]
  simp only
  split
  · exact .inr rfl
  rename_i b rest hrest
  have hlen : p.ws.rest.length = rest.length + 1 := by rw [hrest, length_cons]
  have hws' := length_ws_le ⟨rest, p.ws.depth + 1⟩
  change _ ≤ rest.length at hws'
  split
  · exact .of_option _
  split
  · exact .of_option _
  split
  · exact .of_option _
  split
  · exact (string_answers (by omega)).bind fun _ _ => .inl ⟨_, rfl⟩
  split
  · -- an array
    split
    · exact .inr rfl
    rename_i hfits
    replace hfits : p.depth + 1 ≤ MAX_DEPTH := Nat.le_of_not_lt hfits
    split
    · rename_i q hempty
      have hq : q.depth = p.depth + 1 := (eat_shorter hempty).2
      exact .bind (.bind (.sub (by omega)) fun _ _ => .inl ⟨_, rfl⟩) fun _ _ => .inl ⟨_, rfl⟩
    · exact helems _ (Nat.succ_pos _) hfits (by omega)
  split
  · -- an object
    split
    · exact .inr rfl
    rename_i hfits
    replace hfits : p.depth + 1 ≤ MAX_DEPTH := Nat.le_of_not_lt hfits
    split
    · rename_i q hempty
      have hq : q.depth = p.depth + 1 := (eat_shorter hempty).2
      exact .bind (.bind (.sub (by omega)) fun _ _ => .inl ⟨_, rfl⟩) fun _ _ => .inl ⟨_, rfl⟩
    · exact hmems _ (Nat.succ_pos _) hfits (by omega)
  · exact .of_option _

theorem answers (fuel : Nat) : AnswersValue fuel ∧ AnswersElements fuel ∧ AnswersMembers fuel := by
  induction fuel with
  | zero =>
    have hnone : ∀ {n : Nat}, ¬n < 0 := Nat.not_lt_zero _
    exact ⟨fun _ h => absurd h hnone, fun _ _ _ h => absurd h hnone, fun _ _ _ h => absurd h hnone⟩
  | succ fuel ih =>
    obtain ⟨hvalue, helems, hmems⟩ := ih
    exact ⟨answers_value helems hmems, answers_elements hvalue helems, answers_members hvalue hmems⟩

theorem parse_within_answers (hfuel : 2 * bytes.length < fuel) :
    Answers (parse_within fuel bytes) .none := by
  have hws := length_ws_le ⟨bytes, 0⟩
  change _ ≤ bytes.length at hws
  refine ((answers fuel).1 (Nat.zero_le _) (by omega)).bind fun ⟨v, p⟩ _ => ?_
  simp only
  split
  · exact .inl ⟨_, rfl⟩
  · exact .inr rfl

/-! ## The documents -/

/-- The reader accepts exactly the documents of the lax grammar, in any number of steps that is
enough. -/
theorem parse_within_iff (hfuel : 2 * bytes.length < fuel) :
    parse_within fuel bytes = .value v ↔ Doc lax bytes v := by
  refine ⟨doc_of_parse, fun h => ?_⟩
  obtain @⟨w, s, w', v, hw, hs, hw'⟩ := h
  rw [length_append, length_append] at hfuel
  have hread : (back ⟨w', 0⟩ (w ++ s)).value fuel = .value (v, ⟨w', 0⟩) := by
    refine complete_value MAX_DEPTH hs hw ?_ (Nat.zero_add _).le (by change _ * (_ + w'.length) < _; omega)
    intro b hb
    exact not_numeral_of_ws (hw' b (mem_of_head? hb))
  have hend : (Parser.ws ⟨w', 0⟩).rest = [] := dropWhile_eq_nil_iff.mpr hw'
  unfold parse_within
  rw [value_ws]
  change ((back ⟨w', 0⟩ (w ++ s)).value fuel >>= _) = _
  rw [hread]
  exact if_pos hend

theorem parse_iff : parse bytes = some v ↔ Doc lax bytes v :=
  ok_eq_some.trans (parse_within_iff (Nat.lt_succ_self _))

end Fors.Lsp
