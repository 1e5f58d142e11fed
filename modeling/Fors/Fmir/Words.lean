import Fors.Fmir.Print
import Fors.Fmir.Reading

/-!
# Written words read back

Every word that a listing is written with is read as what it stands for, and the lines of a
written text are the lines that were written.

Principal result: `text_lines_text_of`.
-/

namespace Fors.Fmir

open Numerals Text Runs List

/-! ## Plain words -/

/-- Neither white space nor the start of a comment. -/
def plain_char (c : Char) : Bool :=
  ! is_whitespace c && c != '/'

/-- A word that a line can hold. -/
def Plain (w : String) : Prop :=
  w.toList ≠ [] ∧ w.toList.all plain_char = true

theorem Plain.append {v w : String} (hv : Plain v) (hw : w.toList.all plain_char = true) :
    Plain (v ++ w) := by
  refine ⟨?_, ?_⟩
  · rw [String.toList_append]
    exact append_ne_nil_of_left_ne_nil hv.1 _
  · rw [String.toList_append, all_append, hv.2, hw]
    rfl

theorem digits_plain (n : Nat) : (Nat.toDigits 10 n).all plain_char = true := by
  have hdigit : ∀ d < 10, plain_char d.digitChar = true := by decide
  refine all_eq_true.mpr fun c hc => ?_
  obtain ⟨d, hd, rfl⟩ := mem_toDigits (by omega : 1 < 10) hc
  exact hdigit d hd

theorem repr_plain (n : Nat) : Plain (Nat.repr n) := by
  refine ⟨?_, ?_⟩
  · rw [Nat.toList_repr]
    exact Nat.toDigits_ne_nil
  · rw [Nat.toList_repr]
    exact digits_plain n

theorem int_plain (v : Int64) : Plain (toString v) := by
  change Plain (toString v.toInt)
  cases v.toInt with
  | ofNat n => exact repr_plain n
  | negSucc n => exact Plain.append (v := "-") ⟨by decide, by decide⟩ (repr_plain (n + 1)).2

theorem Slot.word_plain (slot : Slot) (v : UInt32) : Plain (slot.word v) := by
  cases slot with
  | val => exact Plain.append (v := "%v") ⟨by decide, by decide⟩ (repr_plain v.toNat).2
  | block => exact Plain.append (v := "bb") ⟨by decide, by decide⟩ (repr_plain v.toNat).2
  | inst => exact Plain.append (v := "%inst") ⟨by decide, by decide⟩ (repr_plain v.toNat).2
  | region => exact Plain.append (v := "r") ⟨by decide, by decide⟩ (repr_plain v.toNat).2
  | kind =>
    refine Plain.append (v := "kind=") ⟨by decide, by decide⟩ ?_
    cases TrapKind.from_u32 v with
    | none => decide
    | some kind => cases kind <;> decide

theorem num_plain (v : UInt32) : Plain (toString v) :=
  repr_plain v.toNat

theorem unsupported_plain (n : UInt32) : Plain s!"unsupported({n})" := by
  refine Plain.append (v := "unsupported(" ++ toString n) ?_ (by decide)
  exact Plain.append (v := "unsupported(") ⟨by decide, by decide⟩ (num_plain n).2

theorem mnemonic_plain (op : Op) : Plain (mnemonic op) := by
  cases op
  case Add m | Sub m | Mul m | Div m | Rem m | Shl m | Shr m | Neg m =>
    cases m <;> exact ⟨by decide, by decide⟩
  case Fadd | Fsub | Fmul | Fdiv | Frem | Fneg | Icmp | Fcmp => exact unsupported_plain _
  case CheckPre => exact (⟨by decide, by decide⟩ : Plain "check_pre")
  case CheckPost => exact (⟨by decide, by decide⟩ : Plain "check_post")
  case CheckInv => exact (⟨by decide, by decide⟩ : Plain "check_inv")
  all_goals exact ⟨by decide, by decide⟩

theorem SwitchArm.word_plain (arm : SwitchArm) : Plain arm.word :=
  ((int_plain arm.value).append (by decide)).append (num_plain arm.target).2

theorem Operands.words_plain (o : Operands) : ∀ w ∈ o.words, Plain w := by
  intro w hw
  cases o with
  | slots vs =>
    obtain ⟨v, -, rfl⟩ := mem_map.mp hw
    exact v.1.word_plain v.2
  | call sym args =>
    obtain rfl | hw := mem_cons.mp hw
    · exact Plain.append (v := "@") ⟨by decide, by decide⟩ (num_plain sym).2
    · obtain ⟨v, -, rfl⟩ := mem_map.mp hw
      exact Slot.val.word_plain v
  | switch discr default arms =>
    obtain rfl | hw := mem_cons.mp hw
    · exact Slot.val.word_plain discr
    obtain rfl | hw := mem_cons.mp hw
    · exact Slot.block.word_plain default
    · obtain ⟨arm, -, rfl⟩ := mem_map.mp hw
      exact arm.word_plain

theorem policy_words_plain (op : Op) : ∀ w ∈ policy_words op, Plain w := by
  intro w hw
  unfold policy_words at hw
  split at hw
  · rw [mem_singleton.mp hw]
    exact ⟨by decide, by decide⟩
  · rw [mem_singleton.mp hw]
    exact ⟨by decide, by decide⟩
  · rw [mem_singleton.mp hw]
    exact ⟨by decide, by decide⟩
  · cases hw

theorem SeedSpec.words_plain (seed : SeedSpec) : ∀ w ∈ seed.words, Plain w := by
  have hseed : Plain "seed" := ⟨by decide, by decide⟩
  intro w hw
  cases seed with
  | None => cases hw
  | Conv c =>
    obtain rfl | rfl := mem_pair.mp hw
    · exact hseed
    · cases c <;> exact ⟨by decide, by decide⟩
  | Own root =>
    obtain rfl | rfl := mem_pair.mp hw
    · exact hseed
    · exact Plain.append (v := "own") ⟨by decide, by decide⟩ (num_plain root).2
  | Arena id =>
    obtain rfl | rfl := mem_pair.mp hw
    · exact hseed
    · exact Plain.append (v := "arena") ⟨by decide, by decide⟩ (num_plain id).2
  | Split root side =>
    obtain rfl | rfl := mem_pair.mp hw
    · exact hseed
    · refine Plain.append (v := "split" ++ toString root ++ ",") ?_ (repr_plain side.toNat).2
      exact (Plain.append (v := "split") ⟨by decide, by decide⟩ (num_plain root).2).append
        (by decide)

theorem ct_tok_plain (ct : UInt16) : Plain (ct_tok ct) := by
  unfold ct_tok
  split
  · exact ⟨by decide, by decide⟩
  · exact Plain.append (v := "ct=") ⟨by decide, by decide⟩ (repr_plain ct.toNat).2

theorem secret_tok_plain (flags : UInt16) : Plain (secret_tok flags) := by
  unfold secret_tok
  split
  · exact ⟨by decide, by decide⟩
  · split <;> exact ⟨by decide, by decide⟩

theorem Typed.words_plain (v : Typed) : ∀ w ∈ v.words, Plain w := by
  simp only [Typed.words, forall_mem_cons]
  exact ⟨⟨by decide, by decide⟩, num_plain v.ty, secret_tok_plain v.flags, ct_tok_plain v.ct,
    fun _ hw => absurd hw not_mem_nil⟩

/-- A line that can be written: words, and at least one. -/
def PlainLine (ws : List String) : Prop :=
  ws ≠ [] ∧ ∀ w ∈ ws, Plain w

theorem Line.inst_words_plain (l : Line) : ∀ w ∈ l.inst_words, Plain w := by
  simp only [Line.inst_words, forall_mem_cons, forall_mem_append]
  exact ⟨mnemonic_plain l.op, l.operands.words_plain, policy_words_plain l.op⟩

theorem Line.words_plain (next : Nat) (l : Line) : PlainLine (l.words next) := by
  unfold Line.words
  split
  · rename_i v seed _ _
    refine ⟨cons_ne_nil _ _, ?_⟩
    simp only [forall_mem_cons, forall_mem_append]
    refine ⟨⟨by decide, by decide⟩, Slot.val.word_plain _, ⟨by decide, by decide⟩,
      ⟨l.inst_words_plain, v.words_plain⟩, ?_⟩
    split
    · exact seed.words_plain
    · exact fun _ hw => absurd hw not_mem_nil
  · refine ⟨cons_ne_nil _ _, ?_⟩
    rw [forall_mem_cons]
    exact ⟨⟨by decide, by decide⟩, l.inst_words_plain⟩

theorem line_words_plain (next : Nat) (ls : List Line) : ∀ ws ∈ line_words next ls, PlainLine ws := by
  induction ls generalizing next with
  | nil => exact fun _ hws => nomatch hws
  | cons l ls ih =>
    rw [line_words, forall_mem_cons]
    exact ⟨l.words_plain next, ih _⟩

theorem block_words_plain (b next : Nat) (blocks : List (List Line)) :
    ∀ ws ∈ block_words b next blocks, PlainLine ws := by
  induction blocks generalizing b next with
  | nil => exact fun _ hws => nomatch hws
  | cons ls blocks ih =>
    rw [block_words, forall_mem_cons, forall_mem_append]
    refine ⟨⟨cons_ne_nil _ _, ?_⟩, line_words_plain next ls, ih _ _⟩
    simp only [forall_mem_cons]
    exact ⟨⟨by decide, by decide⟩, Slot.block.word_plain _, fun _ hw => nomatch hw⟩

theorem CaptureRow.word_plain (cap : CaptureRow) : Plain cap.word := by
  have hconv : (conv_str cap.conv).toList.all plain_char = true := by
    cases cap.conv <;> decide
  exact ((Slot.val.word_plain cap.value).append (by decide)).append hconv

theorem RegionLine.words_plain (id : RegionId) (line : RegionLine) : PlainLine (line.words id) := by
  refine ⟨cons_ne_nil _ _, ?_⟩
  have hkind : Plain line.kind.word := by
    cases line.kind <;> exact ⟨by decide, by decide⟩
  unfold RegionLine.words
  simp only [forall_mem_cons]
  refine ⟨⟨by decide, by decide⟩, Slot.region.word_plain id, hkind, ?_⟩
  split
  · exact fun _ hw => nomatch hw
  · rw [forall_mem_cons]
    refine ⟨⟨by decide, by decide⟩, ?_⟩
    intro w hw
    obtain ⟨cap, -, rfl⟩ := mem_map.mp hw
    exact cap.word_plain

theorem ParamLine.words_plain (id : ValId) (param : ParamLine) : PlainLine (param.words id) := by
  refine ⟨cons_ne_nil _ _, ?_⟩
  simp only [ParamLine.words, forall_mem_append, forall_mem_cons]
  exact ⟨⟨⟨by decide, by decide⟩, Slot.val.word_plain id, ⟨by decide, by decide⟩,
    ⟨by decide, by decide⟩, repr_plain param.ordinal.toNat, fun _ hw => nomatch hw⟩,
    param.typed.words_plain⟩

theorem Listing.words_plain (r : Listing) : ∀ ws ∈ r.words, PlainLine ws := by
  simp only [Listing.words, forall_mem_cons, forall_mem_append]
  refine ⟨⟨cons_ne_nil _ _, ?_⟩, ⟨?_, ?_⟩, block_words_plain _ _ _⟩
  · simp only [Listing.decl_words, forall_mem_append, forall_mem_cons]
    refine ⟨⟨⟨by decide, by decide⟩, num_plain r.decl, ⟨by decide, by decide⟩, num_plain r.sig,
      fun _ hw => nomatch hw⟩, ?_⟩
    intro w hw
    split at hw
    · rw [mem_singleton.mp hw]
      exact ⟨by decide, by decide⟩
    · cases hw
  · intro ws hws
    obtain ⟨p, -, rfl⟩ := mem_map.mp hws
    exact p.2.words_plain p.1
  · intro ws hws
    obtain ⟨p, -, rfl⟩ := mem_map.mp hws
    exact p.2.words_plain p.1

/-! ## Written lines -/

theorem strip_comment_plain {cs : List Char} (h : ∀ c ∈ cs, c ≠ '/') : strip_comment cs = cs := by
  induction cs with
  | nil => rfl
  | cons c cs ih =>
    rw [strip_comment, ih fun c hc => h c (mem_cons_of_mem _ hc)]
    rintro cs' rfl -
    exact h '/' mem_cons_self rfl

theorem toList_behind (ws : List String) :
    (behind ws).toList = spaced (ws.map String.toList) := by
  induction ws with
  | nil => rfl
  | cons w ws ih =>
    rw [behind_cons, String.toList_append, String.toList_append, ih]
    rfl

/-- A written text has the lines that were written. -/
theorem text_lines_text_of {ls : List (List String)} (h : ∀ ws ∈ ls, PlainLine ws) :
    text_lines (text_of ls) = ls := by
  have hline : ∀ ws ∈ ls, ∃ cs, (line_text ws).toList = cs ++ ['\n'] ∧
      (∀ c ∈ cs, c ≠ '\n' ∧ c ≠ '\r') ∧ (words (strip_comment cs)).map String.ofList = ws := by
    intro ws hws
    obtain ⟨hne, hplain⟩ := h ws hws
    obtain ⟨w, ws, rfl⟩ := exists_cons_of_ne_nil hne
    rw [forall_mem_cons] at hplain
    have hword {w : String} (hw : Plain w) : Word w.toList := by
      refine ⟨hw.1, fun c hc => ?_⟩
      have hc := all_eq_true.mp hw.2 c hc
      simp only [plain_char, Bool.and_eq_true, Bool.not_eq_true'] at hc
      exact hc.1
    have hslash {w : String} (hw : Plain w) : ∀ c ∈ w.toList, c ≠ '/' := by
      intro c hc
      have hc := all_eq_true.mp hw.2 c hc
      simp only [plain_char, Bool.and_eq_true, bne_iff_ne] at hc
      exact hc.2
    have hmem {c : Char} (hc : c ∈ w.toList ++ spaced (ws.map String.toList)) :
        c = ' ' ∨ ∃ v, Plain v ∧ c ∈ v.toList := by
      obtain hc | hc := mem_append.mp hc
      · exact .inr ⟨w, hplain.1, hc⟩
      · obtain ⟨v, hv, hc⟩ := mem_flatMap.mp hc
        obtain ⟨u, hu, rfl⟩ := mem_map.mp hv
        obtain rfl | hc := mem_cons.mp hc
        · exact .inl rfl
        · exact .inr ⟨u, hplain.2 u hu, hc⟩
    refine ⟨w.toList ++ spaced (ws.map String.toList), ?_, ?_, ?_⟩
    · rw [line_text, String.toList_append, String.toList_append, toList_behind]
      rfl
    · intro c hc
      obtain rfl | ⟨v, hv, hc⟩ := hmem hc
      · decide
      · exact is_whitespace_of_line_end ((hword hv).2 c hc)
    · rw [strip_comment_plain, words_append_spaced (hword hplain.1)]
      · simp
      · intro v hv
        obtain ⟨u, hu, rfl⟩ := mem_map.mp hv
        exact hword (hplain.2 u hu)
      · intro c hc
        obtain rfl | ⟨v, hv, hc⟩ := hmem hc
        · decide
        · exact hslash hv c hc
  clear h
  unfold text_lines
  induction ls with
  | nil => rfl
  | cons ws ls ih =>
    obtain ⟨cs, htext, hcs, hwords⟩ := hline ws mem_cons_self
    have ih := ih fun ws hws => hline ws (mem_cons_of_mem _ hws)
    rw [text_of_cons, String.toList_append, htext, append_assoc, singleton_append,
      lines_append_newline hcs, map_cons, hwords, ih]

end Fors.Fmir
