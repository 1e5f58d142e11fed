import Fors.Authority.Asm

/-!
# The syscall seal

What the literals of an assembly template stand for, and when an accepted `asm` expression keeps
the seal on syscall-class instructions. The check reads the first token of an item and the contents
of an ordinary literal as they are written: a multi-line literal has no words for it, an escape is
not decoded, and a token that the lexer refused, which the parser passes over, hides the literal
behind it.

Principal result: `accepted_sealed_iff`.
-/

namespace Fors.Authority

open Fors.Syntax Fors.Ty List

/-! ## Literals -/

def is_hex (b : UInt8) : Bool :=
  (48 ≤ b ∧ b ≤ 57) ∨ (65 ≤ b ∧ b ≤ 70) ∨ (97 ≤ b ∧ b ≤ 102)

def hex_val (b : UInt8) : Nat :=
  if b ≤ 57 then b.toNat - 48 else if b ≤ 70 then b.toNat - 55 else b.toNat - 87

/-- What an escape stands for and how much there is of it, behind the backslash. -/
def escape : Bytes → Bytes × Nat
  | 110 :: _ => ([10], 1)
  | 114 :: _ => ([13], 1)
  | 116 :: _ => ([9], 1)
  | 48 :: _ => ([0], 1)
  | 92 :: _ => ([92], 1)
  | 34 :: _ => ([34], 1)
  | 120 :: hi :: lo :: _ => ([.ofNat (16 * hex_val hi + hex_val lo)], 3)
  | 117 :: 123 :: rest =>
    let digits := rest.takeWhile is_hex
    let n := digits.foldl (fun n b => 16 * n + hex_val b) 0
    (if n.isValidChar then Utf8.encode [Char.ofNat n] else [], digits.length + 3)
  -- the lexer refuses any other
  | _ => ([], 1)

/-- The lines of a multi-line literal, without the two backslashes, joined by newlines. -/
def multiline_text (text : Bytes) : Bytes :=
  [10].intercalate <| (text.splitOn 10).filterMap fun line =>
    match line.dropWhile is_ascii_whitespace with
    | 92 :: 92 :: rest => some rest
    | _ => none

/-- The text a string literal denotes. -/
def literal_text (f : FileCtx) (tok : Nat) : Bytes :=
  let text := f.tokens.text tok f.source
  match f.tokens.kind tok with
  | .Str => Quoting.denoted 92 escape ((text.drop 1).dropLast)
  | .MultilineStr => multiline_text text
  | _ => []

def is_literal (f : FileCtx) (tok : Nat) : Bool :=
  f.tokens.kind tok = .Str ∨ f.tokens.kind tok = .MultilineStr

/-- The literal of a template item: its first token that the parser sees. -/
def template (f : FileCtx) (item : Nat) : Option Nat :=
  ((f.sig_tokens item).find? fun i => f.tokens.kind i ≠ .Error).filter (is_literal f)

/-! ## The seal -/

section Seal

variable (wf : Wf) (cx : BodyCx) (v : Voice) (node : Nat) (want : Option TyId)

def asm_kids : List Nat :=
  (cx.kids node).filter fun item => cx.kind item = .AsmItem

/-- The item is a template that stands for an instruction of syscall class. -/
def Names (item : Nat) : Prop :=
  ∃ tok, template cx.f item = some tok ∧ mnemonic (literal_text cx.f tok) ∈ SYSCALL_CLASS

/-- What an expression has to be for the authority rules. -/
structure Sealed : Prop where
  holds_asm : cx.f.needs_has [Utf8.bytes "asm"] = true
  audited : wf.in_unsafe_decl cx = true
  at_runtime : cx.in_region .ComptimeBlock = none
  concrete : wf.in_generic_fn cx = false
  words : cx.f.needs_has [Utf8.bytes "syscall"] = false → ∀ item ∈ asm_kids cx node, ¬Names cx item

/-- Neither the expression nor anything before it in the declaration has been reported. -/
def Accepted : Prop :=
  (asm_expr wf cx v node want).1.charged = 0

/-! ### What the check reads -/

/-- The item begins with an ordinary literal that is written with an instruction of syscall
class. -/
def Written (item : Nat) : Prop :=
  ∃ tok, (cx.f.sig_tokens item).head? = some tok ∧ cx.f.tokens.kind tok = .Str ∧
    mnemonic ((cx.f.tokens.text tok cx.f.source).drop 1).dropLast ∈ SYSCALL_CLASS

/-- The item stands for such an instruction, but in a multi-line literal, or with an escape before
the end of its first word, or behind a token that the lexer refused. -/
def Hidden (item : Nat) : Prop :=
  ∃ tok, template cx.f item = some tok ∧ mnemonic (literal_text cx.f tok) ∈ SYSCALL_CLASS ∧
    (cx.f.tokens.kind tok = .MultilineStr ∨
      92 ∈ Quoting.opening is_ascii_whitespace
        ((cx.f.tokens.text tok cx.f.source).drop 1).dropLast ∨
      (cx.f.sig_tokens item).head? ≠ some tok)

/-- The type an expression is wanted at does not take what its `out` items give. -/
def Misfit : Prop :=
  match want with
  | none => True
  | some t => t ≠ TY_ERROR ∧ t ≠ NO_TY ∧
    asm_fits wf ((cx.kids node).countP (item_is_out cx)) t = false

/-- Some rule is against the expression as it is written. -/
def Refused : Prop :=
  cx.f.needs_has [Utf8.bytes "asm"] = false ∨ wf.in_unsafe_decl cx = false ∨
    (cx.f.needs_has [Utf8.bytes "syscall"] = false ∧ ∃ item ∈ asm_kids cx node, Written cx item) ∨
    cx.in_region .ComptimeBlock ≠ none ∨ wf.in_generic_fn cx = true ∨ Misfit wf cx node want

/-- Nothing has been reported when the operands have been typed. -/
def Unspent : Prop :=
  ((asm_operands cx node).foldl wf.synth v).charged = 0

end Seal

variable {wf : Wf} {cx : BodyCx} {v : Voice} {node item : Nat} {want : Option TyId}

theorem mnemonic_nil : mnemonic [] = [] :=
  rfl

theorem nil_not_mem_SYSCALL_CLASS : ([] : Bytes) ∉ SYSCALL_CLASS := by
  decide

variable {tok : Nat}

theorem str_contents_str (h : cx.f.tokens.kind tok = .Str) :
    (cx.f.str_contents tok).getD [] = ((cx.f.tokens.text tok cx.f.source).drop 1).dropLast := by
  unfold FileCtx.str_contents
  rw [if_neg (not_not_intro h)]
  dsimp only
  split
  · rfl
  · rename_i hlen
    have hnil : (cx.f.tokens.text tok cx.f.source).drop 1 = [] :=
      drop_eq_nil_of_le (by omega)
    rw [hnil]
    rfl

theorem str_contents_multiline (h : cx.f.tokens.kind tok = .MultilineStr) :
    (cx.f.str_contents tok).getD [] = [] := by
  unfold FileCtx.str_contents
  rw [if_pos (by rw [h]; decide)]
  rfl

/-- What the check finds in an item is what is written there. -/
theorem exists_item_mnemonic (hkind : cx.kind item = .AsmItem) :
    (∃ m, item_mnemonic cx item = some m ∧ m ∈ SYSCALL_CLASS) ↔ Written cx item := by
  unfold item_mnemonic Written
  rw [if_neg (not_not_intro hkind)]
  cases (cx.f.sig_tokens item).head? with
  | none =>
    constructor
    · rintro ⟨m, hm, -⟩
      cases hm
    · rintro ⟨tok, htok, -⟩
      cases htok
  | some tok =>
    rw [Option.bind_eq_bind, Option.bind_some]
    constructor
    · rintro ⟨m, hm, hclass⟩
      split at hm
      · rename_i hlit
        cases hm
        rcases hlit with hstr | hmulti
        · rw [str_contents_str hstr] at hclass
          exact ⟨tok, rfl, hstr, hclass⟩
        · rw [str_contents_multiline hmulti, mnemonic_nil] at hclass
          exact absurd hclass nil_not_mem_SYSCALL_CLASS
      · cases hm
    · rintro ⟨tok', htok, hstr, hclass⟩
      cases htok
      rw [if_pos (.inl hstr)]
      exact ⟨_, rfl, by rwa [str_contents_str hstr]⟩

/-- An ordinary literal without an escape before the end of its first word begins with that
word. -/
theorem mnemonic_literal_text (hstr : cx.f.tokens.kind tok = .Str)
    (h : 92 ∉ Quoting.opening is_ascii_whitespace
      ((cx.f.tokens.text tok cx.f.source).drop 1).dropLast) :
    mnemonic (literal_text cx.f tok) =
      mnemonic ((cx.f.tokens.text tok cx.f.source).drop 1).dropLast := by
  unfold literal_text mnemonic
  rw [hstr]
  exact congrArg _ (Quoting.first_word_denoted (by decide) h)

theorem not_mem_of_lowercase {word : Bytes} (h : word.map to_ascii_lowercase ∈ SYSCALL_CLASS) :
    92 ∉ word := by
  intro hmem
  have hlower : (92 : UInt8) ∈ word.map to_ascii_lowercase :=
    mem_map.mpr ⟨92, hmem, by decide⟩
  have hclass : ∀ w ∈ SYSCALL_CLASS, (92 : UInt8) ∉ w := by decide
  exact hclass _ h hlower

/-- An item that stands for a syscall-class instruction is written so or hides it. -/
theorem names_iff : Names cx item ↔ Hidden cx item ∨ Written cx item := by
  constructor
  · rintro ⟨tok, htok, hclass⟩
    by_cases hhidden : cx.f.tokens.kind tok = .MultilineStr ∨
        92 ∈ Quoting.opening is_ascii_whitespace
          ((cx.f.tokens.text tok cx.f.source).drop 1).dropLast ∨
        (cx.f.sig_tokens item).head? ≠ some tok
    · exact .inl ⟨tok, htok, hclass, hhidden⟩
    obtain ⟨hmulti, hescape, hhead⟩ :=
      (not_or.trans (and_congr_right' not_or)).mp hhidden
    have hlit := (Option.filter_eq_some_iff.mp htok).2
    have hstr : cx.f.tokens.kind tok = .Str :=
      (of_decide_eq_true hlit).resolve_right hmulti
    exact .inr ⟨tok, not_not.mp hhead, hstr, mnemonic_literal_text hstr hescape ▸ hclass⟩
  · rintro (⟨tok, htok, hclass, -⟩ | ⟨tok, hhead, hstr, hclass⟩)
    · exact ⟨tok, htok, hclass⟩
    have htemplate : template cx.f item = some tok := by
      obtain ⟨rest, hrest⟩ := head?_eq_some_iff.mp hhead
      have hne : cx.f.tokens.kind tok ≠ .Error := by
        rw [hstr]
        decide
      have hfind : (tok :: rest).find? (fun i => decide (cx.f.tokens.kind i ≠ .Error)) = some tok :=
        find?_cons_of_pos (decide_eq_true hne)
      have hlit : is_literal cx.f tok = true := decide_eq_true (.inl hstr)
      rw [template, hrest, hfind, Option.filter_some, if_pos hlit]
    refine ⟨tok, htemplate, ?_⟩
    have hescape : 92 ∉ Quoting.opening is_ascii_whitespace
        ((cx.f.tokens.text tok cx.f.source).drop 1).dropLast := by
      intro hmem
      rcases mem_append.mp hmem with hspace | hword
      · exact absurd (mem_takeWhile_imp hspace) (by decide)
      · exact not_mem_of_lowercase hclass hword
    rw [mnemonic_literal_text hstr hescape]
    exact hclass

variable (cx node) in
/-- The words the check finds in the items. -/
def asm_words : List Bytes :=
  (cx.kids node).filterMap (item_mnemonic cx)

theorem asm_words_iff : (∀ m ∈ asm_words cx node, m ∉ SYSCALL_CLASS) ↔
    ∀ item ∈ asm_kids cx node, ¬Written cx item := by
  constructor
  · intro h item hitem hwritten
    obtain ⟨hmem, hkind⟩ := mem_filter.mp hitem
    obtain ⟨m, hm, hclass⟩ := (exists_item_mnemonic (of_decide_eq_true hkind)).mpr hwritten
    exact h m (mem_filterMap.mpr ⟨item, hmem, hm⟩) hclass
  · intro h m hm hclass
    obtain ⟨item, hmem, hm⟩ := mem_filterMap.mp hm
    have hkind : cx.kind item = .AsmItem := by
      by_contra hne
      rw [item_mnemonic, if_pos hne] at hm
      cases hm
    exact h item (mem_filter.mpr ⟨hmem, decide_eq_true hkind⟩)
      ((exists_item_mnemonic hkind).mp ⟨m, hm, hclass⟩)

/-- The expression is refused when it has a fault or is not of the type it is wanted at. -/
theorem refused_iff : Refused wf cx node want ↔
    ¬(asm_fault wf cx (asm_words cx node) = none ∧ ¬Misfit wf cx node want) := by
  rw [asm_fault_eq_none, asm_words_iff]
  have hsyscall : cx.f.needs_has [Utf8.bytes "syscall"] = false ∧
        (∃ item ∈ asm_kids cx node, Written cx item) ↔
      ¬((∀ item ∈ asm_kids cx node, ¬Written cx item) ∨
        cx.f.needs_has [Utf8.bytes "syscall"] = true) := by
    rw [not_or, Bool.not_eq_true, and_comm]
    simp
  unfold Refused
  rw [hsyscall, ← Bool.not_eq_true, ← Bool.not_eq_true, ← Bool.not_eq_false (wf.in_generic_fn cx)]
  tauto

/-- What is charged after the expression: what its operands were, and what is heard of a
refusal. -/
theorem accepted_iff : Accepted wf cx v node want ↔
    Unspent wf cx v node ∧ (0 < v.quiet ∨ ¬Refused wf cx node want) := by
  have hquiet : ((asm_operands cx node).foldl wf.synth v).quiet = v.quiet := quiet_foldl_synth _
  have hsaid : ∀ {P Q : Prop}, Q → (P ∧ 0 < v.quiet ↔ P ∧ (0 < v.quiet ∨ ¬Q)) := fun hq =>
    and_congr_right' (or_iff_left (not_not_intro hq)).symm
  have hsilent : ∀ {P Q : Prop}, ¬Q → (P ↔ P ∧ (0 < v.quiet ∨ ¬Q)) := fun hq =>
    (and_iff_left (.inr hq)).symm
  unfold Accepted Unspent asm_expr
  rw [asm_items_spec]
  dsimp only
  cases hfault : asm_fault wf cx ((cx.kids node).filterMap (item_mnemonic cx)) with
  | some fault =>
    have href : Refused wf cx node want :=
      refused_iff.mpr fun h => by rw [asm_words, hfault] at h; cases h.1
    dsimp only
    rw [charged_bemit_code, hquiet]
    exact hsaid href
  | none =>
    have hfits : Refused wf cx node want ↔ Misfit wf cx node want := by
      rw [refused_iff, asm_words, and_iff_right hfault, not_not]
    rw [hfits]
    cases want with
    | none =>
      dsimp only
      rw [charged_bemit_code, hquiet]
      exact hsaid trivial
    | some t =>
      dsimp only
      by_cases herr : t = TY_ERROR ∨ t = NO_TY
      · rw [if_pos herr]
        exact hsilent fun h => herr.elim h.1 h.2.1
      · rw [if_neg herr]
        cases hfit : asm_fits wf ((cx.kids node).countP (item_is_out cx)) t with
        | true =>
          rw [if_pos rfl]
          exact hsilent fun h => Bool.noConfusion (hfit.symm.trans h.2.2)
        | false =>
          rw [if_neg Bool.false_ne_true, charged_bemit_code, hquiet]
          exact hsaid ⟨fun h => herr (.inl h), fun h => herr (.inr h), hfit⟩

/-- An accepted expression keeps the seal exactly when no report was missed and nothing is hidden
from it: something was reported already, or the expression is refused aloud, or it is where the
rules have it and, unless the module may use syscalls, no item hides such an instruction or, where
the check is not heard, is written with one. -/
theorem accepted_sealed_iff : (Accepted wf cx v node want → Sealed wf cx node) ↔
    ¬Unspent wf cx v node ∨ (v.quiet = 0 ∧ Refused wf cx node want) ∨
      (cx.f.needs_has [Utf8.bytes "asm"] = true ∧ wf.in_unsafe_decl cx = true ∧
        cx.in_region .ComptimeBlock = none ∧ wf.in_generic_fn cx = false ∧
        (cx.f.needs_has [Utf8.bytes "syscall"] = true ∨
          ∀ item ∈ asm_kids cx node, ¬Hidden cx item ∧ ¬Written cx item)) := by
  have hsealed : Sealed wf cx node ↔
      cx.f.needs_has [Utf8.bytes "asm"] = true ∧ wf.in_unsafe_decl cx = true ∧
        cx.in_region .ComptimeBlock = none ∧ wf.in_generic_fn cx = false ∧
        (cx.f.needs_has [Utf8.bytes "syscall"] = true ∨
          ∀ item ∈ asm_kids cx node, ¬Hidden cx item ∧ ¬Written cx item) := by
    have hwords : ∀ item, ¬Names cx item ↔ ¬Hidden cx item ∧ ¬Written cx item := fun item =>
      (not_congr names_iff).trans not_or
    simp only [← hwords]
    constructor
    · intro h
      refine ⟨h.holds_asm, h.audited, h.at_runtime, h.concrete, ?_⟩
      cases hsys : cx.f.needs_has [Utf8.bytes "syscall"] with
      | true => exact .inl rfl
      | false => exact .inr (h.words hsys)
    · rintro ⟨hasm, hunsafe, hruntime, hconcrete, hwords⟩
      exact ⟨hasm, hunsafe, hruntime, hconcrete, fun hsys =>
        hwords.resolve_left (by rw [hsys]; exact Bool.false_ne_true)⟩
  rw [hsealed, accepted_iff, Nat.pos_iff_ne_zero]
  tauto

/-! ## A smuggled instruction -/

/-- A module without `syscall`, with one audited function and a multi-line template in it. -/
def smuggled_source : Bytes :=
  Utf8.bytes ("module a;\nneeds \x7b asm \x7d;\n@unsafe(invariant: \"i\")\nfn f() \x7b " ++
    "asm(aarch64) \x7b\n\\\\svc 0\n\x7d; \x7d\n")

def smuggled_tokens : Tokens where
  kinds := [.KwModule, .Whitespace, .Ident, .Semi, .Whitespace, .Ident, .Whitespace, .LBrace,
    .Whitespace, .KwAsm, .Whitespace, .RBrace, .Semi, .Whitespace, .At, .Ident, .LParen, .Ident,
    .Colon, .Whitespace, .Str, .RParen, .Whitespace, .KwFn, .Whitespace, .Ident, .LParen, .RParen,
    .Whitespace, .LBrace, .Whitespace, .KwAsm, .LParen, .Ident, .RParen, .Whitespace, .LBrace,
    .Whitespace, .MultilineStr, .Whitespace, .RBrace, .Semi, .Whitespace, .RBrace, .Whitespace,
    .Eof]
  starts := [0, 6, 7, 8, 9, 10, 15, 16, 17, 18, 21, 22, 23, 24, 25, 26, 32, 33, 42, 43, 44, 47, 48,
    49, 51, 52, 53, 54, 55, 56, 57, 58, 61, 62, 69, 70, 71, 72, 73, 80, 81, 82, 83, 84, 85, 86, 86]
  length_starts := by decide
  sorted := by decide

def smuggled_tree : Syntax.Tree NodeKind :=
  [⟨.File, 0, 46, 15⟩, ⟨.ModuleHdr, 0, 4, 2⟩, ⟨.Path, 1, 2, 1⟩, ⟨.NeedsClause, 4, 9, 2⟩,
    ⟨.Path, 8, 2, 1⟩, ⟨.FnDecl, 13, 31, 10⟩, ⟨.Attribute, 13, 9, 3⟩, ⟨.AttrArg, 17, 4, 2⟩,
    ⟨.Literal, 19, 2, 1⟩, ⟨.FnSig, 22, 6, 2⟩, ⟨.Params, 26, 2, 1⟩, ⟨.Block, 28, 16, 4⟩,
    ⟨.ExprStmt, 30, 12, 3⟩, ⟨.AsmExpr, 30, 11, 2⟩, ⟨.AsmItem, 37, 2, 1⟩]

def smuggled_cx : BodyCx where
  f := ⟨0, smuggled_tree, smuggled_tokens, smuggled_source, by decide⟩
  owner := 0
  file := 0
  start := 5
  fin := 15
  regions := []

def smuggled_wf : Wf where
  defs := ⟨[some ⟨0, .Fn, none, NO_DEF, 5⟩], 0⟩
  tys := ⟨[], [], [], [], [], [], [], [], [], .new, .new, .new, .new, .new, .new, .new⟩
  show_ty _ := ""
  synth v _ := v
  synth_quiet _ _ := rfl

def silent : Voice :=
  ⟨0, [], 0, [], fun _ => rfl⟩

/-- `svc` in a multi-line literal is accepted in a module that holds `asm` alone. -/
theorem smuggled_accepted :
    ¬∀ (wf : Wf) (cx : BodyCx) (v : Voice) (node : Nat) (want : Option TyId),
      Accepted wf cx v node want → Sealed wf cx node := by
  intro h
  have haccepted : Accepted smuggled_wf smuggled_cx silent 13 (some TY_UNIT) := by
    unfold Accepted
    decide +kernel
  refine (h _ _ _ _ _ haccepted).words (by decide +kernel) 14 (by decide +kernel) ⟨38, ?_, ?_⟩
  · decide +kernel
  · decide +kernel

end Fors.Authority
