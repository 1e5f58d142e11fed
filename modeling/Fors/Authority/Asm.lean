import Fors.Authority.Decls
import Fors.Lib.Quoting
import Fors.Lib.Utf8

/-!
# Inline assembly

The check of an `asm` expression: what it reads of the expression's items, the chain of its faults,
and how a fault is said. A body says nothing while it reads on speculation, says one thing a node
and is charged for what it says; the budget of a declaration is one diagnostic.

Typing an operand is the rest of the body checker. It is a parameter, and may do to the body's voice
whatever it likes but leave it more or less quiet than it was.

Source: `crates/fors-check/src/authority.rs`. Principal results: `asm_items_spec` and
`asm_fault_eq_none`.
-/

namespace Fors.Authority

open Fors.Syntax Fors.Ty List

/-! ## What a body says -/

def PER_DECL_BUDGET : Nat := 1

/-- The sink, and what of a body's context says whether it is heard. -/
structure Voice where
  quiet : Nat
  /-- The nodes that have produced a diagnostic. -/
  diagnosed : List Nat
  /-- How many diagnostics the declaration has produced. -/
  charged : Nat
  out : List Diagnostic
  marked : charged = 0 → diagnosed = []

def Voice.poisoned (v : Voice) : Bool :=
  PER_DECL_BUDGET ≤ v.charged

structure BodyCx where
  f : FileCtx
  owner : DefId
  file : Nat
  /-- The nodes of the declaration: `start .. fin`. -/
  start : Nat
  fin : Nat
  /-- The enclosing lexical regions, the innermost last. -/
  regions : List (NodeKind × Nat)

namespace BodyCx

variable (cx : BodyCx)

def inside (node : Nat) : Bool :=
  cx.start ≤ node ∧ node < cx.fin

/-- The declaration node this body belongs to. -/
def decl_node : Nat :=
  cx.start

def in_region (k : NodeKind) : Option Nat :=
  ((cx.regions.reverse.find? fun r => r.1 = k)).map Prod.snd

def kind (node : Nat) : NodeKind :=
  cx.f.tree.kind node

def kids (node : Nat) : List Nat :=
  cx.f.tree.children node

/-- `bemit_code`: nothing while the body is quiet, and one diagnostic a node. -/
def bemit_code (v : Voice) (node : Nat) (code : Code) (site : Nat) (message : String) : Voice :=
  if 0 < v.quiet then v
  else if cx.inside node ∧ node ∈ v.diagnosed then v
  else
    { v with
      diagnosed := if cx.inside node then node :: v.diagnosed else v.diagnosed
      charged := if v.poisoned then v.charged else v.charged + 1
      out := if v.poisoned then v.out
        else v.out ++ [⟨cx.file, cx.f.byte_range node, code, site, message⟩]
      marked := by
        intro hcharged
        unfold Voice.poisoned PER_DECL_BUDGET at hcharged
        split at hcharged
        · rename_i h
          have := of_decide_eq_true h
          omega
        · omega }

end BodyCx

/-! ## The checker -/

structure Wf where
  defs : DefTable
  tys : TyStore
  /-- `show`: the text of a type. -/
  show_ty : TyId → String
  /-- `synth`, as far as what it says goes. -/
  synth : Voice → Nat → Voice
  synth_quiet : ∀ v e, (synth v e).quiet = v.quiet

namespace Wf

variable (wf : Wf) (cx : BodyCx)

/-! ### Types -/

def tag (t : TyId) : TyTag :=
  ((wf.tys.rows[t]?).map TyRow.tag).getD .Error

def unqual (t : TyId) : TyId :=
  ((wf.tys.rows[t]?).map TyRow.unqual).getD TY_ERROR

def prims : List PrimKind :=
  [.I8, .I16, .I32, .I64, .Isize, .U8, .U16, .U32, .U64, .Usize, .F32, .F64, .Bool, .Str, .RawPtr]

/-- The primitive of a row: `PrimKind::from_u8(a as u8)`. -/
def prim_of (t : TyId) : Option PrimKind :=
  prims[((wf.tys.rows[t]?).map TyRow.a).getD 0 % 2 ^ 8]?

def args_vec (t : TyId) : List TyId :=
  ((wf.tys.rows[t]?).bind fun row => wf.tys.args_at row.b).getD []

def is_integer : PrimKind → Bool
  | .I8 | .I16 | .I32 | .I64 | .Isize | .U8 | .U16 | .U32 | .U64 | .Usize => true
  | _ => false

def is_float : PrimKind → Bool
  | .F32 | .F64 => true
  | _ => false

/-- A scalar or pointer type: what fits one register. -/
def register_ty (t : TyId) : Bool :=
  let bare := wf.unqual t
  wf.tag bare = .Prim && (wf.prim_of bare).any fun p =>
    is_integer p || is_float p || p = .Bool || p = .RawPtr

/-! ### Declarations -/

def decl_parent_node : Option Nat := do
  let row ← wf.defs.get cx.owner
  let p ← wf.defs.get row.parent
  return p.node

end Wf

/-- Whether `node` or the `impl` or `trait` it sits in declares generic parameters. -/
def generic_decl (f : FileCtx) (node : Nat) (parent : Option Nat) : Bool :=
  let has (n : Nat) := (f.tree.children n).any fun c =>
    f.tree.kind c = .Generics ||
      (f.tree.kind c = .FnSig && (f.tree.children c).any fun g => f.tree.kind g = .Generics)
  has node || parent.any has

/-- Whether the declaration or the `impl` it sits in carries `@unsafe`. -/
def unsafe_decl (f : FileCtx) (node : Nat) (parent : Option Nat) : Bool :=
  f.decl_has_attr node (Utf8.bytes "unsafe") ||
    parent.any fun p => f.decl_has_attr p (Utf8.bytes "unsafe")

namespace Wf

variable (wf : Wf) (cx : BodyCx)

def in_generic_fn : Bool :=
  generic_decl cx.f cx.decl_node (wf.decl_parent_node cx)

def in_unsafe_decl : Bool :=
  unsafe_decl cx.f cx.decl_node (wf.decl_parent_node cx)

end Wf

/-! ## The items -/

/-- The syscall-class instruction mnemonics. -/
def SYSCALL_CLASS : List Bytes :=
  ["svc", "syscall", "sysenter", "int"].map Utf8.bytes

def is_ascii_whitespace (b : UInt8) : Bool :=
  b = 32 ∨ b = 9 ∨ b = 10 ∨ b = 12 ∨ b = 13

def to_ascii_lowercase (b : UInt8) : UInt8 :=
  if 65 ≤ b ∧ b ≤ 90 then b + 32 else b

/-- The first word of a text, in lower case. -/
def mnemonic (text : Bytes) : Bytes :=
  (Quoting.first_word is_ascii_whitespace text).map to_ascii_lowercase

/-- What the loop over the items has collected. -/
structure Items where
  outs : Nat
  mnemonics : List Bytes
  voice : Voice

/-- One round of that loop. -/
def asm_item (wf : Wf) (cx : BodyCx) (r : Items) (item : Nat) : Items :=
  if cx.kind item ≠ .AsmItem then r
  else match (cx.f.sig_tokens item).head? with
    | none => r
    | some first =>
      match cx.f.tokens.kind first with
      | .Str | .MultilineStr =>
        { r with mnemonics := r.mnemonics ++ [mnemonic ((cx.f.str_contents first).getD [])] }
      -- the operand is an ordinary value
      | .KwIn => { r with voice := (cx.kids item).foldl wf.synth r.voice }
      | .Ident =>
        if cx.f.tokens.text first cx.f.source = Utf8.bytes "out" then { r with outs := r.outs + 1 }
        else r
      | _ => r

def asm_items (wf : Wf) (cx : BodyCx) (v : Voice) (node : Nat) : Items :=
  (cx.kids node).foldl (asm_item wf cx) ⟨0, [], v⟩

/-! ## The expression -/

section Expression

variable (wf : Wf) (cx : BodyCx)

/-- The text of a mnemonic. -/
def word_text (m : Bytes) : String :=
  String.ofList (m.map fun b => Char.ofNat b.toNat)

/-- The rule an expression with these mnemonics is at fault with, and what is said about it. -/
def asm_fault (mnemonics : List Bytes) : Option (Nat × String) :=
  if !cx.f.needs_has [Utf8.bytes "asm"] then
    some (22, "inline assembly needs the sealed capability `asm` in this module's own `needs` " ++
      "(ch04 R22)")
  else if !wf.in_unsafe_decl cx then
    some (22, "inline assembly may appear only inside a declaration marked " ++
      "`@unsafe(invariant: \"...\")` (ch04 R22, R10)")
  else match mnemonics.find? (· ∈ SYSCALL_CLASS), cx.f.needs_has [Utf8.bytes "syscall"] with
    | some m, false =>
      some (23, "`" ++ word_text m ++ "` is a syscall-class instruction: it needs the sealed " ++
        "capability `syscall` in this module's own `needs` as well as `asm` (ch04 R23)")
    | _, _ =>
      if (cx.in_region .ComptimeBlock).isSome then
        some (2, "comptime evaluation would reach a sealed operation, inline assembly " ++
          "(ch04 R2a, R12)")
      else if wf.in_generic_fn cx then
        some (2, "inline assembly is a sealed operation and must not appear in a generic " ++
          "function (ch04 R2a)")
      else none

/-- Whether `outs` results are what a value of type `want` takes. -/
def asm_fits (outs : Nat) (want : TyId) : Bool :=
  match outs with
  | 0 => want = TY_UNIT
  | 1 => wf.register_ty want
  | n =>
    let bare := wf.unqual want
    wf.tag bare = .Tuple && (wf.args_vec bare).length = n && (wf.args_vec bare).all wf.register_ty

def asm_shape (outs : Nat) : String :=
  match outs with
  | 0 => "`()`, since it has no `out` item"
  | 1 => "a scalar or pointer type that fits its one `out` register"
  | n => "a tuple of " ++ toString n ++ " scalar or pointer types, one per `out` item"

/-- `want` is the expected type, and `none` where the type is synthesised. -/
def asm_expr (v : Voice) (node : Nat) (want : Option TyId) : Voice × TyId :=
  let r := asm_items wf cx v node
  match asm_fault wf cx r.mnemonics with
  | some (rule, msg) => (cx.bemit_code r.voice node (.A rule) 27 msg, TY_ERROR)
  | none =>
    match want with
    | none =>
      (cx.bemit_code r.voice node (.A 27) 27
        ("an `asm` expression takes its type only from an expected type: annotate the binding, " ++
          "or use it as a statement (ch04 R27)"), TY_ERROR)
    | some want =>
      if want = TY_ERROR ∨ want = NO_TY then (r.voice, TY_ERROR)
      else if asm_fits wf r.outs want then (r.voice, want)
      else
        (cx.bemit_code r.voice node (.A 27) 27
          ("this `asm` expression is expected to be `" ++ wf.show_ty want ++
            "`, but its type must be " ++ asm_shape r.outs ++ " (ch04 R27)"), TY_ERROR)

end Expression

/-! ## What is said of it -/

section Said

variable {wf : Wf} {cx : BodyCx} {v : Voice} {node : Nat}

/-- A report is heard unless the body is quiet or has been charged. -/
theorem charged_bemit_code {code : Code} {site : Nat} {message : String} :
    (cx.bemit_code v node code site message).charged = 0 ↔ v.charged = 0 ∧ 0 < v.quiet := by
  unfold BodyCx.bemit_code
  by_cases hquiet : 0 < v.quiet
  · rw [if_pos hquiet]
    exact ⟨fun h => ⟨h, hquiet⟩, And.left⟩
  rw [if_neg hquiet]
  by_cases hmark : cx.inside node ∧ node ∈ v.diagnosed
  · rw [if_pos hmark]
    refine ⟨fun h => ?_, fun h => absurd h.2 hquiet⟩
    rw [v.marked h] at hmark
    exact absurd hmark.2 not_mem_nil
  · rw [if_neg hmark]
    refine ⟨fun h => ?_, fun h => absurd h.2 hquiet⟩
    dsimp only at h
    unfold Voice.poisoned PER_DECL_BUDGET at h
    split at h
    · rename_i hle
      have := of_decide_eq_true hle
      omega
    · omega

theorem quiet_foldl_synth (es : List Nat) : (es.foldl wf.synth v).quiet = v.quiet := by
  induction es generalizing v with
  | nil => rfl
  | cons e es ih => rw [foldl_cons, ih, wf.synth_quiet]

/-! ### The loop -/

variable (cx) in
/-- What an item adds to the mnemonics. -/
def item_mnemonic (item : Nat) : Option Bytes :=
  if cx.kind item ≠ .AsmItem then none
  else do
    let first ← (cx.f.sig_tokens item).head?
    if cx.f.tokens.kind first = .Str ∨ cx.f.tokens.kind first = .MultilineStr then
      some (mnemonic ((cx.f.str_contents first).getD []))
    else none

variable (cx) in
/-- The operands of an item. -/
def item_operands (item : Nat) : List Nat :=
  if cx.kind item = .AsmItem ∧ (cx.f.sig_tokens item).head?.map cx.f.tokens.kind = some .KwIn then
    cx.kids item
  else []

variable (cx) in
def item_is_out (item : Nat) : Bool :=
  cx.kind item = .AsmItem ∧ (cx.f.sig_tokens item).head?.any fun first =>
    cx.f.tokens.kind first = .Ident ∧ cx.f.tokens.text first cx.f.source = Utf8.bytes "out"

theorem asm_item_spec (r : Items) (item : Nat) :
    asm_item wf cx r item =
      ⟨r.outs + if item_is_out cx item then 1 else 0,
        r.mnemonics ++ (item_mnemonic cx item).toList,
        (item_operands cx item).foldl wf.synth r.voice⟩ := by
  unfold asm_item item_mnemonic item_operands item_is_out
  by_cases hkind : cx.kind item = .AsmItem
  · rw [if_neg (not_not_intro hkind), if_neg (not_not_intro hkind)]
    cases hfirst : (cx.f.sig_tokens item).head? with
    | none => simp
    | some first =>
      dsimp only
      split
      · rename_i htok
        simp [hkind, htok]
      · rename_i htok
        simp [hkind, htok]
      · rename_i htok
        simp [hkind, htok]
      · rename_i htok
        by_cases hout : cx.f.tokens.text first cx.f.source = Utf8.bytes "out"
        · simp [hkind, htok, hout]
        · simp [hkind, htok, hout]
      · rename_i hstr hmulti hin hident
        replace hstr : cx.f.tokens.kind first ≠ .Str := hstr
        replace hmulti : cx.f.tokens.kind first ≠ .MultilineStr := hmulti
        replace hin : cx.f.tokens.kind first ≠ .KwIn := hin
        replace hident : cx.f.tokens.kind first ≠ .Ident := hident
        simp [hkind, hstr, hmulti, hin, hident]
  · simp [hkind]

variable (cx node) in
/-- The operands of the expression. -/
def asm_operands : List Nat :=
  (cx.kids node).flatMap (item_operands cx)

theorem foldl_asm_item (items : List Nat) (r : Items) :
    items.foldl (asm_item wf cx) r =
      ⟨r.outs + items.countP (item_is_out cx), r.mnemonics ++ items.filterMap (item_mnemonic cx),
        (items.flatMap (item_operands cx)).foldl wf.synth r.voice⟩ := by
  induction items generalizing r with
  | nil => simp
  | cons item items ih =>
    rw [foldl_cons, ih, asm_item_spec, countP_cons, flatMap_cons, foldl_append]
    cases hword : item_mnemonic cx item with
    | none =>
      rw [filterMap_cons_none hword, Option.toList_none, append_nil, Nat.add_assoc,
        Nat.add_comm (ite _ _ _)]
    | some m =>
      rw [filterMap_cons_some hword, Option.toList_some, append_assoc,
        singleton_append, Nat.add_assoc, Nat.add_comm (ite _ _ _)]

/-- What the loop over the items of an expression collects. -/
theorem asm_items_spec : asm_items wf cx v node =
    ⟨(cx.kids node).countP (item_is_out cx), (cx.kids node).filterMap (item_mnemonic cx),
      (asm_operands cx node).foldl wf.synth v⟩ := by
  rw [asm_items, foldl_asm_item, Nat.zero_add, nil_append, asm_operands]

/-! ### The faults -/

/-- An expression without a fault is where the seal allows it, and none of the words that were read
is of the syscall class unless the module may use it. -/
theorem asm_fault_eq_none {mnemonics : List Bytes} : asm_fault wf cx mnemonics = none ↔
    cx.f.needs_has [Utf8.bytes "asm"] = true ∧ wf.in_unsafe_decl cx = true ∧
      ((∀ m ∈ mnemonics, m ∉ SYSCALL_CLASS) ∨ cx.f.needs_has [Utf8.bytes "syscall"] = true) ∧
      cx.in_region .ComptimeBlock = none ∧ wf.in_generic_fn cx = false := by
  unfold asm_fault
  cases cx.f.needs_has [Utf8.bytes "asm"] with
  | false => exact ⟨fun h => (nomatch h), fun h => (nomatch h.1)⟩
  | true =>
    cases wf.in_unsafe_decl cx with
    | false => exact ⟨fun h => (nomatch h), fun h => (nomatch h.2.1)⟩
    | true =>
      have hwords : (∀ m ∈ mnemonics, m ∉ SYSCALL_CLASS) ↔
          mnemonics.find? (· ∈ SYSCALL_CLASS) = none := by
        rw [find?_eq_none]
        exact forall₂_congr fun m _ => not_congr decide_eq_true_iff.symm
      rw [hwords]
      cases mnemonics.find? (· ∈ SYSCALL_CLASS) with
      | none =>
        cases cx.in_region .ComptimeBlock <;> cases wf.in_generic_fn cx <;> simp
      | some m =>
        cases cx.f.needs_has [Utf8.bytes "syscall"] with
        | false => simp
        | true => cases cx.in_region .ComptimeBlock <;> cases wf.in_generic_fn cx <;> simp

end Said

end Fors.Authority
