import Fors.Fmir.Words

/-!
# Written lines parse back

What `dump` writes for a line is parsed as that line, if the names above it are the ones that
`dump` gives: value number `i` is `%v<i>` and block number `i` is `bb<i>`.

Principal result: `parse_line_region`.
-/

namespace Fors.Fmir

open Numerals Text Runs List

/-! ## Numbers -/

theorem parse_u32_num (v : UInt32) : parse_u32 (toString v) = some v := by
  have hlt := v.toNat_lt
  have hdigits : (toString v).toList = Nat.toDigits 10 v.toNat := Nat.toList_repr
  rw [parse_u32, hdigits, from_str_radix_toDigits (by omega) (by omega) (by omega) (by omega)]
  simp

theorem parse_u16_num (v : UInt16) : parse_u16 (toString v) = some v := by
  have hlt := v.toNat_lt
  have hdigits : (toString v).toList = Nat.toDigits 10 v.toNat := Nat.toList_repr
  rw [parse_u16, hdigits, from_str_radix_toDigits (by omega) (by omega) (by omega) (by omega)]
  simp

theorem parse_u8_num (v : UInt8) : parse_u8 (toString v) = some v := by
  have hlt := v.toNat_lt
  have hdigits : (toString v).toList = Nat.toDigits 10 v.toNat := Nat.toList_repr
  rw [parse_u8, hdigits, from_str_radix_toDigits (by omega) (by omega) (by omega) (by omega)]
  simp

theorem parse_i64_num (v : Int64) : parse_i64 (toString v) = some v := by
  have hle := v.le_toInt
  have hlt := v.toInt_lt
  have hread : from_str_radix (-2 ^ 63) (2 ^ 63 - 1) 10 (toString v.toInt).toList =
      some v.toInt := by
    cases hv : v.toInt with
    | ofNat n =>
      have hdigits : (toString (Int.ofNat n)).toList = Nat.toDigits 10 n := Nat.toList_repr
      have hn : v.toInt = n := hv
      rw [hdigits, from_str_radix_toDigits (by omega) (by omega) (by omega) (by omega)]
      rfl
    | negSucc n =>
      have hdigits : (toString (Int.negSucc n)).toList = '-' :: Nat.toDigits 10 (n + 1) := by
        change ("-" ++ Nat.repr (n + 1)).toList = _
        rw [String.toList_append, Nat.toList_repr]
        rfl
      rw [hdigits, from_str_radix_neg_toDigits (by omega) (by omega) (by omega) (by omega)
        (by omega)]
      rfl
  change (from_str_radix (-2 ^ 63) (2 ^ 63 - 1) 10 (toString v.toInt).toList).map Int64.ofInt = _
  rw [hread]
  simp

/-! ## Names -/

/-- The names that `dump` gives the first `k` of a kind, the newest first. -/
def names_of (slot : Slot) : Nat → Names
  | 0 => []
  | k + 1 => (slot.word (UInt32.ofNat k), UInt32.ofNat k) :: names_of slot k

variable {slot : Slot}

theorem word_inj (hslot : slot ≠ .kind) {a b : UInt32} (h : slot.word a = slot.word b) : a = b := by
  have hnum {p : String} (h : p ++ toString a = p ++ toString b) : a = b := by
    have hstrip := strip_prefix_append p (toString a)
    rw [h, strip_prefix_append] at hstrip
    have hread := parse_u32_num a
    rw [← Option.some.inj hstrip, parse_u32_num] at hread
    exact (Option.some.inj hread).symm
  cases slot with
  | val => exact hnum (p := "%v") h
  | block => exact hnum (p := "bb") h
  | inst => exact hnum (p := "%inst") h
  | region => exact hnum (p := "r") h
  | kind => exact absurd rfl hslot

theorem length_names_of (slot : Slot) (k : Nat) : (names_of slot k).length = k := by
  induction k with
  | zero => rfl
  | succ k ih => rw [names_of, length_cons, ih]

variable {k : Nat}

theorem lookup_names_of (hslot : slot ≠ .kind) {i : Nat} (hi : i < k) (hk : k ≤ 2 ^ 32) :
    (names_of slot k).lookup (slot.word (UInt32.ofNat i)) = some (UInt32.ofNat i) := by
  induction k with
  | zero => exact absurd hi (Nat.not_lt_zero i)
  | succ k ih =>
    rw [names_of, lookup_cons]
    by_cases heq : i = k
    · rw [heq, beq_self_eq_true]
    · have hne : slot.word (UInt32.ofNat i) ≠ slot.word (UInt32.ofNat k) := by
        intro h
        exact heq (ofNat_inj_of_lt (by omega) (by omega) (word_inj hslot h))
      rw [beq_false_of_ne hne]
      exact ih (by omega) (by omega)

/-- The next name is new. -/
theorem lookup_names_of_none (hslot : slot ≠ .kind) {i : Nat} (hi : k ≤ i)
    (hlt : i < 2 ^ 32) : (names_of slot k).lookup (slot.word (UInt32.ofNat i)) = none := by
  induction k with
  | zero => rfl
  | succ k ih =>
    have hne : slot.word (UInt32.ofNat i) ≠ slot.word (UInt32.ofNat k) := by
      intro h
      have := ofNat_inj_of_lt hlt (by omega) (word_inj hslot h)
      omega
    rw [names_of, lookup_cons, beq_false_of_ne hne]
    exact ih (by omega)

/-- The names of the first `nv` values and `nb` blocks. -/
structure Ctx.Named (ctx : Ctx) (nv nb : Nat) : Prop where
  vals : ctx.vals = names_of .val nv
  blocks : ctx.blocks = names_of .block nb

variable {ctx : Ctx} {nv nb n : Nat} {toks : List String}

theorem lookup_word (hslot : slot ≠ .kind) {v : UInt32} (hv : v.toNat < k)
    (hk : k ≤ 2 ^ 32) : (names_of slot k).lookup (slot.word v) = some v := by
  have hlookup := lookup_names_of hslot hv hk
  rwa [UInt32.ofNat_toNat] at hlookup

/-! ## Slots -/

theorem from_u32_as_str {k : UInt32} (hk : k.toNat < 8) :
    TrapKind.parse_name (((TrapKind.from_u32 k).map TrapKind.as_str).getD "?") = some k := by
  have hall : ∀ i < 8, TrapKind.parse_name
      (((TrapKind.from_u32 (UInt32.ofNat i)).map TrapKind.as_str).getD "?") =
        some (UInt32.ofNat i) := by
    decide
  have hread := hall k.toNat hk
  rwa [UInt32.ofNat_toNat] at hread

/-- A written slot reads as what it stands for. -/
theorem Ctx.read_word (hctx : ctx.Named nv nb) (hnv : nv ≤ 2 ^ 32) (hnb : nb ≤ 2 ^ 32) {v : UInt32} (hscope : slot.InScope nv nb v) :
    ctx.read slot ⟨n, slot.word v :: toks⟩ = .ok (v, ⟨n, toks⟩) := by
  cases slot with
  | val =>
    have hstrip : strip_prefix "%" (Slot.val.word v) = some ("v" ++ toString v) := by
      have h := strip_prefix_append "%" ("v" ++ toString v)
      rwa [← String.append_assoc] at h
    have hname : "%" ++ ("v" ++ toString v) = Slot.val.word v := by
      rw [← String.append_assoc]
      rfl
    have hlookup : (names_of .val nv).lookup (Slot.val.word v) = some v :=
      lookup_word (by decide) hscope hnv
    rw [← hctx.vals] at hlookup
    simp only [Ctx.read, Ctx.val, Toks.next, bind, Except.bind, hstrip, hname,
      lookup_val_ok.mpr hlookup]
  | block =>
    have hlookup : (names_of .block nb).lookup (Slot.block.word v) = some v :=
      lookup_word (by decide) hscope hnb
    rw [← hctx.blocks] at hlookup
    simp only [Ctx.read, Ctx.bb, Toks.next, bind, Except.bind, lookup_block_ok.mpr hlookup]
  | inst =>
    have hstrip : strip_prefix "%" (Slot.inst.word v) = some ("inst" ++ toString v) := by
      have h := strip_prefix_append "%" ("inst" ++ toString v)
      rwa [← String.append_assoc] at h
    simp only [Ctx.read, parse_call_id, Toks.next, bind, Except.bind, hstrip, Option.bind,
      strip_prefix_append, parse_u32_num]
  | region =>
    have hstrip : strip_prefix "r" (Slot.region.word v) = some (toString v) :=
      strip_prefix_append "r" (toString v)
    simp only [Ctx.read, parse_region_id, Toks.next, bind, Except.bind, hstrip, Option.bind,
      parse_u32_num]
  | kind =>
    simp only [Ctx.read, parse_kind, Slot.word, Toks.next, bind, Except.bind, strip_prefix_append,
      from_u32_as_str hscope]

theorem Ctx.read_all_words (hctx : ctx.Named nv nb) (hnv : nv ≤ 2 ^ 32) (hnb : nb ≤ 2 ^ 32)
    {vs : List (Slot × UInt32)} (hscope : ∀ v ∈ vs, v.1.InScope nv nb v.2) :
    ctx.read_all (vs.map Prod.fst) ⟨n, vs.map (fun v => v.1.word v.2) ++ toks⟩ =
      .ok (vs, ⟨n, toks⟩) := by
  induction vs with
  | nil => rfl
  | cons v vs ih =>
    rw [forall_mem_cons] at hscope
    have hread : ctx.read v.1 ⟨n, v.1.word v.2 :: (vs.map (fun v => v.1.word v.2) ++ toks)⟩ =
        .ok (v.2, ⟨n, vs.map (fun v => v.1.word v.2) ++ toks⟩) :=
      Ctx.read_word hctx hnv hnb hscope.1
    simp only [map_cons, cons_append, Ctx.read_all, hread, ih hscope.2, bind, Except.bind]

/-! ## Operands -/

theorem toList_val_word (v : UInt32) : (Slot.val.word v).toList = '%' :: 'v' :: (toString v).toList := by
  change ("%v" ++ toString v).toList = _
  rw [String.toList_append]
  rfl

theorem Ctx.args_words (hctx : ctx.Named nv nb) (hnv : nv ≤ 2 ^ 32) (hnb : nb ≤ 2 ^ 32)
    {args : List ValId} (hscope : ∀ v ∈ args, v.toNat < nv)
    (htail : toks = [] ∨ ∃ tail, toks = "ty" :: tail) :
    ctx.args n (args.map (Slot.val.word ·) ++ toks) = .ok (args, ⟨n, toks⟩) := by
  induction args with
  | nil =>
    obtain rfl | ⟨tail, rfl⟩ := htail
    · rfl
    · have hty : starts_with "ty" "ty" = true := by decide
      simp [Ctx.args, hty]
  | cons v args ih =>
    rw [forall_mem_cons] at hscope
    have hseed : Slot.val.word v ≠ "seed" := by
      intro h
      have h := congrArg String.toList h
      rw [toList_val_word] at h
      exact absurd (cons.inj h).1 (by decide)
    have hty : starts_with (Slot.val.word v) "ty" = false :=
      starts_with_ne (c := 't') (d := '%') rfl (toList_val_word v) (by decide)
    have hread : ctx.read .val ⟨n, Slot.val.word v :: (args.map (Slot.val.word ·) ++ toks)⟩ =
        .ok (v, ⟨n, args.map (Slot.val.word ·) ++ toks⟩) :=
      Ctx.read_word hctx hnv hnb hscope.1
    rw [map_cons, cons_append, Ctx.args, if_neg (by simp [hseed, hty])]
    refine bind_eq_ok.mpr ⟨_, hread, ?_⟩
    rw [ih hscope.2]
    rfl

theorem toList_int (v : Int64) : ∃ c cs, (toString v).toList = c :: cs ∧ c ≠ 't' ∧
    ':' ∉ (toString v).toList := by
  have hdigits (k : Nat) : ':' ∉ Nat.toDigits 10 k := by
    intro hmem
    obtain ⟨d, hd, hc⟩ := mem_toDigits (by omega : 1 < 10) hmem
    have hall : ∀ d < 10, ':' ≠ d.digitChar := by decide
    exact hall d hd hc
  have htoList : (toString v).toList = (toString v.toInt).toList := rfl
  rw [htoList]
  cases v.toInt with
  | ofNat k =>
    have hrepr : (toString (Int.ofNat k)).toList = Nat.toDigits 10 k := Nat.toList_repr
    obtain ⟨d, digits, hd, hcons⟩ := toDigits_eq_cons (by omega : 1 < 10) k
    have hall : ∀ d < 10, d.digitChar ≠ 't' := by decide
    rw [hrepr]
    exact ⟨d.digitChar, digits, hcons, hall d hd, hdigits k⟩
  | negSucc k =>
    have hrepr : (toString (Int.negSucc k)).toList = '-' :: Nat.toDigits 10 (k + 1) := by
      change ("-" ++ Nat.repr (k + 1)).toList = _
      rw [String.toList_append, Nat.toList_repr]
      rfl
    rw [hrepr]
    refine ⟨'-', _, rfl, by decide, ?_⟩
    rw [mem_cons, not_or]
    exact ⟨by decide, hdigits (k + 1)⟩

theorem Ctx.arm_word (hctx : ctx.Named nv nb) (hnb : nb ≤ 2 ^ 32) {arm : SwitchArm}
    (hscope : arm.target.toNat < nb) : ctx.arm n arm.word = .ok arm := by
  obtain ⟨c, cs, -, -, hcolon⟩ := toList_int arm.value
  have hword : arm.word =
      toString arm.value ++ String.singleton ':' ++ Slot.block.word arm.target := by
    change toString arm.value ++ ":bb" ++ toString arm.target =
      toString arm.value ++ String.singleton ':' ++ ("bb" ++ toString arm.target)
    rw [show ":bb" = String.singleton ':' ++ "bb" from rfl]
    simp only [String.append_assoc]
  have hlookup : (names_of .block nb).lookup (Slot.block.word arm.target) = some arm.target :=
    lookup_word (by decide) hscope hnb
  rw [← hctx.blocks] at hlookup
  rw [Ctx.arm, hword, split_once_append hcolon]
  simp only [parse_i64_num, lookup_block_ok.mpr hlookup, bind, Except.bind]

theorem Ctx.arms_words (hctx : ctx.Named nv nb) (hnb : nb ≤ 2 ^ 32) {arms : List SwitchArm}
    (hscope : ∀ arm ∈ arms, arm.target.toNat < nb)
    (htail : toks = [] ∨ ∃ tail, toks = "ty" :: tail) :
    ctx.arms n (arms.map SwitchArm.word ++ toks) = .ok (arms, ⟨n, toks⟩) := by
  induction arms with
  | nil =>
    obtain rfl | ⟨tail, rfl⟩ := htail
    · rfl
    · have hty : starts_with "ty" "ty" = true := by decide
      simp [Ctx.arms, hty]
  | cons arm arms ih =>
    rw [forall_mem_cons] at hscope
    have hty : starts_with arm.word "ty" = false := by
      obtain ⟨c, cs, hcons, hc, -⟩ := toList_int arm.value
      have htoList : arm.word.toList = c :: (cs ++ (":bb" ++ toString arm.target).toList) := by
        change (toString arm.value ++ ":bb" ++ toString arm.target).toList = _
        rw [String.append_assoc, String.toList_append, hcons]
        rfl
      exact starts_with_ne (c := 't') rfl htoList (Ne.symm hc)
    rw [map_cons, cons_append, Ctx.arms, if_neg (by simp [hty])]
    refine bind_eq_ok.mpr ⟨arm, Ctx.arm_word hctx hnb hscope.1, ?_⟩
    rw [ih hscope.2]
    rfl

/-- What may follow the operands: the type or nothing, and first the policy of a contract check. -/
def Tail (op : Op) (toks : List String) : Prop :=
  op.is_contract_check = true ∨ toks = [] ∨ ∃ more, toks = "ty" :: more

variable {op : Op}

theorem Tail.of_not_check (h : Tail op toks) (hop : op.is_contract_check = false) :
    toks = [] ∨ ∃ more, toks = "ty" :: more := by
  obtain hcheck | h := h
  · rw [hop] at hcheck
    cases hcheck
  · exact h

theorem shape_at_words {vs : List (Slot × UInt32)} (hfits : vs.map Prod.fst ∈ op.shapes)
    (htail : Tail op toks) :
    op.shape_at ⟨n, vs.map (fun v => v.1.word v.2) ++ toks⟩ = vs.map Prod.fst := by
  have hret : ∀ op : Op, op = .Ret ∨ op = .Raise → vs.map Prod.fst ∈ op.shapes → Tail op toks →
      op.shape_at ⟨n, vs.map (fun v => v.1.word v.2) ++ toks⟩ = vs.map Prod.fst := by
    intro op hop hfits htail
    have hshape (t : Toks) : op.shape_at t =
        if t.peek.any (starts_with · "%") then [.val] else [] := by
      obtain rfl | rfl := hop <;> rfl
    have hshapes : op.shapes = [[], [.val]] := by
      obtain rfl | rfl := hop <;> rfl
    have hcheck : op.is_contract_check = false := by
      obtain rfl | rfl := hop <;> rfl
    rw [hshapes] at hfits
    rw [hshape]
    obtain hnil | hval := mem_pair.mp hfits
    · obtain rfl := map_eq_nil_iff.mp hnil
      obtain rfl | ⟨more, rfl⟩ := htail.of_not_check hcheck
      · rfl
      · have hty : starts_with "ty" "%" = false := by decide
        simp [Toks.peek, hty]
    · obtain ⟨⟨slot, v⟩, rfl, rfl⟩ := map_eq_singleton_iff.mp hval
      have hword : starts_with (Slot.val.word v) "%" = true := by
        have h := starts_with_append "%" ("v" ++ toString v)
        rwa [← String.append_assoc] at h
      simp [Toks.peek, hword]
  cases op
  case Ret => exact hret _ (.inl rfl) hfits htail
  case Raise => exact hret _ (.inr rfl) hfits htail
  all_goals first | exact (mem_singleton.mp hfits).symm | exact nomatch hfits

variable {o : Operands}

/-- Written operands are read and laid out again. -/
theorem parse_operands_words (hctx : ctx.Named nv nb) (hnv : nv ≤ 2 ^ 32) (hnb : nb ≤ 2 ^ 32) (hfits : o.Fits op) (hscope : o.InScope nv nb) (htail : Tail op toks)
    (insts : InstPool) :
    parse_operands op ⟨n, o.words ++ toks⟩ ctx insts =
      .ok ((o.push insts).1, ⟨n, toks⟩, (o.push insts).2) := by
  cases o with
  | slots vs =>
    have hop : op.shapes ≠ [] := ne_nil_of_mem hfits
    rw [parse_operands_slots hop]
    change Except.map _ (ctx.read_all (op.shape_at ⟨n, vs.map (fun v => v.1.word v.2) ++ toks⟩) _) = _
    rw [shape_at_words hfits htail]
    change Except.map _ (ctx.read_all _ ⟨n, vs.map (fun v => v.1.word v.2) ++ toks⟩) = _
    rw [Ctx.read_all_words hctx hnv hnb hscope]
    rfl
  | call sym args =>
    obtain rfl : op = .Intrinsic := hfits
    have htail := htail.of_not_check rfl
    have hsym : parse_symbol ⟨n, s!"@{sym}" :: (args.map (Slot.val.word ·) ++ toks)⟩ =
        .ok (sym, ⟨n, args.map (Slot.val.word ·) ++ toks⟩) := by
      have hstrip : strip_prefix "@" s!"@{sym}" = some (toString sym) :=
        strip_prefix_append "@" (toString sym)
      simp only [parse_symbol, Toks.next, bind, Except.bind, hstrip, parse_u32_num]
    exact bind_eq_ok.mpr ⟨_, hsym, bind_eq_ok.mpr
      ⟨_, Ctx.args_words hctx hnv hnb hscope htail, rfl⟩⟩
  | switch discr default arms =>
    obtain rfl : op = .SwitchDiscr := hfits
    have htail := htail.of_not_check rfl
    obtain ⟨hdiscr, hdefault, harms⟩ := hscope
    have hval : ctx.read .val ⟨n, Slot.val.word discr :: Slot.block.word default ::
        (arms.map SwitchArm.word ++ toks)⟩ =
          .ok (discr, ⟨n, Slot.block.word default :: (arms.map SwitchArm.word ++ toks)⟩) :=
      Ctx.read_word hctx hnv hnb hdiscr
    have hblock : ctx.read .block ⟨n, Slot.block.word default ::
        (arms.map SwitchArm.word ++ toks)⟩ =
          .ok (default, ⟨n, arms.map SwitchArm.word ++ toks⟩) :=
      Ctx.read_word hctx hnv hnb hdefault
    exact bind_eq_ok.mpr ⟨_, hval, bind_eq_ok.mpr ⟨_, hblock, bind_eq_ok.mpr
      ⟨_, Ctx.arms_words hctx hnb harms htail, rfl⟩⟩⟩

/-! ## Instructions -/

/-- The opcode that a mnemonic alone spells. -/
def Op.runtime : Op → Op
  | .CheckPre _ => .CheckPre .Runtime
  | .CheckPost _ => .CheckPost .Runtime
  | .CheckInv _ => .CheckInv .Runtime
  | op => op

theorem fits_runtime (h : o.Fits op) : o.Fits op.runtime := by
  cases op <;> first | exact h | (cases o <;> first | exact h | exact nomatch h)

/-- An opcode that takes operands has a mnemonic. -/
theorem parse_mnemonic_word (h : o.Fits op) (n : Nat) :
    parse_mnemonic (mnemonic op) n = .ok op.runtime := by
  have hshapes : op.shapes ≠ [] ∨ op = .Intrinsic ∨ op = .SwitchDiscr := by
    cases o with
    | slots vs => exact .inl (ne_nil_of_mem h)
    | call sym args => exact .inr (.inl h)
    | switch discr default arms => exact .inr (.inr h)
  cases op
  case Add m | Sub m | Mul m | Div m | Rem m | Shl m | Shr m | Neg m => cases m <;> rfl
  case CheckPre p | CheckPost p | CheckInv p => cases p <;> rfl
  all_goals first
    | rfl
    | (obtain h | h | h := hshapes
       · exact absurd rfl h
       · exact nomatch h
       · exact nomatch h)

theorem apply_policy_words (op : Op) {tail : List String}
    (htail : tail = [] ∨ ∃ more, tail = "ty" :: more) :
    apply_trailing_policy op.runtime ⟨n, policy_words op ++ tail⟩ = (op, ⟨n, tail⟩) := by
  have hnone (op : Op) : apply_trailing_policy op ⟨n, tail⟩ = (op, ⟨n, tail⟩) := by
    obtain rfl | ⟨more, rfl⟩ := htail <;> rfl
  cases op
  case CheckPre p | CheckPost p | CheckInv p =>
    cases p with
    | Runtime => exact hnone _
    | Off => rfl
  all_goals exact hnone _

theorem parse_inst_words {ids : Names} {s : ParseState} (hctx : Ctx.Named ⟨s.val_names, ids⟩ nv nb)
    (hnv : nv ≤ 2 ^ 32) (hnb : nb ≤ 2 ^ 32) {l : Line} (hwf : l.Wf nv nb) {tail : List String}
    (htail : tail = [] ∨ ∃ more, tail = "ty" :: more) :
    parse_inst ids s (mnemonic l.op) ⟨n, l.operands.words ++ policy_words l.op ++ tail⟩ =
      .ok (l.op, (l.operands.push s.insts).1, ⟨n, tail⟩, (l.operands.push s.insts).2) := by
  have hafter : Tail l.op.runtime (policy_words l.op ++ tail) := by
    cases l.op <;> first | exact .inl rfl | exact .inr htail
  have hoperands : parse_operands l.op.runtime
      ⟨n, l.operands.words ++ (policy_words l.op ++ tail)⟩ ⟨s.val_names, ids⟩ s.insts =
      .ok ((l.operands.push s.insts).1, ⟨n, policy_words l.op ++ tail⟩,
        (l.operands.push s.insts).2) :=
    parse_operands_words hctx hnv hnb (fits_runtime hwf.fits) hwf.inScope hafter s.insts
  rw [append_assoc]
  refine bind_eq_ok.mpr ⟨_, parse_mnemonic_word hwf.fits n, bind_eq_ok.mpr ⟨_, hoperands, ?_⟩⟩
  simp [apply_policy_words l.op htail]

/-! ## Values -/

theorem parse_ty_words (ty : TyId) :
    parse_ty ⟨n, "ty" :: toString ty :: toks⟩ = .ok (ty, ⟨n, toks⟩) := by
  simp [parse_ty, Toks.next, Toks.u32, parse_u32_num, bind, Except.bind]

variable {v : Typed}

theorem parse_secret_word (hv : v.Spelled) (n : Nat) :
    parse_secret (secret_tok v.flags) n = .ok v.flags := by
  obtain h | h | h := hv <;> rw [h] <;> rfl

theorem parse_ct_word (ct : UInt16) (n : Nat) : parse_ct (ct_tok ct) n = .ok ct := by
  unfold ct_tok
  split
  · rename_i hct
    rw [hct]
    rfl
  · have hne : "ct=" ++ toString ct ≠ "ct=?" := by
      intro h
      have hstrip := strip_prefix_append "ct=" (toString ct)
      rw [h] at hstrip
      have hnum := parse_u16_num ct
      rw [← Option.some.inj hstrip] at hnum
      exact nomatch hnum
    change parse_ct ("ct=" ++ toString ct) n = _
    rw [parse_ct, if_neg hne, strip_prefix_append]
    simp [parse_u16_num]

theorem parse_secret_and_ct_words (hv : v.Spelled) :
    parse_secret_and_ct ⟨n, secret_tok v.flags :: ct_tok v.ct :: toks⟩ =
      .ok ((v.flags, v.ct), ⟨n, toks⟩) := by
  simp only [parse_secret_and_ct, Toks.next, parse_secret_word hv, parse_ct_word, bind, Except.bind]

/-- A written seed is read as one, and its place is interned as it was. -/
theorem parse_optional_seed_words (roots : List UInt32) (seed : SeedSpec) :
    parse_optional_seed ⟨n, seed.words⟩ (places_of roots) =
      .ok ((seed.push roots).1, places_of (seed.push roots).2) := by
  have hclause {spec : String} : parse_optional_seed ⟨n, ["seed", spec]⟩ (places_of roots) =
      parse_seed spec (places_of roots) n := by
    simp [parse_optional_seed, Toks.peek, Toks.next, bind, Except.bind]
  have hletter {p : String} (v : UInt32) (cs : List Char) (c : Char) (h : p.toList = c :: cs) :
      (p ++ toString v).toList = c :: (cs ++ (toString v).toList) := by
    rw [String.toList_append, h, cons_append]
  cases seed with
  | None => rfl
  | Conv c =>
    rw [SeedSpec.words, hclause, parse_seed, strip_prefix_append]
    cases c <;> rfl
  | Own root =>
    have hconv : strip_prefix "conv-" ("own" ++ toString root) = none :=
      strip_prefix_ne rfl (hletter root _ _ rfl) (by decide)
    rw [SeedSpec.words, hclause]
    change parse_seed ("own" ++ toString root) _ _ = _
    simp only [parse_seed, hconv, strip_prefix_append, parse_u32_num, intern_places, attempt, bind,
      Except.bind]
    rfl
  | Arena id =>
    have hconv : strip_prefix "conv-" ("arena" ++ toString id) = none :=
      strip_prefix_ne rfl (hletter id _ _ rfl) (by decide)
    have hown : strip_prefix "own" ("arena" ++ toString id) = none :=
      strip_prefix_ne rfl (hletter id _ _ rfl) (by decide)
    rw [SeedSpec.words, hclause]
    change parse_seed ("arena" ++ toString id) _ _ = _
    simp only [parse_seed, hconv, hown, strip_prefix_append, parse_u32_num]
    rfl
  | Split root side =>
    have hword : s!"split{root},{side}" =
        "split" ++ (toString root ++ String.singleton ',' ++ toString side) := by
      change "split" ++ toString root ++ "," ++ toString side = _
      rw [show "," = String.singleton ',' from rfl]
      simp only [String.append_assoc]
    have htoList : ("split" ++ (toString root ++ String.singleton ',' ++ toString side)).toList =
        's' :: ("plit".toList ++ (toString root ++ String.singleton ',' ++ toString side).toList) := by
      rw [String.toList_append]
      rfl
    have hconv : strip_prefix "conv-"
        ("split" ++ (toString root ++ String.singleton ',' ++ toString side)) = none :=
      strip_prefix_ne rfl htoList (by decide)
    have hown : strip_prefix "own"
        ("split" ++ (toString root ++ String.singleton ',' ++ toString side)) = none :=
      strip_prefix_ne rfl htoList (by decide)
    have harena : strip_prefix "arena"
        ("split" ++ (toString root ++ String.singleton ',' ++ toString side)) = none :=
      strip_prefix_ne rfl htoList (by decide)
    have hcomma : ',' ∉ (toString root).toList := by
      intro hmem
      have hdigits : (toString root).toList = Nat.toDigits 10 root.toNat := Nat.toList_repr
      rw [hdigits] at hmem
      obtain ⟨d, hd, hc⟩ := mem_toDigits (by omega : 1 < 10) hmem
      have hall : ∀ d < 10, ',' ≠ d.digitChar := by decide
      exact hall d hd hc
    rw [SeedSpec.words, hclause, hword]
    simp only [parse_seed, hconv, hown, harena, strip_prefix_append, split_once_append hcomma,
      parse_u32_num, parse_u8_num, intern_places, attempt, bind, Except.bind]
    rfl

/-! ## Lines -/

variable {ids : Names} {s : ParseState} {l : Line}

theorem parse_line_do (hopen : s.current_block.isSome = true)
    (hctx : Ctx.Named ⟨s.val_names, ids⟩ nv nb) (hnv : nv ≤ 2 ^ 32) (hnb : nb ≤ 2 ^ 32)
    (hwf : l.Wf nv nb) (hdest : l.dest = none) :
    parse_line ids n s ("do" :: l.inst_words) =
      .ok { s with insts :=
        ((l.operands.push s.insts).2.push (l.row (l.operands.push s.insts).1) .None).2 } := by
  have hinst := parse_inst_words (n := n) hctx hnv hnb hwf (.inl rfl)
  rw [append_nil] at hinst
  have hclosed : s.current_block.isNone = false := by
    rw [← Option.not_isSome, hopen]
    rfl
  change parse_do ids s ⟨n, l.inst_words⟩ = _
  rw [parse_do, hclosed, if_neg Bool.false_ne_true]
  refine bind_eq_ok.mpr ⟨(mnemonic l.op, ⟨n, _⟩), rfl, bind_eq_ok.mpr ⟨_, hinst, ?_⟩⟩
  simp only [Line.row, hdest]
  rfl

theorem parse_line_val (hopen : s.current_block.isSome = true)
    (hctx : Ctx.Named ⟨s.val_names, ids⟩ nv nb) (hnv : nv ≤ 2 ^ 32) (hnb : nb ≤ 2 ^ 32)
    (hwf : l.Wf nv nb) {seed : SeedSpec} (hdest : l.dest = some (v, seed))
    {roots : List UInt32} (hplaces : s.places = places_of roots) (name : String) :
    parse_line ids n s ("val" :: name :: "=" :: (l.inst_words ++ v.words ++ seed.words)) =
      .ok (ParseState.push_val
        { s with
          insts := ((l.operands.push s.insts).2.push (l.row (l.operands.push s.insts).1)
            (seed.push roots).1).2
          places := places_of (seed.push roots).2 }
        name (v.row (.Inst (UInt32.ofNat s.insts.rows.length)))) := by
  have hinst : parse_inst ids s (mnemonic l.op)
      ⟨n, l.operands.words ++ policy_words l.op ++ (v.words ++ seed.words)⟩ =
        .ok (l.op, (l.operands.push s.insts).1, ⟨n, v.words ++ seed.words⟩,
          (l.operands.push s.insts).2) :=
    parse_inst_words hctx hnv hnb hwf (.inr ⟨_, rfl⟩)
  have hclosed : s.current_block.isNone = false := by
    rw [← Option.not_isSome, hopen]
    rfl
  have hparam : mnemonic l.op ≠ "param" := by
    intro h
    have hparse := parse_mnemonic_word hwf.fits n
    rw [h] at hparse
    exact nomatch hparse
  have hseed := parse_optional_seed_words (n := n) roots seed
  rw [← hplaces] at hseed
  have hrows : (l.operands.push s.insts).2.rows.length = s.insts.rows.length := by
    rw [(l.operands.push_extends s.insts).rows]
  change parse_val ids s ⟨n, name :: "=" :: (l.inst_words ++ v.words ++ seed.words)⟩ = _
  rw [append_assoc]
  refine bind_eq_ok.mpr ⟨(name, ⟨n, _⟩), rfl, bind_eq_ok.mpr ⟨("=", ⟨n, _⟩), rfl, ?_⟩⟩
  dsimp only
  rw [if_neg (fun h => h rfl)]
  refine bind_eq_ok.mpr ⟨(mnemonic l.op, ⟨n, l.operands.words ++ policy_words l.op ++
    (v.words ++ seed.words)⟩), rfl, ?_⟩
  simp only
  rw [if_neg hparam, parse_val_inst, hclosed, if_neg Bool.false_ne_true]
  refine bind_eq_ok.mpr ⟨_, hinst, bind_eq_ok.mpr ⟨_, parse_ty_words v.ty,
    bind_eq_ok.mpr ⟨_, parse_secret_and_ct_words (hwf.spelled v seed hdest),
      bind_eq_ok.mpr ⟨_, hseed, ?_⟩⟩⟩⟩
  simp only [Line.row, hdest, InstPool.push, hrows]
  rfl

theorem parse_line_param (id : ValId) (param : ParamLine) (hparam : param.typed.Spelled) :
    parse_line ids n s (param.words id) =
      .ok (s.push_val (Slot.val.word id) (param.typed.row (.Param param.ordinal))) := by
  have hordinal : Toks.u16 ⟨n, toString param.ordinal :: param.typed.words⟩ =
      .ok (param.ordinal, ⟨n, param.typed.words⟩) := by
    simp [Toks.u16, Toks.next, parse_u16_num, bind, Except.bind]
  change parse_val ids s ⟨n, Slot.val.word id :: "=" :: "param" :: toString param.ordinal ::
    param.typed.words⟩ = _
  refine bind_eq_ok.mpr ⟨(Slot.val.word id, ⟨n, _⟩), rfl, bind_eq_ok.mpr ⟨("=", ⟨n, _⟩), rfl, ?_⟩⟩
  dsimp only
  rw [if_neg (fun h => h rfl)]
  refine bind_eq_ok.mpr ⟨("param", ⟨n, toString param.ordinal :: param.typed.words⟩), rfl, ?_⟩
  simp only
  rw [if_pos trivial]
  exact bind_eq_ok.mpr ⟨_, hordinal, bind_eq_ok.mpr ⟨_, parse_ty_words param.typed.ty,
    bind_eq_ok.mpr ⟨_, parse_secret_and_ct_words hparam, rfl⟩⟩⟩

/-- A region without captures. -/
theorem parse_line_region (id : RegionId) (line : RegionLine) (hnone : line.captures.getD [] = []) :
    parse_line ids n s (line.words id) =
      .ok { s with regions := s.regions.push line.kind line.captures } := by
  obtain ⟨kind, captures⟩ := line
  have hkind : parse_region_kind kind.word n = .ok kind := by cases kind <;> rfl
  have hline {ws : List String} (hcaptures : parse_captures s ⟨n, ws⟩ = .ok captures) :
      parse_line ids n s ("region" :: Slot.region.word id :: kind.word :: ws) =
        .ok { s with regions := s.regions.push kind captures } := by
    change parse_region s ⟨n, Slot.region.word id :: kind.word :: ws⟩ = _
    exact bind_eq_ok.mpr ⟨(_, ⟨n, _⟩), rfl, bind_eq_ok.mpr ⟨(_, ⟨n, _⟩), rfl,
      bind_eq_ok.mpr ⟨_, hkind, bind_eq_ok.mpr ⟨_, hcaptures, rfl⟩⟩⟩⟩
  cases captures with
  | none => exact hline rfl
  | some caps =>
    obtain rfl : caps = [] := hnone
    exact hline rfl

theorem parse_line_decl (ids : Names) (n : Nat) (r : Listing) (hsaw : s.saw_decl_line = false)
    (hinvariant : s.is_unsafe_invariant = false) :
    parse_line ids n s r.decl_words =
      .ok { s with
        saw_decl_line := true, decl_key := r.decl, sig := r.sig
        is_unsafe_invariant := r.is_unsafe_invariant } := by
  have hnum (v : UInt32) (toks : List String) :
      Toks.u32 ⟨n, toString v :: toks⟩ = .ok (v, ⟨n, toks⟩) := by
    simp [Toks.u32, Toks.next, parse_u32_num, bind, Except.bind]
  change parse_decl s ⟨n, toString r.decl :: "sig" :: toString r.sig :: _⟩ = _
  rw [parse_decl, hsaw, if_neg Bool.false_ne_true]
  refine bind_eq_ok.mpr ⟨_, hnum r.decl _, bind_eq_ok.mpr ⟨("sig", ⟨n, _⟩), rfl, ?_⟩⟩
  dsimp only
  rw [if_neg (fun h => h rfl)]
  refine bind_eq_ok.mpr ⟨_, hnum r.sig _, ?_⟩
  rw [hinvariant, Bool.or_false]
  cases r.is_unsafe_invariant <;> rfl

end Fors.Fmir
