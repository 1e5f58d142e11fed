import Fors.Lib.Runs
import Fors.Fmir.Listed

/-!
# Accepted texts are listings

What the parser accepts of a line is a line of a listing: the mnemonic takes its operands in one
of its shapes, and every name it resolves is that of a value or a block. A text whose parameters
stand above its blocks parses to the layout of a well-formed listing.

Principal result: `parse_words_ok`.
-/

namespace Fors.Fmir

open Runs Text List Option

variable {ctx : Ctx} {t t' : Toks} {nv nb : Nat} {op : Op}

/-! ## Names -/

variable {name : String}

theorem mem_of_lookup {names : Names} {v : UInt32}
    (h : names.lookup name = some v) : (name, v) ∈ names := by
  induction names with
  | nil => cases h
  | cons p names ih =>
    rw [lookup_cons] at h
    split at h
    · rename_i heq
      cases h
      rw [eq_of_beq heq]
      exact mem_cons_self
    · exact mem_cons_of_mem _ (ih h)

/-- The names stand for the first `nv` values and `nb` blocks. -/
structure Ctx.Bounded (ctx : Ctx) (nv nb : Nat) : Prop where
  vals : ∀ p ∈ ctx.vals, p.2.toNat < nv
  blocks : ∀ p ∈ ctx.blocks, p.2.toNat < nb

theorem lookup_val_ok {vals : Names} {n : Nat} {v : ValId} :
    lookup_val name vals n = .ok v ↔ vals.lookup name = some v := by
  unfold lookup_val
  split <;> rename_i h <;> simp [h, err]

theorem lookup_block_ok {blocks : Names} {n : Nat} {b : BlockId} :
    lookup_block name blocks n = .ok b ↔ blocks.lookup name = some b := by
  unfold lookup_block
  split <;> rename_i h <;> simp [h, err]

/-! ## Slots -/

def Ctx.read (ctx : Ctx) : Slot → Toks → Except ParseStop (UInt32 × Toks)
  | .val => ctx.val
  | .block => ctx.bb
  | .inst => parse_call_id
  | .region => parse_region_id
  | .kind => parse_kind

def Ctx.read_all (ctx : Ctx) : List Slot → Toks → Except ParseStop (List (Slot × UInt32) × Toks)
  | [], t => .ok ([], t)
  | slot :: slots, t => do
    let (v, t) ← ctx.read slot t
    let (vs, t) ← ctx.read_all slots t
    .ok ((slot, v) :: vs, t)

/-- The shape that a mnemonic reads from the words behind it. -/
def Op.shape_at (op : Op) (t : Toks) : List Slot :=
  match op with
  | .Ret | .Raise => if t.peek.any (starts_with · "%") then [.val] else []
  | _ => op.shapes.headD []

theorem Op.shape_at_mem (hop : op.shapes ≠ []) (t : Toks) : op.shape_at t ∈ op.shapes := by
  cases op <;> first | exact absurd rfl hop | simp [Op.shape_at, Op.shapes]

theorem map_read_all_nil {α : Type} (f : List (Slot × UInt32) × Toks → α) :
    (ctx.read_all [] t).map f = .ok (f ([], t)) :=
  rfl

theorem map_read_all_cons {α : Type} (slot : Slot) (slots : List Slot)
    (f : List (Slot × UInt32) × Toks → α) :
    (ctx.read_all (slot :: slots) t).map f = ctx.read slot t >>= fun p =>
      (ctx.read_all slots p.2).map fun q => f ((slot, p.1) :: q.1, q.2) := by
  rw [Ctx.read_all]
  cases ctx.read slot t with
  | error e => rfl
  | ok p =>
    change Except.map f (ctx.read_all slots p.2 >>= _) = Except.map _ _
    cases ctx.read_all slots p.2 <;> rfl

/-- All mnemonics but two read their shape. -/
theorem parse_operands_slots (hop : op.shapes ≠ []) (t : Toks) (ctx : Ctx) (insts : InstPool) :
    parse_operands op t ctx insts = (ctx.read_all (op.shape_at t) t).map fun p =>
      ((slots_of (p.1.map Prod.snd), p.2, insts)) := by
  have hret : ∀ op : Op, op = .Ret ∨ op = .Raise → parse_operands op t ctx insts =
      (ctx.read_all (op.shape_at t) t).map fun p => ((slots_of (p.1.map Prod.snd), p.2, insts)) := by
    intro op hop
    have hshape : op.shape_at t = if t.peek.any (starts_with · "%") then [.val] else [] := by
      obtain rfl | rfl := hop <;> rfl
    have hparse : parse_operands op t ctx insts = parse_operands .Ret t ctx insts := by
      obtain rfl | rfl := hop <;> rfl
    rw [hshape, hparse, parse_operands]
    cases t.peek with
    | none => rfl
    | some tok =>
      by_cases hval : starts_with tok "%" = true
      · simp only [hval, any_some, if_true, map_read_all_cons, map_read_all_nil]
        rfl
      · simp only [hval, any_some, if_false, map_read_all_nil, Bool.false_eq_true]
        rfl
  cases op <;> first | exact absurd rfl hop | skip
  case Ret => exact hret _ (.inl rfl)
  case Raise => exact hret _ (.inr rfl)
  all_goals
    simp only [parse_operands, Op.shape_at, Op.shapes, headD_cons, map_read_all_cons,
      map_read_all_nil]
    rfl

theorem Toks.next_ok {tok : String} (h : t.next = .ok (tok, t')) : t.toks = tok :: t'.toks := by
  unfold Toks.next at h
  split at h
  · cases h
  · rename_i htoks
    cases h
    exact htoks

theorem toNat_ofNat_le (n : Nat) : (UInt32.ofNat n).toNat ≤ n := by
  rw [UInt32.toNat_ofNat']
  exact Nat.mod_le _ _

theorem parse_name_lt {s : String} {k : UInt32} (h : TrapKind.parse_name s = some k) :
    k.toNat < 8 := by
  obtain ⟨i, hi, rfl⟩ := map_eq_some_iff.mp h
  obtain ⟨hlt, -⟩ := findIdx?_eq_some_iff_getElem.mp hi
  exact Nat.lt_of_le_of_lt (toNat_ofNat_le i) hlt

/-- What a slot's word names is in scope. -/
theorem Ctx.read_ok (hctx : ctx.Bounded nv nb) {slot : Slot} {v : UInt32}
    (h : ctx.read slot t = .ok (v, t')) : slot.InScope nv nb v := by
  cases slot with
  | val =>
    obtain ⟨⟨tok, u⟩, -, h⟩ := bind_eq_ok.mp h
    simp only at h
    split at h
    · cases h
    · obtain ⟨w, hw, h⟩ := bind_eq_ok.mp h
      cases h
      exact hctx.vals _ (mem_of_lookup (lookup_val_ok.mp hw))
  | block =>
    obtain ⟨⟨tok, u⟩, -, h⟩ := bind_eq_ok.mp h
    obtain ⟨w, hw, h⟩ := bind_eq_ok.mp h
    cases h
    exact hctx.blocks _ (mem_of_lookup (lookup_block_ok.mp hw))
  | inst | region => trivial
  | kind =>
    obtain ⟨⟨tok, u⟩, -, h⟩ := bind_eq_ok.mp h
    simp only at h
    split at h
    · cases h
    · split at h
      · cases h
      · rename_i hkind
        cases h
        exact parse_name_lt hkind

theorem Ctx.read_all_ok (hctx : ctx.Bounded nv nb) {slots : List Slot}
    {vs : List (Slot × UInt32)} (h : ctx.read_all slots t = .ok (vs, t')) :
    vs.map Prod.fst = slots ∧ ∀ v ∈ vs, v.1.InScope nv nb v.2 := by
  induction slots generalizing t vs with
  | nil =>
    cases h
    exact ⟨rfl, fun _ hv => nomatch hv⟩
  | cons slot slots ih =>
    obtain ⟨⟨v, u⟩, hv, h⟩ := bind_eq_ok.mp h
    obtain ⟨⟨ws, w⟩, hws, h⟩ := bind_eq_ok.mp h
    cases h
    obtain ⟨rfl, hscopes⟩ := ih hws
    exact ⟨rfl, forall_mem_cons.mpr ⟨Ctx.read_ok hctx hv, hscopes⟩⟩

/-! ## Operands -/

theorem Ctx.args_ok (hctx : ctx.Bounded nv nb) {n : Nat} {toks : List String} {args : List ValId}
    (h : ctx.args n toks = .ok (args, t')) : ∀ v ∈ args, v.toNat < nv := by
  induction toks generalizing args with
  | nil =>
    cases h
    exact fun _ hv => nomatch hv
  | cons tok toks ih =>
    rw [Ctx.args] at h
    split at h
    · cases h
      exact fun _ hv => nomatch hv
    · obtain ⟨⟨v, u⟩, hv, h⟩ := bind_eq_ok.mp h
      obtain ⟨⟨ws, w⟩, hws, h⟩ := bind_eq_ok.mp h
      cases h
      have hscope : Slot.InScope nv nb .val v := Ctx.read_ok hctx hv
      exact forall_mem_cons.mpr ⟨hscope, ih hws⟩

theorem Ctx.arm_ok (hctx : ctx.Bounded nv nb) {n : Nat} {tok : String} {arm : SwitchArm}
    (h : ctx.arm n tok = .ok arm) : arm.target.toNat < nb := by
  unfold Ctx.arm at h
  split at h
  · cases h
  · split at h
    · cases h
    · obtain ⟨b, hb, h⟩ := bind_eq_ok.mp h
      cases h
      exact hctx.blocks _ (mem_of_lookup (lookup_block_ok.mp hb))

theorem Ctx.arms_ok (hctx : ctx.Bounded nv nb) {n : Nat} {toks : List String}
    {arms : List SwitchArm} (h : ctx.arms n toks = .ok (arms, t')) :
    ∀ arm ∈ arms, arm.target.toNat < nb := by
  induction toks generalizing arms with
  | nil =>
    cases h
    exact fun _ harm => nomatch harm
  | cons tok toks ih =>
    rw [Ctx.arms] at h
    split at h
    · cases h
      exact fun _ harm => nomatch harm
    · obtain ⟨arm, harm, h⟩ := bind_eq_ok.mp h
      obtain ⟨⟨ws, w⟩, hws, h⟩ := bind_eq_ok.mp h
      cases h
      exact forall_mem_cons.mpr ⟨Ctx.arm_ok hctx harm, ih hws⟩

/-- The operands that are read are those of a line, laid out. -/
theorem parse_operands_ok (hctx : ctx.Bounded nv nb) {insts insts' : InstPool} {slots : Slots}
    (h : parse_operands op t ctx insts = .ok (slots, t', insts')) :
    ∃ o : Operands, o.Fits op ∧ o.InScope nv nb ∧ o.push insts = (slots, insts') := by
  by_cases hop : op.shapes = []
  · cases op <;> first | exact absurd hop (cons_ne_nil _ _) | cases h | skip
    case Intrinsic =>
      obtain ⟨⟨sym, u⟩, -, h⟩ := bind_eq_ok.mp h
      obtain ⟨⟨args, w⟩, hargs, h⟩ := bind_eq_ok.mp h
      obtain ⟨rfl, hrest⟩ := Prod.mk.inj (Except.ok.inj h)
      cases hrest
      exact ⟨.call sym args, rfl, Ctx.args_ok hctx hargs, rfl⟩
    case SwitchDiscr =>
      obtain ⟨⟨discr, u⟩, hdiscr, h⟩ := bind_eq_ok.mp h
      obtain ⟨⟨default, w⟩, hdefault, h⟩ := bind_eq_ok.mp h
      obtain ⟨⟨arms, x⟩, harms, h⟩ := bind_eq_ok.mp h
      obtain ⟨rfl, hrest⟩ := Prod.mk.inj (Except.ok.inj h)
      cases hrest
      have hval : Slot.InScope nv nb .val discr := Ctx.read_ok hctx hdiscr
      have hblock : Slot.InScope nv nb .block default := Ctx.read_ok hctx hdefault
      exact ⟨.switch discr default arms, rfl, ⟨hval, hblock, Ctx.arms_ok hctx harms⟩, rfl⟩
  · rw [parse_operands_slots hop] at h
    cases hread : ctx.read_all (op.shape_at t) t with
    | error e =>
      rw [hread] at h
      cases h
    | ok p =>
      obtain ⟨vs, u⟩ := p
      rw [hread] at h
      obtain ⟨rfl, hrest⟩ := Prod.mk.inj (Except.ok.inj h)
      cases hrest
      obtain ⟨hshape, hscope⟩ := Ctx.read_all_ok hctx hread
      refine ⟨.slots vs, ?_, hscope, rfl⟩
      rw [Operands.Fits, hshape]
      exact Op.shape_at_mem hop t

/-! ## Instruction lines -/

theorem fits_trailing_policy {op : Op} {o : Operands} (h : o.Fits op) (t : Toks) :
    o.Fits (apply_trailing_policy op t).1 := by
  unfold apply_trailing_policy
  split
  · cases op <;> first | exact h | (cases o <;> first | exact h | exact nomatch h)
  · exact h

theorem parse_inst_ok {ids : Names} {s : ParseState} (hctx : Ctx.Bounded ⟨s.val_names, ids⟩ nv nb)
    {head : String} {slots : Slots} {insts : InstPool}
    (h : parse_inst ids s head t = .ok (op, slots, t', insts)) :
    ∃ o : Operands, o.Fits op ∧ o.InScope nv nb ∧ o.push s.insts = (slots, insts) := by
  obtain ⟨base, -, h⟩ := bind_eq_ok.mp h
  obtain ⟨⟨slots', u, insts'⟩, hoperands, h⟩ := bind_eq_ok.mp h
  obtain ⟨o, hfits, hscope, hpush⟩ := parse_operands_ok hctx hoperands
  have hpolicy := fits_trailing_policy hfits u
  simp only at h
  generalize apply_trailing_policy base u = after at h hpolicy
  obtain ⟨op', w⟩ := after
  simp only [Except.ok.injEq, Prod.mk.injEq] at h
  obtain ⟨rfl, rfl, -, rfl⟩ := h
  exact ⟨o, hpolicy, hscope, hpush⟩

theorem parse_secret_and_ct_ok {flags ct ty : _} (h : parse_secret_and_ct t = .ok ((flags, ct), t')) :
    (⟨ty, flags, ct⟩ : Typed).Spelled := by
  obtain ⟨⟨tok, u⟩, -, h⟩ := bind_eq_ok.mp h
  obtain ⟨flags', hflags, h⟩ := bind_eq_ok.mp h
  obtain ⟨⟨ct_tok, w⟩, -, h⟩ := bind_eq_ok.mp h
  obtain ⟨ct', -, h⟩ := bind_eq_ok.mp h
  obtain ⟨hpair, -⟩ := Prod.mk.inj (Except.ok.inj h)
  cases hpair
  simp only [parse_secret] at hflags
  split at hflags
  · exact .inl (Except.ok.inj hflags).symm
  · exact .inr (.inl (Except.ok.inj hflags).symm)
  · exact .inr (.inr (Except.ok.inj hflags).symm)
  · cases hflags

/-! ## Seeds -/

theorem find_shape_places (roots more : List UInt32) (root : UInt32) (i : Nat) :
    (places_of roots).find_shape root [] 0 i (places_of more).rows =
      .ok ((more.idxOf? root).map (· + i)) := by
  induction more generalizing i with
  | nil => rfl
  | cons m more ih =>
    have hshape : (places_of roots).has_shape root [] 0 ⟨m, ⟨0, 0⟩, 0⟩ = .ok (m = root) := by
      unfold PlacePool.has_shape
      by_cases hm : m = root
      · simp [hm, PlacePool.segs_eq, slice, bind, Except.bind, pure, Except.pure]
      · simp [hm]
    change (do
      if ← (places_of roots).has_shape root [] 0 ⟨m, ⟨0, 0⟩, 0⟩ then return some i
      else (places_of roots).find_shape root [] 0 (i + 1) (places_of more).rows) = _
    rw [hshape, idxOf?_cons]
    simp only [bind, Except.bind]
    by_cases hm : m = root
    · simp [hm, pure, Except.pure]
    · simp only [hm, decide_false, Bool.false_eq_true, if_false, beq_iff_eq, ih, Option.map_map]
      congr 2
      funext j
      simp only [Function.comp_apply]
      omega

/-- Interning a bare root. -/
theorem intern_places (roots : List UInt32) (root : UInt32) :
    (places_of roots).intern root [] 0 =
      .ok ((intern_root roots root).1, places_of (intern_root roots root).2) := by
  rw [PlacePool.intern, find_shape_places, intern_root]
  cases roots.idxOf? root with
  | none => simp [bind, Except.bind, pure, Except.pure, PlacePool.push, places_of]
  | some i => simp [bind, Except.bind, pure, Except.pure]

theorem parse_seed_ok {spec : String} {roots : List UInt32} {n : Nat} {a : AliasSeed}
    {places : PlacePool} (h : parse_seed spec (places_of roots) n = .ok (a, places)) :
    ∃ seed : SeedSpec, (seed.push roots).1 = a ∧ places_of (seed.push roots).2 = places := by
  unfold parse_seed at h
  simp only [intern_places, attempt, bind, Except.bind] at h
  split at h
  · split at h
    · cases h
    · cases h
      exact ⟨.Conv _, rfl, rfl⟩
  split at h
  · split at h
    · cases h
    · cases h
      exact ⟨.Own _, rfl, rfl⟩
  split at h
  · split at h
    · cases h
    · cases h
      exact ⟨.Arena _, rfl, rfl⟩
  split at h
  · split at h
    · cases h
    split at h
    · cases h
    split at h
    · cases h
    · cases h
      exact ⟨.Split _ _, rfl, rfl⟩
  · cases h

theorem parse_optional_seed_ok {roots : List UInt32} {a : AliasSeed} {places : PlacePool}
    (h : parse_optional_seed t (places_of roots) = .ok (a, places)) :
    ∃ seed : SeedSpec, (seed.push roots).1 = a ∧ places_of (seed.push roots).2 = places := by
  unfold parse_optional_seed at h
  split at h
  · cases h
    exact ⟨.None, rfl, rfl⟩
  · obtain ⟨⟨tok, u⟩, -, h⟩ := bind_eq_ok.mp h
    obtain ⟨⟨spec, w⟩, -, h⟩ := bind_eq_ok.mp h
    exact parse_seed_ok h

/-! ## Lines -/

def is_block_line (toks : List String) : Bool :=
  toks.head? = some "block"

/-- A line `val <name> = param ..`. -/
def is_param_line (toks : List String) : Bool :=
  toks.head? = some "val" ∧ toks[3]? = some "param"

/-- The blocks of a listing and the open one. -/
def opened (r : Listing) (open_ : Option (List Line)) : Nat :=
  r.blocks.length + open_.toList.length

section

variable {s s' : ParseState} {r : Listing} {open_ : Option (List Line)} {ids : Names} {n : Nat}
  {toks : List String}

/-! ### Pools grow -/

def is_val_line (toks : List String) : Bool :=
  toks.head? = some "val"

/-- What a line does to the lengths of the pools. -/
structure Grown (s s' : ParseState) (vals : Nat) : Prop where
  rows : s.insts.rows.length ≤ s'.insts.rows.length
  vals : s'.vals.entries.length = s.vals.entries.length + vals

theorem Grown.refl (s : ParseState) : Grown s s 0 :=
  ⟨Nat.le_refl _, rfl⟩

/-- An instruction is not pushed before its operands are read. -/
theorem parse_inst_rows {t t' : Toks} {head : String} {op : Op} {slots : Slots} {insts : InstPool}
    (h : parse_inst ids s head t = .ok (op, slots, t', insts)) : insts.rows = s.insts.rows := by
  have hctx : Ctx.Bounded ⟨s.val_names, ids⟩ (2 ^ 32) (2 ^ 32) :=
    ⟨fun p _ => p.2.toNat_lt, fun p _ => p.2.toNat_lt⟩
  obtain ⟨o, -, -, hpush⟩ := parse_inst_ok hctx h
  have hext := (o.push_extends s.insts).rows
  rwa [hpush] at hext

theorem parse_val_grown {toks : List String} (h : parse_val ids s ⟨n, toks⟩ = .ok s') :
    Grown s s' 1 := by
  obtain ⟨⟨name, t⟩, -, h⟩ := bind_eq_ok.mp h
  obtain ⟨⟨tok, u⟩, -, h⟩ := bind_eq_ok.mp h
  simp only at h
  split at h
  · cases h
  obtain ⟨⟨head, w⟩, -, h⟩ := bind_eq_ok.mp h
  simp only at h
  split at h
  · obtain ⟨⟨ordinal, x⟩, -, h⟩ := bind_eq_ok.mp h
    obtain ⟨⟨ty, y⟩, -, h⟩ := bind_eq_ok.mp h
    obtain ⟨⟨⟨flags, ct⟩, z⟩, -, h⟩ := bind_eq_ok.mp h
    cases h
    exact ⟨Nat.le_refl _, by simp [ParseState.push_val, ValPool.push]⟩
  · unfold parse_val_inst at h
    split at h
    · cases h
    obtain ⟨⟨op, slots, x, insts⟩, hinst, h⟩ := bind_eq_ok.mp h
    obtain ⟨⟨ty, y⟩, -, h⟩ := bind_eq_ok.mp h
    obtain ⟨⟨⟨flags, ct⟩, z⟩, -, h⟩ := bind_eq_ok.mp h
    obtain ⟨⟨a, places⟩, -, h⟩ := bind_eq_ok.mp h
    cases h
    refine ⟨?_, by simp [ParseState.push_val, ValPool.push]⟩
    simp [ParseState.push_val, parse_inst_rows hinst]

theorem parse_line_grown (h : parse_line ids n s toks = .ok s') :
    Grown s s' (if is_val_line toks then 1 else 0) := by
  unfold parse_line at h
  split at h
  · cases h
    exact .refl s
  · unfold parse_decl at h
    split at h
    · cases h
    obtain ⟨⟨key, t⟩, -, h⟩ := bind_eq_ok.mp h
    obtain ⟨⟨tok, u⟩, -, h⟩ := bind_eq_ok.mp h
    simp only at h
    split at h
    · cases h
    obtain ⟨⟨sig, w⟩, -, h⟩ := bind_eq_ok.mp h
    cases h
    exact ⟨Nat.le_refl _, rfl⟩
  · obtain ⟨⟨name, t⟩, -, h⟩ := bind_eq_ok.mp h
    obtain ⟨⟨tok, u⟩, -, h⟩ := bind_eq_ok.mp h
    obtain ⟨kind, -, h⟩ := bind_eq_ok.mp h
    obtain ⟨captures, -, h⟩ := bind_eq_ok.mp h
    cases h
    exact ⟨Nat.le_refl _, rfl⟩
  · obtain ⟨blocks, -, h⟩ := bind_eq_ok.mp h
    obtain ⟨⟨name, t⟩, -, h⟩ := bind_eq_ok.mp h
    cases h
    exact ⟨Nat.le_refl _, rfl⟩
  · exact parse_val_grown h
  · unfold parse_do at h
    split at h
    · cases h
    obtain ⟨⟨head, t⟩, -, h⟩ := bind_eq_ok.mp h
    obtain ⟨⟨op, slots, u, insts⟩, hinst, h⟩ := bind_eq_ok.mp h
    cases h
    refine ⟨?_, rfl⟩
    simp [parse_inst_rows hinst]
  · cases h

theorem parse_lines_grown {lines : List (List String)} (h : parse_lines ids n s lines = .ok s') :
    Grown s s' (lines.countP is_val_line) := by
  induction lines generalizing n s with
  | nil =>
    obtain rfl := Except.ok.inj h
    exact .refl s
  | cons toks lines ih =>
    obtain ⟨s1, hline, h⟩ := bind_eq_ok.mp h
    have hfirst := parse_line_grown hline
    have hrest := ih h
    refine ⟨Nat.le_trans hfirst.rows hrest.rows, ?_⟩
    rw [hrest.vals, hfirst.vals, countP_cons]
    omega

/-! ### Lines list -/

/-- What a line adds to a listing. -/
structure Adds (nb : Nat) (toks : List String) (r : Listing) (open_ : Option (List Line))
    (s' : ParseState) (r' : Listing) (open' : Option (List Line)) : Prop where
  lists : s'.Lists nb r' open'
  opened : opened r' open' = opened r open_ + (if is_block_line toks then 1 else 0)

theorem parse_decl_ok (h : s.Lists nb r open_) (hparse : parse_decl s ⟨n, toks⟩ = .ok s') :
    ∃ r', Adds nb ("decl" :: toks) r open_ s' r' open_ := by
  unfold parse_decl at hparse
  split at hparse
  · cases hparse
  obtain ⟨⟨key, t⟩, -, hparse⟩ := bind_eq_ok.mp hparse
  obtain ⟨⟨tok, u⟩, -, hparse⟩ := bind_eq_ok.mp hparse
  simp only at hparse
  split at hparse
  · cases hparse
  obtain ⟨⟨sig, w⟩, -, hparse⟩ := bind_eq_ok.mp hparse
  cases hparse
  exact ⟨_, h.set_decl key sig _, rfl⟩

theorem parse_region_ok (h : s.Lists nb r open_) (hparse : parse_region s ⟨n, toks⟩ = .ok s') :
    ∃ r', Adds nb ("region" :: toks) r open_ s' r' open_ := by
  obtain ⟨⟨name, t⟩, -, hparse⟩ := bind_eq_ok.mp hparse
  obtain ⟨⟨tok, u⟩, -, hparse⟩ := bind_eq_ok.mp hparse
  obtain ⟨kind, -, hparse⟩ := bind_eq_ok.mp hparse
  obtain ⟨captures, -, hparse⟩ := bind_eq_ok.mp hparse
  cases hparse
  exact ⟨_, h.push_region ⟨kind, captures⟩, rfl⟩

theorem parse_block_ok (h : s.Lists nb r open_) (hrows : s.insts.rows.length < 2 ^ 32)
    (hparse : parse_block s ⟨n, toks⟩ = .ok s') :
    ∃ r', Adds nb ("block" :: toks) r open_ s' r' (some []) := by
  obtain ⟨blocks, hfinish, hparse⟩ := bind_eq_ok.mp hparse
  obtain ⟨⟨name, t⟩, -, hparse⟩ := bind_eq_ok.mp hparse
  cases hparse
  cases open_ with
  | none =>
    have hcurrent : s.current_block = none := map_eq_none_iff.mp h.current
    rw [ParseState.finish, hcurrent] at hfinish
    cases hfinish
    exact ⟨r, h.first_block name, by simp [opened, is_block_line]⟩
  | some ls =>
    obtain ⟨hok, hls⟩ | ⟨-, e, herr⟩ := h.finish_eq hrows n
    · rw [hok] at hfinish
      cases hfinish
      exact ⟨_, h.next_block hls name, by simp [opened, is_block_line]⟩
    · rw [herr] at hfinish
      cases hfinish

theorem parse_do_ok (h : s.Lists nb r open_) (hids : ∀ p ∈ ids, p.2.toNat < nb)
    (hparse : parse_do ids s ⟨n, toks⟩ = .ok s') :
    open_.isSome ∧ ∃ open', Adds nb ("do" :: toks) r open_ s' r open' := by
  unfold parse_do at hparse
  split at hparse
  · cases hparse
  rename_i hcurrent
  obtain ⟨⟨head, t⟩, -, hparse⟩ := bind_eq_ok.mp hparse
  obtain ⟨⟨op, slots, u, insts⟩, hinst, hparse⟩ := bind_eq_ok.mp hparse
  cases hparse
  obtain ⟨o, hfits, hscope, hpush⟩ := parse_inst_ok ⟨h.names, hids⟩ hinst
  cases open_ with
  | none =>
    have hnone : s.current_block = none := map_eq_none_iff.mp h.current
    rw [hnone] at hcurrent
    exact absurd rfl hcurrent
  | some ls =>
    have hdo := h.push_do (l := ⟨op, o, none⟩) ⟨hfits, hscope, fun _ _ hnone => nomatch hnone⟩ rfl
    simp only [hpush] at hdo
    exact ⟨rfl, _, hdo, rfl⟩

theorem parse_val_inst_ok (h : s.Lists nb r open_) (hids : ∀ p ∈ ids, p.2.toNat < nb)
    {name head : String} (hparse : parse_val_inst ids s name head ⟨n, toks⟩ = .ok s') :
    open_.isSome ∧ ∃ open', Adds nb ("val" :: name :: "=" :: head :: toks) r open_ s' r open' := by
  unfold parse_val_inst at hparse
  split at hparse
  · cases hparse
  rename_i hcurrent
  obtain ⟨⟨op, slots, t, insts⟩, hinst, hparse⟩ := bind_eq_ok.mp hparse
  obtain ⟨⟨ty, u⟩, -, hparse⟩ := bind_eq_ok.mp hparse
  obtain ⟨⟨⟨flags, ct⟩, w⟩, hflags, hparse⟩ := bind_eq_ok.mp hparse
  obtain ⟨⟨a, places⟩, hseed, hparse⟩ := bind_eq_ok.mp hparse
  cases hparse
  obtain ⟨o, hfits, hscope, hpush⟩ := parse_inst_ok ⟨h.names, hids⟩ hinst
  cases open_ with
  | none =>
    have hnone : s.current_block = none := map_eq_none_iff.mp h.current
    rw [hnone] at hcurrent
    exact absurd rfl hcurrent
  | some ls =>
    rw [h.places] at hseed
    obtain ⟨seed, rfl, rfl⟩ := parse_optional_seed_ok hseed
    have hwf : Line.Wf s.vals.entries.length nb ⟨op, o, some (⟨ty, flags, ct⟩, seed)⟩ := by
      refine ⟨hfits, hscope, ?_⟩
      intro v seed' hdest
      obtain ⟨rfl, -⟩ := Prod.mk.inj (some.inj hdest)
      exact parse_secret_and_ct_ok hflags
    have hval := h.push_val_line hwf rfl rfl name
    simp only [hpush] at hval
    rw [← parse_inst_rows hinst] at hval
    exact ⟨rfl, _, hval, rfl⟩

theorem parse_param_ok (h : s.Lists nb r none) {name : String}
    (hparse : parse_param s name ⟨n, toks⟩ = .ok s') :
    ∃ r', Adds nb ("val" :: name :: "=" :: "param" :: toks) r none s' r' none := by
  obtain ⟨⟨ordinal, t⟩, -, hparse⟩ := bind_eq_ok.mp hparse
  obtain ⟨⟨ty, u⟩, -, hparse⟩ := bind_eq_ok.mp hparse
  obtain ⟨⟨⟨flags, ct⟩, w⟩, hflags, hparse⟩ := bind_eq_ok.mp hparse
  cases hparse
  exact ⟨_, h.push_param name ⟨ordinal, ⟨ty, flags, ct⟩⟩ (parse_secret_and_ct_ok hflags), rfl⟩

theorem parse_val_ok (h : s.Lists nb r open_) (hids : ∀ p ∈ ids, p.2.toNat < nb)
    (hparam : open_.isSome → ¬ is_param_line ("val" :: toks))
    (hparse : parse_val ids s ⟨n, toks⟩ = .ok s') :
    ∃ r' open', Adds nb ("val" :: toks) r open_ s' r' open' ∧ (open'.isSome → open_.isSome) := by
  obtain ⟨⟨name, t⟩, hname, hrest⟩ := bind_eq_ok.mp hparse
  obtain ⟨⟨tok, u⟩, htok, hrest⟩ := bind_eq_ok.mp hrest
  simp only at hrest
  split at hrest
  · cases hrest
  rename_i heq
  obtain ⟨⟨head, w⟩, hhead, hrest⟩ := bind_eq_ok.mp hrest
  obtain rfl : tok = "=" := not_not.mp heq
  have hname := Toks.next_ok hname
  have htok := Toks.next_ok htok
  have hhead := Toks.next_ok hhead
  obtain ⟨m, rest⟩ := w
  change toks = name :: t.toks at hname
  change u.toks = head :: rest at hhead
  rw [htok, hhead] at hname
  subst hname
  split at hrest
  · rename_i hhead
    subst hhead
    cases open_ with
    | none =>
      obtain ⟨r', hadds⟩ := parse_param_ok h hrest
      exact ⟨r', none, hadds, id⟩
    | some ls => exact absurd rfl (hparam rfl)
  · obtain ⟨hopen, open', hadds⟩ := parse_val_inst_ok h hids hrest
    exact ⟨r, open', hadds, fun _ => hopen⟩

/-- Every line adds to the listing. -/
theorem parse_line_ok (h : s.Lists nb r open_) (hids : ∀ p ∈ ids, p.2.toNat < nb)
    (hrows : s.insts.rows.length < 2 ^ 32) (hparam : open_.isSome → ¬ is_param_line toks)
    (hparse : parse_line ids n s toks = .ok s') :
    ∃ r' open', Adds nb toks r open_ s' r' open' ∧
      (open'.isSome → open_.isSome ∨ is_block_line toks) := by
  unfold parse_line at hparse
  split at hparse
  · cases hparse
    exact ⟨r, open_, ⟨h, rfl⟩, .inl⟩
  · obtain ⟨r', hadds⟩ := parse_decl_ok h hparse
    exact ⟨r', open_, hadds, .inl⟩
  · obtain ⟨r', hadds⟩ := parse_region_ok h hparse
    exact ⟨r', open_, hadds, .inl⟩
  · obtain ⟨r', hadds⟩ := parse_block_ok h hrows hparse
    exact ⟨r', some [], hadds, fun _ => .inr rfl⟩
  · obtain ⟨r', open', hadds, hopen⟩ := parse_val_ok h hids hparam hparse
    exact ⟨r', open', hadds, fun hsome => .inl (hopen hsome)⟩
  · obtain ⟨hopen, open', hadds⟩ := parse_do_ok h hids hparse
    exact ⟨r, open', hadds, fun _ => .inl hopen⟩
  · cases hparse

end

/-! ## Texts -/

/-- The parameters stand above the first block. -/
def ParamsFirst (lines : List (List String)) : Prop :=
  lines.Pairwise fun before after => is_block_line before → ¬ is_param_line after

variable {lines : List (List String)}

theorem parse_lines_ok {ids : Names} {s s' : ParseState} {r : Listing}
    {open_ : Option (List Line)} {n : Nat} (h : s.Lists nb r open_)
    (hids : ∀ p ∈ ids, p.2.toNat < nb) (hrows : s'.insts.rows.length < 2 ^ 32)
    (hfirst : ParamsFirst lines) (hparam : open_.isSome → ∀ toks ∈ lines, ¬ is_param_line toks)
    (hparse : parse_lines ids n s lines = .ok s') :
    ∃ r' open', s'.Lists nb r' open' ∧
      opened r' open' = opened r open_ + lines.countP is_block_line := by
  induction lines generalizing s r open_ n with
  | nil =>
    cases hparse
    exact ⟨r, open_, h, rfl⟩
  | cons toks lines ih =>
    obtain ⟨s1, hline, hparse⟩ := bind_eq_ok.mp hparse
    obtain ⟨hbefore, hfirst⟩ := pairwise_cons.mp hfirst
    have hgrown := Nat.le_trans (parse_line_grown hline).rows (parse_lines_grown hparse).rows
    obtain ⟨r1, open1, hadds, hopen⟩ := parse_line_ok h hids (Nat.lt_of_le_of_lt hgrown hrows)
      (fun hsome => hparam hsome toks mem_cons_self) hline
    have hparam1 : open1.isSome → ∀ after ∈ lines, ¬ is_param_line after := by
      intro hsome after hafter
      obtain hsome | hblock := hopen hsome
      · exact hparam hsome after (mem_cons_of_mem _ hafter)
      · exact hbefore after hafter hblock
    obtain ⟨r', open', hlists, hopened'⟩ := ih hadds.lists hfirst hparam1 hparse
    refine ⟨r', open', hlists, ?_⟩
    rw [hopened', hadds.opened, countP_cons]
    omega

theorem parse_blocks_ok {ids ids' : Names} {n : Nat}
    (h : parse_blocks n ids lines = .ok ids') (hids : ∀ p ∈ ids, p.2.toNat < ids.length) :
    ids'.length = ids.length + lines.countP is_block_line ∧
      ∀ p ∈ ids', p.2.toNat < ids'.length := by
  induction lines generalizing n ids with
  | nil =>
    cases h
    exact ⟨rfl, hids⟩
  | cons toks lines ih =>
    unfold parse_blocks at h
    split at h
    · cases h
    · rename_i name rest
      split at h
      · cases h
      · have hnext : ∀ p ∈ (name, UInt32.ofNat ids.length) :: ids, p.2.toNat < ids.length + 1 := by
          rw [forall_mem_cons]
          refine ⟨?_, fun p hp => Nat.lt_succ_of_lt (hids p hp)⟩
          exact Nat.lt_succ_of_le (toNat_ofNat_le _)
        obtain ⟨hlen, hbound⟩ := ih h hnext
        refine ⟨?_, hbound⟩
        rw [hlen, countP_cons_of_pos rfl, length_cons]
        omega
    · rename_i hbare hnamed
      obtain ⟨hlen, hbound⟩ := ih h hids
      refine ⟨?_, hbound⟩
      rw [hlen, countP_cons_of_neg]
      intro hblock
      match toks with
      | [] => cases hblock
      | [tok] =>
        obtain rfl : tok = "block" := by simpa [is_block_line] using hblock
        exact hbare rfl
      | tok :: name :: rest =>
        obtain rfl : tok = "block" := by simpa [is_block_line] using hblock
        exact hnamed name rest rfl

/-- A text that parses is the listing of the declaration. -/
theorem parse_words_ok {d : DeclFmir}
    (hrows : d.insts.rows.length < 2 ^ 32) (hfirst : ParamsFirst lines)
    (hparse : parse_words lines = .ok d) : ∃ r : Listing, r.Wf ∧ r.into_decl = d := by
  obtain ⟨ids, hblocks, hparse⟩ := bind_eq_ok.mp hparse
  obtain ⟨s, hlines, hparse⟩ := bind_eq_ok.mp hparse
  obtain ⟨blocks, hfinish, hparse⟩ := bind_eq_ok.mp hparse
  split at hparse
  · cases hparse
  split at hparse
  · cases hparse
  rename_i hnonempty
  cases hparse
  obtain ⟨hcount, hids⟩ := parse_blocks_ok hblocks (fun _ hp => nomatch hp)
  have hnew : ParseState.new.Lists ids.length ⟨0, 0, false, [], [], []⟩ none := .new
  have hrows : s.insts.rows.length < 2 ^ 32 := hrows
  obtain ⟨r, open_, hlists, hopened⟩ :=
    parse_lines_ok hnew hids hrows hfirst (fun hnone => nomatch hnone) hlines
  cases open_ with
  | none =>
    have hcurrent : s.current_block = none := map_eq_none_iff.mp hlists.current
    rw [ParseState.finish, hcurrent, hlists.blocks, hlists.closed rfl] at hfinish
    exact absurd (Except.ok.inj hfinish).symm hnonempty
  | some ls =>
    obtain ⟨hok, hls⟩ | ⟨-, e, herr⟩ := hlists.finish_eq hrows lines.length
    · rw [hok] at hfinish
      cases hfinish
      refine ⟨{ r with blocks := r.blocks ++ [ls] }, ⟨?_, ?_, ?_, ?_⟩, ?_⟩
      · have hlength : (r.blocks ++ [ls]).length = ids.length := by
          have hempty : opened ⟨0, 0, false, [], [], []⟩ none = 0 := rfl
          have hone : opened r (some ls) = (r.blocks ++ [ls]).length := by simp [opened]
          have hnone : ([] : Names).length = 0 := rfl
          omega
        change WfLines (r.blocks ++ [ls]).length r.params.length (r.blocks ++ [ls]).flatten
        have hlines := hlists.lines
        rw [hlength]
        simpa using hlines
      · exact hlists.params
      · intro ms hms
        obtain hms | hms := mem_append.mp hms
        · exact hlists.nonempty ms hms
        · rw [mem_singleton.mp hms]
          exact hls
      · simp
      · exact hlists.into_decl.symm
    · rw [herr] at hfinish
      cases hfinish

end Fors.Fmir
