import Fors.Fmir.Laid
import Fors.Fmir.RoundTrip

/-!
# The text of a listing

The words that stand for a listing, line by line. `dump` of the laid out listing writes them, one
blank between two words.

Principal results: `dump_line` and `dump_do`.
-/

namespace Fors.Fmir

open Runs List

/-! ## Words -/

def Slot.word : Slot → UInt32 → String
  | .val, v => s!"%v{v}"
  | .block, b => s!"bb{b}"
  | .inst, i => s!"%inst{i}"
  | .region, r => s!"r{r}"
  | .kind, k => "kind=" ++ ((TrapKind.from_u32 k).map TrapKind.as_str).getD "?"

def SwitchArm.word (arm : SwitchArm) : String :=
  s!"{arm.value}:bb{arm.target}"

def Operands.words : Operands → List String
  | .slots vs => vs.map fun v => v.1.word v.2
  | .call sym args => s!"@{sym}" :: args.map (Slot.val.word ·)
  | .switch discr default arms =>
    Slot.val.word discr :: Slot.block.word default :: arms.map SwitchArm.word

def policy_words : Op → List String
  | .CheckPre .Off | .CheckPost .Off | .CheckInv .Off => ["policy=off"]
  | _ => []

def SeedSpec.words : SeedSpec → List String
  | .None => []
  | .Conv c => ["seed", "conv-" ++ conv_str c]
  | .Own root => ["seed", s!"own{root}"]
  | .Arena id => ["seed", s!"arena{id}"]
  | .Split root side => ["seed", s!"split{root},{side}"]

def Typed.words (v : Typed) : List String :=
  ["ty", toString v.ty, secret_tok v.flags, ct_tok v.ct]

namespace Line

def inst_words (l : Line) : List String :=
  mnemonic l.op :: (l.operands.words ++ policy_words l.op)

/-- A line is written as `val` if it defines a value and its opcode is no terminator; its seed is
written if its opcode takes one. -/
def words (next : Nat) (l : Line) : List String :=
  match l.dest, l.op.is_terminator with
  | some (v, seed), false =>
    "val" :: Slot.val.word (UInt32.ofNat next) :: "=" :: (l.inst_words ++ v.words ++
      if l.op.is_memory_producing then seed.words else [])
  | _, _ => "do" :: l.inst_words

end Line

/-- The lines from value number `next` on. -/
def line_words : Nat → List Line → List (List String)
  | _, [] => []
  | next, l :: ls => l.words next :: line_words (next + defs [l]) ls

/-- The blocks from number `b` and value number `next` on. -/
def block_words : Nat → Nat → List (List Line) → List (List String)
  | _, _, [] => []
  | b, next, ls :: blocks =>
    ["block", Slot.block.word (UInt32.ofNat b)] :: (line_words next ls ++
      block_words (b + 1) (next + defs ls) blocks)

def CaptureRow.word (cap : CaptureRow) : String :=
  Slot.val.word cap.value ++ ":" ++ conv_str cap.conv

def RegionKind.word : RegionKind → String
  | .Spawn => "spawn"
  | .Parallel => "parallel"
  | .WithArena => "with-arena"

def RegionLine.words (id : RegionId) (r : RegionLine) : List String :=
  "region" :: Slot.region.word id :: r.kind.word ::
    match r.captures with
    | none => []
    | some caps => "captures" :: caps.map CaptureRow.word

def ParamLine.words (id : ValId) (param : ParamLine) : List String :=
  ["val", Slot.val.word id, "=", "param", toString param.ordinal] ++ param.typed.words

namespace Listing

def decl_words (r : Listing) : List String :=
  ["decl", toString r.decl, "sig", toString r.sig] ++
    if r.is_unsafe_invariant then ["unsafe"] else []

def words (r : Listing) : List (List String) :=
  r.decl_words :: ((all_rows r.regions).map (fun p => p.2.words p.1) ++
    (all_rows r.params).map (fun p => p.2.words p.1) ++ block_words 0 r.params.length r.blocks)

end Listing

/-! ## Written lines -/

/-- Words behind others. -/
def behind (ws : List String) : String :=
  String.join (ws.map (" " ++ ·))

def line_text : List String → String
  | [] => "\n"
  | w :: ws => w ++ behind ws ++ "\n"

def text_of (ls : List (List String)) : String :=
  String.join (ls.map line_text)

@[simp] theorem behind_nil : behind [] = "" :=
  rfl

@[simp] theorem behind_cons (w : String) (ws : List String) :
    behind (w :: ws) = " " ++ w ++ behind ws :=
  String.join_cons

@[simp] theorem behind_append (ws vs : List String) : behind (ws ++ vs) = behind ws ++ behind vs := by
  simp [behind]

@[simp] theorem text_of_cons (ws : List String) (ls : List (List String)) :
    text_of (ws :: ls) = line_text ws ++ text_of ls :=
  String.join_cons

@[simp] theorem text_of_append (ls ms : List (List String)) :
    text_of (ls ++ ms) = text_of ls ++ text_of ms := by
  simp [text_of]

/-! ## Operands -/

theorem behind_singleton (w : String) : behind [w] = " " ++ w := by
  rw [behind_cons, behind_nil, String.append_empty]

theorem blank_val (v : UInt32) : s!" %v{v}" = behind [Slot.val.word v] := by
  rw [behind_singleton]
  change " %v" ++ toString v = " " ++ ("%v" ++ toString v)
  rw [← String.append_assoc]
  rfl

theorem blank_block (b : UInt32) : s!" bb{b}" = behind [Slot.block.word b] := by
  rw [behind_singleton]
  change " bb" ++ toString b = " " ++ ("bb" ++ toString b)
  rw [← String.append_assoc]
  rfl

theorem blank_inst (i : UInt32) : s!" %inst{i}" = behind [Slot.inst.word i] := by
  rw [behind_singleton]
  change " %inst" ++ toString i = " " ++ ("%inst" ++ toString i)
  rw [← String.append_assoc]
  rfl

theorem blank_region (r : UInt32) : s!" r{r}" = behind [Slot.region.word r] := by
  rw [behind_singleton]
  change " r" ++ toString r = " " ++ ("r" ++ toString r)
  rw [← String.append_assoc]
  rfl

theorem blank_kind (k : UInt32) :
    " kind=" ++ ((TrapKind.from_u32 k).map TrapKind.as_str).getD "?" =
      behind [Slot.kind.word k] := by
  rw [behind_singleton, Slot.word, ← String.append_assoc]
  rfl

theorem blank_args (args : List ValId) :
    String.join (args.map fun arg => s!" %v{arg}") = behind (args.map (Slot.val.word ·)) := by
  induction args with
  | nil => rfl
  | cons arg args ih =>
    rw [map_cons, String.join_cons, ih, blank_val, ← behind_append]
    rfl

theorem blank_arms (arms : List SwitchArm) :
    String.join (arms.map fun arm => s!" {arm.value}:bb{arm.target}") =
      behind (arms.map SwitchArm.word) := by
  induction arms with
  | nil => rfl
  | cons arm arms ih =>
    have harm : s!" {arm.value}:bb{arm.target}" = " " ++ arm.word := by
      change " " ++ toString arm.value ++ ":bb" ++ toString arm.target =
        " " ++ (toString arm.value ++ ":bb" ++ toString arm.target)
      simp only [String.append_assoc]
    rw [map_cons, String.join_cons, ih, harm, map_cons, behind_cons]

/-- What the slots of a row are written as. -/
theorem dump_slots {d : DeclFmir} {op : Op} {vs : List (Slot × UInt32)} {row : InstRow}
    (hrow : row.op = op) (hslots : (row.a, row.b, row.c) = slots_of (vs.map Prod.snd))
    (hfits : vs.map Prod.fst ∈ op.shapes) (hpresent : ∀ v ∈ vs, v.1 = .val → v.2 ≠ NO_OPERAND) :
    dump_operands d row = .ok (behind (vs.map fun v => v.1.word v.2)) := by
  obtain ⟨op', a, b, c, ty, site⟩ := row
  obtain rfl : op' = op := hrow
  obtain ⟨rfl, hslots⟩ := Prod.mk.inj hslots
  cases hslots
  have hone {slot : Slot} (h : vs.map Prod.fst = [slot]) : ∃ v, vs = [(slot, v)] := by
    obtain ⟨⟨slot', v⟩, rfl, rfl⟩ := map_eq_singleton_iff.mp h
    exact ⟨v, rfl⟩
  have htwo {slot slot' : Slot} (h : vs.map Prod.fst = [slot, slot']) :
      ∃ v w, vs = [(slot, v), (slot', w)] := by
    match vs, h with
    | [(_, v), (_, w)], rfl => exact ⟨v, w, rfl⟩
  have hthree {slot slot' slot'' : Slot} (h : vs.map Prod.fst = [slot, slot', slot'']) :
      ∃ v w x, vs = [(slot, v), (slot', w), (slot'', x)] := by
    match vs, h with
    | [(_, v), (_, w), (_, x)], rfl => exact ⟨v, w, x, rfl⟩
  cases op'
  case Add | Sub | Mul | Div | Rem | Shl | Shr | Index | Alloc | ArenaAlloc =>
    obtain ⟨v, w, rfl⟩ := htwo (mem_singleton.mp hfits)
    change Except.ok (s!" %v{v}" ++ s!" %v{w}") = _
    rw [blank_val, blank_val, ← behind_append]
    rfl
  case Neg | ArenaDeref | ArenaReset | Declassify | EraseToDyn | Free | CheckPre | CheckPost
      | CheckInv =>
    obtain ⟨v, rfl⟩ := hone (mem_singleton.mp hfits)
    exact congrArg Except.ok (blank_val v)
  case SliceRange =>
    obtain ⟨v, w, x, rfl⟩ := hthree (mem_singleton.mp hfits)
    change Except.ok (s!" %v{v}" ++ s!" %v{w}" ++ s!" %v{x}") = _
    rw [blank_val, blank_val, blank_val, ← behind_append, ← behind_append]
    rfl
  case Br =>
    obtain ⟨v, rfl⟩ := hone (mem_singleton.mp hfits)
    exact congrArg Except.ok (blank_block v)
  case CondBr =>
    obtain ⟨v, w, x, rfl⟩ := hthree (mem_singleton.mp hfits)
    change Except.ok (s!" %v{v}" ++ s!" bb{w}" ++ s!" bb{x}") = _
    rw [blank_val, blank_block, blank_block, ← behind_append, ← behind_append]
    rfl
  case TryBr =>
    obtain ⟨v, w, x, rfl⟩ := hthree (mem_singleton.mp hfits)
    change Except.ok (s!" %inst{v}" ++ s!" bb{w}" ++ s!" bb{x}") = _
    rw [blank_inst, blank_block, blank_block, ← behind_append, ← behind_append]
    rfl
  case Ret | Raise =>
    obtain hnil | hval := mem_pair.mp hfits
    · obtain rfl := map_eq_nil_iff.mp hnil
      rfl
    · obtain ⟨v, rfl⟩ := hone hval
      have hne := hpresent _ mem_cons_self rfl
      change Except.ok (if v ≠ NO_OPERAND then s!" %v{v}" else "") = _
      rw [if_pos hne]
      exact congrArg Except.ok (blank_val v)
  case Trap =>
    obtain ⟨v, rfl⟩ := hone (mem_singleton.mp hfits)
    exact congrArg Except.ok (blank_kind v)
  case Unreachable | TileOp =>
    obtain rfl := map_eq_nil_iff.mp (mem_singleton.mp hfits)
    rfl
  case Spawn | Sync | RegionEnter | RegionExit =>
    obtain ⟨v, rfl⟩ := hone (mem_singleton.mp hfits)
    exact congrArg Except.ok (blank_region v)
  all_goals exact nomatch hfits

theorem index_prefix {α : Type} {pre rows : List α} {x : α} (h : pre ++ [x] <+: rows)
    (hlen : rows.length < 2 ^ 32) : rows[(UInt32.ofNat pre.length).toNat]? = some x := by
  obtain ⟨post, rfl⟩ := h
  have hpre : (UInt32.ofNat pre.length).toNat = pre.length := by
    refine UInt32.toNat_ofNat_of_lt' (Nat.lt_of_le_of_lt ?_ hlen)
    simp only [length_append]
    omega
  rw [hpre, append_assoc, getElem?_append_right (Nat.le_refl _), Nat.sub_self]
  rfl

theorem slice_front {α : Type} {pre xs rows : List α} (h : pre ++ xs <+: rows)
    (hlen : rows.length < 2 ^ 32) :
    slice rows ⟨UInt32.ofNat pre.length, UInt32.ofNat (pre ++ xs).length⟩ = .ok xs := by
  obtain ⟨post, rfl⟩ := h
  rw [length_append, append_assoc]
  refine slice_middle pre xs post (Nat.lt_of_le_of_lt ?_ hlen)
  simp only [length_append]
  omega

/-- The operands of a line are written as they were read. -/
theorem dump_operands_reads {d : DeclFmir} {l : Line} {slots : Slots} {nv nb : Nat}
    (hreads : l.operands.Reads d.insts slots) (hcount : d.insts.Countable)
    (hwf : l.Wf nv nb) (hnv : nv < 2 ^ 32) :
    dump_operands d (l.row slots) = .ok (behind l.operands.words) := by
  obtain ⟨op, o, dest⟩ := l
  have hfits := hwf.fits
  have hscope := hwf.inScope
  cases o with
  | slots vs =>
    refine dump_slots rfl hreads hfits ?_
    rintro ⟨slot, v⟩ hv rfl habsent
    obtain rfl : v = NO_OPERAND := habsent
    have hlt : NO_OPERAND.toNat < nv := hscope _ hv
    have habsent : NO_OPERAND.toNat = 2 ^ 32 - 1 := rfl
    omega
  | call sym args =>
    obtain rfl : op = .Intrinsic := hfits
    obtain ⟨pre, calls, hargs, hcall, rfl⟩ := hreads
    have hindex := index_prefix hcall hcount.calls
    have hslice := clamped_of_slice (slice_front hargs hcount.operands)
    simp only [dump_operands, Line.row, hindex, dump_intrinsic, InstPool.args, hslice, blank_args]
    have hsym : s!" @{sym}" = " " ++ s!"@{sym}" := by
      change " @" ++ toString sym = " " ++ ("@" ++ toString sym)
      rw [← String.append_assoc]
      rfl
    rw [Operands.words, behind_cons, hsym]
  | switch discr default arms =>
    obtain rfl : op = .SwitchDiscr := hfits
    obtain ⟨pre, switches, harms, hswitch, rfl⟩ := hreads
    have hindex := index_prefix hswitch hcount.switches
    have hslice := slice_front harms hcount.switch_arms
    simp only [dump_operands, Line.row, hindex, dump_switch, hslice, bind, Except.bind, pure,
      Except.pure, blank_arms]
    have hval : s!" %v{discr}" = " " ++ Slot.val.word discr :=
      (blank_val discr).trans (behind_singleton _)
    have hblock : s!" bb{default}" = " " ++ Slot.block.word default :=
      (blank_block default).trans (behind_singleton _)
    rw [Operands.words, behind_cons, behind_cons, ← hval, ← hblock]
    simp only [String.append_assoc]

/-! ## Lines -/

theorem behind_policy (op : Op) : trailing_modifier op = behind (policy_words op) := by
  cases op <;> first | rfl | (rename_i p; cases p <;> rfl)

theorem place_root_front {d : DeclFmir} {roots pre : List UInt32} {root : UInt32}
    (hplaces : d.places = places_of roots) (h : pre ++ [root] <+: roots)
    (hlen : roots.length < 2 ^ 32) : place_root d (UInt32.ofNat pre.length) = .ok root := by
  have hget := index_prefix h hlen
  have hrow : d.places.rows[(UInt32.ofNat pre.length).toNat]? = some ⟨root, ⟨0, 0⟩, 0⟩ := by
    rw [hplaces]
    simp only [places_of, getElem?_map, hget]
    rfl
  simp only [place_root, index, hrow]
  rfl

/-- The seed of a line is written if its opcode takes one. -/
theorem dump_seed_reads {d : DeclFmir} {roots : List UInt32} {seed : SeedSpec} {a : AliasSeed}
    {row : InstRow} {k : Nat} (hplaces : d.places = places_of roots)
    (hlen : roots.length < 2 ^ 32) (halias : d.insts.aliases[k]? = some a)
    (h : seed.Reads roots a) :
    dump_seed d (some k) row =
      .ok (behind (if row.op.is_memory_producing then seed.words else [])) := by
  have ha : d.insts.alias_ k = a := by rw [InstPool.alias_, halias, Option.getD_some]
  unfold dump_seed
  by_cases hmem : row.op.is_memory_producing = true
  · simp only [hmem, not_true, if_false, if_true, ha]
    cases seed with
    | None =>
      obtain rfl : a = .None := h
      rfl
    | Conv c =>
      obtain rfl : a = .Conv c := h
      simp only [SeedSpec.words, behind_cons, behind_nil, String.append_empty]
      simp only [← String.append_assoc]
      rfl
    | Own root =>
      obtain ⟨pre, hroot, rfl⟩ := h
      simp only [place_root_front hplaces hroot hlen, bind, Except.bind, pure, Except.pure,
        SeedSpec.words, behind_cons, behind_nil, String.append_empty]
      simp only [← String.append_assoc]
      rfl
    | Arena id =>
      obtain rfl : a = .Arena id := h
      simp only [SeedSpec.words, behind_cons, behind_nil, String.append_empty]
      simp only [← String.append_assoc]
      rfl
    | Split root side =>
      obtain ⟨pre, hroot, rfl⟩ := h
      simp only [place_root_front hplaces hroot hlen, bind, Except.bind, pure, Except.pure,
        SeedSpec.words, behind_cons, behind_nil, String.append_empty]
      simp only [← String.append_assoc]
      rfl
  · simp only [hmem]
    rfl

variable {d : DeclFmir} {p : Pools} {l : Line} {slots : Slots} {nv nb k next : Nat}

theorem do_text (head : String) (ws vs : List String) :
    s!"do {head}{behind ws}{behind vs}\n" = line_text ("do" :: head :: (ws ++ vs)) := by
  change "do " ++ head ++ behind ws ++ behind vs ++ "\n" = _
  rw [line_text, behind_cons, behind_append, show "do " = "do" ++ " " from rfl]
  simp only [String.append_assoc]

theorem val_text (id : ValId) (head : String) (ws vs ss : List String) (v : Typed) :
    s!"val %v{id} = {head}{behind ws}{behind vs} ty {v.ty} " ++
        s!"{secret_tok v.flags} {ct_tok v.ct}{behind ss}\n" =
      line_text ("val" :: Slot.val.word id :: "=" :: (head :: (ws ++ vs) ++ v.words ++ ss)) := by
  change "val %v" ++ toString id ++ " = " ++ head ++ behind ws ++ behind vs ++ " ty " ++
    toString v.ty ++ " " ++ (secret_tok v.flags ++ " " ++ ct_tok v.ct ++ behind ss ++ "\n") = _
  rw [line_text, cons_append, cons_append, show "val %v" = "val" ++ (" " ++ "%v") from rfl,
    show " = " = " " ++ "=" ++ " " from rfl, show " ty " = " " ++ "ty" ++ " " from rfl]
  simp only [Typed.words, behind_cons, behind_append, behind_nil, String.append_assoc,
    String.empty_append]
  rfl

/-- An instruction that defines no value, or a terminator, is a `do` line. -/
theorem dump_do (hreads : l.operands.Reads d.insts slots) (hcount : d.insts.Countable)
    (hwf : l.Wf nv nb) (hnv : nv < 2 ^ 32) (alias_idx : Option Nat) {dest : Option ValId}
    (hdo : dest = none ∨ l.op.is_terminator = true) :
    dump_inst_as_do d alias_idx (l.row slots) dest = .ok (line_text ("do" :: l.inst_words)) := by
  unfold dump_inst_as_do
  rw [dump_operands_reads hreads hcount hwf hnv, Line.inst_words, ← do_text, ← behind_policy]
  simp only [bind, Except.bind]
  split
  · rename_i hterm
    obtain hdo | hdo := hdo
    · cases hdo
    · rw [show (l.row slots).op = l.op from rfl, hdo] at hterm
      cases hterm
  · rfl

/-- The line of an instruction in the pools. -/
theorem dump_line (hinsts : d.insts = p.insts) (hvals : d.vals = p.vals)
    (hplaces : d.places = places_of p.roots) (hroots : p.roots.length < 2 ^ 32)
    (hcount : d.insts.Countable) (hnext : next < 2 ^ 32) (hwf : l.Wf nv nb) (hnv : nv < 2 ^ 32)
    (h : l.Reads p k next) :
    ∃ slots, p.insts.rows[k]? = some (l.row slots) ∧
      dump_inst_as_do d (some k) (l.row slots) (p.dests[k]?.getD none) =
        .ok (line_text (l.words next)) := by
  obtain ⟨slots, hslots, hrow⟩ := h.row
  refine ⟨slots, hrow, ?_⟩
  rw [← hinsts] at hslots
  have hdest := h.dest
  unfold Line.DestReads at hdest
  split at hdest
  · rename_i hnone
    rw [hdest, Option.getD_some, dump_do hslots hcount hwf hnv _ (.inl rfl), Line.words, hnone]
  · rename_i v seed hsome
    obtain ⟨hdest, hentry⟩ := hdest
    rw [hdest, Option.getD_some]
    cases hterm : l.op.is_terminator with
    | true => rw [dump_do hslots hcount hwf hnv _ (.inr hterm), Line.words, hsome, hterm]
    | false =>
      obtain ⟨a, ha, halias⟩ := h.alias_
      have hseed : l.seed = seed := by simp [Line.seed, hsome]
      rw [hseed] at ha
      rw [← hinsts] at halias
      have hid : (UInt32.ofNat next).toNat = next := UInt32.toNat_ofNat_of_lt' hnext
      have hval : d.vals.rows[(UInt32.ofNat next).toNat]? =
          some (v.row (.Inst (UInt32.ofNat k))) := by
        rw [hid, hvals, ValPool.rows, getElem?_map, hentry]
        rfl
      unfold dump_inst_as_do
      rw [dump_operands_reads hslots hcount hwf hnv, show (l.row slots).op = l.op from rfl, hterm]
      simp only [bind, Except.bind, index, hval, dump_seed_reads hplaces hroots halias ha]
      rw [show (l.row slots).op = l.op from rfl, behind_policy, Line.words, hsome, hterm]
      exact congrArg Except.ok (val_text _ _ _ _ _ v)

end Fors.Fmir
