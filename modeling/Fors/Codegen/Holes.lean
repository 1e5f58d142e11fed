import Fors.Codegen.Int
import Fors.Lib.Words

/-!
# The stencil table and its holes

A stencil is a body "encoded once into a static table with placeholder field values, and described by
its holes".  Instantiation "is a copy of the words plus one bit-field insert per hole".

`patch`, `hole_fits`, the operand constructors and `encode` describe each bit-field on their own.  For
every kind of hole they agree: the constructor takes a value exactly when it fits, and the word it
encodes to is the word of any other value, patched.

Source: `crates/fors-codegen-dev/src/stencil.rs`. Principal results: `patches_slot` and
`patches_imm`.
-/

namespace Fors.Codegen

open Fors.Asm Fors.Fmir

/-- `v as u32` of an `i64`. -/
def i64_as_u32 (v : Int) : Word := .ofInt 32 v

/-- Inserts the low `len` bits of `v` at bit `lo`. -/
def bits (w : Word) (lo len : Nat) (v : Word) : Word :=
  let mask : Word := .ofNat 32 (2 ^ len - 1)
  (w &&& ~~~(mask <<< lo)) ||| ((v &&& mask) <<< lo)

/-- The value `fill` gives a hole, "for a stencil starting at `word` 0"; `patch` and `hole_fits` both
begin with it. -/
def Hole.value (h : Hole) (fill : Fill) : Int :=
  let word_bytes : Int := 4 * h.word
  match h.field with
  | .SlotA => fill.slot_a.toNat
  | .SlotB => fill.slot_b.toNat
  | .SlotDst => fill.slot_dst.toNat
  | .Imm i => (fill.imm i).toNat
  | .Trap s => i64_sub (fill.trap s) word_bytes
  | .Call _ => i64_sub fill.call word_bytes
  | .Lit => i64_sub fill.lit word_bytes

/-- `value` in the bit-field of `kind`. -/
def patch_value (w : Word) (kind : HoleKind) (value : Int) : Word :=
  match kind with
  | .LdSt64 => bits w 10 12 (i64_as_u32 (value.tdiv 8))
  | .Imm16 => bits w 5 16 (i64_as_u32 value)
  | .Br19 => bits w 5 19 (i64_as_u32 (value >>> (2 : Nat)))
  | .Br14 => bits w 5 14 (i64_as_u32 (value >>> (2 : Nat)))
  | .Br26 => bits w 0 26 (i64_as_u32 (value >>> (2 : Nat)))
  | .Adr21 =>
    let v := i64_as_u32 value
    bits (bits w 29 2 (v &&& 3)) 5 19 (v >>> 2)

/-- "Patches hole `h` of word `w` with the value `fill` gives it". -/
def patch (w : Word) (h : Hole) (fill : Fill) : Word := patch_value w h.kind (h.value fill)

def value_fits (kind : HoleKind) (v : Int) : Bool :=
  let signed (bits : Nat) (scale : Int) : Bool :=
    v.tmod scale = 0 ∧
      let q := v.tdiv scale
      q ≥ -(2 ^ (bits - 1) : Int) ∧ q < (2 ^ (bits - 1) : Int)
  match kind with
  | .LdSt64 => v ≥ 0 ∧ v.tmod 8 = 0 ∧ v.tdiv 8 ≤ 0xFFF
  | .Imm16 => 0 ≤ v ∧ v ≤ 0xFFFF
  | .Br19 => signed 19 4
  | .Br14 => signed 14 4
  | .Br26 => signed 26 4
  | .Adr21 => signed 21 1

/-- "Does hole `h`'s value under `fill` fit its bit-field?" -/
def hole_fits (h : Hole) (fill : Fill) : Bool := value_fits h.kind (h.value fill)

/-- "One encoded stencil: the static-table entry." -/
structure Stencil where
  key : Key
  words : List Word
  holes : List Hole
  sites : List TrapKind
  calls : Option RtSym

/-- The words of the instructions; one that does not encode is a panic. -/
def encode_all (insts : List Inst) : Except Panic (List Word) :=
  insts.mapM fun i =>
    match encode i with
    | .ok w => .ok w
    | .error e => .error (.does_not_encode e)

namespace Stencil

/-- "Runs `body` on `fill` and encodes it: the reference path the table is built from". -/
def build (key : Key) (fill : Fill) : Except Panic (List Word × Seq) := do
  let ((), s) ← body key (Seq.new fill)
  let words ← encode_all s.insts
  .ok (words, s)

def from_key (key : Key) : Except Panic Stencil := do
  let (words, s) ← build key Fill.placeholder
  let calls := s.holes.findSome? fun h =>
    match h.field with
    | .Call c => some c
    | _ => none
  .ok ⟨key, words, s.holes, s.sites, calls⟩

/-- One hole of the loop of `instantiate_into`. -/
def patch_at (fill : Fill) (base : Nat) (out : List Word) (h : Hole) : Except Panic (List Word) :=
  let i := base + h.word
  match out[i]? with
  | some w => .ok (out.set i (patch w h fill))
  | none => .error .index

/-- "Copy the words, patch every hole: the emit fast path." -/
def instantiate_into (self : Stencil) (fill : Fill) (out : List Word) : Except Panic (List Word) :=
  self.holes.foldlM (patch_at fill out.length) (out ++ self.words)

def instantiate (self : Stencil) (fill : Fill) : Except Panic (List Word) :=
  self.instantiate_into fill []

end Stencil

/-- "The static stencil table"; a later insert of a key stands before the earlier ones. -/
structure Table where
  stencils : List Stencil
  index : List (Key × Nat)

namespace Table

def get (t : Table) (key : Key) : Except Panic Stencil :=
  match t.index.lookup key with
  | some i =>
    match t.stencils[i]? with
    | some s => .ok s
    | none => .error .index
  | none => .error .no_stencil

/-- One key of the loop of `table`. -/
def insert (t : Table) (key : Key) : Except Panic Table := do
  let s ← Stencil.from_key key
  .ok ⟨t.stencils ++ [s], (key, t.stencils.length) :: t.index⟩

end Table

/-- The table, "built once on first use". -/
def table : Except Panic Table := all_keys.foldlM Table.insert ⟨[], []⟩

end Fors.Codegen

/-! ## What a hole holds -/

namespace Fors.Codegen

open Fors.Asm Fors.Fmir BitFields

/-- `r` is what the constructor says of `v`, and `r0` what it says of another value: `v` is taken when
it fits, and then the word of `r0` is patched to the word of `r`. -/
def Patches (kind : HoleKind) (v : Int) (r0 r : Result Inst) : Prop :=
  ∀ i0, r0 = .ok i0 →
    (value_fits kind v = true →
      ∃ i, r = .ok i ∧ patch_value (encode_word i0) kind v = encode_word i) ∧
    (value_fits kind v = false → ∃ e, r = .error e)

theorem toNat_reg_encoding (r : Reg) : r.encoding.toNat < 2 ^ 5 := r.num.isLt

theorem toNat_code (c : Cond) : c.code.toNat < 2 ^ 4 := c.bits.isLt

/-! ## Inserting a field -/

variable {lo len : ℕ}

theorem bits_insert {base : Word} (hb : Clear lo len base) (u v : Word) :
    bits (base ||| (u &&& mask 32 len) <<< lo) lo len v = base ||| (v &&& mask 32 len) <<< lo :=
  insert_over hb u v

/-- The words of `f` differ in the `len` bits at `lo`, which hold its argument. -/
def FieldAt (lo len : ℕ) (f : Word → Word) : Prop :=
  ∃ base, Clear lo len base ∧ ∀ e, f e = base ||| e <<< lo

theorem FieldAt.bits_eq {f : Word → Word} (h : FieldAt lo len f) (u v : Word) :
    bits (f (u &&& mask 32 len)) lo len v = f (v &&& mask 32 len) := by
  obtain ⟨base, hb, hf⟩ := h
  rw [hf, hf, bits_insert hb]

theorem FieldAt.shift {w : Word} (hw : Clear lo len w) :
    FieldAt lo len fun e => w ||| e <<< lo :=
  ⟨w, hw, fun _ => rfl⟩

theorem FieldAt.or {w : Word} {f : Word → Word} (h : FieldAt lo len f)
    (hw : Clear lo len w) : FieldAt lo len fun e => f e ||| w := by
  obtain ⟨base, hb, hf⟩ := h
  refine ⟨base ||| w, hb.or hw, fun e => ?_⟩
  dsimp only
  rw [hf, BitVec.or_assoc, BitVec.or_comm _ w, ← BitVec.or_assoc]

/-! ## Slots -/

/-- A number below `2 ^ 16` in a wider word. -/
theorem setWidth_ofNat {k : ℕ} (hk : k < 2 ^ 16) : (BitVec.ofNat 16 k).setWidth 32 = .ofNat 32 k := by
  apply BitVec.eq_of_toNat_eq
  rw [BitVec.toNat_setWidth, BitVec.toNat_ofNat, BitVec.toNat_ofNat, Nat.mod_eq_of_lt hk]

theorem slot_cases (v : Int) :
    (value_fits .LdSt64 v = true ∧ ∃ imm, UScaledImm12.new v 8 = .ok imm ∧
      imm.encoding = i64_as_u32 (v.tdiv 8) &&& mask 32 12) ∨
    (value_fits .LdSt64 v = false ∧ ∃ e, UScaledImm12.new v 8 = .error e) := by
  unfold value_fits UScaledImm12.new
  dsimp only
  rcases Int.lt_or_le v 0 with hneg | hpos
  · rw [if_pos (.inl hneg), decide_eq_false (fun h => absurd h.1 (by omega))]
    exact .inr ⟨rfl, _, rfl⟩
  obtain ⟨n, rfl⟩ := Int.eq_ofNat_of_zero_le hpos
  rw [show (n : Int).tmod 8 = ((n % 8 : ℕ) : Int) from rfl,
    show (n : Int).tdiv 8 = ((n / 8 : ℕ) : Int) from rfl, Int.toNat_natCast]
  by_cases hmod : n % 8 = 0
  · rw [if_neg (by omega)]
    by_cases hle : n / 8 > 0xFFF
    · rw [if_pos hle, decide_eq_false (by omega)]
      exact .inr ⟨rfl, _, rfl⟩
    · rw [if_neg hle, decide_eq_true (by omega)]
      refine .inl ⟨rfl, _, rfl, ?_⟩
      unfold UScaledImm12.encoding i64_as_u32
      rw [ofInt_and_mask (by omega) (by omega)]
      exact setWidth_ofNat (by omega)
  · rw [if_pos (.inr hmod), decide_eq_false (by omega)]
    exact .inr ⟨rfl, _, rfl⟩

theorem fieldAt_slot (size opc rt : Word) (rn : Reg) (hrt : rt.toNat < 2 ^ 5) :
    FieldAt 10 12 fun e => (size <<< 30) ||| (0b111#32 <<< 27) ||| (0#32 <<< 26) |||
      (0b01#32 <<< 24) ||| (opc <<< 22) ||| (e <<< 10) ||| (rn.encoding <<< 5) ||| rt := by
  refine .or (.or (.shift ?_) ?_) ?_
  · exact ((((clear_shiftLeft (by omega)).or (clear_shiftLeft (by omega))).or
      (clear_shiftLeft (by omega))).or (clear_shiftLeft (by omega))).or (clear_shiftLeft (by omega))
  · exact clear_shiftLeft_of_lt (toNat_reg_encoding rn) (by omega)
  · exact clear_of_lt (hrt.trans (by omega))

/-- The checks of a load or a store do not read the offset. -/
theorem load_store_offset {op : LdStOp} {rt rn : Reg} {imm0 : UScaledImm12} {i0 : Inst}
    (h : Inst.load_store op rt rn (.UnsignedOffset imm0) = .ok i0) :
    i0 = .LoadStoreImm op rt rn (.UnsignedOffset imm0) ∧ ∀ imm,
      Inst.load_store op rt rn (.UnsignedOffset imm) =
        .ok (.LoadStoreImm op rt rn (.UnsignedOffset imm)) := by
  unfold Inst.load_store at h ⊢
  split at h
  · cases h
  rename_i h1
  split at h
  · cases h
  rename_i h2
  split at h
  · cases h
  rename_i h3
  split at h
  · cases h
  cases h
  refine ⟨rfl, fun imm => ?_⟩
  rw [if_neg h1, if_neg h2, if_neg h3, if_neg (fun h => by cases h.1)]

/-- "`ldr`/`str` X, unsigned offset: bits 10..=21 = byte offset / 8." -/
theorem patches_slot (op : LdStOp) (rt rn : Reg) (v0 v : Int) :
    Patches .LdSt64 v
      (((UScaledImm12.new v0 8).map AddrMode.UnsignedOffset).bind fun m =>
        Inst.load_store op rt rn m)
      (((UScaledImm12.new v 8).map AddrMode.UnsignedOffset).bind fun m =>
        Inst.load_store op rt rn m) := by
  intro i0 h0
  obtain ⟨-, imm0, hnew0, henc0⟩ | ⟨-, e0, hnew0⟩ := slot_cases v0
  · rw [hnew0] at h0
    obtain ⟨rfl, hok⟩ := load_store_offset h0
    obtain ⟨hfits, imm, hnew, henc⟩ | ⟨hfits, e, hnew⟩ := slot_cases v
    · refine ⟨fun _ => ⟨_, by rw [hnew]; exact hok imm, ?_⟩, fun h => ?_⟩
      · unfold patch_value encode_word encode_load_store_gp encode_load_store_common
        dsimp only
        rw [henc0, henc]
        exact (fieldAt_slot _ _ _ rn (toNat_reg_encoding rt)).bits_eq _ _
      · rw [hfits] at h
        cases h
    · refine ⟨fun h => ?_, fun _ => ⟨e, by rw [hnew]; rfl⟩⟩
      rw [hfits] at h
      cases h
  · rw [hnew0] at h0
    cases h0

/-! ## Branches -/

theorem branch_cases {bits : ℕ} (hmask : (1#32 <<< (bits % 32)) - 1 = mask 32 bits) (v : Int)
    (what : String) :
    ((v.tmod 4 = 0 ∧ v.tdiv 4 ≥ -(2 ^ (bits - 1) : Int) ∧ v.tdiv 4 < (2 ^ (bits - 1) : Int)) ∧
      ∃ o, BranchOffset.new v bits what = .ok o ∧
        o.encoding = i64_as_u32 (v >>> (2 : ℕ)) &&& mask 32 bits) ∨
    (¬ (v.tmod 4 = 0 ∧ v.tdiv 4 ≥ -(2 ^ (bits - 1) : Int) ∧ v.tdiv 4 < (2 ^ (bits - 1) : Int)) ∧
      ∃ e, BranchOffset.new v bits what = .error e) := by
  unfold BranchOffset.new
  by_cases hmod : v.tmod 4 = 0
  · rw [if_neg (fun h => h hmod)]
    dsimp only
    by_cases hrange : v.tdiv 4 < -(2 ^ (bits - 1) : Int) ∨ v.tdiv 4 > (2 ^ (bits - 1) : Int) - 1
    · rw [if_pos hrange]
      exact .inr ⟨by omega, _, rfl⟩
    · rw [if_neg hrange]
      refine .inl ⟨⟨hmod, by omega, by omega⟩, _, rfl, ?_⟩
      have hshift : v >>> (2 : ℕ) = v.tdiv 4 := by
        rw [Int.shiftRight_eq_div_pow]
        have := Int.mul_tdiv_add_tmod v 4
        omega
      unfold BranchOffset.encoding i64_as_u32
      rw [hmask, hshift]
  · rw [if_pos hmod]
    exact .inr ⟨fun h => hmod h.1, _, rfl⟩

/-- A constructor that takes a branch offset of `bits` bits, and puts it at `lo`. -/
structure Branches (kind : HoleKind) (lo len : ℕ) (f : BranchOffset → Result Inst) : Prop where
  mask : (1#32 <<< (len % 32)) - 1 = mask 32 len
  patch : ∀ w v, patch_value w kind v = bits w lo len (i64_as_u32 (v >>> (2 : ℕ)))
  fits : ∀ v, value_fits kind v = true ↔
    v.tmod 4 = 0 ∧ v.tdiv 4 ≥ -(2 ^ (len - 1) : Int) ∧ v.tdiv 4 < (2 ^ (len - 1) : Int)
  encode : ∃ g, FieldAt lo len g ∧ ∀ o i, f o = .ok i → encode_word i = g o.encoding
  total : ∀ o i, f o = .ok i → ∀ o', ∃ i', f o' = .ok i'

theorem Branches.patches {kind : HoleKind} {f : BranchOffset → Result Inst}
    (h : Branches kind lo len f) (what : String) (v0 v : Int) :
    Patches kind v ((BranchOffset.new v0 len what).bind f)
      ((BranchOffset.new v len what).bind f) := by
  intro i0 h0
  obtain ⟨g, hg, hencode⟩ := h.encode
  obtain ⟨-, o0, hnew0, henc0⟩ | ⟨-, e0, hnew0⟩ := branch_cases h.mask v0 what
  · rw [hnew0] at h0
    have hf0 : f o0 = .ok i0 := h0
    obtain ⟨hfits, o, hnew, henc⟩ | ⟨hfits, e, hnew⟩ := branch_cases h.mask v what
    · obtain ⟨i, hi⟩ := h.total o0 i0 hf0 o
      refine ⟨fun _ => ⟨i, by rw [hnew]; exact hi, ?_⟩, fun hno => ?_⟩
      · rw [h.patch, hencode o0 i0 hf0, hencode o i hi, henc0, henc, hg.bits_eq]
      · rw [(h.fits v).mpr hfits] at hno
        cases hno
    · exact ⟨fun hyes => absurd ((h.fits v).mp hyes) hfits, fun _ => ⟨e, by rw [hnew]; rfl⟩⟩
  · rw [hnew0] at h0
    cases h0

theorem fieldAt_cond (cond : Word) (hcond : cond.toNat < 2 ^ 5) :
    FieldAt 5 19 fun e => (0b0101010#32 <<< 25) ||| (e <<< 5) ||| cond :=
  .or (.shift (clear_shiftLeft (by omega))) (clear_of_lt hcond)

/-- "`b.cond`/`cbz`/`cbnz`: bits 5..=23 = signed word offset." -/
theorem branches_b_cond (cond : Cond) : Branches .Br19 5 19 fun o => .ok (Inst.b_cond cond o) where
  mask := by decide
  patch _ _ := rfl
  fits v := by
    unfold value_fits
    simp
  encode := by
    refine ⟨_, fieldAt_cond cond.code ((toNat_code cond).trans (by decide)), fun o i hi => ?_⟩
    cases hi
    rfl
  total o i _ o' := ⟨_, rfl⟩

theorem fieldAt_compare (is64 is_nonzero rt : Word) (hrt : rt.toNat < 2 ^ 5) :
    FieldAt 5 19 fun e => (is64 <<< 31) ||| (0b011010#32 <<< 25) ||| (is_nonzero <<< 24) |||
      (e <<< 5) ||| rt := by
  refine .or (.shift ?_) (clear_of_lt hrt)
  exact ((clear_shiftLeft (by omega)).or (clear_shiftLeft (by omega))).or
    (clear_shiftLeft (by omega))

theorem branches_compare (is_nonzero : Bool) (rt : Reg) :
    Branches .Br19 5 19 fun o => .ok (.CompareBranch rt.is64 is_nonzero rt o) where
  mask := by decide
  patch _ _ := rfl
  fits v := by
    unfold value_fits
    simp
  encode := by
    refine ⟨_, fieldAt_compare (as_u32 rt.is64) (as_u32 is_nonzero) rt.encoding
      (toNat_reg_encoding rt), fun o i hi => ?_⟩
    cases hi
    rfl
  total o i _ o' := ⟨_, rfl⟩

theorem fieldAt_test (b5 is_nonzero b40 rt : Word) (hrt : rt.toNat < 2 ^ 5) :
    FieldAt 5 14 fun e => (b5 <<< 31) ||| (0b011011#32 <<< 25) ||| (is_nonzero <<< 24) |||
      (b40 <<< 19) ||| (e <<< 5) ||| rt := by
  refine .or (.shift ?_) (clear_of_lt hrt)
  exact (((clear_shiftLeft (by omega)).or (clear_shiftLeft (by omega))).or
    (clear_shiftLeft (by omega))).or (clear_shiftLeft (by omega))

theorem test_branch_ok {is_nonzero : Bool} {rt : Reg} {bit : Nat} {o : BranchOffset} {i : Inst}
    (h : Inst.test_branch is_nonzero rt bit o = .ok i) :
    ∃ bit' : Fin 64, bit'.val = bit ∧ i = .TestBranch is_nonzero rt bit' o ∧
      ∀ o', Inst.test_branch is_nonzero rt bit o' = .ok (.TestBranch is_nonzero rt bit' o') := by
  unfold Inst.test_branch at h ⊢
  by_cases hbit : bit < 64 ∧ (rt.is64 ∨ bit < 32)
  · rw [dif_pos hbit] at h
    exact ⟨⟨bit, hbit.1⟩, rfl, (Except.ok.inj h).symm, fun o' => dif_pos hbit⟩
  · rw [dif_neg hbit] at h
    cases h

/-- "`tbz`/`tbnz`: bits 5..=18 = signed word offset." -/
theorem branches_test (is_nonzero : Bool) (rt : Reg) (bit : Nat) :
    Branches .Br14 5 14 fun o => Inst.test_branch is_nonzero rt bit o where
  mask := by decide
  patch _ _ := rfl
  fits v := by
    unfold value_fits
    simp
  encode := by
    refine ⟨_, fieldAt_test (BitVec.ofNat 32 (bit >>> 5) &&& 1) (as_u32 is_nonzero)
      (BitVec.ofNat 32 bit &&& 0x1F) rt.encoding (toNat_reg_encoding rt), fun o i hi => ?_⟩
    obtain ⟨bit', rfl, rfl, -⟩ := test_branch_ok hi
    unfold encode_word
    rfl
  total o i hi o' := by
    obtain ⟨bit', -, -, hok⟩ := test_branch_ok hi
    exact ⟨_, hok o'⟩

theorem fieldAt_branch (link : Word) :
    FieldAt 0 26 fun e => (link <<< 31) ||| (0b00101#32 <<< 26) ||| (e <<< 0) :=
  .shift ((clear_shiftLeft (by omega)).or (clear_shiftLeft (by omega)))

/-- "`b`/`bl`: bits 0..=25 = signed word offset." -/
theorem branches_b (link : Bool) : Branches .Br26 0 26 fun o => .ok (.Branch link o) where
  mask := by decide
  patch _ _ := rfl
  fits v := by
    unfold value_fits
    simp
  encode := by
    refine ⟨_, fieldAt_branch (as_u32 link), fun o i hi => ?_⟩
    cases hi
    rw [BitVec.shiftLeft_zero]
    rfl
  total o i _ o' := ⟨_, rfl⟩

/-! ## Immediates -/

theorem fieldAt_imm (sf opc hw rd : Word) (hrd : rd.toNat < 2 ^ 5) :
    FieldAt 5 16 fun e => (sf <<< 31) ||| (opc <<< 29) ||| (0b100101#32 <<< 23) ||| (hw <<< 21) |||
      (e <<< 5) ||| rd := by
  refine .or (.shift ?_) (clear_of_lt hrd)
  exact (((clear_shiftLeft (by omega)).or (clear_shiftLeft (by omega))).or
    (clear_shiftLeft (by omega))).or (clear_shiftLeft (by omega))

theorem setWidth_imm (imm : BitVec 16) :
    imm.setWidth 32 = i64_as_u32 imm.toNat &&& mask 32 16 := by
  unfold i64_as_u32
  rw [ofInt_and_mask imm.isLt (by omega), BitVec.ofNat_toNat]

/-- "`movz`/`movk`: bits 5..=20 = imm16." -/
theorem patches_imm (op : MovWideOp) (rd : Reg) (shift : Nat) (imm0 imm : BitVec 16) :
    Patches .Imm16 imm.toNat (Inst.mov_wide op rd imm0 shift) (Inst.mov_wide op rd imm shift) := by
  intro i0 h0
  have hfits : value_fits .Imm16 imm.toNat = true := by
    have := imm.isLt
    unfold value_fits
    simp only [decide_eq_true_eq]
    omega
  refine ⟨fun _ => ?_, fun h => ?_⟩
  · unfold Inst.mov_wide at h0 ⊢
    by_cases hshift : shift > (if rd.is64 then 48 else 16) ∨ shift % 16 ≠ 0
    · rw [if_pos hshift] at h0
      cases h0
    · rw [if_neg hshift] at h0
      obtain rfl := (Except.ok.inj h0).symm
      refine ⟨_, if_neg hshift, ?_⟩
      unfold encode_word patch_value
      dsimp only
      rw [setWidth_imm imm0, setWidth_imm imm]
      exact (fieldAt_imm _ _ _ _ (toNat_reg_encoding rd)).bits_eq _ _
  · rw [hfits] at h
    cases h

/-! ## Literals -/

theorem FieldAt.first : FieldAt lo len fun e => e <<< lo := by
  refine ⟨0, fun i _ _ => BitVec.getLsbD_zero, fun e => ?_⟩
  exact BitVec.zero_or.symm

theorem fieldAt_immlo (immhi rd : Word) (hhi : immhi.toNat < 2 ^ 19) (hrd : rd.toNat < 2 ^ 5) :
    FieldAt 29 2 fun e => (e <<< 29) ||| (0b10000#32 <<< 24) ||| (immhi <<< 5) ||| rd := by
  refine .or (.or (.or .first ?_) ?_) ?_
  · exact clear_shiftLeft_of_lt (m := 5) (by decide) (by omega)
  · exact clear_shiftLeft_of_lt hhi (by omega)
  · exact clear_of_lt (hrd.trans (by decide))

theorem fieldAt_immhi (immlo rd : Word) (hrd : rd.toNat < 2 ^ 5) :
    FieldAt 5 19 fun e => (immlo <<< 29) ||| (0b10000#32 <<< 24) ||| (e <<< 5) ||| rd := by
  refine .or (.shift ?_) (clear_of_lt hrd)
  exact (clear_shiftLeft (by omega)).or (clear_shiftLeft (by omega))

/-- The two halves of an immediate of 21 bits. -/
theorem immlo_eq (u : Word) : (u &&& 0x1FFFFF) &&& 0b11 = (u &&& 3) &&& mask 32 2 := by
  rw [show (0x1FFFFF : Word) = mask 32 21 from rfl, show (0b11 : Word) = mask 32 2 from rfl]
  apply BitVec.eq_of_getLsbD_eq
  intro i hi
  simp only [BitVec.getLsbD_and, getLsbD_mask]
  by_cases hlow : i < 2
  · simp [hlow, hi, show i < 21 by omega]
  · simp [hlow]

theorem immhi_eq (u : Word) : (u &&& 0x1FFFFF) >>> 2 = (u >>> 2) &&& mask 32 19 := by
  rw [show (0x1FFFFF : Word) = mask 32 21 from rfl]
  apply BitVec.eq_of_getLsbD_eq
  intro i hi
  simp only [BitVec.getLsbD_and, BitVec.getLsbD_ushiftRight, getLsbD_mask]
  by_cases hlow : i < 19
  · simp [hlow, hi, show 2 + i < 21 by omega, show 2 + i < 32 by omega]
  · simp [hlow, show ¬ 2 + i < 21 by omega]

theorem literal_cases (v : Int) :
    (value_fits .Adr21 v = true ∧ AdrOffset.new v = .ok ⟨i64_as_u32 v⟩) ∨
    (value_fits .Adr21 v = false ∧ ∃ e, AdrOffset.new v = .error e) := by
  unfold value_fits AdrOffset.new
  dsimp only
  rw [Int.tmod_one, Int.tdiv_one]
  by_cases h : -(2 ^ 20 : Int) ≤ v ∧ v < 2 ^ 20
  · rw [if_neg (fun hno => hno h), decide_eq_true ⟨rfl, h⟩]
    exact .inl ⟨rfl, rfl⟩
  · rw [if_pos h, decide_eq_false (fun hyes => h hyes.2)]
    exact .inr ⟨rfl, _, rfl⟩

/-- "`adr`: immlo bits 29..=30, immhi bits 5..=23 (signed byte offset)." -/
theorem patches_adr (rd : Reg) (v0 v : Int) :
    Patches .Adr21 v ((AdrOffset.new v0).bind fun o => Inst.adr rd o)
      ((AdrOffset.new v).bind fun o => Inst.adr rd o) := by
  intro i0 h0
  obtain ⟨-, hnew0⟩ | ⟨-, e0, hnew0⟩ := literal_cases v0
  · rw [hnew0] at h0
    have hadr0 : Inst.adr rd ⟨i64_as_u32 v0⟩ = .ok i0 := h0
    unfold Inst.adr at hadr0
    by_cases hrd : ¬ rd.is64
    · rw [if_pos hrd] at hadr0
      cases hadr0
    rw [if_neg hrd] at hadr0
    obtain rfl := (Except.ok.inj hadr0).symm
    obtain ⟨hfits, hnew⟩ | ⟨hfits, e, hnew⟩ := literal_cases v
    · refine ⟨fun _ => ⟨.Adr rd ⟨i64_as_u32 v⟩, ?_, ?_⟩, fun h => ?_⟩
      · rw [hnew]
        exact if_neg hrd
      · unfold encode_word patch_value AdrOffset.encoding
        dsimp only
        generalize i64_as_u32 v0 = u0
        generalize i64_as_u32 v = u
        have hrd5 := toNat_reg_encoding rd
        rw [immlo_eq u0, immhi_eq u0, immlo_eq u, immhi_eq u]
        have hhi : ((u0 >>> 2) &&& mask 32 19).toNat < 2 ^ 19 := by
          rw [toNat_and_mask _ (by omega)]
          exact Nat.mod_lt _ (by decide)
        have hlo := (fieldAt_immlo _ _ hhi hrd5).bits_eq (u0 &&& 3) (u &&& 3)
        have hhi' := (fieldAt_immhi ((u &&& 3) &&& mask 32 2) _ hrd5).bits_eq (u0 >>> 2) (u >>> 2)
        rw [← hhi']
        exact congrArg (fun w => bits w 5 19 (u >>> 2)) hlo
      · rw [hfits] at h
        cases h
    · refine ⟨fun h => ?_, fun _ => ⟨e, by rw [hnew]; rfl⟩⟩
      rw [hfits] at h
      cases h
  · rw [hnew0] at h0
    cases h0

end Fors.Codegen
