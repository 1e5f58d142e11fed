import Fors.Asm.Fields

/-!
# One word, one instruction

`encode` is meant to keep different instructions apart.  It does so among instructions whose offsets
were validated for their fields, as long as no register of number 31 stands in a field whose
constructor does not say which register that is (`Clear`).  An offset validated for a wider field
reaches the rest of the word.

Source: `crates/fors-asm/src/inst.rs`. Principal results: `same_of_fitting` and `same_of_alone`.
-/

namespace Fors.Asm

open List

attribute [local instance] neZero_num

/-! ## The same operation on the same operands -/

/-- The instruction without the tags that are there "purely for `Display`", and without the offset
operands that are compared by the bytes that they stand for. -/
def strip : Inst → Inst
  | .AddSubImm op set_flags rd rn imm _ => .AddSubImm op set_flags rd rn imm .None
  | .AddSubShiftedReg op set_flags rd rn rm shift _ =>
    .AddSubShiftedReg op set_flags rd rn rm shift .None
  | .AddSubExtendedReg op set_flags rd rn rm extend _ =>
    .AddSubExtendedReg op set_flags rd rn rm extend .None
  | .LogicalImmInst op rd rn imm _ => .LogicalImmInst op rd rn imm .None
  | .LogicalShiftedReg op rd rn rm shift _ => .LogicalShiftedReg op rd rn rm shift .None
  | .Bitfield op rd rn immr imms _ => .Bitfield op rd rn immr imms .None
  | .DataProc3Source op rd rn rm ra _ => .DataProc3Source op rd rn rm ra false
  | .CondSelect op rd rn rm cond _ => .CondSelect op rd rn rm cond .None
  | .Branch link _ => .Branch link ⟨0, 0⟩
  | .BranchCond cond _ => .BranchCond cond ⟨0, 0⟩
  | .CompareBranch is64 is_nonzero rt _ => .CompareBranch is64 is_nonzero rt ⟨0, 0⟩
  | .TestBranch is_nonzero rt bit _ => .TestBranch is_nonzero rt bit ⟨0, 0⟩
  | .LoadStoreImm op rt rn (.UnsignedOffset _) => .LoadStoreImm op rt rn (.UnsignedOffset ⟨0, 0⟩)
  | .LoadStorePair is_load is64 rt1 rt2 rn _ index =>
    .LoadStorePair is_load is64 rt1 rt2 rn ⟨0, 0⟩ index
  | .FpLoadStoreImm is_load rt rn (.UnsignedOffset _) =>
    .FpLoadStoreImm is_load rt rn (.UnsignedOffset ⟨0, 0⟩)
  | i => i

def offset_bytes : Inst → Int
  | .Branch _ offset => offset.bytes
  | .BranchCond _ offset => offset.bytes
  | .CompareBranch _ _ _ offset => offset.bytes
  | .TestBranch _ _ _ offset => offset.bytes
  | .LoadStoreImm _ _ _ (.UnsignedOffset imm) => imm.bytes
  | .LoadStorePair _ _ _ _ _ imm _ => imm.bytes
  | .FpLoadStoreImm _ _ _ (.UnsignedOffset imm) => imm.bytes
  | _ => 0

/-- "The same operation on the same operands", SP and XZR being two registers. -/
structure Same (i j : Inst) : Prop where
  operation : strip i = strip j
  offset : offset_bytes i = offset_bytes j

/-! ## When the word says it all -/

def AddrMode.Clear : AddrMode → Prop
  | .RegOffset ro => ro.rm.num ≠ 31
  | _ => True

/-- No register of number 31 stands where its constructor accepts both SP and the zero register, and
a bit is tested in the only width that has it. -/
def Clear : Inst → Prop
  | .MovWide _ rd _ _ => rd.num ≠ 31
  | .AddSubExtendedReg _ _ rd rn _ _ _ => rd.num ≠ 31 ∧ rn.num ≠ 31
  | .LogicalImmInst op rd _ _ _ => op = .Ands ∨ rd.num ≠ 31
  | .DataProc3Source .Madd rd rn rm ra _ => ra.num = 31 → rd.num ≠ 31 ∧ rn.num ≠ 31 ∧ rm.num ≠ 31
  | .DataProc3Source .Msub _ _ _ _ _ => True
  | .DataProc3Source _ rd rn rm _ _ => rd.num ≠ 31 ∧ rn.num ≠ 31 ∧ rm.num ≠ 31
  | .Adr rd _ => rd.num ≠ 31
  | .Adrp rd _ => rd.num ≠ 31
  | .CompareBranch _ _ rt _ => rt.num ≠ 31
  | .TestBranch _ rt bit _ => rt.num ≠ 31 ∧ 32 ≤ bit.val
  | .BranchReg rn => rn.num ≠ 31
  | .BranchLinkReg rn => rn.num ≠ 31
  | .Ret rn => rn.num ≠ 31
  | .LoadStoreImm _ rt _ mode => rt.num ≠ 31 ∧ mode.Clear
  | .LoadStorePair _ _ rt1 rt2 rn _ _ => rt1.num ≠ 31 ∧ rt2.num ≠ 31 ∧ rn.num ≠ 31
  | .FpLoadStoreImm _ _ rn mode => rn.num ≠ 31 ∧ mode.Clear
  | .FpToGp rd _ => rd.num ≠ 31
  | .GpToFp _ rn => rn.num ≠ 31
  | .FpIntConvert _ gp _ => gp.num ≠ 31
  | _ => True

/-- The number of bytes that a load or store of `op` moves. -/
def LdStOp.access_size (op : LdStOp) : Nat := 2 ^ op.size_opc.1.toNat

/-- A scaled offset was validated for the bytes that are moved. -/
def Sized : Inst → Prop
  | .LoadStoreImm op _ _ (.UnsignedOffset imm) => imm.access_size = op.access_size
  | .LoadStorePair _ is64 _ _ _ imm _ => imm.access_size = if is64 then 8 else 4
  | .FpLoadStoreImm _ rt _ (.UnsignedOffset imm) => imm.access_size = if rt.is_double then 8 else 4
  | _ => True

/-- The offsets were validated for this instruction. -/
structure Fitting (i : Inst) : Prop where
  in_field : InField i
  sized : Sized i

/-- No other instruction can have the word, whatever its offset was validated for. -/
structure Alone (i : Inst) : Prop where
  not_crowded : ¬ (shape i).Crowded
  clear : Clear i
  no_offset : offset_bytes i = 0

theorem mode_eq {mode mode' : AddrMode} (hm : mode.Made) (hm' : mode'.Made)
    (hform : mode.form = mode'.form) (hvalues : mode.values = mode'.values) (hclear : mode.Clear) :
    (∃ imm imm', mode = .UnsignedOffset imm ∧ mode' = .UnsignedOffset imm' ∧
      imm.scaled = imm'.scaled) ∨ mode = mode' := by
  cases mode with
  | UnsignedOffset imm =>
    cases mode' with
    | UnsignedOffset imm' =>
      exact .inl ⟨imm, imm', rfl, rfl, UScaledImm12.scaled_eq (head_eq_of_cons_eq hvalues)⟩
    | _ => cases hform
  | Unscaled imm =>
    cases mode' with
    | Unscaled imm' =>
      exact .inr (congrArg _ (Simm9.Made.eq hm hm' (head_eq_of_cons_eq hvalues)))
    | _ => cases hform
  | PreIndex imm =>
    cases mode' with
    | PreIndex imm' =>
      exact .inr (congrArg _ (Simm9.Made.eq hm hm' (head_eq_of_cons_eq hvalues)))
    | _ => cases hform
  | PostIndex imm =>
    cases mode' with
    | PostIndex imm' =>
      exact .inr (congrArg _ (Simm9.Made.eq hm hm' (head_eq_of_cons_eq hvalues)))
    | _ => cases hform
  | RegOffset ro =>
    cases mode' with
    | RegOffset ro' =>
      simp only [AddrMode.values, cons.injEq, and_true] at hvalues
      obtain ⟨hrm, hextend, hshifted⟩ := hvalues
      exact .inr (congrArg _ (RegOffset.Made.eq hm hm' hclear hrm hextend hshifted))
    | _ => cases hform

variable {rd rn rd' rn' : Reg}

/-- Three registers that are not SP, read back. -/
theorem ThreeRegs.eq {rm rm' : Reg} (h : ThreeRegs rd rn rm)
    (h' : ThreeRegs rd' rn' rm') (hsf : sf rd = sf rd') (hrm : rm.encoding = rm'.encoding)
    (hrn : rn.encoding = rn'.encoding) (hrd : rd.encoding = rd'.encoding) :
    rd = rd' ∧ rn = rn' ∧ rm = rm' := by
  have hw := sf_inj hsf
  refine ⟨?_, ?_, ?_⟩
  · exact Reg.eq_of_no_sp h.rd_made h'.rd_made hrd hw h.rd_no_sp h'.rd_no_sp
  · exact Reg.eq_of_no_sp h.rn_made h'.rn_made hrn
      (h.same_width.symm.trans (hw.trans h'.same_width)) h.rn_no_sp h'.rn_no_sp
  · exact Reg.eq_of_no_sp h.rm_made h'.rm_made hrm
      (h.rm_width.symm.trans (hw.trans h'.rm_width)) h.rm_no_sp h'.rm_no_sp

theorem TwoRegs.eq (h : TwoRegs rd rn) (h' : TwoRegs rd' rn')
    (hsf : sf rd = sf rd') (hrn : rn.encoding = rn'.encoding) (hrd : rd.encoding = rd'.encoding) :
    rd = rd' ∧ rn = rn' := by
  have hw := sf_inj hsf
  refine ⟨?_, ?_⟩
  · exact Reg.eq_of_no_sp h.rd_made h'.rd_made hrd hw h.rd_no_sp h'.rd_no_sp
  · exact Reg.eq_of_no_sp h.rn_made h'.rn_made hrn
      (h.same_width.symm.trans (hw.trans h'.same_width)) h.rn_no_sp h'.rn_no_sp

/-- The bit number, read back from its two parts. -/
theorem test_bit_eq {bit bit' : Fin 64}
    (h5 : (BitVec.ofNat 32 (bit.val >>> 5) &&& 1 : Word) = (BitVec.ofNat 32 (bit'.val >>> 5) &&& 1 : Word))
    (h40 : (BitVec.ofNat 32 bit.val &&& 0x1F : Word) = (BitVec.ofNat 32 bit'.val &&& 0x1F : Word)) :
    bit = bit' := by
  have hhigh : ∀ b : Fin 64, (BitVec.ofNat 32 (b.val >>> 5) &&& 1 : Word).toNat = b.val / 32 := by
    decide +kernel
  have hlow : ∀ b : Fin 64, (BitVec.ofNat 32 b.val &&& 0x1F : Word).toNat = b.val % 32 := by
    decide +kernel
  have h5 := congrArg BitVec.toNat h5
  have h40 := congrArg BitVec.toNat h40
  rw [hhigh, hhigh] at h5
  rw [hlow, hlow] at h40
  exact Fin.ext (by omega)

/-- The values of a load or store, slot by slot. -/
theorem load_store_values {mode mode' : AddrMode} {size opc rn rt size' opc' rn' rt' : Word}
    (hvalues : [size, opc] ++ mode.values ++ [rn, rt] = [size', opc'] ++ mode'.values ++ [rn', rt']) :
    size = size' ∧ opc = opc' ∧ mode.values = mode'.values ∧ rn = rn' ∧ rt = rt' := by
  have hlen : mode.values.length = mode'.values.length := by
    have hlen := congrArg List.length hvalues
    simpa using hlen
  rw [append_assoc, append_assoc] at hvalues
  obtain ⟨hhead, htail⟩ := append_inj hvalues rfl
  obtain ⟨hmode, hlast⟩ := append_inj htail hlen
  simp only [cons.injEq, and_true] at hhead hlast
  exact ⟨hhead.1, hhead.2, hmode, hlast.1, hlast.2⟩

theorem data_proc_3_eq {op : DataProc3Op} {rm ra rm' ra' : Reg} {m m' : Bool}
    (hi : Valid (.DataProc3Source op rd rn rm ra m))
    (hj : Valid (.DataProc3Source op rd' rn' rm' ra' m')) (hw : rd.is64 = rd'.is64)
    (hrm : rm.encoding = rm'.encoding) (hra : ra.encoding = ra'.encoding)
    (hrn : rn.encoding = rn'.encoding) (hrd : rd.encoding = rd'.encoding)
    (hclear : Clear (.DataProc3Source op rd rn rm ra m)) :
    rd = rd' ∧ rn = rn' ∧ rm = rm' ∧ ra = ra' := by
  have hsf : sf rd = sf rd' := congrArg as_u32 hw
  cases op with
  | Madd =>
    obtain ⟨hd, hn, hm, ha, hwn, hwm, hwa, hsp, hplain⟩ := hi
    obtain ⟨hd', hn', hm', ha', hwn', hwm', hwa', hsp', hplain'⟩ := hj
    have hacc := Reg.eq_of_no_sp ha ha' hra (hwa.symm.trans (hw.trans hwa')) hsp hsp'
    by_cases hzero : ra.num = 31
    · obtain ⟨hdnum, hnnum, hmnum⟩ := hclear hzero
      exact ⟨Reg.eq_of_num hd hd' hrd hw hdnum,
        Reg.eq_of_num hn hn' hrn (hwn.symm.trans (hw.trans hwn')) hnnum,
        Reg.eq_of_num hm hm' hrm (hwm.symm.trans (hw.trans hwm')) hmnum, hacc⟩
    · obtain ⟨h1, h2, h3⟩ := ThreeRegs.eq (hplain hzero) (hplain' (hacc ▸ hzero)) hsf hrm hrn hrd
      exact ⟨h1, h2, h3, hacc⟩
  | Msub =>
    obtain ⟨h1, h2, h3⟩ := ThreeRegs.eq hi.1 hj.1 hsf hrm hrn hrd
    exact ⟨h1, h2, h3, (TwoRegs.eq hi.2 hj.2 hsf hra hrd).2⟩
  | Smulh | Umulh =>
    obtain ⟨hd, hn, hm, -, hwn, hwm, rfl⟩ := hi
    obtain ⟨hd', hn', hm', -, hwn', hwm', rfl⟩ := hj
    obtain ⟨hdnum, hnnum, hmnum⟩ := hclear
    exact ⟨Reg.eq_of_num hd hd' hrd hw hdnum,
      Reg.eq_of_num hn hn' hrn (hwn.trans hwn'.symm) hnnum,
      Reg.eq_of_num hm hm' hrm (hwm.trans hwm'.symm) hmnum, rfl⟩

variable {i j : Inst}

theorem fp_size_inj {rt rt' : FpReg}
    (h : (if rt.is_double then 0b11 else 0b10 : Word) = if rt'.is_double then 0b11 else 0b10) :
    rt.is_double = rt'.is_double := by
  cases hd : rt.is_double <;> cases hd' : rt'.is_double <;>
    first | rfl | exact absurd h (by rw [hd, hd']; decide)

theorem pair_opc_inj {is64 is64' : Bool}
    (h : (if is64 then 0b10 else 0b00 : Word) = if is64' then 0b10 else 0b00) : is64 = is64' := by
  cases is64 <;> cases is64' <;> first | rfl | exact absurd h (by decide)

/-! ## Pairs of one class -/

/-- Two instructions of one data-processing class. -/
inductive SameData : Inst → Inst → Prop where
  | MovWide {a b c d a' b' c' d'} : SameData (.MovWide a b c d) (.MovWide a' b' c' d')
  | AddSubImm {a b c d e f a' b' c' d' e' f'} :
    SameData (.AddSubImm a b c d e f) (.AddSubImm a' b' c' d' e' f')
  | AddSubShiftedReg {a b c d e f g a' b' c' d' e' f' g'} :
    SameData (.AddSubShiftedReg a b c d e f g) (.AddSubShiftedReg a' b' c' d' e' f' g')
  | AddSubExtendedReg {a b c d e f g a' b' c' d' e' f' g'} :
    SameData (.AddSubExtendedReg a b c d e f g) (.AddSubExtendedReg a' b' c' d' e' f' g')
  | LogicalImmInst {a b c d e a' b' c' d' e'} :
    SameData (.LogicalImmInst a b c d e) (.LogicalImmInst a' b' c' d' e')
  | LogicalShiftedReg {a b c d e f a' b' c' d' e' f'} :
    SameData (.LogicalShiftedReg a b c d e f) (.LogicalShiftedReg a' b' c' d' e' f')
  | Bitfield {a b c d e f a' b' c' d' e' f'} :
    SameData (.Bitfield a b c d e f) (.Bitfield a' b' c' d' e' f')
  | DataProc2Source {a b c d a' b' c' d'} :
    SameData (.DataProc2Source a b c d) (.DataProc2Source a' b' c' d')
  | DataProc3Source {a b c d e f a' b' c' d' e' f'} :
    SameData (.DataProc3Source a b c d e f) (.DataProc3Source a' b' c' d' e' f')
  | DataProc1Source {a b c a' b' c'} : SameData (.DataProc1Source a b c) (.DataProc1Source a' b' c')
  | CondSelect {a b c d e f a' b' c' d' e' f'} :
    SameData (.CondSelect a b c d e f) (.CondSelect a' b' c' d' e' f')
  | Adr {a b a' b'} : SameData (.Adr a b) (.Adr a' b')
  | Adrp {a b a' b'} : SameData (.Adrp a b) (.Adrp a' b')

/-- Two instructions of one branch or system class. -/
inductive SameControl : Inst → Inst → Prop where
  | Branch {a b a' b'} : SameControl (.Branch a b) (.Branch a' b')
  | BranchCond {a b a' b'} : SameControl (.BranchCond a b) (.BranchCond a' b')
  | CompareBranch {a b c d a' b' c' d'} :
    SameControl (.CompareBranch a b c d) (.CompareBranch a' b' c' d')
  | TestBranch {a b c d a' b' c' d'} : SameControl (.TestBranch a b c d) (.TestBranch a' b' c' d')
  | BranchReg {a a'} : SameControl (.BranchReg a) (.BranchReg a')
  | BranchLinkReg {a a'} : SameControl (.BranchLinkReg a) (.BranchLinkReg a')
  | Ret {a a'} : SameControl (.Ret a) (.Ret a')
  | Nop : SameControl (.System .Nop) (.System .Nop)
  | Brk {a a'} : SameControl (.System (.Brk a)) (.System (.Brk a'))
  | Svc {a a'} : SameControl (.System (.Svc a)) (.System (.Svc a'))
  | Udf {a a'} : SameControl (.System (.Udf a)) (.System (.Udf a'))

/-- Two instructions of one load or store class. -/
inductive SameMemory : Inst → Inst → Prop where
  | LoadStoreImm {a b c d a' b' c' d'} (h : d.form = d'.form) :
    SameMemory (.LoadStoreImm a b c d) (.LoadStoreImm a' b' c' d')
  | LoadStorePair {a b c d e f g a' b' c' d' e' f' g'} :
    SameMemory (.LoadStorePair a b c d e f g) (.LoadStorePair a' b' c' d' e' f' g')
  | FpLoadStoreImm {a b c d a' b' c' d'} (h : d.form = d'.form) :
    SameMemory (.FpLoadStoreImm a b c d) (.FpLoadStoreImm a' b' c' d')

/-- Two instructions of one floating-point class. -/
inductive SameFp : Inst → Inst → Prop where
  | FpDataProc1 {a b c a' b' c'} : SameFp (.FpDataProc1 a b c) (.FpDataProc1 a' b' c')
  | FpConvert {a b a' b'} : SameFp (.FpConvert a b) (.FpConvert a' b')
  | FpDataProc2 {a b c d a' b' c' d'} : SameFp (.FpDataProc2 a b c d) (.FpDataProc2 a' b' c' d')
  | FpCompare {a b a' b'} : SameFp (.FpCompare a b) (.FpCompare a' b')
  | FpCondSelect {a b c d a' b' c' d'} : SameFp (.FpCondSelect a b c d) (.FpCondSelect a' b' c' d')
  | FpImmMove {a b a' b'} : SameFp (.FpImmMove a b) (.FpImmMove a' b')
  | FpToGp {a b a' b'} : SameFp (.FpToGp a b) (.FpToGp a' b')
  | GpToFp {a b a' b'} : SameFp (.GpToFp a b) (.GpToFp a' b')
  | FpIntConvert {a b c a' b' c'} : SameFp (.FpIntConvert a b c) (.FpIntConvert a' b' c')
  | FpMadd {a b c d a' b' c' d'} : SameFp (.FpMadd a b c d) (.FpMadd a' b' c' d')

/-- Instructions of one shape are of one class. -/
theorem same_class (h : shape i = shape j) :
    SameData i j ∨ SameControl i j ∨ SameMemory i j ∨ SameFp i j := by
  cases i with
  | System op =>
    cases j with
    | System op' =>
      cases op <;> cases op' <;> first
        | exact .inr (.inl (by constructor))
        | cases h
    | _ => cases op <;> cases h
  | _ =>
    cases j with
    | System op' => cases op' <;> cases h
    | _ =>
      first
      | (cases h; done)
      | exact .inl (by constructor)
      | exact .inr (.inl (by constructor))
      | exact .inr (.inr (.inl (.LoadStoreImm (Shape.LoadStore.inj h).2)))
      | exact .inr (.inr (.inl (.FpLoadStoreImm (Shape.LoadStore.inj h).2)))
      | exact .inr (.inr (.inl .LoadStorePair))
      | exact .inr (.inr (.inr (by constructor)))

/-! ## What the values of an instruction leave open is its offset -/

section Strip

variable (hi : Valid i) (hj : Valid j) (hvalues : values i = values j) (hclear : Clear i)

include hi hj hvalues hclear

theorem SameData.strip_eq (h : SameData i j) : strip i = strip j := by
  cases h with simp only [values, cons.injEq, and_true] at hvalues
  | @MovWide op rd imm16 shift op' rd' imm16' shift' =>
    obtain ⟨hsf, hop, hhw, himm, hrd⟩ := hvalues
    obtain ⟨hmade, hmax, hmod⟩ := hi
    obtain ⟨hmade', hmax', hmod'⟩ := hj
    obtain rfl := Reg.eq_of_num hmade hmade' hrd (sf_inj hsf) hclear
    obtain rfl := MovWideOp.opc_inj hop
    obtain rfl := setWidth_16_inj himm
    have hshift : shift = shift' := by
      have hhw := congrArg BitVec.toNat hhw
      rw [BitVec.toNat_ofNat, BitVec.toNat_ofNat] at hhw
      have hle : (if rd.is64 then 48 else 16) ≤ 48 := by split <;> decide
      omega
    rw [hshift]
  | @AddSubImm op set_flags rd rn imm _ op' set_flags' rd' rn' imm' _ =>
    obtain ⟨hsf, hop, hflags, hshift, hraw, hrn, hrd⟩ := hvalues
    obtain ⟨hmade, hmade_n, hwidth, hbase, hdest⟩ := hi
    obtain ⟨hmade', hmade_n', hwidth', hbase', hdest'⟩ := hj
    have hw := sf_inj hsf
    obtain rfl := AddSubOp.inj hop
    obtain rfl := as_u32_inj hflags
    obtain rfl := Uimm12Lsl.eq hshift hraw
    obtain rfl := Reg.eq_of_no_zr hmade_n hmade_n' hrn (hwidth.symm.trans (hw.trans hwidth')) hbase hbase'
    have hrd : rd = rd' := by
      cases set_flags with
      | true => exact Reg.eq_of_no_sp hmade hmade' hrd hw hdest hdest'
      | false => exact Reg.eq_of_no_zr hmade hmade' hrd hw hdest hdest'
    rw [hrd]
    rfl
  | @AddSubShiftedReg op set_flags rd rn rm shift _ op' set_flags' rd' rn' rm' shift' _ =>
    obtain ⟨hsf, hop, hflags, hkind, hrm, hamount, hrn, hrd⟩ := hvalues
    obtain ⟨rfl, rfl, rfl⟩ := ThreeRegs.eq hi hj hsf hrm hrn hrd
    obtain rfl := AddSubOp.inj hop
    obtain rfl := as_u32_inj hflags
    obtain rfl := RegShift.eq hkind hamount
    rfl
  | @AddSubExtendedReg op set_flags rd rn rm extend _ op' set_flags' rd' rn' rm' extend' _ =>
    obtain ⟨hsf, hop, hflags, hrm, hkind, hamount, hrn, hrd⟩ := hvalues
    obtain ⟨hmade, hmade_n, hmade_m, -, hsp, hwidth, hreads, -⟩ := hi
    obtain ⟨hmade', hmade_n', hmade_m', -, hsp', hwidth', hreads', -⟩ := hj
    have hw := sf_inj hsf
    obtain rfl := AddSubOp.inj hop
    obtain rfl := as_u32_inj hflags
    obtain rfl := RegExtend.eq hkind hamount
    obtain rfl := Reg.eq_of_num hmade hmade' hrd hw hclear.1
    obtain rfl := Reg.eq_of_num hmade_n hmade_n' hrn (hwidth.symm.trans hwidth') hclear.2
    obtain rfl := Reg.eq_of_no_sp hmade_m hmade_m' hrm (hreads.trans hreads'.symm) hsp hsp'
    rfl
  | @LogicalImmInst op rd rn imm _ op' rd' rn' imm' _ =>
    obtain ⟨hsf, hop, hn, hr, hs, hrn, hrd⟩ := hvalues
    obtain ⟨hmade, hmade_n, himm, hwidth, hwidth_imm, hsp, hdest⟩ := hi
    obtain ⟨hmade', hmade_n', himm', hwidth', hwidth_imm', hsp', hdest'⟩ := hj
    have hw := sf_inj hsf
    obtain rfl := LogicalImmOp.opc_inj hop
    obtain rfl := LogicalImm.Made.eq himm himm' hn hr hs (hwidth_imm.symm.trans (hw.trans hwidth_imm'))
    obtain rfl := Reg.eq_of_no_sp hmade_n hmade_n' hrn (hwidth.symm.trans (hw.trans hwidth')) hsp hsp'
    have hrd : rd = rd' := by
      rcases hclear with hands | hnum
      · exact Reg.eq_of_no_sp hmade hmade' hrd hw (hdest hands) (hdest' hands)
      · exact Reg.eq_of_num hmade hmade' hrd hw hnum
    rw [hrd]
    rfl
  | @LogicalShiftedReg op rd rn rm shift _ op' rd' rn' rm' shift' _ =>
    obtain ⟨hsf, hopc, hkind, hn, hrm, hamount, hrn, hrd⟩ := hvalues
    obtain ⟨rfl, rfl, rfl⟩ := ThreeRegs.eq hi hj hsf hrm hrn hrd
    obtain rfl := LogicalShiftOp.opc_n_inj hopc hn
    obtain rfl := RegShift.eq hkind hamount
    rfl
  | @Bitfield op rd rn immr imms _ op' rd' rn' immr' imms' _ =>
    obtain ⟨hsf, hopc, -, hr, hs, hrn, hrd⟩ := hvalues
    obtain ⟨rfl, rfl⟩ := TwoRegs.eq hi hj hsf hrn hrd
    obtain rfl := BitfieldOp.opc_inj hopc
    obtain rfl := ofNat_fin64_inj hr
    obtain rfl := ofNat_fin64_inj hs
    rfl
  | @DataProc2Source op rd rn rm op' rd' rn' rm' =>
    obtain ⟨hsf, hrm, hop, hrn, hrd⟩ := hvalues
    obtain ⟨rfl, rfl, rfl⟩ := ThreeRegs.eq hi hj hsf hrm hrn hrd
    rw [DataProc2Op.opcode_inj hop]
  | @DataProc3Source op rd rn rm ra _ op' rd' rn' rm' ra' _ =>
    obtain ⟨hsf, h31, hrm, h0, hra, hrn, hrd⟩ := hvalues
    have hw := sf_inj hsf
    obtain rfl := DataProc3Op.op31_o0_inj h31 h0
    have hregs : rd = rd' ∧ rn = rn' ∧ rm = rm' ∧ ra = ra' :=
      data_proc_3_eq hi hj hw hrm hra hrn hrd hclear
    obtain ⟨rfl, rfl, rfl, rfl⟩ := hregs
    rfl
  | @DataProc1Source op rd rn op' rd' rn' =>
    obtain ⟨hsf, hop, hrn, hrd⟩ := hvalues
    obtain ⟨rfl, rfl⟩ := TwoRegs.eq hi hj hsf hrn hrd
    rw [DataProc1Op.opcode_inj hop]
  | @CondSelect op rd rn rm cond _ op' rd' rn' rm' cond' _ =>
    obtain ⟨hsf, hbit, hrm, hcond, h2, hrn, hrd⟩ := hvalues
    obtain ⟨rfl, rfl, rfl⟩ := ThreeRegs.eq hi hj hsf hrm hrn hrd
    obtain rfl := CondSelectOp.opbit_op2_inj hbit h2
    obtain rfl := Cond.code_inj hcond
    rfl
  | @Adr rd offset rd' offset' =>
    obtain ⟨hlo, hhi, hrd⟩ := hvalues
    obtain ⟨hmade, ho, hwidth⟩ := hi
    obtain ⟨hmade', ho', hwidth'⟩ := hj
    obtain rfl := Reg.eq_of_num hmade hmade' hrd (hwidth.trans hwidth'.symm) hclear
    rw [AdrOffset.Made.eq ho ho' (Prod.ext hlo hhi)]
  | @Adrp rd offset rd' offset' =>
    obtain ⟨hlo, hhi, hrd⟩ := hvalues
    obtain ⟨hmade, ho, hwidth⟩ := hi
    obtain ⟨hmade', ho', hwidth'⟩ := hj
    obtain rfl := Reg.eq_of_num hmade hmade' hrd (hwidth.trans hwidth'.symm) hclear
    rw [AdrpOffset.Made.eq ho ho' (Prod.ext hlo hhi)]

theorem SameControl.strip_eq (h : SameControl i j) : strip i = strip j := by
  cases h with simp only [values, cons.injEq, and_true] at hvalues
  | @Branch link offset link' offset' =>
    obtain ⟨hlink, -⟩ := hvalues
    rw [show link = link' from as_u32_inj hlink]
    rfl
  | @BranchCond cond offset cond' offset' =>
    obtain ⟨-, hcond⟩ := hvalues
    rw [show cond = cond' from Cond.code_inj hcond]
    rfl
  | @CompareBranch is64 is_nonzero rt offset is64' is_nonzero' rt' offset' =>
    obtain ⟨h64, hnonzero, -, hrt⟩ := hvalues
    obtain ⟨hmade, -, hwidth⟩ := hi
    obtain ⟨hmade', -, hwidth'⟩ := hj
    obtain rfl := as_u32_inj h64
    obtain rfl := as_u32_inj hnonzero
    obtain rfl := Reg.eq_of_num hmade hmade' hrt (hwidth.symm.trans hwidth') hclear
    rfl
  | @TestBranch is_nonzero rt bit offset is_nonzero' rt' bit' offset' =>
    obtain ⟨h5, hnonzero, h40, -, hrt⟩ := hvalues
    obtain ⟨hmade, -, hwidth⟩ := hi
    obtain ⟨hmade', -, hwidth'⟩ := hj
    obtain ⟨hnum, hhigh⟩ := hclear
    obtain rfl := as_u32_inj hnonzero
    obtain rfl := test_bit_eq h5 h40
    have h64 : rt.is64 = true := hwidth.resolve_right (by omega)
    have h64' : rt'.is64 = true := hwidth'.resolve_right (by omega)
    obtain rfl := Reg.eq_of_num hmade hmade' hrt (h64.trans h64'.symm) hnum
    rfl
  | @BranchReg rn rn' =>
    rw [Reg.eq_of_num hi.1 hj.1 hvalues (hi.2.trans hj.2.symm) hclear]
  | @BranchLinkReg rn rn' =>
    rw [Reg.eq_of_num hi.1 hj.1 hvalues (hi.2.trans hj.2.symm) hclear]
  | @Ret rn rn' =>
    rw [Reg.eq_of_num hi.1 hj.1 hvalues (hi.2.trans hj.2.symm) hclear]
  | Nop => rfl
  | Brk | Svc | Udf => rw [setWidth_16_inj hvalues]

theorem SameMemory.strip_eq (h : SameMemory i j) : strip i = strip j := by
  cases h with
  | @LoadStoreImm op rt rn mode op' rt' rn' mode' hform =>
    obtain ⟨hmade, hmade_n, hm, hwidth, hzr, h64, -⟩ := hi
    obtain ⟨hmade', hmade_n', hm', hwidth', hzr', h64', -⟩ := hj
    obtain ⟨hsize, hopc, hmode, hrn, hrt⟩ := load_store_values hvalues
    obtain rfl := LdStOp.size_opc_inj hsize hopc
    obtain rfl := Reg.eq_of_num hmade hmade' hrt (hwidth.trans hwidth'.symm) hclear.1
    obtain rfl := Reg.eq_of_no_zr hmade_n hmade_n' hrn (h64.trans h64'.symm) hzr hzr'
    rcases mode_eq hm hm' hform hmode hclear.2 with ⟨_, _, rfl, rfl, _⟩ | rfl
    · rfl
    · rfl
  | @LoadStorePair is_load is64 rt1 rt2 rn imm index is_load' is64' rt1' rt2' rn' imm' index' =>
    simp only [values, cons.injEq, and_true] at hvalues
    obtain ⟨hopc, hindex, hload, -, hrt2, hrn, hrt1⟩ := hvalues
    obtain ⟨hmade1, hmade2, hmade_n, -, hwidth, hwidth2, h64, -⟩ := hi
    obtain ⟨hmade1', hmade2', hmade_n', -, hwidth', hwidth2', h64', -⟩ := hj
    have hw := pair_opc_inj hopc
    obtain ⟨hnum1, hnum2, hnum_n⟩ := hclear
    obtain rfl := Reg.eq_of_num hmade1 hmade1' hrt1 (hwidth.symm.trans (hw.trans hwidth')) hnum1
    obtain rfl := Reg.eq_of_num hmade2 hmade2' hrt2 (hwidth2.symm.trans hwidth2') hnum2
    obtain rfl := Reg.eq_of_num hmade_n hmade_n' hrn (h64.trans h64'.symm) hnum_n
    obtain rfl := PairIndex.mode_inj hindex
    obtain rfl := as_u32_inj hload
    rw [hw]
    rfl
  | @FpLoadStoreImm is_load rt rn mode is_load' rt' rn' mode' hform =>
    obtain ⟨hmade, hm, h64⟩ := hi
    obtain ⟨hmade', hm', h64'⟩ := hj
    obtain ⟨hsize, hopc, hmode, hrn, hrt⟩ := load_store_values hvalues
    obtain rfl := FpReg.eq_of_width hrt (fp_size_inj hsize)
    have hload : is_load = is_load' := by
      cases is_load <;> cases is_load' <;> first | rfl | exact absurd hopc (by decide)
    obtain rfl := Reg.eq_of_num hmade hmade' hrn (h64.trans h64'.symm) hclear.1
    rw [hload]
    rcases mode_eq hm hm' hform hmode hclear.2 with ⟨_, _, rfl, rfl, _⟩ | rfl
    · rfl
    · rfl

theorem SameFp.strip_eq (h : SameFp i j) : strip i = strip j := by
  cases h with simp only [values, cons.injEq, and_true] at hvalues
  | @FpDataProc1 op rd rn op' rd' rn' =>
    obtain ⟨hty, hop, hrn, hrd⟩ := hvalues
    have hw := as_u32_inj hty
    obtain rfl := FpUnaryOp.opcode_inj hop
    obtain rfl := FpReg.eq_of_width hrd hw
    obtain rfl := FpReg.eq_of_width hrn (Eq.trans (Eq.symm hi) hj)
    rfl
  | @FpConvert rd rn rd' rn' =>
    obtain ⟨-, hty, hrn, hrd⟩ := hvalues
    obtain rfl := FpReg.eq_of_width hrd (as_u32_inj hty)
    have hdouble : rn.is_double = rn'.is_double := by
      have hne : rd.is_double ≠ rn.is_double := hi
      have hne' : rd.is_double ≠ rn'.is_double := hj
      cases hd : rd.is_double <;> cases hn : rn.is_double <;> cases hn' : rn'.is_double <;> simp_all
    obtain rfl := FpReg.eq_of_width hrn hdouble
    rfl
  | @FpDataProc2 op rd rn rm op' rd' rn' rm' =>
    obtain ⟨hty, hrm, hop, hrn, hrd⟩ := hvalues
    have hw := as_u32_inj hty
    obtain rfl := FpBinOp.opcode_inj hop
    obtain rfl := FpReg.eq_of_width hrd hw
    obtain rfl := FpReg.eq_of_width hrn (hi.1.symm.trans hj.1)
    obtain rfl := FpReg.eq_of_width hrm (hi.2.symm.trans hj.2)
    rfl
  | @FpCompare rn rm rn' rm' =>
    obtain ⟨hty, hrm, hrn⟩ := hvalues
    have hw := as_u32_inj hty
    obtain rfl := FpReg.eq_of_width hrn hw
    obtain rfl := FpReg.eq_of_width hrm (Eq.trans (Eq.symm hi) hj)
    rfl
  | @FpCondSelect rd rn rm cond rd' rn' rm' cond' =>
    obtain ⟨hty, hrm, hcond, hrn, hrd⟩ := hvalues
    have hw := as_u32_inj hty
    obtain rfl := Cond.code_inj hcond
    obtain rfl := FpReg.eq_of_width hrd hw
    obtain rfl := FpReg.eq_of_width hrn (hi.1.symm.trans hj.1)
    obtain rfl := FpReg.eq_of_width hrm (hi.2.symm.trans hj.2)
    rfl
  | @FpImmMove rd imm rd' imm' =>
    obtain ⟨hty, himm, hrd⟩ := hvalues
    have hw := as_u32_inj hty
    obtain rfl := FpReg.eq_of_width hrd hw
    rw [FpImm8.Made.eq hi.1 hj.1 himm (hi.2.symm.trans hj.2)]
  | @FpToGp rd rn rd' rn' =>
    obtain ⟨hsf, hty, hrn, hrd⟩ := hvalues
    obtain rfl := Reg.eq_of_num hi.1 hj.1 hrd (sf_inj hsf) hclear
    obtain rfl := FpReg.eq_of_width hrn (as_u32_inj hty)
    rfl
  | @GpToFp rd rn rd' rn' =>
    obtain ⟨hsf, hty, hrn, hrd⟩ := hvalues
    obtain rfl := Reg.eq_of_num hi.1 hj.1 hrn (sf_inj hsf) hclear
    obtain rfl := FpReg.eq_of_width hrd (as_u32_inj hty)
    rfl
  | @FpIntConvert op gp fp op' gp' fp' =>
    obtain ⟨hsf, hty, hrmode, hopcode, hrn, hrd⟩ := hvalues
    obtain rfl := FpIntConvertOp.rmode_opcode_inj hrmode hopcode
    have henc : gp.encoding = gp'.encoding ∧ fp.encoding = fp'.encoding := by
      split at hrn
      · rename_i hto_fp
        rw [if_pos hto_fp, if_pos hto_fp] at hrd
        exact ⟨hrn, hrd⟩
      · rename_i hto_gp
        rw [if_neg hto_gp, if_neg hto_gp] at hrd
        exact ⟨hrd, hrn⟩
    obtain rfl := Reg.eq_of_num hi hj henc.1 (sf_inj hsf) hclear
    obtain rfl := FpReg.eq_of_width henc.2 (as_u32_inj hty)
    rfl
  | @FpMadd rd rn rm ra rd' rn' rm' ra' =>
    obtain ⟨hty, hrm, hra, hrn, hrd⟩ := hvalues
    have hw := as_u32_inj hty
    obtain rfl := FpReg.eq_of_width hrd hw
    obtain rfl := FpReg.eq_of_width hrn (hi.1.symm.trans hj.1)
    obtain rfl := FpReg.eq_of_width hrm (hi.2.1.symm.trans hj.2.1)
    obtain rfl := FpReg.eq_of_width hra (hi.2.2.symm.trans hj.2.2)
    rfl

theorem strip_eq (hshape : shape i = shape j) : strip i = strip j := by
  rcases same_class hshape with h | h | h | h
  · exact h.strip_eq hi hj hvalues hclear
  · exact h.strip_eq hi hj hvalues hclear
  · exact h.strip_eq hi hj hvalues hclear
  · exact h.strip_eq hi hj hvalues hclear

end Strip
/-! ## The offsets -/

/-- The bytes of a scaled offset. -/
def AddrMode.bytes : AddrMode → Int
  | .UnsignedOffset imm => imm.bytes
  | _ => 0

theorem AddrMode.bytes_eq {mode mode' : AddrMode} (hform : mode.form = mode'.form)
    (hvalues : mode.values = mode'.values) (hsize : ∀ imm imm', mode = .UnsignedOffset imm →
      mode' = .UnsignedOffset imm' → imm.access_size = imm'.access_size) :
    mode.bytes = mode'.bytes := by
  cases mode with
  | UnsignedOffset imm =>
    cases mode' with
    | UnsignedOffset imm' =>
      unfold AddrMode.bytes UScaledImm12.bytes
      dsimp only
      rw [UScaledImm12.scaled_eq (head_eq_of_cons_eq hvalues), hsize imm imm' rfl rfl]
    | _ => cases hform
  | _ =>
    cases mode' with
    | UnsignedOffset imm' => cases hform
    | _ => rfl

theorem offset_bytes_gp {op : LdStOp} {rt rn : Reg} {mode : AddrMode} :
    offset_bytes (.LoadStoreImm op rt rn mode) = mode.bytes := by
  cases mode <;> rfl

theorem offset_bytes_fp {is_load : Bool} {rt : FpReg} {rn : Reg} {mode : AddrMode} :
    offset_bytes (.FpLoadStoreImm is_load rt rn mode) = mode.bytes := by
  cases mode <;> rfl

theorem BranchOffset.Made.bytes_eq {o o' : BranchOffset} (ho : o.Made) (ho' : o'.Made) {k : Nat}
    (hk : k ≤ 32) (hmask : (1#32 <<< (k % 32)) - 1 = BitFields.mask 32 k) (hbits : o.bits = k)
    (hbits' : o'.bits = k) (h : o.encoding = o'.encoding) : o.bytes = o'.bytes := by
  unfold BranchOffset.bytes
  rw [ho.word_off_eq ho' hk hmask hbits hbits' h]

section Offset

variable (hi : Valid i) (hj : Valid j) (hvalues : values i = values j)

include hi hj hvalues

theorem SameControl.offset_eq (hfi : InField i) (hfj : InField j) (h : SameControl i j) :
    offset_bytes i = offset_bytes j := by
  cases h with simp only [values, cons.injEq, and_true] at hvalues
  | Branch =>
    exact BranchOffset.Made.bytes_eq hi hj (k := 26) (by decide) (by decide) hfi hfj hvalues.2
  | BranchCond =>
    exact BranchOffset.Made.bytes_eq hi hj (k := 19) (by decide) (by decide) hfi hfj hvalues.1
  | CompareBranch =>
    exact BranchOffset.Made.bytes_eq hi.2.1 hj.2.1 (k := 19) (by decide) (by decide) hfi hfj
      hvalues.2.2.1
  | TestBranch =>
    exact BranchOffset.Made.bytes_eq hi.2.1 hj.2.1 (k := 14) (by decide) (by decide) hfi hfj
      hvalues.2.2.2.1
  | _ => rfl

theorem SameMemory.offset_eq (hfi : Sized i) (hfj : Sized j) (h : SameMemory i j) :
    offset_bytes i = offset_bytes j := by
  cases h with
  | LoadStoreImm hform =>
    obtain ⟨hsize, hopc, hmode, -⟩ := load_store_values hvalues
    obtain rfl := LdStOp.size_opc_inj hsize hopc
    rw [offset_bytes_gp, offset_bytes_gp]
    refine AddrMode.bytes_eq hform hmode ?_
    rintro imm imm' rfl rfl
    exact Eq.trans hfi (Eq.symm hfj)
  | @LoadStorePair is_load is64 rt1 rt2 rn imm index is_load' is64' rt1' rt2' rn' imm' index' =>
    simp only [values, cons.injEq, and_true] at hvalues
    obtain ⟨hopc, -, -, himm, -⟩ := hvalues
    have hscaled := SImm7Scaled.Made.scaled_eq hi.2.2.2.1 hj.2.2.2.1 himm
    have hsi : imm.access_size = if is64 then 8 else 4 := hfi
    have hsj : imm'.access_size = if is64' then 8 else 4 := hfj
    show imm.bytes = imm'.bytes
    unfold SImm7Scaled.bytes
    rw [hscaled, hsi, hsj, pair_opc_inj hopc]
  | @FpLoadStoreImm is_load rt rn mode is_load' rt' rn' mode' hform =>
    obtain ⟨hsize, -, hmode, -⟩ := load_store_values hvalues
    have hdouble := fp_size_inj hsize
    rw [offset_bytes_fp, offset_bytes_fp]
    refine AddrMode.bytes_eq hform hmode ?_
    rintro imm imm' rfl rfl
    have hsi : imm.access_size = if rt.is_double then 8 else 4 := hfi
    have hsj : imm'.access_size = if rt'.is_double then 8 else 4 := hfj
    rw [hsi, hsj, hdouble]

/-- Offsets validated for their instructions are read back from the word. -/
theorem offset_eq (hfi : Fitting i) (hfj : Fitting j) (hshape : shape i = shape j) :
    offset_bytes i = offset_bytes j := by
  rcases same_class hshape with h | h | h | h
  · cases h <;> rfl
  · exact h.offset_eq hi hj hvalues hfi.in_field hfj.in_field
  · exact h.offset_eq hi hj hvalues hfi.sized hfj.sized
  · cases h <;> rfl

end Offset

theorem UScaledImm12.Made.bytes_eq_zero {imm : UScaledImm12} (h : imm.Made) :
    imm.bytes = 0 ↔ imm.scaled = 0 := by
  obtain ⟨bytes, access_size, hpos, -, h⟩ := h
  unfold UScaledImm12.new at h
  rw [guard_eq_ok] at h
  dsimp only at h
  rw [guard_eq_ok, Except.ok.injEq] at h
  obtain ⟨-, -, rfl⟩ := h
  unfold UScaledImm12.bytes
  rw [mul_eq_zero, Nat.cast_eq_zero, Nat.cast_eq_zero, or_iff_left (by dsimp only; omega)]
  exact ⟨fun hzero => BitVec.eq_of_toNat_eq hzero, fun hzero => by rw [hzero]; rfl⟩

theorem SImm7Scaled.Made.bytes_eq_zero {imm : SImm7Scaled} (h : imm.Made) :
    imm.bytes = 0 ↔ imm.scaled = 0 := by
  obtain ⟨bytes, access_size, hpos, -, h⟩ := h
  unfold SImm7Scaled.new at h
  rw [guard_eq_ok] at h
  dsimp only at h
  rw [guard_eq_ok, Except.ok.injEq] at h
  obtain ⟨-, -, rfl⟩ := h
  unfold SImm7Scaled.bytes
  rw [mul_eq_zero, Nat.cast_eq_zero, or_iff_left (by dsimp only; omega)]
  exact ⟨fun hzero => BitVec.eq_of_toInt_eq hzero, fun hzero => by rw [hzero]; rfl⟩

theorem Shape.crowded_fp (form : LdStForm) : Shape.Crowded (.LoadStore true form) := by
  cases form <;> decide +kernel

/-- No bytes at all are no bytes for an access of any size. -/
theorem offset_zero (hi : Valid i) (hj : Valid j) (hplain : ¬ (shape i).Crowded)
    (hshape : shape i = shape j) (hvalues : values i = values j) (hzero : offset_bytes i = 0) :
    offset_bytes j = 0 := by
  rcases same_class hshape with h | h | h | h
  · cases h <;> rfl
  · cases h with
    | Branch | BranchCond | CompareBranch | TestBranch =>
      exact absurd (Shape.crowded_branches _ (by simp [shape])) hplain
    | _ => rfl
  · cases h with
    | @LoadStoreImm op rt rn mode op' rt' rn' mode' hform =>
      obtain ⟨-, -, hmode, -⟩ := load_store_values hvalues
      cases mode' with
      | UnsignedOffset imm' =>
        cases mode with
        | UnsignedOffset imm =>
          have hscaled := UScaledImm12.scaled_eq (head_eq_of_cons_eq hmode)
          have himm : imm.scaled = 0 := (UScaledImm12.Made.bytes_eq_zero hi.2.2.1).1 hzero
          exact (UScaledImm12.Made.bytes_eq_zero hj.2.2.1).2 (hscaled.symm.trans himm)
        | _ => cases hform
      | _ => rfl
    | @LoadStorePair is_load is64 rt1 rt2 rn imm =>
      simp only [values, cons.injEq, and_true] at hvalues
      have hscaled := SImm7Scaled.Made.scaled_eq hi.2.2.2.1 hj.2.2.2.1 hvalues.2.2.2.1
      have himm : imm.scaled = 0 := (SImm7Scaled.Made.bytes_eq_zero hi.2.2.2.1).1 hzero
      exact (SImm7Scaled.Made.bytes_eq_zero hj.2.2.2.1).2 (hscaled.symm.trans himm)
    | FpLoadStoreImm => exact absurd (Shape.crowded_fp _) hplain
  · cases h <;> rfl

/-! ## Separation -/

/-- Among instructions with offsets of their own, a clear one has its word for itself. -/
theorem same_of_fitting (hi : Valid i) (hj : Valid j) (hfi : Fitting i) (hfj : Fitting j)
    (hclear : Clear i) (h : encode_word j = encode_word i) : Same j i := by
  have hshape : shape i = shape j := by
    by_contra hne
    exact encode_word_ne hi hj hfi.in_field hfj.in_field hne h.symm
  have hvalues := values_eq hi hj hfi.in_field hfj.in_field hshape h.symm
  exact ⟨(strip_eq hi hj hvalues hclear hshape).symm, (offset_eq hi hj hvalues hfi hfj hshape).symm⟩

/-- An instruction that no branch reaches, clear and without an offset, has its word for itself. -/
theorem same_of_alone (hi : Valid i) (hj : Valid j) (halone : Alone i)
    (h : encode_word j = encode_word i) : Same j i := by
  have hplain : ¬ (shape j).Crowded := fun hcrowded =>
    encode_word_not_crowded hi halone.not_crowded (h ▸ hcrowded.encode_word)
  have hfi := InField.of_not_crowded halone.not_crowded
  have hfj := InField.of_not_crowded hplain
  have hshape : shape i = shape j := by
    by_contra hne
    exact encode_word_ne hi hj hfi hfj hne h.symm
  have hvalues := values_eq hi hj hfi hfj hshape h.symm
  refine ⟨(strip_eq hi hj hvalues halone.clear hshape).symm, ?_⟩
  rw [offset_zero hi hj halone.not_crowded hshape hvalues halone.no_offset, halone.no_offset]

end Fors.Asm
