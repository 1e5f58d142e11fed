import Fors.Asm.Separate

/-!
# Instructions that share a word

Where `Separate` asks for a condition, another instruction has the word: the register of number 31 of
the other kind, the offset of an access of another size, or a branch whose offset spills over the
whole word.  Together the two directions say exactly when an instruction has its word for itself.

Principal result: `encode_separates_iff`.
-/

namespace Fors.Asm

/-! ## The other register of number 31 -/

/-- SP for the zero register and the zero register for SP. -/
def Reg.twin (r : Reg) : Reg := ⟨r.num, r.is64, !r.sp_flag⟩

theorem Reg.twin_made {r : Reg} (h : r.num = 31) : r.twin.Made := .of_flag fun _ => h

theorem Reg.twin_ne (r : Reg) : r.twin ≠ r := by
  obtain ⟨num, is64, sp_flag⟩ := r
  cases sp_flag <;> simp [Reg.twin]

/-! ## Building the other instruction -/

variable {rd : Reg}

theorem built_mov_wide {op : MovWideOp} {imm16 : BitVec 16} {shift : Nat}
    (h : Valid (.MovWide op rd imm16 shift)) : Built (.MovWide op rd imm16 shift) := by
  have hok : Inst.mov_wide op rd imm16 shift = .ok (.MovWide op rd imm16 shift) :=
    mov_wide_eq_ok.2 ⟨h.2, rfl⟩
  cases op with
  | Movz => exact .movz h.1 hok
  | Movn => exact .movn h.1 hok
  | Movk => exact .movk h.1 hok

variable {rn rm : Reg}

theorem built_add_sub_extended {op : AddSubOp} {set_flags : Bool}
    {extend : RegExtend} (h : Valid (.AddSubExtendedReg op set_flags rd rn rm extend .None)) :
    Built (.AddSubExtendedReg op set_flags rd rn rm extend .None) := by
  obtain ⟨hrd, hrn, hrm, he, hchecks⟩ := h
  have hok : Inst.add_sub_extended op set_flags rd rn rm extend .None =
      .ok (.AddSubExtendedReg op set_flags rd rn rm extend .None) :=
    add_sub_extended_eq_ok.2 ⟨hchecks, rfl⟩
  cases op with
  | Add =>
    cases set_flags with
    | false => exact .add_extended hrd hrn hrm he hok
    | true => exact .adds_extended hrd hrn hrm he hok
  | Sub =>
    cases set_flags with
    | false => exact .sub_extended hrd hrn hrm he hok
    | true => exact .subs_extended hrd hrn hrm he hok

theorem built_logical_imm {op : LogicalImmOp} {imm : LogicalImm}
    (h : Valid (.LogicalImmInst op rd rn imm .None)) : Built (.LogicalImmInst op rd rn imm .None) := by
  obtain ⟨hrd, hrn, himm, hchecks⟩ := h
  have hok : Inst.logical_imm op rd rn imm .None = .ok (.LogicalImmInst op rd rn imm .None) :=
    logical_imm_eq_ok.2 ⟨hchecks, rfl⟩
  cases op with
  | And => exact .and_imm hrd hrn himm hok
  | Orr => exact .orr_imm hrd hrn himm hok
  | Eor => exact .eor_imm hrd hrn himm hok
  | Ands => exact .ands_imm hrd hrn himm hok

theorem built_mul (hrd : rd.Made) (hrn : rn.Made) (hrm : rm.Made)
    (hn : rd.is64 = rn.is64) (hm : rd.is64 = rm.is64) :
    Built (.DataProc3Source .Madd rd rn rm (Inst.zr_of rd) true) :=
  .mul hrd hrn hrm (mul_eq_ok.2 ⟨⟨hn, hm⟩, rfl⟩)

theorem built_smulh (h : Valid (.DataProc3Source .Smulh rd rn rm Reg.xzr false)) :
    Built (.DataProc3Source .Smulh rd rn rm Reg.xzr false) := by
  obtain ⟨hrd, hrn, hrm, hd, hn, hm, -⟩ := h
  exact .smulh hrd hrn hrm (mulh_eq_ok.2 ⟨⟨hd, hn, hm⟩, rfl⟩)

theorem built_umulh (h : Valid (.DataProc3Source .Umulh rd rn rm Reg.xzr false)) :
    Built (.DataProc3Source .Umulh rd rn rm Reg.xzr false) := by
  obtain ⟨hrd, hrn, hrm, hd, hn, hm, -⟩ := h
  exact .umulh hrd hrn hrm (mulh_eq_ok.2 ⟨⟨hd, hn, hm⟩, rfl⟩)

theorem built_adr {offset : AdrOffset} (h : Valid (.Adr rd offset)) :
    Built (.Adr rd offset) := by
  obtain ⟨hrd, ho, h64⟩ := h
  exact .adr hrd ho (guard_eq_ok.2 ⟨not_not.2 h64, rfl⟩)

theorem built_adrp {offset : AdrpOffset} (h : Valid (.Adrp rd offset)) :
    Built (.Adrp rd offset) := by
  obtain ⟨hrd, ho, h64⟩ := h
  exact .adrp hrd ho (guard_eq_ok.2 ⟨not_not.2 h64, rfl⟩)

variable {rt : Reg} {offset : BranchOffset}

theorem built_compare_branch {is64 is_nonzero : Bool}
    (h : Valid (.CompareBranch is64 is_nonzero rt offset)) :
    Built (.CompareBranch is64 is_nonzero rt offset) := by
  obtain ⟨hrt, ho, rfl⟩ := h
  cases is_nonzero with
  | false => exact .cbz hrt ho
  | true => exact .cbnz hrt ho

theorem built_test_branch {is_nonzero : Bool} {bit : Fin 64}
    (h : Valid (.TestBranch is_nonzero rt bit offset)) :
    Built (.TestBranch is_nonzero rt bit offset) := by
  obtain ⟨hrt, ho, hbit⟩ := h
  have hok : Inst.test_branch is_nonzero rt bit.val offset =
      .ok (.TestBranch is_nonzero rt bit offset) :=
    test_branch_eq_ok.2 ⟨⟨bit.isLt, hbit⟩, rfl⟩
  cases is_nonzero with
  | false => exact .tbz hrt ho hok
  | true => exact .tbnz hrt ho hok

theorem built_br (hrn : rn.Made) (h64 : rn.is64 = true) : Built (.BranchReg rn) :=
  .br hrn (guard_eq_ok.2 ⟨not_not.2 h64, rfl⟩)

theorem built_blr (hrn : rn.Made) (h64 : rn.is64 = true) : Built (.BranchLinkReg rn) :=
  .blr hrn (guard_eq_ok.2 ⟨not_not.2 h64, rfl⟩)

theorem built_ret (hrn : rn.Made) (h64 : rn.is64 = true) : Built (.Ret rn) :=
  .ret hrn (guard_eq_ok.2 ⟨not_not.2 h64, rfl⟩)

theorem built_load_store {op : LdStOp} {mode : AddrMode}
    (h : Valid (.LoadStoreImm op rt rn mode)) : Built (.LoadStoreImm op rt rn mode) := by
  obtain ⟨hrt, hrn, hm, hwidth, hrest⟩ := h
  have hok : Inst.load_store op rt rn mode = .ok (.LoadStoreImm op rt rn mode) :=
    load_store_eq_ok.2 ⟨⟨hwidth, hrest⟩, rfl⟩
  cases op with
  | StrB => exact .strb hrt hrn hm hok
  | LdrB => exact .ldrb hrt hrn hm hok
  | LdrSb is64 =>
    obtain rfl : rt.is64 = is64 := hwidth
    exact .ldrsb hrt hrn hm hok
  | StrH => exact .strh hrt hrn hm hok
  | LdrH => exact .ldrh hrt hrn hm hok
  | LdrSh is64 =>
    obtain rfl : rt.is64 = is64 := hwidth
    exact .ldrsh hrt hrn hm hok
  | StrW =>
    have hword : rt.is64 = false := hwidth
    refine .str_ hrt hrn hm ?_
    unfold Inst.str_
    rw [hword]
    exact hok
  | LdrW =>
    have hword : rt.is64 = false := hwidth
    refine .ldr hrt hrn hm ?_
    unfold Inst.ldr
    rw [hword]
    exact hok
  | LdrSw => exact .ldrsw hrt hrn hm hok
  | StrX =>
    have hdouble : rt.is64 = true := hwidth
    refine .str_ hrt hrn hm ?_
    unfold Inst.str_
    rw [hdouble]
    exact hok
  | LdrX =>
    have hdouble : rt.is64 = true := hwidth
    refine .ldr hrt hrn hm ?_
    unfold Inst.ldr
    rw [hdouble]
    exact hok

theorem built_load_store_pair {is_load is64 : Bool} {rt1 rt2 : Reg} {imm : SImm7Scaled}
    {index : PairIndex} (h : Valid (.LoadStorePair is_load is64 rt1 rt2 rn imm index)) :
    Built (.LoadStorePair is_load is64 rt1 rt2 rn imm index) := by
  obtain ⟨hrt1, hrt2, hrn, himm, rfl, hchecks⟩ := h
  have hok : Inst.load_store_pair is_load rt1 rt2 rn imm index =
      .ok (.LoadStorePair is_load rt1.is64 rt1 rt2 rn imm index) :=
    load_store_pair_eq_ok.2 ⟨hchecks, rfl⟩
  cases is_load with
  | true => exact .ldp hrt1 hrt2 hrn himm hok
  | false => exact .stp hrt1 hrt2 hrn himm hok

theorem built_load_store_fp {is_load : Bool} {rt : FpReg} {mode : AddrMode}
    (h : Valid (.FpLoadStoreImm is_load rt rn mode)) : Built (.FpLoadStoreImm is_load rt rn mode) := by
  obtain ⟨hrn, hm, h64⟩ := h
  have hok : Inst.load_store_fp is_load rt rn mode = .ok (.FpLoadStoreImm is_load rt rn mode) :=
    load_store_fp_eq_ok.2 ⟨h64, rfl⟩
  cases is_load with
  | true => exact .ldr_fp hrn hm hok
  | false => exact .str_fp hrn hm hok

theorem built_fp_to_gp {rn : FpReg} (h : Valid (.FpToGp rd rn)) : Built (.FpToGp rd rn) :=
  .fmov_to_gp h.1 (guard_eq_ok.2 ⟨not_not.2 h.2, rfl⟩)

theorem built_gp_to_fp {rd : FpReg} (h : Valid (.GpToFp rd rn)) : Built (.GpToFp rd rn) :=
  .fmov_from_gp h.1 (guard_eq_ok.2 ⟨not_not.2 h.2, rfl⟩)

theorem built_fp_int_convert {op : FpIntConvertOp} {gp : Reg} {fp : FpReg} (hgp : gp.Made) :
    Built (.FpIntConvert op gp fp) := by
  cases op with
  | Scvtf => exact .scvtf hgp rfl
  | Ucvtf => exact .ucvtf hgp rfl
  | Fcvtzs => exact .fcvtzs hgp rfl
  | Fcvtzu => exact .fcvtzu hgp rfl

/-! ## A register that the word does not tell -/

/-- `j` is another operation with the word of `i`, on an offset as good. -/
structure Twin (j i : Inst) : Prop where
  built : Built j
  fitting : Fitting i → Fitting j
  word : encode_word j = encode_word i
  other : strip j ≠ strip i

theorem twin_reg_offset {ro : RegOffset} (h : ro.Made) (hnum : ro.rm.num = 31) :
    (⟨ro.rm.twin, ro.extend, ro.shifted⟩ : RegOffset).Made :=
  ⟨ro.rm.twin, ro.extend, ro.shifted, Reg.twin_made hnum,
    guard_eq_ok.2 ⟨not_not.2 h.checks.2, rfl⟩⟩

theorem twin_reg_offset_ne (ro : RegOffset) :
    (⟨ro.rm.twin, ro.extend, ro.shifted⟩ : RegOffset) ≠ ro :=
  fun h => Reg.twin_ne ro.rm (congrArg RegOffset.rm h)

/-- The accumulator of `MUL` is the zero register. -/
theorem eq_zr_of {ra : Reg} (hwidth : rd.is64 = ra.is64) (hnum : ra.num = 31)
    (hsp : ra.is_sp = false) : ra = Inst.zr_of rd := by
  have hwidth' : ra.is64 = (Inst.zr_of rd).is64 := by rw [zr_of_is64, hwidth]
  have henc : ra.encoding = (Inst.zr_of rd).encoding := by
    unfold Reg.encoding
    rw [hnum, zr_of_num]
  have hmade : ra.Made := by
    refine .of_flag fun _ => hnum
  exact Reg.eq_of_no_sp hmade (zr_of_made rd) henc hwidth' hsp (zr_of_no_sp rd)

variable {i : Inst}

/-- A register that is not clear has a twin, and so has the instruction. -/
theorem twin_of_not_clear (hi : Valid i) (hclear : ¬ Clear i) : ∃ j, Twin j i := by
  cases i with
  | MovWide op rd imm16 shift =>
    have hnum : rd.num = 31 := not_not.1 hclear
    exact ⟨.MovWide op rd.twin imm16 shift, built_mov_wide ⟨Reg.twin_made hnum, hi.2⟩,
      fun _ => ⟨trivial, trivial⟩, rfl, fun h => Reg.twin_ne rd (Inst.MovWide.inj h).2.1⟩
  | AddSubExtendedReg op set_flags rd rn rm extend alias_ =>
    obtain ⟨hrd, hrn, hrm, he, hchecks⟩ := hi
    rcases not_and_or.1 hclear with hd | hn
    · exact ⟨.AddSubExtendedReg op set_flags rd.twin rn rm extend .None,
        built_add_sub_extended ⟨Reg.twin_made (not_not.1 hd), hrn, hrm, he, hchecks⟩,
        fun _ => ⟨trivial, trivial⟩, rfl,
        fun h => Reg.twin_ne rd (Inst.AddSubExtendedReg.inj h).2.2.1⟩
    · exact ⟨.AddSubExtendedReg op set_flags rd rn.twin rm extend .None,
        built_add_sub_extended ⟨hrd, Reg.twin_made (not_not.1 hn), hrm, he, hchecks⟩,
        fun _ => ⟨trivial, trivial⟩, rfl,
        fun h => Reg.twin_ne rn (Inst.AddSubExtendedReg.inj h).2.2.2.1⟩
  | LogicalImmInst op rd rn imm alias_ =>
    obtain ⟨hrd, hrn, himm, hwidth, hwidth_imm, hsp, -⟩ := hi
    obtain ⟨hop, hnum⟩ := not_or.1 hclear
    exact ⟨.LogicalImmInst op rd.twin rn imm .None,
      built_logical_imm ⟨Reg.twin_made (not_not.1 hnum), hrn, himm, hwidth,
        hwidth_imm, hsp, fun h => absurd h hop⟩,
      fun _ => ⟨trivial, trivial⟩, rfl, fun h => Reg.twin_ne rd (Inst.LogicalImmInst.inj h).2.1⟩
  | DataProc3Source op rd rn rm ra m =>
    cases op with
    | Madd =>
      obtain ⟨hrd, hrn, hrm, -, hn, hm, ha, hsp, -⟩ := hi
      obtain ⟨hra, hregs⟩ := Classical.not_imp.1 hclear
      obtain rfl := eq_zr_of ha hra hsp
      by_cases hdnum : rd.num = 31
      · exact ⟨_, built_mul (Reg.twin_made hdnum) hrn hrm hn hm, fun _ => ⟨trivial, trivial⟩, rfl,
          fun h => Reg.twin_ne rd (Inst.DataProc3Source.inj h).2.1⟩
      by_cases hnnum : rn.num = 31
      · exact ⟨_, built_mul hrd (Reg.twin_made hnnum) hrm hn hm, fun _ => ⟨trivial, trivial⟩, rfl,
          fun h => Reg.twin_ne rn (Inst.DataProc3Source.inj h).2.2.1⟩
      · have hmnum : rm.num = 31 := by
          by_contra hmnum
          exact hregs ⟨hdnum, hnnum, hmnum⟩
        exact ⟨_, built_mul hrd hrn (Reg.twin_made hmnum) hn hm, fun _ => ⟨trivial, trivial⟩, rfl,
          fun h => Reg.twin_ne rm (Inst.DataProc3Source.inj h).2.2.2.1⟩
    | Msub => exact absurd trivial hclear
    | Smulh =>
      obtain ⟨hrd, hrn, hrm, hd, hn, hm, rfl⟩ := hi
      have hchecks := And.intro hd (And.intro hn (And.intro hm (Eq.refl Reg.xzr)))
      by_cases hdnum : rd.num = 31
      · exact ⟨_, built_smulh ⟨Reg.twin_made hdnum, hrn, hrm, hchecks⟩,
          fun _ => ⟨trivial, trivial⟩, rfl, fun h => Reg.twin_ne rd (Inst.DataProc3Source.inj h).2.1⟩
      by_cases hnnum : rn.num = 31
      · exact ⟨_, built_smulh ⟨hrd, Reg.twin_made hnnum, hrm, hchecks⟩,
          fun _ => ⟨trivial, trivial⟩, rfl, fun h => Reg.twin_ne rn (Inst.DataProc3Source.inj h).2.2.1⟩
      · have hmnum : rm.num = 31 := by
          by_contra hmnum
          exact hclear ⟨hdnum, hnnum, hmnum⟩
        exact ⟨_, built_smulh ⟨hrd, hrn, Reg.twin_made hmnum, hchecks⟩,
          fun _ => ⟨trivial, trivial⟩, rfl,
          fun h => Reg.twin_ne rm (Inst.DataProc3Source.inj h).2.2.2.1⟩
    | Umulh =>
      obtain ⟨hrd, hrn, hrm, hd, hn, hm, rfl⟩ := hi
      have hchecks := And.intro hd (And.intro hn (And.intro hm (Eq.refl Reg.xzr)))
      by_cases hdnum : rd.num = 31
      · exact ⟨_, built_umulh ⟨Reg.twin_made hdnum, hrn, hrm, hchecks⟩,
          fun _ => ⟨trivial, trivial⟩, rfl, fun h => Reg.twin_ne rd (Inst.DataProc3Source.inj h).2.1⟩
      by_cases hnnum : rn.num = 31
      · exact ⟨_, built_umulh ⟨hrd, Reg.twin_made hnnum, hrm, hchecks⟩,
          fun _ => ⟨trivial, trivial⟩, rfl, fun h => Reg.twin_ne rn (Inst.DataProc3Source.inj h).2.2.1⟩
      · have hmnum : rm.num = 31 := by
          by_contra hmnum
          exact hclear ⟨hdnum, hnnum, hmnum⟩
        exact ⟨_, built_umulh ⟨hrd, hrn, Reg.twin_made hmnum, hchecks⟩,
          fun _ => ⟨trivial, trivial⟩, rfl,
          fun h => Reg.twin_ne rm (Inst.DataProc3Source.inj h).2.2.2.1⟩
  | Adr rd offset =>
    exact ⟨.Adr rd.twin offset, built_adr ⟨Reg.twin_made (not_not.1 hclear), hi.2⟩,
      fun _ => ⟨trivial, trivial⟩, rfl, fun h => Reg.twin_ne rd (Inst.Adr.inj h).1⟩
  | Adrp rd offset =>
    exact ⟨.Adrp rd.twin offset, built_adrp ⟨Reg.twin_made (not_not.1 hclear), hi.2⟩,
      fun _ => ⟨trivial, trivial⟩, rfl, fun h => Reg.twin_ne rd (Inst.Adrp.inj h).1⟩
  | CompareBranch is64 is_nonzero rt offset =>
    exact ⟨.CompareBranch is64 is_nonzero rt.twin offset,
      built_compare_branch ⟨Reg.twin_made (not_not.1 hclear), hi.2⟩,
      fun hfit => ⟨hfit.in_field, trivial⟩, rfl,
      fun h => Reg.twin_ne rt (Inst.CompareBranch.inj h).2.2.1⟩
  | TestBranch is_nonzero rt bit offset =>
    obtain ⟨hrt, ho, hbit⟩ := hi
    rcases not_and_or.1 hclear with hnum | hlow
    · exact ⟨.TestBranch is_nonzero rt.twin bit offset,
        built_test_branch ⟨Reg.twin_made (not_not.1 hnum), ho, hbit⟩,
        fun hfit => ⟨hfit.in_field, trivial⟩, rfl,
        fun h => Reg.twin_ne rt (Inst.TestBranch.inj h).2.1⟩
    · refine ⟨.TestBranch is_nonzero (rt.with64 (!rt.is64)) bit offset, built_test_branch
        ⟨.with64 _ hrt, ho, .inr (Nat.lt_of_not_le hlow)⟩, fun hfit => ⟨hfit.in_field, trivial⟩, rfl,
        fun h => ?_⟩
      have hwidth : (!rt.is64) = rt.is64 := congrArg Reg.is64 (Inst.TestBranch.inj h).2.1
      exact Bool.not_ne_self _ hwidth
  | BranchReg rn =>
    exact ⟨_, built_br (Reg.twin_made (not_not.1 hclear)) hi.2, fun _ => ⟨trivial, trivial⟩, rfl,
      fun h => Reg.twin_ne rn (Inst.BranchReg.inj h)⟩
  | BranchLinkReg rn =>
    exact ⟨_, built_blr (Reg.twin_made (not_not.1 hclear)) hi.2, fun _ => ⟨trivial, trivial⟩, rfl,
      fun h => Reg.twin_ne rn (Inst.BranchLinkReg.inj h)⟩
  | Ret rn =>
    exact ⟨_, built_ret (Reg.twin_made (not_not.1 hclear)) hi.2, fun _ => ⟨trivial, trivial⟩, rfl,
      fun h => Reg.twin_ne rn (Inst.Ret.inj h)⟩
  | LoadStoreImm op rt rn mode =>
    obtain ⟨hrt, hrn, hm, hchecks⟩ := hi
    rcases not_and_or.1 hclear with hnum | hmode
    · refine ⟨.LoadStoreImm op rt.twin rn mode,
        built_load_store ⟨Reg.twin_made (not_not.1 hnum), hrn, hm, hchecks⟩,
        fun hfit => ⟨trivial, ?_⟩, rfl, fun h => ?_⟩
      · cases mode <;> exact hfit.sized
      · cases mode <;> exact Reg.twin_ne rt (Inst.LoadStoreImm.inj h).2.1
    · cases mode with
      | RegOffset ro =>
        exact ⟨.LoadStoreImm op rt rn (.RegOffset ⟨ro.rm.twin, ro.extend, ro.shifted⟩), built_load_store
          ⟨hrt, hrn, twin_reg_offset hm (not_not.1 hmode), hchecks.1, hchecks.2.1, hchecks.2.2.1,
            fun h => nomatch h.1⟩,
          fun _ => ⟨trivial, trivial⟩, rfl,
          fun h => twin_reg_offset_ne ro (AddrMode.RegOffset.inj (Inst.LoadStoreImm.inj h).2.2.2)⟩
      | _ => exact absurd trivial hmode
  | LoadStorePair is_load is64 rt1 rt2 rn imm index =>
    obtain ⟨hrt1, hrt2, hrn, himm, hchecks⟩ := hi
    by_cases hnum1 : rt1.num = 31
    · exact ⟨.LoadStorePair is_load is64 rt1.twin rt2 rn imm index,
        built_load_store_pair ⟨Reg.twin_made hnum1, hrt2, hrn, himm, hchecks⟩,
        fun hfit => ⟨trivial, hfit.sized⟩, rfl,
        fun h => Reg.twin_ne rt1 (Inst.LoadStorePair.inj h).2.2.1⟩
    by_cases hnum2 : rt2.num = 31
    · exact ⟨.LoadStorePair is_load is64 rt1 rt2.twin rn imm index,
        built_load_store_pair ⟨hrt1, Reg.twin_made hnum2, hrn, himm, hchecks⟩,
        fun hfit => ⟨trivial, hfit.sized⟩, rfl,
        fun h => Reg.twin_ne rt2 (Inst.LoadStorePair.inj h).2.2.2.1⟩
    · have hnum : rn.num = 31 := by
        by_contra hnum
        exact hclear ⟨hnum1, hnum2, hnum⟩
      exact ⟨.LoadStorePair is_load is64 rt1 rt2 rn.twin imm index,
        built_load_store_pair ⟨hrt1, hrt2, Reg.twin_made hnum, himm, hchecks⟩,
        fun hfit => ⟨trivial, hfit.sized⟩, rfl,
        fun h => Reg.twin_ne rn (Inst.LoadStorePair.inj h).2.2.2.2.1⟩
  | FpLoadStoreImm is_load rt rn mode =>
    obtain ⟨hrn, hm, h64⟩ := hi
    rcases not_and_or.1 hclear with hnum | hmode
    · refine ⟨.FpLoadStoreImm is_load rt rn.twin mode,
        built_load_store_fp ⟨Reg.twin_made (not_not.1 hnum), hm, h64⟩,
        fun hfit => ⟨trivial, ?_⟩, ?_, fun h => ?_⟩
      · cases mode <;> exact hfit.sized
      · cases mode <;> rfl
      · cases mode <;> exact Reg.twin_ne rn (Inst.FpLoadStoreImm.inj h).2.2.1
    · cases mode with
      | RegOffset ro =>
        exact ⟨.FpLoadStoreImm is_load rt rn (.RegOffset ⟨ro.rm.twin, ro.extend, ro.shifted⟩),
          built_load_store_fp ⟨hrn, twin_reg_offset hm (not_not.1 hmode), h64⟩,
          fun _ => ⟨trivial, trivial⟩, rfl,
          fun h => twin_reg_offset_ne ro (AddrMode.RegOffset.inj (Inst.FpLoadStoreImm.inj h).2.2.2)⟩
      | _ => exact absurd trivial hmode
  | FpToGp rd rn =>
    exact ⟨.FpToGp rd.twin rn, built_fp_to_gp ⟨Reg.twin_made (not_not.1 hclear), hi.2⟩,
      fun _ => ⟨trivial, trivial⟩, rfl, fun h => Reg.twin_ne rd (Inst.FpToGp.inj h).1⟩
  | GpToFp rd rn =>
    exact ⟨.GpToFp rd rn.twin, built_gp_to_fp ⟨Reg.twin_made (not_not.1 hclear), hi.2⟩,
      fun _ => ⟨trivial, trivial⟩, rfl, fun h => Reg.twin_ne rn (Inst.GpToFp.inj h).2⟩
  | FpIntConvert op gp fp =>
    exact ⟨.FpIntConvert op gp.twin fp, built_fp_int_convert (Reg.twin_made (not_not.1 hclear)),
      fun _ => ⟨trivial, trivial⟩, rfl, fun h => Reg.twin_ne gp (Inst.FpIntConvert.inj h).2.1⟩
  | System op => exact absurd trivial hclear
  | _ => exact absurd trivial hclear

/-! ## An offset that the word does not tell -/

theorem UScaledImm12.Made.other_size {imm : UScaledImm12} (h : imm.Made) {m : Nat} (hm : 1 ≤ m)
    (hlt : m < 2 ^ 32) : (⟨imm.scaled, m⟩ : UScaledImm12).Made := by
  have hscaled : imm.scaled.toNat ≤ 0xFFF := by
    have hlt := h.encoding_lt
    unfold UScaledImm12.encoding at hlt
    rw [BitVec.toNat_setWidth, Nat.mod_eq_of_lt (by omega)] at hlt
    omega
  refine ⟨((imm.scaled.toNat * m : Nat) : Int), m, hm, hlt, ?_⟩
  unfold UScaledImm12.new
  rw [Int.toNat_natCast, guard_eq_ok, Nat.mul_mod_left, Nat.mul_div_cancel _ hm]
  dsimp only
  rw [guard_eq_ok, BitVec.ofNat_toNat, BitVec.setWidth_eq]
  exact ⟨by omega, by omega, rfl⟩

theorem SImm7Scaled.Made.other_size {imm : SImm7Scaled} (h : imm.Made) {m : Nat} (hm : 1 ≤ m)
    (hlt : m < 2 ^ 32) : (⟨imm.scaled, m⟩ : SImm7Scaled).Made := by
  obtain ⟨bytes, access_size, -, -, h⟩ := h
  unfold SImm7Scaled.new at h
  rw [guard_eq_ok] at h
  dsimp only at h
  rw [guard_eq_ok, Except.ok.injEq] at h
  obtain ⟨-, hrange, rfl⟩ := h
  rw [not_not] at hrange
  generalize bytes.tdiv access_size = k at hrange
  have hm0 : (m : Int) ≠ 0 := by omega
  refine ⟨k * m, m, hm, hlt, ?_⟩
  unfold SImm7Scaled.new
  rw [guard_eq_ok, Int.mul_tdiv_cancel _ hm0]
  dsimp only
  rw [guard_eq_ok, Int.mul_tmod_left]
  exact ⟨by simp, not_not.2 hrange, rfl⟩

/-- A scaled offset other than zero stands for other bytes when the access is of another size. -/
theorem other_offset (hi : Valid i) (hplain : ¬ (shape i).Crowded) (hoffset : offset_bytes i ≠ 0) :
    ∃ j, Built j ∧ encode_word j = encode_word i ∧ offset_bytes j ≠ offset_bytes i := by
  have hother : ∀ a : Nat, ∃ m, 1 ≤ m ∧ m < 2 ^ 32 ∧ m ≠ a := by
    intro a
    by_cases h : a = 1
    · exact ⟨2, by decide, by decide, by omega⟩
    · exact ⟨1, by decide, by decide, Ne.symm h⟩
  cases i with
  | Branch => exact absurd (show Shape.Crowded .Branch by decide +kernel) hplain
  | BranchCond => exact absurd (show Shape.Crowded .BranchCond by decide +kernel) hplain
  | CompareBranch => exact absurd (show Shape.Crowded .CompareBranch by decide +kernel) hplain
  | TestBranch => exact absurd (show Shape.Crowded .TestBranch by decide +kernel) hplain
  | FpLoadStoreImm is_load rt rn mode => exact absurd (Shape.crowded_fp mode.form) hplain
  | LoadStoreImm op rt rn mode =>
    cases mode with
    | UnsignedOffset imm =>
      obtain ⟨hrt, hrn, hm, hchecks⟩ := hi
      obtain ⟨m, hpos, hlt, hne⟩ := hother imm.access_size
      refine ⟨.LoadStoreImm op rt rn (.UnsignedOffset ⟨imm.scaled, m⟩),
        built_load_store ⟨hrt, hrn, UScaledImm12.Made.other_size hm hpos hlt, hchecks⟩, rfl,
        fun h => ?_⟩
      have hscaled : (imm.scaled.toNat : Int) ≠ 0 := by
        intro hzero
        apply hoffset
        show (imm.scaled.toNat : Int) * imm.access_size = 0
        rw [hzero, zero_mul]
      have hsize : (m : Int) = imm.access_size := mul_left_cancel₀ hscaled h
      exact hne (by exact_mod_cast hsize)
    | _ => exact absurd rfl hoffset
  | LoadStorePair is_load is64 rt1 rt2 rn imm index =>
    obtain ⟨hrt1, hrt2, hrn, himm, hchecks⟩ := hi
    obtain ⟨m, hpos, hlt, hne⟩ := hother imm.access_size
    refine ⟨.LoadStorePair is_load is64 rt1 rt2 rn ⟨imm.scaled, m⟩ index,
      built_load_store_pair ⟨hrt1, hrt2, hrn, himm.other_size hpos hlt, hchecks⟩, rfl, fun h => ?_⟩
    have hscaled : imm.scaled.toInt ≠ 0 := by
      intro hzero
      apply hoffset
      show imm.scaled.toInt * imm.access_size = 0
      rw [hzero, zero_mul]
    have hsize : (m : Int) = imm.access_size := mul_left_cancel₀ hscaled h
    exact hne (by exact_mod_cast hsize)
  | System op => cases op <;> exact absurd rfl hoffset
  | _ => exact absurd rfl hoffset

/-! ## A branch over the whole word -/

/-- An offset validated for 31 bits. -/
def spill (v : BitVec 31) : BranchOffset := ⟨31, v.signExtend 32⟩

theorem spill_made (v : BitVec 31) : (spill v).Made := by
  refine ⟨v.toInt * 4, 31, "", by decide, by decide, ?_⟩
  unfold BranchOffset.new
  have hlow := v.le_toInt
  have hhigh := v.toInt_lt
  rw [guard_eq_ok, Int.mul_tdiv_cancel _ (by decide)]
  dsimp only
  rw [guard_eq_ok, Int.mul_tmod_left]
  refine ⟨by simp, ?_, rfl⟩
  omega

theorem spill_encoding (v : BitVec 31) : (spill v).encoding = v.setWidth 32 := by
  have hmask : (1#32 <<< (31 % 32)) - 1 = BitFields.mask 32 31 := by decide
  show v.signExtend 32 &&& ((1#32 <<< (31 % 32)) - 1) = v.setWidth 32
  rw [hmask]
  apply BitVec.eq_of_getLsbD_eq
  intro i hi
  rw [BitVec.getLsbD_and, BitFields.getLsbD_mask, BitVec.getLsbD_signExtend, BitVec.getLsbD_setWidth]
  by_cases hlow : i < 31
  · simp [hi, hlow]
  · simp [hi, hlow, BitVec.getLsbD_of_ge v i (by omega)]

theorem spill_bytes_ne {v v' : BitVec 31} (h : v ≠ v') : (spill v).bytes ≠ (spill v').bytes := by
  intro hbytes
  have hoff : (v.signExtend 32).toInt * 4 = (v'.signExtend 32).toInt * 4 := hbytes
  rw [BitVec.toInt_signExtend_of_le (by decide), BitVec.toInt_signExtend_of_le (by decide)] at hoff
  exact h (BitVec.eq_of_toInt_eq (by omega))

/-- A branch whose offset has the other bits of a word with the bits of `B` is that word. -/
theorem encode_spill {w : Word} (hw : w &&& branch_bits = branch_bits) {v : BitVec 31}
    (hv : ∀ i < 31, branch_bits.getLsbD i = false → v.getLsbD i = w.getLsbD i) :
    encode_word (.Branch w.msb (spill v)) = w := by
  show (as_u32 w.msb <<< 31) ||| branch_bits ||| (spill v).encoding = w
  rw [spill_encoding]
  apply BitVec.eq_of_getLsbD_eq
  intro i hi
  rw [BitVec.getLsbD_or, BitVec.getLsbD_or, BitVec.getLsbD_shiftLeft, BitVec.getLsbD_setWidth]
  have hbits : branch_bits.getLsbD i = true → w.getLsbD i = true := by
    intro hone
    have hand := congrArg (·.getLsbD i) hw
    simp only [BitVec.getLsbD_and, hone, Bool.and_true] at hand
    exact hand
  by_cases hlow : i < 31
  · cases hone : branch_bits.getLsbD i with
    | true => simp [hbits hone]
    | false =>
      rw [hv i hlow hone]
      simp [hlow, hi]
  · obtain rfl : i = 31 := by omega
    have hlink : (as_u32 w.msb).getLsbD 0 = w.msb := by
      cases w.msb <;> decide
    have hclear : branch_bits.getLsbD 31 = false := by decide
    rw [hclear, BitVec.getLsbD_of_ge v 31 (by decide), BitVec.msb_eq_getLsbD_last]
    simpa [BitVec.msb_eq_getLsbD_last] using hlink

/-- Two branches that go elsewhere share such a word. -/
theorem spills {w : Word} (hw : w &&& branch_bits = branch_bits) :
    ∃ v v' : BitVec 31, (spill v).bytes ≠ (spill v').bytes ∧
      encode_word (.Branch w.msb (spill v)) = w ∧ encode_word (.Branch w.msb (spill v')) = w := by
  refine ⟨w.setWidth 31, w.setWidth 31 ^^^ branch_bits.setWidth 31, spill_bytes_ne fun h => ?_,
    encode_spill hw fun i hi _ => ?_, encode_spill hw fun i hi hzero => ?_⟩
  · have hzero : branch_bits.setWidth 31 = 0 := by
      have hxor := congrArg (w.setWidth 31 ^^^ ·) h
      simpa [← BitVec.xor_assoc] using hxor.symm
    exact absurd hzero (by decide)
  · simp [hi]
  · simp [hi, hzero]

/-! ## When an instruction has its word for itself -/

theorem encode_eq {j : Inst} : encode j = encode i ↔ encode_word j = encode_word i :=
  ⟨Except.ok.inj, fun h => congrArg Except.ok h⟩

theorem built_branch (link : Bool) (ho : offset.Made) :
    Built (.Branch link offset) := by
  cases link with
  | false => exact .b ho
  | true => exact .bl ho

/-- An instruction has its word for itself just when no branch can reach it, its registers are clear
and it has no scaled offset; among instructions with offsets validated for their fields, just when
its registers are clear. -/
theorem encode_separates_iff {i : Inst} (hi : Built i) :
    ((∀ j, Built j → encode j = encode i → Same j i) ↔ Alone i) ∧
      (Fitting i → ((∀ j, Built j → Fitting j → encode j = encode i → Same j i) ↔ Clear i)) := by
  have hclear (h : ∀ j, Built j → (Fitting i → Fitting j) → encode j = encode i → Same j i) :
      Clear i := by
    by_contra hnot
    obtain ⟨j, hj⟩ := twin_of_not_clear hi.valid hnot
    exact hj.other (h j hj.built hj.fitting (encode_eq.2 hj.word)).operation
  have hplain (h : ∀ j, Built j → encode j = encode i → Same j i) : ¬ (shape i).Crowded := by
    intro hcrowded
    obtain ⟨v, v', hne, hv, hv'⟩ := spills hcrowded.encode_word
    have hsame := h _ (built_branch _ (spill_made v)) (encode_eq.2 hv)
    have hsame' := h _ (built_branch _ (spill_made v')) (encode_eq.2 hv')
    exact hne (hsame.offset.trans hsame'.offset.symm)
  have hoffset (h : ∀ j, Built j → encode j = encode i → Same j i) : offset_bytes i = 0 := by
    by_contra hsome
    obtain ⟨j, hj, hword, hne⟩ := other_offset hi.valid (hplain h) hsome
    exact hne (h j hj (encode_eq.2 hword)).offset
  refine ⟨⟨fun h => ?_, fun halone j hj h => ?_⟩, fun hfi => ⟨fun h => ?_, fun hcl j hj hfj h => ?_⟩⟩
  · exact ⟨hplain h, hclear fun j hj _ => h j hj, hoffset h⟩
  · exact same_of_alone hi.valid hj.valid halone (encode_eq.1 h)
  · exact hclear fun j hj hfit => h j hj (hfit hfi)
  · exact same_of_fitting hi.valid hj.valid hfi hfj hcl (encode_eq.1 h)

theorem movz_alone : Alone (.MovWide .Movz (Reg.x 0) 1 0) where
  not_crowded := by decide +kernel
  clear := show (Reg.x 0).num ≠ 31 by decide
  no_offset := rfl

/-- `MOVZ X0, #1` is told by its word. -/
theorem movz_separates : Alone (.MovWide .Movz (Reg.x 0) 1 0) ∧
    ∀ j, Built j → encode j = encode (.MovWide .Movz (Reg.x 0) 1 0) →
      Same j (.MovWide .Movz (Reg.x 0) 1 0) :=
  ⟨movz_alone, (encode_separates_iff (@Built.movz (Reg.x 0) 1 0 _ (.x 0) rfl)).1.2 movz_alone⟩

/-- `MUL` does not look at its registers, as `MADD` does: SP and the zero register have one word. -/
theorem mul_sp_is_mul_xzr : ¬ ∀ i j, Built i → Built j → encode i = encode j → Same i j := by
  intro h
  have hsp : Built (.DataProc3Source .Madd Reg.sp (Reg.x 0) (Reg.x 1) Reg.xzr true) :=
    @Built.mul Reg.sp (Reg.x 0) (Reg.x 1) _ .sp (.x 0) (.x 1) rfl
  have hxzr : Built (.DataProc3Source .Madd Reg.xzr (Reg.x 0) (Reg.x 1) Reg.xzr true) :=
    @Built.mul Reg.xzr (Reg.x 0) (Reg.x 1) _ .xzr (.x 0) (.x 1) rfl
  exact absurd (h _ _ hsp hxzr rfl).operation (by decide)

end Fors.Asm
