import Fors.Asm.Layouts
import Fors.Lib.Words

/-!
# What a field tells of its operand

Each operand can be read back from what it puts into the word, a register of number 31 only where its
field has one meaning.

Principal results: `Reg.eq_of_num` and `encode_bitmask_decodes`.
-/

namespace Fors.Asm

/-! ## Registers -/

theorem Reg.Made.num_of_flag {r : Reg} (h : r.Made) : r.sp_flag = true → r.num = 31 := by
  induction h with
  | x n | w n => exact nofun
  | sp | wsp | xzr | wzr => exact fun _ => rfl
  | with64 is64 _ ih => exact ih

theorem Reg.Made.of_flag {r : Reg} (h : r.sp_flag = true → r.num = 31) : r.Made := by
  obtain ⟨num, is64, sp_flag⟩ := r
  by_cases hnum : num = 31
  · subst hnum
    cases is64 <;> cases sp_flag
    · exact .wzr
    · exact .wsp
    · exact .xzr
    · exact .sp
  · cases sp_flag with
    | true => exact absurd (h rfl) hnum
    | false =>
      have hlt : num.val < 31 := by
        have hne : num.val ≠ 31 := fun hval => hnum (Fin.ext hval)
        omega
      cases is64
      · exact .w ⟨num.val, hlt⟩
      · exact .x ⟨num.val, hlt⟩

theorem Reg.num_eq {r r' : Reg} (h : r.encoding = r'.encoding) : r.num = r'.num := by
  have hval : r.num.val = r'.num.val := congrArg BitVec.toNat h
  exact Fin.ext hval

theorem FpReg.num_eq {r r' : FpReg} (h : r.encoding = r'.encoding) : r.num = r'.num := by
  have hval : r.num.val = r'.num.val := congrArg BitVec.toNat h
  exact Fin.ext hval

theorem as_u32_inj {a b : Bool} (h : as_u32 a = as_u32 b) : a = b := by
  cases a <;> cases b <;> first | rfl | exact absurd h (by decide)

theorem sf_inj {r r' : Reg} (h : sf r = sf r') : r.is64 = r'.is64 := as_u32_inj h

section Reg

variable {r r' : Reg} (hr : r.Made) (hr' : r'.Made) (henc : r.encoding = r'.encoding)
  (hwidth : r.is64 = r'.is64)

include henc hwidth

theorem Reg.eq_of_flag (hflag : r.sp_flag = r'.sp_flag) : r = r' := by
  have hnum := Reg.num_eq henc
  obtain ⟨num, is64, sp_flag⟩ := r
  obtain ⟨num', is64', sp_flag'⟩ := r'
  simp only at hnum hwidth hflag
  rw [hnum, hwidth, hflag]

include hr hr'

/-- Below 31 there is one register to a number. -/
theorem Reg.eq_of_num (hnum : r.num ≠ 31) : r = r' := by
  refine Reg.eq_of_flag henc hwidth ?_
  have hflag : r.sp_flag = false := Bool.eq_false_iff.2 fun h => hnum (hr.num_of_flag h)
  have hflag' : r'.sp_flag = false :=
    Bool.eq_false_iff.2 fun h => hnum ((Reg.num_eq henc).trans (hr'.num_of_flag h))
  rw [hflag, hflag']

theorem Reg.eq_of_no_sp (hsp : r.is_sp = false) (hsp' : r'.is_sp = false) : r = r' := by
  by_cases hnum : r.num = 31
  · refine Reg.eq_of_flag henc hwidth ?_
    have hnum' : r'.num = 31 := (Reg.num_eq henc).symm.trans hnum
    unfold Reg.is_sp at hsp hsp'
    simp only [hnum, hnum', true_and, decide_eq_false_iff_not, Bool.not_eq_true] at hsp hsp'
    rw [hsp, hsp']
  · exact Reg.eq_of_num hr hr' henc hwidth hnum

theorem Reg.eq_of_no_zr (hzr : r.is_zr = false) (hzr' : r'.is_zr = false) : r = r' := by
  by_cases hnum : r.num = 31
  · refine Reg.eq_of_flag henc hwidth ?_
    have hnum' : r'.num = 31 := (Reg.num_eq henc).symm.trans hnum
    unfold Reg.is_zr at hzr hzr'
    simp only [hnum, hnum', true_and, decide_eq_false_iff_not, Bool.not_eq_true, Bool.not_eq_false]
      at hzr hzr'
    rw [hzr, hzr']
  · exact Reg.eq_of_num hr hr' henc hwidth hnum

end Reg

theorem FpReg.eq_of_width {r r' : FpReg} (henc : r.encoding = r'.encoding)
    (hwidth : r.is_double = r'.is_double) : r = r' := by
  have hnum := FpReg.num_eq henc
  obtain ⟨num, width⟩ := r
  obtain ⟨num', width'⟩ := r'
  simp only at hnum
  subst hnum
  unfold FpReg.is_double at hwidth
  cases width <;> cases width' <;> first | rfl | simp at hwidth

/-! ## Immediates -/

variable {k : Nat}

/-- A signed number can be read back from its low bits when it is in their range. -/
theorem ofInt_and_mask_inj {n : Nat} (hk : 1 ≤ k) (hkn : k ≤ n) {a b : Int}
    (ha : -(2 ^ (k - 1)) ≤ a ∧ a < 2 ^ (k - 1)) (hb : -(2 ^ (k - 1)) ≤ b ∧ b < 2 ^ (k - 1))
    (h : BitVec.ofInt n a &&& BitFields.mask n k = BitVec.ofInt n b &&& BitFields.mask n k) :
    a = b := by
  have hlow : ∀ c : Int, ((BitVec.ofInt n c &&& BitFields.mask n k).toNat : Int) = c % 2 ^ k := by
    intro c
    have hpos : ((2 ^ n : Nat) : Int) ≠ 0 := by exact_mod_cast (Nat.two_pow_pos n).ne'
    have hdvd : (2 ^ k : Int) ∣ 2 ^ n := pow_dvd_pow 2 hkn
    rw [BitFields.toNat_and_mask _ hkn, BitVec.toNat_ofInt, Int.natCast_emod,
      Int.toNat_of_nonneg (Int.emod_nonneg _ hpos)]
    push_cast
    exact Int.emod_emod_of_dvd c hdvd
  have hmod : a % 2 ^ k = b % 2 ^ k := by
    rw [← hlow a, ← hlow b, h]
  have htwice : (2 : Int) ^ k = 2 * 2 ^ (k - 1) := by
    rw [← pow_succ', Nat.sub_add_cancel hk]
  have hdvd : (2 : Int) ^ k ∣ a - b :=
    Int.dvd_of_emod_eq_zero (Int.emod_eq_emod_iff_emod_sub_eq_zero.1 hmod)
  have hzero : a - b = 0 := by
    refine Int.eq_zero_of_dvd_of_natAbs_lt_natAbs hdvd ?_
    rw [htwice]
    omega
  omega

theorem AdrOffset.Made.eq {o o' : AdrOffset} (ho : o.Made) (ho' : o'.Made)
    (h : o.encoding = o'.encoding) : o = o' := by
  obtain ⟨b, hb⟩ := ho
  obtain ⟨b', hb'⟩ := ho'
  unfold AdrOffset.new at hb hb'
  rw [guard_eq_ok, Except.ok.injEq, not_not] at hb hb'
  obtain ⟨hrange, rfl⟩ := hb
  obtain ⟨hrange', rfl⟩ := hb'
  have hlow : BitVec.ofInt 32 b &&& 0x1FFFFF = BitVec.ofInt 32 b' &&& 0x1FFFFF := by
    have hlo := congrArg (fun p => (p.1 : Word)) h
    have hhi := congrArg (fun p => (p.2 : Word)) h
    unfold AdrOffset.encoding at hlo hhi
    dsimp only at hlo hhi
    generalize BitVec.ofInt 32 b &&& 0x1FFFFF = v at hlo hhi ⊢
    generalize BitVec.ofInt 32 b' &&& 0x1FFFFF = v' at hlo hhi ⊢
    apply BitVec.eq_of_toNat_eq
    have hlo := congrArg BitVec.toNat hlo
    have hhi := congrArg BitVec.toNat hhi
    rw [BitVec.toNat_and, BitVec.toNat_and] at hlo
    rw [BitVec.toNat_ushiftRight, BitVec.toNat_ushiftRight, Nat.shiftRight_eq_div_pow,
      Nat.shiftRight_eq_div_pow] at hhi
    have hmod : ∀ m : Nat, m &&& (3#32).toNat = m % 2 ^ 2 := fun m => Nat.and_two_pow_sub_one_eq_mod m 2
    have hlo : v.toNat % 2 ^ 2 = v'.toNat % 2 ^ 2 := (hmod _).symm.trans (hlo.trans (hmod _))
    omega
  rw [ofInt_and_mask_inj (k := 21) (by decide) (by decide) hrange hrange' hlow]

theorem AdrpOffset.Made.eq {o o' : AdrpOffset} (ho : o.Made) (ho' : o'.Made)
    (h : o.encoding = o'.encoding) : o = o' := by
  obtain ⟨p, hp⟩ := ho
  obtain ⟨p', hp'⟩ := ho'
  unfold AdrpOffset.new at hp hp'
  rw [guard_eq_ok, Except.ok.injEq] at hp hp'
  have hmade : AdrOffset.Made ⟨o.pages⟩ := ⟨p, by
    unfold AdrOffset.new
    rw [if_neg hp.1, ← hp.2]⟩
  have hmade' : AdrOffset.Made ⟨o'.pages⟩ := ⟨p', by
    unfold AdrOffset.new
    rw [if_neg hp'.1, ← hp'.2]⟩
  have heq := hmade.eq hmade' h
  obtain ⟨pages⟩ := o
  obtain ⟨pages'⟩ := o'
  exact congrArg AdrpOffset.mk (AdrOffset.mk.inj heq)

theorem toInt_ofInt_of_range {n : Nat} {b : Int} (hk : k < n)
    (hb : -(2 ^ k) ≤ b ∧ b < 2 ^ k) : (BitVec.ofInt n b).toInt = b := by
  have hpow : (2 : Int) ^ k ≤ 2 ^ (n - 1) := by
    exact_mod_cast Nat.pow_le_pow_right (by decide : 0 < 2) (by omega : k ≤ n - 1)
  exact BitVec.toInt_ofInt_eq_self (by omega) (by omega) (by omega)

theorem Simm9.Made.eq {o o' : Simm9} (ho : o.Made) (ho' : o'.Made) (h : o.encoding = o'.encoding) :
    o = o' := by
  obtain ⟨b, hb⟩ := ho
  obtain ⟨b', hb'⟩ := ho'
  unfold Simm9.new at hb hb'
  rw [guard_eq_ok, Except.ok.injEq, not_not] at hb hb'
  obtain ⟨hrange, rfl⟩ := hb
  obtain ⟨hrange', rfl⟩ := hb'
  unfold Simm9.encoding at h
  rw [BitVec.signExtend, BitVec.signExtend, toInt_ofInt_of_range (k := 8) (by decide) hrange,
    toInt_ofInt_of_range (k := 8) (by decide) hrange'] at h
  rw [ofInt_and_mask_inj (k := 9) (by decide) (by decide) hrange hrange' h]

theorem SImm7Scaled.Made.scaled_eq {o o' : SImm7Scaled} (ho : o.Made) (ho' : o'.Made)
    (h : o.encoding = o'.encoding) : o.scaled = o'.scaled := by
  obtain ⟨b, a, -, -, hb⟩ := ho
  obtain ⟨b', a', -, -, hb'⟩ := ho'
  unfold SImm7Scaled.new at hb hb'
  rw [guard_eq_ok] at hb hb'
  dsimp only at hb hb'
  rw [guard_eq_ok, Except.ok.injEq] at hb hb'
  obtain ⟨-, hrange, rfl⟩ := hb
  obtain ⟨-, hrange', rfl⟩ := hb'
  rw [not_not] at hrange hrange'
  unfold SImm7Scaled.encoding at h
  rw [BitVec.signExtend, BitVec.signExtend, toInt_ofInt_of_range (k := 6) (by decide) hrange,
    toInt_ofInt_of_range (k := 6) (by decide) hrange'] at h
  show BitVec.ofInt 8 _ = BitVec.ofInt 8 _
  rw [ofInt_and_mask_inj (k := 7) (by decide) (by decide) hrange hrange' h]

theorem UScaledImm12.scaled_eq {o o' : UScaledImm12} (h : o.encoding = o'.encoding) :
    o.scaled = o'.scaled := by
  have htoNat := congrArg BitVec.toNat h
  unfold UScaledImm12.encoding at htoNat
  rw [BitVec.toNat_setWidth, BitVec.toNat_setWidth] at htoNat
  apply BitVec.eq_of_toNat_eq
  omega

theorem BranchOffset.Made.word_off_eq {o o' : BranchOffset} (ho : o.Made) (ho' : o'.Made)
    (hk : k ≤ 32) (hmask : (1#32 <<< (k % 32)) - 1 = BitFields.mask 32 k) (hbits : o.bits = k)
    (hbits' : o'.bits = k) (h : o.encoding = o'.encoding) : o.word_off = o'.word_off := by
  obtain ⟨b, m, what, hpos, -, hb⟩ := ho
  obtain ⟨b', m', what', -, -, hb'⟩ := ho'
  unfold BranchOffset.new at hb hb'
  rw [guard_eq_ok] at hb hb'
  dsimp only at hb hb'
  rw [guard_eq_ok, Except.ok.injEq, not_or, not_lt, not_lt] at hb hb'
  obtain ⟨-, hrange, rfl⟩ := hb
  obtain ⟨-, hrange', rfl⟩ := hb'
  dsimp only at hbits hbits' ⊢
  subst hbits hbits'
  unfold BranchOffset.encoding at h
  dsimp only at h
  rw [hmask] at h
  rw [ofInt_and_mask_inj hpos hk ⟨hrange.1, by omega⟩ ⟨hrange'.1, by omega⟩ h]

/-- The search finds what decodes to the value. -/
theorem encode_bitmask_decodes {value : BitVec 64} {reg_size : Nat} {n : Fin 2} {immr imms : Fin 64}
    (h : encode_bitmask value reg_size = some (n, immr, imms)) :
    decode_bitmask n immr imms reg_size = some value := by
  unfold encode_bitmask at h
  dsimp only at h
  rw [if_neg (fun hc => by rw [if_pos hc] at h; exact nomatch h)] at h
  obtain ⟨n', -, hn⟩ := List.exists_of_findSome?_eq_some h
  obtain ⟨immr', -, hr⟩ := List.exists_of_findSome?_eq_some hn
  obtain ⟨imms', -, hs⟩ := List.exists_of_findSome?_eq_some hr
  by_cases hdecode : decode_bitmask n' immr' imms' reg_size = some value
  · rw [if_pos hdecode, Option.some.injEq, Prod.mk.injEq, Prod.mk.injEq] at hs
    obtain ⟨rfl, rfl, rfl⟩ := hs
    exact hdecode
  · rw [if_neg hdecode] at hs
    exact nomatch hs

theorem LogicalImm.Made.decodes {i : LogicalImm} (hi : i.Made) :
    decode_bitmask i.n_bit i.rotate i.ones (if i.is64 then 64 else 32) = some i.value := by
  obtain ⟨value, is64, h⟩ := hi
  unfold LogicalImm.new at h
  dsimp only at h
  generalize htarget : (if is64 then value else (value.setWidth 32).setWidth 64) = target at h
  cases hfound : encode_bitmask target (if is64 then 64 else 32) with
  | none =>
    rw [hfound] at h
    exact nomatch h
  | some found =>
    obtain ⟨n, immr, imms⟩ := found
    rw [hfound] at h
    cases h
    exact encode_bitmask_decodes hfound

theorem ofFin_castLE_inj {m : Nat} {a b : Fin m} {hm : m ≤ 2 ^ 32}
    (h : (BitVec.ofFin (a.castLE hm) : Word) = BitVec.ofFin (b.castLE hm)) : a = b := by
  have hval := congrArg BitVec.toNat h
  exact Fin.ext hval

theorem LogicalImm.Made.eq {i i' : LogicalImm} (hi : i.Made) (hi' : i'.Made) (hn : i.n = i'.n)
    (hr : i.immr = i'.immr) (hs : i.imms = i'.imms) (hwidth : i.is64 = i'.is64) : i = i' := by
  have hdecode := hi.decodes
  have hdecode' := hi'.decodes
  obtain ⟨n, r, s, is64, value⟩ := i
  obtain ⟨n', r', s', is64', value'⟩ := i'
  obtain rfl : n = n' := ofFin_castLE_inj hn
  obtain rfl : r = r' := ofFin_castLE_inj hr
  obtain rfl : s = s' := ofFin_castLE_inj hs
  obtain rfl : is64 = is64' := hwidth
  have hvalue : some value = some value' := hdecode.symm.trans hdecode'
  rw [Option.some.inj hvalue]

theorem FpImm8.Made.expands {i : FpImm8} (hi : i.Made) : i.bits = FpImm8.expand i.imm8 i.is64 := by
  obtain ⟨bits, is64, h⟩ := hi
  unfold FpImm8.from_bits at h
  dsimp only at h
  split at h
  · rename_i imm8 hfound
    cases h
    have hexpand := List.find?_some hfound
    exact (of_decide_eq_true hexpand).symm
  · exact nomatch h

theorem FpImm8.Made.eq {i i' : FpImm8} (hi : i.Made) (hi' : i'.Made) (h : i.encoding = i'.encoding)
    (hwidth : i.is64 = i'.is64) : i = i' := by
  have hbits := hi.expands
  have hbits' := hi'.expands
  obtain ⟨imm8, is64, bits⟩ := i
  obtain ⟨imm8', is64', bits'⟩ := i'
  obtain rfl : is64 = is64' := hwidth
  have himm : imm8 = imm8' := by
    have htoNat := congrArg BitVec.toNat h
    unfold FpImm8.encoding at htoNat
    rw [BitVec.toNat_setWidth, BitVec.toNat_setWidth] at htoNat
    apply BitVec.eq_of_toNat_eq
    dsimp only at htoNat
    omega
  subst himm
  have heq : bits = bits' := hbits.trans hbits'.symm
  rw [heq]

theorem Uimm12Lsl.eq {i i' : Uimm12Lsl} (hshift : as_u32 i.shift12 = as_u32 i'.shift12)
    (hraw : i.raw = i'.raw) : i = i' := by
  obtain ⟨bits, shift12⟩ := i
  obtain ⟨bits', shift12'⟩ := i'
  obtain rfl : bits = bits' := ofFin_castLE_inj hraw
  rw [show shift12 = shift12' from as_u32_inj hshift]

theorem ShiftKind.encoding_inj {k k' : ShiftKind} (h : k.encoding = k'.encoding) : k = k' := by
  cases k <;> cases k' <;> first | rfl | exact absurd h (by decide)

theorem RegShift.eq {s s' : RegShift} (hkind : s.kind.encoding = s'.kind.encoding)
    (hamount : s.amount = s'.amount) : s = s' := by
  obtain ⟨kind, raw⟩ := s
  obtain ⟨kind', raw'⟩ := s'
  obtain rfl : raw = raw' := ofFin_castLE_inj hamount
  rw [show kind = kind' from ShiftKind.encoding_inj hkind]

theorem ExtendKind.encoding_inj {k k' : ExtendKind} (h : k.encoding = k'.encoding) : k = k' := by
  cases k <;> cases k' <;> first | rfl | exact absurd h (by decide)

theorem RegExtend.eq {e e' : RegExtend} (hkind : e.kind.encoding = e'.kind.encoding)
    (hamount : e.amount = e'.amount) : e = e' := by
  obtain ⟨kind, raw⟩ := e
  obtain ⟨kind', raw'⟩ := e'
  obtain rfl : raw = raw' := ofFin_castLE_inj hamount
  rw [show kind = kind' from ExtendKind.encoding_inj hkind]

theorem Cond.code_inj {c c' : Cond} (h : c.code = c'.code) : c = c' := by
  obtain ⟨bits⟩ := c
  obtain ⟨bits'⟩ := c'
  rw [show bits = bits' from ofFin_castLE_inj h]

theorem setWidth_16_inj {v v' : BitVec 16} (h : v.setWidth 32 = v'.setWidth 32) : v = v' := by
  have htoNat := congrArg BitVec.toNat h
  rw [BitVec.toNat_setWidth, BitVec.toNat_setWidth] at htoNat
  apply BitVec.eq_of_toNat_eq
  omega

theorem ofNat_fin64_inj {a b : Fin 64} (h : BitVec.ofNat 32 a.val = BitVec.ofNat 32 b.val) : a = b := by
  have htoNat := congrArg BitVec.toNat h
  rw [BitVec.toNat_ofNat, BitVec.toNat_ofNat] at htoNat
  exact Fin.ext (by omega)

theorem RegOffset.Made.checks {ro : RegOffset} (h : ro.Made) :
    ro.rm.Made ∧ ro.rm.is64 = ro.extend.rm_is64 := by
  obtain ⟨rm, extend, shifted, hrm, h⟩ := h
  unfold RegOffset.new at h
  rw [guard_eq_ok, Except.ok.injEq, not_not] at h
  obtain ⟨hwidth, rfl⟩ := h
  exact ⟨hrm, hwidth⟩

theorem LdStExtend.option_inj {e e' : LdStExtend} (h : e.option = e'.option) : e = e' := by
  cases e <;> cases e' <;> first | rfl | exact absurd h (by decide)

theorem RegOffset.Made.eq {ro ro' : RegOffset} (h : ro.Made) (h' : ro'.Made) (hnum : ro.rm.num ≠ 31)
    (hrm : ro.rm.encoding = ro'.rm.encoding) (hextend : ro.extend.option = ro'.extend.option)
    (hshifted : as_u32 ro.shifted = as_u32 ro'.shifted) : ro = ro' := by
  obtain ⟨hmade, hwidth⟩ := h.checks
  obtain ⟨hmade', hwidth'⟩ := h'.checks
  have hkind := LdStExtend.option_inj hextend
  have hreg : ro.rm = ro'.rm :=
    Reg.eq_of_num hmade hmade' hrm (hwidth.trans (hkind ▸ hwidth'.symm)) hnum
  obtain ⟨rm, extend, shifted⟩ := ro
  obtain ⟨rm', extend', shifted'⟩ := ro'
  rw [show rm = rm' from hreg, show extend = extend' from hkind,
    show shifted = shifted' from as_u32_inj hshifted]

/-! ## Operations -/

theorem AddSubOp.inj {op op' : AddSubOp}
    (h : as_u32 (op = .Sub) = as_u32 (op' = .Sub)) : op = op' := by
  cases op <;> cases op' <;> first | rfl | exact absurd h (by decide)

theorem MovWideOp.opc_inj {op op' : MovWideOp} (h : op.opc = op'.opc) : op = op' := by
  cases op <;> cases op' <;> first | rfl | exact absurd h (by decide)

theorem LogicalImmOp.opc_inj {op op' : LogicalImmOp} (h : op.opc = op'.opc) : op = op' := by
  cases op <;> cases op' <;> first | rfl | exact absurd h (by decide)

theorem LogicalShiftOp.opc_n_inj {op op' : LogicalShiftOp} (hopc : op.opc_n.1 = op'.opc_n.1)
    (hn : op.opc_n.2 = op'.opc_n.2) : op = op' := by
  cases op <;> cases op' <;> first | rfl | exact absurd hopc (by decide) | exact absurd hn (by decide)

theorem BitfieldOp.opc_inj {op op' : BitfieldOp} (h : op.opc = op'.opc) : op = op' := by
  cases op <;> cases op' <;> first | rfl | exact absurd h (by decide)

theorem DataProc2Op.opcode_inj {op op' : DataProc2Op} (h : op.opcode = op'.opcode) : op = op' := by
  cases op <;> cases op' <;> first | rfl | exact absurd h (by decide)

theorem DataProc3Op.op31_o0_inj {op op' : DataProc3Op} (h31 : op.op31_o0.1 = op'.op31_o0.1)
    (h0 : op.op31_o0.2 = op'.op31_o0.2) : op = op' := by
  cases op <;> cases op' <;> first | rfl | exact absurd h31 (by decide) | exact absurd h0 (by decide)

theorem DataProc1Op.opcode_inj {op op' : DataProc1Op} {is64 : Bool}
    (h : op.opcode is64 = op'.opcode is64) : op = op' := by
  cases op <;> cases op' <;> cases is64 <;> first | rfl | exact absurd h (by decide)

theorem CondSelectOp.opbit_op2_inj {op op' : CondSelectOp} (hbit : op.opbit_op2.1 = op'.opbit_op2.1)
    (h2 : op.opbit_op2.2 = op'.opbit_op2.2) : op = op' := by
  cases op <;> cases op' <;> first | rfl | exact absurd hbit (by decide) | exact absurd h2 (by decide)

theorem PairIndex.mode_inj {index index' : PairIndex} (h : index.mode = index'.mode) :
    index = index' := by
  cases index <;> cases index' <;> first | rfl | exact absurd h (by decide)

def LdStOp.all : List LdStOp :=
  [.StrB, .LdrB, .LdrSb true, .LdrSb false, .StrH, .LdrH, .LdrSh true, .LdrSh false, .StrW, .LdrW,
    .LdrSw, .StrX, .LdrX]

theorem LdStOp.mem_all (op : LdStOp) : op ∈ LdStOp.all := by
  cases op with
  | LdrSb is64 | LdrSh is64 => cases is64 <;> decide
  | _ => decide

theorem LdStOp.size_opc_inj {op op' : LdStOp} (hsize : op.size_opc.1 = op'.size_opc.1)
    (hopc : op.size_opc.2 = op'.size_opc.2) : op = op' := by
  have hpairs : ∀ op ∈ LdStOp.all, ∀ op' ∈ LdStOp.all, op.size_opc = op'.size_opc → op = op' := by
    decide
  exact hpairs op op.mem_all op' op'.mem_all (Prod.ext hsize hopc)

theorem FpUnaryOp.opcode_inj {op op' : FpUnaryOp} (h : op.opcode = op'.opcode) : op = op' := by
  cases op <;> cases op' <;> first | rfl | exact absurd h (by decide)

theorem FpBinOp.opcode_inj {op op' : FpBinOp} (h : op.opcode = op'.opcode) : op = op' := by
  cases op <;> cases op' <;> first | rfl | exact absurd h (by decide)

theorem FpIntConvertOp.rmode_opcode_inj {op op' : FpIntConvertOp}
    (hr : op.rmode_opcode.1 = op'.rmode_opcode.1) (ho : op.rmode_opcode.2 = op'.rmode_opcode.2) :
    op = op' := by
  cases op <;> cases op' <;> first | rfl | exact absurd hr (by decide) | exact absurd ho (by decide)

end Fors.Asm
