import Fors.Rt.Kernel

/-!
# The loop of `_fors_rt_write`

Whatever the kernel answers, the loop keeps what is left in `x4` and `x5`: every turn accepts some
more from its front, or asks again.

Principal result: `write_ends`.
-/

namespace Fors.Rt

open List hiding sum
open AArch64 LittleEndian
open Link (Atom word_at imm26 BL BL_MASK)

/-! ## Words -/

variable {code : Code} {symbols : String → Option Addr} {start : Addr} {a : Atom}

/-- The instructions from the word `i` on have no relocation. -/
def decodes (a : Atom) (i : Nat) (ops : List Op) : Bool :=
  (ops.zipIdx i).all fun p => 4 * p.2 + 4 ≤ a.code.length ∧
    a.relocs.all (fun r => r.offset.toNat ≠ 4 * p.2) ∧
    decode (word_at a.code (4 * p.2)).toBitVec = some p.1

theorem Stands.program (h : Stands code symbols start a) {i : Nat} {ops : List Op}
    (hops : decodes a i ops = true) : Program code (start + .ofNat 64 (4 * i)) ops := by
  intro j op hop
  have hmem : (op, i + j) ∈ ops.zipIdx i := by
    rw [mem_zipIdx_iff_le_and_getElem?_sub, Nat.add_sub_cancel_left]
    exact ⟨Nat.le_add_right i j, hop⟩
  have hword := all_eq_true.mp hops _ hmem
  simp only [decide_eq_true_eq, all_eq_true, ne_eq] at hword
  obtain ⟨hin, hrelocs, hdecode⟩ := hword
  have hcode := h.words (i + j) hin fun r hr => by simpa using hrelocs r hr
  rw [Nat.mul_add, ← BitVec.ofNat_add_ofNat, ← BitVec.add_assoc] at hcode
  unfold fetch
  rw [hcode]
  rwa [Nat.mul_add] at hdecode

theorem toInt_imm26 (w : UInt32) : (w.toBitVec.extractLsb' 0 26).toInt = imm26 w := by
  have hlow : (w.toBitVec.extractLsb' 0 26).toNat = (w &&& Link.IMM_MASK).toNat := by
    rw [Link.toNat_and_imm, BitVec.extractLsb'_toNat, Nat.shiftRight_zero]
    rfl
  unfold imm26
  rw [BitVec.toInt_eq_toNat_cond, hlow]
  split <;> split <;> omega

/-- A field differs where one of its bits does. -/
theorem extract_ne {w : BitVec 32} {lo len : Nat} {v : BitVec len} (i : Nat) (hi : i < len)
    (h : w.getLsbD (lo + i) ≠ v.getLsbD i) : w.extractLsb' lo len ≠ v := by
  rintro rfl
  rw [BitVec.getLsbD_extractLsb', decide_eq_true hi, Bool.true_and] at h
  exact h rfl

/-- A word that is a `bl` decodes to the call. -/
theorem decode_bl {w : UInt32} (h : w &&& BL_MASK = BL) :
    decode w.toBitVec = some (.b true (.ofInt 64 (4 * imm26 w))) := by
  have hbit (i : Nat) : (w.toBitVec.getLsbD i && BL_MASK.toBitVec.getLsbD i) =
      BL.toBitVec.getLsbD i := by
    rw [← BitVec.getLsbD_and, ← UInt32.toBitVec_and, h]
  have h31 : w.toBitVec.getLsbD 31 = true := by simpa [BL_MASK, BL] using hbit 31
  have h30 : w.toBitVec.getLsbD 30 = false := by simpa [BL_MASK, BL] using hbit 30
  have h29 : w.toBitVec.getLsbD 29 = false := by simpa [BL_MASK, BL] using hbit 29
  have h28 : w.toBitVec.getLsbD 28 = true := by simpa [BL_MASK, BL] using hbit 28
  have h27 : w.toBitVec.getLsbD 27 = false := by simpa [BL_MASK, BL] using hbit 27
  have h26 : w.toBitVec.getLsbD 26 = true := by simpa [BL_MASK, BL] using hbit 26
  have htop : w.toBitVec.extractLsb' 26 5 = 0b00101#5 := by
    refine BitVec.eq_of_getLsbD_eq fun i hi => ?_
    rw [BitVec.getLsbD_extractLsb', decide_eq_true hi, Bool.true_and]
    rcases i with _ | _ | _ | _ | _ | i
    · exact h26
    · exact h27
    · exact h28
    · exact h29
    · exact h30
    · omega
  unfold decode
  simp only []
  rw [if_neg fun hc => extract_ne 3 (by decide) (by rw [h26]; decide) hc.1,
    if_neg fun hc => extract_ne 7 (by decide) (by rw [h28]; decide) hc.1,
    if_neg (extract_ne 8 (by decide) (by rw [h29]; decide)),
    if_neg fun hc => extract_ne 7 (by decide) (by rw [h30]; decide) hc.1,
    if_neg fun hc => extract_ne 6 (by decide) (by rw [h27]; decide) hc.1,
    if_neg fun hc => extract_ne 6 (by decide) (by rw [h27]; decide) hc.1,
    if_neg (extract_ne 9 (by decide) (by rw [h31]; decide)),
    if_neg (extract_ne 7 (by decide) (by rw [h29]; decide)),
    if_neg (extract_ne 7 (by decide) (by rw [h29]; decide)),
    if_neg (extract_ne 4 (by decide) (by rw [h29]; decide)), if_pos htop, h31, words, toInt_imm26]

/-- The word of a relocation calls its target. -/
theorem Stands.call (h : Stands code symbols start a) {r : Link.Reloc} (hr : r ∈ a.relocs) :
    ∃ d t, fetch code (start + .ofNat 64 r.offset.toNat) = some (.b true d) ∧
      symbols r.target = some t ∧ start + .ofNat 64 r.offset.toNat + d = t := by
  obtain ⟨w, t, hcode, hbl, htarget, hsum⟩ := h.calls r hr
  refine ⟨_, t, ?_, htarget, hsum⟩
  unfold fetch
  rw [hcode]
  exact decode_bl hbl

/-! ## The routine -/

abbrev mov (rd rm : RegNum) : Op :=
  .orr_shifted rd 31 rm 0

def take_args : List Op :=
  [mov 3 0, mov 4 1, mov 5 2]

def ask : List Op :=
  [mov 0 3, mov 1 4, mov 2 5, .movz 16 4]

def advance : List Op :=
  [.add_sub_shifted false false 4 4 0 0, .add_sub_shifted true false 5 5 0 0]

def write_ops : List Op :=
  take_args ++ .cbz false 5 52 :: ask ++ [.svc 0x80, .b_cond 2 20, .cbz false 0 24] ++ advance ++
    [.b false (-40), .add_sub_imm true true 31 0 4, .b_cond 0 (-48), .ret 30]

theorem write_decodes : ∃ a, write = .ok a ∧ a.name = WRITE ∧ a.relocs = [] ∧
    decodes a 0 write_ops = true :=
  ⟨_, rfl, rfl, rfl, by decide +kernel⟩

/-! ## Its blocks -/

theorem run_take_args (c : Cpu) : ∃ t, line take_args c = some t ∧
    t.x 3 = c.x 0 ∧ t.x 4 = c.x 1 ∧ t.x 5 = c.x 2 ∧ Keeps [3, 4, 5] c t := by
  refine ⟨_, rfl, ?_, ?_, ?_, ?_⟩
  · simp [Cpu.reg]
  · simp [Cpu.reg]
  · simp [Cpu.reg]
  · refine ⟨fun r hr => ?_, ?_, ?_, ?_⟩
    · simp at hr
      simp [hr]
    · simp
    · simp
    · simp

theorem run_ask (c : Cpu) : ∃ t, line ask c = some t ∧
    t.x 0 = c.x 3 ∧ t.x 1 = c.x 4 ∧ t.x 2 = c.x 5 ∧ t.x 16 = 4 ∧ Keeps [0, 1, 2, 16] c t := by
  refine ⟨_, rfl, ?_, ?_, ?_, ?_, ?_⟩
  · simp [Cpu.reg]
  · simp [Cpu.reg]
  · simp [Cpu.reg]
  · simp
  · refine ⟨fun r hr => ?_, ?_, ?_, ?_⟩
    · simp at hr
      simp [hr]
    · simp
    · simp
    · simp

theorem run_advance (c : Cpu) : ∃ t, line advance c = some t ∧
    t.x 4 = c.x 4 + c.x 0 ∧ t.x 5 = c.x 5 - c.x 0 ∧ Keeps [4, 5] c t := by
  refine ⟨_, rfl, ?_, ?_, ?_⟩
  · simp [Cpu.reg, sum]
  · simp [Cpu.reg, sum]
  · refine ⟨fun r hr => ?_, ?_, ?_, ?_⟩
    · simp at hr
      simp [hr]
    · simp
    · simp
    · simp

/-- `cmp x0, #4` tells whether the error is `EINTR`. -/
theorem run_compare (c : Cpu) : ∃ t, exec (.add_sub_imm true true 31 0 4) c = some t ∧
    (t.z = true ↔ c.x 0 = EINTR) ∧ Keeps [] c t ∧ t.pc = c.pc + 4 := by
  have hreg : c.reg_sp 0 = c.x 0 := if_neg (by decide)
  have hexec := exec_cmp c 0 4
  rw [hreg] at hexec
  refine ⟨_, hexec, ?_, (c.flags_of_keeps (c.x 0) true 4).next, ?_⟩
  · rw [Cpu.next_z, Cpu.flags_of_z]
    rfl
  · rw [Cpu.next_pc, Cpu.flags_of_pc]

/-! ## The kernel's answers -/

section
variable {c : Cpu} {k : Kernel} {rest : List Answer} {errno x1 : BitVec 64} {n z v : Bool}

theorem kernel_error (hnum : c.x 16 = 4) (hk : k.answers = .error errno x1 n z v :: rest) :
    ∃ t, kernel 0x80 c k = some (t, ⟨rest, k.accepted⟩) ∧ t.c = true ∧ t.x 0 = errno ∧
      t.pc = c.pc + 4 ∧ Keeps [0, 1] c t := by
  unfold kernel
  rw [if_pos ⟨rfl, hnum⟩, hk]
  refine ⟨_, rfl, ?_, ?_, ?_, ?_⟩
  · rw [Cpu.next_c, Cpu.set_c, Cpu.set_c]
  · simp
  · simp
  · refine ⟨fun r hr => ?_, ?_, ?_, ?_⟩
    · simp at hr
      simp [hr]
    · simp
    · simp
    · simp

/-- It accepts the front of what it is asked to write. -/
theorem kernel_accept {count : Nat} (hnum : c.x 16 = 4)
    (hk : k.answers = .accept count x1 n z v :: rest) :
    ∃ t, kernel 0x80 c k = some (t, ⟨rest, k.accepted ++
        [(c.x 0, slice c.mem (c.x 1) (min count (c.x 2).toNat))]⟩) ∧
      t.c = false ∧ t.x 0 = .ofNat 64 (min count (c.x 2).toNat) ∧
      t.pc = c.pc + 4 ∧ Keeps [0, 1] c t := by
  unfold kernel
  rw [if_pos ⟨rfl, hnum⟩, hk]
  refine ⟨_, rfl, ?_, ?_, ?_, ?_⟩
  · rw [Cpu.next_c, Cpu.set_c, Cpu.set_c]
  · simp
  · simp
  · refine ⟨fun r hr => ?_, ?_, ?_, ?_⟩
    · simp at hr
      simp [hr]
    · simp
    · simp
    · simp

end

/-! ## The loop -/

/-- The loop's turn begins: the call that began in `s` has got `chunks` accepted, and the rest of the
buffer is in `x4` and `x5`. -/
structure Turn (code : Code) (start : Addr) (s c : State) (used : List Answer)
    (chunks : List (List UInt8)) : Prop where
  run : Reaches code kernel s c
  pc : c.1.pc = start + 12
  fd : c.1.x 3 = s.1.x 0
  ptr : c.1.x 4 = s.1.x 1 + .ofNat 64 chunks.flatten.length
  left : (c.1.x 5).toNat + chunks.flatten.length = (s.1.x 2).toNat
  front : chunks.flatten = slice s.1.mem (s.1.x 1) chunks.flatten.length
  answers : s.2.answers = used ++ c.2.answers
  accepted : c.2.accepted = s.2.accepted ++ chunks.map fun chunk => (s.1.x 0, chunk)
  keeps : Keeps [0, 1, 2, 3, 4, 5, 16] s.1 c.1
  going : ∀ a ∈ used, ¬ a.Stops

variable {s c : State} {used : List Answer} {chunks : List (List UInt8)}

theorem Turn.writing (h : Turn code start s c used chunks) : Writing s c used chunks := by
  refine ⟨h.answers, h.accepted, ?_, h.keeps⟩
  unfold passed
  rw [← h.left, Nat.add_comm, slice_append, ← h.front]
  exact prefix_append _ _

theorem Turn.whole (h : Turn code start s c used chunks) :
    chunks.flatten = passed s.1 ↔ c.1.x 5 = 0 := by
  have hleft := h.left
  constructor
  · intro hwhole
    have hlen : chunks.flatten.length = (s.1.x 2).toNat := by
      rw [hwhole, passed, length_slice]
    apply BitVec.eq_of_toNat_eq
    change (c.1.x 5).toNat = 0
    omega
  · intro hzero
    rw [hzero] at hleft
    change 0 + _ = _ at hleft
    rw [Nat.zero_add] at hleft
    rw [passed, ← hleft]
    exact h.front

/-- The routine ends with the `ret` behind the loop. -/
theorem written_of_ret (hret : fetch code c.1.pc = some (.ret 30)) (hrun : Reaches code kernel s c)
    (hwriting : Writing s c used chunks)
    (hwhole : chunks.flatten = passed s.1 ↔ ∀ a ∈ used, ¬ a.Stops) : ∃ t, Written code s t := by
  have hlink : c.1.reg 30 = s.1.x 30 := by
    rw [Cpu.reg, if_neg (by decide), hwriting.keeps.x 30 (by decide)]
  refine ⟨(c.1.jump (c.1.reg 30), c.2), hrun.trans (reaches_op hret rfl), hlink, used, chunks,
    ⟨hwriting.answers, hwriting.accepted, hwriting.front, hwriting.keeps.jump _⟩, hwhole⟩

/-- Nothing is left: the loop is left. -/
theorem Turn.finish (hops : Program code start write_ops) (h : Turn code start s c used chunks)
    (hzero : c.1.x 5 = 0) : ∃ t, Written code s t := by
  have hcbz : fetch code c.1.pc = some (.cbz false 5 52) := by
    rw [h.pc]
    exact hops 3 _ rfl
  have hret : fetch code (c.1.pc + 52) = some (.ret 30) := by
    rw [h.pc, BitVec.add_assoc]
    exact hops 16 _ rfl
  have hjump : exec (.cbz false 5 52) c.1 = some (c.1.jump (c.1.pc + 52)) :=
    exec_cbz_taken (by rw [Cpu.reg_of_ne _ _ (by decide), hzero]) 52
  have hw := h.writing
  refine written_of_ret (c := (c.1.jump (c.1.pc + 52), c.2)) hret
    (h.run.trans (reaches_op hcbz hjump))
    ⟨hw.answers, hw.accepted, hw.front, hw.keeps.jump _⟩ ?_
  exact ⟨fun _ => h.going, fun _ => h.whole.mpr hzero⟩

/-- The `svc`, with what it is asked. -/
structure Asking (start : Addr) (c d : State) : Prop where
  pc : d.1.pc = start + 32
  num : d.1.x 16 = 4
  fd : d.1.x 0 = c.1.x 3
  ptr : d.1.x 1 = c.1.x 4
  len : d.1.x 2 = c.1.x 5
  kernel : d.2 = c.2
  keeps : Keeps [0, 1, 2, 16] c.1 d.1

/-- Something is left: the kernel is asked to write it. -/
theorem Turn.asks (hops : Program code start write_ops) (h : Turn code start s c used chunks)
    (hleft : c.1.x 5 ≠ 0) : ∃ d, Reaches code kernel c d ∧ Asking start c d := by
  have hcbz : fetch code c.1.pc = some (.cbz false 5 52) := by
    rw [h.pc]
    exact hops 3 _ rfl
  have hnext : exec (.cbz false 5 52) c.1 = some c.1.next :=
    exec_cbz_passed (by rw [Cpu.reg_of_ne _ _ (by decide)]; exact hleft) 52
  have hask : Program code (start + 16) ask :=
    hops.block (i := 4) rfl
  obtain ⟨t, hline, h0, h1, h2, h16, hkeeps⟩ := run_ask c.1.next
  have hpc : c.1.next.pc = start + 16 := by
    rw [Cpu.next_pc, h.pc, BitVec.add_assoc]
    rfl
  obtain ⟨hreach, hend⟩ := @reaches_line _ _ kernel _ _ _ _ c.2 hask rfl hpc hline
  refine ⟨(t, c.2), .trans (reaches_op hcbz hnext) hreach, ?_, h16, h0, h1, h2, rfl, ?_⟩
  · rw [hend, BitVec.add_assoc]
    rfl
  · exact ((Keeps.refl c.1 []).next).mono (by simp) |>.trans hkeeps (by simp)

variable {d : State} {rest : List Answer}

/-- An answer that stops the routine comes before everything is written. -/
theorem Turn.stopped (h : Turn code start s c used chunks) (hleft : c.1.x 5 ≠ 0) {a : Answer}
    (ha : a.Stops) : chunks.flatten = passed s.1 ↔ ∀ b ∈ used ++ [a], ¬ b.Stops :=
  ⟨fun hwhole => absurd (h.whole.mp hwhole) hleft, fun hall => absurd ha (hall a (by simp))⟩

/-- An error: `EINTR` begins a turn with the same rest, any other ends the routine. -/
theorem Turn.error (hops : Program code start write_ops) (h : Turn code start s c used chunks)
    (hleft : c.1.x 5 ≠ 0) (hrun : Reaches code kernel c d) (hask : Asking start c d) {errno x1 : BitVec 64}
    {n z v : Bool} (hk : c.2.answers = .error errno x1 n z v :: rest) :
    (errno ≠ EINTR → ∃ t, Written code s t) ∧
      (errno = EINTR → ∃ c', Turn code start s c' (used ++ [.error errno x1 n z v]) chunks ∧
        c'.2.answers = rest) := by
  obtain ⟨t, hcall, hcarry, herrno, hpc, hkeeps⟩ :=
    kernel_error (k := d.2) hask.num (by rw [hask.kernel, hk])
  have hsvc : fetch code d.1.pc = some (.svc 0x80) := by
    rw [hask.pc]
    exact hops 8 _ rfl
  have hcs : fetch code t.pc = some (.b_cond 2 20) := by
    rw [hpc, hask.pc, BitVec.add_assoc]
    exact hops 9 _ rfl
  have hjump := exec_b_cond_taken (t.holds_cs.trans hcarry) 20
  have hpc1 : (t.jump (t.pc + 20)).pc = start + 56 := by
    rw [Cpu.jump_pc, hpc, hask.pc, BitVec.add_assoc, BitVec.add_assoc]
    rfl
  have hfetch : fetch code (t.jump (t.pc + 20)).pc = some (.add_sub_imm true true 31 0 4) := by
    rw [hpc1]
    exact hops 14 _ rfl
  obtain ⟨u, hcmp, hz, hkeeps1, hpc2⟩ := run_compare (t.jump (t.pc + 20))
  rw [Cpu.jump_x, herrno, ← Cpu.holds_eq] at hz
  have hend : u.pc = start + 60 := by
    rw [hpc2, hpc1, BitVec.add_assoc]
    rfl
  have hbeq : fetch code u.pc = some (.b_cond 0 (-48)) := by
    rw [hend]
    exact hops 15 _ rfl
  have hreach : Reaches code kernel c (u, ⟨rest, c.2.accepted⟩) := by
    rw [← hask.kernel]
    exact hrun.trans ((reaches_svc hsvc hcall).trans
      ((reaches_op hcs hjump).trans (reaches_op hfetch hcmp)))
  have hkept : Keeps [0, 1, 2, 16] c.1 u :=
    hask.keeps.trans ((hkeeps.jump _).trans hkeeps1 (by simp)) (by simp)
  have hanswers : s.2.answers = (used ++ [.error errno x1 n z v]) ++ rest := by
    rw [h.answers, hk, append_assoc]
    rfl
  constructor
  · intro hne
    have hpassed := exec_b_cond_passed (Bool.eq_false_iff.mpr fun heq => hne (hz.mp heq)) (-48)
    have hret : fetch code u.next.pc = some (.ret 30) := by
      rw [Cpu.next_pc, hend, BitVec.add_assoc]
      exact hops 16 _ rfl
    have hwriting := h.writing
    refine written_of_ret (c := (u.next, ⟨rest, c.2.accepted⟩)) hret
      (h.run.trans (hreach.trans (reaches_op hbeq hpassed)))
      ⟨hanswers, hwriting.accepted, hwriting.front, ?_⟩ ?_
    · exact hwriting.keeps.trans hkept.next (by simp)
    · exact h.stopped hleft hne
  · rintro rfl
    have htaken := exec_b_cond_taken (hz.mpr rfl) (-48)
    refine ⟨(u.jump (u.pc + -48), ⟨rest, c.2.accepted⟩),
      ⟨h.run.trans (hreach.trans (reaches_op hbeq htaken)), ?_, ?_, ?_, ?_, h.front, hanswers,
        h.accepted, ?_, ?_⟩, rfl⟩
    · rw [Cpu.jump_pc, hend, BitVec.add_assoc]
      rfl
    · rw [Cpu.jump_x, hkept.x 3 (by decide), h.fd]
    · rw [Cpu.jump_x, hkept.x 4 (by decide), h.ptr]
    · rw [Cpu.jump_x, hkept.x 5 (by decide), h.left]
    · exact h.keeps.trans (hkept.jump _) (by simp)
    · exact forall_mem_append.mpr ⟨h.going, by simp [Answer.Stops]⟩

/-- Bytes are accepted: a turn begins with what is left, and a count of zero ends the routine. -/
theorem Turn.accept (hops : Program code start write_ops) (h : Turn code start s c used chunks)
    (hleft : c.1.x 5 ≠ 0) (hrun : Reaches code kernel c d) (hask : Asking start c d) {count : Nat}
    {x1 : BitVec 64} {n z v : Bool} (hk : c.2.answers = .accept count x1 n z v :: rest) :
    (count = 0 → ∃ t, Written code s t) ∧
      (count ≠ 0 → ∃ c' chunks', Turn code start s c' (used ++ [.accept count x1 n z v]) chunks' ∧
        c'.2.answers = rest) := by
  obtain ⟨t, hcall, hcarry, hcount, hpc, hkeeps⟩ :=
    kernel_accept (k := d.2) hask.num (by rw [hask.kernel, hk])
  obtain ⟨m, hm⟩ : ∃ m, m = min count (c.1.x 5).toNat := ⟨_, rfl⟩
  have hmle : m ≤ (c.1.x 5).toNat := by omega
  have hlt := (c.1.x 5).isLt
  rw [hask.len, hask.ptr, hask.fd, hask.kernel, hask.keeps.mem, h.keeps.mem, h.fd, h.ptr, ← hm]
    at hcall
  rw [hask.len, ← hm] at hcount
  have hsvc : fetch code d.1.pc = some (.svc 0x80) := by
    rw [hask.pc]
    exact hops 8 _ rfl
  have hcs : fetch code t.pc = some (.b_cond 2 20) := by
    rw [hpc, hask.pc, BitVec.add_assoc]
    exact hops 9 _ rfl
  have hpassed := exec_b_cond_passed (t.holds_cs.trans hcarry) 20
  have hpc1 : t.next.pc = start + 40 := by
    rw [Cpu.next_pc, hpc, hask.pc, BitVec.add_assoc, BitVec.add_assoc]
    rfl
  have hcbz : fetch code t.next.pc = some (.cbz false 0 24) := by
    rw [hpc1]
    exact hops 10 _ rfl
  obtain ⟨k, hkernel⟩ : ∃ k : Kernel, k = ⟨rest, c.2.accepted ++ [(s.1.x 0,
    slice s.1.mem (s.1.x 1 + .ofNat 64 chunks.flatten.length) m)]⟩ := ⟨_, rfl⟩
  rw [← hkernel] at hcall
  have hreach : Reaches code kernel c (t.next, k) := by
    refine hrun.trans (.trans (reaches_svc hsvc ?_) (reaches_op hcs hpassed))
    rw [hask.kernel]
    exact hcall
  have hkept : Keeps [0, 1, 2, 16] c.1 t.next := hask.keeps.trans hkeeps.next (by simp)
  have hreg : t.next.reg 0 = .ofNat 64 m := by
    rw [Cpu.reg_of_ne _ _ (by decide), Cpu.next_x, hcount]
  -- What was accepted goes on where the chunks before it end.
  obtain ⟨chunk, hchunk⟩ : ∃ chunk, chunk = slice s.1.mem
    (s.1.x 1 + .ofNat 64 chunks.flatten.length) m := ⟨_, rfl⟩
  have hflat : (chunks ++ [chunk]).flatten = chunks.flatten ++ chunk := by simp
  have hlen : (chunks ++ [chunk]).flatten.length = chunks.flatten.length + m := by
    rw [hflat, length_append, hchunk, length_slice]
  have hfront : (chunks ++ [chunk]).flatten =
      slice s.1.mem (s.1.x 1) (chunks ++ [chunk]).flatten.length := by
    rw [hlen, slice_append, ← h.front, ← hchunk, hflat]
  have hanswers : s.2.answers = (used ++ [.accept count x1 n z v]) ++ k.answers := by
    rw [h.answers, hk, hkernel, append_assoc]
    rfl
  have haccepted : k.accepted =
      s.2.accepted ++ (chunks ++ [chunk]).map fun chunk => (s.1.x 0, chunk) := by
    rw [hkernel, h.accepted, map_append, ← append_assoc, hchunk]
    rfl
  constructor
  · intro hzero
    have hm0 : m = 0 := by omega
    have hjump := exec_cbz_taken (s := t.next) (by rw [hreg, hm0]; rfl) 24
    have hret : fetch code (t.next.jump (t.next.pc + 24)).pc = some (.ret 30) := by
      rw [Cpu.jump_pc, hpc1, BitVec.add_assoc]
      exact hops 16 _ rfl
    have hsame : (chunks ++ [chunk]).flatten = chunks.flatten := by
      rw [hflat, hchunk, hm0]
      exact append_nil _
    have hwriting := h.writing
    refine written_of_ret (c := (t.next.jump (t.next.pc + 24), k)) hret
      (h.run.trans (hreach.trans (reaches_op hcbz hjump)))
      ⟨hanswers, haccepted, ?_, h.keeps.trans (hkept.jump _) (by simp)⟩ ?_
    · rw [hsame]
      exact hwriting.front
    · rw [hsame]
      exact h.stopped hleft hzero
  · intro hpos
    have hx5 : (c.1.x 5).toNat ≠ 0 := fun hzero => hleft (BitVec.eq_of_toNat_eq hzero)
    have hne : t.next.reg 0 ≠ 0 := by
      rw [hreg]
      intro hzero
      have hnat := congrArg BitVec.toNat hzero
      rw [BitVec.toNat_ofNat, Nat.mod_eq_of_lt (by omega)] at hnat
      change m = 0 at hnat
      omega
    have hnext := exec_cbz_passed hne 24
    have hblock : Program code (start + 44) advance := hops.block (i := 11) rfl
    have hpc2 : t.next.next.pc = start + 44 := by
      rw [Cpu.next_pc, hpc1, BitVec.add_assoc]
      rfl
    obtain ⟨u, hline, h4, h5, hkeeps1⟩ := run_advance t.next.next
    obtain ⟨hrun1, hend⟩ := @reaches_line _ _ kernel _ _ _ _ k hblock rfl hpc2 hline
    have hpc3 : u.pc = start + 52 := by
      rw [hend, BitVec.add_assoc]
      rfl
    have hb : fetch code u.pc = some (.b false (-40)) := by
      rw [hpc3]
      exact hops 13 _ rfl
    have hall : Keeps [0, 1, 2, 4, 5, 16] c.1 u :=
      ((hkept.next).mono (by simp)).trans hkeeps1 (by simp)
    have hx0 : t.next.next.x 0 = .ofNat 64 m := by
      rw [Cpu.next_x, Cpu.next_x, hcount]
    refine ⟨(u.jump (u.pc + -40), k), chunks ++ [chunk],
      ⟨h.run.trans (hreach.trans (.trans (reaches_op hcbz hnext) (hrun1.trans (reaches_op hb rfl)))),
        ?_, ?_, ?_, ?_, hfront, hanswers, haccepted, ?_, ?_⟩, by rw [hkernel]⟩
    · rw [Cpu.jump_pc, hpc3, BitVec.add_assoc]
      rfl
    · rw [Cpu.jump_x, hall.x 3 (by decide), h.fd]
    · rw [Cpu.jump_x, h4, hx0, Cpu.next_x, hkept.x 4 (by decide), h.ptr, hlen,
        BitVec.add_assoc, BitVec.ofNat_add_ofNat]
    · have hsub : (c.1.x 5 - .ofNat 64 m).toNat = (c.1.x 5).toNat - m := by
        rw [BitVec.toNat_sub_of_le, BitVec.toNat_ofNat, Nat.mod_eq_of_lt (by omega)]
        rw [BitVec.le_def, BitVec.toNat_ofNat, Nat.mod_eq_of_lt (by omega)]
        exact hmle
      rw [Cpu.jump_x, h5, hx0, Cpu.next_x, hkept.x 5 (by decide), hsub, hlen, ← h.left]
      omega
    · exact h.keeps.trans (hall.jump _) (by simp)
    · exact forall_mem_append.mpr ⟨h.going, by simpa [Answer.Stops] using hpos⟩

/-- No answer: the call waits. -/
theorem Turn.waits (hops : Program code start write_ops) (h : Turn code start s c used chunks)
    (hleft : c.1.x 5 ≠ 0) (hrun : Reaches code kernel c d) (hask : Asking start c d)
    (hk : c.2.answers = []) : Waits code s d := by
  have hsvc : fetch code d.1.pc = some (.svc 0x80) := by
    rw [hask.pc]
    exact hops 8 _ rfl
  have hwriting := h.writing
  refine ⟨h.run.trans hrun, hsvc, by rw [hask.kernel, hk], used, chunks,
    ⟨by rw [hask.kernel]; exact hwriting.answers, by rw [hask.kernel]; exact hwriting.accepted,
      hwriting.front, hwriting.keeps.trans hask.keeps (by simp)⟩, ?_, h.going⟩
  exact fun hwhole => hleft (h.whole.mp hwhole)

/-- The loop ends, or waits for an answer. -/
theorem Turn.ends (hops : Program code start write_ops) (h : Turn code start s c used chunks) :
    ∃ t, Written code s t ∨ Waits code s t := by
  -- Every turn takes an answer.
  induction hrest : c.2.answers generalizing c used chunks with
  | nil =>
    by_cases hleft : c.1.x 5 = 0
    · obtain ⟨t, ht⟩ := h.finish hops hleft
      exact ⟨t, .inl ht⟩
    · obtain ⟨d, hrun, hask⟩ := h.asks hops hleft
      exact ⟨d, .inr (h.waits hops hleft hrun hask hrest)⟩
  | cons a rest ih =>
    by_cases hleft : c.1.x 5 = 0
    · obtain ⟨t, ht⟩ := h.finish hops hleft
      exact ⟨t, .inl ht⟩
    · obtain ⟨d, hrun, hask⟩ := h.asks hops hleft
      cases a with
      | error errno x1 n z v =>
        obtain ⟨hstop, hgo⟩ := h.error hops hleft hrun hask hrest
        by_cases heintr : errno = EINTR
        · obtain ⟨c', hturn, hanswers⟩ := hgo heintr
          exact ih hturn hanswers
        · obtain ⟨t, ht⟩ := hstop heintr
          exact ⟨t, .inl ht⟩
      | accept count x1 n z v =>
        obtain ⟨hstop, hgo⟩ := h.accept hops hleft hrun hask hrest
        by_cases hzero : count = 0
        · obtain ⟨t, ht⟩ := hstop hzero
          exact ⟨t, .inl ht⟩
        · obtain ⟨c', chunks', hturn, hanswers⟩ := hgo hzero
          exact ih hturn hanswers

/-- A call of the routine returns or waits. -/
theorem write_ends (hops : Program code start write_ops) (hpc : s.1.pc = start) :
    ∃ t, Written code s t ∨ Waits code s t := by
  have hblock : Program code start take_args := by
    have hfirst : Program code (start + BitVec.ofNat 64 (4 * 0)) take_args := hops.block rfl
    rwa [Nat.mul_zero, BitVec.add_zero] at hfirst
  obtain ⟨t, hline, h3, h4, h5, hkeeps⟩ := run_take_args s.1
  obtain ⟨hrun, hend⟩ := @reaches_line _ _ kernel _ _ _ _ s.2 hblock rfl hpc hline
  have hturn : Turn code start s (t, s.2) [] [] := by
    refine ⟨hrun, hend, h3, ?_, ?_, rfl, rfl, ?_, hkeeps.mono (by simp), by simp⟩
    · rw [h4, flatten_nil, length_nil, BitVec.add_zero]
    · rw [h5, flatten_nil, length_nil, Nat.add_zero]
    · rw [map_nil, append_nil]
  exact hturn.ends hops

end Fors.Rt
