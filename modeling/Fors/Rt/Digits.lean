import Fors.Rt.Write

/-!
# `_fors_rt_write_uint`

A printing routine pushes `x29` and `x30` into a frame below the stack, stores above them, and takes
them back. The loop of this one stores the last digit of what is left of the number, in front of
those it has stored before.

Principal result: `uint_calls`.
-/

namespace Fors.Rt

open AArch64 LittleEndian

variable {n : Nat} {s c t : Cpu} {rs : List RegNum} {a b : Addr}

/-- The frame of the routine that was called in `s`. -/
structure InFrame (n : Nat) (s c : Cpu) : Prop where
  sp : c.sp = s.sp - .ofNat 64 n
  x29 : slice c.mem c.sp 8 = le_bytes 8 (s.x 29).toNat
  x30 : slice c.mem (c.sp + 8) 8 = le_bytes 8 (s.x 30).toNat
  framed : Framed n s c
  outside : ∀ b, ¬ Within (s.sp - .ofNat 64 n) n b → c.mem b = s.mem b

theorem InFrame.keeps (h : InFrame n s c) (hkeeps : Keeps rs c t) : InFrame n s t := by
  obtain ⟨stores, hstores, hwithin⟩ := h.framed
  refine ⟨hkeeps.sp.trans h.sp, ?_, ?_, ⟨stores, hkeeps.stored.trans hstores, hwithin⟩, ?_⟩
  · rw [hkeeps.mem, hkeeps.sp, h.x29]
  · rw [hkeeps.mem, hkeeps.sp, h.x30]
  · intro b hb
    rw [hkeeps.mem, h.outside b hb]

theorem Framed.refl (n : Nat) (s : Cpu) : Framed n s s :=
  ⟨[], rfl, fun _ ha => nomatch ha⟩

theorem Framed.store {k : Nat} {bytes : List UInt8} (h : Framed n s c)
    (hk : k + bytes.length ≤ n) (hn : n < 2 ^ 64) :
    Framed n s (c.store (s.sp - .ofNat 64 n + .ofNat 64 k) bytes) := by
  obtain ⟨stores, hstores, hwithin⟩ := h
  refine ⟨(List.range bytes.length).map (fun i => s.sp - .ofNat 64 n + .ofNat 64 k + .ofNat 64 i) ++
    stores, ?_, ?_⟩
  · rw [List.append_assoc, ← hstores]
    rfl
  · refine List.forall_mem_append.mpr ⟨fun a ha => ?_, hwithin⟩
    obtain ⟨i, hi, rfl⟩ := List.mem_map.mp ha
    rw [List.mem_range] at hi
    rw [BitVec.add_assoc, BitVec.ofNat_add_ofNat]
    exact within_add (by omega) (by omega)

/-- The routine's first instruction sets up the frame. -/
theorem InFrame.enter (hn : 16 ≤ n) (hlt : n < 2 ^ 64) (halign : s.sp.toNat % 16 = 0) :
    ∃ c, exec (.stp_pre 29 30 31 (-.ofNat 64 n)) s = some c ∧ InFrame n s c ∧ c.x = s.x ∧
      c.pc = s.pc + 4 := by
  have hlen (v : BitVec 64) : (le_bytes 8 v.toNat).length = 8 := length_le_bytes _ _
  obtain ⟨F, hF⟩ : ∃ F, F = s.sp - .ofNat 64 n := ⟨_, rfl⟩
  obtain ⟨pushed, hpushed⟩ : ∃ pushed, pushed = (s.store F (le_bytes 8 (s.x 29).toNat)).store
    (F + .ofNat 64 8) (le_bytes 8 (s.x 30).toNat) := ⟨_, rfl⟩
  have hmem : pushed.mem = put (put s.mem F (le_bytes 8 (s.x 29).toNat)) (F + .ofNat 64 8)
      (le_bytes 8 (s.x 30).toNat) := by
    rw [hpushed]
    rfl
  have hstored : Framed n s pushed := by
    have hlow : Framed n s (s.store (s.sp - .ofNat 64 n + .ofNat 64 0)
      (le_bytes 8 (s.x 29).toNat)) := (Framed.refl n s).store (by rw [hlen]; omega) hlt
    rw [BitVec.add_zero, ← hF] at hlow
    have hhigh := hlow.store (k := 8) (by rw [hlen (s.x 30)]; omega) hlt
    rwa [← hF, ← hpushed] at hhigh
  have hexec : exec (.stp_pre 29 30 31 (-.ofNat 64 n)) s = some (pushed.set_sp 31 F).next := by
    have hbase : base_ok s 31 := fun _ => halign
    have hsum : s.reg_sp 31 + -.ofNat 64 n = F := by
      rw [hF, BitVec.sub_eq_add_neg]
      rfl
    simp only [exec]
    rw [if_pos hbase, hsum, Cpu.reg_of_ne _ _ (by decide), Cpu.reg_of_ne _ _ (by decide), hpushed]
    rfl
  have hsp : (pushed.set_sp 31 F).next.sp = F := by simp
  have hmem1 : (pushed.set_sp 31 F).next.mem = pushed.mem := by simp
  refine ⟨_, hexec, ⟨hsp.trans hF, ?_, ?_, ?_, ?_⟩, ?_, ?_⟩
  · have hlow : slice (put s.mem F (le_bytes 8 (s.x 29).toNat)) F
        (le_bytes 8 (s.x 29).toNat).length = le_bytes 8 (s.x 29).toNat :=
      slice_put (by rw [hlen]; decide)
    have hapart : slice (put (put s.mem F (le_bytes 8 (s.x 29).toNat)) (F + .ofNat 64 8)
        (le_bytes 8 (s.x 30).toNat)) (F + .ofNat 64 0) 8 =
          slice (put s.mem F (le_bytes 8 (s.x 29).toNat)) (F + .ofNat 64 0) 8 :=
      slice_put_apart (by decide) (by rw [hlen]; decide) (.inl (by decide))
    rw [BitVec.add_zero] at hapart
    rw [hlen] at hlow
    rw [hmem1, hsp, hmem, hapart, hlow]
  · have hhigh : slice (put (put s.mem F (le_bytes 8 (s.x 29).toNat)) (F + .ofNat 64 8)
        (le_bytes 8 (s.x 30).toNat)) (F + .ofNat 64 8) (le_bytes 8 (s.x 30).toNat).length =
          le_bytes 8 (s.x 30).toNat :=
      slice_put (by rw [hlen]; decide)
    rw [hlen] at hhigh
    rw [hmem1, hsp, hmem]
    exact hhigh
  · obtain ⟨stores, hstores, hwithin⟩ := hstored
    exact ⟨stores, by rw [Cpu.next_stored, Cpu.set_sp_stored, hstores], hwithin⟩
  · intro b hb
    rw [← hF] at hb
    rw [hmem1, hmem, put_of_outside fun h => hb (h.of_add (by rw [hlen]; omega) (by omega)),
      put_of_outside fun h => hb ?_]
    rw [← BitVec.add_zero F] at h
    exact h.of_add (by rw [hlen]; omega) (by omega)
  · rw [hpushed]
    simp [Cpu.set_sp]
  · rw [hpushed]
    simp

/-- A byte is stored above the saved registers. -/
theorem InFrame.store {k : Nat} {byte : UInt8} (h : InFrame n s c) (hk : 16 ≤ k) (hn : k < n)
    (hlt : n < 2 ^ 64) : InFrame n s (c.store (c.sp + .ofNat 64 k) [byte]) := by
  have hapart (i : Nat) (hi : i + 8 ≤ 16) :
      slice (put c.mem (c.sp + .ofNat 64 k) [byte]) (c.sp + .ofNat 64 i) 8 =
        slice c.mem (c.sp + .ofNat 64 i) 8 :=
    slice_put_apart (by omega) (by rw [List.length_singleton]; omega) (.inl (by omega))
  refine ⟨h.sp, ?_, ?_, ?_, ?_⟩
  · have hlow := hapart 0 (by decide)
    rw [BitVec.add_zero, h.x29] at hlow
    exact hlow
  · exact (hapart 8 (by decide)).trans h.x30
  · rw [h.sp]
    exact h.framed.store hn hlt
  · intro b hb
    rw [Cpu.store_mem, h.sp, put_of_outside fun hin => hb (hin.of_add hn (by omega)),
      h.outside b hb]

/-- The routine's last load takes the registers back and the frame away. -/
theorem InFrame.leave (h : InFrame n s c) (hn : n % 16 = 0) (halign : s.sp.toNat % 16 = 0) :
    ∃ t, exec (.ldp_post 29 30 31 (.ofNat 64 n)) c = some t ∧ t.sp = s.sp ∧
      t.x 29 = s.x 29 ∧ t.x 30 = s.x 30 ∧ Framed n s t ∧ t.pc = c.pc + 4 := by
  have hbase : base_ok c 31 := by
    intro _
    rw [h.sp, BitVec.toNat_sub, BitVec.toNat_ofNat]
    omega
  have hback (v : BitVec 64) : BitVec.ofNat 64 (of_le_bytes (le_bytes 8 v.toNat)) = v := by
    have hlt := v.isLt
    rw [of_le_bytes_le_bytes, Nat.mod_eq_of_lt (by omega), BitVec.ofNat_toNat, BitVec.setWidth_eq]
  have h29 : c.load c.sp = s.x 29 := by
    rw [Cpu.load, h.x29, hback]
  have h30 : c.load (c.sp + 8) = s.x 30 := by
    rw [Cpu.load, h.x30, hback]
  have hexec : exec (.ldp_post 29 30 31 (.ofNat 64 n)) c =
      some (((c.set 29 (s.x 29)).set 30 (s.x 30)).set_sp 31 (c.sp + .ofNat 64 n)).next := by
    have hsp : c.reg_sp 31 = c.sp := rfl
    simp only [exec]
    rw [if_pos hbase, hsp, h29, h30]
  obtain ⟨stores, hstores, hwithin⟩ := h.framed
  refine ⟨_, hexec, ?_, ?_, ?_, ⟨stores, ?_, hwithin⟩, ?_⟩
  · simp [h.sp]
  · simp
  · simp
  · simp [hstores]
  · simp

/-! ## Calls from a frame -/

section
variable {code : Code} {target : Addr} {f : Cpu} {d e : State}

/-- A call of `_fors_rt_write` leaves the frame of its caller alone. -/
theorem InFrame.call (hops : Program code target write_ops) (hpc : d.1.pc = target)
    (h : InFrame n f d.1) : (∃ t, Waits code d t ∧ Framed n f t.1) ∨
      ∃ t, Written code d t ∧ InFrame n f t.1 ∧ t.1.pc = d.1.x 30 := by
  obtain ⟨t, hwritten | hwaits⟩ := write_ends hops hpc
  · obtain ⟨-, hback, used, chunks, hwriting, -⟩ := id hwritten
    exact .inr ⟨t, hwritten, h.keeps hwriting.keeps, hback⟩
  · obtain ⟨-, -, -, used, chunks, hwriting, -⟩ := id hwaits
    exact .inl ⟨t, hwaits, (h.keeps hwriting.keeps).framed⟩

/-- The call instruction leaves the address behind it in `x30`. -/
theorem InFrame.link (h : InFrame n f d.1) {offset : BitVec 64}
    (hbl : fetch code d.1.pc = some (.b true offset)) (htarget : d.1.pc + offset = target) :
    ∃ e, Reaches code kernel d e ∧ e.2 = d.2 ∧ e.1.pc = target ∧ e.1.x 30 = d.1.pc + 4 ∧
      InFrame n f e.1 ∧ Keeps [30] d.1 e.1 := by
  have hkeeps : Keeps [30] d.1 ((d.1.set 30 (d.1.pc + 4)).jump (d.1.pc + offset)) := by
    refine ⟨fun r hr => ?_, ?_, ?_, ?_⟩
    · simp at hr
      simp [hr]
    · simp
    · simp
    · simp
  exact ⟨(_, d.2), reaches_op hbl rfl, rfl, htarget, by simp, h.keeps hkeeps, hkeeps⟩

/-- The last two instructions bring the routine back. -/
theorem InFrame.back (h : InFrame n f d.1) (hn : n % 16 = 0) (halign : f.sp.toNat % 16 = 0)
    (hops : Program code target [.ldp_post 29 30 31 (.ofNat 64 n), .ret 30])
    (hpc : d.1.pc = target) (w : Addr) : Calls code w n f [] d := by
  obtain ⟨t, hexec, hsp, h29, h30, hframed, hnext⟩ := h.leave hn halign
  have hldp : fetch code d.1.pc = some (.ldp_post 29 30 31 (.ofNat 64 n)) := by
    have hfirst := hops 0 _ rfl
    rwa [Nat.mul_zero, BitVec.add_zero, ← hpc] at hfirst
  have hret : fetch code t.pc = some (.ret 30) := by
    rw [hnext, hpc]
    exact hops 1 _ rfl
  refine .back (t := (t.jump (t.reg 30), d.2)) (.trans (reaches_op hldp hexec) (reaches_op hret rfl))
    rfl ⟨?_, hsp, h29, h30, hframed⟩
  rw [Cpu.jump_pc, Cpu.reg_of_ne _ _ (by decide), h30]

end

end Fors.Rt

/-! ## The digits -/

namespace Fors.Rt

open AArch64 LittleEndian

/-! ## Numerals -/

/-- The decimal digits of a number. -/
def numeral (v : Nat) : List UInt8 :=
  Utf8.bytes (toString v)

theorem numeral_eq (v : Nat) : numeral v = Utf8.encode (Nat.toDigits 10 v) :=
  congrArg Utf8.encode Nat.toList_repr

theorem digit_byte {d : Nat} (h : d < 10) :
    Utf8.encode [Nat.digitChar d] = [UInt8.ofNat (d + 48)] := by
  have hall : ∀ d < 10, Utf8.encode [Nat.digitChar d] = [UInt8.ofNat (d + 48)] := by
    decide +kernel
  exact hall d h

theorem numeral_lt {v : Nat} (h : v < 10) : numeral v = [UInt8.ofNat (v + 48)] := by
  rw [numeral_eq, Nat.toDigits_of_lt_base h, digit_byte h]

theorem numeral_step {v : Nat} (h : 10 ≤ v) :
    numeral v = numeral (v / 10) ++ [UInt8.ofNat (v % 10 + 48)] := by
  rw [numeral_eq, numeral_eq, Nat.toDigits_of_base_le (by decide) h, Utf8.encode_append,
    digit_byte (Nat.mod_lt _ (by decide))]

/-! ## The routine -/

def uint_set_up : List Op :=
  [.add_sub_imm false false 29 31 0, .add_sub_imm false false 4 31 40, mov 5 4, .movz 6 10]

def digit : List Op :=
  [.udiv 7 0 6, .msub 8 7 6 0, .add_sub_imm false false 8 8 48, .add_sub_imm true false 5 5 1,
    .strb 8 5 0, mov 0 7]

def uint_pass : List Op :=
  [.movz 0 1, mov 1 5, .add_sub_shifted true false 2 4 5 0]

/-- The instructions up to the call. -/
def uint_ops : List Op :=
  .stp_pre 29 30 31 (-48) :: uint_set_up ++ digit ++ .cbz true 0 (-24) :: uint_pass

theorem write_uint_decodes : ∃ a, write_uint = .ok a ∧ a.name = WRITE_UINT ∧
    a.relocs = [⟨60, WRITE⟩] ∧ decodes a 0 uint_ops = true ∧
      decodes a 16 [.ldp_post 29 30 31 48, .ret 30] = true :=
  ⟨_, rfl, rfl, rfl, by decide +kernel, by decide +kernel⟩

/-! ## Its blocks -/

theorem run_uint_set_up (c : Cpu) : ∃ t, line uint_set_up c = some t ∧
    t.x 4 = c.sp + 40 ∧ t.x 5 = c.sp + 40 ∧ t.x 6 = 10 ∧ Keeps [4, 5, 6, 29] c t := by
  refine ⟨_, rfl, ?_, ?_, ?_, ?_⟩
  · simp [Cpu.reg, Cpu.reg_sp, sum]
  · simp [Cpu.reg, Cpu.reg_sp, sum]
  · simp
  · refine ⟨fun r hr => ?_, ?_, ?_, ?_⟩
    · simp at hr
      simp [hr]
    · simp
    · simp
    · simp

/-- The last digit of `x0` is stored in front of `x5`. -/
theorem run_digit (c : Cpu) : ∃ t, line digit c = some t ∧ t.x 0 = c.x 0 / c.x 6 ∧
    t.x 5 = c.x 5 - 1 ∧ Keeps [0, 5, 7, 8] (c.store (c.x 5 - 1)
      [UInt8.ofNat (c.x 0 - c.x 0 / c.x 6 * c.x 6 + 48).toNat]) t := by
  refine ⟨_, rfl, ?_, ?_, ?_⟩
  · simp [Cpu.reg, sum]
  · simp [Cpu.reg, Cpu.reg_sp, sum]
  · refine ⟨fun r hr => ?_, ?_, ?_, ?_⟩
    · simp at hr
      simp [hr]
    · simp
    · simp [Cpu.reg, Cpu.reg_sp, sum]
    · simp [Cpu.reg, Cpu.reg_sp, sum, Cpu.store]

theorem run_uint_pass (c : Cpu) : ∃ t, line uint_pass c = some t ∧ t.x 0 = 1 ∧ t.x 1 = c.x 5 ∧
    t.x 2 = c.x 4 - c.x 5 ∧ Keeps [0, 1, 2] c t := by
  refine ⟨_, rfl, ?_, ?_, ?_, ?_⟩
  · simp
  · simp [Cpu.reg]
  · simp [Cpu.reg, sum]
  · refine ⟨fun r hr => ?_, ?_, ?_, ?_⟩
    · simp at hr
      simp [hr]
    · simp
    · simp
    · simp

/-! ## The loop -/

variable {code : Code} {start : Addr} {s c : State} {j : Nat}

/-- The loop's turn begins: `j` digits are stored, and the others are those of `x0`. -/
structure Digits (code : Code) (start : Addr) (s c : State) (j : Nat) : Prop where
  run : Reaches code kernel s c
  same : c.2 = s.2
  pc : c.1.pc = start + 20
  stop : c.1.x 4 = c.1.sp + 40
  front : c.1.x 5 = c.1.sp + .ofNat 64 (40 - j)
  radix : c.1.x 6 = 10
  frame : InFrame 48 s.1 c.1
  room : (c.1.x 0).toNat * 10 ^ j ≤ (s.1.x 0).toNat
  rest : j = 0 ∨ (c.1.x 0).toNat ≠ 0
  stored : numeral (s.1.x 0).toNat = numeral (c.1.x 0).toNat ++ slice c.1.mem (c.1.x 5) j

/-- The digits are stored. -/
structure Printed (code : Code) (start : Addr) (s c : State) (j : Nat) : Prop where
  run : Reaches code kernel s c
  same : c.2 = s.2
  pc : c.1.pc = start + 48
  stop : c.1.x 4 = c.1.sp + 40
  front : c.1.x 5 = c.1.sp + .ofNat 64 (40 - j)
  frame : InFrame 48 s.1 c.1
  room : j ≤ 20
  stored : numeral (s.1.x 0).toNat = slice c.1.mem (c.1.x 5) j

/-- A number of 64 bits has at most 20 digits. -/
theorem Digits.lt (h : Digits code start s c j) : j < 20 := by
  by_contra hge
  have hlt := (s.1.x 0).isLt
  have hroom := h.room
  have hpow : 10 ^ 20 ≤ 10 ^ j := Nat.pow_le_pow_right (by decide) (by omega)
  have hpos : 0 < (c.1.x 0).toNat := by
    have hrest := h.rest
    omega
  have hle : 10 ^ j ≤ (c.1.x 0).toNat * 10 ^ j := Nat.le_mul_of_pos_left _ hpos
  omega

/-- One more digit in front of the others. -/
theorem slice_digit {mem : Mem} {a : Addr} {byte : UInt8} (hj : j < 40) :
    slice (put mem (a + .ofNat 64 (39 - j)) [byte]) (a + .ofNat 64 (39 - j)) (j + 1) =
      byte :: slice mem (a + .ofNat 64 (40 - j)) j := by
  have hfirst : slice (put mem (a + .ofNat 64 (39 - j)) [byte]) (a + .ofNat 64 (39 - j))
      [byte].length = [byte] := slice_put (by rw [List.length_singleton]; decide)
  have hnext : a + .ofNat 64 (39 - j) + .ofNat 64 1 = a + .ofNat 64 (40 - j) := by
    rw [BitVec.add_assoc, BitVec.ofNat_add_ofNat]
    congr 2
    omega
  rw [List.length_singleton] at hfirst
  rw [Nat.add_comm, slice_append, hfirst, hnext, slice_put_apart (by omega)
    (by rw [List.length_singleton]; omega) (.inr (by rw [List.length_singleton]; omega))]
  rfl

theorem last_digit (v : BitVec 64) :
    (v - v / 10 * 10 + 48).toNat = v.toNat % 10 + 48 := by
  have hlt := v.isLt
  have h10 : BitVec.toNat (10 : BitVec 64) = 10 := rfl
  have h48 : BitVec.toNat (48 : BitVec 64) = 48 := rfl
  have hmul : (v / 10 * 10).toNat = v.toNat / 10 * 10 := by
    rw [BitVec.toNat_mul, BitVec.toNat_udiv, h10]
    exact Nat.mod_eq_of_lt (by omega)
  have hsub : (v - v / 10 * 10).toNat = v.toNat % 10 := by
    rw [BitVec.toNat_sub, hmul]
    omega
  rw [BitVec.toNat_add, hsub, h48]
  exact Nat.mod_eq_of_lt (by omega)

/-- A turn stores a digit. It is the last one if nothing is left of the number. -/
theorem Digits.turn (hops : Program code start uint_ops) (h : Digits code start s c j) :
    (c.1.x 0).toNat / 10 = 0 ∧ (∃ c', Printed code start s c' (j + 1)) ∨
      ∃ c', Digits code start s c' (j + 1) ∧ (c'.1.x 0).toNat = (c.1.x 0).toNat / 10 := by
  have hj := h.lt
  have hblock : Program code (start + 20) digit := hops.block (i := 5) rfl
  obtain ⟨t, hline, h0, h5, hkeeps⟩ := run_digit c.1
  obtain ⟨hrun, hend⟩ := @reaches_line _ _ kernel _ _ _ _ c.2 hblock rfl h.pc hline
  have hpc : t.pc = start + 44 := by
    rw [hend, BitVec.add_assoc]
    rfl
  have hcbnz : fetch code t.pc = some (.cbz true 0 (-24)) := by
    rw [hpc]
    exact hops 11 _ rfl
  have hdigit : UInt8.ofNat (c.1.x 0 - c.1.x 0 / c.1.x 6 * c.1.x 6 + 48).toNat =
      UInt8.ofNat ((c.1.x 0).toNat % 10 + 48) := by
    rw [h.radix, last_digit]
  have hfront : c.1.x 5 - 1 = c.1.sp + .ofNat 64 (39 - j) := by
    have hnext : BitVec.ofNat 64 (40 - j) = .ofNat 64 (39 - j) + 1 := by
      change _ = _ + BitVec.ofNat 64 1
      rw [BitVec.ofNat_add_ofNat]
      congr 1
      omega
    rw [h.front, hnext]
    ring
  have hquot : (t.x 0).toNat = (c.1.x 0).toNat / 10 := by
    rw [h0, h.radix, BitVec.toNat_udiv]
    rfl
  rw [hdigit, hfront] at hkeeps
  have hframe : InFrame 48 s.1 t :=
    (h.frame.store (by omega) (by omega) (by decide)).keeps hkeeps
  have hmem : slice t.mem (t.x 5) (j + 1) =
      UInt8.ofNat ((c.1.x 0).toNat % 10 + 48) :: slice c.1.mem (c.1.x 5) j := by
    rw [hkeeps.mem, h5, hfront, h.front, Cpu.store_mem, slice_digit (by omega)]
  have hnext : 39 - j = 40 - (j + 1) := by omega
  by_cases hlast : (c.1.x 0).toNat / 10 = 0
  · refine .inl ⟨hlast, (t.next, c.2), ?_⟩
    have hzero : t.reg 0 = 0 := by
      rw [Cpu.reg_of_ne _ _ (by decide)]
      exact BitVec.eq_of_toNat_eq (hquot.trans hlast)
    refine ⟨h.run.trans (hrun.trans (reaches_op hcbnz (exec_cbnz_passed hzero (-24)))), h.same, ?_,
      ?_, ?_, hframe.keeps ((Keeps.refl t []).next), by omega, ?_⟩
    · rw [Cpu.next_pc, hpc, BitVec.add_assoc]
      rfl
    · rw [Cpu.next_x, Cpu.next_sp, hkeeps.x 4 (by decide), hkeeps.sp]
      exact h.stop
    · rw [Cpu.next_x, Cpu.next_sp, h5, hfront, hkeeps.sp, hnext]
      rfl
    · rw [Cpu.next_mem, Cpu.next_x, hmem, h.stored, numeral_lt (by omega),
        Nat.mod_eq_of_lt (by omega)]
      rfl
  · refine .inr ⟨(t.jump (t.pc + -24), c.2), ?_, by rw [Cpu.jump_x, hquot]⟩
    have hmore : t.reg 0 ≠ 0 := by
      rw [Cpu.reg_of_ne _ _ (by decide)]
      intro hzero
      rw [hzero] at hquot
      exact hlast hquot.symm
    refine ⟨h.run.trans (hrun.trans (reaches_op hcbnz (exec_cbnz_taken hmore (-24)))), h.same, ?_,
      ?_, ?_, ?_, hframe.keeps ((Keeps.refl t []).jump _), ?_, ?_, ?_⟩
    · rw [Cpu.jump_pc, hpc, BitVec.add_assoc]
      rfl
    · rw [Cpu.jump_x, Cpu.jump_sp, hkeeps.x 4 (by decide), hkeeps.sp]
      exact h.stop
    · rw [Cpu.jump_x, Cpu.jump_sp, h5, hfront, hkeeps.sp, hnext]
      rfl
    · rw [Cpu.jump_x, hkeeps.x 6 (by decide)]
      exact h.radix
    · rw [Cpu.jump_x, hquot]
      calc (c.1.x 0).toNat / 10 * 10 ^ (j + 1)
        _ = (c.1.x 0).toNat / 10 * 10 * 10 ^ j := by rw [pow_succ, Nat.mul_assoc, Nat.mul_comm 10]
        _ ≤ (c.1.x 0).toNat * 10 ^ j := Nat.mul_le_mul_right _ (Nat.div_mul_le_self _ _)
        _ ≤ (s.1.x 0).toNat := h.room
    · exact .inr (by rw [Cpu.jump_x, hquot]; exact hlast)
    · rw [Cpu.jump_mem, Cpu.jump_x, hmem, hquot, h.stored, numeral_step (by omega),
        List.append_assoc]
      rfl

/-- The loop ends with the digits of the number. -/
theorem Digits.ends (hops : Program code start uint_ops) (h : Digits code start s c j) :
    ∃ c' j, Printed code start s c' j := by
  induction hv : (c.1.x 0).toNat using Nat.strong_induction_on generalizing c j with
  | _ v ih =>
    obtain ⟨-, c', hprinted⟩ | ⟨c', hturn, hquot⟩ := h.turn hops
    · exact ⟨c', j + 1, hprinted⟩
    · have hpos : (c'.1.x 0).toNat ≠ 0 := hturn.rest.resolve_left (Nat.succ_ne_zero j)
      exact ih (c'.1.x 0).toNat (by omega) hturn rfl

/-! ## The calls -/

/-- The routine's frame is set up, and the digits are stored in it. -/
theorem uint_printed (hops : Program code start uint_ops) (hpc : s.1.pc = start)
    (halign : s.1.sp.toNat % 16 = 0) : ∃ c j, Printed code start s c j := by
  obtain ⟨b, hexec, hframe, hx, hnext⟩ := InFrame.enter (n := 48) (by decide) (by decide) halign
  have hstp : fetch code s.1.pc = some (.stp_pre 29 30 31 (-48)) := by
    have hfirst := hops 0 _ rfl
    rwa [Nat.mul_zero, BitVec.add_zero, ← hpc] at hfirst
  have hblock : Program code (start + 4) uint_set_up := hops.block (i := 1) rfl
  obtain ⟨t, hline, h4, h5, h6, hkeeps⟩ := run_uint_set_up b
  obtain ⟨hrun, hend⟩ := @reaches_line _ _ kernel _ _ _ _ s.2 hblock rfl
    (hnext.trans (by rw [hpc])) hline
  have hx0 : t.x 0 = s.1.x 0 := by rw [hkeeps.x 0 (by decide), hx]
  have hdigits : Digits code start s (t, s.2) 0 := by
    refine ⟨.trans (reaches_op hstp hexec) hrun, rfl, ?_, ?_, ?_, h6, hframe.keeps hkeeps, ?_,
      .inl rfl, ?_⟩
    · rw [hend, BitVec.add_assoc]
      rfl
    · rw [h4, hkeeps.sp]
    · rw [h5, hkeeps.sp]
      rfl
    · rw [hx0, pow_zero, Nat.mul_one]
    · rw [hx0]
      exact (List.append_nil _).symm
  exact hdigits.ends hops

/-- The digits are passed from the buffer. -/
theorem Printed.passes (h : Printed code start s c j) {d : Cpu} (h0 : d.x 0 = 1)
    (h1 : d.x 1 = c.1.x 5) (h2 : d.x 2 = c.1.x 4 - c.1.x 5) (hmem : d.mem = c.1.mem) :
    Passes (stdout_write_uint (s.1.x 0)) d ∧ From (s.1.sp - 48 + 16) 24 d := by
  have hroom := h.room
  have hlen : (d.x 2).toNat = j := by
    have hdiff : c.1.x 4 - c.1.x 5 = BitVec.ofNat 64 40 - .ofNat 64 (40 - j) := by
      have hstop : c.1.x 4 = c.1.sp + .ofNat 64 40 := h.stop
      rw [hstop, h.front]
      ring
    rw [h2, hdiff, BitVec.toNat_sub, BitVec.toNat_ofNat, BitVec.toNat_ofNat]
    omega
  refine ⟨⟨h0, ?_⟩, ?_⟩
  · rw [passed, hlen, h1, hmem, ← h.stored]
    rfl
  · intro i hi
    rw [hlen] at hi
    have hsp : c.1.sp = s.1.sp - 48 := h.frame.sp
    have hplace : d.x 1 + .ofNat 64 i = s.1.sp - 48 + 16 + .ofNat 64 (24 - j + i) := by
      have hsum : BitVec.ofNat 64 (40 - j) + .ofNat 64 i = 16 + .ofNat 64 (24 - j + i) := by
        change _ = BitVec.ofNat 64 16 + _
        rw [BitVec.ofNat_add_ofNat, BitVec.ofNat_add_ofNat]
        congr 1
        omega
      rw [h1, h.front, hsp, BitVec.add_assoc, hsum]
      ring
    rw [hplace]
    exact within_add (by omega) (by decide)

/-- The routine passes the digits and comes back, or waits. -/
theorem uint_calls {target : Addr} (hwrite : Program code target write_ops)
    (hops : Program code start uint_ops) {offset : BitVec 64}
    (hbl : fetch code (start + 60) = some (.b true offset)) (htarget : start + 60 + offset = target)
    (hback : Program code (start + 64) [.ldp_post 29 30 31 48, .ret 30])
    (hpc : s.1.pc = start) (halign : s.1.sp.toNat % 16 = 0) :
    Calls code target 48 s.1
      [fun d => Passes (stdout_write_uint (s.1.x 0)) d ∧ From (s.1.sp - 48 + 16) 24 d] s := by
  obtain ⟨c, j, hprinted⟩ := uint_printed hops hpc halign
  have hblock : Program code (start + 48) uint_pass := hops.block (i := 12) rfl
  obtain ⟨t, hline, h0, h1, h2, hkeeps⟩ := run_uint_pass c.1
  obtain ⟨hrun, hend⟩ := @reaches_line _ _ kernel _ _ _ _ c.2 hblock rfl hprinted.pc hline
  have hcall : t.pc = start + 60 := by
    rw [hend, BitVec.add_assoc]
    rfl
  rw [← hcall] at hbl htarget
  obtain ⟨d, hlink, hsame, hd, h30, hframe, hlinked⟩ :=
    InFrame.link (d := (t, c.2)) (hprinted.frame.keeps hkeeps) hbl htarget
  have hrun : Reaches code kernel s d := hprinted.run.trans (hrun.trans hlink)
  have hkernel : d.2 = s.2 := hsame.trans hprinted.same
  have hpasses := hprinted.passes (d := d.1) ((hlinked.x 0 (by decide)).trans h0)
    ((hlinked.x 1 (by decide)).trans h1) ((hlinked.x 2 (by decide)).trans h2)
    (hlinked.mem.trans hkeeps.mem)
  obtain ⟨e, hwaits, hframed⟩ | ⟨e, hwritten, hframe, hret⟩ := hframe.call hwrite hd
  · exact .waits hrun hkernel hd hpasses hwaits hframed
  · refine .written hrun hkernel hd hpasses hwritten ?_
    refine hframe.back (by decide) halign hback ?_ target
    rw [hret, h30, hcall, BitVec.add_assoc]
    rfl

end Fors.Rt
