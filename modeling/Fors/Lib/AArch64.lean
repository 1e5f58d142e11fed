import Mathlib.Data.BitVec
import Mathlib.Logic.Relation
import Mathlib.Tactic.Ring
import Fors.Lib.LittleEndian

/-!
# AArch64

Integer instructions of the 64-bit Arm architecture: how their words decode, and what they do. A word
of another instruction does not decode. Register 31 is the stack pointer or zero, as the instruction
has it.

A system call is left to a supervisor that has a state of its own. A run of instructions without
branches is one step of the proof: `reaches_line`.

Principal result: `reaches_line`.
-/

namespace AArch64

open LittleEndian List

abbrev Addr := BitVec 64

abbrev RegNum := BitVec 5

/-! ## Memory -/

abbrev Mem := Addr → UInt8

/-- The `n` bytes from `a` on. -/
def slice (mem : Mem) (a : Addr) (n : Nat) : List UInt8 :=
  (List.range n).map fun i => mem (a + BitVec.ofNat 64 i)

/-- The memory with the bytes from `a` on. -/
def put (mem : Mem) (a : Addr) (bytes : List UInt8) : Mem :=
  fun b => bytes.getD (b - a).toNat (mem b)

/-- One of the `n` addresses from `a` on. -/
def Within (a : Addr) (n : Nat) (b : Addr) : Prop :=
  (b - a).toNat < n

/-! ## The processor -/

structure Cpu where
  x : RegNum → BitVec 64
  sp : BitVec 64
  pc : Addr
  n : Bool
  z : Bool
  c : Bool
  v : Bool
  mem : Mem
  /-- The addresses that were stored to. -/
  stored : List Addr

namespace Cpu

/-- A register, or zero. -/
def reg (s : Cpu) (r : RegNum) : BitVec 64 :=
  if r = 31#5 then 0 else s.x r

/-- A register, or the stack pointer. -/
def reg_sp (s : Cpu) (r : RegNum) : BitVec 64 :=
  if r = 31#5 then s.sp else s.x r

def set (s : Cpu) (r : RegNum) (value : BitVec 64) : Cpu :=
  if r = 31#5 then s else { s with x := Function.update s.x r value }

def set_sp (s : Cpu) (r : RegNum) (value : BitVec 64) : Cpu :=
  if r = 31#5 then { s with sp := value } else { s with x := Function.update s.x r value }

def jump (s : Cpu) (a : Addr) : Cpu :=
  { s with pc := a }

def next (s : Cpu) : Cpu :=
  s.jump (s.pc + 4)

def store (s : Cpu) (a : Addr) (bytes : List UInt8) : Cpu :=
  { s with
    mem := put s.mem a bytes
    stored := (List.range bytes.length).map (fun i => a + BitVec.ofNat 64 i) ++ s.stored }

/-- The doubleword at an address. -/
def load (s : Cpu) (a : Addr) : BitVec 64 :=
  BitVec.ofNat 64 (of_le_bytes (slice s.mem a 8))

end Cpu

/-! ## Instructions -/

inductive Op where
  | add_sub_imm (sub flags : Bool) (rd rn : RegNum) (imm : BitVec 64)
  | add_sub_shifted (sub flags : Bool) (rd rn rm : RegNum) (amount : Nat)
  | orr_shifted (rd rn rm : RegNum) (amount : Nat)
  | movz (rd : RegNum) (imm : BitVec 64)
  | udiv (rd rn rm : RegNum)
  | msub (rd rn rm ra : RegNum)
  | strb (rt rn : RegNum) (offset : BitVec 64)
  | stp_pre (rt rt2 rn : RegNum) (offset : BitVec 64)
  | ldp_post (rt rt2 rn : RegNum) (offset : BitVec 64)
  | cbz (nonzero : Bool) (rt : RegNum) (offset : BitVec 64)
  | b (link : Bool) (offset : BitVec 64)
  | b_cond (cond : BitVec 4) (offset : BitVec 64)
  | ret (rn : RegNum)
  | svc (imm : BitVec 16)
  deriving DecidableEq

/-- The distance of a branch, which its word has in words. -/
def words {w : Nat} (imm : BitVec w) : BitVec 64 :=
  BitVec.ofInt 64 (4 * imm.toInt)

/-- An instruction by the fields of its word. The register fields of a pair that are not predictable
do not decode. -/
def decode (w : BitVec 32) : Option Op :=
  let rd := w.extractLsb' 0 5
  let rn := w.extractLsb' 5 5
  let rt2 := w.extractLsb' 10 5
  let rm := w.extractLsb' 16 5
  let amount := (w.extractLsb' 10 6).toNat
  if w.extractLsb' 23 6 = 0b100010#6 ∧ w.getLsbD 31 then
    let imm := (w.extractLsb' 10 12).setWidth 64
    some (.add_sub_imm (w.getLsbD 30) (w.getLsbD 29) rd rn
      (if w.getLsbD 22 then imm <<< 12 else imm))
  else if w.extractLsb' 21 8 = 0b01011000#8 ∧ w.getLsbD 31 then
    some (.add_sub_shifted (w.getLsbD 30) (w.getLsbD 29) rd rn rm amount)
  else if w.extractLsb' 21 11 = 0b10101010000#11 then
    some (.orr_shifted rd rn rm amount)
  else if w.extractLsb' 23 8 = 0b10100101#8 ∧ (w.getLsbD 31 ∨ ¬ w.getLsbD 22) then
    some (.movz rd ((w.extractLsb' 5 16).setWidth 64 <<< (16 * (w.extractLsb' 21 2).toNat)))
  else if w.extractLsb' 21 11 = 0b10011010110#11 ∧ w.extractLsb' 10 6 = 0b000010#6 then
    some (.udiv rd rn rm)
  else if w.extractLsb' 21 11 = 0b10011011000#11 ∧ w.getLsbD 15 then
    some (.msub rd rn rm rt2)
  else if w.extractLsb' 22 10 = 0b0011100100#10 then
    some (.strb rd rn ((w.extractLsb' 10 12).setWidth 64))
  else if w.extractLsb' 22 10 = 0b1010100110#10 then
    if rn ≠ 31#5 ∧ (rn = rd ∨ rn = rt2) then none
    else some (.stp_pre rd rt2 rn (BitVec.ofInt 64 (8 * (w.extractLsb' 15 7).toInt)))
  else if w.extractLsb' 22 10 = 0b1010100011#10 then
    if rd = rt2 ∨ rn ≠ 31#5 ∧ (rn = rd ∨ rn = rt2) then none
    else some (.ldp_post rd rt2 rn (BitVec.ofInt 64 (8 * (w.extractLsb' 15 7).toInt)))
  else if w.extractLsb' 25 7 = 0b1011010#7 then
    some (.cbz (w.getLsbD 24) rd (words (w.extractLsb' 5 19)))
  else if w.extractLsb' 26 5 = 0b00101#5 then
    some (.b (w.getLsbD 31) (words (w.extractLsb' 0 26)))
  else if w.extractLsb' 24 8 = 0b01010100#8 ∧ ¬ w.getLsbD 4 then
    some (.b_cond (w.extractLsb' 0 4) (words (w.extractLsb' 5 19)))
  else if w &&& 0xFFFFFC1F = 0xD65F0000 then
    some (.ret rn)
  else if w &&& 0xFFE0001F = 0xD4000001 then
    some (.svc (w.extractLsb' 5 16))
  else none

namespace Cpu

/-- `a + b + carry` with the flags. -/
def add_flags (s : Cpu) (a b : BitVec 64) (carry : Bool) : Cpu :=
  let result := a + b + BitVec.ofNat 64 carry.toNat
  { s with
    n := result.msb
    z := result = 0
    c := 2 ^ 64 ≤ a.toNat + b.toNat + carry.toNat
    v := result.toInt ≠ a.toInt + b.toInt + carry.toNat }

/-- The flags of `a + b`, or of `a - b`. -/
def flags_of (s : Cpu) (sub : Bool) (a b : BitVec 64) : Cpu :=
  if sub then s.add_flags a (~~~b) true else s.add_flags a b false

/-- Whether a condition holds: the lowest bit of its code turns the others' round. -/
def holds (s : Cpu) (cond : BitVec 4) : Bool :=
  let base := match cond.extractLsb' 1 3 with
    | 0b000#3 => s.z
    | 0b001#3 => s.c
    | 0b010#3 => s.n
    | 0b011#3 => s.v
    | 0b100#3 => s.c && !s.z
    | 0b101#3 => s.n == s.v
    | 0b110#3 => s.n == s.v && !s.z
    | _ => true
  if cond.getLsbD 0 ∧ cond ≠ 0b1111#4 then !base else base

end Cpu

def sum (sub : Bool) (a b : BitVec 64) : BitVec 64 :=
  if sub then a - b else a + b

/-- An address by a stack pointer that is not a multiple of 16 faults. -/
def base_ok (s : Cpu) (rn : RegNum) : Prop :=
  rn = 31#5 → s.sp.toNat % 16 = 0

instance (s : Cpu) (rn : RegNum) : Decidable (base_ok s rn) := by
  unfold base_ok
  infer_instance

/-- What an instruction does. A system call is not done here. -/
def exec : Op → Cpu → Option Cpu
  | .add_sub_imm sub flags rd rn imm, s =>
    let value := sum sub (s.reg_sp rn) imm
    some (if flags then ((s.flags_of sub (s.reg_sp rn) imm).set rd value).next
      else (s.set_sp rd value).next)
  | .add_sub_shifted sub flags rd rn rm amount, s =>
    let value := sum sub (s.reg rn) (s.reg rm <<< amount)
    some (if flags then ((s.flags_of sub (s.reg rn) (s.reg rm <<< amount)).set rd value).next
      else (s.set rd value).next)
  | .orr_shifted rd rn rm amount, s => some (s.set rd (s.reg rn ||| s.reg rm <<< amount)).next
  | .movz rd imm, s => some (s.set rd imm).next
  | .udiv rd rn rm, s => some (s.set rd (s.reg rn / s.reg rm)).next
  | .msub rd rn rm ra, s => some (s.set rd (s.reg ra - s.reg rn * s.reg rm)).next
  | .strb rt rn offset, s =>
    if base_ok s rn then
      some (s.store (s.reg_sp rn + offset) [UInt8.ofNat (s.reg rt).toNat]).next
    else none
  | .stp_pre rt rt2 rn offset, s =>
    let a := s.reg_sp rn + offset
    if base_ok s rn then
      some (((s.store a (le_bytes 8 (s.reg rt).toNat)).store (a + 8)
        (le_bytes 8 (s.reg rt2).toNat)).set_sp rn a).next
    else none
  | .ldp_post rt rt2 rn offset, s =>
    let a := s.reg_sp rn
    if base_ok s rn then
      some (((s.set rt (s.load a)).set rt2 (s.load (a + 8))).set_sp rn (a + offset)).next
    else none
  | .cbz nonzero rt offset, s =>
    some (if (s.reg rt = 0) ≠ (nonzero = true) then s.jump (s.pc + offset) else s.next)
  | .b link offset, s =>
    some ((if link then s.set 30 (s.pc + 4) else s).jump (s.pc + offset))
  | .b_cond cond offset, s =>
    some (if s.holds cond then s.jump (s.pc + offset) else s.next)
  | .ret rn, s => some (s.jump (s.reg rn))
  | .svc _, _ => none

/-! ## Runs -/

abbrev Code := Addr → Option (BitVec 32)

def fetch (code : Code) (a : Addr) : Option Op :=
  (code a).bind decode

/-- A supervisor, with its state. -/
abbrev Supervisor (σ : Type) := BitVec 16 → Cpu → σ → Option (Cpu × σ)

variable {σ : Type}

def step (code : Code) (supervisor : Supervisor σ) (s : Cpu × σ) : Option (Cpu × σ) :=
  match fetch code s.1.pc with
  | none => none
  | some (.svc imm) => supervisor imm s.1 s.2
  | some op => (exec op s.1).map fun cpu => (cpu, s.2)

/-- What is reached without leaving the code. -/
def Reaches (code : Code) (supervisor : Supervisor σ) : Cpu × σ → Cpu × σ → Prop :=
  Relation.ReflTransGen fun s t => step code supervisor s = some t

/-- The instructions stand in the code from `a` on. -/
def Program (code : Code) (a : Addr) (ops : List Op) : Prop :=
  ∀ i op, ops[i]? = some op → fetch code (a + BitVec.ofNat 64 (4 * i)) = some op

/-- It does not branch or call. -/
def straight : Op → Bool
  | .cbz .. => false
  | .b .. => false
  | .b_cond .. => false
  | .ret .. => false
  | .svc .. => false
  | _ => true

/-- One instruction after another. -/
def line (ops : List Op) (s : Cpu) : Option Cpu :=
  ops.foldlM (fun s op => exec op s) s

/-- The registers outside `rs`, the stack and the memory are as they were. -/
structure Keeps (rs : List RegNum) (s t : Cpu) : Prop where
  x : ∀ r, r ∉ rs → t.x r = s.x r
  sp : t.sp = s.sp
  mem : t.mem = s.mem
  stored : t.stored = s.stored

/-! ## Fields -/

section
variable (s : Cpu) (r q : RegNum) (a value : BitVec 64) (bytes : List UInt8)

theorem Cpu.reg_of_ne (h : r ≠ 31#5) : s.reg r = s.x r :=
  if_neg h

@[simp] theorem Cpu.set_pc : (s.set r value).pc = s.pc := by
  unfold Cpu.set
  split <;> rfl

@[simp] theorem Cpu.set_stack : (s.set r value).sp = s.sp := by
  unfold Cpu.set
  split <;> rfl

@[simp] theorem Cpu.set_mem : (s.set r value).mem = s.mem := by
  unfold Cpu.set
  split <;> rfl

@[simp] theorem Cpu.set_stored : (s.set r value).stored = s.stored := by
  unfold Cpu.set
  split <;> rfl

@[simp] theorem Cpu.set_z : (s.set r value).z = s.z := by
  unfold Cpu.set
  split <;> rfl

@[simp] theorem Cpu.set_c : (s.set r value).c = s.c := by
  unfold Cpu.set
  split <;> rfl

@[simp] theorem Cpu.set_x : (s.set r value).x q =
    if r ≠ 31#5 ∧ q = r then value else s.x q := by
  unfold Cpu.set
  by_cases hr : r = 31#5
  · simp [hr]
  · simp [hr, Function.update_apply]

@[simp] theorem Cpu.set_sp_pc : (s.set_sp r value).pc = s.pc := by
  unfold Cpu.set_sp
  split <;> rfl

@[simp] theorem Cpu.set_sp_stack : (s.set_sp r value).sp = if r = 31#5 then value else s.sp := by
  unfold Cpu.set_sp
  split <;> rfl

@[simp] theorem Cpu.set_sp_mem : (s.set_sp r value).mem = s.mem := by
  unfold Cpu.set_sp
  split <;> rfl

@[simp] theorem Cpu.set_sp_stored : (s.set_sp r value).stored = s.stored := by
  unfold Cpu.set_sp
  split <;> rfl

@[simp] theorem Cpu.set_sp_x : (s.set_sp r value).x q =
    if r ≠ 31#5 ∧ q = r then value else s.x q := by
  unfold Cpu.set_sp
  by_cases hr : r = 31#5
  · simp [hr]
  · simp [hr, Function.update_apply]

@[simp] theorem Cpu.next_pc : s.next.pc = s.pc + 4 := rfl

@[simp] theorem Cpu.next_sp : s.next.sp = s.sp := rfl

@[simp] theorem Cpu.next_x : s.next.x = s.x := rfl

@[simp] theorem Cpu.next_mem : s.next.mem = s.mem := rfl

@[simp] theorem Cpu.next_stored : s.next.stored = s.stored := rfl

@[simp] theorem Cpu.next_z : s.next.z = s.z := rfl

@[simp] theorem Cpu.next_c : s.next.c = s.c := rfl

@[simp] theorem Cpu.jump_pc : (s.jump a).pc = a := rfl

@[simp] theorem Cpu.jump_sp : (s.jump a).sp = s.sp := rfl

@[simp] theorem Cpu.jump_x : (s.jump a).x = s.x := rfl

@[simp] theorem Cpu.jump_mem : (s.jump a).mem = s.mem := rfl

@[simp] theorem Cpu.jump_stored : (s.jump a).stored = s.stored := rfl

@[simp] theorem Cpu.store_pc : (s.store a bytes).pc = s.pc := rfl

@[simp] theorem Cpu.store_sp : (s.store a bytes).sp = s.sp := rfl

@[simp] theorem Cpu.store_x : (s.store a bytes).x = s.x := rfl

@[simp] theorem Cpu.store_mem : (s.store a bytes).mem = put s.mem a bytes := rfl

theorem Keeps.refl (rs : List RegNum) : Keeps rs s s :=
  ⟨fun _ _ => rfl, rfl, rfl, rfl⟩

variable {s r q} in
variable {rs : List RegNum}

theorem Keeps.next {t : Cpu} (h : Keeps rs s t) : Keeps rs s t.next := by
  obtain ⟨hx, hsp, hmem, hstored⟩ := h
  exact ⟨fun r hr => by rw [Cpu.next_x, hx r hr], by rw [Cpu.next_sp, hsp],
    by rw [Cpu.next_mem, hmem], by rw [Cpu.next_stored, hstored]⟩

variable {s r q} in
theorem Keeps.jump {t : Cpu} (h : Keeps rs s t) : Keeps rs s (t.jump a) := by
  obtain ⟨hx, hsp, hmem, hstored⟩ := h
  exact ⟨fun r hr => by rw [Cpu.jump_x, hx r hr], by rw [Cpu.jump_sp, hsp],
    by rw [Cpu.jump_mem, hmem], by rw [Cpu.jump_stored, hstored]⟩

variable {s} in
theorem Keeps.trans {rs' : List RegNum} {t u : Cpu} (h : Keeps rs s t) (h' : Keeps rs' t u)
    (hsub : rs' ⊆ rs) : Keeps rs s u where
  x r hr := (h'.x r fun hmem => hr (hsub hmem)).trans (h.x r hr)
  sp := h'.sp.trans h.sp
  mem := h'.mem.trans h.mem
  stored := h'.stored.trans h.stored

variable {s} in
theorem Keeps.mono {rs' : List RegNum} {t : Cpu} (h : Keeps rs s t) (hsub : rs ⊆ rs') :
    Keeps rs' s t :=
  (Keeps.refl s rs').trans h hsub

/-- A comparison sets only the flags. -/
theorem exec_cmp (imm : BitVec 64) : exec (.add_sub_imm true true 31 r imm) s =
    some (s.flags_of true (s.reg_sp r) imm).next := by
  simp [exec, Cpu.set]

theorem Cpu.flags_of_keeps (sub : Bool) (b : BitVec 64) : Keeps [] s (s.flags_of sub a b) := by
  cases sub
  · exact ⟨fun _ _ => rfl, rfl, rfl, rfl⟩
  · exact ⟨fun _ _ => rfl, rfl, rfl, rfl⟩

@[simp] theorem Cpu.flags_of_pc (sub : Bool) (b : BitVec 64) : (s.flags_of sub a b).pc = s.pc := by
  cases sub <;> rfl

/-- What is compared is equal if the zero flag is set. -/
theorem Cpu.flags_of_z (b : BitVec 64) : (s.flags_of true a b).z = true ↔ a = b := by
  change decide (a + ~~~b + 1#64 = 0) = true ↔ a = b
  have hneg : a + ~~~b + 1#64 = a - b := by
    rw [BitVec.add_assoc, ← BitVec.neg_eq_not_add, BitVec.sub_eq_add_neg]
  rw [decide_eq_true_eq, hneg]
  constructor
  · intro h
    have hback := congrArg (· + b) h
    simpa using hback
  · rintro rfl
    exact BitVec.sub_self a

end

/-! ## Addresses -/

section
variable {a b : Addr} {mem : Mem} {bytes : List UInt8} {i n : Nat}

@[simp] theorem length_slice : (slice mem a n).length = n := by
  rw [slice, length_map, length_range]

theorem getElem?_slice (hi : i < n) : (slice mem a n)[i]? = some (mem (a + BitVec.ofNat 64 i)) := by
  rw [slice, getElem?_map, getElem?_range hi]
  rfl

theorem add_sub_ofNat (hi : i < 2 ^ 64) : (a + BitVec.ofNat 64 i - a).toNat = i := by
  rw [BitVec.add_comm, BitVec.add_sub_cancel, BitVec.toNat_ofNat, Nat.mod_eq_of_lt hi]

/-- What was put at an address is there. -/
theorem slice_put (h : bytes.length ≤ 2 ^ 64) : slice (put mem a bytes) a bytes.length = bytes := by
  apply ext_getElem?
  intro i
  obtain hi | hi := Nat.lt_or_ge i bytes.length
  · rw [getElem?_slice hi, put, add_sub_ofNat (by omega), getD_eq_getElem?_getD,
      getElem?_eq_getElem hi]
    rfl
  · rw [getElem?_eq_none (by rw [length_slice]; exact hi), getElem?_eq_none hi]

/-- What was put elsewhere does not change a slice. -/
theorem slice_put_of_outside
    (h : ∀ i < n, ¬ Within b bytes.length (a + BitVec.ofNat 64 i)) :
    slice (put mem b bytes) a n = slice mem a n := by
  unfold slice
  refine map_congr_left fun i hi => ?_
  have hout := h i (mem_range.mp hi)
  rw [put, getD_eq_getElem?_getD, getElem?_eq_none (by unfold Within at hout; omega)]
  rfl

theorem slice_append (m n : Nat) :
    slice mem a (m + n) = slice mem a m ++ slice mem (a + BitVec.ofNat 64 m) n := by
  unfold slice
  rw [range_add, map_append, map_map]
  congr 1
  refine map_congr_left fun i _ => ?_
  rw [Function.comp_apply, BitVec.add_assoc, BitVec.ofNat_add_ofNat]

variable {k : Nat}

theorem within_add (hk : k < n) (hn : n ≤ 2 ^ 64) : Within a n (a + .ofNat 64 k) := by
  unfold Within
  rw [add_sub_ofNat (by omega)]
  exact hk

/-- A slice of a frame does not change by what is put at another place of it. -/
theorem slice_put_apart {m : Nat} (hi : i + m ≤ 2 ^ 64)
    (hk : k + bytes.length ≤ 2 ^ 64) (h : i + m ≤ k ∨ k + bytes.length ≤ i) :
    slice (put mem (a + .ofNat 64 k) bytes) (a + .ofNat 64 i) m = slice mem (a + .ofNat 64 i) m := by
  refine slice_put_of_outside fun j hj => ?_
  have hdiff : a + .ofNat 64 i + .ofNat 64 j - (a + .ofNat 64 k) =
      BitVec.ofNat 64 (i + j) - .ofNat 64 k := by
    rw [← BitVec.ofNat_add_ofNat]
    ring
  unfold Within
  rw [hdiff, BitVec.toNat_sub, BitVec.toNat_ofNat, BitVec.toNat_ofNat]
  omega

theorem put_of_outside (h : ¬ Within a bytes.length b) : put mem a bytes b = mem b := by
  unfold Within at h
  rw [put, getD_eq_getElem?_getD, getElem?_eq_none (by omega)]
  rfl

theorem Within.of_add {m : Nat} (h : Within (a + .ofNat 64 k) m b) (hle : k + m ≤ n)
    (hn : n ≤ 2 ^ 64) : Within a n b := by
  unfold Within at *
  have hdiff : b - a = b - (a + .ofNat 64 k) + .ofNat 64 k := by ring
  rw [hdiff, BitVec.toNat_add, BitVec.toNat_ofNat]
  omega

end

/-! ## Programs -/

section
variable {code : Code} {supervisor : Supervisor σ} {a : Addr} {ops : List Op} {op : Op} {s t : Cpu}
  {e e' : σ}

/-- The instructions from the `i`-th on. -/
theorem Program.block {i : Nat} {block : List Op} (h : Program code a ops)
    (hblock : (ops.drop i).take block.length = block) :
    Program code (a + BitVec.ofNat 64 (4 * i)) block := by
  intro j op hop
  have hj : j < block.length := (List.getElem?_eq_some_iff.mp hop).1
  have hat : ops[i + j]? = some op := by
    rw [← hblock, List.getElem?_take_of_lt hj, List.getElem?_drop] at hop
    exact hop
  have hfetch := h _ _ hat
  rwa [Nat.mul_add, ← BitVec.ofNat_add_ofNat, ← BitVec.add_assoc] at hfetch

theorem step_exec (hfetch : fetch code s.pc = some op) (hexec : exec op s = some t) :
    step code supervisor (s, e) = some (t, e) := by
  unfold step
  rw [hfetch]
  cases op with
  | svc imm => cases hexec
  | _ =>
    simp only [hexec]
    rfl

theorem reaches_op (hfetch : fetch code s.pc = some op) (hexec : exec op s = some t) :
    Reaches code supervisor (s, e) (t, e) :=
  .single (step_exec hfetch hexec)

theorem reaches_svc {imm : BitVec 16} (hfetch : fetch code s.pc = some (.svc imm))
    (hcall : supervisor imm s e = some (t, e')) : Reaches code supervisor (s, e) (t, e') := by
  refine .single ?_
  unfold step
  rw [hfetch]
  exact hcall

variable {rt : RegNum}

theorem exec_cbz_taken (h : s.reg rt = 0) (offset : BitVec 64) :
    exec (.cbz false rt offset) s = some (s.jump (s.pc + offset)) :=
  congrArg some (if_pos (by simpa using h))

theorem exec_cbz_passed (h : s.reg rt ≠ 0) (offset : BitVec 64) :
    exec (.cbz false rt offset) s = some s.next :=
  congrArg some (if_neg (by simpa using h))

theorem exec_cbnz_taken (h : s.reg rt ≠ 0) (offset : BitVec 64) :
    exec (.cbz true rt offset) s = some (s.jump (s.pc + offset)) :=
  congrArg some (if_pos (by simpa using h))

theorem exec_cbnz_passed (h : s.reg rt = 0) (offset : BitVec 64) :
    exec (.cbz true rt offset) s = some s.next :=
  congrArg some (if_neg (by simpa using h))

/-- The carry is set. -/
theorem Cpu.holds_cs : s.holds 2#4 = s.c :=
  rfl

/-- The zero flag is set. -/
theorem Cpu.holds_eq : s.holds 0#4 = s.z :=
  rfl

theorem exec_b_cond_taken {cond : BitVec 4} (h : s.holds cond = true) (offset : BitVec 64) :
    exec (.b_cond cond offset) s = some (s.jump (s.pc + offset)) :=
  congrArg some (if_pos h)

theorem exec_b_cond_passed {cond : BitVec 4} (h : s.holds cond = false) (offset : BitVec 64) :
    exec (.b_cond cond offset) s = some s.next :=
  congrArg some (if_neg (by rw [h]; exact Bool.false_ne_true))

theorem exec_straight_pc (h : straight op = true) (hexec : exec op s = some t) :
    t.pc = s.pc + 4 := by
  cases op with
  | cbz | b | b_cond | ret | svc => cases h
  | add_sub_imm sub flags rd rn imm =>
    cases flags <;> cases sub <;> cases Option.some.inj hexec <;> simp [Cpu.flags_of, Cpu.add_flags]
  | add_sub_shifted sub flags rd rn rm amount =>
    cases flags <;> cases sub <;> cases Option.some.inj hexec <;> simp [Cpu.flags_of, Cpu.add_flags]
  | orr_shifted | movz | udiv | msub =>
    cases Option.some.inj hexec
    simp
  | strb | stp_pre | ldp_post =>
    simp only [exec] at hexec
    split at hexec
    · cases Option.some.inj hexec
      simp
    · cases hexec

/-- A run without branches ends behind its instructions. -/
theorem reaches_line (h : Program code a ops) (hstraight : ops.all straight = true)
    (hpc : s.pc = a) (hline : line ops s = some t) :
    Reaches code supervisor (s, e) (t, e) ∧ t.pc = a + BitVec.ofNat 64 (4 * ops.length) := by
  induction ops generalizing s a with
  | nil =>
    cases Option.some.inj hline
    refine ⟨.refl, ?_⟩
    rw [hpc, length_nil, BitVec.add_zero]
  | cons op ops ih =>
    obtain ⟨u, hexec, hrest⟩ := Option.bind_eq_some_iff.mp hline
    rw [all_cons, Bool.and_eq_true] at hstraight
    have hfetch : fetch code s.pc = some op := by
      have hfirst := h 0 op rfl
      rw [BitVec.add_zero] at hfirst
      rwa [hpc]
    have hnext : u.pc = a + 4 := by rw [exec_straight_pc hstraight.1 hexec, hpc]
    have hops : Program code (a + 4) ops := h.block (i := 1) (by simp)
    obtain ⟨hreach, hend⟩ := ih hops hstraight.2 hnext hrest
    refine ⟨.head (step_exec hfetch hexec) hreach, ?_⟩
    rw [hend, length_cons, Nat.mul_add, Nat.add_comm, ← BitVec.ofNat_add_ofNat,
      ← BitVec.add_assoc]
    rfl

end

end AArch64
