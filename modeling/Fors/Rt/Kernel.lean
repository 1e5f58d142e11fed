import Fors.Asm.Encode
import Fors.Lib.Utf8
import Fors.Link.Place
import Fors.Lib.AArch64

/-!
# The runtime

"The runtime atoms: built in Rust with `fors-asm`, linked into every image ahead of the Fors atoms."
The entry shim and the three output routines instruction by instruction, what the kernel does with a
`write`, what it is for the routines to be placed and linked, and what their calls are asked to do.

Source: `crates/fors-codegen-dev/src/rt/write.rs`.
-/

namespace Fors.Rt

open Asm LittleEndian
open Link (Atom Reloc)

theorem neZero_gp : NeZero 31 := ⟨by decide⟩

attribute [local instance] neZero_gp

/-- "`_main`: the `LC_MAIN` entry point (the shim)." -/
def ENTRY : String :=
  "_main"

/-- "The Fors `main` atom the shim calls." -/
def FORS_MAIN : String :=
  "_fors_main"

def WRITE : String :=
  "_fors_rt_write"

def WRITE_UINT : String :=
  "_fors_rt_write_uint"

def WRITE_LINE : String :=
  "_fors_rt_write_line"

def SYS_WRITE : BitVec 16 :=
  4

def EINTR : BitVec 64 :=
  4

/-- The words of the instructions: an encoding error is a panic of the source. -/
def assemble (name : String) (relocs : List Reloc) (insts : List (Result Inst)) : Result Atom := do
  let words ← insts.mapM fun r => r >>= encode
  .ok ⟨name, words.flatMap fun w => le_bytes 4 w.toNat, relocs⟩

abbrev x := Reg.x

def br (words : Int) (bits : Nat) : Result BranchOffset :=
  BranchOffset.new (4 * words) bits "rt branch"

def main_shim : Result Atom :=
  assemble ENTRY [⟨8, FORS_MAIN⟩] [
    SImm7Scaled.new (-16) 8 >>= fun o => Inst.stp (x 29) (x 30) .sp o .PreIndex,
    Inst.mov_sp (x 29) .sp,
    (BranchOffset.new 0 26 "bl").map .bl,
    Inst.movz (.w 0) 0 0,
    SImm7Scaled.new 16 8 >>= fun o => Inst.ldp (x 29) (x 30) .sp o .PostIndex,
    Inst.ret (x 30)]

/-- "`_fors_rt_write(x0 = fd, x1 = ptr, x2 = len)`: loops on short writes, retries `EINTR`, stops on
any other error or on a zero-byte write (never spins)." -/
def write : Result Atom :=
  assemble WRITE [] [
    Inst.mov_reg (x 3) (x 0),
    Inst.mov_reg (x 4) (x 1),
    Inst.mov_reg (x 5) (x 2),
    (br 13 19).map fun o => .cbz (x 5) o,
    Inst.mov_reg (x 0) (x 3),
    Inst.mov_reg (x 1) (x 4),
    Inst.mov_reg (x 2) (x 5),
    Inst.movz (x 16) SYS_WRITE 0,
    .ok (.svc 0x80),
    (br 5 19).map fun o => .b_cond .CS o,
    (br 6 19).map fun o => .cbz (x 0) o,
    Inst.add_shifted (x 4) (x 4) (x 0) .none,
    Inst.sub_shifted (x 5) (x 5) (x 0) .none,
    (br (-10) 26).map .b,
    Uimm12Lsl.new EINTR >>= fun i => Inst.cmp_imm (x 0) i,
    (br (-12) 19).map fun o => .b_cond .EQ o,
    Inst.ret (x 30)]

/-- "`_fors_rt_write_uint(x0 = v)`: decimal into a 24-byte stack buffer, then one
`_fors_rt_write(1, …)`." -/
def write_uint : Result Atom :=
  assemble WRITE_UINT [⟨15 * 4, WRITE⟩] [
    SImm7Scaled.new (-48) 8 >>= fun o => Inst.stp (x 29) (x 30) .sp o .PreIndex,
    Inst.mov_sp (x 29) .sp,
    Uimm12Lsl.new 40 >>= fun i => Inst.add_imm (x 4) .sp i,
    Inst.mov_reg (x 5) (x 4),
    Inst.movz (x 6) 10 0,
    Inst.udiv (x 7) (x 0) (x 6),
    Inst.msub (x 8) (x 7) (x 6) (x 0),
    Uimm12Lsl.new (BitVec.ofNat 64 '0'.toNat) >>= fun i => Inst.add_imm (x 8) (x 8) i,
    Uimm12Lsl.new 1 >>= fun i => Inst.sub_imm (x 5) (x 5) i,
    UScaledImm12.new 0 1 >>= fun o => Inst.strb (.w 8) (x 5) (.UnsignedOffset o),
    Inst.mov_reg (x 0) (x 7),
    (br (-6) 19).map fun o => .cbnz (x 0) o,
    Inst.movz (x 0) 1 0,
    Inst.mov_reg (x 1) (x 5),
    Inst.sub_shifted (x 2) (x 4) (x 5) .none,
    (br 0 26).map .bl,
    SImm7Scaled.new 48 8 >>= fun o => Inst.ldp (x 29) (x 30) .sp o .PostIndex,
    Inst.ret (x 30)]

/-- "`_fors_rt_write_line(x0 = ptr, x1 = len)`: the bytes, then `\n`." -/
def write_line : Result Atom :=
  assemble WRITE_LINE [⟨4 * 5, WRITE⟩, ⟨4 * 11, WRITE⟩] [
    SImm7Scaled.new (-32) 8 >>= fun o => Inst.stp (x 29) (x 30) .sp o .PreIndex,
    Inst.mov_sp (x 29) .sp,
    Inst.mov_reg (x 2) (x 1),
    Inst.mov_reg (x 1) (x 0),
    Inst.movz (x 0) 1 0,
    (br 0 26).map .bl,
    Inst.movz (.w 3) (BitVec.ofNat 16 '\n'.toNat) 0,
    UScaledImm12.new 16 1 >>= fun o => Inst.strb (.w 3) .sp (.UnsignedOffset o),
    Inst.movz (x 0) 1 0,
    Uimm12Lsl.new 16 >>= fun i => Inst.add_imm (x 1) .sp i,
    Inst.movz (x 2) 1 0,
    (br 0 26).map .bl,
    SImm7Scaled.new 32 8 >>= fun o => Inst.ldp (x 29) (x 30) .sp o .PostIndex,
    Inst.ret (x 30)]

/-- "Every runtime atom, in placement order (the shim first)." -/
def runtime_atoms : Result (List Atom) := do
  .ok [← main_shim, ← write, ← write_uint, ← write_line]

end Fors.Rt

/-! ## The routines in an image -/

namespace Fors.Rt

open AArch64 LittleEndian
open Link (Atom word_at imm26 BL BL_MASK)

/-! ## The kernel -/

/-- An answer to a `write`, with what it leaves in `x1` and in the other flags. -/
inductive Answer where
  | error (errno x1 : BitVec 64) (n z v : Bool)
  | accept (count : Nat) (x1 : BitVec 64) (n z v : Bool)

/-- An error other than `EINTR`, or a count of zero. -/
def Answer.Stops : Answer → Prop
  | .error errno .. => errno ≠ EINTR
  | .accept count .. => count = 0

/-- The answers to come, and the bytes that were accepted, with their descriptors. -/
structure Kernel where
  answers : List Answer
  accepted : List (BitVec 64 × List UInt8)

/-- `write(x0 = fd, x1 = ptr, x2 = len)`: an error sets the carry, and no more than `len` bytes are
accepted. It waits until there is an answer. -/
def kernel (imm : BitVec 16) (s : Cpu) (k : Kernel) : Option (Cpu × Kernel) :=
  if imm = 0x80#16 ∧ s.x 16 = SYS_WRITE.setWidth 64 then
    match k.answers with
    | [] => none
    | .error errno x1 n z v :: answers =>
      some (((({ s with n, z, c := true, v } : Cpu).set 0 errno).set 1 x1).next,
        ⟨answers, k.accepted⟩)
    | .accept count x1 n z v :: answers =>
      let bytes := slice s.mem (s.x 1) (min count (s.x 2).toNat)
      some (((({ s with n, z, c := false, v } : Cpu).set 0 (.ofNat 64 bytes.length)).set 1 x1).next,
        ⟨answers, k.accepted ++ [(s.x 0, bytes)]⟩)
  else none

abbrev State := Cpu × Kernel

/-! ## The image -/

/-- An atom's words stand from `start` on, and those that have a relocation call its target. -/
structure Stands (code : Code) (symbols : String → Option Addr) (start : Addr) (a : Atom) :
    Prop where
  words : ∀ i, 4 * i + 4 ≤ a.code.length → (∀ r ∈ a.relocs, r.offset.toNat ≠ 4 * i) →
    code (start + .ofNat 64 (4 * i)) = some (word_at a.code (4 * i)).toBitVec
  calls : ∀ r ∈ a.relocs, ∃ w t,
    code (start + .ofNat 64 r.offset.toNat) = some w.toBitVec ∧ w &&& BL_MASK = BL ∧
      symbols r.target = some t ∧ start + .ofNat 64 r.offset.toNat + .ofInt 64 (4 * imm26 w) = t

def Loaded (code : Code) (symbols : String → Option Addr) : Prop :=
  ∀ r ∈ [write, write_uint, write_line], ∃ a start, r = .ok a ∧
    symbols a.name = some start ∧ Stands code symbols start a

/-! ## Calls -/

/-- The bytes that a call of `_fors_rt_write` is asked to write. -/
def passed (s : Cpu) : List UInt8 :=
  slice s.mem (s.x 1) (s.x 2).toNat

/-- Since a call began in `s`, the kernel answered `used` and accepted `chunks`, in order from the
front of what was passed. -/
structure Writing (s t : State) (used : List Answer) (chunks : List (List UInt8)) : Prop where
  answers : s.2.answers = used ++ t.2.answers
  accepted : t.2.accepted = s.2.accepted ++ chunks.map fun c => (s.1.x 0, c)
  front : chunks.flatten <+: passed s.1
  keeps : Keeps [0, 1, 2, 3, 4, 5, 16] s.1 t.1

/-- The call that began in `s` is back in `t`: everything was accepted unless an answer stopped it. -/
def Written (code : Code) (s t : State) : Prop :=
  Reaches code kernel s t ∧ t.1.pc = s.1.x 30 ∧ ∃ used chunks, Writing s t used chunks ∧
    (chunks.flatten = passed s.1 ↔ ∀ a ∈ used, ¬ a.Stops)

/-- The call that began in `s` has no answer in `t`, and something is left to write. -/
def Waits (code : Code) (s t : State) : Prop :=
  Reaches code kernel s t ∧ fetch code t.1.pc = some (.svc 0x80) ∧ t.2.answers = [] ∧
    ∃ used chunks, Writing s t used chunks ∧ chunks.flatten ≠ passed s.1 ∧
      ∀ a ∈ used, ¬ a.Stops

/-- All that was stored since `s` went into the `n` bytes below its stack. -/
def Framed (n : Nat) (s t : Cpu) : Prop :=
  ∃ stores, t.stored = stores ++ s.stored ∧ ∀ a ∈ stores, Within (s.sp - .ofNat 64 n) n a

/-- The routine that was called in `s` is back. -/
structure Back (n : Nat) (s t : Cpu) : Prop where
  pc : t.pc = s.x 30
  sp : t.sp = s.sp
  x29 : t.x 29 = s.x 29
  x30 : t.x 30 = s.x 30
  framed : Framed n s t

/-- From `c` on, the routine that was called in `s` with a frame of `n` bytes makes these calls of the
code at `target` one after another and comes back, or one of them waits. -/
inductive Calls (code : Code) (target : Addr) (n : Nat) (s : Cpu) :
    List (Cpu → Prop) → State → Prop
  | back {c t : State} (run : Reaches code kernel c t) (kernel : t.2 = c.2) (back : Back n s t.1) :
    Calls code target n s [] c
  | waits {p : Cpu → Prop} {rest : List (Cpu → Prop)} {c d t : State}
    (run : Reaches code kernel c d) (kernel : d.2 = c.2) (pc : d.1.pc = target) (call : p d.1)
    (waits : Waits code d t) (framed : Framed n s t.1) : Calls code target n s (p :: rest) c
  | written {p : Cpu → Prop} {rest : List (Cpu → Prop)} {c d t : State}
    (run : Reaches code kernel c d) (kernel : d.2 = c.2) (pc : d.1.pc = target) (call : p d.1)
    (written : Written code d t) (rest_calls : Calls code target n s rest t) :
    Calls code target n s (p :: rest) c

/-- The call is `_fors_rt_write(1, …)` with these bytes. -/
def Passes (bytes : List UInt8) (d : Cpu) : Prop :=
  d.x 0 = 1 ∧ passed d = bytes

/-- The bytes that are passed are some of the `n` from `a` on. -/
def From (a : Addr) (n : Nat) (d : Cpu) : Prop :=
  ∀ i < (d.x 2).toNat, Within a n (d.x 1 + .ofNat 64 i)

/-- `v.to_string().into_bytes()`, which the intrinsic `stdout_write_uint` writes. -/
def stdout_write_uint (v : BitVec 64) : List UInt8 :=
  Utf8.bytes (toString v.toNat)

/-- What the intrinsic `stdout_write_line` writes. -/
def stdout_write_line (text : List UInt8) : List UInt8 :=
  text ++ Utf8.bytes "\n"

end Fors.Rt
