import Fors.Asm.Encode
import Fors.Fmir.Op

/-!
# Stencil bodies under construction

"A stencil body is a function of a `Fill` (the concrete value of every field), and every instruction
that depends on a field is pushed through a `Seq` method that records the hole as it goes."

Source: `crates/fors-codegen-dev/src/stencil.rs`.
-/

namespace Fors.Codegen

open Fors.Asm Fors.Fmir

/-- "The bit-field a hole patches." -/
inductive HoleKind where
  | LdSt64
  | Imm16
  | Br19
  | Br14
  | Br26
  | Adr21
  deriving DecidableEq

/-- "A runtime routine a stencil calls". -/
inductive RtSym where
  | WriteUint
  | WriteLine
  deriving DecidableEq

/-- "Which `Fill` field a hole takes its value from."  The arrays of a fill have four entries. -/
inductive Field where
  | SlotA
  | SlotB
  | SlotDst
  | Imm (i : Fin 4)
  | Trap (site : Fin 4)
  | Call (sym : RtSym)
  | Lit
  deriving DecidableEq

structure Hole where
  word : Nat
  kind : HoleKind
  field : Field
  deriving DecidableEq

/-- "The concrete value of every field of one stencil instance." -/
structure Fill where
  slot_a : BitVec 32
  slot_b : BitVec 32
  slot_dst : BitVec 32
  imm : Fin 4 → BitVec 16
  trap : Fin 4 → Int
  call : Int
  lit : Int

/-- "The table's placeholder: every field a valid, distinct value." -/
def Fill.placeholder : Fill where
  slot_a := 8
  slot_b := 16
  slot_dst := 24
  imm i := [1, 2, 3, 4].get i
  trap i := [256, 260, 264, 268].get i
  call := 1024
  lit := 512

/-- `a - b` of two `i64`s, with the wrap of a release build. -/
def i64_sub (a b : Int) : Int := (a - b).bmod (2 ^ 64)

/-- "Instructions plus the holes and trap sites recorded while building them." -/
structure Seq where
  fill : Fill
  insts : List Inst
  holes : List Hole
  sites : List TrapKind

/-- Where a stencil is not built. -/
inductive Panic where
  | does_not_encode (e : EncodeError)
  | not_a_slot (field : Field)
  | too_many_sites
  | expect (what : String)
  | index
  | no_stencil

/-- A step of a stencil body. -/
abbrev SeqM (α : Type) := StateT Seq (Except Panic) α

namespace Seq

def new (fill : Fill) : Seq := ⟨fill, [], [], []⟩

/-- The index of the next word, as a `u16`. -/
def word (s : Seq) : Nat := s.insts.length % 65536

/-- "A fixed instruction (no hole)." -/
def i (r : Result Inst) : SeqM Unit := fun s =>
  match r with
  | .ok i => .ok ((), { s with insts := s.insts ++ [i] })
  | .error e => .error (.does_not_encode e)

def fixed (inst : Inst) : SeqM Unit := i (.ok inst)

def hole (kind : HoleKind) (field : Field) : SeqM Unit := fun s =>
  .ok ((), { s with holes := s.holes ++ [⟨s.word, kind, field⟩] })

def slot (f : Field) : SeqM (BitVec 32) := fun s =>
  match f with
  | .SlotA => .ok (s.fill.slot_a, s)
  | .SlotB => .ok (s.fill.slot_b, s)
  | .SlotDst => .ok (s.fill.slot_dst, s)
  | other => .error (.not_a_slot other)

/-- "`ldr x<rt>, [sp, #slot]`." -/
def ldr_slot (rt : Fin 31) (f : Field) : SeqM Unit := do
  let off ← slot f
  hole .LdSt64 f
  let m := (UScaledImm12.new off.toNat 8).map AddrMode.UnsignedOffset
  let r := m.bind fun m => Inst.ldr (Reg.x rt) Reg.sp m
  i r

/-- "`str x<rt>, [sp, #slot]`." -/
def str_slot (rt : Fin 31) (f : Field) : SeqM Unit := do
  let off ← slot f
  hole .LdSt64 f
  let m := (UScaledImm12.new off.toNat 8).map AddrMode.UnsignedOffset
  let r := m.bind fun m => Inst.str_ (Reg.x rt) Reg.sp m
  i r

/-- "`movz <rd>, #imm[i], lsl #shift` (hole on the immediate)." -/
def movz_imm (rd : Reg) (idx : Fin 4) (shift : Nat) : SeqM Unit := do
  hole .Imm16 (.Imm idx)
  let v := (← get).fill.imm idx
  i (Inst.movz rd v shift)

/-- "`movk <rd>, #imm[i], lsl #shift` (hole on the immediate)." -/
def movk_imm (rd : Reg) (idx : Fin 4) (shift : Nat) : SeqM Unit := do
  hole .Imm16 (.Imm idx)
  let v := (← get).fill.imm idx
  i (Inst.movk rd v shift)

-- the literals of an immediate's index and of a site's
theorem neZero_idx : NeZero 4 := ⟨by decide⟩

/-- "The stencil-local site index of trap `kind` (one `brk` per site: several branches to the same
kind share it)." -/
def site (kind : TrapKind) : SeqM (Fin 4) := fun s =>
  match s.sites.findIdx? (· = kind) with
  | some i => .ok (Fin.ofNat 4 i, s)
  | none =>
    if s.sites.length + 1 ≤ 4 then
      .ok (Fin.ofNat 4 s.sites.length, { s with sites := s.sites ++ [kind] })
    else .error .too_many_sites

def trap_off (site : Fin 4) : SeqM Int := fun s =>
  .ok (i64_sub (s.fill.trap site) (4 * s.word), s)

/-- "`b.<cond>` to trap `kind`'s site." -/
def trap_if (cond : Cond) (kind : TrapKind) : SeqM Unit := do
  let s ← site kind
  let off ← trap_off s
  hole .Br19 (.Trap s)
  let r := (BranchOffset.new off 19 "b.cond").map fun o => Inst.b_cond cond o
  i r

/-- "`cbz <rt>` to trap `kind`'s site." -/
def trap_cbz (rt : Reg) (kind : TrapKind) : SeqM Unit := do
  let s ← site kind
  let off ← trap_off s
  hole .Br19 (.Trap s)
  let r := (BranchOffset.new off 19 "cbz").map fun o => Inst.cbz rt o
  i r

/-- "`cbnz <rt>` to trap `kind`'s site." -/
def trap_cbnz (rt : Reg) (kind : TrapKind) : SeqM Unit := do
  let s ← site kind
  let off ← trap_off s
  hole .Br19 (.Trap s)
  let r := (BranchOffset.new off 19 "cbnz").map fun o => Inst.cbnz rt o
  i r

/-- "`tbnz <rt>, #bit` to trap `kind`'s site." -/
def trap_tbnz (rt : Reg) (bit : Nat) (kind : TrapKind) : SeqM Unit := do
  let s ← site kind
  let off ← trap_off s
  hole .Br14 (.Trap s)
  let r := (BranchOffset.new off 14 "tbnz").bind fun o => Inst.tbnz rt bit o
  i r

/-- "An unconditional `b` to trap `kind`'s site (the explicit `trap` terminator)." -/
def trap_always (kind : TrapKind) : SeqM Unit := do
  let s ← site kind
  let off ← trap_off s
  hole .Br26 (.Trap s)
  let r := (BranchOffset.new off 26 "b").map Inst.b
  i r

/-- "`bl <runtime routine>` (the linker patches the offset)." -/
def bl (sym : RtSym) : SeqM Unit := do
  let s ← get
  let off := i64_sub s.fill.call (4 * s.word)
  hole .Br26 (.Call sym)
  let r := (BranchOffset.new off 26 "bl").map Inst.bl
  i r

/-- "`adr <rd>, <literal>`." -/
def adr_lit (rd : Reg) : SeqM Unit := do
  let s ← get
  let off := i64_sub s.fill.lit (4 * s.word)
  hole .Adr21 .Lit
  let r := (AdrOffset.new off).bind fun o => Inst.adr rd o
  i r

/-- "A fixed forward/backward branch inside the stencil, `words` away." -/
def b_cond_local (cond : Cond) (words : Int) : SeqM Unit :=
  i ((BranchOffset.new (4 * words) 19 "b.cond (local)").map fun o => Inst.b_cond cond o)

end Seq

end Fors.Codegen
