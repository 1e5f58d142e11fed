import Fors.Lib.LittleEndian
import Fors.Lib.Placement
import Mathlib.Tactic.NormNum

/-!
# Placing atoms

`place` lays the atoms out in `__text`, each at the next multiple of 16, and then fills in every
relocated `bl`. Offsets are `u32`, their sums overflow into a panic.

A written word is read back, other words and bytes stay. Patching the distance of a branch keeps
the word a branch, and its distance is the one that was written.

Source: `crates/fors-link/src/lib.rs`. Principal results: `imm26_patched` and `word_at_write_word`.
-/

namespace Fors.Link

open LittleEndian Placement List

structure Reloc where
  /-- The byte offset of the `bl` inside the atom. -/
  offset : UInt32
  target : String
  deriving DecidableEq

structure Atom where
  name : String
  code : List UInt8
  relocs : List Reloc
  deriving DecidableEq

/-- A placed atom: its offset inside `__text`, and its length. -/
structure Placed where
  name : String
  start : UInt32
  len : UInt32
  deriving DecidableEq

/-- The linked, unsigned `__text` and everything the writer needs. -/
structure Linked where
  text : List UInt8
  entry : UInt32
  atoms : List Placed
  dir : List UInt8
  lines : List UInt8
  deriving DecidableEq

inductive LinkError where
  | DuplicateSymbol (name : String)
  | UndefinedSymbol (from_ target : String)
  | BranchOutOfRange (from_ target : String)
  | NoEntry (name : String)
  | BadReloc (atom : String) (offset : UInt32)
  deriving DecidableEq

/-- What ends a link without an image. -/
inductive LinkStop where
  | err (e : LinkError)
  | panic
  deriving DecidableEq

def fail {α : Type} (e : LinkError) : Except LinkStop α :=
  .error (.err e)

def ATOM_ALIGN : Nat :=
  16

/-! ## Layout -/

/-- The symbols, in the order they were placed. -/
abbrev Symbols := List (String × UInt32)

structure LayoutState where
  text : List UInt8
  placed : List Placed
  at_ : Symbols

/-- The text, filled up with zeros to the next multiple of the alignment. -/
def pad (text : List UInt8) : List UInt8 :=
  text ++ List.replicate (up text.length ATOM_ALIGN - text.length) 0

def place_atom (s : LayoutState) (a : Atom) : Except LinkStop LayoutState :=
  let start := UInt32.ofNat s.text.length
  if (s.at_.lookup a.name).isSome then fail (.DuplicateSymbol a.name)
  else .ok
    { text := pad (s.text ++ a.code)
      placed := s.placed ++ [⟨a.name, start, .ofNat a.code.length⟩]
      at_ := s.at_ ++ [(a.name, start)] }

def place_atoms (atoms : List Atom) : Except LinkStop LayoutState :=
  atoms.foldlM place_atom ⟨[], [], []⟩

/-! ## Relocations -/

def add_u32 (a b : UInt32) : Except LinkStop UInt32 :=
  if a.toNat + b.toNat < 2 ^ 32 then .ok (a + b) else .error .panic

/-- The word at `i`. -/
def word_at (text : List UInt8) (i : Nat) : UInt32 :=
  .ofNat (of_le_bytes ((text.drop i).take 4))

def read_word (text : List UInt8) (i : Nat) : Except LinkStop UInt32 :=
  if i + 4 ≤ text.length then .ok (word_at text i) else .error .panic

def write_word (text : List UInt8) (i : Nat) (w : UInt32) : List UInt8 :=
  text.take i ++ le_bytes 4 w.toNat ++ text.drop (i + 4)

/-- The bits that make a word a branch with link, and those of its distance. -/
def BL_MASK : UInt32 :=
  0xFC000000

def BL : UInt32 :=
  0x94000000

def IMM_MASK : UInt32 :=
  0x03FFFFFF

def patch_reloc (at_ : Symbols) (a : Atom) (p : Placed) (text : List UInt8) (r : Reloc) :
    Except LinkStop (List UInt8) :=
  match at_.lookup r.target with
  | none => fail (.UndefinedSymbol a.name r.target)
  | some target => do
    let site ← add_u32 p.start r.offset
    let i := site.toNat
    if r.offset % 4 ≠ 0 then fail (.BadReloc a.name r.offset)
    else
      let stop ← add_u32 r.offset 4
      if p.len < stop then fail (.BadReloc a.name r.offset)
      else
        let w ← read_word text i
        if w &&& BL_MASK ≠ BL then fail (.BadReloc a.name r.offset)
        else
          let delta := ((target.toNat : Int) - site.toNat).tdiv 4
          if ¬ (-2 ^ 25 ≤ delta ∧ delta < 2 ^ 25) then fail (.BranchOutOfRange a.name r.target)
          else
            let patched := (w &&& BL_MASK) ||| (UInt32.ofInt delta &&& IMM_MASK)
            .ok (write_word text i patched)

def patch_atom (at_ : Symbols) (text : List UInt8) (ap : Atom × Placed) :
    Except LinkStop (List UInt8) :=
  ap.1.relocs.foldlM (patch_reloc at_ ap.1 ap.2) text

/-! ## The linked text -/

/-- A directory row: start, length, and two words that are not used yet. -/
def Placed.dir_row (p : Placed) : List UInt8 :=
  le_bytes 4 p.start.toNat ++ le_bytes 4 p.len.toNat ++ le_bytes 4 0 ++ le_bytes 4 0

/-- Places `runtime` then `fors` atoms and resolves every relocation. -/
def place (fors runtime : List Atom) (entry : String) : Except LinkStop Linked := do
  let s ← place_atoms (runtime ++ fors)
  let text ← ((runtime ++ fors).zip s.placed).foldlM (patch_atom s.at_) s.text
  match s.at_.lookup entry with
  | none => fail (.NoEntry entry)
  | some entry_off =>
    .ok ⟨text, entry_off, s.placed, s.placed.flatMap Placed.dir_row, le_bytes 4 0⟩

end Fors.Link

/-! ## Words of a text -/

namespace Fors.Link

open LittleEndian List

variable {text : List UInt8} {i j : Nat} {w : UInt32}

/-! ## Reading and writing -/

theorem length_write_word (h : i + 4 ≤ text.length) (w : UInt32) :
    (write_word text i w).length = text.length := by
  simp only [write_word, length_append, length_take, length_drop, length_le_bytes]
  omega

theorem write_word_outside (h : i + 4 ≤ text.length) (w : UInt32) (hj : ¬ (i ≤ j ∧ j < i + 4)) :
    (write_word text i w)[j]? = text[j]? := by
  have htake : (text.take i).length = i := length_take_of_le (by omega)
  unfold write_word
  obtain hlt | hge := Nat.lt_or_ge j i
  · rw [append_assoc, getElem?_append_left (by omega), getElem?_take_of_lt hlt]
  · rw [getElem?_append_right (by simp; omega), getElem?_drop]
    congr 1
    simp only [length_append, length_le_bytes, htake]
    omega

theorem word_at_write_word (h : i + 4 ≤ text.length) (w : UInt32) :
    word_at (write_word text i w) i = w := by
  have htake : (text.take i).length = i := length_take_of_le (by omega)
  have hdrop : (write_word text i w).drop i = le_bytes 4 w.toNat ++ text.drop (i + 4) := by
    unfold write_word
    rw [append_assoc, drop_append_of_le_length (Nat.le_of_eq htake.symm),
      drop_of_length_le (Nat.le_of_eq htake), nil_append]
  rw [word_at, hdrop, take_append_of_le_length (by simp),
    take_of_length_le (by simp), of_le_bytes_le_bytes]
  have hlt := w.toNat_lt
  rw [Nat.mod_eq_of_lt (by omega), UInt32.ofNat_toNat]

/-- A word only depends on its bytes. -/
theorem word_at_congr {other : List UInt8} (h : ∀ k < 4, other[j + k]? = text[i + k]?) :
    word_at other j = word_at text i := by
  have htake : (other.drop j).take 4 = (text.drop i).take 4 := by
    apply ext_getElem?
    intro k
    obtain hk | hk := Nat.lt_or_ge k 4
    · rw [getElem?_take_of_lt hk, getElem?_take_of_lt hk, getElem?_drop,
        getElem?_drop, h k hk]
    · rw [getElem?_eq_none (by simp; omega), getElem?_eq_none (by simp; omega)]
  rw [word_at, word_at, htake]

theorem word_at_write_word_ne (h : i + 4 ≤ text.length) (w : UInt32)
    (hj : j + 4 ≤ i ∨ i + 4 ≤ j) : word_at (write_word text i w) j = word_at text j :=
  word_at_congr fun k _ => write_word_outside h w (by omega)

/-! ## Branches -/

/-- The distance a branch jumps, in words. -/
def imm26 (w : UInt32) : Int :=
  if (w &&& IMM_MASK).toNat < 2 ^ 25 then (w &&& IMM_MASK).toNat
  else (w &&& IMM_MASK).toNat - 2 ^ 26

/-- The address that the word at `pos` branches to. -/
def branch_target (pos : Nat) (w : UInt32) : Option Int :=
  if w &&& BL_MASK = BL then some (pos + 4 * imm26 w) else none

theorem and_or_distrib (a b c : UInt32) : (a ||| b) &&& c = (a &&& c) ||| (b &&& c) :=
  UInt32.eq_of_toBitVec_eq BitVec.and_or_distrib_right

theorem patched_top (w x : UInt32) :
    ((w &&& BL_MASK) ||| (x &&& IMM_MASK)) &&& BL_MASK = w &&& BL_MASK := by
  have hmask : BL_MASK &&& BL_MASK = BL_MASK := by decide
  have hnone : IMM_MASK &&& BL_MASK = 0 := by decide
  rw [and_or_distrib, UInt32.and_assoc, UInt32.and_assoc, hmask, hnone,
    UInt32.and_zero, UInt32.or_zero]

theorem patched_low (w x : UInt32) :
    ((w &&& BL_MASK) ||| (x &&& IMM_MASK)) &&& IMM_MASK = x &&& IMM_MASK := by
  have hmask : IMM_MASK &&& IMM_MASK = IMM_MASK := by decide
  have hnone : BL_MASK &&& IMM_MASK = 0 := by decide
  rw [and_or_distrib, UInt32.and_assoc, UInt32.and_assoc, hmask, hnone,
    UInt32.and_zero, UInt32.zero_or]

theorem toNat_and_imm (x : UInt32) : (x &&& IMM_MASK).toNat = x.toNat % 2 ^ 26 := by
  have hmask : IMM_MASK.toNat = 2 ^ 26 - 1 := by decide
  rw [UInt32.toNat_and, hmask, Nat.and_two_pow_sub_one_eq_mod]

theorem toNat_ofInt_u32 (d : Int) : ((UInt32.ofInt d).toNat : Int) = d % 2 ^ 32 := by
  have hlt : (d % 2 ^ 32).toNat < UInt32.size := by
    simp only [UInt32.size]
    omega
  rw [UInt32.ofInt, UInt32.toNat_ofNat_of_lt' hlt]
  omega

theorem imm26_patched (w : UInt32) {d : Int} (hlo : -2 ^ 25 ≤ d) (hhi : d < 2 ^ 25) :
    imm26 ((w &&& BL_MASK) ||| (UInt32.ofInt d &&& IMM_MASK)) = d := by
  have hd := toNat_ofInt_u32 d
  unfold imm26
  rw [patched_low, toNat_and_imm]
  split <;> omega

end Fors.Link
