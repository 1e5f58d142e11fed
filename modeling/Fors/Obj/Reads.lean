import Fors.Lib.Outcomes
import Fors.Lib.Positions

/-!
# Reading an image back

Load commands, sections, and where the signature and the identifier are. Offsets and sizes are read
from the bytes; a malformed image is refused.

No sum that the scan of load commands and segments computes passes 64 bits: an offset that was read
at lies in the image, and sizes and counts of 32 bits are added to it. Only the end of a section,
whose size has 64 bits, can pass them.

Source: `crates/fors-obj/src/scan.rs`. Principal results: `ends_segments` and
`section_bytes_panics`.
-/

namespace Fors.Obj

open LittleEndian Outcomes Outcome List
open Utf8 (from_utf8_lossy)

def le32 (b : List UInt8) (off : Nat) : Outcome Unit Nat := do
  let end_ ← add off 4
  let bytes ← get b off end_
  pure (of_le_bytes bytes)

def le64 (b : List UInt8) (off : Nat) : Outcome Unit Nat := do
  let end_ ← add off 8
  let bytes ← get b off end_
  pure (of_le_bytes bytes)

/-- The text before the first zero. -/
def name (b : List UInt8) : List Char :=
  from_utf8_lossy (b.takeWhile fun c => c ≠ 0)

/-! ## Load commands -/

/-- One load command. -/
structure LoadCommand where
  cmd : Nat
  off : Nat
  size : Nat
  deriving DecidableEq

/-- The loop over the commands that are left. -/
def commands (image : List UInt8) :
    Nat → Nat → List LoadCommand → Outcome Unit (Nat × List LoadCommand)
  | 0, off, out => pure (off, out)
  | ncmds + 1, off, out => do
    let cmd ← le32 image off
    let at_ ← add off 4
    let size ← le32 image at_
    require (¬ (size < 8 ∨ size % 8 ≠ 0)) ()
    let next ← add off size
    commands image ncmds next (out ++ [⟨cmd, off, size⟩])

/-- Every load command, checked to tile exactly `sizeofcmds`. -/
def load_commands (image : List UInt8) : Outcome Unit (List LoadCommand) := do
  let magic ← le32 image 0
  require (¬ magic ≠ 0xFEEDFACF) ()
  let ncmds ← le32 image 16
  let sizeofcmds ← le32 image 20
  let (off, out) ← commands image ncmds 32 []
  let end_ ← add 32 sizeofcmds
  require (off = end_) ()
  pure out

/-! ## Segments -/

def LC_SEGMENT_64 : Nat :=
  0x19

def LC_UUID : Nat :=
  0x1B

def LC_CODE_SIGNATURE : Nat :=
  0x1D

def SECTION_64_SIZE : Nat :=
  80

def SEGMENT_64_SIZE : Nat :=
  72

/-- A `section_64` as read back, reserved fields included. -/
structure Section where
  segname : List Char
  sectname : List Char
  addr : Nat
  size : Nat
  offset : Nat
  align : Nat
  flags : Nat
  reserved : List Nat
  record_off : Nat
  deriving DecidableEq

/-- A segment and its sections. -/
structure Segment where
  name : List Char
  vmaddr : Nat
  vmsize : Nat
  fileoff : Nat
  filesize : Nat
  sections : List Section
  deriving DecidableEq

/-- A reader at a constant distance behind an offset. -/
def behind {α : Type} (read : List UInt8 → Nat → Outcome Unit α) (b : List UInt8) (off n : Nat) :
    Outcome Unit α := do
  let at_ ← add off n
  read b at_

/-- A name of 16 bytes. -/
def name_at (b : List UInt8) (off : Nat) : Outcome Unit (List Char) := do
  let end_ ← add off 16
  let bytes ← get b off end_
  pure (name bytes)

/-- The record of section `i` of the segment at `o`. -/
def section_at (image : List UInt8) (o i : Nat) : Outcome Unit Section := do
  let first ← add o SEGMENT_64_SIZE
  let skip ← mul i SECTION_64_SIZE
  let s ← add first skip
  let sectname ← name_at image s
  let segname ← behind name_at image s 16
  let addr ← behind le64 image s 32
  let size ← behind le64 image s 40
  let offset ← behind le32 image s 48
  let align ← behind le32 image s 52
  let flags ← behind le32 image s 64
  let r0 ← behind le32 image s 68
  let r1 ← behind le32 image s 72
  let r2 ← behind le32 image s 76
  pure ⟨segname, sectname, addr, size, offset, align, flags, [r0, r1, r2], s⟩

/-- The loop over the sections from `i` on. -/
def sections (image : List UInt8) (o : Nat) :
    Nat → Nat → List Section → Outcome Unit (List Section)
  | 0, _, out => pure out
  | left + 1, i, out => do
    let s ← section_at image o i
    sections image o left (i + 1) (out ++ [s])

def segment (image : List UInt8) (lc : LoadCommand) : Outcome Unit Segment := do
  let o := lc.off
  let nsects ← behind le32 image o 64
  let records ← mul nsects SECTION_64_SIZE
  let expected ← add SEGMENT_64_SIZE records
  require (¬ lc.size ≠ expected) ()
  let sections ← sections image o nsects 0 []
  let name ← behind name_at image o 8
  let vmaddr ← behind le64 image o 24
  let vmsize ← behind le64 image o 32
  let fileoff ← behind le64 image o 40
  let filesize ← behind le64 image o 48
  pure ⟨name, vmaddr, vmsize, fileoff, filesize, sections⟩

def segments_of (image : List UInt8) :
    List LoadCommand → List Segment → Outcome Unit (List Segment)
  | [], out => pure out
  | lc :: lcs, out =>
    if lc.cmd ≠ LC_SEGMENT_64 then segments_of image lcs out
    else do
      let s ← segment image lc
      segments_of image lcs (out ++ [s])

def segments (image : List UInt8) : Outcome Unit (List Segment) := do
  let lcs ← load_commands image
  segments_of image lcs []

/-! ## Places -/

/-- The first load command of a kind. -/
def find_command (image : List UInt8) (cmd : Nat) : Outcome Unit LoadCommand := do
  let lcs ← load_commands image
  match lcs.find? fun l => l.cmd = cmd with
  | some lc => pure lc
  | none => .refused ()

def code_signature (image : List UInt8) : Outcome Unit (Nat × Nat) := do
  let lc ← find_command image LC_CODE_SIGNATURE
  let off ← behind le32 image lc.off 8
  let size ← behind le32 image lc.off 12
  pure (off, size)

/-- File offset of `LC_UUID`'s 16 bytes. -/
def uuid_offset (image : List UInt8) : Outcome Unit Nat := do
  let lc ← find_command image LC_UUID
  add lc.off 8

/-- The first section of the name. -/
def find_section (segs : List Segment) (seg sect : List Char) : Option Section :=
  (segs.flatMap fun g => g.sections).find? fun s => s.segname = seg ∧ s.sectname = sect

/-- The bytes of section `seg,sect`. -/
def section_bytes (image : List UInt8) (seg sect : List Char) : Outcome Unit (List UInt8) := do
  let segs ← segments image
  match find_section segs seg sect with
  | none => .refused ()
  | some s => do
    let end_ ← add s.offset s.size
    get image s.offset end_

end Fors.Obj

/-! ## What the scan cannot do -/

namespace Fors.Obj

open LittleEndian Outcomes Outcome List

/-- A slice of the host: no slice has more bytes than a signed 64-bit number counts. -/
structure Slice where
  bytes : List UInt8
  fits : bytes.length < 2 ^ 63

variable {image : Slice} {off n i : Nat}

/-! ## Readers -/

theorem ends_le32 (b : List UInt8) (h : off + 4 < 2 ^ 64) :
    Ends (le32 b off) fun v => off + 4 ≤ b.length ∧ v < 2 ^ 32 := by
  unfold le32
  apply (ends_add h).bind
  rintro _ rfl
  apply (ends_get b off (off + 4)).bind
  rintro bytes ⟨hend, rfl⟩
  apply Ends.pure
  refine ⟨hend, ?_⟩
  have hlt := of_le_bytes_lt ((b.drop off).take (off + 4 - off))
  have hlen : ((b.drop off).take (off + 4 - off)).length = 4 := by
    rw [length_take, length_drop]
    omega
  rwa [hlen] at hlt

theorem ends_le64 (b : List UInt8) (h : off + 8 < 2 ^ 64) : Ends (le64 b off) fun _ => True := by
  unfold le64
  apply (ends_add h).bind
  rintro _ rfl
  apply (ends_get b off (off + 8)).bind
  exact fun _ _ => Ends.pure trivial

theorem ends_name_at (b : List UInt8) (h : off + 16 < 2 ^ 64) :
    Ends (name_at b off) fun _ => True := by
  unfold name_at
  apply (ends_add h).bind
  rintro _ rfl
  apply (ends_get b off (off + 16)).bind
  exact fun _ _ => Ends.pure trivial

theorem ends_behind {α : Type} {read : List UInt8 → Nat → Outcome Unit α} {Q : α → Prop}
    {b : List UInt8} (h : off + n < 2 ^ 64) (hread : Ends (read b (off + n)) Q) :
    Ends (behind read b off n) Q := by
  unfold behind
  apply (ends_add h).bind
  rintro _ rfl
  exact hread

/-! ## Load commands -/

/-- It begins in the image, and its size has 32 bits. -/
def InImage (image : Slice) (lc : LoadCommand) : Prop :=
  lc.off < 2 ^ 63 ∧ lc.size < 2 ^ 32

theorem ends_commands (ncmds : Nat) {out : List LoadCommand} (hoff : off < 2 ^ 63 + 2 ^ 32)
    (hout : ∀ lc ∈ out, InImage image lc) :
    Ends (commands image.bytes ncmds off out) fun r => ∀ lc ∈ r.2, InImage image lc := by
  induction ncmds generalizing off out with
  | zero => exact Ends.pure hout
  | succ ncmds ih =>
    have hfits := image.fits
    unfold commands
    apply (ends_le32 image.bytes (by omega)).bind
    rintro cmd ⟨hin, -⟩
    apply (ends_add (by omega)).bind
    rintro _ rfl
    apply (ends_le32 image.bytes (by omega)).bind
    rintro size ⟨-, hsize⟩
    apply (ends_require _ ()).bind
    rintro - -
    apply (ends_add (by omega)).bind
    rintro _ rfl
    apply ih (by omega)
    intro lc hlc
    rcases mem_append.mp hlc with hlc | hlc
    · exact hout lc hlc
    · rw [mem_singleton.mp hlc]
      exact ⟨by show off < 2 ^ 63; omega, hsize⟩

theorem ends_load_commands (image : Slice) :
    Ends (load_commands image.bytes) fun lcs => ∀ lc ∈ lcs, InImage image lc := by
  unfold load_commands
  apply (ends_le32 image.bytes (by omega)).bind
  rintro magic -
  apply (ends_require _ ()).bind
  rintro - -
  apply (ends_le32 image.bytes (by omega)).bind
  rintro ncmds -
  apply (ends_le32 image.bytes (by omega)).bind
  rintro sizeofcmds ⟨-, hsize⟩
  apply (ends_commands ncmds (by omega) fun lc hlc => absurd hlc not_mem_nil).bind
  rintro ⟨off, out⟩ hout
  apply (ends_add (by omega)).bind
  rintro end_ -
  apply (ends_require _ ()).bind
  exact fun _ _ => Ends.pure hout

/-! ## Segments -/

theorem ends_section_at (hoff : off < 2 ^ 63) (hi : i < 2 ^ 32) :
    Ends (section_at image.bytes off i) fun s => s.offset < 2 ^ 32 := by
  unfold section_at SEGMENT_64_SIZE SECTION_64_SIZE
  apply (ends_add (by omega)).bind
  rintro _ rfl
  apply (ends_mul (by omega)).bind
  rintro _ rfl
  apply (ends_add (by omega)).bind
  rintro _ rfl
  apply (ends_name_at image.bytes (by omega)).bind
  rintro sectname -
  apply (ends_behind (by omega) (ends_name_at image.bytes (by omega))).bind
  rintro segname -
  apply (ends_behind (by omega) (ends_le64 image.bytes (by omega))).bind
  rintro addr -
  apply (ends_behind (by omega) (ends_le64 image.bytes (by omega))).bind
  rintro size -
  apply (ends_behind (by omega) (ends_le32 image.bytes (by omega))).bind
  rintro offset ⟨-, hoffset⟩
  apply (ends_behind (by omega) (ends_le32 image.bytes (by omega))).bind
  rintro align -
  apply (ends_behind (by omega) (ends_le32 image.bytes (by omega))).bind
  rintro flags -
  apply (ends_behind (by omega) (ends_le32 image.bytes (by omega))).bind
  rintro r0 -
  apply (ends_behind (by omega) (ends_le32 image.bytes (by omega))).bind
  rintro r1 -
  apply (ends_behind (by omega) (ends_le32 image.bytes (by omega))).bind
  exact fun _ _ => Ends.pure hoffset

theorem ends_sections (hoff : off < 2 ^ 63) (left : Nat) {out : List Section}
    (hleft : i + left ≤ 2 ^ 32) (hout : ∀ s ∈ out, s.offset < 2 ^ 32) :
    Ends (sections image.bytes off left i out) fun ss => ∀ s ∈ ss, s.offset < 2 ^ 32 := by
  induction left generalizing i out with
  | zero => exact Ends.pure hout
  | succ left ih =>
    unfold sections
    apply (ends_section_at hoff (by omega)).bind
    intro s hs
    apply ih (by omega)
    intro s' hs'
    rcases mem_append.mp hs' with hs' | hs'
    · exact hout s' hs'
    · rw [mem_singleton.mp hs']
      exact hs

/-- The sections of a segment have offsets of 32 bits. -/
def Placed (g : Segment) : Prop :=
  ∀ s ∈ g.sections, s.offset < 2 ^ 32

theorem ends_segment {lc : LoadCommand} (hlc : InImage image lc) :
    Ends (segment image.bytes lc) Placed := by
  obtain ⟨hoff, hsize⟩ := hlc
  unfold segment SEGMENT_64_SIZE SECTION_64_SIZE
  apply (ends_behind (by omega) (ends_le32 image.bytes (by omega))).bind
  rintro nsects ⟨-, hnsects⟩
  apply (ends_mul (by omega)).bind
  rintro _ rfl
  apply (ends_add (by omega)).bind
  rintro _ rfl
  apply (ends_require _ ()).bind
  rintro - -
  apply (ends_sections hoff nsects (by omega) fun s hs => absurd hs not_mem_nil).bind
  intro ss hss
  apply (ends_behind (by omega) (ends_name_at image.bytes (by omega))).bind
  rintro name -
  apply (ends_behind (by omega) (ends_le64 image.bytes (by omega))).bind
  rintro vmaddr -
  apply (ends_behind (by omega) (ends_le64 image.bytes (by omega))).bind
  rintro vmsize -
  apply (ends_behind (by omega) (ends_le64 image.bytes (by omega))).bind
  rintro fileoff -
  apply (ends_behind (by omega) (ends_le64 image.bytes (by omega))).bind
  exact fun _ _ => Ends.pure hss

theorem ends_segments_of {lcs : List LoadCommand} {out : List Segment}
    (hlcs : ∀ lc ∈ lcs, InImage image lc) (hout : ∀ g ∈ out, Placed g) :
    Ends (segments_of image.bytes lcs out) fun gs => ∀ g ∈ gs, Placed g := by
  induction lcs generalizing out with
  | nil => exact Ends.pure hout
  | cons lc lcs ih =>
    obtain ⟨hlc, hlcs⟩ := forall_mem_cons.mp hlcs
    unfold segments_of
    split
    · exact ih hlcs hout
    · apply (ends_segment hlc).bind
      intro g hg
      apply ih hlcs
      intro g' hg'
      rcases mem_append.mp hg' with hg' | hg'
      · exact hout g' hg'
      · rw [mem_singleton.mp hg']
        exact hg

theorem ends_segments (image : Slice) :
    Ends (segments image.bytes) fun gs => ∀ g ∈ gs, Placed g := by
  unfold segments
  apply (ends_load_commands image).bind
  intro lcs hlcs
  exact ends_segments_of hlcs fun g hg => absurd hg not_mem_nil

/-! ## Places -/

theorem ends_find_command (image : Slice) (cmd : Nat) :
    Ends (find_command image.bytes cmd) (InImage image) := by
  unfold find_command
  apply (ends_load_commands image).bind
  intro lcs hlcs
  split
  · next lc hfind => exact Ends.pure (hlcs lc (mem_of_find?_eq_some hfind))
  · exact Ends.refused

theorem ends_code_signature (image : Slice) :
    Ends (code_signature image.bytes) fun p => p.1 < 2 ^ 32 ∧ p.2 < 2 ^ 32 := by
  unfold code_signature
  apply (ends_find_command image LC_CODE_SIGNATURE).bind
  rintro lc ⟨hoff, -⟩
  apply (ends_behind (by omega) (ends_le32 image.bytes (by omega))).bind
  rintro off ⟨-, hoff⟩
  apply (ends_behind (by omega) (ends_le32 image.bytes (by omega))).bind
  rintro size ⟨-, hsize⟩
  exact Ends.pure ⟨hoff, hsize⟩

theorem ends_uuid_offset (image : Slice) : Ends (uuid_offset image.bytes) fun _ => True := by
  unfold uuid_offset
  apply (ends_find_command image LC_UUID).bind
  rintro lc ⟨hoff, -⟩
  exact (ends_add (by omega)).mono fun _ _ => trivial

/-- The section that is asked for is in the image's segments and ends past 64 bits. -/
def EndsBeyond (image : List UInt8) (seg sect : List Char) : Prop :=
  ∃ segs s, segments image = .value segs ∧ find_section segs seg sect = some s ∧
    2 ^ 64 ≤ s.offset + s.size

theorem section_bytes_panics (image : Slice) (seg sect : List Char) :
    section_bytes image.bytes seg sect = .panics ↔ EndsBeyond image.bytes seg sect := by
  unfold section_bytes EndsBeyond
  rw [bind_eq_panics]
  constructor
  · rintro (h | ⟨segs, hsegs, h⟩)
    · exact absurd h (ends_segments image).not_panics
    · cases hfind : find_section segs seg sect with
      | none =>
        rw [hfind] at h
        cases h
      | some s =>
        rw [hfind] at h
        rcases bind_eq_panics.mp h with h | ⟨end_, -, h⟩
        · exact ⟨segs, s, hsegs, hfind, add_eq_panics.mp h⟩
        · exact absurd h (get_ne_panics _ _ _)
  · rintro ⟨segs, s, hsegs, hfind, hbeyond⟩
    refine Or.inr ⟨segs, hsegs, ?_⟩
    rw [hfind]
    exact bind_eq_panics.mpr (Or.inl (add_eq_panics.mpr hbeyond))

end Fors.Obj
