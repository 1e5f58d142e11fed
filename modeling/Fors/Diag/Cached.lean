import Fors.Lib.LittleEndian
import Fors.Lib.Numerals
import Fors.Diag.Edits
import Fors.Fmir.Encode

/-!
# Cached diagnostics

A diagnostic is kept with its place relative to its declaration's origin and rendered at the
origin of another revision. Its hash stands for it where answers are compared.

Source: `crates/fors-check/src/queries/memo.rs`. Principal results: `render_of` and `moves_iff`.
-/

namespace Fors.Diag

open LittleEndian List

abbrev FileId := UInt32

inductive Code where
  | N (k : UInt16)
  | A (k : UInt16)
  | T (k : UInt16)
  | O (k : UInt16)
  | F (k : UInt16)
  | D (k : UInt16)
  deriving DecidableEq

/-- A number with at least four digits. -/
def padded (k : Nat) : List Char :=
  List.replicate (4 - (Nat.toDigits 10 k).length) '0' ++ Nat.toDigits 10 k

def code_string (letter : Char) (k : UInt16) : String :=
  .ofList (letter :: padded k.toNat)

def Code.as_string : Code → String
  | .N k => code_string 'N' k
  | .A k => code_string 'A' k
  | .T k => code_string 'T' k
  | .O k => code_string 'O' k
  | .F k => code_string 'F' k
  | .D k => code_string 'D' k

structure Diagnostic where
  file : FileId
  start : UInt32
  end_ : UInt32
  code : Code
  site : UInt16
  message : String
  fixes : List Fix
  deriving DecidableEq

/-- A diagnostic whose place is relative to its declaration; the offset is an `i64`. -/
structure CachedDiag where
  offset : Int
  len : UInt32
  code : Code
  site : UInt16
  message : String
  fixes : List Fix
  deriving DecidableEq

def saturating_sub (a b : UInt32) : UInt32 :=
  if b ≤ a then a - b else 0

def CachedDiag.of (d : Diagnostic) (origin : UInt32) : CachedDiag where
  offset := (d.start.toNat : Int) - origin.toNat
  len := saturating_sub d.end_ d.start
  code := d.code
  site := d.site
  message := d.message
  fixes := d.fixes

/-- The diagnostic at an origin, if its place does not overflow. -/
def CachedDiag.render (c : CachedDiag) (file : FileId) (origin : UInt32) : Option Diagnostic :=
  if 2 ^ 63 ≤ (origin.toNat : Int) + c.offset then none
  else
    let start := UInt32.ofInt (max (origin.toNat + c.offset) 0)
    if 2 ^ 32 ≤ start.toNat + c.len.toNat then none
    else some ⟨file, start, start + c.len, c.code, c.site, c.message, c.fixes⟩

def title_bytes (titles : List String) : List UInt8 :=
  titles.flatMap fun title => Utf8.bytes title ++ [0xFE]

def CachedDiag.encoding (c : CachedDiag) : List UInt8 :=
  le_bytes 8 (c.offset % 2 ^ 64).toNat ++ (le_bytes 4 c.len.toNat ++
    (Utf8.bytes c.code.as_string ++ (le_bytes 2 c.site.toNat ++ 0xFF ::
      (Utf8.bytes c.message ++ 0xFF ::
        (le_bytes 4 c.fixes.length ++ title_bytes (c.fixes.map Fix.title))))))

/-- The part of this diagnostic that enters a value hash. -/
def CachedDiag.hash (c : CachedDiag) : BitVec 128 :=
  Fmir.hash_bytes c.encoding

/-! ## Moving -/

/-- The diagnostic in another file, each of its places moved. -/
def Diagnostic.shift (δ : Int) (file : FileId) (d : Diagnostic) : Diagnostic where
  file := file
  start := Diag.shift δ d.start
  end_ := Diag.shift δ d.end_
  code := d.code
  site := d.site
  message := d.message
  fixes := d.fixes.map fun f => ⟨f.title, f.kind, f.edits.map (Edit.shift δ)⟩

/-- No place of the diagnostic overflows when it is moved. -/
structure Diagnostic.Fits (δ : Int) (d : Diagnostic) : Prop where
  start : Diag.Fits δ d.start
  end_ : Diag.Fits δ d.end_
  edits : ∀ f ∈ d.fixes, ∀ e ∈ f.edits, e.Fits δ

/-- A diagnostic comes back at its own origin, and at another origin it and its edits are moved
with the declaration. -/
structure Moves (d : Diagnostic) (o1 : UInt32) (file : FileId) (o2 : UInt32) : Prop where
  same : (CachedDiag.of d o1).render d.file o1 = some d
  moved : (CachedDiag.of d o1).render file o2 =
    some (d.shift ((o2.toNat : Int) - o1.toNat) file)
  applied : ∀ r, (CachedDiag.of d o1).render file o2 = some r →
    ∀ (k : Nat) (f f' : Fix), d.fixes[k]? = some f → r.fixes[k]? = some f' →
      (∀ e ∈ f.edits, o1 ≤ e.start) →
      ∀ pre pre' decl out : List UInt8, pre.length = o1.toNat → pre'.length = o2.toNat →
        apply_edits (pre ++ decl) f.edits = some (pre ++ out) →
        apply_edits (pre' ++ decl) f'.edits = some (pre' ++ out)

/-- The hash tells two cached diagnostics from each other. -/
def Told (c c' : CachedDiag) : Prop :=
  c.hash = c'.hash → ∀ file origin, c.render file origin = c'.render file origin

/-- Fixes without edits have no places. -/
def Unplaced (fixes : List Fix) : Prop :=
  ∀ f ∈ fixes, f.edits = []

variable {d : Diagnostic} {o1 o2 : UInt32} {file : FileId} {δ : Int}

theorem toNat_saturating_sub {a b : UInt32} (h : b ≤ a) :
    (saturating_sub a b).toNat = a.toNat - b.toNat := by
  rw [saturating_sub, if_pos h, UInt32.toNat_sub_of_le _ _ h]

/-- What a cached diagnostic is rendered as. -/
theorem render_of (file : FileId) (hd : d.start ≤ d.end_)
    (hstart : Fits ((o2.toNat : Int) - o1.toNat) d.start)
    (hend : Fits ((o2.toNat : Int) - o1.toNat) d.end_) :
    (CachedDiag.of d o1).render file o2 =
      some { d.shift ((o2.toNat : Int) - o1.toNat) file with fixes := d.fixes } := by
  have hs := toNat_shift hstart
  have he := toNat_shift hend
  have hle := UInt32.le_iff_toNat_le.mp hd
  have hlen := toNat_saturating_sub hd
  have hlt := d.start.toNat_lt
  have hlt2 := o2.toNat_lt
  have hlte := (shift ((o2.toNat : Int) - o1.toNat) d.end_).toNat_lt
  obtain ⟨hlo, hhi⟩ := hstart
  have hsum : (o2.toNat : Int) + ((d.start.toNat : Int) - o1.toNat) =
      d.start.toNat + ((o2.toNat : Int) - o1.toNat) := by omega
  have hplace : UInt32.ofInt (max (o2.toNat + ((d.start.toNat : Int) - o1.toNat)) 0) =
      shift ((o2.toNat : Int) - o1.toNat) d.start := by
    rw [hsum, max_eq_left hlo]
    rfl
  have hstop : shift ((o2.toNat : Int) - o1.toNat) d.start + saturating_sub d.end_ d.start =
      shift ((o2.toNat : Int) - o1.toNat) d.end_ := by
    apply UInt32.toNat_inj.mp
    rw [UInt32.toNat_add, hlen]
    omega
  unfold CachedDiag.render CachedDiag.of
  simp only [hplace]
  rw [if_neg (by omega), if_neg (by omega), hstop]
  rfl

theorem fixes_shift_eq_iff (δ : Int) (fixes : List Fix)
    (hfits : ∀ f ∈ fixes, ∀ e ∈ f.edits, e.Fits δ) :
    (fixes.map fun f => (⟨f.title, f.kind, f.edits.map (Edit.shift δ)⟩ : Fix)) = fixes ↔
      δ = 0 ∨ Unplaced fixes := by
  constructor
  · intro h
    by_cases hδ : δ = 0
    · exact .inl hδ
    · refine .inr fun f hf => ?_
      obtain ⟨k, hk⟩ := mem_iff_getElem?.mp hf
      have hget := congrArg (·[k]?) h
      simp only [getElem?_map, hk, Option.map_some, Option.some.injEq] at hget
      have hedits := congrArg Fix.edits hget
      cases hes : f.edits with
      | nil => rfl
      | cons e es =>
        simp only [hes, map_cons, cons.injEq] at hedits
        have hstart := congrArg Edit.start hedits.1
        have hshift := toNat_shift (hfits f hf e (hes ▸ mem_cons_self)).1
        have hsame : shift δ e.start = e.start := hstart
        rw [hsame] at hshift
        omega
  · rintro (rfl | hnone)
    · have hid : ∀ f : Fix, (⟨f.title, f.kind, f.edits.map (Edit.shift 0)⟩ : Fix) = f := by
        intro f
        rw [show Edit.shift 0 = id from funext Edit.shift_zero, map_id]
      simp [hid]
    · conv => rhs; rw [← map_id fixes]
      refine map_congr_left fun f hf => ?_
      obtain ⟨title, kind, edits⟩ := f
      obtain rfl : edits = [] := hnone _ hf
      rfl

/-- The edits keep their absolute places: only without edits, or when nothing moves, does the
diagnostic move. -/
theorem moves_iff (hd : d.start ≤ d.end_) (hfits : d.Fits ((o2.toNat : Int) - o1.toNat)) :
    Moves d o1 file o2 ↔ o1 = o2 ∨ Unplaced d.fixes := by
  have hrender := render_of file hd hfits.start hfits.end_
  have hzero : (o2.toNat : Int) - o1.toNat = 0 ↔ o1 = o2 := by
    rw [← UInt32.toNat_inj]
    omega
  rw [← hzero, ← fixes_shift_eq_iff _ _ hfits.edits]
  constructor
  · intro h
    have hmoved := h.moved
    rw [hrender] at hmoved
    exact (congrArg Diagnostic.fixes (Option.some.inj hmoved)).symm
  · intro hfixes
    have hmoved : (CachedDiag.of d o1).render file o2 =
        some (d.shift ((o2.toNat : Int) - o1.toNat) file) := by
      rw [hrender, ← hfixes]
      congr 2
    refine ⟨?_, hmoved, ?_⟩
    · have hself : (o1.toNat : Int) - o1.toNat = 0 := by omega
      have hfit : ∀ x : UInt32, Fits ((o1.toNat : Int) - o1.toNat) x := by
        intro x
        have hlt := x.toNat_lt
        rw [hself]
        exact ⟨by omega, by omega⟩
      rw [render_of d.file hd (hfit _) (hfit _), hself]
      unfold Diagnostic.shift
      simp [shift_zero]
    · intro r hr k f f' hf hf' hin pre pre' decl out hpre hpre' hout
      rw [hmoved] at hr
      cases hr
      have hget : (d.shift ((o2.toNat : Int) - o1.toNat) file).fixes[k]? =
          some ⟨f.title, f.kind, f.edits.map (Edit.shift ((o2.toNat : Int) - o1.toNat))⟩ := by
        unfold Diagnostic.shift
        rw [getElem?_map, hf]
        rfl
      rw [hget] at hf'
      cases hf'
      refine apply_edits_moved (by omega) (hfits.edits f (mem_of_getElem? hf)) ?_ hout
      intro e he
      rw [hpre]
      exact UInt32.le_iff_toNat_le.mp (hin e he)

end Fors.Diag
