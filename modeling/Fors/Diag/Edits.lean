import Mathlib.Data.List.Sort
import Fors.Lib.Utf8
import Mathlib.Algebra.Group.Int.Defs

/-!
# Edits

A fix is a list of edits of a file. `apply_edits` carries them out in the order of their places,
or not at all.

Source: `crates/fors-diag/src/lib.rs`. Principal result: `apply_edits_moved`.
-/

namespace Fors.Diag

open List

/-- Every kind of fix the compiler knows how to suggest. -/
inductive FixKind where
  | InsertSemicolon
  | InsertStdImport
  | ReplaceIdentifier
  | FixModuleHeaderPath
  | CallMethod
  | ConvertWithAs
  deriving DecidableEq

/-- The replacement of the bytes from `start` to `end_`. -/
structure Edit where
  start : UInt32
  end_ : UInt32
  replacement : String
  deriving DecidableEq

/-- One suggested repair. -/
structure Fix where
  title : String
  kind : FixKind
  edits : List Edit
  deriving DecidableEq

/-! ## Applying -/

/-- By start, then by end. -/
def Edit.le (a b : Edit) : Bool :=
  a.start < b.start ∨ a.start = b.start ∧ a.end_ ≤ b.end_

def slice (source : List UInt8) (start stop : Nat) : List UInt8 :=
  (source.drop start).take (stop - start)

/-- The edits in order, with the end of the last one and what is written so far. -/
def apply_sorted (source : List UInt8) :
    List Edit → Nat → List UInt8 → Option (List UInt8)
  | [], cursor, out => some (out ++ source.drop cursor)
  | e :: es, cursor, out =>
    if e.end_ < e.start ∨ source.length < e.end_.toNat ∨ e.start.toNat < cursor then none
    else
      apply_sorted source es e.end_.toNat
        (out ++ slice source cursor e.start.toNat ++ Utf8.bytes e.replacement)

/-- Applies the edits to the source, or refuses them. -/
def apply_edits (source : List UInt8) (edits : List Edit) : Option (List UInt8) :=
  apply_sorted source (edits.mergeSort Edit.le) 0 []

/-! ## Moving -/

def shift (δ : Int) (x : UInt32) : UInt32 :=
  .ofInt (x.toNat + δ)

/-- A place that can be moved. -/
def Fits (δ : Int) (x : UInt32) : Prop :=
  0 ≤ (x.toNat : Int) + δ ∧ (x.toNat : Int) + δ < 2 ^ 32

def Edit.shift (δ : Int) (e : Edit) : Edit :=
  ⟨Diag.shift δ e.start, Diag.shift δ e.end_, e.replacement⟩

def Edit.Fits (δ : Int) (e : Edit) : Prop :=
  Diag.Fits δ e.start ∧ Diag.Fits δ e.end_

variable {δ : Int} {x y : UInt32} {edits : List Edit}

theorem toNat_shift (h : Fits δ x) : ((shift δ x).toNat : Int) = x.toNat + δ := by
  obtain ⟨hlo, hhi⟩ := h
  have hmod : ((x.toNat + δ) % 2 ^ 32).toNat < UInt32.size := by
    simp only [UInt32.size]
    omega
  rw [shift, UInt32.ofInt, UInt32.toNat_ofNat_of_lt' hmod]
  omega

@[simp] theorem shift_zero (x : UInt32) : shift 0 x = x := by
  have hlt := x.toNat_lt
  apply UInt32.toNat_inj.mp
  have hfits : Fits 0 x := ⟨by omega, by omega⟩
  have h := toNat_shift hfits
  omega

theorem Edit.shift_zero (e : Edit) : e.shift 0 = e := by
  simp [Edit.shift]

theorem shift_lt_iff (hx : Fits δ x) (hy : Fits δ y) : shift δ x < shift δ y ↔ x < y := by
  have hsx := toNat_shift hx
  have hsy := toNat_shift hy
  rw [UInt32.lt_iff_toNat_lt, UInt32.lt_iff_toNat_lt]
  omega

theorem shift_inj (hx : Fits δ x) (hy : Fits δ y) : shift δ x = shift δ y ↔ x = y := by
  have hsx := toNat_shift hx
  have hsy := toNat_shift hy
  rw [← UInt32.toNat_inj, ← UInt32.toNat_inj]
  omega

theorem shift_le_iff (hx : Fits δ x) (hy : Fits δ y) : shift δ x ≤ shift δ y ↔ x ≤ y := by
  have hsx := toNat_shift hx
  have hsy := toNat_shift hy
  rw [UInt32.le_iff_toNat_le, UInt32.le_iff_toNat_le]
  omega

/-- Moved edits stay in order. -/
theorem sort_shift (h : ∀ e ∈ edits, e.Fits δ) :
    (edits.map (Edit.shift δ)).mergeSort Edit.le = (edits.mergeSort Edit.le).map (Edit.shift δ) := by
  refine (map_mergeSort fun a ha b hb => ?_).symm
  obtain ⟨has, hae⟩ := h a ha
  obtain ⟨hbs, hbe⟩ := h b hb
  unfold Edit.le Edit.shift
  simp [shift_lt_iff has hbs, shift_inj has hbs, shift_le_iff hae hbe]

variable {pre pre' decl out : List UInt8} {cursor : Nat}

theorem slice_append {start : Nat} (h : pre.length ≤ cursor) :
    slice (pre ++ decl) cursor start =
      slice decl (cursor - pre.length) (start - pre.length) := by
  have hlen : start - cursor = start - pre.length - (cursor - pre.length) := by omega
  rw [slice, slice, drop_append, drop_of_length_le h, nil_append, hlen]

/-- What stands before the first edit is kept. -/
theorem apply_sorted_start (h : ∀ e ∈ edits, pre.length ≤ e.start.toNat) :
    apply_sorted (pre ++ decl) edits 0 [] = apply_sorted (pre ++ decl) edits pre.length pre := by
  cases edits with
  | nil => simp [apply_sorted]
  | cons e es =>
    have hstart := h e mem_cons_self
    have hslice : slice (pre ++ decl) 0 e.start.toNat =
        pre ++ slice (pre ++ decl) pre.length e.start.toNat := by
      rw [slice_append (Nat.le_refl _), slice, slice, drop_zero, Nat.sub_zero, Nat.sub_self,
        drop_zero, Nat.sub_zero, take_append, take_of_length_le hstart]
    have hzero : ¬ e.start.toNat < 0 := Nat.not_lt_zero _
    unfold apply_sorted
    rw [hslice, nil_append]
    simp [hzero, Nat.not_lt.mpr hstart]

theorem apply_sorted_moved (hδ : (pre'.length : Int) = pre.length + δ)
    (hfits : ∀ e ∈ edits, e.Fits δ) (hin : ∀ e ∈ edits, pre.length ≤ e.start.toNat)
    (hcursor : pre.length ≤ cursor) {acc : List UInt8}
    (h : apply_sorted (pre ++ decl) edits cursor (pre ++ acc) = some (pre ++ out)) :
    apply_sorted (pre' ++ decl) (edits.map (Edit.shift δ)) (cursor - pre.length + pre'.length)
      (pre' ++ acc) = some (pre' ++ out) := by
  induction edits generalizing cursor acc with
  | nil =>
    unfold apply_sorted at h
    rw [drop_append, drop_of_length_le hcursor, nil_append, append_assoc] at h
    have hout := append_cancel_left (Option.some.inj h)
    rw [map_nil, apply_sorted, drop_append, drop_of_length_le (by omega),
      nil_append, Nat.add_sub_cancel, append_assoc, hout]
  | cons e es ih =>
    obtain ⟨hstart, hend⟩ := hfits e mem_cons_self
    have hpre := hin e mem_cons_self
    have hs := toNat_shift hstart
    have he := toNat_shift hend
    unfold apply_sorted at h
    split at h
    · cases h
    · rename_i hok
      rw [not_or, not_or, length_append, UInt32.lt_iff_toNat_lt] at hok
      obtain ⟨hle, hlen, hafter⟩ := hok
      rw [slice_append hcursor, append_assoc, append_assoc] at h
      have ih := ih (fun e he => hfits e (mem_cons_of_mem _ he))
        (fun e he => hin e (mem_cons_of_mem _ he)) (by omega) h
      have hgood : ¬ ((e.shift δ).end_ < (e.shift δ).start ∨
          (pre' ++ decl).length < (e.shift δ).end_.toNat ∨
          (e.shift δ).start.toNat < cursor - pre.length + pre'.length) := by
        rw [length_append, UInt32.lt_iff_toNat_lt]
        simp only [Edit.shift]
        omega
      have hslice : slice (pre' ++ decl) (cursor - pre.length + pre'.length)
          (e.shift δ).start.toNat = slice decl (cursor - pre.length)
            (e.start.toNat - pre.length) := by
        have hplace : (e.shift δ).start.toNat - pre'.length = e.start.toNat - pre.length := by
          simp only [Edit.shift]
          omega
        rw [slice_append (by omega), Nat.add_sub_cancel, hplace]
      have hcursor' : e.end_.toNat - pre.length + pre'.length = (e.shift δ).end_.toNat := by
        simp only [Edit.shift]
        omega
      rw [map_cons, apply_sorted, if_neg hgood, hslice, append_assoc, append_assoc,
        ← hcursor']
      exact ih

/-- Edits that are moved with their declaration edit the same bytes of it. -/
theorem apply_edits_moved (hδ : (pre'.length : Int) = pre.length + δ)
    (hfits : ∀ e ∈ edits, e.Fits δ) (hin : ∀ e ∈ edits, pre.length ≤ e.start.toNat)
    (h : apply_edits (pre ++ decl) edits = some (pre ++ out)) :
    apply_edits (pre' ++ decl) (edits.map (Edit.shift δ)) = some (pre' ++ out) := by
  have hmem : ∀ e ∈ edits.mergeSort Edit.le, e ∈ edits := fun e he => mem_mergeSort.mp he
  have hstart : ∀ e ∈ (edits.mergeSort Edit.le).map (Edit.shift δ),
      pre'.length ≤ e.start.toNat := by
    intro e' he'
    obtain ⟨e, he, rfl⟩ := mem_map.mp he'
    have hpre := hin e (hmem e he)
    have hs := toNat_shift (hfits e (hmem e he)).1
    simp only [Edit.shift]
    omega
  unfold apply_edits at h ⊢
  rw [apply_sorted_start fun e he => hin e (hmem e he)] at h
  rw [sort_shift hfits, apply_sorted_start hstart]
  have hnil : apply_sorted (pre ++ decl) (edits.mergeSort Edit.le) pre.length (pre ++ []) =
      some (pre ++ out) := by
    rw [append_nil]
    exact h
  have hmoved := apply_sorted_moved hδ (fun e he => hfits e (hmem e he))
    (fun e he => hin e (hmem e he)) (Nat.le_refl _) hnil
  rwa [Nat.sub_self, Nat.zero_add, append_nil] at hmoved

end Fors.Diag
