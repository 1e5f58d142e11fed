import Fors.Exec.Inst
import Fors.Exec.InitBits
import Fors.Lib.LittleEndian
import Mathlib.Data.List.Induction

/-!
# Loads return what was last stored

One allocation object under stores, growth and `forget`. A load finds its bytes stored or fails, and
gives the bytes stored last. Its provenance is that of the last store at its offset, which is right
exactly where nothing was stored over that pointer and the load is as wide.

Principal result: `loads_last_stored`.
-/

namespace Fors.Exec

open Fmir LittleEndian List

/-! ## One object -/

inductive LoadFault where
  | Bounds
  | UninitRead

/-- A read of an object through a pointer. -/
def load (alloc : Alloc) (off width : Nat) : Except LoadFault Slot :=
  if saturating_add off width > alloc.size then .error .Bounds
  else if alloc.init.all_set off width = false then .error .UninitRead
  else
    .ok (.ptr (Machine.read_bits alloc.bytes off width) ((alloc.prov off).getD PROV_NONE))

inductive ObjectOp where
  | store (off width : Nat) (v : Slot)
  | grow_to (size : Nat)
  | forget

def Alloc.step (alloc : Alloc) : ObjectOp → Alloc
  | .store off width v => Machine.store alloc off width v
  | .grow_to size => alloc.grow_to size
  | .forget => alloc.forget

def Alloc.run (alloc : Alloc) (ops : List ObjectOp) : Alloc :=
  ops.foldl Alloc.step alloc

/-- The widths of scalars. -/
def Scalar (width : Nat) : Prop :=
  width = 1 ∨ width = 2 ∨ width = 4 ∨ width = 8

/-- A store in the object's bounds; a size that a `u32` holds. -/
def ObjectOp.Legal (alloc : Alloc) : ObjectOp → Prop
  | .store off width _ => Scalar width ∧ off + width ≤ alloc.bytes.length
  | .grow_to size => size < 2 ^ 32
  | .forget => True

/-- Each step is legal where it is taken. -/
def Legal : Alloc → List ObjectOp → Prop
  | _, [] => True
  | alloc, op :: ops => op.Legal alloc ∧ Legal (alloc.step op) ops

/-! ## What was stored -/

/-- A store of a run, by its place there. -/
structure Stored where
  index : Nat
  off : Nat
  width : Nat
  v : Slot

def note (within : Nat → Nat → Nat → Prop) [∀ off width i, Decidable (within off width i)]
    (last : Nat → Option Stored) (op : ObjectOp × Nat) : Nat → Option Stored :=
  match op.1 with
  | .store off width v => fun i => if within off width i then some ⟨op.2, off, width, v⟩ else last i
  | .grow_to _ => last
  | .forget => fun _ => none

/-- The last store since the last `forget` that wrote a byte. -/
def written (ops : List ObjectOp) : Nat → Option Stored :=
  ops.zipIdx.foldl (note fun off width i => off ≤ i ∧ i < off + width) fun _ => none

/-- The last store since the last `forget` that began at an offset. -/
def begun (ops : List ObjectOp) : Nat → Option Stored :=
  ops.zipIdx.foldl (note fun off _ i => i = off) fun _ => none

/-- What a store wrote at a byte of its range. -/
def Stored.byte (w : Stored) (i : Nat) : UInt8 :=
  (w.v.bits >>> UInt64.ofNat (8 * (i - w.off))).toUInt8

def last_byte (ops : List ObjectOp) (i : Nat) : UInt8 :=
  ((written ops i).map fun w => w.byte i).getD 0

/-- The whole range was last written by one store of a value with this provenance, there and as
wide. -/
def Whole (ops : List ObjectOp) (off width prov : Nat) : Prop :=
  ∃ w : Stored, w.off = off ∧ w.width = width ∧ w.v.prov = prov ∧
    ∀ i, off ≤ i → i < off + width → written ops i = some w

/-- If the last store that began at the offset stored a pointer, it was as wide and no byte of it
was stored over. -/
def Intact (ops : List ObjectOp) (off width : Nat) : Prop :=
  ∀ w, begun ops off = some w → w.v.prov = PROV_NONE ∨
    w.width = width ∧ ∀ i, off ≤ i → i < off + width → written ops i = some w

/-! ## Steps -/

variable {ops : List ObjectOp} {op : ObjectOp} {alloc : Alloc} {off width size i k : Nat} {v : Slot}

theorem written_append (ops : List ObjectOp) (op : ObjectOp) : written (ops ++ [op]) =
    note (fun off width i => off ≤ i ∧ i < off + width) (written ops) (op, ops.length) := by
  unfold written
  rw [zipIdx_append, foldl_append, Nat.zero_add]
  rfl

theorem begun_append (ops : List ObjectOp) (op : ObjectOp) : begun (ops ++ [op]) =
    note (fun off _ i => i = off) (begun ops) (op, ops.length) := by
  unfold begun
  rw [zipIdx_append, foldl_append, Nat.zero_add]
  rfl

theorem run_append (alloc : Alloc) (ops : List ObjectOp) (op : ObjectOp) :
    alloc.run (ops ++ [op]) = (alloc.run ops).step op := by
  unfold Alloc.run
  rw [foldl_append]
  rfl

theorem legal_append : Legal alloc (ops ++ [op]) ↔ Legal alloc ops ∧ op.Legal (alloc.run ops) := by
  induction ops generalizing alloc with
  | nil => simp [Legal, Alloc.run]
  | cons x ops ih =>
    show x.Legal alloc ∧ Legal (alloc.step x) (ops ++ [op]) ↔ _
    rw [ih, ← and_assoc]
    rfl

theorem length_write_bits (bytes : List UInt8) (off width : Nat) (bits : UInt64) :
    (Machine.write_bits bytes off width bits).length = bytes.length := by
  unfold Machine.write_bits
  induction width with
  | zero => rfl
  | succ width ih => rw [range_succ, foldl_append, foldl_cons, foldl_nil,
      length_set, ih]

theorem getD_write_bits (bytes : List UInt8) (off width : Nat) (bits : UInt64)
    (h : off + width ≤ bytes.length) (i : Nat) :
    (Machine.write_bits bytes off width bits).getD i 0 =
      if off ≤ i ∧ i < off + width then (bits >>> UInt64.ofNat (8 * (i - off))).toUInt8
      else bytes.getD i 0 := by
  induction width with
  | zero =>
    rw [if_neg (by omega)]
    rfl
  | succ width ih =>
    have hlen : (Machine.write_bits bytes off width bits).length = bytes.length :=
      length_write_bits bytes off width bits
    have hstep : Machine.write_bits bytes off (width + 1) bits =
        (Machine.write_bits bytes off width bits).set (off + width)
          (bits >>> UInt64.ofNat (8 * width)).toUInt8 := by
      unfold Machine.write_bits
      rw [range_succ, foldl_append, foldl_cons, foldl_nil]
    rw [hstep, getD_eq_getElem?_getD, getElem?_set]
    by_cases hi : off + width = i
    · have hsub : i - off = width := by omega
      rw [if_pos hi, if_pos (by omega), if_pos (by omega), hsub]
      rfl
    · rw [if_neg hi, ← getD_eq_getElem?_getD, ih (by omega)]
      by_cases hin : off ≤ i ∧ i < off + width
      · rw [if_pos hin, if_pos (by omega)]
      · rw [if_neg hin, if_neg (by omega)]

/-! ## The object of a run -/

/-- What the object holds is what was stored last. -/
structure Told (alloc : Alloc) (ops : List ObjectOp) : Prop where
  length_init : alloc.init.length = alloc.bytes.length
  length_lt : alloc.bytes.length < 2 ^ 32
  init : ∀ i, alloc.init.get i = (written ops i).isSome
  within : ∀ i w, written ops i = some w → w.off ≤ i ∧ i < w.off + w.width
  bytes : ∀ i w, written ops i = some w → alloc.bytes.getD i 0 = w.byte i
  prov : ∀ o, alloc.prov o = (begun ops o).bind fun w =>
    if w.v.prov = PROV_NONE then none else some w.v.prov
  off : ∀ o w, begun ops o = some w → w.off = o
  first : ∀ w, written ops w.off = some w → begun ops w.off = some w

theorem told_new (align : Nat) (kind : AllocKind) (generation : Nat) (h : size < 2 ^ 32) :
    Told (.new size align kind generation) [] where
  length_init := by
    show (List.replicate size false).length = (List.replicate size 0).length
    rw [length_replicate, length_replicate]
  length_lt := by
    show (List.replicate size 0).length < _
    rw [length_replicate]
    exact h
  init i := by
    show (List.replicate size false).getD i false = false
    rw [getD_eq_getElem?_getD, getElem?_replicate]
    split <;> rfl
  within _ _ hw := nomatch hw
  bytes _ _ hw := nomatch hw
  prov _ := rfl
  off _ _ hw := nomatch hw
  first _ hw := nomatch hw

theorem told_store (h : Told alloc ops) (hin : off + width ≤ alloc.bytes.length)
    (hwidth : 0 < width) : Told (Machine.store alloc off width v) (ops ++ [.store off width v]) where
  length_init := by
    show (alloc.init.set_range off width true).length =
      (Machine.write_bits alloc.bytes off width v.bits).length
    rw [length_set_range, length_write_bits, h.length_init]
  length_lt := by
    show (Machine.write_bits alloc.bytes off width v.bits).length < _
    rw [length_write_bits]
    exact h.length_lt
  init i := by
    have hlen := h.length_init
    have hlt := h.length_lt
    have hsat : saturating_add off width = off + width := min_eq_left (by unfold U32_MAX; omega)
    show (alloc.init.set_range off width true).get i = _
    rw [get_set_range, hsat, written_append]
    show _ = (if off ≤ i ∧ i < off + width then _ else written ops i).isSome
    by_cases hi : off ≤ i ∧ i < off + width
    · rw [if_pos hi, if_pos (by omega)]
      rfl
    · rw [if_neg hi, if_neg (fun hc => hi hc.2), h.init]
  within i w hw := by
    rw [written_append] at hw
    replace hw : (if off ≤ i ∧ i < off + width then some (⟨ops.length, off, width, v⟩ : Stored)
      else written ops i) = some w := hw
    split at hw
    · next hi =>
      cases hw
      exact hi
    · exact h.within i w hw
  bytes i w hw := by
    rw [written_append] at hw
    replace hw : (if off ≤ i ∧ i < off + width then some (⟨ops.length, off, width, v⟩ : Stored)
      else written ops i) = some w := hw
    show (Machine.write_bits alloc.bytes off width v.bits).getD i 0 = _
    rw [getD_write_bits _ _ _ _ hin]
    split at hw
    · next hi =>
      cases hw
      rw [if_pos hi]
      rfl
    · next hi =>
      rw [if_neg hi]
      exact h.bytes i w hw
  prov o := by
    rw [begun_append]
    show (if o = off then if v.prov = PROV_NONE then none else some v.prov else alloc.prov o) =
      (if o = off then some (⟨ops.length, off, width, v⟩ : Stored) else begun ops o).bind _
    by_cases ho : o = off
    · rw [if_pos ho, if_pos ho]
      rfl
    · rw [if_neg ho, if_neg ho]
      exact h.prov o
  off o w hw := by
    rw [begun_append] at hw
    replace hw : (if o = off then some (⟨ops.length, off, width, v⟩ : Stored)
      else begun ops o) = some w := hw
    split at hw
    · next ho =>
      cases hw
      exact ho.symm
    · exact h.off o w hw
  first w hw := by
    rw [written_append] at hw
    rw [begun_append]
    replace hw : (if off ≤ w.off ∧ w.off < off + width then
      some (⟨ops.length, off, width, v⟩ : Stored) else written ops w.off) = some w := hw
    show (if w.off = off then some (⟨ops.length, off, width, v⟩ : Stored)
      else begun ops w.off) = some w
    split at hw
    · cases hw
      rw [if_pos rfl]
    · next hnot =>
      rw [if_neg (fun heq => hnot (by omega))]
      exact h.first w hw

theorem told_grow (h : Told alloc ops) (hsize : size < 2 ^ 32) :
    Told (alloc.grow_to size) (ops ++ [.grow_to size]) := by
  have hwritten : written (ops ++ [.grow_to size]) = written ops := written_append _ _
  have hbegun : begun (ops ++ [.grow_to size]) = begun ops := begun_append _ _
  have hlen := h.length_init
  have hlt := h.length_lt
  have hsmall : alloc.size = alloc.bytes.length := Nat.mod_eq_of_lt hlt
  unfold Alloc.grow_to
  split
  · next hgt =>
    rw [hsmall] at hgt
    constructor
    · show (alloc.init.grow_to size).length = (alloc.bytes ++ List.replicate _ 0).length
      rw [length_init_grow, length_append, length_replicate]
      omega
    · show (alloc.bytes ++ List.replicate _ 0).length < _
      rw [length_append, length_replicate]
      omega
    · intro i
      show (alloc.init.grow_to size).get i = _
      rw [get_init_grow, hwritten]
      exact h.init i
    · rw [hwritten]
      exact h.within
    · intro i w hw
      rw [hwritten] at hw
      show (alloc.bytes ++ List.replicate _ 0).getD i 0 = _
      rw [← h.bytes i w hw, getD_eq_getElem?_getD, getD_eq_getElem?_getD,
        getElem?_append]
      split
      · rfl
      · next hi =>
        rw [getElem?_eq_none (l := alloc.bytes) (by omega), getElem?_replicate]
        split <;> rfl
    · rw [hbegun]
      exact h.prov
    · rw [hbegun]
      exact h.off
    · rw [hwritten, hbegun]
      exact h.first
  · constructor
    · exact h.length_init
    · exact h.length_lt
    · rw [hwritten]
      exact h.init
    · rw [hwritten]
      exact h.within
    · rw [hwritten]
      exact h.bytes
    · rw [hbegun]
      exact h.prov
    · rw [hbegun]
      exact h.off
    · rw [hwritten, hbegun]
      exact h.first

theorem told_forget (h : Told alloc ops) : Told alloc.forget (ops ++ [.forget]) := by
  have hwritten : written (ops ++ [.forget]) = fun _ => none := written_append _ _
  have hbegun : begun (ops ++ [.forget]) = fun _ => none := begun_append _ _
  have hlen := h.length_init
  have hlt := h.length_lt
  constructor
  · show (alloc.init.set_range 0 _ false).length = (alloc.bytes.map fun _ => 0).length
    rw [length_set_range, length_map, hlen]
  · show (alloc.bytes.map fun _ => 0).length < _
    rw [length_map]
    exact hlt
  · intro i
    have hsat : saturating_add 0 alloc.init.length = alloc.init.length := by
      unfold saturating_add U32_MAX
      omega
    show (alloc.init.set_range 0 alloc.init.length false).get i = _
    rw [get_set_range, hsat, hwritten]
    by_cases hi : i < alloc.init.length
    · rw [if_pos ⟨hi, Nat.zero_le _, hi⟩]
      rfl
    · rw [if_neg (fun hc => hi hc.1)]
      unfold InitMap.get
      rw [getD_eq_getElem?_getD, getElem?_eq_none (by omega)]
      rfl
  · intro i w hw
    rw [hwritten] at hw
    cases hw
  · intro i w hw
    rw [hwritten] at hw
    cases hw
  · intro o
    rw [hbegun]
    rfl
  · intro o w hw
    rw [hbegun] at hw
    cases hw
  · intro w hw
    rw [hwritten] at hw
    cases hw

theorem told_run (align : Nat) (kind : AllocKind) (generation : Nat) (hsize : size < 2 ^ 32)
    (hlegal : Legal (.new size align kind generation) ops) :
    Told ((Alloc.new size align kind generation).run ops) ops := by
  induction ops using List.reverseRecOn with
  | nil => exact told_new align kind generation hsize
  | append_singleton ops op ih =>
    obtain ⟨hops, hop⟩ := legal_append.mp hlegal
    have htold := ih hops
    rw [run_append]
    cases op with
    | store off width v =>
      obtain ⟨hscalar, hin⟩ := hop
      unfold Scalar at hscalar
      exact told_store htold hin (by omega)
    | grow_to size => exact told_grow htold hop
    | forget => exact told_forget htold

/-! ## Loads -/

/-- The bytes of a load, the lowest first. -/
theorem toNat_read_bits (bytes : List UInt8) (off : Nat) (hwidth : width ≤ 8) :
    (Machine.read_bits bytes off width).toNat =
      of_le_bytes ((List.range width).map fun k => bytes.getD (off + k) 0) := by
  induction width with
  | zero => rfl
  | succ width ih =>
    have hstep : Machine.read_bits bytes off (width + 1) = Machine.read_bits bytes off width |||
        (bytes.getD (off + width) 0).toUInt64 <<< UInt64.ofNat (8 * width) := by
      unfold Machine.read_bits
      rw [range_succ, foldl_append, foldl_cons, foldl_nil]
    have hlow := of_le_bytes_lt ((List.range width).map fun k => bytes.getD (off + k) 0)
    rw [length_map, length_range] at hlow
    have hpow : (256 : Nat) ^ width = 2 ^ (8 * width) := (pow_mul 2 8 width).symm
    have hbyte := (bytes.getD (off + width) 0).toNat_lt
    have hshift : ((bytes.getD (off + width) 0).toUInt64 <<< UInt64.ofNat (8 * width)).toNat =
        (bytes.getD (off + width) 0).toNat <<< (8 * width) := by
      have hbound : (bytes.getD (off + width) 0).toNat * 2 ^ (8 * width) < 2 ^ 64 := by
        calc (bytes.getD (off + width) 0).toNat * 2 ^ (8 * width)
          _ < 2 ^ 8 * 2 ^ (8 * width) := Nat.mul_lt_mul_of_pos_right hbyte (Nat.two_pow_pos _)
          _ = 2 ^ (8 + 8 * width) := (pow_add 2 8 (8 * width)).symm
          _ ≤ 2 ^ 64 := Nat.pow_le_pow_right (by omega) (by omega)
      have hamount : (UInt64.ofNat (8 * width)).toNat % 64 = 8 * width := by
        rw [UInt64.toNat_ofNat_of_lt' (by unfold UInt64.size; omega)]
        omega
      rw [UInt64.toNat_shiftLeft, hamount, UInt8.toNat_toUInt64, Nat.shiftLeft_eq,
        Nat.mod_eq_of_lt hbound]
    rw [hstep, UInt64.toNat_or, ih (by omega), hshift, Nat.or_comm,
      ← Nat.shiftLeft_add_eq_or_of_lt (by rw [← hpow]; exact hlow), range_succ, map_append,
      of_le_bytes_append, length_map, length_range, Nat.shiftLeft_eq, hpow]
    show _ = _ + _ * ((bytes.getD (off + width) 0).toNat + 256 * 0)
    ring

variable {prov : Nat} {s : Slot}

/-- A load in bounds succeeds where all its bytes are stored. -/
theorem load_ok_iff (h : Told alloc ops) (hin : off + width ≤ alloc.bytes.length) :
    (∃ s, load alloc off width = .ok s) ↔
      ∀ i, off ≤ i → i < off + width → (written ops i).isSome = true := by
  have hlt := h.length_lt
  have hsmall : alloc.size = alloc.bytes.length := Nat.mod_eq_of_lt hlt
  have hsat : saturating_add off width = off + width := min_eq_left (by unfold U32_MAX; omega)
  have hfits : off + width ≤ U32_MAX := by
    unfold U32_MAX
    omega
  have hall := all_set_iff alloc.init hfits
  simp only [h.init] at hall
  unfold load
  rw [hsat, hsmall, if_neg (by omega), ← hall]
  cases alloc.init.all_set off width with
  | true => simp
  | false => simp

theorem load_eq (h : load alloc off width = .ok s) :
    s = .ptr (Machine.read_bits alloc.bytes off width) ((alloc.prov off).getD PROV_NONE) := by
  unfold load at h
  split at h
  · cases h
  · split at h
    · cases h
    · exact (Except.ok.inj h).symm

/-- Its bits are the bytes stored last. -/
theorem load_bits (h : Told alloc ops) (hin : off + width ≤ alloc.bytes.length) (hwidth : width ≤ 8)
    (hload : load alloc off width = .ok s) :
    s.bits.toNat = of_le_bytes ((List.range width).map fun k => last_byte ops (off + k)) := by
  have hstored := (load_ok_iff h hin).mp ⟨s, hload⟩
  rw [load_eq hload]
  show (Machine.read_bits alloc.bytes off width).toNat = _
  rw [toNat_read_bits _ _ hwidth]
  congr 1
  apply map_congr_left
  intro k hk
  rw [mem_range] at hk
  obtain ⟨w, hw⟩ := Option.isSome_iff_exists.mp (hstored (off + k) (by omega) (by omega))
  rw [h.bytes _ w hw]
  unfold last_byte
  rw [hw]
  rfl

/-- Its provenance is that of the last store at its offset. -/
theorem load_prov (h : Told alloc ops) (hload : load alloc off width = .ok s) :
    s.prov = ((begun ops off).map fun w => w.v.prov).getD PROV_NONE := by
  rw [load_eq hload]
  show (alloc.prov off).getD PROV_NONE = _
  rw [h.prov]
  cases begun ops off with
  | none => rfl
  | some w =>
    show (if w.v.prov = PROV_NONE then none else some w.v.prov).getD PROV_NONE = w.v.prov
    split
    · next hnone => exact hnone.symm
    · rfl

theorem load_prov_iff (h : Told alloc ops) (hwidth : 0 < width)
    (hload : load alloc off width = .ok s) :
    (∀ prov, prov ≠ PROV_NONE → (s.prov = prov ↔ Whole ops off width prov)) ↔
      Intact ops off width := by
  have hprov := load_prov h hload
  -- a store that wrote the whole range is the last that began there
  have hbegun : ∀ w : Stored, w.off = off → (∀ i, off ≤ i → i < off + width →
      written ops i = some w) → begun ops off = some w := by
    rintro w rfl hall
    exact h.first w (hall w.off le_rfl (by omega))
  constructor
  · intro hexact w hw
    rw [hw] at hprov
    replace hprov : s.prov = w.v.prov := hprov
    by_cases hnone : w.v.prov = PROV_NONE
    · exact .inl hnone
    · obtain ⟨w', hoff, hwide, -, hall⟩ := (hexact _ hnone).mp hprov
      obtain rfl : w = w' := Option.some.inj (hw.symm.trans (hbegun w' hoff hall))
      exact .inr ⟨hwide, hall⟩
  · intro hintact prov hne
    constructor
    · intro heq
      cases hw : begun ops off with
      | none =>
        rw [hw] at hprov
        exact absurd (heq.symm.trans hprov) hne
      | some w =>
        rw [hw] at hprov
        replace hprov : s.prov = w.v.prov := hprov
        rcases hintact w hw with hnone | ⟨hwide, hall⟩
        · exact absurd ((heq.symm.trans hprov).trans hnone) hne
        · exact ⟨w, h.off off w hw, hwide, hprov.symm.trans heq, hall⟩
    · rintro ⟨w, hoff, -, rfl, hall⟩
      rw [hbegun w hoff hall] at hprov
      exact hprov

/-- The bounds check lets an access past the end through only where its sum is cut. -/
theorem bounds_exact (hlt : alloc.bytes.length < 2 ^ 32) :
    (∀ off width, off < 2 ^ 32 → Scalar width → saturating_add off width ≤ alloc.size →
      off + width ≤ alloc.bytes.length) ↔ alloc.bytes.length ≠ 2 ^ 32 - 1 := by
  have hsmall : alloc.size = alloc.bytes.length := Nat.mod_eq_of_lt hlt
  rw [hsmall]
  unfold saturating_add U32_MAX
  constructor
  · intro hall heq
    have hlast := hall (2 ^ 32 - 1) 1 (by omega) (.inl rfl)
    omega
  · intro hne off width hoff hwidth hle
    omega

/-! ## The result -/

/-- Over every run of an object, a load gives what was stored last, with the provenance of the one
pointer that it reads back exactly where the last store at its offset is intact; and no access
passes the end exactly where the object is short of the largest size. -/
theorem loads_last_stored (size align : Nat) (kind : AllocKind) (generation : Nat)
    (ops : List ObjectOp) (hsize : size < 2 ^ 32)
    (hlegal : Legal (.new size align kind generation) ops) :
    (∀ off width, Scalar width →
      off + width ≤ ((Alloc.new size align kind generation).run ops).bytes.length →
      ((∃ s, load ((Alloc.new size align kind generation).run ops) off width = .ok s) ↔
        ∀ i, off ≤ i → i < off + width → (written ops i).isSome = true) ∧
      ∀ s, load ((Alloc.new size align kind generation).run ops) off width = .ok s →
        s.bits.toNat = of_le_bytes ((List.range width).map fun k => last_byte ops (off + k)) ∧
        ((∀ prov, prov ≠ PROV_NONE → (s.prov = prov ↔ Whole ops off width prov)) ↔
          Intact ops off width)) ∧
    ((∀ off width, off < 2 ^ 32 → Scalar width →
      saturating_add off width ≤ ((Alloc.new size align kind generation).run ops).size →
      off + width ≤ ((Alloc.new size align kind generation).run ops).bytes.length) ↔
      ((Alloc.new size align kind generation).run ops).bytes.length ≠ 2 ^ 32 - 1) := by
  have htold := told_run align kind generation hsize hlegal
  refine ⟨?_, bounds_exact htold.length_lt⟩
  intro off width hscalar hin
  unfold Scalar at hscalar
  refine ⟨load_ok_iff htold hin, ?_⟩
  intro s hload
  exact ⟨load_bits htold hin (by omega) hload, load_prov_iff htold (by omega) hload⟩

/-- A pointer, and a value stored over its upper half. -/
def overstored : List ObjectOp :=
  [.store 0 8 (.ptr 0 1), .store 4 4 (.val 0)]

theorem overstored_legal : Legal (.new 8 8 .Stack 0) overstored :=
  ⟨⟨.inr (.inr (.inr rfl)), by decide⟩, ⟨.inr (.inr (.inl rfl)), by decide⟩, trivial⟩

theorem overstored_loaded :
    ∃ s, load ((Alloc.new 8 8 .Stack 0).run overstored) 0 8 = .ok s := by
  have hstored : ∀ i < 8, (written overstored i).isSome = true := by decide
  obtain ⟨hload, -⟩ := loads_last_stored 8 8 .Stack 0 overstored (by decide) overstored_legal
  exact (hload 0 8 (.inr (.inr (.inr rfl))) (by decide)).1.mpr fun i _ hi => hstored i hi

/-- The bytes of a pointer are changed, and its provenance is still there. -/
theorem overstored_provenance : ∃ s,
    load ((Alloc.new 8 8 .Stack 0).run overstored) 0 8 = .ok s ∧ s.prov = 1 ∧
      ¬Whole overstored 0 8 1 := by
  refine ⟨_, rfl, rfl, ?_⟩
  rintro ⟨w, -, -, -, hall⟩
  have hlow : written overstored 0 = some ⟨0, 0, 8, .ptr 0 1⟩ := rfl
  have hhigh : written overstored 4 = some ⟨1, 4, 4, .val 0⟩ := rfl
  rw [hall 0 (by decide) (by decide)] at hlow
  rw [hall 4 (by decide) (by decide), hlow] at hhigh
  cases hhigh

end Fors.Exec
