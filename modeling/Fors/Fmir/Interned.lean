import Mathlib.Data.List.Forall2
import Fors.Lib.Runs
import Fors.Fmir.Wire

/-!
# The interned pools

The decoder does not copy places and constants, it interns them again. A place pool is read back
as the shapes it was built from; a constant that repeats is merged away.

Principal results: `places_lawful` and `consts_lawful`.
-/

namespace Fors.Fmir

open List hiding after
open Format Reader

/-! ## Shapes -/

/-- What a place is interned by. -/
structure PlaceShape where
  root : UInt32
  ty : TyId
  path : List Seg
  deriving DecidableEq

/-- The rows of shapes pushed one after another onto `start` segments. -/
def rows_from : Nat → List PlaceShape → List PlaceRow
  | _, [] => []
  | start, shape :: shapes =>
    let stop := start + shape.path.length
    ⟨shape.root, ⟨UInt32.ofNat start, UInt32.ofNat stop⟩, shape.ty⟩ :: rows_from stop shapes

def all_segs (shapes : List PlaceShape) : List Seg :=
  shapes.flatMap PlaceShape.path

def PlacePool.of_shapes (shapes : List PlaceShape) : PlacePool :=
  ⟨rows_from 0 shapes, all_segs shapes⟩

theorem rows_from_append (start : Nat) (shapes more : List PlaceShape) :
    rows_from start (shapes ++ more) =
      rows_from start shapes ++ rows_from (start + (all_segs shapes).length) more := by
  induction shapes generalizing start with
  | nil => rfl
  | cons shape shapes ih => simp [rows_from, ih, all_segs, Nat.add_assoc]

@[simp] theorem length_rows_from (start : Nat) (shapes : List PlaceShape) :
    (rows_from start shapes).length = shapes.length := by
  induction shapes generalizing start with
  | nil => rfl
  | cons shape shapes ih => simp [rows_from, ih]

theorem push_of_shapes (shapes : List PlaceShape) (shape : PlaceShape) :
    (PlacePool.of_shapes shapes).push shape.root shape.path shape.ty =
      .of_shapes (shapes ++ [shape]) := by
  simp [PlacePool.push, PlacePool.of_shapes, rows_from_append, rows_from, all_segs]

/-- A row carries a shape: its range slices out the shape's path. -/
def Carries (segs : List Seg) (row : PlaceRow) (shape : PlaceShape) : Prop :=
  row.root = shape.root ∧ row.ty = shape.ty ∧ slice segs row.segs = .ok shape.path

theorem slice_middle {α : Type} (front path back : List α)
    (h : front.length + path.length < 2 ^ 32) :
    slice (front ++ (path ++ back))
      ⟨UInt32.ofNat front.length, UInt32.ofNat (front.length + path.length)⟩ = .ok path := by
  have hstart : (UInt32.ofNat front.length).toNat = front.length :=
    UInt32.toNat_ofNat_of_lt' (by simp only [UInt32.size]; omega)
  have hstop : (UInt32.ofNat (front.length + path.length)).toNat = front.length + path.length :=
    UInt32.toNat_ofNat_of_lt' (by simp only [UInt32.size]; omega)
  have hbounds : UInt32.ofNat front.length ≤ UInt32.ofNat (front.length + path.length) ∧
      (UInt32.ofNat (front.length + path.length)).toNat ≤ (front ++ (path ++ back)).length := by
    refine ⟨UInt32.le_iff_toNat_le.mpr (by omega), ?_⟩
    simp only [hstop, length_append]
    omega
  rw [slice, if_pos hbounds, hstart, hstop]
  simp

theorem carries_rows_from (front : List Seg) (shapes : List PlaceShape)
    (h : front.length + (all_segs shapes).length < 2 ^ 32) :
    List.Forall₂ (Carries (front ++ all_segs shapes)) (rows_from front.length shapes) shapes := by
  induction shapes generalizing front with
  | nil => exact .nil
  | cons shape shapes ih =>
    simp only [all_segs, flatMap_cons, length_append] at h
    refine .cons ⟨rfl, rfl, slice_middle _ _ _ (by omega)⟩ ?_
    have htail := ih (front ++ shape.path) (by simp only [length_append, all_segs]; omega)
    simpa [all_segs] using htail

theorem carries_of_shapes {shapes : List PlaceShape} (h : (all_segs shapes).length < 2 ^ 32) :
    List.Forall₂ (Carries (PlacePool.of_shapes shapes).segs) (PlacePool.of_shapes shapes).rows
      shapes := by
  simpa [PlacePool.of_shapes] using carries_rows_from [] shapes (by simpa using h)

/-- The search of a pool in bounds never faults and finds exactly the shapes it carries. -/
theorem find_shape_of_carries {pool : PlacePool} {rows : List PlaceRow} {shapes : List PlaceShape}
    (h : List.Forall₂ (Carries pool.segs) rows shapes) (shape : PlaceShape) (i : Nat) :
    pool.find_shape shape.root shape.path shape.ty i rows = .ok none ∧ shape ∉ shapes ∨
      ∃ j, pool.find_shape shape.root shape.path shape.ty i rows = .ok (some j) ∧
        shape ∈ shapes := by
  induction h generalizing i with
  | nil => exact .inl ⟨rfl, by simp⟩
  | @cons row first rows shapes hrow _ ih =>
    obtain ⟨hroot, hty, hslice⟩ := hrow
    have hsame : pool.has_shape shape.root shape.path shape.ty row =
        .ok (decide (shape = first)) := by
      obtain ⟨root, ty, path⟩ := shape
      obtain ⟨root', ty', path'⟩ := first
      subst hroot hty
      simp only [PlacePool.has_shape, PlacePool.segs_eq, hslice, PlaceShape.mk.injEq]
      split_ifs with hkey
      · obtain ⟨rfl, rfl⟩ := hkey
        simp [bind, Except.bind, pure, Except.pure, eq_comm]
      · simp only [Except.ok.injEq, Bool.false_eq, decide_eq_false_iff_not]
        rintro ⟨rfl, rfl, -⟩
        exact hkey ⟨rfl, rfl⟩
    by_cases heq : shape = first
    · refine .inr ⟨i, ?_, by simp [heq]⟩
      rw [PlacePool.find_shape, hsame]
      simp [heq, bind, Except.bind, pure, Except.pure]
    · have hnext : pool.find_shape shape.root shape.path shape.ty i (row :: rows) =
          pool.find_shape shape.root shape.path shape.ty (i + 1) rows := by
        rw [PlacePool.find_shape, hsame]
        simp [heq, bind, Except.bind]
      rw [hnext]
      simpa [heq] using ih (i + 1)

/-! ## Replaying a place pool -/

def write_shape (shape : PlaceShape) : List UInt32 :=
  [shape.root, shape.ty] ++ write_pool write_seg shape.path

def read_shape : Reader PlaceShape := do
  let root ← u32
  let ty ← u32
  let path ← pool read_seg
  return ⟨root, ty, path⟩

def tidy_shape : List UInt32 → Bool :=
  skip u32 <| skip u32 <| tidy_pool read_seg tidy_seg

/-- A path whose length fits its word. -/
def Short (shape : PlaceShape) : Prop :=
  shape.path.length < 2 ^ 32

theorem shape_lawful : Lawful write_shape read_shape tidy_shape Short Short := by
  have hsegs := pool_lawful seg_plain fun _ => id
  have hmap : Lawful write_shape _ tidy_shape Short Short :=
    (Lawful.seq id_plain <| Lawful.seq id_plain hsegs).map
      (fun p : UInt32 × TyId × List Seg => PlaceShape.mk p.1 p.2.1 p.2.2)
      (fun shape hshape => ⟨(shape.root, shape.ty, shape.path),
        ⟨trivial, trivial, hshape, fun _ _ => trivial⟩, rfl⟩)
      (fun p hp => hp.2.2.1) (fun p hp => ⟨hp.2.2.1, rfl⟩) (fun p hp => hp)
  refine hmap.congr (fun _ => rfl) ?_ (fun _ => rfl) (fun _ => id) fun _ => Iff.rfl
  simp [read_shape]

/-- Each shape is new to the pool of the shapes before it. -/
def Replays : List PlaceShape → List PlaceShape → Prop
  | _, [] => True
  | done, shape :: shapes =>
    (PlacePool.of_shapes done).find_shape shape.root shape.path shape.ty 0
      (PlacePool.of_shapes done).rows = .ok none ∧ Replays (done ++ [shape]) shapes

theorem find_shape_lt {pool : PlacePool} {rows : List PlaceRow} {shape : PlaceShape} {i j : Nat}
    (h : pool.find_shape shape.root shape.path shape.ty i rows = .ok (some j)) :
    j < i + rows.length := by
  induction rows generalizing i with
  | nil => simp [PlacePool.find_shape, pure, Except.pure] at h
  | cons row rows ih =>
    rw [PlacePool.find_shape, Runs.bind_eq_ok] at h
    obtain ⟨same, -, h⟩ := h
    cases same with
    | false =>
      have := ih h
      simp only [length_cons]
      omega
    | true =>
      have hj : i = j := by simpa [pure, Except.pure] using h
      simp only [length_cons]
      omega

theorem attempt_ok {α : Type} {step : Except Fault α} {a : α} {s rest : List UInt32} :
    attempt step s = .ok (a, rest) ↔ step = .ok a ∧ s = rest := by
  cases step <;> simp [attempt]

/-- A place lands on the next id exactly when its shape is new. -/
theorem intern_next_iff {done : List PlaceShape} (shape : PlaceShape)
    (hdone : done.length < 2 ^ 32) {pool : PlacePool} :
    (PlacePool.of_shapes done).intern shape.root shape.path shape.ty =
        .ok (UInt32.ofNat done.length, pool) ↔
      (PlacePool.of_shapes done).find_shape shape.root shape.path shape.ty 0
        (PlacePool.of_shapes done).rows = .ok none ∧ pool = .of_shapes (done ++ [shape]) := by
  have hlen : (PlacePool.of_shapes done).rows.length = done.length := length_rows_from 0 done
  rw [PlacePool.intern, Runs.bind_eq_ok]
  constructor
  · rintro ⟨found, hfound, h⟩
    cases found with
    | none =>
      obtain ⟨-, rfl⟩ := Prod.mk.inj (Except.ok.inj h)
      exact ⟨hfound, push_of_shapes done shape⟩
    | some j =>
      have hj := find_shape_lt hfound
      obtain ⟨hid, -⟩ := Prod.mk.inj (Except.ok.inj h)
      have := ofNat_inj_of_lt (by omega) hdone hid
      omega
  · rintro ⟨hfound, rfl⟩
    exact ⟨none, hfound, by rw [hlen, push_of_shapes]; rfl⟩

theorem read_places_from_ok {n : Nat} (done : List PlaceShape) (hn : done.length + n ≤ 2 ^ 32)
    {pool : PlacePool} {s rest : List UInt32} :
    read_places_from n (UInt32.ofNat done.length) (.of_shapes done) s = .ok (pool, rest) ↔
      ∃ shapes, many read_shape n s = .ok (shapes, rest) ∧ Replays done shapes ∧
        pool = .of_shapes (done ++ shapes) := by
  induction n generalizing done s with
  | zero =>
    simp only [read_places_from, many, pure_ok]
    constructor
    · rintro ⟨rfl, rfl⟩
      exact ⟨[], ⟨rfl, rfl⟩, trivial, by simp⟩
    · rintro ⟨_, ⟨rfl, rfl⟩, -, rfl⟩
      exact ⟨by simp, rfl⟩
  | succ n ih =>
    have hnext : ∀ shape : PlaceShape, UInt32.ofNat done.length + 1 =
        UInt32.ofNat (done ++ [shape]).length := fun shape => by simp
    have hlen : ∀ shape : PlaceShape, (done ++ [shape]).length + n ≤ 2 ^ 32 := fun shape => by
      simp only [length_append, length_singleton]
      omega
    simp only [read_places_from, many, read_shape, bind_ok, attempt_ok, pure_ok]
    constructor
    · rintro ⟨root, _, hroot, ty, _, hty, path, _, hpath, ⟨got, next⟩, _, ⟨hintern, rfl⟩, h⟩
      by_cases hgot : got = UInt32.ofNat done.length
      · subst hgot
        obtain ⟨hnew, rfl⟩ := (intern_next_iff ⟨root, ty, path⟩ (by omega)).mp hintern
        simp only [ne_eq, not_true_eq_false, if_false, hnext ⟨root, ty, path⟩] at h
        obtain ⟨shapes, hread, hreplays, rfl⟩ := (ih _ (hlen _)).mp h
        exact ⟨⟨root, ty, path⟩ :: shapes,
          ⟨_, _, ⟨root, _, hroot, ty, _, hty, path, _, hpath, rfl, rfl⟩, shapes, _, hread, rfl, rfl⟩,
          ⟨hnew, hreplays⟩, by simp⟩
      · simp only [ne_eq, hgot, not_false_eq_true, if_true] at h
        exact (err_ok.mp h).elim
    · rintro ⟨_, ⟨_, _, ⟨root, _, hroot, ty, _, hty, path, _, hpath, rfl, rfl⟩, shapes, _, hread,
        rfl, rfl⟩, ⟨hnew, hreplays⟩, rfl⟩
      have hintern := (intern_next_iff ⟨root, ty, path⟩ (by omega)).mpr ⟨hnew, rfl⟩
      refine ⟨root, _, hroot, ty, _, hty, path, _, hpath, (_, _), _, ⟨hintern, rfl⟩, ?_⟩
      simp only [ne_eq, not_true_eq_false, if_false, hnext ⟨root, ty, path⟩]
      exact (ih _ (hlen _)).mpr ⟨shapes, hread, hreplays, by simp⟩

/-- The decoder reads the shapes and accepts them when each is new. -/
theorem read_places_ok {pool : PlacePool} {s rest : List UInt32} :
    read_places s = .ok (pool, rest) ↔
      ∃ shapes, Reader.pool read_shape s = .ok (shapes, rest) ∧ Replays [] shapes ∧
        pool = .of_shapes shapes := by
  have hn : ∀ n : UInt32, ([] : List PlaceShape).length + n.toNat ≤ 2 ^ 32 := fun n => by
    have := n.toNat_lt
    simp only [length_nil]
    omega
  simp only [read_places, Reader.pool, bind_ok]
  constructor
  · rintro ⟨n, t, hcount, h⟩
    have hfrom := (read_places_from_ok [] (hn n)).mp h
    obtain ⟨shapes, hread, hreplays, rfl⟩ := hfrom
    exact ⟨shapes, ⟨n, t, hcount, hread⟩, hreplays, by simp⟩
  · rintro ⟨shapes, ⟨n, t, hcount, hread⟩, hreplays, rfl⟩
    exact ⟨n, t, hcount, (read_places_from_ok [] (hn n)).mpr
      ⟨shapes, hread, hreplays, by simp⟩⟩

/-- In bounds, shapes replay exactly when none of them repeats. -/
theorem replays_iff {done shapes : List PlaceShape} (hdone : done.Nodup)
    (h : (all_segs (done ++ shapes)).length < 2 ^ 32) :
    Replays done shapes ↔ (done ++ shapes).Nodup := by
  induction shapes generalizing done with
  | nil => simpa [Replays] using hdone
  | cons shape shapes ih =>
    have hassoc : done ++ shape :: shapes = done ++ [shape] ++ shapes := by simp
    have hbound : (all_segs done).length < 2 ^ 32 := by
      simp only [all_segs, flatMap_append, length_append] at h ⊢
      omega
    rw [Replays, hassoc]
    rw [hassoc] at h
    rcases find_shape_of_carries (carries_of_shapes hbound) shape 0 with
      ⟨hfound, hmem⟩ | ⟨j, hfound, hmem⟩
    · have hnodup : (done ++ [shape]).Nodup := by
        simp [nodup_append, hdone]
        grind
      rw [ih hnodup h]
      simp [hfound]
    · rw [hfound]
      simp [nodup_append]
      grind

/-! ## The place pool -/

def write_places (pool : PlacePool) : List UInt32 :=
  write_pool (write_place pool) pool.rows

/-- The shapes are tidy, and all their segments are counted by a word. -/
def tidy_places (s : List UInt32) : Bool :=
  tidy_pool read_shape tidy_shape s &&
    after (pool read_shape) (fun shapes _ => (all_segs shapes).length < 2 ^ 32) s

/-- A pool built by `intern` whose ranges did not wrap. -/
def PlacePool.Interned (pool : PlacePool) : Prop :=
  ∃ shapes, pool = .of_shapes shapes ∧ shapes.Nodup ∧ shapes.length < 2 ^ 32 ∧
    (all_segs shapes).length < 2 ^ 32

theorem clamped_of_slice {α : Type} {rows path : List α} {range : Range}
    (h : slice rows range = .ok path) : clamped rows range = path := by
  rw [slice] at h
  split_ifs at h with hb
  obtain ⟨hle, hstop⟩ := hb
  have hle := UInt32.le_iff_toNat_le.mp hle
  cases h
  simp only [clamped, clamp_range]
  congr 1
  · omega
  · congr 1
    omega

theorem write_rows_eq {segs : List Seg} {all rows : List PlaceRow} {shapes : List PlaceShape}
    (h : List.Forall₂ (Carries segs) rows shapes) :
    rows.flatMap (write_place ⟨all, segs⟩) = shapes.flatMap write_shape := by
  induction h with
  | nil => rfl
  | cons hrow _ ih =>
    obtain ⟨hroot, hty, hslice⟩ := hrow
    simp [ih, write_place, PlacePool.path, write_shape, hroot, hty, clamped_of_slice hslice]

/-- In bounds, a pool is written as its shapes. -/
theorem write_places_of_shapes {shapes : List PlaceShape} (h : (all_segs shapes).length < 2 ^ 32) :
    write_places (.of_shapes shapes) = write_pool write_shape shapes := by
  have hrows := carries_of_shapes h
  rw [write_places, write_pool, write_pool, hrows.length_eq]
  exact congrArg _ (write_rows_eq hrows)

/-- How many segments a row's range spans; none when it is inverted. -/
def PlaceRow.width (row : PlaceRow) : Nat :=
  row.segs.end_.toNat - row.segs.start.toNat

theorem length_clamped_le {α : Type} (rows : List α) (range : Range) :
    (clamped rows range).length ≤ range.end_.toNat - range.start.toNat := by
  simp only [clamped, clamp_range, length_take, length_drop]
  omega

/-- A range that wraps spans less than the path it was made for. -/
theorem width_le (start : Nat) (shapes : List PlaceShape) :
    List.Forall₂ (fun row shape => row.width ≤ shape.path.length) (rows_from start shapes)
      shapes := by
  induction shapes generalizing start with
  | nil => exact .nil
  | cons shape shapes ih =>
    refine .cons ?_ (ih _)
    simp only [PlaceRow.width, UInt32.toNat_ofNat']
    omega

theorem total_lt_of_width_eq {start : Nat} {shapes : List PlaceShape} (hstart : start < 2 ^ 32)
    (hshort : ∀ shape ∈ shapes, Short shape)
    (h : List.Forall₂ (fun row shape => row.width = shape.path.length) (rows_from start shapes)
      shapes) : start + (all_segs shapes).length < 2 ^ 32 := by
  induction shapes generalizing start with
  | nil => simpa [all_segs] using hstart
  | cons shape shapes ih =>
    obtain ⟨hwidth, htail⟩ := List.forall₂_cons.mp h
    have hpath := hshort shape mem_cons_self
    simp only [PlaceRow.width, UInt32.toNat_ofNat', Short] at hwidth hpath
    have := ih (by omega) (fun sh hsh => hshort sh (mem_cons_of_mem _ hsh)) htail
    simp only [all_segs, flatMap_cons, length_append] at this ⊢
    omega

/-- Rows that are no wider than their counterparts, and together as wide, are each as wide. -/
theorem forall₂_eq_of_length_le {α β : Type} {R : α → β → Prop} {f : α → List UInt32}
    {g : β → List UInt32} (hR : ∀ x y, R x y → (f x).length ≤ (g y).length) {xs : List α}
    {ys : List β} (h : List.Forall₂ R xs ys)
    (hlen : (ys.flatMap g).length ≤ (xs.flatMap f).length) :
    List.Forall₂ (fun x y => R x y ∧ (f x).length = (g y).length) xs ys := by
  have total : ∀ {xs : List α} {ys : List β}, List.Forall₂ R xs ys →
      (xs.flatMap f).length ≤ (ys.flatMap g).length := by
    intro xs ys h
    induction h with
    | nil => exact Nat.le_refl _
    | cons hxy _ ih =>
      have := hR _ _ hxy
      simp only [flatMap_cons, length_append]
      omega
  induction h with
  | nil => exact .nil
  | cons hxy htail ih =>
    have := hR _ _ hxy
    have := total htail
    simp only [flatMap_cons, length_append] at hlen
    exact .cons ⟨hxy, by omega⟩ (ih (by omega))

theorem length_write_pool {α : Type} {write : α → List UInt32} {rows : List α} {n : Nat}
    (h : ∀ row, (write row).length = n) : (write_pool write rows).length = 1 + n * rows.length := by
  induction rows with
  | nil => rfl
  | cons row rows ih =>
    simp only [write_pool, flatMap_cons, length_append, length_cons,
      h] at ih ⊢
    rw [Nat.mul_add]
    omega

theorem length_write_seg (seg : Seg) : (write_seg seg).length = 2 := by
  cases seg <;> rfl

theorem length_write_place (pool : PlacePool) (row : PlaceRow) :
    (write_place pool row).length = 3 + 2 * (pool.path row).length := by
  simp only [write_place, length_append, length_write_pool length_write_seg,
    length_cons, length_nil]
  omega

theorem length_write_shape (shape : PlaceShape) :
    (write_shape shape).length = 3 + 2 * shape.path.length := by
  simp only [write_shape, length_append, length_write_pool length_write_seg,
    length_cons, length_nil]
  omega

theorem length_write_row_le (pool : PlacePool) (row : PlaceRow) (shape : PlaceShape)
    (h : row.width ≤ shape.path.length) :
    (write_place pool row).length ≤ (write_shape shape).length := by
  have := length_clamped_le pool.segs row.segs
  simp only [length_write_place, length_write_shape, PlacePool.path, PlaceRow.width] at h ⊢
  omega

/-- A written pool is at most as wide as its shapes. -/
theorem length_write_places_le (shapes : List PlaceShape) :
    (write_places (.of_shapes shapes)).length ≤ (write_pool write_shape shapes).length := by
  have total : ∀ {rows : List PlaceRow} {shapes' : List PlaceShape},
      List.Forall₂ (fun row shape => row.width ≤ shape.path.length) rows shapes' →
        (rows.flatMap (write_place (.of_shapes shapes))).length ≤
          (shapes'.flatMap write_shape).length := by
    intro rows shapes' h
    induction h with
    | nil => exact Nat.le_refl _
    | cons hrow _ ih =>
      have := length_write_row_le (.of_shapes shapes) _ _ hrow
      simp only [flatMap_cons, length_append]
      omega
  have := total (width_le 0 shapes)
  simpa [write_places, write_pool, PlacePool.of_shapes] using this

/-- A pool written as wide as its shapes has all its ranges in bounds. -/
theorem total_lt_of_length_le {shapes : List PlaceShape}
    (hshort : ∀ shape ∈ shapes, Short shape)
    (h : (write_pool write_shape shapes).length ≤ (write_places (.of_shapes shapes)).length) :
    (all_segs shapes).length < 2 ^ 32 := by
  have heq := forall₂_eq_of_length_le (length_write_row_le (.of_shapes shapes))
    (width_le 0 shapes) (by simpa [write_places, write_pool, PlacePool.of_shapes] using h)
  have hwidth : List.Forall₂ (fun row shape => row.width = shape.path.length)
      (rows_from 0 shapes) shapes := by
    refine heq.imp fun row shape hrow => ?_
    obtain ⟨hle, hlen⟩ := hrow
    have := length_clamped_le (PlacePool.of_shapes shapes).segs row.segs
    simp only [length_write_place, length_write_shape, PlacePool.path, PlaceRow.width] at *
    omega
  simpa using total_lt_of_width_eq (by decide) hshort hwidth

/-- Places round-trip; their encoding is the one that would be written when its shapes are tidy
and fit the pool. -/
theorem places_lawful :
    Lawful write_places read_places tidy_places (fun _ => True) PlacePool.Interned := by
  have hshapes := pool_lawful shape_lawful fun _ => id
  refine ⟨?_, fun _ => trivial, ?_, ?_, ?_⟩
  · rintro pool ⟨shapes, rfl, hnodup, hlen, hsegs⟩ rest
    have hshort : ∀ shape ∈ shapes, Short shape := by
      intro shape hshape
      have : shape.path.length ≤ (all_segs shapes).length :=
        (sublist_flatten_of_mem (mem_map_of_mem hshape)).length_le
      exact Nat.lt_of_le_of_lt this hsegs
    rw [write_places_of_shapes hsegs]
    exact read_places_ok.mpr ⟨shapes, hshapes.read_write ⟨hlen, hshort⟩ rest,
      (replays_iff nodup_nil (by simpa using hsegs)).mpr (by simpa using hnodup), rfl⟩
  · intro s pool rest hr hs
    obtain ⟨shapes, hread, hreplays, rfl⟩ := read_places_ok.mp hr
    simp only [tidy_places, after, hread, Bool.and_eq_true, decide_eq_true_eq] at hs
    have hnodup := (replays_iff nodup_nil (by simpa using hs.2)).mp hreplays
    exact ⟨shapes, rfl, by simpa using hnodup, (hshapes.sound_of_read hread).1, hs.2⟩
  · intro s pool rest hr
    obtain ⟨shapes, hread, -, rfl⟩ := read_places_ok.mp hr
    obtain ⟨c, rfl, hc⟩ := hshapes.split hread
    exact ⟨c, rfl, Nat.le_trans (length_write_places_le shapes) hc⟩
  · intro s pool rest hr
    obtain ⟨shapes, hread, -, rfl⟩ := read_places_ok.mp hr
    simp only [tidy_places, after, hread, Bool.and_eq_true, decide_eq_true_eq,
      hshapes.strict_iff hread]
    constructor
    · rintro ⟨hs, hsegs⟩
      rw [hs, write_places_of_shapes hsegs]
    · intro hs
      obtain ⟨c, hc, hlen⟩ := hshapes.split hread
      rw [hs, append_cancel_right_eq] at hc
      have hsegs := total_lt_of_length_le (hshapes.sound_of_read hread).2 (hc ▸ hlen)
      exact ⟨by rw [hs, write_places_of_shapes hsegs], hsegs⟩

/-! ## The constant pool -/

def write_consts (pool : ConstPool) : List UInt32 :=
  write_pool write_const pool.rows

/-- The constants are tidy and none of them repeats. -/
def tidy_consts (s : List UInt32) : Bool :=
  tidy_pool read_const tidy_const s &&
    after (pool read_const) (fun rows _ => decide rows.Nodup) s

def ConstPool.Interned (pool : ConstPool) : Prop :=
  pool.rows.Nodup ∧ pool.rows.length < 2 ^ 32

/-- What `read_consts` makes of the rows it read. -/
def intern_all (rows : List ConstValue) (pool : ConstPool) : ConstPool :=
  rows.foldl (fun consts v => (consts.intern v).2) pool

theorem intern_rows (pool : ConstPool) (v : ConstValue) :
    (pool.intern v).2.rows = if v ∈ pool.rows then pool.rows else pool.rows ++ [v] := by
  rw [ConstPool.intern]
  cases h : pool.rows.findIdx? fun r => r = v with
  | none =>
    have hv : v ∉ pool.rows := fun hmem => by simpa using findIdx?_eq_none_iff.mp h v hmem
    simp [hv]
  | some i =>
    obtain ⟨hi, hv, -⟩ := findIdx?_eq_some_iff_getElem.mp h
    have hmem : v ∈ pool.rows := by
      rw [← of_decide_eq_true hv]
      exact getElem_mem hi
    simp [hmem]

/-- Interning keeps the first copy of each constant. -/
theorem intern_all_rows (rows : List ConstValue) (pool : ConstPool) (hpool : pool.rows.Nodup) :
    ∃ kept, kept.Sublist rows ∧ (intern_all rows pool).rows = pool.rows ++ kept ∧
      (pool.rows ++ kept).Nodup ∧ ((pool.rows ++ rows).Nodup → kept = rows) := by
  induction rows generalizing pool with
  | nil => exact ⟨[], .slnil, by simp [intern_all], by simpa using hpool, fun _ => rfl⟩
  | cons v rows ih =>
    have hrows := intern_rows pool v
    by_cases hv : v ∈ pool.rows
    · rw [if_pos hv] at hrows
      obtain ⟨kept, hsub, heq, hnodup, -⟩ := ih (pool.intern v).2 (by rwa [hrows])
      refine ⟨kept, hsub.cons v, by rw [← hrows]; exact heq, by rwa [hrows] at hnodup, ?_⟩
      intro hall
      exact absurd hv (by simp [nodup_append] at hall; grind)
    · rw [if_neg hv] at hrows
      have hnext : (pool.intern v).2.rows.Nodup := by
        rw [hrows]
        simp [nodup_append, hpool]
        grind
      obtain ⟨kept, hsub, heq, hnodup, hkept⟩ := ih (pool.intern v).2 hnext
      rw [hrows] at hnodup hkept heq
      refine ⟨v :: kept, hsub.cons_cons v, by simpa [intern_all] using heq, by simpa using hnodup, ?_⟩
      intro hall
      rw [hkept (by simpa using hall)]

theorem length_write_const (v : ConstValue) : (write_const v).length = 3 := by
  cases v <;> rfl

/-- Constants round-trip; a repeated one is written once only. -/
theorem consts_lawful :
    Lawful write_consts read_consts tidy_consts (fun _ => True) ConstPool.Interned := by
  have hrows := pool_lawful const_plain fun _ => id
  have read_ok : ∀ {pool : ConstPool} {s rest : List UInt32}, read_consts s = .ok (pool, rest) ↔
      ∃ rows, Reader.pool read_const s = .ok (rows, rest) ∧ intern_all rows .new = pool := by
    intro pool s rest
    simp only [read_consts, intern_all, bind_ok, pure_ok]
    constructor
    · rintro ⟨rows, _, hread, rfl, rfl⟩
      exact ⟨rows, hread, rfl⟩
    · rintro ⟨rows, hread, rfl⟩
      exact ⟨rows, rest, hread, rfl, rfl⟩
  have interned : ∀ {rows : List ConstValue}, rows.Nodup → intern_all rows .new = ⟨rows⟩ := by
    intro rows hnodup
    obtain ⟨kept, -, heq, -, hkept⟩ := intern_all_rows rows .new nodup_nil
    obtain rfl := hkept (by simpa [ConstPool.new] using hnodup)
    change _ = [] ++ kept at heq
    rw [nil_append] at heq
    exact congrArg ConstPool.mk heq
  refine ⟨?_, fun _ => trivial, ?_, ?_, ?_⟩
  · rintro ⟨rows⟩ ⟨hnodup, hlen⟩ rest
    exact read_ok.mpr ⟨rows, hrows.read_write ⟨hlen, fun _ _ => trivial⟩ rest, interned hnodup⟩
  · intro s pool rest hr hs
    obtain ⟨rows, hread, rfl⟩ := read_ok.mp hr
    simp only [tidy_consts, after, hread, Bool.and_eq_true, decide_eq_true_eq] at hs
    rw [ConstPool.Interned, interned hs.2]
    exact ⟨hs.2, (hrows.sound_of_read hread).1⟩
  · intro s pool rest hr
    obtain ⟨rows, hread, rfl⟩ := read_ok.mp hr
    obtain ⟨c, rfl, hc⟩ := hrows.split hread
    obtain ⟨kept, hsub, heq, -, -⟩ := intern_all_rows rows .new nodup_nil
    have := hsub.length_le
    refine ⟨c, rfl, ?_⟩
    rw [write_consts, heq, length_write_pool length_write_const]
    rw [length_write_pool length_write_const] at hc
    simp only [ConstPool.new, nil_append]
    omega
  · intro s pool rest hr
    obtain ⟨rows, hread, rfl⟩ := read_ok.mp hr
    simp only [tidy_consts, after, hread, Bool.and_eq_true, decide_eq_true_eq,
      hrows.strict_iff hread]
    constructor
    · rintro ⟨hs, hnodup⟩
      rw [hs, write_consts, interned hnodup]
    · intro hs
      obtain ⟨c, hc, hlen⟩ := hrows.split hread
      rw [hs, append_cancel_right_eq] at hc
      obtain ⟨kept, hsub, heq, hnodup, -⟩ := intern_all_rows rows .new nodup_nil
      change _ = [] ++ kept at heq
      change ([] ++ kept).Nodup at hnodup
      rw [nil_append] at heq hnodup
      rw [← hc, write_consts, heq, length_write_pool length_write_const,
        length_write_pool length_write_const] at hlen
      obtain rfl := hsub.eq_of_length_le (by omega)
      exact ⟨by rw [hs, write_consts, heq], hnodup⟩

end Fors.Fmir
