import Fors.Exec.Machine

/-!
# Instructions

Where a pointer leads, and the reads and writes of a place.  The generation check of a `Ref` and the
liveness check of a plain pointer are made on resolving it.

The instructions that own memory, regions and frames have one definition each; every other one
computes its value in the engine.

Source: `crates/fors-interp/src/exec.rs`.
-/

namespace Fors.Exec.Machine

open Fors.Fmir

open Words (as_u32)

variable {σ : Type} (m : Machine σ)

/-! ## Pointers -/

/-- What a dereference needs: the object, the offset and the borrow tag. -/
structure Deref where
  key : BorrowKey
  alloc : Option AllocId
  off : Nat
  tag : Nat

/-- A use of a freed object is a report; of an arena's retired one, a trap. -/
def check_alloc_live (inst : UInt32) (site : SiteId) (id : AllocId) : Result Unit :=
  match (m.allocs[id]?).map Alloc.state with
  | some .Live => .ok ()
  | some (.Freed _) =>
    .error (m.ub inst site .UseAfterFree s!"allocation {id} was freed before this access")
  | some (.Reset _) => .error (.Trap .ArenaGeneration)
  | none => mismatch "dangling allocation"

def check_arena_live (data : AllocId) : Result Unit :=
  match (m.allocs[data]?).map Alloc.state with
  | some .Live => .ok ()
  | some _ => .error (.Trap .ArenaGeneration)
  | none => mismatch "dangling arena allocation"

def resolve_deref (inst : UInt32) (site : SiteId) (ptr : Slot) : Result Deref := do
  let prov ← m.prov_of ptr
  match prov.target with
  | .Root frame serial root =>
    if ((m.frame frame).any fun f => f.serial = serial) = false then
      .error (m.ub inst site .UseAfterFree (s!"a pointer to local slot {root} of a frame that has " ++
        s!"returned (activation {serial})"))
    else .ok ⟨.Root frame root, none, 0, prov.tag⟩
  | .Alloc id => do
    m.check_alloc_live inst site id
    return ⟨.Alloc id, some id, as_u32 ptr.bits.toNat, prov.tag⟩
  | .Arena arena data =>
    let (generation, off) := RefVal.unpack ptr.bits
    match m.arenas[arena]? with
    | none => mismatch "dangling arena"
    | some live =>
      if live.generation ≠ generation then .error (.Trap .ArenaGeneration)
      else if (m.allocs[data]?).map Alloc.state ≠ some .Live then .error (.Trap .ArenaGeneration)
      else .ok ⟨.Alloc data, some data, off, prov.tag⟩

/-- The `width` bytes at `off`, the lowest first. -/
def read_bits (bytes : List UInt8) (off width : Nat) : UInt64 :=
  (List.range width).foldl (fun bits i =>
    bits ||| (bytes.getD (off + i) 0).toUInt64 <<< UInt64.ofNat (8 * i)) 0

def write_bits (bytes : List UInt8) (off width : Nat) (bits : UInt64) : List UInt8 :=
  (List.range width).foldl (fun bytes i =>
    bytes.set (off + i) (bits >>> UInt64.ofNat (8 * i)).toUInt8) bytes

def lift {α : Type} : Except InterpError α → Result α
  | .ok a => .ok a
  | .error e => .error (.Error e)

/-- The read of `*p`, for `p` the pointer in local slot `root`. -/
def read_ptr (e : Engine σ) (inst : UInt32) (site : SiteId) (root : Nat) (ty : TyId) (ptr : Slot) :
    Result (Slot × Machine σ) := do
  let d ← m.resolve_deref inst site ptr
  match m.borrow_access d.key d.tag .Read with
  | none => .error (m.ub inst site .Aliasing
      s!"a read through a borrow of local slot {root} that is no longer live")
  | some m =>
    match d.alloc with
    | none =>
      match (← m.prov_of ptr).target with
      | .Root frame _ r =>
        let s := ((m.frame frame).bind fun f => f.roots[r]?).getD Slot.uninit
        if s.live = false then
          .error (m.ub inst site .UseAfterMove
            s!"a read through a pointer to local slot {r}, which was moved out of")
        else if s.init = false then
          .error (m.ub inst site .UninitRead
            s!"a read through a pointer to local slot {r}, which is uninitialised")
        else .ok (s, m)
      | _ => .error .Panic
    | some id => do
      let width ← lift (e.scalar_width ty)
      match m.allocs[id]? with
      | none => .error .Panic
      | some alloc =>
        if saturating_add d.off width > alloc.size then .error (.Trap .Bounds)
        else if alloc.init.all_set d.off width = false then
          .error (m.ub inst site .UninitRead (s!"a read of {width} bytes at offset {d.off} of " ++
            s!"allocation {id}, which are uninitialised"))
        else
          .ok (.ptr (read_bits alloc.bytes d.off width) ((alloc.prov d.off).getD PROV_NONE), m)

def read_through (e : Engine σ) (inst : UInt32) (site : SiteId) (root : Nat) (ty : TyId) :
    Result (Slot × Machine σ) := do
  let ptr ← m.root_slot inst site root
  m.read_ptr e inst site root ty ptr

/-- The object after a store of `width` bytes. -/
def store (alloc : Alloc) (off width : Nat) (v : Slot) : Alloc :=
  { alloc with
    bytes := write_bits alloc.bytes off width v.bits
    init := alloc.init.set_range off width true
    prov := fun o =>
      if o = off then if v.prov = PROV_NONE then none else some v.prov else alloc.prov o }

/-- The write of `*p = v`, for `p` the pointer in local slot `root`. -/
def write_ptr (e : Engine σ) (inst : UInt32) (site : SiteId) (root : Nat) (ty : TyId) (ptr v : Slot) :
    Result (Machine σ) := do
  let d ← m.resolve_deref inst site ptr
  match m.borrow_access d.key d.tag .Write with
  | none => .error (m.ub inst site .Aliasing
      s!"a write through a borrow of local slot {root} that does not permit it")
  | some m =>
    match d.alloc with
    | none =>
      match (← m.prov_of ptr).target with
      | .Root frame _ r =>
        match m.frame frame with
        | none => mismatch "dangling frame"
        | some f => .ok (m.set_frame frame (f.set_root r v))
      | _ => .error .Panic
    | some id => do
      let width ← lift (e.scalar_width ty)
      match m.allocs[id]? with
      | none => .error .Panic
      | some alloc =>
        if saturating_add d.off width > alloc.size then .error (.Trap .Bounds)
        else .ok { m with allocs := m.allocs.set id (store alloc d.off width v) }

def write_through (e : Engine σ) (inst : UInt32) (site : SiteId) (root : Nat) (ty : TyId) (v : Slot) :
    Result (Machine σ) := do
  let ptr ← m.root_slot inst site root
  m.write_ptr e inst site root ty ptr v

/-! ## Places -/

/-- Reads a place. -/
def read_place (e : Engine σ) (inst : UInt32) (site : SiteId) (raw : UInt32) :
    Result (Slot × Machine σ) := do
  let (root, segs, ty) ← m.place_shape raw
  match segs with
  | [.Deref] => m.read_through e inst site root ty
  | [] => do
    let base ← m.root_slot inst site root
    return (base, m)
  | segs => do
    let base ← m.root_slot inst site root
    let s ← e.read_cells m inst base segs
    return (s, m)

/-- A write to the binding itself pops every borrow of it. -/
def own_write (root : Nat) : Machine σ :=
  (m.borrow_access (.Root m.fr root) ROOT_TAG .Write).getD m

def write_place (e : Engine σ) (inst : UInt32) (site : SiteId) (raw : UInt32) (v : Slot) :
    Result (Machine σ) := do
  let (root, segs, ty) ← m.place_shape raw
  match segs with
  | [.Deref] => m.write_through e inst site root ty v
  | [] =>
    let m := m.own_write root
    return { m with top := m.top.set_root root v }
  | segs => do
    let m := m.own_write root
    let base ← m.root_slot inst site root
    let rest ← e.write_cells m inst base segs v
    return { m with rest := rest }

/-! ## Borrows -/

/-- `borrow`, `borrow_mut` and `borrow_out` of a whole local. -/
def borrow (op : Op) (raw : UInt32) : Result (Slot × Machine σ) := do
  let (root, segs, _) ← m.place_shape raw
  if segs ≠ [] then
    mismatch "a borrow of a projected place needs sub-range borrow stacks (F7/M2)"
  else
    let key := BorrowKey.Root m.fr root
    let (tag, m) := m.fresh_tag
    let stack := m.borrow_stack key
    let m := m.set_borrow key
      (if op = .Borrow then stack.push_shared tag else stack.push_unique tag)
    let m := if op = .BorrowOut then { m with top := m.top.set_root root .uninit } else m
    let (prov, m) := m.push_prov (.Root m.fr m.top.serial root) tag
    return (.ptr 0 prov, m)

/-- The value of a place that is moved from. -/
def move_from (e : Engine σ) (inst : UInt32) (site : SiteId) (raw : UInt32) :
    Result (Slot × Machine σ) := do
  let (s, m) ← m.read_place e inst site raw
  let (root, segs, _) ← m.place_shape raw
  if segs = [] then
    return (s, { m with top := { m.top with roots := m.top.roots.modify root Slot.moved_out } })
  else return (s, m)

/-! ## Heap objects -/

/-- A new object with a borrow stack and a tag of its own. -/
def push_alloc (alloc : Alloc) : AllocId × Nat × Machine σ :=
  let id := as_u32 m.allocs.length
  let m := { m with allocs := m.allocs ++ [alloc] }
  let (tag, m) := m.fresh_tag
  (id, tag, m.set_borrow (.Alloc id) (.rooted tag))

def alloc (size align : Slot) : Slot × Machine σ :=
  let owner := m.allocator_at m.top.block
  let (id, tag, m) := m.push_alloc (.new (as_u32 size.bits.toNat)
    (max (as_u32 align.bits.toNat) 1) (.Heap owner) 0)
  let (prov, m) := m.push_prov (.Alloc id) tag
  (.ptr 0 prov, m)

def set_state (id : AllocId) (state : AllocState) : Machine σ :=
  { m with allocs := m.allocs.modify id fun a => { a with state := state } }

def free (inst : UInt32) (site : SiteId) (ptr : Slot) : Result (Machine σ) := do
  let prov ← m.prov_of ptr
  match prov.target with
  | .Alloc id => do
    m.check_alloc_live inst site id
    let freeing := m.allocator_at m.top.block
    match (m.allocs[id]?).map Alloc.kind with
    | none => .error .Panic
    | some owner =>
      if owner = .Heap freeing then return m.set_state id (.Freed site)
      else .error (m.ub inst site .AllocatorMismatch (s!"allocation {id} was produced by " ++
        s!"{reprStr owner} but is freed by allocator brand {freeing}"))
  | _ => .error (m.ub inst site .AllocatorMismatch
      "`free` of a pointer that no allocator produced")

/-! ## Regions and arenas -/

/-- A `with arena` block's fresh arena, and its handle. -/
def enter_arena (region : RegionId) : Slot × Machine σ :=
  let arena := as_u32 m.arenas.length
  let (data, tag, m) := m.push_alloc (.new 0 16 (.Arena arena) 0)
  let m := { m with
    arenas := m.arenas ++ [ArenaVal.new arena data (2 ^ 64 - 1)]
    arena_region := m.arena_region ++ [region] }
  let (prov, m) := m.push_prov (.Arena arena data) tag
  (.ptr 0 prov, m)

def region_kind (region : RegionId) : Option RegionKind :=
  (m.top.decl.regions.rows[region.toNat]?).map RegionRow.kind

def region_enter (region : RegionId) : Result (Slot × Machine σ) :=
  match m.region_kind region with
  | some .WithArena => .ok (m.enter_arena region)
  | some _ => .ok (.unit, m)
  | none => mismatch "region_enter names no region row"

def is_live (id : AllocId) : Bool :=
  (m.allocs[id]?).map Alloc.state = some .Live

/-- The newest live arena of a region. -/
def live_arena (region : RegionId) : Option ArenaVal :=
  ((m.arenas.zip m.arena_region).reverse.find? fun (a, r) => r = region && m.is_live a.data).map
    Prod.fst

/-- Leaving a `with arena` block retires its arena. -/
def region_exit (site : SiteId) (region : RegionId) : Result (Machine σ) :=
  if m.region_kind region = some .WithArena then
    match m.live_arena region with
    | none => mismatch s!"region_exit of arena region {region} with no live arena entered by it"
    | some a => .ok (m.set_state a.data (.Reset site))
  else .ok m

def set_arena (arena : ArenaId) (a : ArenaVal) : Machine σ :=
  { m with arenas := m.arenas.set arena a }

def arena_alloc (handle size : Slot) : Result (Slot × Machine σ) := do
  let size := as_u32 size.bits.toNat
  let prov ← m.prov_of handle
  match prov.target with
  | .Arena arena data => do
    m.check_arena_live data
    match m.arenas[arena]? with
    | none => .error .Panic
    | some a =>
      let stop := a.bump + size
      if stop ≥ 2 ^ 32 then
        .error (.Error (.Unrepresentable (s!"arena {arena} would reach offset {stop}, past the " ++
          "u32 a `RefVal` offset holds")))
      else
        let off := stop - size
        let m := m.set_arena arena { a with bump := stop }
        let m := { m with allocs := m.allocs.modify data fun o => o.grow_to stop }
        let (prov, m) := m.push_prov (.Arena arena data) prov.tag
        return (.ptr (RefVal.pack a.generation off) prov, m)
  | _ => mismatch "arena_alloc on a non-arena value"

def arena_deref (inst : UInt32) (site : SiteId) (r : Slot) : Result (Slot × Machine σ) := do
  let d ← m.resolve_deref inst site r
  match d.alloc with
  | none => mismatch "arena_deref on a local"
  | some alloc =>
    let (prov, m) := m.push_prov (.Alloc alloc) d.tag
    return (.ptr (UInt64.ofNat d.off) prov, m)

def arena_reset (handle : Slot) : Result (Machine σ) := do
  let prov ← m.prov_of handle
  match prov.target with
  | .Arena arena data => do
    m.check_arena_live data
    match m.arenas[arena]? with
    | none => .error .Panic
    | some a =>
      match a.reset with
      | .error kind => .error (.Trap kind)
      | .ok a =>
        let m := m.set_arena arena a
        return { m with allocs := m.allocs.modify data Alloc.forget }
  | _ => mismatch "arena_reset on a non-arena value"

/-! ## Calls -/

/-- The parameters of a function, by ordinal. -/
def params (decl : DeclFmir) : List (UInt16 × ValId) :=
  ((all_rows decl.vals.rows).filterMap fun (id, row) =>
    match ValDef.decode row.def_ with
    | .Param o => some (o, id)
    | .Inst _ => none).mergeSort fun x y => x.1 < y.1 ∨ (x.1 = y.1 ∧ x.2 ≤ y.2)

/-- A frame that is about to run `func`. -/
def new_frame (func : ProgFn) (dest : Option ValId) (args : List Slot) (serial : Nat) : Frame where
  func := func
  serial := serial
  vals := (params func.decl).zipIdx.foldl (fun vals ((_, id), i) =>
    vals.set id.toNat (args.getD i .unit)) (List.replicate func.decl.vals.rows.length .uninit)
  roots := (List.range (params func.decl).length).map fun i => args.getD i .unit
  block := func.decl.entry
  pc := 0
  exits := []
  raised := false
  raise_ty := ABSENT
  dest := dest

def call (func : ProgFn) (dest : Option ValId) (args : List Slot) : Result (Machine σ) :=
  if m.fr + 1 ≥ MAX_FRAMES then .error (.Error .StackOverflow)
  else .ok { m with
    top := new_frame func dest args m.next_serial
    below := m.top :: m.below
    next_serial := m.next_serial + 1 }

def call_direct (p : Program) (inst : UInt32) (dest : Option ValId) (a : UInt32) :
    Result (Machine σ) := do
  match m.top.decl.insts.calls[a.toNat]? with
  | none => mismatch "call names no call row"
  | some row =>
    match row.callee with
    | .Direct key => do
      let args ← (m.top.decl.insts.args row.args).mapM fun v => m.slot inst v
      match p.fns.find? fun f => f.decl.decl = key with
      | none => .error (.Error (.UnknownCallee key))
      | some func => m.call func dest args
    | _ => mismatch "call_direct without key"

/-! ## Dispatch -/

/-- Defines a value. -/
def defines (dest : Option ValId) : Slot × Machine σ → Result (Machine σ)
  | (s, m) => .ok (m.define_dest dest s)

def exec_inst (p : Program) (e : Engine σ) (inst : UInt32) (row : InstRow) : Result (Machine σ) :=
  let dest := m.result_of inst
  match row.op with
  | .CopyFrom => do defines dest (← m.read_place e inst row.site row.a)
  | .MoveFrom => do defines dest (← m.move_from e inst row.site row.a)
  | .Borrow | .BorrowMut | .BorrowOut => do defines dest (← m.borrow row.op row.a)
  | .Init => do
    let v ← m.val_operand inst row.site row.b
    m.write_place e inst row.site row.a v
  | .Alloc => do
    let size ← m.val_operand inst row.site row.a
    let align ← m.val_operand inst row.site row.b
    defines dest (m.alloc size align)
  | .Free => do
    let ptr ← m.val_operand inst row.site row.a
    defines dest (.unit, ← m.free inst row.site ptr)
  | .RegionEnter => do defines dest (← m.region_enter row.a)
  | .RegionExit => do defines dest (.unit, ← m.region_exit row.site row.a)
  | .ArenaAlloc => do
    let handle ← m.val_operand inst row.site row.a
    let size ← m.val_operand inst row.site row.b
    defines dest (← m.arena_alloc handle size)
  | .ArenaDeref => do
    let r ← m.val_operand inst row.site row.a
    defines dest (← m.arena_deref inst row.site r)
  | .ArenaReset => do
    let handle ← m.val_operand inst row.site row.a
    defines dest (.unit, ← m.arena_reset handle)
  | .CallDirect => m.call_direct p inst dest row.a
  | _ => do
    let (s, steps, rest) ← e.value m inst row
    let m ← lift (m.charge steps)
    defines dest (s, { m with rest := rest })

end Fors.Exec.Machine
