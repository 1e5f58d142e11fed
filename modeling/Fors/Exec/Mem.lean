import Fors.Fmir.Decl
import Fors.Lib.Words

/-!
# Memory of the interpreter

Slots, allocation objects, arenas with their generations, provenance rows and borrow stacks.  A
pointer is a slot whose `prov` names a provenance row; an arena `Ref` packs its generation and its
offset into the slot's bits.  The counters of a row are `u32`; they are kept as naturals and cut
where the source casts.

Sources: `crates/fors-interp/src/mem.rs`, `crates/fors-interp/src/ub.rs`,
`crates/fors-interp/src/value.rs`, `crates/fors-interp/src/exec.rs`.
-/

namespace Fors.Exec

open Fors.Fmir

open Words (as_u32)

def U32_MAX : Nat := 0xFFFFFFFF

/-- `a.saturating_add(b)` on `u32`. -/
def saturating_add (a b : Nat) : Nat :=
  min (a + b) U32_MAX

/-! ## Slots -/

def PROV_NONE : Nat := 0

/-- A scalar slot. -/
structure Slot where
  bits : UInt64
  prov : Nat
  init : Bool
  live : Bool
  secret : Bool
  deriving DecidableEq

namespace Slot

/-- An initialised, non-secret scalar with the given bit pattern. -/
def val (bits : UInt64) : Slot :=
  ⟨bits, PROV_NONE, true, true, false⟩

def ptr (bits : UInt64) (prov : Nat) : Slot :=
  ⟨bits, prov, true, true, false⟩

/-- The same slot with its `live` bit cleared. -/
def moved_out (s : Slot) : Slot :=
  { s with live := false }

def unit : Slot := val 0

/-- An uninitialised slot. -/
def uninit : Slot :=
  ⟨0, PROV_NONE, false, true, false⟩

end Slot

/-! ## Allocation objects -/

/-- An allocator is the brand of the scope it was introduced by. -/
abbrev AllocatorId := BrandId

/-- One arena's identity: its index in the machine's table. -/
abbrev ArenaId := Nat

/-- One allocation object's identity: its index in the machine's table. -/
abbrev AllocId := Nat

inductive AllocKind where
  | Stack
  | Heap (owner : AllocatorId)
  | Arena (arena : ArenaId)
  | Static
  | Capability
  deriving DecidableEq, Repr

inductive AllocState where
  | Live
  | Freed (site : SiteId)
  | Reset (site : SiteId)
  deriving DecidableEq

/-- The initialisation map: one bit a byte. -/
abbrev InitMap := List Bool

namespace InitMap

def zeros (len : Nat) : InitMap :=
  List.replicate len false

def get (map : InitMap) (i : Nat) : Bool :=
  map.getD i false

def grow_to (map : InitMap) (len : Nat) : InitMap :=
  map ++ List.replicate (len - map.length) false

/-- Sets the bits of `start .. start + len` that the map has. -/
def set_range (map : InitMap) (start len : Nat) (value : Bool) : InitMap :=
  map.zipIdx.map fun (b, i) => if start ≤ i ∧ i < saturating_add start len then value else b

/-- Is every byte of `start .. start + len` initialised? -/
def all_set (map : InitMap) (start len : Nat) : Bool :=
  (List.range (saturating_add start len - start)).all fun k => get map (start + k)

end InitMap

structure Alloc where
  bytes : List UInt8
  init : InitMap
  /-- The provenance stored at an offset. -/
  prov : Nat → Option Nat
  kind : AllocKind
  generation : Nat
  state : AllocState
  align : Nat

namespace Alloc

def new (size align : Nat) (kind : AllocKind) (generation : Nat) : Alloc where
  bytes := List.replicate size 0
  init := InitMap.zeros size
  prov _ := none
  kind := kind
  generation := generation
  state := .Live
  align := align

def size (a : Alloc) : Nat :=
  as_u32 a.bytes.length

/-- Grows the object; the new bytes are uninitialised. -/
def grow_to (a : Alloc) (size : Nat) : Alloc :=
  if size > a.size then
    { a with
      bytes := a.bytes ++ List.replicate (size - a.bytes.length) 0
      init := a.init.grow_to size }
  else a

/-- Forgets every byte and every stored provenance. -/
def forget (a : Alloc) : Alloc :=
  { a with
    init := a.init.set_range 0 a.init.length false
    prov := fun _ => none
    bytes := a.bytes.map fun _ => 0 }

end Alloc

/-! ## Arenas -/

structure ArenaVal where
  id : ArenaId
  generation : Nat
  bump : Nat
  cap : Nat
  data : AllocId
  deriving DecidableEq

/-- A counter at its largest value traps instead of wrapping. -/
def next_generation (generation : Nat) : Except TrapKind Nat :=
  if generation = U32_MAX then .error .ArenaGeneration else .ok (generation + 1)

namespace ArenaVal

def new (id : ArenaId) (data : AllocId) (cap : Nat) : ArenaVal :=
  ⟨id, 0, 0, cap, data⟩

def reset (a : ArenaVal) : Except TrapKind ArenaVal := do
  let generation ← next_generation a.generation
  return { a with generation := generation, bump := 0 }

end ArenaVal

namespace RefVal

/-- The `(generation, off)` half of a `Ref`, as a slot's bits. -/
def pack (generation off : Nat) : UInt64 :=
  UInt64.ofNat (generation * 2 ^ 32 + off)

def unpack (bits : UInt64) : Nat × Nat :=
  (bits.toNat / 2 ^ 32, as_u32 bits.toNat)

end RefVal

/-! ## Provenance -/

/-- What a pointer points into. -/
inductive MemTarget where
  | Alloc (id : AllocId)
  /-- A local slot; `serial` tells the activation, for a frame index is used again. -/
  | Root (frame serial root : Nat)
  | Arena (arena : ArenaId) (data : AllocId)
  deriving DecidableEq

structure ProvRow where
  target : MemTarget
  tag : Nat
  deriving DecidableEq

/-! ## Borrow stacks -/

inductive UbClass where
  | UseAfterMove | DoubleConsume | LinearLeak | UninitRead | Aliasing | ScopeEscape | UseAfterFree
  | AllocatorMismatch | UncheckedOverflow
  deriving DecidableEq

/-- What an access through a tag does to the stack. -/
inductive Access where
  | Read | Write
  deriving DecidableEq

/-- One item of a borrow stack. -/
inductive BorrowItem where
  | Unique (tag : Nat)
  | SharedRo (group : List Nat)
  deriving DecidableEq

namespace BorrowItem

def holds (tag : Nat) : BorrowItem → Bool
  | Unique t => t = tag
  | SharedRo group => group.contains tag

def is_shared : BorrowItem → Bool
  | Unique _ => false
  | SharedRo _ => true

end BorrowItem

/-- The items of a stack, the top one first. -/
structure BorrowStack where
  items : List BorrowItem
  deriving DecidableEq

namespace BorrowStack

/-- A fresh stack owning `tag`. -/
def rooted (tag : Nat) : BorrowStack :=
  ⟨[.Unique tag]⟩

/-- A new unique tag pops the shared groups on top. -/
def push_unique (s : BorrowStack) (tag : Nat) : BorrowStack :=
  ⟨.Unique tag :: s.items.dropWhile BorrowItem.is_shared⟩

/-- Joins the group on top, or opens one. -/
def push_shared (s : BorrowStack) (tag : Nat) : BorrowStack :=
  match s.items with
  | .SharedRo group :: rest => ⟨.SharedRo (group ++ [tag]) :: rest⟩
  | items => ⟨.SharedRo [tag] :: items⟩

/-- `none` is a violation. A write through a unique item pops what lies above it. -/
def access (s : BorrowStack) (tag : Nat) (how : Access) : Option BorrowStack :=
  match s.items.dropWhile fun item => !item.holds tag with
  | [] => none
  | item :: rest =>
    match how with
    | .Read => some s
    | .Write => if item.is_shared then none else some ⟨item :: rest⟩

end BorrowStack

inductive BorrowKey where
  | Root (frame root : Nat)
  | Alloc (id : AllocId)
  deriving DecidableEq

end Fors.Exec
