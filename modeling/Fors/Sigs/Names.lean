import Fors.Ty.Store

/-!
# Names and declaration keys

Symbols, module paths and declaration keys are interned, and `DefKeys` maps the row numbers of a
build to the keys. The cons tables behind the pools are lists here: a lookup in one finds an entry
exactly where it is in its pool.

Principal result: `DefKeys.Paired.bind`.
-/

namespace Fors.Sigs

open List hiding getElem?_eq_some_iff
open Fors.Ty

open Words (as_u32)

abbrev Bytes := List UInt8
abbrev ModulePathId := Nat

def NO_DECL_KEY : DeclKeyId := 2 ^ 32 - 1
def NO_DEF : DefId := 2 ^ 32 - 1

/-! ## Interner -/

structure Interner where
  strings : List Bytes
  deriving DecidableEq

namespace Interner

def new : Interner := ⟨[]⟩

def intern (n : Interner) (bytes : Bytes) : Interner × Symbol :=
  match n.strings.idxOf? bytes with
  | some i => (n, as_u32 i)
  | none => (⟨n.strings ++ [bytes]⟩, as_u32 n.strings.length)

/-- `resolve`, which panics on a symbol of another interner. -/
def resolve (n : Interner) (sym : Symbol) : Option Bytes :=
  n.strings[sym]?

end Interner

/-! ## Declaration keys -/

inductive DeclKind where
  | Fn | ExternFn | Struct | Enum | Trait | Impl | Const | Use | ModuleHeader | Needs | Inputs
  | Contracts
  deriving DecidableEq

/-- `kind as u8`. -/
def DeclKind.as_u8 (k : DeclKind) : UInt8 := UInt8.ofNat k.ctorIdx

structure DeclKey where
  parent : DeclKeyId
  module : ModulePathId
  kind : DeclKind
  name : Option Symbol
  disamb : UInt32
  deriving DecidableEq

/-- The rows of the key table, with the module paths they refer to. -/
structure DeclKeyTable where
  rows : List DeclKey
  paths : List (List Symbol)
  deriving DecidableEq

namespace DeclKeyTable

/-- The root path is interned first. -/
def new : DeclKeyTable := ⟨[], [[]]⟩

/-- `paths.intern`. A path's length is stored as a `u16`, so of a longer path a part is read
back. -/
def intern_path (t : DeclKeyTable) (segments : List Symbol) : DeclKeyTable × ModulePathId :=
  match t.paths.idxOf? segments with
  | some i => (t, as_u32 i)
  | none => ({ t with paths := t.paths ++ [segments.take (segments.length % 2 ^ 16)] },
      as_u32 t.paths.length)

def intern (t : DeclKeyTable) (key : DeclKey) : DeclKeyTable × DeclKeyId :=
  match t.rows.idxOf? key with
  | some i => (t, as_u32 i)
  | none => ({ t with rows := t.rows ++ [key] }, as_u32 t.rows.length)

def segments (t : DeclKeyTable) (id : ModulePathId) : Option (List Symbol) :=
  t.paths[id]?

def parent_of (t : DeclKeyTable) (id : DeclKeyId) : Option DeclKeyId :=
  (t.rows[id]?).map DeclKey.parent

end DeclKeyTable

/-! ## Row numbers -/

structure DefKeys where
  key : List DeclKeyId
  /-- `def`. -/
  defs : List DefId
  deriving DecidableEq

/-- `Vec::resize`, where it grows. -/
def resize {α : Type} (xs : List α) (n : Nat) (x : α) : List α :=
  xs ++ List.replicate (n - xs.length) x

namespace DefKeys

def new : DefKeys := ⟨[], []⟩

def bind (d : DefKeys) (def_ : DefId) (key : DeclKeyId) : DefKeys where
  key := (resize d.key (def_ + 1) NO_DECL_KEY).set def_ key
  defs := (resize d.defs (key + 1) NO_DEF).set key def_

def key_of (d : DefKeys) (def_ : DefId) : DeclKeyId :=
  (d.key[def_]?).getD NO_DECL_KEY

def def_of (d : DefKeys) (key : DeclKeyId) : DefId :=
  (d.defs[key]?).getD NO_DEF

/-- A row number and its key have each other, and the row numbers are below `n`. -/
structure Paired (d : DefKeys) (n : Nat) : Prop where
  back : ∀ i k, d.key[i]? = some k → k ≠ NO_DECL_KEY → d.defs[k]? = some i
  forth : ∀ k i, d.defs[k]? = some i → i ≠ NO_DEF → d.key[i]? = some k
  rows : d.key.length ≤ n

variable {d : DefKeys} {n : Nat} {i j : DefId} {k : DeclKeyId}

theorem key_of_eq (hk : k ≠ NO_DECL_KEY) : d.key_of i = k ↔ d.key[i]? = some k := by
  rw [key_of]
  cases h : d.key[i]? with
  | none => simp [hk.symm]
  | some _ => simp

theorem Paired.key_of_inj (h : d.Paired n) (hi : d.key_of i ≠ NO_DECL_KEY)
    (hij : d.key_of i = d.key_of j) : i = j := by
  have hki := h.back i _ ((key_of_eq hi).mp rfl) hi
  have hkj := h.back j _ ((key_of_eq hi).mp hij.symm) hi
  exact Option.some.inj (hki.symm.trans hkj)

theorem getElem?_resize {α : Type} (xs : List α) (m : Nat) (x : α) (i : Nat) :
    (resize xs m x)[i]? = if i < xs.length then xs[i]? else if i < m then some x else none := by
  rw [resize, getElem?_append]
  split
  · rfl
  · rename_i hi
    rw [getElem?_replicate]
    by_cases him : i < m
    · rw [if_pos (by omega), if_pos him]
    · rw [if_neg (by omega), if_neg him]

theorem length_resize {α : Type} (xs : List α) (m : Nat) (x : α) :
    (resize xs m x).length = max xs.length m := by
  rw [resize, length_append, length_replicate]
  omega

/-- Binding a new row number to a key that has none. -/
theorem Paired.bind (h : d.Paired n) (hn : n < NO_DEF) (hk : d.def_of k = NO_DEF) :
    (d.bind n k).Paired (n + 1) where
  back := by
    intro j k' hj hk'
    have hlen := h.rows
    rw [DefKeys.bind] at hj ⊢
    by_cases hji : j = n
    · subst hji
      rw [getElem?_set_self (by rw [length_resize]; omega)] at hj
      cases hj
      rw [getElem?_set_self (by rw [length_resize]; omega)]
    · rw [getElem?_set_ne (Ne.symm hji), getElem?_resize] at hj
      have hjlt : j < d.key.length := by
        by_contra hge
        rw [if_neg hge] at hj
        split at hj
        · exact hk' (Option.some.inj hj).symm
        · exact nomatch hj
      rw [if_pos hjlt] at hj
      have hback := h.back j k' hj hk'
      have hne : k' ≠ k := by
        rintro rfl
        rw [def_of, hback, Option.getD_some] at hk
        exact Nat.ne_of_lt (Nat.lt_of_lt_of_le hjlt (hlen.trans hn.le)) hk
      rw [getElem?_set_ne (Ne.symm hne), getElem?_resize,
        if_pos (List.getElem?_eq_some_iff.mp hback).1, hback]
  forth := by
    intro k' i hk' hi
    have hlen := h.rows
    rw [DefKeys.bind] at hk' ⊢
    by_cases hkk : k' = k
    · subst hkk
      rw [getElem?_set_self (by rw [length_resize]; omega)] at hk'
      cases hk'
      rw [getElem?_set_self (by rw [length_resize]; omega)]
    · rw [getElem?_set_ne (Ne.symm hkk), getElem?_resize] at hk'
      have hklt : k' < d.defs.length := by
        by_contra hge
        rw [if_neg hge] at hk'
        split at hk'
        · exact hi (Option.some.inj hk').symm
        · exact nomatch hk'
      rw [if_pos hklt] at hk'
      have hforth := h.forth k' i hk' hi
      have hilt := (List.getElem?_eq_some_iff.mp hforth).1
      have hne : i ≠ n := Nat.ne_of_lt (Nat.lt_of_lt_of_le hilt hlen)
      rw [getElem?_set_ne hne.symm, getElem?_resize, if_pos hilt, hforth]
  rows := by
    have := h.rows
    rw [DefKeys.bind, length_set, length_resize]
    omega

theorem Paired.mono {m : Nat} (h : d.Paired n) (hnm : n ≤ m) : d.Paired m :=
  ⟨h.back, h.forth, h.rows.trans hnm⟩

theorem paired_new : new.Paired 0 :=
  ⟨by simp [new], by simp [new], Nat.le_refl 0⟩

end DefKeys

end Fors.Sigs
