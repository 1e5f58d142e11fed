import Mathlib.Data.List.GetD
import Fors.Lib.Coverage
import Fors.Lib.Words
import Fors.Ty.Store

/-!
# Lowered patterns

Every pattern of a `match` becomes a node of one arena, over children that the arena already has.
The wildcard is node 0, and is shared. Ids and positions are cut to 32 bits where the source casts.

Source: `crates/fors-check/src/pat.rs`. Principal result: `PatStore.Built.wf`.
-/

namespace Fors.Check

open Trees Coverage List
open Ty (DefId)
open Words (as_u32 as_u32_eq)

abbrev PatId := Nat

/-- One constructor that a lowered pattern tests. A symbol is here the text that it stands for. -/
inductive Ctor where
  | Variant (d : DefId) (index : Nat)
  | Bool (b : Bool)
  | Tuple (arity : Nat)
  | Struct (d : DefId)
  | Int (n : Int)
  | Str (s : String)
  deriving DecidableEq

inductive PKind where
  | Wild
  | Ctor (c : Ctor)
  deriving DecidableEq

/-- The children of a node are a range of `sub_ids`, the column `subs` of the source. -/
structure PatStore where
  kind : List PKind
  sub_start : List Nat
  sub_len : List Nat
  sub_ids : List PatId
  wild_id : PatId
  node_count : Nat

namespace PatStore

def push (s : PatStore) (k : PKind) (subs : List PatId) : PatStore × PatId :=
  ({ s with
      kind := s.kind ++ [k]
      sub_start := s.sub_start ++ [as_u32 s.sub_ids.length]
      sub_len := s.sub_len ++ [as_u32 subs.length]
      sub_ids := s.sub_ids ++ subs }, as_u32 s.kind.length)

def new : PatStore :=
  let (s, id) := push ⟨[], [], [], [], 0, 0⟩ .Wild []
  { s with wild_id := id }

/-- Counts one more pattern node. -/
def touch (s : PatStore) : PatStore :=
  { s with node_count := s.node_count + 1 }

def pattern_node_count (s : PatStore) : Nat :=
  s.node_count

/-- The one cached wildcard node. -/
def wild (s : PatStore) : PatId :=
  s.wild_id

def ctor (s : PatStore) (c : Ctor) (subs : List PatId) : PatStore × PatId :=
  s.push (.Ctor c) subs

def ctor_of (s : PatStore) (id : PatId) : Option Ctor :=
  match s.kind[id]? with
  | some (.Ctor c) => some c
  | _ => none

def subs (s : PatStore) (id : PatId) : List PatId :=
  (s.sub_ids.drop (s.sub_start.getD id 0)).take (s.sub_len.getD id 0)

/-! ## Arenas -/

/-- There is an id for one more node, and its children end within 32 bits. -/
def HasRoom (s : PatStore) (subs : List PatId) : Prop :=
  s.kind.length < 2 ^ 32 ∧ s.sub_ids.length + subs.length < 2 ^ 32

/-- What the lowering of patterns builds, from the leaves up, as long as there is room. -/
inductive Built : PatStore → Prop
  | new : Built new
  | touch {s : PatStore} (h : Built s) : Built s.touch
  | ctor {s : PatStore} (h : Built s) (c : Ctor) (subs : List PatId) (hroom : s.HasRoom subs)
      (hsubs : ∀ p ∈ subs, p < s.kind.length) : Built (s.ctor c subs).1

def node (s : PatStore) (id : PatId) : Option Ctor × List PatId :=
  (s.ctor_of id, s.subs id)

/-- The pattern of a node. -/
def pat (s : PatStore) : PatId → Pat Ctor :=
  Trees.tree s.node

structure WF (s : PatStore) : Prop where
  starts : s.sub_start.length = s.kind.length
  lens : s.sub_len.length = s.kind.length
  ranges : ∀ id < s.kind.length, s.sub_start.getD id 0 + s.sub_len.getD id 0 ≤ s.sub_ids.length
  descends : Descends s.node s.kind.length
  wild_lt : s.wild < s.kind.length
  wild_ctor : s.ctor_of s.wild = none
  wild_subs : s.subs s.wild = []

variable {s : PatStore} {id : PatId}

theorem ctor_of_push (k : PKind) (subs : List PatId) (h : id < s.kind.length) :
    (s.push k subs).1.ctor_of id = s.ctor_of id := by
  simp [push, ctor_of, getElem?_append_left h]

theorem subs_push (hs : s.WF) (k : PKind) (subs : List PatId) (h : id < s.kind.length) :
    (s.push k subs).1.subs id = s.subs id := by
  have hrange := hs.ranges id h
  have hstart : (s.sub_start ++ [as_u32 s.sub_ids.length]).getD id 0 = s.sub_start.getD id 0 :=
    getD_append _ _ _ _ (by rw [hs.starts]; exact h)
  have hlen : (s.sub_len ++ [as_u32 subs.length]).getD id 0 = s.sub_len.getD id 0 :=
    getD_append _ _ _ _ (by rw [hs.lens]; exact h)
  change ((s.sub_ids ++ subs).drop ((s.sub_start ++ [as_u32 s.sub_ids.length]).getD id 0)).take
    ((s.sub_len ++ [as_u32 subs.length]).getD id 0) = _
  rw [hstart, hlen, drop_append_of_le_length (by omega),
    take_append_of_le_length (by rw [length_drop]; omega)]
  rfl

/-- Where there is room, nothing is cut. -/
theorem push_eq (k : PKind) {subs : List PatId} (hroom : s.HasRoom subs) :
    s.push k subs = ({ s with
      kind := s.kind ++ [k]
      sub_start := s.sub_start ++ [s.sub_ids.length]
      sub_len := s.sub_len ++ [subs.length]
      sub_ids := s.sub_ids ++ subs }, s.kind.length) := by
  have hsubs := hroom.2
  rw [push, as_u32_eq hroom.1, as_u32_eq (by omega), as_u32_eq (by omega)]

theorem subs_push_self (hs : s.WF) (k : PKind) {subs : List PatId} (hroom : s.HasRoom subs) :
    (s.push k subs).1.subs s.kind.length = subs := by
  have hstart : (s.sub_start ++ [s.sub_ids.length]).getD s.kind.length 0 = s.sub_ids.length := by
    rw [getD_append_right _ _ _ _ (Nat.le_of_eq hs.starts), hs.starts, Nat.sub_self]
    rfl
  have hlen : (s.sub_len ++ [subs.length]).getD s.kind.length 0 = subs.length := by
    rw [getD_append_right _ _ _ _ (Nat.le_of_eq hs.lens), hs.lens, Nat.sub_self]
    rfl
  rw [push_eq k hroom]
  change ((s.sub_ids ++ subs).drop ((s.sub_start ++ [s.sub_ids.length]).getD _ 0)).take
    ((s.sub_len ++ [subs.length]).getD _ 0) = _
  rw [hstart, hlen, drop_left, take_length]

theorem wf_new : new.WF where
  starts := rfl
  lens := rfl
  ranges := by decide
  descends := by
    intro id hid c hc
    obtain rfl : id = 0 := Nat.lt_one_iff.mp hid
    exact absurd hc not_mem_nil
  wild_lt := by decide
  wild_ctor := rfl
  wild_subs := rfl

theorem WF.push (hs : s.WF) (k : PKind) {subs : List PatId} (hroom : s.HasRoom subs)
    (hsubs : ∀ p ∈ subs, p < s.kind.length) : (s.push k subs).1.WF where
  starts := by simp [PatStore.push, hs.starts]
  lens := by simp [PatStore.push, hs.lens]
  ranges := by
    intro id hid
    have hlen : (s.push k subs).1.kind.length = s.kind.length + 1 := by simp [PatStore.push]
    have hids : (s.push k subs).1.sub_ids.length = s.sub_ids.length + subs.length := by
      simp [PatStore.push]
    rw [hids, push_eq k hroom]
    change (s.sub_start ++ [s.sub_ids.length]).getD id 0 +
      (s.sub_len ++ [subs.length]).getD id 0 ≤ _
    by_cases hold : id < s.kind.length
    · rw [getD_append _ _ _ _ (by rw [hs.starts]; exact hold),
        getD_append _ _ _ _ (by rw [hs.lens]; exact hold)]
      exact Nat.le_add_right_of_le (hs.ranges id hold)
    · obtain rfl : id = s.kind.length := by omega
      rw [getD_append_right _ _ _ _ (Nat.le_of_eq hs.starts),
        getD_append_right _ _ _ _ (Nat.le_of_eq hs.lens), hs.starts, hs.lens, Nat.sub_self]
      exact Nat.le_refl _
  descends := by
    intro id hid c hc
    have hlen : (s.push k subs).1.kind.length = s.kind.length + 1 := by simp [PatStore.push]
    change c ∈ (s.push k subs).1.subs id at hc
    by_cases hold : id < s.kind.length
    · rw [subs_push hs k subs hold] at hc
      exact hs.descends id hold c hc
    · obtain rfl : id = s.kind.length := by omega
      rw [subs_push_self hs k hroom] at hc
      exact hsubs c hc
  wild_lt := Nat.lt_of_lt_of_le hs.wild_lt (by simp [PatStore.push])
  wild_ctor := (ctor_of_push k subs hs.wild_lt).trans hs.wild_ctor
  wild_subs := (subs_push hs k subs hs.wild_lt).trans hs.wild_subs

theorem Built.wf (h : s.Built) : s.WF := by
  induction h with
  | new => exact wf_new
  | touch _ ih => exact { ih with }
  | ctor _ c subs hroom hsubs ih => exact ih.push (.Ctor c) hroom hsubs

theorem WF.pat_eq (hs : s.WF) (h : id < s.kind.length) :
    s.pat id = .node (s.ctor_of id) ((s.subs id).map s.pat) :=
  Trees.tree_eq hs.descends h

theorem WF.pat_wild (hs : s.WF) : s.pat s.wild = Coverage.wild := by
  rw [hs.pat_eq hs.wild_lt, hs.wild_ctor, hs.wild_subs]
  rfl

theorem WF.subs_lt (hs : s.WF) (h : id < s.kind.length) : ∀ p ∈ s.subs id, p < s.kind.length :=
  fun p hp => Nat.lt_trans (hs.descends id h p hp) h

end PatStore

end Fors.Check
