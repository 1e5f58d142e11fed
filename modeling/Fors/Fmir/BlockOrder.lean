import Mathlib.Data.List.Nodup
import Mathlib.Data.List.Perm.Basic
import Fors.Lib.Runs
import Fors.Lib.Scatter
import Fors.Fmir.Encode

/-!
# The canonical block order

The traversal visits every block once (`Frontier`), so the canonical order lists each block id
exactly once (`IsOrder`) and `canonicalize` is a relabelling: it stores the blocks in that order
and renames every reference by its position there (`canonicalize_eq`).

Principal results: `isOrder_canonical_order` and `exists_canonicalize_iff`.
-/

namespace Fors.Fmir

open Runs Scatter
open List hiding getElem?_eq_some_iff

/-! ## The traversal -/

/-- The state between two rounds: what is marked as seen is what was popped or is queued, each
once. -/
structure Frontier (seen : List Bool) (order queue : List BlockId) : Prop where
  nodup : (order ++ queue).Nodup
  seen_iff : ∀ b : BlockId, seen[b.toNat]? = some true ↔ b ∈ order ++ queue

namespace Frontier

variable {seen : List Bool} {order queue : List BlockId} {id : BlockId}

/-- Popping a block keeps the frontier. -/
theorem pop (h : Frontier seen order (id :: queue)) : Frontier seen (order ++ [id]) queue := by
  have heq : order ++ [id] ++ queue = order ++ id :: queue := by simp
  exact ⟨heq ▸ h.nodup, fun b => heq ▸ h.seen_iff b⟩

theorem lt_length (h : Frontier seen order queue) (hb : id ∈ order ++ queue) :
    id.toNat < seen.length :=
  (getElem?_eq_some_iff.mp ((h.seen_iff id).mpr hb)).1

/-- Marking and queueing an unseen block keeps the frontier. -/
theorem push (h : Frontier seen order queue) (hid : seen[id.toNat]? = some false) :
    Frontier (seen.set id.toNat true) order (queue ++ [id]) := by
  have hfresh : id ∉ order ++ queue := by
    intro hmem
    simp [(h.seen_iff id).mpr hmem] at hid
  have hlen := (getElem?_eq_some_iff.mp hid).1
  refine ⟨?_, fun b => ?_⟩
  · rw [← append_assoc, nodup_append_comm, singleton_append, nodup_cons]
    exact ⟨hfresh, h.nodup⟩
  · rw [← append_assoc, mem_append, mem_singleton, getElem?_set]
    by_cases hb : id.toNat = b.toNat
    · obtain rfl := UInt32.toNat_inj.mp hb
      simp [hlen]
    · have hne : b ≠ id := fun heq => hb (by rw [heq])
      simp [hb, hne, h.seen_iff b]

end Frontier

/-- Rounds still possible: each one uses up a queued block, and a block is queued by marking
it. -/
def rounds (seen : List Bool) (queue : List BlockId) : Nat :=
  seen.count false + queue.length

/-- Queueing the targets of a block keeps the frontier and adds no round. -/
theorem enqueue_spec (targets : List BlockId) {seen : List Bool} {order queue : List BlockId}
    (h : Frontier seen order queue) :
    Frontier (enqueue targets seen queue).1 order (enqueue targets seen queue).2 ∧
      rounds (enqueue targets seen queue).1 (enqueue targets seen queue).2 = rounds seen queue ∧
      (enqueue targets seen queue).1.length = seen.length := by
  induction targets generalizing seen queue with
  | nil => exact ⟨h, rfl, rfl⟩
  | cons target targets ih =>
    rw [enqueue]
    split
    · rename_i ht
      obtain ⟨hf, hr, hl⟩ := ih (h.push ht)
      refine ⟨hf, hr.trans ?_, hl.trans (length_set ..)⟩
      obtain ⟨hlt, hval⟩ := getElem?_eq_some_iff.mp ht
      have hpos : 0 < seen.count false := count_pos_iff.mpr (hval ▸ getElem_mem hlt)
      rw [rounds, rounds, count_set hlt, length_append, hval]
      simp only [beq_self_eq_true, if_true, length_singleton, reduceCtorEq, beq_iff_eq,
        if_false]
      omega
    · exact ih h

/-- With a round for each block still to come the traversal ends, when no block it visits
slices past the switch arms. -/
theorem traverse_spec {d : DeclFmir}
    (hs : ∀ b ∈ d.blocks, ∃ ts, successors b.term d.insts = .ok ts) {fuel : Nat}
    {seen : List Bool} {order queue : List BlockId} (h : Frontier seen order queue)
    (hlen : seen.length = d.blocks.length) (hfuel : rounds seen queue ≤ fuel) :
    ∃ seen' order', traverse d fuel seen queue order = .ok (seen', order') := by
  induction fuel generalizing seen order queue with
  | zero =>
    cases queue with
    | nil => exact ⟨seen, order, rfl⟩
    | cons id queue =>
      rw [rounds, length_cons] at hfuel
      omega
  | succ fuel ih =>
    cases queue with
    | nil => exact ⟨seen, order, rfl⟩
    | cons id queue =>
      have hid : id.toNat < d.blocks.length := hlen ▸ h.lt_length (by simp)
      obtain ⟨ts, hts⟩ := hs d.blocks[id.toNat] (getElem_mem hid)
      have hrow : index d.blocks id = .ok d.blocks[id.toNat] := by simp [index, hid]
      obtain ⟨hf, hr, hl⟩ := enqueue_spec ts h.pop
      rw [rounds, length_cons] at hfuel
      simp only [traverse, hrow, hts, bind, Except.bind]
      exact ih hf (hl.trans hlen) (by rw [hr, rounds]; omega)

/-- A traversal that ends has emptied its queue. -/
theorem traverse_frontier {d : DeclFmir} {fuel : Nat} {seen seen' : List Bool}
    {order order' queue : List BlockId} (h : Frontier seen order queue)
    (ht : traverse d fuel seen queue order = .ok (seen', order')) :
    Frontier seen' order' [] ∧ seen'.length = seen.length := by
  induction fuel generalizing seen order queue with
  | zero =>
    cases queue with
    | nil =>
      obtain ⟨rfl, rfl⟩ : seen = seen' ∧ order = order' := by simpa [traverse] using ht
      exact ⟨h, rfl⟩
    | cons id queue => simp [traverse] at ht
  | succ fuel ih =>
    cases queue with
    | nil =>
      obtain ⟨rfl, rfl⟩ : seen = seen' ∧ order = order' := by simpa [traverse] using ht
      exact ⟨h, rfl⟩
    | cons id queue =>
      simp only [traverse, bind_eq_ok] at ht
      obtain ⟨row, -, ts, -, ht⟩ := ht
      obtain ⟨hf, -, hl⟩ := enqueue_spec ts h.pop
      obtain ⟨hf', hl'⟩ := ih hf ht
      exact ⟨hf', hl'.trans hl⟩

/-! ## The order -/

/-- A list of all `n` block ids, each once. -/
structure IsOrder (n : Nat) (order : List BlockId) : Prop where
  nodup : order.Nodup
  mem_iff : ∀ b : BlockId, b ∈ order ↔ b.toNat < n

theorem mem_unseen {seen : List Bool} (hlen : seen.length < 2 ^ 32) {b : BlockId} :
    b ∈ unseen seen ↔ seen[b.toNat]? = some false := by
  simp only [unseen, mem_map, mem_filter, Prod.exists]
  constructor
  · rintro ⟨s, i, ⟨hmem, hs⟩, rfl⟩
    have hi := mk_mem_zipIdx_iff_getElem?.mp hmem
    have hlt : i < seen.length := (getElem?_eq_some_iff.mp hi).1
    rw [UInt32.toNat_ofNat_of_lt' (by simp only [UInt32.size]; omega), hi]
    simpa using hs
  · intro h
    exact ⟨false, b.toNat, ⟨mk_mem_zipIdx_iff_getElem?.mpr h, rfl⟩, by simp⟩

/-- Positions below `2 ^ 32` are told apart by their ids. -/
theorem unseen_nodup {seen : List Bool} (hlen : seen.length < 2 ^ 32) : (unseen seen).Nodup := by
  have positions : seen.zipIdx.Nodup := Nodup.of_map Prod.snd <| by
    rw [zipIdx_map_snd]
    exact nodup_range'
  refine Nodup.map_on ?_ (positions.filter _)
  rintro ⟨s, i⟩ hx ⟨t, j⟩ hy hij
  have hi := mk_mem_zipIdx_iff_getElem?.mp (mem_filter.mp hx).1
  have hj := mk_mem_zipIdx_iff_getElem?.mp (mem_filter.mp hy).1
  have hi' : i < seen.length := (getElem?_eq_some_iff.mp hi).1
  have hj' : j < seen.length := (getElem?_eq_some_iff.mp hj).1
  obtain rfl := ofNat_inj_of_lt (by omega) (by omega) hij
  simpa [hi] using hj

/-- The traversal's first state: the entry block alone is marked and queued. -/
theorem frontier_entry {n : Nat} {entry : BlockId} (h : entry.toNat < n) :
    Frontier ((List.replicate n false).set entry.toNat true) [] [entry] := by
  have hnone : Frontier (List.replicate n false) [] [] := by
    refine ⟨nodup_nil, fun b => ?_⟩
    simp only [getElem?_replicate, append_nil, not_mem_nil, iff_false]
    split <;> simp
  exact hnone.push (by simp [h])

/-- A traversal from the entry that ends has seen exactly what it popped. -/
theorem traverse_entry_frontier {d : DeclFmir} {seen : List Bool} {order : List BlockId}
    (h : traverse_entry d = .ok (seen, order)) :
    Frontier seen order [] ∧ seen.length = d.blocks.length := by
  rw [traverse_entry] at h
  split at h
  · rename_i hentry
    obtain ⟨hf, hl⟩ := traverse_frontier (frontier_entry hentry) h
    exact ⟨hf, by simpa using hl⟩
  · obtain ⟨rfl, rfl⟩ : List.replicate d.blocks.length false = seen ∧ [] = order := by
      simpa using h
    refine ⟨⟨nodup_nil, fun b => ?_⟩, length_replicate⟩
    simp only [getElem?_replicate, append_nil, not_mem_nil, iff_false]
    split <;> simp

theorem exists_traverse_entry {d : DeclFmir}
    (hs : ∀ b ∈ d.blocks, ∃ ts, successors b.term d.insts = .ok ts) :
    ∃ seen order, traverse_entry d = .ok (seen, order) := by
  rw [traverse_entry]
  split
  · rename_i hentry
    have hrounds : rounds ((List.replicate d.blocks.length false).set d.entry.toNat true)
        [d.entry] ≤ d.blocks.length := by
      rw [rounds, count_set (by simpa using hentry)]
      simp
      omega
    exact traverse_spec hs (frontier_entry hentry) (by simp) hrounds
  · exact ⟨_, _, rfl⟩

/-- Whatever `canonical_order` returns lists every block once. -/
theorem isOrder_canonical_order {d : DeclFmir} (hn : d.blocks.length < 2 ^ 32)
    {order : List BlockId} (h : canonical_order d = .ok order) :
    IsOrder d.blocks.length order := by
  simp only [canonical_order, bind_eq_ok, pure_eq_ok] at h
  obtain ⟨⟨seen, visited⟩, hseen, rfl⟩ := h
  obtain ⟨hf, hl⟩ := traverse_entry_frontier hseen
  rw [← hl] at hn ⊢
  have hmem : ∀ b : BlockId, b ∈ visited ↔ seen[b.toNat]? = some true := fun b => by
    rw [hf.seen_iff, append_nil]
  refine ⟨nodup_append.mpr ⟨by simpa using hf.nodup, unseen_nodup hn, ?_⟩, fun b => ?_⟩
  · intro a ha b hb hab
    subst hab
    rw [hmem] at ha
    rw [mem_unseen hn, ha] at hb
    simp at hb
  · rw [mem_append, hmem, mem_unseen hn]
    cases hb : seen[b.toNat]? with
    | none => simpa using hb
    | some s =>
      have := (getElem?_eq_some_iff.mp hb).1
      cases s <;> simpa using this

/-- Without a bad slice on the way there is a canonical order. -/
theorem exists_canonical_order {d : DeclFmir}
    (hs : ∀ b ∈ d.blocks, ∃ ts, successors b.term d.insts = .ok ts) :
    ∃ order, canonical_order d = .ok order := by
  obtain ⟨seen, order, h⟩ := exists_traverse_entry hs
  exact ⟨order ++ unseen seen, by rw [canonical_order, h]; rfl⟩

/-! ## Canonicalizing is relabelling -/

/-- The new id of a block when the blocks are stored in the order `order`. -/
def rank (order : List BlockId) (b : BlockId) : BlockId :=
  if b ∈ order then UInt32.ofNat (order.idxOf b) else b

/-- The block a new id names, with its targets renamed by `f`. -/
def DeclFmir.moved (d : DeclFmir) (f : BlockId → BlockId) (b : BlockId) : Option BlockRow :=
  d.blocks[b.toNat]?.map fun row => { row with term := remap_targets f row.term }

/-- The declaration with its blocks stored in the order `order` and every block reference
renamed to match. -/
def DeclFmir.reorder (d : DeclFmir) (order : List BlockId) : DeclFmir :=
  d.remap (rank order) (order.filterMap (d.moved (rank order)))

section Order

variable {n : Nat} {order : List BlockId}

theorem IsOrder.length_eq (h : IsOrder n order) (hn : n < 2 ^ 32) : order.length = n := by
  have hperm : order.Perm ((List.range n).map UInt32.ofNat) := by
    refine (perm_ext_iff_of_nodup h.nodup ?_).mpr fun b => ?_
    · refine Nodup.map_on ?_ nodup_range
      intro i hi j hj hij
      exact ofNat_inj_of_lt (Nat.lt_trans (mem_range.mp hi) hn)
        (Nat.lt_trans (mem_range.mp hj) hn) hij
    · rw [h.mem_iff, mem_map]
      constructor
      · intro hb
        exact ⟨b.toNat, mem_range.mpr hb, by simp⟩
      · rintro ⟨i, hi, rfl⟩
        have hi : i < n := mem_range.mp hi
        rwa [UInt32.toNat_ofNat_of_lt' (Nat.lt_trans hi hn)]
  simpa using hperm.length_eq

theorem rank_of_mem (hn : order.length < 2 ^ 32) {b : BlockId} (hb : b ∈ order) :
    (rank order b).toNat = order.idxOf b := by
  have := idxOf_lt_length_of_mem hb
  rw [rank, if_pos hb, UInt32.toNat_ofNat_of_lt' (by simp only [UInt32.size]; omega)]

/-- The rank of the block at a position is that position. -/
theorem rank_getElem (h : IsOrder n order) (hn : n < 2 ^ 32) {k : Nat} (hk : k < order.length) :
    (rank order order[k]).toNat = k := by
  rw [rank_of_mem (by rw [h.length_eq hn]; exact hn) (getElem_mem hk),
    h.nodup.idxOf_getElem]

/-- The table of `canonical_block_order` holds the ranks. -/
theorem table_getElem? (h : IsOrder n order) (b : BlockId) :
    (order.zipIdx.foldl (fun table (old, canonical) =>
      table.set old.toNat (UInt32.ofNat canonical)) (List.replicate n 0))[b.toNat]? =
        if b.toNat < n then some (rank order b) else none := by
  rw [foldl_set_eq (fun p : BlockId × Nat => p.1.toNat) fun p => UInt32.ofNat p.2]
  split
  · rename_i hb
    have hmem : b ∈ order := (h.mem_iff b).mpr hb
    have hlt := idxOf_lt_length_of_mem hmem
    refine getElem?_scatter_of_mem ?_ ?_ (by simpa using hb)
    · have keys : (order.zipIdx.map fun p : BlockId × Nat => (p.1.toNat, UInt32.ofNat p.2)).map
          Prod.fst = (order.zipIdx.map Prod.fst).map UInt32.toNat := by
        rw [map_map, map_map]
        rfl
      rw [keys, zipIdx_map_fst]
      exact h.nodup.map fun _ _ => UInt32.toNat_inj.mp
    · refine mem_map.mpr ⟨(b, order.idxOf b), ?_, by rw [rank, if_pos hmem]⟩
      exact mk_mem_zipIdx_iff_getElem?.mpr (by simp [hlt])
  · rename_i hb
    exact getElem?_eq_none (by simpa using hb)

theorem safe_remap_table (h : IsOrder n order) (hn : n < 2 ^ 32) :
    safe_remap (order.zipIdx.foldl (fun table (old, canonical) =>
      table.set old.toNat (UInt32.ofNat canonical)) (List.replicate n 0)) = rank order := by
  funext b
  rw [safe_remap, table_getElem? h]
  split
  · rfl
  · rename_i hb
    rw [rank, if_neg (by rwa [h.mem_iff])]
    rfl

end Order

/-- A `mapM` over full slots returns what they hold. -/
theorem mapM_slots {slots : List (Option BlockRow)} (h : ∀ s ∈ slots, s.isSome) :
    slots.mapM (fun slot => match slot with
      | some row => Except.ok row
      | none => .error Fault.index) = .ok (slots.filterMap id) := by
  induction slots with
  | nil => rfl
  | cons slot slots ih =>
    obtain ⟨row, rfl⟩ := Option.isSome_iff_exists.mp (h slot mem_cons_self)
    rw [mapM_cons, ih fun s hs => h s (mem_cons_of_mem _ hs)]
    rfl

section Canonical

variable {d : DeclFmir} {order : List BlockId}

/-- The slots of `canonicalize` hold the blocks in canonical order. -/
theorem slots_eq (h : IsOrder d.blocks.length order) (hn : d.blocks.length < 2 ^ 32)
    {table : List UInt32} (hremap : safe_remap table = rank order)
    (htable : ∀ b : BlockId, table[b.toNat]? = if b.toNat < d.blocks.length then some (rank order b)
      else none) :
    d.blocks.zipIdx.foldl (fun (slots : List (Option BlockRow)) (row, old) =>
      slots.set (table[old]?.getD 0).toNat (some (remap_block table row)))
      (List.replicate d.blocks.length none) = order.map (d.moved (rank order)) := by
  rw [foldl_set_eq (fun p : BlockRow × Nat => (table[p.2]?.getD 0).toNat) fun p : BlockRow × Nat =>
    some (remap_block table p.1)]
  have hkey : ∀ p ∈ d.blocks.zipIdx, (table[p.2]?.getD 0).toNat = order.idxOf (UInt32.ofNat p.2) ∧
      (UInt32.ofNat p.2).toNat = p.2 ∧ UInt32.ofNat p.2 ∈ order := by
    rintro ⟨row, i⟩ hp
    have hi : i < d.blocks.length :=
      (getElem?_eq_some_iff.mp (mk_mem_zipIdx_iff_getElem?.mp hp)).1
    have hcast : (UInt32.ofNat i).toNat = i := UInt32.toNat_ofNat_of_lt' (Nat.lt_trans hi hn)
    have hmem : UInt32.ofNat i ∈ order := (h.mem_iff _).mpr (by rwa [hcast])
    have hcell := htable (UInt32.ofNat i)
    rw [hcast, if_pos hi] at hcell
    refine ⟨?_, hcast, hmem⟩
    rw [hcell]
    exact rank_of_mem (by rw [h.length_eq hn]; exact hn) hmem
  refine ext_getElem? fun k => ?_
  by_cases hk : k < order.length
  · have hb : order[k].toNat < d.blocks.length := (h.mem_iff _).mp (getElem_mem hk)
    have hp : (d.blocks[order[k].toNat], order[k].toNat) ∈ d.blocks.zipIdx :=
      mk_mem_zipIdx_iff_getElem?.mpr (by simp [hb])
    rw [getElem?_scatter_of_mem (v := some (remap_block table d.blocks[order[k].toNat]))]
    · simp [DeclFmir.moved, hb, hk, remap_block, remap_terminator, hremap]
    · rw [map_map]
      refine Nodup.map_on ?_ (Nodup.of_map Prod.snd ?_)
      · intro x hx y hy hxy
        obtain ⟨hx1, hx2, hx3⟩ := hkey x hx
        obtain ⟨hy1, hy2, -⟩ := hkey y hy
        have heq : order.idxOf (UInt32.ofNat x.2) = order.idxOf (UInt32.ofNat y.2) := by
          rw [← hx1, ← hy1]
          exact hxy
        have hid : UInt32.ofNat x.2 = UInt32.ofNat y.2 := (idxOf_inj hx3).mp heq
        have hsnd : x.2 = y.2 := by rw [← hx2, hid, hy2]
        have hxrow := mk_mem_zipIdx_iff_getElem?.mp hx
        have hyrow := mk_mem_zipIdx_iff_getElem?.mp hy
        rw [hsnd, hyrow] at hxrow
        exact Prod.ext (Option.some.inj hxrow).symm hsnd
      · rw [zipIdx_map_snd]
        exact nodup_range'
    · refine mem_map.mpr ⟨_, hp, ?_⟩
      obtain ⟨hkey1, -, -⟩ := hkey _ hp
      rw [hkey1]
      simp [h.nodup.idxOf_getElem]
    · rwa [length_replicate, ← h.length_eq hn]
  · rw [getElem?_eq_none (by simpa [← h.length_eq hn] using hk),
      getElem?_eq_none (by simpa using hk)]

/-- `canonicalize` reorders the declaration by its canonical order. -/
theorem canonicalize_eq (hn : d.blocks.length < 2 ^ 32) (h : canonical_order d = .ok order) :
    canonicalize d = .ok (d.reorder order) := by
  have horder := isOrder_canonical_order hn h
  have hremap := safe_remap_table horder hn
  have htable := table_getElem? horder
  have hslots := slots_eq horder hn hremap htable
  have hfull : ∀ s ∈ order.map (d.moved (rank order)), s.isSome := by
    intro s hs
    obtain ⟨b, hb, rfl⟩ := mem_map.mp hs
    simp [DeclFmir.moved, (horder.mem_iff b).mp hb]
  simp only [canonicalize, canonical_block_order, bind_eq_ok, pure_eq_ok]
  refine ⟨_, ⟨order, h, rfl⟩, order.filterMap (d.moved (rank order)), ?_, ?_⟩
  · rw [place_blocks, hslots]
    refine (mapM_slots hfull).trans ?_
    rw [filterMap_map]
    rfl
  · rw [hremap]
    rfl

/-- `canonicalize` returns exactly when the canonical order does. -/
theorem exists_canonicalize_iff (hn : d.blocks.length < 2 ^ 32) :
    (∃ c, canonicalize d = .ok c) ↔ ∃ order, canonical_order d = .ok order := by
  constructor
  · rintro ⟨c, hc⟩
    simp only [canonicalize, canonical_block_order, bind_eq_ok] at hc
    obtain ⟨_, ⟨order, h, -⟩, -⟩ := hc
    exact ⟨order, h⟩
  · rintro ⟨order, h⟩
    exact ⟨_, canonicalize_eq hn h⟩

end Canonical

end Fors.Fmir
