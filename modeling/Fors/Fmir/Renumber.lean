import Fors.Fmir.BlockOrder
import Fors.Fmir.Verify
import Fors.Fmir.RoundTrip

/-!
# Renumbering blocks

Storing the blocks in another order and renaming every reference to match is undone by
`canonicalize` as far as the traversal from `entry` reaches. The other blocks, deferred bodies
among them, follow in storage order: their canonical ids depend on the numbering unless the way
it permutes them is a symmetry of the declaration.

Principal result: `canonical_bytes_reorder_iff`.
-/

namespace Fors.Fmir

open List hiding beq_eq_decide filter_map getElem?_eq_some_iff map_map
open Runs Format Option

/-! ## Ranks as a renaming -/

section Rank

variable {n : Nat} {order : List BlockId}

theorem rank_eq_self (h : IsOrder n order) {b : BlockId} (hb : ¬ b.toNat < n) :
    rank order b = b := by
  rw [rank, if_neg (by rwa [h.mem_iff])]

theorem toNat_rank (h : IsOrder n order) (hn : n < 2 ^ 32) {b : BlockId} (hb : b.toNat < n) :
    (rank order b).toNat = order.idxOf b :=
  rank_of_mem (by rw [h.length_eq hn]; exact hn) ((h.mem_iff b).mpr hb)

/-- A block and its new id are both real or both not. -/
theorem rank_lt_iff (h : IsOrder n order) (hn : n < 2 ^ 32) (b : BlockId) :
    (rank order b).toNat < n ↔ b.toNat < n := by
  by_cases hb : b.toNat < n
  · rw [toNat_rank h hn hb]
    have := idxOf_lt_length_of_mem ((h.mem_iff b).mpr hb)
    rw [h.length_eq hn] at this
    simp [hb, this]
  · rw [rank_eq_self h hb]

theorem rank_injective (h : IsOrder n order) (hn : n < 2 ^ 32) {a b : BlockId}
    (hab : rank order a = rank order b) : a = b := by
  have hreal : a.toNat < n ↔ b.toNat < n := by
    rw [← rank_lt_iff h hn a, hab, rank_lt_iff h hn b]
  by_cases ha : a.toNat < n
  · have hidx := congrArg UInt32.toNat hab
    rw [toNat_rank h hn ha, toNat_rank h hn (hreal.mp ha)] at hidx
    exact (idxOf_inj ((h.mem_iff a).mpr ha)).mp hidx
  · rwa [rank_eq_self h ha, rank_eq_self h (fun hb => ha (hreal.mpr hb))] at hab

/-- Every id below `n` is the rank of the block stored there. -/
theorem rank_getElem_eq (h : IsOrder n order) (hn : n < 2 ^ 32) {k : Nat} (hk : k < order.length) :
    rank order order[k] = UInt32.ofNat k := by
  apply UInt32.toNat_inj.mp
  have := h.length_eq hn
  rw [rank_getElem h hn hk, UInt32.toNat_ofNat_of_lt' (by simp only [UInt32.size]; omega)]

theorem exists_rank_eq (h : IsOrder n order) (hn : n < 2 ^ 32) (c : BlockId) :
    ∃ b, rank order b = c := by
  by_cases hc : c.toNat < n
  · have hk : c.toNat < order.length := by rwa [h.length_eq hn]
    exact ⟨order[c.toNat], by rw [rank_getElem_eq h hn hk, UInt32.ofNat_toNat]⟩
  · exact ⟨c, rank_eq_self h hc⟩

/-- The absent block keeps its value, and no block takes it. -/
theorem rank_eq_absent_iff (h : IsOrder n order) (hn : n < 2 ^ 32) (b : BlockId) :
    rank order b = ABSENT ↔ b = ABSENT := by
  have habsent : rank order ABSENT = ABSENT := by
    refine rank_eq_self h ?_
    have : (ABSENT : UInt32).toNat = 2 ^ 32 - 1 := rfl
    omega
  constructor
  · exact fun hb => rank_injective h hn (hb.trans habsent.symm)
  · rintro rfl
    exact habsent

theorem idxOf_map_rank (h : IsOrder n order) (hn : n < 2 ^ 32) (b : BlockId) (o : List BlockId) :
    (o.map (rank order)).idxOf (rank order b) = o.idxOf b := by
  induction o with
  | nil => rfl
  | cons a o ih =>
    have hab : rank order a = rank order b ↔ a = b :=
      ⟨rank_injective h hn, fun hab => by rw [hab]⟩
    rw [map_cons, idxOf_cons, idxOf_cons, ih]
    simp only [beq_eq_decide, hab]

/-- Reordering twice is reordering once: the second order is given in the first's ids. -/
theorem rank_map (h : IsOrder n order) (hn : n < 2 ^ 32) {o : List BlockId} (ho : IsOrder n o)
    (b : BlockId) : rank (o.map (rank order)) (rank order b) = rank o b := by
  have hmem : rank order b ∈ o.map (rank order) ↔ b ∈ o := by
    rw [List.mem_map]
    constructor
    · rintro ⟨a, ha, hab⟩
      rwa [← rank_injective h hn hab]
    · exact fun hb => ⟨b, hb, rfl⟩
  by_cases hb : b.toNat < n
  · have hbo := (ho.mem_iff b).mpr hb
    rw [rank, if_pos (hmem.mpr hbo), idxOf_map_rank h hn, rank, if_pos hbo]
  · have hbo : b ∉ o := fun hbo => hb ((ho.mem_iff b).mp hbo)
    rw [rank, if_neg (fun hm => hbo (hmem.mp hm)), rank_eq_self h hb, rank_eq_self ho hb]

end Rank

/-! ## The reordered declaration -/

section Reorder

variable {d : DeclFmir} {order : List BlockId}

theorem blocks_reorder (h : IsOrder d.blocks.length order) :
    (d.reorder order).blocks.map some = order.map (d.moved (rank order)) := by
  have hfull : ∀ s ∈ order.map (d.moved (rank order)), s.isSome := by
    intro s hs
    obtain ⟨b, hb, rfl⟩ := mem_map.mp hs
    simp [DeclFmir.moved, (h.mem_iff b).mp hb]
  rw [DeclFmir.reorder, DeclFmir.remap, map_filterMap_some_eq_filter_map_isSome,
    filter_eq_self.mpr hfull]

theorem length_blocks_reorder (h : IsOrder d.blocks.length order) (hn : d.blocks.length < 2 ^ 32) :
    (d.reorder order).blocks.length = d.blocks.length := by
  have := congrArg List.length (blocks_reorder h)
  rwa [length_map, length_map, h.length_eq hn] at this

/-- The block stored under a new id. -/
theorem block_reorder (h : IsOrder d.blocks.length order) (hn : d.blocks.length < 2 ^ 32)
    (b : BlockId) :
    (d.reorder order).blocks[(rank order b).toNat]? = d.moved (rank order) b := by
  have hlen := length_blocks_reorder h hn
  by_cases hb : b.toNat < d.blocks.length
  · have hmem := (h.mem_iff b).mpr hb
    have hget := congrArg (fun rows => rows[(rank order b).toNat]?) (blocks_reorder h)
    simp only [getElem?_map, toNat_rank h hn hb, getElem?_idxOf hmem, map_some] at hget
    have hrow : d.moved (rank order) b = some { d.blocks[b.toNat] with
        term := remap_targets (rank order) d.blocks[b.toNat].term } := by
      simp [DeclFmir.moved, hb]
    rw [hrow] at hget ⊢
    rw [toNat_rank h hn hb]
    simpa using hget
  · have hlt : d.blocks.length ≤ b.toNat := Nat.le_of_not_lt hb
    rw [rank_eq_self h hb, DeclFmir.moved, getElem?_eq_none hlt,
      getElem?_eq_none (by rw [hlen]; exact hlt)]
    rfl

theorem slice_map {α β : Type} (f : α → β) (rows : List α) (range : Range) :
    slice (rows.map f) range = (slice rows range).map (List.map f) := by
  simp only [slice, length_map]
  split
  · simp [Except.map]
  · rfl

/-- A renamed terminator has the renamed targets, and faults where the original does. -/
theorem successors_reorder (term : InstRow) :
    successors (remap_targets (rank order) term) (d.reorder order).insts =
      (successors term d.insts).map (List.map (rank order)) := by
  have hswitch : ∀ a : UInt32, (d.reorder order).insts.switches[a.toNat]? =
      d.insts.switches[a.toNat]?.map fun sw => { sw with default := rank order sw.default } :=
    fun a => getElem?_map ..
  have harms : (d.reorder order).insts.switch_arms =
      d.insts.switch_arms.map fun arm => { arm with target := rank order arm.target } := rfl
  obtain ⟨op, a, b, c, ty, site⟩ := term
  cases op
  case SwitchDiscr =>
    simp only [successors, remap_targets, hswitch, harms]
    cases d.insts.switches[a.toNat]? with
    | none => rfl
    | some sw =>
      simp only [map_some, slice_map]
      cases slice d.insts.switch_arms sw.arms with
      | error fault => rfl
      | ok arms => simp [Except.map, bind, Except.bind, pure, Except.pure]
  all_goals rfl

/-! ## The renamed traversal -/

/-- Two marks of the same blocks, before and after a renaming. -/
structure SameSeen (order : List BlockId) (n : Nat) (seen seen' : List Bool) : Prop where
  length : seen.length = n
  length' : seen'.length = n
  get : ∀ b : BlockId, seen'[(rank order b).toNat]? = seen[b.toNat]?

theorem SameSeen.mark {n : Nat} {seen seen' : List Bool} (horder : IsOrder n order)
    (hn : n < 2 ^ 32) (h : SameSeen order n seen seen') (t : BlockId) :
    SameSeen order n (seen.set t.toNat true) (seen'.set (rank order t).toNat true) := by
  refine ⟨by simpa using h.length, by simpa using h.length', fun b => ?_⟩
  rw [getElem?_set, getElem?_set, h.get b, h.length, h.length']
  have heq : (rank order t).toNat = (rank order b).toNat ↔ t.toNat = b.toNat := by
    rw [UInt32.toNat_inj, UInt32.toNat_inj]
    exact ⟨rank_injective horder hn, fun htb => by rw [htb]⟩
  simp [heq, rank_lt_iff horder hn]

/-- Marking and queueing the renamed targets renames what is marked and queued. -/
theorem enqueue_reorder {n : Nat} (horder : IsOrder n order) (hn : n < 2 ^ 32)
    (targets queue : List BlockId) {seen seen' : List Bool}
    (h : SameSeen order n seen seen') :
    SameSeen order n (enqueue targets seen queue).1
        (enqueue (targets.map (rank order)) seen' (queue.map (rank order))).1 ∧
      (enqueue (targets.map (rank order)) seen' (queue.map (rank order))).2 =
        (enqueue targets seen queue).2.map (rank order) := by
  induction targets generalizing seen seen' queue with
  | nil => exact ⟨h, rfl⟩
  | cons t targets ih =>
    rw [map_cons, enqueue, enqueue, h.get t]
    split
    · have hqueue : queue.map (rank order) ++ [rank order t] = (queue ++ [t]).map (rank order) := by
        simp
      rw [hqueue]
      exact ih _ (h.mark horder hn t)
    · exact ih _ h

/-- The traversal of the reordered declaration pops the renamed blocks, round by round. -/
theorem traverse_reorder (horder : IsOrder d.blocks.length order) (hn : d.blocks.length < 2 ^ 32)
    (fuel : Nat) {seen seen' : List Bool} {queue visited : List BlockId}
    (h : SameSeen order d.blocks.length seen seen') :
    match traverse d fuel seen queue visited with
    | .ok (done, popped) => ∃ done', SameSeen order d.blocks.length done done' ∧
        traverse (d.reorder order) fuel seen' (queue.map (rank order)) (visited.map (rank order)) =
          .ok (done', popped.map (rank order))
    | .error fault =>
      traverse (d.reorder order) fuel seen' (queue.map (rank order)) (visited.map (rank order)) =
        .error fault := by
  induction fuel generalizing seen seen' queue visited with
  | zero =>
    cases queue with
    | nil => exact ⟨seen', h, rfl⟩
    | cons id queue => rfl
  | succ fuel ih =>
    cases queue with
    | nil => exact ⟨seen', h, rfl⟩
    | cons id queue =>
      rw [map_cons, traverse, traverse]
      have hrow := block_reorder horder hn id
      cases hid : d.blocks[id.toNat]? with
      | none =>
        rw [DeclFmir.moved, hid] at hrow
        simp only [map_none] at hrow
        simp [index, hid, hrow, bind, Except.bind]
      | some row =>
        rw [DeclFmir.moved, hid] at hrow
        simp only [map_some] at hrow
        simp only [index, hid, hrow, bind, Except.bind, successors_reorder]
        cases successors row.term d.insts with
        | error fault => simp [Except.map]
        | ok targets =>
          simp only [Except.map]
          obtain ⟨hseen, hqueue⟩ := enqueue_reorder horder hn targets queue h
          have hvisited : visited.map (rank order) ++ [rank order id] =
              (visited ++ [id]).map (rank order) := by simp
          rw [hqueue, hvisited]
          exact ih hseen

theorem traverse_entry_reorder (horder : IsOrder d.blocks.length order)
    (hn : d.blocks.length < 2 ^ 32) :
    match traverse_entry d with
    | .ok (seen, visited) => ∃ seen', SameSeen order d.blocks.length seen seen' ∧
        traverse_entry (d.reorder order) = .ok (seen', visited.map (rank order))
    | .error fault => traverse_entry (d.reorder order) = .error fault := by
  have hlen := length_blocks_reorder horder hn
  have hnone : SameSeen order d.blocks.length (List.replicate d.blocks.length false)
      (List.replicate d.blocks.length false) := by
    refine ⟨length_replicate, length_replicate, fun b => ?_⟩
    simp only [getElem?_replicate, rank_lt_iff horder hn]
  have hentry : (d.reorder order).entry = rank order d.entry := rfl
  simp only [traverse_entry, hlen, hentry, rank_lt_iff horder hn]
  by_cases he : d.entry.toNat < d.blocks.length
  · simp only [if_pos he]
    exact traverse_reorder horder hn d.blocks.length (hnone.mark horder hn d.entry)
  · simp only [if_neg he]
    exact ⟨_, hnone, rfl⟩

end Reorder

/-! ## The blocks the traversal does not reach -/

/-- All block ids in storage order. -/
def ids (n : Nat) : List BlockId :=
  (List.range n).map UInt32.ofNat

theorem isOrder_ids {n : Nat} (hn : n < 2 ^ 32) : IsOrder n (ids n) := by
  refine ⟨?_, fun b => ?_⟩
  · refine Nodup.map_on ?_ nodup_range
    intro i hi j hj hij
    exact ofNat_inj_of_lt (Nat.lt_trans (mem_range.mp hi) hn)
      (Nat.lt_trans (mem_range.mp hj) hn) hij
  · rw [ids, List.mem_map]
    constructor
    · rintro ⟨i, hi, rfl⟩
      have hi : i < n := mem_range.mp hi
      rwa [UInt32.toNat_ofNat_of_lt' (Nat.lt_trans hi hn)]
    · exact fun hb => ⟨b.toNat, mem_range.mpr hb, by simp⟩

theorem map_rank_order {n : Nat} {order : List BlockId} (h : IsOrder n order) (hn : n < 2 ^ 32) :
    order.map (rank order) = ids n := by
  have hlen := h.length_eq hn
  refine ext_getElem (by simp [ids, hlen]) fun k hk hk' => ?_
  simp only [length_map] at hk
  simp [ids, rank_getElem_eq h hn hk]

/-- What is not marked, in the order of the marks. -/
theorem unseen_eq_filter {seen : List Bool} (hlen : seen.length < 2 ^ 32) :
    unseen seen = (ids seen.length).filter fun b => seen[b.toNat]? = some false := by
  have general : ∀ (rest : List Bool) (k : Nat) (p : BlockId → Bool),
      (∀ i s, rest[i]? = some s → p (UInt32.ofNat (k + i)) = !s) →
        ((rest.zipIdx k).filter fun x => ¬ x.1).map (fun x => UInt32.ofNat x.2) =
          ((List.range' k rest.length).map UInt32.ofNat).filter p := by
    intro rest
    induction rest with
    | nil => intro k p _; rfl
    | cons s rest ih =>
      intro k p hp
      have hhead : p (UInt32.ofNat k) = !s := hp 0 s rfl
      have htail := ih (k + 1) p fun i s hi => by
        have hstep : k + 1 + i = k + (i + 1) := by omega
        rw [hstep]
        exact hp (i + 1) s hi
      rw [zipIdx_cons, length_cons, List.range'_succ, map_cons, filter_cons,
        filter_cons, hhead, ← htail]
      cases s <;> simp
  rw [unseen, ids, range_eq_range']
  refine general seen 0 _ fun i s hi => ?_
  have hlt := (List.getElem?_eq_some_iff.mp hi).1
  rw [Nat.zero_add, UInt32.toNat_ofNat_of_lt' (Nat.lt_trans hlt hlen), hi]
  cases s <;> simp

/-- A block that terminators lead to from the entry. -/
inductive DeclFmir.Reached (d : DeclFmir) : BlockId → Prop
  | entry : d.entry.toNat < d.blocks.length → Reached d d.entry
  | step {b t : BlockId} {row : BlockRow} {targets : List BlockId} :
    Reached d b → d.blocks[b.toNat]? = some row → successors row.term d.insts = .ok targets →
      t ∈ targets → t.toNat < d.blocks.length → Reached d t

/-- No reached terminator slices past the switch arms. -/
def DeclFmir.Traversable (d : DeclFmir) : Prop :=
  ∀ b row, d.Reached b → d.blocks[b.toNat]? = some row →
    ∃ targets, successors row.term d.insts = .ok targets

section Search

variable {d : DeclFmir} {seen : List Bool} {queue visited : List BlockId}

/-- Marks stay and every real target gets one; only real targets are queued, and what was queued
stays. -/
theorem enqueue_marks (targets : List BlockId) (seen : List Bool) (queue : List BlockId) :
    (∀ b : BlockId, seen[b.toNat]? = some true →
      (enqueue targets seen queue).1[b.toNat]? = some true) ∧
    (∀ t ∈ targets, t.toNat < seen.length →
      (enqueue targets seen queue).1[t.toNat]? = some true) ∧
    (∀ b ∈ (enqueue targets seen queue).2, b ∈ queue ∨ b ∈ targets ∧ b.toNat < seen.length) ∧
    ∀ b ∈ queue, b ∈ (enqueue targets seen queue).2 := by
  induction targets generalizing seen queue with
  | nil => exact ⟨fun _ => id, by simp, fun b hb => .inl hb, fun _ => id⟩
  | cons t targets ih =>
    rw [enqueue]
    by_cases ht : seen[t.toNat]? = some false
    · rw [if_pos ht]
      have htlt := (List.getElem?_eq_some_iff.mp ht).1
      obtain ⟨hkeep, hmark, hmem, hqueue⟩ := ih (seen.set t.toNat true) (queue ++ [t])
      rw [length_set] at hmark hmem
      refine ⟨fun b hb => hkeep b ?_, ?_, ?_, fun b hb => hqueue b (mem_append_left _ hb)⟩
      · rw [getElem?_set]
        split <;> simp_all
      · intro a ha halt
        rcases mem_cons.mp ha with rfl | ha
        · exact hkeep a (by simp [htlt])
        · exact hmark a ha halt
      · intro b hb
        rcases hmem b hb with hq | ⟨hb, hblt⟩
        · rcases mem_append.mp hq with hq | hq
          · exact .inl hq
          · obtain rfl := mem_singleton.mp hq
            exact .inr ⟨mem_cons_self, htlt⟩
        · exact .inr ⟨mem_cons_of_mem _ hb, hblt⟩
    · rw [if_neg ht]
      obtain ⟨hkeep, hmark, hmem, hqueue⟩ := ih seen queue
      refine ⟨hkeep, ?_, ?_, hqueue⟩
      · intro a ha halt
        rcases mem_cons.mp ha with rfl | ha
        · refine hkeep a ?_
          rw [getElem?_eq_getElem halt] at ht ⊢
          simpa using ht
        · exact hmark a ha halt
      · intro b hb
        rcases hmem b hb with hq | ⟨hb, hblt⟩
        · exact .inl hq
        · exact .inr ⟨mem_cons_of_mem _ hb, hblt⟩

/-- A frontier of reached blocks, the entry among them, whose popped part is closed under
targets. -/
structure Searched (d : DeclFmir) (seen : List Bool) (visited queue : List BlockId) : Prop
    extends Frontier seen visited queue where
  length : seen.length = d.blocks.length
  entry : d.entry.toNat < d.blocks.length → d.entry ∈ visited ++ queue
  sound : ∀ b ∈ visited ++ queue, d.Reached b
  closed : ∀ b ∈ visited, ∃ row targets, d.blocks[b.toNat]? = some row ∧
    successors row.term d.insts = .ok targets ∧
      ∀ t ∈ targets, t.toNat < d.blocks.length → seen[t.toNat]? = some true

theorem Searched.round {id : BlockId} {row : BlockRow} {targets : List BlockId}
    (h : Searched d seen visited (id :: queue)) (hrow : d.blocks[id.toNat]? = some row)
    (htargets : successors row.term d.insts = .ok targets) :
    Searched d (enqueue targets seen queue).1 (visited ++ [id]) (enqueue targets seen queue).2 := by
  obtain ⟨hf, -, hlen⟩ := enqueue_spec targets h.toFrontier.pop
  obtain ⟨hkeep, hmark, hmem, hqueue⟩ := enqueue_marks targets seen queue
  have hid : d.Reached id := h.sound id (by simp)
  refine ⟨hf, hlen.trans h.length, fun he => ?_, ?_, ?_⟩
  · rcases mem_append.mp (h.entry he) with hv | hq
    · simp [hv]
    · rcases mem_cons.mp hq with heq | hq
      · simp [heq]
      · exact mem_append_right _ (hqueue _ hq)
  · intro b hb
    rcases mem_append.mp hb with hb | hb
    · exact h.sound b (by simp at hb ⊢; tauto)
    · rcases hmem b hb with hq | ⟨hb, hblt⟩
      · exact h.sound b (by simp [hq])
      · exact .step hid hrow htargets hb (h.length ▸ hblt)
  · intro b hb
    rcases mem_append.mp hb with hb | hb
    · obtain ⟨row', targets', hrow', htargets', hseen⟩ := h.closed b hb
      exact ⟨row', targets', hrow', htargets', fun t ht hlt => hkeep t (hseen t ht hlt)⟩
    · obtain rfl := mem_singleton.mp hb
      exact ⟨row, targets, hrow, htargets, fun t ht hlt => hmark t ht (h.length ▸ hlt)⟩

/-- With enough rounds the search ends, unless a reached terminator faults. -/
theorem traverse_searched {fuel : Nat} (h : Searched d seen visited queue)
    (hfuel : rounds seen queue ≤ fuel) :
    match traverse d fuel seen queue visited with
    | .ok (seen', visited') => Searched d seen' visited' []
    | .error _ => ¬ d.Traversable := by
  induction fuel generalizing seen visited queue with
  | zero =>
    cases queue with
    | nil => exact h
    | cons id queue =>
      rw [rounds, length_cons] at hfuel
      omega
  | succ fuel ih =>
    cases queue with
    | nil => exact h
    | cons id queue =>
      have hid : id.toNat < d.blocks.length :=
        h.length ▸ h.toFrontier.lt_length (by simp)
      have hrow : d.blocks[id.toNat]? = some d.blocks[id.toNat] := getElem?_eq_getElem hid
      simp only [traverse, index, hrow, bind, Except.bind]
      cases htargets : successors d.blocks[id.toNat].term d.insts with
      | error fault =>
        intro htrav
        obtain ⟨targets, hok⟩ := htrav id _ (h.sound id (by simp)) hrow
        rw [htargets] at hok
        cases hok
      | ok targets =>
        obtain ⟨-, hrounds, -⟩ := enqueue_spec targets h.toFrontier.pop
        rw [rounds, length_cons] at hfuel
        exact ih (h.round hrow htargets) (by rw [hrounds, rounds]; omega)

/-- What a finished search has marked are the reached blocks. -/
theorem Searched.seen_reached {seen : List Bool} {visited : List BlockId}
    (h : Searched d seen visited []) (b : BlockId) :
    seen[b.toNat]? = some true ↔ d.Reached b := by
  rw [h.seen_iff, append_nil]
  constructor
  · intro hb
    exact h.sound b (by simpa using hb)
  · intro hb
    induction hb with
    | entry he => simpa using h.entry he
    | @step b t row targets _ hrow htargets ht hlt ih =>
      obtain ⟨row', targets', hrow', htargets', hseen⟩ := h.closed b ih
      rw [hrow] at hrow'
      obtain rfl := some_inj.mp hrow'
      rw [htargets] at htargets'
      cases htargets'
      simpa using (h.seen_iff t).mp (hseen t ht hlt)

/-- The traversal from the entry marks the reached blocks, unless one of them faults. -/
theorem traverse_entry_searched :
    match traverse_entry d with
    | .ok (seen, visited) => Searched d seen visited []
    | .error _ => ¬ d.Traversable := by
  rw [traverse_entry]
  by_cases he : d.entry.toNat < d.blocks.length
  · rw [if_pos he]
    refine traverse_searched ⟨frontier_entry he, by simp, by simp, ?_, by simp⟩ ?_
    · intro b hb
      obtain rfl : b = d.entry := by simpa using hb
      exact .entry he
    · rw [rounds, count_set (by simpa using he)]
      simp
      omega
  · rw [if_neg he]
    refine ⟨⟨nodup_nil, fun b => ?_⟩, by simp, fun h => absurd h he, by simp, by simp⟩
    simp only [getElem?_replicate, append_nil, not_mem_nil, iff_false]
    split <;> simp

theorem Searched.traversable {visited : List BlockId} (h : Searched d seen visited []) :
    d.Traversable := by
  intro b row hb hrow
  have hvisited : b ∈ visited := by simpa using (h.seen_iff b).mp ((h.seen_reached b).mpr hb)
  obtain ⟨row', targets, hrow', htargets, -⟩ := h.closed b hvisited
  rw [hrow] at hrow'
  obtain rfl := some_inj.mp hrow'
  exact ⟨targets, htargets⟩

end Search

/-! ## The two canonical orders -/

open Classical in
/-- The blocks that no terminator leads to, in a given order. -/
noncomputable def DeclFmir.unreached (d : DeclFmir) (order : List BlockId) : List BlockId :=
  order.filter fun b => ¬ d.Reached b

section Orders

variable {d : DeclFmir} {order : List BlockId}

theorem filter_seen_eq_unreached {seen : List Bool} {visited : List BlockId}
    (h : Searched d seen visited []) (horder : IsOrder d.blocks.length order) :
    (order.filter fun b => seen[b.toNat]? = some false) = d.unreached order := by
  classical
  rw [DeclFmir.unreached]
  refine filter_congr fun b hb => ?_
  have hlt : b.toNat < seen.length := h.length ▸ (horder.mem_iff b).mp hb
  rw [← h.seen_reached b, getElem?_eq_getElem hlt]
  cases seen[b.toNat] <;> simp

/-- The canonical order of a declaration and of its reordering: both start with the traversal,
and go on with the blocks it did not reach in their own storage order. -/
theorem canonical_orders (horder : IsOrder d.blocks.length order) (hn : d.blocks.length < 2 ^ 32) :
    (∃ fault, canonical_order d = .error fault ∧
      canonical_order (d.reorder order) = .error fault ∧ ¬ d.Traversable) ∨
    ∃ visited, canonical_order d = .ok (visited ++ d.unreached (ids d.blocks.length)) ∧
      canonical_order (d.reorder order) =
        .ok ((visited ++ d.unreached order).map (rank order)) ∧ d.Traversable := by
  have hsearched := traverse_entry_searched (d := d)
  have hreorder := traverse_entry_reorder horder hn
  rw [canonical_order, canonical_order]
  cases hentry : traverse_entry d with
  | error fault =>
    rw [hentry] at hsearched hreorder
    exact .inl ⟨fault, rfl, by rw [hreorder]; rfl, hsearched⟩
  | ok result =>
    obtain ⟨seen, visited⟩ := result
    rw [hentry] at hsearched hreorder
    obtain ⟨seen', hsame, hreorder⟩ := hreorder
    refine .inr ⟨visited, ?_, ?_, hsearched.traversable⟩
    · have hids := isOrder_ids hn
      rw [← filter_seen_eq_unreached hsearched hids, ← hsearched.length,
        ← unseen_eq_filter (by rw [hsearched.length]; exact hn)]
      rfl
    · have hunseen : unseen seen' = (d.unreached order).map (rank order) := by
        rw [unseen_eq_filter (by rw [hsame.length']; exact hn), hsame.length',
          ← map_rank_order horder hn, List.filter_map, ← filter_seen_eq_unreached hsearched horder]
        simp only [Function.comp_def, hsame.get]
      rw [hreorder]
      simp only [bind, Except.bind, pure, Except.pure, hunseen, map_append]

end Orders

/-! ## Reordering twice -/

section Twice

variable {d : DeclFmir} {f g h : BlockId → BlockId}

theorem remap_targets_remap_targets (hcomp : ∀ b, g (f b) = h b) (term : InstRow) :
    remap_targets g (remap_targets f term) = remap_targets h term := by
  obtain ⟨op, a, b, c, ty, site⟩ := term
  cases op <;> simp [remap_targets, hcomp]

theorem remap_blocks_remap_blocks (hcomp : ∀ b, g (f b) = h b)
    (habsent : ∀ b, f b = ABSENT ↔ b = ABSENT) (row : ExitEdgeRow) :
    remap_blocks g (remap_blocks f row) = remap_blocks h row := by
  by_cases hto : row.to_ = ABSENT <;> simp [remap_blocks, hcomp, hto, habsent]

theorem remap_discharges_remap_discharges (hcomp : ∀ b, g (f b) = h b) (row : DischargeRow) :
    remap_discharge_blocks g (remap_discharge_blocks f row) = remap_discharge_blocks h row := by
  obtain ⟨place, how⟩ := row
  cases how <;> simp [remap_discharge_blocks, hcomp]

/-- Renaming twice is renaming by the composition. -/
theorem remap_remap (hcomp : ∀ b, g (f b) = h b) (habsent : ∀ b, f b = ABSENT ↔ b = ABSENT)
    (blocks blocks' : List BlockRow) :
    (d.remap f blocks).remap g blocks' = d.remap h blocks' := by
  simp [DeclFmir.remap, hcomp, remap_blocks_remap_blocks hcomp habsent,
    remap_discharges_remap_discharges hcomp]

theorem reorder_reorder {order o : List BlockId} (horder : IsOrder d.blocks.length order)
    (hn : d.blocks.length < 2 ^ 32) (ho : IsOrder d.blocks.length o) :
    (d.reorder order).reorder (o.map (rank order)) = d.reorder o := by
  have hcomp := rank_map horder hn ho
  have hmoved : ∀ b, (d.reorder order).moved (rank (o.map (rank order))) (rank order b) =
      d.moved (rank o) b := by
    intro b
    rw [DeclFmir.moved, block_reorder horder hn, DeclFmir.moved, DeclFmir.moved, map_map]
    simp only [Function.comp_def, remap_targets_remap_targets hcomp]
  have hblocks : (o.map (rank order)).filterMap
      ((d.reorder order).moved (rank (o.map (rank order)))) = o.filterMap (d.moved (rank o)) := by
    rw [filterMap_map]
    exact filterMap_congr fun b _ => hmoved b
  rw [DeclFmir.reorder, hblocks]
  exact remap_remap hcomp (rank_eq_absent_iff horder hn) _ _

end Twice

/-! ## Symmetries -/

/-- A renaming of the blocks that leaves the declaration as it is: every named block keeps its
name, and the block a renamed id names has the row of the original with renamed targets. -/
structure DeclFmir.Symmetry (d : DeclFmir) (σ : BlockId → BlockId) : Prop where
  entry : σ d.entry = d.entry
  blocks : ∀ b : BlockId, b.toNat < d.blocks.length → d.blocks[(σ b).toNat]? = d.moved σ b
  defaults : ∀ sw ∈ d.insts.switches, σ sw.default = sw.default
  targets : ∀ arm ∈ d.insts.switch_arms, σ arm.target = arm.target
  bodies : ∀ row ∈ d.defers, σ row.body = row.body
  exits : ∀ row ∈ d.exits.rows, σ row.from_ = row.from_ ∧ σ row.to_ = row.to_
  discharges : ∀ row ∈ d.exits.discharges, ∀ scope body, row.how = .DeferredBody scope body →
    σ body = body

/-- Sends each block of one list to the block at its place in another. -/
def along (o1 o2 : List BlockId) (b : BlockId) : BlockId :=
  if b ∈ o1 then o2[o1.idxOf b]?.getD b else b

section Symmetries

variable {d : DeclFmir} {n : Nat} {o1 o2 : List BlockId}

theorem rank_along (h₁ : IsOrder n o1) (h₂ : IsOrder n o2) (hn : n < 2 ^ 32) (b : BlockId) :
    rank o2 (along o1 o2 b) = rank o1 b := by
  by_cases hb : b.toNat < n
  · have hmem := (h₁.mem_iff b).mpr hb
    have hlt := idxOf_lt_length_of_mem hmem
    rw [h₁.length_eq hn, ← h₂.length_eq hn] at hlt
    rw [along, if_pos hmem, getElem?_eq_getElem hlt, getD_some,
      rank_getElem_eq h₂ hn hlt, rank, if_pos hmem]
  · have hmem : b ∉ o1 := fun hb' => hb ((h₁.mem_iff b).mp hb')
    rw [along, if_neg hmem, rank_eq_self h₂ hb, rank_eq_self h₁ hb]

theorem along_eq_self_iff (h₁ : IsOrder n o1) (h₂ : IsOrder n o2) (hn : n < 2 ^ 32) (b : BlockId) :
    along o1 o2 b = b ↔ rank o1 b = rank o2 b := by
  rw [← rank_along h₁ h₂ hn]
  exact ⟨fun h => by rw [h], rank_injective h₂ hn⟩

/-- A common start does not move. -/
theorem along_append (front : List BlockId) {rest1 rest2 : List BlockId}
    (hnodup : (front ++ rest1).Nodup) (b : BlockId) :
    along (front ++ rest1) (front ++ rest2) b = along rest1 rest2 b := by
  have hdisjoint := nodup_append.mp hnodup
  by_cases hf : b ∈ front
  · have hr : b ∉ rest1 := fun hr => hdisjoint.2.2 b hf b hr rfl
    have hlt := idxOf_lt_length_of_mem hf
    rw [along, if_pos (mem_append_left _ hf), along, if_neg hr, idxOf_append_of_mem hf,
      getElem?_append_left hlt, getElem?_idxOf hf, getD_some]
  · by_cases hr : b ∈ rest1
    · rw [along, if_pos (mem_append_right _ hr), along, if_pos hr,
        idxOf_append_of_notMem hf, getElem?_append_right (by omega),
        Nat.add_sub_cancel_left]
    · rw [along, if_neg (by simp [hf, hr]), along, if_neg hr]

theorem remap_targets_op (f : BlockId → BlockId) (term : InstRow) :
    (remap_targets f term).op = term.op := by
  obtain ⟨op, a, b, c, ty, site⟩ := term
  cases op <;> rfl

theorem remap_targets_inj {f : BlockId → BlockId} (hf : ∀ {a b}, f a = f b → a = b)
    {term term' : InstRow} (h : remap_targets f term = remap_targets f term') : term = term' := by
  have hop : term.op = term'.op := by rw [← remap_targets_op f, h, remap_targets_op]
  obtain ⟨op, a, b, c, ty, site⟩ := term
  obtain ⟨op', a', b', c', ty', site'⟩ := term'
  obtain rfl : op = op' := hop
  cases op
  case Br =>
    simp only [remap_targets, InstRow.mk.injEq] at h
    simp [hf h.2.1, h]
  case CondBr | TryBr =>
    simp only [remap_targets, InstRow.mk.injEq] at h
    simp [hf h.2.2.1, hf h.2.2.2.1, h]
  all_goals exact h

/-- Two orders store a block alike when the one at its place has the same row, up to the
renaming. -/
theorem moved_eq_iff (h₁ : IsOrder d.blocks.length o1) (h₂ : IsOrder d.blocks.length o2)
    (hn : d.blocks.length < 2 ^ 32) {b : BlockId} (hb : b.toNat < d.blocks.length) :
    d.moved (rank o1) b = d.moved (rank o2) (along o1 o2 b) ↔
      d.blocks[(along o1 o2 b).toNat]? = d.moved (along o1 o2) b := by
  have hcomp := rank_along h₁ h₂ hn
  have hrow : d.blocks[b.toNat]? = some d.blocks[b.toNat] := getElem?_eq_getElem hb
  rw [DeclFmir.moved, DeclFmir.moved, DeclFmir.moved, hrow, map_some, map_some,
    ← remap_targets_remap_targets hcomp]
  cases d.blocks[(along o1 o2 b).toNat]? with
  | none => simp
  | some row =>
    obtain ⟨first_inst, inst_len, term, scope⟩ := row
    simp only [map_some, some_inj, BlockRow.mk.injEq]
    constructor
    · rintro ⟨hfirst, hlen, hterm, hscope⟩
      exact ⟨hfirst.symm, hlen.symm, (remap_targets_inj (rank_injective h₂ hn) hterm).symm,
        hscope.symm⟩
    · rintro ⟨hfirst, hlen, hterm, hscope⟩
      exact ⟨hfirst.symm, hlen.symm, by rw [hterm], hscope.symm⟩

/-- The stored blocks agree when every block and the one at its place do. -/
theorem blocks_eq_iff (h₁ : IsOrder d.blocks.length o1) (h₂ : IsOrder d.blocks.length o2)
    (hn : d.blocks.length < 2 ^ 32) :
    (d.reorder o1).blocks = (d.reorder o2).blocks ↔
      ∀ b : BlockId, b.toNat < d.blocks.length →
        d.blocks[(along o1 o2 b).toNat]? = d.moved (along o1 o2) b := by
  have hplace : ∀ b, (d.reorder o2).blocks[(rank o1 b).toNat]? =
      d.moved (rank o2) (along o1 o2 b) := fun b => by
    rw [← rank_along h₁ h₂ hn b, block_reorder h₂ hn]
  constructor
  · intro heq b hb
    rw [← moved_eq_iff h₁ h₂ hn hb, ← block_reorder h₁ hn, heq, hplace]
  · intro hsym
    refine ext_getElem? fun k => ?_
    by_cases hk : k < d.blocks.length
    · obtain ⟨b, hb⟩ := exists_rank_eq h₁ hn (UInt32.ofNat k)
      have hkb : (rank o1 b).toNat = k := by
        rw [hb, UInt32.toNat_ofNat_of_lt' (Nat.lt_trans hk hn)]
      have hreal : b.toNat < d.blocks.length := by
        rw [← rank_lt_iff h₁ hn, hkb]
        exact hk
      rw [← hkb, block_reorder h₁ hn, hplace, moved_eq_iff h₁ h₂ hn hreal]
      exact hsym b hreal
    · rw [getElem?_eq_none (by rw [length_blocks_reorder h₁ hn]; omega),
        getElem?_eq_none (by rw [length_blocks_reorder h₂ hn]; omega)]

theorem remap_blocks_eq_iff {f g : BlockId → BlockId} (hf : f ABSENT = ABSENT)
    (hg : g ABSENT = ABSENT) (row : ExitEdgeRow) :
    remap_blocks f row = remap_blocks g row ↔ f row.from_ = g row.from_ ∧ f row.to_ = g row.to_ := by
  by_cases hto : row.to_ = ABSENT <;> simp [remap_blocks, hto, hf, hg]

theorem remap_discharge_blocks_eq_iff {f g : BlockId → BlockId} (row : DischargeRow) :
    remap_discharge_blocks f row = remap_discharge_blocks g row ↔
      ∀ scope body, row.how = .DeferredBody scope body → f body = g body := by
  obtain ⟨place, how⟩ := row
  cases how <;> simp [remap_discharge_blocks]

/-- Two orders give one declaration exactly when the map between them is a symmetry. -/
theorem reorder_eq_iff (h₁ : IsOrder d.blocks.length o1) (h₂ : IsOrder d.blocks.length o2)
    (hn : d.blocks.length < 2 ^ 32) :
    d.reorder o1 = d.reorder o2 ↔ d.Symmetry (along o1 o2) := by
  have hfix := along_eq_self_iff h₁ h₂ hn
  have hrows := remap_blocks_eq_iff ((rank_eq_absent_iff h₁ hn ABSENT).mpr rfl)
    ((rank_eq_absent_iff h₂ hn ABSENT).mpr rfl)
  have hfields : d.reorder o1 = d.reorder o2 ↔
      (d.reorder o1).blocks = (d.reorder o2).blocks ∧
      (∀ sw ∈ d.insts.switches, rank o1 sw.default = rank o2 sw.default) ∧
      (∀ arm ∈ d.insts.switch_arms, rank o1 arm.target = rank o2 arm.target) ∧
      (∀ row ∈ d.defers, rank o1 row.body = rank o2 row.body) ∧
      (∀ row ∈ d.exits.rows, rank o1 row.from_ = rank o2 row.from_ ∧
        rank o1 row.to_ = rank o2 row.to_) ∧
      (∀ row ∈ d.exits.discharges, ∀ scope body, row.how = .DeferredBody scope body →
        rank o1 body = rank o2 body) ∧
      rank o1 d.entry = rank o2 d.entry := by
    rw [DeclFmir.reorder, DeclFmir.reorder]
    simp only [DeclFmir.remap, DeclFmir.mk.injEq, InstPool.mk.injEq, ExitEdgePool.mk.injEq,
      map_inj_left, SwitchRow.mk.injEq, SwitchArm.mk.injEq, DeferRow.mk.injEq, hrows,
      remap_discharge_blocks_eq_iff, true_and, and_true]
    tauto
  rw [hfields, blocks_eq_iff h₁ h₂ hn]
  constructor
  · rintro ⟨hblocks, hdefaults, htargets, hbodies, hexits, hdischarges, hentry⟩
    exact {
      entry := (hfix _).mpr hentry
      blocks := hblocks
      defaults := fun sw hsw => (hfix _).mpr (hdefaults sw hsw)
      targets := fun arm harm => (hfix _).mpr (htargets arm harm)
      bodies := fun row hrow => (hfix _).mpr (hbodies row hrow)
      exits := fun row hrow =>
        ⟨(hfix _).mpr (hexits row hrow).1, (hfix _).mpr (hexits row hrow).2⟩
      discharges := fun row hrow scope body how =>
        (hfix _).mpr (hdischarges row hrow scope body how) }
  · intro h
    exact ⟨h.blocks, fun sw hsw => (hfix _).mp (h.defaults sw hsw),
      fun arm harm => (hfix _).mp (h.targets arm harm),
      fun row hrow => (hfix _).mp (h.bodies row hrow),
      fun row hrow => ⟨(hfix _).mp (h.exits row hrow).1, (hfix _).mp (h.exits row hrow).2⟩,
      fun row hrow scope body how => (hfix _).mp (h.discharges row hrow scope body how),
      (hfix _).mp h.entry⟩

end Symmetries

/-! ## The encoding tells reorderings apart -/

/-- Pools of the same length are written apart. -/
theorem write_pool_inj {α : Type} {write : α → List UInt32} {item : Reader α}
    {strict : List UInt32 → Bool} (h : Plain write item strict) {xs ys : List α}
    (hlen : xs.length = ys.length) {rest rest' : List UInt32}
    (heq : write_pool write xs ++ rest = write_pool write ys ++ rest') : xs = ys ∧ rest = rest' := by
  have hmany := h.many (fun _ => id) xs.length
  have hx := hmany.read_write (a := xs) ⟨rfl, fun _ _ => trivial⟩ rest
  have hy := hmany.read_write (a := ys) ⟨hlen.symm, fun _ _ => trivial⟩ rest'
  have hrows : xs.flatMap write ++ rest = ys.flatMap write ++ rest' := by
    simpa [write_pool, hlen] using heq
  rw [hrows, hy] at hx
  obtain ⟨hxy, hrest⟩ := Prod.mk.inj (Except.ok.inj hx)
  exact ⟨hxy.symm, hrest.symm⟩

/-- Two reorderings of one declaration are written apart. -/
theorem to_words_reorder_inj {d : DeclFmir} {o1 o2 : List BlockId}
    (h₁ : IsOrder d.blocks.length o1) (h₂ : IsOrder d.blocks.length o2)
    (hn : d.blocks.length < 2 ^ 32) (heq : to_words (d.reorder o1) = to_words (d.reorder o2)) :
    d.reorder o1 = d.reorder o2 := by
  have hlen : (d.reorder o1).blocks.length = (d.reorder o2).blocks.length := by
    rw [length_blocks_reorder h₁ hn, length_blocks_reorder h₂ hn]
  rw [DeclFmir.reorder, DeclFmir.reorder] at *
  simp only [DeclFmir.remap, to_words, write_insts, write_exit_pool, append_assoc,
    cons_append, nil_append, cons.injEq, true_and,
    append_cancel_left_eq] at heq hlen
  obtain ⟨hentry, heq⟩ := heq
  obtain ⟨hswitches, heq⟩ := write_pool_inj switch_plain (by simp) heq
  obtain ⟨harms, heq⟩ := write_pool_inj switch_arm_plain (by simp) heq
  obtain ⟨hblocks, heq⟩ := write_pool_inj block_plain hlen heq
  rw [append_cancel_left_eq] at heq
  obtain ⟨hdefers, heq⟩ := write_pool_inj defer_plain (by simp) heq
  simp only [append_cancel_left_eq] at heq
  obtain ⟨hexits, heq⟩ := write_pool_inj exit_row_plain (by simp) heq
  simp only [append_cancel_left_eq] at heq
  rw [← append_nil (write_pool _ _), ← append_nil (write_pool _ (d.exits.discharges.map
    (remap_discharge_blocks (rank o2))))] at heq
  obtain ⟨hdischarges, -⟩ := write_pool_inj discharge_row_plain (by simp) heq
  simp [DeclFmir.remap, hentry, hswitches, harms, hblocks, hdefers, hexits, hdischarges]

/-! ## Invariance -/

/-- The bytes `fmir_hash` hashes. -/
def canonical_bytes (d : DeclFmir) : Except Fault (List UInt8) := do
  let canonical ← canonicalize d
  return to_bytes canonical

theorem fmir_hash_eq (d : DeclFmir) : fmir_hash d = (canonical_bytes d).map hash_bytes := by
  rw [fmir_hash, canonical_bytes]
  cases canonicalize d <;> rfl

/-- How a new storage order moves the blocks that no terminator leads to: each becomes the one
at its place among them. -/
noncomputable def DeclFmir.shift (d : DeclFmir) (order : List BlockId) : BlockId → BlockId :=
  along (d.unreached (ids d.blocks.length)) (d.unreached order)

section Invariance

variable {d : DeclFmir} {order : List BlockId}

theorem canonicalize_error {fault : Fault} (h : canonical_order d = .error fault) :
    canonicalize d = .error fault := by
  rw [canonicalize, canonical_block_order, h]
  rfl

theorem isOrder_unreached {visited : List BlockId} (horder : IsOrder d.blocks.length order)
    (hn : d.blocks.length < 2 ^ 32)
    (h : canonical_order d = .ok (visited ++ d.unreached (ids d.blocks.length))) :
    IsOrder d.blocks.length (visited ++ d.unreached order) := by
  have hcanonical := isOrder_canonical_order hn h
  have hperm : order.Perm (ids d.blocks.length) :=
    (perm_ext_iff_of_nodup horder.nodup (isOrder_ids hn).nodup).mpr fun b => by
      rw [horder.mem_iff, (isOrder_ids hn).mem_iff]
  have hunreached : (visited ++ d.unreached order).Perm
      (visited ++ d.unreached (ids d.blocks.length)) := (hperm.filter _).append_left _
  exact ⟨hunreached.nodup_iff.mpr hcanonical.nodup, fun b => by
    rw [hunreached.mem_iff, hcanonical.mem_iff]⟩

theorem canonical_bytes_eq_iff (horder : IsOrder d.blocks.length order)
    (hn : d.blocks.length < 2 ^ 32) :
    canonical_bytes (d.reorder order) = canonical_bytes d ↔
      (d.Traversable → d.Symmetry (d.shift order)) := by
  have hn' : (d.reorder order).blocks.length < 2 ^ 32 := by
    rwa [length_blocks_reorder horder hn]
  rcases canonical_orders horder hn with ⟨fault, h, h', hfault⟩ | ⟨visited, h, h', htrav⟩
  · rw [canonical_bytes, canonical_bytes, canonicalize_error h, canonicalize_error h']
    exact ⟨fun _ ht => absurd ht hfault, fun _ => rfl⟩
  · have h₁ := isOrder_canonical_order hn h
    have h₂ := isOrder_unreached horder hn h
    have hshift : along (visited ++ d.unreached (ids d.blocks.length))
        (visited ++ d.unreached order) = d.shift order :=
      funext fun b => along_append visited h₁.nodup b
    rw [canonical_bytes, canonical_bytes, canonicalize_eq hn h, canonicalize_eq hn' h',
      reorder_reorder horder hn h₂, ← hshift, ← reorder_eq_iff h₁ h₂ hn]
    constructor
    · intro heq _
      have hwords := into_bytes_inj (Except.ok.inj heq)
      exact (to_words_reorder_inj h₂ h₁ hn hwords).symm
    · intro heq
      rw [heq htrav]

/-- Renumbering the blocks leaves the canonical bytes, and so the hash, as they are exactly when
the way it moves the blocks that no terminator leads to is a symmetry of the declaration. -/
theorem canonical_bytes_reorder_iff (d : DeclFmir) (order : List BlockId)
    (hn : d.blocks.length < 2 ^ 32) (horder : IsOrder d.blocks.length order) :
    (canonical_bytes (d.reorder order) = canonical_bytes d ↔
      (d.Traversable → d.Symmetry (d.shift order))) ∧
    ((d.Traversable → d.Symmetry (d.shift order)) →
      fmir_hash (d.reorder order) = fmir_hash d) := by
  have hbytes := canonical_bytes_eq_iff horder hn
  refine ⟨hbytes, fun h => ?_⟩
  rw [fmir_hash_eq, fmir_hash_eq, hbytes.mpr h]

theorem isOrder_swapped : IsOrder 3 [0, 2, 1] := by
  refine ⟨by decide, fun b => ?_⟩
  have h0 : b = 0 ↔ b.toNat = 0 := UInt32.toNat_inj.symm
  have h1 : b = 1 ↔ b.toNat = 1 := UInt32.toNat_inj.symm
  have h2 : b = 2 ↔ b.toNat = 2 := UInt32.toNat_inj.symm
  simp only [mem_cons, not_mem_nil, or_false, h0, h1, h2]
  omega

end Invariance

/-! ## Two deferred bodies -/

/-- A `ret` under two nested scopes with a deferred body each, stored in blocks 1 and 2. -/
def two_bodies : DeclFmir :=
  { DeclFmir.empty 7 3 with
    blocks := [⟨0, 0, .plain .Ret, 1⟩, ⟨0, 0, { InstRow.plain .Br with a := BODY_END }, 1⟩,
      ⟨0, 0, { InstRow.plain .Br with a := BODY_END }, 0⟩]
    scopes := [{ ScopeRow.root ABSENT with defers := ⟨1, 2⟩ },
      { ScopeRow.root ABSENT with parent := 0, defers := ⟨0, 1⟩ }]
    defers := [⟨.Defer, 1, 0⟩, ⟨.Defer, 2, 0⟩]
    exits := ⟨[{ ExitEdgeRow.plain 0 ABSENT .Normal with scopes := ⟨0, 2⟩, pending := ⟨0, 2⟩ }],
      [1, 0], [0, 1], [], []⟩ }

theorem canonical_bytes_reorder_iff_two_bodies :
    (canonical_bytes (two_bodies.reorder [0, 2, 1]) = canonical_bytes two_bodies ↔
      (two_bodies.Traversable → two_bodies.Symmetry (two_bodies.shift [0, 2, 1]))) ∧
    ((two_bodies.Traversable → two_bodies.Symmetry (two_bodies.shift [0, 2, 1])) →
      fmir_hash (two_bodies.reorder [0, 2, 1]) = fmir_hash two_bodies) :=
  canonical_bytes_reorder_iff two_bodies [0, 2, 1] (by decide) isOrder_swapped

/-- Storing the two bodies of a verified declaration the other way round changes its hash. -/
theorem swapped_bodies_change_hash :
    verify 3 two_bodies = .ok [] ∧ IsOrder two_bodies.blocks.length [0, 2, 1] ∧
      canonical_bytes (two_bodies.reorder [0, 2, 1]) ≠ canonical_bytes two_bodies ∧
      fmir_hash (two_bodies.reorder [0, 2, 1]) ≠ fmir_hash two_bodies :=
  ⟨by decide +kernel, isOrder_swapped, by decide +kernel, by decide +kernel⟩

end Fors.Fmir
