import Fors.Fmir.Renumber

/-!
# What the canonical form forgets

Two declarations with the same canonical bytes differ in the numbering of their blocks, and in the
fingerprint that is not written: a bijection of the block ids takes one to the other.

Principal result: `canonical_form_forgets_numbering`.
-/

namespace Fors.Fmir

open Runs Scatter List

/-! ## The order numbers the blocks -/

/-- A new id for each of `n` blocks, each once. -/
structure Numbering (n : Nat) (table : List UInt32) : Prop where
  length : table.length = n
  lt : ∀ c ∈ table, c.toNat < n
  nodup : table.Nodup

section Order

variable {d : DeclFmir} {order : List BlockId} {table : List UInt32}

theorem canonical_block_order_ok (h : canonical_block_order d = .ok table) :
    ∃ order, canonical_order d = .ok order ∧ table = order.zipIdx.foldl (fun table (old, canonical) =>
      table.set old.toNat (UInt32.ofNat canonical)) (List.replicate d.blocks.length 0) := by
  simp only [canonical_block_order, bind_eq_ok, pure_eq_ok] at h
  obtain ⟨order, horder, rfl⟩ := h
  exact ⟨order, horder, rfl⟩

/-- A traversal appends to what it has visited. -/
theorem traverse_prefix {fuel : Nat} {seen seen' : List Bool} {queue order order' : List BlockId}
    (h : traverse d fuel seen queue order = .ok (seen', order')) : order <+: order' := by
  induction fuel generalizing seen queue order with
  | zero =>
    cases queue with
    | nil =>
      obtain ⟨-, rfl⟩ : seen = seen' ∧ order = order' := by simpa [traverse] using h
      exact prefix_rfl
    | cons id queue => cases h
  | succ fuel ih =>
    cases queue with
    | nil =>
      obtain ⟨-, rfl⟩ : seen = seen' ∧ order = order' := by simpa [traverse] using h
      exact prefix_rfl
    | cons id queue =>
      simp only [traverse, bind_eq_ok] at h
      obtain ⟨row, -, targets, -, h⟩ := h
      exact (prefix_append order [id]).trans (ih h)

/-- The entry comes first. -/
theorem canonical_order_entry (hentry : d.entry.toNat < d.blocks.length)
    (h : canonical_order d = .ok order) : order.idxOf d.entry = 0 := by
  simp only [canonical_order, bind_eq_ok, pure_eq_ok] at h
  obtain ⟨⟨seen, visited⟩, hvisited, rfl⟩ := h
  rw [traverse_entry, if_pos hentry] at hvisited
  obtain ⟨n, hn⟩ := Nat.exists_eq_succ_of_ne_zero (Nat.ne_zero_of_lt hentry)
  rw [hn] at hvisited
  simp only [traverse, bind_eq_ok] at hvisited
  obtain ⟨row, -, targets, -, hvisited⟩ := hvisited
  obtain ⟨rest, rfl⟩ := traverse_prefix hvisited
  simp

/-- The entries of the table are the ranks. -/
theorem canonical_block_order_getElem (hn : d.blocks.length < 2 ^ 32)
    (h : canonical_block_order d = .ok table) :
    ∃ order, canonical_order d = .ok order ∧ table.length = d.blocks.length ∧
      ∀ i (hi : i < table.length), table[i] = rank order (UInt32.ofNat i) := by
  obtain ⟨order, horder, rfl⟩ := canonical_block_order_ok h
  have hget := table_getElem? (isOrder_canonical_order hn horder)
  have hlen : (order.zipIdx.foldl (fun table (old, canonical) =>
      table.set old.toNat (UInt32.ofNat canonical)) (List.replicate d.blocks.length 0)).length =
        d.blocks.length := by
    rw [foldl_set_eq (fun p : BlockId × Nat => p.1.toNat) fun p => UInt32.ofNat p.2,
      length_scatter, length_replicate]
  refine ⟨order, horder, hlen, fun i hi => ?_⟩
  have hword : (UInt32.ofNat i).toNat = i := UInt32.toNat_ofNat_of_lt' (show i < 2 ^ 32 by omega)
  have hi' := hget (UInt32.ofNat i)
  rw [hword, if_pos (by omega), getElem?_eq_getElem hi] at hi'
  exact Option.some.inj hi'

theorem canonical_block_order_numbers (hn : d.blocks.length < 2 ^ 32)
    (h : canonical_block_order d = .ok table) : Numbering d.blocks.length table := by
  obtain ⟨order, horder, hlen, hget⟩ := canonical_block_order_getElem hn h
  have hall := isOrder_canonical_order hn horder
  have hword : ∀ i < table.length, (UInt32.ofNat i).toNat = i := fun i hi =>
    UInt32.toNat_ofNat_of_lt' (show i < 2 ^ 32 by omega)
  refine ⟨hlen, fun c hc => ?_, pairwise_iff_getElem.2 fun i j hi hj hij heq => ?_⟩
  · obtain ⟨i, hi, rfl⟩ := getElem_of_mem hc
    rw [hget, rank_lt_iff hall hn, hword i hi]
    omega
  · rw [hget, hget] at heq
    have hsame := congrArg UInt32.toNat (rank_injective hall hn heq)
    rw [hword i hi, hword j hj] at hsame
    omega

/-- The entry is block 0 of the canonical form. -/
theorem canonical_block_order_entry (hn : d.blocks.length < 2 ^ 32)
    (hentry : d.entry.toNat < d.blocks.length) (h : canonical_block_order d = .ok table) :
    table[d.entry.toNat]? = some 0 := by
  obtain ⟨order, horder, hlen, hget⟩ := canonical_block_order_getElem hn h
  have hmem := ((isOrder_canonical_order hn horder).mem_iff d.entry).2 hentry
  rw [getElem?_eq_getElem (hlen ▸ hentry), hget, UInt32.ofNat_toNat, rank, if_pos hmem,
    canonical_order_entry hentry horder]
  rfl

/-- The order exists where no reached terminator slices past the switch arms. -/
theorem exists_canonical_block_order_iff (hn : d.blocks.length < 2 ^ 32) :
    (∃ table, canonical_block_order d = .ok table) ↔ d.Traversable := by
  rcases canonical_orders (isOrder_ids hn) hn with ⟨fault, h, -, hnot⟩ | ⟨visited, h, -, htrav⟩
  · refine ⟨fun ⟨table, htable⟩ => ?_, fun htrav => absurd htrav hnot⟩
    obtain ⟨order, horder, -⟩ := canonical_block_order_ok htable
    rw [h] at horder
    cases horder
  · refine ⟨fun _ => htrav, fun _ => ?_⟩
    rw [canonical_block_order, h]
    exact ⟨_, rfl⟩

end Order

/-! ## Two declarations with one canonical form -/

/-- `d'` is `d` with its blocks under other ids: every block reference is renamed by `f`, and
nothing else changes but the fingerprint. -/
structure DeclFmir.Renames (d : DeclFmir) (f : BlockId → BlockId) (d' : DeclFmir) : Prop where
  bijective : Function.Bijective f
  real : ∀ b : BlockId, (f b).toNat < d'.blocks.length ↔ b.toNat < d.blocks.length
  blocks : ∀ b : BlockId, d'.blocks[(f b).toNat]? = d.moved f b
  rest : { d' with fingerprint := d.fingerprint } = d.remap f d'.blocks

theorem DeclFmir.remap_id (d : DeclFmir) {f : BlockId → BlockId} (hf : ∀ b, f b = b)
    (blocks : List BlockRow) : d.remap f blocks = { d with blocks := blocks } := by
  obtain rfl : f = id := funext hf
  have hrows : remap_blocks (id : BlockId → BlockId) = id := by
    funext row
    by_cases hto : row.to_ = ABSENT <;> simp [remap_blocks]
  have hdischarges : remap_discharge_blocks (id : BlockId → BlockId) = id := by
    funext row
    obtain ⟨place, how⟩ := row
    cases how <;> rfl
  simp [DeclFmir.remap, hrows, hdischarges]

/-- A reordering has pools of the same lengths. -/
theorem encodable_reorder {d : DeclFmir} {order : List BlockId} (h : d.Encodable)
    (horder : IsOrder d.blocks.length order) : (d.reorder order).Encodable where
  countable := {
    vals := h.countable.vals
    insts := {
      rows := h.countable.insts.rows
      seeds := h.countable.insts.seeds
      operands := h.countable.insts.operands
      arg_convs := h.countable.insts.arg_convs
      calls := h.countable.insts.calls
      reduces := h.countable.insts.reduces
      switches := (length_map _).symm ▸ h.countable.insts.switches
      switch_arms := (length_map _).symm ▸ h.countable.insts.switch_arms }
    blocks := (length_blocks_reorder horder h.countable.blocks).symm ▸ h.countable.blocks
    scopes := h.countable.scopes
    defers := (length_map _).symm ▸ h.countable.defers
    regions := h.countable.regions
    captures := h.countable.captures
    sites := h.countable.sites
    obligations := h.countable.obligations
    scoped_sources := h.countable.scoped_sources
    exits := {
      rows := (length_map _).symm ▸ h.countable.exits.rows
      scope_list := h.countable.exits.scope_list
      pending := h.countable.exits.pending
      drops := h.countable.exits.drops
      discharges := (length_map _).symm ▸ h.countable.exits.discharges } }
  places := h.places
  place_rows := h.place_rows
  place_segs := h.place_segs
  consts := h.consts
  const_rows := h.const_rows

section Inverse

variable {d d' : DeclFmir} {order order' : List BlockId}

/-- The blocks of two equal reorderings are one block under two ids. -/
theorem moved_of_reorder_eq (horder : IsOrder d.blocks.length order)
    (horder' : IsOrder d'.blocks.length order') (hn : d.blocks.length < 2 ^ 32)
    (hn' : d'.blocks.length < 2 ^ 32) (heq : (d.reorder order).blocks = (d'.reorder order').blocks)
    {f : BlockId → BlockId} (hf : ∀ b, rank order' (f b) = rank order b) (b : BlockId) :
    d'.blocks[(f b).toNat]? = d.moved f b := by
  have hrow : d'.moved (rank order') (f b) = d.moved (rank order) b := by
    rw [← block_reorder horder' hn', ← block_reorder horder hn, hf, heq]
  rw [DeclFmir.moved, DeclFmir.moved] at hrow
  rw [DeclFmir.moved]
  cases hb : d.blocks[b.toNat]? with
  | none =>
    rw [hb] at hrow
    exact Option.map_eq_none_iff.1 hrow
  | some row =>
    rw [hb] at hrow
    obtain ⟨row', hrow', hsame⟩ := Option.map_eq_some_iff.1 hrow
    obtain ⟨first_inst, inst_len, term, scope⟩ := row
    obtain ⟨first_inst', inst_len', term', scope'⟩ := row'
    simp only [BlockRow.mk.injEq] at hsame
    obtain ⟨hfirst, hlen, hterm, hscope⟩ := hsame
    rw [← remap_targets_remap_targets hf] at hterm
    rw [hrow', hfirst, hlen, remap_targets_inj (rank_injective horder' hn') hterm, hscope]
    rfl

/-- **Two declarations with one reordering are renamings of each other.** -/
theorem renames_of_reorder_eq (horder : IsOrder d.blocks.length order)
    (horder' : IsOrder d'.blocks.length order') (hn : d.blocks.length < 2 ^ 32)
    (hn' : d'.blocks.length < 2 ^ 32)
    (heq : d'.reorder order' = { d.reorder order with fingerprint := d'.fingerprint }) :
    ∃ f, d.Renames f d' := by
  have hblocks : (d.reorder order).blocks = (d'.reorder order').blocks := by
    rw [heq]
  have hcount : d.blocks.length = d'.blocks.length := by
    rw [← length_blocks_reorder horder hn, hblocks, length_blocks_reorder horder' hn']
  have hbij : Function.Bijective (rank order) :=
    ⟨fun _ _ => rank_injective horder hn, exists_rank_eq horder hn⟩
  have hbij' : Function.Bijective (rank order') :=
    ⟨fun _ _ => rank_injective horder' hn', exists_rank_eq horder' hn'⟩
  -- the new id of a block names the block whose canonical id is the same
  obtain ⟨g, hleft, hright⟩ := Function.bijective_iff_has_inverse.1 hbij'
  refine ⟨fun b => g (rank order b), ?_, fun b => ?_, ?_, ?_⟩
  · exact Function.Bijective.comp ⟨hright.injective, hleft.surjective⟩ hbij
  · rw [← rank_lt_iff horder' hn', hright, ← hcount, rank_lt_iff horder hn]
  · exact moved_of_reorder_eq horder horder' hn hn' hblocks fun b => hright _
  · have hback : (d'.reorder order').remap g d'.blocks = d' := by
      rw [DeclFmir.reorder, remap_remap (h := id) hleft (rank_eq_absent_iff horder' hn')]
      exact DeclFmir.remap_id d' (fun _ => rfl) d'.blocks
    have hforth : (d.reorder order).remap g d'.blocks =
        d.remap (fun b => g (rank order b)) d'.blocks := by
      rw [DeclFmir.reorder, remap_remap (fun _ => rfl) (rank_eq_absent_iff horder hn)]
    rw [heq] at hback
    rw [← hforth, ← hback]
    rfl

/-- The canonical form of an encodable declaration is read back from its bytes. -/
theorem reorder_eq_of_bytes (h : (d.reorder order).Encodable) (h' : (d'.reorder order').Encodable)
    (heq : to_bytes (d.reorder order) = to_bytes (d'.reorder order')) :
    d'.reorder order' = { d.reorder order with fingerprint := d'.fingerprint } := by
  have hread := read_to_words h
  rw [into_bytes_inj heq, read_to_words h'] at hread
  have hsame := (Prod.mk.inj (Except.ok.inj hread)).1
  have hback := congrArg (fun c : DeclFmir => { c with fingerprint := d'.fingerprint }) hsame
  exact hback

end Inverse

/-- The bytes of the canonical form are the bytes of a reordering. -/
theorem canonical_bytes_ok {d : DeclFmir} (hn : d.blocks.length < 2 ^ 32) {bytes : List UInt8}
    (h : canonical_bytes d = .ok bytes) :
    ∃ order, IsOrder d.blocks.length order ∧ to_bytes (d.reorder order) = bytes := by
  simp only [canonical_bytes, bind_eq_ok, pure_eq_ok] at h
  obtain ⟨c, hc, rfl⟩ := h
  obtain ⟨order, horder⟩ := (exists_canonicalize_iff hn).1 ⟨c, hc⟩
  rw [canonicalize_eq hn horder] at hc
  cases hc
  exact ⟨order, isOrder_canonical_order hn horder, rfl⟩

/-- **The canonical form forgets the block numbering only**, and the canonical order numbers the
blocks from the entry on. -/
theorem canonical_form_forgets_numbering :
    (∀ d d' : DeclFmir, d.Encodable → d'.Encodable → d.entry.toNat < d.blocks.length →
      d'.entry.toNat < d'.blocks.length → ∀ bytes, canonical_bytes d = .ok bytes →
        canonical_bytes d' = .ok bytes → ∃ f, d.Renames f d') ∧
    ∀ d : DeclFmir, d.blocks.length < 2 ^ 32 →
      ((∃ table, canonical_block_order d = .ok table) ↔ d.Traversable) ∧
      ∀ table, canonical_block_order d = .ok table → Numbering d.blocks.length table ∧
        (d.entry.toNat < d.blocks.length → table[d.entry.toNat]? = some 0) := by
  refine ⟨fun d d' h h' _ _ bytes hb hb' => ?_, fun d hn => ⟨?_, fun table htable => ⟨?_, ?_⟩⟩⟩
  · obtain ⟨order, horder, hbytes⟩ := canonical_bytes_ok h.countable.blocks hb
    obtain ⟨order', horder', hbytes'⟩ := canonical_bytes_ok h'.countable.blocks hb'
    exact renames_of_reorder_eq horder horder' h.countable.blocks h'.countable.blocks
      (reorder_eq_of_bytes (encodable_reorder h horder) (encodable_reorder h' horder')
        (hbytes.trans hbytes'.symm))
  · exact exists_canonical_block_order_iff hn
  · exact canonical_block_order_numbers hn htable
  · exact fun hentry => canonical_block_order_entry hn hentry htable

/-- A minimal declaration with these blocks. -/
def with_blocks (entry : BlockId) (blocks : List BlockRow) : DeclFmir :=
  { DeclFmir.empty 7 3 with
    blocks := blocks
    entry := entry }

theorem encodable_with_blocks (entry : BlockId) {blocks : List BlockRow}
    (h : blocks.length < 2 ^ 32) : (with_blocks entry blocks).Encodable where
  countable := by
    refine ⟨?_, ⟨?_, rfl, ?_, ?_, ?_, ?_, ?_, ?_⟩, h, ?_, ?_, ?_, ?_, ?_, ?_, ?_,
      ⟨?_, ?_, ?_, ?_, ?_⟩⟩ <;> simp [with_blocks, DeclFmir.empty]
  places := .new
  place_rows := by simp [with_blocks, DeclFmir.empty, PlacePool.new]
  place_segs := by simp [with_blocks, DeclFmir.empty, PlacePool.new]
  consts := .new
  const_rows := by simp [with_blocks, DeclFmir.empty, ConstPool.new]

/-- A block that branches, and the one that it branches to. -/
def branch_first : DeclFmir :=
  with_blocks 0 [⟨0, 0, { InstRow.plain .Br with a := 1 }, 0⟩, ⟨0, 0, .plain .Ret, 0⟩]

def branch_last : DeclFmir :=
  with_blocks 1 [⟨0, 0, .plain .Ret, 0⟩, ⟨0, 0, { InstRow.plain .Br with a := 0 }, 0⟩]

theorem branch_renamed : ∃ f, branch_first.Renames f branch_last ∧ f 0 = 1 ∧ f 1 = 0 := by
  obtain ⟨f, hf⟩ := canonical_form_forgets_numbering.1 branch_first branch_last
    (encodable_with_blocks 0 (by decide)) (encodable_with_blocks 1 (by decide)) (by decide)
    (by decide) _ rfl rfl
  have hentry : (1 : BlockId) = f 0 := congrArg DeclFmir.entry hf.rest
  have hreal : (f 1).toNat < 2 := (hf.real 1).mpr (by decide)
  have hne : (f 1).toNat ≠ 1 := fun h =>
    absurd (hf.bijective.injective ((UInt32.toNat_inj.mp h).trans hentry)) (by decide)
  exact ⟨f, hf, hentry.symm, UInt32.toNat_inj.mp (show (f 1).toNat = 0 by omega)⟩

/-! ## Two declarations with one encoding -/

/-- A block that returns. -/
def one_block : DeclFmir :=
  { DeclFmir.empty 7 3 with blocks := [⟨0, 0, .plain .Ret, 0⟩] }

/-- A seed without an instruction, which is written like three operands. -/
def seed_for_operands : DeclFmir :=
  { one_block with insts := { one_block.insts with aliases := [.Arena 0] } }

def three_operands : DeclFmir :=
  { one_block with insts := { one_block.insts with operands := [0, 0, 0] } }

/-- The fingerprint is not in the canonical bytes, and neither is the number of alias seeds. -/
theorem canonical_bytes_collide :
    canonical_bytes { one_block with fingerprint := 5 } = canonical_bytes one_block ∧
      ({ one_block with fingerprint := 5 } : DeclFmir).fingerprint ≠ one_block.fingerprint ∧
      canonical_bytes seed_for_operands = canonical_bytes three_operands ∧
      (∃ bytes, canonical_bytes three_operands = .ok bytes) ∧
      seed_for_operands.places.Built ∧ seed_for_operands.consts.Built ∧
      three_operands.places.Built ∧ three_operands.consts.Built ∧
      seed_for_operands.entry.toNat < seed_for_operands.blocks.length ∧
      three_operands.entry.toNat < three_operands.blocks.length ∧
      ∀ f, ¬ seed_for_operands.Renames f three_operands := by
  refine ⟨rfl, by decide, by decide +kernel, ⟨_, rfl⟩, .new, .new, .new, .new, by decide,
    by decide, fun f h => ?_⟩
  have hoperands : [0, 0, 0] = ([] : List ValId) :=
    congrArg (fun d : DeclFmir => d.insts.operands) h.rest
  cases hoperands

end Fors.Fmir
