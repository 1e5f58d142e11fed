import Fors.Fmir.BlockOrder
import Fors.Fmir.Dump
import Fors.Fmir.RoundTrip
import Fors.Fmir.Verify
import Mathlib.Algebra.GroupWithZero.Nat

/-!
# Where the passes are total

`verify`, `fmir_hash` and `dump` end without a fault on a decoded declaration exactly when it is
`Safe`: no block window overflows, every switch row a terminator or a dumped instruction names
has its arms in range, every seed place that is dumped exists, and every parent walk of the
verifier meets its scope or leaves the pool.

Principal result: `decoded_total_iff_safe`.
-/

namespace Fors.Fmir

open Runs List

/-! ## The condition -/

namespace DeclFmir

variable (d : DeclFmir)

/-- The walk outward from a scope meets `stop` or leaves the pool. -/
inductive WalkEnds (stop : ScopeId) : ScopeId → Prop
  | met : WalkEnds stop stop
  | out {s} : d.scopes[s.toNat]? = none → WalkEnds stop s
  | step {s r} : d.scopes[s.toNat]? = some r → WalkEnds stop r.parent → WalkEnds stop s

/-- The arms of the switch row an instruction names are in range. -/
def ArmsFit (inst : InstRow) : Prop :=
  inst.op = .SwitchDiscr → ∀ sw, d.insts.switches[inst.a.toNat]? = some sw →
    sw.arms.start ≤ sw.arms.end_ ∧ sw.arms.end_.toNat ≤ d.insts.switch_arms.length

/-- The place an alias seed names exists. -/
def SeedFits : AliasSeed → Prop
  | .Own p | .Split p _ => p.toNat < d.places.rows.length
  | _ => True

/-- An exit edge whose listed scopes pass every check before the walk to its target. -/
structure Walked (row : ExitEdgeRow) (stop start : ScopeId) : Prop where
  chain : ∃ from_ last lastRow, d.blocks[row.from_.toNat]? = some from_ ∧
    (d.leaving row).head? = some from_.scope ∧ chain_fault d.scopes (d.leaving row) = none ∧
    (d.leaving row).getLast? = some last ∧ d.scopes[last.toNat]? = some lastRow ∧
    stop = lastRow.parent
  target : row.is_function_exit = false ∧
    ∃ to_, d.blocks[row.to_.toNat]? = some to_ ∧ start = to_.scope

/-- A dumped instruction: its switch arms are in range and, when it gets a name, so is the place
of its seed. -/
def InstFits (p : InstRow × Nat) : Prop :=
  d.ArmsFit p.1 ∧ ((inst_to_val d)[p.2]?.getD none ≠ none → p.1.op.is_memory_producing →
    d.SeedFits (d.insts.alias_ p.2))

/-- What the passes rely on at one block. -/
structure BlockFits (b : BlockRow) : Prop where
  bounds : b.first_inst.toNat + b.inst_len.toNat < 2 ^ 32
  term : d.ArmsFit b.term
  insts : ∀ p ∈ window d.insts ⟨b.first_inst, b.first_inst + b.inst_len⟩, d.InstFits p

/-- What the decoder does not check and the passes rely on. -/
structure Safe : Prop where
  blocks : ∀ b ∈ d.blocks, d.BlockFits b
  walks : ∀ row ∈ d.exits.rows, ∀ stop start, d.Walked row stop start → d.WalkEnds stop start

/-- The three passes end, and none of them faults. -/
def Total : Prop :=
  (∃ fuel diags, verify fuel d = .ok diags) ∧ (∃ h, fmir_hash d = .ok h) ∧
    ∃ text, dump d = .ok text

end DeclFmir

/-! ## Primitive steps -/

section Steps

variable {d : DeclFmir}

theorem exists_add_u32_iff {a b : UInt32} :
    (∃ c, add_u32 a b = .ok c) ↔ a.toNat + b.toNat < 2 ^ 32 := by
  rw [add_u32]
  constructor
  · rintro ⟨c, hc⟩
    by_contra h
    rw [if_neg h] at hc
    cases hc
  · exact fun h => ⟨a + b, if_pos h⟩

theorem inst_range_eq {b : BlockRow} (h : b.first_inst.toNat + b.inst_len.toNat < 2 ^ 32) :
    b.inst_range = .ok ⟨b.first_inst, b.first_inst + b.inst_len⟩ := by
  rw [BlockRow.inst_range, add_u32, if_pos h]
  rfl

theorem windows_of_inst_range {b : BlockRow} {r : Range} (h : b.inst_range = .ok r) :
    b.first_inst.toNat + b.inst_len.toNat < 2 ^ 32 := by
  simp only [BlockRow.inst_range, bind_eq_ok] at h
  obtain ⟨stop, hstop, -⟩ := h
  exact exists_add_u32_iff.mp ⟨stop, hstop⟩

theorem exists_slice_iff {α : Type} {rows : List α} {r : Range} :
    (∃ xs, slice rows r = .ok xs) ↔ r.start ≤ r.end_ ∧ r.end_.toNat ≤ rows.length := by
  rw [slice]
  split <;> simp [*]

theorem exists_index_iff {α : Type} {rows : List α} {i : UInt32} :
    (∃ x, index rows i = .ok x) ↔ i.toNat < rows.length := by
  rw [index]
  cases h : rows[i.toNat]? with
  | none => simpa using h
  | some x => simpa using (List.getElem?_eq_some_iff.mp h).1

end Steps

/-! ## The verifier -/

section Verifier

variable {d : DeclFmir} {fuel : Nat}

theorem exists_check_terminators_iff :
    (∃ diags, check_terminators d = .ok diags) ↔
      ∀ b ∈ d.blocks, b.first_inst.toNat + b.inst_len.toNat < 2 ^ 32 := by
  rw [check_terminators, exists_bind_pure, exists_mapM_eq_ok]
  rw [← forall_mem_all_rows (p := fun b : BlockRow =>
    b.first_inst.toNat + b.inst_len.toNat < 2 ^ 32)]
  refine forall₂_congr fun x _ => ?_
  simp only [stray_terminator_indices, exists_bind_pure]
  constructor
  · rintro ⟨r, hr⟩
    exact windows_of_inst_range hr
  · intro h
    exact ⟨_, inst_range_eq h⟩

/-- What is left to push in the walk over a deferred body: the successors of the blocks not
seen yet. -/
def bodyWork (d : DeclFmir) (blocks : List BlockRow) (seen : List Bool) : Nat :=
  (List.zipWith (fun b s => if s then 0 else (body_successors d b.term).length) blocks seen).sum

theorem bodyWork_set {blocks : List BlockRow} {seen : List Bool} {i : Nat} {b : BlockRow}
    (hb : blocks[i]? = some b) (hs : seen[i]? = some false) :
    bodyWork d blocks (seen.set i true) + (body_successors d b.term).length =
      bodyWork d blocks seen := by
  induction blocks generalizing seen i with
  | nil => simp at hb
  | cons c blocks ih =>
    cases seen with
    | nil => simp at hs
    | cons s seen =>
      cases i with
      | zero =>
        obtain rfl : c = b := by simpa using hb
        obtain rfl : s = false := by simpa using hs
        simp [bodyWork]
        omega
      | succ i =>
        have := ih (by simpa using hb) (by simpa using hs)
        simp only [bodyWork, set_cons_succ, zipWith_cons_cons, sum_cons] at this ⊢
        omega

/-- The walk over a body ends once its fuel covers what is queued and what is left to push. -/
theorem exists_walk_body {i : Nat} {body : BlockId} {seen : List Bool} {stack : List BlockId}
    {reaches_end : Bool} {out : List Diagnostic} (hlen : seen.length = d.blocks.length)
    (hfuel : bodyWork d d.blocks seen + stack.length ≤ fuel) :
    ∃ r, walk_body d i body fuel seen stack reaches_end out = .ok r := by
  induction fuel generalizing seen stack reaches_end out with
  | zero =>
    cases stack with
    | nil => exact ⟨_, rfl⟩
    | cons b stack => simp at hfuel
  | succ fuel ih =>
    cases stack with
    | nil => exact ⟨_, rfl⟩
    | cons b stack =>
      rw [List.length_cons] at hfuel
      rw [walk_body]
      split
      · exact ih hlen (by omega)
      · split
        · exact ih hlen (by omega)
        · rename_i blk hblk
          have hb : b.toNat < seen.length := hlen ▸ (List.getElem?_eq_some_iff.mp hblk).1
          split
          · exact ih hlen (by omega)
          · rename_i hseen
            have hs : seen[b.toNat]? = some false := by
              rw [List.getElem?_eq_getElem hb]
              simpa [List.getD, hb] using hseen
            have := bodyWork_set (d := d) hblk hs
            refine ih (by rwa [List.length_set]) ?_
            rw [List.length_append, List.length_reverse]
            omega

theorem exists_check_defer_bodies :
    ∃ N, ∀ fuel ≥ N, ∃ diags, check_defer_bodies fuel d = .ok diags := by
  refine ⟨bodyWork d d.blocks (List.replicate d.blocks.length false) + 1, fun fuel hfuel => ?_⟩
  rw [check_defer_bodies, exists_bind_pure, exists_mapM_eq_ok]
  rintro ⟨row, i⟩ -
  dsimp only
  split
  · exact ⟨_, rfl⟩
  · rw [exists_bind_pure]
    exact exists_walk_body length_replicate (by simpa using hfuel)

variable {stop start : ScopeId}

theorem walk_to_mono {met : Bool} {fuel' : Nat} (hle : fuel ≤ fuel')
    (h : walk_to d.scopes stop fuel start = .ok met) :
    walk_to d.scopes stop fuel' start = .ok met := by
  induction fuel generalizing start fuel' with
  | zero => simp [walk_to] at h
  | succ fuel ih =>
    obtain ⟨fuel', rfl⟩ : ∃ k, fuel' = k + 1 := ⟨fuel' - 1, by omega⟩
    rw [walk_to] at h ⊢
    split at h
    · rename_i hs
      rwa [if_pos hs]
    · rename_i hs
      rw [if_neg hs]
      split at h
      · rename_i hrow
        simpa [hrow] using h
      · rename_i r hrow
        simpa [hrow] using ih (by omega) h

/-- Some fuel is enough for the loop of `check_edge_scopes` exactly when the walk ends. -/
theorem exists_walk_to_iff :
    (∃ fuel met, walk_to d.scopes stop fuel start = .ok met) ↔ d.WalkEnds stop start := by
  constructor
  · rintro ⟨fuel, met, h⟩
    induction fuel generalizing start with
    | zero => simp [walk_to] at h
    | succ fuel ih =>
      rw [walk_to] at h
      split at h
      · rename_i hs
        exact hs ▸ .met
      · split at h
        · rename_i hrow
          exact .out hrow
        · rename_i r hrow
          exact .step hrow (ih h)
  · intro h
    induction h with
    | met => exact ⟨1, true, by simp [walk_to]⟩
    | @out s hrow =>
      by_cases hs : s = stop
      · exact ⟨1, true, by simp [walk_to, hs]⟩
      · exact ⟨1, false, by simp [walk_to, hs, hrow]⟩
    | @step s r hrow _ ih =>
      obtain ⟨fuel, met, ih⟩ := ih
      by_cases hs : s = stop
      · exact ⟨1, true, by simp [walk_to, hs]⟩
      · exact ⟨fuel + 1, met, by simp [walk_to, hs, hrow, ih]⟩

variable {id : ExitEdgeId} {row : ExitEdgeRow}

/-- `check_edge_scopes` returns when the walk it comes to, if it comes to one, returns. -/
theorem exists_check_edge_scopes_iff {from_ : BlockRow}
    (hfrom : d.blocks[row.from_.toNat]? = some from_) :
    (∃ diags, check_edge_scopes fuel d id row from_.scope = .ok diags) ↔
      ∀ stop start, d.Walked row stop start →
        ∃ met, walk_to d.scopes stop fuel start = .ok met := by
  constructor
  · rintro ⟨diags, h⟩ stop start ⟨⟨from', last, lastRow, hfrom', hhead, hchain, hlast, hrow, rfl⟩,
      hexit, to_, hto, rfl⟩
    obtain rfl : from' = from_ := by simpa [hfrom] using hfrom'.symm
    simp only [check_edge_scopes, hhead, hlast, hchain, hrow, hexit, hto, ne_eq, not_true_eq_false,
      if_false, Bool.false_eq_true, bind_eq_ok] at h
    obtain ⟨met, hmet, -⟩ := h
    exact ⟨met, hmet⟩
  · intro h
    rw [check_edge_scopes]
    dsimp only
    split
    · rename_i first last hfirst hlast
      split
      · exact ⟨_, rfl⟩
      rename_i hfs
      split
      · exact ⟨_, rfl⟩
      rename_i hchain
      split
      · exact ⟨_, rfl⟩
      rename_i lastRow hrow
      split
      · exact ⟨_, rfl⟩
      rename_i hexit
      split
      · exact ⟨_, rfl⟩
      rename_i to_ hto
      have hwalked : d.Walked row lastRow.parent to_.scope :=
        ⟨⟨from_, last, lastRow, hfrom, by simpa [hfirst] using hfs, hchain, hlast, hrow, rfl⟩,
          by simpa using hexit, to_, hto, rfl⟩
      obtain ⟨met, hmet⟩ := h _ _ hwalked
      rw [hmet]
      cases met <;> exact ⟨_, rfl⟩
    · exact ⟨_, rfl⟩

theorem exists_check_exit_edge_iff :
    (∃ diags, check_exit_edge fuel d id row = .ok diags) ↔
      ∀ stop start, d.Walked row stop start →
        ∃ met, walk_to d.scopes stop fuel start = .ok met := by
  rw [check_exit_edge]
  split
  · rename_i hfrom
    refine ⟨fun _ stop start hw => ?_, fun _ => ⟨_, rfl⟩⟩
    obtain ⟨⟨from_, _, _, hfrom', -⟩, -⟩ := hw
    simp [hfrom] at hfrom'
  · rename_i from_ hfrom
    rw [exists_bind_pure]
    exact exists_check_edge_scopes_iff hfrom

theorem walked_unique {stop' start' : ScopeId}
    (h : d.Walked row stop start) (h' : d.Walked row stop' start') :
    stop = stop' ∧ start = start' := by
  obtain ⟨⟨_, last, lastRow, -, -, -, hlast, hrow, rfl⟩, -, to_, hto, rfl⟩ := h
  obtain ⟨⟨_, last', lastRow', -, -, -, hlast', hrow', rfl⟩, -, to', hto', rfl⟩ := h'
  obtain rfl : last = last' := by simpa [hlast] using hlast'
  obtain rfl : lastRow = lastRow' := by simpa [hrow] using hrow'
  obtain rfl : to_ = to' := by simpa [hto] using hto'
  exact ⟨rfl, rfl⟩

/-- An edge is checked with enough fuel when its walk, if it has one, ends. -/
theorem exists_bound_of_walkEnds
    (h : ∀ stop start, d.Walked row stop start → d.WalkEnds stop start) :
    ∃ N, ∀ fuel ≥ N, ∃ diags, check_exit_edge fuel d id row = .ok diags := by
  by_cases hw : ∃ stop start, d.Walked row stop start
  · obtain ⟨stop, start, hw⟩ := hw
    obtain ⟨N, met, hmet⟩ := exists_walk_to_iff.mpr (h stop start hw)
    refine ⟨N, fun fuel hfuel => exists_check_exit_edge_iff.mpr fun stop' start' hw' => ?_⟩
    obtain ⟨rfl, rfl⟩ := walked_unique hw hw'
    exact ⟨met, walk_to_mono hfuel hmet⟩
  · refine ⟨0, fun fuel _ => exists_check_exit_edge_iff.mpr fun stop start hw' => ?_⟩
    exact absurd ⟨stop, start, hw'⟩ hw

theorem exists_verify_iff :
    (∃ fuel diags, verify fuel d = .ok diags) ↔
      (∀ b ∈ d.blocks, b.first_inst.toNat + b.inst_len.toNat < 2 ^ 32) ∧
        ∀ row ∈ d.exits.rows, ∀ stop start, d.Walked row stop start → d.WalkEnds stop start := by
  constructor
  · rintro ⟨fuel, diags, h⟩
    simp only [verify, bind_eq_ok] at h
    obtain ⟨terminators, hterminators, _, -, edges, hedges, -⟩ := h
    refine ⟨exists_check_terminators_iff.mp ⟨terminators, hterminators⟩, ?_⟩
    have hall := exists_mapM_eq_ok.mp (exists_bind_pure.mp ⟨edges, hedges⟩)
    intro row hrow stop start hw
    obtain ⟨i, hi⟩ := mem_iff_getElem?.mp hrow
    obtain ⟨met, hmet⟩ := exists_check_exit_edge_iff.mp (hall _ (mem_all_rows hi)) stop start hw
    exact exists_walk_to_iff.mp ⟨fuel, met, hmet⟩
  · rintro ⟨hwindows, hwalks⟩
    obtain ⟨terminators, hterminators⟩ := exists_check_terminators_iff.mpr hwindows
    obtain ⟨N, hbodies⟩ := exists_check_defer_bodies (d := d)
    have hbound : ∀ p ∈ all_rows d.exits.rows, ∃ N, ∀ fuel ≥ N,
        ∃ diags, check_exit_edge fuel d p.1 p.2 = .ok diags := by
      intro p hp
      obtain ⟨i, hi, -⟩ := exists_of_mem_all_rows hp
      exact exists_bound_of_walkEnds (hwalks p.2 (mem_of_getElem? hi))
    obtain ⟨M, hedges⟩ := exists_common_bound hbound
    obtain ⟨bodies, hbodies⟩ := hbodies (N + M) (by omega)
    obtain ⟨edges, hedges⟩ := exists_mapM_eq_ok.mpr (hedges (N + M) (by omega))
    have hchecked : check_exit_edges (N + M) d = .ok edges.flatten := by
      simp only [check_exit_edges, bind_eq_ok, pure_eq_ok]
      exact ⟨edges, hedges, rfl⟩
    refine ⟨N + M, ?_⟩
    simp only [verify, bind_eq_ok, pure_eq_ok]
    exact ⟨_, terminators, hterminators, bodies, hbodies, _, hchecked, rfl⟩

end Verifier

/-! ## The hash and the dump -/

section Passes

variable {d : DeclFmir}

/-- A terminator whose switch row has its arms in range has a successor list. -/
theorem exists_successors_iff {term : InstRow} :
    (∃ ts, successors term d.insts = .ok ts) ↔ d.ArmsFit term := by
  rw [DeclFmir.ArmsFit, successors]
  split
  · rename_i hop; simp [hop]
  · rename_i hop; simp [hop]
  · rename_i hop; simp [hop]
  · rename_i hop
    simp only [hop, true_imp_iff]
    split
    · rename_i hsw; simp [hsw]
    · rename_i sw hsw
      rw [exists_bind_pure, exists_slice_iff]
      simp [hsw]
  · rename_i hop
    exact ⟨fun _ h => (hop h).elim, fun _ => ⟨[], rfl⟩⟩

theorem exists_fmir_hash (hn : d.blocks.length < 2 ^ 32) (h : ∀ b ∈ d.blocks, d.ArmsFit b.term) :
    ∃ hash, fmir_hash d = .ok hash := by
  rw [fmir_hash, exists_bind_pure, exists_canonicalize_iff hn]
  exact exists_canonical_order fun b hb => exists_successors_iff.mpr (h b hb)

variable {inst : InstRow}

theorem exists_dump_operands_iff :
    (∃ text, dump_operands d inst = .ok text) ↔ d.ArmsFit inst := by
  rw [DeclFmir.ArmsFit]
  by_cases hop : inst.op = .SwitchDiscr
  · simp only [hop, true_imp_iff, dump_operands]
    split
    · rename_i hsw; simp [hsw]
    · rename_i sw hsw
      rw [dump_switch, exists_bind_pure, exists_slice_iff]
      simp [hsw]
  · refine ⟨fun _ h => (hop h).elim, fun _ => ?_⟩
    rw [dump_operands]
    dsimp only
    split <;> first
      | exact ⟨_, rfl⟩
      | (split <;> exact ⟨_, rfl⟩)
      | (rename_i h; exact (hop h).elim)

theorem exists_place_root_iff {p : PlaceId} :
    (∃ root, place_root d p = .ok root) ↔ p.toNat < d.places.rows.length := by
  rw [place_root, exists_bind_pure, exists_index_iff]

theorem exists_dump_seed_iff {i : Nat} :
    (∃ text, dump_seed d (some i) inst = .ok text) ↔
      (inst.op.is_memory_producing → d.SeedFits (d.insts.alias_ i)) := by
  rw [dump_seed]
  split
  · rename_i hop
    exact ⟨fun _ h => (hop h).elim, fun _ => ⟨"", rfl⟩⟩
  · rename_i hop
    simp only [not_not] at hop
    simp only [hop, true_imp_iff]
    cases d.insts.alias_ i with
    | None | Conv | Arena => simp [DeclFmir.SeedFits]
    | Own p => exact exists_bind_pure.trans exists_place_root_iff
    | Split p side => exact exists_bind_pure.trans exists_place_root_iff

/-- A table of names none of which lies past the values. -/
def Named (d : DeclFmir) (table : List (Option ValId)) : Prop :=
  ∀ (i : Nat) (v : ValId), table[i]? = some (some v) → v.toNat < d.vals.rows.length

/-- The names `dump` gives to instructions are ids of values. -/
theorem named_inst_to_val (hv : d.vals.rows.length < 2 ^ 32) : Named d (inst_to_val d) := by
  rw [inst_to_val]
  refine List.foldlRecOn (motive := Named d) (all_rows d.vals.rows) _ ?_ ?_
  · intro i v h
    simp [List.getElem?_replicate] at h
  · rintro table htable ⟨id, row⟩ hmem i v h
    obtain ⟨k, hk, rfl⟩ := exists_of_mem_all_rows hmem
    have hk : k < d.vals.rows.length := (List.getElem?_eq_some_iff.mp hk).1
    dsimp only at h
    split at h
    · rw [List.getElem?_set] at h
      split at h
      · split at h
        · obtain rfl : UInt32.ofNat k = v := by simpa using h
          rwa [UInt32.toNat_ofNat_of_lt' (by simp only [UInt32.size]; omega)]
        · simp at h
      · exact htable i v h
    · exact htable i v h

theorem not_memory_producing {op : Op} (h : op.is_terminator = true) :
    op.is_memory_producing = false := by
  cases op <;> first | rfl | cases h

theorem exists_dump_inst_iff (hv : d.vals.rows.length < 2 ^ 32) {i : Nat} :
    (∃ text, dump_inst_as_do d (some i) inst ((inst_to_val d)[i]?.getD none) = .ok text) ↔
      d.InstFits (inst, i) := by
  rw [DeclFmir.InstFits]
  dsimp only
  rw [dump_inst_as_do, exists_bind_iff]
  cases hdest : (inst_to_val d)[i]?.getD none with
  | none =>
    simp only [ne_eq, not_true_eq_false, false_imp_iff, and_true, ← exists_dump_operands_iff]
    exact exists_congr fun _ => and_iff_left ⟨_, rfl⟩
  | some v =>
    have hname : (inst_to_val d)[i]? = some (some v) := by
      cases hi : (inst_to_val d)[i]? with
      | none => simp [hi] at hdest
      | some o => simpa [hi] using hdest
    obtain ⟨row, hrow⟩ := exists_index_iff.mpr (named_inst_to_val hv i v hname)
    rw [← exists_dump_seed_iff, ← exists_dump_operands_iff]
    cases hterm : inst.op.is_terminator with
    | true =>
      have hseed : ∃ text, dump_seed d (some i) inst = .ok text :=
        exists_dump_seed_iff.mpr (by simp [not_memory_producing hterm])
      simp only [hseed, ne_eq, reduceCtorEq, not_false_eq_true, true_imp_iff, and_true]
      exact exists_congr fun _ => and_iff_left ⟨_, rfl⟩
    | false =>
      simp only [ne_eq, reduceCtorEq, not_false_eq_true, true_imp_iff]
      rw [← exists_and_right]
      refine exists_congr fun _ => and_congr_right fun _ => ?_
      rw [exists_bind_iff]
      constructor
      · rintro ⟨_, -, h⟩
        exact exists_bind_pure.mp h
      · intro h
        exact ⟨row, hrow, exists_bind_pure.mpr h⟩

theorem exists_dump_block_iff (hv : d.vals.rows.length < 2 ^ 32) {id : BlockId} {b : BlockRow} :
    (∃ text, dump_block d (inst_to_val d) id b = .ok text) ↔ d.BlockFits b := by
  have hterm : (∃ text, dump_inst_as_do d none b.term none = .ok text) ↔ d.ArmsFit b.term := by
    rw [dump_inst_as_do, exists_bind_iff, ← exists_dump_operands_iff]
    exact exists_congr fun _ => and_iff_left ⟨_, rfl⟩
  have hinsts : ∀ r : Range, (∃ texts, (window d.insts r).mapM (fun p =>
      dump_inst_as_do d (some p.2) p.1 ((inst_to_val d)[p.2]?.getD none)) = .ok texts) ↔
        ∀ p ∈ window d.insts r, d.InstFits p := by
    intro r
    rw [exists_mapM_eq_ok]
    exact forall₂_congr fun p _ => exists_dump_inst_iff hv
  rw [dump_block, exists_bind_iff]
  constructor
  · rintro ⟨r, hr, h⟩
    have hw := windows_of_inst_range hr
    obtain rfl : _ = r := Except.ok.inj ((inst_range_eq hw).symm.trans hr)
    rw [exists_bind_iff] at h
    obtain ⟨texts, htexts, h⟩ := h
    exact ⟨hw, hterm.mp (exists_bind_pure.mp h), (hinsts _).mp ⟨texts, htexts⟩⟩
  · rintro ⟨hw, ht, hi⟩
    obtain ⟨texts, htexts⟩ := (hinsts _).mpr hi
    refine ⟨_, inst_range_eq hw, exists_bind_iff.mpr ⟨texts, htexts, ?_⟩⟩
    exact exists_bind_pure.mpr (hterm.mpr ht)

theorem exists_dump_iff (hv : d.vals.rows.length < 2 ^ 32) :
    (∃ text, dump d = .ok text) ↔ ∀ b ∈ d.blocks, d.BlockFits b := by
  rw [dump, exists_bind_pure, exists_mapM_eq_ok, ← forall_mem_all_rows (p := d.BlockFits)]
  exact forall₂_congr fun p _ => exists_dump_block_iff hv

/-- The passes are total exactly on the safe declarations. -/
theorem total_iff_safe_of_lt (hn : d.blocks.length < 2 ^ 32) (hv : d.vals.rows.length < 2 ^ 32) :
    d.Total ↔ d.Safe := by
  rw [DeclFmir.Total, exists_verify_iff, exists_dump_iff hv]
  constructor
  · rintro ⟨⟨-, hwalks⟩, -, hblocks⟩
    exact ⟨hblocks, hwalks⟩
  · intro h
    exact ⟨⟨fun b hb => (h.blocks b hb).bounds, h.walks⟩,
      exists_fmir_hash hn fun b hb => (h.blocks b hb).term, h.blocks⟩

end Passes

/-! ## Decoded declarations -/

/-- What the decoder accepts is run to its end by every pass exactly when it is safe. -/
theorem decoded_total_iff_safe (bytes : List UInt8) (d : DeclFmir)
    (h : from_bytes bytes = .ok d) : d.Total ↔ d.Safe := by
  have hcount := countable_of_from_bytes h
  exact total_iff_safe_of_lt hcount.blocks (by simpa [ValPool.rows] using hcount.vals)

/-- A block with a seeded borrow, a switch row and an exit edge that is walked. -/
theorem filled_safe : filled.Total ∧ filled.Safe := by
  have htotal : filled.Total := ⟨⟨9, _, rfl⟩, ⟨_, rfl⟩, _, rfl⟩
  exact ⟨htotal, (decoded_total_iff_safe (to_bytes filled) filled (by decide +kernel)).mp htotal⟩

/-- The window of the only block ends past the last `u32`. -/
def wrapped_window : DeclFmir :=
  { DeclFmir.empty 7 3 with blocks := [⟨0xFFFFFFFF, 1, .plain .Unreachable, 0⟩] }

/-- A terminator that names a switch row whose arms are inverted. -/
def inverted_arms : DeclFmir :=
  { DeclFmir.empty 7 3 with
    blocks := [⟨0, 0, { InstRow.plain .SwitchDiscr with a := 0 }, 0⟩]
    insts := { (DeclFmir.empty 7 3).insts with switches := [⟨0, 0, ⟨1, 0⟩⟩] } }

/-- An edge into a scope that is its own parent. -/
def own_parent : DeclFmir :=
  { DeclFmir.empty 7 3 with
    blocks := [⟨0, 0, { InstRow.plain .Br with a := 1 }, 0⟩, ⟨0, 0, .plain .Unreachable, 1⟩]
    scopes := [.root ABSENT, { ScopeRow.root ABSENT with parent := 1 }]
    exits := { (DeclFmir.empty 7 3).exits with
      rows := [{ ExitEdgeRow.plain 0 1 .Normal with scopes := ⟨0, 1⟩ }]
      scope_list := [0] } }

theorem own_parent_walks_forever : ¬ own_parent.WalkEnds ABSENT 1 := by
  intro h
  generalize hs : (1 : ScopeId) = s at h
  induction h with
  | met => exact absurd hs (by decide)
  | out hout => subst hs; exact absurd hout (by decide)
  | step hrow _ ih =>
    subst hs
    obtain rfl := Option.some_inj.mp hrow
    exact ih rfl

/-- Three accepted declarations that no run of the passes gets through. -/
theorem decoded_passes_fault :
    (from_bytes (to_bytes wrapped_window) = .ok wrapped_window ∧
      (∀ fuel, verify fuel wrapped_window = .error .overflow) ∧
      dump wrapped_window = .error .overflow) ∧
    (from_bytes (to_bytes inverted_arms) = .ok inverted_arms ∧
      fmir_hash inverted_arms = .error .slice) ∧
    (from_bytes (to_bytes own_parent) = .ok own_parent ∧
      ∀ fuel diags, verify fuel own_parent ≠ .ok diags) := by
  refine ⟨⟨by decide +kernel, fun _ => rfl, rfl⟩, ⟨by decide +kernel, rfl⟩, by decide +kernel, ?_⟩
  intro fuel diags h
  have hwalks := (exists_verify_iff.mp ⟨fuel, diags, h⟩).2
  refine own_parent_walks_forever (hwalks _ mem_cons_self ABSENT 1 ⟨?_, by decide, ?_⟩)
  · exact ⟨_, 0, _, rfl, rfl, by decide, rfl, rfl, rfl⟩
  · exact ⟨_, rfl, rfl⟩

end Fors.Fmir
