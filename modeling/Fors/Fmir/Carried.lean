import Fors.Fmir.Listed
import Fors.Fmir.Written

/-!
# What the text form carries

A written line is the line without the seed its opcode does not take, and without its value if it
is a terminator; a region line above the values cannot name a capture. A declaration with none of
these is written with all it holds.

Principal result: `Listing.words_carried`.
-/

namespace Fors.Fmir

open List hiding getElem?_eq_some_iff

/-- A line that is written with all it holds. -/
structure Line.Faithful (l : Line) : Prop where
  dest : l.dest.isSome → l.op.is_terminator = false
  seed : l.seed ≠ .None → l.op.is_memory_producing = true

structure Listing.Faithful (r : Listing) : Prop where
  captures : ∀ line ∈ r.regions, line.captures.getD [] = []
  lines : ∀ l ∈ r.blocks.flatten, l.Faithful

/-- No region has captures, no value is a terminator's, and no seed is that of an opcode which
produces no memory. -/
structure DeclFmir.Carried (d : DeclFmir) : Prop where
  captures : d.regions.captures = []
  vals : ∀ row ∈ d.vals.rows, ∀ id inst, ValDef.decode row.def_ = .Inst id →
    d.insts.rows[id.toNat]? = some inst → inst.op.is_terminator = false
  seeds : ∀ i inst, d.insts.rows[i]? = some inst → d.insts.alias_ i ≠ .None →
    inst.op.is_memory_producing = true

/-- The rows of the pools that a text fills. -/
def DeclFmir.size (d : DeclFmir) : Nat :=
  d.vals.entries.length + d.blocks.length + d.insts.rows.length + d.insts.operands.length +
    d.insts.switch_arms.length + d.regions.rows.length + d.regions.captures.length

variable {params : List ParamLine} {ls ms : List Line} {l : Line} {r : Listing}

/-! ## Sizes -/

theorem lines_size_eq (params : List ParamLine) (ls : List Line) :
    lines_size ls = (layout params ls).insts.operands.length +
      (layout params ls).insts.switch_arms.length + ls.length := by
  induction ls using List.reverseRecOn with
  | nil => rfl
  | append_singleton ls l ih =>
    have hpush : ((layout params ls).push l).insts.operands.length +
        ((layout params ls).push l).insts.switch_arms.length =
          (layout params ls).insts.operands.length +
            (layout params ls).insts.switch_arms.length + l.operands.size := by
      cases hdest : l.dest with
      | none =>
        rw [Pools.push_none hdest]
        cases l.operands <;> simp [Operands.push, InstPool.push, InstPool.push_operands,
          InstPool.push_call, InstPool.push_switch, Operands.size] <;> omega
      | some dest =>
        rw [Pools.push_some (v := dest.1) (e := dest.2) hdest]
        cases l.operands <;> simp [Operands.push, InstPool.push, InstPool.push_operands,
          InstPool.push_call, InstPool.push_switch, Operands.size] <;> omega
    rw [layout_concat, hpush, lines_size_append, ih, length_append, length_singleton]
    change _ + (l.operands.size + 1) = _
    omega

theorem regions_size_eq (regions : List RegionLine) :
    regions_size regions = (region_pool regions).captures.length +
      (region_pool regions).rows.length := by
  obtain ⟨hreads, hcaptures⟩ := region_pool_reads regions
  rw [hcaptures, hreads.length_eq]
  induction regions with
  | nil => rfl
  | cons line regions ih =>
    obtain ⟨hreads, hcaptures⟩ := region_pool_reads regions
    change (line.captures.getD []).length + 1 + regions_size regions = _
    rw [ih hreads hcaptures, flatMap_cons, length_append, length_cons]
    omega

theorem length_block_rows (rows : List InstRow) (first : Nat) (ns : List Nat) :
    (block_rows rows first ns).length = ns.length := by
  induction ns generalizing first with
  | nil => rfl
  | cons n ns ih => rw [block_rows, length_cons, ih, length_cons]

theorem Listing.size_le (r : Listing) : r.size ≤ r.into_decl.size := by
  have heven := layout_even r.params r.blocks.flatten
  have hlines := lines_size_eq r.params r.blocks.flatten
  have hregions := regions_size_eq r.regions
  have hblocks := length_block_rows r.pools.insts.rows 0 (r.blocks.map List.length)
  have hvals : r.into_decl.vals.entries.length = r.params.length + defs r.blocks.flatten :=
    heven.vals
  have hrows : r.into_decl.insts.rows.length = r.blocks.flatten.length := heven.rows
  rw [length_map] at hblocks
  change r.into_decl.blocks.length = r.blocks.length at hblocks
  unfold Listing.size DeclFmir.size
  rw [hregions, hlines, hblocks, hvals, hrows]
  change _ ≤ _ + _ + _ + r.pools.insts.operands.length + r.pools.insts.switch_arms.length +
    (region_pool r.regions).rows.length + (region_pool r.regions).captures.length
  change _ + _ + _ + (r.pools.insts.operands.length + r.pools.insts.switch_arms.length + _) ≤ _
  omega

/-! ## Lines of the pools -/

variable {i : Nat}

/-- The line that an instruction comes from. -/
theorem Listing.line_at {inst : InstRow} (hrow : r.into_decl.insts.rows[i]? = some inst) :
    ∃ l, r.blocks.flatten[i]? = some l ∧ inst.op = l.op ∧
      l.Reads r.pools i (r.params.length + defs (r.blocks.flatten.take i)) := by
  have hlt : i < r.blocks.flatten.length := by
    rw [← (layout_even r.params r.blocks.flatten).rows]
    exact (List.getElem?_eq_some_iff.mp hrow).1
  have hlines : r.blocks.flatten =
      r.blocks.flatten.take i ++ r.blocks.flatten[i] :: r.blocks.flatten.drop (i + 1) := by
    rw [← drop_eq_getElem_cons hlt, take_append_drop]
  have hreads := layout_reads r.params (r.blocks.flatten.take i) r.blocks.flatten[i]
    (r.blocks.flatten.drop (i + 1))
  rw [← hlines, length_take_of_le (Nat.le_of_lt hlt)] at hreads
  obtain ⟨slots, -, hget⟩ := hreads.row
  have hinst : inst = r.blocks.flatten[i].row slots := by
    have hrow : r.pools.insts.rows[i]? = some inst := hrow
    rw [Listing.pools, hget] at hrow
    exact (Option.some.inj hrow).symm
  refine ⟨_, getElem?_eq_getElem hlt, ?_, hreads⟩
  rw [hinst]
  rfl

theorem Listing.row_at (hl : r.blocks.flatten[i]? = some l) :
    ∃ inst, r.into_decl.insts.rows[i]? = some inst ∧ inst.op = l.op ∧
      l.Reads r.pools i (r.params.length + defs (r.blocks.flatten.take i)) := by
  have hlt : i < r.pools.insts.rows.length := by
    rw [Listing.pools, (layout_even r.params r.blocks.flatten).rows]
    exact (List.getElem?_eq_some_iff.mp hl).1
  have hrow := getElem?_eq_getElem hlt
  obtain ⟨l', hl', hop, hreads⟩ := r.line_at hrow
  rw [hl] at hl'
  cases hl'
  exact ⟨_, hrow, hop, hreads⟩

theorem SeedSpec.Reads.none_iff {seed : SeedSpec} {a : AliasSeed} {roots : List UInt32}
    (h : seed.Reads roots a) : a = .None ↔ seed = .None := by
  cases seed with
  | None => exact ⟨fun _ => rfl, fun _ => h⟩
  | Conv | Arena =>
    rw [show a = _ from h]
    exact ⟨fun hnone => (nomatch hnone), fun hnone => (nomatch hnone)⟩
  | Own | Split =>
    obtain ⟨pre, -, rfl⟩ := h
    exact ⟨fun hnone => (nomatch hnone), fun hnone => (nomatch hnone)⟩

theorem Line.Reads.alias_none_iff {p : Pools} {next : Nat} (h : l.Reads p i next) :
    p.insts.alias_ i = .None ↔ l.seed = .None := by
  obtain ⟨a, ha, halias⟩ := h.alias_
  rw [InstPool.alias_, halias]
  exact ha.none_iff

/-- What the text carries, said of the declaration and of its lines. -/
theorem Listing.carried_iff (hsize : r.size < 2 ^ 31) : r.into_decl.Carried ↔ r.Faithful := by
  have hle := r.lines_le
  have hlen := length_le_lines_size r.blocks.flatten
  obtain ⟨-, hcaptures⟩ := region_pool_reads r.regions
  have hcaptures : r.into_decl.regions.captures = [] ↔
      ∀ line ∈ r.regions, line.captures.getD [] = [] := by
    change (region_pool r.regions).captures = [] ↔ _
    rw [hcaptures, flatMap_eq_nil_iff]
  constructor
  · intro h
    refine ⟨hcaptures.mp h.captures, fun l hl => ?_⟩
    obtain ⟨i, hi⟩ := getElem?_of_mem hl
    obtain ⟨inst, hrow, hop, hreads⟩ := r.row_at hi
    refine ⟨fun hdest => ?_, fun hseed => ?_⟩ <;> rw [← hop]
    · obtain ⟨⟨v, seed⟩, hsome⟩ := Option.isSome_iff_exists.mp hdest
      have hdest := hreads.dest
      rw [Line.DestReads, hsome] at hdest
      have hi : i < 2 ^ 31 := by
        have := (List.getElem?_eq_some_iff.mp hi).1
        omega
      have hid : (UInt32.ofNat i).toNat = i :=
        UInt32.toNat_ofNat_of_lt' (by simp only [UInt32.size]; omega)
      refine h.vals _ (mem_map_of_mem (mem_of_getElem? hdest.2)) (.ofNat i) inst
        (source_of_row hi) ?_
      rw [hid]
      exact hrow
    · exact h.seeds i inst hrow (mt hreads.alias_none_iff.mp hseed)
  · intro h
    refine ⟨hcaptures.mpr h.captures, ?_, ?_⟩
    · intro row hrow id inst hid hinst
      obtain ⟨l, hl, hdest⟩ := layout_sources (by omega) row hrow id hid
      obtain ⟨l', hl', hop, -⟩ := r.line_at hinst
      rw [hl] at hl'
      cases hl'
      rw [hop]
      exact (h.lines l (mem_of_getElem? hl)).dest hdest
    · intro i inst hinst hseed
      obtain ⟨l, hl, hop, hreads⟩ := r.line_at hinst
      rw [hop]
      exact (h.lines l (mem_of_getElem? hl)).seed (mt hreads.alias_none_iff.mpr hseed)

/-- The terminator of a block is its last line. -/
theorem Listing.terminated_of_decl
    (hterm : ∀ block ∈ r.into_decl.blocks, block.term.op.is_terminator = true) : r.Terminated := by
  intro ls hls l hlast
  obtain ⟨pre, post, hblocks⟩ := append_of_mem hls
  obtain ⟨init, rfl⟩ := getLast?_eq_some_iff.mp hlast
  have hflatten : r.blocks.flatten = (pre.flatten ++ init) ++ l :: post.flatten := by
    rw [hblocks]
    simp
  have hl : r.blocks.flatten[(pre.flatten ++ init).length]? = some l := by
    rw [hflatten, getElem?_append_right (Nat.le_refl _), Nat.sub_self]
    rfl
  obtain ⟨inst, hrow, hop, -⟩ := r.row_at hl
  have hmem : block_row r.pools.insts.rows pre.flatten.length (init ++ [l]).length ∈
      r.into_decl.blocks := by
    change _ ∈ block_rows r.pools.insts.rows 0 (r.blocks.map List.length)
    rw [hblocks, map_append, block_rows_append, sum_lengths, Nat.zero_add, map_cons,
      block_rows]
    exact mem_append_right _ mem_cons_self
  have hend : pre.flatten.length + (init ++ [l]).length - 1 = (pre.flatten ++ init).length := by
    simp only [length_append, length_singleton]
    omega
  have hblock := hterm _ hmem
  rw [block_row, hend] at hblock
  change r.pools.insts.rows[_]? = _ at hrow
  rw [hrow, Option.getD_some, hop] at hblock
  exact hblock

/-! ## Lines as they are written -/

/-- The line without a seed that its opcode does not take. -/
def Line.carried (l : Line) : Line :=
  { l with dest := l.dest.map fun (v, seed) =>
      (v, if l.op.is_memory_producing then seed else .None) }

def Listing.carried (r : Listing) : Listing :=
  { r with blocks := r.blocks.map fun ls => ls.map Line.carried }

theorem Line.carried_seed (l : Line) :
    l.carried.seed = if l.op.is_memory_producing then l.seed else .None := by
  unfold Line.carried Line.seed
  cases l.dest with
  | none => simp
  | some dest => rfl

@[simp] theorem Line.words_carried (l : Line) (next : Nat) : l.carried.words next = l.words next := by
  unfold Line.words
  cases hdest : l.dest with
  | none => simp [Line.carried, Line.inst_words, hdest]
  | some dest =>
    cases hterm : l.op.is_terminator with
    | true => simp [Line.carried, Line.inst_words, hdest, hterm]
    | false =>
      cases hmem : l.op.is_memory_producing <;>
        simp [Line.carried, Line.inst_words, hdest, hterm, hmem]

@[simp] theorem defs_carried (ls : List Line) : defs (ls.map Line.carried) = defs ls := by
  unfold defs
  rw [countP_map]
  congr 1
  funext l
  simp [Line.carried]

theorem line_words_carried (next : Nat) (ls : List Line) :
    line_words next (ls.map Line.carried) = line_words next ls := by
  induction ls generalizing next with
  | nil => rfl
  | cons l ls ih =>
    have hdefs : defs [l.carried] = defs [l] := defs_carried [l]
    rw [map_cons, line_words, line_words, Line.words_carried, hdefs, ih]

theorem block_words_carried (b next : Nat) (blocks : List (List Line)) :
    block_words b next (blocks.map fun ls => ls.map Line.carried) = block_words b next blocks := by
  induction blocks generalizing b next with
  | nil => rfl
  | cons ls blocks ih =>
    rw [map_cons, block_words, block_words, line_words_carried, defs_carried, ih]

/-- The same text is written. -/
theorem Listing.words_carried (r : Listing) : r.carried.words = r.words := by
  have hblocks := block_words_carried 0 r.params.length r.blocks
  unfold Listing.words
  rw [← hblocks]
  rfl

theorem wfLines_carried {nb nv : Nat} (h : WfLines nb nv ls) :
    WfLines nb nv (ls.map Line.carried) := by
  induction ls generalizing nv with
  | nil => trivial
  | cons l ls ih =>
    have hdefs : defs [l.carried] = defs [l] := defs_carried [l]
    rw [map_cons, WfLines, hdefs]
    refine ⟨⟨h.1.fits, h.1.inScope, ?_⟩, ih h.2⟩
    intro v seed hdest
    obtain ⟨⟨v', seed'⟩, hsome, heq⟩ := Option.map_eq_some_iff.mp hdest
    obtain ⟨rfl, -⟩ := Prod.mk.inj heq
    exact h.1.spelled v' seed' hsome

theorem Listing.flatten_carried (r : Listing) :
    r.carried.blocks.flatten = r.blocks.flatten.map Line.carried := by
  rw [map_flatten]
  rfl

theorem Listing.Wf.carried (h : r.Wf) : r.carried.Wf where
  lines := by
    rw [Listing.flatten_carried]
    change WfLines (r.blocks.map _).length _ _
    rw [length_map]
    exact wfLines_carried h.lines
  params := h.params
  nonempty := by
    intro ls hls
    obtain ⟨ms, hms, rfl⟩ := mem_map.mp hls
    exact mt map_eq_nil_iff.mp (h.nonempty ms hms)
  blocks := mt map_eq_nil_iff.mp h.blocks

theorem Listing.size_carried (r : Listing) : r.carried.size = r.size := by
  have hlines : lines_size r.carried.blocks.flatten = lines_size r.blocks.flatten := by
    rw [Listing.flatten_carried, lines_size, map_map]
    rfl
  have hblocks : r.carried.blocks.length = r.blocks.length := length_map _
  unfold Listing.size
  rw [hlines, hblocks]
  rfl

theorem Listing.faithful_carried (hcaptures : ∀ line ∈ r.regions, line.captures.getD [] = [])
    (hdests : ∀ l ∈ r.blocks.flatten, l.dest.isSome → l.op.is_terminator = false) :
    r.carried.Faithful where
  captures := hcaptures
  lines := by
    intro l hl
    rw [Listing.flatten_carried] at hl
    obtain ⟨l, hmem, rfl⟩ := mem_map.mp hl
    refine ⟨fun hdest => hdests l hmem ?_, fun hseed => ?_⟩
    · rwa [Line.carried, Option.isSome_map] at hdest
    · rw [Line.carried_seed] at hseed
      by_contra hmem
      exact hseed (if_neg hmem)

end Fors.Fmir
