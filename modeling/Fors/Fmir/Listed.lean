import Fors.Fmir.Laid
import Mathlib.Algebra.GroupWithZero.Nat

/-!
# Parser states that list

Between two lines the parser's pools are the layout of the lines read so far. Each kind of line
adds to the listing and keeps it so.

Principal result: `ParseState.Lists.into_decl`.
-/

namespace Fors.Fmir

open List Option

/-- The state after the lines of `r` and those of the block `open_` that is still open. Operands
name the values above them and the first `nb` blocks. -/
structure ParseState.Lists (nb : Nat) (s : ParseState) (r : Listing) (open_ : Option (List Line)) :
    Prop where
  decl : s.decl_key = r.decl
  sig : s.sig = r.sig
  is_unsafe : s.is_unsafe_invariant = r.is_unsafe_invariant
  vals : s.vals = (layout r.params (r.blocks.flatten ++ open_.getD [])).vals
  insts : s.insts = (layout r.params (r.blocks.flatten ++ open_.getD [])).insts
  places : s.places = places_of (layout r.params (r.blocks.flatten ++ open_.getD [])).roots
  regions : s.regions = region_pool r.regions
  blocks : s.blocks = block_rows s.insts.rows 0 (r.blocks.map List.length)
  current : s.current_block.map Prod.snd =
    open_.map fun _ => UInt32.ofNat r.blocks.flatten.length
  closed : open_ = none → r.blocks = []
  names : ∀ p ∈ s.val_names, p.2.toNat < s.vals.entries.length
  lines : WfLines nb r.params.length (r.blocks.flatten ++ open_.getD [])
  params : ∀ param ∈ r.params, param.typed.Spelled
  nonempty : ∀ ls ∈ r.blocks, ls ≠ []

variable {nb : Nat} {s : ParseState} {r : Listing} {open_ : Option (List Line)} {ls : List Line}
  {l : Line}

/-! ## Blocks -/

theorem block_rows_append (rows : List InstRow) (first : Nat) (ns ms : List Nat) :
    block_rows rows first (ns ++ ms) =
      block_rows rows first ns ++ block_rows rows (first + ns.sum) ms := by
  induction ns generalizing first with
  | nil => simp [block_rows]
  | cons n ns ih => simp [block_rows, ih, Nat.add_assoc]

/-- Later instructions do not change the blocks before them. -/
theorem block_rows_grow {rows more : List InstRow} (hgrow : rows <+: more) {first : Nat}
    {ns : List Nat} (hpos : ∀ n ∈ ns, 0 < n) (hlen : first + ns.sum ≤ rows.length) :
    block_rows more first ns = block_rows rows first ns := by
  induction ns generalizing first with
  | nil => rfl
  | cons n ns ih =>
    have hn := hpos n mem_cons_self
    rw [sum_cons] at hlen
    obtain ⟨tail, rfl⟩ := hgrow
    rw [block_rows, block_rows, getElem?_append_left (by omega),
      ih (fun m hm => hpos m (mem_cons_of_mem _ hm)) (by omega)]

theorem ofNat_sub_ofNat (a : Nat) {b : Nat} (hb : 0 < b) :
    UInt32.ofNat (a + b) - UInt32.ofNat a - 1 = UInt32.ofNat (b - 1) := by
  obtain ⟨c, rfl⟩ := Nat.exists_eq_add_of_lt hb
  have hc : 0 + c + 1 = c + 1 := by omega
  rw [hc, UInt32.ofNat_add, UInt32.ofNat_add, Nat.add_sub_cancel]
  grind

theorem sum_lengths (blocks : List (List Line)) :
    (blocks.map List.length).sum = blocks.flatten.length :=
  length_flatten.symm

namespace ParseState.Lists

theorem even (h : s.Lists nb r open_) :
    s.insts.rows.length = (r.blocks.flatten ++ open_.getD []).length ∧
      s.vals.entries.length = r.params.length + defs (r.blocks.flatten ++ open_.getD []) := by
  have heven := layout_even r.params (r.blocks.flatten ++ open_.getD [])
  rw [h.insts, h.vals]
  exact ⟨heven.rows, heven.vals⟩

theorem lengths_pos (h : s.Lists nb r open_) : ∀ n ∈ r.blocks.map List.length, 0 < n := by
  intro n hn
  obtain ⟨ls, hls, rfl⟩ := mem_map.mp hn
  exact length_pos_iff.mpr (h.nonempty ls hls)

/-! ## One line more -/

theorem new : ParseState.new.Lists nb ⟨0, 0, false, [], [], []⟩ none where
  decl := rfl
  sig := rfl
  is_unsafe := rfl
  vals := rfl
  insts := rfl
  places := rfl
  regions := rfl
  blocks := rfl
  current := rfl
  closed _ := rfl
  names _ hp := nomatch hp
  lines := trivial
  params _ hparam := nomatch hparam
  nonempty _ hls := nomatch hls

theorem set_decl (h : s.Lists nb r open_) (key : DeclKeyId) (sig : FnSigId) (u : Bool) :
    ParseState.Lists nb
      { s with saw_decl_line := true, decl_key := key, sig := sig, is_unsafe_invariant := u }
      { r with decl := key, sig := sig, is_unsafe_invariant := u } open_ :=
  { h with decl := rfl, sig := rfl, is_unsafe := rfl }

theorem push_region (h : s.Lists nb r open_) (region : RegionLine) :
    ParseState.Lists nb { s with regions := s.regions.push region.kind region.captures }
      { r with regions := r.regions ++ [region] } open_ :=
  { h with
    regions := by
      change s.regions.push region.kind region.captures = region_pool (r.regions ++ [region])
      rw [h.regions, region_pool, region_pool, foldl_append]
      rfl }

theorem names_push (h : s.Lists nb r open_) (name : String) (row : ValRow) :
    ∀ p ∈ (s.push_val name row).val_names, p.2.toNat < (s.push_val name row).vals.entries.length := by
  intro p hp
  simp only [ParseState.push_val, ValPool.push, length_append, length_singleton] at hp ⊢
  obtain rfl | hp := mem_cons.mp hp
  · have hle : (UInt32.ofNat s.vals.entries.length).toNat ≤ s.vals.entries.length := by
      rw [UInt32.toNat_ofNat']
      exact Nat.mod_le _ _
    exact Nat.lt_succ_of_le hle
  · exact Nat.lt_succ_of_lt (h.names p hp)

theorem push_param (h : s.Lists nb r none) (name : String) (param : ParamLine)
    (hparam : param.typed.Spelled) :
    (s.push_val name (param.typed.row (.Param param.ordinal))).Lists nb
      { r with params := r.params ++ [param] } none := by
  have hblocks := h.closed rfl
  have hvals := h.vals
  have hinsts := h.insts
  have hplaces := h.places
  rw [hblocks] at hvals hinsts hplaces
  exact
    { h with
      vals := by
        rw [hblocks]
        simp only [ParseState.push_val, ValPool.push, hvals]
        simp [layout, Pools.new, ParamLine.entry]
      insts := by
        rw [hblocks]
        exact hinsts
      places := by
        rw [hblocks]
        exact hplaces
      names := h.names_push name _
      lines := by
        rw [hblocks]
        trivial
      params := by
        intro p hp
        obtain hp | hp := mem_append.mp hp
        · exact h.params p hp
        · rw [mem_singleton.mp hp]
          exact hparam }

/-- The pools after one more line. -/
theorem push_line (h : s.Lists nb r (some ls)) (hwf : l.Wf s.vals.entries.length nb)
    {p : Pools} (hp : p = (layout r.params (r.blocks.flatten ++ ls)).push l) (names : Names)
    (hnames : ∀ n ∈ names, n.2.toNat < p.vals.entries.length) :
    ParseState.Lists nb
      { s with vals := p.vals, insts := p.insts, places := places_of p.roots, val_names := names }
      r (some (ls ++ [l])) := by
  have hlayout : layout r.params (r.blocks.flatten ++ (ls ++ [l])) = p := by
    rw [hp, ← append_assoc, layout_concat]
  have heven := h.even
  have hgrow : s.insts.rows <+: p.insts.rows := by
    rw [hp, h.insts]
    exact (Pools.push_grows _ l).rows
  exact
    { h with
      vals := by rw [getD_some, hlayout]
      insts := by rw [getD_some, hlayout]
      places := by rw [getD_some, hlayout]
      blocks := by
        have hlen : 0 + (r.blocks.map List.length).sum ≤ s.insts.rows.length := by
          rw [heven.1, sum_lengths, length_append]
          omega
        change s.blocks = block_rows p.insts.rows 0 (r.blocks.map List.length)
        rw [h.blocks, block_rows_grow hgrow h.lengths_pos hlen]
      current := h.current
      closed := fun hnone => nomatch hnone
      names := hnames
      lines := by
        rw [getD_some, ← append_assoc, wfLines_append]
        refine ⟨h.lines, ?_, trivial⟩
        rw [← getD_some (a := ls), ← heven.2]
        exact hwf }

/-- The state after a `do` line. -/
theorem push_do (h : s.Lists nb r (some ls)) (hwf : l.Wf s.vals.entries.length nb)
    (hdest : l.dest = none) :
    ParseState.Lists nb
      { s with insts :=
          ((l.operands.push s.insts).2.push (l.row (l.operands.push s.insts).1) .None).2 }
      r (some (ls ++ [l])) := by
  have hp := Pools.push_none (p := layout r.params (r.blocks.flatten ++ ls)) hdest
  have hpush := h.push_line hwf hp.symm s.val_names ?_
  · have hvals := h.vals
    have hinsts := h.insts
    have hplaces := h.places
    rw [getD_some] at hvals hinsts hplaces
    rw [← hvals, ← hinsts, ← hplaces] at hpush
    exact hpush
  · have hnames := h.names
    rw [h.vals] at hnames
    exact hnames

/-- The state after a `val` line. -/
theorem push_val_line (h : s.Lists nb r (some ls)) (hwf : l.Wf s.vals.entries.length nb)
    {v : Typed} {seed : SeedSpec} (hdest : l.dest = some (v, seed)) {roots : List UInt32}
    (hroots : roots = (layout r.params (r.blocks.flatten ++ ls)).roots) (name : String) :
    (ParseState.push_val
      { s with
        insts := ((l.operands.push s.insts).2.push (l.row (l.operands.push s.insts).1)
          (seed.push roots).1).2
        places := places_of (seed.push roots).2 }
      name (v.row (.Inst (UInt32.ofNat s.insts.rows.length)))).Lists nb r (some (ls ++ [l])) := by
  have hp := Pools.push_some (p := layout r.params (r.blocks.flatten ++ ls)) hdest
  have hvals := h.vals
  have hinsts := h.insts
  rw [getD_some] at hvals hinsts
  rw [← hroots, ← hvals, ← hinsts] at hp
  exact h.push_line hwf hp.symm _
    (h.names_push name (v.row (.Inst (UInt32.ofNat s.insts.rows.length))))

/-! ## Closing a block -/

/-- The blocks when an open one is closed, which it can be if it has a line. -/
theorem finish_eq (h : s.Lists nb r (some ls)) (hlen : s.insts.rows.length < 2 ^ 32) (n : Nat) :
    s.finish n = .ok (block_rows s.insts.rows 0 ((r.blocks ++ [ls]).map List.length)) ∧ ls ≠ [] ∨
      ls = [] ∧ ∃ e, s.finish n = .error e := by
  have hrows := h.even.1
  rw [getD_some, length_append] at hrows
  obtain ⟨⟨name, first⟩, hcurrent, hfirst⟩ := map_eq_some_iff.mp h.current
  change first = UInt32.ofNat r.blocks.flatten.length at hfirst
  have htotal : (UInt32.ofNat s.insts.rows.length).toNat = s.insts.rows.length :=
    UInt32.toNat_ofNat_of_lt' hlen
  have hstart : (UInt32.ofNat r.blocks.flatten.length).toNat = r.blocks.flatten.length :=
    UInt32.toNat_ofNat_of_lt' (Nat.lt_of_le_of_lt (by omega) hlen)
  have hle : UInt32.ofNat s.insts.rows.length ≤ first ↔ ls = [] := by
    rw [hfirst, UInt32.le_iff_toNat_le, htotal, hstart, ← length_eq_zero_iff]
    omega
  unfold ParseState.finish
  rw [hcurrent]
  simp only [finish_block]
  by_cases hempty : ls = []
  · rw [if_pos (hle.mpr hempty)]
    exact .inr ⟨hempty, _, rfl⟩
  rw [if_neg (mt hle.mp hempty)]
  have hpos : 0 < ls.length := length_pos_iff.mpr hempty
  have hlast : (UInt32.ofNat s.insts.rows.length - 1).toNat = s.insts.rows.length - 1 := by
    have hpred := ofNat_sub_ofNat 0 (b := s.insts.rows.length) (by omega)
    rw [Nat.zero_add] at hpred
    rw [show UInt32.ofNat s.insts.rows.length - 1 = UInt32.ofNat (s.insts.rows.length - 1) by
      rw [← hpred]; grind]
    exact UInt32.toNat_ofNat_of_lt' (Nat.lt_of_le_of_lt (Nat.sub_le _ _) hlen)
  obtain ⟨term, hget⟩ : ∃ term, s.insts.rows[s.insts.rows.length - 1]? = some term :=
    ⟨_, getElem?_eq_getElem (Nat.sub_lt (by omega) Nat.one_pos)⟩
  refine .inl ⟨?_, hempty⟩
  rw [index, hlast, hget]
  simp only [attempt, bind, Except.bind]
  rw [map_append, block_rows_append, ← h.blocks, sum_lengths]
  simp only [map_cons, map_nil, block_rows, Nat.zero_add]
  rw [← hrows, hget, getD_some, hfirst, hrows, ofNat_sub_ofNat _ hpos]

/-- A closed block joins the listing when the next one is opened. -/
theorem next_block (h : s.Lists nb r (some ls)) (hls : ls ≠ []) (name : String) :
    ParseState.Lists nb
      { s with
        blocks := block_rows s.insts.rows 0 ((r.blocks ++ [ls]).map List.length)
        current_block := some (name, UInt32.ofNat s.insts.rows.length) }
      { r with blocks := r.blocks ++ [ls] } (some []) := by
  have hflatten : (r.blocks ++ [ls]).flatten ++ [] = r.blocks.flatten ++ ls := by simp
  have heven := h.even.1
  rw [getD_some] at heven
  exact
    { h with
      vals := by rw [getD_some, hflatten]; exact h.vals
      insts := by rw [getD_some, hflatten]; exact h.insts
      places := by rw [getD_some, hflatten]; exact h.places
      blocks := rfl
      current := by
        rw [heven, ← hflatten, append_nil]
        rfl
      closed := fun hnone => nomatch hnone
      lines := by rw [getD_some, hflatten]; exact h.lines
      nonempty := by
        intro ms hms
        obtain hms | hms := mem_append.mp hms
        · exact h.nonempty ms hms
        · rw [mem_singleton.mp hms]
          exact hls }

theorem first_block (h : s.Lists nb r none) (name : String) :
    ParseState.Lists nb
      { s with current_block := some (name, UInt32.ofNat s.insts.rows.length) } r (some []) := by
  have heven := h.even.1
  rw [getD_none, append_nil] at heven
  exact
    { h with
      current := by rw [heven]; rfl
      closed := fun hnone => nomatch hnone }

/-- A closed state with a block is a declaration. -/
theorem into_decl (h : s.Lists nb r (some ls)) :
    s.into_decl (block_rows s.insts.rows 0 ((r.blocks ++ [ls]).map List.length)) =
      Listing.into_decl { r with blocks := r.blocks ++ [ls] } := by
  have hflatten : (r.blocks ++ [ls]).flatten = r.blocks.flatten ++ ls := by simp
  have hvals := h.vals
  have hinsts := h.insts
  have hplaces := h.places
  rw [getD_some, ← hflatten] at hvals hinsts hplaces
  simp only [ParseState.into_decl, Listing.into_decl, Listing.pools]
  rw [hvals, hinsts, hplaces, h.decl, h.sig, h.is_unsafe, h.regions]

end ParseState.Lists

end Fors.Fmir
