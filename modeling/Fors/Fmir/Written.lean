import Fors.Fmir.Print

/-!
# A laid out listing dumps as its words

The pools of a listing are read back in the order of its lines: the table from instructions to
values holds what each line defines, the window of a block holds its lines but for the last one,
and the side tables hold the operands.

Principal result: `Listing.dump_into_decl`.
-/

namespace Fors.Fmir

open Runs
open List hiding getElem?_eq_some_iff

variable {params : List ParamLine} {ls ms : List Line} {l : Line}

/-! ## Where values come from -/

theorem decode_param (ordinal : UInt16) :
    ValDef.decode (ValDef.Param ordinal).encode = .Param ordinal := by
  have htag : (PARAM_TAG ||| ordinal.toUInt32) &&& PARAM_TAG ≠ 0 := by
    intro h
    have h := congrArg (fun v => v.toBitVec.getLsbD 31) h
    simp [PARAM_TAG] at h
  have hlow : ((PARAM_TAG ||| ordinal.toUInt32) &&& 0xFFFF).toUInt16 = ordinal := by
    apply UInt16.eq_of_toBitVec_eq
    ext i hi
    have hones : (BitVec.allOnes 16)[i] = true := BitVec.getElem_allOnes i hi
    simp only [PARAM_TAG]
    simp
    exact fun _ => hones
  rw [ValDef.encode, ValDef.decode, if_pos htag, hlow]

theorem decode_inst {i : Nat} (h : i < 2 ^ 31) :
    ValDef.decode (ValDef.Inst (UInt32.ofNat i)).encode = .Inst (UInt32.ofNat i) := by
  have htag : UInt32.ofNat i &&& PARAM_TAG = 0 := by
    apply UInt32.toNat_inj.mp
    rw [UInt32.toNat_and, UInt32.toNat_ofNat_of_lt' (Nat.lt_trans h (by decide))]
    change i &&& 2 ^ 31 = 0
    apply Nat.eq_of_testBit_eq
    intro j
    rw [Nat.testBit_and, Nat.testBit_two_pow]
    by_cases hj : 31 = j
    · rw [← hj, Nat.testBit_lt_two_pow h]
      simp
    · simp [hj]
  rw [ValDef.encode, ValDef.decode, if_neg (not_not.mpr htag)]

theorem source_of_row {v : Typed} {i : Nat} (h : i < 2 ^ 31) :
    ValDef.decode (v.row (.Inst (UInt32.ofNat i))).def_ = .Inst (UInt32.ofNat i) :=
  decode_inst h

/-- One value of `inst_to_val`. -/
def enter (table : List (Option ValId)) (p : ValId × ValRow) : List (Option ValId) :=
  match ValDef.decode p.2.def_ with
  | .Inst inst_id => table.set inst_id.toNat (some p.1)
  | .Param _ => table

variable {α : Type}

theorem all_rows_concat (rows : List α) (x : α) :
    all_rows (rows ++ [x]) = all_rows rows ++ [(UInt32.ofNat rows.length, x)] := by
  simp [all_rows, zipIdx_append]

theorem length_enter (table : List (Option ValId)) (ps : List (ValId × ValRow)) :
    (ps.foldl enter table).length = table.length := by
  induction ps generalizing table with
  | nil => rfl
  | cons p ps ih =>
    rw [foldl_cons, ih, enter]
    split
    · exact length_set
    · rfl

/-- A slot that no value names stays empty. -/
theorem enter_concat (ps : List (ValId × ValRow)) (table : List (Option ValId))
    (h : ∀ p ∈ ps, ∀ id, ValDef.decode p.2.def_ = .Inst id → id.toNat < table.length) :
    ps.foldl enter (table ++ [none]) = ps.foldl enter table ++ [none] := by
  induction ps generalizing table with
  | nil => rfl
  | cons p ps ih =>
    have hp := h p mem_cons_self
    have hstep : enter (table ++ [none]) p = enter table p ++ [none] := by
      unfold enter
      split
      · rename_i id hid
        exact set_append_left _ _ (hp id hid)
      · rfl
    have hlen : (enter table p).length = table.length := length_enter table [p]
    rw [foldl_cons, foldl_cons, hstep, ih]
    intro q hq id hid
    rw [hlen]
    exact h q (mem_cons_of_mem _ hq) id hid

/-- A value names the line that defines it. -/
theorem layout_sources (hlen : ls.length ≤ 2 ^ 31) :
    ∀ row ∈ (layout params ls).vals.rows, ∀ id, ValDef.decode row.def_ = .Inst id →
      ∃ l, ls[id.toNat]? = some l ∧ l.dest.isSome := by
  induction ls using List.reverseRecOn with
  | nil =>
    intro row hrow id hid
    obtain ⟨entry, hentry, rfl⟩ := mem_map.mp hrow
    obtain ⟨param, -, rfl⟩ := mem_map.mp hentry
    change ValDef.decode (ValDef.Param param.ordinal).encode = _ at hid
    rw [decode_param] at hid
    cases hid
  | append_singleton ls l ih =>
    rw [length_append, length_singleton] at hlen
    have hbefore : ∀ row ∈ (layout params ls).vals.rows, ∀ id,
        ValDef.decode row.def_ = .Inst id →
          ∃ l', (ls ++ [l])[id.toNat]? = some l' ∧ l'.dest.isSome := by
      intro row hrow id hid
      obtain ⟨l', hl', hdest⟩ := ih (by omega) row hrow id hid
      exact ⟨l', getElem?_grow (prefix_append _ _) hl', hdest⟩
    have heven := layout_even params ls
    rw [layout_concat]
    cases hdest : l.dest with
    | none =>
      rw [Pools.push_none hdest]
      exact hbefore
    | some dest =>
      rw [Pools.push_some (v := dest.1) (e := dest.2) hdest]
      intro row hrow id hid
      simp only [ValPool.rows, ValPool.push, map_append, map_cons, map_nil,
        mem_append, mem_singleton] at hrow
      obtain hrow | rfl := hrow
      · exact hbefore row hrow id hid
      · rw [heven.rows, source_of_row (by omega)] at hid
        obtain rfl := ValDef.Inst.inj hid
        have hid : (UInt32.ofNat ls.length).toNat = ls.length :=
          UInt32.toNat_ofNat_of_lt' (by simp only [UInt32.size]; omega)
        refine ⟨l, ?_, by rw [hdest]; rfl⟩
        rw [hid, getElem?_concat_length]

/-- The table from instructions to values is the column of what the lines define. -/
theorem enter_layout (params : List ParamLine) (hlen : ls.length ≤ 2 ^ 31) :
    (all_rows (layout params ls).vals.rows).foldl enter (List.replicate ls.length none) =
      (layout params ls).dests := by
  induction ls using List.reverseRecOn with
  | nil =>
    have hparams : ∀ ps : List (ValId × ValRow),
        (∀ p ∈ ps, ∃ o, ValDef.decode p.2.def_ = .Param o) → ps.foldl enter [] = [] := by
      intro ps hps
      exact eq_nil_of_length_eq_zero (length_enter [] ps)
    refine hparams _ fun p hp => ?_
    obtain ⟨i, hi, -⟩ := exists_of_mem_all_rows hp
    obtain ⟨entry, hentry, hrow⟩ := mem_map.mp (mem_of_getElem? hi)
    obtain ⟨param, -, rfl⟩ := mem_map.mp hentry
    rw [← hrow]
    exact ⟨param.ordinal, decode_param param.ordinal⟩
  | append_singleton ls l ih =>
    rw [length_append, length_singleton] at hlen ⊢
    have ih := ih (by omega)
    have heven := layout_even params ls
    have hbound : ∀ p ∈ all_rows (layout params ls).vals.rows, ∀ id,
        ValDef.decode p.2.def_ = .Inst id →
          id.toNat < (List.replicate ls.length (none : Option ValId)).length := by
      intro p hp id hid
      obtain ⟨i, hi, -⟩ := exists_of_mem_all_rows hp
      obtain ⟨l', hl', -⟩ := layout_sources (by omega) p.2 (mem_of_getElem? hi) id hid
      rw [length_replicate]
      exact (List.getElem?_eq_some_iff.mp hl').1
    rw [layout_concat, replicate_succ']
    cases hdest : l.dest with
    | none =>
      rw [Pools.push_none hdest]
      change (all_rows (layout params ls).vals.rows).foldl enter _ = _
      rw [enter_concat _ _ hbound, ih]
    | some dest =>
      rw [Pools.push_some (v := dest.1) (e := dest.2) hdest]
      simp only [ValPool.rows, ValPool.push, map_append, map_cons, map_nil]
      rw [all_rows_concat, foldl_append]
      change enter ((all_rows (layout params ls).vals.rows).foldl enter _) _ = _
      rw [enter_concat _ _ hbound, ih]
      rw [enter, heven.rows, source_of_row (by omega)]
      simp only
      have hid : (UInt32.ofNat ls.length).toNat = (layout params ls).dests.length := by
        rw [heven.dests]
        exact UInt32.toNat_ofNat_of_lt' (Nat.lt_of_lt_of_le hlen (by decide))
      rw [hid, set_append_right _ _ (Nat.le_refl _), Nat.sub_self]
      simp

/-! ## Windows -/

theorem filter_zipIdx (rows : List α) (a b k : Nat) :
    (rows.zipIdx k).filter (fun p => a ≤ p.2 ∧ p.2 < b) =
      ((rows.drop (a - k)).take (b - max a k)).zipIdx (max a k) := by
  induction rows generalizing k with
  | nil => simp
  | cons r rows ih =>
    rw [zipIdx_cons]
    by_cases ha : a ≤ k
    · have hmax : max a k = k := Nat.max_eq_right ha
      have hmax' : max a (k + 1) = k + 1 := Nat.max_eq_right (by omega)
      have hdrop : a - k = 0 := by omega
      have hdrop' : a - (k + 1) = 0 := by omega
      rw [hmax, hdrop, drop_zero]
      by_cases hb : k < b
      · have htake : b - k = b - (k + 1) + 1 := by omega
        rw [filter_cons_of_pos (by simp [ha, hb]), ih, hmax', hdrop', drop_zero, htake,
          take_succ_cons, zipIdx_cons]
      · have htake : b - k = 0 := by omega
        have htake' : b - (k + 1) = 0 := by omega
        rw [filter_cons_of_neg (by simp [hb]), ih, hmax', htake, htake', take_zero,
          take_zero]
        rfl
    · have hmax : max a k = a := Nat.max_eq_left (by omega)
      have hmax' : max a (k + 1) = a := Nat.max_eq_left (by omega)
      have hdrop : a - k = a - (k + 1) + 1 := by omega
      rw [filter_cons_of_neg (by simp [ha]), ih, hmax, hmax', hdrop, drop_succ_cons]

theorem window_eq (insts : InstPool) (start stop : UInt32) :
    window insts ⟨start, stop⟩ =
      ((insts.rows.drop start.toNat).take (stop.toNat - start.toNat)).zipIdx start.toNat := by
  have hfilter := filter_zipIdx insts.rows start.toNat stop.toNat 0
  rw [Nat.max_eq_left (Nat.zero_le _), Nat.sub_zero] at hfilter
  exact hfilter

/-! ## Sizes -/

/-- No column of the pools has more than `n` rows. -/
structure Pools.Bounded (p : Pools) (n : Nat) : Prop where
  operands : p.insts.operands.length ≤ n
  arg_convs : p.insts.arg_convs.length ≤ n
  calls : p.insts.calls.length ≤ n
  reduces : p.insts.reduces.length ≤ n
  switches : p.insts.switches.length ≤ n
  switch_arms : p.insts.switch_arms.length ≤ n
  roots : p.roots.length ≤ n

theorem length_intern_root (roots : List UInt32) (root : UInt32) :
    (intern_root roots root).2.length ≤ roots.length + 1 := by
  unfold intern_root
  split
  · exact Nat.le_succ _
  · rw [length_append]
    exact Nat.le_refl _

theorem Pools.Bounded.push {p : Pools} {n : Nat} (h : p.Bounded n) (l : Line) :
    (p.push l).Bounded (n + (l.operands.size + 1)) := by
  obtain ⟨h1, h2, h3, h4, h5, h6, h7⟩ := h
  have hseed (seed : SeedSpec) : (seed.push p.roots).2.length ≤ p.roots.length + 1 := by
    cases seed with
    | None | Conv | Arena => exact Nat.le_succ _
    | Own root | Split root => exact length_intern_root p.roots root
  have hinsts (row : InstRow) (a : AliasSeed) (vals : ValPool) (roots : List UInt32)
      (dests : List (Option ValId)) (hroots : roots.length ≤ p.roots.length + 1) :
      Pools.Bounded ⟨vals, ((l.operands.push p.insts).2.push row a).2, roots, dests⟩
        (n + (l.operands.size + 1)) := by
    cases l.operands <;> constructor <;>
      simp [Operands.push, InstPool.push, InstPool.push_operands, InstPool.push_call,
        InstPool.push_switch, Operands.size] <;> omega
  cases hdest : l.dest with
  | none =>
    rw [Pools.push_none hdest]
    exact hinsts _ _ _ _ _ (Nat.le_succ _)
  | some dest =>
    rw [Pools.push_some (v := dest.1) (e := dest.2) hdest]
    exact hinsts _ _ _ _ _ (hseed dest.2)

theorem layout_bounded (params : List ParamLine) (ls : List Line) :
    (layout params ls).Bounded (lines_size ls) := by
  induction ls using List.reverseRecOn with
  | nil => constructor <;> exact Nat.le_refl _
  | append_singleton ls l ih =>
    rw [layout_concat, lines_size_append]
    exact ih.push l

theorem length_le_lines_size (ls : List Line) : ls.length ≤ lines_size ls := by
  induction ls with
  | nil => exact Nat.le_refl _
  | cons l ls ih =>
    change ls.length + 1 ≤ (l.operands.size + 1) + lines_size ls
    omega

theorem layout_countable (hlen : lines_size ls < 2 ^ 32) :
    (layout params ls).insts.Countable := by
  have heven := layout_even params ls
  have hbound := layout_bounded params ls
  have hle := length_le_lines_size ls
  exact
    { rows := by rw [heven.rows]; omega
      seeds := by rw [heven.rows, heven.aliases]
      operands := Nat.lt_of_le_of_lt hbound.operands hlen
      arg_convs := Nat.lt_of_le_of_lt hbound.arg_convs hlen
      calls := Nat.lt_of_le_of_lt hbound.calls hlen
      reduces := Nat.lt_of_le_of_lt hbound.reduces hlen
      switches := Nat.lt_of_le_of_lt hbound.switches hlen
      switch_arms := Nat.lt_of_le_of_lt hbound.switch_arms hlen }

/-! ## Blocks -/

/-- The last line of every block is a terminator. -/
def Listing.Terminated (r : Listing) : Prop :=
  ∀ ls ∈ r.blocks, ∀ l, ls.getLast? = some l → l.op.is_terminator = true

section Blocks

variable {r : Listing} {pre post : List (List Line)} {before after : List Line}

theorem Listing.lines_le (r : Listing) :
    lines_size r.blocks.flatten + r.params.length + r.blocks.length ≤ r.size := by
  unfold Listing.size
  omega

theorem Listing.inst_to_val_eq (hsize : r.size < 2 ^ 31) :
    inst_to_val r.into_decl = r.pools.dests := by
  have hle := length_le_lines_size r.blocks.flatten
  have hlines := r.lines_le
  have henter := enter_layout r.params (show r.blocks.flatten.length ≤ 2 ^ 31 by omega)
  rw [← (layout_even r.params r.blocks.flatten).rows] at henter
  exact henter

/-- One line of the listing, where it stands. -/
theorem Listing.dump_line_at (hwf : r.Wf) (hsize : r.size < 2 ^ 31)
    (hlines : r.blocks.flatten = before ++ l :: after) :
    ∃ slots, r.pools.insts.rows[before.length]? = some (l.row slots) ∧
      l.operands.Reads r.pools.insts slots ∧
      l.Wf (r.params.length + defs before) r.blocks.length ∧
      dump_inst_as_do r.into_decl (some before.length) (l.row slots)
        ((inst_to_val r.into_decl)[before.length]?.getD none) =
          .ok (line_text (l.words (r.params.length + defs before))) := by
  have hle := r.lines_le
  have hlen := length_le_lines_size r.blocks.flatten
  have hdefs : defs before ≤ r.blocks.flatten.length := by
    rw [hlines, length_append]
    exact Nat.le_trans countP_le_length (Nat.le_add_right _ _)
  have hreads := layout_reads r.params before l after
  rw [← hlines] at hreads
  have hwfl := hwf.lines
  rw [hlines, wfLines_append] at hwfl
  have hcount : r.into_decl.insts.Countable := layout_countable (by omega)
  have hroots : r.pools.roots.length < 2 ^ 32 :=
    Nat.lt_of_le_of_lt (layout_bounded r.params r.blocks.flatten).roots (by omega)
  have hdump {slots : Slots} (hslots : l.operands.Reads r.pools.insts slots)
      (hrow : r.pools.insts.rows[before.length]? = some (l.row slots)) :=
    dump_line (d := r.into_decl) (p := r.pools) rfl rfl rfl hroots hcount
      (show r.params.length + defs before < 2 ^ 32 by omega) hwfl.2.1 (by omega) hreads
  obtain ⟨slots, hslots, hrow⟩ := hreads.row
  obtain ⟨slots', hrow', hdump⟩ := hdump hslots hrow
  have heq : l.row slots' = l.row slots := by
    rw [show r.pools.insts.rows[before.length]? = some (l.row slots) from hrow] at hrow'
    exact (Option.some.inj hrow').symm
  rw [heq] at hdump
  rw [Listing.inst_to_val_eq hsize]
  exact ⟨slots, hrow, hslots, hwfl.2.1, hdump⟩

/-- The window of a run of lines. -/
theorem Listing.dump_window (hwf : r.Wf) (hsize : r.size < 2 ^ 31)
    (hlines : r.blocks.flatten = before ++ (ls ++ after)) :
    List.Forall₂ (fun (x : InstRow × Nat) s =>
        dump_inst_as_do r.into_decl (some x.2) x.1
          ((inst_to_val r.into_decl)[x.2]?.getD none) = .ok s)
      (((r.pools.insts.rows.drop before.length).take ls.length).zipIdx before.length)
      ((line_words (r.params.length + defs before) ls).map line_text) := by
  induction ls generalizing before with
  | nil => exact .nil
  | cons l ls ih =>
    obtain ⟨slots, hrow, -, -, hdump⟩ := r.dump_line_at hwf hsize hlines
    have hlines : r.blocks.flatten = (before ++ [l]) ++ (ls ++ after) := by
      rw [hlines]
      simp
    have ih := ih hlines
    rw [length_append, length_singleton, defs_append, ← Nat.add_assoc] at ih
    obtain ⟨hlt, hget⟩ := List.getElem?_eq_some_iff.mp hrow
    rw [drop_eq_getElem_cons hlt, hget, length_cons, take_succ_cons,
      zipIdx_cons]
    exact .cons hdump ih

theorem line_words_append (next : Nat) (ls ms : List Line) :
    line_words next (ls ++ ms) = line_words next ls ++ line_words (next + defs ls) ms := by
  induction ls generalizing next with
  | nil => rfl
  | cons l ls ih =>
    rw [cons_append, line_words, line_words, ih, defs_cons l ls, cons_append,
      Nat.add_assoc]

/-- The row of a block of `n` instructions from `first` on. -/
def block_row (rows : List InstRow) (first n : Nat) : BlockRow :=
  ⟨UInt32.ofNat first, UInt32.ofNat (n - 1), rows[first + n - 1]?.getD (.plain .Unreachable), 0⟩

theorem Listing.dump_block_at (hwf : r.Wf) (hsize : r.size < 2 ^ 31) (hterm : r.Terminated)
    (hblocks : r.blocks = pre ++ ls :: post) :
    dump_block r.into_decl (inst_to_val r.into_decl) (UInt32.ofNat pre.length)
        (block_row r.pools.insts.rows pre.flatten.length ls.length) =
      .ok (text_of (["block", Slot.block.word (UInt32.ofNat pre.length)] ::
        line_words (r.params.length + defs pre.flatten) ls)) := by
  have hmem : ls ∈ r.blocks := by
    rw [hblocks]
    exact mem_append_right _ mem_cons_self
  obtain ⟨init, t, rfl⟩ := eq_nil_or_concat' ls |>.resolve_left (hwf.nonempty ls hmem)
  have hflatten : r.blocks.flatten = pre.flatten ++ (init ++ t :: post.flatten) := by
    rw [hblocks]
    simp
  have hlen := length_le_lines_size r.blocks.flatten
  have hle := r.lines_le
  have hparts := congrArg List.length hflatten
  simp only [length_append, length_cons] at hparts
  have hop : t.op.is_terminator = true := hterm _ hmem t getLast?_concat
  -- the window is the block without its last line
  have hadd : add_u32 (UInt32.ofNat pre.flatten.length) (UInt32.ofNat init.length) =
      .ok (UInt32.ofNat (pre.flatten.length + init.length)) := by
    have hfirst : (UInt32.ofNat pre.flatten.length).toNat = pre.flatten.length :=
      UInt32.toNat_ofNat_of_lt' (by simp only [UInt32.size]; omega)
    have hinit : (UInt32.ofNat init.length).toNat = init.length :=
      UInt32.toNat_ofNat_of_lt' (by simp only [UInt32.size]; omega)
    rw [add_u32, hfirst, hinit, if_pos (by omega), UInt32.ofNat_add]
  have hwindow := r.dump_window hwf hsize hflatten
  have hstart : (UInt32.ofNat pre.flatten.length).toNat = pre.flatten.length :=
    UInt32.toNat_ofNat_of_lt' (by simp only [UInt32.size]; omega)
  have hstop : (UInt32.ofNat (pre.flatten.length + init.length)).toNat =
      pre.flatten.length + init.length :=
    UInt32.toNat_ofNat_of_lt' (by simp only [UInt32.size]; omega)
  have hinsts := mapM_eq_ok.mpr hwindow
  -- the last line is the terminator
  have hlast : r.blocks.flatten = (pre.flatten ++ init) ++ t :: post.flatten := by
    rw [hflatten, append_assoc]
  obtain ⟨slots, hrow, hslots, hwft, -⟩ := r.dump_line_at hwf hsize hlast
  have hcount : r.into_decl.insts.Countable := layout_countable (by omega)
  have hdefs : defs (pre.flatten ++ init) ≤ r.blocks.flatten.length := by
    rw [hlast, length_append]
    exact Nat.le_trans countP_le_length (Nat.le_add_right _ _)
  have htdump := dump_do (d := r.into_decl) hslots hcount hwft (by omega) none (.inl rfl)
  have hwords : t.words (r.params.length + defs pre.flatten + defs init) = "do" :: t.inst_words := by
    rw [Line.words, hop]
    split <;> first | rfl | contradiction
  have hlength : (init ++ [t]).length - 1 = init.length := by
    rw [length_append, length_singleton, Nat.add_sub_cancel]
  have hend : pre.flatten.length + (init ++ [t]).length - 1 = (pre.flatten ++ init).length := by
    simp only [length_append, length_singleton]
    omega
  refine bind_eq_ok.mpr ⟨⟨UInt32.ofNat pre.flatten.length,
    UInt32.ofNat (pre.flatten.length + init.length)⟩, ?_, ?_⟩
  · rw [block_row, BlockRow.inst_range, hlength, hadd]
    rfl
  refine bind_eq_ok.mpr ⟨(line_words (r.params.length + defs pre.flatten) init).map line_text, ?_,
    bind_eq_ok.mpr ⟨line_text ("do" :: t.inst_words), ?_, ?_⟩⟩
  · rw [window_eq, hstart, hstop, Nat.add_sub_cancel_left]
    exact hinsts
  · have hrowterm : (block_row r.pools.insts.rows pre.flatten.length (init ++ [t]).length).term =
        t.row slots := by
      rw [block_row, hend, hrow, Option.getD_some]
    rw [hrowterm]
    exact htdump
  · have hblock : s!"block bb{UInt32.ofNat pre.length}\n" =
        line_text ["block", Slot.block.word (UInt32.ofNat pre.length)] := by
      rw [line_text, behind_singleton]
      change "block bb" ++ toString (UInt32.ofNat pre.length) ++ "\n" =
        "block" ++ (" " ++ ("bb" ++ toString (UInt32.ofNat pre.length))) ++ "\n"
      simp only [← String.append_assoc]
      rfl
    rw [line_words_append, line_words, line_words, hwords, text_of_cons, text_of_append,
      text_of_cons, ← hblock, ← String.append_assoc]
    change Except.ok (_ ++ text_of _ ++ _) = Except.ok (_ ++ (_ ++ ""))
    rw [String.append_empty]

theorem Listing.dump_blocks (hwf : r.Wf) (hsize : r.size < 2 ^ 31) (hterm : r.Terminated)
    (hblocks : r.blocks = pre ++ post) :
    ∃ texts, List.Forall₂ (fun (p : BlockId × BlockRow) s =>
        dump_block r.into_decl (inst_to_val r.into_decl) p.1 p.2 = .ok s)
      (((block_rows r.pools.insts.rows pre.flatten.length (post.map List.length)).zipIdx
        pre.length).map fun (row, i) => (UInt32.ofNat i, row)) texts ∧
      String.join texts =
        text_of (block_words pre.length (r.params.length + defs pre.flatten) post) := by
  induction post generalizing pre with
  | nil => exact ⟨[], .nil, rfl⟩
  | cons ls post ih =>
    have hnext : r.blocks = (pre ++ [ls]) ++ post := by
      rw [hblocks, append_assoc, singleton_append]
    obtain ⟨texts, htexts, hjoin⟩ := ih hnext
    have hflatten : (pre ++ [ls]).flatten = pre.flatten ++ ls := by simp
    rw [hflatten, length_append, length_append, length_singleton] at htexts
    rw [hflatten, length_append, length_singleton, defs_append] at hjoin
    refine ⟨_ :: texts, .cons (r.dump_block_at hwf hsize hterm hblocks) htexts, ?_⟩
    rw [String.join_cons, hjoin, block_words, ← text_of_append, cons_append, Nat.add_assoc]

end Blocks

/-! ## Regions and parameters -/

/-- A pool and the lines it was made from are written alike, row by row. -/
theorem map_all_rows_eq {β γ : Type} {R : α → β → Prop} {xs : List α} {ys : List β}
    (h : List.Forall₂ R xs ys) {f : UInt32 × α → γ} {g : UInt32 × β → γ}
    (hfg : ∀ id x y, R x y → f (id, x) = g (id, y)) :
    (all_rows xs).map f = (all_rows ys).map g := by
  have hfrom : ∀ k, ((xs.zipIdx k).map fun p => (UInt32.ofNat p.2, p.1)).map f =
      ((ys.zipIdx k).map fun p => (UInt32.ofNat p.2, p.1)).map g := by
    induction h with
    | nil => exact fun _ => rfl
    | cons hxy _ ih =>
      intro k
      rw [zipIdx_cons, zipIdx_cons, map_cons, map_cons, map_cons,
        map_cons, ih (k + 1), hfg _ _ _ hxy]
  exact hfrom 0

/-- A region row and its line: the captures are where the range says. -/
structure RegionRow.Reads (captures : List CaptureRow) (row : RegionRow) (line : RegionLine) :
    Prop where
  kind : row.kind = line.kind
  captures : match line.captures with
    | none => row.captures = RegionRow.ABSENT_CAPTURES
    | some caps => ∃ pre, pre ++ caps <+: captures ∧
        row.captures = ⟨UInt32.ofNat pre.length, UInt32.ofNat (pre ++ caps).length⟩

theorem RegionRow.Reads.grow {captures more : List CaptureRow} {row : RegionRow}
    {line : RegionLine} (h : row.Reads captures line) (hgrow : captures <+: more) :
    row.Reads more line := by
  refine ⟨h.kind, ?_⟩
  have hcaptures := h.captures
  split at hcaptures
  · exact hcaptures
  · obtain ⟨pre, hprefix, hrange⟩ := hcaptures
    exact ⟨pre, hprefix.trans hgrow, hrange⟩

theorem region_pool_concat (regions : List RegionLine) (line : RegionLine) :
    region_pool (regions ++ [line]) = (region_pool regions).push line.kind line.captures := by
  rw [region_pool, foldl_append]
  rfl

theorem region_pool_reads (regions : List RegionLine) :
    List.Forall₂ (RegionRow.Reads (region_pool regions).captures) (region_pool regions).rows
        regions ∧
      (region_pool regions).captures = regions.flatMap fun line => line.captures.getD [] := by
  induction regions using List.reverseRecOn with
  | nil => exact ⟨.nil, rfl⟩
  | append_singleton regions line ih =>
    obtain ⟨hreads, hcaptures⟩ := ih
    rw [region_pool_concat, flatMap_append, ← hcaptures]
    obtain ⟨kind, captures⟩ := line
    cases captures with
    | none =>
      refine ⟨?_, by simp [RegionPool.push]⟩
      exact rel_append hreads (.cons ⟨rfl, rfl⟩ .nil)
    | some caps =>
      refine ⟨?_, by simp [RegionPool.push]⟩
      have hgrow : (region_pool regions).captures <+: (region_pool regions).captures ++ caps :=
        prefix_append _ _
      exact rel_append (hreads.imp fun _ _ h => h.grow hgrow)
        (.cons ⟨rfl, _, prefix_rfl, rfl⟩ .nil)

theorem length_captures_le (regions : List RegionLine) :
    (regions.flatMap fun line => line.captures.getD []).length + regions.length ≤
      regions_size regions := by
  induction regions with
  | nil => exact Nat.le_refl _
  | cons line regions ih =>
    change _ ≤ ((line.captures.getD []).length + 1) + regions_size regions
    rw [flatMap_cons, length_append, length_cons]
    omega

theorem blank_captures (caps : List CaptureRow) :
    String.join (caps.map fun cap => s!" %v{cap.value}:{conv_str cap.conv}") =
      behind (caps.map CaptureRow.word) := by
  induction caps with
  | nil => rfl
  | cons cap caps ih =>
    have hcap : s!" %v{cap.value}:{conv_str cap.conv}" = " " ++ cap.word := by
      change " %v" ++ toString cap.value ++ ":" ++ conv_str cap.conv =
        " " ++ ("%v" ++ toString cap.value ++ ":" ++ conv_str cap.conv)
      simp only [← String.append_assoc]
      rfl
    rw [map_cons, String.join_cons, ih, hcap, map_cons, behind_cons]

theorem region_text (id : RegionId) (kind : String) (ws : List String) :
    s!"region r{id} {kind}{behind ws}\n" =
      line_text ("region" :: Slot.region.word id :: kind :: ws) := by
  change "region r" ++ toString id ++ " " ++ kind ++ behind ws ++ "\n" = _
  rw [line_text, behind_cons, behind_cons]
  simp only [← String.append_assoc]
  rfl

/-- A region is written as its line says. -/
theorem dump_region_reads {d : DeclFmir} {row : RegionRow} {line : RegionLine}
    (h : row.Reads d.regions.captures line) (hlen : d.regions.captures.length < 2 ^ 32 - 1)
    (id : RegionId) : dump_region d id row = line_text (line.words id) := by
  have hcaptures : (if row.captures_absent then "" else
      " captures" ++ String.join ((clamped d.regions.captures row.captures).map fun cap =>
        s!" %v{cap.value}:{conv_str cap.conv}")) =
      behind (match line.captures with
        | none => []
        | some caps => "captures" :: caps.map CaptureRow.word) := by
    have hrange := h.captures
    split at hrange
    · rw [RegionRow.captures_absent, hrange]
      rfl
    · rename_i caps hcaps
      obtain ⟨pre, hprefix, hrange⟩ := hrange
      have hle := hprefix.length_le
      rw [length_append] at hle
      have hpresent : ¬ row.captures_absent = true := by
        rw [RegionRow.captures_absent, hrange]
        intro habsent
        have habsent := congrArg UInt32.toNat (of_decide_eq_true habsent)
        change (UInt32.ofNat pre.length).toNat = 2 ^ 32 - 1 at habsent
        rw [UInt32.toNat_ofNat_of_lt' (by simp only [UInt32.size]; omega)] at habsent
        omega
      have hslice := clamped_of_slice (slice_front hprefix (by omega))
      rw [if_neg hpresent, hrange, hslice, blank_captures, behind_cons]
      rfl
  have hkind : row.kind = line.kind := h.kind
  unfold dump_region
  simp only
  rw [hcaptures, hkind]
  exact region_text id line.kind.word _

/-- The parameters come first, then what the lines define. -/
theorem layout_vals (params : List ParamLine) (hlen : ls.length ≤ 2 ^ 31) :
    ∃ rest, (layout params ls).vals.rows =
        params.map (fun param => param.typed.row (.Param param.ordinal)) ++ rest ∧
      ∀ row ∈ rest, ∃ id, ValDef.decode row.def_ = .Inst id := by
  induction ls using List.reverseRecOn with
  | nil =>
    refine ⟨[], ?_, fun _ hrow => nomatch hrow⟩
    rw [append_nil]
    exact map_map
  | append_singleton ls l ih =>
    rw [length_append, length_singleton] at hlen
    obtain ⟨rest, hrows, hrest⟩ := ih (by omega)
    have heven := layout_even params ls
    rw [layout_concat]
    cases hdest : l.dest with
    | none =>
      rw [Pools.push_none hdest]
      exact ⟨rest, hrows, hrest⟩
    | some dest =>
      rw [Pools.push_some (v := dest.1) (e := dest.2) hdest]
      refine ⟨rest ++ [dest.1.row (.Inst (UInt32.ofNat ls.length))], ?_, ?_⟩
      · rw [← append_assoc, ← hrows, heven.rows]
        simp [ValPool.rows, ValPool.push]
      · intro row hrow
        obtain hrow | hrow := mem_append.mp hrow
        · exact hrest row hrow
        · rw [mem_singleton.mp hrow]
          exact ⟨_, source_of_row (by omega)⟩

theorem param_text (id : ValId) (ordinal : UInt16) (v : Typed) :
    s!"val %v{id} = param {ordinal} ty {v.ty} {secret_tok v.flags} {ct_tok v.ct}\n" =
      line_text (ParamLine.words id ⟨ordinal, v⟩) := by
  change "val %v" ++ toString id ++ " = param " ++ toString ordinal ++ " ty " ++ toString v.ty ++
    " " ++ secret_tok v.flags ++ " " ++ ct_tok v.ct ++ "\n" = _
  simp only [ParamLine.words, Typed.words, cons_append, nil_append, line_text,
    behind_cons, behind_nil, String.append_empty]
  rw [show "val %v" = "val" ++ (" " ++ "%v") from rfl,
    show " = param " = " " ++ "=" ++ (" " ++ "param") ++ " " from rfl,
    show " ty " = " " ++ "ty" ++ " " from rfl]
  simp only [String.append_assoc]
  rfl

theorem dump_params (params : List ParamLine) (rest : List ValRow)
    (hrest : ∀ row ∈ rest, ∃ id, ValDef.decode row.def_ = .Inst id) :
    String.join ((all_rows (params.map (fun param => param.typed.row (.Param param.ordinal)) ++
      rest)).map fun (id, row) => dump_param id row) =
      text_of ((all_rows params).map fun p => p.2.words p.1) := by
  have hskip : ∀ k, String.join (((rest.zipIdx k).map fun p => (UInt32.ofNat p.2, p.1)).map
      fun p => dump_param p.1 p.2) = "" := by
    induction rest with
    | nil => exact fun _ => rfl
    | cons row rest ih =>
      intro k
      obtain ⟨id, hid⟩ := hrest row mem_cons_self
      have hnone : dump_param (UInt32.ofNat k) row = "" := by rw [dump_param, hid]
      rw [zipIdx_cons, map_cons, map_cons, String.join_cons,
        ih fun row hrow => hrest row (mem_cons_of_mem _ hrow)]
      change dump_param (UInt32.ofNat k) row ++ "" = ""
      rw [hnone]
      rfl
  have hparams : (all_rows (params.map fun param => param.typed.row (.Param param.ordinal))).map
      (fun p => dump_param p.1 p.2) =
      (all_rows params).map fun p => line_text (p.2.words p.1) := by
    refine map_all_rows_eq (R := fun row param => row = param.typed.row (.Param param.ordinal))
      ?_ ?_
    · rw [List.forall₂_map_left_iff]
      exact List.forall₂_same.mpr fun _ _ => rfl
    · rintro id row param rfl
      have hdef : ValDef.decode (param.typed.row (.Param param.ordinal)).def_ =
          .Param param.ordinal := decode_param _
      simp only [dump_param, hdef]
      exact param_text id param.ordinal param.typed
  rw [all_rows, zipIdx_append, map_append, map_append, String.join_append]
  refine (congrArg (_ ++ ·) (hskip _)).trans ?_
  rw [String.append_empty]
  change String.join ((all_rows _).map _) = _
  rw [hparams, text_of, map_map]
  rfl

/-! ## The whole text -/

theorem decl_text (decl : DeclKeyId) (sig : FnSigId) (ws : List String) :
    s!"decl {decl} sig {sig}{behind ws}\n" =
      line_text (["decl", toString decl, "sig", toString sig] ++ ws) := by
  change "decl " ++ toString decl ++ " sig " ++ toString sig ++ behind ws ++ "\n" = _
  simp only [cons_append, nil_append, line_text, behind_cons]
  rw [show "decl " = "decl" ++ " " from rfl, show " sig " = " " ++ "sig" ++ " " from rfl]
  simp only [String.append_assoc]

/-- The dump of a laid out listing. -/
theorem Listing.dump_into_decl {r : Listing} (hwf : r.Wf) (hsize : r.size < 2 ^ 31)
    (hterm : r.Terminated) : dump r.into_decl = .ok (text_of r.words) := by
  obtain ⟨texts, htexts, hjoin⟩ := @Listing.dump_blocks r [] r.blocks hwf hsize hterm rfl
  refine bind_eq_ok.mpr ⟨texts, mapM_eq_ok.mpr htexts, ?_⟩
  have hle := r.lines_le
  have hlen := length_le_lines_size r.blocks.flatten
  have hcaptures := length_captures_le r.regions
  obtain ⟨hreads, hcaps⟩ := region_pool_reads r.regions
  have hregions : (all_rows r.into_decl.regions.rows).map
      (fun p => dump_region r.into_decl p.1 p.2) =
      (all_rows r.regions).map fun p => line_text (p.2.words p.1) := by
    refine map_all_rows_eq hreads fun id row line hrow => ?_
    refine dump_region_reads (d := r.into_decl) hrow ?_ id
    change (region_pool r.regions).captures.length < 2 ^ 32 - 1
    unfold Listing.size at hsize
    rw [hcaps]
    omega
  obtain ⟨rest, hrows, hrest⟩ := layout_vals r.params (show r.blocks.flatten.length ≤ 2 ^ 31 by omega)
  have hparams := dump_params r.params rest hrest
  rw [← hrows] at hparams
  have hinvariant : (if r.is_unsafe_invariant then " unsafe" else "") =
      behind (if r.is_unsafe_invariant then ["unsafe"] else []) := by
    split <;> rfl
  have hdecl := decl_text r.decl r.sig (if r.is_unsafe_invariant then ["unsafe"] else [])
  rw [← hinvariant] at hdecl
  change Except.ok (_ ++ String.join ((all_rows r.into_decl.regions.rows).map
    fun p => dump_region r.into_decl p.1 p.2) ++ String.join _ ++ String.join texts) = _
  have hlines : String.join ((all_rows r.regions).map fun p => line_text (p.2.words p.1)) =
      text_of ((all_rows r.regions).map fun p => p.2.words p.1) := by
    rw [text_of, map_map]
    rfl
  rw [hjoin, hregions, hlines, Listing.words, text_of_cons, text_of_append, text_of_append,
    ← hparams, Listing.decl_words, ← hdecl, ← String.append_assoc, ← String.append_assoc]
  rfl

end Fors.Fmir
