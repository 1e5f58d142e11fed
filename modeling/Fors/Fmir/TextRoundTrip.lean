import Fors.Fmir.Carried
import Fors.Fmir.Reparse

/-!
# The round trip of a text

A declaration that was parsed dumps to a text that parses to it again, unless the dump leaves out
or misplaces something: the captures of a region, which it writes above the values; the value of a
terminator; the seed of an opcode that takes none.

Principal result: `parse_words_words`.
-/

namespace Fors.Fmir

open Text Runs List Option

variable {nb n : Nat} {s : ParseState} {r : Listing} {ids : Names} {open_ : Option (List Line)}
  {l : Line} {ls ms : List Line}

/-! ## The first pass -/

theorem parse_blocks_append {ls ms : List (List String)} (h : ∀ ws ∈ ls, is_block_line ws = false)
    (n : Nat) (ids : Names) :
    parse_blocks n ids (ls ++ ms) = parse_blocks (n + ls.length) ids ms := by
  induction ls generalizing n with
  | nil => rfl
  | cons ws ls ih =>
    rw [forall_mem_cons] at h
    have hskip : parse_blocks n ids (ws :: (ls ++ ms)) = parse_blocks (n + 1) ids (ls ++ ms) := by
      rw [parse_blocks]
      · rintro rfl
        exact absurd h.1 (by decide)
      · rintro name rest rfl
        exact absurd h.1 (by simp [is_block_line])
    rw [cons_append, hskip, ih h.2, length_cons]
    congr 1
    omega

theorem is_block_line_words (next : Nat) (l : Line) : is_block_line (l.words next) = false := by
  unfold Line.words
  split <;> rfl

theorem is_block_line_lines (next : Nat) (ls : List Line) :
    ∀ ws ∈ line_words next ls, is_block_line ws = false := by
  induction ls generalizing next with
  | nil => exact fun _ hws => nomatch hws
  | cons l ls ih =>
    rw [line_words, forall_mem_cons]
    exact ⟨is_block_line_words next l, ih _⟩

theorem parse_blocks_words (next b : Nat) (blocks : List (List Line))
    (hlen : b + blocks.length ≤ 2 ^ 32) (n : Nat) :
    parse_blocks n (names_of .block b) (block_words b next blocks) =
      .ok (names_of .block (b + blocks.length)) := by
  induction blocks generalizing b next n with
  | nil => rfl
  | cons ls blocks ih =>
    rw [length_cons] at hlen
    have hfresh : (names_of .block b).lookup (Slot.block.word (UInt32.ofNat b)) = none :=
      lookup_names_of_none (by decide) (Nat.le_refl b) (by omega)
    rw [block_words, parse_blocks, hfresh]
    simp only [isSome_none, Bool.false_eq_true, if_false, length_names_of]
    rw [parse_blocks_append (is_block_line_lines next ls)]
    change parse_blocks _ (names_of .block (b + 1)) _ = _
    rw [ih _ _ (by omega), length_cons, Nat.add_right_comm, Nat.add_assoc]

/-- The first pass numbers the blocks in their order. -/
theorem parse_blocks_listing (hlen : r.blocks.length ≤ 2 ^ 32) :
    parse_blocks 1 [] r.words = .ok (names_of .block r.blocks.length) := by
  have hhead : ∀ ws ∈ r.decl_words :: ((all_rows r.regions).map (fun p => p.2.words p.1) ++
      (all_rows r.params).map (fun p => p.2.words p.1)), is_block_line ws = false := by
    rw [forall_mem_cons, forall_mem_append]
    refine ⟨rfl, ?_, ?_⟩ <;> intro ws hws <;> obtain ⟨p, -, rfl⟩ := mem_map.mp hws <;> rfl
  have hwords : r.words = (r.decl_words :: ((all_rows r.regions).map (fun p => p.2.words p.1) ++
      (all_rows r.params).map (fun p => p.2.words p.1))) ++
        block_words 0 r.params.length r.blocks := by
    simp [Listing.words]
  have hblocks := parse_blocks_words r.params.length 0 r.blocks (by omega)
  rw [hwords, parse_blocks_append hhead]
  rw [Nat.zero_add] at hblocks
  exact hblocks _

/-! ## The second pass -/

theorem parse_lines_append {ls : List (List String)} {s' : ParseState}
    (h : parse_lines ids n s ls = .ok s') (ms : List (List String)) :
    parse_lines ids n s (ls ++ ms) = parse_lines ids (n + ls.length) s' ms := by
  induction ls generalizing n s with
  | nil =>
    cases h
    rfl
  | cons ws ls ih =>
    obtain ⟨s1, hline, h⟩ := bind_eq_ok.mp h
    rw [cons_append, parse_lines, hline]
    change parse_lines ids (n + 1) s1 (ls ++ ms) = _
    rw [ih h, length_cons]
    congr 1
    omega

/-- A state that lists, with the names that `dump` gives. -/
structure Tracks (nb : Nat) (s : ParseState) (r : Listing) (open_ : Option (List Line)) : Prop where
  lists : s.Lists nb r open_
  names : s.val_names = names_of .val s.vals.entries.length
  saw : s.saw_decl_line = true

theorem parse_lines_regions (ids : Names) (n : Nat) (regions : List RegionLine) (k : Nat)
    (hregions : ∀ line ∈ regions, line.captures.getD [] = []) (h : Tracks nb s r open_) :
    ∃ s', parse_lines ids n s (((regions.zipIdx k).map fun (line, i) => (UInt32.ofNat i, line)).map
        fun p => p.2.words p.1) = .ok s' ∧
      Tracks nb s' { r with regions := r.regions ++ regions } open_ := by
  induction regions generalizing k n s r with
  | nil =>
    refine ⟨s, rfl, ?_⟩
    rw [append_nil]
    exact h
  | cons line regions ih =>
    rw [forall_mem_cons] at hregions
    have hnext : Tracks nb { s with regions := s.regions.push line.kind line.captures }
        { r with regions := r.regions ++ [line] } open_ :=
      ⟨h.lists.push_region line, h.names, h.saw⟩
    obtain ⟨s', hparse, htracks⟩ := ih (n + 1) (k + 1) hregions.2 hnext
    refine ⟨s', ?_, ?_⟩
    · rw [zipIdx_cons, map_cons, map_cons, parse_lines]
      exact bind_eq_ok.mpr ⟨_, parse_line_region _ line hregions.1, hparse⟩
    · rw [append_assoc] at htracks
      exact htracks

theorem parse_lines_params (ids : Names) (n : Nat) (params : List ParamLine) {k : Nat}
    (hparams : ∀ param ∈ params, param.typed.Spelled) (h : Tracks nb s r none)
    (hk : k = r.params.length) :
    ∃ s', parse_lines ids n s (((params.zipIdx k).map fun (param, i) => (UInt32.ofNat i, param)).map
        fun p => p.2.words p.1) = .ok s' ∧
      Tracks nb s' { r with params := r.params ++ params } none := by
  induction params generalizing k n s r with
  | nil =>
    refine ⟨s, rfl, ?_⟩
    rw [append_nil]
    exact h
  | cons param params ih =>
    rw [forall_mem_cons] at hparams
    have hvals : s.vals.entries.length = k := by
      have heven := h.lists.even.2
      rw [h.lists.closed rfl] at heven
      rw [heven, hk]
      rfl
    have hnext : Tracks nb
        (s.push_val (Slot.val.word (UInt32.ofNat k)) (param.typed.row (.Param param.ordinal)))
        { r with params := r.params ++ [param] } none := by
      refine ⟨h.lists.push_param _ param hparams.1, ?_, h.saw⟩
      simp only [ParseState.push_val, ValPool.push, length_append, length_singleton,
        h.names, hvals]
      rfl
    obtain ⟨s', hparse, htracks⟩ := ih (n + 1) (k := k + 1) hparams.2 hnext (by simp [hk])
    refine ⟨s', ?_, ?_⟩
    · rw [zipIdx_cons, map_cons, map_cons, parse_lines]
      exact bind_eq_ok.mpr ⟨_, parse_line_param _ param hparams.1, hparse⟩
    · rw [append_assoc] at htracks
      exact htracks

theorem Line.words_do (hdest : l.dest = none) (next : Nat) :
    l.words next = "do" :: l.inst_words := by
  rw [Line.words, hdest]

theorem Line.words_val (hfaith : l.Faithful) {v : Typed} {seed : SeedSpec}
    (hdest : l.dest = some (v, seed)) (next : Nat) :
    l.words next = "val" :: Slot.val.word (UInt32.ofNat next) :: "=" ::
      (l.inst_words ++ v.words ++ seed.words) := by
  have hterm : l.op.is_terminator = false := hfaith.dest (by rw [hdest]; rfl)
  have hseed : (if l.op.is_memory_producing then seed.words else []) = seed.words := by
    split
    · rfl
    · rename_i hmem
      have hnone : l.seed = .None := by
        by_contra hne
        exact hmem (hfaith.seed hne)
      rw [Line.seed, hdest] at hnone
      rw [show seed = .None from hnone]
      rfl
  rw [Line.words, hdest, hterm]
  dsimp only
  rw [hseed]

/-- A written line adds itself to the open block. -/
theorem parse_line_words (h : Tracks nb s r (some ms)) (hnb : nb ≤ 2 ^ 32)
    (hnv : s.vals.entries.length ≤ 2 ^ 32) (hwf : l.Wf s.vals.entries.length nb)
    (hfaith : l.Faithful) :
    ∃ s', parse_line (names_of .block nb) n s (l.words s.vals.entries.length) = .ok s' ∧
      Tracks nb s' r (some (ms ++ [l])) ∧
      s'.vals.entries.length = s.vals.entries.length + defs [l] := by
  have hopen : s.current_block.isSome = true := by
    have hcurrent := congrArg Option.isSome h.lists.current
    rwa [isSome_map, isSome_map] at hcurrent
  have hctx : Ctx.Named ⟨s.val_names, names_of .block nb⟩ s.vals.entries.length nb := ⟨h.names, rfl⟩
  cases hdest : l.dest with
  | none =>
    rw [Line.words_do hdest]
    refine ⟨_, parse_line_do hopen hctx hnv hnb hwf hdest, ?_, ?_⟩
    · exact ⟨h.lists.push_do hwf hdest, h.names, h.saw⟩
    · simp [defs, hdest]
  | some dest =>
    obtain ⟨v, seed⟩ := dest
    have hplaces := h.lists.places
    rw [getD_some] at hplaces
    rw [Line.words_val hfaith hdest]
    refine ⟨_, parse_line_val hopen hctx hnv hnb hwf hdest hplaces _, ?_, ?_⟩
    · refine ⟨h.lists.push_val_line hwf hdest rfl _, ?_, h.saw⟩
      simp only [ParseState.push_val, ValPool.push, length_append, length_singleton,
        h.names]
      rfl
    · simp [ParseState.push_val, ValPool.push, defs, hdest]

theorem parse_lines_words (h : Tracks nb s r (some ms)) (hnb : nb ≤ 2 ^ 32)
    (hnv : s.vals.entries.length + defs ls ≤ 2 ^ 32) (hwf : WfLines nb s.vals.entries.length ls)
    (hfaith : ∀ l ∈ ls, l.Faithful) :
    ∃ s', parse_lines (names_of .block nb) n s (line_words s.vals.entries.length ls) = .ok s' ∧
      Tracks nb s' r (some (ms ++ ls)) := by
  induction ls generalizing s n ms with
  | nil =>
    refine ⟨s, rfl, ?_⟩
    rw [append_nil]
    exact h
  | cons l ls ih =>
    rw [forall_mem_cons] at hfaith
    rw [defs_cons] at hnv
    obtain ⟨s1, hline, htracks, hlen⟩ :=
      parse_line_words (n := n) h hnb (by omega) hwf.1 hfaith.1
    have hwf := hwf.2
    rw [← Nat.add_assoc, ← hlen] at hnv
    rw [← hlen] at hwf
    obtain ⟨s', hparse, htracks⟩ := ih (n := n + 1) htracks hnv hwf hfaith.2
    refine ⟨s', ?_, ?_⟩
    · rw [line_words, ← hlen]
      exact bind_eq_ok.mpr ⟨s1, hline, hparse⟩
    · rw [append_assoc] at htracks
      exact htracks

/-- A block line closes the open block. -/
theorem parse_line_block (ids : Names) (n : Nat) (h : Tracks nb s r open_) (hopen : open_ ≠ some [])
    (hrows : s.insts.rows.length < 2 ^ 32) (name : String) :
    ∃ s', parse_line ids n s ["block", name] = .ok s' ∧
      Tracks nb s' { r with blocks := r.blocks ++ open_.toList } (some []) ∧
      s'.vals = s.vals ∧ s'.insts = s.insts := by
  change ∃ s', parse_block s ⟨n, [name]⟩ = .ok s' ∧ _
  cases open_ with
  | none =>
    have hcurrent : s.current_block = none := map_eq_none_iff.mp h.lists.current
    have hfinish : s.finish n = .ok s.blocks := by rw [ParseState.finish, hcurrent]
    refine ⟨_, bind_eq_ok.mpr ⟨_, hfinish, bind_eq_ok.mpr ⟨(name, ⟨n, []⟩), rfl, rfl⟩⟩, ?_, rfl, rfl⟩
    rw [toList_none, append_nil]
    exact ⟨h.lists.first_block name, h.names, h.saw⟩
  | some ls =>
    obtain ⟨hfinish, hls⟩ | ⟨rfl, -⟩ := h.lists.finish_eq hrows n
    · refine ⟨_, bind_eq_ok.mpr ⟨_, hfinish, bind_eq_ok.mpr ⟨(name, ⟨n, []⟩), rfl, rfl⟩⟩, ?_, rfl, rfl⟩
      exact ⟨h.lists.next_block hls name, h.names, h.saw⟩
    · exact absurd rfl hopen

theorem parse_lines_blocks {blocks : List (List Line)} (h : Tracks nb s r open_)
    (hopen : open_ ≠ some []) (hnb : nb ≤ 2 ^ 32)
    (hrows : s.insts.rows.length + blocks.flatten.length < 2 ^ 32)
    (hnv : s.vals.entries.length + defs blocks.flatten ≤ 2 ^ 32)
    (hwf : WfLines nb s.vals.entries.length blocks.flatten) (hnonempty : ∀ ls ∈ blocks, ls ≠ [])
    (hfaith : ∀ l ∈ blocks.flatten, l.Faithful) (b : Nat) :
    ∃ s' r' open', parse_lines (names_of .block nb) n s
        (block_words b s.vals.entries.length blocks) = .ok s' ∧
      Tracks nb s' r' open' ∧ open' ≠ some [] ∧
      { r' with blocks := r'.blocks ++ open'.toList } =
        { r with blocks := r.blocks ++ open_.toList ++ blocks } := by
  induction blocks generalizing s r open_ n b with
  | nil =>
    refine ⟨s, r, open_, rfl, h, hopen, ?_⟩
    rw [append_nil]
  | cons ls blocks ih =>
    rw [flatten_cons, length_append] at hrows
    rw [flatten_cons, defs_append] at hnv
    rw [flatten_cons, wfLines_append] at hwf
    rw [forall_mem_cons] at hnonempty
    rw [flatten_cons, forall_mem_append] at hfaith
    obtain ⟨s1, hblock, htracks1, hvals1, hinsts1⟩ :=
      parse_line_block (names_of .block nb) n h hopen (by omega) (Slot.block.word (UInt32.ofNat b))
    rw [← hvals1] at hnv hwf ⊢
    rw [← hinsts1] at hrows
    obtain ⟨s2, hlines, htracks2⟩ :=
      parse_lines_words (n := n + 1) htracks1 hnb (by omega) hwf.1 hfaith.1
    have heven1 := htracks1.lists.even
    have heven2 := htracks2.lists.even
    simp only [getD_some, nil_append, append_nil, defs_append,
      length_append] at heven1 heven2
    have hvals2 : s2.vals.entries.length = s1.vals.entries.length + defs ls := by omega
    have hinsts2 : s2.insts.rows.length = s1.insts.rows.length + ls.length := by omega
    have hwf2 := hwf.2
    rw [← hvals2] at hwf2
    obtain ⟨s', r', open', hparse, htracks, hopen', hr'⟩ :=
      ih (n := n + 1 + (line_words s1.vals.entries.length ls).length) htracks2
        (fun hnil => hnonempty.1 (some.inj hnil)) (by omega) (by omega) hwf2 hnonempty.2
        hfaith.2 (b + 1)
    refine ⟨s', r', open', ?_, htracks, hopen', ?_⟩
    · refine bind_eq_ok.mpr ⟨s1, hblock, ?_⟩
      rw [parse_lines_append hlines, ← hvals2]
      exact hparse
    · rw [hr']
      simp

/-- A listing that the text form can carry is parsed from its words. -/
theorem parse_words_words (hwf : r.Wf) (hsize : r.size < 2 ^ 31) (hfaith : r.Faithful) :
    parse_words r.words = .ok r.into_decl := by
  have hle := r.lines_le
  have hlen := length_le_lines_size r.blocks.flatten
  have hdefs : defs r.blocks.flatten ≤ r.blocks.flatten.length := countP_le_length
  -- the declaration line
  have hnew : Tracks r.blocks.length
      { ParseState.new with
        saw_decl_line := true, decl_key := r.decl, sig := r.sig
        is_unsafe_invariant := r.is_unsafe_invariant }
      ⟨r.decl, r.sig, r.is_unsafe_invariant, [], [], []⟩ none :=
    ⟨ParseState.Lists.new.set_decl _ _ _, rfl, rfl⟩
  have hdecl := parse_line_decl (names_of .block r.blocks.length) 1 (s := .new) r rfl rfl
  -- the lines, kind by kind
  obtain ⟨s1, hregions, htracks1⟩ := parse_lines_regions (names_of .block r.blocks.length)
    2 r.regions 0 hfaith.captures hnew
  obtain ⟨s2, hparams, htracks2⟩ := parse_lines_params (names_of .block r.blocks.length)
    (2 + ((all_rows r.regions).map fun p => p.2.words p.1).length) r.params (k := 0) hwf.params
    htracks1 rfl
  have heven := htracks2.lists.even
  simp only [nil_append, flatten_nil, getD_none, length_nil] at heven
  have hvals : s2.vals.entries.length = r.params.length := heven.2
  obtain ⟨s3, r', open', hblocks, htracks3, hopen', hr'⟩ :=
    parse_lines_blocks (n := 2 + ((all_rows r.regions).map fun p => p.2.words p.1).length +
        ((all_rows r.params).map fun p => p.2.words p.1).length) htracks2
      (fun hnil => nomatch hnil) (by omega) (by omega) (by omega) (by rw [hvals]; exact hwf.lines)
      hwf.nonempty hfaith.lines 0
  rw [hvals] at hblocks
  have hlines : parse_lines (names_of .block r.blocks.length) 1 .new r.words = .ok s3 := by
    refine bind_eq_ok.mpr ⟨_, hdecl, ?_⟩
    have happend := parse_lines_append hregions ((all_rows r.params).map (fun p => p.2.words p.1) ++
      block_words 0 r.params.length r.blocks)
    have happend' := parse_lines_append hparams (block_words 0 r.params.length r.blocks)
    rw [append_assoc]
    exact happend.trans (happend'.trans hblocks)
  -- the last block
  obtain ⟨ls, rfl⟩ : ∃ ls, open' = some ls := by
    cases open' with
    | some ls => exact ⟨ls, rfl⟩
    | none =>
      have hclosed := htracks3.lists.closed rfl
      have hblocks := congrArg Listing.blocks hr'
      simp only [hclosed, toList_none, append_nil, nil_append] at hblocks
      exact absurd hblocks.symm hwf.blocks
  have heq : { r' with blocks := r'.blocks ++ [ls] } = r := hr'
  have hflatten : r.blocks.flatten = r'.blocks.flatten ++ ls := by
    rw [← heq]
    simp
  have hrows := htracks3.lists.even.1
  rw [getD_some, ← hflatten] at hrows
  obtain ⟨hfinish, -⟩ | ⟨rfl, -⟩ := htracks3.lists.finish_eq (by omega) r.words.length
  · have hdecl := htracks3.lists.into_decl
    rw [heq] at hdecl
    have hrnonempty : block_rows s3.insts.rows 0 ((r'.blocks ++ [ls]).map List.length) ≠ [] := by
      intro hnil
      have hlength := congrArg List.length hnil
      rw [map_append, block_rows_append, length_append] at hlength
      cases hlength
    refine bind_eq_ok.mpr ⟨_, parse_blocks_listing (by omega), bind_eq_ok.mpr ⟨s3, hlines,
      bind_eq_ok.mpr ⟨_, hfinish, ?_⟩⟩⟩
    rw [if_neg (not_not.mpr htracks3.saw), if_neg hrnonempty, hdecl]
  · exact absurd rfl hopen'

end Fors.Fmir
