import Fors.Fmir.TextRoundTrip

/-!
# Which texts round trip

The words that `dump` writes parse to the listing without the seeds that are not written. Where
they parse to the same bytes, no seed was left out; where they parse at all, no region had
captures, since no value is named above the region lines; and as many values come back as there
are `val` lines.

Principal result: `parse_dump_iff`.
-/

namespace Fors.Fmir

open Text Runs List

variable {r : Listing} {ids : Names} {n : Nat} {s s' : ParseState} {ls : List (List String)}

/-! ## Encodings of listings -/

theorem layout_built (params : List ParamLine) (ls : List Line) :
    (places_of (layout params ls).roots).Built := by
  induction ls using List.reverseRecOn with
  | nil => exact .new
  | append_singleton ls l ih =>
    rw [layout_concat]
    cases hdest : l.dest with
    | none =>
      rw [Pools.push_none hdest]
      exact ih
    | some dest =>
      obtain ⟨v, seed⟩ := dest
      rw [Pools.push_some hdest]
      cases seed with
      | None | Conv | Arena => exact ih
      | Own root | Split root => exact .intern ih (intern_places _ root)

theorem Listing.encodable (hsize : r.size < 2 ^ 31) : r.into_decl.Encodable := by
  have hle := r.lines_le
  have hlen := length_le_lines_size r.blocks.flatten
  have hdefs : defs r.blocks.flatten ≤ r.blocks.flatten.length := countP_le_length
  have heven := layout_even r.params r.blocks.flatten
  have hroots := (layout_bounded r.params r.blocks.flatten).roots
  have hregions := regions_size_eq r.regions
  have hvals : r.into_decl.vals.entries.length = r.params.length + defs r.blocks.flatten :=
    heven.vals
  have hblocks := length_block_rows r.pools.insts.rows 0 (r.blocks.map List.length)
  rw [length_map] at hblocks
  unfold Listing.size at hsize
  exact
    { countable :=
        { vals := by rw [hvals]; omega
          insts := layout_countable (by omega)
          blocks := by
            change (block_rows _ _ _).length < _
            rw [hblocks]
            omega
          scopes := by simp [Listing.into_decl]
          defers := by simp [Listing.into_decl]
          regions := by
            change (region_pool r.regions).rows.length < _
            omega
          captures := by
            change (region_pool r.regions).captures.length < _
            omega
          sites := by simp [Listing.into_decl]
          obligations := by simp [Listing.into_decl]
          scoped_sources := by simp [Listing.into_decl]
          exits := by constructor <;> simp [Listing.into_decl] }
      places := layout_built r.params r.blocks.flatten
      place_rows := by
        change (r.pools.roots.map _).length < _
        rw [length_map, Listing.pools]
        omega
      place_segs := by simp [Listing.into_decl, places_of]
      consts := .new
      const_rows := by simp [Listing.into_decl, ConstPool.new] }

/-! ## What the words say -/

theorem parse_lines_split {ms : List (List String)} (h : parse_lines ids n s (ls ++ ms) = .ok s') :
    ∃ s1, parse_lines ids n s ls = .ok s1 ∧ parse_lines ids (n + ls.length) s1 ms = .ok s' := by
  induction ls generalizing n s with
  | nil => exact ⟨s, rfl, h⟩
  | cons ws ls ih =>
    obtain ⟨s0, hline, h⟩ := bind_eq_ok.mp h
    obtain ⟨s1, hls, hms⟩ := ih h
    refine ⟨s1, bind_eq_ok.mpr ⟨s0, hline, hls⟩, ?_⟩
    rw [length_cons, Nat.add_comm ls.length, ← Nat.add_assoc]
    exact hms

/-- Above the first value no capture is known. -/
theorem parse_capture_nil {tok : String} {row : CaptureRow} : parse_capture [] n tok ≠ .ok row := by
  intro h
  unfold parse_capture at h
  split at h
  · cases h
  · obtain ⟨v, hv, -⟩ := bind_eq_ok.mp h
    cases hv

theorem parse_region_words {line : RegionLine} {id : RegionId} (hnames : s.val_names = [])
    (h : parse_line ids n s (line.words id) = .ok s') :
    line.captures.getD [] = [] ∧ s'.val_names = [] := by
  change parse_region s ⟨n, Slot.region.word id :: line.kind.word :: _⟩ = _ at h
  obtain ⟨⟨name, t⟩, hname, h⟩ := bind_eq_ok.mp h
  obtain ⟨-, rfl⟩ := Prod.mk.inj (Except.ok.inj hname)
  obtain ⟨⟨tok, u⟩, htok, h⟩ := bind_eq_ok.mp h
  obtain ⟨-, rfl⟩ := Prod.mk.inj (Except.ok.inj htok)
  obtain ⟨kind, -, h⟩ := bind_eq_ok.mp h
  obtain ⟨captures, hcaptures, h⟩ := bind_eq_ok.mp h
  cases h
  refine ⟨?_, hnames⟩
  cases hline : line.captures with
  | none => rfl
  | some caps =>
    rw [hline] at hcaptures
    obtain ⟨rows, hrows, -⟩ := bind_eq_ok.mp hcaptures
    rw [hnames] at hrows
    cases caps with
    | nil => rfl
    | cons cap caps =>
      have hrows := mapM_eq_ok.mp hrows
      rw [map_cons] at hrows
      cases hrows with
      | cons hcap _ => exact absurd hcap parse_capture_nil

theorem parse_regions_words {regions : List RegionLine} {k : Nat} (hnames : s.val_names = [])
    (h : parse_lines ids n s (((regions.zipIdx k).map fun (line, i) => (UInt32.ofNat i, line)).map
        fun p => p.2.words p.1) = .ok s') :
    ∀ line ∈ regions, line.captures.getD [] = [] := by
  induction regions generalizing k n s with
  | nil => exact fun _ hline => nomatch hline
  | cons line regions ih =>
    rw [zipIdx_cons, map_cons, map_cons] at h
    obtain ⟨s1, hline, h⟩ := bind_eq_ok.mp h
    obtain ⟨hcaptures, hnames1⟩ := parse_region_words hnames hline
    exact forall_mem_cons.mpr ⟨hcaptures, ih hnames1 h⟩

/-! ### The values -/

theorem is_val_line_words (next : Nat) (l : Line) :
    is_val_line (l.words next) = (l.dest.isSome && !l.op.is_terminator) := by
  unfold Line.words
  cases l.dest with
  | none => rfl
  | some dest => cases l.op.is_terminator <;> rfl

theorem countP_line_words (next : Nat) (ls : List Line) :
    (line_words next ls).countP is_val_line =
      ls.countP fun l => l.dest.isSome && !l.op.is_terminator := by
  induction ls generalizing next with
  | nil => rfl
  | cons l ls ih => rw [line_words, countP_cons, countP_cons, ih, is_val_line_words]

theorem countP_block_words (b next : Nat) (blocks : List (List Line)) :
    (block_words b next blocks).countP is_val_line =
      blocks.flatten.countP fun l => l.dest.isSome && !l.op.is_terminator := by
  induction blocks generalizing b next with
  | nil => rfl
  | cons ls blocks ih =>
    have hblock : ¬ is_val_line ["block", Slot.block.word (UInt32.ofNat b)] = true :=
      Bool.false_ne_true
    rw [block_words, countP_cons_of_neg hblock, countP_append, countP_line_words, ih,
      flatten_cons, countP_append]

theorem Listing.countP_words (r : Listing) :
    r.words.countP is_val_line = r.params.length +
      r.blocks.flatten.countP fun l => l.dest.isSome && !l.op.is_terminator := by
  have hregions : ((all_rows r.regions).map fun p => p.2.words p.1).countP is_val_line = 0 := by
    rw [countP_eq_zero]
    intro ws hws
    obtain ⟨p, -, rfl⟩ := mem_map.mp hws
    exact Bool.false_ne_true
  have hparams : ((all_rows r.params).map fun p => p.2.words p.1).countP is_val_line =
      r.params.length := by
    have hall : ∀ ws ∈ (all_rows r.params).map fun p => p.2.words p.1, is_val_line ws = true := by
      intro ws hws
      obtain ⟨p, -, rfl⟩ := mem_map.mp hws
      rfl
    rw [countP_eq_length.mpr hall]
    simp [all_rows]
  have hdecl : ¬ is_val_line r.decl_words = true := Bool.false_ne_true
  rw [Listing.words, countP_cons_of_neg hdecl, countP_append, countP_append,
    hregions, hparams, countP_block_words, Nat.zero_add]

/-- The parts of a parse of words. -/
theorem parse_words_parts {d : DeclFmir} (h : parse_words ls = .ok d) :
    ∃ ids s, parse_lines ids 1 .new ls = .ok s ∧ d.vals = s.vals := by
  obtain ⟨ids, -, h⟩ := bind_eq_ok.mp h
  obtain ⟨s, hlines, h⟩ := bind_eq_ok.mp h
  obtain ⟨blocks, -, h⟩ := bind_eq_ok.mp h
  split at h
  · cases h
  split at h
  · cases h
  cases h
  exact ⟨ids, s, hlines, rfl⟩

theorem vals_word (d : DeclFmir) :
    (to_words d)[4]? = some (UInt32.ofNat d.vals.entries.length) := by
  have hlen : d.vals.rows.length = d.vals.entries.length := length_map _
  rw [← hlen]
  simp only [to_words, write_bool, write_vals, cons_append, nil_append]
  rfl

/-- All values come back if as many do. -/
theorem forall_of_countP {α : Type} {p q : α → Bool} {xs : List α}
    (h : xs.countP p = xs.countP fun x => p x && q x) : ∀ x ∈ xs, p x = true → q x = true := by
  have hsplit : xs.countP p = (xs.countP fun x => p x && q x) + xs.countP fun x => p x && !q x := by
    clear h
    induction xs with
    | nil => rfl
    | cons x xs ih =>
      rw [countP_cons, countP_cons, countP_cons, ih]
      cases p x <;> cases q x <;> simp <;> omega
  have hzero : (xs.countP fun x => p x && !q x) = 0 := by omega
  intro x hx hp
  have hx := countP_eq_zero.mp hzero x hx
  rw [hp] at hx
  simpa using hx

/-- What follows from words that parse to as many values, and to the same bytes. -/
theorem Listing.faithful_of_parse {d : DeclFmir} (hwf : r.Wf) (hsize : r.size < 2 ^ 31)
    (hparse : parse_words r.words = .ok d) (hbytes : to_bytes d = to_bytes r.into_decl) :
    r.Faithful := by
  obtain ⟨ids, s, hlines, hvals⟩ := parse_words_parts hparse
  have hle := r.lines_le
  have hlen := length_le_lines_size r.blocks.flatten
  have hdefs : defs r.blocks.flatten ≤ r.blocks.flatten.length := countP_le_length
  have hcaptures : ∀ line ∈ r.regions, line.captures.getD [] = [] := by
    obtain ⟨s1, hdecl, hrest⟩ := bind_eq_ok.mp hlines
    rw [append_assoc] at hrest
    obtain ⟨s2, hregions, -⟩ := parse_lines_split hrest
    rw [parse_line_decl ids 1 r rfl rfl] at hdecl
    cases hdecl
    exact parse_regions_words rfl hregions
  have hdests : ∀ l ∈ r.blocks.flatten, l.dest.isSome → l.op.is_terminator = false := by
    have hgrown := (parse_lines_grown hlines).vals
    rw [← hvals, r.countP_words] at hgrown
    have heven := (layout_even r.params r.blocks.flatten).vals
    have hwords := vals_word d
    rw [into_bytes_inj hbytes, vals_word] at hwords
    have hcount := countP_mono_left (l := r.blocks.flatten)
      (p := fun l => l.dest.isSome && !l.op.is_terminator) (q := fun l => l.dest.isSome)
      (fun l _ h => (Bool.and_eq_true_iff.mp h).1)
    have hnew : ParseState.new.vals.entries.length = 0 := rfl
    change _ ≤ defs r.blocks.flatten at hcount
    change r.into_decl.vals.entries.length = _ at heven
    have heq := ofNat_inj_of_lt (by omega) (by omega) (Option.some.inj hwords)
    have hequal : r.blocks.flatten.countP (fun l => l.dest.isSome) =
        r.blocks.flatten.countP fun l => l.dest.isSome && !l.op.is_terminator := by
      change defs r.blocks.flatten = _
      omega
    have hall := forall_of_countP hequal
    intro l hl hdest
    simpa using hall l hl hdest
  -- the words are those of the listing without the seeds they leave out
  have hcarried := parse_words_words hwf.carried (by rw [r.size_carried]; exact hsize)
    (r.faithful_carried hcaptures hdests)
  rw [r.words_carried, hparse] at hcarried
  cases hcarried
  have hencodable : r.carried.into_decl.Encodable :=
    r.carried.encodable (by rw [r.size_carried]; exact hsize)
  have hsame := (from_bytes_to_bytes r.into_decl (r.encodable hsize)).2 _ hencodable hbytes
  have hinsts : r.carried.into_decl.insts = r.into_decl.insts :=
    congrArg (fun d : DeclFmir => d.insts) hsame
  refine ⟨hcaptures, fun l hl => ⟨hdests l hl, fun hseed => ?_⟩⟩
  obtain ⟨i, hi⟩ := getElem?_of_mem hl
  have hi' : r.carried.blocks.flatten[i]? = some l.carried := by
    rw [r.flatten_carried, getElem?_map, hi]
    rfl
  obtain ⟨-, -, -, hreads⟩ := r.row_at hi
  obtain ⟨-, -, -, hreads'⟩ := r.carried.row_at hi'
  have hnone : l.carried.seed = .None ↔ l.seed = .None := by
    rw [← hreads.alias_none_iff, ← hreads'.alias_none_iff]
    change r.carried.into_decl.insts.alias_ i = _ ↔ r.into_decl.insts.alias_ i = _
    rw [hinsts]
  by_contra hmem
  refine hseed (hnone.mp ?_)
  rw [l.carried_seed, if_neg hmem]

/-! ## Round trips -/

theorem parse_text_of (r : Listing) : parse (text_of r.words) = parse_words r.words := by
  rw [parse, text_lines_text_of r.words_plain]

/-- A text whose parameters stand above its blocks and whose blocks end in terminators round trips
exactly when the text form carries its declaration. -/
theorem parse_dump_iff {t : String} {d : DeclFmir} (hparse : parse t = .ok d)
    (hfirst : ParamsFirst (text_lines t))
    (hterm : ∀ block ∈ d.blocks, block.term.op.is_terminator = true) (hsize : d.size < 2 ^ 31) :
    (∃ s d', dump d = .ok s ∧ parse s = .ok d' ∧ to_bytes d' = to_bytes d) ↔ d.Carried := by
  have hrows : d.insts.rows.length < 2 ^ 32 := by
    unfold DeclFmir.size at hsize
    omega
  obtain ⟨r, hwf, rfl⟩ := parse_words_ok hrows hfirst hparse
  have hsize := Nat.lt_of_le_of_lt r.size_le hsize
  have hdump := r.dump_into_decl hwf hsize (r.terminated_of_decl hterm)
  rw [r.carried_iff hsize]
  constructor
  · rintro ⟨s, d', hs, hd', hbytes⟩
    rw [hdump] at hs
    cases hs
    rw [parse_text_of] at hd'
    exact r.faithful_of_parse hwf hsize hd' hbytes
  · intro hfaith
    refine ⟨_, r.into_decl, hdump, ?_, rfl⟩
    rw [parse_text_of]
    exact parse_words_words hwf hsize hfaith

/-- An allocation with the seed it takes. -/
def alloc_text : String :=
  "decl 1 sig 2 unsafe\nregion r0 spawn captures\nval %n = param 0 ty 1 nosecret ct=0\n" ++
    "block entry\nval %a = alloc %n %n ty 3 ? ct=? seed own7\ndo ret %a\n"

def alloc_listing : Listing where
  decl := 1
  sig := 2
  is_unsafe_invariant := true
  regions := [⟨.Spawn, some []⟩]
  params := [⟨0, 1, 0, 0⟩]
  blocks := [[⟨.Alloc, .slots [(.val, 0), (.val, 0)],
    some (⟨3, SECRET_UNSPECIFIED, CT_UNSPECIFIED⟩, .Own 7)⟩, ⟨.Ret, .slots [(.val, 1)], none⟩]]

theorem parse_dump_iff_alloc :
    (∃ s d', dump alloc_listing.into_decl = .ok s ∧ parse s = .ok d' ∧
      to_bytes d' = to_bytes alloc_listing.into_decl) ↔ alloc_listing.into_decl.Carried :=
  parse_dump_iff (t := alloc_text) (by decide +kernel)
    (by unfold ParamsFirst; decide +kernel) (by decide +kernel) (by decide +kernel)

/-- A task that captures a parameter. -/
def capture_text : String :=
  "decl 1 sig 2\nval %x = param 0 ty 1 nosecret ct=0\nregion r0 spawn captures %x:let\n" ++
    "block entry\ndo ret\n"

def capture_listing : Listing where
  decl := 1
  sig := 2
  is_unsafe_invariant := false
  regions := [⟨.Spawn, some [⟨0, .Let⟩]⟩]
  params := [⟨0, 1, 0, 0⟩]
  blocks := [[⟨.Ret, .slots [], none⟩]]

/-- Its region is written above the parameter, and does not parse there. -/
theorem capture_does_not_round_trip :
    parse capture_text = .ok capture_listing.into_decl ∧ ParamsFirst (text_lines capture_text) ∧
      (∀ block ∈ capture_listing.into_decl.blocks, block.term.op.is_terminator = true) ∧
      ¬ ∃ s d', dump capture_listing.into_decl = .ok s ∧ parse s = .ok d' ∧
        to_bytes d' = to_bytes capture_listing.into_decl := by
  have hdump : dump capture_listing.into_decl = .ok
      ("decl 1 sig 2\nregion r0 spawn captures %v0:let\nval %v0 = param 0 ty 1 nosecret ct=0\n" ++
        "block bb0\ndo ret\n") := by
    decide +kernel
  refine ⟨by decide +kernel, by unfold ParamsFirst; decide +kernel, by decide +kernel, ?_⟩
  rintro ⟨s, d', hs, hd', -⟩
  rw [hdump] at hs
  cases hs
  revert hd'
  generalize hparse : parse _ = result
  have herr : result = .error (.err ⟨2, "unknown value `%v0`"⟩) := by
    rw [← hparse]
    decide +kernel
  rw [herr]
  exact fun hd' => nomatch hd'

end Fors.Fmir
