import Fors.Codegen.Tracks

/-!
# Copy and patch

Principal result: `instantiate_is_encode`.  For every key of the table and every fill, patching the
words of the table gives what encoding the body on that fill gives, and a fill that does not fit is one
that the constructors reject.
-/

namespace Fors.Codegen

open Fors.Asm Fors.Fmir List

/-! ## The table -/

/-- The stencil of the key is built, and its words are counted by a `u16`. -/
def builds (key : Key) : Bool :=
  match Stencil.from_key key with
  | .ok s => decide (s.words.length ≤ 65536)
  | .error _ => false

/-- No body panics on the placeholder. -/
theorem builds_all : ∀ key ∈ all_keys, builds key = true := by
  decide +kernel

variable {key : Key}

theorem from_key_of_builds (h : builds key = true) :
    ∃ s, Stencil.from_key key = .ok s ∧ s.words.length ≤ 65536 := by
  unfold builds at h
  cases hs : Stencil.from_key key with
  | error e =>
    rw [hs] at h
    cases h
  | ok s =>
    rw [hs] at h
    exact ⟨s, rfl, of_decide_eq_true h⟩

/-- What is under a key of the index is the stencil of the key. -/
def Table.Sound (t : Table) : Prop :=
  ∀ key i, t.index.lookup key = some i →
    ∃ s, t.stencils[i]? = some s ∧ Stencil.from_key key = .ok s

theorem Table.Sound.insert {t : Table} (h : t.Sound) {s : Stencil}
    (hs : Stencil.from_key key = .ok s) :
    Table.Sound ⟨t.stencils ++ [s], (key, t.stencils.length) :: t.index⟩ := by
  intro k i hi
  dsimp only at hi ⊢
  rw [List.lookup_cons] at hi
  split at hi
  · rename_i hk
    obtain rfl := eq_of_beq hk
    cases hi
    exact ⟨s, by rw [List.getElem?_append_right (Nat.le_refl _), Nat.sub_self]; rfl, hs⟩
  · obtain ⟨s', hs', hkey⟩ := h k i hi
    exact ⟨s', by rw [List.getElem?_append_left (List.getElem?_eq_some_iff.mp hs').1, hs'], hkey⟩

/-- The loop of `table`. -/
theorem insert_all {keys : List Key} (hkeys : ∀ key ∈ keys, builds key = true) :
    ∀ {t : Table}, t.Sound → ∃ t', keys.foldlM Table.insert t = .ok t' ∧ t'.Sound ∧
      (∀ key, (t.index.lookup key).isSome → (t'.index.lookup key).isSome) ∧
      ∀ key ∈ keys, (t'.index.lookup key).isSome := by
  induction keys with
  | nil => exact fun ht => ⟨_, rfl, ht, fun _ h => h, nofun⟩
  | cons key keys ih =>
    intro t ht
    obtain ⟨s, hs, -⟩ := from_key_of_builds (hkeys key mem_cons_self)
    have hinsert : t.insert key =
        .ok ⟨t.stencils ++ [s], (key, t.stencils.length) :: t.index⟩ := by
      unfold Table.insert
      rw [hs]
      rfl
    obtain ⟨t', hfold, hsound, hold, hnew⟩ :=
      ih (fun k hk => hkeys k (mem_cons_of_mem _ hk)) (ht.insert hs)
    refine ⟨t', ?_, hsound, fun k hk => hold k ?_, fun k hk => ?_⟩
    · rw [foldlM_cons, hinsert]
      exact hfold
    · rw [lookup_cons]
      split
      · rfl
      · exact hk
    · rcases mem_cons.mp hk with rfl | hk
      · exact hold k (by rw [lookup_cons, beq_self_eq_true]; rfl)
      · exact hnew k hk

/-- The table is built, and holds the stencil of every key. -/
theorem table_get : ∃ t, table = .ok t ∧ ∀ key ∈ all_keys, ∃ s,
    t.get key = .ok s ∧ Stencil.from_key key = .ok s ∧ s.words.length ≤ 65536 := by
  obtain ⟨t, ht, hsound, -, hall⟩ :=
    insert_all builds_all (t := ⟨[], []⟩) fun _ _ h => by cases h
  refine ⟨t, ht, fun key hkey => ?_⟩
  obtain ⟨i, hi⟩ := Option.isSome_iff_exists.mp (hall key hkey)
  obtain ⟨s, hs, hfrom⟩ := hsound key i hi
  obtain ⟨s', hs', hlen⟩ := from_key_of_builds (builds_all key hkey)
  obtain rfl := Except.ok.inj (hfrom.symm.trans hs')
  refine ⟨s, ?_, hfrom, hlen⟩
  unfold Table.get
  rw [hi]
  dsimp only
  rw [hs]

/-- A stencil is its body, run on the placeholder. -/
theorem from_key_ok {s : Stencil} (h : Stencil.from_key key = .ok s) :
    ∃ s0, body key (Seq.new Fill.placeholder) = .ok ((), s0) ∧ s.key = key ∧
      s.words = s0.insts.map encode_word ∧ s.holes = s0.holes := by
  unfold Stencil.from_key Stencil.build at h
  cases hb : body key (Seq.new Fill.placeholder) with
  | error e =>
    rw [hb] at h
    cases h
  | ok p =>
    rw [hb] at h
    change (((encode_all p.2.insts).bind fun words => _).bind _) = _ at h
    rw [encode_all_eq] at h
    cases h
    exact ⟨p.2, rfl, rfl, rfl, rfl⟩

/-! ## Instances -/

theorem Rel.new (fill0 fill : Fill) : Rel (Seq.new fill0) (Seq.new fill) where
  holes := rfl
  sites := rfl
  fits := nofun
  words := rfl

/-- **Copy and patch is encode.**  Where every hole fits, the body runs on the fill, and the words of
its instructions are the instance of the stencil; where some hole does not, an operand constructor
rejects the body. -/
theorem instantiate_is_encode {key : Key} (hkey : key ∈ all_keys) (fill : Fill) :
    ∃ t s, table = .ok t ∧ t.get key = .ok s ∧ s.key = key ∧
      ((∀ h ∈ s.holes, hole_fits h fill = true) →
        ∃ seq words, body key (Seq.new fill) = .ok ((), seq) ∧ seq.insts.mapM encode = .ok words ∧
          s.instantiate fill = .ok words) ∧
      ((∃ h ∈ s.holes, hole_fits h fill = false) →
        ∃ e, body key (Seq.new fill) = .error (.does_not_encode e)) := by
  obtain ⟨t, ht, hget⟩ := table_get
  obtain ⟨s, hs, hfrom, hlen⟩ := hget key hkey
  obtain ⟨s0, hbody, hskey, hwords, hholes⟩ := from_key_ok hfrom
  refine ⟨t, s, ht, hs, hskey, ?_⟩
  rw [hwords, length_map] at hlen
  have hfill : ∀ {s'}, body key (Seq.new fill) = .ok ((), s') → s'.fill = fill :=
    fun h => ((tracks_body key).grows h).1
  rcases (tracks_body key).follows (Rel.new _ fill) hbody hlen with
    ⟨s', hbody', hrel⟩ | ⟨herror, g, hg, hno⟩
  · refine ⟨fun _ => ⟨s', s'.insts.map encode_word, hbody', mapM_pure, ?_⟩, ?_⟩
    · unfold Stencil.instantiate Stencil.instantiate_into
      rw [hholes, hwords, nil_append]
      have hpatched := hrel.words
      rwa [hfill hbody'] at hpatched
    · rintro ⟨g, hg, hno⟩
      have hfits := hrel.fits g (hholes ▸ hg)
      rw [hfill hbody', hno] at hfits
      cases hfits
  · refine ⟨fun hall => ?_, fun _ => herror⟩
    rw [← hholes] at hg
    have hno' : hole_fits g fill = false := hno
    rw [hall g hg] at hno'
    cases hno'

/-- The largest slots, and a trap site at the end of the reach of the fifth word. -/
def Fill.far : Fill :=
  ⟨32760, 32752, 32744, fun _ => 0xFFFF, fun _ => 2 ^ 20 - 4 + 4 * 4, 0, 0⟩

/-- Whether every hole of the stencil of `key` fits. -/
def all_fit (key : Key) (fill : Fill) : Bool :=
  match table with
  | .ok t =>
    match t.get key with
    | .ok s => s.holes.all fun h => hole_fits h fill
    | .error _ => false
  | .error _ => false

theorem instantiate_far :
    ∃ t s seq words, table = .ok t ∧ t.get (.Bin .Add .Trap .I32) = .ok s ∧
      body (.Bin .Add .Trap .I32) (Seq.new .far) = .ok ((), seq) ∧
      seq.insts.mapM encode = .ok words ∧ s.instantiate .far = .ok words := by
  have hkey : Key.Bin .Add .Trap .I32 ∈ all_keys := by decide +kernel
  have hall : all_fit (.Bin .Add .Trap .I32) .far = true := by decide +kernel
  obtain ⟨t, s, ht, hs, -, hfits, -⟩ := instantiate_is_encode hkey .far
  unfold all_fit at hall
  rw [ht] at hall
  dsimp only at hall
  rw [hs] at hall
  obtain ⟨seq, words, hbody, hwords, hinst⟩ := hfits (all_eq_true.mp hall)
  exact ⟨t, s, seq, words, ht, hs, hbody, hwords, hinst⟩

end Fors.Codegen
