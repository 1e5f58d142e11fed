import Fors.Ty.Canonical
import Fors.Sigs.Store

/-!
# Reached builds

Every operation keeps the pools of names without duplicates and the row numbers paired with their
keys, as long as the tables stay within 32-bit ids.

Principal result: `Build.Reached.inv`.
-/

namespace Fors.Sigs

open Fors.Ty List Option

open Words (as_u32)

/-! ## Steps -/

theorem intern_cases (n : Interner) (bytes : Bytes) :
    ((n.intern bytes).1 = n ∧ bytes ∈ n.strings) ∨
      ((n.intern bytes).1 = ⟨n.strings ++ [bytes]⟩ ∧ bytes ∉ n.strings) := by
  rw [Interner.intern]
  cases h : n.strings.idxOf? bytes with
  | some i =>
    refine .inl ⟨rfl, ?_⟩
    by_contra hmem
    rw [idxOf?_eq_none_iff.mpr hmem] at h
    exact nomatch h
  | none => exact .inr ⟨rfl, idxOf?_eq_none_iff.mp h⟩

theorem intern_key_cases (t : DeclKeyTable) (key : DeclKey) :
    ((t.intern key).1 = t ∧ key ∈ t.rows) ∨
      ((t.intern key).1 = { t with rows := t.rows ++ [key] } ∧ key ∉ t.rows) := by
  rw [DeclKeyTable.intern]
  cases h : t.rows.idxOf? key with
  | some i =>
    refine .inl ⟨rfl, ?_⟩
    by_contra hmem
    rw [idxOf?_eq_none_iff.mpr hmem] at h
    exact nomatch h
  | none => exact .inr ⟨rfl, idxOf?_eq_none_iff.mp h⟩

/-- A path whose length fits is stored whole. -/
theorem intern_path_cases (t : DeclKeyTable) {segments : List Symbol}
    (hlen : segments.length < 2 ^ 16) :
    ((t.intern_path segments).1 = t ∧ segments ∈ t.paths) ∨
      ((t.intern_path segments).1 = { t with paths := t.paths ++ [segments] } ∧
        segments ∉ t.paths) := by
  rw [DeclKeyTable.intern_path]
  cases h : t.paths.idxOf? segments with
  | some i =>
    refine .inl ⟨rfl, ?_⟩
    by_contra hmem
    rw [idxOf?_eq_none_iff.mpr hmem] at h
    exact nomatch h
  | none =>
    refine .inr ⟨?_, idxOf?_eq_none_iff.mp h⟩
    rw [Nat.mod_eq_of_lt hlen, take_length]

/-- A key keeps the row number it has, or gets the next one. -/
theorem def_for_key_cases (f : Fir) (key : DeclKeyId) :
    ((f.def_for_key key).1 = f ∧ (f.def_for_key key).2 = f.defs.def_of key ∧
        f.defs.def_of key ≠ NO_DEF) ∨
      (key = NO_DECL_KEY ∧ f.def_for_key key = (f, NO_DEF)) ∨
      (key ≠ NO_DECL_KEY ∧ f.defs.def_of key = NO_DEF ∧
        f.def_for_key key =
          ({ f with
              sigs.rows := f.sigs.rows ++ [.absent .Absent]
              defs := f.defs.bind (as_u32 f.sigs.rows.length) key },
            as_u32 f.sigs.rows.length)) := by
  rw [Fir.def_for_key]
  by_cases hkey : key = NO_DECL_KEY
  · exact .inr (.inl ⟨hkey, if_pos hkey⟩)
  · rw [if_neg hkey]
    by_cases hold : f.defs.def_of key = NO_DEF
    · exact .inr (.inr ⟨hkey, hold, if_neg (not_not.mpr hold)⟩)
    · exact .inl (by simp [hold])

namespace SigStore

/-- What an operation leaves of the columns that ids point into: rows stay, with no flags but the
two there are, and a new bound list is sorted and without duplicates. -/
structure Grows (s s' : SigStore) : Prop where
  rows : s.rows.length ≤ s'.rows.length
  flags : (∀ row ∈ s.rows, row.flags < 4) → ∀ row ∈ s'.rows, row.flags < 4
  bounds : s'.bounds = s.bounds ∨
    ∃ bs : List TraitRefId, s'.bounds = s.bounds ++ [(bs.insertionSort (· ≤ ·)).dedup]

variable {s s' : SigStore}

theorem grows_same (hrows : s'.rows = s.rows) (hbounds : s'.bounds = s.bounds) :
    s.Grows s' :=
  ⟨by rw [hrows], by rw [hrows]; exact id, .inl hbounds⟩

/-- An update of a row leaves the number of rows and the bound lists. -/
theorem update_rest {d : DefId} {f : SigRow → SigRow} (h : s.update d f = some s') :
    s'.rows.length = s.rows.length ∧ s'.bounds = s.bounds := by
  obtain ⟨row, -, h⟩ := bind_eq_some_iff.mp h
  cases h
  exact ⟨length_set, rfl⟩

theorem grows_update {d : DefId} {f : SigRow → SigRow}
    (h : s.update d f = some s') (hf : ∀ row, row.flags < 4 → (f row).flags < 4) :
    s.Grows s' := by
  refine ⟨(update_rest h).1.ge, fun hflags row hrow => ?_, .inl (update_rest h).2⟩
  obtain ⟨old, hold, h⟩ := bind_eq_some_iff.mp h
  cases h
  obtain hrow | rfl := mem_or_eq_of_mem_set hrow
  · exact hflags row hrow
  · exact hf old (hflags old (mem_of_getElem? hold))

theorem with_flag_lt {flags bit : UInt8} (on : Bool) (hflags : flags < 4) (hbit : bit < 4) :
    with_flag flags bit on < 4 := by
  have hor : ∀ a < 4, ∀ b < 4, UInt8.ofNat a ||| UInt8.ofNat b < 4 := by decide
  have hand : ∀ a < 4, ∀ b < 4, UInt8.ofNat a &&& ~~~(UInt8.ofNat b) < 4 := by decide
  have hf := hor flags.toNat (UInt8.lt_iff_toNat_lt.mp hflags) bit.toNat
    (UInt8.lt_iff_toNat_lt.mp hbit)
  have hg := hand flags.toNat (UInt8.lt_iff_toNat_lt.mp hflags) bit.toNat
    (UInt8.lt_iff_toNat_lt.mp hbit)
  rw [UInt8.ofNat_toNat, UInt8.ofNat_toNat] at hf hg
  cases on with
  | true => exact hf
  | false => exact hg

/-- A list that goes to the end of a pool where its length fits. -/
theorem grows_push {P : Prop} [Decidable P] {s1 : SigStore} {id : Nat}
    (h : ((if P then some (s1, id) else none : Option (SigStore × Nat)).map Prod.fst) = some s')
    (hrows : s1.rows = s.rows) (hbounds : s1.bounds = s.bounds) : s.Grows s' := by
  obtain ⟨⟨s2, id'⟩, hs, rfl⟩ := map_eq_some_iff.mp h
  obtain ⟨-, hs⟩ := ite_none_right_eq_some.mp hs
  obtain ⟨rfl, -⟩ := Prod.mk.inj (some.inj hs)
  exact grows_same hrows hbounds

theorem grows_step {op : Op} (h : s.step op = some s') : s.Grows s' := by
  cases op with
  | push kind =>
    cases h
    refine ⟨?_, fun hflags => ?_, .inl rfl⟩
    · rw [SigStore.push, length_append]
      exact Nat.le_add_right _ _
    · exact forall_mem_append.mpr ⟨hflags,
        forall_mem_singleton.mpr (show (0 : UInt8) < 4 by decide)⟩
  | members ms =>
    cases h
    exact grows_same rfl rfl
  | bounds bs =>
    obtain ⟨⟨s1, id⟩, hs, rfl⟩ := map_eq_some_iff.mp h
    simp only [SigStore.intern_bounds] at hs
    split at hs
    · obtain ⟨rfl, -⟩ := Prod.mk.inj (some.inj hs)
      exact grows_same rfl rfl
    · obtain ⟨-, hs⟩ := ite_none_right_eq_some.mp hs
      obtain ⟨rfl, -⟩ := Prod.mk.inj (some.inj hs)
      exact ⟨Nat.le_refl _, fun hflags => hflags, .inr ⟨bs, rfl⟩⟩
  | constraints entries => exact grows_push h rfl rfl
  | generics params c => exact grows_push h rfl rfl
  | fn_sig row => exact grows_push h rfl rfl
  | assocs entries => exact grows_push h rfl rfl
  | set_param id ordinal kind bounds =>
    obtain ⟨row, -, h⟩ := bind_eq_some_iff.mp h
    obtain ⟨p, -, h⟩ := bind_eq_some_iff.mp h
    cases h
    exact grows_same rfl rfl
  | set_constraints id c =>
    obtain ⟨row, -, h⟩ := bind_eq_some_iff.mp h
    cases h
    exact grows_same rfl rfl
  | set_soa d soa => exact grows_update h fun _ hrow => with_flag_lt soa hrow (by decide)
  | set_specialize d on_ => exact grows_update h fun _ hrow => with_flag_lt on_ hrow (by decide)
  | set_kind | set_generics | set_fn_sig | set_members | set_self_ty | set_trait_ref | set_assoc
  | set_const => exact grows_update h fun _ hrow => hrow
  | _ => exact nomatch h

end SigStore

/-! ## The invariant -/

namespace Build

structure Inv (k : Keys) (b : Build) : Prop where
  tys : b.fir.tys.Inv k
  reserved : b.fir.tys.Reserved
  bounds : ∀ bs ∈ b.fir.sigs.bounds, bs.Pairwise (· < ·)
  no_bounds : b.fir.sigs.bounds[NO_BOUNDS]? = some []
  flags : ∀ row ∈ b.fir.sigs.rows, row.flags < 4
  strings : b.names.strings.Nodup
  paths : b.fir.keys.paths.Nodup
  keys : b.fir.keys.rows.Nodup
  paired : b.fir.defs.Paired b.fir.sigs.rows.length

/-- No id is above `u32::MAX - 1`. -/
structure Fits (b : Build) : Prop where
  tys : b.fir.tys.Fits
  sigs : b.fir.sigs.rows.length ≤ EMPTY

variable {k : Keys} {b b' : Build} {op : Op} {ops : List Op}

theorem nodup_concat {α : Type} {xs : List α} {x : α} (h : xs.Nodup) (hx : x ∉ xs) :
    (xs ++ [x]).Nodup :=
  nodup_append.mpr ⟨h, nodup_singleton x, fun _ hy _ hz hyz =>
    hx (mem_singleton.mp hz ▸ hyz ▸ hy)⟩

/-- A bound list as it is stored. -/
theorem sorted_dedup (bs : List TraitRefId) :
    (bs.insertionSort (· ≤ ·)).dedup.Pairwise (· < ·) := by
  have hle : (bs.insertionSort (· ≤ ·)).dedup.Pairwise (· ≤ ·) :=
    (pairwise_insertionSort _ bs).sublist (dedup_sublist _)
  have hne : (bs.insertionSort (· ≤ ·)).dedup.Pairwise (· ≠ ·) := nodup_dedup _
  exact hle.imp₂ (fun x y hxy hne => Nat.lt_of_le_of_ne hxy hne) hne

theorem def_for_key_length (f : Fir) (key : DeclKeyId) :
    f.sigs.rows.length ≤ (f.def_for_key key).1.sigs.rows.length := by
  obtain ⟨h, -⟩ | ⟨-, h⟩ | ⟨-, -, h⟩ := def_for_key_cases f key
  · rw [h]
  · rw [h]
  · rw [h]
    simp

theorem def_for_key_rest (f : Fir) (key : DeclKeyId) :
    (f.def_for_key key).1.tys = f.tys ∧ (f.def_for_key key).1.keys = f.keys ∧
      (f.def_for_key key).1.sigs.bounds = f.sigs.bounds := by
  obtain ⟨h, -⟩ | ⟨-, h⟩ | ⟨-, -, h⟩ := def_for_key_cases f key
  all_goals
    rw [h]
    exact ⟨rfl, rfl, rfl⟩

theorem def_for_key_flags (f : Fir) (key : DeclKeyId) (h : ∀ row ∈ f.sigs.rows, row.flags < 4) :
    ∀ row ∈ (f.def_for_key key).1.sigs.rows, row.flags < 4 := by
  obtain ⟨hf, -⟩ | ⟨-, hf⟩ | ⟨-, -, hf⟩ := def_for_key_cases f key
  · rwa [hf]
  · rwa [hf]
  · rw [hf]
    exact forall_mem_append.mpr ⟨h, forall_mem_singleton.mpr
      (show (0 : UInt8) < 4 by decide)⟩

theorem def_for_key_paired {f : Fir} {key : DeclKeyId}
    (h : f.defs.Paired f.sigs.rows.length)
    (hfit : (f.def_for_key key).1.sigs.rows.length ≤ EMPTY) :
    (f.def_for_key key).1.defs.Paired (f.def_for_key key).1.sigs.rows.length := by
  obtain ⟨hf, -⟩ | ⟨-, hf⟩ | ⟨-, hnew, hf⟩ := def_for_key_cases f key
  · rw [hf]
    exact h
  · rw [hf]
    exact h
  · rw [hf] at hfit ⊢
    simp only [length_append, length_singleton] at hfit ⊢
    have hlt : f.sigs.rows.length < NO_DEF := hfit
    rw [as_u32, Nat.mod_eq_of_lt (hlt.trans (by decide))]
    exact h.bind hlt hnew

/-- The operations that touch the signature store alone. -/
theorem step_sigs (h : (b.fir.sigs.step op).bind (fun sigs => some { b with fir.sigs := sigs }) =
    some b') : ∃ sigs, b.fir.sigs.step op = some sigs ∧ b' = { b with fir.sigs := sigs } := by
  obtain ⟨sigs, hsigs, h⟩ := bind_eq_some_iff.mp h
  exact ⟨sigs, hsigs, (some.inj h).symm⟩

/-- What one operation does to the tables but the signature store, and how that grows. -/
theorem step_cases (h : b.step k op = some b') :
    (∃ bytes, op = .name bytes ∧ b' = { b with names := (b.names.intern bytes).1 }) ∨
    (∃ segments, op = .path segments ∧
      b' = { b with fir.keys := (b.fir.keys.intern_path segments).1 }) ∨
    (∃ key, op = .key key ∧ b' = { b with fir.keys := (b.fir.keys.intern key).1 }) ∨
    (∃ key fir, (op = .def_for_key key ∨ ∃ kind, op = .declare key kind) ∧
      fir = (b.fir.def_for_key key).1 ∧ ∃ sigs, b' = { b with fir := { fir with sigs := sigs } } ∧
        fir.sigs.Grows sigs ∧ sigs.rows.length = fir.sigs.rows.length ∧
          sigs.bounds = fir.sigs.bounds) ∨
    (∃ o tys id, op = .ty o ∧ b.fir.tys.step k o = some (tys, id) ∧
      b' = { b with fir.tys := tys }) ∨
    (∃ sigs, b.fir.sigs.step op = some sigs ∧ b' = { b with fir.sigs := sigs }) := by
  cases op with
  | name bytes => exact .inl ⟨bytes, rfl, (some.inj h).symm⟩
  | path segments => exact .inr (.inl ⟨segments, rfl, (some.inj h).symm⟩)
  | key key => exact .inr (.inr (.inl ⟨key, rfl, (some.inj h).symm⟩))
  | def_for_key key =>
    exact .inr (.inr (.inr (.inl ⟨key, _, .inl rfl, rfl, _, (some.inj h).symm,
      SigStore.grows_same rfl rfl, rfl, rfl⟩)))
  | declare key kind =>
    obtain ⟨⟨fir, d⟩, hfir, h⟩ := bind_eq_some_iff.mp h
    obtain ⟨sigs, hsigs, hfir⟩ := bind_eq_some_iff.mp hfir
    obtain ⟨rfl, -⟩ := Prod.mk.inj (some.inj hfir)
    exact .inr (.inr (.inr (.inl ⟨key, _, .inr ⟨kind, rfl⟩, rfl, sigs,
      (some.inj h).symm, SigStore.grows_update hsigs fun _ hrow => hrow,
      SigStore.update_rest hsigs⟩)))
  | ty o =>
    obtain ⟨⟨tys, id⟩, htys, h⟩ := bind_eq_some_iff.mp h
    exact .inr (.inr (.inr (.inr (.inl ⟨o, tys, id, rfl, htys, (some.inj h).symm⟩))))
  | _ => exact .inr (.inr (.inr (.inr (.inr (step_sigs h)))))

theorem Fits.back (h : b.step k op = some b') (hfit : b'.Fits) : b.Fits := by
  obtain ⟨_, -, rfl⟩ | ⟨_, -, rfl⟩ | ⟨_, -, rfl⟩ | ⟨key, fir, -, rfl, sigs, rfl, -, hlen, -⟩ |
    ⟨o, tys, id, -, htys, rfl⟩ | ⟨sigs, hsigs, rfl⟩ := step_cases h
  · exact ⟨hfit.tys, hfit.sigs⟩
  · exact ⟨hfit.tys, hfit.sigs⟩
  · exact ⟨hfit.tys, hfit.sigs⟩
  · refine ⟨?_, ?_⟩
    · have := hfit.tys
      rwa [(def_for_key_rest b.fir key).1] at this
    · have := hfit.sigs
      rw [hlen] at this
      exact (def_for_key_length b.fir key).trans this
  · exact ⟨(TyStore.extends_step o htys).fits hfit.tys, hfit.sigs⟩
  · exact ⟨hfit.tys, (SigStore.grows_step hsigs).rows.trans hfit.sigs⟩

theorem inv_step (hinv : b.Inv k) (hshort : op.Short) (h : b.step k op = some b')
    (hfit : b'.Fits) : b'.Inv k := by
  obtain ⟨bytes, -, rfl⟩ | ⟨segments, rfl, rfl⟩ | ⟨key, -, rfl⟩ |
    ⟨key, fir, -, rfl, sigs, rfl, hgrows, hlen, hbounds⟩ | ⟨o, tys, id, -, htys, rfl⟩ |
    ⟨sigs, hsigs, rfl⟩ := step_cases h
  · refine { hinv with strings := ?_ }
    obtain ⟨hn, -⟩ | ⟨hn, hnew⟩ := intern_cases b.names bytes
    · rw [hn]
      exact hinv.strings
    · rw [hn]
      exact nodup_concat hinv.strings hnew
  · obtain ⟨ht, -⟩ | ⟨ht, hnew⟩ := intern_path_cases b.fir.keys hshort
    · rw [ht]
      exact hinv
    · rw [ht]
      exact { hinv with paths := nodup_concat hinv.paths hnew }
  · obtain ⟨ht, -⟩ | ⟨ht, hnew⟩ := intern_key_cases b.fir.keys key
    · rw [ht]
      exact hinv
    · rw [ht]
      exact { hinv with keys := nodup_concat hinv.keys hnew }
  · obtain ⟨htys, hkeys, hsame⟩ := def_for_key_rest b.fir key
    refine ⟨?_, ?_, ?_, ?_, ?_, hinv.strings, ?_, ?_, ?_⟩
    · simp only [htys]
      exact hinv.tys
    · simp only [htys]
      exact hinv.reserved
    · simp only [hbounds, hsame]
      exact hinv.bounds
    · simp only [hbounds, hsame]
      exact hinv.no_bounds
    · exact hgrows.flags (def_for_key_flags b.fir key hinv.flags)
    · simp only [hkeys]
      exact hinv.paths
    · simp only [hkeys]
      exact hinv.keys
    · simp only [hlen]
      exact def_for_key_paired hinv.paired (hlen ▸ hfit.sigs)
  · exact { hinv with
      tys := (TyStore.kept_inv.step htys).2 hinv.tys hfit.tys
      reserved := (TyStore.extends_step o htys).reserved hinv.reserved }
  · have hgrows := SigStore.grows_step hsigs
    refine { hinv with
      bounds := ?_
      no_bounds := ?_
      flags := hgrows.flags hinv.flags
      paired := hinv.paired.mono hgrows.rows }
    · obtain hsame | ⟨bs, hnew⟩ := hgrows.bounds
      · simp only [hsame]
        exact hinv.bounds
      · simp only [hnew]
        exact forall_mem_append.mpr ⟨hinv.bounds, forall_mem_singleton.mpr
          (sorted_dedup bs)⟩
    · obtain hsame | ⟨bs, hnew⟩ := hgrows.bounds
      · simp only [hsame]
        exact hinv.no_bounds
      · simp only [hnew]
        exact TyStore.getElem?_kept (prefix_append _ _) hinv.no_bounds

/-- The tables of a later build bound those of every build before it. -/
theorem Fits.back_run (h : run k ops b = some b') (hfit : b'.Fits) : b.Fits := by
  induction ops generalizing b with
  | nil =>
    cases h
    exact hfit
  | cons op ops ih =>
    obtain ⟨b1, hstep, hrun⟩ := bind_eq_some_iff.mp h
    exact (ih hrun).back hstep

theorem inv_run (hinv : b.Inv k) (hshort : ∀ op ∈ ops, op.Short) (h : run k ops b = some b')
    (hfit : b'.Fits) : b'.Inv k := by
  induction ops generalizing b with
  | nil =>
    cases h
    exact hinv
  | cons op ops ih =>
    obtain ⟨b1, hstep, hrun⟩ := bind_eq_some_iff.mp h
    obtain ⟨hop, hops⟩ := forall_mem_cons.mp hshort
    exact ih (inv_step hinv hop hstep (hfit.back_run hrun)) hops hrun

theorem inv_new (h : new k = some b) (hfit : b.Fits) : b.Inv k := by
  obtain ⟨fir, hfir, h⟩ := bind_eq_some_iff.mp h
  obtain ⟨tys, htys, hfir⟩ := bind_eq_some_iff.mp hfir
  cases hfir
  cases h
  refine ⟨?_, TyStore.reserved_new htys hfit.tys, ?_, rfl, fun _ hrow => (nomatch hrow),
    nodup_nil, nodup_singleton _, nodup_nil, DefKeys.paired_new⟩
  · exact (TyStore.kept_inv.run (TyStore.run_of_new htys)).2 (TyStore.inv_blank k) hfit.tys
  · exact forall_mem_singleton.mpr Pairwise.nil

theorem Reached.inv (h : Reached k ops b) (hshort : ∀ op ∈ ops, op.Short) (hfit : b.Fits) :
    b.Inv k := by
  obtain ⟨b0, hnew, hrun⟩ := h
  exact inv_run (inv_new hnew (hfit.back_run hrun)) hshort hrun hfit

end Build

end Fors.Sigs
