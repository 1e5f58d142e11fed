import Fors.Sigs.Cuts
import Fors.Keys.Stable

/-!
# Exactness of stable keys

A key is the hash of what its declaration is called, so it stays when others are edited. Keys are
distinct unless the counter of one fold reaches another fold, or a container's key is zero.

Principal result: `keyed_iff`.
-/

namespace Fors.Keys

open Fors.Sigs Fors.Ty LittleEndian PrefixCode Option
open List hiding getElem?_eq_some_iff

/-! ## Counting -/

/-- The list holds each key that has occurred, with one less than how often. -/
def Counts (seen : List (OwnKey × Nat)) (ks : List OwnKey) : Prop :=
  ∀ k, seen.lookup k = if ks.count k = 0 then none else some (ks.count k - 1)

variable {seen : List (OwnKey × Nat)} {ks : List OwnKey} {k : OwnKey}

theorem bump_lookup (k : OwnKey) (seen : List (OwnKey × Nat)) :
    (bump k seen).1 = (match seen.lookup k with | none => 0 | some n => n + 1) ∧
      ∀ x, (bump k seen).2.lookup x =
        if x = k then some (bump k seen).1 else seen.lookup x := by
  induction seen with
  | nil =>
    refine ⟨rfl, fun x => ?_⟩
    by_cases hx : x = k
    · simp [bump, hx]
    · simp [bump, hx]
  | cons entry seen ih =>
    obtain ⟨y, n⟩ := entry
    obtain ⟨ihcount, ihlookup⟩ := ih
    by_cases hy : y = k
    · subst hy
      refine ⟨by simp [bump], fun x => ?_⟩
      by_cases hx : x = y
      · simp [bump, hx]
      · simp [bump, hx, lookup_cons, beq_false_of_ne hx]
    · have hne : (k == y) = false := beq_false_of_ne (Ne.symm hy)
      refine ⟨by simp [bump, hy, lookup_cons, hne, ihcount], fun x => ?_⟩
      by_cases hx : x = k
      · subst hx
        simp [bump, hy, lookup_cons, hne, ihlookup]
      · by_cases hxy : x = y
        · simp [bump, hy, hxy]
        · simp [bump, hy, lookup_cons, beq_false_of_ne hxy, ihlookup, hx]

/-- `bump` gives how often the key occurred. -/
theorem Counts.bump (h : Counts seen ks) (k : OwnKey) :
    (bump k seen).1 = ks.count k ∧ Counts (bump k seen).2 (ks ++ [k]) := by
  obtain ⟨hcount, hlookup⟩ := bump_lookup k seen
  have hcount' : (Keys.bump k seen).1 = ks.count k := by
    rw [hcount, h k]
    by_cases hzero : ks.count k = 0
    · rw [if_pos hzero, hzero]
    · rw [if_neg hzero]
      simp only
      omega
  refine ⟨hcount', fun x => ?_⟩
  rw [hlookup, count_append]
  by_cases hx : x = k
  · subst hx
    rw [if_pos rfl, hcount', count_singleton_self, if_neg (by omega), Nat.add_sub_cancel]
  · have hne : List.count x [k] = 0 := count_eq_zero.mpr (by simpa using hx)
    rw [if_neg hx, hne, Nat.add_zero]
    exact h x

/-! ## Keys -/

section Run

variable (impl_header_fold : Nat → UInt32) (file : DeclFile)

def run (i : Nat) : KeyState :=
  (file.rows.take i).foldl (key_step impl_header_fold file) ⟨[], []⟩

variable {impl_header_fold file} {i j p : Nat} {row : DeclRow}

theorem run_succ (h : file.rows[i]? = some row) :
    run impl_header_fold file (i + 1) =
      key_step impl_header_fold file (run impl_header_fold file i) row := by
  unfold run
  rw [take_add_one, h, toList_some, foldl_append]
  rfl

theorem length_foldl_out (impl_header_fold : Nat → UInt32) (file : DeclFile) (rows : List DeclRow)
    (st : KeyState) :
    ∃ more, (rows.foldl (key_step impl_header_fold file) st).out = st.out ++ more ∧
      more.length = rows.length := by
  induction rows generalizing st with
  | nil => exact ⟨[], (append_nil _).symm, rfl⟩
  | cons row rows ih =>
    obtain ⟨more, hout, hlen⟩ := ih (key_step impl_header_fold file st row)
    obtain ⟨key, hkey⟩ : ∃ key, (key_step impl_header_fold file st row).out = st.out ++ [key] :=
      ⟨_, rfl⟩
    refine ⟨key :: more, ?_, congrArg Nat.succ hlen⟩
    rw [foldl_cons, hout, hkey, append_assoc, singleton_append]

/-- The state before a row holds the keys before it. -/
theorem run_out (impl_header_fold : Nat → UInt32) (file : DeclFile) (hi : i ≤ file.rows.length) :
    (run impl_header_fold file i).out = (file_decl_keys impl_header_fold file).take i := by
  obtain ⟨more, hout, -⟩ := length_foldl_out impl_header_fold file
    (file.rows.drop i) (run impl_header_fold file i)
  obtain ⟨first, hfirst, hlen⟩ := length_foldl_out impl_header_fold file
    (file.rows.take i) ⟨[], []⟩
  have hlength : (run impl_header_fold file i).out.length = i := by
    unfold run
    rw [hfirst, nil_append, hlen, length_take_of_le hi]
  have hall : file_decl_keys impl_header_fold file = (run impl_header_fold file i).out ++ more := by
    rw [← hout]
    unfold file_decl_keys run
    rw [← foldl_append, take_append_drop]
  rw [hall, take_left' hlength]

theorem run_seen (impl_header_fold : Nat → UInt32) (file : DeclFile) (hi : i ≤ file.rows.length) :
    Counts (run impl_header_fold file i).seen
      ((file.rows.take i).map (DeclRow.own_key impl_header_fold)) := by
  induction i with
  | zero => exact fun _ => rfl
  | succ i ih =>
    have hrow : file.rows[i]? = some file.rows[i] := getElem?_eq_getElem hi
    rw [run_succ hrow, take_add_one, hrow, toList_some, map_append]
    exact ((ih (by omega)).bump _).2

theorem length_file_decl_keys (impl_header_fold : Nat → UInt32) (file : DeclFile) :
    (file_decl_keys impl_header_fold file).length = file.rows.length := by
  obtain ⟨more, hout, hlen⟩ := length_foldl_out impl_header_fold file
    file.rows ⟨[], []⟩
  unfold file_decl_keys
  rw [hout, nil_append, hlen]

theorem key_at_found (impl_header_fold : Nat → UInt32) (h : file.rows[i]? = some row) :
    (file_decl_keys impl_header_fold file)[i]? = some (hash_key (encode_key file.interner
      file.module row.kind row.name (.ofNat (disamb impl_header_fold file i row))
      (found_key (file_decl_keys impl_header_fold file) row.parent))) := by
  have hi : i < file.rows.length := (getElem?_eq_some_iff.mp h).1
  have hout := run_out impl_header_fold file (by omega : i ≤ file.rows.length)
  have hnext := run_out impl_header_fold file (by omega : i + 1 ≤ file.rows.length)
  have hlen : ((file_decl_keys impl_header_fold file).take i).length = i :=
    length_take_of_le (by rw [length_file_decl_keys]; omega)
  have hbump := ((run_seen impl_header_fold file (by omega : i ≤ file.rows.length)).bump
    (row.own_key impl_header_fold)).1
  have hget : (file_decl_keys impl_header_fold file)[i]? =
      ((file_decl_keys impl_header_fold file).take (i + 1))[i]? := by
    rw [getElem?_take_of_lt (by omega)]
  rw [hget, ← hnext, run_succ h]
  unfold key_step
  simp only [hout, hbump]
  rw [getElem?_append_right (by rw [hlen]), hlen, Nat.sub_self]
  have hparent : found_key ((file_decl_keys impl_header_fold file).take i) row.parent =
      found_key (file_decl_keys impl_header_fold file) row.parent := by
    cases hp : row.parent with
    | none => rfl
    | some p =>
      obtain ⟨hlt, -⟩ := file.parents i p row h hp
      change List.getD _ p 0 = List.getD _ p 0
      rw [getD_eq_getElem?_getD, getD_eq_getElem?_getD, getElem?_take_of_lt hlt]
  rw [hparent, ← UInt64.ofNat_add]
  rfl

/-- A container's key is the hash of its own bytes, without one of its container. -/
theorem found_key_eq (h : file.rows[i]? = some row) :
    found_key (file_decl_keys impl_header_fold file) row.parent =
      parent_key impl_header_fold file row := by
  unfold parent_key
  cases hp : row.parent with
  | none => rfl
  | some p =>
    obtain ⟨-, container, hcontainer, hnone⟩ := file.parents i p row h hp
    have hkey := key_at_found impl_header_fold hcontainer
    rw [hnone] at hkey
    change List.getD _ p 0 = _
    rw [getD_eq_getElem?_getD, hkey]
    simp only [hcontainer]
    rfl

theorem key_at (impl_header_fold : Nat → UInt32) (h : file.rows[i]? = some row) :
    (file_decl_keys impl_header_fold file)[i]? =
      some (hash_key (key_bytes impl_header_fold file i row)) := by
  rw [key_at_found impl_header_fold h, found_key_eq h]
  rfl

end Run

/-! ## What the bytes determine -/

section Bytes

variable {file : DeclFile} {n : Interner} {s s' : Symbol} {row row' : DeclRow}
  {name name' : Option Symbol}

/-- A name is known in the file, and is an identifier. -/
def Known (n : Interner) (name : Option Symbol) : Prop :=
  ∀ s, name = some s → ∃ bytes, n.resolve s = some bytes ∧ ∀ b ∈ bytes, is_ident_continue b

theorem not_mem_name_bytes (h : Known n name) : (0xFE : UInt8) ∉ name_bytes n name := by
  intro hmem
  cases name with
  | none => exact absurd (mem_singleton.mp hmem) (by decide)
  | some s =>
    obtain ⟨bytes, hbytes, hident⟩ := h s rfl
    change _ ∈ text n s at hmem
    rw [text, hbytes, getD_some] at hmem
    have hfe := hident _ hmem
    unfold is_ident_continue at hfe
    change 48 ≤ 254 ∧ 254 ≤ 57 ∨ 65 ≤ 254 ∧ 254 ≤ 90 ∨ 254 = 95 ∨ 97 ≤ 254 ∧ 254 ≤ 122 at hfe
    omega

theorem name_bytes_inj (hn : n.strings.Nodup) (h : Known n name) (h' : Known n name')
    (heq : name_bytes n name = name_bytes n name') : name = name' := by
  have hzero : ∀ {s}, Known n (some s) → text n s ≠ [0x00] := by
    intro s hs hzero
    obtain ⟨bytes, hbytes, hident⟩ := hs s rfl
    unfold text at hzero
    rw [hbytes, getD_some] at hzero
    have hbad := hident 0x00 (hzero ▸ mem_singleton.mpr rfl)
    unfold is_ident_continue at hbad
    change 48 ≤ 0 ∧ 0 ≤ 57 ∨ 65 ≤ 0 ∧ 0 ≤ 90 ∨ 0 = 95 ∨ 97 ≤ 0 ∧ 0 ≤ 122 at hbad
    omega
  match name, name' with
  | none, none => rfl
  | none, some s => exact absurd heq.symm (hzero h')
  | some s, none => exact absurd heq (hzero h)
  | some s, some s' =>
    obtain ⟨bytes, hbytes, -⟩ := h s rfl
    obtain ⟨bytes', hbytes', -⟩ := h' s' rfl
    have hsame : bytes = bytes' := by
      change text n s = text n s' at heq
      rwa [text, text, hbytes, hbytes'] at heq
    obtain ⟨hs, hget⟩ := getElem?_eq_some_iff.mp hbytes
    obtain ⟨hs', hget'⟩ := getElem?_eq_some_iff.mp hbytes'
    rw [(Nodup.getElem_inj_iff hn).mp (hget.trans (hsame.trans hget'.symm))]

theorem encode_key_inj {module : List Symbol} {kind kind' : DeclKind} {d d' k k' : UInt64}
    (hn : n.strings.Nodup) (h : Known n name) (h' : Known n name')
    (heq : encode_key n module kind name d k = encode_key n module kind' name' d' k') :
    kind = kind' ∧ name = name' ∧ d = d' ∧ k = k' := by
  unfold encode_key at heq
  have heq := (cons.inj (append_cancel_left heq)).2
  obtain ⟨hkind, heq⟩ := cons.inj heq
  obtain ⟨hname, heq⟩ := split_inj (not_mem_name_bytes h) (not_mem_name_bytes h') heq
  obtain ⟨hd, hk⟩ := append_inj heq (by simp)
  have hvalue : ∀ {a b : UInt64},
      LittleEndian.le_bytes 8 a.toNat = LittleEndian.le_bytes 8 b.toNat → a = b := by
    intro a b hab
    exact UInt64.toNat_inj.mp (le_bytes_inj a.toNat_lt b.toNat_lt hab)
  exact ⟨kind_as_u8_inj hkind, name_bytes_inj hn h h' hname, hvalue hd, hvalue hk⟩

end Bytes

/-! ## Distinct keys -/

section Exact

variable (impl_header_fold : Nat → UInt32) (file : DeclFile)

/-- What is asked of the keys of a file. -/
structure Keyed : Prop where
  distinct : (file_decl_keys impl_header_fold file).Nodup
  edit_local : ∀ (fold' : Nat → UInt32) (file' : DeclFile) (i i' : Nat) (row row' : DeclRow),
    file.rows[i]? = some row → file'.rows[i']? = some row' →
    module_bytes file.interner file.module = module_bytes file'.interner file'.module →
    row.kind = row'.kind → name_bytes file.interner row.name = name_bytes file'.interner row'.name →
    row.base impl_header_fold = row'.base fold' →
    earlier impl_header_fold file i row = earlier fold' file' i' row' →
    found_key (file_decl_keys impl_header_fold file) row.parent =
      found_key (file_decl_keys fold' file') row'.parent →
    (file_decl_keys impl_header_fold file)[i]? = (file_decl_keys fold' file')[i']?

/-- No two headers' folds meet under the counter, and no container whose key is zero has a member
that is named and counted like a declaration outside. -/
structure Separate : Prop where
  folds : ∀ (i j : Nat) (ri rj : DeclRow), file.rows[i]? = some ri → file.rows[j]? = some rj →
    ri.kind = .Impl → rj.kind = .Impl → ri.parent = rj.parent →
    impl_header_fold ri.node ≠ impl_header_fold rj.node →
    disamb impl_header_fold file i ri ≠ disamb impl_header_fold file j rj
  zero : ∀ (i j p : Nat) (ri rj container : DeclRow), file.rows[i]? = some ri →
    file.rows[j]? = some rj → ri.parent = none → rj.parent = some p →
    file.rows[p]? = some container → ri.kind = rj.kind → ri.name = rj.name →
    disamb impl_header_fold file i ri = disamb impl_header_fold file j rj →
    container_key impl_header_fold file p container ≠ 0

/-- The hash is injective on the encodings of the file, cut to 64 bits. -/
def HashInjective : Prop :=
  ∀ (i j : Nat) (ri rj : DeclRow), file.rows[i]? = some ri → file.rows[j]? = some rj →
    hash_key (key_bytes impl_header_fold file i ri) =
      hash_key (key_bytes impl_header_fold file j rj) →
    key_bytes impl_header_fold file i ri = key_bytes impl_header_fold file j rj

variable {impl_header_fold file} {i j : Nat} {ri rj : DeclRow}

theorem edit_local {fold' : Nat → UInt32} {file' : DeclFile} {i' : Nat} {row row' : DeclRow}
    (h : file.rows[i]? = some row) (h' : file'.rows[i']? = some row')
    (hmodule : module_bytes file.interner file.module = module_bytes file'.interner file'.module)
    (hkind : row.kind = row'.kind)
    (hname : name_bytes file.interner row.name = name_bytes file'.interner row'.name)
    (hbase : row.base impl_header_fold = row'.base fold')
    (hearlier : earlier impl_header_fold file i row = earlier fold' file' i' row')
    (hparent : found_key (file_decl_keys impl_header_fold file) row.parent =
      found_key (file_decl_keys fold' file') row'.parent) :
    (file_decl_keys impl_header_fold file)[i]? = (file_decl_keys fold' file')[i']? := by
  rw [key_at_found impl_header_fold h, key_at_found fold' h', hparent]
  unfold encode_key disamb
  rw [hmodule, hkind, hname, hbase, hearlier]

theorem nodup_iff : (file_decl_keys impl_header_fold file).Nodup ↔
    ∀ (i j : Nat) (ri rj : DeclRow), file.rows[i]? = some ri → file.rows[j]? = some rj →
      hash_key (key_bytes impl_header_fold file i ri) =
        hash_key (key_bytes impl_header_fold file j rj) → i = j := by
  have hlen := length_file_decl_keys impl_header_fold file
  constructor
  · intro hnodup i j ri rj hi hj heq
    have hki := key_at impl_header_fold hi
    have hkj := key_at impl_header_fold hj
    obtain ⟨hilt, hki⟩ := getElem?_eq_some_iff.mp hki
    obtain ⟨hjlt, hkj⟩ := getElem?_eq_some_iff.mp hkj
    exact (Nodup.getElem_inj_iff hnodup).mp (hki.trans (heq.trans hkj.symm))
  · intro h
    rw [nodup_iff_getElem?_ne_getElem?]
    intro i j hij hj heq
    have hi : file.rows[i]? = some file.rows[i] := getElem?_eq_getElem (by omega)
    have hj : file.rows[j]? = some file.rows[j] := getElem?_eq_getElem (by omega)
    rw [key_at impl_header_fold hi, key_at impl_header_fold hj] at heq
    have hsame := h i j _ _ hi hj (some.inj heq)
    omega

theorem earlier_lt (hi : file.rows[i]? = some ri) (hij : i < j)
    (hkey : ri.own_key impl_header_fold = rj.own_key impl_header_fold) :
    earlier impl_header_fold file i ri < earlier impl_header_fold file j rj := by
  have hsplit : (file.rows.take j).take (i + 1) = file.rows.take (i + 1) := by
    rw [take_take, Nat.min_eq_left (by omega)]
  have hsub : (file.rows.take (i + 1)).Sublist (file.rows.take j) := by
    rw [← hsplit]
    exact take_sublist _ _
  have hle := (hsub.map (DeclRow.own_key impl_header_fold)).count_le
    (rj.own_key impl_header_fold)
  rw [take_add_one, hi, toList_some, map_append, count_append, map_singleton,
    hkey, count_singleton_self] at hle
  unfold earlier
  rw [hkey]
  omega

theorem disamb_lt : disamb impl_header_fold file i ri < 2 ^ 64 := by
  have hfits := file.fits
  have hcount : earlier impl_header_fold file i ri ≤ file.rows.length := by
    unfold earlier
    refine Nat.le_trans count_le_length ?_
    rw [length_map]
    exact length_take_le' ..
  have hbase : ri.base impl_header_fold < 2 ^ 32 := by
    unfold DeclRow.base
    split
    · exact UInt32.toNat_lt _
    · decide
  unfold disamb
  omega

theorem known (hi : file.rows[i]? = some ri) : Known file.interner ri.name :=
  file.names ri (mem_of_getElem? hi)

/-- What equal encodings agree in. -/
theorem key_bytes_inj (hi : file.rows[i]? = some ri) (hj : file.rows[j]? = some rj)
    (h : key_bytes impl_header_fold file i ri = key_bytes impl_header_fold file j rj) :
    ri.kind = rj.kind ∧ ri.name = rj.name ∧
      disamb impl_header_fold file i ri = disamb impl_header_fold file j rj ∧
      parent_key impl_header_fold file ri = parent_key impl_header_fold file rj := by
  obtain ⟨hkind, hname, hdisamb, hparent⟩ :=
    encode_key_inj file.strings (known hi) (known hj) h
  have hvalue := congrArg UInt64.toNat hdisamb
  rw [UInt64.toNat_ofNat_of_lt' disamb_lt, UInt64.toNat_ofNat_of_lt' disamb_lt] at hvalue
  exact ⟨hkind, hname, hvalue, hparent⟩

/-- Declarations of one container are told apart by their counters. -/
theorem eq_of_disamb (hsep : Separate impl_header_fold file) (hi : file.rows[i]? = some ri)
    (hj : file.rows[j]? = some rj) (hparent : ri.parent = rj.parent) (hkind : ri.kind = rj.kind)
    (hname : ri.name = rj.name)
    (hdisamb : disamb impl_header_fold file i ri = disamb impl_header_fold file j rj) : i = j := by
  have hown : ri.own impl_header_fold = rj.own impl_header_fold ∧
      ri.base impl_header_fold = rj.base impl_header_fold := by
    unfold DeclRow.own DeclRow.base
    rw [← hkind, ← hname]
    by_cases himpl : ri.kind = .Impl
    · by_cases hfold : impl_header_fold ri.node = impl_header_fold rj.node
      · simp only [if_pos himpl, hfold, and_self]
      · exact absurd hdisamb (hsep.folds i j ri rj hi hj himpl (hkind ▸ himpl) hparent hfold)
    · simp only [if_neg himpl, and_self]
  have hkey : ri.own_key impl_header_fold = rj.own_key impl_header_fold := by
    unfold DeclRow.own_key
    rw [hparent, hkind, hown.1]
  unfold disamb at hdisamb
  obtain hlt | heq | hlt := Nat.lt_trichotomy i j
  · have hcount := earlier_lt hi hlt hkey
    omega
  · exact heq
  · have hcount := earlier_lt hj hlt hkey.symm
    omega

theorem eq_of_key_bytes (hsep : Separate impl_header_fold file)
    (hinj : HashInjective impl_header_fold file) (hi : file.rows[i]? = some ri)
    (hj : file.rows[j]? = some rj)
    (h : key_bytes impl_header_fold file i ri = key_bytes impl_header_fold file j rj) : i = j := by
  obtain ⟨hkind, hname, hdisamb, hkey⟩ := key_bytes_inj hi hj h
  cases hp : ri.parent with
  | none =>
    cases hq : rj.parent with
    | none => exact eq_of_disamb hsep hi hj (hp.trans hq.symm) hkind hname hdisamb
    | some q =>
      obtain ⟨-, container, hcontainer, -⟩ := file.parents j q rj hj hq
      unfold parent_key at hkey
      simp only [hp, hq, hcontainer] at hkey
      exact absurd hkey.symm
        (hsep.zero i j q ri rj container hi hj hp hq hcontainer hkind hname hdisamb)
  | some p =>
    obtain ⟨-, c, hc, hcnone⟩ := file.parents i p ri hi hp
    cases hq : rj.parent with
    | none =>
      unfold parent_key at hkey
      simp only [hp, hq, hc] at hkey
      exact absurd hkey
        (hsep.zero j i p rj ri c hj hi hq hp hc hkind.symm hname.symm hdisamb.symm)
    | some q =>
      obtain ⟨-, c', hc', hcnone'⟩ := file.parents j q rj hj hq
      have hbytes : ∀ (k : Nat) (row : DeclRow), row.parent = none →
          container_key impl_header_fold file k row =
            hash_key (key_bytes impl_header_fold file k row) := by
        intro k row hnone
        unfold key_bytes parent_key
        rw [hnone]
        rfl
      unfold parent_key at hkey
      simp only [hp, hq, hc, hc'] at hkey
      rw [hbytes p c hcnone, hbytes q c' hcnone'] at hkey
      obtain ⟨hckind, hcname, hcdisamb, -⟩ := key_bytes_inj hc hc' (hinj p q c c' hc hc' hkey)
      obtain rfl := eq_of_disamb hsep hc hc' (hcnone.trans hcnone'.symm) hckind hcname hcdisamb
      exact eq_of_disamb hsep hi hj (hp.trans hq.symm) hkind hname hdisamb

/-- With an injective hash the keys of a file are distinct and edit-local when, and only when, no
two folds meet under the counter and no zero key stands for a container. -/
theorem keyed_iff (hinj : HashInjective impl_header_fold file) :
    Keyed impl_header_fold file ↔ Separate impl_header_fold file := by
  constructor
  · intro hkeyed
    have hnodup := nodup_iff.mp hkeyed.distinct
    refine ⟨fun i j ri rj hi hj hki hkj hparent hfold hdisamb => hfold ?_,
      fun i j p ri rj c hi hj hp hq hc hkind hname hdisamb hzero => ?_⟩
    · have hni := file.unnamed ri (mem_of_getElem? hi) hki
      have hnj := file.unnamed rj (mem_of_getElem? hj) hkj
      have hbytes : key_bytes impl_header_fold file i ri = key_bytes impl_header_fold file j rj := by
        unfold key_bytes parent_key
        rw [hki, hkj, hni, hnj, hdisamb, hparent]
      obtain rfl := hnodup i j ri rj hi hj (congrArg hash_key hbytes)
      rw [some.inj (hi.symm.trans hj)]
    · have hbytes : key_bytes impl_header_fold file i ri = key_bytes impl_header_fold file j rj := by
        unfold key_bytes parent_key
        simp only [hp, hq, hc, hzero, hkind, hname, hdisamb]
      obtain rfl := hnodup i j ri rj hi hj (congrArg hash_key hbytes)
      rw [some.inj (hi.symm.trans hj), hq] at hp
      cases hp
  · intro hsep
    refine ⟨nodup_iff.mpr fun i j ri rj hi hj heq => ?_, fun _ _ _ _ _ _ h h' => edit_local h h'⟩
    exact eq_of_key_bytes hsep hinj hi hj (hinj i j ri rj hi hj heq)

/-- An impl with a method `f` in a module `m`, and a function of the method's name. -/
def impl_and_fn : DeclFile where
  interner := ⟨[[109], [102]]⟩
  module := [0]
  rows := [⟨.ModuleHeader, none, none, 1⟩, ⟨.Impl, none, none, 2⟩, ⟨.Fn, some 1, some 1, 5⟩,
    ⟨.Fn, some 1, none, 9⟩]
  fits := by decide
  strings := by decide
  names := by
    intro row hrow s hs
    have hs1 : s = 1 := by
      simp only [mem_cons, not_mem_nil, or_false] at hrow
      obtain rfl | rfl | rfl | rfl := hrow
      · cases hs
      · cases hs
      · exact (some.inj hs).symm
      · exact (some.inj hs).symm
    subst hs1
    exact ⟨[102], rfl, by unfold is_ident_continue; decide +kernel⟩
  unnamed := by decide
  parents := by
    intro i p row hrow hp
    have hi := (getElem?_eq_some_iff.mp hrow).1
    have hall : ∀ i < 4, ∀ row ∈ ([⟨.ModuleHeader, none, none, 1⟩, ⟨.Impl, none, none, 2⟩,
        ⟨.Fn, some 1, some 1, 5⟩, ⟨.Fn, some 1, none, 9⟩] : List DeclRow)[i]?,
        ∀ p ∈ row.parent, p = 1 ∧ 1 < i := by decide
    obtain ⟨rfl, hpos⟩ := hall i hi row hrow p hp
    exact ⟨hpos, _, rfl, rfl⟩

theorem keyed_iff_impl : Keyed (fun _ => 7) impl_and_fn := by
  have hrows : ∀ {i : Nat} {row : DeclRow}, impl_and_fn.rows[i]? = some row → i < 4 :=
    fun h => (getElem?_eq_some_iff.mp h).1
  have hhash : ∀ i < 4, ∀ j < 4, ∀ ri ∈ impl_and_fn.rows[i]?, ∀ rj ∈ impl_and_fn.rows[j]?,
      hash_key (key_bytes (fun _ => 7) impl_and_fn i ri) =
        hash_key (key_bytes (fun _ => 7) impl_and_fn j rj) → i = j := by decide +kernel
  have hzero : ∀ p < 4, ∀ c ∈ impl_and_fn.rows[p]?,
      container_key (fun _ => 7) impl_and_fn p c ≠ 0 := by decide +kernel
  refine (keyed_iff fun i j ri rj hi hj heq => ?_).mpr
    ⟨fun i j ri rj _ _ _ _ _ hne => absurd rfl hne, fun i j p ri rj c _ _ _ _ hc _ _ _ => ?_⟩
  · obtain rfl := hhash i (hrows hi) j (hrows hj) ri hi rj hj heq
    rw [some.inj (hi.symm.trans hj)]
  · exact hzero p (hrows hc) c hc

/-- Two impls of one header and one of another. -/
def three_impls : DeclFile where
  interner := ⟨[[109]]⟩
  module := [0]
  rows := [⟨.ModuleHeader, none, none, 1⟩, ⟨.Impl, none, none, 2⟩, ⟨.Impl, none, none, 5⟩,
    ⟨.Impl, none, none, 8⟩]
  fits := by decide
  strings := by decide
  names := by
    intro row hrow s hs
    simp only [mem_cons, not_mem_nil, or_false] at hrow
    obtain rfl | rfl | rfl | rfl := hrow <;> cases hs
  unnamed := by decide
  parents := by
    intro i p row hrow hp
    have hmem := mem_of_getElem? hrow
    simp only [mem_cons, not_mem_nil, or_false] at hmem
    obtain rfl | rfl | rfl | rfl := hmem <;> cases hp

/-- The folds of the headers `impl S34800`, twice, and `impl S77304`. -/
def header_folds (node : Nat) : UInt32 :=
  if node = 8 then 3197932079 else 3197932078

theorem folds_meet : HashInjective header_folds three_impls ∧ ¬ Keyed header_folds three_impls := by
  have hrows : ∀ {i : Nat} {row : DeclRow}, three_impls.rows[i]? = some row → i < 4 :=
    fun h => (getElem?_eq_some_iff.mp h).1
  have hhash : ∀ i < 4, ∀ j < 4, ∀ ri ∈ three_impls.rows[i]?, ∀ rj ∈ three_impls.rows[j]?,
      hash_key (key_bytes header_folds three_impls i ri) =
        hash_key (key_bytes header_folds three_impls j rj) →
      key_bytes header_folds three_impls i ri = key_bytes header_folds three_impls j rj := by
    decide +kernel
  refine ⟨fun i j ri rj hi hj => hhash i (hrows hi) j (hrows hj) ri hi rj hj, fun h => ?_⟩
  exact absurd h.distinct (by decide +kernel)

end Exact

end Fors.Keys
