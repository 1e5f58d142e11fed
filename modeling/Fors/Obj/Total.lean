import Fors.Obj.Reads
import Fors.Lib.Halting
import Mathlib.Order.Interval.Finset.Nat
import Mathlib.Data.Finite.Prod
import Fors.Obj.Verified

/-!
# Reading back is total, but for four places

A lookup in the exports trie walks from the root and takes the first child whose label the rest of
the name begins with. Where a child is, the bytes say: the walk may be sent on without an end, and
the size of what a node exports may carry its position past 64 bits.

The scan of an image refuses what is malformed. A section's end, the places in a signature and the
walk of a lookup do not: each of them goes wrong exactly where its own condition says.

Source: `crates/fors-obj/src/trie.rs`. Principal result: `total_iff`.
-/

namespace Fors.Obj

open Outcomes Outcome

/-! ## Reading a node -/

/-- The loop over the bytes of a number. -/
def read_uleb_from (b : List UInt8) (v : UInt64) (shift pos : Nat) :
    Outcome Unit (UInt64 × Nat) :=
  match b[pos]? with
  | none => refused ()
  | some byte => do
    let pos ← add pos 1
    let v := v ||| ((byte &&& 0x7f).toUInt64 <<< shift.toUInt64)
    if byte &&& 0x80 = 0 then pure (v, pos)
    else if shift + 7 > 63 then refused ()
    else read_uleb_from b v (shift + 7) pos
termination_by 64 - shift

def read_uleb (b : List UInt8) (pos : Nat) : Outcome Unit (UInt64 × Nat) :=
  read_uleb_from b 0 0 pos

/-- The position of the zero that ends a label. -/
def label_end (trie : List UInt8) (pos : Nat) : Outcome Unit Nat :=
  if h : pos < trie.length then
    if trie[pos] ≠ 0 then
      if pos + 1 < 2 ^ 64 then label_end trie (pos + 1) else panics
    else pure pos
  else refused ()
termination_by trie.length - pos

/-- The loop over the children that are left; the first that fits is kept. -/
def children (trie rest : List UInt8) :
    Nat → Nat → Option (Nat × Nat) → Outcome Unit (Option (Nat × Nat))
  | 0, _, next => pure next
  | n + 1, start, next => do
    let pos ← label_end trie start
    let label ← index trie start pos
    let pos ← add pos 1
    let (off, pos) ← read_uleb trie pos
    children trie rest n pos
      (if next.isNone && label.isPrefixOf rest then some (label.length, off.toNat) else next)

def byte_at (b : List UInt8) (pos : Nat) : Outcome Unit UInt8 :=
  match b[pos]? with
  | some n => value n
  | none => .refused ()

/-- What a node tells: the address, or the child to go on at with the rest of the name. -/
inductive Visit where
  | found (addr : UInt64)
  | next (node : Nat) (rest : List UInt8)
  deriving DecidableEq

/-- One turn of the walk. -/
def visit (trie : List UInt8) (node : Nat) (rest : List UInt8) : Outcome Unit Visit := do
  let (term, pos) ← read_uleb trie node
  if rest = [] then
    if term = 0 then .refused ()
    else do
      let (_, p) ← read_uleb trie pos
      let (addr, _) ← read_uleb trie p
      pure (.found addr)
  else do
    let pos ← add pos term.toNat
    let n ← byte_at trie pos
    let pos ← add pos 1
    let next ← children trie rest n.toNat pos none
    match next with
    | none => .refused ()
    | some (used, off) => do
      let rest ← index rest used rest.length
      pure (.next off rest)

/-- The walk, as far as some number of turns leads. -/
def walk (trie : List UInt8) : Nat → Nat → List UInt8 → Option (Outcome Unit UInt64)
  | 0, _, _ => none
  | turns + 1, node, rest =>
    match visit trie node rest with
    | .value (.found addr) => some (.value addr)
    | .value (.next node rest) => walk trie turns node rest
    | .refused e => some (.refused e)
    | .panics => some .panics

def lookup (trie : List UInt8) (turns : Nat) (name : List UInt8) : Option (Outcome Unit UInt64) :=
  walk trie turns 0 name

variable {trie : Slice} {node pos n : Nat} {rest name : List UInt8}

/-! ## One turn -/

theorem ends_read_uleb_from (trie : Slice) (v : UInt64) (shift pos : Nat) :
    Ends (read_uleb_from trie.bytes v shift pos) fun r => r.2 ≤ trie.bytes.length := by
  have hfits := trie.fits
  induction hleft : 64 - shift using Nat.strong_induction_on generalizing v shift pos with
  | _ left ih =>
    subst hleft
    unfold read_uleb_from
    cases hbyte : trie.bytes[pos]? with
    | none => exact Ends.refused
    | some byte =>
      have hpos := (List.getElem?_eq_some_iff.mp hbyte).1
      apply (ends_add (by omega)).bind
      rintro _ rfl
      split
      · exact Ends.pure hpos
      · split
        · exact Ends.refused
        · exact ih _ (by omega) _ (shift + 7) (pos + 1) rfl

theorem ends_read_uleb (trie : Slice) (pos : Nat) :
    Ends (read_uleb trie.bytes pos) fun r => r.2 ≤ trie.bytes.length :=
  ends_read_uleb_from trie 0 0 pos

theorem ends_label_end (trie : Slice) (pos : Nat) :
    Ends (label_end trie.bytes pos) fun p => pos ≤ p ∧ p < trie.bytes.length := by
  have hfits := trie.fits
  induction hleft : trie.bytes.length - pos using Nat.strong_induction_on generalizing pos with
  | _ left ih =>
    subst hleft
    unfold label_end
    split
    · next hpos =>
      split
      · rw [if_pos (by omega)]
        exact (ih _ (by omega) (pos + 1) rfl).mono fun p hp => ⟨by omega, hp.2⟩
      · exact Ends.pure ⟨Nat.le_refl _, hpos⟩
    · exact Ends.refused

theorem ends_byte_at (b : List UInt8) (pos : Nat) : Ends (byte_at b pos) fun _ => pos < b.length := by
  unfold byte_at
  split
  · next hbyte => exact Ends.pure (List.getElem?_eq_some_iff.mp hbyte).1
  · exact Ends.refused

/-- A child that is kept takes a beginning of the rest of the name. -/
def Fits (rest : List UInt8) (next : Option (Nat × Nat)) : Prop :=
  ∀ used off, next = some (used, off) → used ≤ rest.length ∧ off < 2 ^ 64

theorem fits_none (rest : List UInt8) : Fits rest none := by
  intro used off h
  cases h

theorem ends_children (trie : Slice) (n pos : Nat) {next : Option (Nat × Nat)}
    (hnext : Fits rest next) : Ends (children trie.bytes rest n pos next) (Fits rest) := by
  have hfits := trie.fits
  induction n generalizing pos next with
  | zero => exact Ends.pure hnext
  | succ n ih =>
    unfold children
    apply (ends_label_end trie pos).bind
    rintro stop ⟨hle, hlt⟩
    rw [index_eq hle (by omega), value_bind]
    apply (ends_add (by omega)).bind
    rintro _ rfl
    apply (ends_read_uleb trie (stop + 1)).bind
    rintro ⟨off, after⟩ -
    apply ih
    split
    · next hkept =>
      rintro used off' heq
      cases heq
      have hprefix := (Bool.and_eq_true_iff.mp hkept).2
      exact ⟨(List.isPrefixOf_iff_prefix.mp hprefix).length_le, off.toNat_lt⟩
    · exact hnext

/-- What a node exports carries its position past 64 bits. -/
def Overruns (trie : List UInt8) (node : Nat) (rest : List UInt8) : Prop :=
  rest ≠ [] ∧ ∃ term pos, read_uleb trie node = value (term, pos) ∧ 2 ^ 64 ≤ pos + term.toNat

/-- Behind the sum, a turn goes well: the walk goes on with a part of the rest. -/
theorem ends_visit (h : ¬ Overruns trie.bytes node rest) :
    Ends (visit trie.bytes node rest) fun v => ∀ node' rest', v = .next node' rest' →
      node' < 2 ^ 64 ∧ ∃ k, rest' = rest.drop k := by
  have hfits := trie.fits
  have hread := ends_read_uleb trie node
  unfold visit
  refine Ends.bind ⟨hread.not_panics, fun r hr => hr⟩ ?_
  rintro ⟨term, pos⟩ hterm
  by_cases hrest : rest = []
  · simp only [hrest, if_true]
    split
    · exact Ends.refused
    · apply (ends_read_uleb trie pos).bind
      rintro ⟨flags, p⟩ -
      apply (ends_read_uleb trie p).bind
      rintro ⟨addr, q⟩ -
      exact Ends.pure fun _ _ hnext => nomatch hnext
  · simp only [hrest, if_false]
    have hsum : pos + term.toNat < 2 ^ 64 := by
      by_contra hover
      exact h ⟨hrest, term, pos, hterm, by omega⟩
    apply (ends_add hsum).bind
    rintro _ rfl
    apply (ends_byte_at trie.bytes _).bind
    intro count hin
    apply (ends_add (by omega)).bind
    rintro _ rfl
    apply (ends_children trie count.toNat _ (fits_none rest)).bind
    intro next hnext
    cases next with
    | none => exact Ends.refused
    | some child =>
      obtain ⟨used, off⟩ := child
      obtain ⟨hused, hoff⟩ := hnext used off rfl
      show Ends (index rest used rest.length >>= _) _
      rw [index_eq hused (Nat.le_refl _), value_bind]
      apply Ends.pure
      rintro node' rest' heq
      obtain ⟨rfl, rfl⟩ := Visit.next.inj heq
      exact ⟨hoff, used, List.take_of_length_le (by rw [List.length_drop])⟩

theorem visit_panics : visit trie.bytes node rest = panics ↔ Overruns trie.bytes node rest := by
  constructor
  · intro h
    by_contra hover
    exact (ends_visit hover).not_panics h
  · rintro ⟨hrest, term, pos, hread, hover⟩
    unfold visit
    rw [hread, value_bind]
    simp only [hrest, if_false]
    exact bind_eq_panics.mpr (Or.inl (add_eq_panics.mpr hover))

/-! ## The walk -/

/-- Where the walk goes on. -/
def descend (trie : List UInt8) (st : Nat × List UInt8) : Option (Nat × List UInt8) :=
  match visit trie st.1 st.2 with
  | .value (.next node rest) => some (node, rest)
  | _ => none

/-- How a turn without a next one ends. -/
def ending (v : Outcome Unit Visit) : Outcome Unit UInt64 :=
  match v with
  | .value (.found addr) => .value addr
  | .value (.next _ _) => .refused ()
  | .refused e => .refused e
  | .panics => .panics

theorem descend_eq_some {st st' : Nat × List UInt8} {trie : List UInt8} :
    descend trie st = some st' ↔ visit trie st.1 st.2 = value (.next st'.1 st'.2) := by
  obtain ⟨node', rest'⟩ := st'
  unfold descend
  split
  · next node rest hvisit =>
    rw [hvisit]
    constructor
    · intro h
      cases h
      rfl
    · intro h
      obtain ⟨rfl, rfl⟩ := Visit.next.inj (value.inj h)
      rfl
  · next hother =>
    constructor
    · exact fun h => nomatch h
    · intro h
      exact absurd h (hother node' rest')

/-- The walk ends with a result if and only if it comes to a node that has no next one. -/
theorem walk_eq_some {trie : List UInt8} {st : Nat × List UInt8} {r : Outcome Unit UInt64} :
    (∃ turns, walk trie turns st.1 st.2 = some r) ↔
      ∃ st', Halting.Reaches (descend trie) st st' ∧ descend trie st' = none ∧
        r = ending (visit trie st'.1 st'.2) := by
  constructor
  · rintro ⟨turns, h⟩
    induction turns generalizing st with
    | zero => cases h
    | succ turns ih =>
      unfold walk at h
      split at h
      · next addr hvisit =>
        refine ⟨st, .refl, ?_, ?_⟩
        · unfold descend
          rw [hvisit]
        · rw [hvisit]
          exact (Option.some.inj h).symm
      · next node rest hvisit =>
        obtain ⟨st', hreach, hend, hr⟩ := @ih (node, rest) h
        exact ⟨st', .head (descend_eq_some.mpr hvisit) hreach, hend, hr⟩
      · next e hvisit =>
        refine ⟨st, .refl, ?_, ?_⟩
        · unfold descend
          rw [hvisit]
        · rw [hvisit]
          exact (Option.some.inj h).symm
      · next hvisit =>
        refine ⟨st, .refl, ?_, ?_⟩
        · unfold descend
          rw [hvisit]
        · rw [hvisit]
          exact (Option.some.inj h).symm
  · rintro ⟨st', hreach, hend, rfl⟩
    induction hreach using Relation.ReflTransGen.head_induction_on with
    | refl =>
      refine ⟨1, ?_⟩
      unfold walk
      cases hvisit : visit trie st'.1 st'.2 with
      | value v =>
        cases v with
        | found addr => rfl
        | next node rest =>
          have hnext : descend trie st' = some (node, rest) := descend_eq_some.mpr hvisit
          rw [hnext] at hend
          cases hend
      | refused e => rfl
      | panics => rfl
    | head hstep _ ih =>
      obtain ⟨turns, hwalk⟩ := ih
      refine ⟨turns + 1, ?_⟩
      unfold walk
      rw [descend_eq_some.mp hstep]
      exact hwalk

/-- The walk comes to finitely many nodes with finitely many rests of the name. -/
theorem finite_reaches (trie : Slice) (name : List UInt8) :
    {st | Halting.Reaches (descend trie.bytes) (0, name) st}.Finite := by
  have hsubset : {st | Halting.Reaches (descend trie.bytes) (0, name) st} ⊆
      (fun p : Nat × Nat => (p.1, name.drop p.2)) ''
        (Set.Iio (2 ^ 64) ×ˢ Set.Iic name.length) := by
    intro st hst
    induction hst with
    | refl => exact ⟨(0, 0), ⟨by simp, by simp⟩, rfl⟩
    | tail hreach hstep ih =>
      rename_i mid last
      obtain ⟨⟨node, k⟩, ⟨-, hk⟩, rfl⟩ := ih
      have hvisit := descend_eq_some.mp hstep
      have hover : ¬ Overruns trie.bytes node (name.drop k) := by
        intro hover
        rw [visit_panics.mpr hover] at hvisit
        cases hvisit
      obtain ⟨hnode, j, hrest⟩ := (ends_visit hover).post _ hvisit _ _ rfl
      refine ⟨(last.1, min (k + j) name.length), ⟨hnode, Nat.min_le_right _ _⟩, ?_⟩
      refine Prod.ext rfl ?_
      show name.drop (min (k + j) name.length) = last.2
      rw [hrest, List.drop_drop]
      rcases Nat.le_total (k + j) name.length with hle | hle
      · rw [Nat.min_eq_left hle]
      · rw [Nat.min_eq_right hle, List.drop_length, List.drop_of_length_le hle]
  exact (((Set.finite_Iio _).prod (Set.finite_Iic _)).image _).subset hsubset

/-- A lookup ends without a panic if and only if its walk comes to no node that overruns and to no
node that it comes to again with the same rest of the name. -/
theorem lookup_ends (trie : Slice) (name : List UInt8) :
    (∃ turns r, lookup trie.bytes turns name = some r ∧ r ≠ panics) ↔
      ¬ ∃ st, Halting.Reaches (descend trie.bytes) (0, name) st ∧
        (Overruns trie.bytes st.1 st.2 ∨
          Relation.TransGen (Halting.Step (descend trie.bytes)) st st) := by
  have hhalts := Halting.halts_iff (finite_reaches trie name)
  have hstuck {st : Nat × List UInt8} (h : Overruns trie.bytes st.1 st.2) :
      descend trie.bytes st = none := by
    unfold descend
    rw [visit_panics.mpr h]
  constructor
  · rintro ⟨turns, r, hlookup, hr⟩ ⟨st, hreach, hbad⟩
    obtain ⟨last, hlast, hend, rfl⟩ := (@walk_eq_some _ (0, name) _).mp ⟨turns, hlookup⟩
    rcases hbad with hover | hcycle
    · obtain rfl := Halting.end_unique hlast hend hreach (hstuck hover)
      rw [visit_panics.mpr hover] at hr
      exact hr rfl
    · exact hhalts.mp ⟨last, hlast, hend⟩ ⟨st, hreach, hcycle⟩
  · intro h
    have hreturns : ¬ Halting.Returns (descend trie.bytes) (0, name) := by
      rintro ⟨st, hreach, hcycle⟩
      exact h ⟨st, hreach, Or.inr hcycle⟩
    obtain ⟨last, hlast, hend⟩ := hhalts.mpr hreturns
    obtain ⟨turns, hwalk⟩ := walk_eq_some.mpr ⟨last, hlast, hend, rfl⟩
    refine ⟨turns, _, hwalk, ?_⟩
    have hover : ¬ Overruns trie.bytes last.1 last.2 := fun hover => h ⟨last, hlast, Or.inl hover⟩
    have hvisit := mt visit_panics.mp hover
    intro hpanics
    unfold ending at hpanics
    split at hpanics
    · cases hpanics
    · cases hpanics
    · cases hpanics
    · next heq => exact hvisit heq

end Fors.Obj

/-! ## Reading back -/

namespace Fors.Obj

open Outcomes Outcome

/-- No reader panics, and the lookup ends. -/
structure Total (image trie : Slice) (seg sect : List Char) (name : List UInt8) : Prop where
  load_commands : load_commands image.bytes ≠ panics
  segments : segments image.bytes ≠ panics
  code_signature : code_signature image.bytes ≠ panics
  uuid_offset : uuid_offset image.bytes ≠ panics
  section_bytes : section_bytes image.bytes seg sect ≠ panics
  verify_signature : verify_signature image.bytes ≠ panics
  lookup : ∃ turns r, lookup trie.bytes turns name = some r ∧ r ≠ panics

/-- The walk of a lookup comes to a node that overruns, or to a node again with the same rest. -/
def Astray (trie name : List UInt8) : Prop :=
  ∃ st, Halting.Reaches (descend trie) (0, name) st ∧
    (Overruns trie st.1 st.2 ∨ Relation.TransGen (Halting.Step (descend trie)) st st)

/-- Reading back is total if and only if the section that is asked for ends within 64 bits, no place
of the signature that is met lies outside, and the walk of the lookup does not go astray. -/
theorem total_iff (image trie : Slice) (seg sect : List Char) (name : List UInt8) :
    Total image trie seg sect name ↔ ¬ EndsBeyond image.bytes seg sect ∧
      ¬ OutOfRange image.bytes ∧ ¬ Astray trie.bytes name := by
  constructor
  · intro h
    refine ⟨fun hbeyond => ?_, fun hout => ?_, (lookup_ends trie name).mp h.lookup⟩
    · exact h.section_bytes ((section_bytes_panics image seg sect).mpr hbeyond)
    · exact h.verify_signature ((verify_signature_panics image).mpr hout)
  · rintro ⟨hbeyond, hout, hastray⟩
    refine ⟨(ends_load_commands image).not_panics, (ends_segments image).not_panics,
      (ends_code_signature image).not_panics, (ends_uuid_offset image).not_panics, ?_, ?_,
      (lookup_ends trie name).mpr hastray⟩
    · exact fun h => hbeyond ((section_bytes_panics image seg sect).mp h)
    · exact fun h => hout ((verify_signature_panics image).mp h)

/-! ## Inputs that go wrong -/

/-- One segment with one section at offset 1, of all the bytes that 64 bits count. -/
def endless_section : Slice where
  bytes := [0xCF, 0xFA, 0xED, 0xFE] ++ List.replicate 12 0 ++ [1, 0, 0, 0, 152, 0, 0, 0] ++
    List.replicate 8 0 ++ [0x19, 0, 0, 0, 152, 0, 0, 0] ++ List.replicate 56 0 ++ [1, 0, 0, 0] ++
    List.replicate 44 0 ++ List.replicate 8 255 ++ [1, 0, 0, 0] ++ List.replicate 28 0
  fits := by decide +kernel

/-- A signature of 20 bytes that places its directory at 21. -/
def missing_directory : Slice where
  bytes := [0xCF, 0xFA, 0xED, 0xFE] ++ List.replicate 12 0 ++ [1, 0, 0, 0, 16, 0, 0, 0] ++
    List.replicate 8 0 ++ [0x1D, 0, 0, 0, 16, 0, 0, 0, 48, 0, 0, 0, 20, 0, 0, 0] ++
    [0xFA, 0xDE, 0x0C, 0xC0, 0, 0, 0, 20, 0, 0, 0, 1, 0, 0, 0, 0, 0, 0, 0, 21]
  fits := by decide +kernel

/-- A root whose only child has an empty label and is the root. -/
def endless_trie : Slice where
  bytes := [0, 1, 0, 0]
  fits := by decide +kernel

/-- A root that exports more bytes than can be skipped. -/
def overrunning_trie : Slice where
  bytes := [255, 255, 255, 255, 255, 255, 255, 255, 255, 1]
  fits := by decide +kernel

theorem endless_trie_visit : visit endless_trie.bytes 0 [97] = value (.next 0 [97]) := by
  decide +kernel

theorem endless_trie_walk (turns : Nat) : lookup endless_trie.bytes turns [97] = none := by
  unfold lookup
  induction turns with
  | zero => rfl
  | succ turns ih =>
    unfold walk
    rw [endless_trie_visit]
    exact ih

/-- Each of the readers that go wrong does so on an input. -/
theorem not_total : (¬ ∀ image trie seg sect name, Total image trie seg sect name) ∧
    section_bytes endless_section.bytes [] [] = panics ∧
    verify_signature missing_directory.bytes = panics ∧
    lookup overrunning_trie.bytes 1 [97] = some panics ∧
    ∀ turns, lookup endless_trie.bytes turns [97] = none := by
  have hsection : section_bytes endless_section.bytes [] [] = panics := by decide +kernel
  refine ⟨fun h => ?_, hsection, ?_, ?_, endless_trie_walk⟩
  · exact (h endless_section endless_trie [] [] [97]).section_bytes hsection
  · rw [verify_signature_panics]
    refine ⟨48, 20, 21, ⟨?_, ?_, ?_, ?_, ?_, ?_, ?_⟩, Or.inl ?_⟩ <;> decide +kernel
  · decide +kernel

end Fors.Obj
