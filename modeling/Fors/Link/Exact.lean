import Mathlib.Data.List.Nodup
import Fors.Lib.Runs
import Fors.Link.Place

/-!
# What a link gives

The atoms stand one behind another at multiples of 16, and every relocation of theirs is a site in
the text. A link succeeds when the names are distinct, the entry is one of them and every site is
valid; then each site branches to its target.

Source: `crates/fors-link/src/lib.rs`. Principal result: `place_exact_iff`.
-/

namespace Fors.Link

open LittleEndian Placement Runs List

/-! ## The image -/

/-- The bytes that an atom takes. -/
def Atom.room (a : Atom) : Nat :=
  up a.code.length ATOM_ALIGN

def size (xs : List Atom) : Nat :=
  (xs.map Atom.room).sum

/-- The atoms with their addresses. -/
def placements : Nat → List Atom → List (Nat × Atom)
  | _, [] => []
  | start, a :: xs => (start, a) :: placements (start + a.room) xs

/-- The atoms' bytes and zero padding. -/
def plain (xs : List Atom) : List UInt8 :=
  xs.flatMap fun a => a.code ++ List.replicate (a.room - a.code.length) 0

def address (xs : List Atom) (name : String) : Option Nat :=
  ((placements 0 xs).find? fun p => p.2.name = name).map Prod.fst

/-- A relocation in the text. -/
structure Site where
  start : Nat
  atom : Atom
  reloc : Reloc

def Site.pos (s : Site) : Nat :=
  s.start + s.reloc.offset.toNat

def sites (xs : List Atom) : List Site :=
  (placements 0 xs).flatMap fun p => p.2.relocs.map fun r => ⟨p.1, p.2, r⟩

/-- The distance to an address, in words. -/
def Site.distance (s : Site) (target : Nat) : Int :=
  ((target : Int) - s.pos) / 4

/-- The relocation has a target in reach, and is a `bl` of its atom. -/
structure Site.Valid (xs : List Atom) (s : Site) : Prop where
  target : ∃ t, address xs s.reloc.target = some t ∧
    -2 ^ 25 ≤ s.distance t ∧ s.distance t < 2 ^ 25
  aligned : s.reloc.offset.toNat % 4 = 0
  inside : s.reloc.offset.toNat + 4 ≤ s.atom.code.length
  bl : word_at s.atom.code s.reloc.offset.toNat &&& BL_MASK = BL

def placed_of (p : Nat × Atom) : Placed :=
  ⟨p.2.name, .ofNat p.1, .ofNat p.2.code.length⟩

/-- The finished image. -/
structure Image (xs : List Atom) (entry : String) (l : Linked) : Prop where
  atoms : l.atoms = (placements 0 xs).map placed_of
  aligned : ∀ p ∈ l.atoms, p.start.toNat % ATOM_ALIGN = 0
  disjoint : l.atoms.Pairwise fun p q => p.start.toNat + p.len.toNat ≤ q.start.toNat
  length : l.text.length = (plain xs).length
  kept : ∀ j, (∀ s ∈ sites xs, ¬ (s.pos ≤ j ∧ j < s.pos + 4)) → l.text[j]? = (plain xs)[j]?
  branches : ∀ s ∈ sites xs, ∃ t : Nat, address xs s.reloc.target = some t ∧
    branch_target s.pos (word_at l.text s.pos) = some (t : Int)
  dir : l.dir = l.atoms.flatMap Placed.dir_row
  entry : address xs entry = some l.entry.toNat

/-- What is asked of a link. -/
structure Exact (fors runtime : List Atom) (entry : String) : Prop where
  no_panic : place fors runtime entry ≠ .error .panic
  ok_iff : (∃ l, place fors runtime entry = .ok l) ↔
    ((runtime ++ fors).map Atom.name).Nodup ∧ (address (runtime ++ fors) entry).isSome ∧
      ∀ s ∈ sites (runtime ++ fors), s.Valid (runtime ++ fors)
  image : ∀ l, place fors runtime entry = .ok l → Image (runtime ++ fors) entry l

/-- The sums with the offset do not overflow; that with its end is only made when it is aligned. -/
structure Site.Fits (s : Site) : Prop where
  pos : s.pos < 2 ^ 32
  stop : s.reloc.offset.toNat % 4 = 0 → s.reloc.offset.toNat + 4 < 2 ^ 32

/-- The first relocation that is not valid has no target or does not overflow, and where all are
valid, those at one offset have targets at one address. -/
structure Settled (xs : List Atom) (entry : String) : Prop where
  first : (xs.map Atom.name).Nodup → ∀ pre s post, sites xs = pre ++ s :: post →
    (∀ p ∈ pre, p.Valid xs) → (address xs s.reloc.target).isSome → s.Fits
  agree : (xs.map Atom.name).Nodup → (address xs entry).isSome → (∀ s ∈ sites xs, s.Valid xs) →
    ∀ s ∈ sites xs, ∀ s' ∈ sites xs, s.pos = s'.pos →
      address xs s.reloc.target = address xs s'.reloc.target

variable {xs ys : List Atom} {a : Atom} {s : Site} {text : List UInt8} {done : List Site}

/-! ## Addresses -/

theorem le_room (a : Atom) : a.code.length ≤ a.room :=
  le_up (by decide)

theorem room_mod (a : Atom) : a.room % ATOM_ALIGN = 0 :=
  Nat.mod_eq_zero_of_dvd (dvd_up _ _)

@[simp] theorem size_append : size (xs ++ ys) = size xs + size ys := by
  simp [size]

theorem size_cons : size (a :: xs) = a.room + size xs :=
  rfl

theorem size_mod (xs : List Atom) : size xs % ATOM_ALIGN = 0 := by
  induction xs with
  | nil => rfl
  | cons a xs ih =>
    have hroom := room_mod a
    rw [size_cons]
    unfold ATOM_ALIGN at *
    omega

theorem length_plain (xs : List Atom) : (plain xs).length = size xs := by
  induction xs with
  | nil => rfl
  | cons a xs ih =>
    have hroom := le_room a
    change ((a.code ++ List.replicate (a.room - a.code.length) 0) ++ plain xs).length = _
    rw [length_append, length_append, length_replicate, ih, size_cons]
    omega

theorem plain_append : plain (xs ++ ys) = plain xs ++ plain ys :=
  flatMap_append

theorem placements_append (start : Nat) : placements start (xs ++ ys) =
    placements start xs ++ placements (start + size xs) ys := by
  induction xs generalizing start with
  | nil => rfl
  | cons a xs ih => rw [cons_append, placements, placements, ih, size_cons, Nat.add_assoc,
      cons_append]

theorem map_snd_placements (start : Nat) (xs : List Atom) :
    (placements start xs).map Prod.snd = xs := by
  induction xs generalizing start with
  | nil => rfl
  | cons a xs ih => rw [placements, map_cons, ih]

variable {start : Nat}

/-- Where an atom stands. -/
theorem exists_of_mem_placements {k : Nat} (h : (start, a) ∈ placements k xs) :
    ∃ pre post, xs = pre ++ a :: post ∧ start = k + size pre := by
  induction xs generalizing k with
  | nil => exact nomatch h
  | cons b xs ih =>
    obtain heq | h := mem_cons.mp h
    · cases heq
      exact ⟨[], xs, rfl, rfl⟩
    · obtain ⟨pre, post, rfl, rfl⟩ := ih h
      exact ⟨b :: pre, post, rfl, by rw [size_cons, Nat.add_assoc]⟩

theorem mem_sites : s ∈ sites xs ↔ (s.start, s.atom) ∈ placements 0 xs ∧ s.reloc ∈ s.atom.relocs := by
  unfold sites
  rw [mem_flatMap]
  constructor
  · rintro ⟨⟨start, a⟩, hp, hs⟩
    obtain ⟨r, hr, rfl⟩ := mem_map.mp hs
    exact ⟨hp, hr⟩
  · rintro ⟨hp, hr⟩
    exact ⟨_, hp, mem_map.mpr ⟨_, hr, rfl⟩⟩

/-- What stands at an atom's address. -/
theorem plain_at {i : Nat} (h : (start, a) ∈ placements 0 xs) (hi : i < a.code.length) :
    (plain xs)[start + i]? = a.code[i]? := by
  obtain ⟨pre, post, rfl, rfl⟩ := exists_of_mem_placements h
  have hstart : 0 + size pre + i - (plain pre).length = i := by
    rw [length_plain]
    omega
  rw [plain_append, getElem?_append_right (by rw [length_plain]; omega), hstart]
  change ((a.code ++ List.replicate (a.room - a.code.length) 0) ++ plain post)[i]? = _
  rw [append_assoc, getElem?_append_left hi]

theorem start_add_le (h : (start, a) ∈ placements 0 xs) :
    start + a.code.length ≤ size xs ∧ start % ATOM_ALIGN = 0 := by
  obtain ⟨pre, post, rfl, rfl⟩ := exists_of_mem_placements h
  have hroom := le_room a
  have hmod := size_mod pre
  rw [size_append, size_cons]
  exact ⟨by omega, by rw [Nat.zero_add]; exact hmod⟩

theorem plain_word (h : s ∈ sites xs)
    (hinside : s.reloc.offset.toNat + 4 ≤ s.atom.code.length) :
    word_at (plain xs) s.pos = word_at s.atom.code s.reloc.offset.toNat := by
  obtain ⟨hplace, -⟩ := mem_sites.mp h
  refine word_at_congr fun k hk => ?_
  rw [Site.pos, Nat.add_assoc]
  exact plain_at hplace (by omega)

/-! ## The layout -/

theorem up_add {n : Nat} (h : n % ATOM_ALIGN = 0) (m : Nat) :
    up (n + m) ATOM_ALIGN = n + up m ATOM_ALIGN := by
  unfold up
  unfold ATOM_ALIGN at *
  omega

/-- The state when the atoms are laid out. -/
def laid (xs : List Atom) : LayoutState :=
  ⟨plain xs, (placements 0 xs).map placed_of,
    (placements 0 xs).map fun p => (p.2.name, .ofNat p.1)⟩

theorem lookup_laid (name : String) :
    (laid xs).at_.lookup name = (address xs name).map UInt32.ofNat := by
  change ((placements 0 xs).map fun p => (p.2.name, UInt32.ofNat p.1)).lookup name = _
  unfold address
  induction placements 0 xs with
  | nil => rfl
  | cons p ps ih =>
    rw [map_cons, lookup_cons, find?_cons]
    by_cases hname : p.2.name = name
    · simp [hname]
    · have hne : (name == p.2.name) = false := beq_false_of_ne (Ne.symm hname)
      simp only [hne, hname, decide_false]
      exact ih

theorem address_isSome (name : String) :
    (address xs name).isSome = true ↔ name ∈ xs.map Atom.name := by
  conv => rhs; rw [← map_snd_placements 0 xs]
  rw [address, Option.isSome_map, find?_isSome, map_map, mem_map]
  simp

theorem place_atom_laid (a : Atom) : place_atom (laid xs) a =
    if a.name ∈ xs.map Atom.name then fail (.DuplicateSymbol a.name)
    else .ok (laid (xs ++ [a])) := by
  have hlookup : ((laid xs).at_.lookup a.name).isSome = true ↔ a.name ∈ xs.map Atom.name := by
    rw [lookup_laid, Option.isSome_map, address_isSome]
  have hlen : (laid xs).text.length = size xs := length_plain xs
  have hpad : pad ((laid xs).text ++ a.code) = plain (xs ++ [a]) := by
    have hlast : plain [a] = a.code ++ List.replicate (a.room - a.code.length) 0 := by
      simp [plain]
    have hzeros : size xs + up a.code.length ATOM_ALIGN - (size xs + a.code.length) =
        a.room - a.code.length := by
      unfold Atom.room
      omega
    rw [pad, length_append, hlen, up_add (size_mod xs), plain_append, hlast,
      append_assoc, hzeros]
    rfl
  have hplacements : placements 0 (xs ++ [a]) = placements 0 xs ++ [(size xs, a)] := by
    rw [placements_append, Nat.zero_add]
    rfl
  unfold place_atom
  simp only [hlookup, hlen]
  split
  · rfl
  · rw [hpad]
    unfold laid
    rw [hplacements, map_append, map_append]
    rfl

/-- The atoms are laid out if no name repeats. -/
theorem place_atoms_from (ys : List Atom) (hxs : (xs.map Atom.name).Nodup) :
    ((xs ++ ys).map Atom.name).Nodup ∧ ys.foldlM place_atom (laid xs) = .ok (laid (xs ++ ys)) ∨
      ¬ ((xs ++ ys).map Atom.name).Nodup ∧
        ∃ n, ys.foldlM place_atom (laid xs) = fail (.DuplicateSymbol n) := by
  induction ys generalizing xs with
  | nil =>
    rw [append_nil]
    exact .inl ⟨hxs, rfl⟩
  | cons a ys ih =>
    rw [foldlM_cons, place_atom_laid]
    by_cases hmem : a.name ∈ xs.map Atom.name
    · refine .inr ⟨fun hnodup => ?_, a.name, by rw [if_pos hmem]; rfl⟩
      rw [map_append, nodup_append] at hnodup
      exact hnodup.2.2 _ hmem _ mem_cons_self rfl
    · have hnext : ((xs ++ [a]).map Atom.name).Nodup := by
        rw [map_append, nodup_append]
        refine ⟨hxs, nodup_singleton _, ?_⟩
        intro n hn m hm heq
        rw [mem_singleton.mp hm] at heq
        exact hmem (heq ▸ hn)
      have ih := ih hnext
      rw [append_assoc, singleton_append] at ih
      rw [if_neg hmem]
      exact ih

theorem place_atoms_spec (xs : List Atom) :
    (xs.map Atom.name).Nodup ∧ place_atoms xs = .ok (laid xs) ∨
      ¬ (xs.map Atom.name).Nodup ∧ ∃ n, place_atoms xs = fail (.DuplicateSymbol n) :=
  place_atoms_from xs (by simp : (([] : List Atom).map Atom.name).Nodup)

/-! ## The relocations in one list -/

/-- One relocation. -/
def step (xs : List Atom) (text : List UInt8) (s : Site) : Except LinkStop (List UInt8) :=
  patch_reloc (laid xs).at_ s.atom (placed_of (s.start, s.atom)) text s.reloc

theorem foldlM_flatMap {α β γ ε : Type} (f : α → List β) (g : γ → β → Except ε γ) (l : List α)
    (c : γ) : (l.flatMap f).foldlM g c = l.foldlM (fun c x => (f x).foldlM g c) c := by
  induction l generalizing c with
  | nil => rfl
  | cons x l ih =>
    rw [flatMap_cons, foldlM_append, foldlM_cons]
    exact congrArg _ (funext ih)

theorem patch_atoms_eq (text : List UInt8) :
    (xs.zip (laid xs).placed).foldlM (patch_atom (laid xs).at_) text =
      (sites xs).foldlM (step xs) text := by
  have hzip : xs.zip (laid xs).placed = (placements 0 xs).map fun p => (p.2, placed_of p) := by
    change xs.zip ((placements 0 xs).map placed_of) = _
    conv => lhs; arg 1; rw [← map_snd_placements 0 xs]
    rw [zip_map']
  rw [hzip, foldlM_map, sites, foldlM_flatMap]
  congr 1
  funext text p
  rw [foldlM_map]
  rfl

/-! ## One relocation -/

/-- A text whose relocations `done` are filled in. -/
structure Patched (xs : List Atom) (done : List Site) (text : List UInt8) : Prop where
  length : text.length = size xs
  aligned : ∀ s ∈ done, s.pos % 4 = 0
  tops : ∀ pos, pos % 4 = 0 → pos + 4 ≤ size xs →
    word_at text pos &&& BL_MASK = word_at (plain xs) pos &&& BL_MASK
  kept : ∀ j, (∀ s ∈ done, ¬ (s.pos ≤ j ∧ j < s.pos + 4)) → text[j]? = (plain xs)[j]?
  branches : ∀ s ∈ done, ∃ s' ∈ done, s'.pos = s.pos ∧
    ∃ t : Nat, address xs s'.reloc.target = some t ∧
      branch_target s.pos (word_at text s.pos) = some (t : Int)

theorem Patched.nil (xs : List Atom) : Patched xs [] (plain xs) where
  length := length_plain xs
  aligned _ hs := nomatch hs
  tops _ _ _ := rfl
  kept _ _ := rfl
  branches _ hs := nomatch hs

/-- Where a site of an atom stands. -/
theorem Site.bounds (hs : s ∈ sites xs) :
    s.start + s.atom.code.length ≤ size xs ∧ s.start % 4 = 0 := by
  obtain ⟨hle, hmod⟩ := start_add_le (mem_sites.mp hs).1
  unfold ATOM_ALIGN at hmod
  exact ⟨hle, by omega⟩

theorem address_lt {name : String} {t : Nat} (h : address xs name = some t) :
    t ≤ size xs ∧ t % ATOM_ALIGN = 0 := by
  obtain ⟨⟨start, a⟩, hfind, rfl⟩ := Option.map_eq_some_iff.mp h
  obtain ⟨hle, hmod⟩ := start_add_le (mem_of_find?_eq_some hfind)
  exact ⟨by simp only; omega, hmod⟩

theorem tdiv_of_mod {d : Int} (h : d % 4 = 0) : d.tdiv 4 = d / 4 := by
  obtain ⟨k, rfl⟩ := Int.dvd_of_emod_eq_zero h
  rw [Int.mul_tdiv_cancel_left _ (by decide), Int.mul_ediv_cancel_left _ (by decide)]

/-- An invalid site is refused; it panics if its target is known and its sums overflow. -/
inductive Refused (xs : List Atom) (s : Site) : Except LinkStop (List UInt8) → Prop
  | err (e : LinkError) (h : (address xs s.reloc.target).isSome → s.Fits) : Refused xs s (fail e)
  | panic (h : (address xs s.reloc.target).isSome) (hfits : ¬ s.Fits) :
    Refused xs s (.error .panic)

theorem step_spec (hsize : size xs < 2 ^ 31) (hs : s ∈ sites xs) (htext : Patched xs done text) :
    s.Valid xs ∧ (∃ (t : Nat) (w : UInt32), address xs s.reloc.target = some t ∧
        step xs text s = .ok (write_word text s.pos w) ∧
        w &&& BL_MASK = word_at text s.pos &&& BL_MASK ∧ branch_target s.pos w = some (t : Int)) ∨
      ¬ s.Valid xs ∧ Refused xs s (step xs text s) := by
  obtain ⟨hbound, hstart⟩ := Site.bounds hs
  have hlt := s.reloc.offset.toNat_lt
  have hstart_nat : (UInt32.ofNat s.start).toNat = s.start :=
    UInt32.toNat_ofNat_of_lt' (by simp only [UInt32.size]; omega)
  have hlen_nat : (UInt32.ofNat s.atom.code.length).toNat = s.atom.code.length :=
    UInt32.toNat_ofNat_of_lt' (by simp only [UInt32.size]; omega)
  have hoffset : s.reloc.offset % 4 = 0 ↔ s.reloc.offset.toNat % 4 = 0 := by
    rw [← UInt32.toNat_inj, UInt32.toNat_mod]
    rfl
  unfold step patch_reloc
  rw [lookup_laid]
  cases haddress : address xs s.reloc.target with
  | none =>
    refine .inr ⟨fun hvalid => ?_, .err _ fun h => ?_⟩
    · obtain ⟨t, ht, -⟩ := hvalid.target
      rw [haddress] at ht
      cases ht
    · rw [haddress] at h
      cases h
  | some t =>
    have hsome : (address xs s.reloc.target).isSome = true := by
      rw [haddress]
      rfl
    obtain ⟨ht, htmod⟩ := address_lt haddress
    have ht_nat : (UInt32.ofNat t).toNat = t :=
      UInt32.toNat_ofNat_of_lt' (by simp only [UInt32.size]; omega)
    simp only [Option.map_some, add_u32, placed_of, hstart_nat]
    by_cases hpos : s.pos < 2 ^ 32
    · have hsum : s.start + s.reloc.offset.toNat < 2 ^ 32 := hpos
      have hsite : (UInt32.ofNat s.start + s.reloc.offset).toNat = s.pos := by
        rw [UInt32.toNat_add, hstart_nat, Nat.mod_eq_of_lt hsum]
        rfl
      rw [if_pos hsum]
      simp only [bind, Except.bind, hsite, ne_eq, hoffset]
      by_cases haligned : s.reloc.offset.toNat % 4 = 0
      · rw [if_neg (not_not.mpr haligned)]
        by_cases hstop : s.reloc.offset.toNat + 4 < 2 ^ 32
        · have hstop_nat : (s.reloc.offset + 4).toNat = s.reloc.offset.toNat + 4 := by
            rw [UInt32.toNat_add]
            exact Nat.mod_eq_of_lt hstop
          have hfits : s.Fits := ⟨hpos, fun _ => hstop⟩
          rw [show (4 : UInt32).toNat = 4 from rfl, if_pos hstop]
          simp only [UInt32.lt_iff_toNat_lt, hlen_nat, hstop_nat]
          by_cases hinside : s.reloc.offset.toNat + 4 ≤ s.atom.code.length
          · rw [if_neg (Nat.not_lt.mpr hinside)]
            have hpos_eq : s.pos = s.start + s.reloc.offset.toNat := rfl
            have hread : s.pos + 4 ≤ text.length := by
              rw [htext.length]
              omega
            have htop : word_at text s.pos &&& BL_MASK =
                word_at s.atom.code s.reloc.offset.toNat &&& BL_MASK := by
              rw [htext.tops s.pos (by omega) (by rw [← htext.length]; exact hread),
                plain_word hs hinside]
            have hdelta : ((t : Int) - s.pos).tdiv 4 = s.distance t := by
              unfold Site.distance
              exact tdiv_of_mod (by unfold ATOM_ALIGN at htmod; omega)
            rw [read_word, if_pos hread]
            simp only [ht_nat, hdelta, htop]
            by_cases hbl : word_at s.atom.code s.reloc.offset.toNat &&& BL_MASK = BL
            · rw [if_neg (not_not.mpr hbl)]
              by_cases hreach : -2 ^ 25 ≤ s.distance t ∧ s.distance t < 2 ^ 25
              · rw [if_neg (not_not.mpr hreach)]
                refine .inl ⟨⟨⟨t, haddress, hreach⟩, haligned, hinside, hbl⟩, t, _, rfl, rfl, ?_, ?_⟩
                · rw [← htop]
                  exact patched_top _ _
                · rw [← htop, branch_target, if_pos ((patched_top _ _).trans (htop.trans hbl)),
                    imm26_patched _ hreach.1 hreach.2]
                  have hexact : (s.pos : Int) + 4 * s.distance t = t := by
                    unfold Site.distance
                    unfold ATOM_ALIGN at htmod
                    omega
                  rw [hexact]
              · rw [if_pos hreach]
                refine .inr ⟨fun hvalid => ?_, .err _ fun _ => hfits⟩
                obtain ⟨t', ht', hreach'⟩ := hvalid.target
                obtain rfl := Option.some.inj (haddress.symm.trans ht')
                exact hreach hreach'
            · rw [if_pos hbl]
              exact .inr ⟨fun hvalid => hbl hvalid.bl, .err _ fun _ => hfits⟩
          · rw [if_pos (Nat.lt_of_not_le hinside)]
            exact .inr ⟨fun hvalid => hinside hvalid.inside, .err _ fun _ => hfits⟩
        · rw [show (4 : UInt32).toNat = 4 from rfl, if_neg hstop]
          refine .inr ⟨fun hvalid => ?_, .panic hsome fun hfits => hstop (hfits.stop haligned)⟩
          have hinside := hvalid.inside
          omega
      · rw [if_pos haligned]
        exact .inr ⟨fun hvalid => haligned hvalid.aligned,
          .err _ fun _ => ⟨hpos, fun h => absurd h haligned⟩⟩
    · have hsum : ¬ s.start + s.reloc.offset.toNat < 2 ^ 32 := hpos
      rw [if_neg hsum]
      refine .inr ⟨fun hvalid => ?_, .panic hsome fun hfits => hpos hfits.pos⟩
      have hinside := hvalid.inside
      exact hpos (by unfold Site.pos; omega)

theorem Site.Valid.pos_aligned (hs : s ∈ sites xs) (h : s.Valid xs) : s.pos % 4 = 0 := by
  obtain ⟨-, hstart⟩ := Site.bounds hs
  have haligned := h.aligned
  unfold Site.pos
  omega

theorem Site.Valid.pos_le (hs : s ∈ sites xs) (h : s.Valid xs) : s.pos + 4 ≤ size xs := by
  obtain ⟨hbound, -⟩ := Site.bounds hs
  have hinside := h.inside
  unfold Site.pos
  omega

theorem Site.Valid.fits (hsize : size xs < 2 ^ 31) (hs : s ∈ sites xs) (h : s.Valid xs) :
    s.Fits := by
  have hpos := h.pos_le hs
  have hinside := h.inside
  obtain ⟨hbound, -⟩ := Site.bounds hs
  exact ⟨by omega, fun _ => by omega⟩

/-- The sites already filled in stay so, as all are at multiples of 4. -/
theorem Patched.write {w : UInt32} {t : Nat} (htext : Patched xs done text) (hs : s ∈ sites xs)
    (hvalid : s.Valid xs) (haddress : address xs s.reloc.target = some t)
    (hw : w &&& BL_MASK = word_at text s.pos &&& BL_MASK)
    (hbranch : branch_target s.pos w = some (t : Int)) :
    Patched xs (done ++ [s]) (write_word text s.pos w) := by
  have hmod := hvalid.pos_aligned hs
  have hfit : s.pos + 4 ≤ text.length := by
    rw [htext.length]
    exact hvalid.pos_le hs
  refine ⟨?_, ?_, ?_, ?_, ?_⟩
  · rw [length_write_word hfit, htext.length]
  · intro s' hs'
    obtain hs' | hs' := mem_append.mp hs'
    · exact htext.aligned s' hs'
    · rw [mem_singleton.mp hs']
      exact hmod
  · intro pos hpos hin
    by_cases heq : pos = s.pos
    · subst heq
      rw [word_at_write_word hfit, hw]
      exact htext.tops _ hpos hin
    · rw [word_at_write_word_ne hfit w (by omega)]
      exact htext.tops pos hpos hin
  · intro j hj
    rw [write_word_outside hfit w (hj s (by simp))]
    exact htext.kept j fun s' hs' => hj s' (mem_append_left _ hs')
  · intro s' hs'
    by_cases heq : s'.pos = s.pos
    · refine ⟨s, by simp, heq.symm, t, haddress, ?_⟩
      rw [heq, word_at_write_word hfit, hbranch]
    · have hs' : s' ∈ done := by
        obtain hs' | hs' := mem_append.mp hs'
        · exact hs'
        · exact absurd (by rw [mem_singleton.mp hs']) heq
      obtain ⟨r, hr, hpos, t', ht', hbranch'⟩ := htext.branches s' hs'
      refine ⟨r, mem_append_left _ hr, hpos, t', ht', ?_⟩
      have hmod' := htext.aligned s' hs'
      rw [word_at_write_word_ne hfit w (by omega)]
      exact hbranch'

/-! ## All relocations -/

theorem run_valid (hsize : size xs < 2 ^ 31) (rest : List Site) (hrest : ∀ s ∈ rest, s ∈ sites xs)
    (hvalid : ∀ s ∈ rest, s.Valid xs) (htext : Patched xs done text) :
    ∃ text', rest.foldlM (step xs) text = .ok text' ∧ Patched xs (done ++ rest) text' := by
  induction rest generalizing done text with
  | nil =>
    rw [append_nil]
    exact ⟨text, rfl, htext⟩
  | cons s rest ih =>
    have hs := hrest s mem_cons_self
    obtain ⟨hv, t, w, haddress, hstep, hw, hbranch⟩ | ⟨hinvalid, -⟩ := step_spec hsize hs htext
    · rw [foldlM_cons, hstep]
      have ih := ih (fun s hs => hrest s (mem_cons_of_mem _ hs))
        (fun s hs => hvalid s (mem_cons_of_mem _ hs)) (htext.write hs hv haddress hw hbranch)
      rw [append_assoc, singleton_append] at ih
      exact ih
    · exact absurd (hvalid s mem_cons_self) hinvalid

/-- Either all sites are valid or one is the first that is not. -/
theorem valid_or_first (xs : List Atom) (rest : List Site) :
    (∀ s ∈ rest, s.Valid xs) ∨
      ∃ pre s post, rest = pre ++ s :: post ∧ (∀ p ∈ pre, p.Valid xs) ∧ ¬ s.Valid xs := by
  induction rest with
  | nil => exact .inl fun _ hs => nomatch hs
  | cons s rest ih =>
    by_cases hs : s.Valid xs
    · obtain hrest | ⟨pre, s', post, rfl, hpre, hs'⟩ := ih
      · exact .inl (forall_mem_cons.mpr ⟨hs, hrest⟩)
      · exact .inr ⟨s :: pre, s', post, rfl, forall_mem_cons.mpr ⟨hs, hpre⟩, hs'⟩
    · exact .inr ⟨[], s, rest, rfl, fun _ hp => (nomatch hp), hs⟩

/-! ## The whole link -/

variable {fors runtime : List Atom} {entry : String}

theorem place_of_repeat (h : ¬ ((runtime ++ fors).map Atom.name).Nodup) (entry : String) :
    ∃ e, place fors runtime entry = fail e := by
  obtain ⟨hnodup, -⟩ | ⟨-, n, hrepeat⟩ := place_atoms_spec (runtime ++ fors)
  · exact absurd hnodup h
  · refine ⟨.DuplicateSymbol n, ?_⟩
    unfold place
    rw [hrepeat]
    rfl

/-- After distinct names a link is the run over the sites. -/
theorem place_eq (h : ((runtime ++ fors).map Atom.name).Nodup) (entry : String) :
    place fors runtime entry = (do
      let text ← (sites (runtime ++ fors)).foldlM (step (runtime ++ fors)) (plain (runtime ++ fors))
      match (laid (runtime ++ fors)).at_.lookup entry with
      | none => fail (.NoEntry entry)
      | some entry_off =>
        .ok ⟨text, entry_off, (laid (runtime ++ fors)).placed,
          (laid (runtime ++ fors)).placed.flatMap Placed.dir_row, le_bytes 4 0⟩) := by
  obtain ⟨-, hlaid⟩ | ⟨hrepeat, -⟩ := place_atoms_spec (runtime ++ fors)
  · unfold place
    rw [hlaid, ← patch_atoms_eq]
    rfl
  · exact absurd h hrepeat

theorem place_of_first {pre post : List Site} (hsize : size (runtime ++ fors) < 2 ^ 31)
    (hnames : ((runtime ++ fors).map Atom.name).Nodup)
    (hsites : sites (runtime ++ fors) = pre ++ s :: post)
    (hpre : ∀ p ∈ pre, p.Valid (runtime ++ fors)) (hs : ¬ s.Valid (runtime ++ fors))
    (entry : String) :
    (∃ e, place fors runtime entry = fail e) ∧
        ((address (runtime ++ fors) s.reloc.target).isSome → s.Fits) ∨
      place fors runtime entry = .error .panic ∧
        (address (runtime ++ fors) s.reloc.target).isSome ∧ ¬ s.Fits := by
  have hmem : s ∈ sites (runtime ++ fors) := by
    rw [hsites]
    simp
  obtain ⟨text, hrun, htext⟩ := run_valid hsize pre
    (fun p hp => by rw [hsites]; exact mem_append_left _ hp) hpre (.nil (runtime ++ fors))
  obtain ⟨hvalid, -⟩ | ⟨-, hrefused⟩ := step_spec hsize hmem htext
  · exact absurd hvalid hs
  rw [place_eq hnames, hsites, foldlM_append, hrun]
  simp only [bind, Except.bind, foldlM_cons]
  generalize step (runtime ++ fors) text s = r at hrefused
  cases hrefused with
  | err e hfits => exact .inl ⟨⟨e, rfl⟩, hfits⟩
  | panic hsome hfits => exact .inr ⟨rfl, hsome, hfits⟩

theorem place_of_valid (hsize : size (runtime ++ fors) < 2 ^ 31)
    (hnames : ((runtime ++ fors).map Atom.name).Nodup)
    (hvalid : ∀ s ∈ sites (runtime ++ fors), s.Valid (runtime ++ fors)) (entry : String) :
    address (runtime ++ fors) entry = none ∧
        place fors runtime entry = fail (.NoEntry entry) ∨
      ∃ e text, address (runtime ++ fors) entry = some e ∧
        Patched (runtime ++ fors) (sites (runtime ++ fors)) text ∧
        place fors runtime entry = .ok ⟨text, .ofNat e, (laid (runtime ++ fors)).placed,
          (laid (runtime ++ fors)).placed.flatMap Placed.dir_row, le_bytes 4 0⟩ := by
  obtain ⟨text, hrun, htext⟩ := run_valid hsize _ (fun _ hs => hs) hvalid (.nil (runtime ++ fors))
  rw [place_eq hnames, hrun, lookup_laid]
  cases haddress : address (runtime ++ fors) entry with
  | none => exact .inl ⟨rfl, rfl⟩
  | some e => exact .inr ⟨e, text, rfl, htext, rfl⟩

theorem placements_pairwise (start : Nat) (xs : List Atom) :
    (placements start xs).Pairwise (fun p q => p.1 + p.2.code.length ≤ q.1) ∧
      ∀ p ∈ placements start xs, start ≤ p.1 := by
  induction xs generalizing start with
  | nil => exact ⟨Pairwise.nil, fun _ hp => nomatch hp⟩
  | cons a xs ih =>
    obtain ⟨hpairs, hstart⟩ := ih (start + a.room)
    have hroom := le_room a
    rw [placements, pairwise_cons]
    refine ⟨⟨fun q hq => ?_, hpairs⟩, forall_mem_cons.mpr ⟨Nat.le_refl _, fun q hq => ?_⟩⟩
    · have hq := hstart q hq
      simp only
      omega
    · have hq := hstart q hq
      omega

theorem placed_of_toNat (hsize : size xs < 2 ^ 31) {p : Nat × Atom} (hp : p ∈ placements 0 xs) :
    (placed_of p).start.toNat = p.1 ∧ (placed_of p).len.toNat = p.2.code.length := by
  obtain ⟨start, a⟩ := p
  obtain ⟨hle, -⟩ := start_add_le hp
  constructor
  · exact UInt32.toNat_ofNat_of_lt' (by simp only [UInt32.size]; omega)
  · exact UInt32.toNat_ofNat_of_lt' (by simp only [UInt32.size]; omega)

theorem image_of_patched (hsize : size xs < 2 ^ 31) {e : Nat}
    (hentry : address xs entry = some e) (htext : Patched xs (sites xs) text)
    (hagree : ∀ s ∈ sites xs, ∀ s' ∈ sites xs, s.pos = s'.pos →
      address xs s.reloc.target = address xs s'.reloc.target) :
    Image xs entry ⟨text, .ofNat e, (laid xs).placed,
      (laid xs).placed.flatMap Placed.dir_row, le_bytes 4 0⟩ where
  atoms := rfl
  aligned := by
    intro p hp
    obtain ⟨p, hmem, rfl⟩ := mem_map.mp hp
    rw [(placed_of_toNat hsize hmem).1]
    obtain ⟨start, a⟩ := p
    exact (start_add_le hmem).2
  disjoint := by
    refine pairwise_map.mpr ((placements_pairwise 0 xs).1.imp_of_mem ?_)
    intro p q hp hq hle
    rw [(placed_of_toNat hsize hp).1, (placed_of_toNat hsize hp).2, (placed_of_toNat hsize hq).1]
    exact hle
  length := htext.length.trans (length_plain xs).symm
  kept := htext.kept
  branches := by
    intro s hs
    obtain ⟨s', hs', hpos, t, ht, hbranch⟩ := htext.branches s hs
    exact ⟨t, (hagree s hs s' hs' hpos.symm).trans ht, hbranch⟩
  dir := rfl
  entry := by
    obtain ⟨hle, -⟩ := address_lt hentry
    rw [hentry, UInt32.toNat_ofNat_of_lt' (by simp only [UInt32.size]; omega)]

/-- A refused link does what is asked of it if it had to be refused. -/
theorem exact_of_fail {e : LinkError} (hplace : place fors runtime entry = fail e)
    (h : ¬ (((runtime ++ fors).map Atom.name).Nodup ∧ (address (runtime ++ fors) entry).isSome ∧
      ∀ s ∈ sites (runtime ++ fors), s.Valid (runtime ++ fors))) :
    Exact fors runtime entry := by
  refine ⟨fun hpanic => ?_, ⟨fun hok => ?_, fun hok => absurd hok h⟩, fun l hl => ?_⟩
  · rw [hplace] at hpanic
    cases hpanic
  · obtain ⟨l, hl⟩ := hok
    rw [hplace] at hl
    cases hl
  · rw [hplace] at hl
    cases hl

theorem exact_of_settled (hsize : size (runtime ++ fors) < 2 ^ 31)
    (hsettled : Settled (runtime ++ fors) entry) : Exact fors runtime entry := by
  by_cases hnames : ((runtime ++ fors).map Atom.name).Nodup
  · obtain hvalid | ⟨pre, s, post, hsites, hpre, hs⟩ :=
      valid_or_first (runtime ++ fors) (sites (runtime ++ fors))
    · obtain ⟨hnone, hplace⟩ | ⟨e, text, hentry, htext, hplace⟩ :=
        place_of_valid hsize hnames hvalid entry
      · refine exact_of_fail hplace fun h => ?_
        have hsome := h.2.1
        rw [hnone] at hsome
        cases hsome
      · have hsome : (address (runtime ++ fors) entry).isSome = true := by
          rw [hentry]
          rfl
        refine ⟨fun h => ?_, ⟨fun _ => ⟨hnames, hsome, hvalid⟩, fun _ => ⟨_, hplace⟩⟩,
          fun l hl => ?_⟩
        · rw [hplace] at h
          cases h
        · rw [hplace] at hl
          rw [← Except.ok.inj hl]
          exact image_of_patched hsize hentry htext (hsettled.agree hnames hsome hvalid)
    · obtain ⟨⟨e, hplace⟩, -⟩ | ⟨-, hsome, hfits⟩ :=
        place_of_first hsize hnames hsites hpre hs entry
      · refine exact_of_fail hplace fun h => hs (h.2.2 s ?_)
        rw [hsites]
        simp
      · exact absurd (hsettled.first hnames pre s post hsites hpre hsome) hfits
  · obtain ⟨e, hplace⟩ := place_of_repeat hnames entry
    exact exact_of_fail hplace fun h => hnames h.1

theorem settled_of_exact (hsize : size (runtime ++ fors) < 2 ^ 31)
    (hexact : Exact fors runtime entry) : Settled (runtime ++ fors) entry := by
  refine ⟨fun hnames pre s post hsites hpre hsome => ?_,
    fun hnames hentry hvalid s hs s' hs' hpos => ?_⟩
  · by_cases hs : s.Valid (runtime ++ fors)
    · exact hs.fits hsize (by rw [hsites]; simp)
    · obtain ⟨-, hfits⟩ | ⟨hpanic, -⟩ := place_of_first hsize hnames hsites hpre hs entry
      · exact hfits hsome
      · exact absurd hpanic hexact.no_panic
  · obtain ⟨l, hl⟩ := hexact.ok_iff.mpr ⟨hnames, hentry, hvalid⟩
    have himage := hexact.image l hl
    obtain ⟨t, ht, hbranch⟩ := himage.branches s hs
    obtain ⟨t', ht', hbranch'⟩ := himage.branches s' hs'
    rw [← hpos, hbranch] at hbranch'
    have htt : t = t' := Int.ofNat.inj (Option.some.inj hbranch')
    rw [ht, ht', htt]

/-- A link of less than 2 GiB does what is asked of it when, and only when, no sum of the first
invalid relocation overflows and relocations at one place have one target. -/
theorem place_exact_iff (hsize : size (runtime ++ fors) < 2 ^ 31) :
    Exact fors runtime entry ↔ Settled (runtime ++ fors) entry :=
  ⟨settled_of_exact hsize, exact_of_settled hsize⟩

/-- A function of a `bl` and a `ret`, and one of a `ret`. -/
def caller (offset : UInt32) : Atom :=
  ⟨"main", [0, 0, 0, 0x94, 0xC0, 0x03, 0x5F, 0xD6], [⟨offset, "f"⟩]⟩

def callee : Atom :=
  ⟨"f", [0xC0, 0x03, 0x5F, 0xD6], []⟩

theorem place_exact_iff_call : Exact [caller 0] [callee] "main" := by
  have hvalid : Site.Fits ⟨16, caller 0, ⟨0, "f"⟩⟩ := ⟨by decide, fun _ => by decide⟩
  have hsites : sites ([callee] ++ [caller 0]) = [⟨16, caller 0, ⟨0, "f"⟩⟩] := rfl
  refine (place_exact_iff (by decide)).mpr ⟨fun _ pre s post hs _ _ => ?_,
    fun _ _ _ s hs s' hs' _ => ?_⟩
  · rw [hsites] at hs
    have hmem : s ∈ [(⟨16, caller 0, ⟨0, "f"⟩⟩ : Site)] := by
      rw [hs]
      simp
    rw [mem_singleton.mp hmem]
    exact hvalid
  · rw [hsites] at hs hs'
    rw [mem_singleton.mp hs, mem_singleton.mp hs']

theorem place_overflows :
    size ([callee] ++ [caller 0xFFFFFFFC]) < 2 ^ 31 ∧ ¬ Exact [caller 0xFFFFFFFC] [callee] "main" :=
  ⟨by decide, fun h => h.no_panic rfl⟩

end Fors.Link
