import Fors.Obj.Reads
import Fors.Obj.Digest

/-!
# Checking a signature

The signature is a blob behind the image with one directory, whose slots are the digests of the
pages in front. The directory says itself where its identifier and its slots are: the places are
used without a check. What the checks before them say of the image is stated here, and with it when
the first place that lies outside is met.

Source: `crates/fors-obj/src/sign.rs`. Principal result: `verify_signature_panics`.
-/

namespace Fors.Obj

open LittleEndian Outcomes Outcome List
open Utf8 (from_utf8_lossy)
open Sha256 (of_be_bytes)

def CS_PAGE : Nat :=
  4096

def CSMAGIC_EMBEDDED_SIGNATURE : Nat :=
  0xfade0cc0

def CSMAGIC_CODEDIRECTORY : Nat :=
  0xfade0c02

def CD_VERSION : Nat :=
  0x00020400

def CD_FLAGS : Nat :=
  0x00020002

def n_slots (code_limit : Nat) : Nat :=
  (code_limit + CS_PAGE - 1) / CS_PAGE

/-- The stretches of `n` bytes of a slice, the last one perhaps shorter. -/
def chunks (n : Nat) (bytes : List UInt8) : List (List UInt8) :=
  (List.range ((bytes.length + n - 1) / n)).map fun i => (bytes.drop (n * i)).take n

def be32 (b : List UInt8) (off : Nat) : Outcome Unit Nat := do
  let end_ ← add off 4
  let bytes ← get b off end_
  pure (of_be_bytes bytes)

structure SignatureInfo where
  code_limit : Nat
  identifier : List Char
  slots : Nat
  exec_seg_limit : Nat

/-- A digest; the loop inside does not leave its arrays. -/
def page_digest (page : List UInt8) : Outcome String (List UInt8) :=
  match sha256 page with
  | some d => pure d
  | none => .panics

/-- The loop over the pages from page `i` on. -/
def check_pages (cd : List UInt8) (hash_off : Nat) :
    List (List UInt8) → Nat → Outcome String Unit
  | [], _ => pure ()
  | page :: pages, i => do
    let before ← mul 32 i
    let start ← add hash_off before
    let through ← mul 32 (i + 1)
    let end_ ← add hash_off through
    let want ← index cd start end_
    let digest ← page_digest page
    require (digest = want) s!"page {i} hash mismatch"
    check_pages cd hash_off pages (i + 1)

def zero_position (bytes : List UInt8) : Outcome Unit Nat :=
  match bytes.findIdx? fun b => b = 0 with
  | some i => value i
  | none => .refused ()

/-- The identifier and the slots, that the directory places. -/
def verify_slots (image cd : List UInt8) (code_limit hash_off ident_off nslots : Nat)
    (limit tail : List UInt8) : Outcome String SignatureInfo := do
  let ident_end ← ok_or (zero_position tail) "identifier not NUL-terminated"
  let ident_stop ← add ident_off ident_end
  let ident ← index cd ident_off ident_stop
  let signed ← index image 0 code_limit
  check_pages cd hash_off (chunks CS_PAGE signed) 0
  pure ⟨code_limit, from_utf8_lossy ident, nslots, of_be_bytes limit⟩

/-- The fields of the directory. -/
def verify_directory (image cd : List UInt8) (off : Nat) : Outcome String SignatureInfo := do
  expect (be32 cd 0) CSMAGIC_CODEDIRECTORY "bad CodeDirectory magic"
  expect (be32 cd 8) CD_VERSION "unexpected CodeDirectory version or flags"
  expect (be32 cd 12) CD_FLAGS "unexpected CodeDirectory version or flags"
  let hash_off ← ok_or (be32 cd 16) "truncated"
  let ident_off ← ok_or (be32 cd 20) "truncated"
  let nspecial ← ok_or (be32 cd 24) "truncated"
  let nslots ← ok_or (be32 cd 28) "truncated"
  let code_limit ← ok_or (be32 cd 32) "truncated"
  require (nspecial = 0) "special slots present"
  require (code_limit = off) s!"codeLimit {code_limit} != signature offset {off}"
  expect (get cd 36 40) [32, 2, 0, 12] "hash size/type/page size"
  require (nslots = n_slots code_limit) "slot count does not cover codeLimit"
  let limit ← index cd 72 80
  let tail ← index cd ident_off cd.length
  verify_slots image cd code_limit hash_off ident_off nslots limit tail

/-- Recomputes the signature of `image`. -/
def verify_signature (image : List UInt8) : Outcome String SignatureInfo := do
  let (off, size) ← ok_or (code_signature image) "no LC_CODE_SIGNATURE"
  let end_ ← add off size
  let len := image.length
  require (end_ = len) s!"signature [{off}, +{size}) does not end the file ({len})"
  let sb ← index image off image.length
  expect (be32 sb 0) CSMAGIC_EMBEDDED_SIGNATURE "bad SuperBlob magic"
  expect (be32 sb 4) size "SuperBlob length disagrees with LC_CODE_SIGNATURE"
  expect (be32 sb 8) 1 "expected exactly one CodeDirectory slot"
  expect (be32 sb 12) 0 "expected exactly one CodeDirectory slot"
  let cd_off ← ok_or (be32 sb 16) "truncated"
  let cd ← index sb cd_off sb.length
  verify_directory image cd off

end Fors.Obj

/-! ## Where the check leaves its slices -/

namespace Fors.Obj

open LittleEndian Outcomes Outcome List
open Sha256 (of_be_bytes)

variable {image : Slice} {bytes cd : List UInt8} {off hash_off i j : Nat}

/-! ## Readers -/

theorem ends_be32 (b : List UInt8) (h : off + 4 < 2 ^ 64) :
    Ends (be32 b off) fun v => off + 4 ≤ b.length ∧ v < 2 ^ 32 := by
  unfold be32
  apply (ends_add h).bind
  rintro _ rfl
  apply (ends_get b off (off + 4)).bind
  rintro part ⟨hend, rfl⟩
  apply Ends.pure
  refine ⟨hend, ?_⟩
  have hlt := of_le_bytes_lt ((b.drop off).take (off + 4 - off)).reverse
  have hlen : ((b.drop off).take (off + 4 - off)).reverse.length = 4 := by
    rw [length_reverse, length_take, length_drop]
    omega
  rwa [hlen] at hlt

theorem index_bind_eq_panics {ε β : Type} {f : List UInt8 → Outcome ε β} :
    (index bytes i j >>= f) = panics ↔
      ¬ (i ≤ j ∧ j ≤ bytes.length) ∨ f ((bytes.drop i).take (j - i)) = panics := by
  unfold index
  split
  · next h =>
    rw [value_bind]
    exact ⟨Or.inr, fun hor => hor.resolve_left (not_not_intro h)⟩
  · next h => exact ⟨fun _ => Or.inl h, fun _ => rfl⟩

theorem rest_eq (bytes : List UInt8) (i : Nat) :
    (bytes.drop i).take (bytes.length - i) = bytes.drop i :=
  take_of_length_le (by rw [length_drop])

/-! ## Pages -/

/-- Slot `i` of a directory. -/
def slot (cd : List UInt8) (hash_off i : Nat) : List UInt8 :=
  (cd.drop (hash_off + 32 * i)).take 32

/-- The first of the slots from `i` on that does not stand in the directory is met: those before it
are the digests of their pages. -/
def MissingSlot (cd : List UInt8) (hash_off : Nat) (pages : List (List UInt8)) (i : Nat) : Prop :=
  ∃ k < pages.length, cd.length < hash_off + 32 * (i + k + 1) ∧
    ∀ j < k, ∃ page, pages[j]? = some page ∧ sha256 page = some (slot cd hash_off (i + j))

theorem missingSlot_cons (page : List UInt8) (pages : List (List UInt8)) :
    MissingSlot cd hash_off (page :: pages) i ↔ cd.length < hash_off + 32 * (i + 1) ∨
      sha256 page = some (slot cd hash_off i) ∧ MissingSlot cd hash_off pages (i + 1) := by
  constructor
  · rintro ⟨k, hk, hout, hbefore⟩
    cases k with
    | zero => exact Or.inl hout
    | succ k =>
      obtain ⟨page', hpage, hdigest⟩ := hbefore 0 (Nat.succ_pos k)
      cases hpage
      refine Or.inr ⟨hdigest, k, Nat.lt_of_succ_lt_succ hk, ?_, ?_⟩
      · rw [Nat.add_right_comm i 1 k, Nat.add_assoc i k 1]
        exact hout
      · intro j hj
        obtain ⟨page', hpage, hdigest⟩ := hbefore (j + 1) (Nat.succ_lt_succ hj)
        rw [← Nat.add_assoc, Nat.add_right_comm] at hdigest
        exact ⟨page', hpage, hdigest⟩
  · rintro (hout | ⟨hdigest, k, hk, hout, hbefore⟩)
    · exact ⟨0, Nat.succ_pos _, hout, fun j hj => absurd hj (Nat.not_lt_zero j)⟩
    · refine ⟨k + 1, Nat.succ_lt_succ hk, ?_, ?_⟩
      · rw [Nat.add_right_comm i 1 k, Nat.add_assoc i k 1] at hout
        exact hout
      · intro j hj
        cases j with
        | zero => exact ⟨page, rfl, hdigest⟩
        | succ j =>
          obtain ⟨page', hpage, hdigest⟩ := hbefore j (Nat.lt_of_succ_lt_succ hj)
          rw [Nat.add_right_comm, Nat.add_assoc] at hdigest
          exact ⟨page', hpage, hdigest⟩

theorem page_digest_eq (page : List UInt8) : ∃ d, sha256 page = some d ∧
    page_digest page = value d := by
  have hrun := sha256_run page
  refine ⟨_, hrun, ?_⟩
  unfold page_digest
  rw [hrun]
  rfl

theorem check_pages_panics {pages : List (List UInt8)} (hhash : hash_off < 2 ^ 32)
    (hpages : i + pages.length < 2 ^ 32) :
    check_pages cd hash_off pages i = panics ↔ MissingSlot cd hash_off pages i := by
  induction pages generalizing i with
  | nil =>
    constructor
    · exact fun h => nomatch h
    · rintro ⟨k, hk, -⟩
      exact absurd hk (Nat.not_lt_zero k)
  | cons page pages ih =>
    rw [length_cons] at hpages
    obtain ⟨d, hd, hdigest⟩ := page_digest_eq page
    have hwidth : hash_off + 32 * (i + 1) - (hash_off + 32 * i) = 32 := by omega
    unfold check_pages
    rw [mul_eq (by omega), value_bind, add_eq (by omega), value_bind, mul_eq (by omega), value_bind,
      add_eq (by omega), value_bind, index_bind_eq_panics, hdigest, value_bind,
      require_bind_eq_panics, ih (by omega), missingSlot_cons, hd, hwidth]
    have hbounds : ¬ (hash_off + 32 * i ≤ hash_off + 32 * (i + 1) ∧
        hash_off + 32 * (i + 1) ≤ cd.length) ↔ cd.length < hash_off + 32 * (i + 1) := by
      omega
    rw [hbounds, Option.some.injEq]
    rfl

/-! ## What the checks say -/

/-- The blob that the load command places ends the image, and has one directory. -/
structure Blob (image : List UInt8) (off size cd_off : Nat) : Prop where
  signature : code_signature image = value (off, size)
  ending : off + size = image.length
  magic : be32 (image.drop off) 0 = value CSMAGIC_EMBEDDED_SIGNATURE
  length : be32 (image.drop off) 4 = value size
  count : be32 (image.drop off) 8 = value 1
  first : be32 (image.drop off) 12 = value 0
  place : be32 (image.drop off) 16 = value cd_off

/-- The directory has the form that is written, and as many slots as the image has pages. -/
structure Directory (cd : List UInt8) (off hash_off ident_off : Nat) : Prop where
  magic : be32 cd 0 = value CSMAGIC_CODEDIRECTORY
  version : be32 cd 8 = value CD_VERSION
  flags : be32 cd 12 = value CD_FLAGS
  hashes : be32 cd 16 = value hash_off
  identifier : be32 cd 20 = value ident_off
  special : be32 cd 24 = value 0
  slots : be32 cd 28 = value (n_slots off)
  limit : be32 cd 32 = value off
  kinds : get cd 36 40 = value [32, 2, 0, 12]

/-- A directory of that form is too short for its header, its identifier or one of its slots. -/
def ShortDirectory (image cd : List UInt8) (off : Nat) : Prop :=
  ∃ hash_off ident_off, Directory cd off hash_off ident_off ∧
    (cd.length < 80 ∨ cd.length < ident_off ∨
      0 ∈ cd.drop ident_off ∧ MissingSlot cd hash_off (chunks CS_PAGE (image.take off)) 0)

/-- A blob of that form places its directory outside, or has one that is too short. -/
def OutOfRange (image : List UInt8) : Prop :=
  ∃ off size cd_off, Blob image off size cd_off ∧
    ((image.drop off).length < cd_off ∨ ShortDirectory image ((image.drop off).drop cd_off) off)

theorem zero_position_ne_panics (bytes : List UInt8) : zero_position bytes ≠ panics := by
  unfold zero_position
  split <;> exact nofun

theorem zero_position_lt {k : Nat} (h : zero_position bytes = value k) :
    k < bytes.length ∧ 0 ∈ bytes := by
  unfold zero_position at h
  split at h
  · next i hfind =>
    obtain rfl := value.inj h
    obtain ⟨hlt, hzero, -⟩ := findIdx?_eq_some_iff_getElem.mp hfind
    refine ⟨hlt, ?_⟩
    rw [← of_decide_eq_true hzero]
    exact getElem_mem hlt
  · cases h

theorem exists_zero_position (h : 0 ∈ bytes) : ∃ k, zero_position bytes = value k := by
  unfold zero_position
  split
  · next i _ => exact ⟨i, rfl⟩
  · next hfind => exact absurd (findIdx?_eq_none_iff.mp hfind 0 h) (by decide)

theorem length_chunks_lt (h : bytes.length < 2 ^ 32) : (chunks CS_PAGE bytes).length < 2 ^ 32 := by
  unfold chunks CS_PAGE
  rw [length_map, length_range]
  omega

/-! ## The check -/

theorem verify_slots_panics {ident_off : Nat} (image : List UInt8) (nslots : Nat)
    (limit : List UInt8) (hoff : off ≤ image.length) (hoff' : off < 2 ^ 32)
    (hhash : hash_off < 2 ^ 32) (hcd : cd.length < 2 ^ 63)
    (hstart : ident_off ≤ cd.length) :
    verify_slots image cd off hash_off ident_off nslots limit (cd.drop ident_off) = panics ↔
      0 ∈ cd.drop ident_off ∧ MissingSlot cd hash_off (chunks CS_PAGE (image.take off)) 0 := by
  have hpages : (chunks CS_PAGE (image.take off)).length < 2 ^ 32 :=
    length_chunks_lt (by rw [length_take]; omega)
  have hend {k : Nat} (hk : k < (cd.drop ident_off).length) :
      (do
        let ident_stop ← (add ident_off k : Outcome String Nat)
        let ident ← index cd ident_off ident_stop
        let signed ← index image 0 off
        check_pages cd hash_off (chunks CS_PAGE signed) 0
        pure (SignatureInfo.mk off (Utf8.from_utf8_lossy ident) nslots (of_be_bytes limit))) =
          panics ↔ MissingSlot cd hash_off (chunks CS_PAGE (image.take off)) 0 := by
    rw [length_drop] at hk
    rw [add_eq (by omega), value_bind, index_eq (by omega) (by omega), value_bind,
      index_eq (Nat.zero_le _) hoff, value_bind, drop_zero, Nat.sub_zero, bind_eq_panics,
      check_pages_panics hhash (by omega)]
    exact ⟨fun h => h.resolve_right (fun ⟨_, _, h⟩ => nomatch h), Or.inl⟩
  unfold verify_slots
  rw [ok_or_bind_eq_panics (zero_position_ne_panics _)]
  constructor
  · rintro ⟨k, hk, h⟩
    obtain ⟨hlt, hzero⟩ := zero_position_lt hk
    exact ⟨hzero, (hend hlt).mp h⟩
  · rintro ⟨hzero, hmissing⟩
    obtain ⟨k, hk⟩ := exists_zero_position hzero
    exact ⟨k, hk, (hend (zero_position_lt hk).1).mpr hmissing⟩

theorem be32_ne_panics (b : List UInt8) (h : off + 4 < 2 ^ 64) : be32 b off ≠ panics :=
  (ends_be32 b h).not_panics

theorem verify_directory_panics (image : List UInt8) (hoff : off ≤ image.length)
    (hoff' : off < 2 ^ 32) (hcd : cd.length < 2 ^ 63) :
    verify_directory image cd off = panics ↔ ShortDirectory image cd off := by
  have hbe (n : Nat) (hn : n + 4 < 2 ^ 64) : be32 cd n ≠ panics := be32_ne_panics cd hn
  unfold verify_directory ShortDirectory
  rw [expect_bind_eq_panics (hbe 0 (by omega)), expect_bind_eq_panics (hbe 8 (by omega)),
    expect_bind_eq_panics (hbe 12 (by omega)), ok_or_bind_eq_panics (hbe 16 (by omega))]
  simp only [ok_or_bind_eq_panics (hbe 20 (by omega)), ok_or_bind_eq_panics (hbe 24 (by omega)),
    ok_or_bind_eq_panics (hbe 28 (by omega)), ok_or_bind_eq_panics (hbe 32 (by omega)),
    require_bind_eq_panics, expect_bind_eq_panics (get_ne_panics cd 36 40), index_bind_eq_panics,
    rest_eq]
  have hslots {hash_off ident_off : Nat} (nslots : Nat) (limit : List UInt8)
      (hhash : be32 cd 16 = value hash_off) (hident : be32 cd 20 = value ident_off)
      (hstart : ident_off ≤ cd.length) :=
    verify_slots_panics image nslots limit hoff hoff'
      ((ends_be32 cd (by omega)).post hash_off hhash).2 hcd hstart
  constructor
  · rintro ⟨hmagic, hversion, hflags, hash_off, hhash, ident_off, hident, nspecial, hspecial, nslots,
      hnslots, code_limit, hlimit, rfl, rfl, hkinds, rfl, hout⟩
    refine ⟨hash_off, ident_off,
      ⟨hmagic, hversion, hflags, hhash, hident, hspecial, hnslots, hlimit, hkinds⟩, ?_⟩
    rcases hout with hshort | hout | hout
    · exact Or.inl (by omega)
    · exact Or.inr (Or.inl (by omega))
    · rcases Nat.lt_or_ge cd.length ident_off with hlt | hge
      · exact Or.inr (Or.inl hlt)
      · exact Or.inr (Or.inr ((hslots _ _ hhash hident hge).mp hout))
  · rintro ⟨hash_off, ident_off, hdirectory, hout⟩
    refine ⟨hdirectory.magic, hdirectory.version, hdirectory.flags, hash_off, hdirectory.hashes,
      ident_off, hdirectory.identifier, 0, hdirectory.special, _, hdirectory.slots, off,
      hdirectory.limit, rfl, rfl, hdirectory.kinds, rfl, ?_⟩
    rcases hout with hshort | hshort | hmissing
    · exact Or.inl (by omega)
    · exact Or.inr (Or.inl (by omega))
    · rcases Nat.lt_or_ge cd.length ident_off with hlt | hge
      · exact Or.inr (Or.inl (by omega))
      · exact Or.inr (Or.inr
          ((hslots _ _ hdirectory.hashes hdirectory.identifier hge).mpr hmissing))

/-- The check of a signature panics where one of the places lies outside, and nowhere else. -/
theorem verify_signature_panics (image : Slice) :
    verify_signature image.bytes = panics ↔ OutOfRange image.bytes := by
  have hbe (b : List UInt8) (n : Nat) (hn : n + 4 < 2 ^ 64) : be32 b n ≠ panics :=
    be32_ne_panics b hn
  have hsignature := ends_code_signature image
  have hfits := image.fits
  unfold verify_signature OutOfRange
  rw [ok_or_bind_eq_panics hsignature.not_panics]
  constructor
  · rintro ⟨⟨off, size⟩, hcode, h⟩
    obtain ⟨hoff, hsize⟩ := hsignature.post _ hcode
    have hsum : off + size < 2 ^ 64 := by
      have hoff : off < 2 ^ 32 := hoff
      have hsize : size < 2 ^ 32 := hsize
      omega
    simp only [add_eq hsum, value_bind, require_bind_eq_panics] at h
    obtain ⟨hending, h⟩ := h
    rw [index_eq (by omega) (Nat.le_refl _), value_bind, rest_eq,
      expect_bind_eq_panics (hbe _ 0 (by omega)), expect_bind_eq_panics (hbe _ 4 (by omega)),
      expect_bind_eq_panics (hbe _ 8 (by omega)), expect_bind_eq_panics (hbe _ 12 (by omega)),
      ok_or_bind_eq_panics (hbe _ 16 (by omega))] at h
    obtain ⟨hmagic, hlength, hcount, hfirst, cd_off, hplace, h⟩ := h
    rw [index_bind_eq_panics, rest_eq, verify_directory_panics _ (by omega) hoff
      (by rw [length_drop, length_drop]; omega)] at h
    refine ⟨off, size, cd_off, ⟨hcode, hending, hmagic, hlength, hcount, hfirst, hplace⟩, ?_⟩
    rcases h with h | h
    · exact Or.inl (by omega)
    · exact Or.inr h
  · rintro ⟨off, size, cd_off, hblob, h⟩
    obtain ⟨hoff, hsize⟩ := hsignature.post _ hblob.signature
    have hending := hblob.ending
    have hsum : off + size < 2 ^ 64 := by omega
    refine ⟨(off, size), hblob.signature, ?_⟩
    simp only [add_eq hsum, value_bind, require_bind_eq_panics]
    refine ⟨hending, ?_⟩
    rw [index_eq (by omega) (Nat.le_refl _), value_bind, rest_eq,
      expect_bind_eq_panics (hbe _ 0 (by omega)), expect_bind_eq_panics (hbe _ 4 (by omega)),
      expect_bind_eq_panics (hbe _ 8 (by omega)), expect_bind_eq_panics (hbe _ 12 (by omega)),
      ok_or_bind_eq_panics (hbe _ 16 (by omega))]
    refine ⟨hblob.magic, hblob.length, hblob.count, hblob.first, cd_off, hblob.place, ?_⟩
    rw [index_bind_eq_panics, rest_eq, verify_directory_panics _ (by omega) hoff
      (by rw [length_drop, length_drop]; omega)]
    rcases h with h | h
    · exact Or.inl (by omega)
    · exact Or.inr h

end Fors.Obj
