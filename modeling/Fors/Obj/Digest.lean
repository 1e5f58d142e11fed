import Fors.Lib.Sha256
import Fors.Lib.Runs

/-!
# The digest of an image

Every hash of a page, the identifier of an image and its signature are SHA-256. The padding is done
on a tail of two blocks and never on a copy of the message. Indexing answers `none` out of range.

The tables are the roots of the primes, the loops over the words are the schedule and the rounds,
and the tail is what the padding puts behind the whole blocks of the message.

Source: `crates/fors-obj/src/sha256.rs`. Principal result: `sha256_exact`.
-/

namespace Fors.Obj

open LittleEndian List Option
open Sha256 (Word be_bytes of_be_bytes blocks)

/-! ## Compression -/

def K : List Word := [
  0x428a2f98, 0x71374491, 0xb5c0fbcf, 0xe9b5dba5, 0x3956c25b, 0x59f111f1, 0x923f82a4, 0xab1c5ed5,
  0xd807aa98, 0x12835b01, 0x243185be, 0x550c7dc3, 0x72be5d74, 0x80deb1fe, 0x9bdc06a7, 0xc19bf174,
  0xe49b69c1, 0xefbe4786, 0x0fc19dc6, 0x240ca1cc, 0x2de92c6f, 0x4a7484aa, 0x5cb0a9dc, 0x76f988da,
  0x983e5152, 0xa831c66d, 0xb00327c8, 0xbf597fc7, 0xc6e00bf3, 0xd5a79147, 0x06ca6351, 0x14292967,
  0x27b70a85, 0x2e1b2138, 0x4d2c6dfc, 0x53380d13, 0x650a7354, 0x766a0abb, 0x81c2c92e, 0x92722c85,
  0xa2bfe8a1, 0xa81a664b, 0xc24b8b70, 0xc76c51a3, 0xd192e819, 0xd6990624, 0xf40e3585, 0x106aa070,
  0x19a4c116, 0x1e376c08, 0x2748774c, 0x34b0bcb5, 0x391c0cb3, 0x4ed8aa4a, 0x5b9cca4f, 0x682e6ff3,
  0x748f82ee, 0x78a5636f, 0x84c87814, 0x8cc70208, 0x90befffa, 0xa4506ceb, 0xbef9a3f7, 0xc67178f2]

def H0 : List Word := [
  0x6a09e667, 0xbb67ae85, 0x3c6ef372, 0xa54ff53a, 0x510e527f, 0x9b05688c, 0x1f83d9ab, 0x5be0cd19]

/-- The first sixteen words, read from the chunk. -/
def load_words (chunk : List UInt8) : Option (List Word) :=
  (List.range 16).foldlM (fun w i => do
    let b0 ← chunk[i * 4]?
    let b1 ← chunk[i * 4 + 1]?
    let b2 ← chunk[i * 4 + 2]?
    let b3 ← chunk[i * 4 + 3]?
    pure (w.set i (BitVec.ofNat 32 (of_be_bytes [b0, b1, b2, b3])))) (List.replicate 64 0)

/-- The words behind them. -/
def expand_words (w : List Word) : Option (List Word) :=
  (List.range' 16 48).foldlM (fun w i => do
    let w15 ← w[i - 15]?
    let w2 ← w[i - 2]?
    let w16 ← w[i - 16]?
    let w7 ← w[i - 7]?
    let s0 := w15.rotateRight 7 ^^^ w15.rotateRight 18 ^^^ (w15 >>> 3)
    let s1 := w2.rotateRight 17 ^^^ w2.rotateRight 19 ^^^ (w2 >>> 10)
    pure (w.set i (w16 + s0 + w7 + s1))) w

/-- One turn of the loop over the variables `a` to `hh`. -/
def turn (w : List Word) (s : Sha256.State) (i : Nat) : Option Sha256.State := do
  let ⟨a, b, c, d, e, f, g, hh⟩ := s
  let s1 := e.rotateRight 6 ^^^ e.rotateRight 11 ^^^ e.rotateRight 25
  let ch := (e &&& f) ^^^ (~~~e &&& g)
  let k ← K[i]?
  let wi ← w[i]?
  let t1 := hh + s1 + ch + k + wi
  let s0 := a.rotateRight 2 ^^^ a.rotateRight 13 ^^^ a.rotateRight 22
  let maj := (a &&& b) ^^^ (a &&& c) ^^^ (b &&& c)
  let t2 := s0 + maj
  pure { a := t1 + t2, b := a, c := b, d := c, e := d + t1, f := e, g := f, h := g }

def compress (h : List Word) (chunk : List UInt8) : Option (List Word) := do
  let w ← load_words chunk
  let w ← expand_words w
  let [a, b, c, d, e, f, g, hh] := h | none
  let s ← (List.range 64).foldlM (turn w) ⟨a, b, c, d, e, f, g, hh⟩
  pure (List.zipWith (fun x y => x + y) h s.words)

/-! ## Padding -/

/-- The entries from `i` up to `j`. -/
def slice (xs : List UInt8) (i j : Nat) : Option (List UInt8) :=
  if i ≤ j ∧ j ≤ xs.length then some ((xs.drop i).take (j - i)) else none

/-- Copies a slice over the entries from `i` up to `j`, which are as many. -/
def copy_from_slice (xs : List UInt8) (i j : Nat) (src : List UInt8) : Option (List UInt8) :=
  if i ≤ j ∧ j ≤ xs.length ∧ src.length = j - i then some (xs.take i ++ src ++ xs.drop j) else none

/-- The SHA-256 digest of `data`. -/
def sha256 (data : List UInt8) : Option (List UInt8) := do
  let full := data.length / 64 * 64
  let front ← slice data 0 full
  let h ← (blocks 64 front).foldlM compress H0
  let rest ← slice data full data.length
  let tail ← copy_from_slice (List.replicate 128 0) 0 rest.length rest
  let tail ← if rest.length < tail.length then some (tail.set rest.length 0x80) else none
  let tail_len := if rest.length < 56 then 64 else 128
  let bits := BitVec.ofNat 64 data.length * 8
  let tail ← copy_from_slice tail (tail_len - 8) tail_len (be_bytes 8 bits.toNat)
  let chunks ← slice tail 0 tail_len
  let h ← (blocks 64 chunks).foldlM compress h
  h.zipIdx.foldlM (fun out (word, i) =>
    copy_from_slice out (i * 4) (i * 4 + 4) (be_bytes 4 word.toNat)) (List.replicate 32 0)

end Fors.Obj

/-! ## The digest is the standard's -/

namespace Fors.Obj

open LittleEndian List Option
open Sha256 (Word be_bytes of_be_bytes blocks word)

variable {chunk : List UInt8} {w h : List Word} {s : Sha256.State} {t : Nat}

/-! ## Tables -/

def primes : List Nat := [
  2, 3, 5, 7, 11, 13, 17, 19, 23, 29, 31, 37, 41, 43, 47, 53, 59, 61, 67, 71, 73, 79, 83, 89, 97,
  101, 103, 107, 109, 113, 127, 131, 137, 139, 149, 151, 157, 163, 167, 173, 179, 181, 191, 193,
  197, 199, 211, 223, 227, 229, 233, 239, 241, 251, 257, 263, 269, 271, 277, 281, 283, 293, 307,
  311]

theorem primes_prime : ∀ t < 64, (primes.getD t 0).Prime := by
  decide +kernel

/-- No prime lies between two that follow one another. -/
theorem primes_gaps : ∀ t < 63, primes.getD t 0 < primes.getD (t + 1) 0 ∧
    Nat.count (fun k => (primes.getD t 0 + 1 + k).Prime)
      (primes.getD (t + 1) 0 - (primes.getD t 0 + 1)) = 0 := by
  decide +kernel

theorem count_primes (ht : t < 64) : Nat.count Nat.Prime (primes.getD t 0) = t := by
  induction t with
  | zero => decide
  | succ t ih =>
    obtain ⟨hlt, hgap⟩ := primes_gaps t (by omega)
    have hsplit : primes.getD (t + 1) 0 =
        primes.getD t 0 + 1 + (primes.getD (t + 1) 0 - (primes.getD t 0 + 1)) := by omega
    rw [hsplit, Nat.count_add, hgap, Nat.count_succ, if_pos (primes_prime t (by omega)),
      ih (by omega)]

theorem nth_prime (ht : t < 64) : Nat.nth Nat.Prime t = primes.getD t 0 := by
  have hcount := count_primes ht
  calc Nat.nth Nat.Prime t = Nat.nth Nat.Prime (Nat.count Nat.Prime (primes.getD t 0)) := by
        rw [hcount]
    _ = primes.getD t 0 := Nat.nth_count (primes_prime t ht)

/-- With the whole part of the root in front, a word is the root rounded down. -/
theorem K_bounds : ∀ t < 64, ∃ int < 8,
    (int * 2 ^ 32 + (K.getD t 0).toNat) ^ 3 ≤ primes.getD t 0 * 2 ^ 96 ∧
    primes.getD t 0 * 2 ^ 96 < (int * 2 ^ 32 + (K.getD t 0).toNat + 1) ^ 3 := by
  decide +kernel

theorem H0_bounds : ∀ t < 8, ∃ int < 8,
    (int * 2 ^ 32 + (H0.getD t 0).toNat) ^ 2 ≤ primes.getD t 0 * 2 ^ 64 ∧
    primes.getD t 0 * 2 ^ 64 < (int * 2 ^ 32 + (H0.getD t 0).toNat + 1) ^ 2 := by
  decide +kernel

theorem K_eq (ht : t < 64) : K[t]? = some (Sha256.K t) := by
  have hbound : t < K.length := ht
  obtain ⟨int, -, hle, hlt⟩ := K_bounds t ht
  unfold Sha256.K
  rw [nth_prime ht, Sha256.fraction_eq (by omega) hle hlt, getD_eq_getElem K 0 hbound,
    getElem?_eq_getElem hbound]

theorem root_eq (ht : t < 8) : Sha256.fraction 2 (Nat.nth Nat.Prime t) = H0.getD t 0 := by
  obtain ⟨int, -, hle, hlt⟩ := H0_bounds t ht
  rw [nth_prime (by omega), Sha256.fraction_eq (by omega) hle hlt]

theorem H0_eq : H0 = Sha256.H0.words := by
  unfold Sha256.State.words Sha256.H0
  simp only [root_eq (show 0 < 8 by omega), root_eq (show 1 < 8 by omega),
    root_eq (show 2 < 8 by omega), root_eq (show 3 < 8 by omega), root_eq (show 4 < 8 by omega),
    root_eq (show 5 < 8 by omega), root_eq (show 6 < 8 by omega), root_eq (show 7 < 8 by omega)]
  rfl

/-! ## Compression -/

/-- The words up to `t` are those of the schedule. -/
def Scheduled (chunk : List UInt8) (t : Nat) (w : List Word) : Prop :=
  w.length = 64 ∧ ∀ i < t, w[i]? = some (Sha256.W chunk i)

theorem Scheduled.set (hw : Scheduled chunk t w) (ht : t < 64) :
    Scheduled chunk (t + 1) (w.set t (Sha256.W chunk t)) := by
  obtain ⟨hlen, hget⟩ := hw
  refine ⟨?_, ?_⟩
  · rw [length_set, hlen]
  · intro i hi
    rw [getElem?_set]
    by_cases hlast : t = i
    · rw [if_pos hlast, if_pos (by omega), hlast]
    · rw [if_neg hlast]
      exact hget i (by omega)

theorem take_four {n : Nat} (hn : n + 3 < chunk.length) : ∃ b0 b1 b2 b3 : UInt8,
    chunk[n]? = some b0 ∧ chunk[n + 1]? = some b1 ∧ chunk[n + 2]? = some b2 ∧
    chunk[n + 3]? = some b3 ∧ (chunk.drop n).take 4 = [b0, b1, b2, b3] := by
  refine ⟨chunk[n], chunk[n + 1], chunk[n + 2], chunk[n + 3], getElem?_eq_getElem _,
    getElem?_eq_getElem _, getElem?_eq_getElem _, getElem?_eq_getElem _, ?_⟩
  rw [drop_eq_getElem_cons (by omega), drop_eq_getElem_cons (by omega),
    drop_eq_getElem_cons (by omega), drop_eq_getElem_cons (by omega)]
  rfl

theorem load_words_spec (hchunk : chunk.length = 64) : ∃ w, load_words chunk = some w ∧
    Scheduled chunk 16 w := by
  unfold load_words
  rw [range_eq_range']
  apply MapM.foldlM_range' (Scheduled chunk)
  · exact ⟨length_replicate, fun i hi => absurd hi (Nat.not_lt_zero i)⟩
  · intro i w _ hi hw
    obtain ⟨b0, b1, b2, b3, h0, h1, h2, h3, hfour⟩ := @take_four chunk (i * 4)
      (by omega)
    have hword : BitVec.ofNat 32 (of_be_bytes [b0, b1, b2, b3]) = Sha256.W chunk i := by
      rw [Sha256.W, if_pos (by omega), word, Nat.mul_comm 4 i, hfour]
    refine ⟨w.set i (Sha256.W chunk i), ?_, hw.set (by omega)⟩
    rw [h0, h1, h2, h3, ← hword]
    rfl

theorem expand_words_spec (hw : Scheduled chunk 16 w) : ∃ w', expand_words w = some w' ∧
    Scheduled chunk 64 w' := by
  unfold expand_words
  apply MapM.foldlM_range' (Scheduled chunk) hw
  intro i w hlow hi hw
  have hword : Sha256.W chunk i = Sha256.W chunk (i - 16) + Sha256.sigma0 (Sha256.W chunk (i - 15)) +
      Sha256.W chunk (i - 7) + Sha256.sigma1 (Sha256.W chunk (i - 2)) := by
    rw [Sha256.W, if_neg (by omega)]
    ac_rfl
  refine ⟨w.set i (Sha256.W chunk i), ?_, hw.set (by omega)⟩
  rw [hw.2 (i - 15) (by omega), hw.2 (i - 2) (by omega), hw.2 (i - 16) (by omega),
    hw.2 (i - 7) (by omega), hword]
  rfl

theorem turn_spec (hw : Scheduled chunk 64 w) (ht : t < 64) (s : Sha256.State) :
    turn w s t = some (Sha256.round (Sha256.K t) (Sha256.W chunk t) s) := by
  unfold turn
  rw [K_eq ht, hw.2 t ht]
  rfl

/-- A chunk of a block's length is compressed, and as the standard has it. -/
theorem compress_spec (hchunk : chunk.length = 64) (s : Sha256.State) :
    compress s.words chunk = some (Sha256.compression s chunk).words := by
  obtain ⟨w0, hload, hw0⟩ := load_words_spec hchunk
  obtain ⟨w, hexpand, hw⟩ := expand_words_spec hw0
  have hturns : ∃ y, (List.range' 0 64).foldlM (turn w) s = some y ∧
      y = Sha256.rounds chunk s (0 + 64) := by
    apply MapM.foldlM_range' (fun t y => y = Sha256.rounds chunk s t)
    · rfl
    · rintro t y - ht rfl
      exact ⟨_, turn_spec hw (by omega) _, rfl⟩
  obtain ⟨y, hrun, rfl⟩ := hturns
  rw [← range_eq_range'] at hrun
  unfold compress
  rw [hload, Option.bind_eq_bind, Option.bind_some, hexpand, Option.bind_eq_bind, Option.bind_some]
  show ((List.range 64).foldlM (turn w) s).bind _ = _
  rw [hrun]
  simp only [Option.bind_some, Option.pure_def, Sha256.State.words, zipWith_cons_cons,
    zipWith_nil_left, Sha256.compression, BitVec.add_comm]

theorem foldlM_compress {chunks : List (List UInt8)} (hchunks : ∀ c ∈ chunks, c.length = 64)
    (s : Sha256.State) :
    chunks.foldlM compress s.words = some (chunks.foldl Sha256.compression s).words := by
  induction chunks generalizing s with
  | nil => rfl
  | cons c chunks ih =>
    obtain ⟨hc, hchunks⟩ := forall_mem_cons.mp hchunks
    rw [foldlM_cons, compress_spec hc, bind_eq_bind, bind_some, ih hchunks]
    rfl

/-! ## Padding -/

variable {data xs src : List UInt8} {i j : Nat}

theorem slice_eq (hij : i ≤ j) (hj : j ≤ xs.length) :
    slice xs i j = some ((xs.drop i).take (j - i)) :=
  if_pos ⟨hij, hj⟩

theorem copy_from_slice_eq (hij : i ≤ j) (hj : j ≤ xs.length) (hsrc : src.length = j - i) :
    copy_from_slice xs i j src = some (xs.take i ++ src ++ xs.drop j) :=
  if_pos ⟨hij, hj, hsrc⟩

@[simp] theorem length_be_bytes (len v : Nat) : (be_bytes len v).length = len := by
  unfold Sha256.be_bytes
  rw [length_reverse, length_le_bytes]

/-- What a hash of a message that ends with `rest` works on behind the whole blocks. -/
def last_blocks (rest : List UInt8) (bits : Nat) : List UInt8 :=
  rest ++ 0x80 :: List.replicate (Sha256.zeros rest.length) 0 ++ be_bytes 8 bits

/-- The tail of two blocks, as it is filled, begins with the last blocks. -/
theorem tail_spec {rest : List UInt8} {tail_len : Nat} (hrest : rest.length < 64)
    (htail : tail_len = if rest.length < 56 then 64 else 128) (bits : Nat) :
    ∃ tail0 tail, copy_from_slice (List.replicate 128 0) 0 rest.length rest = some tail0 ∧
      rest.length < tail0.length ∧
      copy_from_slice (tail0.set rest.length 0x80) (tail_len - 8) tail_len (be_bytes 8 bits) =
        some tail ∧
      slice tail 0 tail_len = some (last_blocks rest bits) ∧
      (last_blocks rest bits).length = tail_len := by
  have hlen : tail_len = rest.length + Sha256.zeros rest.length + 9 ∧ tail_len ≤ 128 := by
    unfold Sha256.zeros
    split at htail <;> omega
  obtain ⟨hlen, hle⟩ := hlen
  have hset : (rest ++ List.replicate (128 - rest.length) 0).set rest.length 0x80 =
      rest ++ 0x80 :: List.replicate (127 - rest.length) 0 := by
    obtain ⟨n, hn⟩ : ∃ n, 128 - rest.length = n + 1 := ⟨127 - rest.length, by omega⟩
    rw [set_append_right _ _ le_rfl, Nat.sub_self, hn, replicate_succ, set_cons_zero]
    congr 3
    omega
  have htake : (rest ++ 0x80 :: List.replicate (127 - rest.length) 0).take (tail_len - 8) =
      rest ++ 0x80 :: List.replicate (Sha256.zeros rest.length) 0 := by
    have hcut : tail_len - 8 = rest.length + (Sha256.zeros rest.length + 1) := by omega
    rw [hcut, take_length_add_append, take_succ_cons, take_replicate]
    congr 3
    omega
  have hlast : (last_blocks rest bits).length = tail_len := by
    unfold last_blocks
    rw [length_append, length_append, length_cons, length_replicate,
      length_be_bytes]
    omega
  refine ⟨rest ++ List.replicate (128 - rest.length) 0, last_blocks rest bits ++
    (rest ++ 0x80 :: List.replicate (127 - rest.length) 0).drop tail_len, ?_, ?_, ?_, ?_, hlast⟩
  · rw [copy_from_slice_eq (Nat.zero_le _) (by rw [length_replicate]; omega) rfl,
      take_zero, nil_append, drop_replicate]
  · rw [length_append, length_replicate]
    omega
  · rw [hset, copy_from_slice_eq (by omega) _ (by rw [length_be_bytes]; omega), htake]
    · rfl
    · rw [length_append, length_cons, length_replicate]
      omega
  · rw [slice_eq (Nat.zero_le _) (by rw [length_append]; omega), drop_zero, Nat.sub_zero,
      ← hlast, take_left]

/-- The words behind those that are written fill what is left of the digest. -/
theorem out_spec {done : List UInt8} {n : Nat} (hdone : done.length = n * 4) (h : List Word) :
    (h.zipIdx n).foldlM (fun out (word, i) =>
      copy_from_slice out (i * 4) (i * 4 + 4) (be_bytes 4 word.toNat))
        (done ++ List.replicate (h.length * 4) 0) =
      some (done ++ h.flatMap fun w => be_bytes 4 w.toNat) := by
  induction h generalizing done n with
  | nil => rfl
  | cons w h ih =>
    have hout : (done ++ List.replicate ((w :: h).length * 4) 0).length = n * 4 + (h.length + 1) * 4 := by
      rw [length_append, length_replicate, hdone, length_cons]
    have hdrop : (done ++ List.replicate ((w :: h).length * 4) (0 : UInt8)).drop (n * 4 + 4) =
        List.replicate (h.length * 4) 0 := by
      rw [← hdone, drop_length_add_append, drop_replicate, length_cons]
      congr 1
      omega
    have hcopy : copy_from_slice (done ++ List.replicate ((w :: h).length * 4) 0) (n * 4)
        (n * 4 + 4) (be_bytes 4 w.toNat) =
          some (done ++ be_bytes 4 w.toNat ++ List.replicate (h.length * 4) 0) := by
      rw [copy_from_slice_eq (by omega) (by rw [hout]; omega) (by rw [length_be_bytes]; omega),
        take_left' hdone, hdrop]
    have hnext : (done ++ be_bytes 4 w.toNat).length = (n + 1) * 4 := by
      rw [length_append, length_be_bytes, hdone, Nat.succ_mul]
    rw [zipIdx_cons, foldlM_cons]
    show (copy_from_slice _ (n * 4) (n * 4 + 4) (be_bytes 4 w.toNat)).bind _ = _
    rw [hcopy, bind_some, flatMap_cons, ← append_assoc]
    exact ih hnext

/-- The message is padded in place, whatever its length. -/
theorem sha256_run (data : List UInt8) : sha256 data =
    some (((blocks 64 (data ++ 0x80 :: List.replicate (Sha256.zeros data.length) 0 ++
      be_bytes 8 (BitVec.ofNat 64 data.length * 8).toNat)).foldl Sha256.compression
        Sha256.H0).words.flatMap fun w => be_bytes 4 w.toNat) := by
  have hfull : data.length / 64 * 64 ≤ data.length := Nat.div_mul_le_self _ _
  have hfront : (data.take (data.length / 64 * 64)).length = data.length / 64 * 64 := by
    rw [length_take, Nat.min_eq_left hfull]
  have hrest : (data.drop (data.length / 64 * 64)).length = data.length % 64 := by
    rw [length_drop]
    omega
  have hzeros : Sha256.zeros (data.length % 64) = Sha256.zeros data.length := by
    unfold Sha256.zeros
    rw [Nat.mod_mod]
  obtain ⟨tail0, tail, hcopy, hlen, hbits, hslice, hlast⟩ :=
    @tail_spec (data.drop (data.length / 64 * 64)) _ (by omega) rfl
      (BitVec.ofNat 64 data.length * 8).toNat
  have hsplit : data ++ 0x80 :: List.replicate (Sha256.zeros data.length) 0 ++
      be_bytes 8 (BitVec.ofNat 64 data.length * 8).toNat =
        data.take (data.length / 64 * 64) ++ last_blocks (data.drop (data.length / 64 * 64))
          (BitVec.ofNat 64 data.length * 8).toNat := by
    unfold last_blocks
    rw [hrest, hzeros, ← append_assoc, ← append_assoc, take_append_drop]
  have hdvd : 64 ∣ (data.take (data.length / 64 * 64)).length := by
    rw [hfront]
    exact Nat.dvd_mul_left 64 _
  rw [hsplit, Sha256.blocks_append hdvd, foldl_append]
  have hout := @out_spec [] 0 rfl ((blocks 64 (last_blocks (data.drop
    (data.length / 64 * 64)) (BitVec.ofNat 64 data.length * 8).toNat)).foldl Sha256.compression
      ((blocks 64 (data.take (data.length / 64 * 64))).foldl Sha256.compression Sha256.H0)).words
  rw [nil_append, nil_append] at hout
  rw [← hout]
  unfold sha256
  simp only [slice_eq (Nat.zero_le _) hfull, slice_eq hfull le_rfl, drop_zero, Nat.sub_zero,
    H0_eq, foldlM_compress fun c => Sha256.length_of_mem_blocks, bind_eq_bind,
    bind_some, take_of_length_le (le_of_eq (length_drop))]
  simp only [hcopy, bind_some, hlen, if_true, hbits, hslice]
  rfl

/-- No index is out of range, and the digest of a message is the standard's. -/
theorem sha256_exact (data : List UInt8) : (sha256 data).isSome = true ∧
    (data.length < 2 ^ 61 → sha256 data = some (Sha256.digest data)) := by
  refine ⟨?_, fun hlen => ?_⟩
  · rw [sha256_run]
    rfl
  · have hbits : (BitVec.ofNat 64 data.length * 8).toNat = 8 * data.length := by
      rw [BitVec.toNat_mul, BitVec.toNat_ofNat, Nat.mod_eq_of_lt (show data.length < 2 ^ 64 by omega)]
      show data.length * 8 % 2 ^ 64 = _
      omega
    rw [sha256_run, hbits]
    rfl

/-- A whole block, and a rest that leaves no room for the length: the tail has two blocks. -/
theorem sha256_long : (sha256 (replicate 120 97)).isSome = true ∧
    sha256 (replicate 120 97) = some (Sha256.digest (replicate 120 97)) :=
  ⟨(sha256_exact _).1, (sha256_exact _).2 (by decide)⟩

example : sha256 [97, 98, 99] = some [
    0xba, 0x78, 0x16, 0xbf, 0x8f, 0x01, 0xcf, 0xea, 0x41, 0x41, 0x40, 0xde, 0x5d, 0xae, 0x22, 0x23,
    0xb0, 0x03, 0x61, 0xa3, 0x96, 0x17, 0x7a, 0x9c, 0xb4, 0x10, 0xff, 0x61, 0xf2, 0x00, 0x15,
    0xad] := by
  decide +kernel

end Fors.Obj
