import Mathlib.Data.Int.Notation
import Mathlib.Algebra.Group.Nat.Defs
import Mathlib.Algebra.Group.Int.Defs

/-!
# Line diff and text edits

What `fors fmt --check` prints and the language server sends back for a formatting request: a
line-granular Myers diff over 64-bit line hashes, with a bounded edit distance. A read outside an
array has no value here, and neither has a loop that would not end.

Source: `crates/fors-fmt/src/diff.rs`.
-/

namespace Fors.Fmt

/-- A replacement of `source[start..end]` by `new_text`. -/
structure TextEdit where
  start : UInt32
  end_ : UInt32
  new_text : List UInt8
  deriving DecidableEq

def slice {α : Type} (xs : List α) (i j : Nat) : Option (List α) :=
  if i ≤ j ∧ j ≤ xs.length then some ((xs.drop i).take (j - i)) else none

/-- The byte offset of the start of each line, and the length of the buffer at the end. -/
def line_starts (src : List UInt8) : List Nat :=
  let v := src.zipIdx.foldl (fun v b => if b.1 = '\n'.toUInt8 then v ++ [b.2 + 1] else v) [0]
  -- a buffer that ends with a newline has no empty trailing line
  if v.getLast? ≠ some src.length then v ++ [src.length] else v

def line_hash (line : List UInt8) : UInt64 :=
  line.foldl (fun h b => (h ^^^ b.toUInt64) * 0x100000001b3) 0xcbf29ce484222325

def hashes (src : List UInt8) (starts : List Nat) : Option (List UInt64) :=
  (starts.zip starts.tail).mapM fun w => (slice src w.1 w.2).map line_hash

/-! ## The search -/

/-- A cast of an `isize`. -/
def as_usize (x : Int) : Nat :=
  if 0 ≤ x then x.toNat else (2 ^ 64 + x).toNat

/-- The element before an index; at index 0 the subtraction fails. -/
def read_before (v : List Int) (idx : Nat) : Option Int :=
  if idx = 0 then none else v[idx - 1]?

def enter (v : List Int) (idx : Nat) (di k : Int) : Option Int :=
  if k = -di then v[idx + 1]?
  else if k ≠ di then do
    let left ← read_before v idx
    let right ← v[idx + 1]?
    pure (if left < right then right else left + 1)
  else (read_before v idx).map (· + 1)

def follow (a b : List UInt64) : Nat → Int → Int → Option (Int × Int)
  | 0, _, _ => none
  | fuel + 1, x, y =>
    if as_usize x < a.length ∧ as_usize y < b.length then do
      let p ← a[as_usize x]?
      let q ← b[as_usize y]?
      if p = q then follow a b fuel (x + 1) (y + 1) else pure (x, y)
    else some (x, y)

/-! ### The way back -/

/-- An entry of a window, which is indexed by `k + dd`, and 0 outside it. -/
def at_ (vv : List Int) (ddi k : Int) : Int :=
  let i := k + ddi
  if i < 0 ∨ vv.length ≤ as_usize i then 0 else vv.getD (as_usize i) 0

def prev_diagonal (vv : List Int) (ddi kk : Int) : Int :=
  if kk = -ddi ∨ (kk ≠ ddi ∧ at_ vv ddi (kk - 1) < at_ vv ddi (kk + 1)) then kk + 1 else kk - 1

def walk_back (prev_x prev_y : Int) :
    Nat → Int → Int → List (Nat × Nat) → Option (List (Nat × Nat))
  | 0, _, _, _ => none
  | fuel + 1, px, py, pairs =>
    if prev_x < px ∧ prev_y < py then
      walk_back prev_x prev_y fuel (px - 1) (py - 1)
        (pairs ++ [(as_usize (px - 1), as_usize (py - 1))])
    else some pairs

def backtrack (trace : List (List Int)) :
    Nat → Int → Int → List (Nat × Nat) → Option (List (Nat × Nat))
  | 0, _, _, pairs => some pairs.reverse
  | dd + 1, px, py, pairs => do
    let vv ← (trace)[dd]?
    let prev_k := prev_diagonal vv dd (px - py)
    let prev_x := at_ vv dd prev_k
    let pairs ← walk_back prev_x (prev_x - prev_k) (as_usize px + 1) px py pairs
    backtrack trace dd prev_x (prev_x - prev_k) pairs

/-! ### The way there -/

/-- What a round leaves: the furthest points, or the pairs where it came through. -/
inductive Round where
  | next (v : List Int)
  | found (pairs : List (Nat × Nat))

/-- The diagonals of a round from `k` on. -/
def diagonals (a b : List UInt64) (trace : List (List Int)) (offset : Int) (d : Nat) :
    Nat → Int → List Int → Option Round
  | 0, _, _ => none
  | fuel + 1, k, v =>
    if k ≤ d then do
      let idx := as_usize (k + offset)
      let x ← enter v idx d k
      let (x, y) ← follow a b (a.length + 1) x (x - k)
      let v ← if idx < v.length then some (v.set idx x) else none
      if a.length ≤ as_usize x ∧ b.length ≤ as_usize y then
        (backtrack trace (d + 1) a.length b.length []).map .found
      else diagonals a b trace offset d fuel (k + 2) v
    else some (.next v)

/-- The rounds from `d` on. -/
def rounds (a b : List UInt64) (offset : Int) :
    Nat → Nat → List Int → List (List Int) → Option (Option (List (Nat × Nat)))
  | 0, _, _, _ => some none
  | left + 1, d, v, trace => do
    let window ← slice v (as_usize (offset - d)) (as_usize (offset + d) + 1)
    let trace := trace ++ [window]
    match ← diagonals a b trace offset d (d + 2) (-d) v with
    | .next v => rounds a b offset left (d + 1) v trace
    | .found pairs => some (some pairs)

/-- Matched line pairs, in increasing order; none if the distance is past the bound. -/
def myers (a b : List UInt64) (max_d : Nat) : Option (Option (List (Nat × Nat))) :=
  let max := a.length + b.length
  rounds a b max (min max max_d + 1) 0 (List.replicate (2 * max + 2) 0) []

/-! ## The edits -/

def flush (oa nb : List Nat) (new : List UInt8) (ai aj bi bj : Nat) (edits : List TextEdit) :
    Option (List TextEdit) :=
  if ai = aj ∧ bi = bj then some edits
  else do
    let start ← oa[ai]?
    let end_ ← oa[aj]?
    let i ← nb[bi]?
    let j ← nb[bj]?
    let text ← slice new i j
    pure (edits ++ [⟨start.toUInt32, end_.toUInt32, text⟩])

def flush_pairs (oa nb : List Nat) (new : List UInt8) (n m : Nat) :
    List (Nat × Nat) → Nat → Nat → List TextEdit → Option (List TextEdit)
  | [], ai, bi, edits => flush oa nb new ai n bi m edits
  | (x, y) :: pairs, ai, bi, edits => do
    let edits ← flush oa nb new ai x bi y edits
    flush_pairs oa nb new n m pairs (x + 1) (y + 1) edits

/-- The largest distance that is searched for. -/
def BOUND : Nat :=
  2048

/-- The edits that turn `old` into `new`, one per changed run of lines. -/
def diff (old new : List UInt8) : Option (List TextEdit) :=
  if old = new then some []
  else do
    let oa := line_starts old
    let nb := line_starts new
    let ha ← hashes old oa
    let hb ← hashes new nb
    match ← myers ha hb BOUND with
    | some pairs => flush_pairs oa nb new ha.length hb.length pairs 0 0 []
    -- too different to diff cheaply: one edit for the whole buffer
    | none => some [⟨0, old.length.toUInt32, new⟩]

end Fors.Fmt
