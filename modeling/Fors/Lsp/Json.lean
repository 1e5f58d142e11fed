import Fors.Interp.Arith
import Fors.Interp.Host
import Fors.Lib.Decimals
import Fors.Lib.Outcomes
import Fors.Lib.Utf8

/-!
# JSON, by hand

Models `crates/fors-lsp/src/json.rs`: `Json`, its writer (`write`, `write_string`, the numbers), and
the reader `parse` with every method of `Parser`. The reader works on bytes with one byte of
lookahead and a counter for the nesting; numbers, hexadecimal digits and raw text go through the
standard library's readers.

The cursor is kept as what is left of the input, the slice `b[i..]`: every step of the source that
moves `i` has just seen the bytes it moves over, or returns `None` at once. The reader's unsigned
differences are checked, and panic.
-/

namespace Fors.Lsp

open Floats Numerals Interp Outcomes

/-- Nesting deeper than this is rejected by the reader. -/
def MAX_DEPTH : Nat := 256

inductive Json where
  | Null
  | Bool (b : Bool)
  | Num (n : F64)
  | Str (s : List Char)
  | Arr (v : List Json)
  | Obj (v : List (List Char × Json))

/-! ## Writing -/

def fract (x : F64) : F64 :=
  let t := x.trunc
  x.add ⟨!t.neg, t.mag, t.mag_lt⟩

def abs (x : F64) : F64 :=
  ⟨false, x.mag, x.mag_lt⟩

/-- `as i64`. -/
def as_i64 (x : F64) : Int :=
  x.as_int (-2 ^ 63) (2 ^ 63 - 1)

/-- `{:04x}`. -/
def hex04 (n : Nat) : List Char :=
  let digits := Nat.toDigits 16 n
  List.replicate (4 - digits.length) '0' ++ digits

def write_char (c : Char) : List Char :=
  if c = '"' then ['\\', '"']
  else if c = '\\' then ['\\', '\\']
  else if c = '\n' then ['\\', 'n']
  else if c = '\r' then ['\\', 'r']
  else if c = '\t' then ['\\', 't']
  else if c.toNat < 0x20 then '\\' :: 'u' :: hex04 c.toNat
  else [c]

def write_string (s : List Char) : List Char :=
  '"' :: s.flatMap write_char ++ ['"']

section
variable (display : F64 → List Char)

/-- A number: `display` is the standard library's `{}` of a float. -/
def write_num (n : F64) : List Char :=
  if ¬n.Finite then "null".toList
  else if (fract n).feq (.of_int 0) && (abs n).lt (.of_int 9000000000000000) then
    decimal (as_i64 n)
  else display n

mutual

def Json.write : Json → List Char
  | .Null => "null".toList
  | .Bool true => "true".toList
  | .Bool false => "false".toList
  | .Num n => write_num display n
  | .Str s => write_string s
  | .Arr v => '[' :: write_elements 0 v ++ [']']
  | .Obj v => '{' :: write_members 0 v ++ ['}']

/-- The elements from the `i`-th on. -/
def write_elements (i : Nat) : List Json → List Char
  | [] => []
  | e :: v => (if 0 < i then [','] else []) ++ e.write ++ write_elements (i + 1) v

def write_members (i : Nat) : List (List Char × Json) → List Char
  | [] => []
  | (k, e) :: v =>
    (if 0 < i then [','] else []) ++ write_string k ++ ':' :: e.write ++ write_members (i + 1) v

end

end

/-! ## Reading -/

structure Parser where
  rest : List UInt8
  depth : Nat

/-- Why there is no value: the reader's `None`, or more steps to go than the model was given. -/
inductive Stop where
  | none
  | fuel

/-- A panic is an outcome of its own. -/
abbrev Read (α : Type) := Outcome Stop α

/-- `?` of an `Option`. -/
def some_of {α : Type} (x : Option α) : Read α :=
  .of_option x .none

def is_ws (b : UInt8) : Bool :=
  b == ' '.toUInt8 || b == '\t'.toUInt8 || b == '\n'.toUInt8 || b == '\r'.toUInt8

/-- The length of a character by its first byte; 4 for a byte that starts none. -/
def utf8_len (b : UInt8) : Nat :=
  if b ≤ 0x7F then 1
  else if 0xC0 ≤ b ∧ b ≤ 0xDF then 2
  else if 0xE0 ≤ b ∧ b ≤ 0xEF then 3
  else 4

/-- `char::from_u32`. -/
def from_u32 (n : Nat) : Option Char :=
  if n.isValidChar then some (Char.ofNat n) else none

/-- The escapes of one letter. -/
def short_escape (e : UInt8) : Option Char :=
  if e = '"'.toUInt8 then some '"'
  else if e = '\\'.toUInt8 then some '\\'
  else if e = '/'.toUInt8 then some '/'
  else if e = 'b'.toUInt8 then some '\x08'
  else if e = 'f'.toUInt8 then some '\x0c'
  else if e = 'n'.toUInt8 then some '\n'
  else if e = 'r'.toUInt8 then some '\r'
  else if e = 't'.toUInt8 then some '\t'
  else none

namespace Parser

def ws (p : Parser) : Parser :=
  { p with rest := p.rest.dropWhile is_ws }

/-- The parser behind the byte, if it is the next one. -/
def eat (p : Parser) (c : UInt8) : Option Parser :=
  match p.rest with
  | [] => none
  | b :: rest => if b = c then some { p with rest } else none

def lit (p : Parser) (s : List UInt8) (v : Json) : Option (Json × Parser) :=
  if s.isPrefixOf p.rest then some (v, { p with rest := p.rest.drop s.length }) else none

def number (p : Parser) : Option (Json × Parser) := do
  let sign := if p.rest.head? = some '-'.toUInt8 then 1 else 0
  let len := sign + ((p.rest.drop sign).takeWhile Decimal.is_numeral).length
  let n : F64 ← Decimal.from_str (p.rest.take len)
  if n.Finite then some (.Num n, { p with rest := p.rest.drop len }) else none

def hex4 (p : Parser) : Option (Nat × Parser) :=
  if p.rest.length < 4 then none
  else do
    let s ← Utf8.decode (p.rest.take 4)
    let n ← from_str_radix 0 (2 ^ 32 - 1) 16 s
    some (n.toNat, { p with rest := p.rest.drop 4 })

/-- The escape behind `\u`; a character beyond the first plane is a pair of them. -/
def unicode (p : Parser) : Read (Char × Parser) := do
  let (hi, p) ← some_of p.hex4
  if 0xD800 ≤ hi ∧ hi < 0xDC00 then
    let p ← some_of (p.eat '\\'.toUInt8)
    let p ← some_of (p.eat 'u'.toUInt8)
    let (lo, p) ← some_of p.hex4
    if 0xDC00 ≤ lo ∧ lo < 0xE000 then
      let high ← sub hi 0xD800
      let low ← sub lo 0xDC00
      let c ← some_of (from_u32 (0x10000 + high <<< 10 + low))
      return (c, p)
    else .refused .none
  else
    -- a lone low surrogate fails in `from_u32`
    let c ← some_of (from_u32 hi)
    return (c, p)

/-- What follows a backslash. -/
def escape (p : Parser) : Read (Char × Parser) :=
  match p.rest with
  | [] => .refused .none
  | e :: rest =>
    match short_escape e with
    | some c => .value (c, { p with rest })
    | none => if e = 'u'.toUInt8 then unicode { p with rest } else .refused .none

/-- Raw UTF-8 passes through untouched; `c` is the next byte. -/
def raw (p : Parser) (c : UInt8) : Option (List Char × Parser) :=
  let len := utf8_len c
  if p.rest.length < len then none
  else do
    let s ← Utf8.decode (p.rest.take len)
    some (s, { p with rest := p.rest.drop len })

/-- The rest of a string, behind `s`, in at most `fuel` steps. -/
def chars : Nat → List Char → Parser → Read (List Char × Parser)
  | 0, _, _ => .refused .fuel
  | fuel + 1, s, p =>
    match p.rest with
    | [] => .refused .none
    | c :: rest =>
      if c = '"'.toUInt8 then .value (s, { p with rest })
      else if c = '\\'.toUInt8 then do
        let (e, p) ← escape { p with rest }
        chars fuel (s ++ [e]) p
      else do
        let (cs, p) ← some_of (p.raw c)
        chars fuel (s ++ cs) p

def string (fuel : Nat) (p : Parser) : Read (List Char × Parser) := do
  let p ← some_of (p.eat '"'.toUInt8)
  p.chars fuel []

/-- `depth -= 1`. -/
def leave (p : Parser) : Read Parser := do
  let depth ← sub p.depth 1
  return { p with depth }

mutual

def value : Nat → Parser → Read (Json × Parser)
  | 0, _ => .refused .fuel
  | fuel + 1, p =>
    let p := p.ws
    match p.rest with
    | [] => .refused .none
    | b :: rest =>
      if b = 'n'.toUInt8 then some_of (p.lit (Utf8.bytes "null") .Null)
      else if b = 't'.toUInt8 then some_of (p.lit (Utf8.bytes "true") (.Bool true))
      else if b = 'f'.toUInt8 then some_of (p.lit (Utf8.bytes "false") (.Bool false))
      else if b = '"'.toUInt8 then do
        let (s, p) ← string fuel p
        return (.Str s, p)
      else if b = '['.toUInt8 then
        let p : Parser := { rest, depth := p.depth + 1 }
        if MAX_DEPTH < p.depth then .refused .none
        else
          match p.ws.eat ']'.toUInt8 with
          | some p => do
            let p ← p.leave
            return (.Arr [], p)
          | none => elements fuel [] p.ws
      else if b = '{'.toUInt8 then
        let p : Parser := { rest, depth := p.depth + 1 }
        if MAX_DEPTH < p.depth then .refused .none
        else
          match p.ws.eat '}'.toUInt8 with
          | some p => do
            let p ← p.leave
            return (.Obj [], p)
          | none => members fuel [] p.ws
      else some_of p.number

/-- The elements of an array behind `v`. -/
def elements : Nat → List Json → Parser → Read (Json × Parser)
  | 0, _, _ => .refused .fuel
  | fuel + 1, v, p => do
    let (e, p) ← value fuel p
    let p := p.ws
    match p.eat ','.toUInt8 with
    | some p => elements fuel (v ++ [e]) p
    | none =>
      let p ← p.leave
      let p ← some_of (p.eat ']'.toUInt8)
      return (.Arr (v ++ [e]), p)

/-- The members of an object behind `v`. -/
def members : Nat → List (List Char × Json) → Parser → Read (Json × Parser)
  | 0, _, _ => .refused .fuel
  | fuel + 1, v, p => do
    let (k, p) ← string fuel p.ws
    let p ← some_of (p.ws.eat ':'.toUInt8)
    let (e, p) ← value fuel p
    let p := p.ws
    match p.eat ','.toUInt8 with
    | some p => members fuel (v ++ [(k, e)]) p
    | none =>
      let p ← p.leave
      let p ← some_of (p.eat '}'.toUInt8)
      return (.Obj (v ++ [(k, e)]), p)

end

end Parser

/-- Reading one value in at most `fuel` steps of nesting, elements and characters. -/
def parse_within (fuel : Nat) (bytes : List UInt8) : Read Json := do
  let (v, p) ← Parser.value fuel (Parser.ws ⟨bytes, 0⟩)
  if p.ws.rest = [] then .value v else .refused .none

/-- Two steps for every byte are enough. -/
def parse (bytes : List UInt8) : Option Json :=
  (parse_within (2 * bytes.length + 1) bytes).ok

end Fors.Lsp
