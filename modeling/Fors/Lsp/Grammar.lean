import Fors.Lsp.Json

/-!
# The grammar of JSON texts

Which bytes stand for which value, over a lexicon: the numbers, the characters that may stand for
themselves in a string and the hexadecimal escapes. One lexicon is that of RFC 8259, the other is
what the standard library's readers take.
-/

namespace Fors.Lsp

open Floats

/-! ## Lexicons -/

structure Lexicon where
  num : List UInt8 → Prop
  raw : Char → Prop
  hex : List UInt8 → Nat → Prop

def hex_digit (b : UInt8) : Option Nat :=
  if '0'.toUInt8 ≤ b ∧ b ≤ '9'.toUInt8 then some (b.toNat - '0'.toNat)
  else if 'a'.toUInt8 ≤ b ∧ b ≤ 'f'.toUInt8 then some (b.toNat - 'a'.toNat + 10)
  else if 'A'.toUInt8 ≤ b ∧ b ≤ 'F'.toUInt8 then some (b.toNat - 'A'.toNat + 10)
  else none

/-- A row of `k` hexadecimal digits and the number it stands for. -/
def HexDigits (k : Nat) (h : List UInt8) (n : Nat) : Prop :=
  h.length = k ∧ ∃ ds, h.mapM hex_digit = some ds ∧ n = ds.foldl (fun n d => 16 * n + d) 0

def Digits (ds : List UInt8) : Prop :=
  ds ≠ [] ∧ ds.all Decimal.is_digit

/-- `minus? int frac? exp?`. -/
structure Number (t : List UInt8) : Prop where
  parts : ∃ minus int frac exp, t = minus ++ int ++ frac ++ exp ∧
    (minus = [] ∨ minus = ['-'.toUInt8]) ∧
    (int = ['0'.toUInt8] ∨ Digits int ∧ int.head? ≠ some '0'.toUInt8) ∧
    (frac = [] ∨ ∃ ds, Digits ds ∧ frac = '.'.toUInt8 :: ds) ∧
    (exp = [] ∨ ∃ e sign ds, Digits ds ∧ (e = 'e'.toUInt8 ∨ e = 'E'.toUInt8) ∧
      (sign = [] ∨ sign = ['-'.toUInt8] ∨ sign = ['+'.toUInt8]) ∧ exp = e :: sign ++ ds)

/-- RFC 8259. -/
def rfc : Lexicon where
  num := Number
  raw c := 0x20 ≤ c.toNat
  hex := HexDigits 4

/-- The float reader's numerals, every raw character, and a radix reader's sign. -/
def lax : Lexicon where
  num t := ∀ b ∈ t, Decimal.is_numeral b = true
  raw _ := True
  hex h n := HexDigits 4 h n ∨ ∃ ds, h = '+'.toUInt8 :: ds ∧ HexDigits 3 ds n

/-! ## Texts -/

/-- Optional whitespace. -/
def Ws (w : List UInt8) : Prop :=
  ∀ b ∈ w, is_ws b = true

def ESCAPES : List (UInt8 × Char) :=
  [('"'.toUInt8, '"'), ('\\'.toUInt8, '\\'), ('/'.toUInt8, '/'), ('b'.toUInt8, '\x08'),
    ('f'.toUInt8, '\x0c'), ('n'.toUInt8, '\n'), ('r'.toUInt8, '\r'), ('t'.toUInt8, '\t')]

section
variable (L : Lexicon)

/-- An escape by a code unit. -/
def Unit (s : List UInt8) (n : Nat) : Prop :=
  ∃ h, s = '\\'.toUInt8 :: 'u'.toUInt8 :: h ∧ L.hex h n

/-- One character of a string. -/
inductive Chr : List UInt8 → Char → Prop where
  | raw {c : Char} : L.raw c → c ≠ '"' → c ≠ '\\' → Chr (Utf8.encode [c]) c
  | short {e : UInt8} {c : Char} : (e, c) ∈ ESCAPES → Chr ['\\'.toUInt8, e] c
  | unit {s : List UInt8} {c : Char} : Unit L s c.toNat → Chr s c
  | pair {s t : List UInt8} {hi lo : Nat} {c : Char} : Unit L s hi → Unit L t lo →
      0xD800 ≤ hi → hi < 0xDC00 → 0xDC00 ≤ lo → lo < 0xE000 →
      c.toNat = 0x10000 + (hi - 0xD800) * 0x400 + (lo - 0xDC00) → Chr (s ++ t) c

inductive Chars : List UInt8 → List Char → Prop where
  | nil : Chars [] []
  | cons {s t : List UInt8} {c : Char} {cs : List Char} :
      Chr L s c → Chars t cs → Chars (s ++ t) (c :: cs)

inductive Str : List UInt8 → List Char → Prop where
  | quoted {s : List UInt8} {cs : List Char} :
      Chars L s cs → Str ('"'.toUInt8 :: s ++ ['"'.toUInt8]) cs

/-- A value without parts. -/
inductive Atom : List UInt8 → Json → Prop where
  | null : Atom (Utf8.bytes "null") .Null
  | true : Atom (Utf8.bytes "true") (.Bool true)
  | false : Atom (Utf8.bytes "false") (.Bool false)
  | num {t : List UInt8} {n : Interp.F64} :
      L.num t → Decimal.from_str t = some n → n.Finite → Atom t (.Num n)
  | str {s : List UInt8} {cs : List Char} : Str L s cs → Atom s (.Str cs)

end

section
variable {α : Type} (P : List UInt8 → α → Prop)

/-- With whitespace on both sides. -/
inductive Padded : List UInt8 → α → Prop where
  | mk {w s w' : List UInt8} {a : α} : Ws w → P s a → Ws w' → Padded (w ++ s ++ w') a

/-- One or more, with commas between them. -/
inductive Seq : List UInt8 → List α → Prop where
  | one {s : List UInt8} {a : α} : P s a → Seq s [a]
  | cons {s t : List UInt8} {a : α} {v : List α} :
      P s a → Seq t v → Seq (s ++ ','.toUInt8 :: t) (a :: v)

/-- None or more, between two brackets. -/
inductive Listed (opening closing : UInt8) : List UInt8 → List α → Prop where
  | none {w : List UInt8} : Ws w → Listed opening closing (opening :: w ++ [closing]) []
  | some {s : List UInt8} {v : List α} :
      Seq P s v → Listed opening closing (opening :: s ++ [closing]) v

end

section
variable (L : Lexicon)

/-- A name, a colon and a value. -/
inductive Member (P : List UInt8 → Json → Prop) : List UInt8 → List Char × Json → Prop where
  | mk {k s : List UInt8} {cs : List Char} {v : Json} : Padded (Str L) k cs → Padded P s v →
      Member P (k ++ ':'.toUInt8 :: s) (cs, v)

/-- A value whose arrays and objects nest at most `d` deep. -/
def Value : Nat → List UInt8 → Json → Prop
  | 0, s, v => Atom L s v
  | d + 1, s, v => Atom L s v ∨
      (∃ es, Listed (Padded (Value d)) '['.toUInt8 ']'.toUInt8 s es ∧ v = .Arr es) ∨
      ∃ ms, Listed (Member L (Value d)) '{'.toUInt8 '}'.toUInt8 s ms ∧ v = .Obj ms

/-- A text: one value, and nothing after it but whitespace. -/
def Doc (s : List UInt8) (v : Json) : Prop :=
  Padded (Value L 256) s v

end

end Fors.Lsp
