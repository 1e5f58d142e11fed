import Fors.Lib.Utf8
import Fors.Exec.Mem
import Fors.Fmir.Encode
import Fors.Interp.Host

/-!
# Run records

A record holds what one run saw and gave: its program and target, the exit, the step count, the
host's responses and the two output streams. It is written as lines of text and sections of raw
bytes with their lengths; one cursor reads both.

Source: `crates/fors-interp/src/oracle.rs`.
-/

namespace Fors.Interp

open Numerals Fors.Fmir

def RUN_RECORD_HEADER : String := "fors-run-record 1"

/-! ## Names -/

def TRAP_KINDS : List String :=
  ["bounds", "overflow", "div-zero", "shift", "checked-conversion", "arena-generation", "contract",
    "empty-reduce"]

/-- `TrapKind::parse_name`. -/
def parse_trap_kind (s : String) : Option Fmir.TrapKind :=
  (TRAP_KINDS.idxOf? s).bind fun i => Fmir.TrapKind.from_u32 (.ofNat i)

def UB_CLASSES : List Exec.UbClass :=
  [.UseAfterMove, .DoubleConsume, .LinearLeak, .UninitRead, .Aliasing, .ScopeEscape,
    .UseAfterFree, .AllocatorMismatch, .UncheckedOverflow]

def ub_class_as_str : Exec.UbClass → String
  | .UseAfterMove => "use-after-move"
  | .DoubleConsume => "double-consume"
  | .LinearLeak => "linear-leak"
  | .UninitRead => "uninit-read"
  | .Aliasing => "aliasing"
  | .ScopeEscape => "scope-escape"
  | .UseAfterFree => "use-after-free"
  | .AllocatorMismatch => "allocator-mismatch"
  | .UncheckedOverflow => "unchecked-overflow"

/-! ## Records -/

inductive RecordExit where
  | Status (code : Int32)
  | Trap (kind : Fmir.TrapKind) (site : UInt64)
  | Ub (class_ : Exec.UbClass) (site : UInt64)
  deriving DecidableEq

structure OracleRecord where
  program : BitVec 128
  target : BitVec 128
  exit : RecordExit
  steps : UInt64
  host : List HostEvent
  stdout : List UInt8
  stderr : List UInt8
  deriving DecidableEq

inductive Reason where
  | text (reason : String)
  | host (e : OracleError)
  deriving DecidableEq

/-- A record that does not parse, by line (1-based) and reason. -/
structure RecordError where
  line : Nat
  reason : Reason
  deriving DecidableEq

def err {α : Type} (line : Nat) (reason : String) : Except RecordError α :=
  .error ⟨line, .text reason⟩

/-! ## Writing -/

/-- A number in hexadecimal, with leading zeros up to 32 digits. -/
def hex32 (n : Nat) : List Char :=
  let digits := Nat.toDigits 16 n
  List.replicate (32 - digits.length) '0' ++ digits

def RecordExit.text : RecordExit → List Char
  | .Status c => "exit status ".toList ++ decimal c.toInt
  | .Trap kind site => "exit trap ".toList ++ kind.as_str.toList ++ ' ' :: hex16 site.toNat
  | .Ub class_ site => "exit ub ".toList ++ (ub_class_as_str class_).toList ++ ' ' :: hex16 site.toNat

def section_bytes (name : String) (bytes : List UInt8) : List UInt8 :=
  Utf8.encode (name.toList ++ ' ' :: decimal bytes.length ++ ['\n']) ++ (bytes ++ [10])

def OracleRecord.to_bytes (r : OracleRecord) : List UInt8 :=
  Utf8.encode (RUN_RECORD_HEADER.toList ++ '\n' :: "program ".toList ++ hex32 r.program.toNat ++
      '\n' :: "target ".toList ++ hex32 r.target.toNat ++ ['\n']) ++
    (Utf8.encode (r.exit.text ++ ['\n']) ++
      (Utf8.encode ("steps ".toList ++ decimal r.steps.toNat ++ '\n' ::
          "host ".toList ++ decimal r.host.length ++ ['\n']) ++
        (r.host.flatMap (fun e => Utf8.encode e.line) ++
          (section_bytes "stdout" r.stdout ++ section_bytes "stderr" r.stderr))))

/-- The content address. -/
def OracleRecord.id (r : OracleRecord) : List Char :=
  hex32 (hash_bytes r.to_bytes).toNat

def OracleRecord.host_log_bytes (r : OracleRecord) : List UInt8 :=
  Utf8.encode (RECORD_HEADER.toList ++ ['\n']) ++ r.host.flatMap fun e => Utf8.encode e.line

/-! ## Reading -/

/-- The bytes from the cursor on, and the number of lines before it. -/
structure Reader where
  rest : List UInt8
  line : Nat

namespace Reader

def line_text (r : Reader) : Except RecordError (List Char × Reader) :=
  let line := r.line + 1
  match r.rest.dropWhile (· ≠ 10) with
  | [] => err line "unexpected end of record"
  | _ :: rest =>
    match Utf8.decode (r.rest.takeWhile (· ≠ 10)) with
    | none => err line "not UTF-8"
    | some l => .ok (l, ⟨rest, line⟩)

def field (name : String) (r : Reader) : Except RecordError (List Char × Reader) := do
  let (l, r) ← r.line_text
  match (l.dropPrefix? name.toList).bind fun v => v.dropPrefix? [' '] with
  | none => err r.line ("expected `" ++ name ++ " ...`")
  | some v => .ok (v, r)

def hex128 (name : String) (r : Reader) : Except RecordError (BitVec 128 × Reader) := do
  let (v, r) ← r.field name
  let read :=
    if v.length = 32 ∧ v.all is_lower_hex then from_str_radix 0 (2 ^ 128 - 1) 16 v else none
  match read with
  | none => err r.line ("`" ++ name ++ "` is not 32 lowercase hex digits")
  | some n => .ok (.ofNat 128 n.toNat, r)

def decimal (name : String) (r : Reader) : Except RecordError (UInt64 × Reader) := do
  let (v, r) ← r.field name
  match parse_u64 10 v with
  | none => err r.line ("`" ++ name ++ "` is not a decimal count")
  | some n => .ok (n, r)

def section_ (name : String) (r : Reader) : Except RecordError (List UInt8 × Reader) := do
  let (n, r) ← r.decimal name
  if r.rest[n.toNat]? = some 10 then
    let out := r.rest.take n.toNat
    .ok (out, ⟨r.rest.drop (n.toNat + 1), r.line + (out.count 10 + 1)⟩)
  else err r.line ("`" ++ name ++ "` section is shorter than its length or unframed")

/-- The text of the next `n` lines. -/
def lines : Nat → Reader → Except RecordError (List Char × Reader)
  | 0, r => .ok ([], r)
  | n + 1, r => do
    let (l, r) ← r.line_text
    let (log, r) ← lines n r
    .ok (l ++ '\n' :: log, r)

end Reader

def hex64 (s : List Char) : Option UInt64 :=
  if s.length = 16 ∧ s.all is_lower_hex then parse_u64 16 s else none

def parse_i32 (val : List Char) : Option Int32 :=
  (from_str_radix (-2 ^ 31) (2 ^ 31 - 1) 10 val).map .ofInt

/-- What is found, or an error. -/
def or_err {α : Type} (line : Nat) (reason : String) : Option α → Except RecordError α
  | some a => .ok a
  | none => err line reason

def parse_exit (ln : Nat) (exit_line : List Char) : Except RecordError RecordExit :=
  match (exit_line.splitOn ' ').map String.ofList with
  | [exit, status, c] =>
    if exit = "exit" ∧ status = "status" then do
      let c ← or_err ln "bad exit status" (parse_i32 c.toList)
      .ok (.Status c)
    else err ln "malformed `exit` line"
  | [exit, class_, k, site] =>
    if exit = "exit" ∧ class_ = "trap" then do
      let kind ← or_err ln "unknown trap kind" (parse_trap_kind k)
      let site ← or_err ln "bad site digest" (hex64 site.toList)
      .ok (.Trap kind site)
    else if exit = "exit" ∧ class_ = "ub" then do
      let class_ ← or_err ln "unknown ub class" (UB_CLASSES.find? fun u => ub_class_as_str u = k)
      let site ← or_err ln "bad site digest" (hex64 site.toList)
      .ok (.Ub class_ site)
    else err ln "malformed `exit` line"
  | _ => err ln "malformed `exit` line"

def from_bytes (bytes : List UInt8) : Except RecordError OracleRecord := do
  let (header, r) ← Reader.line_text ⟨bytes, 0⟩
  if header ≠ RUN_RECORD_HEADER.toList then err 1 "missing `fors-run-record 1` header"
  else
    let (program, r) ← r.hex128 "program"
    let (target, r) ← r.hex128 "target"
    let (exit_line, r) ← r.line_text
    let exit ← parse_exit r.line exit_line
    let (steps, r) ← r.decimal "steps"
    let (n, r) ← r.decimal "host"
    let (lines, r) ← r.lines n.toNat
    let log := RECORD_HEADER.toList ++ '\n' :: lines
    match parse_record (String.ofList log).toUTF8 with
    | .error e => .error ⟨r.line, .host e⟩
    | .ok host =>
      let (stdout, r) ← r.section_ "stdout"
      let (stderr, r) ← r.section_ "stderr"
      if r.rest ≠ [] then err (r.line + 1) "trailing bytes after the `stderr` section"
      else
        let rec_ : OracleRecord := ⟨program, target, exit, steps, host, stdout, stderr⟩
        if rec_.to_bytes ≠ bytes then
          err 0 "not in canonical form (does not re-encode byte for byte)"
        else .ok rec_

end Fors.Interp
