import Fors.Lib.Numerals
import Fors.Lib.Words
import Mathlib.Algebra.Group.Int.Defs

/-!
# The host's responses

Every clock reading and every draw of entropy goes through an oracle, which logs it. A log is
written as text, one response per line; an oracle that replays one answers from it, in order.

Source: `crates/fors-interp/src/host.rs`.
-/

namespace Fors.Interp

open Numerals Words

def RECORD_HEADER : String := "fors-oracle-record 1"

/-- One capability response. -/
inductive HostEvent where
  | Mono (v : UInt64)
  | Wall (v : Int64)
  | Entropy (v : UInt64)
  deriving DecidableEq

/-! ## Text -/

/-- A number in decimal, with a sign if it is negative. -/
def decimal (n : Int) : List Char :=
  if n < 0 then '-' :: Nat.toDigits 10 n.natAbs else Nat.toDigits 10 n.natAbs

/-- A number in hexadecimal, with leading zeros up to 16 digits. -/
def hex16 (n : Nat) : List Char :=
  let digits := Nat.toDigits 16 n
  List.replicate (16 - digits.length) '0' ++ digits

namespace HostEvent

def kind : HostEvent → String
  | .Mono _ => "mono"
  | .Wall _ => "wall"
  | .Entropy _ => "entropy"

/-- The 64 bits of a response, a `wall` reading as its two's complement. -/
def bits : HostEvent → UInt64
  | .Mono v | .Entropy v => v
  | .Wall v => v.toUInt64

/-- What follows the kind on a response's line. -/
def val : HostEvent → List Char
  | .Mono v => decimal v.toNat
  | .Wall v => decimal v.toInt
  | .Entropy v => hex16 v.toNat

/-- A response's line, without the newline. -/
def body (e : HostEvent) : List Char :=
  e.kind.toList ++ ' ' :: e.val

def line (e : HostEvent) : List Char :=
  e.body ++ ['\n']

end HostEvent

/-- A named host/oracle failure. -/
inductive OracleError where
  | Malformed (line : Nat) (text : String)
  | Mismatch (index : Nat) (expected found : String)
  | Exhausted (index : Nat) (wanted : String)
  | Unconsumed (consumed total : Nat)
  | LiveReadUnderReplay (what : String)
  | EntropyUnavailable (why : String)
  deriving DecidableEq

def record_text (events : List HostEvent) : List Char :=
  RECORD_HEADER.toList ++ '\n' :: events.flatMap HostEvent.line

def record_bytes (events : List HostEvent) : ByteArray :=
  (String.ofList (record_text events)).toUTF8

def malformed (line : Nat) (text : List Char) : OracleError :=
  .Malformed line (String.ofList text)

/-! ## Parsing -/

/-- `strip_suffix('\n')`. -/
def strip_newline (text : List Char) : Option (List Char) :=
  if text.getLast? = some '\n' then some text.dropLast else none

/-- `split_once(' ')`. -/
def split_once (l : List Char) : Option (List Char × List Char) :=
  match l.dropWhile (· ≠ ' ') with
  | [] => none
  | _ :: val => some (l.takeWhile (· ≠ ' '), val)

def parse_u64 (radix : Nat) (val : List Char) : Option UInt64 :=
  (from_str_radix 0 (2 ^ 64 - 1) radix val).map fun n => .ofNat n.toNat

def parse_i64 (val : List Char) : Option Int64 :=
  (from_str_radix (-2 ^ 63) (2 ^ 63 - 1) 10 val).map .ofInt

/-- A hexadecimal digit that is not in upper case. -/
def is_lower_hex (c : Char) : Bool :=
  ('0' ≤ c ∧ c ≤ '9') ∨ ('a' ≤ c ∧ c ≤ 'f')

/-- The event on a line, in any spelling. -/
def read_event (l : List Char) : Option HostEvent := do
  let (kind, val) ← split_once l
  if kind = "mono".toList then (parse_u64 10 val).map .Mono
  else if kind = "wall".toList then (parse_i64 val).map .Wall
  else if kind = "entropy".toList ∧ val.length = 16 ∧ val.all is_lower_hex then
    (parse_u64 16 val).map .Entropy
  else none

/-- The lines from the `n`th on, after a `mono` reading or none. -/
def parse_lines : Nat → Option UInt64 → List (List Char) → Except OracleError (List HostEvent)
  | _, _, [] => .ok []
  | n, last_mono, l :: lines =>
    match read_event l with
    | none => .error (malformed n l)
    | some ev =>
      if ev.line ≠ l ++ ['\n'] then .error (malformed n l)
      else
        match ev with
        | .Mono v =>
          if last_mono.any (v ≤ ·) then
            .error (malformed n
              (l ++ " (a `mono` reading not greater than the previous one)".toList))
          else do
            let out ← parse_lines (n + 1) (some v) lines
            .ok (ev :: out)
        | _ => do
          let out ← parse_lines (n + 1) last_mono lines
          .ok (ev :: out)

/-- Parses the record format. -/
def parse_record (record : ByteArray) : Except OracleError (List HostEvent) :=
  match String.fromUTF8? record with
  | none => .error (.Malformed 1 "not UTF-8")
  | some text =>
    match strip_newline text.toList with
    | none => .error (.Malformed 1 "the record does not end with a newline")
    | some body =>
      match body.splitOn '\n' with
      | [] => .error (.Malformed 1 "missing `fors-oracle-record 1` header")
      | header :: lines =>
        if header ≠ RECORD_HEADER.toList then
          .error (.Malformed 1 "missing `fors-oracle-record 1` header")
        else parse_lines 2 none lines

/-! ## The oracle -/

inductive Mode where
  | Live
  | Replay (events : List HostEvent) (at_ : Nat)
  deriving DecidableEq

/-- What the host was asked for during a run. -/
structure HostCounters where
  clock_reads : Nat
  entropy_draws : Nat
  live_reads : Nat
  deriving DecidableEq

structure Oracle where
  mode : Mode
  log : List HostEvent
  last_mono : Option UInt64
  counters : HostCounters
  deriving DecidableEq

namespace Oracle

/-- Live responses from the real host, each one logged. -/
def live : Oracle :=
  ⟨.Live, [], none, ⟨0, 0, 0⟩⟩

def replay_events (events : List HostEvent) : Oracle :=
  ⟨.Replay events 0, [], none, ⟨0, 0, 0⟩⟩

def replay (record : ByteArray) : Except OracleError Oracle := do
  let events ← parse_record record
  .ok (replay_events events)

/-- The record of this run, in the record format. -/
def log_bytes (o : Oracle) : ByteArray :=
  record_bytes o.log

/-- The end-of-run check. -/
def finish (o : Oracle) : Except OracleError Unit :=
  match o.mode with
  | .Replay events at_ =>
    if at_ ≠ events.length then .error (.Unconsumed at_ events.length) else .ok ()
  | .Live => .ok ()

/-- Under replay, the bits of the next response, which must be of the kind that is wanted. -/
def next_replayed (wanted : String) (o : Oracle) : Except OracleError (Option UInt64) × Oracle :=
  match o.mode with
  | .Live => (.ok none, o)
  | .Replay events at_ =>
    match events[at_]? with
    | none => (.error (.Exhausted at_ wanted), o)
    | some e =>
      if e.kind ≠ wanted then (.error (.Mismatch at_ e.kind wanted), o)
      else (.ok (some e.bits), { o with mode := .Replay events (at_ + 1) })

/-- A real read, which only a live oracle performs; `real` is what it finds. -/
def real_read {α : Type} (what : String) (real : Except OracleError α) (o : Oracle) :
    Except OracleError α × Oracle :=
  match o.mode with
  | .Replay _ _ => (.error (.LiveReadUnderReplay what), o)
  | .Live => (real, { o with counters.live_reads := o.counters.live_reads + 1 })

/-- The reading, made greater than the one before. -/
def after (last_mono : Option UInt64) (real : UInt64) : UInt64 :=
  match last_mono with
  | some prev => max real (saturating_add prev 1)
  | none => real

def clock_mono (real : UInt64) (o : Oracle) : Except OracleError UInt64 × Oracle :=
  let o := { o with counters.clock_reads := o.counters.clock_reads + 1 }
  let serve (v : UInt64) (o : Oracle) : Except OracleError UInt64 × Oracle :=
    (.ok v, { o with last_mono := some v, log := o.log ++ [.Mono v] })
  match next_replayed "mono" o with
  | (.error e, o) => (.error e, o)
  | (.ok (some bits), o) => serve bits o
  | (.ok none, o) =>
    match real_read "mono" (.ok real) o with
    | (.error e, o) => (.error e, o)
    | (.ok real, o) => serve (after o.last_mono real) o

def clock_wall (real : Int64) (o : Oracle) : Except OracleError Int64 × Oracle :=
  let o := { o with counters.clock_reads := o.counters.clock_reads + 1 }
  let serve (v : Int64) (o : Oracle) : Except OracleError Int64 × Oracle :=
    (.ok v, { o with log := o.log ++ [.Wall v] })
  match next_replayed "wall" o with
  | (.error e, o) => (.error e, o)
  | (.ok (some bits), o) => serve bits.toInt64 o
  | (.ok none, o) =>
    match real_read "wall" (.ok real) o with
    | (.error e, o) => (.error e, o)
    | (.ok v, o) => serve v o

def entropy_u64 (real : Except OracleError UInt64) (o : Oracle) :
    Except OracleError UInt64 × Oracle :=
  let o := { o with counters.entropy_draws := o.counters.entropy_draws + 1 }
  let serve (v : UInt64) (o : Oracle) : Except OracleError UInt64 × Oracle :=
    (.ok v, { o with log := o.log ++ [.Entropy v] })
  match next_replayed "entropy" o with
  | (.error e, o) => (.error e, o)
  | (.ok (some bits), o) => serve bits o
  | (.ok none, o) =>
    match real_read "entropy" real o with
    | (.error e, o) => (.error e, o)
    | (.ok v, o) => serve v o

end Oracle

end Fors.Interp
