import Mathlib.Data.List.Chain
import Fors.Interp.Host

/-!
# Records

A record is accepted exactly when it is the log of its events and their monotonic readings
increase.

Principal result: `parse_record_eq_ok`.
-/

namespace Fors.Interp

open Numerals List

variable {e : HostEvent} {events : List HostEvent} {l : List Char} {n : Nat}

/-! ## Numbers -/

theorem from_str_radix_decimal {lo hi n : Int} (hlo : lo ≤ 0) (hhi : 0 ≤ hi)
    (hrange : lo ≤ n ∧ n ≤ hi) : from_str_radix lo hi 10 (decimal n) = some n := by
  unfold decimal
  split
  · rw [from_str_radix_neg_toDigits (by omega) (by omega) (by omega) hhi (by omega)]
    congr 1
    omega
  · rw [from_str_radix_toDigits (by omega) (by omega) hlo (by omega)]
    congr 1
    omega

theorem parse_u64_decimal (v : UInt64) : parse_u64 10 (decimal v.toNat) = some v := by
  have hlt := v.toNat_lt
  unfold parse_u64
  rw [from_str_radix_decimal (by omega) (by omega) ⟨by omega, by omega⟩]
  simp

theorem parse_i64_decimal (v : Int64) : parse_i64 (decimal v.toInt) = some v := by
  have hle := v.le_toInt
  have hlt := v.toInt_lt
  unfold parse_i64
  rw [from_str_radix_decimal (by omega) (by omega) ⟨by omega, by omega⟩]
  simp

theorem length_toDigits_16 (v : UInt64) : (Nat.toDigits 16 v.toNat).length ≤ 16 := by
  rw [Nat.length_toDigits_le_iff (by omega) (by omega)]
  exact v.toNat_lt

theorem length_hex16 (v : UInt64) : (hex16 v.toNat).length = 16 := by
  have hle := length_toDigits_16 v
  simp only [hex16, length_append, length_replicate]
  omega

theorem mem_hex16 {c : Char} (hc : c ∈ hex16 n) : ∃ d < 16, c = d.digitChar := by
  obtain hc | hc := mem_append.mp hc
  · exact ⟨0, by omega, eq_of_mem_replicate hc⟩
  · exact mem_toDigits (by omega) hc

theorem is_lower_hex_hex16 (n : Nat) : (hex16 n).all is_lower_hex = true := by
  have hdigit : ∀ d < 16, is_lower_hex d.digitChar = true := by decide
  refine all_eq_true.mpr fun c hc => ?_
  obtain ⟨d, hd, rfl⟩ := mem_hex16 hc
  exact hdigit d hd

theorem parse_u64_hex16 (v : UInt64) : parse_u64 16 (hex16 v.toNat) = some v := by
  have hlt := v.toNat_lt
  have hread : accumulate 0 (2 ^ 64 - 1) 16 false 0 (hex16 v.toNat) = some (v.toNat : Int) := by
    unfold hex16
    rw [accumulate_zeros (by omega) (by omega) (by omega) (by omega)]
    refine accumulate_toDigits (by omega) (by omega) (by omega) (by omega) ⟨?_, ?_⟩
    · exact Int.natCast_nonneg _
    · change (v.toNat : Int) ≤ _
      omega
  have hlen := length_hex16 v
  have hchars : ∀ c ∈ hex16 v.toNat, ∃ d < 16, c = d.digitChar := fun c hc => mem_hex16 hc
  unfold parse_u64
  cases hdigits : hex16 v.toNat with
  | nil => simp [hdigits] at hlen
  | cons c digits =>
    obtain ⟨d, hd, rfl⟩ := hchars c (hdigits ▸ mem_cons_self)
    rw [hdigits] at hread
    rw [from_str_radix_digit hd, hread]
    simp

/-! ## Lines -/

theorem split_once_body (e : HostEvent) : split_once e.body = some (e.kind.toList, e.val) := by
  have hkind : ∀ c ∈ e.kind.toList, c ≠ ' ' := by
    cases e <;> simp [HostEvent.kind]
  unfold split_once HostEvent.body
  rw [dropWhile_append_of_pos (by simpa using hkind),
    takeWhile_append_of_pos (by simpa using hkind)]
  simp

/-- A line that was written reads as its event. -/
theorem read_body (e : HostEvent) : read_event e.body = some e := by
  unfold read_event
  rw [split_once_body]
  simp only [Option.bind_eq_bind, Option.bind_some]
  have hwall : "wall".toList ≠ "mono".toList := by decide
  have hmono : "entropy".toList ≠ "mono".toList := by decide
  have hentropy : "entropy".toList ≠ "wall".toList := by decide
  cases e with
  | Mono v =>
    rw [if_pos (show (HostEvent.Mono v).kind.toList = "mono".toList from rfl)]
    exact congrArg (Option.map HostEvent.Mono) (parse_u64_decimal v)
  | Wall v =>
    rw [if_neg (show (HostEvent.Wall v).kind.toList ≠ "mono".toList from hwall),
      if_pos (show (HostEvent.Wall v).kind.toList = "wall".toList from rfl)]
    exact congrArg (Option.map HostEvent.Wall) (parse_i64_decimal v)
  | Entropy v =>
    rw [if_neg (show (HostEvent.Entropy v).kind.toList ≠ "mono".toList from hmono),
      if_neg (show (HostEvent.Entropy v).kind.toList ≠ "wall".toList from hentropy),
      if_pos ⟨rfl, length_hex16 v, is_lower_hex_hex16 v.toNat⟩]
    exact congrArg (Option.map HostEvent.Entropy) (parse_u64_hex16 v)

def HostEvent.mono : HostEvent → Option UInt64
  | .Mono v => some v
  | _ => none

/-- The monotonic readings increase, from the one before on. -/
def Increasing (last_mono : Option UInt64) (events : List HostEvent) : Prop :=
  (last_mono.toList ++ events.filterMap HostEvent.mono).IsChain (· < ·)

variable {last_mono : Option UInt64}

theorem increasing_cons_none (he : e.mono = none) :
    Increasing last_mono (e :: events) ↔ Increasing last_mono events := by
  unfold Increasing
  rw [filterMap_cons_none he]

theorem increasing_cons_mono {v : UInt64} :
    Increasing last_mono (.Mono v :: events) ↔
      ¬ last_mono.any (v ≤ ·) = true ∧ Increasing (some v) events := by
  unfold Increasing
  rw [filterMap_cons_some (rfl : (HostEvent.Mono v).mono = some v)]
  cases last_mono with
  | none => simp
  | some p => simp [isChain_cons_cons]

/-- An event in front of those that the other lines are read as. -/
theorem bind_cons_eq_ok {rest : Except OracleError (List HostEvent)} :
    (do let out ← rest; .ok (e :: out)) = Except.ok events ↔
      ∃ out, rest = .ok out ∧ events = e :: out := by
  cases rest with
  | error err => simp [bind, Except.bind]
  | ok out => simp [bind, Except.bind, eq_comm]

/-- The lines are read as the events whose lines they are. -/
theorem parse_lines_eq_ok {lines : List (List Char)} :
    parse_lines n last_mono lines = .ok events ↔
      lines = events.map HostEvent.body ∧ Increasing last_mono events := by
  induction lines generalizing n last_mono events with
  | nil =>
    rw [parse_lines]
    constructor
    · intro h
      cases h
      refine ⟨rfl, ?_⟩
      cases last_mono <;> simp [Increasing]
    · rintro ⟨hnil, -⟩
      rw [map_eq_nil_iff.mp hnil.symm]
  | cons l lines ih =>
    rw [parse_lines]
    cases hread : read_event l with
    | none =>
      refine iff_of_false (by simp) ?_
      rintro ⟨hlines, -⟩
      cases events with
      | nil => exact nomatch hlines
      | cons e events =>
        rw [(cons.inj hlines).1, read_body] at hread
        exact nomatch hread
    | some ev =>
      simp only
      by_cases hbody : ev.body = l
      · have hline : ev.line = l ++ ['\n'] := by rw [← hbody, HostEvent.line]
        have hcons {last : Option UInt64}
            (hstep : ∀ out, Increasing last_mono (ev :: out) ↔ Increasing last out) :
            (∃ out, parse_lines (n + 1) last lines = .ok out ∧ events = ev :: out) ↔
              (∃ out, events = ev :: out ∧ lines = out.map HostEvent.body) ∧
                Increasing last_mono events := by
          constructor
          · rintro ⟨out, hout, rfl⟩
            obtain ⟨hrest, hinc⟩ := ih.mp hout
            exact ⟨⟨out, rfl, hrest⟩, (hstep out).mpr hinc⟩
          · rintro ⟨⟨out, rfl, hrest⟩, hinc⟩
            exact ⟨out, ih.mpr ⟨hrest, (hstep out).mp hinc⟩, rfl⟩
        have hhead : (l :: lines = events.map HostEvent.body) ↔
            ∃ out, events = ev :: out ∧ lines = out.map HostEvent.body := by
          constructor
          · intro hlines
            cases events with
            | nil => exact nomatch hlines
            | cons e out =>
              obtain ⟨hl, hrest⟩ := cons.inj hlines
              rw [hl, read_body] at hread
              cases hread
              exact ⟨out, rfl, hrest⟩
          · rintro ⟨out, rfl, rfl⟩
            rw [map_cons, hbody]
        rw [if_neg (not_not_intro hline), hhead]
        cases ev with
        | Mono v =>
          simp only
          split
          · rename_i hle
            refine iff_of_false (by simp) ?_
            rintro ⟨⟨out, rfl, -⟩, hinc⟩
            exact (increasing_cons_mono.mp hinc).1 hle
          · rename_i hlt
            rw [bind_cons_eq_ok]
            exact hcons fun out => increasing_cons_mono.trans (and_iff_right hlt)
        | Wall v =>
          rw [bind_cons_eq_ok]
          exact hcons fun out => increasing_cons_none rfl
        | Entropy v =>
          rw [bind_cons_eq_ok]
          exact hcons fun out => increasing_cons_none rfl
      · have hline : ev.line ≠ l ++ ['\n'] := fun h => hbody (append_cancel_right h)
        rw [if_pos hline]
        refine iff_of_false (by simp) ?_
        rintro ⟨hlines, -⟩
        cases events with
        | nil => exact nomatch hlines
        | cons e events =>
          obtain ⟨hl, -⟩ := cons.inj hlines
          rw [hl, read_body] at hread
          cases hread
          exact hbody hl.symm

/-! ## Records -/

theorem newline_notMem_body (e : HostEvent) : '\n' ∉ e.body := by
  have hkinds : ∀ kind ∈ ["mono", "wall", "entropy"], '\n' ∉ kind.toList := by decide
  have hdigit : ∀ d < 16, Nat.digitChar d ≠ '\n' := by decide
  have hdecimal (n : Int) : '\n' ∉ decimal n := by
    unfold decimal
    have hdigits : '\n' ∉ Nat.toDigits 10 n.natAbs := by
      intro h
      obtain ⟨d, hd, heq⟩ := mem_toDigits (by omega) h
      exact hdigit d (by omega) heq.symm
    split
    · simpa using hdigits
    · exact hdigits
  have hval : '\n' ∉ e.val := by
    cases e with
    | Mono v => exact hdecimal v.toNat
    | Wall v => exact hdecimal v.toInt
    | Entropy v =>
      intro h
      obtain ⟨d, hd, heq⟩ := mem_hex16 h
      exact hdigit d hd heq.symm
  have hkind : '\n' ∉ e.kind.toList := by
    apply hkinds
    cases e <;> simp [HostEvent.kind]
  simp [HostEvent.body, hkind, hval]

theorem lines_eq (header : List Char) (events : List HostEvent) :
    header ++ '\n' :: events.flatMap HostEvent.line =
      ['\n'].intercalate (header :: events.map HostEvent.body) ++ ['\n'] := by
  induction events generalizing header with
  | nil => simp
  | cons e events ih =>
    have hline : e.line ++ events.flatMap HostEvent.line =
        e.body ++ '\n' :: events.flatMap HostEvent.line := by
      rw [HostEvent.line, append_assoc]
      rfl
    rw [flatMap_cons, map_cons, intercalate_cons_cons, hline, ih]
    simp

/-- The lines of a record, without the newlines. -/
def record_lines (events : List HostEvent) : List (List Char) :=
  RECORD_HEADER.toList :: events.map HostEvent.body

theorem record_text_eq (events : List HostEvent) :
    record_text events = ['\n'].intercalate (record_lines events) ++ ['\n'] :=
  lines_eq RECORD_HEADER.toList events

theorem splitOn_record (events : List HostEvent) :
    (['\n'].intercalate (record_lines events)).splitOn '\n' = record_lines events := by
  refine splitOn_intercalate _ ?_ (cons_ne_nil _ _)
  intro l hl
  obtain rfl | hl := mem_cons.mp hl
  · decide
  · obtain ⟨e, -, rfl⟩ := mem_map.mp hl
    exact newline_notMem_body e

theorem strip_newline_eq_some {text body : List Char} :
    strip_newline text = some body ↔ text = body ++ ['\n'] := by
  unfold strip_newline
  constructor
  · intro h
    split at h
    · rename_i hlast
      cases h
      exact (dropLast_append_getLast? _ hlast).symm
    · exact nomatch h
  · rintro rfl
    simp

theorem fromUTF8_toUTF8 (s : String) : String.fromUTF8? s.toUTF8 = some s :=
  dif_pos s.isValidUTF8

theorem toUTF8_of_fromUTF8 {record : ByteArray} {s : String}
    (h : String.fromUTF8? record = some s) : s.toUTF8 = record := by
  unfold String.fromUTF8? at h
  split at h
  · cases h
    rfl
  · exact nomatch h

/-- What is accepted is the log of its events, and its monotonic readings increase. -/
theorem parse_record_eq_ok {record : ByteArray} :
    parse_record record = .ok events ↔ record = record_bytes events ∧ Increasing none events := by
  unfold parse_record
  constructor
  · intro h
    split at h
    · exact nomatch h
    · rename_i text htext
      split at h
      · exact nomatch h
      · rename_i body hbody
        split at h
        · exact nomatch h
        · rename_i header lines hlines
          split at h
          · exact nomatch h
          · rename_i hheader
            obtain ⟨rfl, hinc⟩ := parse_lines_eq_ok.mp h
            refine ⟨?_, hinc⟩
            have hsplit : body = ['\n'].intercalate (record_lines events) := by
              rw [record_lines, ← not_not.mp hheader, ← hlines, intercalate_splitOn]
            have htext' : text.toList = record_text events := by
              rw [record_text_eq, ← hsplit]
              exact strip_newline_eq_some.mp hbody
            rw [record_bytes, ← htext', String.ofList_toList, toUTF8_of_fromUTF8 htext]
  · rintro ⟨rfl, hinc⟩
    have hstrip : strip_newline (record_text events) =
        some (['\n'].intercalate (record_lines events)) :=
      strip_newline_eq_some.mpr (record_text_eq events)
    have hsplit := splitOn_record events
    unfold record_lines at hsplit
    rw [record_bytes, fromUTF8_toUTF8]
    simp only [String.toList_ofList, hstrip, hsplit, record_lines]
    rw [if_neg (not_not_intro rfl)]
    exact parse_lines_eq_ok.mpr ⟨rfl, hinc⟩

end Fors.Interp
