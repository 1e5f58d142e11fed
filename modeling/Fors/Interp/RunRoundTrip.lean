import Fors.Lib.Runs
import Fors.Interp.Record
import Fors.Interp.RunRecord

/-!
# The round trip of a run record

What `to_bytes` writes is read back as the same record, whatever bytes the streams hold, and
nothing else is accepted.

Principal result: `record_round_trip`.
-/

namespace Fors.Interp

open Numerals Fors.Fmir List

variable {l v : List Char} {rest : List UInt8} {n : Nat} {name : String}

/-! ## Lines -/

theorem line_text_append (rest : List UInt8) (n : Nat) (hl : '\n' ∉ l) :
    Reader.line_text ⟨Utf8.encode (l ++ ['\n']) ++ rest, n⟩ = .ok (l, ⟨rest, n + 1⟩) := by
  have hbytes : ∀ b ∈ Utf8.encode l, (decide (b ≠ 10)) = true := by
    intro b hb
    refine decide_eq_true fun h10 => ?_
    subst h10
    obtain ⟨c, hc, hval⟩ := Utf8.mem_encode_ascii hb (by decide)
    have hnewline : c = '\n' := Char.toNat_inj.mp hval
    exact hl (hnewline ▸ hc)
  have hsplit : Utf8.encode (l ++ ['\n']) ++ rest = Utf8.encode l ++ 10 :: rest := by
    rw [Utf8.encode_append, append_assoc]
    rfl
  unfold Reader.line_text
  simp only
  rw [hsplit, dropWhile_append_of_pos hbytes, takeWhile_append_of_pos hbytes]
  simp [Utf8.decode_encode]

theorem field_append (rest : List UInt8) (n : Nat) (hname : '\n' ∉ name.toList) (hv : '\n' ∉ v) :
    Reader.field name ⟨Utf8.encode (name.toList ++ ' ' :: v ++ ['\n']) ++ rest, n⟩ =
      .ok (v, ⟨rest, n + 1⟩) := by
  have hl : '\n' ∉ name.toList ++ ' ' :: v := by
    simp [hname, hv]
  have hdrop : ((name.toList ++ ' ' :: v).dropPrefix? name.toList).bind
      (fun v => v.dropPrefix? [' ']) = some v := by
    have hname : (name.toList == name.toList) = true := beq_self_eq_true _
    have hspace : (([' '] : List Char) == [' ']) = true := beq_self_eq_true _
    rw [dropPrefix?_append_of_beq _ hname]
    exact dropPrefix?_append_of_beq v hspace
  unfold Reader.field
  rw [line_text_append rest n hl]
  simp only [bind, Except.bind, hdrop]

/-! ## Numbers -/

theorem newline_notMem_digits {radix : Nat} (h : 1 < radix) (hle : radix ≤ 16) :
    '\n' ∉ Nat.toDigits radix n := by
  have hdigit : ∀ d < 16, Nat.digitChar d ≠ '\n' := by decide
  intro hmem
  obtain ⟨d, hd, heq⟩ := mem_toDigits h hmem
  exact hdigit d (by omega) heq.symm

theorem newline_notMem_decimal (n : Int) : '\n' ∉ decimal n := by
  unfold decimal
  split
  · rw [mem_cons, not_or]
    exact ⟨by decide, newline_notMem_digits (by decide) (by decide)⟩
  · exact newline_notMem_digits (by decide) (by decide)

theorem decimal_append (rest : List UInt8) (n : Nat) (hname : '\n' ∉ name.toList) (c : UInt64) :
    Reader.decimal name ⟨Utf8.encode (name.toList ++ ' ' :: decimal c.toNat ++ ['\n']) ++ rest, n⟩ =
      .ok (c, ⟨rest, n + 1⟩) := by
  unfold Reader.decimal
  rw [field_append rest n hname (newline_notMem_decimal _)]
  simp only [bind, Except.bind, parse_u64_decimal]

theorem mem_hex32 {c : Char} (hc : c ∈ hex32 n) : ∃ d < 16, c = d.digitChar := by
  obtain hc | hc := mem_append.mp hc
  · exact ⟨0, by omega, eq_of_mem_replicate hc⟩
  · exact mem_toDigits (by omega) hc

theorem length_hex32 (hn : n < 2 ^ 128) : (hex32 n).length = 32 := by
  have hle : (Nat.toDigits 16 n).length ≤ 32 := by
    rw [Nat.length_toDigits_le_iff (by omega) (by omega)]
    exact hn
  simp only [hex32, length_append, length_replicate]
  omega

theorem from_str_radix_hex32 (hn : n < 2 ^ 128) :
    from_str_radix 0 (2 ^ 128 - 1) 16 (hex32 n) = some (n : Int) := by
  have hread : accumulate 0 (2 ^ 128 - 1) 16 false 0 (hex32 n) = some (n : Int) := by
    unfold hex32
    rw [accumulate_zeros (by omega) (by omega) (by omega) (by omega)]
    refine accumulate_toDigits (by omega) (by omega) (by omega) (by omega) ⟨?_, ?_⟩
    · exact Int.natCast_nonneg _
    · change (n : Int) ≤ _
      omega
  have hlen := length_hex32 hn
  have hchars : ∀ c ∈ hex32 n, ∃ d < 16, c = d.digitChar := fun c hc => mem_hex32 hc
  cases hdigits : hex32 n with
  | nil => simp [hdigits] at hlen
  | cons c digits =>
    obtain ⟨d, hd, rfl⟩ := hchars c (hdigits ▸ mem_cons_self)
    rw [hdigits] at hread
    rw [from_str_radix_digit hd, hread]

theorem hex128_append (rest : List UInt8) (n : Nat) (hname : '\n' ∉ name.toList) (w : BitVec 128) :
    Reader.hex128 name ⟨Utf8.encode (name.toList ++ ' ' :: hex32 w.toNat ++ ['\n']) ++ rest, n⟩ =
      .ok (w, ⟨rest, n + 1⟩) := by
  have hdigit : ∀ d < 16, is_lower_hex d.digitChar = true ∧ Nat.digitChar d ≠ '\n' := by decide
  have hall : (hex32 w.toNat).all is_lower_hex = true := by
    refine all_eq_true.mpr fun c hc => ?_
    obtain ⟨d, hd, rfl⟩ := mem_hex32 hc
    exact (hdigit d hd).1
  have hnewline : '\n' ∉ hex32 w.toNat := by
    intro hmem
    obtain ⟨d, hd, heq⟩ := mem_hex32 hmem
    exact (hdigit d hd).2 heq.symm
  unfold Reader.hex128
  rw [field_append rest n hname hnewline]
  simp only [bind, Except.bind]
  rw [if_pos ⟨length_hex32 w.isLt, hall⟩, from_str_radix_hex32 w.isLt]
  simp

theorem hex64_hex16 (v : UInt64) : hex64 (hex16 v.toNat) = some v := by
  rw [hex64, if_pos ⟨length_hex16 v, is_lower_hex_hex16 _⟩, parse_u64_hex16]

theorem parse_i32_decimal (c : Int32) : parse_i32 (decimal c.toInt) = some c := by
  have hle := c.le_toInt
  have hlt := c.toInt_lt
  unfold parse_i32
  rw [from_str_radix_decimal (by omega) (by omega) ⟨by omega, by omega⟩]
  simp

/-! ## The exit -/

/-- A word without blanks and newlines. -/
def Bare (w : List Char) : Prop :=
  ' ' ∉ w ∧ '\n' ∉ w

theorem bare_digits {w : List Char} (h : ∀ c ∈ w, c = '-' ∨ ∃ d < 16, c = Nat.digitChar d) :
    Bare w := by
  have hdigit : ∀ d < 16, Nat.digitChar d ≠ ' ' ∧ Nat.digitChar d ≠ '\n' := by decide
  constructor
  · intro hmem
    obtain heq | ⟨d, hd, heq⟩ := h _ hmem
    · exact absurd heq (by decide)
    · exact (hdigit d hd).1 heq.symm
  · intro hmem
    obtain heq | ⟨d, hd, heq⟩ := h _ hmem
    · exact absurd heq (by decide)
    · exact (hdigit d hd).2 heq.symm

theorem bare_hex16 (n : Nat) : Bare (hex16 n) :=
  bare_digits fun _ hc => .inr (mem_hex16 hc)

theorem bare_decimal (n : Int) : Bare (decimal n) := by
  refine bare_digits fun c hc => ?_
  have hdigits : ∀ c ∈ Nat.toDigits 10 n.natAbs, ∃ d < 16, c = Nat.digitChar d := by
    intro c hc
    obtain ⟨d, hd, rfl⟩ := mem_toDigits (by decide) hc
    exact ⟨d, by omega, rfl⟩
  unfold decimal at hc
  split at hc
  · obtain rfl | hc := mem_cons.mp hc
    · exact .inl rfl
    · exact .inr (hdigits c hc)
  · exact .inr (hdigits c hc)

theorem bare_trap_kind (kind : Fmir.TrapKind) : Bare kind.as_str.toList := by
  unfold Bare
  cases kind <;> decide

theorem bare_ub_class (c : Exec.UbClass) : Bare (ub_class_as_str c).toList := by
  unfold Bare
  cases c <;> decide

theorem parse_trap_kind_as_str (kind : Fmir.TrapKind) : parse_trap_kind kind.as_str = some kind := by
  cases kind <;> decide

theorem find_ub_class (c : Exec.UbClass) :
    UB_CLASSES.find? (fun u => ub_class_as_str u = ub_class_as_str c) = some c := by
  cases c <;> decide

/-- Words with blanks between them are split into these. -/
theorem splitOn_words {ws : List (List Char)} (htext : l = [' '].intercalate ws)
    (hws : ∀ w ∈ ws, ' ' ∉ w) (hne : ws ≠ []) : l.splitOn ' ' = ws := by
  subst htext
  exact splitOn_intercalate _ hws hne

theorem intercalate_three (a b c : List Char) :
    [' '].intercalate [a, b, c] = a ++ ' ' :: b ++ ' ' :: c := by
  simp [intercalate_cons_cons]

theorem intercalate_four (a b c d : List Char) :
    [' '].intercalate [a, b, c, d] = a ++ ' ' :: b ++ ' ' :: c ++ ' ' :: d := by
  simp [intercalate_cons_cons]

theorem status_words (c : Int32) : (RecordExit.Status c).text =
    [' '].intercalate ["exit".toList, "status".toList, decimal c.toInt] := by
  have hlit : "exit status ".toList = "exit".toList ++ ' ' :: "status".toList ++ [' '] := by decide
  change "exit status ".toList ++ decimal c.toInt = _
  rw [intercalate_three, hlit, append_assoc, singleton_append]

theorem trap_words (kind : Fmir.TrapKind) (site : UInt64) : (RecordExit.Trap kind site).text =
    [' '].intercalate ["exit".toList, "trap".toList, kind.as_str.toList, hex16 site.toNat] := by
  have hlit : "exit trap ".toList = "exit".toList ++ ' ' :: "trap".toList ++ [' '] := by decide
  change "exit trap ".toList ++ kind.as_str.toList ++ ' ' :: hex16 site.toNat = _
  rw [intercalate_four, hlit, append_assoc _ [' '], singleton_append]

theorem ub_words (c : Exec.UbClass) (site : UInt64) : (RecordExit.Ub c site).text = [' '].intercalate
    ["exit".toList, "ub".toList, (ub_class_as_str c).toList, hex16 site.toNat] := by
  have hlit : "exit ub ".toList = "exit".toList ++ ' ' :: "ub".toList ++ [' '] := by decide
  change "exit ub ".toList ++ (ub_class_as_str c).toList ++ ' ' :: hex16 site.toNat = _
  rw [intercalate_four, hlit, append_assoc _ [' '], singleton_append]

theorem parse_exit_text (ln : Nat) (e : RecordExit) : parse_exit ln e.text = .ok e := by
  cases e with
  | Status c =>
    have hsplit : (RecordExit.Status c).text.splitOn ' ' =
        ["exit".toList, "status".toList, decimal c.toInt] :=
      splitOn_words (status_words c) (by simp [(bare_decimal c.toInt).1]) (by simp)
    unfold parse_exit
    rw [hsplit]
    simp only [map_cons, map_nil, String.ofList_toList, String.toList_ofList,
      parse_i32_decimal]
    rw [if_pos (by trivial)]
    rfl
  | Trap kind site =>
    have hsplit : (RecordExit.Trap kind site).text.splitOn ' ' =
        ["exit".toList, "trap".toList, kind.as_str.toList, hex16 site.toNat] :=
      splitOn_words (trap_words kind site)
        (by simp [(bare_hex16 site.toNat).1, (bare_trap_kind kind).1]) (by simp)
    unfold parse_exit
    rw [hsplit]
    simp only [map_cons, map_nil, String.ofList_toList, String.toList_ofList,
      parse_trap_kind_as_str, hex64_hex16]
    rw [if_pos (by trivial)]
    rfl
  | Ub c site =>
    have hsplit : (RecordExit.Ub c site).text.splitOn ' ' =
        ["exit".toList, "ub".toList, (ub_class_as_str c).toList, hex16 site.toNat] :=
      splitOn_words (ub_words c site)
        (by simp [(bare_hex16 site.toNat).1, (bare_ub_class c).1]) (by simp)
    unfold parse_exit
    rw [hsplit]
    simp only [map_cons, map_nil, String.ofList_toList, String.toList_ofList,
      find_ub_class, hex64_hex16]
    rw [if_neg (by decide), if_pos (by trivial)]
    rfl

theorem newline_notMem_exit (e : RecordExit) : '\n' ∉ e.text := by
  have hstatus : '\n' ∉ "exit status ".toList := by decide
  have htrap : '\n' ∉ "exit trap ".toList := by decide
  have hub : '\n' ∉ "exit ub ".toList := by decide
  cases e with
  | Status c =>
    change '\n' ∉ "exit status ".toList ++ decimal c.toInt
    rw [mem_append, not_or]
    exact ⟨hstatus, newline_notMem_decimal _⟩
  | Trap kind site =>
    change '\n' ∉ "exit trap ".toList ++ kind.as_str.toList ++ ' ' :: hex16 site.toNat
    rw [mem_append, mem_append, mem_cons, not_or, not_or, not_or]
    exact ⟨⟨htrap, (bare_trap_kind kind).2⟩, by decide, (bare_hex16 _).2⟩
  | Ub c site =>
    change '\n' ∉ "exit ub ".toList ++ (ub_class_as_str c).toList ++ ' ' :: hex16 site.toNat
    rw [mem_append, mem_append, mem_cons, not_or, not_or, not_or]
    exact ⟨⟨hub, (bare_ub_class c).2⟩, by decide, (bare_hex16 _).2⟩

/-! ## Sections and lines -/

theorem section_append (rest : List UInt8) (n : Nat) {bytes : List UInt8} (hname : '\n' ∉ name.toList)
    (hlen : bytes.length < 2 ^ 64) :
    ∃ m, Reader.section_ name ⟨section_bytes name bytes ++ rest, n⟩ = .ok (bytes, ⟨rest, m⟩) := by
  have hcount : (UInt64.ofNat bytes.length).toNat = bytes.length :=
    UInt64.toNat_ofNat_of_lt' hlen
  have hdecimal := decimal_append (bytes ++ 10 :: rest) n hname
    (.ofNat bytes.length)
  rw [hcount] at hdecimal
  have hbytes : section_bytes name bytes ++ rest =
      Utf8.encode (name.toList ++ ' ' :: decimal bytes.length ++ ['\n']) ++
        (bytes ++ 10 :: rest) := by
    rw [section_bytes, append_assoc (Utf8.encode _), append_assoc bytes,
      singleton_append]
  have hframed : (bytes ++ 10 :: rest)[bytes.length]? = some 10 := by
    rw [getElem?_append_right (Nat.le_refl _), Nat.sub_self]
    rfl
  refine ⟨n + 1 + (bytes.count 10 + 1), ?_⟩
  unfold Reader.section_
  rw [hbytes, hdecimal]
  simp only [bind, Except.bind, hcount]
  rw [if_pos hframed, take_left' rfl, drop_append, drop_of_length_le (by omega),
    Nat.add_sub_cancel_left]
  rfl

/-- The lines of the events are read back as text. -/
theorem lines_append (events : List HostEvent) (n : Nat) :
    Reader.lines events.length ⟨events.flatMap (fun e => Utf8.encode e.line) ++ rest, n⟩ =
      .ok (events.flatMap HostEvent.line, ⟨rest, n + events.length⟩) := by
  induction events generalizing n with
  | nil => rfl
  | cons e events ih =>
    have hline := line_text_append (events.flatMap (fun e => Utf8.encode e.line) ++ rest) n
      (newline_notMem_body e)
    rw [flatMap_cons, append_assoc, length_cons, Reader.lines, HostEvent.line, hline]
    simp only [bind, Except.bind, ih]
    rw [flatMap_cons, HostEvent.line, append_assoc, singleton_append,
      Nat.add_right_comm, Nat.add_assoc]

theorem to_bytes_eq (r : OracleRecord) : r.to_bytes =
    Utf8.encode (RUN_RECORD_HEADER.toList ++ ['\n']) ++
      (Utf8.encode ("program".toList ++ ' ' :: hex32 r.program.toNat ++ ['\n']) ++
      (Utf8.encode ("target".toList ++ ' ' :: hex32 r.target.toNat ++ ['\n']) ++
      (Utf8.encode (r.exit.text ++ ['\n']) ++
      (Utf8.encode ("steps".toList ++ ' ' :: decimal r.steps.toNat ++ ['\n']) ++
      (Utf8.encode ("host".toList ++ ' ' :: decimal r.host.length ++ ['\n']) ++
      (r.host.flatMap (fun e => Utf8.encode e.line) ++
      (section_bytes "stdout" r.stdout ++ (section_bytes "stderr" r.stderr ++ [])))))))) := by
  have hprogram : "program ".toList = "program".toList ++ [' '] := by decide
  have htarget : "target ".toList = "target".toList ++ [' '] := by decide
  have hsteps : "steps ".toList = "steps".toList ++ [' '] := by decide
  have hhost : "host ".toList = "host".toList ++ [' '] := by decide
  unfold OracleRecord.to_bytes
  rw [hprogram, htarget, hsteps, hhost]
  simp [Utf8.encode_append, Utf8.encode_cons, Utf8.encode_nil]

/-! ## The round trip -/

/-- What a `Vec` can hold. -/
structure OracleRecord.Fits (r : OracleRecord) : Prop where
  host : r.host.length < 2 ^ 63
  stdout : r.stdout.length < 2 ^ 63
  stderr : r.stderr.length < 2 ^ 63

variable {r : OracleRecord}

theorem from_bytes_written (hfits : r.Fits) (hmono : Increasing none r.host) :
    from_bytes r.to_bytes = .ok r := by
  obtain ⟨hhost, hstdout, hstderr⟩ := hfits
  have hcount : (UInt64.ofNat r.host.length).toNat = r.host.length :=
    UInt64.toNat_ofNat_of_lt' (by simp only [UInt64.size]; omega)
  have hexit := newline_notMem_exit r.exit
  have hlog : parse_record (String.ofList (RECORD_HEADER.toList ++ '\n' ::
      r.host.flatMap HostEvent.line)).toUTF8 = .ok r.host :=
    parse_record_eq_ok.mpr ⟨rfl, hmono⟩
  have hhostline := decimal_append (r.host.flatMap (fun e => Utf8.encode e.line) ++
      (section_bytes "stdout" r.stdout ++ (section_bytes "stderr" r.stderr ++ []))) 5
    (show '\n' ∉ "host".toList by decide) (.ofNat r.host.length)
  rw [hcount] at hhostline
  obtain ⟨m, hout⟩ := section_append (section_bytes "stderr" r.stderr ++ []) (6 + r.host.length)
    (show '\n' ∉ "stdout".toList by decide) (show r.stdout.length < 2 ^ 64 by omega)
  obtain ⟨m', herr⟩ := section_append [] m (show '\n' ∉ "stderr".toList by decide)
    (show r.stderr.length < 2 ^ 64 by omega)
  unfold from_bytes
  rw [to_bytes_eq r]
  rw [line_text_append _ _ (by decide)]
  simp only [bind, Except.bind]
  rw [if_neg (not_not.mpr rfl), hex128_append _ _ (by decide)]
  simp only
  rw [hex128_append _ _ (by decide)]
  simp only
  rw [line_text_append _ _ hexit]
  simp only [parse_exit_text]
  rw [decimal_append _ _ (by decide)]
  simp only
  rw [hhostline]
  simp only [hcount, lines_append, hlog, hout, herr]
  have hrecord : (⟨r.program, r.target, r.exit, r.steps, r.host, r.stdout, r.stderr⟩ :
      OracleRecord) = r := rfl
  rw [if_neg (not_not.mpr rfl), ← to_bytes_eq, hrecord, if_neg (not_not.mpr rfl)]

/-- Only what a record is written as is accepted. -/
theorem to_bytes_of_from_bytes {s : List UInt8} (h : from_bytes s = .ok r) :
    r.to_bytes = s := by
  unfold from_bytes at h
  obtain ⟨⟨header, r1⟩, -, h⟩ := Runs.bind_eq_ok.mp h
  simp only at h
  split at h
  · cases h
  obtain ⟨⟨program, r2⟩, -, h⟩ := Runs.bind_eq_ok.mp h
  obtain ⟨⟨target, r3⟩, -, h⟩ := Runs.bind_eq_ok.mp h
  obtain ⟨⟨exit_line, r4⟩, -, h⟩ := Runs.bind_eq_ok.mp h
  obtain ⟨exit, -, h⟩ := Runs.bind_eq_ok.mp h
  obtain ⟨⟨steps, r5⟩, -, h⟩ := Runs.bind_eq_ok.mp h
  obtain ⟨⟨count, r6⟩, -, h⟩ := Runs.bind_eq_ok.mp h
  obtain ⟨⟨lines, r7⟩, -, h⟩ := Runs.bind_eq_ok.mp h
  simp only at h
  split at h
  · cases h
  obtain ⟨⟨stdout, r8⟩, -, h⟩ := Runs.bind_eq_ok.mp h
  obtain ⟨⟨stderr, r9⟩, -, h⟩ := Runs.bind_eq_ok.mp h
  simp only at h
  split at h
  · cases h
  split at h
  · cases h
  rename_i hsame
  rw [← Except.ok.inj h]
  exact not_not.mp hsame

/-- The log of a record's host section is its events' log. -/
theorem replay_host_log (hmono : Increasing none r.host) :
    Oracle.replay r.host_log_bytes.toByteArray = .ok (Oracle.replay_events r.host) := by
  have hlines : ∀ events : List HostEvent, events.flatMap (fun e => Utf8.encode e.line) =
      Utf8.encode (events.flatMap HostEvent.line) := by
    intro events
    induction events with
    | nil => rfl
    | cons e events ih => rw [flatMap_cons, flatMap_cons, Utf8.encode_append, ih]
  have hbytes : r.host_log_bytes.toByteArray = record_bytes r.host := by
    rw [OracleRecord.host_log_bytes, hlines, ← Utf8.encode_append, Utf8.toByteArray_encode,
      append_assoc, singleton_append]
    rfl
  unfold Oracle.replay
  rw [hbytes, parse_record_eq_ok.mpr ⟨rfl, hmono⟩]
  rfl

theorem id_inj {r' : OracleRecord} (h : r.id = r'.id) :
    hash_bytes r.to_bytes = hash_bytes r'.to_bytes := by
  have hread := from_str_radix_hex32 (hash_bytes r.to_bytes).isLt
  unfold OracleRecord.id at h
  rw [h, from_str_radix_hex32 (hash_bytes r'.to_bytes).isLt] at hread
  exact BitVec.eq_of_toNat_eq (Int.ofNat.inj (Option.some.inj hread)).symm

/-- Records with increasing monotonic readings are written and read back, and nothing else is
read; equal bytes are of one record, and so are equal addresses unless the hash collides. -/
theorem record_round_trip :
    (∀ r : OracleRecord, r.Fits → Increasing none r.host →
      from_bytes r.to_bytes = .ok r ∧
        Oracle.replay r.host_log_bytes.toByteArray = .ok (Oracle.replay_events r.host)) ∧
    (∀ (s : List UInt8) (r : OracleRecord), from_bytes s = .ok r → r.to_bytes = s) ∧
    (∀ r r' : OracleRecord, r.Fits → r'.Fits → Increasing none r.host → Increasing none r'.host →
      (r.to_bytes = r'.to_bytes → r = r') ∧
      (r.id = r'.id → r = r' ∨
        r.to_bytes ≠ r'.to_bytes ∧ hash_bytes r.to_bytes = hash_bytes r'.to_bytes)) := by
  have hinj : ∀ r r' : OracleRecord, r.Fits → r'.Fits → Increasing none r.host →
      Increasing none r'.host → r.to_bytes = r'.to_bytes → r = r' := by
    intro r r' hr hr' hmono hmono' heq
    have hread := from_bytes_written hr hmono
    rw [heq, from_bytes_written hr' hmono'] at hread
    exact (Except.ok.inj hread).symm
  refine ⟨fun r hr hmono => ⟨from_bytes_written hr hmono, replay_host_log hmono⟩,
    fun s r h => to_bytes_of_from_bytes h, fun r r' hr hr' hmono hmono' => ?_⟩
  refine ⟨hinj r r' hr hr' hmono hmono', fun hid => ?_⟩
  by_cases heq : r.to_bytes = r'.to_bytes
  · exact .inl (hinj r r' hr hr' hmono hmono' heq)
  · exact .inr ⟨heq, id_inj hid⟩

/-- A record whose output looks like a section of its own. -/
def framed_output : OracleRecord :=
  ⟨1, 2, .Trap .Bounds 7, 3, [.Mono 5, .Wall (-1), .Mono 6], Utf8.encode "stderr 0\n".toList, [10]⟩

theorem record_round_trip_framed : from_bytes framed_output.to_bytes = .ok framed_output :=
  (record_round_trip.1 framed_output ⟨by decide, by decide, by decide⟩
    (by unfold Increasing; decide)).1

end Fors.Interp
