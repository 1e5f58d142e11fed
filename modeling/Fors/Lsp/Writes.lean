import Fors.Interp.Convert
import Fors.Lsp.Reads

/-!
# What the writer writes

A value is written as a text of the grammar that stands for an equal value, so it is read back. Two
values are equal as the derived comparison has it: the zeros are equal to each other.

Principal result: `write_parse`.
-/

namespace Fors.Lsp

open Floats Numerals Interp List

/-! ## Values -/

mutual

/-- The derived `==`. -/
def Json.eq : Json → Json → Bool
  | .Null, .Null => true
  | .Bool a, .Bool b => a == b
  | .Num x, .Num y => x.feq y
  | .Str s, .Str t => s == t
  | .Arr v, .Arr w => eq_elements v w
  | .Obj v, .Obj w => eq_members v w
  | _, _ => false

def eq_elements : List Json → List Json → Bool
  | [], [] => true
  | e :: v, f :: w => e.eq f && eq_elements v w
  | _, _ => false

def eq_members : List (List Char × Json) → List (List Char × Json) → Bool
  | [], [] => true
  | (k, e) :: v, (l, f) :: w => k == l && e.eq f && eq_members v w
  | _, _ => false

end

mutual

/-- How deep arrays and objects nest. -/
def Json.nest : Json → Nat
  | .Arr v => nest_elements v + 1
  | .Obj v => nest_members v + 1
  | _ => 0

def nest_elements : List Json → Nat
  | [] => 0
  | e :: v => max e.nest (nest_elements v)

def nest_members : List (List Char × Json) → Nat
  | [] => 0
  | (_, e) :: v => max e.nest (nest_members v)

end

section
variable (P : F64 → Prop)

mutual

/-- Every number has the property. -/
def Json.All : Json → Prop
  | .Num n => P n
  | .Arr v => all_elements v
  | .Obj v => all_members v
  | _ => True

def all_elements : List Json → Prop
  | [] => True
  | e :: v => e.All ∧ all_elements v

def all_members : List (List Char × Json) → Prop
  | [] => True
  | (_, e) :: v => e.All ∧ all_members v

end

end

section
variable {P : Json → Prop} (null : P .Null) (bool : ∀ b, P (.Bool b)) (num : ∀ n, P (.Num n))
  (str : ∀ s, P (.Str s)) (arr : ∀ v, (∀ e ∈ v, P e) → P (.Arr v))
  (obj : ∀ v, (∀ m ∈ v, P m.2) → P (.Obj v))

include null bool num str arr obj

mutual

theorem Json.induct : ∀ v, P v
  | .Null => null
  | .Bool b => bool b
  | .Num n => num n
  | .Str s => str s
  | .Arr v => arr v (elements_induct v)
  | .Obj v => obj v (members_induct v)

theorem elements_induct : ∀ v : List Json, ∀ e ∈ v, P e
  | [] => fun _ h => nomatch h
  | e :: v => forall_mem_cons.mpr ⟨Json.induct e, elements_induct v⟩

theorem members_induct : ∀ v : List (List Char × Json), ∀ m ∈ v, P m.2
  | [] => fun _ h => nomatch h
  | (_, e) :: v => forall_mem_cons.mpr ⟨Json.induct e, members_induct v⟩

end

end

variable {v : List Json}

theorem eq_elements_iff {w : List Json} :
    eq_elements v w = true ↔ List.Forall₂ (fun e f => e.eq f = true) v w := by
  induction v generalizing w with
  | nil => cases w <;> simp [eq_elements]
  | cons e v ih => cases w <;> simp [eq_elements, ih]

theorem eq_members_iff {v w : List (List Char × Json)} : eq_members v w = true ↔
    List.Forall₂ (fun m n => m.1 = n.1 ∧ m.2.eq n.2 = true) v w := by
  induction v generalizing w with
  | nil => cases w <;> simp [eq_members]
  | cons m v ih =>
    obtain ⟨k, e⟩ := m
    cases w with
    | nil => simp [eq_members]
    | cons n w =>
      obtain ⟨l, f⟩ := n
      simp [eq_members, ih]

theorem nest_elements_le {d : Nat} :
    nest_elements v ≤ d ↔ ∀ e ∈ v, e.nest ≤ d := by
  induction v with
  | nil => simp [nest_elements]
  | cons e v ih => simp [nest_elements, ih]

theorem nest_members_le {v : List (List Char × Json)} {d : Nat} :
    nest_members v ≤ d ↔ ∀ m ∈ v, m.2.nest ≤ d := by
  induction v with
  | nil => simp [nest_members]
  | cons m v ih =>
    obtain ⟨k, e⟩ := m
    simp [nest_members, ih]

theorem all_elements_iff {P : F64 → Prop} :
    all_elements P v ↔ ∀ e ∈ v, e.All P := by
  induction v with
  | nil => simp [all_elements]
  | cons e v ih => simp [all_elements, ih]

theorem all_members_iff {P : F64 → Prop} {v : List (List Char × Json)} :
    all_members P v ↔ ∀ m ∈ v, m.2.All P := by
  induction v with
  | nil => simp [all_members]
  | cons m v ih =>
    obtain ⟨k, e⟩ := m
    simp [all_members, ih]

theorem forall₂_of_left {α β : Type} {R : α → β → Prop} {S : β → β → Prop} {us : List α}
    {vs ws : List β} (h : ∀ u ∈ us, ∀ {v w : β}, R u v → R u w → S v w) (hv : List.Forall₂ R us vs)
    (hw : List.Forall₂ R us ws) : List.Forall₂ S vs ws := by
  induction hv generalizing ws with
  | nil =>
    cases hw
    exact .nil
  | cons hv _ ih =>
    cases hw with
    | cons hw hws =>
      exact .cons (h _ mem_cons_self hv hw) (ih (fun u hu => h u (mem_cons_of_mem _ hu)) hws)

/-- Values that equal one value are equal. -/
theorem eq_of_eq_left (u : Json) : ∀ {v w : Json}, u.eq v = true → u.eq w = true →
    v.eq w = true := by
  refine Json.induct (P := fun u => ∀ {v w : Json}, u.eq v = true → u.eq w = true → v.eq w = true)
    ?_ ?_ ?_ ?_ ?_ ?_ u
  · intro v w hv hw
    cases v <;> simp [Json.eq] at hv
    cases w <;> simp [Json.eq] at hw
    rfl
  · intro b v w hv hw
    cases v <;> simp [Json.eq] at hv
    cases w <;> simp [Json.eq] at hw
    simp [Json.eq, ← hv, ← hw]
  · intro n v w hv hw
    cases v <;> simp [Json.eq] at hv
    cases w <;> simp [Json.eq] at hw
    simp only [Binary.feq, Bool.and_eq_true, decide_eq_true_eq] at hv hw
    simp [Json.eq, Binary.feq, ← hv.2, ← hw.2, hv.1.2, hw.1.2]
  · intro s v w hv hw
    cases v <;> simp [Json.eq] at hv
    cases w <;> simp [Json.eq] at hw
    simp [Json.eq, ← hv, ← hw]
  · intro es ih v w hv hw
    cases v <;> simp [Json.eq] at hv
    cases w <;> simp [Json.eq] at hw
    rw [eq_elements_iff] at hv hw
    exact eq_elements_iff.mpr (forall₂_of_left ih hv hw)
  · intro ms ih v w hv hw
    cases v <;> simp [Json.eq] at hv
    cases w <;> simp [Json.eq] at hw
    rw [eq_members_iff] at hv hw
    refine eq_members_iff.mpr (forall₂_of_left (fun m hm v w hv hw => ?_) hv hw)
    exact ⟨hv.1.symm.trans hw.1, ih m hm hv.2 hw.2⟩

/-! ## Numbers -/

theorem digits_append (ds es : List UInt8) : Decimal.digits (ds ++ es) =
    es.foldl (fun n b => 10 * n + (b.toNat - '0'.toNat)) (Decimal.digits ds) :=
  foldl_append

/-- The bytes of a number's digits. -/
theorem digits_toDigits (n : Nat) : Utf8.encode (Nat.toDigits 10 n) ≠ [] ∧
    (Utf8.encode (Nat.toDigits 10 n)).all Decimal.is_digit = true ∧
      Decimal.digits (Utf8.encode (Nat.toDigits 10 n)) = n := by
  have hone : ∀ d < 10, (Utf8.encode [d.digitChar]).all Decimal.is_digit = true ∧
      ∀ n, (Utf8.encode [d.digitChar]).foldl (fun n b => 10 * n + (b.toNat - '0'.toNat)) n =
        10 * n + d := by
    intro d hd
    have hd' : d = 0 ∨ d = 1 ∨ d = 2 ∨ d = 3 ∨ d = 4 ∨ d = 5 ∨ d = 6 ∨ d = 7 ∨ d = 8 ∨ d = 9 := by
      omega
    rcases hd' with rfl | rfl | rfl | rfl | rfl | rfl | rfl | rfl | rfl | rfl <;>
      exact ⟨by decide, fun n => rfl⟩
  refine ⟨?_, ?_⟩
  · intro h
    exact Nat.toDigits_ne_nil (Utf8.encode_inj h)
  induction n using Nat.base_induction 10 (by omega) with
  | single m hm =>
    obtain ⟨hall, hval⟩ := hone m hm
    rw [Nat.toDigits_of_lt_base hm]
    exact ⟨hall, (hval 0).trans (Nat.zero_add m)⟩
  | digit m d hd hm ih =>
    obtain ⟨hall, hval⟩ := hone d hd
    rw [← Nat.toDigits_append_toDigits (by omega) hm hd, Nat.toDigits_of_lt_base hd,
      Utf8.encode_append, all_append, digits_append, ih.1, ih.2, hall, hval]
    exact ⟨rfl, rfl⟩

/-- An integer is written as a numeral of the float nearest to it. -/
theorem decimal_reads (k : Int) :
    (Decimal.from_str (Utf8.encode (decimal k)) : Option F64) = some (Binary.of_int k) := by
  obtain ⟨hne, hall, hval⟩ := digits_toDigits k.natAbs
  obtain ⟨hpos, hneg⟩ := Decimal.from_str_digits (F := binary64) hne hall
  rw [hval, Binary.of_decimal_int] at hpos hneg
  unfold decimal Binary.of_int
  split
  · rename_i hk
    rw [decide_eq_true hk]
    exact hneg
  · rename_i hk
    rw [decide_eq_false hk]
    exact hpos

theorem of_int_small {k : Int} (h : k.natAbs ≤ 9000000000000000) :
    (Binary.of_int k : F64).Finite ∧ (Binary.of_int k : F64).units = k * binary64.one := by
  have hman : binary64.man + 1 = 53 := rfl
  exact Binary.of_int_units (q := k.natAbs) (j := 0) (by rw [Nat.pow_zero, Nat.mul_one])
    (by rw [hman]; omega) (below_inf (by omega))

theorem units_neg (x : F64) (hlt : x.mag < 2 ^ (binary64.exp + binary64.man)) :
    (⟨!x.neg, x.mag, hlt⟩ : F64).units = -x.units := by
  unfold Binary.units
  cases x.neg <;> simp

/-- A float without a fraction is an integer. -/
theorem units_of_fract {n : F64} (hfin : n.Finite)
    (h : (fract n).feq (.of_int 0) = true) : n.units = toward_zero n.value * binary64.one := by
  obtain ⟨htfin, htrunc⟩ := Binary.trunc_units hfin
  by_contra hne
  have hsum : n.units + (⟨!n.trunc.neg, n.trunc.mag, n.trunc.mag_lt⟩ : F64).units ≠ 0 := by
    rw [units_neg, htrunc]
    omega
  have hfract : fract n = Binary.rounded _ _ 0 := Binary.add_eq hfin htfin hsum
  have hzero : (Binary.of_int 0 : F64).units = 0 := (of_int_small (by decide)).2.trans (Int.zero_mul _)
  unfold Binary.feq at h
  simp only [Bool.and_eq_true, decide_eq_true_eq] at h
  have hunits := h.2
  rw [hzero, Binary.units_eq_zero, hfract] at hunits
  have hpos := Format.round_pos (F := binary64) (Int.natAbs_pos.mpr hsum)
  change binary64.round _ 0 = 0 at hunits
  omega

/-- A finite number is written as a numeral of an equal one. -/
theorem write_num_reads (display : F64 → List Char) {n : F64} (hfin : n.Finite)
    (hdisplay : Decimal.from_str (Utf8.encode (display n)) = some n) :
    ∃ x : F64, Decimal.from_str (Utf8.encode (write_num display n)) = some x ∧ x.Finite ∧
      x.feq n = true := by
  unfold write_num
  rw [if_neg (not_not.mpr hfin)]
  split
  · rename_i h
    obtain ⟨hfract, hlt⟩ := Bool.and_eq_true_iff.mp h
    have hunits := units_of_fract hfin hfract
    set k := toward_zero n.value with hk
    have hsmall : k.natAbs < 9000000000000000 := by
      have habs : (abs n).Finite := hfin
      obtain ⟨hbfin, hbunits⟩ := of_int_small (k := 9000000000000000) (by decide)
      rw [Binary.lt_eq habs hbfin, hbunits, decide_eq_true_eq] at hlt
      have hnat : (abs n).units = (k.natAbs * binary64.one : Nat) := by
        change (binary64.units n.mag : Int) = _
        rw [← Binary.natAbs_units, hunits, Int.natAbs_mul, Int.natAbs_natCast]
      rw [hnat, Nat.cast_mul] at hlt
      have := lt_of_mul_lt_mul_right hlt (Int.natCast_nonneg _)
      omega
    have has : as_i64 n = k := by
      unfold as_i64
      rw [Binary.as_int_eq hfin, ← hk]
      omega
    obtain ⟨hifin, hiunits⟩ := of_int_small (k := k) hsmall.le
    refine ⟨Binary.of_int k, by rw [has, decimal_reads], hifin, ?_⟩
    rw [Binary.feq_eq hifin hfin, hiunits, hunits]
    exact decide_eq_true rfl
  · exact ⟨n, hdisplay, hfin, by rw [Binary.feq_eq hfin hfin]; exact decide_eq_true rfl⟩

/-! ## Strings -/

theorem hex04_digits {n : Nat} (h : n < 0x20) : HexDigits 4 (Utf8.encode (hex04 n)) n := by
  have hall : ∀ n < 0x20, (hex04 n).length = 4 ∧
      (hex04 n).mapM (to_digit 16) = some [0, 0, n / 16, n % 16] := by decide
  obtain ⟨hlen, hds⟩ := hall n h
  refine hexDigits_encode.mpr ⟨hlen, _, hds, ?_⟩
  simp only [number, foldl_cons, foldl_nil]
  omega

/-- The escaper writes every character as an escape, or as it is. -/
theorem write_char_reads (c : Char) : Chr lax (Utf8.encode (write_char c)) c := by
  have hshort : ∀ {e : UInt8} {c : Char} {s : List Char}, (e, c) ∈ ESCAPES →
      Utf8.encode s = ['\\'.toUInt8, e] → Chr lax (Utf8.encode s) c :=
    fun he heq => heq ▸ .short he
  unfold write_char
  split
  · rename_i h
    subst h
    exact hshort (e := '"'.toUInt8) (by decide) (by decide)
  split
  · rename_i h
    subst h
    exact hshort (e := '\\'.toUInt8) (by decide) (by decide)
  split
  · rename_i h
    subst h
    exact hshort (e := 'n'.toUInt8) (by decide) (by decide)
  split
  · rename_i h
    subst h
    exact hshort (e := 'r'.toUInt8) (by decide) (by decide)
  split
  · rename_i h
    subst h
    exact hshort (e := 't'.toUInt8) (by decide) (by decide)
  rename_i hquote hslash _ _ _
  split
  · rename_i h
    exact .unit ⟨_, rfl, .inl (hex04_digits h)⟩
  · exact .raw trivial hquote hslash

theorem write_string_reads (s : List Char) : Str lax (Utf8.encode (write_string s)) s := by
  have hchars : Chars lax (Utf8.encode (s.flatMap write_char)) s := by
    induction s with
    | nil => exact .nil
    | cons c s ih =>
      rw [flatMap_cons, Utf8.encode_append]
      exact .cons (write_char_reads c) ih
  unfold write_string
  rw [Utf8.encode_append, Utf8.encode_cons]
  exact .quoted hchars

/-! ## Texts -/

section
variable {display : F64 → List Char} {d : Nat}

/-- Some equal value is read from what is written. -/
def Rereads (display : F64 → List Char) (d : Nat) (v : Json) : Prop :=
  ∃ w, Value lax d (Utf8.encode (v.write display)) w ∧ w.eq v = true

theorem encode_mark {c : Char} (h : c.toNat < 128) (s : List Char) :
    Utf8.encode (c :: s) = UInt8.ofNat c.toNat :: Utf8.encode s := by
  rw [Utf8.encode_cons, Utf8.encode_ascii h]
  rfl

theorem padded_self {α : Type} {P : List UInt8 → α → Prop} {s : List UInt8} {a : α} (h : P s a) :
    Padded P s a := by
  have hpad : Padded P ([] ++ s ++ []) a := ⟨ws_nil, h, ws_nil⟩
  rwa [nil_append, append_nil] at hpad

theorem elements_reread {e : Json} {v : List Json} (he : Rereads display d e)
    (h : ∀ e ∈ v, Rereads display d e) (i : Nat) :
    ∃ ws, Seq (Padded (Value lax d))
      (Utf8.encode (e.write display ++ write_elements display (i + 1) v)) ws ∧
        eq_elements ws (e :: v) = true := by
  obtain ⟨w, hw, heq⟩ := he
  induction v generalizing e i w with
  | nil =>
    refine ⟨[w], ?_, by simp [eq_elements, heq]⟩
    rw [write_elements, append_nil]
    exact .one (padded_self hw)
  | cons f v ih =>
    obtain ⟨x, hx, hxf⟩ := h f mem_cons_self
    obtain ⟨ws, hws, heqs⟩ := ih (fun g hg => h g (mem_cons_of_mem _ hg)) (i + 1) x hx hxf
    refine ⟨w :: ws, ?_, by simp [eq_elements, heq, heqs]⟩
    rw [write_elements, if_pos (Nat.succ_pos i), Utf8.encode_append, append_assoc,
      singleton_append, encode_mark (by decide)]
    exact .cons (padded_self hw) hws

theorem members_reread {k : List Char} {e : Json} {v : List (List Char × Json)}
    (he : Rereads display d e) (h : ∀ m ∈ v, Rereads display d m.2) (i : Nat) :
    ∃ ws, Seq (Member lax (Value lax d)) (Utf8.encode (write_string k ++ ':' :: e.write display ++
      write_members display (i + 1) v)) ws ∧ eq_members ws ((k, e) :: v) = true := by
  obtain ⟨w, hw, heq⟩ := he
  have hmember : Member lax (Value lax d)
      (Utf8.encode (write_string k ++ ':' :: e.write display)) (k, w) := by
    rw [Utf8.encode_append, encode_mark (by decide)]
    exact ⟨padded_self (write_string_reads k), padded_self hw⟩
  induction v generalizing k e i w with
  | nil =>
    refine ⟨[(k, w)], ?_, by simp [eq_members, heq]⟩
    rw [write_members, append_nil]
    exact .one hmember
  | cons m v ih =>
    obtain ⟨l, f⟩ := m
    obtain ⟨x, hx, hxf⟩ := h _ mem_cons_self
    have hmember' : Member lax (Value lax d)
        (Utf8.encode (write_string l ++ ':' :: f.write display)) (l, x) := by
      rw [Utf8.encode_append, encode_mark (by decide)]
      exact ⟨padded_self (write_string_reads l), padded_self hx⟩
    obtain ⟨ws, hws, heqs⟩ := ih (fun g hg => h g (mem_cons_of_mem _ hg)) (i + 1) x hx hxf
      hmember'
    refine ⟨(k, w) :: ws, ?_, by simp [eq_members, heq, heqs]⟩
    rw [write_members, if_pos (Nat.succ_pos i), Utf8.encode_append, append_assoc,
      append_assoc, singleton_append, encode_mark (by decide), ← append_assoc]
    exact .cons hmember hws

/-- A finite number that is printed as a numeral of itself. -/
def Exact (display : F64 → List Char) (n : F64) : Prop :=
  n.Finite ∧ Decimal.from_str (Utf8.encode (display n)) = some n

/-- Any value is reread where nesting as deep as its own is allowed. -/
theorem rereads (v : Json) : ∀ {d : Nat}, v.nest ≤ d → v.All (Exact display) →
    Rereads display d v := by
  refine Json.induct (P := fun v => ∀ {d : Nat}, v.nest ≤ d → v.All (Exact display) →
    Rereads display d v) ?_ ?_ ?_ ?_ ?_ ?_ v
  · intro d _ _
    exact ⟨.Null, value_atom .null, rfl⟩
  · intro b d _ _
    cases b with
    | false => exact ⟨.Bool false, value_atom .false, rfl⟩
    | true => exact ⟨.Bool true, value_atom .true, rfl⟩
  · intro n d _ hn
    obtain ⟨hfin, hprint⟩ := hn
    obtain ⟨x, hx, hxfin, heq⟩ := write_num_reads display hfin hprint
    exact ⟨.Num x, value_atom (.num (fun b hb => Decimal.mem_from_str hx hb) hx hxfin), heq⟩
  · intro s d _ _
    exact ⟨.Str s, value_atom (.str (write_string_reads s)), by simp [Json.eq]⟩
  · intro v ih d hd hall
    rw [Json.nest] at hd
    obtain ⟨d, rfl⟩ : ∃ k, d = k + 1 := ⟨d - 1, by omega⟩
    have hnest := nest_elements_le.mp (Nat.le_of_succ_le_succ hd)
    have hparts : ∀ e ∈ v, Rereads display d e := fun e he =>
      ih e he (hnest e he) (all_elements_iff.mp hall e he)
    rw [Rereads, Json.write, Utf8.encode_append, encode_mark (by decide)]
    cases v with
    | nil => exact ⟨.Arr [], value_array (.none ws_nil), rfl⟩
    | cons e v =>
      obtain ⟨ws, hws, heq⟩ := elements_reread (hparts e mem_cons_self)
        (fun f hf => hparts f (mem_cons_of_mem _ hf)) 0
      refine ⟨.Arr ws, value_array ?_, heq⟩
      rw [write_elements, if_neg (Nat.lt_irrefl 0), nil_append]
      exact .some hws
  · intro v ih d hd hall
    rw [Json.nest] at hd
    obtain ⟨d, rfl⟩ : ∃ k, d = k + 1 := ⟨d - 1, by omega⟩
    have hnest := nest_members_le.mp (Nat.le_of_succ_le_succ hd)
    have hparts : ∀ m ∈ v, Rereads display d m.2 := fun m hm =>
      ih m hm (hnest m hm) (all_members_iff.mp hall m hm)
    rw [Rereads, Json.write, Utf8.encode_append, encode_mark (by decide)]
    cases v with
    | nil => exact ⟨.Obj [], value_object (.none ws_nil), rfl⟩
    | cons m v =>
      obtain ⟨k, e⟩ := m
      obtain ⟨ws, hws, heq⟩ := members_reread (k := k) (hparts _ mem_cons_self)
        (fun f hf => hparts f (mem_cons_of_mem _ hf)) 0
      refine ⟨.Obj ws, value_object ?_, heq⟩
      rw [write_members, if_neg (Nat.lt_irrefl 0), nil_append]
      exact .some hws

theorem parse_of_rereads {v : Json} (h : Rereads display MAX_DEPTH v) :
    ∃ w, parse (Utf8.encode (v.write display)) = some w ∧ w.eq v = true := by
  obtain ⟨w, hw, heq⟩ := h
  exact ⟨w, parse_iff.mpr (padded_self hw), heq⟩

end

/-- What is written is read as an equal value, and only equal values are written alike. -/
theorem write_parse (display : F64 → List Char) {v : Json} (hnest : v.nest ≤ 256)
    (hall : v.All (Exact display)) :
    (∃ w, parse (Utf8.encode (v.write display)) = some w ∧ w.eq v = true) ∧
      ∀ w : Json, w.nest ≤ 256 → w.All (Exact display) → v.write display = w.write display →
        v.eq w = true := by
  obtain ⟨x, hx, hxv⟩ := parse_of_rereads (rereads v hnest hall)
  refine ⟨⟨x, hx, hxv⟩, fun w hwnest hwall hsame => ?_⟩
  obtain ⟨y, hy, hyw⟩ := parse_of_rereads (rereads w hwnest hwall)
  rw [hsame, hy] at hx
  obtain rfl := Option.some.inj hx
  exact eq_of_eq_left y hxv hyw

/-- The float 2.5. -/
def two_and_a_half : F64 :=
  Binary.from_bits binary64 0x4004000000000000

theorem write_parse_nested :
    ∃ w, parse (Utf8.encode (Json.write (fun _ => ['2', '.', '5'])
      (.Arr [.Num two_and_a_half, .Obj [([], .Str ['"', '\n']), ([], .Null)]]))) = some w ∧
        w.eq (.Arr [.Num two_and_a_half, .Obj [([], .Str ['"', '\n']), ([], .Null)]]) = true := by
  refine (write_parse _ (by decide) ?_).1
  simp only [Json.All, all_elements, all_members, and_true]
  exact ⟨by decide, by decide +kernel⟩

end Fors.Lsp
