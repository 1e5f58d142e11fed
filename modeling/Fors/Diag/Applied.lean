import Fors.Diag.Edits

/-!
# Edits are applied exactly

One sort and one cursor refuse a list of edits exactly where two of them conflict, and write what
all of them say at once: byte by byte what is inserted there, what replaces it, or the byte itself.

Principal result: `edits_exact`.
-/

namespace Fors.Diag

open List

variable {source out : List UInt8} {edits es : List Edit} {e a b : Edit} {c p n : Nat}

/-! ## What a list of edits says -/

/-- The edit is turned around, or ends beyond the source. -/
def Edit.Outside (source : List UInt8) (e : Edit) : Prop :=
  e.end_ < e.start ∨ source.length < e.end_.toNat

/-- An insertion strictly inside the range of another edit. -/
def Edit.Splits (a b : Edit) : Prop :=
  a.start = a.end_ ∧ b.start < a.start ∧ a.start < b.end_

/-- The half-open ranges intersect, or one edit is inserted inside the other. -/
def Edit.Overlaps (a b : Edit) : Prop :=
  (∃ p, a.start ≤ p ∧ p < a.end_ ∧ b.start ≤ p ∧ p < b.end_) ∨ a.Splits b ∨ b.Splits a

/-- The edits at two places of the list overlap, or one of them is not in the source. -/
def Conflict (source : List UInt8) (edits : List Edit) : Prop :=
  (∃ e ∈ edits, e.Outside source) ∨
    ∃ (i j : Nat) (a b : Edit), i ≠ j ∧ edits[i]? = some a ∧ edits[j]? = some b ∧ a.Overlaps b

/-- The insertions at an offset. -/
def inserts (edits : List Edit) (p : Nat) : List Edit :=
  edits.filter fun e => e.start.toNat = p ∧ e.end_.toNat = p

/-- The replacements that start at an offset. -/
def starts (edits : List Edit) (p : Nat) : List Edit :=
  edits.filter fun e => e.start.toNat = p ∧ p < e.end_.toNat

def covers (edits : List Edit) (p : Nat) : Bool :=
  edits.any fun e => e.start.toNat ≤ p ∧ p < e.end_.toNat

def texts (edits : List Edit) : List UInt8 :=
  edits.flatMap fun e => Utf8.bytes e.replacement

/-- What all edits make of the byte at an offset. -/
def piece (source : List UInt8) (edits : List Edit) (p : Nat) : List UInt8 :=
  texts (inserts edits p) ++ texts (starts edits p) ++
    if covers edits p then [] else source[p]?.toList

/-- All edits at once; what is inserted at the end stands behind the last byte. -/
def replaced (source : List UInt8) (edits : List Edit) : List UInt8 :=
  (List.range (source.length + 1)).flatMap (piece source edits)

/-- One edit after the other, from the highest place down. -/
def apply_down (source : List UInt8) (edits : List Edit) : Option (List UInt8) :=
  (edits.mergeSort Edit.le).reverse.foldlM (fun text e => apply_edits text [e]) source

/-! ## The order of the edits -/

theorem le_iff : a.le b = true ↔ a.start.toNat < b.start.toNat ∨
    a.start.toNat = b.start.toNat ∧ a.end_.toNat ≤ b.end_.toNat := by
  unfold Edit.le
  rw [decide_eq_true_eq, UInt32.lt_iff_toNat_lt, UInt32.le_iff_toNat_le, ← UInt32.toNat_inj]

theorem le_trans_edit (a b c : Edit) (hab : a.le b = true) (hbc : b.le c = true) :
    a.le c = true := by
  rw [le_iff] at *
  omega

theorem le_total_edit (a b : Edit) : (a.le b || b.le a) = true := by
  rw [Bool.or_eq_true, le_iff, le_iff]
  omega

theorem sorted_edits (edits : List Edit) :
    (edits.mergeSort Edit.le).Pairwise fun a b => a.le b = true :=
  pairwise_mergeSort le_trans_edit le_total_edit edits

theorem perm_sorted (edits : List Edit) : (edits.mergeSort Edit.le).Perm edits :=
  mergeSort_perm edits Edit.le

/-! ## Conflicts -/

theorem overlaps_symm (h : a.Overlaps b) : b.Overlaps a := by
  rcases h with ⟨p, ha, ha', hb, hb'⟩ | h | h
  · exact .inl ⟨p, hb, hb', ha, ha'⟩
  · exact .inr (.inr h)
  · exact .inr (.inl h)

/-- Edits of which the earlier one ends first do not overlap. -/
theorem not_overlaps (ha : a.start.toNat ≤ a.end_.toNat) (hab : a.end_.toNat ≤ b.start.toNat) :
    ¬a.Overlaps b := by
  rintro (⟨p, -, hpa, hpb, -⟩ | ⟨-, hlt, -⟩ | ⟨-, -, hlt⟩)
  · rw [UInt32.lt_iff_toNat_lt] at hpa
    rw [UInt32.le_iff_toNat_le] at hpb
    omega
  · rw [UInt32.lt_iff_toNat_lt] at hlt
    omega
  · rw [UInt32.lt_iff_toNat_lt] at hlt
    omega

theorem ends_first (hle : a.le b = true) (hb : b.start.toNat ≤ b.end_.toNat)
    (hnot : ¬a.Overlaps b) : a.end_.toNat ≤ b.start.toNat := by
  by_contra hlt
  rw [le_iff] at hle
  apply hnot
  by_cases hempty : b.start = b.end_
  · have hsame : b.start.toNat = b.end_.toNat := congrArg _ hempty
    refine .inr (.inr ⟨hempty, ?_, ?_⟩)
    · rw [UInt32.lt_iff_toNat_lt]
      omega
    · rw [UInt32.lt_iff_toNat_lt]
      omega
  · have hne : b.start.toNat ≠ b.end_.toNat := fun h => hempty (UInt32.toNat_inj.mp h)
    refine .inl ⟨b.start, ?_, ?_, ?_, ?_⟩
    · rw [UInt32.le_iff_toNat_le]
      omega
    · rw [UInt32.lt_iff_toNat_lt]
      omega
    · rw [UInt32.le_iff_toNat_le]
    · rw [UInt32.lt_iff_toNat_lt]
      omega

theorem not_conflict_iff : ¬Conflict source edits ↔
    (∀ e ∈ edits, ¬e.Outside source) ∧ edits.Pairwise fun a b => ¬a.Overlaps b := by
  unfold Conflict
  rw [not_or]
  constructor
  · rintro ⟨hin, hpair⟩
    refine ⟨fun e he hout => hin ⟨e, he, hout⟩, ?_⟩
    rw [List.pairwise_iff_getElem]
    intro i j hi hj hij hover
    exact hpair ⟨i, j, _, _, hij.ne, List.getElem?_eq_getElem hi, List.getElem?_eq_getElem hj, hover⟩
  · rintro ⟨hin, hpair⟩
    refine ⟨fun ⟨e, he, hout⟩ => hin e he hout, ?_⟩
    rintro ⟨i, j, a, b, hne, ha, hb, hover⟩
    obtain ⟨hi, rfl⟩ := List.getElem?_eq_some_iff.mp ha
    obtain ⟨hj, rfl⟩ := List.getElem?_eq_some_iff.mp hb
    rw [List.pairwise_iff_getElem] at hpair
    rcases Nat.lt_or_gt_of_ne hne with hlt | hlt
    · exact hpair i j hi hj hlt hover
    · exact hpair j i hj hi hlt (overlaps_symm hover)

variable {edits' : List Edit}

theorem conflict_perm (hp : edits'.Perm edits) :
    Conflict source edits' ↔ Conflict source edits := by
  rw [← not_iff_not, not_conflict_iff, not_conflict_iff]
  have hpair := hp.pairwise_iff (R := fun a b : Edit => ¬a.Overlaps b)
    fun h hover => h (overlaps_symm hover)
  rw [hpair]
  simp only [hp.mem_iff]

/-! ## The run of the cursor -/

/-- Each edit starts behind the cursor and ends in the source, which moves the cursor there. -/
def Chained (source : List UInt8) : Nat → List Edit → Prop
  | _, [] => True
  | c, e :: es => c ≤ e.start.toNat ∧ e.start.toNat ≤ e.end_.toNat ∧
      e.end_.toNat ≤ source.length ∧ Chained source e.end_.toNat es

/-- What the run writes behind the cursor. -/
def rebuild (source : List UInt8) : Nat → List Edit → List UInt8
  | c, [] => source.drop c
  | c, e :: es =>
    slice source c e.start.toNat ++ Utf8.bytes e.replacement ++ rebuild source e.end_.toNat es

theorem apply_chained (h : Chained source c es) :
    apply_sorted source es c out = some (out ++ rebuild source c es) := by
  induction es generalizing c out with
  | nil => rfl
  | cons e es ih =>
    obtain ⟨hc, hse, hlen, hrest⟩ := h
    rw [apply_sorted, if_neg, ih hrest, rebuild]
    · simp
    · rw [UInt32.lt_iff_toNat_lt]
      omega

theorem apply_unchained (h : ¬Chained source c es) : apply_sorted source es c out = none := by
  induction es generalizing c out with
  | nil => exact absurd trivial h
  | cons e es ih =>
    rw [apply_sorted]
    by_cases hbad : e.end_ < e.start ∨ source.length < e.end_.toNat ∨ e.start.toNat < c
    · rw [if_pos hbad]
    · rw [if_neg hbad]
      apply ih
      intro hrest
      rw [UInt32.lt_iff_toNat_lt] at hbad
      exact h ⟨by omega, by omega, by omega, hrest⟩

theorem Chained.start_le (h : Chained source c es) : ∀ e ∈ es,
    c ≤ e.start.toNat ∧ e.start.toNat ≤ e.end_.toNat ∧ e.end_.toNat ≤ source.length := by
  induction es generalizing c with
  | nil => exact nofun
  | cons x es ih =>
    obtain ⟨hc, hse, hlen, hrest⟩ := h
    intro e he
    rcases mem_cons.mp he with rfl | he
    · exact ⟨hc, hse, hlen⟩
    · obtain ⟨hc', hse', hlen'⟩ := ih hrest e he
      exact ⟨by omega, hse', hlen'⟩

theorem Chained.apart (h : Chained source c es) : es.Pairwise fun a b => ¬a.Overlaps b := by
  induction es generalizing c with
  | nil => exact .nil
  | cons x es ih =>
    obtain ⟨hc, hse, hlen, hrest⟩ := h
    refine .cons ?_ (ih hrest)
    intro e he
    obtain ⟨hc', -, -⟩ := hrest.start_le e he
    exact not_overlaps hse hc'

theorem chained_of_apart (hin : ∀ e ∈ es, ¬e.Outside source)
    (hsorted : es.Pairwise fun a b => a.le b = true)
    (hapart : es.Pairwise fun a b => ¬a.Overlaps b) (hc : ∀ e ∈ es, c ≤ e.start.toNat) :
    Chained source c es := by
  have hgood : ∀ e ∈ es, e.start.toNat ≤ e.end_.toNat ∧ e.end_.toNat ≤ source.length := by
    intro e he
    have hnot := hin e he
    unfold Edit.Outside at hnot
    rw [UInt32.lt_iff_toNat_lt] at hnot
    omega
  induction es generalizing c with
  | nil => trivial
  | cons x es ih =>
    obtain ⟨hle, hsorted⟩ := pairwise_cons.mp hsorted
    obtain ⟨hnot, hapart⟩ := pairwise_cons.mp hapart
    obtain ⟨hse, hlen⟩ := hgood x mem_cons_self
    refine ⟨hc x mem_cons_self, hse, hlen, ?_⟩
    apply ih (fun e he => hin e (mem_cons_of_mem _ he)) hsorted hapart
    · intro e he
      exact ends_first (hle e he) (hgood e (mem_cons_of_mem _ he)).1 (hnot e he)
    · exact fun e he => hgood e (mem_cons_of_mem _ he)

/-- The cursor never has to go back exactly where no two edits conflict. -/
theorem chained_iff : Chained source 0 (edits.mergeSort Edit.le) ↔ ¬Conflict source edits := by
  rw [← conflict_perm (perm_sorted edits), not_conflict_iff]
  constructor
  · intro h
    refine ⟨?_, h.apart⟩
    intro e he hout
    obtain ⟨-, hse, hlen⟩ := h.start_le e he
    unfold Edit.Outside at hout
    rw [UInt32.lt_iff_toNat_lt] at hout
    omega
  · rintro ⟨hin, hapart⟩
    exact chained_of_apart hin (sorted_edits edits) hapart fun _ _ => Nat.zero_le _

/-! ## What is written -/

/-- Edits that start later say nothing about a byte. -/
theorem piece_before (h : ∀ e ∈ es, p < e.start.toNat) : piece source es p = source[p]?.toList := by
  have hinserts : inserts es p = [] := by
    unfold inserts
    rw [filter_eq_nil_iff]
    intro e he
    have hlt := h e he
    rw [decide_eq_true_eq]
    omega
  have hstarts : starts es p = [] := by
    unfold starts
    rw [filter_eq_nil_iff]
    intro e he
    have hlt := h e he
    rw [decide_eq_true_eq]
    omega
  have hcovers : covers es p = false := by
    unfold covers
    rw [any_eq_false]
    intro e he
    have hlt := h e he
    rw [decide_eq_true_eq]
    omega
  unfold piece
  rw [hinserts, hstarts, hcovers]
  rfl

/-- An edit that ends before a byte says nothing about it. -/
theorem piece_behind (h : e.end_.toNat ≤ p) (hinsert : e.start.toNat ≠ p ∨ e.end_.toNat ≠ p) :
    piece source (e :: es) p = piece source es p := by
  have hinserts : inserts (e :: es) p = inserts es p := by
    unfold inserts
    rw [filter_cons_of_neg]
    rw [decide_eq_true_eq]
    omega
  have hstarts : starts (e :: es) p = starts es p := by
    unfold starts
    rw [filter_cons_of_neg]
    rw [decide_eq_true_eq]
    omega
  have hcovers : covers (e :: es) p = covers es p := by
    unfold covers
    rw [any_cons, decide_eq_false, Bool.false_or]
    omega
  unfold piece
  rw [hinserts, hstarts, hcovers]

theorem piece_insert (hs : e.start.toNat = p) (he : e.end_.toNat = p) :
    piece source (e :: es) p = Utf8.bytes e.replacement ++ piece source es p := by
  have hinserts : inserts (e :: es) p = e :: inserts es p := by
    unfold inserts
    rw [filter_cons_of_pos]
    rw [decide_eq_true_eq]
    exact ⟨hs, he⟩
  have hstarts : starts (e :: es) p = starts es p := by
    unfold starts
    rw [filter_cons_of_neg]
    rw [decide_eq_true_eq]
    omega
  have hcovers : covers (e :: es) p = covers es p := by
    unfold covers
    rw [any_cons, decide_eq_false, Bool.false_or]
    omega
  unfold piece texts
  rw [hinserts, hstarts, hcovers, flatMap_cons]
  simp

/-- The first byte of a replaced range is the replacement, the others are nothing. -/
theorem piece_replaced (hs : e.start.toNat ≤ p) (he : p < e.end_.toNat)
    (hafter : ∀ x ∈ es, p < x.start.toNat) : piece source (e :: es) p =
      if e.start.toNat = p then Utf8.bytes e.replacement else [] := by
  have hinserts : inserts (e :: es) p = [] := by
    unfold inserts
    rw [filter_eq_nil_iff]
    intro x hx
    rw [decide_eq_true_eq]
    rcases mem_cons.mp hx with rfl | hx
    · omega
    · have hlt := hafter x hx
      omega
  have hstarts : starts (e :: es) p = if e.start.toNat = p then [e] else [] := by
    have hrest : starts es p = [] := by
      unfold starts
      rw [filter_eq_nil_iff]
      intro x hx
      have hlt := hafter x hx
      rw [decide_eq_true_eq]
      omega
    unfold starts at hrest ⊢
    rw [filter_cons, hrest]
    by_cases hat : e.start.toNat = p
    · rw [if_pos hat, if_pos]
      rw [decide_eq_true_eq]
      exact ⟨hat, he⟩
    · rw [if_neg hat, if_neg]
      rw [decide_eq_true_eq]
      exact fun h => hat h.1
  have hcovers : covers (e :: es) p = true := by
    unfold covers
    rw [any_cons, decide_eq_true ⟨hs, he⟩, Bool.true_or]
  unfold piece texts
  rw [hinserts, hstarts, hcovers]
  by_cases hat : e.start.toNat = p
  · rw [if_pos hat, if_pos hat]
    simp
  · rw [if_neg hat, if_neg hat]
    rfl

theorem flatMap_range'_congr {α : Type} {f g : Nat → List α} {s k : Nat}
    (h : ∀ p, s ≤ p → p < s + k → f p = g p) :
    (List.range' s k).flatMap f = (List.range' s k).flatMap g := by
  apply flatMap_congr
  intro p hp
  obtain ⟨hlo, hhi⟩ := mem_range'_1.mp hp
  exact h p hlo hhi

/-- The bytes of a range, one by one. -/
theorem flatMap_bytes (hs : c ≤ n) (hn : n ≤ source.length) :
    (List.range' c (n - c)).flatMap (fun p => source[p]?.toList) = slice source c n := by
  obtain ⟨k, rfl⟩ : ∃ k, n = c + k := ⟨n - c, by omega⟩
  unfold slice
  rw [Nat.add_sub_cancel_left]
  induction k with
  | zero => simp
  | succ k ih =>
    have hlt : c + k < source.length := by omega
    rw [List.range'_1_concat, flatMap_append, ih (by omega) (by omega), take_add_one,
      getElem?_drop, flatMap_singleton, getElem?_eq_getElem hlt]

theorem flatMap_drop (hc : c ≤ source.length) :
    (List.range' c (source.length + 1 - c)).flatMap (fun p => source[p]?.toList) =
      source.drop c := by
  have hsplit : source.length + 1 - c = (source.length - c) + 1 := by omega
  have hend : source[c + (source.length - c)]? = none := by
    rw [getElem?_eq_none_iff]
    omega
  rw [hsplit, List.range'_1_concat, flatMap_append, flatMap_bytes hc le_rfl,
    flatMap_singleton, hend]
  unfold slice
  rw [take_of_length_le (by rw [length_drop])]
  exact append_nil _

/-- From the start of the first edit on: its text, and what the others make of the bytes behind. -/
theorem written_of_edit (hse : e.start.toNat ≤ e.end_.toNat) (hlen : e.end_.toNat ≤ source.length)
    (hafter : ∀ x ∈ es, e.end_.toNat ≤ x.start.toNat) :
    (List.range' e.start.toNat (e.end_.toNat - e.start.toNat)).flatMap (piece source (e :: es)) ++
      (List.range' e.end_.toNat (source.length + 1 - e.end_.toNat)).flatMap
        (piece source (e :: es)) =
    Utf8.bytes e.replacement ++
      (List.range' e.end_.toNat (source.length + 1 - e.end_.toNat)).flatMap (piece source es) := by
  rcases Nat.eq_or_lt_of_le hse with hsame | hlt
  · -- an insertion stands first among the pieces of its offset
    obtain ⟨k, hk⟩ : ∃ k, source.length + 1 - e.end_.toNat = k + 1 :=
      ⟨source.length - e.end_.toNat, by omega⟩
    have hbehind : (List.range' (e.end_.toNat + 1) k).flatMap (piece source (e :: es)) =
        (List.range' (e.end_.toNat + 1) k).flatMap (piece source es) := by
      apply flatMap_range'_congr
      intro p hp _
      exact piece_behind (by omega) (by omega)
    rw [hk, hsame, Nat.sub_self, List.range'_zero, flatMap_nil, nil_append,
      List.range'_succ, flatMap_cons, flatMap_cons, piece_insert hsame rfl, hbehind,
      append_assoc]
  · obtain ⟨k, hk⟩ : ∃ k, e.end_.toNat - e.start.toNat = k + 1 :=
      ⟨e.end_.toNat - e.start.toNat - 1, by omega⟩
    have hfirst : piece source (e :: es) e.start.toNat = Utf8.bytes e.replacement := by
      rw [piece_replaced le_rfl hlt fun x hx => by have hle := hafter x hx; omega, if_pos rfl]
    have hcovered : (List.range' (e.start.toNat + 1) k).flatMap (piece source (e :: es)) = [] := by
      rw [flatMap_eq_nil_iff]
      intro p hp
      obtain ⟨hlo, hhi⟩ := mem_range'_1.mp hp
      rw [piece_replaced (by omega) (by omega) fun x hx => by have hle := hafter x hx; omega,
        if_neg (by omega)]
    have hbehind : (List.range' e.end_.toNat (source.length + 1 - e.end_.toNat)).flatMap
        (piece source (e :: es)) =
        (List.range' e.end_.toNat (source.length + 1 - e.end_.toNat)).flatMap
          (piece source es) := by
      apply flatMap_range'_congr
      intro p hp _
      exact piece_behind hp (by omega)
    rw [hk, List.range'_succ, flatMap_cons, hfirst, hcovered, append_nil, hbehind]

/-- Behind the cursor the run writes the pieces. -/
theorem rebuild_eq (hc : c ≤ source.length) (h : Chained source c es) : rebuild source c es =
    (List.range' c (source.length + 1 - c)).flatMap (piece source es) := by
  induction es generalizing c with
  | nil =>
    rw [rebuild, ← flatMap_drop hc]
    exact flatMap_range'_congr fun p _ _ => (piece_before fun x hx => absurd hx not_mem_nil).symm
  | cons e es ih =>
    obtain ⟨hcs, hse, hlen, hrest⟩ := h
    have hafter : ∀ x ∈ es, e.end_.toNat ≤ x.start.toNat := fun x hx => (hrest.start_le x hx).1
    have hsplit : List.range' c (source.length + 1 - c) =
        List.range' c (e.start.toNat - c) ++
          (List.range' e.start.toNat (e.end_.toNat - e.start.toNat) ++
            List.range' e.end_.toNat (source.length + 1 - e.end_.toNat)) := by
      have hfirst := @List.range'_append_1 c (e.start.toNat - c) (source.length + 1 - e.start.toNat)
      have hsecond := @List.range'_append_1 e.start.toNat (e.end_.toNat - e.start.toNat)
        (source.length + 1 - e.end_.toNat)
      rw [Nat.add_sub_cancel' hcs] at hfirst
      rw [Nat.add_sub_cancel' hse] at hsecond
      have hlen1 : e.start.toNat - c + (source.length + 1 - e.start.toNat) =
          source.length + 1 - c := by omega
      have hlen2 : e.end_.toNat - e.start.toNat + (source.length + 1 - e.end_.toNat) =
          source.length + 1 - e.start.toNat := by omega
      rw [hsecond, hlen2, hfirst, hlen1]
    have hkept : (List.range' c (e.start.toNat - c)).flatMap (piece source (e :: es)) =
        slice source c e.start.toNat := by
      rw [← flatMap_bytes hcs (hse.trans hlen)]
      apply flatMap_range'_congr
      intro p _ hp
      apply piece_before
      intro x hx
      rcases mem_cons.mp hx with rfl | hx
      · omega
      · have hlt := hafter x hx
        omega
    rw [rebuild, ih hlen hrest, hsplit, flatMap_append, flatMap_append, hkept,
      append_assoc]
    congr 1
    exact (written_of_edit hse hlen hafter).symm

/-! ## In any order -/

/-- Sorting keeps the order of the insertions at an offset. -/
theorem inserts_sorted (edits : List Edit) (p : Nat) :
    inserts (edits.mergeSort Edit.le) p = inserts edits p := by
  have hpair : (inserts edits p).Pairwise fun a b => a.le b = true := by
    have hat : ∀ a ∈ inserts edits p, a.start.toNat = p ∧ a.end_.toNat = p := by
      intro a ha
      have hpa := (mem_filter.mp ha).2
      rwa [decide_eq_true_eq] at hpa
    rw [pairwise_iff_getElem]
    intro i j hi hj _
    have hi' := hat _ (getElem_mem hi)
    have hj' := hat _ (getElem_mem hj)
    rw [le_iff]
    omega
  have hsub : (inserts edits p).Sublist (edits.mergeSort Edit.le) :=
    sublist_mergeSort le_trans_edit le_total_edit hpair filter_sublist
  have hsub' : (inserts edits p).Sublist (inserts (edits.mergeSort Edit.le) p) := by
    have hfilter := hsub.filter fun e => e.start.toNat = p ∧ e.end_.toNat = p
    have hsame : (inserts edits p).filter (fun e => e.start.toNat = p ∧ e.end_.toNat = p) =
        inserts edits p := by
      unfold inserts
      rw [filter_filter]
      simp
    rwa [hsame] at hfilter
  have hlen := ((perm_sorted edits).filter fun e => e.start.toNat = p ∧ e.end_.toNat = p).length_eq
  exact (hsub'.eq_of_length hlen.symm).symm

/-- Replacements that start at one offset overlap, so there is one at most. -/
theorem starts_perm (hp : edits'.Perm edits) (h : ¬Conflict source edits) :
    starts edits' p = starts edits p := by
  obtain ⟨-, hapart⟩ := not_conflict_iff.mp h
  have hshort : (starts edits p).length ≤ 1 := by
    have hpair : (starts edits p).Pairwise fun _ _ => False := by
      apply Pairwise.imp_of_mem _ (hapart.filter _)
      intro a b ha hb hnot
      have hpa := (mem_filter.mp ha).2
      have hpb := (mem_filter.mp hb).2
      rw [decide_eq_true_eq] at hpa hpb
      apply hnot
      refine .inl ⟨a.start, ?_, ?_, ?_, ?_⟩
      · exact UInt32.le_refl _
      · rw [UInt32.lt_iff_toNat_lt]
        omega
      · rw [UInt32.le_iff_toNat_le]
        omega
      · rw [UInt32.lt_iff_toNat_lt]
        omega
    match hs : starts edits p with
    | [] => exact Nat.zero_le _
    | [x] => exact le_rfl
    | x :: y :: rest =>
      rw [hs] at hpair
      exact ((pairwise_cons.mp hpair).1 y mem_cons_self).elim
  have hperm : (starts edits' p).Perm (starts edits p) := hp.filter _
  match hs : starts edits p with
  | [] =>
    rw [hs] at hperm
    exact hperm.eq_nil
  | [x] =>
    rw [hs] at hperm
    exact perm_singleton.mp hperm
  | x :: y :: rest =>
    rw [hs] at hshort
    exact absurd hshort (by simp)

theorem piece_perm (hp : edits'.Perm edits) (h : ¬Conflict source edits)
    (hinserts : inserts edits' p = inserts edits p) :
    piece source edits' p = piece source edits p := by
  have hcovers : covers edits' p = covers edits p := by
    unfold covers
    rw [Bool.eq_iff_iff, any_eq_true, any_eq_true]
    simp only [hp.mem_iff]
  unfold piece
  rw [hinserts, starts_perm hp h, hcovers]

theorem apply_edits_eq (h : ¬Conflict source edits) :
    apply_edits source edits = some (replaced source edits) := by
  have hchain := chained_iff.mpr h
  have hpieces : piece source (edits.mergeSort Edit.le) = piece source edits := by
    funext p
    exact piece_perm (perm_sorted edits) h (inserts_sorted edits p)
  unfold apply_edits replaced
  rw [apply_chained hchain, nil_append, rebuild_eq (Nat.zero_le _) hchain, hpieces,
    Nat.sub_zero, range_eq_range']

theorem apply_edits_none : apply_edits source edits = none ↔ Conflict source edits := by
  constructor
  · intro hnone
    by_contra h
    rw [apply_edits_eq h] at hnone
    cases hnone
  · intro h
    exact apply_unchained fun hchain => chained_iff.mp hchain h

theorem apply_edits_perm (hp : edits'.Perm edits)
    (hinserts : ∀ p, inserts edits' p = inserts edits p) :
    apply_edits source edits' = apply_edits source edits := by
  by_cases h : Conflict source edits
  · rw [apply_edits_none.mpr h, apply_edits_none.mpr ((conflict_perm hp).mpr h)]
  · rw [apply_edits_eq h, apply_edits_eq fun h' => h ((conflict_perm hp).mp h')]
    unfold replaced
    congr 2
    funext p
    exact piece_perm hp h (hinserts p)

/-! ## One after the other -/

theorem apply_one (hse : e.start.toNat ≤ e.end_.toNat) (hlen : e.end_.toNat ≤ source.length) :
    apply_edits source [e] = some (source.take e.start.toNat ++ Utf8.bytes e.replacement ++
      source.drop e.end_.toNat) := by
  have hchain : Chained source 0 [e] := ⟨Nat.zero_le _, hse, hlen, trivial⟩
  unfold apply_edits
  rw [mergeSort_singleton, apply_chained hchain]
  rfl

/-- The later edits leave what stands before them, where the earlier ones still find their places. -/
theorem apply_reversed (hc : c ≤ source.length) (h : Chained source c es) :
    es.reverse.foldlM (fun text e => apply_edits text [e]) source =
      some (source.take c ++ rebuild source c es) := by
  induction es generalizing c with
  | nil =>
    rw [rebuild, take_append_drop]
    rfl
  | cons e es ih =>
    obtain ⟨hcs, hse, hlen, hrest⟩ := h
    have htake : (source.take e.end_.toNat).length = e.end_.toNat := length_take_of_le hlen
    have hkept : source.take c ++ slice source c e.start.toNat = source.take e.start.toNat := by
      obtain ⟨k, hk⟩ : ∃ k, e.start.toNat = c + k := ⟨e.start.toNat - c, by omega⟩
      unfold slice
      rw [hk, Nat.add_sub_cancel_left, take_add]
    rw [reverse_cons, foldlM_append, ih hlen hrest]
    show (apply_edits _ [e] >>= pure) = _
    rw [bind_pure, apply_one hse (by rw [length_append]; omega),
      take_append_of_le_length (by omega), take_take, min_eq_left hse,
      drop_append_of_le_length (by omega), drop_eq_nil_of_le (by omega), nil_append,
      rebuild, ← hkept]
    simp

theorem apply_down_eq (h : apply_edits source edits = some out) :
    apply_down source edits = some out := by
  have hnot : ¬Conflict source edits := by
    intro hconflict
    rw [apply_edits_none.mpr hconflict] at h
    cases h
  have hchain := chained_iff.mpr hnot
  unfold apply_edits at h
  rw [apply_chained hchain, nil_append] at h
  unfold apply_down
  rw [apply_reversed (Nat.zero_le _) hchain, take_zero, nil_append]
  exact h

/-! ## The result -/

/-- A list of edits is refused exactly where two conflict or one is not in the source; else the
result is what all say at once, in whatever order they are listed or carried out. -/
theorem edits_exact (source : List UInt8) (edits : List Edit) :
    (apply_edits source edits = none ↔ Conflict source edits) ∧
    (¬Conflict source edits → apply_edits source edits = some (replaced source edits)) ∧
    (∀ edits' : List Edit, edits'.Perm edits → (∀ p, inserts edits' p = inserts edits p) →
      apply_edits source edits' = apply_edits source edits) ∧
    ∀ out, apply_edits source edits = some out → apply_down source edits = some out :=
  ⟨apply_edits_none, apply_edits_eq, fun _ hp hinserts => apply_edits_perm hp hinserts,
    fun _ h => apply_down_eq h⟩

end Fors.Diag
