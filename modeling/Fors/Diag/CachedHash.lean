import Fors.Diag.Cached

/-!
# The hash of a cached diagnostic

Two diagnostics are encoded alike when they agree in all but the kinds and the edits of their
fixes. There is one more case, in which the last digit of a five-digit code is taken for a byte of
the site: it needs more than four thousand million fixes.

Principal result: `cached_iff`.
-/

namespace Fors.Diag

open LittleEndian PrefixCode List

/-- Two diagnostics at the same place of their declarations. -/
structure SamePlace (d : Diagnostic) (o : UInt32) (d' : Diagnostic) (o' : UInt32) : Prop where
  offset : (d.start.toNat : Int) - o.toNat = d'.start.toNat - o'.toNat
  len : d.end_.toNat - d.start.toNat = d'.end_.toNat - d'.start.toNat

/-- What is hashed of a diagnostic besides its place. -/
structure Text where
  code : Code
  site : UInt16
  message : String
  titles : List String
  deriving DecidableEq

def Diagnostic.text (d : Diagnostic) : Text :=
  ⟨d.code, d.site, d.message, d.fixes.map Fix.title⟩

/-- The fifth digit of the second code is the low byte of the first site, and the bytes behind it
agree as well. -/
structure Blurred (x y : Text) : Prop where
  code : Utf8.bytes y.code.as_string = Utf8.bytes x.code.as_string ++ [.ofNat x.site.toNat]
  site : y.site.toNat = x.site.toNat / 256 + 0xFF00
  message : x.message = ""
  titles : y.message = "" ∧ x.titles = "" :: y.titles ∧ x.titles.length % 2 ^ 32 = 0xFEFEFEFF ∨
    y.message = "\x00" ∧ x.titles = "" :: "" :: y.titles ∧
      x.titles.length % 2 ^ 32 = 0xFEFEFF00

/-! ## The parts of an encoding -/

variable {k : Nat}

theorem mem_padded {c : Char} (h : c ∈ padded k) : ∃ d < 10, c = d.digitChar := by
  obtain h | h := mem_append.mp h
  · exact ⟨0, by decide, (eq_of_mem_replicate h)⟩
  · exact Numerals.mem_toDigits (by decide) h

theorem length_padded (hk : k < 2 ^ 16) :
    (padded k).length = 4 ∨ (padded k).length = 5 := by
  have hle := (Nat.length_toDigits_le_iff (b := 10) (n := k) (k := 5) (by decide) (by decide)).mpr
    (by omega)
  unfold padded
  rw [length_append, length_replicate]
  omega

theorem padded_inj {k' : Nat} (h : padded k = padded k') : k = k' := by
  have hread : ∀ n : Nat, n ≤ max k k' →
      Numerals.accumulate 0 (max k k' : Nat) 10 false 0 (padded n) = some (n : Int) := by
    intro n hn
    unfold padded
    rw [Numerals.accumulate_zeros (by decide) (by decide) (by omega) (by omega)]
    refine Numerals.accumulate_toDigits (by decide) (by decide) (by omega) (by omega) ?_
    change (0 : Int) ≤ (n : Int) ∧ (n : Int) ≤ (max k k' : Nat)
    omega
  have hk := hread k (Nat.le_max_left ..)
  rw [h, hread k' (Nat.le_max_right ..)] at hk
  exact Int.ofNat.inj (Option.some.inj hk).symm

theorem Code.as_string_eq (c : Code) : ∃ letter ∈ ['N', 'A', 'T', 'O', 'F', 'D'], ∃ k : UInt16,
    c.as_string = code_string letter k := by
  cases c <;> exact ⟨_, by decide, _, rfl⟩

theorem Code.as_string_inj {c c' : Code} (h : c.as_string = c'.as_string) : c = c' := by
  have hparts : ∀ {x y : Char} {k k' : UInt16}, code_string x k = code_string y k' →
      x = y ∧ k = k' := by
    intro x y k k' h
    obtain ⟨hx, hk⟩ := cons.inj (String.ofList_injective h)
    exact ⟨hx, UInt16.toNat_inj.mp (padded_inj hk)⟩
  cases c <;> cases c' <;> obtain ⟨hletter, hk⟩ := hparts h <;>
    first | exact absurd hletter (by decide) | rw [hk]

/-- A code takes five or six bytes. -/
theorem length_code_bytes (c : Code) :
    (Utf8.bytes c.as_string).length = 5 ∨ (Utf8.bytes c.as_string).length = 6 := by
  obtain ⟨letter, hletter, k, hcode⟩ := c.as_string_eq
  have hascii : ∀ s : List Char, (∀ c ∈ s, c.utf8Size = 1) → (Utf8.encode s).length = s.length := by
    intro s hs
    induction s with
    | nil => rfl
    | cons c s ih =>
      rw [Utf8.encode_cons, length_append, String.length_utf8EncodeChar,
        hs c mem_cons_self, ih fun c hc => hs c (mem_cons_of_mem _ hc),
        length_cons, Nat.add_comm]
  have hsizes : ∀ d < 10, (Nat.digitChar d).utf8Size = 1 := by decide
  have hletters : ∀ c ∈ ['N', 'A', 'T', 'O', 'F', 'D'], c.utf8Size = 1 := by
    intro c hc
    simp only [mem_cons, not_mem_nil, or_false] at hc
    rcases hc with rfl | rfl | rfl | rfl | rfl | rfl <;> rfl
  have hlen := length_padded k.toNat_lt
  rw [hcode, Utf8.bytes, code_string, String.toList_ofList, hascii _ fun c hc => ?_,
    length_cons]
  · omega
  · obtain rfl | hc := mem_cons.mp hc
    · exact hletters _ hletter
    · obtain ⟨d, hd, rfl⟩ := mem_padded hc
      exact hsizes d hd

theorem not_mem_bytes {b : UInt8} (hb : 0xF8 ≤ b.toNat) (s : String) : b ∉ Utf8.bytes s :=
  fun h => absurd (Utf8.encode_lt h) (Nat.not_lt.mpr hb)

theorem cuts_title : Cut fun title : String => Utf8.bytes title ++ [(0xFE : UInt8)] :=
  cuts_ended (fun _ _ _ _ h => Utf8.bytes_inj h) fun s _ => not_mem_bytes (by decide) s

theorem title_bytes_inj {titles titles' : List String} (h : title_bytes titles = title_bytes titles') :
    titles = titles' :=
  cuts_title.flatMap_inj (by simp) (fun _ _ => trivial) (fun _ _ => trivial) h

theorem count_title_bytes (titles : List String) : (title_bytes titles).count 0xFE = titles.length := by
  induction titles with
  | nil => rfl
  | cons title titles ih =>
    have hnone := count_eq_zero.mpr (not_mem_bytes (b := 0xFE) (by decide) title)
    change ((Utf8.bytes title ++ [0xFE]) ++ title_bytes titles).count 0xFE = _
    rw [count_append, count_append, hnone, ih, length_cons]
    simp [Nat.add_comm]

theorem not_mem_title_bytes (titles : List String) : (0xFF : UInt8) ∉ title_bytes titles := by
  intro h
  obtain ⟨title, -, h⟩ := mem_flatMap.mp h
  obtain h | h := mem_append.mp h
  · exact not_mem_bytes (by decide) title h
  · exact absurd (mem_singleton.mp h) (by decide)

theorem le_bytes_four (n : Nat) : ∃ a b c d : UInt8, le_bytes 4 n = [a, b, c, d] ∧
    a.toNat + 256 * (b.toNat + 256 * (c.toNat + 256 * d.toNat)) = n % 2 ^ 32 := by
  refine ⟨_, _, _, _, rfl, ?_⟩
  simp only [UInt8.toNat_ofNat']
  omega

/-! ## What an encoding determines -/

/-- The part of an encoding behind the code. -/
def Text.tail (x : Text) : List UInt8 :=
  le_bytes 2 x.site.toNat ++ 0xFF ::
    (Utf8.bytes x.message ++ 0xFF :: (le_bytes 4 x.titles.length ++ title_bytes x.titles))

variable {x y : Text}

theorem Text.tail_inj (h : x.tail = y.tail) :
    x.site = y.site ∧ x.message = y.message ∧ x.titles = y.titles := by
  unfold Text.tail at h
  obtain ⟨hsite, h⟩ := append_inj h (by simp)
  obtain ⟨hmessage, h⟩ := split_inj (not_mem_bytes (by decide) _) (not_mem_bytes (by decide) _)
    (cons.inj h).2
  obtain ⟨-, htitles⟩ := append_inj h (by simp)
  have hvalue := le_bytes_inj x.site.toNat_lt y.site.toNat_lt hsite
  exact ⟨UInt16.toNat_inj.mp hvalue, Utf8.bytes_inj hmessage, title_bytes_inj htitles⟩

theorem count_cons_fe (x : UInt8) (T : List UInt8) :
    (x :: T).count 0xFE = T.count 0xFE + if x.toNat = 254 then 1 else 0 := by
  have heq : (x == 0xFE) = true ↔ x.toNat = 254 := by
    rw [beq_iff_eq, ← UInt8.toNat_inj]
    rfl
  rw [count_cons]
  simp [heq]

/-- A sum byte by byte. -/
theorem carries {a b c d a' b' c' d' j : Nat} (ha : a < 256) (hb : b < 256) (hc : c < 256)
    (h : a + 256 * (b + 256 * (c + 256 * d)) = a' + 256 * (b' + 256 * (c' + 256 * d')) + j) :
    ∃ k0 k1 k2 : Nat, a + 256 * k0 = a' + j ∧ b + 256 * k1 = b' + k0 ∧ c + 256 * k2 = c' + k1 ∧
      d = d' + k2 := by
  have h0 : a + 256 * ((a' + j) / 256) = a' + j := by omega
  have h1 : b + 256 * ((b' + (a' + j) / 256) / 256) = b' + (a' + j) / 256 := by omega
  exact ⟨_, _, (c' + (b' + (a' + j) / 256) / 256) / 256, h0, h1, by omega, by omega⟩

/-- Where the count of the first stands behind the message of the second: both lists of titles end
alike, and the first has one or two empty titles more. -/
theorem overlap_counts {count count' : Nat} {T T' msg : List UInt8}
    (hcount : T.count 0xFE = count) (hcount' : T'.count 0xFE = count') (hT : 0xFF ∉ T)
    (h : le_bytes 4 count ++ T = msg ++ 0xFF :: (le_bytes 4 count' ++ T')) :
    msg = [] ∧ T = 0xFE :: T' ∧ count % 2 ^ 32 = 0xFEFEFEFF ∨
      msg = [0] ∧ T = 0xFE :: 0xFE :: T' ∧ count % 2 ^ 32 = 0xFEFEFF00 := by
  obtain ⟨a, b, c, d, hbytes, hvalue⟩ := le_bytes_four count
  obtain ⟨a', b', c', d', hbytes', hvalue'⟩ := le_bytes_four count'
  rw [hbytes, hbytes'] at h
  have hfe : ∀ x : UInt8, x.toNat = 254 → x = 0xFE := fun x hx => UInt8.toNat_inj.mp hx
  have hff : ∀ x ∈ T, x.toNat ≠ 255 := by
    intro x hx heq
    have hx255 : x = 0xFF := UInt8.toNat_inj.mp heq
    exact hT (hx255 ▸ hx)
  have h255 : (0xFF : UInt8).toNat = 255 := rfl
  have ha := a.toNat_lt
  have hb := b.toNat_lt
  have hc := c.toNat_lt
  have hd := d.toNat_lt
  have ha' := a'.toNat_lt
  have hb' := b'.toNat_lt
  have hc' := c'.toNat_lt
  have hd' := d'.toNat_lt
  -- the first count is the second and the titles that are bytes of it
  have hsum : ∀ j ≤ 4, count = count' + j → 4 ≤ count % 2 ^ 32 →
      ∃ k0 k1 k2 : Nat, a.toNat + 256 * k0 = a'.toNat + j ∧ b.toNat + 256 * k1 = b'.toNat + k0 ∧
        c.toNat + 256 * k2 = c'.toNat + k1 ∧ d.toNat = d'.toNat + k2 := by
    intro j hj hcounts hge
    have hstep : count % 2 ^ 32 = count' % 2 ^ 32 + j := by omega
    rw [← hvalue, ← hvalue'] at hstep
    exact carries ha hb hc hstep
  match msg with
  | [] =>
    simp only [cons_append, nil_append, cons.injEq] at h
    obtain ⟨rfl, rfl, rfl, rfl, rfl⟩ := h
    have hne := hff d' mem_cons_self
    rw [count_cons_fe] at hcount
    rw [h255] at hvalue hsum
    obtain ⟨k0, k1, k2, h0, h1, h2, h3⟩ := hsum _ (by split <;> omega) (hcount' ▸ hcount.symm)
      (by omega)
    split at h0
    · rename_i h254
      exact .inl ⟨rfl, by rw [hfe _ h254], by omega⟩
    · omega
  | [x] =>
    simp only [cons_append, nil_append, cons.injEq] at h
    obtain ⟨rfl, rfl, rfl, rfl, rfl⟩ := h
    have hne := hff c' (by simp)
    have hne' := hff d' (by simp)
    rw [count_cons_fe, count_cons_fe, Nat.add_assoc] at hcount
    rw [h255] at hvalue hsum
    obtain ⟨k0, k1, k2, h0, h1, h2, h3⟩ := hsum _ (by split <;> split <;> omega)
      (hcount' ▸ hcount.symm) (by omega)
    split at h0 <;> split at h0
    · rename_i hd254 hc254
      have hzero : a.toNat = 0 := by omega
      have ha : a = 0 := UInt8.toNat_inj.mp hzero
      refine .inr ⟨by rw [ha], by rw [hfe _ hc254, hfe _ hd254], by omega⟩
    all_goals omega
  | [x, y] =>
    simp only [cons_append, nil_append, cons.injEq] at h
    obtain ⟨rfl, rfl, rfl, rfl, rfl⟩ := h
    have hne := hff b' (by simp)
    have hne' := hff c' (by simp)
    have hne'' := hff d' (by simp)
    rw [count_cons_fe, count_cons_fe, count_cons_fe, Nat.add_assoc, Nat.add_assoc] at hcount
    rw [h255] at hvalue hsum
    obtain ⟨k0, k1, k2, h0, h1, h2, h3⟩ := hsum _ (by split <;> split <;> split <;> omega)
      (hcount' ▸ hcount.symm) (by omega)
    split at h0 <;> split at h0 <;> split at h0 <;> omega
  | [x, y, z] =>
    simp only [cons_append, nil_append, cons.injEq] at h
    obtain ⟨rfl, rfl, rfl, rfl, rfl⟩ := h
    have hne := hff b' (by simp)
    have hne' := hff c' (by simp)
    have hne'' := hff d' (by simp)
    rw [count_cons_fe, count_cons_fe, count_cons_fe, count_cons_fe, Nat.add_assoc, Nat.add_assoc,
      Nat.add_assoc] at hcount
    rw [h255] at hvalue hsum
    obtain ⟨k0, k1, k2, h0, h1, h2, h3⟩ := hsum _
      (by split <;> split <;> split <;> split <;> omega) (hcount' ▸ hcount.symm) (by omega)
    split at h0 <;> split at h0 <;> split at h0 <;> split at h0 <;> omega
  | x :: y :: z :: w :: rest =>
    simp only [cons_append, nil_append, cons.injEq] at h
    obtain ⟨-, -, -, -, rfl⟩ := h
    exact absurd (by simp) hT

theorem le_bytes_two (n : Nat) : le_bytes 2 n = [.ofNat n, .ofNat (n / 256)] :=
  rfl

theorem title_bytes_cons (title : String) (titles : List String) :
    title_bytes (title :: titles) = Utf8.bytes title ++ 0xFE :: title_bytes titles := by
  change (Utf8.bytes title ++ [0xFE]) ++ title_bytes titles = _
  rw [append_assoc, singleton_append]

theorem bytes_nul : Utf8.bytes "\x00" = [0] :=
  rfl

theorem bytes_empty : Utf8.bytes "" = [] :=
  rfl

/-- A five-digit code's last digit stands where the site of a four-digit one begins. -/
theorem blurred_iff :
    Blurred x y ↔ ∃ digit : UInt8, Utf8.bytes y.code.as_string =
      Utf8.bytes x.code.as_string ++ [digit] ∧ x.tail = digit :: y.tail := by
  have hlt := x.site.toNat_lt
  have hlt' := y.site.toNat_lt
  constructor
  · rintro ⟨hcode, hsite, hmessage, htitles⟩
    refine ⟨_, hcode, ?_⟩
    have hlow : UInt8.ofNat y.site.toNat = .ofNat (x.site.toNat / 256) := by
      apply UInt8.toNat_inj.mp
      rw [UInt8.toNat_ofNat', UInt8.toNat_ofNat']
      omega
    have hhigh : UInt8.ofNat (y.site.toNat / 256) = 0xFF := by
      apply UInt8.toNat_inj.mp
      rw [UInt8.toNat_ofNat']
      change _ = 255
      omega
    have hcounts : ∀ n : Nat, le_bytes 4 n = le_bytes 4 (n % 2 ^ 32) := by
      intro n
      have h := le_bytes_of_le_bytes (le_bytes 4 n)
      rwa [length_le_bytes, of_le_bytes_le_bytes, eq_comm] at h
    unfold Text.tail
    rw [le_bytes_two, le_bytes_two, hlow, hhigh, hmessage, bytes_empty]
    obtain ⟨hmessage', htitles, hcount⟩ | ⟨hmessage', htitles, hcount⟩ := htitles
    · have hcount' : y.titles.length % 2 ^ 32 = 0xFEFEFEFE := by
        rw [htitles, length_cons] at hcount
        omega
      rw [hcounts, hcount, hmessage', bytes_empty, hcounts y.titles.length, hcount', htitles,
        title_bytes_cons, bytes_empty]
      rfl
    · have hcount' : y.titles.length % 2 ^ 32 = 0xFEFEFEFE := by
        rw [htitles, length_cons, length_cons] at hcount
        omega
      rw [hcounts, hcount, hmessage', bytes_nul, hcounts y.titles.length, hcount', htitles,
        title_bytes_cons, title_bytes_cons, bytes_empty]
      rfl
  · rintro ⟨digit, hcode, htail⟩
    unfold Text.tail at htail
    rw [le_bytes_two, le_bytes_two] at htail
    simp only [cons_append, nil_append, cons.injEq] at htail
    obtain ⟨rfl, hlow, hhigh, hrest⟩ := htail
    have hlow := congrArg UInt8.toNat hlow
    have hhigh := congrArg UInt8.toNat hhigh
    rw [UInt8.toNat_ofNat', UInt8.toNat_ofNat'] at hlow
    rw [UInt8.toNat_ofNat'] at hhigh
    change 255 = _ at hhigh
    have hempty : Utf8.bytes x.message = [] := by
      cases hbytes : Utf8.bytes x.message with
      | nil => rfl
      | cons b bytes =>
        rw [hbytes, cons_append] at hrest
        have hmem : (0xFF : UInt8) ∈ Utf8.bytes x.message := by
          rw [hbytes, (cons.inj hrest).1]
          exact mem_cons_self
        exact absurd hmem (not_mem_bytes (by decide) _)
    rw [hempty, nil_append] at hrest
    refine ⟨hcode, by omega, Utf8.bytes_inj (hempty.trans bytes_empty.symm), ?_⟩
    obtain ⟨hmessage, htitles, hcount⟩ | ⟨hmessage, htitles, hcount⟩ :=
      overlap_counts (count_title_bytes _) (count_title_bytes _) (not_mem_title_bytes _)
        (cons.inj hrest).2
    · refine .inl ⟨Utf8.bytes_inj (hmessage.trans bytes_empty.symm), title_bytes_inj ?_, hcount⟩
      rw [htitles, title_bytes_cons, bytes_empty, nil_append]
    · refine .inr ⟨Utf8.bytes_inj (hmessage.trans bytes_nul.symm), title_bytes_inj ?_, hcount⟩
      rw [htitles, title_bytes_cons, title_bytes_cons, bytes_empty, nil_append,
        nil_append]

theorem eq_or_blurred {mid : List UInt8}
    (hcode : Utf8.bytes y.code.as_string = Utf8.bytes x.code.as_string ++ mid)
    (htail : x.tail = mid ++ y.tail) : x = y ∨ Blurred x y := by
  have hlen := length_code_bytes x.code
  have hlen' := length_code_bytes y.code
  have hmid := congrArg List.length hcode
  rw [length_append] at hmid
  match mid with
  | [] =>
    rw [append_nil] at hcode
    have hcode := Code.as_string_inj (Utf8.bytes_inj hcode)
    obtain ⟨hsite, hmessage, htitles⟩ := Text.tail_inj htail
    obtain ⟨code, site, message, titles⟩ := x
    obtain ⟨code', site', message', titles'⟩ := y
    simp only at hcode hsite hmessage htitles
    rw [hcode, hsite, hmessage, htitles]
    exact .inl rfl
  | [digit] => exact .inr (blurred_iff.mpr ⟨digit, hcode, htail⟩)
  | _ :: _ :: _ =>
    rw [length_cons, length_cons] at hmid
    omega

theorem text_bytes_of_blurred (h : Blurred x y) :
    Utf8.bytes x.code.as_string ++ x.tail = Utf8.bytes y.code.as_string ++ y.tail := by
  obtain ⟨digit, hcode, htail⟩ := blurred_iff.mp h
  rw [hcode, htail, append_assoc, singleton_append]

theorem text_bytes_eq_iff :
    Utf8.bytes x.code.as_string ++ x.tail = Utf8.bytes y.code.as_string ++ y.tail ↔
      x = y ∨ Blurred x y ∨ Blurred y x := by
  constructor
  · intro h
    obtain ⟨mid, hcode, htail⟩ | ⟨mid, hcode, htail⟩ := append_eq_append_iff.mp h
    · obtain heq | hblur := eq_or_blurred hcode htail
      · exact .inl heq
      · exact .inr (.inl hblur)
    · obtain heq | hblur := eq_or_blurred hcode htail
      · exact .inl heq.symm
      · exact .inr (.inr hblur)
  · rintro (rfl | h | h)
    · rfl
    · exact text_bytes_of_blurred h
    · exact (text_bytes_of_blurred h).symm

variable {d d' : Diagnostic} {o o' o1 o2 : UInt32} {file : FileId}

theorem encoding_of (d : Diagnostic) (o : UInt32) : (CachedDiag.of d o).encoding =
    le_bytes 8 (((d.start.toNat : Int) - o.toNat) % 2 ^ 64).toNat ++
      (le_bytes 4 (saturating_sub d.end_ d.start).toNat ++
        (Utf8.bytes d.text.code.as_string ++ d.text.tail)) := by
  unfold Text.tail Diagnostic.text
  rw [length_map]
  rfl

theorem encoding_eq_iff (hd : d.start ≤ d.end_) (hd' : d'.start ≤ d'.end_) :
    (CachedDiag.of d o).encoding = (CachedDiag.of d' o').encoding ↔ SamePlace d o d' o' ∧
      (d.text = d'.text ∨ Blurred d.text d'.text ∨ Blurred d'.text d.text) := by
  have hlen := toNat_saturating_sub hd
  have hlen' := toNat_saturating_sub hd'
  rw [encoding_of, encoding_of]
  constructor
  · intro h
    obtain ⟨hoffset, h⟩ := append_inj h (by simp)
    obtain ⟨hlen, h⟩ := append_inj h (by simp)
    have hoffset := congrArg of_le_bytes hoffset
    have hlen := congrArg of_le_bytes hlen
    rw [of_le_bytes_le_bytes, of_le_bytes_le_bytes] at hoffset hlen
    have h1 := d.start.toNat_lt
    have h2 := o.toNat_lt
    have h3 := d'.start.toNat_lt
    have h4 := o'.toNat_lt
    have h5 := d.end_.toNat_lt
    have h6 := d'.end_.toNat_lt
    exact ⟨⟨by omega, by omega⟩, text_bytes_eq_iff.mp h⟩
  · rintro ⟨⟨hoffset, hlength⟩, htext⟩
    rw [hoffset, hlen, hlen', hlength, text_bytes_eq_iff.mpr htext]

/-! ## What the hash tells -/

theorem render_fields {c : CachedDiag} {r : Diagnostic} (h : c.render file o = some r) :
    r.code = c.code ∧ r.fixes = c.fixes := by
  unfold CachedDiag.render at h
  split at h
  · cases h
  · simp only at h
    split at h
    · cases h
    · cases h
      exact ⟨rfl, rfl⟩

theorem Blurred.code_ne (h : Blurred x y) : x.code ≠ y.code := by
  intro heq
  have hlen := congrArg List.length h.code
  rw [heq, length_append, length_singleton] at hlen
  omega

/-- Cached diagnostics at one place with one text differ only in their fixes. -/
theorem of_eq_of (hd : d.start ≤ d.end_) (hd' : d'.start ≤ d'.end_) (hplace : SamePlace d o d' o')
    (htext : d.text = d'.text) (hfixes : d.fixes = d'.fixes) :
    CachedDiag.of d o = CachedDiag.of d' o' := by
  have hlen : saturating_sub d.end_ d.start = saturating_sub d'.end_ d'.start := by
    apply UInt32.toNat_inj.mp
    rw [toNat_saturating_sub hd, toNat_saturating_sub hd', hplace.len]
  have hcode : d.code = d'.code := congrArg Text.code htext
  have hsite : d.site = d'.site := congrArg Text.site htext
  have hmessage : d.message = d'.message := congrArg Text.message htext
  unfold CachedDiag.of
  rw [hplace.offset, hlen, hcode, hsite, hmessage, hfixes]

theorem told_iff (hd : d.start ≤ d.end_) (hd' : d'.start ≤ d'.end_)
    (hinj : (CachedDiag.of d o).hash = (CachedDiag.of d' o').hash →
      (CachedDiag.of d o).encoding = (CachedDiag.of d' o').encoding) :
    Told (CachedDiag.of d o) (CachedDiag.of d' o') ↔
      (SamePlace d o d' o' → (d.text = d'.text → d.fixes = d'.fixes) ∧
        ¬ Blurred d.text d'.text ∧ ¬ Blurred d'.text d.text) := by
  constructor
  · intro htold hplace
    have hself : (o.toNat : Int) - o.toNat = 0 := by omega
    have hfit : ∀ x : UInt32, Fits ((o.toNat : Int) - o.toNat) x := by
      intro x
      have hlt := x.toNat_lt
      rw [hself]
      exact ⟨by omega, by omega⟩
    have hrender := render_of d.file hd (hfit d.start) (hfit d.end_)
    -- equal encodings are rendered alike, at the origin of the first as well
    have hfields : (d.text = d'.text ∨ Blurred d.text d'.text ∨ Blurred d'.text d.text) →
        d.code = d'.code ∧ d.fixes = d'.fixes := by
      intro htext
      have hhash : (CachedDiag.of d o).hash = (CachedDiag.of d' o').hash :=
        congrArg Fmir.hash_bytes ((encoding_eq_iff hd hd').mpr ⟨hplace, htext⟩)
      have hrender' := htold hhash d.file o
      rw [hrender] at hrender'
      exact render_fields hrender'.symm
    refine ⟨fun htext => (hfields (.inl htext)).2, fun hblur => ?_, fun hblur => ?_⟩
    · exact hblur.code_ne (hfields (.inr (.inl hblur))).1
    · exact hblur.code_ne (hfields (.inr (.inr hblur))).1.symm
  · intro hcond hhash file origin
    obtain ⟨hplace, htext⟩ := (encoding_eq_iff hd hd').mp (hinj hhash)
    obtain ⟨hfixes, hblur, hblur'⟩ := hcond hplace
    obtain htext | h | h := htext
    · rw [of_eq_of hd hd' hplace htext (hfixes htext)]
    · exact absurd h hblur
    · exact absurd h hblur'

/-- A cached diagnostic moves with its declaration and its hash stands for it when, and only when,
nothing moves or no fix has an edit, and no other diagnostic with its hash has other fixes. -/
theorem cached_iff (hd : d.start ≤ d.end_) (hfits : d.Fits ((o2.toNat : Int) - o1.toNat))
    (hd' : d'.start ≤ d'.end_)
    (hinj : (CachedDiag.of d o1).hash = (CachedDiag.of d' o').hash →
      (CachedDiag.of d o1).encoding = (CachedDiag.of d' o').encoding) :
    Moves d o1 file o2 ∧ Told (CachedDiag.of d o1) (CachedDiag.of d' o') ↔
      (o1 = o2 ∨ Unplaced d.fixes) ∧
        (SamePlace d o1 d' o' → (d.text = d'.text → d.fixes = d'.fixes) ∧
          ¬ Blurred d.text d'.text ∧ ¬ Blurred d'.text d.text) := by
  rw [moves_iff hd hfits, told_iff hd hd' hinj]

/-- A diagnostic at bytes 12 to 15, with these fixes. -/
def sample (fixes : List Fix) : Diagnostic :=
  ⟨0, 12, 15, .T 42, 42, "a method is read as a field", fixes⟩

/-- The fix of a call: parentheses behind the name. -/
def call_fix : Fix :=
  ⟨"call the method", .CallMethod, [⟨15, 15, "()"⟩]⟩

theorem fits_call {δ : Int} (hlow : 0 ≤ δ) (hhigh : δ ≤ 10) : (sample [call_fix]).Fits δ := by
  have hsmall : ∀ x : UInt32, x.toNat ≤ 15 → Diag.Fits δ x := fun x hx => ⟨by omega, by omega⟩
  refine ⟨hsmall 12 (by decide), hsmall 15 (by decide), fun f hf e he => ?_⟩
  rw [mem_singleton.mp hf, call_fix, mem_singleton] at he
  rw [he]
  exact ⟨hsmall 15 (by decide), hsmall 15 (by decide)⟩

/-- The edit is placed and the hash told from that of another title where nothing moves, and not
where the declaration moves. -/
theorem cached_iff_call :
    (Moves (sample [call_fix]) 10 0 10 ∧ Told (CachedDiag.of (sample [call_fix]) 10)
      (CachedDiag.of (sample [{ call_fix with title := "call it" }]) 10)) ∧
    ¬ (Moves (sample [call_fix]) 10 0 20 ∧ Told (CachedDiag.of (sample [call_fix]) 10)
      (CachedDiag.of (sample [{ call_fix with title := "call it" }]) 10)) := by
  have htold : ∀ {p : Prop}, (CachedDiag.of (sample [call_fix]) 10).hash =
      (CachedDiag.of (sample [{ call_fix with title := "call it" }]) 10).hash → p := fun h =>
    absurd h (by decide +kernel)
  constructor
  · refine (cached_iff (by decide) (fits_call (by decide) (by decide)) (by decide) htold).mpr
      ⟨.inl rfl, fun _ => ⟨fun htext => ?_, fun h => h.code_ne rfl, fun h => h.code_ne rfl⟩⟩
    exact absurd (congrArg Text.titles htext) (by decide)
  · intro h
    obtain ⟨hsame | hnone, -⟩ :=
      (cached_iff (by decide) (fits_call (by decide) (by decide)) (by decide) htold).mp h
    · exact absurd hsame (by decide)
    · exact absurd (hnone call_fix mem_cons_self) (by decide)

theorem edit_stays : (sample [call_fix]).start ≤ (sample [call_fix]).end_ ∧
    10 ≤ (sample [call_fix]).start ∧
    (sample [call_fix]).Fits (((20 : UInt32).toNat : Int) - (10 : UInt32).toNat) ∧
    ¬ Moves (sample [call_fix]) 10 0 20 :=
  ⟨by decide, by decide, fits_call (by decide) (by decide), fun h => absurd h.moved (by decide)⟩

end Fors.Diag
