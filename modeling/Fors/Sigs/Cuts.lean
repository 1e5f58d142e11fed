import Fors.Lib.PrefixCode
import Fors.Sigs.EncodeSig

/-!
# The bytes determine the signature

Every part of the wire form can be cut off from what follows it. So a type section determines the
types in it, and the bytes of a signature determine its arranged form.

Principal results: `cut_path` and `cut_entry`.
-/

namespace Fors.Sigs

open Fors.Ty LittleEndian Trees PrefixCode List

/-! ## Numbers and names -/

theorem uleb_eq (v : Nat) :
    uleb v = if v < 128 then [UInt8.ofNat v] else UInt8.ofNat (v % 128 + 128) :: uleb (v / 128) := by
  have hlow : v &&& 0x7F = v % 128 := Nat.and_two_pow_sub_one_eq_mod v 7
  have hor : ∀ n < 128, UInt8.ofNat n ||| 0x80 = UInt8.ofNat (n + 128) := by decide
  rw [uleb, hlow, Nat.shiftRight_eq_div_pow]
  by_cases hv : v < 128
  · rw [if_pos hv, if_pos (by omega), Nat.mod_eq_of_lt hv]
  · rw [if_neg hv, if_neg (by omega), hor _ (Nat.mod_lt _ (by decide))]

theorem uleb_ne_nil (v : Nat) : uleb v ≠ [] := by
  rw [uleb_eq]
  split <;> exact cons_ne_nil _ _

theorem ofNat_inj {a b : Nat} (ha : a < 256) (hb : b < 256) (h : UInt8.ofNat a = UInt8.ofNat b) :
    a = b := by
  have := congrArg UInt8.toNat h
  rw [UInt8.toNat_ofNat', UInt8.toNat_ofNat'] at this
  omega

variable {s t : Bytes}

theorem byte_inj {a b : UInt8} {u v : Bytes} (h : (a :: s) ++ u = (b :: t) ++ v) :
    a = b ∧ s ++ u = t ++ v :=
  cons.inj h

theorem cut_uleb : Cut uleb := by
  intro a b s t _ _ h
  induction a using Nat.strongRecOn generalizing b with
  | ind a ih =>
    rw [uleb_eq a, uleb_eq b] at h
    by_cases ha : a < 128
    · rw [if_pos ha] at h
      by_cases hb : b < 128
      · rw [if_pos hb] at h
        obtain ⟨hab, hst⟩ := byte_inj h
        exact ⟨ofNat_inj (by omega) (by omega) hab, hst⟩
      · rw [if_neg hb] at h
        have := ofNat_inj (by omega) (by omega) (byte_inj h).1
        omega
    · rw [if_neg ha] at h
      by_cases hb : b < 128
      · rw [if_pos hb] at h
        have := ofNat_inj (by omega) (by omega) (byte_inj h).1
        omega
      · rw [if_neg hb] at h
        obtain ⟨hlow, hrest⟩ := byte_inj h
        have hmod := ofNat_inj (by omega) (by omega) hlow
        obtain ⟨hdiv, hst⟩ := ih (a / 128) (by omega) hrest
        exact ⟨by omega, hst⟩

theorem cut_bytes : Cut write_bytes := by
  intro a b s t _ _ h
  rw [write_bytes, write_bytes, append_assoc, append_assoc] at h
  obtain ⟨hlen, h⟩ := cut_uleb trivial trivial h
  exact append_inj h hlen

theorem cut_u128 : Cut write_u128 :=
  cuts_of_width (p := fun _ => True) (n := 16) (fun _ _ => length_le_bytes _ _) fun a b _ _ h =>
    BitVec.eq_of_toNat_eq (le_bytes_inj a.isLt b.isLt h)

theorem kind_as_u8_inj {a b : DeclKind} (h : a.as_u8 = b.as_u8) : a = b := by
  revert h
  cases a <;> cases b <;> decide

theorem conv_as_u8_inj {a b : Conv} (h : conv_as_u8 a = conv_as_u8 b) : a = b := by
  revert h
  cases a <;> cases b <;> decide

/-! ## Keys and values -/

theorem cut_name : Cut fun name : Option Bytes =>
    name.elim ([0] : Bytes) fun bytes => 1 :: write_bytes bytes := by
  intro a b s t _ _ h
  cases a with
  | none =>
    cases b with
    | none => exact ⟨rfl, (byte_inj h).2⟩
    | some b => exact absurd (byte_inj h).1 (by decide)
  | some a =>
    cases b with
    | none => exact absurd (byte_inj h).1 (by decide)
    | some b =>
      obtain ⟨rfl, hst⟩ := cut_bytes trivial trivial (byte_inj h).2
      exact ⟨rfl, hst⟩

theorem cut_segment : Cut Segment.bytes := by
  intro a b s t _ _ h
  obtain ⟨module, kind, name, disamb⟩ := a
  obtain ⟨module', kind', name', disamb'⟩ := b
  simp only [Segment.bytes, append_assoc] at h
  obtain ⟨hlen, h1⟩ := cut_uleb trivial trivial h
  obtain ⟨hmodule, h2⟩ := cut_bytes.many (fun _ _ => trivial) (fun _ _ => trivial) hlen h1
  obtain ⟨hkind, h3⟩ := byte_inj h2
  obtain ⟨hname, h4⟩ := cut_name trivial trivial h3
  obtain ⟨hdisamb, hst⟩ := cut_uleb trivial trivial h4
  rw [hmodule, kind_as_u8_inj hkind, hname, UInt32.toNat_inj.mp hdisamb]
  exact ⟨rfl, hst⟩

theorem cut_path : Cut path_bytes := by
  intro p q s t _ _ h
  induction p generalizing q s t with
  | nil =>
    cases q with
    | nil => exact ⟨rfl, (byte_inj h).2⟩
    | cons y q =>
      rw [path_bytes, path_bytes] at h
      by_cases hq : q = []
      · rw [if_pos hq] at h
        exact absurd (byte_inj h).1 (by decide)
      · rw [if_neg hq] at h
        exact absurd (byte_inj h).1 (by decide)
  | cons x p ih =>
    cases q with
    | nil =>
      rw [path_bytes, path_bytes] at h
      by_cases hp : p = []
      · rw [if_pos hp] at h
        exact absurd (byte_inj h).1 (by decide)
      · rw [if_neg hp] at h
        exact absurd (byte_inj h).1 (by decide)
    | cons y q =>
      rw [path_bytes, path_bytes] at h
      by_cases hp : p = []
      · by_cases hq : q = []
        · rw [if_pos hp, if_pos hq] at h
          obtain ⟨rfl, hst⟩ := cut_segment trivial trivial (byte_inj h).2
          exact ⟨by rw [hp, hq], hst⟩
        · rw [if_pos hp, if_neg hq] at h
          exact absurd (byte_inj h).1 (by decide)
      · by_cases hq : q = []
        · rw [if_neg hp, if_pos hq] at h
          exact absurd (byte_inj h).1 (by decide)
        · rw [if_neg hp, if_neg hq] at h
          have hrest : path_bytes p ++ x.bytes ++ s = path_bytes q ++ y.bytes ++ t :=
            (byte_inj h).2
          rw [append_assoc, append_assoc] at hrest
          obtain ⟨hpq, hsegs⟩ := ih hrest
          obtain ⟨hxy, hst⟩ := cut_segment trivial trivial hsegs
          rw [hpq, hxy]
          exact ⟨rfl, hst⟩

theorem cut_owner : Cut Owner.bytes := by
  intro a b s t _ _ h
  cases a <;> cases b
  case own.own | parent.parent =>
    obtain ⟨-, h⟩ := byte_inj h
    exact ⟨rfl, (cut_uleb trivial trivial h).2⟩
  case own.parent | parent.own =>
    obtain ⟨-, h⟩ := byte_inj h
    exact absurd (cut_uleb trivial trivial h).1 (by decide)
  case key.key =>
    obtain ⟨rfl, hst⟩ := cut_path trivial trivial (byte_inj h).2
    exact ⟨rfl, hst⟩
  all_goals exact absurd (byte_inj h).1 (by decide)

theorem cut_value : Cut Value.bytes := by
  intro a b s t _ _ h
  cases a <;> cases b
  case I.I =>
    obtain ⟨rfl, hst⟩ := cut_u128 trivial trivial (byte_inj h).2
    exact ⟨rfl, hst⟩
  case B.B x y =>
    obtain ⟨hxy, hst⟩ := byte_inj (byte_inj h).2
    refine ⟨congrArg Value.B ?_, hst⟩
    revert hxy
    cases x <;> cases y <;> decide
  case S.S =>
    obtain ⟨rfl, hst⟩ := cut_bytes trivial trivial (byte_inj h).2
    exact ⟨rfl, hst⟩
  all_goals exact absurd (byte_inj h).1 (by decide)

/-! ## Type entries -/

/-- How many children a constructor has, and the bounds of the numbers in it. -/
def Shape.Arity (n : Nat) : Shape → Prop
  | .Nominal _ | .Tuple | .Dyn _ => True
  | .Fn convs raises _ => n = convs.length + 1 + raises.toNat
  | .Proj _ _ => 0 < n
  | .ConstVal _ => n = 1
  | .Prim kind => n = 0 ∧ kind < 15
  | .Param _ ordinal | .Brand _ ordinal => n = 0 ∧ ordinal < 2 ^ 16
  | _ => n = 0

theorem entry_tag_inj {a b : TyTag} (h : entry_tag a = entry_tag b) : a = b := by
  revert h
  cases a <;> cases b <;> decide

theorem cut_list_refs : Cut Ctx.list_refs := by
  intro a b s t _ _ h
  rw [Ctx.list_refs, Ctx.list_refs] at h
  exact cut_uleb.counted cut_uleb (fun _ _ => trivial) (fun _ _ => trivial) h

theorem cut_fn_param : Cut Ctx.fn_param := by
  intro a b s t _ _ h
  obtain ⟨hconv, h⟩ := byte_inj h
  obtain ⟨href, h⟩ := cut_uleb trivial trivial h
  exact ⟨Prod.ext (conv_as_u8_inj hconv) href, h⟩

theorem fn_flags_inj {c c' r r' : Bool} (h : Ctx.fn_flags c r = Ctx.fn_flags c' r') :
    c = c' ∧ r = r' := by
  revert h
  cases c <;> cases c' <;> cases r <;> cases r' <;> decide

theorem map_snd_zip_take {α β : Type} {as : List α} {bs : List β} (h : as.length ≤ bs.length) :
    (as.zip bs).map Prod.snd = bs.take as.length := by
  rw [zip_eq_zip_take_min, Nat.min_eq_left h, take_length]
  exact map_snd_zip (by rw [length_take]; omega)

variable {refs refs' : List Nat}

/-- The payload of a function's entry. -/
theorem cut_fn_payload {convs convs' : List Conv} {raises raises' closure closure' : Bool} (hn : refs.length = convs.length + 1 + raises.toNat)
    (hn' : refs'.length = convs'.length + 1 + raises'.toNat)
    (h : Shape.payload refs (.Fn convs raises closure) ++ s =
      Shape.payload refs' (.Fn convs' raises' closure') ++ t) :
    (convs = convs' ∧ raises = raises' ∧ closure = closure') ∧ refs = refs' ∧ s = t := by
  simp only [Shape.payload, append_assoc] at h
  obtain ⟨hflags, h1⟩ := byte_inj h
  obtain ⟨rfl, rfl⟩ := fn_flags_inj hflags
  obtain ⟨hlen, h2⟩ := cut_uleb trivial trivial h1
  obtain ⟨hzip, h3⟩ := cut_fn_param.many (fun _ _ => trivial) (fun _ _ => trivial)
    (by rw [length_zip, length_zip]; omega) h2
  obtain ⟨hdrop, hst⟩ := cut_uleb.many (fun _ _ => trivial) (fun _ _ => trivial)
    (by rw [length_drop, length_drop]; omega) h3
  have hconvs : convs = convs' := by
    have hfst := congrArg (List.map Prod.fst) hzip
    rwa [map_fst_zip (by omega), map_fst_zip (by omega)] at hfst
  have htake : refs.take convs.length = refs'.take convs.length := by
    have hsnd := congrArg (List.map Prod.snd) hzip
    rwa [map_snd_zip_take (by omega), map_snd_zip_take (by omega), ← hlen] at hsnd
  refine ⟨⟨hconvs, rfl, rfl⟩, ?_, hst⟩
  rw [← take_append_drop convs.length refs, htake, hdrop, ← hlen, take_append_drop]

/-- What follows the tag and the qualifiers. -/
theorem cut_payload {shape shape' : Shape}
    (hn : shape.Arity refs.length) (hn' : shape'.Arity refs'.length)
    (htag : shape.tag = shape'.tag) (h : shape.payload refs ++ s = shape'.payload refs' ++ t) :
    shape = shape' ∧ refs = refs' ∧ s = t := by
  cases shape <;> cases shape' <;> simp only [Shape.tag, reduceCtorEq] at htag
  case Error.Error | Unit.Unit | Never.Never =>
    rw [length_eq_zero_iff.mp hn, length_eq_zero_iff.mp hn']
    exact ⟨rfl, rfl, h⟩
  case Prim.Prim =>
    rw [length_eq_zero_iff.mp hn.1, length_eq_zero_iff.mp hn'.1]
    obtain ⟨hkind, hst⟩ := byte_inj h
    have hlt := hn.2
    have hlt' := hn'.2
    rw [ofNat_inj (by omega) (by omega) hkind]
    exact ⟨rfl, rfl, hst⟩
  case Nominal.Nominal | Dyn.Dyn =>
    simp only [Shape.payload, append_assoc] at h
    obtain ⟨rfl, h1⟩ := cut_path trivial trivial h
    obtain ⟨rfl, hst⟩ := cut_list_refs trivial trivial h1
    exact ⟨rfl, rfl, hst⟩
  case Tuple.Tuple =>
    obtain ⟨rfl, hst⟩ := cut_list_refs trivial trivial h
    exact ⟨rfl, rfl, hst⟩
  case Fn.Fn =>
    obtain ⟨⟨rfl, rfl, rfl⟩, rfl, hst⟩ := cut_fn_payload hn hn' h
    exact ⟨rfl, rfl, hst⟩
  case Param.Param | Brand.Brand =>
    rw [length_eq_zero_iff.mp hn.1, length_eq_zero_iff.mp hn'.1]
    simp only [Shape.payload, append_assoc] at h
    obtain ⟨rfl, h1⟩ := cut_owner trivial trivial h
    obtain ⟨rfl, hst⟩ := cut_uleb trivial trivial h1
    exact ⟨rfl, rfl, hst⟩
  case Proj.Proj =>
    obtain ⟨r, refs, rfl⟩ := exists_cons_of_length_pos hn
    obtain ⟨r', refs', rfl⟩ := exists_cons_of_length_pos hn'
    simp only [Shape.payload, take_succ_cons, take_zero, flatMap_singleton,
      drop_succ_cons, drop_zero, append_assoc] at h
    obtain ⟨rfl, h1⟩ := cut_uleb trivial trivial h
    obtain ⟨rfl, h2⟩ := cut_path trivial trivial h1
    obtain ⟨rfl, h3⟩ := cut_list_refs trivial trivial h2
    obtain ⟨rfl, hst⟩ := cut_bytes trivial trivial h3
    exact ⟨rfl, rfl, hst⟩
  case ConstVal.ConstVal =>
    obtain ⟨r, rfl⟩ := length_eq_one_iff.mp hn
    obtain ⟨r', rfl⟩ := length_eq_one_iff.mp hn'
    simp only [Shape.payload, flatMap_singleton, append_assoc] at h
    obtain ⟨rfl, h1⟩ := cut_value trivial trivial h
    obtain ⟨rfl, hst⟩ := cut_uleb trivial trivial h1
    exact ⟨rfl, rfl, hst⟩

theorem quals_inj {q q' : Quals} (h : UInt8.ofNat q.toNat = UInt8.ofNat q'.toNat) : q = q' :=
  BitVec.eq_of_toNat_eq (ofNat_inj q.isLt q'.isLt h)

/-- An entry determines its label and the positions in it. -/
theorem cut_entry {m m' : Mark} (hn : m.shape.Arity refs.length) (hn' : m'.shape.Arity refs'.length)
    (h : m.entry refs ++ s = m'.entry refs' ++ t) : m = m' ∧ refs = refs' ∧ s = t := by
  simp only [Mark.entry, cons_append, nil_append] at h
  obtain ⟨htag, htail⟩ := cons.inj h
  obtain ⟨hquals, hpayload⟩ := cons.inj htail
  obtain ⟨hshape, hrefs, hst⟩ := cut_payload hn hn' (entry_tag_inj htag) hpayload
  refine ⟨?_, hrefs, hst⟩
  cases m
  cases m'
  exact congrArg₂ Mark.mk hshape (quals_inj hquals)

end Fors.Sigs
