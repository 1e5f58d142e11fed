import Fors.Fmir.Encode

/-!
# The wire format

Each writer of the byte encoding with its reader, as a lawful format. Most rows have one
encoding only; the others name the words their reader does not look at (`tidy_…`).

Principal result: `join_words_eq_iff`.
-/

namespace Fors.Fmir

open Format Reader

/-! ## Words -/

section Words

variable {s rest : List UInt32}

theorem u32_ok {a : UInt32} : u32 s = .ok (a, rest) ↔ s = a :: rest := by
  cases s with
  | nil => simp [u32]
  | cons w s => simp [u32]

theorem err_ok {α : Type} {message : String} {a : α} :
    (err message : Reader α) s = .ok (a, rest) ↔ False := by
  simp [err]

theorem toUInt16_eq_iff {w : UInt32} {a : UInt16} :
    (w.toNat < 2 ^ 16 ∧ w.toUInt16 = a) ↔ w = a.toUInt32 := by
  constructor
  · rintro ⟨hw, rfl⟩
    apply UInt32.toNat_inj.mp
    simp
    omega
  · rintro rfl
    exact ⟨by simpa using a.toNat_lt, by simp⟩

theorem toUInt8_eq_iff {w : UInt32} {a : UInt8} :
    (w.toNat < 2 ^ 8 ∧ w.toUInt8 = a) ↔ w = a.toUInt32 := by
  constructor
  · rintro ⟨hw, rfl⟩
    apply UInt32.toNat_inj.mp
    simp
    omega
  · rintro rfl
    exact ⟨by simpa using a.toNat_lt, by simp⟩

theorem u16_ok {a : UInt16} : u16 s = .ok (a, rest) ↔ s = a.toUInt32 :: rest := by
  simp only [u16, bind_ok, u32_ok]
  constructor
  · rintro ⟨w, t, rfl, h⟩
    split at h
    · rename_i hw
      obtain ⟨ha, rfl⟩ := pure_ok.mp h
      rw [toUInt16_eq_iff.mp ⟨hw, ha⟩]
    · exact (err_ok.mp h).elim
  · rintro rfl
    obtain ⟨hw, ha⟩ := toUInt16_eq_iff.mpr (Eq.refl a.toUInt32)
    exact ⟨_, rest, rfl, by rw [if_pos hw]; exact pure_ok.mpr ⟨ha, rfl⟩⟩

theorem u8_ok {a : UInt8} : u8 s = .ok (a, rest) ↔ s = a.toUInt32 :: rest := by
  simp only [u8, bind_ok, u32_ok]
  constructor
  · rintro ⟨w, t, rfl, h⟩
    split at h
    · rename_i hw
      obtain ⟨ha, rfl⟩ := pure_ok.mp h
      rw [toUInt8_eq_iff.mp ⟨hw, ha⟩]
    · exact (err_ok.mp h).elim
  · rintro rfl
    obtain ⟨hw, ha⟩ := toUInt8_eq_iff.mpr (Eq.refl a.toUInt32)
    exact ⟨_, rest, rfl, by rw [if_pos hw]; exact pure_ok.mpr ⟨ha, rfl⟩⟩

theorem toNat_join_words {lo hi : UInt32} :
    (lo.toUInt64 ||| hi.toUInt64 <<< 32).toNat = hi.toNat * 2 ^ 32 + lo.toNat := by
  have hlo : lo.toNat < 2 ^ 32 := lo.toNat_lt
  have hhi : hi.toNat < 2 ^ 32 := hi.toNat_lt
  have hshift : (hi.toUInt64 <<< 32).toNat = hi.toNat <<< 32 := by
    simp [UInt64.toNat_shiftLeft]
    rw [Nat.shiftLeft_eq]
    omega
  rw [UInt64.toNat_or, hshift, UInt32.toNat_toUInt64, Nat.or_comm,
    ← Nat.shiftLeft_add_eq_or_of_lt hlo, Nat.shiftLeft_eq]

/-- A pair of words is split and joined without loss. -/
theorem join_words_eq_iff {lo hi : UInt32} {v : UInt64} :
    lo.toUInt64 ||| hi.toUInt64 <<< 32 = v ↔ lo = v.toUInt32 ∧ hi = (v >>> 32).toUInt32 := by
  have hlo : lo.toNat < 2 ^ 32 := lo.toNat_lt
  have hhi : hi.toNat < 2 ^ 32 := hi.toNat_lt
  have hv : v.toNat < 2 ^ 64 := v.toNat_lt
  have hshift : (v >>> 32).toNat = v.toNat / 2 ^ 32 := by
    simp [UInt64.toNat_shiftRight, Nat.shiftRight_eq_div_pow]
  rw [← UInt64.toNat_inj, ← UInt32.toNat_inj, ← UInt32.toNat_inj, toNat_join_words,
    UInt64.toNat_toUInt32, UInt64.toNat_toUInt32, hshift]
  omega

theorem u64_ok {a : UInt64} : u64 s = .ok (a, rest) ↔ s = write_u64 a ++ rest := by
  simp [u64, bind_ok, map_ok, u32_ok, join_words_eq_iff, write_u64]

theorem i64_ok {a : Int64} : i64 s = .ok (a, rest) ↔ s = write_i64 a ++ rest := by
  simp only [i64, bind_ok, pure_ok, u64_ok, write_i64]
  constructor
  · rintro ⟨v, t, rfl, rfl, rfl⟩
    simp
  · rintro rfl
    exact ⟨_, rest, rfl, by simp, rfl⟩

theorem range_ok {a : Range} : range s = .ok (a, rest) ↔ s = a.start :: a.end_ :: rest := by
  cases a
  simp [range, bind_ok, map_ok, u32_ok]

end Words

/-! ## Rows with one encoding -/

theorem val_row_plain : Plain write_val_row read_val_row always := by
  refine .of_exact fun s a rest => ?_
  cases a
  simp [read_val_row, bind_ok, map_ok, u32_ok, u16_ok, write_val_row, write_u16]

theorem id_plain : Plain write_id u32 always :=
  .of_exact fun s a rest => by simp [u32_ok, write_id]

theorem range_plain : Plain write_range range always :=
  .of_exact fun s a rest => by simp [range_ok, write_range]

variable {w : UInt32}

theorem conv_from_u32_ok {c : Conv} {s rest : List UInt32} :
    conv_from_u32 w s = .ok (c, rest) ↔ w = conv_to_u32 c ∧ s = rest := by
  constructor
  · intro h
    simp only [conv_from_u32] at h
    split_ifs at h with h₀ h₁ h2 h3
    · cases h
      exact ⟨h₀, rfl⟩
    · cases h
      exact ⟨h₁, rfl⟩
    · cases h
      exact ⟨h2, rfl⟩
    · cases h
      exact ⟨h3, rfl⟩
    · exact (err_ok.mp h).elim
  · rintro ⟨rfl, rfl⟩
    cases c <;> simp [conv_from_u32, conv_to_u32, pure_ok]

theorem region_kind_from_u32_ok {kind : RegionKind} {s rest : List UInt32} :
    region_kind_from_u32 w s = .ok (kind, rest) ↔ w = region_kind_to_u32 kind ∧ s = rest := by
  constructor
  · intro h
    simp only [region_kind_from_u32] at h
    split_ifs at h with h₀ h₁ h2
    · cases h
      exact ⟨h₀, rfl⟩
    · cases h
      exact ⟨h₁, rfl⟩
    · cases h
      exact ⟨h2, rfl⟩
    · exact (err_ok.mp h).elim
  · rintro ⟨rfl, rfl⟩
    cases kind <;> simp [region_kind_from_u32, region_kind_to_u32, pure_ok]

theorem exit_kind_from_u32_eq {kind : ExitKind} :
    ExitKind.from_u32 w = some kind ↔ w = kind.as_u32 := by
  constructor
  · intro h
    simp only [ExitKind.from_u32] at h
    split_ifs at h with h₀ h₁
    · obtain rfl := Option.some_inj.mp h
      exact h₀
    · obtain rfl := Option.some_inj.mp h
      exact h₁
  · rintro rfl
    cases kind <;> rfl

theorem read_exit_kind_ok {kind : ExitKind} {s rest : List UInt32} :
    read_exit_kind s = .ok (kind, rest) ↔ s = kind.as_u32 :: rest := by
  simp only [read_exit_kind, bind_ok, u32_ok]
  constructor
  · rintro ⟨w, t, rfl, h⟩
    cases hkind : ExitKind.from_u32 w with
    | none =>
      rw [hkind] at h
      exact (err_ok.mp h).elim
    | some kind' =>
      rw [hkind] at h
      cases h
      rw [exit_kind_from_u32_eq.mp hkind]
  · rintro rfl
    exact ⟨_, _, rfl, by rw [exit_kind_from_u32_eq.mpr rfl]; exact pure_ok.mpr ⟨rfl, rfl⟩⟩

theorem conv_plain : Plain (fun c => [conv_to_u32 c]) read_conv always :=
  .of_exact fun s a rest => by simp [read_conv, bind_ok, u32_ok, conv_from_u32_ok]

theorem switch_plain : Plain write_switch read_switch always := by
  refine .of_exact fun s a rest => ?_
  cases a
  simp [read_switch, bind_ok, map_ok, u32_ok, range_ok, write_switch, write_range]

theorem switch_arm_plain : Plain write_switch_arm read_switch_arm always := by
  refine .of_exact fun s a rest => ?_
  cases a
  simp [read_switch_arm, bind_ok, map_ok, u32_ok, i64_ok, write_switch_arm]

theorem scope_plain : Plain write_scope read_scope always := by
  refine .of_exact fun s a rest => ?_
  cases a
  simp [read_scope, bind_ok, map_ok, u32_ok, range_ok, write_scope, write_range]

theorem region_plain : Plain write_region read_region always := by
  refine .of_exact fun s a rest => ?_
  cases a
  simp [read_region, bind_ok, map_ok, u32_ok, range_ok, region_kind_from_u32_ok, write_region,
    write_range]

theorem capture_plain : Plain write_capture read_capture always := by
  refine .of_exact fun s a rest => ?_
  cases a
  simp [read_capture, bind_ok, map_ok, u32_ok, conv_plain.exact, write_capture]

theorem site_plain : Plain write_site read_site always := by
  refine .of_exact fun s a rest => ?_
  cases a
  simp [read_site, bind_ok, map_ok, u32_ok, write_site]

theorem exit_row_plain : Plain write_exit_row read_exit_row always := by
  refine .of_exact fun s a rest => ?_
  cases a
  simp [read_exit_row, bind_ok, map_ok, u32_ok, range_ok, read_exit_kind_ok, write_exit_row,
    write_range]

/-! ## Rows whose reader skips words -/

/-- The word of a flag is `0` or `1`. -/
def tidy_bool : List UInt32 → Bool
  | w :: _ => w ≤ 1
  | [] => true

/-- The second word of a `Deref` is `0`. -/
def tidy_seg : List UInt32 → Bool
  | tag :: x :: _ => tag ≠ 2 || x = 0
  | _ => true

/-- The payload word is the decoded opcode's own. -/
def tidy_inst_row : List UInt32 → Bool
  | discr :: payload :: _ => (Op.from_parts discr payload).all fun op => op.payload = payload
  | _ => true

/-- The unused words of a seed are `0`. -/
def tidy_alias_seed : List UInt32 → Bool
  | tag :: x :: y :: _ => (tag ≠ 0 || x = 0) && (tag = 4 || y = 0)
  | _ => true

/-- The third word is `0` but for a witness. -/
def tidy_callee : List UInt32 → Bool
  | tag :: _ :: y :: _ => tag = 1 || y = 0
  | _ => true

/-- The flag of the kind is `0` or `1`. -/
def tidy_defer : List UInt32 → Bool := tidy_bool

/-- The value of a `Bool` is `0` or `1`, the value of `Unit` is `0`. -/
def tidy_const : List UInt32 → Bool
  | tag :: lo :: hi :: _ => (tag ≠ 2 || lo ≤ 1 && hi = 0) && (tag ≠ 3 || lo = 0 && hi = 0)
  | _ => true

/-- The unused words of a discharge are `0`. -/
def tidy_discharge : List UInt32 → Bool
  | tag :: a :: b :: _ => (tag ≠ 3 || a = 0) && (tag = 1 || b = 0)
  | _ => true

theorem bool_plain : Plain write_bool Reader.bool tidy_bool := by
  refine .of_chunk (fun a _ rest => ?_) fun s a rest h => ?_
  · cases a <;> rfl
  · simp only [Reader.bool, bind_ok, pure_ok, u32_ok] at h
    obtain ⟨w, t, rfl, rfl, rfl⟩ := h
    refine ⟨trivial, [w], rfl, rfl, ?_⟩
    simp only [tidy_bool, write_bool]
    grind

theorem scoped_plain : Plain write_scoped read_scoped tidy_bool := by
  refine .of_chunk (fun a _ rest => ?_) fun s a rest h => ?_
  · cases a <;> rfl
  · simp only [read_scoped, Reader.bool, bind_ok, pure_ok, u32_ok] at h
    obtain ⟨b, t, ⟨w, t', rfl, rfl, rfl⟩, h⟩ := h
    by_cases hw : w = 0
    · simp [hw, pure_ok] at h
      obtain ⟨rfl, rfl⟩ := h
      refine ⟨trivial, [w], rfl, rfl, ?_⟩
      simp [hw, tidy_bool, write_scoped, write_bool]
    · simp [hw, map_ok, range_ok] at h
      obtain ⟨r, rfl, rfl⟩ := h
      refine ⟨trivial, [w, r.start, r.end_], rfl, rfl, ?_⟩
      simp [tidy_bool, write_scoped, write_bool, write_range]
      grind

theorem toUInt16_of_lt (h : w.toNat < 2 ^ 16) : w.toUInt16.toUInt32 = w :=
  (toUInt16_eq_iff.mp ⟨h, rfl⟩).symm

theorem seg_plain : Plain write_seg read_seg tidy_seg := by
  refine .of_chunk (fun a _ rest => ?_) fun s a rest h => ?_
  · cases a with
    | Field i =>
      have hi : i.toNat < 65536 := i.toNat_lt
      simp [read_seg, write_seg, bind_ok, u32_ok, pure_ok, hi]
    | Index v => simp [read_seg, write_seg, bind_ok, u32_ok, pure_ok]
    | Deref => simp [read_seg, write_seg, bind_ok, u32_ok, pure_ok]
  · simp only [read_seg, bind_ok, u32_ok] at h
    obtain ⟨tag, t, rfl, x, t', rfl, h⟩ := h
    split_ifs at h with h₀ hx h₁ h2
    · cases h
      exact ⟨trivial, [tag, x], rfl, rfl, by simp [tidy_seg, write_seg, h₀, toUInt16_of_lt hx]⟩
    · exact (err_ok.mp h).elim
    · cases h
      exact ⟨trivial, [tag, x], rfl, rfl, by simp [tidy_seg, write_seg, h₁]⟩
    · cases h
      exact ⟨trivial, [tag, x], rfl, rfl, by simp [tidy_seg, write_seg, h2]⟩
    · exact (err_ok.mp h).elim

theorem inst_row_plain : Plain write_inst_row read_inst_row tidy_inst_row := by
  refine .of_chunk (fun a _ rest => ?_) fun s a rest h => ?_
  · cases a
    simp [read_inst_row, write_inst_row, bind_ok, u32_ok, map_ok, Op.from_parts_parts]
  · simp only [read_inst_row, bind_ok, u32_ok] at h
    obtain ⟨discr, t, rfl, payload, t', rfl, h⟩ := h
    cases hop : Op.from_parts discr payload with
    | none =>
      rw [hop] at h
      exact (err_ok.mp h).elim
    | some op =>
      simp only [hop, bind_ok, u32_ok, pure_ok] at h
      obtain ⟨x, _, rfl, y, _, rfl, z, _, rfl, ty, _, rfl, site, _, rfl, rfl, rfl⟩ := h
      refine ⟨trivial, [discr, payload, x, y, z, ty, site], rfl, rfl, ?_⟩
      simp [tidy_inst_row, write_inst_row, hop, Op.discriminant_of_from_parts hop, eq_comm]

theorem alias_seed_plain : Plain write_alias_seed read_alias_seed tidy_alias_seed := by
  refine .of_chunk (fun a _ rest => ?_) fun s a rest h => ?_
  · cases a with
    | None => simp [read_alias_seed, write_alias_seed, bind_ok, map_ok, u32_ok]
    | Conv c => simp [read_alias_seed, write_alias_seed, bind_ok, map_ok, u32_ok, conv_from_u32_ok]
    | Own p => simp [read_alias_seed, write_alias_seed, bind_ok, map_ok, u32_ok]
    | Arena b => simp [read_alias_seed, write_alias_seed, bind_ok, map_ok, u32_ok]
    | Split parent side => simp [read_alias_seed, write_alias_seed, bind_ok, map_ok, u32_ok, u8_ok]
  · simp only [read_alias_seed, bind_ok, u32_ok] at h
    obtain ⟨tag, t, rfl, x, t', rfl, h⟩ := h
    split_ifs at h with h₀ h₁ h2 h3 h4
    · simp only [bind_ok, u32_ok, pure_ok] at h
      obtain ⟨y, _, rfl, rfl, rfl⟩ := h
      exact ⟨trivial, [tag, x, y], rfl, rfl, by simp [tidy_alias_seed, write_alias_seed, h₀]⟩
    · simp only [bind_ok, u32_ok, conv_from_u32_ok, pure_ok] at h
      obtain ⟨y, _, rfl, c, _, ⟨rfl, rfl⟩, rfl, rfl⟩ := h
      exact ⟨trivial, [tag, _, y], rfl, rfl, by simp [tidy_alias_seed, write_alias_seed, h₁]⟩
    · simp only [bind_ok, u32_ok, pure_ok] at h
      obtain ⟨y, _, rfl, rfl, rfl⟩ := h
      exact ⟨trivial, [tag, x, y], rfl, rfl, by simp [tidy_alias_seed, write_alias_seed, h2]⟩
    · simp only [bind_ok, u32_ok, pure_ok] at h
      obtain ⟨y, _, rfl, rfl, rfl⟩ := h
      exact ⟨trivial, [tag, x, y], rfl, rfl, by simp [tidy_alias_seed, write_alias_seed, h3]⟩
    · simp only [bind_ok, u8_ok, pure_ok] at h
      obtain ⟨side, _, rfl, rfl, rfl⟩ := h
      exact ⟨trivial, [tag, x, side.toUInt32], rfl, rfl,
        by simp [tidy_alias_seed, write_alias_seed, h4]⟩
    · exact (err_ok.mp h).elim

theorem callee_plain : Plain write_callee read_callee tidy_callee := by
  refine .of_chunk (fun a _ rest => ?_) fun s a rest h => ?_
  · cases a with
    | Direct k => simp [read_callee, write_callee, bind_ok, u32_ok, pure_ok]
    | Witness table method =>
      have hm : method.toNat < 65536 := method.toNat_lt
      simp [read_callee, write_callee, bind_ok, u32_ok, pure_ok, hm]
    | Closure v => simp [read_callee, write_callee, bind_ok, u32_ok, pure_ok]
    | Intrinsic s => simp [read_callee, write_callee, bind_ok, u32_ok, pure_ok]
  · simp only [read_callee, bind_ok, u32_ok] at h
    obtain ⟨tag, _, rfl, x, _, rfl, y, _, rfl, h⟩ := h
    split_ifs at h with h₀ h₁ hy h2 h3
    · cases h
      exact ⟨trivial, [tag, x, y], rfl, rfl, by simp [tidy_callee, write_callee, h₀]⟩
    · cases h
      exact ⟨trivial, [tag, x, y], rfl, rfl,
        by simp [tidy_callee, write_callee, h₁, toUInt16_of_lt hy]⟩
    · exact (err_ok.mp h).elim
    · cases h
      exact ⟨trivial, [tag, x, y], rfl, rfl, by simp [tidy_callee, write_callee, h2]⟩
    · cases h
      exact ⟨trivial, [tag, x, y], rfl, rfl, by simp [tidy_callee, write_callee, h3]⟩
    · exact (err_ok.mp h).elim

theorem defer_plain : Plain write_defer read_defer tidy_defer := by
  refine .of_chunk (fun a _ rest => ?_) fun s a rest h => ?_
  · obtain ⟨_ | _, body, stmt_order⟩ := a <;>
      simp [read_defer, write_defer, write_u16, bind_ok, map_ok, u32_ok, u16_ok]
  · simp only [read_defer, bind_ok, u32_ok, u16_ok, pure_ok] at h
    obtain ⟨kind, _, rfl, body, _, rfl, stmt_order, _, rfl, rfl, rfl⟩ := h
    refine ⟨trivial, [kind, body, stmt_order.toUInt32], rfl, rfl, ?_⟩
    by_cases hk : kind = 0
    · simp [tidy_defer, tidy_bool, write_defer, write_u16, hk]
    · simp [tidy_defer, tidy_bool, write_defer, write_u16, hk]
      grind

theorem discharge_plain : Plain write_discharge read_discharge tidy_discharge := by
  refine .of_chunk (fun a _ rest => ?_) fun s a rest h => ?_
  · cases a <;> simp [read_discharge, write_discharge, bind_ok, u32_ok, pure_ok]
  · simp only [read_discharge, bind_ok, u32_ok] at h
    obtain ⟨tag, _, rfl, x, _, rfl, y, _, rfl, h⟩ := h
    split_ifs at h with h₀ h₁ h2 h3
    · cases h
      exact ⟨trivial, [tag, x, y], rfl, rfl, by simp [tidy_discharge, write_discharge, h₀]⟩
    · cases h
      exact ⟨trivial, [tag, x, y], rfl, rfl, by simp [tidy_discharge, write_discharge, h₁]⟩
    · cases h
      exact ⟨trivial, [tag, x, y], rfl, rfl, by simp [tidy_discharge, write_discharge, h2]⟩
    · cases h
      exact ⟨trivial, [tag, x, y], rfl, rfl, by simp [tidy_discharge, write_discharge, h3]⟩
    · exact (err_ok.mp h).elim

/-- A flag of two words. -/
theorem tidy_flag_iff {v : UInt64} :
    v.toUInt32 ≤ 1 ∧ (v >>> 32).toUInt32 = 0 ↔ write_u64 v = write_u64 (if v ≠ 0 then 1 else 0) := by
  have h0 : v = 0 ↔ v.toUInt32 = 0 ∧ (v >>> 32).toUInt32 = 0 := by
    have := @join_words_eq_iff 0 0 v
    simp at this
    grind
  have h1 : v = 1 ↔ v.toUInt32 = 1 ∧ (v >>> 32).toUInt32 = 0 := by
    have := @join_words_eq_iff 1 0 v
    simp at this
    grind
  have hhi : ((1 : UInt64) >>> 32).toUInt32 = 0 := rfl
  split_ifs <;> simp [write_u64, hhi] <;> grind

theorem const_plain : Plain write_const read_const tidy_const := by
  refine .of_chunk (fun a _ rest => ?_) fun s a rest h => ?_
  · cases a with
    | Int v => simp [read_const, write_const, bind_ok, map_ok, u32_ok, i64_ok]
    | FloatBits v => simp [read_const, write_const, bind_ok, map_ok, u32_ok, u64_ok]
    | Bool v =>
      simp only [read_const, write_const, bind_ok, u32_ok]
      exact ⟨2, _, rfl, bind_ok.mpr ⟨_, rest, u64_ok.mpr rfl, by cases v <;> rfl⟩⟩
    | Unit => simp [read_const, write_const, bind_ok, map_ok, u32_ok, u64_ok]
    | Str v =>
      have hv : v.toUInt64.toNat < 2 ^ 32 := by simpa using v.toNat_lt
      simp only [read_const, write_const, bind_ok, u32_ok]
      refine ⟨4, _, rfl, bind_ok.mpr ⟨v.toUInt64, rest, u64_ok.mpr rfl, ?_⟩⟩
      rw [if_pos hv]
      simp [pure_ok]
  · simp only [read_const, bind_ok, u32_ok] at h
    obtain ⟨tag, t, rfl, h⟩ := h
    split_ifs at h with h₀ h₁ h2 h3 h4
    · simp only [bind_ok, i64_ok, pure_ok] at h
      obtain ⟨v, _, rfl, rfl, rfl⟩ := h
      exact ⟨trivial, tag :: write_i64 v, rfl, rfl,
        by simp [tidy_const, write_const, write_i64, write_u64, h₀]⟩
    · simp only [bind_ok, u64_ok, pure_ok] at h
      obtain ⟨v, _, rfl, rfl, rfl⟩ := h
      exact ⟨trivial, tag :: write_u64 v, rfl, rfl, by simp [tidy_const, write_const, write_u64, h₁]⟩
    · simp only [bind_ok, u64_ok, pure_ok] at h
      obtain ⟨v, _, rfl, rfl, rfl⟩ := h
      refine ⟨trivial, tag :: write_u64 v, rfl, rfl, ?_⟩
      have := tidy_flag_iff (v := v)
      simp_all [tidy_const, write_const, write_u64]
    · simp only [bind_ok, u64_ok, pure_ok] at h
      obtain ⟨v, _, rfl, rfl, rfl⟩ := h
      exact ⟨trivial, tag :: write_u64 v, rfl, rfl, by simp [tidy_const, write_const, write_u64, h3]⟩
    · simp only [bind_ok, u64_ok] at h
      obtain ⟨v, _, rfl, h⟩ := h
      split_ifs at h with hv
      · cases h
        have hback : v.toUInt32.toUInt64 = v := by
          apply UInt64.toNat_inj.mp
          simp
          omega
        exact ⟨trivial, tag :: write_u64 v, rfl, rfl,
          by simp [tidy_const, write_const, write_u64, h4, hback]⟩
      · exact (err_ok.mp h).elim
    · exact (err_ok.mp h).elim

/-! ## Rows with such a row in them -/

/-- A part with one encoding only, then the test of what follows it. -/
def skip {α : Type} (read : Reader α) (next : List UInt32 → Bool) : List UInt32 → Bool :=
  both always read next

def tidy_block : List UInt32 → Bool :=
  skip u32 <| skip u32 tidy_inst_row

def tidy_discharge_row : List UInt32 → Bool :=
  skip u32 tidy_discharge

theorem call_plain : Plain write_call read_call tidy_callee := by
  have h : Plain write_call read_call (both tidy_callee read_callee always) :=
    (callee_plain.seq range_plain).map (fun p => ⟨p.1, p.2⟩) (fun c => ⟨(c.callee, c.args), rfl⟩)
      (fun _ => rfl) (by simp [read_call])
  exact h.congr (fun _ => rfl) rfl (fun _ => by rw [both_always]) (fun _ => id) fun _ => Iff.rfl

theorem reduce_plain : Plain write_reduce read_reduce tidy_callee := by
  have hrest : Plain (fun r : UInt32 × UInt32 × UInt32 × UInt32 => [r.1, r.2.1, r.2.2.1, r.2.2.2])
      (do let xs ← u32; let identity ← u32; let b ← u32; let l ← u32; return (xs, identity, b, l))
      always :=
    .of_exact fun s a rest => by simp [bind_ok, map_ok, u32_ok, Prod.ext_iff]
  have h : Plain write_reduce read_reduce (both tidy_callee read_callee always) :=
    (callee_plain.seq hrest).map (fun p => ⟨p.1, p.2.1, p.2.2.1, p.2.2.2.1, p.2.2.2.2⟩)
      (fun r => ⟨(r.op, r.xs, r.identity, r.b, r.l), rfl⟩) (fun _ => rfl)
      (by simp [read_reduce])
  exact h.congr (fun _ => rfl) rfl (fun _ => by rw [both_always]) (fun _ => id) fun _ => Iff.rfl

theorem block_plain : Plain write_block read_block tidy_block := by
  have h : Plain write_block read_block
      (skip u32 <| skip u32 <| both tidy_inst_row read_inst_row always) :=
    (id_plain.seq <| id_plain.seq <| inst_row_plain.seq id_plain).map
      (fun p => ⟨p.1, p.2.1, p.2.2.1, p.2.2.2⟩)
      (fun b => ⟨(b.first_inst, b.inst_len, b.term, b.scope), rfl⟩)
      (fun _ => rfl) (by simp [read_block])
  exact h.congr (fun _ => rfl) rfl (fun _ => by rw [both_always, tidy_block]) (fun _ => id)
    fun _ => Iff.rfl

theorem discharge_row_plain : Plain write_discharge_row read_discharge_row tidy_discharge_row :=
  (id_plain.seq discharge_plain).map (fun p => ⟨p.1, p.2⟩) (fun d => ⟨(d.place, d.how), rfl⟩)
    (fun _ => rfl) (by simp [read_discharge_row])

/-! ## Pools -/

/-- A pool whose length fits the word that holds it, of rows with a property. -/
def Sized {α : Type} (p : α → Prop) (rows : List α) : Prop :=
  rows.length < 2 ^ 32 ∧ ∀ r ∈ rows, p r

def tidy_pool {α : Type} (item : Reader α) (strict : List UInt32 → Bool) : List UInt32 → Bool :=
  after u32 fun n => manyStrict item strict n.toNat

section Pools

variable {α : Type} {write : α → List UInt32} {item : Reader α} {strict : List UInt32 → Bool}
  {sound valid : α → Prop}

theorem toNat_ofNat_length {rows : List α} (h : rows.length < 2 ^ 32) :
    (UInt32.ofNat rows.length).toNat = rows.length :=
  UInt32.toNat_ofNat_of_lt' h

theorem sized_of_rows {p : α → Prop} {n : UInt32} {rows : List α} (h : Rows p n.toNat rows) :
    Sized p rows :=
  ⟨h.1 ▸ n.toNat_lt, h.2⟩

theorem ofNat_length_of_rows {p : α → Prop} {n : UInt32} {rows : List α} (h : Rows p n.toNat rows) :
    UInt32.ofNat rows.length = n := by
  rw [h.1, UInt32.ofNat_toNat]

theorem Sized.rows {p : α → Prop} {rows : List α} (h : Sized p rows) :
    Rows p (UInt32.ofNat rows.length).toNat rows :=
  ⟨(toNat_ofNat_length h.1).symm, h.2⟩

theorem pool_lawful (h : Lawful write item strict sound valid) (hsound : ∀ a, valid a → sound a) :
    Lawful (write_pool write) (pool item) (tidy_pool item strict) (Sized sound) (Sized valid) := by
  have hpool : Lawful (write_pool write)
      (do let p ← (do let n ← u32; let rows ← many item n.toNat; return (n, rows)); return p.2)
      (tidy_pool item strict) (Sized sound) (Sized valid) :=
    (id_plain.bind fun n => h.many hsound n.toNat).map (fun p => p.2)
      (fun rows hrows => ⟨(UInt32.ofNat rows.length, rows), ⟨trivial, hrows.rows⟩, rfl⟩)
      (fun p hp => sized_of_rows hp.2)
      (fun p hp => ⟨sized_of_rows hp.2, by rw [write_pool, write_id, ofNat_length_of_rows hp.2]⟩)
      (fun p hp => ⟨trivial, hp.2.1, fun r hr => hsound r (hp.2.2 r hr)⟩)
  refine hpool.congr (fun _ => rfl) ?_ (fun _ => rfl) (fun _ => id) fun _ => Iff.rfl
  simp [pool]

theorem exact_pool (h : Plain write item always) :
    Lawful (write_pool write) (pool item) always (Sized fun _ => True) (Sized fun _ => True) := by
  refine (pool_lawful h fun _ => id).congr (fun _ => rfl) rfl (fun s => ?_) (fun _ => id)
    fun _ => Iff.rfl
  rw [tidy_pool, after]
  cases u32 s <;> simp [always, manyStrict_always]

end Pools

end Fors.Fmir
