import Fors.Codegen.Holes

/-!
# Bodies that do not look at the fill

A body is run once on the placeholder and once on a fill.  `Rel` relates the two runs: the same holes
and sites, every hole so far fits, and the words of the one, patched, are the words of the other.  A
step of a body keeps it, or it is rejected at a hole that does not fit.

Principal result: `tracks_body`.
-/

namespace Fors.Codegen

open Fors.Asm Fors.Fmir List

/-! ## Patching a list of words -/

theorem encode_all_eq (insts : List Inst) : encode_all insts = .ok (insts.map encode_word) := by
  unfold encode_all encode
  exact mapM_pure

theorem patch_at_append {fill : Fill} {base : Nat} {h : Hole} {ws ws' : List Word}
    (hp : Stencil.patch_at fill base ws h = .ok ws') (tail : List Word) :
    Stencil.patch_at fill base (ws ++ tail) h = .ok (ws' ++ tail) ∧ ws'.length = ws.length := by
  unfold Stencil.patch_at at hp ⊢
  dsimp only at hp ⊢
  cases hget : ws[base + h.word]? with
  | none =>
    rw [hget] at hp
    cases hp
  | some w =>
    rw [hget] at hp
    cases hp
    have hlt : base + h.word < ws.length := (List.getElem?_eq_some_iff.mp hget).1
    rw [List.getElem?_append_left hlt, hget, List.length_set]
    exact ⟨congrArg Except.ok (List.set_append_left _ _ hlt), rfl⟩

/-- Words after the ones that are patched do not matter. -/
theorem patch_all_append {fill : Fill} {base : Nat} : ∀ {holes : List Hole} {ws ws' : List Word},
    holes.foldlM (Stencil.patch_at fill base) ws = .ok ws' → ∀ tail,
      holes.foldlM (Stencil.patch_at fill base) (ws ++ tail) = .ok (ws' ++ tail) ∧
        ws'.length = ws.length
  | [], ws, ws', h, tail => by
    cases h
    exact ⟨rfl, rfl⟩
  | hole :: holes, ws, ws', h, tail => by
    rw [foldlM_cons] at h ⊢
    cases hp : Stencil.patch_at fill base ws hole with
    | error e =>
      rw [hp] at h
      cases h
    | ok ws1 =>
      rw [hp] at h
      obtain ⟨happ, hlen⟩ := patch_at_append hp tail
      obtain ⟨hrest, hlen'⟩ := patch_all_append (h : holes.foldlM _ ws1 = _) tail
      rw [happ]
      exact ⟨hrest, hlen'.trans hlen⟩

/-! ## The two runs -/

/-- The run at the placeholder and the run at a fill. -/
structure Rel (s0 s : Seq) : Prop where
  holes : s.holes = s0.holes
  sites : s.sites = s0.sites
  fits : ∀ h ∈ s0.holes, hole_fits h s.fill = true
  words : s0.holes.foldlM (Stencil.patch_at s.fill 0) (s0.insts.map encode_word) =
    .ok (s.insts.map encode_word)

namespace Rel

variable {s0 s : Seq}

theorem length (h : Rel s0 s) : s.insts.length = s0.insts.length := by
  have hlen := (patch_all_append h.words []).2
  rwa [length_map, length_map] at hlen

theorem word (h : Rel s0 s) : s.word = s0.word := by
  unfold Seq.word
  rw [h.length]

/-- A fixed instruction. -/
theorem push (h : Rel s0 s) (inst : Inst) :
    Rel { s0 with insts := s0.insts ++ [inst] } { s with insts := s.insts ++ [inst] } where
  holes := h.holes
  sites := h.sites
  fits := h.fits
  words := by
    dsimp only
    rw [map_append, map_append]
    exact (patch_all_append h.words _).1

/-- An instruction with a hole that fits. -/
theorem push_hole (h : Rel s0 s) {hole : Hole} {i0 i : Inst} (hword : hole.word = s0.insts.length)
    (hfits : hole_fits hole s.fill = true)
    (hpatch : patch (encode_word i0) hole s.fill = encode_word i) :
    Rel { s0 with holes := s0.holes ++ [hole], insts := s0.insts ++ [i0] }
      { s with holes := s.holes ++ [hole], insts := s.insts ++ [i] } where
  holes := by
    dsimp only
    rw [h.holes]
  sites := h.sites
  fits g hg := by
    rcases mem_append.mp hg with hg | hg
    · exact h.fits g hg
    · rw [mem_singleton.mp hg]
      exact hfits
  words := by
    dsimp only
    have hget : (s.insts.map encode_word ++ [encode_word i0])[0 + hole.word]? =
        some (encode_word i0) := by
      rw [getElem?_append_right (by rw [length_map, h.length, hword]; omega),
        length_map, h.length, hword, Nat.zero_add, Nat.sub_self]
      rfl
    rw [map_append, map_append, foldlM_append, map_singleton,
      (patch_all_append h.words _).1]
    show (Stencil.patch_at s.fill 0 (s.insts.map encode_word ++ [encode_word i0]) hole).bind
      (fun ws => .ok ws) = _
    unfold Stencil.patch_at
    dsimp only
    rw [hget]
    dsimp only [Except.bind]
    rw [set_append_right _ _ (by rw [length_map, h.length, hword]; omega),
      length_map, h.length, hword, Nat.zero_add, Nat.sub_self, hpatch]
    rfl

end Rel

/-- A step of a body: the run at a fill follows the run at the placeholder, or it is rejected at a hole
that does not fit. -/
structure Tracks {α : Type} (m : SeqM α) : Prop where
  grows : ∀ {s a s'}, m s = .ok (a, s') →
    s'.fill = s.fill ∧ s.insts.length ≤ s'.insts.length ∧ s.holes <+: s'.holes
  follows : ∀ {s0 s a s0'}, Rel s0 s → m s0 = .ok (a, s0') → s0'.insts.length ≤ 65536 →
    (∃ s', m s = .ok (a, s') ∧ Rel s0' s') ∨
      (∃ e, m s = .error (.does_not_encode e)) ∧ ∃ h ∈ s0'.holes, hole_fits h s.fill = false

namespace Tracks

variable {α β : Type}

theorem pure (a : α) : Tracks (Pure.pure a : SeqM α) where
  grows h := by
    cases h
    exact ⟨rfl, Nat.le_refl _, prefix_rfl⟩
  follows hr h _ := by
    cases h
    exact .inl ⟨_, rfl, hr⟩

variable {m : SeqM α}

theorem bind {f : α → SeqM β} (hm : Tracks m) (hf : ∀ a, Tracks (f a)) :
    Tracks (m >>= f) := by
  have hsplit : ∀ {s b s'}, (m >>= f) s = .ok (b, s') →
      ∃ a s1, m s = .ok (a, s1) ∧ f a s1 = .ok (b, s') := by
    intro s b s' h
    cases hms : m s with
    | error e =>
      change (m s).bind (fun p => f p.1 p.2) = _ at h
      rw [hms] at h
      cases h
    | ok p =>
      change (m s).bind (fun p => f p.1 p.2) = _ at h
      rw [hms] at h
      exact ⟨p.1, p.2, rfl, h⟩
  constructor
  · intro s b s' h
    obtain ⟨a, s1, hms, hfs⟩ := hsplit h
    obtain ⟨hfill, hlen, hholes⟩ := hm.grows hms
    obtain ⟨hfill', hlen', hholes'⟩ := (hf a).grows hfs
    exact ⟨hfill'.trans hfill, hlen.trans hlen', hholes.trans hholes'⟩
  · intro s0 s b s0' hr h hlen
    obtain ⟨a, s1, hms, hfs⟩ := hsplit h
    obtain ⟨-, hlen', hholes'⟩ := (hf a).grows hfs
    rcases hm.follows hr hms (hlen'.trans hlen) with ⟨s2, hms2, hr2⟩ | ⟨⟨e, he⟩, g, hg, hno⟩
    · have hbind : (m >>= f) s = f a s2 := by
        change (m s).bind (fun p => f p.1 p.2) = _
        rw [hms2]
        rfl
      rw [hbind]
      rcases (hf a).follows hr2 hfs hlen with hok | ⟨herr, g, hg, hno⟩
      · exact .inl hok
      · exact .inr ⟨herr, g, hg, by rwa [(hm.grows hms2).1] at hno⟩
    · refine .inr ⟨⟨e, ?_⟩, g, hholes'.subset hg, hno⟩
      change (m s).bind (fun p => f p.1 p.2) = _
      rw [he]
      rfl

/-- One step after another. -/
theorem seq {m' : SeqM β} (hm : Tracks m) (hm' : Tracks m') :
    Tracks (m >>= fun _ => m') :=
  hm.bind fun _ => hm'

theorem ite {c : Prop} [Decidable c] {m' : SeqM α} (hm : Tracks m) (hm' : Tracks m') :
    Tracks (if c then m else m') := by
  split
  · exact hm
  · exact hm'

/-- A fixed instruction. -/
theorem i (r : Result Inst) : Tracks (Seq.i r) := by
  cases r with
  | error e =>
    constructor
    · intro s a s' h
      cases h
    · intro s0 s a s0' _ h
      cases h
  | ok inst =>
    constructor
    · intro s a s' h
      cases h
      exact ⟨rfl, by simp, prefix_rfl⟩
    · intro s0 s a s0' hr h _
      cases h
      exact .inl ⟨_, rfl, hr.push inst⟩

/-- What a body expects does not depend on the fill. -/
theorem expect (what : String) (o : Option α) : Tracks (Codegen.expect what o) := by
  cases o with
  | some a => exact pure a
  | none =>
    constructor
    · intro s a s' h
      cases h
    · intro s0 s a s0' _ h
      cases h

/-- Nor does the index of a trap site. -/
theorem site (kind : TrapKind) : Tracks (Seq.site kind) where
  grows h := by
    unfold Seq.site at h
    split at h
    · cases h
      exact ⟨rfl, Nat.le_refl _, prefix_rfl⟩
    · split at h
      · cases h
        exact ⟨rfl, Nat.le_refl _, prefix_rfl⟩
      · cases h
  follows hr h _ := by
    unfold Seq.site at h ⊢
    rw [hr.sites]
    split at h
    · rename_i hfind
      cases h
      exact .inl ⟨_, rfl, hr⟩
    · rename_i hfind
      split at h
      · rename_i hle
        cases h
        rw [if_pos hle]
        exact .inl ⟨_, rfl, hr.holes, rfl, hr.fits, hr.words⟩
      · cases h

variable {f : Field}

/-- The instruction `r` of a fill, with a hole. -/
theorem hole {k : HoleKind} {m : SeqM Unit} {r : Fill → Nat → Result Inst} (hm : ∀ s, m s =
      Seq.i (r s.fill s.word) { s with holes := s.holes ++ [⟨s.word, k, f⟩] })
    (hr : ∀ fill0 fill word,
      Patches k (Hole.value ⟨word, k, f⟩ fill) (r fill0 word) (r fill word)) :
    Tracks m := by
  have hok : ∀ {s a s'}, m s = .ok (a, s') → ∃ i, r s.fill s.word = .ok i ∧
      s' = { s with holes := s.holes ++ [⟨s.word, k, f⟩], insts := s.insts ++ [i] } := by
    intro s a s' h
    rw [hm] at h
    unfold Seq.i at h
    cases hi : r s.fill s.word with
    | error e =>
      rw [hi] at h
      cases h
    | ok i =>
      rw [hi] at h
      cases h
      exact ⟨i, rfl, rfl⟩
  constructor
  · intro s a s' h
    obtain ⟨i, -, rfl⟩ := hok h
    exact ⟨rfl, by simp, prefix_append _ _⟩
  · intro s0 s a s0' hrel h hlen
    obtain ⟨i0, hi0, rfl⟩ := hok h
    have hlt : s0.insts.length < 65536 := by
      rw [length_append, length_singleton] at hlen
      omega
    have hword : s0.word = s0.insts.length := Nat.mod_eq_of_lt hlt
    obtain ⟨hyes, hno⟩ := hr s0.fill s.fill s0.word i0 hi0
    rw [hm, hrel.word]
    cases hfits : hole_fits ⟨s0.word, k, f⟩ s.fill with
    | true =>
      obtain ⟨i, hi, hpatch⟩ := hyes hfits
      rw [hi]
      exact .inl ⟨_, rfl, hrel.push_hole hword hfits hpatch⟩
    | false =>
      obtain ⟨e, he⟩ := hno hfits
      rw [he]
      exact .inr ⟨⟨e, rfl⟩, _, mem_append_right _ (mem_singleton.mpr rfl), hfits⟩

theorem map_eq_bind {r : Result α} {f : α → β} : r.map f = r.bind fun a => .ok (f a) := by
  cases r with
  | error e => rfl
  | ok a => rfl

/-! ## The holes of `Seq` -/

theorem movz_imm (rd : Reg) (idx : Fin 4) (shift : Nat) : Tracks (Seq.movz_imm rd idx shift) :=
  hole (r := fun fill _ => Inst.movz rd (fill.imm idx) shift) (fun _ => rfl)
    fun _ _ _ => patches_imm .Movz rd shift _ _

theorem movk_imm (rd : Reg) (idx : Fin 4) (shift : Nat) : Tracks (Seq.movk_imm rd idx shift) :=
  hole (r := fun fill _ => Inst.movk rd (fill.imm idx) shift) (fun _ => rfl)
    fun _ _ _ => patches_imm .Movk rd shift _ _

/-- The slot of a field. -/
def slot_of (fill : Fill) : Field → BitVec 32
  | .SlotA => fill.slot_a
  | .SlotB => fill.slot_b
  | _ => fill.slot_dst

theorem slot (hf : f = .SlotA ∨ f = .SlotB ∨ f = .SlotDst) (op : LdStOp) (rt : Reg) {m : SeqM Unit}
    (hm : ∀ s, m s = Seq.i (((UScaledImm12.new (slot_of s.fill f).toNat 8).map
        AddrMode.UnsignedOffset).bind fun m => Inst.load_store op rt Reg.sp m)
      { s with holes := s.holes ++ [⟨s.word, .LdSt64, f⟩] }) : Tracks m := by
  refine hole (r := fun fill _ => ((UScaledImm12.new (slot_of fill f).toNat 8).map
    AddrMode.UnsignedOffset).bind fun m => Inst.load_store op rt Reg.sp m) hm
    fun fill0 fill word => ?_
  have hvalue : Hole.value ⟨word, .LdSt64, f⟩ fill = (slot_of fill f).toNat := by
    rcases hf with rfl | rfl | rfl
    · rfl
    · rfl
    · rfl
  rw [hvalue]
  exact patches_slot op rt Reg.sp _ _

theorem ldr_slot (rt : Fin 31) (hf : f = .SlotA ∨ f = .SlotB ∨ f = .SlotDst) :
    Tracks (Seq.ldr_slot rt f) := by
  refine slot hf .LdrX (Reg.x rt) fun s => ?_
  rcases hf with rfl | rfl | rfl
  · rfl
  · rfl
  · rfl

theorem str_slot (rt : Fin 31) (hf : f = .SlotA ∨ f = .SlotB ∨ f = .SlotDst) :
    Tracks (Seq.str_slot rt f) := by
  refine slot hf .StrX (Reg.x rt) fun s => ?_
  rcases hf with rfl | rfl | rfl
  · rfl
  · rfl
  · rfl

/-- A branch of `len` bits to a trap site. -/
theorem trap {kind : HoleKind} {lo len : Nat} {f : BranchOffset → Result Inst}
    (hf : Branches kind lo len f) (what : String) (site : Fin 4) {m : SeqM Unit}
    (hm : ∀ s, m s = Seq.i ((BranchOffset.new (i64_sub (s.fill.trap site) (4 * s.word)) len
        what).bind f) { s with holes := s.holes ++ [⟨s.word, kind, .Trap site⟩] }) :
    Tracks m :=
  hole (r := fun fill word => (BranchOffset.new (i64_sub (fill.trap site) (4 * word)) len
    what).bind f) hm fun _ _ _ => hf.patches what _ _

theorem trap_if (cond : Cond) (kind : TrapKind) : Tracks (Seq.trap_if cond kind) :=
  bind (site kind) fun s => trap (branches_b_cond cond) "b.cond" s fun _ => by
    rw [← map_eq_bind]
    rfl

theorem trap_cbz (rt : Reg) (kind : TrapKind) : Tracks (Seq.trap_cbz rt kind) :=
  bind (site kind) fun s => trap (branches_compare false rt) "cbz" s fun _ => by
    rw [← map_eq_bind]
    rfl

theorem trap_cbnz (rt : Reg) (kind : TrapKind) : Tracks (Seq.trap_cbnz rt kind) :=
  bind (site kind) fun s => trap (branches_compare true rt) "cbnz" s fun _ => by
    rw [← map_eq_bind]
    rfl

theorem trap_tbnz (rt : Reg) (bit : Nat) (kind : TrapKind) : Tracks (Seq.trap_tbnz rt bit kind) :=
  bind (site kind) fun s => trap (branches_test true rt bit) "tbnz" s fun _ => rfl

theorem trap_always (kind : TrapKind) : Tracks (Seq.trap_always kind) :=
  bind (site kind) fun s => trap (branches_b false) "b" s fun _ => by
    rw [← map_eq_bind]
    rfl

theorem bl (sym : RtSym) : Tracks (Seq.bl sym) := by
  refine hole (k := .Br26) (f := .Call sym)
    (r := fun fill word => (BranchOffset.new (i64_sub fill.call (4 * word)) 26 "bl").bind
      fun o => .ok (.Branch true o)) (fun s => ?_) fun _ _ _ => (branches_b true).patches "bl" _ _
  rw [← map_eq_bind]
  rfl

theorem adr_lit (rd : Reg) : Tracks (Seq.adr_lit rd) :=
  hole (r := fun fill word => (AdrOffset.new (i64_sub fill.lit (4 * word))).bind fun o =>
    Inst.adr rd o) (fun _ => rfl) fun _ _ _ => patches_adr rd _ _

/-! ## The bodies -/

theorem movk_rest (rd : Gp) (first : Nat) (rest : BitVec 16) (hs : List (BitVec 16)) :
    Tracks (Codegen.movk_rest rd first rest hs) := by
  unfold Codegen.movk_rest
  induction hs.zipIdx with
  | nil => exact pure ()
  | cons p ps ih =>
    exact (ite (i _) (pure ())).seq ih

theorem mov_imm (rd : Gp) (value : BitVec 64) : Tracks (Codegen.mov_imm rd value) :=
  ite ((i _).seq (movk_rest _ _ _ _)) ((i _).seq (movk_rest _ _ _ _))

theorem canon (rd rn : Gp) (ty : IntTy) : Tracks (Codegen.canon rd rn ty) := by
  cases ty with
  | I64 => exact ite (i _) (pure ())
  | U64 => exact ite (i _) (pure ())
  | _ => exact i _

theorem raw (rd rn : Gp) (e : RawExt) : Tracks (Codegen.raw rd rn e) := by
  cases e with
  | None => exact ite (i _) (pure ())
  | _ => exact i _

theorem fits_or_trap (r : Gp) (ty : IntTy) (kind : TrapKind) :
    Tracks (Codegen.fits_or_trap r ty kind) :=
  (expect _ _).bind fun _ => (i _).seq (trap_if _ _)

theorem clamp_signed (ty : IntTy) : Tracks (Codegen.clamp_signed ty) :=
  (mov_imm _ _).seq ((i _).seq ((i _).seq ((mov_imm _ _).seq ((i _).seq (i _)))))

theorem clamp_hi_unsigned (hi : BitVec 64) : Tracks (Codegen.clamp_hi_unsigned hi) :=
  (mov_imm _ _).seq ((i _).seq (i _))

theorem clamp_zero : Tracks Codegen.clamp_zero := (i _).seq (i _)

theorem sat_by_sign (rd src : Gp) : Tracks (Codegen.sat_by_sign rd src) := (i _).seq (i _)

theorem load_ab : Tracks Codegen.load_ab :=
  (ldr_slot _ (.inl rfl)).seq (ldr_slot _ (.inr (.inl rfl)))

theorem store_r : Tracks Codegen.store_r := str_slot _ (.inr (.inr rfl))

theorem min_by_minus_one (skip : Int) : Tracks (Codegen.min_by_minus_one skip) :=
  (i _).seq ((i _).seq (i _))

theorem add_sub_narrow (add : Bool) (mode : ArMode) (ty : IntTy) :
    Tracks (Codegen.add_sub_narrow add mode ty) := by
  refine (i _).seq ?_
  cases mode with
  | Trap => exact fits_or_trap _ _ _
  | Wrap => exact canon _ _ _
  | Sat => exact ite (clamp_signed _) (ite (clamp_hi_unsigned _) clamp_zero)

theorem add_sub_wide (add : Bool) (mode : ArMode) (signed : Bool) :
    Tracks (Codegen.add_sub_wide add mode signed) := by
  cases mode with
  | Wrap => exact i _
  | Trap =>
    refine (i _).seq ?_
    cases signed with
    | true => exact trap_if _ _
    | false =>
      cases add with
      | true => exact trap_if _ _
      | false => exact trap_if _ _
  | Sat =>
    refine (i _).seq ?_
    cases signed with
    | true => exact (sat_by_sign _ _).seq (i _)
    | false =>
      cases add with
      | true => exact i _
      | false => exact i _

theorem mul_narrow (mode : ArMode) (ty : IntTy) : Tracks (Codegen.mul_narrow mode ty) := by
  refine (i _).seq ?_
  cases mode with
  | Trap => exact fits_or_trap _ _ _
  | Wrap => exact canon _ _ _
  | Sat => exact ite (clamp_signed _) (clamp_hi_unsigned _)

theorem mul_high_test : Tracks Codegen.mul_high_test := (i _).seq ((i _).seq (i _))

theorem mul_wide (mode : ArMode) (signed : Bool) : Tracks (Codegen.mul_wide mode signed) := by
  unfold Codegen.mul_wide
  cases mode with
  | Wrap =>
    cases signed with
    | true => exact i _
    | false => exact i _
  | Trap =>
    cases signed with
    | true => exact mul_high_test.seq (trap_if _ _)
    | false => exact (i _).seq ((trap_cbnz _ _).seq (i _))
  | Sat =>
    cases signed with
    | true => exact mul_high_test.seq ((i _).seq ((sat_by_sign _ _).seq (i _)))
    | false => exact (i _).seq ((i _).seq ((i _).seq (i _)))

theorem rem_by (div : Reg → Reg → Reg → Result Inst) : Tracks (Codegen.rem_by div) :=
  (i _).seq (i _)

theorem div_rem_narrow (div : Bool) (mode : ArMode) (ty : IntTy) :
    Tracks (Codegen.div_rem_narrow div mode ty) := by
  refine ite ((i _).seq ?_) ((i _).seq ?_)
  · cases mode with
    | Trap => exact fits_or_trap _ _ _
    | Wrap => exact canon _ _ _
    | Sat => exact clamp_signed _
  · cases mode with
    | Trap => exact (fits_or_trap _ _ _).seq (i _)
    | Wrap => exact i _
    | Sat => exact i _

theorem div_rem_wide (div : Bool) (mode : ArMode) : Tracks (Codegen.div_rem_wide div mode) := by
  unfold Codegen.div_rem_wide
  cases mode with
  | Trap => exact (min_by_minus_one _).seq ((trap_if _ _).seq (ite (i _) (rem_by _)))
  | Wrap =>
    cases div with
    | true => exact i _
    | false => exact rem_by _
  | Sat =>
    cases div with
    | true => exact (i _).seq ((min_by_minus_one _).seq ((i _).seq (mov_imm _ _)))
    | false => exact rem_by _

theorem div_rem (div : Bool) (mode : ArMode) (ty : IntTy) :
    Tracks (Codegen.div_rem div mode ty) :=
  (trap_cbz _ _).seq (ite (ite (i _) (rem_by _)) (ite (div_rem_narrow _ _ _) (div_rem_wide _ _)))

theorem bin (op : BinOp) (mode : ArMode) (ty : IntTy) : Tracks (Codegen.bin op mode ty) := by
  cases op with
  | Add => exact ite (add_sub_narrow _ _ _) (add_sub_wide _ _ _)
  | Sub => exact ite (add_sub_narrow _ _ _) (add_sub_wide _ _ _)
  | Mul => exact ite (mul_narrow _ _) (mul_wide _ _)
  | Div => exact div_rem _ _ _
  | Rem => exact div_rem _ _ _

theorem shl_sat (ty : IntTy) : Tracks (Codegen.shl_sat ty) :=
  (i _).seq (ite (ite (clamp_signed _) (clamp_hi_unsigned _))
    (ite ((i _).seq ((i _).seq ((sat_by_sign _ _).seq (i _)))) ((i _).seq ((i _).seq (i _)))))

theorem shift (op : ShiftOp) (mode : ArMode) (ty : IntTy) : Tracks (Codegen.shift op mode ty) := by
  cases op with
  | Shr => exact i _
  | Shl =>
    cases mode with
    | Trap => exact (i _).seq (canon _ _ _)
    | Wrap => exact (i _).seq (canon _ _ _)
    | Sat => exact shl_sat _

theorem neg (mode : ArMode) (ty : IntTy) : Tracks (Codegen.neg mode ty) := by
  refine ite ((i _).seq ?_) ?_
  · cases mode with
    | Trap => exact fits_or_trap _ _ _
    | Wrap => exact canon _ _ _
    | Sat => exact clamp_signed _
  · cases mode with
    | Trap => exact (i _).seq (trap_if _ _)
    | Wrap => exact i _
    | Sat => exact (i _).seq (i _)

theorem conv_checked (from_ty to_ty : IntTy) : Tracks (Codegen.conv_checked from_ty to_ty) :=
  (canon _ _ _).seq ((i _).seq ((trap_if _ _).seq (ite (trap_tbnz _ _ _) (pure ()))))

theorem conv_sat (from_ty to_ty : IntTy) : Tracks (Codegen.conv_sat from_ty to_ty) := by
  refine (i _).seq ?_
  cases from_ty.signed with
  | true =>
    cases to_ty.signed with
    | true => exact clamp_signed _
    | false => exact clamp_zero.seq (clamp_hi_unsigned _)
  | false =>
    cases to_ty.signed with
    | true => exact clamp_hi_unsigned _
    | false => exact clamp_hi_unsigned _

theorem conv (op : ConvOp) (from_ty to_ty : IntTy) : Tracks (Codegen.conv op from_ty to_ty) := by
  cases op with
  | Checked => exact conv_checked _ _
  | Wrap => exact canon _ _ _
  | Sat => exact conv_sat _ _

end Tracks

/-- No body looks at the fill, but through its holes. -/
theorem tracks_body (key : Key) : Tracks (body key) := by
  cases key with
  | Const =>
    exact (Tracks.movz_imm _ _ _).seq ((Tracks.movk_imm _ _ _).seq ((Tracks.movk_imm _ _ _).seq
      ((Tracks.movk_imm _ _ _).seq Tracks.store_r)))
  | Copy => exact (Tracks.ldr_slot _ (.inl rfl)).seq (Tracks.str_slot _ (.inr (.inr rfl)))
  | Bin op mode ty => exact Tracks.load_ab.seq ((Tracks.bin op mode ty).seq Tracks.store_r)
  | Shift op mode ty count =>
    exact Tracks.load_ab.seq ((Tracks.raw _ _ count).seq ((Tracks.i _).seq
      ((Tracks.trap_if _ _).seq ((Tracks.shift op mode ty).seq Tracks.store_r))))
  | Neg mode ty =>
    exact (Tracks.ldr_slot _ (.inl rfl)).seq ((Tracks.neg mode ty).seq Tracks.store_r)
  | Logic op => exact Tracks.load_ab.seq ((Tracks.i _).seq Tracks.store_r)
  | Not ty =>
    refine (Tracks.ldr_slot _ (.inl rfl)).seq ((Tracks.i _).seq ?_)
    cases ty.signed with
    | true => exact (Tracks.pure ()).seq Tracks.store_r
    | false => exact (Tracks.canon _ _ ty).seq Tracks.store_r
  | NotBool =>
    exact (Tracks.ldr_slot _ (.inl rfl)).seq ((Tracks.i _).seq Tracks.store_r)
  | Icmp pred signed =>
    exact Tracks.load_ab.seq ((Tracks.i _).seq ((Tracks.i _).seq Tracks.store_r))
  | Conv op from_ty to_ty =>
    exact (Tracks.ldr_slot _ (.inl rfl)).seq ((Tracks.conv op from_ty to_ty).seq Tracks.store_r)
  | WriteUint ext =>
    exact (Tracks.ldr_slot _ (.inl rfl)).seq ((Tracks.raw _ _ ext).seq (Tracks.bl _))
  | WriteLine =>
    exact (Tracks.adr_lit _).seq ((Tracks.movz_imm _ _ _).seq ((Tracks.movk_imm _ _ _).seq
      (Tracks.bl _)))
  | Prologue =>
    exact (Tracks.i _).seq ((Tracks.i _).seq ((Tracks.movz_imm _ _ _).seq (Tracks.i _)))
  | Epilogue => exact (Tracks.i _).seq ((Tracks.i _).seq (Tracks.i _))
  | TrapJump kind => exact (Tracks.expect _ _).bind fun kind => Tracks.trap_always kind
  | Brk kind => exact (Tracks.expect _ _).bind fun imm => Tracks.i _

end Fors.Codegen
