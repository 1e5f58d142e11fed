import Fors.Link.Exact
import Fors.Rt.Kernel
import Fors.Rt.Digits

/-!
# The output routines

A link of the runtime before other atoms, loaded at any address, has the routines with their calls
filled in. `_fors_rt_write_line` passes the bytes and then a newline from its own frame, and the
three routines write what the intrinsics of the interpreter write.

Principal result: `outputs_exact`.
-/

namespace Fors.Rt

open AArch64 LittleEndian Option
open Link

variable {xs fors runtime : List Atom} {entry : String} {l : Linked} {a : Atom} {start : Nat}

/-- The words of a text that is loaded at `base`. -/
def loaded (base : Addr) (text : List UInt8) : Code :=
  fun a => if (a - base).toNat + 4 ≤ text.length then
    some (word_at text (a - base).toNat).toBitVec else none

def symbols_at (base : Addr) (xs : List Atom) (name : String) : Option Addr :=
  (address xs name).map fun t => base + .ofNat 64 t

theorem patched_of_place (hsize : size (runtime ++ fors) < 2 ^ 31)
    (hplace : place fors runtime entry = .ok l) :
    ((runtime ++ fors).map Atom.name).Nodup ∧
      (∀ s ∈ sites (runtime ++ fors), s.Valid (runtime ++ fors)) ∧
        Patched (runtime ++ fors) (sites (runtime ++ fors)) l.text := by
  have hnames : ((runtime ++ fors).map Atom.name).Nodup := by
    by_contra hrepeat
    obtain ⟨e, hfail⟩ := place_of_repeat hrepeat entry
    rw [hfail] at hplace
    cases hplace
  obtain hvalid | ⟨pre, s, post, hsites, hpre, hs⟩ :=
    valid_or_first (runtime ++ fors) (sites (runtime ++ fors))
  · obtain ⟨-, hfail⟩ | ⟨e, text, -, htext, hok⟩ := place_of_valid hsize hnames hvalid entry
    · rw [hfail] at hplace
      cases hplace
    · rw [hok] at hplace
      cases Except.ok.inj hplace
      exact ⟨hnames, hvalid, htext⟩
  · obtain ⟨⟨e, hfail⟩, -⟩ | ⟨hpanic, -⟩ := place_of_first hsize hnames hsites hpre hs entry
    · rw [hfail] at hplace
      cases hplace
    · rw [hpanic] at hplace
      cases hplace

variable {i : Nat}

/-- Atoms that overlap are one. -/
theorem placements_unique {p q : Nat × Atom} (hp : p ∈ placements 0 xs) (hq : q ∈ placements 0 xs) (hpi : p.1 ≤ i ∧ i < p.1 + p.2.code.length)
    (hqi : q.1 ≤ i ∧ i < q.1 + q.2.code.length) : p = q := by
  have hpairs := List.pairwise_iff_getElem.mp (placements_pairwise 0 xs).1
  obtain ⟨m, hm, rfl⟩ := List.getElem_of_mem hp
  obtain ⟨n, hn, rfl⟩ := List.getElem_of_mem hq
  obtain hlt | rfl | hlt := lt_trichotomy m n
  · have hle := hpairs m n hm hn hlt
    omega
  · rfl
  · have hle := hpairs n m hn hm hlt
    omega

/-- A site in an atom's bytes is one of its relocations. -/
theorem site_of_covers {s : Site} (hvalid : s.Valid xs) (hs : s ∈ sites xs)
    (ha : (start, a) ∈ placements 0 xs) (hi : i < a.code.length)
    (hcovers : s.pos ≤ start + i ∧ start + i < s.pos + 4) :
    s.start = start ∧ s.atom = a ∧ s.reloc ∈ a.relocs ∧ s.reloc.offset.toNat % 4 = 0 := by
  obtain ⟨hplace, hreloc⟩ := mem_sites.mp hs
  have hinside := hvalid.inside
  unfold Site.pos at hcovers
  have hsame : (s.start, s.atom) = (start, a) :=
    placements_unique hplace ha (i := start + i) ⟨by simp only; omega, by simp only; omega⟩
      ⟨by simp only; omega, by simp only; omega⟩
  obtain ⟨hstart, hatom⟩ := Prod.mk.inj hsame
  exact ⟨hstart, hatom, hatom ▸ hreloc, hvalid.aligned⟩

theorem loaded_at {base : Addr} {text : List UInt8} (hi : i + 4 ≤ text.length)
    (hlt : i < 2 ^ 64) : loaded base text (base + .ofNat 64 i) = some (word_at text i).toBitVec := by
  unfold loaded
  rw [add_sub_ofNat hlt, if_pos hi]

theorem stands_of_place (hsize : size (runtime ++ fors) < 2 ^ 31)
    (hplace : place fors runtime entry = .ok l)
    (ha : (start, a) ∈ placements 0 (runtime ++ fors))
    (hrelocs : ∀ r ∈ a.relocs, ∀ r' ∈ a.relocs, r.offset = r'.offset → r = r') (base : Addr) :
    Stands (loaded base l.text) (symbols_at base (runtime ++ fors)) (base + .ofNat 64 start) a := by
  obtain ⟨hnames, hvalid, htext⟩ := patched_of_place hsize hplace
  obtain ⟨hle, halign⟩ := start_add_le ha
  have hlen := htext.length
  refine ⟨fun i hi hno => ?_, fun r hr => ?_⟩
  · have hbytes : word_at l.text (start + 4 * i) = word_at a.code (4 * i) := by
      refine word_at_congr fun k hk => ?_
      rw [Nat.add_assoc, htext.kept, plain_at ha (by omega)]
      intro s hs hcovers
      obtain ⟨hstart, -, hreloc, haligned⟩ :=
        site_of_covers (hvalid s hs) hs ha (i := 4 * i + k) (by omega) hcovers
      unfold Site.pos at hcovers
      exact hno _ hreloc (by omega)
    rw [BitVec.add_assoc, BitVec.ofNat_add_ofNat, loaded_at (by omega) (by omega), hbytes]
  · have hs : (⟨start, a, r⟩ : Site) ∈ sites (runtime ++ fors) := mem_sites.mpr ⟨ha, hr⟩
    have hin : r.offset.toNat + 4 ≤ a.code.length := (hvalid _ hs).inside
    obtain ⟨s', hs', hpos, t, ht, hbranch⟩ := htext.branches _ hs
    have hpos' : s'.pos = start + r.offset.toNat := hpos
    obtain ⟨hstart, hatom, hreloc, -⟩ :=
      site_of_covers (hvalid s' hs') hs' ha (i := r.offset.toNat) (by omega) (by omega)
    have hsame : s'.reloc = r := by
      refine hrelocs _ hreloc _ hr (UInt32.toNat_inj.mp ?_)
      unfold Site.pos at hpos'
      omega
    rw [hsame] at ht
    change branch_target (start + r.offset.toNat) (word_at l.text (start + r.offset.toNat)) =
      some (t : Int) at hbranch
    unfold branch_target at hbranch
    split at hbranch
    · next hbl =>
      refine ⟨_, base + .ofNat 64 t, ?_, hbl, ?_, ?_⟩
      · rw [BitVec.add_assoc, BitVec.ofNat_add_ofNat, loaded_at (by omega) (by omega)]
      · unfold symbols_at
        rw [ht]
        rfl
      · have hsum := some.inj hbranch
        rw [BitVec.add_assoc, BitVec.add_assoc, ← BitVec.add_assoc (.ofNat 64 start),
          BitVec.ofNat_add_ofNat, ← BitVec.ofInt_natCast, ← BitVec.ofInt_add, hsum,
          BitVec.ofInt_natCast]
    · cases hbranch

/-- An atom stands where its name is. -/
theorem address_of_mem (hnames : (xs.map Atom.name).Nodup) (ha : a ∈ xs) :
    ∃ start, (start, a) ∈ placements 0 xs ∧ address xs a.name = some start := by
  have hsome : (address xs a.name).isSome = true :=
    (address_isSome a.name).mpr (List.mem_map_of_mem ha)
  obtain ⟨start, hstart⟩ := isSome_iff_exists.mp hsome
  obtain ⟨⟨start, b⟩, hfind, rfl⟩ := map_eq_some_iff.mp hstart
  have hmem := List.mem_of_find?_eq_some hfind
  have hname : b.name = a.name := by simpa using List.find?_some hfind
  have hb : b ∈ xs := by
    rw [← map_snd_placements 0 xs]
    exact List.mem_map_of_mem hmem
  obtain rfl := List.inj_on_of_nodup_map hnames hb ha hname
  exact ⟨start, hmem, hstart⟩

theorem runtime_atoms_ok : ∃ shim w u l, runtime_atoms = .ok [shim, w, u, l] ∧
    write = .ok w ∧ write_uint = .ok u ∧ write_line = .ok l ∧ ∀ a ∈ [w, u, l],
      ∀ r ∈ a.relocs, ∀ r' ∈ a.relocs, r.offset = r'.offset → r = r' :=
  ⟨_, _, _, _, rfl, rfl, rfl, rfl, by decide +kernel⟩

/-- Every link of the runtime has its output routines loaded. -/
theorem loaded_of_place (hruntime : runtime_atoms = .ok runtime)
    (hsize : size (runtime ++ fors) < 2 ^ 31) (hplace : place fors runtime entry = .ok l)
    (base : Addr) : Loaded (loaded base l.text) (symbols_at base (runtime ++ fors)) := by
  obtain ⟨shim, w, u, line, hok, hw, hu, hline, hrelocs⟩ := runtime_atoms_ok
  obtain rfl : runtime = [shim, w, u, line] := Except.ok.inj (hruntime.symm.trans hok)
  have hstands (a : Atom) (ha : a ∈ [w, u, line]) : ∃ start,
      symbols_at base ([shim, w, u, line] ++ fors) a.name = some start ∧
        Stands (loaded base l.text) (symbols_at base ([shim, w, u, line] ++ fors)) start a := by
    obtain ⟨start, hmem, haddress⟩ := address_of_mem (patched_of_place hsize hplace).1
      (List.mem_append_left fors (List.mem_cons_of_mem shim ha))
    refine ⟨base + .ofNat 64 start, ?_, stands_of_place hsize hplace hmem (hrelocs a ha) base⟩
    unfold symbols_at
    rw [haddress]
    rfl
  intro r hr
  simp only [List.mem_cons, List.not_mem_nil, or_false] at hr
  rcases hr with rfl | rfl | rfl
  · obtain ⟨start, hsymbol, hstand⟩ := hstands w (by simp)
    exact ⟨w, start, hw, hsymbol, hstand⟩
  · obtain ⟨start, hsymbol, hstand⟩ := hstands u (by simp)
    exact ⟨u, start, hu, hsymbol, hstand⟩
  · obtain ⟨start, hsymbol, hstand⟩ := hstands line (by simp)
    exact ⟨line, start, hline, hsymbol, hstand⟩

end Fors.Rt

/-! ## What the routines write -/

namespace Fors.Rt

open AArch64 LittleEndian Option

/-! ## `_fors_rt_write_line` -/

def line_pass : List Op :=
  [.add_sub_imm false false 29 31 0, mov 2 1, mov 1 0, .movz 0 1]

def newline : List Op :=
  [.movz 3 10, .strb 3 31 16, .movz 0 1, .add_sub_imm false false 1 31 16, .movz 2 1]

theorem write_line_decodes : ∃ a, write_line = .ok a ∧ a.name = WRITE_LINE ∧
    a.relocs = [⟨20, WRITE⟩, ⟨44, WRITE⟩] ∧
      decodes a 0 (.stp_pre 29 30 31 (-32) :: line_pass) = true ∧ decodes a 6 newline = true ∧
        decodes a 12 [.ldp_post 29 30 31 32, .ret 30] = true :=
  ⟨_, rfl, rfl, rfl, by decide +kernel, by decide +kernel, by decide +kernel⟩

theorem run_line_pass (c : Cpu) : ∃ t, line line_pass c = some t ∧ t.x 0 = 1 ∧ t.x 1 = c.x 0 ∧
    t.x 2 = c.x 1 ∧ Keeps [0, 1, 2, 29] c t := by
  refine ⟨_, rfl, ?_, ?_, ?_, ?_⟩
  · simp
  · simp [Cpu.reg]
  · simp [Cpu.reg]
  · refine ⟨fun r hr => ?_, ?_, ?_, ?_⟩
    · simp at hr
      simp [hr]
    · simp
    · simp
    · simp

/-- A newline is stored in the frame. -/
theorem run_newline {c : Cpu} (hbase : base_ok c 31) : ∃ t, line newline c = some t ∧ t.x 0 = 1 ∧
    t.x 1 = c.sp + 16 ∧ t.x 2 = 1 ∧ Keeps [0, 1, 2, 3] (c.store (c.sp + 16) [10]) t := by
  have hstore : exec (.strb 3 31 16) (c.set 3 10).next =
      some ((c.set 3 10).next.store (c.sp + 16) [10]).next := by
    have hbase' : base_ok (c.set 3 10).next 31 := hbase
    simp only [exec]
    rw [if_pos hbase']
    rfl
  have hline : line newline c = line [.movz 0 1, .add_sub_imm false false 1 31 16, .movz 2 1]
      ((c.set 3 10).next.store (c.sp + 16) [10]).next := by
    change (exec (.strb 3 31 16) (c.set 3 10).next).bind _ = _
    rw [hstore]
    rfl
  refine ⟨_, hline.trans rfl, ?_, ?_, ?_, ?_⟩
  · simp
  · simp [Cpu.reg_sp, sum]
  · simp
  · refine ⟨fun r hr => ?_, ?_, ?_, ?_⟩
    · simp at hr
      simp [hr]
    · simp
    · simp
    · simp [Cpu.store]

section
variable {code : Code} {start target : Addr} {s d : State}

/-- The newline is passed from the frame, and the routine comes back, or waits. -/
theorem newline_calls (hwrite : Program code target write_ops)
    (hops : Program code (start + 24) newline) {offset : BitVec 64}
    (hbl : fetch code (start + 44) = some (.b true offset)) (htarget : start + 44 + offset = target)
    (hback : Program code (start + 48) [.ldp_post 29 30 31 32, .ret 30])
    (halign : s.1.sp.toNat % 16 = 0) (hpc : d.1.pc = start + 24) (h : InFrame 32 s.1 d.1) :
    Calls code target 32 s.1 [Passes (Utf8.bytes "\n")] d := by
  have hbase : base_ok d.1 31 := by
    intro _
    rw [h.sp, BitVec.toNat_sub, BitVec.toNat_ofNat]
    omega
  obtain ⟨t, hline, h0, h1, h2, hkeeps⟩ := run_newline hbase
  obtain ⟨hrun, hend⟩ := @reaches_line _ _ kernel _ _ _ _ d.2 hops rfl hpc hline
  have hframe : InFrame 32 s.1 t :=
    (h.store (k := 16) (by decide) (by decide) (by decide)).keeps hkeeps
  have hcall : t.pc = start + 44 := by
    rw [hend, BitVec.add_assoc]
    rfl
  rw [← hcall] at hbl htarget
  obtain ⟨e, hlink, hsame, he, h30, hframe, hlinked⟩ :=
    InFrame.link (d := (t, d.2)) hframe hbl htarget
  have hpasses : Passes (Utf8.bytes "\n") e.1 := by
    refine ⟨(hlinked.x 0 (by decide)).trans h0, ?_⟩
    have hbyte : Utf8.bytes "\n" = [10] := by decide +kernel
    have hput : slice (put d.1.mem (d.1.sp + 16) [10]) (d.1.sp + 16) [(10 : UInt8)].length = [10] :=
      slice_put (by decide)
    rw [passed, hlinked.x 1 (by decide), h1, hlinked.x 2 (by decide), h2, hlinked.mem, hkeeps.mem,
      hbyte]
    exact hput
  obtain ⟨t', hwaits, hframed⟩ | ⟨t', hwritten, hframe, hret⟩ := hframe.call hwrite he
  · exact .waits (hrun.trans hlink) hsame he hpasses hwaits hframed
  · refine .written (hrun.trans hlink) hsame he hpasses hwritten ?_
    refine hframe.back (by decide) halign hback ?_ target
    rw [hret, h30, hcall, BitVec.add_assoc]
    rfl

/-- The routine passes the bytes and a newline and comes back, or waits. -/
theorem line_calls (hwrite : Program code target write_ops)
    (hops : Program code start (.stp_pre 29 30 31 (-32) :: line_pass)) {offset offset' : BitVec 64}
    (hbl : fetch code (start + 20) = some (.b true offset)) (htarget : start + 20 + offset = target)
    (hnewline : Program code (start + 24) newline)
    (hbl' : fetch code (start + 44) = some (.b true offset'))
    (htarget' : start + 44 + offset' = target)
    (hback : Program code (start + 48) [.ldp_post 29 30 31 32, .ret 30])
    (hpc : s.1.pc = start) (halign : s.1.sp.toNat % 16 = 0)
    (hbuffer : ∀ i < (s.1.x 1).toNat, ¬ Within (s.1.sp - 32) 32 (s.1.x 0 + .ofNat 64 i)) :
    Calls code target 32 s.1
      [Passes (slice s.1.mem (s.1.x 0) (s.1.x 1).toNat), Passes (Utf8.bytes "\n")] s := by
  obtain ⟨b, hexec, hframe, hx, hnext⟩ := InFrame.enter (n := 32) (by decide) (by decide) halign
  have hstp : fetch code s.1.pc = some (.stp_pre 29 30 31 (-32)) := by
    have hfirst := hops 0 _ rfl
    rwa [Nat.mul_zero, BitVec.add_zero, ← hpc] at hfirst
  have hblock : Program code (start + 4) line_pass := hops.block (i := 1) rfl
  obtain ⟨t, hline, h0, h1, h2, hkeeps⟩ := run_line_pass b
  obtain ⟨hrun, hend⟩ := @reaches_line _ _ kernel _ _ _ _ s.2 hblock rfl
    (hnext.trans (by rw [hpc])) hline
  have hcall : t.pc = start + 20 := by
    rw [hend, BitVec.add_assoc]
    rfl
  rw [← hcall] at hbl htarget
  obtain ⟨d, hlink, hsame, hd, h30, hframe, hlinked⟩ :=
    InFrame.link (d := (t, s.2)) (hframe.keeps hkeeps) hbl htarget
  have hpasses : Passes (slice s.1.mem (s.1.x 0) (s.1.x 1).toNat) d.1 := by
    refine ⟨(hlinked.x 0 (by decide)).trans h0, ?_⟩
    rw [passed, hlinked.x 1 (by decide), h1, hlinked.x 2 (by decide), h2, hx]
    refine List.map_congr_left fun i hi => ?_
    exact hframe.outside _ (hbuffer i (List.mem_range.mp hi))
  have hreach : Reaches code kernel s d := .trans (.trans (reaches_op hstp hexec) hrun) hlink
  obtain ⟨e, hwaits, hframed⟩ | ⟨e, hwritten, hframe, hret⟩ := hframe.call hwrite hd
  · exact .waits hreach hsame hd hpasses hwaits hframed
  · refine .written hreach hsame hd hpasses hwritten ?_
    refine newline_calls hwrite hnewline hbl' htarget' hback halign ?_ hframe
    rw [hret, h30, hcall, BitVec.add_assoc]
    rfl

end

/-! ## The result -/

variable {code : Code} {symbols : String → Option Addr}

theorem loaded_write (h : Loaded code symbols) : ∃ w, symbols WRITE = some w ∧
    Program code w write_ops := by
  obtain ⟨a, w, ha, hw, hstands⟩ := h write (by simp)
  obtain ⟨a', ha', hname, -, hdecodes⟩ := write_decodes
  obtain rfl : a = a' := Except.ok.inj (ha.symm.trans ha')
  have hops := hstands.program hdecodes
  rw [Nat.mul_zero, BitVec.add_zero] at hops
  exact ⟨w, hname ▸ hw, hops⟩

/-- Placed and linked, the routines write what the intrinsics write, whatever the kernel answers: a
call of `_fors_rt_write` gets a front of its buffer accepted, all of it unless it is stopped; the
others pass the numeral of the number and the line, and are back with the stack and the frame
registers as they were. -/
theorem outputs_exact (h : Loaded code symbols) :
    ∃ w, symbols WRITE = some w ∧
      (∀ s : State, s.1.pc = w → ∃ t, Written code s t ∨ Waits code s t) ∧
      (∀ (u : Addr) (s : State), symbols WRITE_UINT = some u → s.1.pc = u →
        s.1.sp.toNat % 16 = 0 → Calls code w 48 s.1
          [fun d => Passes (stdout_write_uint (s.1.x 0)) d ∧ From (s.1.sp - 48 + 16) 24 d] s) ∧
      (∀ (l : Addr) (s : State), symbols WRITE_LINE = some l → s.1.pc = l →
        s.1.sp.toNat % 16 = 0 →
        (∀ i < (s.1.x 1).toNat, ¬ Within (s.1.sp - 32) 32 (s.1.x 0 + .ofNat 64 i)) →
        ∃ text newline, text = slice s.1.mem (s.1.x 0) (s.1.x 1).toNat ∧
          text ++ newline = stdout_write_line text ∧
          Calls code w 32 s.1 [Passes text, Passes newline] s) := by
  obtain ⟨w, hw, hwrite⟩ := loaded_write h
  refine ⟨w, hw, fun s hpc => write_ends hwrite hpc, ?_, ?_⟩
  · intro u s hu hpc halign
    obtain ⟨a, start, ha, hstart, hstands⟩ := h write_uint (by simp)
    obtain ⟨a', ha', hname, hrelocs, hdecodes, hback⟩ := write_uint_decodes
    obtain rfl : a = a' := Except.ok.inj (ha.symm.trans ha')
    obtain rfl : start = u := some.inj (hstart.symm.trans (hname ▸ hu))
    obtain ⟨offset, t, hbl, ht, hsum⟩ := hstands.call (r := ⟨60, WRITE⟩) (by simp [hrelocs])
    obtain rfl : t = w := some.inj (ht.symm.trans hw)
    have hops := hstands.program hdecodes
    rw [Nat.mul_zero, BitVec.add_zero] at hops
    have hend : Program code (start + 64) [.ldp_post 29 30 31 48, .ret 30] :=
      hstands.program (i := 16) hback
    have h60 : (60 : UInt32).toNat = 60 := rfl
    rw [h60] at hbl hsum
    exact uint_calls hwrite hops hbl hsum hend hpc halign
  · intro l s hl hpc halign hbuffer
    obtain ⟨a, start, ha, hstart, hstands⟩ := h write_line (by simp)
    obtain ⟨a', ha', hname, hrelocs, hdecodes, hnewline, hback⟩ := write_line_decodes
    obtain rfl : a = a' := Except.ok.inj (ha.symm.trans ha')
    obtain rfl : start = l := some.inj (hstart.symm.trans (hname ▸ hl))
    obtain ⟨offset, t, hbl, ht, hsum⟩ := hstands.call (r := ⟨20, WRITE⟩) (by simp [hrelocs])
    obtain rfl : t = w := some.inj (ht.symm.trans hw)
    obtain ⟨offset', t', hbl', ht', hsum'⟩ := hstands.call (r := ⟨44, WRITE⟩) (by simp [hrelocs])
    obtain rfl : t' = t := some.inj (ht'.symm.trans hw)
    have hops := hstands.program hdecodes
    rw [Nat.mul_zero, BitVec.add_zero] at hops
    have hmiddle : Program code (start + 24) newline := hstands.program (i := 6) hnewline
    have hend : Program code (start + 48) [.ldp_post 29 30 31 32, .ret 30] :=
      hstands.program (i := 12) hback
    have h20 : (20 : UInt32).toNat = 20 := rfl
    have h44 : (44 : UInt32).toNat = 44 := rfl
    rw [h20] at hbl hsum
    rw [h44] at hbl' hsum'
    refine ⟨_, _, rfl, rfl, ?_⟩
    exact line_calls hwrite hops hbl hsum hmiddle hbl' hsum' hend hpc halign hbuffer

/-- A `main` that returns. -/
def returns : Link.Atom :=
  ⟨FORS_MAIN, [0xC0, 0x03, 0x5F, 0xD6], []⟩

theorem outputs_exact_image : ∃ runtime l, runtime_atoms = .ok runtime ∧
    Link.place [returns] runtime ENTRY = .ok l ∧
      ∃ w, symbols_at 0x100000000 (runtime ++ [returns]) WRITE = some w ∧
        ∀ s : State, s.1.pc = w → ∃ t,
          Written (loaded 0x100000000 l.text) s t ∨ Waits (loaded 0x100000000 l.text) s t := by
  obtain ⟨runtime, hruntime, hsize, hok⟩ : ∃ runtime, runtime_atoms = .ok runtime ∧
      Link.size (runtime ++ [returns]) < 2 ^ 31 ∧
        (Link.place [returns] runtime ENTRY).isOk = true :=
    ⟨_, rfl, by decide +kernel, by decide +kernel⟩
  obtain ⟨l, hplace⟩ : ∃ l, Link.place [returns] runtime ENTRY = .ok l := by
    cases hlink : Link.place [returns] runtime ENTRY with
    | ok l => exact ⟨l, rfl⟩
    | error e =>
      rw [hlink] at hok
      cases hok
  obtain ⟨w, hw, hwrite, -⟩ := outputs_exact (loaded_of_place hruntime hsize hplace 0x100000000)
  exact ⟨runtime, l, hruntime, hplace, w, hw, hwrite⟩

end Fors.Rt
