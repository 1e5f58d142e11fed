import Fors.Lib.Runs
import Fors.Exec.Tables

/-!
# Pointers do not come back

One round of the dispatch loop does to the tables of a run one of the things that `TableStep` lists,
whatever the instruction.  A run has fewer steps than there are ids, so no id is cut.  The invariant
then holds of every machine of every run, and a pointer that was good and has been refused is refused
from then on.

Principal results: `tables_kept`, `pointer_lifetime` and `objects_not_aliased`.
-/

namespace Fors.Exec.Machine

open Fors.Fmir Runs Option
open List hiding getElem?_eq_some_iff

open Words (as_u32 as_u32_eq)

variable {σ : Type} {p : Program} {e : Engine σ} {m m' m1 m2 : Machine σ}
variable {inst : UInt32} {site : SiteId} {ptr s : Slot} {row : ProvRow} {d : Deref} {i : Nat}

/-- The tables of a machine. -/
def tables (m : Machine σ) : Tables where
  states := m.allocs.map Alloc.state
  arenas := m.arenas
  provs := m.provs
  borrows id := m.borrows (.Alloc id)
  serials := m.below.reverse.map Frame.serial ++ [m.top.serial]
  next_serial := m.next_serial

/-! ## Pointers -/

theorem states_getElem? (m : Machine σ) (id : AllocId) :
    m.tables.states[id]? = (m.allocs[id]?).map Alloc.state :=
  getElem?_map ..

theorem frame_eq (m : Machine σ) (i : Nat) : m.frame i = (m.below.reverse ++ [m.top])[i]? := by
  unfold frame fr
  rcases Nat.lt_trichotomy i m.below.length with hlt | rfl | hgt
  · rw [if_neg hlt.ne, getElem?_append_left (by rwa [length_reverse])]
  · rw [if_pos rfl, getElem?_append_right (by rw [length_reverse]), length_reverse,
      Nat.sub_self]
    rfl
  · rw [if_neg hgt.ne', getElem?_eq_none (by rw [length_reverse]; exact hgt.le),
      getElem?_eq_none]
    rw [length_append, length_reverse]
    exact hgt

theorem frame_serial (m : Machine σ) (i serial : Nat) :
    ((m.frame i).any fun f => f.serial = serial) = false ↔ m.tables.serials[i]? ≠ some serial := by
  have hserials : m.tables.serials = (m.below.reverse ++ [m.top]).map Frame.serial := by
    rw [map_append]
    rfl
  rw [frame_eq, hserials, getElem?_map]
  cases (m.below.reverse ++ [m.top])[i]? with
  | none => simp
  | some f => simp

theorem prov_of_eq_ok : m.prov_of s = .ok row ↔ m.tables.Has s.prov row := by
  unfold prov_of Tables.Has tables
  by_cases hnone : s.prov = PROV_NONE
  · rw [if_pos hnone]
    exact ⟨fun h => (by cases h), fun h => absurd hnone h.1⟩
  · rw [if_neg hnone]
    cases hrow : m.provs[s.prov]? with
    | none => exact ⟨fun h => (by cases h), fun h => (by cases h.2)⟩
    | some r =>
      constructor
      · intro h
        cases h
        exact ⟨hnone, rfl⟩
      · rintro ⟨-, h⟩
        rw [some.inj h]

/-- Where a pointer of a row leads. -/
def leads_to (row : ProvRow) (bits : UInt64) : Deref :=
  match row.target with
  | .Root frame _ root => ⟨.Root frame root, none, 0, row.tag⟩
  | .Alloc id => ⟨.Alloc id, some id, as_u32 bits.toNat, row.tag⟩
  | .Arena _ data => ⟨.Alloc data, some data, (RefVal.unpack bits).2, row.tag⟩

/-- The ways in which a dead pointer is refused. -/
def Refusal (f : Fault) : Prop :=
  f = .Trap .ArenaGeneration ∨ ∃ report, f = .Ub report ∧ report.class_ = .UseAfterFree

/-- A pointer resolves exactly when what it leads to is there, and is refused as dead when not. -/
theorem resolve_deref_cases (inst : UInt32) (site : SiteId) (hs : m.tables.Sound)
    (hrow : m.tables.Has ptr.prov row) :
    (m.tables.Leads row ptr.bits ∧ m.resolve_deref inst site ptr = .ok (leads_to row ptr.bits)) ∨
      (¬m.tables.Leads row ptr.bits ∧
        ∃ f, m.resolve_deref inst site ptr = .error f ∧ Refusal f) := by
  obtain ⟨hobject, harena⟩ := hs.points _ row hrow
  have hstate {id : AllocId} (hid : row.object = some id) :
      ∃ st, (m.allocs[id]?).map Alloc.state = some st := by
    rw [← states_getElem?]
    exact ⟨_, getElem?_eq_getElem (hobject id hid).1⟩
  unfold resolve_deref Tables.Leads leads_to
  rw [prov_of_eq_ok.mpr hrow]
  unfold ProvRow.object at hstate
  dsimp only [bind, Except.bind, pure, Except.pure]
  cases htarget : row.target with
  | Root frame serial root =>
    dsimp only
    have hiff := frame_serial m frame serial
    by_cases hthere : m.tables.serials[frame]? = some serial
    · rw [if_neg fun hgone => hiff.mp hgone hthere]
      exact .inl ⟨hthere, rfl⟩
    · rw [if_pos (hiff.mpr hthere)]
      exact .inr ⟨hthere, _, rfl, .inr ⟨_, rfl, rfl⟩⟩
  | Alloc id =>
    simp only [htarget] at hstate
    obtain ⟨st, hst⟩ := hstate rfl
    dsimp only
    rw [states_getElem?, check_alloc_live, hst]
    cases st with
    | Live => exact .inl ⟨rfl, rfl⟩
    | Freed site => exact .inr ⟨fun h => (by cases h), _, rfl, .inr ⟨_, rfl, rfl⟩⟩
    | Reset site => exact .inr ⟨fun h => (by cases h), _, rfl, .inl rfl⟩
  | Arena arena data =>
    obtain ⟨a, ha, -⟩ := map_eq_some_iff.mp (harena arena data htarget)
    have ha' : m.arenas[arena]? = some a := ha
    dsimp only
    rw [states_getElem?, ha, ha']
    dsimp only
    by_cases hgeneration : a.generation = (RefVal.unpack ptr.bits).1
    · rw [if_neg (not_not_intro hgeneration)]
      by_cases hlive : (m.allocs[data]?).map Alloc.state = some .Live
      · rw [if_neg (not_not_intro hlive)]
        exact .inl ⟨⟨hlive, a, rfl, hgeneration⟩, rfl⟩
      · rw [if_pos hlive]
        exact .inr ⟨fun h => hlive h.1, _, rfl, .inl rfl⟩
    · rw [if_pos hgeneration]
      refine .inr ⟨?_, _, rfl, .inl rfl⟩
      rintro ⟨-, b, hb, heq⟩
      exact hgeneration (some.inj hb ▸ heq)

/-- What is known of a pointer that resolves. -/
theorem resolve_deref_eq_ok (hs : m.tables.Sound) (hd : m.resolve_deref inst site ptr = .ok d) :
    ∃ row, m.tables.Has ptr.prov row ∧ m.tables.Leads row ptr.bits ∧ d = leads_to row ptr.bits := by
  obtain ⟨row, hprov, -⟩ := bind_eq_ok.mp hd
  have hrow := prov_of_eq_ok.mp hprov
  refine ⟨row, hrow, ?_⟩
  obtain ⟨hleads, hok⟩ | ⟨-, f, hf, -⟩ := resolve_deref_cases inst site hs hrow
  · exact ⟨hleads, Except.ok.inj (hd.symm.trans hok)⟩
  · cases hd.symm.trans hf

/-! ## What leaves the tables alone -/

variable {α : Type}

theorem map_set_same {β : Type} {f : α → β} {xs : List α} {x y : α} (hx : xs[i]? = some x)
    (hy : f y = f x) : (xs.set i y).map f = xs.map f := by
  apply ext_getElem?
  intro j
  rw [getElem?_map, getElem?_map, getElem?_set]
  split
  · next hij => rw [← hij, if_pos (List.getElem?_eq_some_iff.mp hx).1, hx, map_some, hy,
      map_some]
  · rfl

theorem map_modify_same {β : Type} {f : α → β} {g : α → α} (hg : ∀ x, f (g x) = f x) (xs : List α)
    (i : Nat) : (xs.modify i g).map f = xs.map f := by
  apply ext_getElem?
  intro j
  rw [getElem?_map, getElem?_map, getElem?_modify]
  cases xs[j]? with
  | none => rfl
  | some x =>
    split
    · exact congrArg some (hg x)
    · rfl

/-- The same tables, after as many steps. -/
structure Kept (m m' : Machine σ) : Prop where
  tables : m'.tables = m.tables
  steps : m'.steps = m.steps
  step_cap : m'.step_cap = m.step_cap

theorem Kept.refl (m : Machine σ) : Kept m m :=
  ⟨rfl, rfl, rfl⟩

theorem Kept.trans (h : Kept m m1) (h' : Kept m1 m') : Kept m m' :=
  ⟨h'.tables.trans h.tables, h'.steps.trans h.steps, h'.step_cap.trans h.step_cap⟩

theorem kept_define_dest (m : Machine σ) (dest : Option ValId) (s : Slot) :
    Kept m (m.define_dest dest s) := by
  cases dest with
  | none => exact .refl m
  | some v => exact ⟨rfl, rfl, rfl⟩

/-- A frame with the activation of the one in its place. -/
theorem kept_set_frame {f f' : Frame} (hf : m.frame i = some f) (hserial : f'.serial = f.serial) :
    Kept m (m.set_frame i f') := by
  rw [frame_eq] at hf
  unfold set_frame fr
  by_cases htop : i = m.below.length
  · rw [if_pos htop]
    rw [htop, getElem?_append_right (by rw [length_reverse]), length_reverse,
      Nat.sub_self] at hf
    have hsame : f'.serial = m.top.serial := by rw [hserial, ← some.inj hf]
    refine ⟨?_, rfl, rfl⟩
    unfold tables
    simp [hsame]
  · rw [if_neg htop]
    have hlt : i < m.below.reverse.length := by
      have hle := (List.getElem?_eq_some_iff.mp hf).1
      rw [length_append, length_singleton] at hle
      rw [length_reverse] at hle ⊢
      omega
    rw [getElem?_append_left hlt] at hf
    have hsame : (m.below.reverse.set i f').map Frame.serial = _ := map_set_same hf hserial
    refine ⟨?_, rfl, rfl⟩
    unfold tables
    simp [hsame]

/-! ## Accesses -/

theorem access_rooted (tag : Nat) (how : Access) :
    (BorrowStack.rooted tag).access tag how = some (.rooted tag) := by
  cases how <;> simp [BorrowStack.access, BorrowStack.rooted, BorrowItem.holds,
    BorrowItem.is_shared]

variable {id : AllocId}

/-- An object's stack is never more than its root, so an access of it is not refused. -/
theorem borrow_access_object (hs : m.tables.Sound) (hrow : m.tables.Has i row)
    (hobject : row.object = some id) (how : Access) :
    m.borrow_access (.Alloc id) row.tag how = some m := by
  have hstack : m.borrows (.Alloc id) = some (.rooted row.tag) :=
    ((hs.points i row hrow).1 id hobject).2
  have hsame : (fun k => if k = .Alloc id then some (.rooted row.tag) else m.borrows k) =
      m.borrows := by
    funext k
    split
    · next hk => rw [hk, hstack]
    · rfl
  unfold borrow_access
  rw [hstack]
  dsimp only
  rw [access_rooted]
  dsimp only
  rw [hsame]

variable {root : Nat}

theorem kept_access_root {frame tag : Nat} {how : Access}
    (h : m.borrow_access (.Root frame root) tag how = some m') : Kept m m' := by
  unfold borrow_access at h
  split at h
  · cases h
    exact .refl m
  · split at h
    · cases h
    · cases h
      exact ⟨rfl, rfl, rfl⟩

theorem leads_to_cases (row : ProvRow) (bits : UInt64) :
    (∃ frame root, leads_to row bits = ⟨.Root frame root, none, 0, row.tag⟩) ∨
      ∃ id off, row.object = some id ∧ leads_to row bits = ⟨.Alloc id, some id, off, row.tag⟩ := by
  unfold leads_to ProvRow.object
  cases row.target with
  | Root frame serial root => exact .inl ⟨frame, root, rfl⟩
  | Alloc id => exact .inr ⟨id, _, rfl, rfl⟩
  | Arena arena data => exact .inr ⟨data, _, rfl, rfl⟩

theorem kept_borrow_access (hs : m.tables.Sound) (hd : m.resolve_deref inst site ptr = .ok d)
    {how : Access} (h : m.borrow_access d.key d.tag how = some m') : Kept m m' := by
  obtain ⟨row, hrow, -, rfl⟩ := resolve_deref_eq_ok hs hd
  obtain ⟨frame, root, heq⟩ | ⟨id, off, hobject, heq⟩ := leads_to_cases row ptr.bits
  · rw [heq] at h
    exact kept_access_root h
  · rw [heq] at h
    cases (borrow_access_object hs hrow hobject how).symm.trans h
    exact .refl m

theorem kept_read_ptr (hs : m.tables.Sound) {ty : TyId} {r : Slot × Machine σ}
    (h : m.read_ptr e inst site root ty ptr = .ok r) : Kept m r.2 := by
  obtain ⟨d, hd, h⟩ := bind_eq_ok.mp h
  split at h
  · cases h
  · next m1 hm1 =>
    have hkept := kept_borrow_access hs hd hm1
    split at h
    · obtain ⟨row, -, h⟩ := bind_eq_ok.mp h
      split at h
      · dsimp only at h
        split at h
        · cases h
        · split at h
          · cases h
          · cases h
            exact hkept
      · cases h
    · obtain ⟨width, -, h⟩ := bind_eq_ok.mp h
      split at h
      · cases h
      · split at h
        · cases h
        · split at h
          · cases h
          · cases h
            exact hkept

theorem kept_write_ptr (hs : m.tables.Sound) {ty : TyId} {v : Slot}
    (h : m.write_ptr e inst site root ty ptr v = .ok m') : Kept m m' := by
  obtain ⟨d, hd, h⟩ := bind_eq_ok.mp h
  split at h
  · cases h
  · next m1 hm1 =>
    have hkept := kept_borrow_access hs hd hm1
    split at h
    · obtain ⟨row, -, h⟩ := bind_eq_ok.mp h
      split at h
      · split at h
        · cases h
        · next f hf =>
          cases h
          exact hkept.trans (kept_set_frame hf rfl)
      · cases h
    · obtain ⟨width, -, h⟩ := bind_eq_ok.mp h
      split at h
      · cases h
      · next alloc halloc =>
        split at h
        · cases h
        · cases h
          refine hkept.trans ⟨?_, rfl, rfl⟩
          have hsame : (m1.allocs.set _ (store alloc d.off width v)).map Alloc.state = _ :=
            map_set_same halloc rfl
          unfold tables
          dsimp only
          rw [hsame]

theorem kept_own_write (m : Machine σ) (root : Nat) : Kept m (m.own_write root) := by
  unfold own_write
  cases h : m.borrow_access (.Root m.fr root) ROOT_TAG .Write with
  | none => exact .refl m
  | some m1 => exact kept_access_root h

variable {raw : UInt32}

theorem kept_read_place (hs : m.tables.Sound) {r : Slot × Machine σ}
    (h : m.read_place e inst site raw = .ok r) : Kept m r.2 := by
  obtain ⟨⟨root, segs, ty⟩, -, h⟩ := bind_eq_ok.mp h
  dsimp only at h
  split at h
  · obtain ⟨ptr, -, h⟩ := bind_eq_ok.mp h
    exact kept_read_ptr hs h
  · obtain ⟨base, -, h⟩ := bind_eq_ok.mp h
    cases h
    exact .refl m
  · obtain ⟨base, -, h⟩ := bind_eq_ok.mp h
    obtain ⟨s, -, h⟩ := bind_eq_ok.mp h
    cases h
    exact .refl m

theorem kept_write_place (hs : m.tables.Sound) {v : Slot}
    (h : m.write_place e inst site raw v = .ok m') : Kept m m' := by
  obtain ⟨⟨root, segs, ty⟩, -, h⟩ := bind_eq_ok.mp h
  dsimp only at h
  split at h
  · obtain ⟨ptr, -, h⟩ := bind_eq_ok.mp h
    exact kept_write_ptr hs h
  · cases h
    exact (kept_own_write m root).trans ⟨rfl, rfl, rfl⟩
  · obtain ⟨base, -, h⟩ := bind_eq_ok.mp h
    obtain ⟨rest, -, h⟩ := bind_eq_ok.mp h
    cases h
    exact (kept_own_write m root).trans ⟨rfl, rfl, rfl⟩

theorem kept_move_from (hs : m.tables.Sound) {r : Slot × Machine σ}
    (h : m.move_from e inst site raw = .ok r) : Kept m r.2 := by
  obtain ⟨⟨s, m1⟩, hread, h⟩ := bind_eq_ok.mp h
  obtain ⟨⟨root, segs, ty⟩, -, h⟩ := bind_eq_ok.mp h
  have hkept := kept_read_place hs hread
  dsimp only at h hkept
  split at h
  · cases h
    exact hkept.trans ⟨rfl, rfl, rfl⟩
  · cases h
    exact hkept

/-! ## Instructions -/

/-- The tables after a step of their own, and after as many steps or more, as the cap allows. -/
structure Moves (m m' : Machine σ) : Prop where
  tables : m.tables.TableStep m'.tables
  steps : m.steps ≤ m'.steps
  step_cap : m'.step_cap = m.step_cap
  within : m.steps ≤ m.step_cap → m'.steps ≤ m.step_cap

theorem Kept.moves (h : Kept m m') : Moves m m' where
  tables := h.tables ▸ .keep
  steps := h.steps.ge
  step_cap := h.step_cap
  within := h.steps ▸ id

theorem Moves.kept (h : Moves m m1) (h' : Kept m1 m') : Moves m m' where
  tables := h'.tables ▸ h.tables
  steps := h'.steps ▸ h.steps
  step_cap := h'.step_cap.trans h.step_cap
  within := h'.steps ▸ h.within

theorem Kept.then_moves (h : Kept m m1) (h' : Moves m1 m') : Moves m m' where
  tables := h.tables ▸ h'.tables
  steps := h.steps ▸ h'.steps
  step_cap := h'.step_cap.trans h.step_cap
  within := h.steps ▸ h.step_cap ▸ h'.within

theorem moves_of_tables (htables : m.tables.TableStep m'.tables) (hsteps : m'.steps = m.steps)
    (hcap : m'.step_cap = m.step_cap) : Moves m m' :=
  ⟨htables, hsteps.ge, hcap, hsteps ▸ id⟩

theorem moves_borrow {op : Op} {r : Slot × Machine σ}
    (h : m.borrow op raw = .ok r) : Moves m r.2 := by
  obtain ⟨⟨root, segs, ty⟩, -, h⟩ := bind_eq_ok.mp h
  dsimp only at h
  split at h
  · cases h
  · have hstep := Tables.TableStep.local_ (t := m.tables) m.fr m.top.serial root (m.next_tag + 1)
    split at h
    · cases h
      exact moves_of_tables hstep rfl rfl
    · cases h
      exact moves_of_tables hstep rfl rfl

theorem tables_push_alloc (hallocs : m.allocs.length < 2 ^ 32) (alloc : Alloc)
    (hlive : alloc.state = .Live) :
    (m.push_alloc alloc).2.2.tables = m.tables.push_object (m.next_tag + 1) ∧
      (m.push_alloc alloc).1 = m.tables.states.length := by
  have hlength : m.tables.states.length = m.allocs.length := length_map ..
  refine ⟨?_, (as_u32_eq hallocs).trans hlength.symm⟩
  unfold push_alloc fresh_tag set_borrow Tables.push_object
  rw [hlength, as_u32_eq hallocs]
  unfold tables
  simp [hlive]

theorem moves_alloc (hallocs : m.allocs.length < 2 ^ 32) (size align : Slot) :
    Moves m (m.alloc size align).2 := by
  obtain ⟨htables, hid⟩ := tables_push_alloc hallocs (.new (as_u32 size.bits.toNat)
    (max (as_u32 align.bits.toNat) 1) (.Heap (m.allocator_at m.top.block)) 0) rfl
  have hheap : (m.alloc size align).2.tables = (m.tables.push_object (m.next_tag + 1)).push
      (.Alloc m.tables.states.length) (m.next_tag + 1) := by
    rw [← htables, ← hid]
    rfl
  exact moves_of_tables (hheap ▸ .heap _) rfl rfl

theorem moves_enter_arena (hallocs : m.allocs.length < 2 ^ 32) (harenas : m.arenas.length < 2 ^ 32)
    (region : RegionId) : Moves m (m.enter_arena region).2 := by
  obtain ⟨htables, hid⟩ := tables_push_alloc hallocs
    (.new 0 16 (.Arena (as_u32 m.arenas.length)) 0) rfl
  have henter : (m.enter_arena region).2.tables = ({ m.tables.push_object (m.next_tag + 1) with
      arenas := m.tables.arenas ++
        [.new m.tables.arenas.length m.tables.states.length (2 ^ 64 - 1)] } : Tables).push
      (.Arena m.tables.arenas.length m.tables.states.length) (m.next_tag + 1) := by
    have hlength : m.tables.arenas.length = as_u32 m.arenas.length := (as_u32_eq harenas).symm
    rw [← htables, ← hid, hlength]
    rfl
  exact moves_of_tables (henter ▸ .enter _) rfl rfl

theorem moves_region_enter (hallocs : m.allocs.length < 2 ^ 32) (harenas : m.arenas.length < 2 ^ 32)
    {region : RegionId} {r : Slot × Machine σ} (h : m.region_enter region = .ok r) :
    Moves m r.2 := by
  unfold region_enter at h
  split at h
  · cases h
    exact moves_enter_arena hallocs harenas region
  · cases h
    exact (Kept.refl m).moves
  · cases h

theorem moves_set_state {state : AllocState} (hstate : state ≠ .Live)
    (hlive : (m.allocs[id]?).map Alloc.state = some .Live) : Moves m (m.set_state id state) := by
  have hset : (m.allocs.modify id fun a => { a with state := state }).map Alloc.state =
      (m.allocs.map Alloc.state).set id state := by
    apply ext_getElem?
    intro j
    rw [getElem?_map, getElem?_modify, getElem?_set, getElem?_map,
      length_map]
    by_cases hid : id = j
    · rw [if_pos hid, ← hid]
      obtain ⟨a, ha, -⟩ := map_eq_some_iff.mp hlive
      rw [if_pos (List.getElem?_eq_some_iff.mp ha).1, ha]
      simp
    · simp [hid]
  refine moves_of_tables ?_ rfl rfl
  unfold set_state tables
  dsimp only
  rw [hset]
  exact .retire id state hstate ((states_getElem? m id).trans hlive)

theorem live_of_check_alloc_live {u : Unit} (h : m.check_alloc_live inst site id = .ok u) :
    (m.allocs[id]?).map Alloc.state = some .Live := by
  unfold check_alloc_live at h
  split at h
  · assumption
  · cases h
  · cases h
  · cases h

theorem moves_free (h : m.free inst site ptr = .ok m') : Moves m m' := by
  obtain ⟨row, -, h⟩ := bind_eq_ok.mp h
  split at h
  · obtain ⟨_, hlive, h⟩ := bind_eq_ok.mp h
    dsimp only at h
    split at h
    · cases h
    · split at h
      · cases h
        exact moves_set_state (fun hno => by cases hno) (live_of_check_alloc_live hlive)
      · cases h
  · cases h

theorem moves_region_exit {region : RegionId} (h : m.region_exit site region = .ok m') :
    Moves m m' := by
  unfold region_exit at h
  split at h
  · split at h
    · cases h
    · next a ha =>
      cases h
      obtain ⟨x, hfind, rfl⟩ := map_eq_some_iff.mp ha
      have hfound := find?_some hfind
      have hlive := (Bool.and_eq_true_iff.mp hfound).2
      exact moves_set_state (fun hno => by cases hno) (of_decide_eq_true hlive)
  · cases h
    exact (Kept.refl m).moves

theorem tables_modify {g : Alloc → Alloc} (hg : ∀ a, (g a).state = a.state) (m : Machine σ)
    (id : AllocId) : ({ m with allocs := m.allocs.modify id g } : Machine σ).tables = m.tables := by
  unfold tables
  dsimp only
  rw [map_modify_same hg]

theorem moves_arena_alloc {handle size : Slot} {r : Slot × Machine σ}
    (h : m.arena_alloc handle size = .ok r) : Moves m r.2 := by
  obtain ⟨row, hrow, h⟩ := bind_eq_ok.mp h
  split at h
  · next arena data htarget =>
    obtain ⟨_, -, h⟩ := bind_eq_ok.mp h
    split at h
    · cases h
    · next a ha =>
      dsimp only at h
      split at h
      · cases h
      · next hstop =>
        cases h
        have hgrow (o : Alloc) (n : Nat) : (o.grow_to n).state = o.state := by
          unfold Alloc.grow_to
          split <;> rfl
        have hbump := Tables.TableStep.bump (t := m.tables) handle.prov row arena data a
          (a.bump + as_u32 size.bits.toNat) (prov_of_eq_ok.mp hrow) htarget ha (Nat.le_add_right _ _)
          (Nat.not_le.mp hstop)
        refine moves_of_tables ?_ rfl rfl
        generalize a.bump + as_u32 size.bits.toNat = stop at hbump ⊢
        have hsame := tables_modify (fun o => hgrow o stop)
          (m.set_arena arena { a with bump := stop }) data
        exact Eq.mpr (congrArg (fun t => m.tables.TableStep (t.push (.Arena arena data) row.tag))
          hsame) hbump
  · cases h

theorem moves_arena_deref (hs : m.tables.Sound) {r : Slot × Machine σ} (h : m.arena_deref inst site ptr = .ok r) :
    Moves m r.2 := by
  obtain ⟨d, hd, h⟩ := bind_eq_ok.mp h
  obtain ⟨row, hrow, -, rfl⟩ := resolve_deref_eq_ok hs hd
  split at h
  · cases h
  · next alloc halloc =>
    cases h
    obtain ⟨frame, root, heq⟩ | ⟨obj, off, hobject, heq⟩ := leads_to_cases row ptr.bits
    · rw [heq] at halloc
      cases halloc
    · rw [heq] at halloc ⊢
      cases halloc
      exact moves_of_tables (.deref ptr.prov row _ hrow hobject) rfl rfl

theorem moves_arena_reset {handle : Slot} (h : m.arena_reset handle = .ok m') : Moves m m' := by
  obtain ⟨row, -, h⟩ := bind_eq_ok.mp h
  split at h
  · next arena data htarget =>
    obtain ⟨_, -, h⟩ := bind_eq_ok.mp h
    split at h
    · cases h
    · next a ha =>
      split at h
      · cases h
      · next a' hreset =>
        cases h
        refine moves_of_tables ?_ rfl rfl
        obtain ⟨generation, hnext, hreset⟩ := bind_eq_ok.mp hreset
        unfold next_generation at hnext
        split at hnext
        · cases hnext
        · next hmax =>
          cases hnext
          cases hreset
          have hsame := tables_modify (g := Alloc.forget) (fun _ => rfl) (m.set_arena arena
            { a with generation := a.generation + 1, bump := 0 }) data
          exact Eq.mpr (congrArg m.tables.TableStep hsame) (.reset arena a ha hmax)
  · cases h

variable {dest : Option ValId}

theorem moves_call {func : ProgFn} {args : List Slot}
    (h : m.call func dest args = .ok m') : Moves m m' := by
  unfold call at h
  split at h
  · cases h
  · cases h
    refine moves_of_tables ?_ rfl rfl
    unfold tables
    simp only [reverse_cons, map_append, map_cons, map_nil]
    exact .call

theorem moves_call_direct {a : UInt32} (h : m.call_direct p inst dest a = .ok m') : Moves m m' := by
  unfold call_direct at h
  split at h
  · cases h
  · split at h
    · obtain ⟨args, -, h⟩ := bind_eq_ok.mp h
      split at h
      · cases h
      · exact moves_call h
    · cases h

theorem Moves.defines {r : Slot × Machine σ} (hr : Moves m r.2)
    (h : defines dest r = .ok m') : Moves m m' := by
  cases r
  cases h
  exact hr.kept (kept_define_dest _ dest _)

theorem charge_eq_ok {n : Nat} : m.charge n = .ok m' ↔
    m.steps + n ≤ m.step_cap ∧ m' = { m with steps := m.steps + n } := by
  unfold charge
  split
  · next hgt => exact ⟨fun h => (by cases h), fun h => absurd hgt (Nat.not_lt.mpr h.1)⟩
  · next hle => exact ⟨fun h => ⟨Nat.not_lt.mp hle, (Except.ok.inj h).symm⟩, fun h => congrArg _ h.2.symm⟩

theorem lift_eq_ok {x : Except InterpError α} {a : α} : lift x = .ok a ↔ x = .ok a := by
  cases x with
  | error _ => exact ⟨fun h => (by cases h), fun h => (by cases h)⟩
  | ok _ => exact ⟨fun h => congrArg _ (Except.ok.inj h), fun h => congrArg _ (Except.ok.inj h)⟩

/-- An instruction takes at most one step of the tables. -/
theorem moves_exec_inst (hs : m.tables.Sound) (hallocs : m.allocs.length < 2 ^ 32)
    (harenas : m.arenas.length < 2 ^ 32) {inst : InstId} {row : InstRow}
    (h : m.exec_inst p e inst row = .ok m') : Moves m m' := by
  unfold exec_inst at h
  dsimp only at h
  split at h
  · obtain ⟨r, hr, h⟩ := bind_eq_ok.mp h
    exact (kept_read_place hs hr).moves.defines h
  · obtain ⟨r, hr, h⟩ := bind_eq_ok.mp h
    exact (kept_move_from hs hr).moves.defines h
  · obtain ⟨r, hr, h⟩ := bind_eq_ok.mp h
    exact (moves_borrow hr).defines h
  · obtain ⟨r, hr, h⟩ := bind_eq_ok.mp h
    exact (moves_borrow hr).defines h
  · obtain ⟨r, hr, h⟩ := bind_eq_ok.mp h
    exact (moves_borrow hr).defines h
  · obtain ⟨v, -, h⟩ := bind_eq_ok.mp h
    exact (kept_write_place hs h).moves
  · obtain ⟨size, -, h⟩ := bind_eq_ok.mp h
    obtain ⟨align, -, h⟩ := bind_eq_ok.mp h
    exact (moves_alloc hallocs size align).defines h
  · obtain ⟨ptr, -, h⟩ := bind_eq_ok.mp h
    obtain ⟨m1, hm1, h⟩ := bind_eq_ok.mp h
    exact (moves_free hm1).defines h
  · obtain ⟨r, hr, h⟩ := bind_eq_ok.mp h
    exact (moves_region_enter hallocs harenas hr).defines h
  · obtain ⟨m1, hm1, h⟩ := bind_eq_ok.mp h
    exact (moves_region_exit hm1).defines h
  · obtain ⟨handle, -, h⟩ := bind_eq_ok.mp h
    obtain ⟨size, -, h⟩ := bind_eq_ok.mp h
    obtain ⟨r, hr, h⟩ := bind_eq_ok.mp h
    exact (moves_arena_alloc hr).defines h
  · obtain ⟨ptr, -, h⟩ := bind_eq_ok.mp h
    obtain ⟨r, hr, h⟩ := bind_eq_ok.mp h
    exact (moves_arena_deref hs hr).defines h
  · obtain ⟨handle, -, h⟩ := bind_eq_ok.mp h
    obtain ⟨m1, hm1, h⟩ := bind_eq_ok.mp h
    exact (moves_arena_reset hm1).defines h
  · exact moves_call_direct h
  · -- only the steps and the rest of the machine
    obtain ⟨⟨s, steps, rest⟩, -, h⟩ := bind_eq_ok.mp h
    obtain ⟨m1, hm1, h⟩ := bind_eq_ok.mp h
    obtain ⟨hle, rfl⟩ := charge_eq_ok.mp (lift_eq_ok.mp hm1)
    have hmoves : Moves m { m with steps := m.steps + steps, rest := rest } :=
      ⟨.keep, Nat.le_add_right _ _, rfl, fun _ => hle⟩
    exact hmoves.defines h

/-! ## Terminators -/

variable {r : FrameStep × Machine σ}

theorem kept_goto {b : BlockId} (h : m.goto b = .ok m') : Kept m m' := by
  unfold goto at h
  split at h
  · cases h
  · cases h
    exact ⟨rfl, rfl, rfl⟩

theorem kept_finish_transfer {to_ : BlockId} {result : Option Slot} {raising : Bool}
    (h : m.finish_transfer to_ result raising = .ok r) : Kept m r.2 := by
  unfold finish_transfer at h
  split at h
  · cases h
    exact .refl m
  · obtain ⟨m1, hgoto, h⟩ := bind_eq_ok.mp h
    cases h
    exact kept_goto hgoto

theorem kept_drop_all (places : List PlaceId) (h : drop_all places m = .ok m') : Kept m m' := by
  induction places generalizing m with
  | nil =>
    cases h
    exact .refl _
  | cons place rest ih =>
    obtain ⟨⟨root, segs, ty⟩, -, h⟩ := bind_eq_ok.mp h
    have hdrop : Kept m (m.drop_root root) := ⟨rfl, rfl, rfl⟩
    exact hdrop.trans (ih h)

theorem kept_advance_exit (h : m.advance_exit = .ok r) : Kept m r.2 := by
  unfold advance_exit at h
  split at h
  · cases h
  · next run outer _ =>
    obtain ⟨next, -, h⟩ := bind_eq_ok.mp h
    split at h
    · obtain ⟨m1, hgoto, h⟩ := bind_eq_ok.mp h
      cases h
      have hset : Kept m (m.set_exits ({ run with done := run.done + 1 } :: outer)) :=
        ⟨rfl, rfl, rfl⟩
      exact hset.trans (kept_goto hgoto)
    · obtain ⟨m1, hdrops, h⟩ := bind_eq_ok.mp h
      split at h
      · cases h
      · have hset : Kept m1 (m1.set_exits outer) := ⟨rfl, rfl, rfl⟩
        exact ((kept_drop_all _ hdrops).trans hset).trans (kept_finish_transfer h)

theorem kept_begin_exit_or_goto {from_ to_ : BlockId} {result : Option Slot} {raising : Bool}
    (h : m.begin_exit_or_goto from_ to_ result raising = .ok r) : Kept m r.2 := by
  unfold begin_exit_or_goto at h
  split at h
  · next edge row _ =>
    have hset : Kept m (m.set_exits (⟨edge, row, 0, to_, result, raising⟩ :: m.top.exits)) :=
      ⟨rfl, rfl, rfl⟩
    exact hset.trans (kept_advance_exit h)
  · exact kept_finish_transfer h

theorem kept_exec_term {block : BlockId} {term : InstRow}
    (h : m.exec_term block term = .ok r) : Kept m r.2 := by
  unfold exec_term at h
  split at h
  · split at h
    · exact kept_advance_exit h
    · exact kept_begin_exit_or_goto h
  · obtain ⟨c, -, h⟩ := bind_eq_ok.mp h
    exact kept_begin_exit_or_goto h
  · obtain ⟨to_, -, h⟩ := bind_eq_ok.mp h
    exact kept_begin_exit_or_goto h
  · have hset : Kept m { m with top := { m.top with raised := false } } := ⟨rfl, rfl, rfl⟩
    exact hset.trans (kept_begin_exit_or_goto h)
  · dsimp only at h
    split at h
    · exact kept_begin_exit_or_goto h
    · obtain ⟨v, -, h⟩ := bind_eq_ok.mp h
      exact kept_begin_exit_or_goto h
  · have hset : Kept m { m with top := { m.top with raise_ty := term.ty } } := ⟨rfl, rfl, rfl⟩
    dsimp only at h
    split at h
    · exact hset.trans (kept_begin_exit_or_goto h)
    · obtain ⟨v, -, h⟩ := bind_eq_ok.mp h
      exact hset.trans (kept_begin_exit_or_goto h)
  · split at h
    · cases h
    · cases h
      exact .refl m
  · cases h
  · cases h

/-! ## Rounds of the loop -/

theorem settle_eq_ok {x : Result (FrameStep × Machine σ)} (h : m.settle site x = .ok r) :
    x = .ok r ∨ r.2 = m := by
  cases x with
  | ok r' => exact .inl h
  | error f =>
    cases f with
    | Trap kind =>
      cases h
      exact .inr rfl
    | Ub report =>
      cases h
      exact .inr rfl
    | Error e => cases h
    | Panic => cases h

/-- Only a step that goes on changes the tables. -/
theorem moves_step_frame (hs : m.tables.Sound) (hallocs : m.allocs.length < 2 ^ 32)
    (harenas : m.arenas.length < 2 ^ 32) (h : m.step_frame p e = .ok r) :
    ∃ m0, m.charge 1 = .ok m0 ∧ (Kept m0 r.2 ∨ r.1 = .Continue ∧ Moves m0 r.2) := by
  obtain ⟨m0, hcharge, h⟩ := bind_eq_ok.mp h
  have hcharge := lift_eq_ok.mp hcharge
  refine ⟨m0, hcharge, ?_⟩
  obtain ⟨-, rfl⟩ := charge_eq_ok.mp hcharge
  split at h
  · cases h
  · split at h
    · dsimp only at h
      split at h
      · cases h
      · obtain h | h := settle_eq_ok h
        · obtain ⟨m1, hexec, h⟩ := map_eq_ok.mp h
          cases h
          have hmoves := moves_exec_inst (by exact hs) (by exact hallocs) (by exact harenas) hexec
          exact .inr ⟨rfl, hmoves.tables, hmoves.steps, hmoves.step_cap, hmoves.within⟩
        · rw [h]
          exact .inl ⟨rfl, rfl, rfl⟩
    · obtain h | h := settle_eq_ok h
      · exact .inl (kept_exec_term h)
      · rw [h]
        exact .inl (.refl _)

theorem moves_pop_frame {caller : Frame} {rest : List Frame} (hbelow : m.below = caller :: rest) :
    Moves m (m.pop_frame caller rest) := by
  refine moves_of_tables ?_ rfl rfl
  have hserials : (m.pop_frame caller rest).tables.serials = m.tables.serials.dropLast := by
    unfold pop_frame tables
    rw [hbelow]
    simp
  have hret : (m.pop_frame caller rest).tables =
      { m.tables with serials := m.tables.serials.dropLast } := by
    rw [← hserials]
    rfl
  exact hret ▸ .ret

/-- A round costs a step and takes at most one step of the tables. -/
theorem moves_drive (hs : m.tables.Sound) (hallocs : m.allocs.length < 2 ^ 32)
    (harenas : m.arenas.length < 2 ^ 32) (h : Step p e m m') :
    ∃ m0, m.charge 1 = .ok m0 ∧ Moves m0 m' := by
  obtain ⟨⟨step, m1⟩, hstep, h⟩ := bind_eq_ok.mp h
  obtain ⟨m0, hcharge, hmoves⟩ := moves_step_frame hs hallocs harenas hstep
  refine ⟨m0, hcharge, ?_⟩
  dsimp only at h hmoves
  cases step with
  | Continue =>
    cases h
    exact hmoves.elim Kept.moves And.right
  | Return v =>
    have hkept := hmoves.resolve_right fun hno => (by cases hno.1)
    dsimp only at h
    split at h
    · cases h
    · next caller rest hbelow =>
      cases h
      have hpop := (moves_pop_frame hbelow).kept (kept_define_dest _ m1.top.dest v)
      exact hkept.then_moves hpop
  | Raise err =>
    have hkept := hmoves.resolve_right fun hno => (by cases hno.1)
    dsimp only at h
    split at h
    · cases h
    · next caller rest hbelow =>
      split at h
      · cases h
        have hpop := (moves_pop_frame hbelow).kept (kept_define_dest _ m1.top.dest err)
        exact hkept.then_moves (hpop.kept ⟨rfl, rfl, rfl⟩)
      · cases h
  | Trap kind site => cases h
  | Ub report => cases h

/-! ## Runs -/

/-- What holds of every machine of a run: a row of a table stands for a step. -/
structure Inv (m : Machine σ) : Prop where
  sound : m.tables.Sound
  steps : m.steps ≤ m.step_cap
  step_cap : m.step_cap ≤ STEP_BUDGET
  provs : m.tables.provs.length ≤ m.steps + 1
  states : m.tables.states.length ≤ m.steps + 1
  arenas : m.tables.arenas.length ≤ m.steps + 1

theorem Inv.within (hm : Inv m) {n : Nat} (h : n ≤ m.steps + 1) : n < 2 ^ 32 := by
  have hsteps := hm.steps
  have hcap := hm.step_cap
  unfold STEP_BUDGET at hcap
  omega

theorem inv_start (func : ProgFn) (args : List Slot) (max_steps : Nat) (rest : σ) :
    Inv (start func args max_steps rest) where
  sound := by
    refine ⟨fun i row hrow => ?_, fun i a ha => ?_, fun s hmem => ?_⟩
    · obtain ⟨hi, hrow⟩ := hrow
      have hlt := (List.getElem?_eq_some_iff.mp hrow).1
      exact absurd (Nat.lt_one_iff.mp hlt) hi
    · cases ha
    · rw [mem_singleton.mp hmem]
      exact Nat.zero_lt_one
  steps := Nat.zero_le _
  step_cap := Nat.min_le_right _ _
  provs := Nat.le_refl _
  states := Nat.le_refl _
  arenas := Nat.zero_le _

theorem Inv.moves (hm : Inv m) (h : Step p e m m') :
    m.tables.TableStep m'.tables ∧ m.steps < m'.steps ∧ m'.step_cap = m.step_cap ∧
      m'.steps ≤ m.step_cap := by
  have hallocs : m.allocs.length < 2 ^ 32 :=
    hm.within (length_map (f := Alloc.state) ▸ hm.states)
  obtain ⟨m0, hcharge, hmoves⟩ := moves_drive hm.sound hallocs (hm.within hm.arenas) h
  obtain ⟨hle, rfl⟩ := charge_eq_ok.mp hcharge
  exact ⟨hmoves.tables, hmoves.steps, hmoves.step_cap, hmoves.within hle⟩

/-- A round of the loop keeps the invariant. -/
theorem Inv.step (hm : Inv m) (h : Step p e m m') : Inv m' := by
  obtain ⟨htables, hlt, hcap, hle⟩ := hm.moves h
  obtain ⟨hprovs, hstates, harenas⟩ := htables.length_le
  have hgrow {n n' : Nat} (hn : n ≤ m.steps + 1) (hn' : n' ≤ n + 1) : n' ≤ m'.steps + 1 := by omega
  exact ⟨htables.sound hm.sound, hcap ▸ hle, hcap ▸ hm.step_cap, hgrow hm.provs hprovs,
    hgrow hm.states hstates, hgrow hm.arenas harenas⟩

theorem Reached.inv (h : Reached p e m) : Inv m := by
  induction h with
  | start func hfunc args max_steps rest => exact inv_start func args max_steps rest
  | step _ hstep ih => exact ih.step hstep

theorem Later.inv (h : Later p e m m') (hm : Inv m) : Inv m' ∧ m.tables.Grows m'.tables := by
  induction h with
  | refl => exact ⟨hm, .refl _⟩
  | step _ hstep ih => exact ⟨ih.1.step hstep, ih.2.trans (ih.1.moves hstep).1.grows⟩

/-- A function that enters an arena's region and leaves it. -/
def passing : ProgFn where
  name := "main"
  decl := { DeclFmir.empty 0 0 with
    blocks := [⟨0, 2, .plain .Ret, 0⟩]
    insts := { (DeclFmir.empty 0 0).insts with
      rows := [{ InstRow.plain .RegionEnter with a := 0 }, { InstRow.plain .RegionExit with a := 0 }] }
    regions := ⟨[⟨.WithArena, ⟨0, 0⟩, ABSENT⟩], []⟩ }

/-- An engine whose program computes no values. -/
def no_values : Engine Unit where
  scalar_width _ := .ok 8
  value _ _ row := .error (.Error (.UnsupportedOp row.op.discriminant))
  read_cells _ _ base _ := .ok base
  write_cells _ _ _ _ _ := .ok ()

/-- Inside the region. -/
def inside : Machine Unit :=
  let m := start passing [] 10 ()
  ({ m with top := { m.top with pc := 1 }, steps := 1 }.enter_arena 0).2

/-- Behind it. -/
def behind : Machine Unit :=
  { inside with top := { inside.top with pc := 2 }, steps := 2 }.set_state 1 (.Reset 0)

theorem reached_inside : Reached ⟨[passing], 0⟩ no_values inside :=
  .step (.start passing rfl [] 10 ()) rfl

theorem inside_good :
    inside.resolve_deref 0 0 (.ptr 0 1) = .ok ⟨.Alloc 1, some 1, 0, 1⟩ :=
  rfl

theorem later_behind : Later ⟨[passing], 0⟩ no_values inside behind :=
  .step .refl rfl

/-- At every machine of a run each pointer row leads to an object under its own tag, the rows, the
dead objects and the returned activations of every earlier machine are still there, no arena has
gone back, and no id has been cut. -/
theorem tables_kept (hm : Reached p e m) (hlater : Later p e m m') :
    m'.tables.Sound ∧ m.tables.Grows m'.tables ∧ m'.provs.length < 2 ^ 32 ∧
      m'.allocs.length < 2 ^ 32 ∧ m'.arenas.length < 2 ^ 32 := by
  obtain ⟨hinv, hgrows⟩ := hlater.inv hm.inv
  have hstates : m'.tables.states.length = m'.allocs.length := length_map ..
  exact ⟨hinv.sound, hgrows, hinv.within hinv.provs, hinv.within (hstates ▸ hinv.states),
    hinv.within hinv.arenas⟩

theorem tables_kept_passing : Reached ⟨[passing], 0⟩ no_values inside ∧
    Later ⟨[passing], 0⟩ no_values inside behind ∧ behind.tables.Sound ∧
      inside.tables.Grows behind.tables ∧ behind.provs.length < 2 ^ 32 ∧
      behind.allocs.length < 2 ^ 32 ∧ behind.arenas.length < 2 ^ 32 :=
  ⟨reached_inside, later_behind, tables_kept reached_inside later_behind⟩

/-- A pointer that was good leads to the same place for as long as it is good, and is refused as
dead from then on. -/
theorem pointer_lifetime (hm : Reached p e m) (h1 : Later p e m m1) (h2 : Later p e m1 m2)
    (hgood : m.resolve_deref inst site ptr = .ok d) (inst1 inst2 : UInt32) (site1 site2 : SiteId) :
    (m1.resolve_deref inst1 site1 ptr = .ok d ∧ m2.resolve_deref inst2 site2 ptr = .ok d) ∨
      ∃ f, m2.resolve_deref inst2 site2 ptr = .error f ∧ Refusal f := by
  have hinv := hm.inv
  obtain ⟨row, hrow, hleads, rfl⟩ := resolve_deref_eq_ok hinv.sound hgood
  obtain ⟨hinv1, hgrows1⟩ := h1.inv hinv
  obtain ⟨hinv2, hgrows2⟩ := h2.inv hinv1
  have hrow1 := hgrows1.has hrow
  obtain ⟨hleads2, hok2⟩ | ⟨-, hdead⟩ := resolve_deref_cases inst2 site2 hinv2.sound
    (hgrows2.has hrow1)
  · obtain ⟨-, hok1⟩ | ⟨hno, -⟩ := resolve_deref_cases inst1 site1 hinv1.sound hrow1
    · exact .inl ⟨hok1, hok2⟩
    · exact absurd hleads2
        (hinv.sound.not_leads hinv1.sound hgrows1 hgrows2 hrow hleads hno)
  · exact .inr hdead

theorem pointer_lifetime_passing : ∃ f, inside.resolve_deref 0 0 (.ptr 0 1) =
    .ok ⟨.Alloc 1, some 1, 0, 1⟩ ∧ behind.resolve_deref 1 0 (.ptr 0 1) = .error f ∧ Refusal f := by
  obtain ⟨-, hno⟩ | ⟨f, hf, hrefusal⟩ :=
    pointer_lifetime reached_inside .refl later_behind inside_good 0 1 0 0
  · cases hno
  · exact ⟨f, inside_good, hf, hrefusal⟩

/-- No access of an object through a good pointer is refused as aliasing, and none changes the
stacks. -/
theorem objects_not_aliased {id : AllocId} (hm : Reached p e m)
    (hgood : m.resolve_deref inst site ptr = .ok d) (hobject : d.alloc = some id) (how : Access) :
    m.borrow_access d.key d.tag how = some m := by
  obtain ⟨row, hrow, -, rfl⟩ := resolve_deref_eq_ok hm.inv.sound hgood
  obtain ⟨frame, root, heq⟩ | ⟨obj, off, hrobject, heq⟩ := leads_to_cases row ptr.bits
  · rw [heq] at hobject
    cases hobject
  · rw [heq]
    exact borrow_access_object hm.inv.sound hrow hrobject how

theorem objects_not_aliased_passing : inside.resolve_deref 0 0 (.ptr 0 1) =
    .ok ⟨.Alloc 1, some 1, 0, 1⟩ ∧ inside.borrow_access (.Alloc 1) 1 .Write = some inside :=
  ⟨inside_good, objects_not_aliased reached_inside inside_good rfl .Write⟩

end Fors.Exec.Machine
