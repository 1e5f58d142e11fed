import Mathlib.Data.Prod.Lex
import Fors.Exec.Control

/-!
# The tables of a run

What a run does to its objects, arenas, provenance rows and activations, apart from the bytes.
`TableStep` lists everything one step of the machine can do to them; the invariant and what persists
from one machine to every later one are derived from it.

Principal results: `TableStep.sound` and `Sound.not_leads`.
-/

namespace Fors.Exec

open Fors.Fmir
open List hiding getElem?_eq_some_iff

/-- The states of the objects, the arenas, the provenance rows, the objects' borrow stacks, and the
activations of the frames, the outermost first. -/
structure Tables where
  states : List AllocState
  arenas : List ArenaVal
  provs : List ProvRow
  borrows : AllocId → Option BorrowStack
  serials : List Nat
  next_serial : Nat

/-- The object a row leads into. -/
def ProvRow.object (row : ProvRow) : Option AllocId :=
  match row.target with
  | .Alloc id => some id
  | .Root .. => none
  | .Arena _ id => some id

namespace Tables

/-- Provenance id 0 belongs to no pointer. -/
def Has (t : Tables) (i : Nat) (row : ProvRow) : Prop :=
  i ≠ PROV_NONE ∧ t.provs[i]? = some row

/-- The tables with one more provenance row. -/
def push (t : Tables) (target : MemTarget) (tag : Nat) : Tables :=
  { t with provs := t.provs ++ [⟨target, tag⟩] }

/-- The tables with one more live object, under a borrow tag of its own. -/
def push_object (t : Tables) (tag : Nat) : Tables :=
  { t with
    states := t.states ++ [.Live]
    borrows := fun id => if id = t.states.length then some (.rooted tag) else t.borrows id }

/-- What one step does to the tables. -/
inductive TableStep (t : Tables) : Tables → Prop
  | keep : TableStep t t
  /-- A borrow of a local. -/
  | local_ (frame serial root tag : Nat) : TableStep t (t.push (.Root frame serial root) tag)
  /-- A heap object. -/
  | heap (tag : Nat) : TableStep t ((t.push_object tag).push (.Alloc t.states.length) tag)
  /-- A `with arena` block is entered. -/
  | enter (tag : Nat) :
    TableStep t (({ t.push_object tag with
      arenas := t.arenas ++ [.new t.arenas.length t.states.length (2 ^ 64 - 1)] } : Tables).push
        (.Arena t.arenas.length t.states.length) tag)
  /-- An object is freed, or its region exited. -/
  | retire (id : AllocId) (state : AllocState) (hstate : state ≠ .Live)
      (hlive : t.states[id]? = some .Live) :
    TableStep t { t with states := t.states.set id state }
  /-- An arena is bumped, and hands out a `Ref`. -/
  | bump (i : Nat) (row : ProvRow) (arena : ArenaId) (data : AllocId) (a : ArenaVal) (stop : Nat)
      (hrow : t.Has i row) (htarget : row.target = .Arena arena data)
      (harena : t.arenas[arena]? = some a) (hge : a.bump ≤ stop) (hlt : stop < 2 ^ 32) :
    TableStep t (({ t with arenas := t.arenas.set arena { a with bump := stop } } : Tables).push
      (.Arena arena data) row.tag)
  /-- A pointer into an object is handed out. -/
  | deref (i : Nat) (row : ProvRow) (id : AllocId) (hrow : t.Has i row)
      (hobject : row.object = some id) : TableStep t (t.push (.Alloc id) row.tag)
  /-- An arena is reset. -/
  | reset (arena : ArenaId) (a : ArenaVal) (harena : t.arenas[arena]? = some a)
      (hmax : a.generation ≠ U32_MAX) :
    TableStep t { t with
      arenas := t.arenas.set arena { a with generation := a.generation + 1, bump := 0 } }
  /-- A function is called. -/
  | call : TableStep t { t with
      serials := t.serials ++ [t.next_serial]
      next_serial := t.next_serial + 1 }
  /-- A function returns or raises to its caller. -/
  | ret : TableStep t { t with serials := t.serials.dropLast }

/-! ## The invariant -/

/-- A row leads to an object it may use, and an arena's row to that arena's object. -/
def Points (t : Tables) (row : ProvRow) : Prop :=
  (∀ id, row.object = some id → id < t.states.length ∧ t.borrows id = some (.rooted row.tag)) ∧
  ∀ arena data, row.target = .Arena arena data → (t.arenas[arena]?).map ArenaVal.data = some data

structure Sound (t : Tables) : Prop where
  points : ∀ (i : Nat) (row : ProvRow), t.Has i row → t.Points row
  arenas : ∀ (i : Nat) (a : ArenaVal), t.arenas[i]? = some a →
    a.id = i ∧ a.data < t.states.length ∧ a.generation ≤ U32_MAX ∧ a.bump < 2 ^ 32
  serials : ∀ s ∈ t.serials, s < t.next_serial

/-- What a later table keeps of an earlier one. -/
structure Grows (t t' : Tables) : Prop where
  provs : ∀ (i : Nat) (row : ProvRow), t.provs[i]? = some row → t'.provs[i]? = some row
  arenas : ∀ (i : Nat) (a : ArenaVal), t.arenas[i]? = some a →
    ∃ a', t'.arenas[i]? = some a' ∧ a'.data = a.data ∧
      toLex (a.generation, a.bump) ≤ toLex (a'.generation, a'.bump)
  retired : ∀ (id : AllocId) (st : AllocState), t.states[id]? = some st → st ≠ .Live →
    t'.states[id]? = some st
  returned : ∀ i s : Nat, s < t.next_serial → t.serials[i]? ≠ some s → t'.serials[i]? ≠ some s
  next : t.next_serial ≤ t'.next_serial

theorem Grows.refl (t : Tables) : t.Grows t where
  provs _ _ h := h
  arenas _ a h := ⟨a, h, rfl, le_refl _⟩
  retired _ _ h _ := h
  returned _ _ _ h := h
  next := Nat.le_refl _

theorem Grows.trans {t t' t'' : Tables} (h : t.Grows t') (h' : t'.Grows t'') : t.Grows t'' where
  provs i row hrow := h'.provs i row (h.provs i row hrow)
  arenas i a ha := by
    obtain ⟨a', ha', hdata, hle⟩ := h.arenas i a ha
    obtain ⟨a'', ha'', hdata', hle'⟩ := h'.arenas i a' ha'
    exact ⟨a'', ha'', hdata'.trans hdata, hle.trans hle'⟩
  retired id st hst hne := h'.retired id st (h.retired id st hst hne) hne
  returned i s hs hno := h'.returned i s (Nat.lt_of_lt_of_le hs h.next) (h.returned i s hs hno)
  next := Nat.le_trans h.next h'.next

theorem Grows.has {t t' : Tables} (h : t.Grows t') {i : Nat} {row : ProvRow} (hrow : t.Has i row) :
    t'.Has i row :=
  ⟨hrow.1, h.provs i row hrow.2⟩

/-! ## One more row -/

theorem grows_push (t : Tables) (target : MemTarget) (tag : Nat) :
    t.Grows (t.push target tag) where
  provs i row h := by
    unfold push
    rw [getElem?_append_left (getElem?_eq_some_iff.1 h).1]
    exact h
  arenas _ a h := ⟨a, h, rfl, le_refl _⟩
  retired _ _ h _ := h
  returned _ _ _ h := h
  next := Nat.le_refl _

theorem getElem?_concat {α : Type} {xs : List α} {x y : α} {i : Nat}
    (h : (xs ++ [x])[i]? = some y) : xs[i]? = some y ∨ y = x := by
  rcases Nat.lt_or_ge i xs.length with hlt | hge
  · rw [getElem?_append_left hlt] at h
    exact .inl h
  · rw [getElem?_append_right hge, getElem?_singleton] at h
    split at h
    · exact .inr (Option.some.inj h).symm
    · cases h

/-- The rows of the longer table are the old ones and the new one. -/
theorem has_push {t : Tables} {target : MemTarget} {tag i : Nat} {row : ProvRow}
    (h : (t.push target tag).Has i row) : t.Has i row ∨ row = ⟨target, tag⟩ := by
  obtain ⟨hi, h⟩ := h
  exact (getElem?_concat h).imp_left fun h => ⟨hi, h⟩

theorem Sound.push {t : Tables} (hs : t.Sound) {target : MemTarget} {tag : Nat}
    (hnew : t.Points ⟨target, tag⟩) : (t.push target tag).Sound where
  points i row h := by
    rcases has_push h with h | rfl
    · exact hs.points i row h
    · exact hnew
  arenas := hs.arenas
  serials := hs.serials

/-! ## One more object -/

theorem length_push_object (t : Tables) (tag : Nat) :
    (t.push_object tag).states.length = t.states.length + 1 := by
  unfold push_object
  rw [length_append, length_singleton]

theorem grows_push_object (t : Tables) (tag : Nat) : t.Grows (t.push_object tag) where
  provs _ _ h := h
  arenas _ a h := ⟨a, h, rfl, le_refl _⟩
  retired id st h _ := by
    unfold push_object
    rw [getElem?_append_left (getElem?_eq_some_iff.1 h).1]
    exact h
  returned _ _ _ h := h
  next := Nat.le_refl _

theorem Sound.push_object {t : Tables} (hs : t.Sound) (tag : Nat) : (t.push_object tag).Sound where
  points i row h := by
    obtain ⟨hobject, harena⟩ := hs.points i row h
    refine ⟨fun id hid => ?_, harena⟩
    obtain ⟨hlt, hstack⟩ := hobject id hid
    rw [length_push_object]
    exact ⟨Nat.lt_succ_of_lt hlt, (if_neg (Nat.ne_of_lt hlt)).trans hstack⟩
  arenas i a ha := by
    obtain ⟨hid, hdata, hrest⟩ := hs.arenas i a ha
    rw [length_push_object]
    exact ⟨hid, Nat.lt_succ_of_lt hdata, hrest⟩
  serials := hs.serials

/-- The new object, under its own tag. -/
theorem push_object_new (t : Tables) (tag : Nat) :
    t.states.length < (t.push_object tag).states.length ∧
      (t.push_object tag).borrows t.states.length = some (.rooted tag) := by
  rw [length_push_object]
  exact ⟨Nat.lt_succ_self _, if_pos rfl⟩

/-! ## An arena that moves on -/

variable {arena : ArenaId} {a : ArenaVal}

/-- Sets an arena to a later value of itself. -/
theorem grows_set_arena {t : Tables} {a' : ArenaVal}
    (ha : t.arenas[arena]? = some a) (hdata : a'.data = a.data)
    (hle : toLex (a.generation, a.bump) ≤ toLex (a'.generation, a'.bump)) :
    t.Grows { t with arenas := t.arenas.set arena a' } where
  provs _ _ h := h
  retired _ _ h _ := h
  returned _ _ _ h := h
  next := Nat.le_refl _
  arenas i b hb := by
    by_cases hi : arena = i
    · subst hi
      rw [ha] at hb
      cases hb
      exact ⟨a', getElem?_set_self (getElem?_eq_some_iff.1 ha).1, hdata, hle⟩
    · exact ⟨b, by rw [getElem?_set_ne hi]; exact hb, rfl, le_refl _⟩

theorem Sound.set_arena {t : Tables} (hs : t.Sound) {a' : ArenaVal}
    (ha : t.arenas[arena]? = some a) (hid : a'.id = a.id) (hdata : a'.data = a.data)
    (hgen : a'.generation ≤ U32_MAX) (hbump : a'.bump < 2 ^ 32) :
    ({ t with arenas := t.arenas.set arena a' } : Tables).Sound where
  points i row h := by
    obtain ⟨hobject, harena⟩ := hs.points i row h
    refine ⟨hobject, fun b data htarget => ?_⟩
    have hb := harena b data htarget
    by_cases hi : arena = b
    · subst hi
      rw [getElem?_set_self (getElem?_eq_some_iff.1 ha).1]
      rw [ha] at hb
      rw [← hb]
      exact congrArg some hdata
    · rw [getElem?_set_ne hi]
      exact hb
  arenas i b hb := by
    by_cases hi : arena = i
    · subst hi
      rw [getElem?_set_self (getElem?_eq_some_iff.1 ha).1] at hb
      cases hb
      obtain ⟨hid', hdata', -⟩ := hs.arenas arena a ha
      exact ⟨hid.trans hid', hdata ▸ hdata', hgen, hbump⟩
    · rw [getElem?_set_ne hi] at hb
      exact hs.arenas i b hb
  serials := hs.serials

/-! ## One step -/

/-- A step loses nothing. -/
theorem TableStep.grows {t t' : Tables} (h : t.TableStep t') : t.Grows t' := by
  cases h with
  | keep => exact .refl t
  | local_ frame serial root tag => exact grows_push t _ tag
  | heap tag => exact (grows_push_object t tag).trans (grows_push _ _ tag)
  | enter tag =>
    refine ((grows_push_object t tag).trans ?_).trans (grows_push _ _ tag)
    refine ⟨fun _ _ h => h, fun i a ha => ⟨a, ?_, rfl, le_refl _⟩, fun _ _ h _ => h,
      fun _ _ _ h => h, Nat.le_refl _⟩
    exact (getElem?_append_left (getElem?_eq_some_iff.1 ha).1).trans ha
  | retire id state hstate hlive =>
    refine ⟨fun _ _ h => h, fun _ a ha => ⟨a, ha, rfl, le_refl _⟩, fun j st hst hne => ?_,
      fun _ _ _ h => h, Nat.le_refl _⟩
    have hj : id ≠ j := by
      rintro rfl
      rw [hlive] at hst
      exact hne (Option.some.inj hst).symm
    exact (getElem?_set_ne hj).trans hst
  | bump i row arena data a stop hrow htarget harena hge hlt =>
    have hle : toLex (a.generation, a.bump) ≤ toLex (a.generation, stop) :=
      Prod.Lex.toLex_le_toLex.2 (.inr ⟨rfl, hge⟩)
    have hgrows : t.Grows { t with arenas := t.arenas.set arena { a with bump := stop } } :=
      grows_set_arena harena rfl hle
    exact hgrows.trans (grows_push _ _ _)
  | deref i row id hrow hobject => exact grows_push t _ _
  | reset arena a harena hmax =>
    refine grows_set_arena harena rfl ?_
    exact Prod.Lex.toLex_le_toLex.2 (.inl (Nat.lt_succ_self _))
  | call =>
    refine ⟨fun _ _ h => h, fun _ a ha => ⟨a, ha, rfl, le_refl _⟩, fun _ _ h _ => h,
      fun i s hs hno h => ?_, Nat.le_succ _⟩
    obtain h | h := getElem?_concat h
    · exact hno h
    · exact Nat.ne_of_lt hs h
  | ret =>
    refine ⟨fun _ _ h => h, fun _ a ha => ⟨a, ha, rfl, le_refl _⟩, fun _ _ h _ => h,
      fun i s _ hno h => hno ?_, Nat.le_refl _⟩
    rw [getElem?_dropLast] at h
    split at h
    · exact h
    · cases h

/-- A step keeps the invariant. -/
theorem TableStep.sound {t t' : Tables} (hs : t.Sound) (h : t.TableStep t') : t'.Sound := by
  cases h with
  | keep => exact hs
  | local_ frame serial root tag =>
    exact hs.push ⟨fun _ h => (by cases h), fun _ _ h => (by cases h)⟩
  | heap tag =>
    refine (hs.push_object tag).push ⟨fun id hid => ?_, fun _ _ h => (by cases h)⟩
    cases hid
    exact push_object_new t tag
  | enter tag =>
    have hnew := push_object_new t tag
    refine Sound.push ⟨fun i row h => ?_, fun i a ha => ?_, ?_⟩
      ⟨fun id hid => ?_, fun b data h => ?_⟩
    · obtain ⟨hobject, harena⟩ := (hs.push_object tag).points i row h
      refine ⟨hobject, fun b data htarget => ?_⟩
      have hb := harena b data htarget
      obtain ⟨a, ha, -⟩ := Option.map_eq_some_iff.1 hb
      exact (congrArg _ (getElem?_append_left (getElem?_eq_some_iff.1 ha).1)).trans hb
    · rcases Nat.lt_or_ge i t.arenas.length with hlt | hge
      · exact (hs.push_object tag).arenas i a ((getElem?_append_left hlt).symm.trans ha)
      · have ha' := (getElem?_append_right hge).symm.trans ha
        rw [getElem?_singleton] at ha'
        split at ha'
        · cases ha'
          exact ⟨show t.arenas.length = i by omega, hnew.1, Nat.zero_le _, Nat.two_pow_pos 32⟩
        · cases ha'
    · exact hs.serials
    · cases hid
      exact hnew
    · obtain ⟨rfl, rfl⟩ := MemTarget.Arena.inj h
      show Option.map _ (t.arenas ++ [_])[t.arenas.length]? = _
      rw [getElem?_append_right (Nat.le_refl _), Nat.sub_self]
      rfl
  | retire id state hstate hlive =>
    refine ⟨fun i row h => ?_, fun i a ha => ?_, hs.serials⟩
    · obtain ⟨hobject, harena⟩ := hs.points i row h
      refine ⟨fun id' hid => ?_, harena⟩
      rw [length_set]
      exact hobject id' hid
    · rw [length_set]
      exact hs.arenas i a ha
  | bump i row arena data a stop hrow htarget harena hge hlt =>
    obtain ⟨hobject, hdata⟩ := hs.points i row hrow
    obtain ⟨-, -, hgen, -⟩ := hs.arenas arena a harena
    have hset : ({ t with arenas := t.arenas.set arena { a with bump := stop } } : Tables).Sound :=
      hs.set_arena harena rfl rfl hgen hlt
    refine hset.push ⟨fun id hid => ?_, fun b d h => ?_⟩
    · cases hid
      exact hobject data (by unfold ProvRow.object; rw [htarget])
    · obtain ⟨rfl, rfl⟩ := MemTarget.Arena.inj h
      have hb := hdata arena data htarget
      rw [harena] at hb
      show Option.map _ (t.arenas.set arena _)[arena]? = _
      rw [getElem?_set_self (getElem?_eq_some_iff.1 harena).1]
      exact hb
  | deref i row id hrow hobject =>
    refine hs.push ⟨fun id' hid => ?_, fun _ _ h => (by cases h)⟩
    cases hid
    exact (hs.points i row hrow).1 id hobject
  | reset arena a harena hmax =>
    obtain ⟨-, -, hgen, hbump⟩ := hs.arenas arena a harena
    have hgen' : a.generation + 1 ≤ U32_MAX := by omega
    exact hs.set_arena harena rfl rfl hgen' (Nat.two_pow_pos 32)
  | call =>
    refine ⟨hs.points, hs.arenas, fun s hmem => ?_⟩
    obtain hmem | hmem := mem_append.1 hmem
    · exact Nat.lt_succ_of_lt (hs.serials s hmem)
    · exact Nat.lt_succ_of_le (Nat.le_of_eq (mem_singleton.1 hmem))
  | ret => exact ⟨hs.points, hs.arenas, fun s hmem => hs.serials s (dropLast_subset _ hmem)⟩

/-- A step adds at most one row to each table. -/
theorem TableStep.length_le {t t' : Tables} (h : t.TableStep t') :
    t'.provs.length ≤ t.provs.length + 1 ∧ t'.states.length ≤ t.states.length + 1 ∧
      t'.arenas.length ≤ t.arenas.length + 1 := by
  cases h <;> simp [push, push_object]

/-! ## Pointers -/

/-- What a pointer of the row and the bits leads to is there. -/
def Leads (t : Tables) (row : ProvRow) (bits : UInt64) : Prop :=
  match row.target with
  | .Root frame serial _ => t.serials[frame]? = some serial
  | .Alloc id => t.states[id]? = some .Live
  | .Arena arena data => t.states[data]? = some .Live ∧
    ∃ a, t.arenas[arena]? = some a ∧ a.generation = (RefVal.unpack bits).1

variable {t t' t'' : Tables} {row : ProvRow} {bits : UInt64} {i : Nat}

theorem Grows.generation (h : t.Grows t') (ha : t.arenas[arena]? = some a) :
    ∃ a', t'.arenas[arena]? = some a' ∧ a.generation ≤ a'.generation := by
  obtain ⟨a', ha', -, hle⟩ := h.arenas arena a ha
  refine ⟨a', ha', ?_⟩
  obtain hlt | ⟨heq, -⟩ := Prod.Lex.toLex_le_toLex.1 hle
  · exact hlt.le
  · exact heq.le

/-- What was there and is no more does not come back: the activation has returned, the object is
retired, or the arena has been reset. -/
theorem Sound.not_leads (hs : t.Sound) (hs' : t'.Sound) (h : t.Grows t') (h' : t'.Grows t'')
    (hrow : t.Has i row) (hleads : t.Leads row bits) (hno : ¬t'.Leads row bits) :
    ¬t''.Leads row bits := by
  have hpoints := (hs'.points i row (h.has hrow)).1
  have hretired {id : AllocId} (hid : row.object = some id) (hdead : t'.states[id]? ≠ some .Live) :
      t''.states[id]? ≠ some .Live := by
    have hlt := (hpoints id hid).1
    have hst := getElem?_eq_getElem hlt
    have hne : t'.states[id] ≠ .Live := fun hlive => hdead (hlive ▸ hst)
    rw [h'.retired id _ hst hne]
    exact fun heq => hne (Option.some.inj heq)
  unfold Leads at *
  unfold ProvRow.object at hretired
  cases htarget : row.target with
  | Root frame serial root =>
    simp only [htarget] at hleads hno ⊢
    have hlt := hs.serials serial (mem_of_getElem? hleads)
    exact h'.returned frame serial (Nat.lt_of_lt_of_le hlt h.next) hno
  | Alloc id =>
    simp only [htarget] at hno hretired ⊢
    exact hretired rfl hno
  | Arena arena data =>
    simp only [htarget] at hleads hno hretired ⊢
    rintro ⟨hlive, a'', ha'', hgeneration⟩
    obtain ⟨-, a, ha, hfirst⟩ := hleads
    obtain ⟨a', ha', hle⟩ := h.generation ha
    obtain ⟨b, hb, hle'⟩ := h'.generation ha'
    obtain rfl := Option.some.inj (hb.symm.trans ha'')
    refine hretired rfl (fun hlive' => hno ⟨hlive', a', ha', ?_⟩) hlive
    omega

end Tables

end Fors.Exec
