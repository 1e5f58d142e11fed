import Fors.Lib.Matching
import Fors.Ty.Canonical
import Fors.Ty.Subst

/-!
# Types as patterns

A binding makes the parameters and brand parameters of its owners slots of a type. A qualified
parameter stands for an unqualified type under its own qualifiers, and a projection is only ever
compared after substitution.

Principal results: `Over.values_extends` and `faces_congr`.
-/

namespace Fors.Ty

open Trees TyStore List Option

namespace Binding

/-- The slot that a label of an owned parameter stands for, `some none` past its owner's slots. -/
def slot_of (b : Binding) (l : Label) : Option (Option Nat) :=
  match l.head with
  | .Param owner ordinal => if b.owns owner then some (b.at_ owner (ordinal % 2 ^ 16)) else none
  | .Brand (.Param owner ordinal) => if b.owns owner then some (b.at_ owner ordinal) else none
  | _ => none

/-- What a slot's label makes of the slot's type. -/
def put (b : Binding) (l : Label) (v : Rose Label) : Option (Rose Label) :=
  if b.slot_of l = some none then none
  else if l.quals = .NONE then some v
  else if v.label.quals = .NONE then some (requal l.quals v)
  else none

/-- The type that a slot's label takes from a target. -/
def get (b : Binding) (l : Label) (t : Rose Label) : Option (Rose Label) :=
  if b.slot_of l = some none then none
  else if l.quals = .NONE then some t
  else if t.label.quals = l.quals then some (requal .NONE t)
  else none

/-- A brand is matched without qualifiers only. -/
def get_bare (b : Binding) (l : Label) (t : Rose Label) : Option (Rose Label) :=
  if l.head.tag = .Brand ∧ ¬ (l.quals = .NONE ∧ t.label.quals = .NONE) then none else b.get l t

def put_bare (b : Binding) (l : Label) (v : Rose Label) : Option (Rose Label) :=
  if l.head.tag = .Brand ∧ ¬ (l.quals = .NONE ∧ v.label.quals = .NONE) then none else b.put l v

end Binding

/-- A parameter or a projection. -/
def rigid (t : Rose Label) : Bool :=
  t.label.head.tag = .Param ∨ t.label.head.tag = .Proj

theorem requal_requal (q q' : Quals) (t : Rose Label) : requal q (requal q' t) = requal q t := by
  cases t
  rfl

theorem requal_self {q : Quals} {t : Rose Label} (h : t.label.quals = q) : requal q t = t := by
  cases t
  subst h
  rfl

@[simp] theorem requal_quals (q : Quals) (t : Rose Label) : (requal q t).label.quals = q := by
  cases t
  rfl

theorem Binding.put_iff (b : Binding) (l : Label) (v t : Rose Label) :
    b.put l v = some t ↔ b.get l t = some v := by
  rw [Binding.put, Binding.get]
  by_cases hlost : b.slot_of l = some none
  · simp [hlost]
  · rw [if_neg hlost, if_neg hlost]
    by_cases hq : l.quals = .NONE
    · simp [hq, eq_comm]
    · rw [if_neg hq, if_neg hq, ite_none_right_eq_some, ite_none_right_eq_some]
      constructor
      · rintro ⟨hv, h⟩
        cases h
        exact ⟨requal_quals _ _, by rw [requal_requal, requal_self hv]⟩
      · rintro ⟨ht, h⟩
        cases h
        exact ⟨requal_quals _ _, by rw [requal_requal, requal_self ht]⟩

/-- Without qualifiers a slot's label stands for the slot's type itself. -/
theorem Binding.put_self {b : Binding} {l : Label} {v t : Rose Label} (hq : l.quals = .NONE)
    (h : b.put l v = some t) : t = v := by
  rw [Binding.put, if_pos hq] at h
  split at h
  · exact nomatch h
  · exact (some.inj h).symm

theorem Binding.put_bare_iff (b : Binding) (l : Label) (v t : Rose Label) :
    b.put_bare l v = some t ↔ b.get_bare l t = some v := by
  rw [Binding.put_bare, Binding.get_bare]
  by_cases hbrand : l.head.tag = .Brand
  · by_cases hq : l.quals = .NONE
    · simp only [hbrand, hq, true_and]
      constructor
      · intro h
        split at h
        · exact nomatch h
        · rename_i hv
          obtain rfl := Binding.put_self hq h
          rw [if_neg hv]
          exact (b.put_iff l _ _).mp h
      · intro h
        split at h
        · exact nomatch h
        · rename_i ht
          have h' := (b.put_iff l _ _).mpr h
          obtain rfl := Binding.put_self hq h'
          rw [if_neg ht]
          exact h'
    · simp [hbrand, hq]
  · simp only [hbrand, false_and, if_false]
    exact b.put_iff l v t

theorem ok_of_not_proj (l : Label) (cs : List (Rose Label))
    (h : decide (l.head.tag = .Proj) = false) :
    decide (¬ l.head.tag = .Proj ∨ ∃ c ∈ cs.head?, rigid c) = true := by
  simp only [decide_eq_false_iff_not] at h
  simp [h]

/-- The slots of the binding, as labels of types. -/
def marks (b : Binding) : Matching.Slots Label (Option Nat) where
  slot := b.slot_of
  put := b.put
  get := b.get
  put_iff := b.put_iff
  fixed l := l.head.tag = .Proj
  ok l cs := ¬ l.head.tag = .Proj ∨ ∃ c ∈ cs.head?, rigid c
  ok_of_not_fixed := ok_of_not_proj

theorem marks_slot (b : Binding) (l : Label) : (marks b).slot l = b.slot_of l :=
  rfl

/-- The slots of the binding, as a match fills them. -/
def faces (b : Binding) : Matching.Slots Label (Option Nat) :=
  { marks b with
    put := b.put_bare
    get := b.get_bare
    put_iff := b.put_bare_iff }

theorem faces_slot (b : Binding) (l : Label) : (faces b).slot l = b.slot_of l :=
  rfl

theorem faces_get (b : Binding) : (faces b).get = b.get_bare :=
  rfl

theorem Binding.get_bare_of_tag (b : Binding) {l : Label} (h : l.head.tag ≠ .Brand) (t : Rose Label) :
    b.get_bare l t = b.get l t :=
  if_neg fun hbrand => h hbrand.1

/-- Only the owners matter. -/
theorem faces_congr {b b' : Binding} (h : b'.owners = b.owners) : faces b' = faces b := by
  obtain ⟨owners, slots⟩ := b
  obtain ⟨owners', slots'⟩ := b'
  subst h
  rfl

namespace Binding

/-- The types that the binding holds. -/
def values (s : TyStore) (b : Binding) : Matching.Values Label (Option Nat) :=
  fun i => i.bind fun i =>
    if b.slots.getD i NO_TY = NO_TY then none else some (s.tree (b.slots.getD i NO_TY))

/-- The slots of every owner are there, and hold rows of the store. -/
structure Over (s : TyStore) (b : Binding) : Prop where
  ranges : ∀ o ∈ b.owners, o.start + o.len ≤ b.slots.length
  rows : ∀ v ∈ b.slots, v = NO_TY ∨ v < s.rows.length

variable {k : Keys} {s s' : TyStore} {b b' : Binding} {owner : DefId} {ordinal : Nat} {i : Nat}

theorem Over.at_lt (h : b.Over s) (hat : b.at_ owner ordinal = some i) : i < b.slots.length := by
  simp only [at_, bind_eq_bind, bind_eq_some_iff] at hat
  obtain ⟨o, ho, hi⟩ := hat
  have hrange := h.ranges o (mem_of_find?_eq_some ho)
  split at hi
  · cases hi
  · cases hi
    omega

theorem Over.extends (h : b.Over s) (hext : s.Extends s') : b.Over s' where
  ranges := h.ranges
  rows v hv := (h.rows v hv).imp_right fun hlt => Nat.lt_of_lt_of_le hlt hext.rows.length_le

theorem Over.slot (h : b.Over s) (i : Nat) :
    b.slots.getD i NO_TY = NO_TY ∨ b.slots.getD i NO_TY < s.rows.length := by
  rw [getD_eq_getElem?_getD]
  cases hi : b.slots[i]? with
  | none => exact .inl rfl
  | some v => exact h.rows v (mem_of_getElem? hi)

/-- A binding's types stay as the store grows. -/
theorem Over.values_extends (h : b.Over s) (hs : s.Good k) (hext : s.Extends s') (hs' : s'.Inv k) :
    b.values s' = b.values s := by
  funext i
  cases i with
  | none => rfl
  | some i =>
    simp only [values, bind_some]
    obtain hno | hlt := h.slot i
    · rw [if_pos hno, if_pos hno]
    · rw [hs.tree_extends hext hs' hlt]

theorem Over.bind (h : b.Over s) {ty : TyId} (hty : ty < s.rows.length) :
    (b.bind owner ordinal ty).1.Over s := by
  rw [Binding.bind]
  split
  · exact h
  · split
    · refine ⟨fun o ho => ?_, fun v hv => ?_⟩
      · rw [length_set]
        exact h.ranges o ho
      · obtain hv | rfl := mem_or_eq_of_mem_set hv
        · exact h.rows v hv
        · exact .inr hty
    · exact h

end Binding

end Fors.Ty
