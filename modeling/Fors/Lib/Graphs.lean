import Mathlib.Logic.Relation
import Mathlib.Data.List.Nodup
import Mathlib.Data.List.Rotate
import Mathlib.Logic.Function.Basic
import Mathlib.Order.WellFounded
import Mathlib.Data.Fintype.Card

/-!
# Cycles, depth-first search and parent links

A set of nodes that has the successors of its nodes, and no cycle, grows by a node whose successors
it has: a cycle through the new node would leave the set. A list of nodes is a cycle where each has
an edge to the next one around.

A search in post-order puts a node out when all its successors have been visited. Whatever the
graph, each node that the starts reach is put out once; a successor comes before its node, unless it
reaches the node: it was on the way to it, and the search could not wait for it. A node without a
list of successors has no value, and neither has a search nested deeper than its fuel.

A parent map `up : α → Option α` gives every node its parent; a node without one is outside.
`Trail up a l` says that the walk outward from `a` passes the nodes `l`, innermost first, before
it leaves. Over a finite carrier an acyclic map has a trail from every node, and trails are
unique, so "the chain of nodes enclosing `a`" is well defined.

Principal results: `Settled.insert`, `search_spec` and `Acyclic.exists_trail`.
-/

namespace Graphs

open Relation List

variable {V : Type*} {E F : V → V → Prop} {B : V → Prop} {u v : V} {path : List V}

def Acyclic (E : V → V → Prop) : Prop :=
  ∀ v, ¬TransGen E v v

/-- All successors are inside, and no cycle is. -/
structure Settled (E : V → V → Prop) (B : V → Prop) : Prop where
  closed : ∀ u v, B u → E u v → B v
  acyclic : ∀ v, B v → ¬TransGen E v v

theorem Settled.reaches (h : Settled E B) (hu : B u) (huv : TransGen E u v) : B v := by
  induction huv with
  | single huv => exact h.closed _ _ hu huv
  | tail _ hvw ih => exact h.closed _ _ ih hvw

theorem Settled.congr {B' : V → Prop} (h : Settled E B) (hB : ∀ v, B' v ↔ B v) : Settled E B' := by
  obtain ⟨hclosed, hacyclic⟩ := h
  refine ⟨?_, ?_⟩
  · intro u v hu huv
    exact (hB v).mpr (hclosed u v ((hB u).mp hu) huv)
  · intro v hv
    exact hacyclic v ((hB v).mp hv)

/-- A node whose successors are settled is settled. -/
theorem Settled.insert (h : Settled E B) (hu : ¬B u) (hsucc : ∀ v, E u v → B v) :
    Settled E fun v => B v ∨ v = u := by
  refine ⟨?_, ?_⟩
  · rintro x y (hx | rfl) hxy
    · exact .inl (h.closed x y hx hxy)
    · exact .inl (hsucc y hxy)
  · rintro v (hv | rfl) hcycle
    · exact h.acyclic v hv hcycle
    · apply hu
      obtain ⟨w, hvw, hwv⟩ := TransGen.head'_iff.mp hcycle
      rcases hwv.cases_head with rfl | ⟨x, hwx, hxv⟩
      · exact hsucc w hvw
      · exact h.reaches (hsucc w hvw) (TransGen.head' hwx hxv)

theorem Acyclic.mono (h : Acyclic E) (hF : ∀ u v, F u v → E u v) : Acyclic F := by
  intro v hcycle
  exact h v (TransGen.mono hF _ _ hcycle)

/-! ## Cycles as lists -/

/-- Different nodes, each with an edge to the next one around. -/
structure IsCycle (E : V → V → Prop) (path : List V) : Prop where
  ne_nil : path ≠ []
  nodup : path.Nodup
  edge : ∀ (i : Nat) (u v : V), path[i]? = some u → path[(i + 1) % path.length]? = some v → E u v

theorem IsCycle.transGen (h : IsCycle E path) (hu : path[0]? = some u) :
    ∀ (k : Nat) (v : V), path[(k + 1) % path.length]? = some v → TransGen E u v := by
  have hpos : 0 < path.length := length_pos_iff.mpr h.ne_nil
  intro k
  induction k with
  | zero =>
    intro v hv
    exact .single (h.edge 0 u v hu hv)
  | succ k ih =>
    intro w hw
    have hlt : (k + 1) % path.length < path.length := Nat.mod_lt _ hpos
    have hlast := ih _ (getElem?_eq_getElem hlt)
    refine hlast.tail (h.edge _ _ w (getElem?_eq_getElem hlt) ?_)
    rwa [Nat.mod_add_mod]

theorem IsCycle.not_acyclic (h : IsCycle E path) : ¬Acyclic E := by
  intro hacyclic
  have hpos : 0 < path.length := length_pos_iff.mpr h.ne_nil
  have hhead : path[0]? = some path[0] := getElem?_eq_getElem hpos
  apply hacyclic path[0]
  apply h.transGen hhead (path.length - 1)
  rw [Nat.sub_add_cancel hpos, Nat.mod_self]
  exact hhead

/-- Read from another of its nodes, it is the same cycle. -/
theorem IsCycle.rotate (h : IsCycle E path) (k : Nat) : IsCycle E (path.rotate k) := by
  have hlen : (path.rotate k).length = path.length := List.length_rotate ..
  refine ⟨?_, ?_, ?_⟩
  · rw [ne_eq, List.rotate_eq_nil_iff]
    exact h.ne_nil
  · exact List.nodup_rotate.mpr h.nodup
  · intro i u v hu hv
    have hpos : 0 < path.length := List.length_pos_iff.mpr h.ne_nil
    have hi : i < path.length := by
      rw [← hlen]
      exact (List.getElem?_eq_some_iff.mp hu).1
    rw [List.getElem?_rotate hi] at hu
    rw [hlen, List.getElem?_rotate (Nat.mod_lt _ hpos)] at hv
    apply h.edge _ u v hu
    rw [← hv, Nat.mod_add_mod, Nat.mod_add_mod, Nat.add_right_comm]

end Graphs

/-! ## Depth-first search in post-order -/

namespace DepthFirst

open Relation List

variable {V : Type}

inductive Mark where
  | unseen
  | in_progress
  | done
  deriving DecidableEq

structure State (V : Type) where
  mark : V → Mark
  out : List V

def start : State V :=
  ⟨fun _ => .unseen, []⟩

variable {adj : V → Option (List V)} {nodes path starts successors : List V} {st st' : State V}
  {u v : V} {fuel : Nat}

/-! ## Half way -/

def Edge (adj : V → Option (List V)) (u v : V) : Prop :=
  ∃ l, adj u = some l ∧ v ∈ l

/-- Each node has its list, which holds nodes. -/
structure Closed (adj : V → Option (List V)) (nodes : List V) : Prop where
  list : ∀ u ∈ nodes, ∃ l, adj u = some l
  edge : ∀ u ∈ nodes, ∀ v, Edge adj u v → v ∈ nodes

/-- Each successor of a node comes before it, or is on a way to it. -/
def Ordered (adj : V → Option (List V)) (out : List V) : Prop :=
  ∀ before u after, out = before ++ u :: after →
    ∀ v, Edge adj u v → v ∈ before ∨ ReflTransGen (Edge adj) v u

/-- The nodes of the path are in progress, and those put out are done. -/
structure Searching (adj : V → Option (List V)) (nodes path : List V) (st : State V) : Prop where
  nodup : st.out.Nodup
  done : ∀ u, u ∈ st.out ↔ st.mark u = .done
  in_progress : ∀ u, u ∈ path ↔ st.mark u = .in_progress
  seen : ∀ u, st.mark u ≠ .unseen → u ∈ nodes
  ordered : Ordered adj st.out

theorem searching_start (adj : V → Option (List V)) (nodes : List V) :
    Searching adj nodes [] (start : State V) where
  nodup := .nil
  done u := iff_of_false not_mem_nil (by simp [start])
  in_progress u := iff_of_false not_mem_nil (by simp [start])
  seen u hu := absurd rfl hu
  ordered before u after heq := absurd heq (by simp [start])

theorem Ordered.push {out : List V} (h : Ordered adj out)
    (hu : ∀ v, Edge adj u v → v ∈ out ∨ ReflTransGen (Edge adj) v u) : Ordered adj (out ++ [u]) := by
  intro before x after heq v hv
  obtain rfl | ⟨last, rest, rfl⟩ := after.eq_nil_or_concat'
  · obtain ⟨rfl, hx⟩ := append_inj' heq rfl
    obtain rfl := singleton_inj.mp hx
    exact hu v hv
  · have hcut : out = before ++ x :: last := by
      have hlong : out ++ [u] = (before ++ x :: last) ++ [rest] := by simpa using heq
      exact (append_inj' hlong rfl).1
    exact h before x last hcut v hv

/-- What a visit leaves as it was. -/
structure Keeps (st st' : State V) : Prop where
  mark : ∀ u, st.mark u ≠ .unseen → st'.mark u = st.mark u
  out : st.out <+: st'.out

theorem Keeps.refl (st : State V) : Keeps st st :=
  ⟨fun _ _ => rfl, prefix_refl _⟩

theorem Keeps.trans {st'' : State V} (h : Keeps st st') (h' : Keeps st' st'') : Keeps st st'' where
  mark u hu := by
    rw [← h.mark u hu]
    exact h'.mark u ((h.mark u hu).symm ▸ hu)
  out := h.out.trans h'.out

theorem Keeps.seen (h : Keeps st st') (hu : st.mark u ≠ .unseen) : st'.mark u ≠ .unseen :=
  (h.mark u hu).symm ▸ hu

/-- The nodes that are left to visit. -/
def unseen (nodes : List V) (st : State V) : Nat :=
  (nodes.filter fun u => st.mark u = .unseen).length

theorem unseen_le (h : Keeps st st') : unseen nodes st' ≤ unseen nodes st := by
  refine (monotone_filter_right nodes fun u hu => ?_).length_le
  rw [decide_eq_true_eq] at hu ⊢
  by_contra hseen
  exact hseen ((h.mark u hseen).symm.trans hu)

/-! ## The search -/

variable [DecidableEq V]

def visit (adj : V → Option (List V)) : Nat → V → State V → Option (State V)
  | 0, _, _ => none
  | fuel + 1, u, st =>
    if st.mark u ≠ .unseen then some st
    else do
      let successors ← adj u
      let st ← successors.foldlM (fun st v => visit adj fuel v st)
        ⟨Function.update st.mark u .in_progress, st.out⟩
      some ⟨Function.update st.mark u .done, st.out ++ [u]⟩

def search (adj : V → Option (List V)) (fuel : Nat) (starts : List V) : Option (State V) :=
  starts.foldlM (fun st u => visit adj fuel u st) start

theorem unseen_enter (hu : u ∈ nodes) (hnew : st.mark u = .unseen) :
    unseen nodes ⟨Function.update st.mark u .in_progress, st.out⟩ < unseen nodes st := by
  unfold unseen
  have hfilter : (nodes.filter fun v => Function.update st.mark u .in_progress v = .unseen) =
      (nodes.filter fun v => st.mark v = .unseen).filter fun v => v ≠ u := by
    rw [filter_filter]
    apply filter_congr
    intro v _
    by_cases hv : v = u
    · simp [hv]
    · simp [hv]
  rw [hfilter, length_filter_lt_length_iff_exists]
  exact ⟨u, mem_filter.mpr ⟨hu, by simp [hnew]⟩, by simp⟩

/-- What a visit does, on a path that leads to its node. -/
def Visits (adj : V → Option (List V)) (nodes path : List V) (fuel : Nat) (u : V) : Prop :=
  ∀ st, Searching adj nodes path st → unseen nodes st < fuel →
    (∀ w ∈ path, ReflTransGen (Edge adj) w u) →
    ∃ st', visit adj fuel u st = some st' ∧ Searching adj nodes path st' ∧ Keeps st st' ∧
      st'.mark u ≠ .unseen

/-- The visits of some nodes, one after the other. -/
theorem visits_spec (hvisit : ∀ v ∈ successors, Visits adj nodes path fuel v)
    (hpath : ∀ v ∈ successors, ∀ w ∈ path, ReflTransGen (Edge adj) w v)
    (h : Searching adj nodes path st) (hfuel : unseen nodes st < fuel) :
    ∃ st', successors.foldlM (fun st v => visit adj fuel v st) st = some st' ∧
      Searching adj nodes path st' ∧ Keeps st st' ∧ ∀ v ∈ successors, st'.mark v ≠ .unseen := by
  induction successors generalizing st with
  | nil => exact ⟨st, rfl, h, .refl st, fun v hv => absurd hv not_mem_nil⟩
  | cons v successors ih =>
    obtain ⟨mid, hrun, hmid, hkeep, hseen⟩ := hvisit v mem_cons_self st h hfuel
      (hpath v mem_cons_self)
    obtain ⟨st', hrest, hst', hkeep', hseen'⟩ := ih
      (fun w hw => hvisit w (mem_cons_of_mem v hw))
      (fun w hw => hpath w (mem_cons_of_mem v hw)) hmid
      (Nat.lt_of_le_of_lt (unseen_le hkeep) hfuel)
    refine ⟨st', ?_, hst', hkeep.trans hkeep', ?_⟩
    · rw [foldlM_cons, hrun]
      exact hrest
    · intro w hw
      obtain rfl | hw := mem_cons.mp hw
      · exact hkeep'.seen hseen
      · exact hseen' w hw

theorem Searching.enter (h : Searching adj nodes path st) (hu : u ∈ nodes)
    (hnew : st.mark u = .unseen) :
    Searching adj nodes (u :: path) ⟨Function.update st.mark u .in_progress, st.out⟩ where
  nodup := h.nodup
  done v := by
    by_cases hv : v = u
    · rw [h.done, hv]
      simp [hnew]
    · rw [h.done]
      simp [Function.update_of_ne hv]
  in_progress v := by
    by_cases hv : v = u
    · simp [hv]
    · rw [mem_cons, h.in_progress]
      simp [hv]
  seen v hv := by
    by_cases hvu : v = u
    · exact hvu ▸ hu
    · exact h.seen v (by simpa [Function.update_of_ne hvu] using hv)
  ordered := h.ordered

theorem Searching.leave (h : Searching adj nodes (u :: path) st) (hpath : u ∉ path)
    (hu : ∀ v, Edge adj u v → v ∈ st.out ∨ ReflTransGen (Edge adj) v u) :
    Searching adj nodes path ⟨Function.update st.mark u .done, st.out ++ [u]⟩ where
  nodup := by
    have hprogress := (h.in_progress u).mp mem_cons_self
    have hnot : u ∉ st.out := fun hmem => by
      rw [h.done, hprogress] at hmem
      cases hmem
    exact nodup_append.mpr ⟨h.nodup, nodup_singleton u, by
      intro a ha b hb hab
      rw [mem_singleton.mp hb] at hab
      exact hnot (hab ▸ ha)⟩
  done v := by
    by_cases hv : v = u
    · simp [hv]
    · rw [mem_append, mem_singleton, h.done]
      simp [hv]
  in_progress v := by
    by_cases hv : v = u
    · rw [hv]
      exact iff_of_false hpath (by simp)
    · have hiff := h.in_progress v
      rw [mem_cons] at hiff
      simp [Function.update_of_ne hv, ← hiff, hv]
  seen v hv := by
    by_cases hvu : v = u
    · refine h.seen v ?_
      rw [hvu, (h.in_progress u).mp mem_cons_self]
      exact Mark.noConfusion
    · exact h.seen v (by simpa [Function.update_of_ne hvu] using hv)
  ordered := h.ordered.push hu

theorem visit_spec (hclosed : Closed adj nodes) (hu : u ∈ nodes) :
    Visits adj nodes path fuel u := by
  induction fuel generalizing u path with
  | zero => exact fun st _ hfuel => absurd hfuel (Nat.not_lt_zero _)
  | succ fuel ih =>
    intro st h hfuel hpath
    by_cases hnew : st.mark u = .unseen
    · obtain ⟨successors, hsuccessors⟩ := hclosed.list u hu
      have hedge : ∀ v ∈ successors, Edge adj u v := fun v hv => ⟨successors, hsuccessors, hv⟩
      have hout : u ∉ path := fun hmem => by
        rw [(h.in_progress u).mp hmem] at hnew
        cases hnew
      obtain ⟨mid, hrun, hmid, hkeep, hseen⟩ := @visits_spec V adj nodes (u :: path) successors
        ⟨Function.update st.mark u .in_progress, st.out⟩ fuel _
        (fun v hv => ih (hclosed.edge u hu v (hedge v hv)))
        (fun v hv w hw => by
          obtain rfl | hw := mem_cons.mp hw
          · exact .single (hedge v hv)
          · exact (hpath w hw).tail (hedge v hv))
        (h.enter hu hnew) (by have := unseen_enter hu hnew; omega)
      -- a successor that is not done by now is on the path
      have hordered : ∀ v, Edge adj u v → v ∈ mid.out ∨ ReflTransGen (Edge adj) v u := by
        rintro v ⟨l, hl, hv⟩
        rw [hsuccessors, Option.some.injEq] at hl
        have hmark := hseen v (hl.symm ▸ hv)
        cases hcase : mid.mark v with
        | unseen => exact absurd hcase hmark
        | done => exact .inl ((hmid.done v).mpr hcase)
        | in_progress =>
          obtain rfl | hmem := mem_cons.mp ((hmid.in_progress v).mpr hcase)
          · exact .inr .refl
          · exact .inr (hpath v hmem)
      refine ⟨⟨Function.update mid.mark u .done, mid.out ++ [u]⟩, ?_, hmid.leave hout hordered,
        ⟨?_, ?_⟩, by simp⟩
      · rw [visit, if_neg (not_not_intro hnew), hsuccessors]
        simp [hrun]
      · intro w hw
        have hwu : w ≠ u := fun heq => hw (heq ▸ hnew)
        have hmark := hkeep.mark w (by simpa [Function.update_of_ne hwu] using hw)
        simpa [Function.update_of_ne hwu] using hmark
      · exact hkeep.out.trans (prefix_append _ _)
    · refine ⟨st, ?_, h, .refl st, hnew⟩
      rw [visit, if_pos hnew]

/-- A search from all nodes puts each of them out once, behind the successors that do not reach
it. -/
theorem search_spec (hclosed : Closed adj nodes) (hstarts : ∀ u, u ∈ starts ↔ u ∈ nodes)
    (hfuel : nodes.length < fuel) :
    ∃ st, search adj fuel starts = some st ∧ st.out.Nodup ∧ (∀ u, u ∈ st.out ↔ u ∈ nodes) ∧
      Ordered adj st.out := by
  have hunseen : unseen nodes (start : State V) < fuel :=
    Nat.lt_of_le_of_lt (length_filter_le _ _) hfuel
  obtain ⟨st, hrun, hst, -, hseen⟩ := @visits_spec V adj nodes [] starts start fuel _
    (fun u hu => visit_spec hclosed ((hstarts u).mp hu))
    (fun u _ w hw => absurd hw not_mem_nil) (searching_start adj nodes) hunseen
  refine ⟨st, hrun, hst.nodup, fun u => ?_, hst.ordered⟩
  rw [hst.done]
  constructor
  · intro hdone
    exact hst.seen u (by rw [hdone]; exact Mark.noConfusion)
  · intro hu
    cases hcase : st.mark u with
    | unseen => exact absurd hcase (hseen u ((hstarts u).mpr hu))
    | done => rfl
    | in_progress => exact absurd ((hst.in_progress u).mpr hcase) not_mem_nil

end DepthFirst

/-! ## Parent links -/

namespace Ancestry

open List

variable {α : Type*} {up : α → Option α}

/-- The walk outward from a node, innermost first. -/
inductive Trail (up : α → Option α) : α → List α → Prop
  | out {a} : up a = none → Trail up a []
  | step {a b l} : up a = some b → Trail up b l → Trail up a (a :: l)

/-- No node is its own ancestor. -/
def Acyclic (up : α → Option α) : Prop :=
  ∀ a, ¬ Relation.TransGen (fun x y => up x = some y) a a

namespace Trail

variable {a : α} {l : List α}

theorem unique {l' : List α} (h : Trail up a l) (h' : Trail up a l') : l = l' := by
  induction h generalizing l' with
  | out ha =>
    cases h' with
    | out => rfl
    | step hb => simp [ha] at hb
  | step hb _ ih =>
    cases h' with
    | out ha => simp [ha] at hb
    | step hb' ht =>
      obtain rfl : _ = _ := Option.some.inj (hb.symm.trans hb')
      rw [ih ht]

theorem head_mem (h : Trail up a l) (ha : (up a).isSome) : a ∈ l := by
  cases h with
  | out hn => simp [hn] at ha
  | step => exact mem_cons_self

theorem nil_iff (h : Trail up a l) : l = [] ↔ up a = none := by
  cases h with
  | out hn => simp [hn]
  | step hb => simp [hb]

theorem head?_eq (h : Trail up a l) (ha : (up a).isSome) :
    l.head? = some a := by
  cases h with
  | out hn => simp [hn] at ha
  | step => rfl

/-- A list whose elements are each the parent of the one before continues into the trail of its
last element's parent. -/
theorem append {p last : α} {rest : List α}
    (hl : List.IsChain (fun x y => up x = some y) (a :: l)) (hlast : (a :: l).getLast? = some last)
    (hp : up last = some p) (ht : Trail up p rest) : Trail up a (a :: l ++ rest) := by
  induction l generalizing a with
  | nil =>
    obtain rfl : a = last := by simpa using hlast
    exact .step hp ht
  | cons b l ih =>
    obtain ⟨hb, hl⟩ := isChain_cons_cons.mp hl
    exact .step hb (ih hl (by simpa using hlast))

end Trail

/-- In an acyclic map over a finite carrier every walk outward ends. -/
theorem Acyclic.exists_trail [Finite α] (h : Acyclic up) (a : α) : ∃ l, Trail up a l := by
  have : IsTrans α (fun y x => Relation.TransGen (fun x y => up x = some y) x y) :=
    ⟨fun _ _ _ hab hbc => hbc.trans hab⟩
  have : Std.Irrefl (fun y x : α => Relation.TransGen (fun x y => up x = some y) x y) :=
    ⟨fun a ha => h a ha⟩
  induction a using
      (Finite.wellFounded_of_trans_of_irrefl
        (fun y x => Relation.TransGen (fun x y => up x = some y) x y)).induction with
  | _ a ih =>
    cases hup : up a with
    | none => exact ⟨[], .out hup⟩
    | some b =>
      obtain ⟨l, hl⟩ := ih b (.single hup)
      exact ⟨a :: l, .step hup hl⟩

/-- Parents that come before their children in some numbering leave no cycle. -/
theorem acyclic_of_rank (rank : α → ℕ) (h : ∀ a b, up a = some b → rank b < rank a) :
    Acyclic up := by
  intro a ha
  have descends : ∀ x y, Relation.TransGen (fun x y => up x = some y) x y → rank y < rank x := by
    intro x y hxy
    induction hxy with
    | single hab => exact h _ _ hab
    | tail _ hbc ih => exact (h _ _ hbc).trans ih
  exact (descends a a ha).false

end Ancestry
