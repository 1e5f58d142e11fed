import Mathlib.Data.List.Forall2

/-!
# Trees over shared nodes

A table of nodes, each with a label and the ids of its children, stands for a tree at every id
when a child's id is below its parent's. Where no two ids hold one node, equal trees have one id.

Principal results: `tree_inj` and `has_iff_sub`.
-/

namespace Trees

open List

inductive Rose (σ : Type) where
  | node (label : σ) (children : List (Rose σ))

def Rose.label {σ : Type} : Rose σ → σ
  | .node l _ => l

def Rose.children {σ : Type} : Rose σ → List (Rose σ)
  | .node _ cs => cs

mutual

def Rose.decEq {σ : Type} [DecidableEq σ] : (s t : Rose σ) → Decidable (s = t)
  | .node l cs, .node l' cs' =>
    if hl : l = l' then
      match Rose.decEqList cs cs' with
      | .isTrue hcs => .isTrue (by rw [hl, hcs])
      | .isFalse hcs => .isFalse fun h => hcs (Rose.node.inj h).2
    else .isFalse fun h => hl (Rose.node.inj h).1

def Rose.decEqList {σ : Type} [DecidableEq σ] : (ss ts : List (Rose σ)) → Decidable (ss = ts)
  | [], [] => .isTrue rfl
  | s :: ss, t :: ts =>
    match Rose.decEq s t, Rose.decEqList ss ts with
    | .isTrue h, .isTrue hs => .isTrue (by rw [h, hs])
    | .isFalse h, _ => .isFalse fun heq => h (cons.inj heq).1
    | _, .isFalse hs => .isFalse fun heq => hs (cons.inj heq).2
  | [], _ :: _ => .isFalse fun h => nomatch h
  | _ :: _, [] => .isFalse fun h => nomatch h

end

instance {σ : Type} [DecidableEq σ] : DecidableEq (Rose σ) := Rose.decEq

/-- `s` is `t` or lies inside it. -/
inductive Rose.Sub {σ : Type} : Rose σ → Rose σ → Prop
  | refl (t : Rose σ) : Sub t t
  | child {s c : Rose σ} {label : σ} {children : List (Rose σ)} (hc : c ∈ children)
      (h : Sub s c) : Sub s (.node label children)

mutual

/-- The number of nodes. -/
def nodes {σ : Type} : Rose σ → Nat
  | .node _ cs => nodesList cs + 1

def nodesList {σ : Type} : List (Rose σ) → Nat
  | [] => 0
  | c :: cs => nodes c + nodesList cs

end

theorem nodes_le_of_mem {σ : Type} {c : Rose σ} {cs : List (Rose σ)} (h : c ∈ cs) :
    nodes c ≤ nodesList cs := by
  induction cs with
  | nil => exact absurd h not_mem_nil
  | cons a cs ih =>
    rw [nodesList]
    obtain rfl | h := mem_cons.mp h
    · omega
    · have := ih h
      omega

variable {σ : Type} {node : Nat → σ × List Nat} {n t u : Nat}

/-- The tree at `t`, cut off below `fuel` levels. -/
def unfold (node : Nat → σ × List Nat) : Nat → Nat → Rose σ
  | 0, t => .node (node t).1 []
  | fuel + 1, t => .node (node t).1 ((node t).2.map (unfold node fuel))

/-- The tree at `t`. -/
def tree (node : Nat → σ × List Nat) (t : Nat) : Rose σ :=
  unfold node t t

/-- Below `n`, children have smaller ids. -/
def Descends (node : Nat → σ × List Nat) (n : Nat) : Prop :=
  ∀ t < n, ∀ c ∈ (node t).2, c < t

theorem unfold_eq (h : Descends node n) {fuel : Nat} (ht : t < n) (hfuel : t ≤ fuel) :
    unfold node fuel t = unfold node t t := by
  induction t using Nat.strongRecOn generalizing fuel with
  | ind t ih =>
    cases fuel with
    | zero =>
      obtain rfl := Nat.le_zero.mp hfuel
      rfl
    | succ fuel =>
      cases t with
      | zero =>
        have hnil : (node 0).2 = [] :=
          eq_nil_iff_forall_not_mem.mpr fun c hc => Nat.not_lt_zero c (h 0 ht c hc)
        rw [unfold, unfold, hnil]
        rfl
      | succ t =>
        rw [unfold, unfold]
        congr 1
        refine map_congr_left fun c hc => ?_
        have hct := h (t + 1) ht c hc
        exact (ih c hct (by omega) (by omega)).trans (ih c hct (by omega) (by omega)).symm

theorem tree_eq (h : Descends node n) (ht : t < n) :
    tree node t = .node (node t).1 ((node t).2.map (tree node)) := by
  rw [tree, ← unfold_eq h ht (Nat.le_succ t), unfold]
  congr 1
  refine map_congr_left fun c hc => ?_
  have hct := h t ht c hc
  exact unfold_eq h (by omega) (by omega)

theorem eq_of_map_eq {α β : Type} {f : α → β} {as bs : List α} (hmap : as.map f = bs.map f)
    (hinj : ∀ a ∈ as, ∀ b ∈ bs, f a = f b → a = b) : as = bs := by
  induction as generalizing bs with
  | nil => exact (map_eq_nil_iff.mp hmap.symm).symm
  | cons a as ih =>
    obtain ⟨b, bs', rfl, hb, hbs⟩ := map_eq_cons_iff.mp hmap.symm
    rw [hinj a mem_cons_self b mem_cons_self hb.symm]
    congr 1
    exact ih hbs.symm fun x hx y hy =>
      hinj x (mem_cons_of_mem _ hx) y (mem_cons_of_mem _ hy)

/-- Sharing is complete: equal trees have one id. -/
theorem tree_inj (h : Descends node n) (hinj : ∀ t < n, ∀ u < n, node t = node u → t = u)
    (ht : t < n) (hu : u < n) (heq : tree node t = tree node u) : t = u := by
  induction t using Nat.strongRecOn generalizing u with
  | ind t ih =>
    rw [tree_eq h ht, tree_eq h hu] at heq
    obtain ⟨hlabel, hchildren⟩ := Rose.node.inj heq
    refine hinj t ht u hu (Prod.ext hlabel (eq_of_map_eq hchildren fun c hc d hd hcd => ?_))
    have hct := h t ht c hc
    have hdu := h u hu d hd
    exact ih c hct (by omega) (by omega) hcd

/-- A property that a node has by its label or by a child, as a property of the whole tree. -/
theorem has_iff_sub (Own : σ → Prop) {Has : Nat → Prop} (h : Descends node n)
    (hstep : ∀ t < n, (Has t ↔ Own (node t).1 ∨ ∃ c ∈ (node t).2, Has c)) (ht : t < n) :
    Has t ↔ ∃ label children, Rose.Sub (.node label children) (tree node t) ∧ Own label := by
  induction t using Nat.strongRecOn with
  | ind t ih =>
    rw [hstep t ht, tree_eq h ht]
    constructor
    · rintro (hown | ⟨c, hc, hhas⟩)
      · exact ⟨_, _, .refl _, hown⟩
      · have hct := h t ht c hc
        obtain ⟨label, children, hsub, hown⟩ := (ih c hct (by omega)).mp hhas
        exact ⟨label, children, .child (mem_map_of_mem hc) hsub, hown⟩
    · rintro ⟨label, children, hsub, hown⟩
      cases hsub with
      | refl => exact .inl hown
      | child hmem hsub =>
        obtain ⟨c, hc, rfl⟩ := mem_map.mp hmem
        have hct := h t ht c hc
        exact .inr ⟨c, hc, (ih c hct (by omega)).mpr ⟨label, children, hsub, hown⟩⟩

end Trees
