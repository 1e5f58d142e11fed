import Fors.Authority.Shared
import Fors.Lib.Descent
import Fors.Ty.Search

/-!
# What the walks over a component find

Read off the type itself, a component is refused for a leaf: a type inside its tuples and its
arrays' elements, at any depth. Each walk finds what there is to find within its 17 levels.

Principal results: `refuses_iff` and `conforms_shared_decides`.
-/

namespace Fors.Authority

open Option hiding any_map
open Fors.Syntax Fors.Ty Fors.Ty.TyStore Trees Descent List

section Leaves

variable {k : Keys} (p : Checker k)

/-- The types a component consists of: those of a tuple, or the element of an array. -/
def container (T : Rose Label) : Option (List (Rose Label)) :=
  match T.label.head with
  | .Tuple => some T.children
  | .Nominal d =>
    if d = p.atomic then none else if d = p.array then some (T.children.take 1) else none
  | _ => none

/-- Nothing inside an `imm` type counts. -/
def shared_inner (T : Rose Label) : Option (List (Rose Label)) :=
  if is_imm T.label.quals then none else container p T

def is_atomic (T : Rose Label) : Bool :=
  T.label.head = .Nominal p.atomic

/-- Neither `imm`, `atomic[U]`, a type that implements `Shared`, `()`, nor `never`. -/
def Unshared (scope : DefId) (T : Rose Label) : Prop :=
  is_imm T.label.quals = false ∧ is_atomic p T = false ∧
    p.traits.implements scope p.shared (requal .NONE T) = false ∧
    T.label.head.tag ≠ .Unit ∧ T.label.head.tag ≠ .Never

/-- What `conforms_shared` answers `false` at. -/
def refuses (scope : DefId) (T : Rose Label) : Bool :=
  !is_imm T.label.quals && match T.label.head.tag with
  | .Nominal => !is_atomic p T && !p.traits.implements scope p.shared (requal .NONE T)
  | .Param | .Proj => !p.traits.implements scope p.shared (requal .NONE T)
  | .Error | .Brand | .ConstVal | .Unit | .Never => false
  | .Prim | .Tuple | .Fn | .Dyn => true

variable {p}

theorem container_nominal {l : Label} {d : DefId} (h : l.head = .Nominal d)
    (cs : List (Rose Label)) : container p (.node l cs) =
      if d = p.atomic then none else if d = p.array then some (cs.take 1) else none := by
  rw [container, show (Rose.node l cs).label.head = .Nominal d from h]
  rfl

theorem container_tuple {l : Label} (h : l.head = .Tuple) (cs : List (Rose Label)) :
    container p (.node l cs) = some cs := by
  rw [container, show (Rose.node l cs).label.head = .Tuple from h]
  rfl

theorem container_other {T : Rose Label} (hn : T.label.head.tag ≠ .Nominal)
    (ht : T.label.head.tag ≠ .Tuple) : container p T = none := by
  rw [container]
  split
  · rename_i h
    exact absurd (by rw [h]; rfl) ht
  · rename_i d h
    exact absurd (by rw [h]; rfl) hn
  · rfl

/-- The leaves of well-formed components are refused exactly when they are not shared. -/
theorem refuses_iff {scope : DefId} {T : Rose Label} (hleaf : shared_inner p T = none)
    (herror : T.label.head.tag ≠ .Error) (hbrand : T.label.head.tag ≠ .Brand)
    (hconst : T.label.head.tag ≠ .ConstVal)
    (hstruct : p.traits.implements scope p.shared (requal .NONE T) = true →
      T.label.head.tag ≠ .Prim ∧ T.label.head.tag ≠ .Fn ∧ T.label.head.tag ≠ .Dyn) :
    refuses p scope T = true ↔ Unshared p scope T := by
  have hatomic : T.label.head.tag ≠ .Nominal → is_atomic p T = false := fun hne => by
    refine decide_eq_false fun h => hne ?_
    rw [h]
    rfl
  have htuple : is_imm T.label.quals = false → T.label.head.tag ≠ .Tuple := fun himm h => by
    obtain ⟨l, cs⟩ := T
    have hhead : l.head = .Tuple := by
      change l.head.tag = .Tuple at h
      cases hl : l.head <;> simp_all [Head.tag]
    rw [shared_inner, himm, container_tuple hhead] at hleaf
    cases hleaf
  rw [refuses, Unshared]
  cases himm : is_imm T.label.quals with
  | true => simp
  | false =>
    have htuple := htuple himm
    cases htag : T.label.head.tag <;> simp_all

end Leaves

/-! ## Reading a row -/

variable {k : Keys} {p : Checker k} {s0 s s' s'' : TyStore} {t : TyId} {scope : DefId}

/-- A store that the declarations' store has grown into. -/
structure Grown (k : Keys) (s0 s : TyStore) : Prop where
  start : s0.Good k
  base : s0.Extends s
  good : s.Good k
  error : HasError s

theorem Grown.extends (h : Grown k s0 s) (hext : s.Extends s') (hgood : s'.Good k) :
    Grown k s0 s' :=
  ⟨h.start, h.base.trans hext, hgood, h.error.extends hext⟩

/-- A row of the type `.node l (cs.map s.tree)`, and its twin without qualifiers. -/
structure Seen (s : TyStore) (t : TyId) (row twin : TyRow) (l : Label) (cs : List TyId) :
    Prop where
  twin_row : s.rows[row.unqual]? = some twin
  tag : twin.tag = row.tag
  head : l.head.tag = row.tag
  quals : l.quals = row.quals
  tree : s.tree t = .node l (cs.map s.tree)
  lt : ∀ c ∈ cs, c < s.rows.length
  nominal : row.tag = .Nominal → l.head = .Nominal twin.a ∧ s.args_at twin.b = some cs
  tuple : row.tag = .Tuple → l.head = .Tuple ∧ s.args_at twin.b = some cs

variable {row twin : TyRow} {l : Label} {cs : List TyId}

theorem Seen.label_tag (h : Seen s t row twin l cs) : (s.tree t).label.head.tag = twin.tag := by
  rw [h.tree, h.tag]
  exact h.head

theorem Seen.label_quals (h : Seen s t row twin l cs) : (s.tree t).label.quals = row.quals := by
  rw [h.tree]
  exact h.quals

theorem seen_of_row (h : s.Good k) (hrow : s.rows[t]? = some row) :
    ∃ twin l cs, Seen s t row twin l cs := by
  obtain ⟨twin, htwin, hcontent⟩ := h.twin t row hrow
  simp only [TyRow.content, Prod.mk.injEq] at hcontent
  obtain ⟨htag, ha, hb, -⟩ := hcontent
  obtain ⟨hnode, hlt, -⟩ := h.node_spec hrow
  obtain ⟨hhead, hquals⟩ := node_of_tag hnode
  refine ⟨twin, _, _, htwin, htag, hhead, hquals, h.tree_node hrow hnode, fun c hc =>
    (hlt c hc).trans (List.getElem?_eq_some_iff.mp hrow).1, fun hkind => ?_, fun hkind => ?_⟩
  · rw [TyRow.content, hkind] at hnode
    rw [ha, hb]
    exact node_nominal hnode
  · rw [TyRow.content, hkind] at hnode
    rw [hb]
    exact node_tuple hnode

/-- `TY_ERROR` has nothing inside and is not `atomic`; `NO_TY` is no row. -/
theorem Grown.guarded (h : Grown k s0 s) (ht : t < s.rows.length) (hfit : s.Fits)
    (herr : t = TY_ERROR ∨ t = NO_TY) : (s.tree t).label.head.tag = .Error := by
  obtain rfl | rfl := herr
  · obtain ⟨row, hrow, htag⟩ := h.error
    rw [(h.good.label_quals hrow).2, htag]
  · exact absurd (Nat.lt_of_lt_of_le ht hfit.rows) (Nat.lt_irrefl _)

/-! ## `mentions_atomic` -/

theorem anyM_eq {α : Type} {f : α → Option Bool} {g : α → Bool} {xs : List α} {b : Bool}
    (hf : ∀ x ∈ xs, ∀ b, f x = some b → b = g x) (h : xs.anyM f = some b) : b = xs.any g := by
  induction xs with
  | nil => exact (some.inj h).symm
  | cons x xs ih =>
    obtain ⟨c, hc, h⟩ := bind_eq_some_iff.mp h
    rw [forall_mem_cons] at hf
    obtain rfl := hf.1 c hc
    rw [any_cons]
    cases hg : g x with
    | true =>
      rw [hg] at h
      exact (some.inj h).symm
    | false =>
      rw [hg] at h
      exact ih hf.2 h

theorem mentions_atomic_eq (h : Grown k s0 s) (hfit : s.Fits) {left : Nat} {b : Bool}
    (ht : t < s.rows.length) (hrun : mentions_atomic p s left t = some b) :
    b = finds (container p) (is_atomic p) left (s.tree t) := by
  induction left generalizing t b with
  | zero => exact (some.inj hrun).symm
  | succ left ih =>
    have hleaf : (s.tree t).label.head.tag ≠ .Nominal → (s.tree t).label.head.tag ≠ .Tuple →
        finds (container p) (is_atomic p) (left + 1) (s.tree t) = false := fun hn htuple => by
      rw [finds_leaf (container_other hn htuple)]
      refine decide_eq_false fun heq => hn ?_
      rw [heq]
      rfl
    rw [mentions_atomic] at hrun
    split at hrun
    · rename_i herr
      have htag := h.guarded ht hfit herr
      rw [hleaf (by simp [htag]) (by simp [htag])]
      exact (some.inj hrun).symm
    · obtain ⟨row, hrow, hrun⟩ := bind_eq_some_iff.mp hrun
      obtain ⟨twin, htwin, hrun⟩ := bind_eq_some_iff.mp hrun
      obtain ⟨twin', l, cs, hseen⟩ := seen_of_row h.good hrow
      obtain rfl := some.inj (htwin.symm.trans hseen.twin_row)
      split at hrun
      · rename_i hkind
        obtain ⟨hhead, hargs⟩ := hseen.nominal (hseen.tag.symm.trans hkind)
        rw [hseen.tree, finds, container_nominal hhead]
        by_cases hatomic : twin.a = p.atomic
        · rw [if_pos hatomic] at hrun ⊢
          cases hrun
          exact (decide_eq_true (by rw [← hatomic]; exact hhead)).symm
        · rw [if_neg hatomic] at hrun ⊢
          by_cases harray : twin.a = p.array
          · rw [if_pos harray] at hrun ⊢
            rw [hargs] at hrun
            cases cs with
            | nil => exact (some.inj hrun).symm
            | cons e cs =>
              rw [ih (hseen.lt e mem_cons_self) hrun]
              exact (Bool.or_false _).symm
          · rw [if_neg harray] at hrun ⊢
            cases hrun
            refine (decide_eq_false fun heq => hatomic ?_).symm
            exact Head.Nominal.inj (hhead.symm.trans heq)
      · rename_i hkind
        obtain ⟨hhead, hargs⟩ := hseen.tuple (hseen.tag.symm.trans hkind)
        rw [hseen.tree, finds, container_tuple hhead]
        rw [hargs] at hrun
        dsimp only
        rw [anyM_eq (fun c hc b hb => ih (hseen.lt c hc) hb) hrun, any_map]
        rfl
      · rename_i hn htuple
        rw [hleaf (by rw [hseen.label_tag]; exact hn) (by rw [hseen.label_tag]; exact htuple)]
        exact (some.inj hrun).symm

/-! ## `conforms_shared` -/

/-- Where it ends, a walk has only grown the store, and from a store that the declarations' has
grown into its answer is `b`, if `q`. -/
def Decides (k : Keys) (s0 s : TyStore) (w : Option (TyStore × Bool)) (q : Prop) (b : Bool) :
    Prop :=
  ∀ s' ok, w = some (s', ok) → s.Extends s' ∧
    (s'.Fits → Grown k s0 s → q → Grown k s0 s' ∧ ok = b)

section Decides

variable {w : Option (TyStore × Bool)} {q r : Prop} {b c ok : Bool}

theorem Decides.pure (h : Grown k s0 s → s.Fits → q → ok = b) :
    Decides k s0 s (some (s, ok)) q b := by
  intro s' ok' hw
  cases hw
  exact ⟨.refl s, fun hfit hgrown hq => ⟨hgrown, h hgrown hfit hq⟩⟩

theorem Decides.bind {γ : Type} {x : Option γ} {f : γ → Option (TyStore × Bool)}
    (h : ∀ a, x = some a → Decides k s0 s (f a) q b) : Decides k s0 s (x >>= f) q b := by
  intro s' ok hw
  obtain ⟨a, ha, hw⟩ := bind_eq_some_iff.mp hw
  exact h a ha s' ok hw

theorem Decides.of_grown (h : Decides k s0 s w r c)
    (hb : Grown k s0 s → q → r ∧ c = b) : Decides k s0 s w q b := by
  intro s' ok hw
  obtain ⟨hext, hspec⟩ := h s' ok hw
  refine ⟨hext, fun hfit hgrown hq => ?_⟩
  obtain ⟨hr, rfl⟩ := hb hgrown hq
  exact hspec hfit hgrown hr

theorem all_conform_decides {f : TyStore → TyId → Option (TyStore × Bool)} {g : Rose Label → Bool}
    (hf : ∀ s x, Decides k s0 s (f s x) (x < s.rows.length) (g (s.tree x))) (s : TyStore)
    (xs : List TyId) : Decides k s0 s (all_conform f s xs) (∀ x ∈ xs, x < s.rows.length)
      ((xs.map s.tree).all g) := by
  induction xs generalizing s with
  | nil => exact .pure fun _ _ _ => rfl
  | cons x xs ih =>
    intro s' ok hw
    obtain ⟨⟨s1, c⟩, hone, hw⟩ := bind_eq_some_iff.mp hw
    obtain ⟨hext1, hspec⟩ := hf s x s1 c hone
    cases c with
    | false =>
      cases hw
      refine ⟨hext1, fun hfit h hlt => ?_⟩
      obtain ⟨h1, hfalse⟩ := hspec hfit h (hlt x mem_cons_self)
      rw [map_cons, all_cons, ← hfalse]
      exact ⟨h1, rfl⟩
    | true =>
      obtain ⟨hext2, hrest⟩ := ih s1 s' ok hw
      refine ⟨hext1.trans hext2, fun hfit h hlt => ?_⟩
      rw [forall_mem_cons] at hlt
      obtain ⟨h1, htrue⟩ := hspec (hext2.fits hfit) h hlt.1
      have hrest := hrest hfit h1 fun y hy =>
        Nat.lt_of_lt_of_le (hlt.2 y hy) hext1.rows.length_le
      rw [h.good.map_tree_extends hext1 h1.good.toInv hlt.2] at hrest
      rw [map_cons, all_cons, ← htrue, Bool.true_and]
      exact hrest

/-- Whether the twin of a row implements `Shared`. -/
theorem holds_shared_decides (hrow : s.rows[t]? = some row) {f : Holds → Bool}
    {g : TyStore × Holds → Option (TyStore × Bool)} (hg : ∀ a, g a = some (a.1, f a.2)) :
    Decides k s0 s (holds_shared p scope s row.unqual >>= g) True
      (f (if p.traits.implements scope p.shared (requal .NONE (s.tree t)) then .Yes else .No)) := by
  intro s' ok hw
  obtain ⟨⟨s2, a⟩, hholds, hw⟩ := bind_eq_some_iff.mp hw
  rw [hg] at hw
  cases hw
  obtain ⟨⟨s1, want⟩, hintern, hholds⟩ := bind_eq_some_iff.mp hholds
  have hext1 := extends_intern_trait_ref hintern
  have hext2 := p.traits.holds_extends hholds
  refine ⟨hext1.trans hext2, fun hfit h _ => ?_⟩
  obtain ⟨hgood1, hwant⟩ := good_intern_trait_ref h.good hintern (hext2.fits hfit)
  obtain ⟨hlt, htree⟩ := h.good.tree_unqual hrow
  have hlt1 := Nat.lt_of_lt_of_le hlt hext1.rows.length_le
  obtain ⟨hgood2, rfl⟩ := p.traits.holds_exact hgood1 hlt1 hwant hholds hfit
  rw [h.good.tree_extends hext1 hgood1.toInv hlt, htree]
  exact ⟨h.extends (hext1.trans hext2) hgood2, rfl⟩

section Rows

variable (left : Nat)

/-- What `conforms_shared` should answer at a row. -/
abbrev clear (p : Checker k) (scope : DefId) (left : Nat) (T : Rose Label) : Bool :=
  !finds (shared_inner p) (refuses p scope) left T

theorem clear_leaf {T : Rose Label} (h : shared_inner p T = none) :
    clear p scope (left + 1) T = !refuses p scope T :=
  congrArg _ (finds_leaf h left)

theorem shared_inner_other {T : Rose Label} (hn : T.label.head.tag ≠ .Nominal)
    (ht : T.label.head.tag ≠ .Tuple) : shared_inner p T = none := by
  rw [shared_inner, container_other hn ht, ite_self]

variable (htwin : s.rows[row.unqual]? = some twin) (hrow : s.rows[t]? = some row)
include htwin hrow

theorem Grown.seen (h : Grown k s0 s) : ∃ l cs, Seen s t row twin l cs := by
  obtain ⟨twin', l, cs, hseen⟩ := seen_of_row h.good hrow
  obtain rfl := some.inj (htwin.symm.trans hseen.twin_row)
  exact ⟨l, cs, hseen⟩

variable (himm : ¬is_imm row.quals = true)
include himm

omit htwin hrow in
theorem Seen.not_imm (hseen : Seen s t row twin l cs) : is_imm (s.tree t).label.quals = false := by
  rw [hseen.label_quals]
  exact Bool.eq_false_iff.mpr himm

omit htwin hrow in
theorem Seen.opened (hseen : Seen s t row twin l cs) :
    shared_inner p (s.tree t) = container p (.node l (cs.map s.tree)) := by
  rw [shared_inner, hseen.label_quals, if_neg himm, hseen.tree]

/-- A row with nothing inside, whose answer is known. -/
theorem atom_decides (hn : twin.tag ≠ .Nominal) (ht : twin.tag ≠ .Tuple)
    (hok : ∀ T : Rose Label, is_imm T.label.quals = false → T.label.head.tag = twin.tag →
      ok = !refuses p scope T) :
    Decides k s0 s (some (s, ok)) (t < s.rows.length) (clear p scope (left + 1) (s.tree t)) := by
  refine .pure fun h _ _ => ?_
  obtain ⟨l, cs, hseen⟩ := h.seen htwin hrow
  have htag := hseen.label_tag
  rw [clear_leaf left (shared_inner_other (by rwa [htag]) (by rwa [htag]))]
  exact hok _ (hseen.not_imm himm) htag

/-- A parameter conforms by its declared bounds. -/
theorem rigid_decides (hkind : twin.tag = .Param ∨ twin.tag = .Proj) :
    Decides k s0 s
      (holds_shared p scope s row.unqual >>= fun a => some (a.1, decide (a.2 = .Yes)))
      (t < s.rows.length) (clear p scope (left + 1) (s.tree t)) := by
  refine (holds_shared_decides (f := fun a => a = .Yes) hrow fun _ => rfl).of_grown
    fun h _ => ⟨trivial, ?_⟩
  obtain ⟨l, cs, hseen⟩ := h.seen htwin hrow
  have htag := hseen.label_tag
  have hleaf : shared_inner p (s.tree t) = none := by
    refine shared_inner_other ?_ ?_ <;> rw [htag] <;> obtain hk | hk := hkind <;> simp [hk]
  rw [clear_leaf left hleaf, refuses, hseen.not_imm himm, htag]
  cases p.traits.implements scope p.shared (requal .NONE (s.tree t)) <;>
    obtain hk | hk := hkind <;> simp [hk]

theorem atomic_decides (hkind : twin.tag = .Nominal) (hatomic : twin.a = p.atomic) :
    Decides k s0 s (some (s, true)) (t < s.rows.length)
      (clear p scope (left + 1) (s.tree t)) := by
  refine .pure fun h _ _ => ?_
  obtain ⟨l, cs, hseen⟩ := h.seen htwin hrow
  obtain ⟨hhead, -⟩ := hseen.nominal (hseen.tag.symm.trans hkind)
  have hat : is_atomic p (s.tree t) = true := by
    rw [hseen.tree]
    exact decide_eq_true (by rw [← hatomic]; exact hhead)
  have hleaf : shared_inner p (s.tree t) = none := by
    rw [hseen.opened himm, container_nominal hhead, if_pos hatomic]
  rw [clear_leaf left hleaf, refuses, hseen.label_tag, hkind, hat]
  simp

/-- A nominal type conforms unless it is known not to implement `Shared`. -/
theorem nominal_decides (hkind : twin.tag = .Nominal) (hatomic : ¬twin.a = p.atomic)
    (harray : ¬twin.a = p.array) :
    Decides k s0 s
      (holds_shared p scope s row.unqual >>= fun a => some (a.1, decide (a.2 ≠ .No)))
      (t < s.rows.length) (clear p scope (left + 1) (s.tree t)) := by
  refine (holds_shared_decides (f := fun a => a ≠ .No) hrow fun _ => rfl).of_grown
    fun h _ => ⟨trivial, ?_⟩
  obtain ⟨l, cs, hseen⟩ := h.seen htwin hrow
  obtain ⟨hhead, -⟩ := hseen.nominal (hseen.tag.symm.trans hkind)
  have hat : is_atomic p (s.tree t) = false := by
    rw [hseen.tree]
    exact decide_eq_false fun heq => hatomic (Head.Nominal.inj (hhead.symm.trans heq))
  have hleaf : shared_inner p (s.tree t) = none := by
    rw [hseen.opened himm, container_nominal hhead, if_neg hatomic, if_neg harray]
  rw [clear_leaf left hleaf, refuses, hseen.not_imm himm, hseen.label_tag, hkind, hat]
  cases p.traits.implements scope p.shared (requal .NONE (s.tree t)) <;> rfl

variable (ih : ∀ s t, Decides k s0 s (conforms_shared p scope left s t) (t < s.rows.length)
  (clear p scope left (s.tree t)))
include ih

/-- An array conforms where its element does; one without arguments has nothing inside. -/
theorem array_decides (hkind : twin.tag = .Nominal) (hatomic : ¬twin.a = p.atomic)
    (harray : twin.a = p.array) {args : List TyId} (hargs : s.args_at twin.b = some args) :
    Decides k s0 s (conforms_shared p scope left s (args.head?.getD TY_ERROR))
      (t < s.rows.length) (clear p scope (left + 1) (s.tree t)) := by
  refine (ih s _).of_grown fun h _ => ?_
  obtain ⟨l, cs, hseen⟩ := h.seen htwin hrow
  obtain ⟨hhead, hargs'⟩ := hseen.nominal (hseen.tag.symm.trans hkind)
  obtain rfl := some.inj (hargs.symm.trans hargs')
  have hinner : shared_inner p (s.tree t) = some ((args.map s.tree).take 1) := by
    rw [hseen.opened himm, container_nominal hhead, if_neg hatomic, if_pos harray]
  rw [clear, clear, finds_inside hinner left]
  cases args with
  | nil =>
    obtain ⟨row0, hrow0, htag0⟩ := h.error
    have htag : (s.tree TY_ERROR).label.head.tag = .Error := by
      rw [(h.good.label_quals hrow0).2, htag0]
    refine ⟨(List.getElem?_eq_some_iff.mp hrow0).1, congrArg _ ?_⟩
    cases left with
    | zero => rfl
    | succ left =>
      change finds _ _ (left + 1) (s.tree TY_ERROR) = _
      rw [finds_leaf (shared_inner_other (by simp [htag]) (by simp [htag])), refuses, htag,
        Bool.and_false]
      rfl
  | cons e es => exact ⟨hseen.lt e List.mem_cons_self, congrArg _ (Bool.or_false _).symm⟩

theorem tuple_decides (hkind : twin.tag = .Tuple) {args : List TyId}
    (hargs : s.args_at twin.b = some args) :
    Decides k s0 s (all_conform (conforms_shared p scope left) s args) (t < s.rows.length)
      (clear p scope (left + 1) (s.tree t)) := by
  refine (all_conform_decides ih s args).of_grown fun h _ => ?_
  obtain ⟨l, cs, hseen⟩ := h.seen htwin hrow
  obtain ⟨hhead, hargs'⟩ := hseen.tuple (hseen.tag.symm.trans hkind)
  obtain rfl := some.inj (hargs.symm.trans hargs')
  have hinner : shared_inner p (s.tree t) = some (args.map s.tree) := by
    rw [hseen.opened himm, container_tuple hhead]
  refine ⟨hseen.lt, ?_⟩
  rw [clear, finds_inside hinner left, not_any_eq_all_not]

end Rows

/-- A component conforms where the walk finds nothing to refuse. -/
theorem conforms_shared_decides (left : Nat) (s : TyStore) (t : TyId) :
    Decides k s0 s (conforms_shared p scope left s t) (t < s.rows.length)
      (clear p scope left (s.tree t)) := by
  induction left generalizing s t with
  | zero => exact .pure fun _ _ _ => rfl
  | succ left ih =>
    rw [conforms_shared]
    split
    · rename_i herr
      refine .pure fun h hfit ht => ?_
      have htag := h.guarded ht hfit herr
      rw [clear_leaf left (shared_inner_other (by simp [htag]) (by simp [htag])), refuses, htag,
        Bool.and_false]
      rfl
    refine .bind fun row hrow => ?_
    split
    · rename_i himm
      refine .pure fun h _ _ => ?_
      have hquals := (h.good.label_quals hrow).1
      rw [clear_leaf left (by rw [shared_inner, hquals, if_pos himm])]
      simp [refuses, hquals, himm]
    rename_i himm
    refine .bind fun twin htwin => ?_
    split
    · rename_i hkind
      split
      · exact atomic_decides left htwin hrow himm hkind ‹_›
      rename_i hatomic
      split
      · rename_i harray
        exact .bind fun args hargs =>
          array_decides left htwin hrow himm ih hkind hatomic harray hargs
      · exact nominal_decides left htwin hrow himm hkind hatomic ‹_›
    · rename_i hkind
      exact .bind fun args hargs => tuple_decides left htwin hrow himm ih hkind hargs
    · exact rigid_decides left htwin hrow himm (.inl ‹_›)
    · exact rigid_decides left htwin hrow himm (.inr ‹_›)
    -- an error, a brand or a constant is no type of a value
    iterate 3
      · refine atom_decides left htwin hrow himm (by simp [*]) (by simp [*]) fun T himm htag => ?_
        simp [refuses, *]
    · rename_i hn ht hparam hproj herror hbrand hconst
      refine atom_decides left htwin hrow himm hn ht fun T himm htag => ?_
      rw [refuses, himm, htag]
      cases hkind : twin.tag <;> simp_all

end Decides

end Fors.Authority
