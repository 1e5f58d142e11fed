import Fors.Authority.Walks

/-!
# The field-wise check

What the two passes report of well-formed declarations, each about its own declaration alone.

Principal results: `run_rounds`, `shared_impl_round` and `atomic_field_round`.
-/

namespace Fors.Authority

open Option hiding any_eq_true map_map
open Fors.Syntax Fors.Ty Fors.Ty.TyStore Trees Descent List

/-! ## Components as types -/

section Components

variable {k : Keys} (p : Checker k) (s0 : TyStore)

/-- The components of `d`, as they are declared. -/
def declared (d : DefId) : List (Rose Label) :=
  ((raw_components s0 (p.sigs d).members).getD []).map fun c => s0.tree c.2

/-- A component of `d` with the declaration's arguments in place. -/
def placed (d : DefId) (args : List (Rose Label)) (T : Rose Label) : Option (Rose Label) :=
  if (p.sigs d).arity = 0 then some T
  else if args.length = (p.sigs d).arity then p.traits.in_place d args T
  else none

/-- The components as the check walks them. -/
def walked (d : DefId) (args : List (Rose Label)) : List (Rose Label) :=
  (declared p s0 d).map fun T => (placed p d args T).getD T

variable {p s0} {s s' : TyStore} {d : DefId} {args : List TyId}

/-- Every component that `d` declares is a row of the store. -/
def Declares (p : Checker k) (s0 : TyStore) (d : DefId) : Prop :=
  ∃ raw, raw_components s0 (p.sigs d).members = some raw ∧ ∀ c ∈ raw, c.2 < s0.rows.length

variable {raw : List (Symbol × TyId)}

theorem raw_member_extends (h : s.Extends s') {m : Member}
    (hraw : raw_member s m = some raw) : raw_member s' m = some raw := by
  obtain ⟨name, kind⟩ := m
  match kind, hraw with
  | .Field ty, hraw => exact hraw
  | .Variant .None, hraw => exact hraw
  | .Variant (.Record sub), hraw => exact hraw
  | .Item, hraw => exact hraw
  | .Variant (.Tuple a), hraw =>
    obtain ⟨ts, hts, rfl⟩ := map_eq_some_iff.mp hraw
    exact map_eq_some_iff.mpr ⟨ts, h.args_at hts, rfl⟩

theorem raw_components_extends (h : s.Extends s') {ms : List Member} (hraw : raw_components s ms = some raw) :
    raw_components s' ms = some raw := by
  induction ms generalizing raw with
  | nil => exact hraw
  | cons m ms ih =>
    obtain ⟨xs, hxs, hraw⟩ := bind_eq_some_iff.mp hraw
    obtain ⟨ys, hys, hraw⟩ := bind_eq_some_iff.mp hraw
    exact bind_eq_some_iff.mpr ⟨xs, raw_member_extends h hxs,
      bind_eq_some_iff.mpr ⟨ys, ih hys, hraw⟩⟩

/-- The declared components, in a store that has grown. -/
theorem declared_eq (hover : Declares p s0 d) (h : Grown k s0 s) (hraw : raw_components s (p.sigs d).members = some raw) :
    declared p s0 d = raw.map (fun c => s.tree c.2) ∧ ∀ c ∈ raw, c.2 < s.rows.length := by
  obtain ⟨raw0, hraw0, hlt⟩ := hover
  obtain rfl := some.inj ((raw_components_extends h.base hraw0).symm.trans hraw)
  refine ⟨?_, fun c hc => Nat.lt_of_lt_of_le (hlt c hc) h.base.rows.length_le⟩
  rw [declared, hraw0]
  exact map_congr_left fun c hc =>
    (h.start.tree_extends h.base h.good.toInv (hlt c hc)).symm

variable {cs : List (Symbol × TyId)}

theorem subst_all_extends {b : Binding} {cs' : List (Symbol × TyId)}
    (hrun : subst_all p b s cs = some (s', cs')) : s.Extends s' := by
  induction cs generalizing s cs' with
  | nil =>
    obtain ⟨rfl, -⟩ := Prod.mk.inj (some.inj hrun)
    exact .refl s
  | cons c cs ih =>
    obtain ⟨⟨s1, out⟩, hone, hrun⟩ := bind_eq_some_iff.mp hrun
    obtain ⟨⟨s2, rest⟩, hrest, hrun⟩ := bind_eq_some_iff.mp hrun
    obtain ⟨rfl, -⟩ := Prod.mk.inj (some.inj hrun)
    exact (p.traits.subst_extends hone).trans (ih hrest)

theorem subst_all_trees {cs' : List (Symbol × TyId)} (h : Grown k s0 s)
    (hargs : ∀ a ∈ args, a < s.rows.length) (hcs : ∀ c ∈ cs, c.2 < s.rows.length)
    (hrun : subst_all p (bind_args d args.length args) s cs = some (s', cs')) (hfit : s'.Fits) :
    Grown k s0 s' ∧ (∀ c ∈ cs', c.2 < s'.rows.length) ∧ cs'.map (fun c => s'.tree c.2) =
      (cs.map fun c => s.tree c.2).map fun T =>
        (p.traits.in_place d (args.map s.tree) T).getD T := by
  induction cs generalizing s cs' with
  | nil =>
    cases hrun
    exact ⟨h, by simp, rfl⟩
  | cons c cs ih =>
    obtain ⟨⟨s1, out⟩, hone, hrun⟩ := bind_eq_some_iff.mp hrun
    obtain ⟨⟨s2, rest⟩, hrest, hrun⟩ := bind_eq_some_iff.mp hrun
    cases hrun
    rw [forall_mem_cons] at hcs
    have hext1 := p.traits.subst_extends hone
    have hext2 := subst_all_extends hrest
    obtain ⟨hgood1, hlt, hin⟩ :=
      p.traits.subst_exact h.good hargs hcs.1 hone (hext2.fits hfit)
    have hmono : ∀ {x : TyId}, x < s.rows.length → x < s1.rows.length := fun hx =>
      Nat.lt_of_lt_of_le hx hext1.rows.length_le
    obtain ⟨h2, hrest_lt, htrees⟩ := ih (h.extends hext1 hgood1) (fun a ha => hmono (hargs a ha))
      (fun c hc => hmono (hcs.2 c hc)) hrest
    have hout : out.getD c.2 < s1.rows.length := by
      cases out with
      | none => exact hmono hcs.1
      | some r => exact hlt r rfl
    have htree : s1.tree (out.getD c.2) =
        (p.traits.in_place d (args.map s.tree) (s.tree c.2)).getD (s.tree c.2) := by
      rw [← hin]
      cases out with
      | none => exact h.good.tree_extends hext1 hgood1.toInv hcs.1
      | some r => rfl
    refine ⟨h2, ?_, ?_⟩
    · rw [forall_mem_cons]
      exact ⟨Nat.lt_of_lt_of_le hout hext2.rows.length_le, hrest_lt⟩
    · rw [h.good.map_tree_extends hext1 hgood1.toInv hargs] at htrees
      rw [map_cons, htrees, hgood1.tree_extends hext2 h2.good.toInv hout, htree,
        map_cons, map_cons]
      congr 2
      exact map_congr_left fun c hc =>
        h.good.tree_extends hext1 hgood1.toInv (hcs.2 c hc)

theorem components_extends (hrun : components p s d args = some (s', cs)) : s.Extends s' := by
  obtain ⟨raw, -, hrun⟩ := bind_eq_some_iff.mp hrun
  split at hrun
  · exact subst_all_extends hrun
  · obtain ⟨rfl, -⟩ := Prod.mk.inj (some.inj hrun)
    exact .refl s

theorem components_trees
    (hover : Declares p s0 d) (h : Grown k s0 s) (hargs : ∀ a ∈ args, a < s.rows.length)
    (hrun : components p s d args = some (s', cs)) (hfit : s'.Fits) :
    Grown k s0 s' ∧ (∀ c ∈ cs, c.2 < s'.rows.length) ∧
      cs.map (fun c => s'.tree c.2) = walked p s0 d (args.map s.tree) := by
  obtain ⟨raw, hraw, hrun⟩ := bind_eq_some_iff.mp hrun
  obtain ⟨hdeclared, hlt⟩ := declared_eq hover h hraw
  rw [walked, hdeclared]
  split at hrun
  · rename_i harity
    rw [← harity.2] at hrun
    obtain ⟨h', hlt', htrees⟩ := subst_all_trees h hargs hlt hrun hfit
    refine ⟨h', hlt', htrees.trans (map_congr_left fun T _ => ?_)⟩
    rw [placed, if_neg (Nat.pos_iff_ne_zero.mp harity.1), if_pos (by rw [length_map, harity.2])]
  · rename_i harity
    cases hrun
    refine ⟨h, hlt, ?_⟩
    refine (map_id' _).symm.trans (map_congr_left fun T _ => ?_)
    rw [placed]
    split
    · rfl
    · rename_i hpos
      rw [if_neg, getD_none]
      rw [length_map]
      exact fun hlen => harity ⟨Nat.pos_of_ne_zero hpos, hlen⟩

end Components

/-! ## Rounds of a pass -/

section Rounds

variable {k : Keys} {s0 : TyStore} {home : DefId} {judged fault : Prop} {st st' : Pass}

/-- What a round says is charged to `home`; of what it judges it says something exactly where there
is a fault, unless something was said before. -/
def Says (k : Keys) (s0 : TyStore) (home : DefId) (judged fault : Prop) (st : Pass)
    (w : Option Pass) : Prop :=
  ∀ st', w = some st' → st.tys.Extends st'.tys ∧
    (st'.tys.Fits → Grown k s0 st.tys → Grown k s0 st'.tys ∧
      ∃ said, st'.out = st.out ++ said ∧ (∀ rep ∈ said, rep.home = home) ∧
        (judged → (∀ rep ∈ st.out, rep.home ≠ home) → (said ≠ [] ↔ fault)))

theorem Says.silent
    (h : Grown k s0 st.tys → judged → (∀ rep ∈ st.out, rep.home ≠ home) → ¬fault) :
    Says k s0 home judged fault st (some st) := by
  intro st' hw
  cases hw
  refine ⟨.refl _, fun _ hgrown => ⟨hgrown, [], (append_nil _).symm, by simp, ?_⟩⟩
  exact fun hj hout => iff_of_false (by simp) (h hgrown hj hout)

theorem Says.bind {γ : Type} {x : Option γ} {f : γ → Option Pass}
    (h : ∀ a, x = some a → Says k s0 home judged fault st (f a)) :
    Says k s0 home judged fault st (x >>= f) := by
  intro st' hw
  obtain ⟨a, ha, hw⟩ := bind_eq_some_iff.mp hw
  exact h a ha st' hw

/-- A round that looked at the store and has nothing to say. -/
theorem Says.passed {tys : TyStore} (hext : st.tys.Extends tys)
    (h : tys.Fits → Grown k s0 st.tys → Grown k s0 tys ∧ (judged → ¬fault)) :
    Says k s0 home judged fault st (some ⟨tys, st.out⟩) := by
  intro st' hw
  cases hw
  refine ⟨hext, fun hfit hgrown => ?_⟩
  obtain ⟨hgrown', hno⟩ := h hfit hgrown
  refine ⟨hgrown', [], (append_nil _).symm, by simp, fun hj _ => ?_⟩
  exact iff_of_false (by simp) (hno hj)

theorem Says.said {tys : TyStore} {rep : Report} (hext : st.tys.Extends tys)
    (hhome : rep.home = home)
    (h : tys.Fits → Grown k s0 st.tys → Grown k s0 tys ∧ (judged → fault)) :
    Says k s0 home judged fault st (some ⟨tys, st.out ++ [rep]⟩) := by
  intro st' hw
  cases hw
  refine ⟨hext, fun hfit hgrown => ?_⟩
  obtain ⟨hgrown', hyes⟩ := h hfit hgrown
  refine ⟨hgrown', [rep], rfl, by simpa using hhome, fun hj _ => ?_⟩
  exact iff_of_true (by simp) (hyes hj)

/-- A pass whose rounds are about different declarations reports each for its own fault. -/
theorem run_rounds {X : Type} {home : X → DefId} {judged fault : X → Prop}
    {round : Pass → X → Option Pass} {xs : List X}
    (hround : ∀ st x, Says k s0 (home x) (judged x) (fault x) st (round st x))
    (hdistinct : (xs.map home).Nodup) (hrun : xs.foldlM round st = some st') :
    st.tys.Extends st'.tys ∧ (st'.tys.Fits → Grown k s0 st.tys → Grown k s0 st'.tys ∧
      ∃ said, st'.out = st.out ++ said ∧ (∀ rep ∈ said, ∃ x ∈ xs, rep.home = home x) ∧
        ∀ x ∈ xs, judged x → (∀ rep ∈ st.out, rep.home ≠ home x) →
          ((∃ rep ∈ said, rep.home = home x) ↔ fault x)) := by
  induction xs generalizing st with
  | nil =>
    cases hrun
    exact ⟨.refl _, fun _ h => ⟨h, [], (append_nil _).symm, by simp, by simp⟩⟩
  | cons y ys ih =>
    rw [map_cons, nodup_cons] at hdistinct
    rw [foldlM_cons] at hrun
    obtain ⟨st1, hone, hrest⟩ := bind_eq_some_iff.mp hrun
    obtain ⟨hext1, hspec⟩ := hround st y st1 hone
    obtain ⟨hext2, hrest⟩ := ih hdistinct.2 hrest
    refine ⟨hext1.trans hext2, fun hfit hgrown => ?_⟩
    obtain ⟨hgrown1, said, hout1, hhome, hiff⟩ := hspec (hext2.fits hfit) hgrown
    obtain ⟨hgrown2, rest, hout2, hhomes, hiffs⟩ := hrest hfit hgrown1
    have hapart : ∀ x ∈ ys, home x ≠ home y := fun x hx heq =>
      hdistinct.1 (heq ▸ mem_map_of_mem hx)
    refine ⟨hgrown2, said ++ rest, by rw [hout2, hout1, append_assoc], ?_, ?_⟩
    · intro rep hrep
      obtain hrep | hrep := mem_append.mp hrep
      · exact ⟨y, mem_cons_self, hhome rep hrep⟩
      · obtain ⟨x, hx, heq⟩ := hhomes rep hrep
        exact ⟨x, mem_cons_of_mem _ hx, heq⟩
    · intro x hx hj hfresh
      obtain rfl | hx := mem_cons.mp hx
      · -- no later round is about `x`
        have hlater : ∀ rep ∈ rest, rep.home ≠ home x := fun rep hrep heq => by
          obtain ⟨z, hz, hz'⟩ := hhomes rep hrep
          exact hapart z hz (hz'.symm.trans heq)
        rw [← hiff hj hfresh]
        constructor
        · rintro ⟨rep, hrep, heq⟩ rfl
          exact hlater rep hrep heq
        · intro hne
          obtain ⟨rep, hrep⟩ := exists_mem_of_ne_nil said hne
          exact ⟨rep, mem_append_left _ hrep, hhome rep hrep⟩
      · have hfresh1 : ∀ rep ∈ st1.out, rep.home ≠ home x := fun rep hrep => by
          rw [hout1] at hrep
          obtain hrep | hrep := mem_append.mp hrep
          · exact hfresh rep hrep
          · rw [hhome rep hrep]
            exact (hapart x hx).symm
        rw [← hiffs x hx hj hfresh1]
        constructor
        · rintro ⟨rep, hrep, heq⟩
          obtain hrep | hrep := mem_append.mp hrep
          · exact absurd (heq.symm.trans (hhome rep hrep)) (hapart x hx)
          · exact ⟨rep, hrep, heq⟩
        · rintro ⟨rep, hrep, heq⟩
          exact ⟨rep, mem_append_right _ hrep, heq⟩

end Rounds

/-! ## The passes -/

section Passes

variable {k : Keys} (p : Checker k) (s0 : TyStore)

/-- A struct or an enum of the user's. -/
def IsType (d : DefId) : Prop :=
  ∃ row, (d, row) ∈ p.defs.user_defs ∧ (row.kind = .Struct ∨ row.kind = .Enum)

/-- The declaration that an `impl` is for. -/
def self_def (r : ImplRow) : DefId :=
  match (s0.tree r.self_ty).label.head with
  | .Nominal d => d
  | _ => NO_DEF

def self_args (r : ImplRow) : List (Rose Label) :=
  (s0.tree r.self_ty).children

/-- An `impl Shared` for a struct or an enum, without `@unsafe`. -/
structure Checked (r : ImplRow) : Prop where
  mem : r ∈ p.impls
  trait_def : r.trait_def = p.shared
  inherent : r.inherent = false
  nominal : (s0.tree r.self_ty).label.head.tag = .Nominal
  written : ∃ decl f, p.defs.get r.def_ = some decl ∧ p.files[decl.file]? = some f ∧
    f.decl_has_attr decl.node (Utf8.bytes "unsafe") = false

/-- Declarations with which nothing else is wrong. -/
structure WellFormed : Prop where
  clean : ∀ d, p.poisoned d = false ∧ p.spoke d = false
  filed : ∀ d row, (d, row) ∈ p.defs.user_defs → ∃ f, p.files[row.file]? = some f
  declares : ∀ d, Declares p s0 d
  lowered : ∀ d row, (d, row) ∈ p.defs.user_defs → row.kind = .Impl → ∃ r ∈ p.impls, r.def_ = d
  distinct : (p.impls.map fun r => r.def_).Nodup
  impl_kind : ∀ r ∈ p.impls, ∀ row, p.defs.get r.def_ = some row → row.kind = .Impl
  self_ty : ∀ r ∈ p.impls, r.self_ty < s0.rows.length ∧ r.self_ty ≠ TY_ERROR
  /-- The components are types of values. -/
  values : ∀ r ∈ p.impls, ∀ T ∈ walked p s0 (self_def s0 r) (self_args s0 r), ∀ n y,
    Leaf (shared_inner p) n T y → y.label.head.tag ≠ .Error ∧ y.label.head.tag ≠ .Brand ∧
      y.label.head.tag ≠ .ConstVal
  /-- The implemented type is a struct or an enum. -/
  structs : ∀ scope T, p.traits.implements scope p.shared T = true →
    T.label.head.tag ≠ .Prim ∧ T.label.head.tag ≠ .Fn ∧ T.label.head.tag ≠ .Dyn

variable {p s0} {st st' : Pass} {s s' : TyStore} {scope : DefId} {d : DefId} {r : ImplRow}

theorem WellFormed.unspoken (hwf : WellFormed p s0) (hfresh : ∀ rep ∈ st.out, rep.home ≠ d) :
    ¬(p.poisoned d || spoken p st.out d) = true := by
  simp only [spoken, hwf.clean, Bool.false_or, any_eq_true, decide_eq_true_eq, not_exists,
    not_and]
  exact hfresh

theorem decl_head_eq {row : DefRow} {f : FileCtx} (hrow : p.defs.get d = some row)
    (hf : p.files[row.file]? = some f) : decl_head p d = some (row.file, f.header_range row.node) := by
  simp [decl_head, hrow, hf]

/-! ### `atomic` fields -/

theorem findM?_eq {α : Type} {f : α → Option Bool} {g : α → Bool} {xs : List α} {o : Option α}
    (hf : ∀ x ∈ xs, ∀ b, f x = some b → b = g x) (h : xs.findM? f = some o) : o = xs.find? g := by
  induction xs with
  | nil => exact (some.inj h).symm
  | cons x xs ih =>
    obtain ⟨c, hc, h⟩ := bind_eq_some_iff.mp h
    rw [forall_mem_cons] at hf
    obtain rfl := hf.1 c hc
    rw [find?_cons]
    cases hg : g x with
    | true =>
      rw [hg] at h
      exact (some.inj h).symm
    | false =>
      rw [hg] at h
      exact ih hf.2 h

/-- Without arguments the components stay as they are declared. -/
theorem walked_nil (p : Checker k) (s0 : TyStore) (d : DefId) :
    walked p s0 d [] = declared p s0 d := by
  refine (map_congr_left fun T _ => ?_).trans (map_id' _)
  rw [placed]
  split
  · rfl
  · rename_i hpos
    rw [if_neg fun h => hpos h.symm]
    rfl

/-- What `atomic_fields` finds in a declaration. -/
def AtomicFault (p : Checker k) (s0 : TyStore) (d : DefId) : Prop :=
  (∃ T ∈ declared p s0 d, finds (container p) (is_atomic p) 17 T = true) ∧
    ¬∃ r ∈ p.impls, r.trait_def = p.shared ∧ r.head = .Nominal d

theorem WellFormed.implements_shared_iff (hwf : WellFormed p s0) :
    implements_shared p d = true ↔ ∃ r ∈ p.impls, r.trait_def = p.shared ∧ r.head = .Nominal d := by
  simp only [implements_shared, any_eq_true, Bool.and_eq_true, Bool.or_eq_true,
    decide_eq_true_eq]
  constructor
  · rintro ⟨r, hr, htrait, hhead | herr⟩
    · exact ⟨r, hr, htrait, hhead⟩
    · exact absurd herr (hwf.self_ty r hr).2
  · rintro ⟨r, hr, htrait, hhead⟩
    exact ⟨r, hr, htrait, .inl hhead⟩

theorem atomic_field_round (hwf : WellFormed p s0) (st : Pass) (d : DefId) :
    Says k s0 d (IsType p d) (AtomicFault p s0 d) st (atomic_field p st d) := by
  rw [atomic_field]
  split
  · rename_i hspoken
    exact .silent fun _ _ hfresh => absurd hspoken (hwf.unspoken hfresh)
  refine .bind fun a hcomps => ?_
  obtain ⟨tys, comps⟩ := a
  refine .bind fun o hfind => ?_
  have hext := components_extends hcomps
  have hfound : tys.Fits → Grown k s0 st.tys → Grown k s0 tys ∧
      (o.isSome = true ↔ ∃ T ∈ declared p s0 d, finds (container p) (is_atomic p) 17 T = true) :=
    fun hfit hgrown => by
      obtain ⟨hgrown', hlt, htrees⟩ := components_trees (hwf.declares d) hgrown
        (by simp) hcomps hfit
      rw [map_nil, walked_nil] at htrees
      have ho := findM?_eq (g := fun c => finds (container p) (is_atomic p) 17 (tys.tree c.2))
        (fun c hc b hb => mentions_atomic_eq hgrown' hfit (hlt c hc) hb) hfind
      refine ⟨hgrown', ?_⟩
      rw [ho, find?_isSome, ← htrees]
      simp
  have hpassed : (IsType p d → o.isSome = true → ¬AtomicFault p s0 d) →
      Says k s0 d (IsType p d) (AtomicFault p s0 d) st (some ⟨tys, st.out⟩) := fun h =>
    .passed hext fun hfit hgrown => by
      obtain ⟨hgrown', hiff⟩ := hfound hfit hgrown
      exact ⟨hgrown', fun hj hfault => h hj (hiff.mpr hfault.1) hfault⟩
  split
  · exact hpassed fun _ hnone => nomatch hnone
  rename_i field t
  split
  · rename_i himpl
    exact hpassed fun _ _ hfault => hfault.2 (hwf.implements_shared_iff.mp himpl)
  rename_i hunshared
  split
  · rename_i hhead
    refine hpassed fun ⟨row, hmem, _⟩ _ _ => ?_
    obtain ⟨f, hf⟩ := hwf.filed d row hmem
    rw [decl_head_eq (DefTable.mem_user_defs.mp hmem).2 hf] at hhead
    exact nomatch hhead
  · refine .said hext rfl fun hfit hgrown => ?_
    obtain ⟨hgrown', hiff⟩ := hfound hfit hgrown
    exact ⟨hgrown', fun _ => ⟨hiff.mp rfl, fun himpl =>
      hunshared (hwf.implements_shared_iff.mpr himpl)⟩⟩

/-! ### `impl Shared` -/

theorem first_bad_eq (s : TyStore) (cs : List (Symbol × TyId)) :
    (first_bad p scope s cs).map (fun a => (a.1, a.2.isNone)) =
      all_conform (conforms_shared p scope 17) s (cs.map Prod.snd) := by
  induction cs generalizing s with
  | nil => rfl
  | cons c cs ih =>
    rw [first_bad, map_cons, all_conform]
    cases conforms_shared p scope 17 s c.2 with
    | none => rfl
    | some a =>
      obtain ⟨s1, ok⟩ := a
      cases ok with
      | true => exact ih s1
      | false => rfl

theorem first_bad_spec {cs : List (Symbol × TyId)} {bad : Option (Symbol × TyId)}
    (hrun : first_bad p scope s cs = some (s', bad)) : s.Extends s' ∧
      (s'.Fits → Grown k s0 s → (∀ c ∈ cs, c.2 < s.rows.length) → Grown k s0 s' ∧
        (bad.isSome = true ↔ ∃ T ∈ cs.map (fun c => s.tree c.2),
          finds (shared_inner p) (refuses p scope) 17 T = true)) := by
  have hall : all_conform (conforms_shared p scope 17) s (cs.map Prod.snd) =
      some (s', bad.isNone) := by
    rw [← first_bad_eq, hrun]
    rfl
  obtain ⟨hext, hspec⟩ :=
    all_conform_decides (conforms_shared_decides 17) s (cs.map Prod.snd) s' bad.isNone hall
  refine ⟨hext, fun hfit hgrown hlt => ?_⟩
  obtain ⟨hgrown', hnone⟩ := hspec hfit hgrown fun t ht => by
    obtain ⟨c, hc, rfl⟩ := mem_map.mp ht
    exact hlt c hc
  refine ⟨hgrown', ?_⟩
  rw [map_map, ← not_any_eq_all_not, ← not_isSome, Bool.not_inj_iff] at hnone
  rw [hnone, any_eq_true]
  rfl

/-- What `shared_impls` finds in an `impl`. -/
def SharedFault (p : Checker k) (s0 : TyStore) (r : ImplRow) : Prop :=
  ∃ T ∈ walked p s0 (self_def s0 r) (self_args s0 r),
    finds (shared_inner p) (refuses p r.def_) 17 T = true

theorem shared_impl_round (hwf : WellFormed p s0) (st : Pass) (r : ImplRow) :
    Says k s0 r.def_ (Checked p s0 r) (SharedFault p s0 r) st (shared_impl p st r) := by
  rw [shared_impl]
  split
  · rename_i hskip
    refine .silent fun _ hj _ => absurd hskip ?_
    simp [hj.trait_def, hj.inherent, (hwf.self_ty r hj.mem).2]
  split
  · rename_i hspoken
    exact .silent fun _ _ hfresh => absurd hspoken (hwf.unspoken hfresh)
  refine .bind fun row hrow => .bind fun bare hbare => ?_
  have hsee : Grown k s0 st.tys → ∃ l cs, Seen st.tys r.self_ty row bare l cs := fun hgrown => by
    obtain ⟨twin, l, cs, hseen⟩ := seen_of_row hgrown.good hrow
    obtain rfl := some.inj (hbare.symm.trans hseen.twin_row)
    exact ⟨l, cs, hseen⟩
  have hself : Grown k s0 st.tys → Checked p s0 r →
      st.tys.tree r.self_ty = s0.tree r.self_ty := fun hgrown hj =>
    hgrown.start.tree_extends hgrown.base hgrown.good.toInv (hwf.self_ty r hj.mem).1
  split
  · rename_i hkind
    refine .silent fun hgrown hj _ => absurd ?_ hkind
    obtain ⟨l, cs, hseen⟩ := hsee hgrown
    rw [← hseen.label_tag, hself hgrown hj, hj.nominal]
  rename_i hkind
  split
  · rename_i hdecl
    refine .silent fun _ hj _ => ?_
    obtain ⟨decl, f, hget, -⟩ := hj.written
    exact nomatch hdecl.symm.trans hget
  rename_i decl hdecl
  split
  · rename_i hfile
    refine .silent fun _ hj _ => ?_
    obtain ⟨decl', f, hget, hf, -⟩ := hj.written
    obtain rfl := some.inj (hdecl.symm.trans hget)
    exact nomatch hfile.symm.trans hf
  rename_i f hfile
  split
  · rename_i hattr
    refine .silent fun _ hj _ => ?_
    obtain ⟨decl', f', hget, hf, haudited⟩ := hj.written
    obtain rfl := some.inj (hdecl.symm.trans hget)
    obtain rfl := some.inj (hfile.symm.trans hf)
    exact nomatch hattr.symm.trans haudited
  refine .bind fun args hargs => .bind fun a hcomps => ?_
  obtain ⟨tys1, comps⟩ := a
  refine .bind fun a hbad => ?_
  obtain ⟨tys, bad⟩ := a
  have hext1 := components_extends hcomps
  obtain ⟨hext2, hspec⟩ := first_bad_spec hbad
  have hfound : tys.Fits → Grown k s0 st.tys → Grown k s0 tys ∧
      (Checked p s0 r → (bad.isSome = true ↔ SharedFault p s0 r)) := fun hfit hgrown => by
    obtain ⟨l, cs, hseen⟩ := hsee hgrown
    obtain ⟨hhead, hargs'⟩ := hseen.nominal (hseen.tag.symm.trans (not_not.mp hkind))
    obtain rfl := some.inj (hargs.symm.trans hargs')
    obtain ⟨hgrown1, hlt, htrees⟩ := components_trees (hwf.declares bare.a) hgrown hseen.lt
      hcomps (hext2.fits hfit)
    obtain ⟨hgrown2, hiff⟩ := hspec hfit hgrown1 hlt
    refine ⟨hgrown2, fun hj => ?_⟩
    have htree := hseen.tree
    rw [hself hgrown hj] at htree
    rw [htrees] at hiff
    rw [SharedFault, self_def, self_args, htree,
      show (Rose.node l _).label.head = .Nominal bare.a from hhead]
    exact hiff
  have hext := hext1.trans hext2
  dsimp only
  split
  · refine .passed hext fun hfit hgrown => ?_
    obtain ⟨hgrown', hiff⟩ := hfound hfit hgrown
    exact ⟨hgrown', fun hj hfault => nomatch (hiff hj).mpr hfault⟩
  split
  · rename_i hhead
    rw [decl_head_eq hdecl hfile] at hhead
    exact nomatch hhead
  · refine .said hext rfl fun hfit hgrown => ?_
    obtain ⟨hgrown', hiff⟩ := hfound hfit hgrown
    exact ⟨hgrown', fun hj => (hiff hj).mp rfl⟩

end Passes

end Fors.Authority
