import Fors.Ty.Linear

/-!
# The search for linear components

A query leaves the memo right about every type but the ones on its path, where the entries are
still the `false` they start with. No type is its own component, so a path never meets them.

Principal result: `searches_lin_uncached`.
-/

namespace Fors.Ty

open Trees TyStore Matching Descent List Option

variable {k : Keys} {sigs : SigStore} {env : LinEnv} {s0 s s' : TyStore} {m m' : Memo}
  {stack : List TyId} {v : Bool} {left : Nat} {t : TyId} {D : Decls}

/-- The by-value components under the declarations of a store. -/
abbrev rule (sigs : SigStore) (s0 : TyStore) (env : LinEnv) : Parts (Rose Label) :=
  linear_parts (decls sigs s0) env

/-! ## The memo -/

/-- `TY_ERROR` is the error type. -/
def HasError (s : TyStore) : Prop :=
  ∃ row, s.rows[TY_ERROR]? = some row ∧ row.tag = .Error

theorem HasError.extends (h : HasError s) (hext : s.Extends s') : HasError s' := by
  obtain ⟨row, hrow, htag⟩ := h
  exact ⟨row, getElem?_kept hext.rows hrow, htag⟩

/-- What a memo entry says of its type. -/
def Right (D : Decls) (env : LinEnv) (s : TyStore) (t : TyId) (v : Bool) : Prop :=
  v = true ↔ Linear D env (s.tree t)

/-- A search with `stack` on its path. -/
structure Searching (k : Keys) (sigs : SigStore) (s0 : TyStore) (env : LinEnv) (s : TyStore)
    (m : Memo) (stack : List TyId) : Prop where
  base : s0.Extends s
  good : s.Good k
  error : HasError s
  path : ∀ t ∈ stack, t < s.rows.length
  memo : ∀ t v, m.lookup t = some v →
    t < s.rows.length ∧ (t ∈ stack ∨ Right (decls sigs s0) env s t v)

theorem Searching.extends (h : Searching k sigs s0 env s m stack) (hext : s.Extends s')
    (hs' : s'.Good k) : Searching k sigs s0 env s' m stack where
  base := h.base.trans hext
  good := hs'
  error := h.error.extends hext
  path t ht := Nat.lt_of_lt_of_le (h.path t ht) hext.rows.length_le
  memo t v hv := by
    obtain ⟨hlt, hright⟩ := h.memo t v hv
    refine ⟨Nat.lt_of_lt_of_le hlt hext.rows.length_le, hright.imp_right fun hr => ?_⟩
    rw [Right, h.good.tree_extends hext hs'.toInv hlt]
    exact hr

theorem Searching.path_tree (h : Searching k sigs s0 env s m stack) (hext : s.Extends s')
    (hs' : s'.Good k) : stack.map s'.tree = stack.map s.tree :=
  h.good.map_tree_extends hext hs'.toInv h.path

theorem lookup_cons (t u : TyId) (v : Bool) (m : Memo) :
    ((t, v) :: m).lookup u = if u = t then some v else m.lookup u := by
  rw [List.lookup_cons]
  by_cases h : u = t
  · simp [h]
  · rw [if_neg h, beq_false_of_ne h]

/-- A type enters the path with its entry at `false`. -/
theorem Searching.enter (h : Searching k sigs s0 env s m stack) (ht : t < s.rows.length)
    (v : Bool) : Searching k sigs s0 env s ((t, v) :: m) (t :: stack) where
  base := h.base
  good := h.good
  error := h.error
  path := forall_mem_cons.mpr ⟨ht, h.path⟩
  memo u w hw := by
    rw [lookup_cons] at hw
    split at hw
    · rename_i heq
      exact ⟨heq ▸ ht, .inl (heq ▸ mem_cons_self)⟩
    · obtain ⟨hlt, hor⟩ := h.memo u w hw
      exact ⟨hlt, hor.imp_left (mem_cons_of_mem t)⟩

/-- It leaves the path with the right entry. -/
theorem Searching.leave (h : Searching k sigs s0 env s m (t :: stack))
    (hv : Right (decls sigs s0) env s t v) : Searching k sigs s0 env s ((t, v) :: m) stack where
  base := h.base
  good := h.good
  error := h.error
  path := (forall_mem_cons.mp h.path).2
  memo u w hw := by
    rw [lookup_cons] at hw
    split at hw
    · rename_i heq
      cases hw
      exact ⟨heq ▸ h.path t mem_cons_self, .inr (heq ▸ hv)⟩
    · rename_i hne
      obtain ⟨hlt, hor⟩ := h.memo u w hw
      exact ⟨hlt, hor.imp_left fun hmem => (mem_cons.mp hmem).resolve_left hne⟩

/-! ## One level -/

theorem answer_inj {a a' : TyStore} {b b' : Memo} {c c' : Bool}
    (h : some (a, b, c) = some (a', b', c')) : a = a' ∧ b = b' ∧ c = c' := by
  obtain ⟨ha, h⟩ := Prod.mk.inj (some.inj h)
  exact ⟨ha, Prod.mk.inj h⟩

/-- The store only grows. -/
def Grows (f : TyStore → Memo → TyId → Option (TyStore × Memo × Bool)) : Prop :=
  ∀ s m t s' m' v, f s m t = some (s', m', v) → s.Extends s'

/-- A search that is right about every type below the path that it does not give up on. -/
def Searches (k : Keys) (sigs : SigStore) (s0 : TyStore) (env : LinEnv) (left : Nat)
    (f : TyStore → Memo → TyId → Option (TyStore × Memo × Bool)) : Prop :=
  ∀ s m t s' m' v, f s m t = some (s', m', v) → s'.Fits →
    ∀ stack, Searching k sigs s0 env s m stack → t < s.rows.length →
      Above (rule sigs s0 env) (stack.map s.tree) (requal .NONE (s.tree t)) →
      Within (rule sigs s0 env) left (requal .NONE (s.tree t)) →
      Searching k sigs s0 env s' m' stack ∧
        (v = true ↔ Linear (decls sigs s0) env (requal .NONE (s.tree t)) ∨
          left = 65 ∧ RigidLinear env s t)

variable {f : TyStore → Memo → TyId → Option (TyStore × Memo × Bool)}

variable {cs : List TyId}

theorem any_lin_extends (hg : Grows f)
    (hrun : any_lin f s m cs = some (s', m', v)) : s.Extends s' := by
  induction cs generalizing s m with
  | nil =>
    obtain ⟨rfl, -⟩ := Prod.mk.inj (some.inj hrun)
    exact .refl s
  | cons c cs ih =>
    simp only [any_lin, bind_eq_bind, bind_eq_some_iff, Prod.exists] at hrun
    obtain ⟨s1, m1, w, hone, hrun⟩ := hrun
    have hext := hg s m c s1 m1 w hone
    split at hrun
    · obtain ⟨rfl, -⟩ := Prod.mk.inj (some.inj hrun)
      exact hext
    · exact hext.trans (ih hrun)

theorem any_lin_spec (hg : Grows f) (hf : Searches k sigs s0 env left f) (hleft : left ≠ 65) {L : List (Option (Rose Label))} (hrun : any_lin f s m cs = some (s', m', v))
    (hfit : s'.Fits) (h : Searching k sigs s0 env s m stack) (hparts : PartsOf s cs L)
    (habove : ∀ c, some c ∈ L → Above (rule sigs s0 env) (stack.map s.tree) c)
    (hvisits : Visits (rule sigs s0 env) (Within (rule sigs s0 env) left) L) :
    Searching k sigs s0 env s' m' stack ∧
      (v = true ↔ ∃ c, some c ∈ L ∧ Linear (decls sigs s0) env c) := by
  induction cs generalizing s m L with
  | nil =>
    cases hparts
    obtain ⟨rfl, rfl, rfl⟩ := answer_inj hrun
    exact ⟨h, by simp⟩
  | cons c cs ih =>
    obtain _ | ⟨hc, hparts⟩ := hparts
    rename_i o L
    obtain ⟨T, rfl, hwithin, hnext⟩ := hvisits
    obtain ⟨hlt, rfl⟩ := hc T rfl
    simp only [any_lin, bind_eq_bind, bind_eq_some_iff, Prod.exists] at hrun
    obtain ⟨s1, m1, w, hone, hrun⟩ := hrun
    have hext := hg s m c s1 m1 w hone
    have hfit1 : s1.Fits := by
      split at hrun
      · obtain ⟨rfl, -⟩ := Prod.mk.inj (some.inj hrun)
        exact hfit
      · exact (any_lin_extends hg hrun).fits hfit
    have hcabove := habove _ mem_cons_self
    obtain ⟨h1, hw⟩ := hf s m c s1 m1 w hone hfit1 stack h hlt hcabove hwithin
    have hw : w = true ↔ Linear (decls sigs s0) env (requal .NONE (s.tree c)) :=
      hw.trans (or_iff_left fun h65 => hleft h65.1)
    split at hrun
    · rename_i hyes
      obtain ⟨rfl, rfl, rfl⟩ := answer_inj hrun
      exact ⟨h1, fun _ => ⟨_, mem_cons_self, hw.mp hyes⟩, fun _ => rfl⟩
    · rename_i hno
      have hnot : ¬ Linear (decls sigs s0) env (requal .NONE (s.tree c)) :=
        fun hlin => hno (hw.mpr hlin)
      have habove1 : ∀ c, some c ∈ L →
          Above (rule sigs s0 env) (stack.map s1.tree) c := by
        rw [h.path_tree hext h1.good]
        exact fun c hc => habove c (mem_cons_of_mem _ hc)
      have hparts1 := PartsOf.extends hparts h.good hext h1.good.toInv
      obtain ⟨h2, hv⟩ := ih hrun h1 hparts1 habove1 (hnext hnot)
      refine ⟨h2, hv.trans ⟨?_, ?_⟩⟩
      · rintro ⟨T, hT, hlin⟩
        exact ⟨T, mem_cons_of_mem _ hT, hlin⟩
      · rintro ⟨T, hT, hlin⟩
        obtain hhead | hT := mem_cons.mp hT
        · cases hhead
          exact absurd hlin hnot
        · exact ⟨T, hT, hlin⟩

/-! ## The search -/

theorem linear_iff {T : Rose Label} : Linear D env T ↔
    DeclaredLinear env T ∨ ∃ c, some c ∈ by_value_parts D env T ∧ Linear D env c :=
  has_iff

variable {row : TyRow}

theorem head_nominal (hs : s.Inv k) (hrow : s.rows[t]? = some row)
    (htag : row.tag = .Nominal) : (s.tree t).label.head = .Nominal row.a := by
  obtain ⟨l, xs, hnode⟩ : ∃ l xs, s.node_of row.content = some (l, xs) :=
    ⟨_, _, (hs.node_spec hrow).1⟩
  rw [hs.tree_node hrow hnode]
  rw [TyRow.content, htag] at hnode
  exact (node_nominal hnode).1

theorem not_linear {T : Rose Label} (hn : T.label.head.tag ≠ .Nominal)
    (ht : T.label.head.tag ≠ .Tuple) : ¬ Linear D env T := by
  intro h
  obtain ⟨d, hd, -⟩ | ⟨c, hc, -⟩ := linear_iff.mp h
  · exact hn (by rw [hd]; rfl)
  · exact absurd hc (by simp [by_value_parts_other hn ht])

/-- The search of a type's components, in the store where the declarations are in place. -/
theorem search_parts (hs0 : s0.Good k) (hover : SigsOver sigs s0)
    (hg : Grows f) (hf : Searches k sigs s0 env left f) (hleft : left ≠ 65) {s1 : TyStore} (hparts : lin_parts k sigs env s t = some (s1, cs))
    (hrun : any_lin f s1 m cs = some (s', m', v)) (hfit : s'.Fits)
    (h : Searching k sigs s0 env s m stack) (habove : ∀ c, IsPart (rule sigs s0 env) (s.tree t) c →
      Above (rule sigs s0 env) (stack.map s.tree) c)
    (hvisits : Visits (rule sigs s0 env)
      (Within (rule sigs s0 env) left)
      (by_value_parts (decls sigs s0) env (s.tree t))) :
    Searching k sigs s0 env s' m' stack ∧
      (v = true ↔ ∃ c, some c ∈ by_value_parts (decls sigs s0) env (s.tree t) ∧
        Linear (decls sigs s0) env c) := by
  have hext1 := lin_parts_extends hparts
  have hfit1 := (any_lin_extends hg hrun).fits hfit
  obtain ⟨hgood, hrows⟩ := lin_parts_parts hs0 hover h.base h.good hparts hfit1
  refine any_lin_spec hg hf hleft hrun hfit (h.extends hext1 hgood) hrows ?_ hvisits
  rw [h.path_tree hext1 hgood]
  exact habove

theorem lin_body_extends {top : Bool} (hg : Grows f)
    (hrun : lin_body k sigs env f top s m t = some (s', m', v)) : s.Extends s' := by
  have hsame : ∀ {w : Bool}, some (s, m, w) = some (s', m', v) → s.Extends s' := fun heq => by
    obtain ⟨rfl, -⟩ := Prod.mk.inj (some.inj heq)
    exact .refl s
  have hsearch : ∀ {o}, (lin_parts k sigs env s t).bind o = some (s', m', v) →
      (o = fun p => any_lin f p.1 m p.2) → s.Extends s' := fun heq ho => by
    subst ho
    obtain ⟨⟨s1, cs⟩, hparts, hany⟩ := bind_eq_some_iff.mp heq
    exact (lin_parts_extends hparts).trans (any_lin_extends hg hany)
  obtain ⟨row, hrow, hrun⟩ := bind_eq_some_iff.mp hrun
  split at hrun
  · exact hsame hrun
  · exact hsame hrun
  · split at hrun
    · exact hsame hrun
    · exact hsearch hrun rfl
  · exact hsearch hrun rfl
  · exact hsame hrun

theorem lin_body_spec {top : Bool} (hs0 : s0.Good k) (hover : SigsOver sigs s0)
    (hg : Grows f) (hf : Searches k sigs s0 env left f) (hleft : left ≠ 65) (hrow : s.rows[t]? = some row)
    (hrun : lin_body k sigs env f top s m t = some (s', m', v)) (hfit : s'.Fits)
    (h : Searching k sigs s0 env s m stack) (habove : ∀ c, IsPart (rule sigs s0 env) (s.tree t) c →
      Above (rule sigs s0 env) (stack.map s.tree) c)
    (hwithin : Within (rule sigs s0 env) (left + 1) (s.tree t)) :
    Searching k sigs s0 env s' m' stack ∧
      (v = true ↔ Linear (decls sigs s0) env (s.tree t) ∨
        top = true ∧ is_rigid row = true ∧ t ∈ env.rigid_linear) := by
  have htag := (h.good.label_quals hrow).2
  rw [lin_body, hrow] at hrun
  simp only [bind_eq_bind, bind_some] at hrun
  have hother : ∀ {w : Bool}, row.tag ≠ .Nominal → row.tag ≠ .Tuple →
      some (s, m, w) = some (s', m', v) →
      (w = true ↔ top = true ∧ is_rigid row = true ∧ t ∈ env.rigid_linear) →
      Searching k sigs s0 env s' m' stack ∧
        (v = true ↔ Linear (decls sigs s0) env (s.tree t) ∨
          top = true ∧ is_rigid row = true ∧ t ∈ env.rigid_linear) := by
    intro w hnominal htuple heq hw
    obtain ⟨rfl, rfl, rfl⟩ := answer_inj heq
    refine ⟨h, hw.trans (or_iff_right ?_).symm⟩
    exact not_linear (by rwa [htag]) (by rwa [htag])
  have hparts : ∀ {s1 cs}, lin_parts k sigs env s t = some (s1, cs) →
      any_lin f s1 m cs = some (s', m', v) →
      ¬ DeclaredLinear env (s.tree t) → is_rigid row = false →
      Searching k sigs s0 env s' m' stack ∧
        (v = true ↔ Linear (decls sigs s0) env (s.tree t) ∨
          top = true ∧ is_rigid row = true ∧ t ∈ env.rigid_linear) := by
    intro s1 cs hparts hany hnot hrigid
    obtain ⟨hsearch, hv⟩ := search_parts hs0 hover hg hf hleft hparts hany hfit h habove
      (hwithin.resolve_left hnot)
    refine ⟨hsearch, hv.trans ?_⟩
    rw [linear_iff, or_iff_right hnot, hrigid]
    simp
  split at hrun
  · rename_i hkind
    exact hother (by simp [hkind]) (by simp [hkind]) hrun (by simp [is_rigid, hkind])
  · rename_i hkind
    exact hother (by simp [hkind]) (by simp [hkind]) hrun (by simp [is_rigid, hkind])
  · rename_i hkind
    have hhead := head_nominal h.good.toInv hrow hkind
    have hrigid : is_rigid row = false := by simp [is_rigid, hkind]
    split at hrun
    · rename_i hown
      obtain ⟨rfl, rfl, rfl⟩ := answer_inj hrun
      exact ⟨h, fun _ => .inl (.own ⟨row.a, hhead, hown⟩), fun _ => rfl⟩
    · rename_i hown
      obtain ⟨⟨s1, cs⟩, hrows, hany⟩ := bind_eq_some_iff.mp hrun
      refine hparts hrows hany ?_ hrigid
      rintro ⟨d, hd, hdown⟩
      rw [hhead] at hd
      obtain rfl := Head.Nominal.inj hd
      exact hown hdown
  · rename_i hkind
    have hrigid : is_rigid row = false := by simp [is_rigid, hkind]
    obtain ⟨⟨s1, cs⟩, hrows, hany⟩ := bind_eq_some_iff.mp hrun
    refine hparts hrows hany ?_ hrigid
    rintro ⟨d, hd, -⟩
    rw [hd, hkind] at htag
    cases htag
  · rename_i hparam hproj hnominal htuple
    have hrigid : is_rigid row = false := by
      rw [is_rigid, decide_eq_false_iff_not]
      rintro (h | h)
      · exact hparam h
      · exact hproj h
    refine hother hnominal htuple hrun ?_
    simp [hrigid]

theorem rigidLinear_iff (hs : s.Inv k) {twin : TyRow} (hrow : s.rows[t]? = some row)
    (htwin : s.rows[row.unqual]? = some twin) :
    RigidLinear env s t ↔ is_rigid twin = true ∧ row.unqual ∈ env.rigid_linear := by
  obtain ⟨twin', htwin', hcontent⟩ := hs.twin t row hrow
  obtain rfl : twin' = twin := some.inj (htwin'.symm.trans htwin)
  have htag : twin'.tag = row.tag := congrArg Prod.fst hcontent
  have hrigid : is_rigid twin' = is_rigid row := by rw [is_rigid, is_rigid, htag]
  rw [hrigid]
  constructor
  · rintro ⟨row', hrow', hr, hmem⟩
    obtain rfl : row = row' := some.inj (hrow.symm.trans hrow')
    exact ⟨hr, hmem⟩
  · rintro ⟨hr, hmem⟩
    exact ⟨row, hrow, hr, hmem⟩

/-- The error type is not linear. -/
theorem not_linear_error (hs : s.Inv k) (herror : HasError s) :
    ¬ (Linear D env (requal .NONE (s.tree TY_ERROR)) ∨
      left = 65 ∧ RigidLinear env s TY_ERROR) := by
  obtain ⟨row, hrow, htag⟩ := herror
  have htree : (requal .NONE (s.tree TY_ERROR)).label.head.tag = .Error := by
    have htag' := (hs.label_quals hrow).2
    rw [htag] at htag'
    cases hT : s.tree TY_ERROR
    rw [hT] at htag'
    exact htag'
  rintro (h | ⟨-, row', hrow', hrigid, -⟩)
  · exact not_linear (by simp [htree]) (by simp [htree]) h
  · obtain rfl : row = row' := some.inj (hrow.symm.trans hrow')
    simp [is_rigid, htag] at hrigid

theorem grows_lin_uncached : Grows (lin_uncached k sigs env left) := by
  induction left with
  | zero =>
    intro s m t s' m' v hrun
    obtain ⟨rfl, -⟩ := answer_inj hrun
    exact .refl s
  | succ left ih =>
    intro s m t s' m' v hrun
    rw [lin_uncached] at hrun
    split at hrun
    · obtain ⟨rfl, -⟩ := answer_inj hrun
      exact .refl s
    · obtain ⟨row, hrow, hrun⟩ := bind_eq_some_iff.mp hrun
      obtain ⟨row', hrow', hrun⟩ := bind_eq_some_iff.mp hrun
      split at hrun
      · split at hrun
        · obtain ⟨rfl, -⟩ := answer_inj hrun
          exact .refl s
        · obtain ⟨⟨s1, m1, w⟩, hbody, hrun⟩ := bind_eq_some_iff.mp hrun
          obtain ⟨rfl, -⟩ := answer_inj hrun
          exact lin_body_extends ih hbody
      · exact lin_body_extends ih hrun

/-- A search that does not give up on a linear type is right, and leaves the memo right. The memo
has no entry for a type on the path, as nothing is a part of itself. -/
theorem searches_lin_uncached (hs0 : s0.Good k) (hover : SigsOver sigs s0)
    (hacyclic : Acyclic (rule sigs s0 env)) (hleft : left ≤ 65) :
    Searches k sigs s0 env left (lin_uncached k sigs env left) := by
  induction left with
  | zero =>
    intro s m t s' m' v hrun
    obtain ⟨rfl, rfl, rfl⟩ := answer_inj hrun
    refine fun _ stack h ht habove hwithin => ⟨h, nofun, ?_⟩
    rintro (hlin | ⟨h65, -⟩)
    · exact absurd hlin hwithin
    · exact nomatch h65
  | succ left ih =>
    have hf := ih (by omega)
    intro s m t s' m' v hrun
    have hext := grows_lin_uncached s m t s' m' v hrun
    intro hfit stack h ht habove hwithin
    rw [lin_uncached] at hrun
    split at hrun
    · rename_i hnone
      obtain ⟨rfl, rfl, rfl⟩ := answer_inj hrun
      refine ⟨h, nofun, fun hlin => ?_⟩
      obtain rfl | rfl := hnone
      · exact absurd hlin (not_linear_error h.good.toInv h.error)
      · exact absurd (Nat.lt_of_lt_of_le ht hfit.rows) (Nat.lt_irrefl _)
    · obtain ⟨row, hrow, hrun⟩ := bind_eq_some_iff.mp hrun
      obtain ⟨row', hrow', hrun⟩ := bind_eq_some_iff.mp hrun
      have htwin := (h.good.tree_unqual hrow).2
      have hlt := (List.getElem?_eq_some_iff.mp hrow').1
      have htag := (h.good.label_quals hrow').2
      rw [rigidLinear_iff h.good.toInv hrow hrow', ← htwin]
      rw [← htwin] at habove hwithin
      split at hrun
      · rename_i hcache
        have hnot : ¬ is_rigid row' = true := by
          rw [is_rigid, decide_eq_true_iff]
          rcases hcache with h | h <;> simp [h]
        split at hrun
        · rename_i w hhit
          obtain ⟨rfl, rfl, rfl⟩ := answer_inj hrun
          obtain ⟨-, hpath | hright⟩ := h.memo _ _ hhit
          · exact absurd (List.mem_map_of_mem hpath) (habove.not_mem hacyclic)
          · exact ⟨h, hright.trans (by simp [hnot])⟩
        · obtain ⟨⟨s1, m1, w⟩, hbody, hrun⟩ := bind_eq_some_iff.mp hrun
          obtain ⟨rfl, rfl, rfl⟩ := answer_inj hrun
          obtain ⟨hsearch, hv⟩ := lin_body_spec hs0 hover grows_lin_uncached hf (by omega)
            hrow' hbody hfit (h.enter hlt false) (fun c hc => habove.push hc) hwithin
          have hv : w = true ↔ Linear (decls sigs s0) env (s.tree row.unqual) :=
            hv.trans (by simp [hnot])
          refine ⟨hsearch.leave ?_, hv.trans (by simp [hnot])⟩
          rw [Right, h.good.tree_extends hext hsearch.good.toInv hlt]
          exact hv
      · rename_i hcache
        have hparts : by_value_parts (decls sigs s0) env (s.tree row.unqual) = [] := by
          refine by_value_parts_other ?_ ?_
          · rw [htag]
            exact fun h => hcache (.inl h)
          · rw [htag]
            exact fun h => hcache (.inr h)
        have hnone : ∀ c, IsPart (rule sigs s0 env) (s.tree row.unqual) c →
            Above (rule sigs s0 env) (stack.map s.tree) c := fun c hc => by
          rw [IsPart, show (rule sigs s0 env).parts (s.tree row.unqual) = [] from hparts] at hc
          exact absurd hc List.not_mem_nil
        obtain ⟨hsearch, hv⟩ :=
          lin_body_spec hs0 hover grows_lin_uncached hf (by omega) hrow' hrun hfit h hnone hwithin
        have htop : left = 64 ↔ left + 1 = 65 := by omega
        refine ⟨hsearch, hv.trans ?_⟩
        rw [decide_eq_true_iff, htop]

end Fors.Ty
