import Fors.Query.Cancel

/-!
# Planning

"Whether demanding `key` now would re-execute it": `is_red` walks the recorded edges of the node.  The
walk pulls every edge, and a pull executes what is out of date.  It is a pure plan exactly when each
edge it pulls leads to a node that can be brought up to date without an execution.

Principal result: `is_red_plans`.
-/

namespace Fors.Query

open List

section Wide

attribute [local instance] Ids.wide

namespace Db

variable (db : Db)

/-- A node that answers without an execution, by the edges recorded below it: an input, a node that
is up to date, or one whose edges all lead to such nodes, none of them changed since it was
verified. -/
def FreshIn : Nat → Nat → Prop
  | 0, i => (db.row i).is_input = true ∨ db.UpToDate i
  | h + 1, i => FreshIn h i ∨ (db.row i).state = .valid ∧
      ∀ d ∈ db.range (db.row i), FreshIn h d ∧ (db.row d).changed_at ≤ (db.row i).verified_at

def Fresh (i : Nat) : Prop :=
  ∃ h, db.FreshIn h i

/-- The walk over the edges `ds` of a node that was verified at `verified` needs no execution, and
it ends with `changed`. -/
def WalkPlans (verified : Nat) (ds : List Nat) (changed : Bool) : Prop :=
  ∃ pre rest, ds = pre ++ rest ∧ changed = !rest.isEmpty ∧
    (∀ d ∈ pre, db.Fresh d ∧ (db.row d).changed_at ≤ verified) ∧
    ∀ d, rest.head? = some d → db.Fresh d ∧ verified < (db.row d).changed_at

/-- `is_red` of the key needs no execution. -/
def Plans (key : QueryKey) : Prop :=
  ∀ i, db.find? key = some i → db.Open i → (db.row i).state = .valid →
    ∃ changed, db.WalkPlans (db.row i).verified_at (db.range (db.row i)) changed

variable {db}

theorem FreshIn.mono {h h' i : Nat} (hle : h ≤ h') (hi : db.FreshIn h i) : db.FreshIn h' i := by
  induction hle with
  | refl => exact hi
  | step _ ih => exact .inl ih

/-- A fresh node that is open has a height, and its edges lead below. -/
theorem FreshIn.exists_height {h i : Nat} (hi : db.FreshIn h i) (ho : db.Open i) :
    ∃ l < h, ¬ db.FreshIn l i ∧ (db.row i).state = .valid ∧
      ∀ d ∈ db.range (db.row i), db.FreshIn l d ∧ (db.row d).changed_at ≤ (db.row i).verified_at := by
  induction h with
  | zero =>
    rcases hi with hin | hup
    · rw [ho.1] at hin
      cases hin
    · exact absurd hup ho.2
  | succ h ih =>
    by_cases hbelow : db.FreshIn h i
    · obtain ⟨l, hl, hrest⟩ := ih hbelow
      exact ⟨l, by omega, hrest⟩
    · exact ⟨h, Nat.lt_succ_self h, hbelow, hi.resolve_left hbelow⟩

/-- A walk over the edges `ds`: past those that `stay`, to the first that `leave`s, if any. -/
inductive Walk (stay leave : Nat → Prop) : List Nat → Bool → Prop
  | done : Walk stay leave [] false
  | stay {d ds changed} (hd : stay d) (hrest : Walk stay leave ds changed) :
    Walk stay leave (d :: ds) changed
  | leave {d ds} (hd : leave d) : Walk stay leave (d :: ds) true

namespace Walk

variable {stay leave stay' leave' : Nat → Prop} {ds : List Nat} {changed : Bool}

theorem iff_split : Walk stay leave ds changed ↔ ∃ pre rest, ds = pre ++ rest ∧
    changed = !rest.isEmpty ∧ (∀ d ∈ pre, stay d) ∧ ∀ d, rest.head? = some d → leave d := by
  constructor
  · intro h
    induction h with
    | done => exact ⟨[], [], rfl, rfl, nofun, nofun⟩
    | stay hd _ ih =>
      obtain ⟨pre, rest, rfl, hchanged, hpre, hrest⟩ := ih
      exact ⟨_ :: pre, rest, rfl, hchanged, forall_mem_cons.mpr ⟨hd, hpre⟩, hrest⟩
    | leave hd => exact ⟨[], _ :: _, rfl, rfl, nofun, fun d hd' => by cases hd'; exact hd⟩
  · rintro ⟨pre, rest, rfl, rfl, hpre, hrest⟩
    induction pre with
    | nil =>
      cases rest with
      | nil => exact .done
      | cons d rest => exact .leave (hrest d rfl)
    | cons d pre ih =>
      obtain ⟨hd, hpre⟩ := forall_mem_cons.mp hpre
      exact .stay hd (ih hpre)

theorem mono (h : Walk stay leave ds changed) (hs : ∀ d ∈ ds, stay d → stay' d)
    (hl : ∀ d ∈ ds, leave d → leave' d) : Walk stay' leave' ds changed := by
  induction h with
  | done => exact .done
  | stay hd _ ih =>
    exact .stay (hs _ mem_cons_self hd) (ih (fun d hd => hs d (mem_cons_of_mem _ hd))
      fun d hd => hl d (mem_cons_of_mem _ hd))
  | leave hd => exact .leave (hl _ mem_cons_self hd)

theorem of_forall (h : ∀ d ∈ ds, stay d) : Walk stay leave ds false :=
  iff_split.mpr ⟨ds, [], (append_nil _).symm, rfl, h, nofun⟩

theorem forall_stay (h : Walk stay leave ds changed) (hchanged : changed = false) :
    ∀ d ∈ ds, stay d := by
  induction h with
  | done => exact nofun
  | stay hd _ ih => exact forall_mem_cons.mpr ⟨hd, ih hchanged⟩
  | leave => cases hchanged

end Walk

/-- The walk of a node that was verified at `verified`, over nodes that are fresh at height `h`. -/
def WalkIn (h verified : Nat) : List Nat → Bool → Prop :=
  Walk (fun d => db.FreshIn h d ∧ (db.row d).changed_at ≤ verified)
    fun d => db.FreshIn h d ∧ verified < (db.row d).changed_at

/-- The walk over fresh nodes has a height. -/
theorem WalkPlans.exists_walkIn {verified : Nat} {ds : List Nat} {changed : Bool}
    (h : db.WalkPlans verified ds changed) : ∃ h, db.WalkIn h verified ds changed := by
  induction Walk.iff_split.mpr h with
  | done => exact ⟨0, .done⟩
  | stay hd hrest ih =>
    obtain ⟨⟨h1, hd⟩, hle⟩ := hd
    obtain ⟨h2, ih⟩ := ih (Walk.iff_split.mp hrest)
    exact ⟨max h1 h2, .stay ⟨hd.mono (Nat.le_max_left h1 h2), hle⟩
      (ih.mono (fun _ _ hd => ⟨hd.1.mono (Nat.le_max_right h1 h2), hd.2⟩)
        fun _ _ hd => ⟨hd.1.mono (Nat.le_max_right h1 h2), hd.2⟩)⟩
  | leave hd =>
    obtain ⟨⟨h, hd⟩, hlt⟩ := hd
    exact ⟨h, .leave ⟨hd, hlt⟩⟩

/-- A node whose edges all lead to fresh nodes that have not changed. -/
theorem fresh_of_edges {i : Nat} (hv : (db.row i).state = .valid)
    (h : ∀ d ∈ db.range (db.row i), db.Fresh d ∧ (db.row d).changed_at ≤ (db.row i).verified_at) :
    db.Fresh i := by
  obtain ⟨h, hwalk⟩ := WalkPlans.exists_walkIn (Walk.iff_split.mp (Walk.of_forall h))
  exact ⟨h + 1, .inr ⟨hv, hwalk.forall_stay rfl⟩⟩

/-- The walk of an open node that needs no execution stays below the node. -/
theorem WalkPlans.exists_height {i : Nat} {changed : Bool} (ho : db.Open i)
    (h : db.WalkPlans (db.row i).verified_at (db.range (db.row i)) changed) :
    ∃ l, ¬ db.FreshIn l i ∧ db.WalkIn l (db.row i).verified_at (db.range (db.row i)) changed := by
  obtain ⟨h, hwalk⟩ := h.exists_walkIn
  by_cases hfresh : db.FreshIn h i
  · -- a fresh node's edges are unchanged
    obtain ⟨l, -, hnot, -, hdeps⟩ := hfresh.exists_height ho
    exact ⟨l, hnot, hwalk.mono (fun d hd _ => hdeps d hd)
      fun d hd hlt => absurd hlt.2 (Nat.not_lt_of_le (hdeps d hd).2)⟩
  · exact ⟨h, hfresh, hwalk⟩

theorem SameRows.freshIn_iff {db' : Db} (hs : SameRows db db') (hrev : db'.rev = db.rev) :
    ∀ {h i : Nat}, db'.FreshIn h i ↔ db.FreshIn h i
  | 0, i => by
    unfold FreshIn UpToDate
    rw [hs.row, hrev]
  | h + 1, i => by
    unfold FreshIn
    rw [hs.row, hs.range, hs.freshIn_iff hrev]
    simp [hs.row, hs.freshIn_iff hrev]

theorem SameRows.plans_iff {db' : Db} (hs : SameRows db db') (hrev : db'.rev = db.rev)
    (key : QueryKey) : db'.Plans key ↔ db.Plans key := by
  unfold Plans WalkPlans Fresh Open UpToDate
  simp [hs.find?, hs.row, hs.range, hrev, hs.freshIn_iff hrev]

end Db

/-! ## Stamping -/

/-- From `e0` to `e` nodes have been stamped, and that is all: the calls, the index, the arena and the
executed keys are the same, and a row that differs is a fresh one, verified now. -/
structure Stamped (e0 e : Engine) : Prop where
  rev : e.db.rev = e0.db.rev
  index : e.db.index = e0.db.index
  length : e.db.nodes.length = e0.db.nodes.length
  deps : e.db.deps = e0.db.deps
  row : ∀ i, e.db.row i = e0.db.row i ∨
    e0.db.Fresh i ∧ e.db.UpToDate i ∧ e.db.row i = { e0.db.row i with verified_at := e0.db.rev }
  executed : e.db.executed = e0.db.executed
  answers : e.db.cancel.answers = e0.db.cancel.answers
  calls : e.calls = e0.calls

namespace Stamped

variable {e0 e e' : Engine}

theorem refl (e : Engine) : Stamped e e :=
  ⟨rfl, rfl, rfl, rfl, fun _ => .inl rfl, rfl, rfl, rfl⟩

theorem find? (h : Stamped e0 e) (key : QueryKey) : e.db.find? key = e0.db.find? key := by
  unfold Db.find?
  rw [h.index]

/-- What a stamp leaves alone. -/
theorem columns (h : Stamped e0 e) (i : Nat) : (e.db.row i).key = (e0.db.row i).key ∧
    e.db.answer i = e0.db.answer i ∧ (e.db.row i).is_input = (e0.db.row i).is_input ∧
    (e.db.row i).state = (e0.db.row i).state ∧
    e.db.range (e.db.row i) = e0.db.range (e0.db.row i) := by
  unfold Db.answer Db.range
  rw [h.deps]
  rcases h.row i with hrow | ⟨-, -, hrow⟩
  · rw [hrow]
    exact ⟨rfl, rfl, rfl, rfl, rfl⟩
  · rw [hrow]
    exact ⟨rfl, rfl, rfl, rfl, rfl⟩

/-- A node that is open has not been stamped. -/
theorem open_row (h : Stamped e0 e) {i : Nat} (ho : e.db.Open i) :
    e.db.row i = e0.db.row i ∧ e0.db.Open i := by
  have hrow : e.db.row i = e0.db.row i := (h.row i).resolve_right fun hw => ho.2 hw.2.1
  exact ⟨hrow, ho.of_row hrow.symm h.rev.symm⟩

theorem fresh_of_upToDate (h : Stamped e0 e) {i : Nat} (hu : e.db.UpToDate i) : e0.db.Fresh i := by
  rcases h.row i with hrow | ⟨hfresh, -⟩
  · refine ⟨0, .inr ?_⟩
    unfold Db.UpToDate at hu ⊢
    rwa [hrow, h.rev] at hu
  · exact hfresh

/-- The same columns. -/
theorem same (h : Stamped e0 e) (hs : Db.SameRows e.db e'.db) (hrev : e'.db.rev = e.db.rev)
    (hexecuted : e'.db.executed = e.db.executed)
    (hanswers : e'.db.cancel.answers = e.db.cancel.answers) (hcalls : e'.calls = e.calls) :
    Stamped e0 e' where
  rev := hrev.trans h.rev
  index := hs.index.trans h.index
  length := by rw [hs.nodes, h.length]
  deps := hs.deps.trans h.deps
  row i := by
    have hup : e'.db.UpToDate i ↔ e.db.UpToDate i := by
      unfold Db.UpToDate
      rw [hs.row, hrev]
    rw [hs.row, hup]
    exact h.row i
  executed := hexecuted.trans h.executed
  answers := hanswers.trans h.answers
  calls := hcalls.trans h.calls

theorem charge (h : Stamped e0 e) (f : Stats → Stats) : Stamped e0 ⟨e.db.charge f, e.calls⟩ :=
  h.same (Db.sameRows_charge e.db f) rfl rfl rfl rfl

theorem polled (h : Stamped e0 e) : Stamped e0 ⟨e.db.polled, e.calls⟩ :=
  h.same (Db.sameRows_polled e.db) rfl rfl rfl rfl

theorem push (h : Stamped e0 e) (f : Frame) : Stamped e0 ⟨e.db.push f, e.calls⟩ :=
  h.same (Db.sameRows_push e.db f) rfl rfl rfl rfl

theorem pop (h : Stamped e0 e) : Stamped e0 ⟨e.db.pop, e.calls⟩ :=
  h.same (Db.sameRows_pop e.db) rfl rfl rfl rfl

/-- Stamping one fresh node. -/
theorem stamp (h : Stamped e0 e) {i : Nat} (hi : i < e.db.nodes.length) (ho : e.db.Open i)
    (hv : (e.db.row i).state = .valid) (hfresh : e0.db.Fresh i) :
    Stamped e0 ⟨e.db.set_row i { e.db.row i with verified_at := e.db.rev }, e.calls⟩ where
  rev := h.rev
  index := h.index
  length := by
    show (e.db.nodes.set i _).length = _
    rw [length_set, h.length]
  deps := h.deps
  row j := by
    show (e.db.set_row i _).row j = _ ∨ e0.db.Fresh j ∧ (e.db.set_row i _).UpToDate j ∧
      (e.db.set_row i _).row j = _
    by_cases hj : j = i
    · subst hj
      refine .inr ⟨hfresh, ?_, ?_⟩
      · unfold Db.UpToDate
        rw [Db.row_set_row_self hi]
        exact ⟨hv, rfl⟩
      · rw [Db.row_set_row_self hi, (h.open_row ho).1, h.rev]
    · unfold Db.UpToDate
      rw [Db.row_set_row_ne hj]
      exact h.row j
  executed := h.executed
  answers := h.answers
  calls := h.calls

end Stamped

/-- The engine once a call has polled the flag and probed a node there is. -/
def Engine.probed (e : Engine) : Engine :=
  ⟨e.db.polled.charge fun s => { s with probes := s.probes + 1 }, e.calls⟩

theorem probed_coherent {e : Engine} (hc : e.db.Coherent) : e.probed.db.Coherent :=
  (hc.same (Db.sameRows_polled _) rfl rfl).same
    (Db.sameRows_charge _ fun s => { s with probes := s.probes + 1 }) rfl rfl

theorem Engine.AtRest.charge {e : Engine} (h : e.AtRest) (f : Stats → Stats) :
    Engine.AtRest ⟨e.db.charge f, e.calls⟩ :=
  ⟨h.1.same (Db.sameRows_charge e.db f) rfl rfl, h.2⟩

theorem Engine.AtRest.polled {e : Engine} (h : e.AtRest) :
    Engine.AtRest ⟨e.db.polled, e.calls⟩ :=
  ⟨h.1.same (Db.sameRows_polled e.db) rfl rfl, h.2⟩

theorem Engine.AtRest.probed {e : Engine} (h : e.AtRest) : e.probed.AtRest :=
  h.polled.charge _

theorem Engine.AtRest.flight {e : Engine} (h : e.AtRest) : e.db.flight = [] := by
  unfold Db.flight
  rw [h.2]
  rfl

theorem Stamped.probed {e0 e : Engine} (h : Stamped e0 e) : Stamped e0 e.probed :=
  h.polled.charge _

/-- A poll from `e` to `e'` found the flag set. -/
def Polled (e e' : Engine) : Prop :=
  ∃ n, e.db.cancel.polls ≤ n ∧ n < e'.db.cancel.polls ∧ e.db.cancel.answers n = true

variable {e1 : Engine}

theorem Polled.mono {e e2 e' : Engine} (h : Polled e1 e2)
    (hanswers : e1.db.cancel.answers = e.db.cancel.answers)
    (hle : e.db.cancel.polls ≤ e1.db.cancel.polls) (hle' : e2.db.cancel.polls ≤ e'.db.cancel.polls) :
    Polled e e' := by
  obtain ⟨n, hn, hn', hset⟩ := h
  exact ⟨n, hle.trans hn, hn'.trans_le hle', hanswers ▸ hset⟩

/-! ## Pulling fresh nodes -/

/-- What a part of a walk over fresh nodes does: it stamps, and it gives up only when the flag is
set; what it answers is `out`. -/
structure Walked {α : Type} (e0 e : Engine) (out : α) (r : Except Cancelled α) (e' : Engine) :
    Prop where
  stamped : Stamped e0 e'
  ok : ∀ a, r = .ok a → a = out
  err : ∀ c, r = .error c → Polled e e'

/-- The engine inside a walk over the nodes of `e0` that are fresh at `h`: no node in flight is one. -/
structure Below (e0 : Engine) (h : Nat) (e : Engine) : Prop where
  coherent : e.db.Coherent
  stamped : Stamped e0 e
  flight : ∀ f ∈ e.db.flight, ¬ e0.db.FreshIn h f

/-- A pull of a fresh node comes back when the depth is more than its height. -/
def FreshPull (e0 : Engine) (depth : Nat) (P : Puller) : Prop :=
  ∀ ⦃h i e⦄, Below e0 h e → i < e0.db.nodes.length → e0.db.FreshIn h i →
    Meets (h < depth) (fun p => Walked e0 e (e0.db.answer i) p.1 p.2) (P (e0.db.row i).key false e)

/-- The edges of an open node are in the arena. -/
theorem Stamped.arena_le {e0 e : Engine} (hc : e.db.Coherent) (hs : Stamped e0 e) {i : Nat}
    (hi : i < e0.db.nodes.length) (ho : e.db.Open i) :
    (e0.db.row i).dep_start + 0 + (e0.db.row i).dep_len ≤ e0.db.deps.length := by
  have hle := hc.wf.range_le (hs.length ▸ hi)
  rw [(hs.open_row ho).1, hs.deps] at hle
  omega

/-- The walk of an open node that ends green stamps it. -/
theorem Stamped.green {e0 e : Engine} {W : Nat → Prop} {P : Puller} (hk : Keeps W P)
    (hc : e.db.Coherent) (hs : Stamped e0 e) {i : Nat} (hi : i < e0.db.nodes.length)
    (ho : e.db.Open i) (hv : (e0.db.row i).state = .valid)
    (hwalk : WalksOf P i e (.ok false) e1) (hs1 : Stamped e0 e1) (hfresh : e0.db.Fresh i)
    (f : Stats → Stats) :
    Stamped e0 ⟨(e1.db.pop.set_row i { e1.db.pop.row i with verified_at := e1.db.pop.rev }).charge f,
      e1.calls⟩ := by
  have hrow := (walk_ran hk hc (hs.length ▸ hi) hwalk).2.2
  have ho1 : e1.db.pop.Open i := ho.of_row hrow (hs1.rev.trans hs.rev.symm)
  have hv1 : (e1.db.pop.row i).state = .valid :=
    (congrArg Node.state (hrow.trans (hs.open_row ho).1)).trans hv
  exact (hs1.pop.stamp (by rw [hs1.pop.length]; exact hi) ho1 hv1 hfresh).charge f

section FreshPull

variable {e0 : Engine} {W : Nat → Prop} {P : Puller} {q : Queries} {depth : Nat} (hk : Keeps W P)
  (hP : FreshPull e0 depth P)
include hk hP

variable {h : Nat}

theorem verify_deps_fresh {verified s : Nat} {changed : Bool} {l j : Nat} {e : Engine}
    (hb : Below e0 h e)
    (hwalk : e0.db.WalkIn h verified ((e0.db.deps.drop (s + j)).take l) changed)
    (hlen : s + j + l ≤ e0.db.deps.length) :
    Meets (h < depth) (fun p => Walked e0 e changed p.1 p.2) (verify_deps P verified s l j e) := by
  induction l generalizing j e with
  | zero =>
    cases hwalk
    exact ⟨hb.stamped, fun a ha => (Except.ok.inj ha).symm, fun _ h => by cases h⟩
  | succ l ih =>
    have hlt : s + j < e0.db.deps.length := by omega
    have hdep : e.db.deps[s + j]? = some (e0.db.deps[s + j]) := by
      rw [hb.stamped.deps, getElem?_eq_getElem hlt]
    unfold verify_deps
    rw [hdep]
    dsimp only
    rw [drop_eq_getElem_cons hlt, take_succ_cons] at hwalk
    have hmem : e0.db.deps[s + j] ∈ e.db.deps := mem_of_getElem? hdep
    generalize e0.db.deps[s + j] = dep at hwalk hmem ⊢
    have hdep_lt : dep < e0.db.nodes.length := hb.stamped.length ▸ hb.coherent.wf.dep_lt hmem
    rw [(hb.stamped.columns dep).1]
    -- the first edge that is pulled is fresh, whether or not it changed
    have hfresh : e0.db.FreshIn h dep := by
      cases hwalk with
      | stay hd _ => exact hd.1
      | leave hd => exact hd.1
    rcases (hP hb hdep_lt hfresh).elim with ⟨⟨r, e1⟩, hpull, hw⟩ | ⟨hpull, hn⟩
    swap
    · rw [hpull]
      exact hn
    rw [hpull]
    cases r with
    | error c => exact ⟨hw.stamped, fun _ h => (by cases h), fun c hc => hw.err _ rfl⟩
    | ok a =>
      obtain rfl := hw.ok a rfl
      have hran := hk hb.coherent hpull
      dsimp only
      cases hwalk with
      | leave hd =>
        have hchanged : (e0.db.answer dep).changed_at > verified := hd.2
        rw [if_pos hchanged]
        exact ⟨hw.stamped, fun a ha => (Except.ok.inj ha).symm, fun _ h => by cases h⟩
      | stay hd hrest =>
        have hsame : ¬ (e0.db.answer dep).changed_at > verified := Nat.not_lt_of_le hd.2
        rw [if_neg hsame]
        refine (ih (j := j + 1)
          ⟨hran.coherent, hw.stamped, hran.flight_eq ▸ hb.flight⟩ hrest (by omega)).mono id
          fun p hrec => ⟨hrec.stamped, hrec.ok, fun c hc => ?_⟩
        exact (hrec.err c hc).mono hran.answers hran.polls (Nat.le_refl _)

/-- The walk of an open node whose edges are fresh below it. -/
theorem verify_fresh {i : Nat} {e : Engine} {changed : Bool} (hb : Below e0 h e)
    (hi : i < e0.db.nodes.length) (ho : e.db.Open i) (hv : (e0.db.row i).state = .valid)
    (hnot : ¬ e0.db.FreshIn h i)
    (hwalk : e0.db.WalkIn h (e0.db.row i).verified_at (e0.db.range (e0.db.row i)) changed) :
    Meets (h < depth) (fun p => Walked e0 e (!changed) p.1 p.2) (verify P i e) := by
  obtain ⟨hc, hs, hfl⟩ := hb
  obtain ⟨hrow, -⟩ := hs.open_row ho
  have hpush : Below e0 h ⟨e.db.push ⟨i, [], false⟩, e.calls⟩ :=
    ⟨hc.push (hs.length ▸ hi) false, hs.push _, forall_mem_cons.mpr ⟨hnot, hfl⟩⟩
  unfold verify
  dsimp only
  rw [hrow, if_neg (fun hne => hne hv)]
  rcases (verify_deps_fresh hk hP hpush hwalk (hs.arena_le hc hi ho)).elim with
    ⟨⟨r, e1⟩, hdeps, hw⟩ | ⟨hdeps, hn⟩
  swap
  · rw [hdeps]
    exact hn
  rw [hdeps]
  cases r with
  | error c => exact ⟨hw.stamped.pop, nofun, fun c hc => hw.err _ rfl⟩
  | ok b =>
    obtain rfl := hw.ok b rfl
    cases b with
    | true => exact ⟨hw.stamped.pop.charge _, fun a ha => (Except.ok.inj ha).symm, nofun⟩
    | false =>
      have hwalks : WalksOf P i e (.ok false) e1 := by
        unfold WalksOf
        rw [hrow]
        exact walks hdeps
      exact ⟨.green hk hc hs hi ho hv hwalks hw.stamped ⟨h + 1, .inr ⟨hv, hwalk.forall_stay rfl⟩⟩ _,
        fun a ha => (Except.ok.inj ha).symm, nofun⟩

theorem resolve_fresh {i : Nat} {e : Engine} {key : QueryKey} (hb : Below e0 h e)
    (hi : i < e0.db.nodes.length) (hfresh : e0.db.FreshIn h i) :
    Meets (h < depth + 1) (fun p => Walked e0 e (e0.db.answer i) p.1 p.2) (resolve q P key i e) := by
  have hs := hb.stamped
  have hanswer := (hs.columns i).2.1
  unfold resolve
  dsimp only
  split
  · rename_i hin
    rw [if_pos (hb.coherent.wf.input_valid (hs.length ▸ hi) hin)]
    exact ⟨hs.charge _, fun a ha => (Except.ok.inj ha).symm.trans hanswer, nofun⟩
  rename_i hin
  split
  · exact ⟨hs.charge _, fun a ha => (Except.ok.inj ha).symm.trans hanswer, nofun⟩
  rename_i hup
  have ho : e.db.Open i := ⟨(Bool.not_eq_true _).mp hin, hup⟩
  split
  · -- a node in flight stands above the fresh ones
    rename_i hflight
    exact absurd hfresh (hb.flight i (Db.in_flight_iff.mp hflight))
  obtain ⟨l, hl, hnot, hv, hdeps⟩ := hfresh.exists_height (hs.open_row ho).2
  have hwalk : e0.db.WalkIn l (e0.db.row i).verified_at (e0.db.range (e0.db.row i)) false :=
    .of_forall hdeps
  have hlow : Below e0 l e :=
    ⟨hb.coherent, hs, fun f hf hlow => hb.flight f hf (hlow.mono (Nat.le_of_lt hl))⟩
  rcases (verify_fresh hk hP hlow hi ho hv hnot hwalk).elim with ⟨⟨r, e1⟩, hver, hw⟩ | ⟨hver, hn⟩
  · rw [hver]
    cases r with
    | error c => exact ⟨hw.stamped, nofun, fun c hc => hw.err _ rfl⟩
    | ok green =>
      obtain rfl : green = true := hw.ok green rfl
      exact ⟨hw.stamped, fun a ha => (Except.ok.inj ha).symm.trans (hw.stamped.columns i).2.1, nofun⟩
  · rw [hver]
    exact fun hlt => hn (by omega)

end FreshPull

variable {key : QueryKey} {i : Nat}

/-- The probe of a node there is. -/
theorem probe_found {e : Engine} (h : e.db.find? key = some i) :
    e.db.polled.probe key false = (i, e.probed.db) := by
  have hintern : e.db.polled.intern key = (i, e.db.polled) := Db.intern_eq_of_find key h
  unfold Db.probe
  rw [hintern]
  rfl

theorem fresh_pull (q : Queries) (e0 : Engine) (fuel : Nat) : FreshPull e0 fuel (pull q fuel) := by
  induction fuel with
  | zero => exact fun h _ _ _ _ _ => Nat.not_lt_zero h
  | succ fuel ih =>
    intro h i e hb hi hfresh
    have hfind : e.db.find? (e0.db.row i).key = some i := by
      rw [← (hb.stamped.columns i).1]
      exact hb.coherent.wf.find_row (hb.stamped.length ▸ hi)
    unfold pull pull_body
    dsimp only
    split
    · rename_i hset
      exact ⟨hb.stamped.polled.charge _, fun _ h => (by cases h),
        fun _ _ => ⟨_, Nat.le_refl _, Nat.lt_succ_self _, hset⟩⟩
    · rw [probe_found hfind]
      refine (resolve_fresh (keeps_pull q fuel) ih
        ⟨probed_coherent hb.coherent, hb.stamped.probed, hb.flight⟩ hi hfresh).mono id fun p hw =>
        ⟨hw.stamped, hw.ok, fun c hc => ?_⟩
      exact (hw.err c hc).mono rfl (Nat.le_succ _) (Nat.le_refl _)

/-- The walk of a node at rest that needs no execution comes back. -/
theorem verify_walked (q : Queries) {e0 e : Engine} (hs : e.AtRest) (hst : Stamped e0 e)
    (hi : i < e0.db.nodes.length) (ho : e.db.Open i) (hv : (e0.db.row i).state = .valid)
    {changed : Bool}
    (hwalk : e0.db.WalkPlans (e0.db.row i).verified_at (e0.db.range (e0.db.row i)) changed) :
    ∃ n, ∀ fuel, Meets (n ≤ fuel) (fun p => Walked e0 e (!changed) p.1 p.2)
      (verify (pull q fuel) i e) := by
  obtain ⟨l, hnot, hwalk⟩ := hwalk.exists_height (hst.open_row ho).2
  have hb : Below e0 l e := ⟨hs.1, hst, by rw [hs.flight]; exact nofun⟩
  exact ⟨l + 1, fun fuel => verify_fresh (keeps_pull q fuel) (fresh_pull q e0 fuel) hb hi ho hv hnot
    hwalk⟩

/-! ## Walks that execute nothing -/

/-- No computation ran from `e` to `e'`. -/
def Silent (e e' : Engine) : Prop :=
  computed e'.calls = computed e.calls

theorem computed_suffix {cs cs' : List Call} (h : cs <:+ cs') : computed cs <:+ computed cs' := by
  obtain ⟨new, rfl⟩ := h
  exact ⟨computed new, (computed_append new cs).symm⟩

theorem Silent.split {e e' : Engine} (h : Silent e e') (hle : e.calls <:+ e1.calls)
    (hle' : e1.calls <:+ e'.calls) : Silent e e1 ∧ Silent e1 e' := by
  have hfirst : computed e1.calls = computed e.calls := by
    have hlen := (computed_suffix hle').length_le
    rw [h] at hlen
    exact ((computed_suffix hle).eq_of_length_le hlen).symm
  exact ⟨hfirst, h.trans hfirst.symm⟩

theorem Silent.not_computed {e e' : Engine} {db : Db} (h : Silent e e')
    (hle : e.calls <:+ e1.calls) (hle' : .compute key db :: e1.calls <:+ e'.calls) : False := by
  have hlen := (computed_suffix hle').length_le
  have hlen' := (computed_suffix hle).length_le
  rw [h, computed_cons, length_cons] at hlen
  omega

/-- A pull that executed nothing found a fresh node, or one in flight. -/
def QuietPull (e0 : Engine) (P : Puller) : Prop :=
  ∀ ⦃i e a e'⦄, e.db.Coherent → Stamped e0 e → i < e0.db.nodes.length →
    P (e0.db.row i).key false e = .ok (.ok a, e') → Silent e e' →
    Stamped e0 e' ∧ e0.db.Fresh i ∧ a = e0.db.answer i ∨
      i ∈ e.db.flight ∧ a.changed_at = e0.db.rev

section QuietPull

variable {e0 : Engine} {W : Nat → Prop} {P : Puller} {q : Queries} (hk : Keeps W P)
  (hP : QuietPull e0 P)
include hk hP

theorem verify_deps_quiet {verified s l j : Nat} (hlt : verified < e0.db.rev) {e e' : Engine}
    {r : Except Cancelled Bool} {b : Bool} (hc : e.db.Coherent) (hs : Stamped e0 e)
    (hlen : s + j + l ≤ e0.db.deps.length) (hv : Walks P verified s l j e r e') (hr : r = .ok b)
    (hq : Silent e e') :
    Db.Walk (fun d => e0.db.Fresh d ∧ (e0.db.row d).changed_at ≤ verified)
        (fun d => e0.db.Fresh d ∧ verified < (e0.db.row d).changed_at ∨ d ∈ e.db.flight)
        ((e0.db.deps.drop (s + j)).take l) b ∧ (b = false → Stamped e0 e') := by
  have hedge : ∀ {l j dep} {e : Engine}, e.db.Coherent → Stamped e0 e →
      s + j + (l + 1) ≤ e0.db.deps.length → e.db.deps[s + j]? = some dep →
      (e0.db.deps.drop (s + j)).take (l + 1) = dep :: (e0.db.deps.drop (s + (j + 1))).take l ∧
        dep < e0.db.nodes.length ∧ (e.db.row dep).key = (e0.db.row dep).key := by
    intro l j dep e hc hs hlen hdep
    refine ⟨?_, hs.length ▸ hc.wf.dep_lt (mem_of_getElem? hdep), (hs.columns dep).1⟩
    rw [hs.deps] at hdep
    obtain ⟨hj, rfl⟩ := List.getElem?_eq_some_iff.mp hdep
    rw [drop_eq_getElem_cons hj, take_succ_cons]
    rfl
  induction hv with
  | done =>
    cases hr
    exact ⟨.done, fun _ => hs⟩
  | error => cases hr
  | changed hdep hpull hgt =>
    cases hr
    obtain ⟨hds, hdep_lt, hkey⟩ := hedge hc hs hlen hdep
    rw [hkey] at hpull
    rw [hds]
    refine ⟨.leave ?_, nofun⟩
    rcases hP hc hs hdep_lt hpull hq with ⟨-, hfresh, rfl⟩ | ⟨hfl, -⟩
    · exact .inl ⟨hfresh, hgt⟩
    · exact .inr hfl
  | unchanged hdep hpull hle hrest ih =>
    obtain ⟨hds, hdep_lt, hkey⟩ := hedge hc hs hlen hdep
    rw [hkey] at hpull
    rw [hds]
    have hran := hk hc hpull
    obtain ⟨hq1, hq2⟩ := hq.split hran.calls (verify_deps_ran hk hran.coherent hrest).calls
    rcases hP hc hs hdep_lt hpull hq1 with ⟨hs1, hfresh, rfl⟩ | ⟨-, hrev⟩
    · obtain ⟨hwalk, hstamped⟩ := ih hran.coherent hs1 (by omega) hr hq2
      rw [hran.flight_eq] at hwalk
      exact ⟨.stay ⟨hfresh, hle⟩ hwalk, hstamped⟩
    · -- what a node in flight answers has changed now
      omega

/-- The walk of an open node that executes nothing. -/
theorem verify_quiet {i : Nat} {e e' : Engine} {b : Bool} (hc : e.db.Coherent) (hs : Stamped e0 e)
    (hi : i < e0.db.nodes.length) (ho : e.db.Open i) (hv : (e0.db.row i).state = .valid)
    (hver : verify P i e = .ok (.ok b, e')) (hq : Silent e e') :
    Db.Walk (fun d => e0.db.Fresh d ∧ (e0.db.row d).changed_at ≤ (e0.db.row i).verified_at)
        (fun d => e0.db.Fresh d ∧ (e0.db.row i).verified_at < (e0.db.row d).changed_at ∨
          d = i ∨ d ∈ e.db.flight) (e0.db.range (e0.db.row i)) (!b) ∧
      (b = true → Stamped e0 e' ∧ e0.db.Fresh i) := by
  have hi' : i < e.db.nodes.length := hs.length ▸ hi
  obtain ⟨hrow, ho0⟩ := hs.open_row ho
  have hlt : (e0.db.row i).verified_at < e0.db.rev := by
    have hle := hc.stamp_le hi'
    rw [hrow, hs.rev] at hle
    exact Nat.lt_of_le_of_ne hle fun heq => ho0.2 ⟨hv, heq⟩
  have hdeps : ∀ {b1 e1}, WalksOf P i e (.ok b1) e1 → Silent e e1 → _ := fun hw hq1 => by
    unfold WalksOf at hw
    rw [hrow] at hw
    exact verify_deps_quiet hk hP hlt (hc.push hi' false) (hs.push _) (hs.arena_le hc hi ho) hw rfl hq1
  cases verifies hver with
  | empty hv' =>
    rw [hrow] at hv'
    exact absurd hv hv'
  | red _ hwalk =>
    exact ⟨(hdeps hwalk hq).1.mono (fun _ _ => id) fun _ _ hd => hd.imp_right mem_cons.mp, nofun⟩
  | green _ hwalk =>
    obtain ⟨hplan, hstamped⟩ := hdeps hwalk hq
    have hfresh : e0.db.Fresh i := Db.fresh_of_edges hv (hplan.forall_stay rfl)
    exact ⟨hplan.mono (fun _ _ => id) fun _ _ hd => hd.imp_right mem_cons.mp,
      fun _ => ⟨.green hk hc hs hi ho hv hwalk (hstamped rfl) hfresh _, hfresh⟩⟩

theorem resolve_quiet {i : Nat} {e e' : Engine} {a : Answer} {key : QueryKey}
    (hc : e.db.Coherent) (hs : Stamped e0 e) (hf : e.db.find? key = some i)
    (hres : Resolves q P key i e (.ok a) e') (hq : Silent e e') :
    Stamped e0 e' ∧ e0.db.Fresh i ∧ a = e0.db.answer i ∨
      i ∈ e.db.flight ∧ a.changed_at = e0.db.rev := by
  have hi : i < e0.db.nodes.length := hs.length ▸ (hc.wf.find_key hf).1
  cases hres with
  | known hclosed =>
    refine .inl ⟨hs.charge _, ?_, (hs.columns i).2.1⟩
    by_cases hup : e.db.UpToDate i
    · exact hs.fresh_of_upToDate hup
    · refine ⟨0, .inl ?_⟩
      rw [← (hs.columns i).2.2.1]
      exact (Bool.not_eq_false _).mp fun hin => hclosed ⟨hin, hup⟩
  | cycle _ hfl => exact .inr ⟨hfl, hs.rev⟩
  | opened ho hfl hopened =>
    cases hopened with
    | green hver =>
      by_cases hv : (e0.db.row i).state = .valid
      · obtain ⟨hs1, hfresh⟩ := (verify_quiet hk hP hc hs hi ho hv hver hq).2 rfl
        exact .inl ⟨hs1, hfresh, (hs1.columns i).2.1⟩
      · -- a node without a value is not green
        cases verifies hver with
        | green hv' _ =>
          rw [(hs.columns i).2.2.2.1] at hv'
          exact absurd hv' hv
    | red hver hexec =>
      obtain ⟨-, -, hred, -⟩ := verify_ran hk hc hf ho hfl hver
      obtain ⟨hran, hrow⟩ := hred (by simp)
      obtain ⟨-, -, -, -, db, hcall⟩ := execute_ran hk hran.coherent (hran.find hf)
        (ho.of_row hrow hran.rev) (by rwa [hran.flight_eq]) hexec
      exact (hq.not_computed hran.calls hcall).elim

end QuietPull

theorem quiet_pull (q : Queries) (e0 : Engine) : ∀ fuel, QuietPull e0 (pull q fuel)
  | 0, _, _, _, _, _, _, _, h, _ => by cases h
  | fuel + 1, i, e, a, e', hc, hs, hi, hp, hq => by
    have hfind : e.db.find? (e0.db.row i).key = some i := by
      rw [← (hs.columns i).1]
      exact hc.wf.find_row (hs.length ▸ hi)
    cases pulls hp with
    | probed _ hprobe hres =>
      cases (probe_found hfind).symm.trans hprobe
      exact resolve_quiet (e := e.probed) (keeps_pull q fuel) (quiet_pull q e0 fuel)
        (probed_coherent hc) hs.probed hfind hres hq

/-! ## The plan -/

/-- `is_red` has not touched what the nodes hold: it computed nothing, and every value, revision of
change and recorded edge is the same. -/
structure Pure (e e' : Engine) : Prop where
  silent : Silent e e'
  executed : e'.db.executed = e.db.executed
  rows : ∀ i < e.db.nodes.length, e'.db.answer i = e.db.answer i ∧
    (e'.db.row i).state = (e.db.row i).state ∧ e'.db.range (e'.db.row i) = e.db.range (e.db.row i)

/-- `red` tells whether a demand of the key that is made now, that fits and is not cancelled, executes
it. -/
def Foretells (ids : Ids) (q : Queries) (key : QueryKey) (e : Engine) (red : Bool) : Prop :=
  ∀ fuel r e', @demand ids q fuel key e = .ok (r, e') → e'.db.Fits → ¬ Polled e e' →
    (red = true ↔ ∃ new, e'.calls = new ++ e.calls ∧ key ∈ computed new)

variable {fuel : Nat}

variable {r : Except Cancelled ValueHash}

/-- What an engine at rest does first on a demand of a node there is. -/
theorem demand_cases {q : Queries} {e e' : Engine} (hs : e.AtRest) (hf : e.db.find? key = some i)
    (h : demand q fuel key e = .ok (r, e')) :
    (e'.calls = e.calls ∧ Polled e e') ∨
      ∃ fuel r', Resolves q (pull q fuel) key i e.probed r' e' := by
  have hprobe : e.db.polled.probe key true = (i, e.probed.db) := by
    unfold Db.probe
    have hintern : e.db.polled.intern key = (i, e.db.polled) := Db.intern_eq_of_find key hf
    rw [hintern]
    show (i, Db.attribute_to _ i) = _
    unfold Db.attribute_to
    rw [show (e.db.polled.charge fun s => { s with probes := s.probes + 1 }).stack = [] from hs.2]
    rfl
  unfold demand at h
  split at h
  · cases h
  · rename_i r' e1 hpull
    cases h
    cases fuel with
    | zero => cases hpull
    | succ fuel =>
      cases pulls hpull with
      | cancelled hset => exact .inl ⟨rfl, _, Nat.le_refl _, Nat.lt_succ_self _, hset⟩
      | probed _ hprobe' hres =>
        cases hprobe.symm.trans hprobe'
        exact .inr ⟨fuel, _, hres⟩

/-- A demand of a node that is not open executes nothing. -/
theorem demand_silent {q : Queries} {e e' : Engine} (hs : e.AtRest) (hf : e.db.find? key = some i)
    (ho : ¬ e.db.Open i) (h : demand q fuel key e = .ok (r, e')) : e'.calls = e.calls := by
  rcases demand_cases hs hf h with ⟨hcalls, -⟩ | ⟨fuel, r', hres⟩
  · exact hcalls
  · cases hres with
    | known => rfl
    | cycle ho' | opened ho' => exact absurd ho' ho

/-- A demand of an open node whose walk ends red executes it. -/
theorem demand_executes {q : Queries} {e e' : Engine} (hs : e.AtRest) (hf : e.db.find? key = some i)
    (ho : e.db.Open i) (h : demand q fuel key e = .ok (r, e')) (hset : ¬ Polled e e')
    (hwalk : ∀ fuel r2 e2, verify (pull q fuel) i e.probed = .ok (r2, e2) →
      (∀ b, r2 = .ok b → b = false) ∧ ∀ c, r2 = .error c → Polled e e2) :
    ∃ new, e'.calls = new ++ e.calls ∧ key ∈ computed new := by
  rcases demand_cases hs hf h with ⟨-, hpolled⟩ | ⟨fuel, r', hres⟩
  · exact absurd hpolled hset
  cases hres with
  | known hclosed => exact absurd ho hclosed
  | cycle _ hfl =>
    rw [hs.probed.flight] at hfl
    cases hfl
  | opened _ hfl hopened =>
    cases hopened with
    | error hver => exact absurd ((hwalk _ _ _ hver).2 _ rfl) hset
    | green hver => cases (hwalk _ _ _ hver).1 _ rfl
    | red hver hexec =>
      obtain ⟨-, -, hred, -⟩ := verify_ran (keeps_pull q fuel) hs.probed.1 hf ho hfl hver
      obtain ⟨hran, hrow⟩ := hred (by simp)
      obtain ⟨-, -, -, -, db, new, hnew⟩ := execute_ran (keeps_pull q fuel) hran.coherent
        (hran.find hf) (ho.of_row hrow hran.rev) (by rwa [hran.flight_eq]) hexec
      obtain ⟨new', hnew'⟩ := hran.calls
      refine ⟨new ++ .compute key db :: new', ?_, ?_⟩
      · rw [← hnew, ← hnew', append_assoc, cons_append]
        rfl
      · rw [computed_append]
        exact mem_append_right _ mem_cons_self

theorem Stamped.pure {e0 e : Engine} (h : Stamped e0 e) : Pure e0 e where
  silent := congrArg computed h.calls
  executed := h.executed
  rows i _ := ⟨(h.columns i).2.1, (h.columns i).2.2.2.1, (h.columns i).2.2.2.2⟩

theorem Pure.intern (e : Engine) (key : QueryKey) : Pure e ⟨(e.db.intern key).2, e.calls⟩ where
  silent := rfl
  executed := by
    cases hf : e.db.find? key with
    | some i => rw [Db.intern_eq_of_find key hf]
    | none => rw [Db.intern_eq_of_fresh key hf]
  rows i hi := by
    have hdeps : (e.db.intern key).2.deps = e.db.deps := (Db.intern_eqs key).1
    dsimp only
    unfold Db.answer Db.range
    rw [Db.row_intern key hi, hdeps]
    exact ⟨rfl, rfl, rfl⟩

/-- Executing nothing is foretold. -/
theorem foretells_false {q : Queries} {e : Engine} (hs : e.AtRest)
    (hf : e.db.find? key = some i) (ho : ¬ e.db.Open i) : Foretells .wide q key e false := by
  intro fuel r e' h _ _
  have hcalls := demand_silent hs hf ho h
  constructor
  · intro hfalse
    cases hfalse
  · rintro ⟨new, hnew, hmem⟩
    rw [hcalls] at hnew
    obtain rfl : new = [] := by
      have := congrArg List.length hnew
      rw [length_append] at this
      exact length_eq_zero_iff.mp (by omega)
    cases hmem

/-- So is an execution, of a node whose walk needs none and ends red. -/
theorem foretells_true {q : Queries} {e0 e : Engine} (hs : e.AtRest)
    (hst : Stamped e0 e) (hf : e.db.find? key = some i) (ho : e.db.Open i)
    (hplans : (e0.db.row i).state = .valid →
      e0.db.WalkPlans (e0.db.row i).verified_at (e0.db.range (e0.db.row i)) true) :
    Foretells .wide q key e true := by
  intro fuel r e' h _ hset
  refine ⟨fun _ => demand_executes hs hf ho h hset fun fuel r2 e2 hver => ?_, fun _ => rfl⟩
  have hi : i < e0.db.nodes.length := hst.length ▸ (hs.1.wf.find_key hf).1
  by_cases hv : (e0.db.row i).state = .valid
  · obtain ⟨n, hn⟩ := verify_walked q hs.probed hst.probed hi ho hv (hplans hv)
    have hw := hn fuel
    rw [hver] at hw
    exact ⟨hw.ok, fun c hc => (hw.err c hc).mono rfl (Nat.le_succ _) (Nat.le_refl _)⟩
  · cases verifies hver with
    | empty => exact ⟨fun b hb => (Except.ok.inj hb).symm, nofun⟩
    | error hv' | red hv' | green hv' =>
      rw [(hst.probed.columns i).2.2.2.1] at hv'
      exact absurd hv' hv

/-- What the walk of an open node at rest answers is a plan. -/
theorem verify_plans {q : Queries} {e e' : Engine}
    {r : Except Cancelled Bool} (hs : e.AtRest) (hf : e.db.find? key = some i) (ho : e.db.Open i)
    (h : verify (pull q fuel) i e = .ok (r, e')) :
    (e.db.Plans key → Pure e e') ∧
      ∀ green, r = .ok green → (Pure e e' ∧ Foretells .wide q key e' (!green) ↔ e.db.Plans key) := by
  have hi : i < e.db.nodes.length := (hs.1.wf.find_key hf).1
  have hfl : i ∉ e.db.flight := by
    rw [hs.flight]
    exact not_mem_nil
  by_cases hv : (e.db.row i).state = .valid
  · obtain ⟨hstack, hran, hred, hgreen⟩ := verify_ran (keeps_pull q fuel) hs.1 hf ho hfl h
    have hs' : e'.AtRest := ⟨hran.coherent, hstack.trans hs.2⟩
    have hwalked : ∀ changed,
        e.db.WalkPlans (e.db.row i).verified_at (e.db.range (e.db.row i)) changed →
        Walked e e (!changed) r e' := by
      intro changed hwalk
      obtain ⟨n, hn⟩ := verify_walked q hs (Stamped.refl e) hi ho hv hwalk
      have hw := hn fuel
      rwa [h] at hw
    refine ⟨fun hp => ?_, fun green hr => ⟨fun ⟨hpure, _⟩ => ?_, fun hp => ?_⟩⟩
    · obtain ⟨changed, hwalk⟩ := hp i hf ho hv
      exact (hwalked changed hwalk).stamped.pure
    · subst hr
      obtain ⟨hwalk, -⟩ := verify_quiet (keeps_pull q fuel) (quiet_pull q e fuel) hs.1
        (Stamped.refl e) hi ho hv h hpure.silent
      intro j hj _ _
      obtain rfl := Option.some.inj (hf.symm.trans hj)
      refine ⟨_, Db.Walk.iff_split.mp (hwalk.mono (fun _ _ => id) fun d hmem hd => ?_)⟩
      rcases hd with hfresh | rfl | hflight
      · exact hfresh
      · -- no node reads itself
        exact absurd hmem (hs.1.loopless hi)
      · rw [hs.flight] at hflight
        cases hflight
    · obtain ⟨changed, hwalk⟩ := hp i hf ho hv
      have hw := hwalked changed hwalk
      refine ⟨hw.stamped.pure, ?_⟩
      have hf' : e'.db.find? key = some i := (hw.stamped.find? key).trans hf
      obtain rfl : green = !changed := hw.ok green hr
      cases changed with
      | false => exact foretells_false hs' hf' (hgreen hr).not_open
      | true =>
        obtain ⟨-, hrow⟩ := hred (by rw [hr]; simp)
        exact foretells_true hs' hw.stamped hf' (ho.of_row hrow hw.stamped.rev) fun _ => hwalk
  · have hp : e.db.Plans key := by
      intro j hj _ hvj
      obtain rfl := Option.some.inj (hf.symm.trans hj)
      exact absurd hvj hv
    cases verifies h with
    | empty =>
      refine ⟨fun _ => (Stamped.refl e).pure, fun green hr => ⟨fun _ => hp, fun _ => ?_⟩⟩
      cases hr
      exact ⟨(Stamped.refl e).pure,
        foretells_true hs (Stamped.refl e) hf ho fun hvi => absurd hvi hv⟩
    | error hv' | red hv' | green hv' => exact absurd hv' hv

/-- The plan of a node there is. -/
theorem is_red_found {q : Queries} {e e' : Engine}
    {r : Except Cancelled Bool} (hs : e.AtRest) (hf : e.db.find? key = some i)
    (h : is_red q fuel key e = .ok (r, e')) :
    (e.db.Plans key → Pure e e') ∧
      ∀ red, r = .ok red → (Pure e e' ∧ Foretells .wide q key e' red ↔ e.db.Plans key) := by
  have hs1 : Stamped e e.probed := (Stamped.refl e).probed
  cases reddens h with
  | cancelled => exact ⟨fun _ => ((Stamped.refl e).polled.charge _).pure, nofun⟩
  | @known f _ _ hprobe hclosed =>
    cases (probe_found hf).symm.trans hprobe
    have ho : ¬ e.db.Open i := hclosed.resolve_right (by rw [hs.probed.flight]; exact not_mem_nil)
    refine ⟨fun _ => (hs1.charge f).pure, fun red hred => ?_⟩
    cases hred
    refine ⟨fun _ j hj hoj => ?_,
      fun _ => ⟨(hs1.charge f).pure, foretells_false (hs.probed.charge f) hf ho⟩⟩
    obtain rfl := Option.some.inj (hf.symm.trans hj)
    exact absurd hoj ho
  | @walked _ _ r _ hprobe ho hfl hver =>
    cases (probe_found hf).symm.trans hprobe
    have hprobed : Pure e.probed e' ↔ Pure e e' :=
      ⟨fun hp => ⟨hp.silent, hp.executed, hp.rows⟩, fun hp => ⟨hp.silent, hp.executed, hp.rows⟩⟩
    have hplans : e.probed.db.Plans key ↔ e.db.Plans key :=
      ((Db.sameRows_polled e.db).trans (Db.sameRows_charge _ _)).plans_iff rfl key
    obtain ⟨hpure, hiff⟩ := verify_plans hs.probed hf ho hver
    rw [← hplans, ← hprobed]
    refine ⟨hpure, fun red hred => ?_⟩
    cases r with
    | error c => cases hred
    | ok green =>
      cases hred
      exact hiff green rfl

/-- The probe of a node there is not. -/
theorem probe_missing {e : Engine} (hs : e.AtRest) (h : e.db.find? key = none) :
    ∃ i db, e.db.polled.probe key false = (i, db) ∧ db.row i = Node.new key ∧
      db.find? key = some i ∧ Engine.AtRest ⟨db, e.calls⟩ ∧ Pure e ⟨db, e.calls⟩ := by
  have hfind : (e.db.polled.intern key).2.find? key = some (e.db.polled.intern key).1 :=
    Db.find?_intern_self key
  have hrow : (e.db.polled.intern key).2.row (e.db.polled.intern key).1 = Node.new key :=
    Db.row_intern_fresh key h
  have hs1 : Engine.AtRest ⟨(e.db.polled.intern key).2, e.calls⟩ :=
    ⟨hs.polled.1.intern key, (Db.intern_eqs key).2.1.trans hs.2⟩
  have hpure := Pure.intern ⟨e.db.polled, e.calls⟩ key
  obtain ⟨i, db, hintern⟩ : ∃ i db, e.db.polled.intern key = (i, db) := ⟨_, _, rfl⟩
  dsimp only at hpure
  rw [hintern] at hfind hrow hs1 hpure
  refine ⟨i, db.charge fun s => { s with probes := s.probes + 1 }, ?_, hrow, hfind, hs1.charge _,
    hpure.silent, hpure.executed, hpure.rows⟩
  unfold Db.probe
  rw [hintern]
  rfl

theorem verify_of_empty {P : Puller} {e : Engine} (h : (e.db.row i).state ≠ .valid) :
    verify P i e = .ok (.ok false, e) := by
  unfold verify
  dsimp only
  rw [if_pos h]

/-- The plan of a node there is not. -/
theorem is_red_missing {q : Queries} {e e' : Engine}
    {r : Except Cancelled Bool} (hs : e.AtRest) (hf : e.db.find? key = none)
    (h : is_red q fuel key e = .ok (r, e')) :
    Pure e e' ∧ ∀ red, r = .ok red → Foretells .wide q key e' red := by
  obtain ⟨i, db, hprobe, hrow, hfind, hs1, hpure⟩ := probe_missing hs hf
  -- the new node has no value
  have hempty : (db.row i).state ≠ .valid := by
    rw [hrow]
    exact nofun
  have ho : db.Open i := ⟨by rw [hrow]; rfl, fun hup => hempty hup.1⟩
  cases reddens h with
  | cancelled => exact ⟨((Stamped.refl e).polled.charge _).pure, nofun⟩
  | known hprobe' hclosed =>
    cases hprobe.symm.trans hprobe'
    rw [Engine.AtRest.flight hs1] at hclosed
    exact absurd hclosed (by simp [ho])
  | walked hprobe' _ _ hver =>
    cases hprobe.symm.trans hprobe'
    rw [verify_of_empty hempty] at hver
    cases hver
    refine ⟨hpure, fun red hred => ?_⟩
    cases hred
    exact foretells_true hs1 (Stamped.refl _) hfind ho fun hv => absurd hv hempty

/-- `is_red` comes back when its walk does. -/
theorem is_red_of_verify {q : Queries} {e : Engine} {db : Db}
    (hprobe : e.db.polled.probe key false = (i, db))
    (hverify : db.Open i → ∃ r e', verify (pull q fuel) i ⟨db, e.calls⟩ = .ok (r, e')) :
    ∃ r e', is_red q fuel key e = .ok (r, e') := by
  unfold is_red
  dsimp only
  rw [hprobe]
  dsimp only
  split
  · exact ⟨_, _, rfl⟩
  split
  · exact ⟨_, _, rfl⟩
  rename_i hin
  split
  · exact ⟨_, _, rfl⟩
  rename_i hup
  split
  · exact ⟨_, _, rfl⟩
  obtain ⟨r, e', hver⟩ := hverify ⟨(Bool.not_eq_true _).mp hin, hup⟩
  rw [hver]
  cases r with
  | error c => exact ⟨_, _, rfl⟩
  | ok green => exact ⟨_, _, rfl⟩

/-- A plan comes back. -/
theorem is_red_returns (q : Queries) {e : Engine} (hs : e.AtRest)
    (hp : e.db.Plans key) : ∃ n, ∀ fuel ≥ n, ∃ r e', is_red q fuel key e = .ok (r, e') := by
  cases hf : e.db.find? key with
  | none =>
    obtain ⟨i, db, hprobe, hrow, -⟩ := probe_missing hs hf
    refine ⟨0, fun fuel _ => is_red_of_verify hprobe fun _ => ⟨_, _, verify_of_empty ?_⟩⟩
    rw [hrow]
    exact nofun
  | some i =>
    by_cases hopen : e.db.Open i ∧ (e.db.row i).state = .valid
    · obtain ⟨ho, hv⟩ := hopen
      obtain ⟨changed, hwalk⟩ := hp i hf ho hv
      obtain ⟨n, hn⟩ := verify_walked q hs.probed (Stamped.refl e).probed (hs.1.wf.find_key hf).1 ho hv
        hwalk
      refine ⟨n, fun fuel hfuel => is_red_of_verify (probe_found hf) fun _ => ?_⟩
      rcases (hn fuel).elim with ⟨⟨r, e'⟩, hver, -⟩ | ⟨-, hlt⟩
      · exact ⟨r, e', hver⟩
      · exact absurd hfuel hlt
    · refine ⟨0, fun fuel _ => is_red_of_verify (probe_found hf) fun ho => ⟨_, _, verify_of_empty ?_⟩⟩
      exact fun hv => hopen ⟨ho, hv⟩

end Wide

theorem foretells_iff {q : Queries} {key : QueryKey} {e : Engine} {red : Bool} :
    Foretells .u32 q key e red ↔ Foretells .wide q key e red :=
  ⟨fun h fuel r e' hd hfits =>
      h fuel r e' (demand_agrees Ids.exact_wide Ids.exact_u32 q fuel key e hd hfits).2 hfits,
    fun h fuel r e' hd hfits =>
      h fuel r e' (demand_agrees Ids.exact_u32 Ids.exact_wide q fuel key e hd hfits).2 hfits⟩

/-- **`is_red` is a pure plan, and it is right**, exactly when the walk needs no execution; it comes
back then, and a call that is cancelled is pure, too. -/
theorem is_red_plans {q : Queries} {cancel : CancelFlag} {fuel : Nat} {ops : List Op}
    {events : List Event} {e : Engine} (hrun : run q fuel ops (Engine.new cancel) = .ok (events, e))
    (hfit : Fit events e) (key : QueryKey) :
    (e.db.Plans key →
      ∃ n, ∀ fuel' ≥ n, ∃ r e', Yields (fun ids => @is_red ids q fuel' key e) r e') ∧
      ∀ fuel' r e', is_red q fuel' key e = .ok (r, e') → e'.db.Fits →
        (e.db.Plans key → Pure e e') ∧
          ∀ red, r = .ok red → (Pure e e' ∧ Foretells .u32 q key e' red ↔ e.db.Plans key) := by
  have hs : e.AtRest :=
    (Engine.AtRest.new cancel).run (run_agrees Ids.exact_u32 Ids.exact_wide q hrun hfit)
  constructor
  · intro hp
    obtain ⟨n, hn⟩ := is_red_returns q hs hp
    refine ⟨n, fun fuel' hfuel => ?_⟩
    obtain ⟨r, e', hred⟩ := hn fuel' hfuel
    exact ⟨r, e', (is_red_agrees Ids.exact_wide Ids.exact_u32 q fuel' key e).yields hred⟩
  intro fuel' r e' hred hfits
  have h := (is_red_agrees Ids.exact_u32 Ids.exact_wide q fuel' key e hred hfits).2
  simp only [foretells_iff]
  cases hf : e.db.find? key with
  | some i => exact is_red_found hs hf h
  | none =>
    obtain ⟨hpure, hforetells⟩ := is_red_missing hs hf h
    have hp : e.db.Plans key := by
      intro i hi
      rw [hf] at hi
      cases hi
    exact ⟨fun _ => hpure, fun red hr => ⟨fun _ => hp, fun _ => ⟨hpure, hforetells red hr⟩⟩⟩

/-! ## A plan that executes

The tests plan a `mid`, whose edges lead to inputs.  The edges of `top()` lead to two `mid`s. -/

/-- The value of `mid(0)` before `is_red` of `key`, what the call returned, the value afterwards, and
whether it was silent; nothing if a table did not fit. -/
def plan_around (key : QueryKey) : Option (Option ValueHash × Except Cancelled Bool ×
    Option ValueHash × Bool) :=
  match run (synth 2) 4 edited_ops (Engine.new .never) with
  | .error _ => none
  | .ok (events, e) =>
    match is_red (synth 2) 4 key e with
    | .error _ => none
    | .ok (r, e') =>
      if Fit events e ∧ e'.db.Fits then
        some (e.db.value_of (.one MID 0), r, e'.db.value_of (.one MID 0),
          computed e'.calls = computed e.calls)
      else none

theorem plan_around_eq {key : QueryKey} {before after : Option ValueHash}
    {r : Except Cancelled Bool} {silent : Bool}
    (h : plan_around key = some (before, r, after, silent)) :
    ∃ events e e', run (synth 2) 4 edited_ops (Engine.new .never) = .ok (events, e) ∧
      is_red (synth 2) 4 key e = .ok (r, e') ∧ Fit events e ∧ e'.db.Fits ∧
      e.db.value_of (.one MID 0) = before ∧ e'.db.value_of (.one MID 0) = after ∧
      (Silent e e' ↔ silent = true) := by
  unfold plan_around at h
  split at h
  · cases h
  · rename_i events e hrun
    split at h
    · cases h
    · rename_i r' e' hred
      split at h
      swap
      · cases h
      rename_i hfits
      simp only [Option.some.injEq, Prod.mk.injEq] at h
      obtain ⟨rfl, rfl, rfl, rfl⟩ := h
      refine ⟨events, e, e', hrun, hred, hfits.1, hfits.2, rfl, rfl, ?_⟩
      unfold Silent
      exact decide_eq_true_iff.symm

/-- Both inputs are edited, and `is_red` of `top()` executes `mid(0)`. -/
theorem is_red_executes :
    ∃ events e e', run (synth 2) 4 edited_ops (Engine.new .never) = .ok (events, e) ∧
      is_red (synth 2) 4 (.unit TOP) e = .ok (.ok true, e') ∧ ¬ Pure e e' ∧
      e.db.value_of (.one MID 0) = some 10 ∧ e'.db.value_of (.one MID 0) = some 90 := by
  have htop : plan_around (.unit TOP) = some (some 10, .ok true, some 90, false) := by
    decide +kernel
  obtain ⟨events, e, e', hrun, hred, -, -, hbefore, hafter, hsilent⟩ := plan_around_eq htop
  refine ⟨events, e, e', hrun, hred, fun hpure => ?_, hbefore, hafter⟩
  cases hsilent.mp hpure.silent

/-- `is_red` of `mid(0)` executes nothing. -/
theorem is_red_plans_mid :
    ∃ events e e', run (synth 2) 4 edited_ops (Engine.new .never) = .ok (events, e) ∧
      is_red (synth 2) 4 (.one MID 0) e = .ok (.ok true, e') ∧ Silent e e' ∧
      (Pure e e' ∧ Foretells .u32 (synth 2) (.one MID 0) e' true ↔ e.db.Plans (.one MID 0)) := by
  have hmid : plan_around (.one MID 0) = some (some 10, .ok true, some 10, true) := by
    decide +kernel
  obtain ⟨events, e, e', hrun, hred, hfit, hfits, -, -, hsilent⟩ := plan_around_eq hmid
  exact ⟨events, e, e', hrun, hred, hsilent.mpr rfl,
    ((is_red_plans hrun hfit _).2 _ _ _ hred hfits).2 _ rfl⟩

end Fors.Query
