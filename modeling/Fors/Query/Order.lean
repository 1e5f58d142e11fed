import Fors.Query.Consistency

/-!
# Demand order and recovery values

`cycle.rs` keeps the recovery value of a re-entered node out of the memo, since caching it would make
the answers depend on which node is demanded first.  The nodes in between are memoised all the same,
with values computed from it: `ring_order_matters`.  A verification walk that follows an edge of an
earlier revision can meet a cycle that the current inputs do not have: `obsolete_edge_recovers`.

`AcyclicFrom q db key` is the condition under which neither happens: below `key` the reads at the
current inputs and the recorded edges together have no cycle.  In a run whose demands all meet it no
recovery value is ever asked for, and from any state it reaches two orders of the same demands give the
same values (`order_independent`), as long as the tables fit their ids.

Principal result: `order_independent`.
-/

namespace Fors.Query

open RedGreen List Option

/-- Demands keys one after another and collects what each returned. -/
def demand_all [Ids] (q : Queries) (fuel : Nat) : List QueryKey → Engine →
    Except Stop (List (QueryKey × Except Cancelled ValueHash) × Engine)
  | [], e => .ok ([], e)
  | key :: keys, e =>
    match demand q fuel key e with
    | .error stop => .error stop
    | .ok (r, e) =>
      match demand_all q fuel keys e with
      | .error stop => .error stop
      | .ok (rs, e) => .ok ((key, r) :: rs, e)

theorem demand_all_agrees {a b : Ids} (ha : a.Exact) (hb : b.Exact) (q : Queries) (fuel : Nat) :
    ∀ (keys : List QueryKey) (e : Engine),
      Agrees e (@demand_all a q fuel keys e) (@demand_all b q fuel keys e)
  | [], e, _, _, h, hfits => by
    cases h
    exact ⟨hfits, rfl⟩
  | key :: keys, e, r, e', h, hfits => by
    unfold demand_all at h ⊢
    split at h
    · cases h
    rename_i hdemand
    split at h
    · cases h
    rename_i hrest
    cases h
    obtain ⟨hfits, hrest⟩ := demand_all_agrees ha hb q fuel keys _ hrest hfits
    obtain ⟨hfits, hdemand⟩ := demand_agrees ha hb q fuel key e hdemand hfits
    exact ⟨hfits, by simp [hdemand, hrest]⟩

/-- Two orders of the same demands return the same value for each key. -/
def OrderIndependent (q : Queries) (e : Engine) : Prop :=
  ∀ {fuel fuel' keys keys' rs rs' e1 e2}, keys.Perm keys' →
    demand_all q fuel keys e = .ok (rs, e1) → demand_all q fuel' keys' e = .ok (rs', e2) →
    ∀ key v v', (key, .ok v) ∈ rs → (key, .ok v') ∈ rs' → v = v'

/-- `on_cycle` was never called. -/
def NoRecovery (e : Engine) : Prop := ∀ c ∈ e.calls, ∃ key db, c = .compute key db

/-! ## The condition -/

/-- A valuation and a rank of the graph of reads at the inputs `inp`; rank `0` marks the keys outside
the part that is looked at. -/
structure Graph (q : Queries) (inp : QueryKey → Option ValueHash) (D : QueryKey → ValueHash)
    (rank : QueryKey → Nat) : Prop where
  solves : ∀ {k}, 0 < rank k → D k = (inp k).getD (q.rules.eval D k)
  reads : ∀ {k d}, 0 < rank k → inp k = none → ReadTree.Asks (Answers D) (q.compute k) d →
    0 < rank d ∧ rank d < rank k

/-- Below `key` the reads at the current inputs and the recorded edges have no cycle. -/
def AcyclicFrom (q : Queries) (db : Db) (key : QueryKey) : Prop :=
  ∃ D rank, 0 < rank key ∧ Graph q db.input D rank ∧ db.table.Ranked rank

variable {d : QueryKey}

/-- Reads against a valuation are reads a computation can take. -/
theorem asks_of_mem_reads {q : Queries} {D : QueryKey → ValueHash} {k : QueryKey}
    (h : d ∈ q.rules.reads D k) : ReadTree.Asks (Answers D) (q.compute k) d :=
  ReadTree.asks_of_mem_trace (fun _ => .inr rfl) h

/-- **A key has one value**, whichever part of the graph it is looked at in. -/
theorem Graph.unique {q : Queries} {inp : QueryKey → Option ValueHash} {D D' : QueryKey → ValueHash}
    {rank rank' : QueryKey → Nat} (h : Graph q inp D rank) (h' : Graph q inp D' rank') :
    ∀ {k}, 0 < rank k → 0 < rank' k → D k = D' k := by
  intro k
  induction hn : rank k using Nat.strong_induction_on generalizing k with
  | _ n ih =>
    subst hn
    intro hk hk'
    rw [h.solves hk, h'.solves hk']
    cases hi : inp k with
    | some v => rfl
    | none =>
      simp only [getD_none]
      symm
      apply q.rules.eval_congr
      by_contra hne
      push Not at hne
      obtain ⟨d, hd, hd', hneq⟩ := q.rules.shared hne
      obtain ⟨hd0, hlt⟩ := h.reads hk hi (asks_of_mem_reads hd)
      obtain ⟨hd0', _⟩ := h'.reads hk' hi (asks_of_mem_reads hd')
      exact hneq (ih _ hlt rfl hd0 hd0')

open Classical in
/-- The valuation of the acyclic part of the graph. -/
noncomputable def graph_solver (q : Queries) : Solver where
  value inp k := if h : ∃ D rank, 0 < rank k ∧ Graph q inp D rank then h.choose k else (inp k).getD 0
  value_input {inp k v} hk := by
    split
    · rename_i h
      obtain ⟨rank, hpos, hg⟩ := h.choose_spec
      rw [hg.solves hpos, hk]
      rfl
    · rw [hk]
      rfl

section

variable {q : Queries} {inp : QueryKey → Option ValueHash} {D : QueryKey → ValueHash}
  {rank : QueryKey → Nat}

theorem Graph.solver_eq (h : Graph q inp D rank) {k : QueryKey} (hk : 0 < rank k) :
    (graph_solver q).value inp k = D k := by
  have hex : ∃ D rank, 0 < rank k ∧ Graph q inp D rank := ⟨D, rank, hk, h⟩
  simp only [graph_solver]
  rw [dif_pos hex]
  obtain ⟨rank', hpos, hg⟩ := hex.choose_spec
  exact hg.unique h hpos hk

/-- Reads allowed by valuations that agree on all that can be read are the same. -/
theorem asks_congr {D' : QueryKey → ValueHash} {P : QueryKey → Prop} (hP : ∀ d, P d → D d = D' d) :
    ∀ {t : ReadTree QueryKey (Except Cancelled ValueHash) Outcome} {d : QueryKey},
      ReadTree.Asks (Answers D') t d → (∀ d, ReadTree.Asks (Answers D) t d → P d) →
      ReadTree.Asks (Answers D) t d := by
  intro t d h
  induction h with
  | here => exact fun _ => .here
  | @later k k' a next ha hk ih =>
    intro hall
    have ha' : Answers D k a := by
      rw [Answers, hP k (hall k .here)]
      exact ha
    exact .later ha' (ih fun d hd => hall d (.later ha' hd))

/-- The solver's own valuation ranks the graph. -/
theorem Graph.solver (h : Graph q inp D rank) : Graph q inp ((graph_solver q).value inp) rank where
  solves {k} hk := by
    rw [h.solver_eq hk, h.solves hk]
    cases hi : inp k with
    | some v => rfl
    | none =>
      simp only [getD_none]
      refine (q.rules.eval_congr fun d hd => (h.solver_eq ?_).symm).symm
      exact (h.reads hk hi (asks_of_mem_reads hd)).1
  reads hk hi hd := by
    refine h.reads hk hi (asks_congr (P := fun d => 0 < rank d) (fun d hd => ?_) hd fun d hd => ?_)
    · exact (h.solver_eq hd).symm
    · exact (h.reads hk hi hd).1

end

/-! ## Runs whose demands meet the condition -/

section Wide

attribute [local instance] Ids.wide

variable {q : Queries} {ws : List (QueryKey × ValueHash)} {e e' : Engine}

/-- `key` can be demanded, with a recursion bound of `n`. -/
def Ready (q : Queries) (ws : List (QueryKey × ValueHash)) (n : Nat) (e : Engine) (key : QueryKey) :
    Prop :=
  ∃ rank, 0 < rank key ∧ rank key ≤ n ∧
    Ranked q (history_of (graph_solver q) ws) rank ws.length ∧ e.db.table.Ranked rank

variable {key : QueryKey}

theorem At.ready (hq : q.Honest) (h : At q (graph_solver q) ws e)
    (ha : AcyclicFrom q e.db key) : ∃ n, Ready q ws n e key := by
  obtain ⟨D, rank, hpos, hg, htr⟩ := ha
  have hin : e.db.input = inputs_at ws ws.length := by
    rw [inputs_at_length]
    exact funext h.input_eq
  rw [hin] at hg
  have hs := hg.solver
  refine ⟨rank key, rank, hpos, le_rfl, ⟨hq, fun {k} hk hi => ?_, hs.reads⟩, htr⟩
  have hi' : inputs_at ws ws.length k = none := hi
  have hsol := hs.solves hk
  rw [hi', getD_none] at hsol
  exact hsol

theorem Ext.noRecovery {H : History QueryKey ValueHash} {rank : QueryKey → Nat} {rev r : Nat}
    (hext : Ext q H rank rev r e e') (hno : NoRecovery e) : NoRecovery e' := by
  obtain ⟨new, hnew, hforced, _⟩ := hext.calls
  intro c hc
  rw [hnew] at hc
  rcases mem_append.mp hc with hc | hc
  · obtain ⟨k, db, hk, _⟩ := hforced c hc
    exact ⟨k, db, hk⟩
  · exact hno c hc

/-- **A key that can be demanded still can after another demand.** -/
theorem Ready.keep {n r : Nat} {rank : QueryKey → Nat}
    (hinv : Inv q (history_of (graph_solver q) ws) rank ws.length e'.db)
    (hext : Ext q (history_of (graph_solver q) ws) rank ws.length r e e')
    (h : Ready q ws n e key) : Ready q ws n e' key := by
  obtain ⟨rank', hpos, hn, hrk, htr⟩ := h
  refine ⟨rank', hpos, hn, hrk, ?_⟩
  rintro k d h0 ⟨row, hrow, hi, hd⟩
  by_cases hcur : e'.db.table.Current ws.length k
  · obtain ⟨i, hf, _, hri⟩ := Db.table_some hrow
    have hi' : (e'.db.row i).is_input = false := by rw [hri] at hi; exact hi
    obtain ⟨row', hrow', hx⟩ := hcur
    rw [hrow] at hrow'
    cases hrow'
    obtain ⟨Seen, hs⟩ := hinv.sound
    have hv : row.verified_at = ws.length := hx.resolve_left (by simp [hi])
    have hreads := (hs.deps hrow hi d).mp hd
    rw [hv] at hreads
    exact hrk.reads h0 (hinv.inputs_none hf hi') (asks_of_mem_reads hreads)
  · rw [hext.stale hcur] at hrow
    exact htr h0 ⟨row, hrow, hi, hd⟩

/-- **Demands of keys that can be demanded** return their values and recover nothing. -/
theorem demand_all_spec {n : Nat} (fuel : Nat) :
    ∀ {keys : List QueryKey} {e : Engine}, At q (graph_solver q) ws e →
      (∀ key ∈ keys, Ready q ws n e key) → NoRecovery e →
      Meets (n ≤ fuel) (fun p => At q (graph_solver q) ws p.2 ∧ NoRecovery p.2 ∧
        ∀ key v, (key, .ok v) ∈ p.1 → v = (history_of (graph_solver q) ws).value ws.length key)
        (demand_all q fuel keys e)
  | [], e, h, _, hno => ⟨h, hno, nofun⟩
  | key :: keys, e, h, hready, hno => by
    obtain ⟨rank, hpos, hle, hrk, htr⟩ := hready key mem_cons_self
    unfold demand_all
    rcases (demand_spec hrk hpos (h.inv htr) h.stack fuel).elim with
      ⟨⟨r, e1⟩, hd, hinv, hext, hstack, hval, _⟩ | ⟨hd, hnot⟩
    swap
    · rw [hd]
      exact fun hn => hnot (hle.trans hn)
    rw [hd]
    have h1 : At q (graph_solver q) ws e1 := ⟨hinv.wf, hinv.rev_eq, hinv.sound, hstack⟩
    rcases (demand_all_spec fuel h1 (fun k hk =>
      (hready k (mem_cons_of_mem _ hk)).keep hinv hext) (hext.noRecovery hno)).elim with
      ⟨⟨rs, e2⟩, hds, h2, hno2, hvals⟩ | ⟨hds, hnot⟩
    · dsimp only
      rw [hds]
      refine ⟨h2, hno2, fun k v hk => ?_⟩
      rcases mem_cons.mp hk with hk | hk
      · cases hk
        exact hval v rfl
      · exact hvals k v hk
    · dsimp only
      rw [hds]
      exact hnot

/-- **The run lemma**: when every demand meets the condition, nothing is recovered. -/
theorem noRecovery_run (hq : q.Honest) {fuel : Nat} {ops : List Op}
    {ws : List (QueryKey × ValueHash)} {e e' : Engine} {events : List Event}
    (h : At q (graph_solver q) ws e) (hno : NoRecovery e) (hrun : run q fuel ops e = .ok (events, e'))
    (hok : ∀ ev ∈ events, ∀ key, ev.op.Pulls key → AcyclicFrom q ev.before.db key) :
    (∃ ws', At q (graph_solver q) ws' e') ∧ NoRecovery e' := by
  replace hrun := runs hrun
  induction hrun generalizing ws with
  | nil => exact ⟨⟨ws, h⟩, hno⟩
  | @cons op _ _ e1 _ e _ hstep _ ih =>
    obtain ⟨hop, hok⟩ := forall_mem_cons.mp hok
    -- a rank for the one key the operation may pull
    obtain ⟨rank, hrank⟩ : ∃ rank : QueryKey → Nat, ∀ key, op.Pulls key → 0 < rank key ∧
        Ranked q (history_of (graph_solver q) ws) rank ws.length ∧ e.db.table.Ranked rank := by
      by_cases hp : ∃ key, op.Pulls key
      · obtain ⟨key, hkey⟩ := hp
        obtain ⟨n, rank, hpos, _, hrest⟩ := h.ready hq (hop key hkey)
        refine ⟨rank, fun key' hkey' => ?_⟩
        obtain rfl := hkey.unique hkey'
        exact ⟨hpos, hrest⟩
      · exact ⟨fun _ => 0, fun key hkey => absurd ⟨key, hkey⟩ hp⟩
    obtain ⟨h1, hm⟩ := step_spec h hrank hstep
    have hno1 : NoRecovery e1 := by
      cases hm with
      | pulled _ _ _ ext => exact ext.noRecovery hno
      | wrote _ _ _ _ _ calls _ => rw [NoRecovery, calls]; exact hno
      | idle _ _ calls _ => rw [NoRecovery, calls]; exact hno
    exact ih h1 hno1 hok

theorem exists_bound {keys : List QueryKey} (hq : q.Honest) (h : At q (graph_solver q) ws e)
    (ha : ∀ key ∈ keys, AcyclicFrom q e.db key) : ∃ n, ∀ key ∈ keys, Ready q ws n e key := by
  induction keys with
  | nil => exact ⟨0, nofun⟩
  | cons key keys ih =>
    obtain ⟨n, hn⟩ := ih fun k hk => ha k (mem_cons_of_mem _ hk)
    obtain ⟨m, hm⟩ := h.ready hq (ha key mem_cons_self)
    refine ⟨max n m, fun k hk => ?_⟩
    rcases mem_cons.mp hk with rfl | hk
    · obtain ⟨rank, hpos, hle, hrest⟩ := hm
      exact ⟨rank, hpos, hle.trans (le_max_right ..), hrest⟩
    · obtain ⟨rank, hpos, hle, hrest⟩ := hn k hk
      exact ⟨rank, hpos, hle.trans (le_max_left ..), hrest⟩

/-- What a current node holds. -/
theorem At.current_value_of (h : At q (graph_solver q) ws e)
    (hv : e.db.verified_at key = some ws.length) :
    e.db.value_of key = some ((history_of (graph_solver q) ws).value ws.length key) := by
  rw [Db.table_verified_at] at hv
  obtain ⟨row, hrow, hver⟩ := map_eq_some_iff.mp hv
  obtain ⟨Seen, hs⟩ := h.sound
  rw [Db.table_value_of, hrow, map_some, hs.current_value ⟨row, hrow, .inr hver⟩ hrow]

end Wide

/-- **Order independence.**  In a run whose demands all meet the condition no recovery value is
handed out, and from the state it ends in two orders of the same demands return the same values and
memoise the same values. -/
theorem order_independent {q : Queries} (hq : q.Honest) {cancel : CancelFlag} {fuel : Nat}
    {ops : List Op} {events : List Event} {e : Engine}
    (hrun : run q fuel ops (Engine.new cancel) = .ok (events, e)) (hfit : Fit events e)
    (hok : ∀ ev ∈ events, ∀ key, ev.op.Pulls key → AcyclicFrom q ev.before.db key) :
    NoRecovery e ∧
    ∀ keys keys', keys.Perm keys' → (∀ key ∈ keys, AcyclicFrom q e.db key) →
      (∃ n, ∀ f, n ≤ f → ∃ rs e1, Yields (fun ids => @demand_all ids q f keys e) rs e1) ∧
      ∀ f f' rs rs' e1 e2, demand_all q f keys e = .ok (rs, e1) → e1.db.Fits →
        demand_all q f' keys' e = .ok (rs', e2) → e2.db.Fits →
        NoRecovery e1 ∧ (∀ key v v', (key, .ok v) ∈ rs → (key, .ok v') ∈ rs' → v = v') ∧
        ∀ key, e1.db.verified_at key = some e.db.rev → e2.db.verified_at key = some e.db.rev →
          e1.db.value_of key = e2.db.value_of key := by
  have hwide := run_agrees Ids.exact_u32 Ids.exact_wide q hrun hfit
  obtain ⟨⟨ws, h⟩, hno⟩ := noRecovery_run hq (At.new q (graph_solver q) cancel) nofun hwide hok
  refine ⟨hno, fun keys keys' hperm ha => ?_⟩
  obtain ⟨n, hn⟩ := exists_bound hq h ha
  refine ⟨⟨n, fun f hf => ?_⟩, fun f f' rs rs' e1 e2 hd hd1 hd' hd2 => ?_⟩
  · rcases (demand_all_spec f h hn hno).elim with ⟨⟨rs, e1⟩, hr, _⟩ | ⟨_, hnot⟩
    · exact ⟨rs, e1, (demand_all_agrees Ids.exact_wide Ids.exact_u32 q f keys e).yields hr⟩
    · exact absurd hf hnot
  · have hs := demand_all_spec f h hn hno
    have hs' := demand_all_spec f' h (fun key hk => hn key (hperm.mem_iff.mpr hk)) hno
    rw [(demand_all_agrees Ids.exact_u32 Ids.exact_wide q f keys e hd hd1).2] at hs
    rw [(demand_all_agrees Ids.exact_u32 Ids.exact_wide q f' keys' e hd' hd2).2] at hs'
    obtain ⟨h1, hno1, hv⟩ := hs
    obtain ⟨h2, _, hv'⟩ := hs'
    refine ⟨hno1, fun key v v' hk hk' => (hv key v hk).trans (hv' key v' hk').symm,
      fun key hk hk' => ?_⟩
    rw [h.rev_eq] at hk hk'
    rw [h1.current_value_of hk, h2.current_value_of hk']

/-! ## Stratified query sets meet the condition -/

section Wide

attribute [local instance] Ids.wide

variable {q : Queries} {rank : QueryKey → Nat}

/-- **A stratified query set** meets the condition at every key. -/
theorem RankedAt.acyclicFrom (hs : Stratified q rank) {ws : List (QueryKey × ValueHash)}
    {e : Engine} (h : RankedAt q rank ws e) (key : QueryKey) : AcyclicFrom q e.db key := by
  refine ⟨q.rules.solution rank e.db.input, all_ranked rank, all_ranked_pos key, ⟨fun {k} _ => ?_, ?_⟩,
    h.ranked⟩
  · exact Rules.solves_solution hs.ranked_rules e.db.input k
  · exact fun _ _ hd => ⟨all_ranked_pos _, Nat.succ_lt_succ (hs _ _ (hd.mono fun _ _ _ => trivial))⟩

/-- The invariant holds before every operation of a run. -/
theorem RankedAt.run_before (hs : Stratified q rank) (hq : q.Honest) {fuel : Nat} {ops : List Op}
    {ws : List (QueryKey × ValueHash)} {e e' : Engine} {events : List Event} (h : RankedAt q rank ws e)
    (hrun : Query.run q fuel ops e = .ok (events, e')) :
    ∀ ev ∈ events, ∃ ws', RankedAt q rank ws' ev.before := by
  replace hrun := runs hrun
  induction hrun generalizing ws with
  | nil => exact nofun
  | cons hstep _ ih => exact forall_mem_cons.mpr ⟨⟨ws, h⟩, ih (h.step hs hq hstep).1⟩

end Wide

/-- The two-level query set, with any keys demanded in two orders after its run. -/
theorem order_independent_synth : ∃ events e,
    run (synth 2) 3 synth_ops (Engine.new .never) = .ok (events, e) ∧ NoRecovery e ∧
    ∀ keys keys', keys.Perm keys' → (∀ key ∈ keys, AcyclicFrom (synth 2) e.db key) →
      (∃ n, ∀ f, n ≤ f → ∃ rs e1, Yields (fun ids => @demand_all ids (synth 2) f keys e) rs e1) ∧
      ∀ f f' rs rs' e1 e2, demand_all (synth 2) f keys e = .ok (rs, e1) → e1.db.Fits →
        demand_all (synth 2) f' keys' e = .ok (rs', e2) → e2.db.Fits →
        NoRecovery e1 ∧ (∀ key v v', (key, .ok v) ∈ rs → (key, .ok v') ∈ rs' → v = v') ∧
        ∀ key, e1.db.verified_at key = some e.db.rev → e2.db.verified_at key = some e.db.rev →
          e1.db.value_of key = e2.db.value_of key := by
  obtain ⟨events, e, h, hfit⟩ := exists_fit (synth 2) 3 synth_ops .never (by decide +kernel)
  refine ⟨events, e, h, order_independent (honest_synth 2) h hfit fun ev hev key _ => ?_⟩
  obtain ⟨ws, hws⟩ := RankedAt.run_before (stratified_synth 2) (honest_synth 2)
    (.new (synth 2) (fun key => key.kind.toNat) .never)
    (run_agrees Ids.exact_u32 Ids.exact_wide (synth 2) h hfit) ev hev
  exact hws.acyclicFrom (stratified_synth 2) key

/-! ## Where the condition fails -/

def CYC : UInt16 := 3

/-- The ring of the engine's own tests: each of three keys is the next one plus one, and the recovery
value is `0`. -/
def ring : Queries where
  compute key := .ask (.one CYC ((key.a + 1) % 3)) fun
    | .ok v => .done (.value (v + 1))
    | .error _ => .done .cancelled
  on_cycle _ _ := 0

def LEFT : UInt16 := 4
def RIGHT : UInt16 := 5

/-- Returns what it is answered. -/
def forward : Except Cancelled ValueHash → ReadTree QueryKey (Except Cancelled ValueHash) Outcome
  | .ok w => .done (.value w)
  | .error _ => .done .cancelled

/-- `in(1)` and, while that is `0`, `right()`. -/
def left_tree : ReadTree QueryKey (Except Cancelled ValueHash) Outcome :=
  .ask (.one IN 1) fun
    | .ok v => if v = 0 then .ask (.unit RIGHT) forward else .done (.value v)
    | .error _ => .done .cancelled

/-- `in(0)` and, once that is not `0`, `left()`. -/
def right_tree : ReadTree QueryKey (Except Cancelled ValueHash) Outcome :=
  .ask (.one IN 0) fun
    | .ok v => if v = 0 then .done (.value 0) else .ask (.unit LEFT) forward
    | .error _ => .done .cancelled

/-- Two keys that read each other, but never at the same inputs. -/
def crossed : Queries where
  compute key :=
    if key.kind = LEFT then left_tree
    else if key.kind = RIGHT then right_tree
    else .done (.value 0)
  on_cycle _ _ := 0

/-- The values a list of demands returned. -/
def answers_of (x : Except Stop (List (QueryKey × Except Cancelled ValueHash) × Engine)) :
    Option (List (QueryKey × Option ValueHash)) :=
  match x with
  | .ok (rs, _) => some (rs.map fun p => (p.1, p.2.toOption))
  | .error _ => none

theorem exists_of_answers {x : Except Stop (List (QueryKey × Except Cancelled ValueHash) × Engine)}
    {l : List (QueryKey × Option ValueHash)} (h : answers_of x = some l) :
    ∃ rs e, x = .ok (rs, e) ∧ ∀ key v, (key, some v) ∈ l → (key, .ok v) ∈ rs := by
  unfold answers_of at h
  split at h
  · rename_i rs e
    cases h
    refine ⟨rs, e, rfl, fun key v hk => ?_⟩
    obtain ⟨⟨k, r⟩, hr, hkr⟩ := mem_map.mp hk
    cases r with
    | ok w =>
      cases hkr
      exact hr
    | error c => cases hkr
  · cases h

/-- Whether a recovery value was asked for. -/
def recovered : List Call → Bool
  | [] => false
  | .compute _ _ :: cs => recovered cs
  | .on_cycle _ _ :: _ => true

theorem not_noRecovery : ∀ {cs : List Call}, recovered cs = true →
    ¬ ∀ c ∈ cs, ∃ key db, c = Call.compute key db
  | .compute _ _ :: cs, h => fun hc =>
    have h' : recovered cs = true := h
    not_noRecovery h' fun c hcs => hc c (mem_cons_of_mem _ hcs)
  | .on_cycle _ _ :: _, _ => fun hc => by
    obtain ⟨_, _, h⟩ := hc _ mem_cons_self
    cases h

/-- `left()` is computed while it reads `right()`, then both inputs change, and `right()` is demanded. -/
def crossed_ops : List Op :=
  [.set_input (.one IN 0) 0, .demand (.unit RIGHT), .set_input (.one IN 1) 0, .demand (.unit LEFT),
    .set_input (.one IN 1) 1, .set_input (.one IN 0) 1, .demand (.unit RIGHT)]

def crossed_value (key : QueryKey) : ValueHash :=
  if key.kind = LEFT ∨ key.kind = RIGHT ∨ key = .one IN 0 ∨ key = .one IN 1 then 1 else 0

def crossed_rank (key : QueryKey) : Nat :=
  if key.kind = RIGHT then 3 else if key.kind = LEFT then 2 else 1

theorem crossed_rank_pos (key : QueryKey) : 0 < crossed_rank key := by
  unfold crossed_rank
  split
  · decide
  · split <;> decide

theorem asks_forward {ok : QueryKey → Except Cancelled ValueHash → Prop}
    {a : Except Cancelled ValueHash} (h : ReadTree.Asks ok (forward a) d) : False := by
  cases a <;> cases h

theorem asks_left_tree :
    ReadTree.Asks (Answers crossed_value) left_tree d → d = .one IN 1
  | .here => rfl
  | .later (a := a) ha h => by
    rcases ha with rfl | rfl
    · cases h
    · rw [show crossed_value (.one IN 1) = 1 by decide] at h
      cases h

theorem asks_right_tree :
    ReadTree.Asks (Answers crossed_value) right_tree d → d = .one IN 0 ∨ d = .unit LEFT
  | .here => .inl rfl
  | .later (a := a) ha h => by
    rcases ha with rfl | rfl
    · cases h
    · rw [show crossed_value (.one IN 0) = 1 by decide] at h
      cases h with
      | here => exact .inr rfl
      | later _ h => exact (asks_forward h).elim

theorem crossed_inputs : current_inputs crossed_ops = [(.one IN 0, 1), (.one IN 1, 1)] := by decide

/-- At the last inputs the graph of `crossed` has no cycle. -/
theorem graph_crossed : Graph crossed (fun key => (current_inputs crossed_ops).lookup key)
    crossed_value crossed_rank where
  solves {k} _ := by
    rw [crossed_inputs]
    by_cases h0 : k = .one IN 0
    · subst h0; decide
    by_cases h1 : k = .one IN 1
    · subst h1; decide
    have hl : [(QueryKey.one IN 0, (1 : ValueHash)), (.one IN 1, 1)].lookup k = none := by
      have b0 : (k == QueryKey.one IN 0) = false := beq_eq_false_iff_ne.mpr h0
      have b1 : (k == QueryKey.one IN 1) = false := beq_eq_false_iff_ne.mpr h1
      rw [lookup_cons, b0]
      dsimp only
      rw [lookup_cons, b1]
      rfl
    rw [hl, getD_none]
    show crossed_value k = (((crossed.compute k).run fun d => .ok (crossed_value d))).hash
    by_cases hL : k.kind = LEFT
    · have hc : crossed.compute k = left_tree := by simp [crossed, hL]
      have hv : crossed_value k = 1 := by simp [crossed_value, hL]
      rw [hc, hv]
      decide
    by_cases hR : k.kind = RIGHT
    · have hc : crossed.compute k = right_tree := by
        simp only [crossed, hR]
        rfl
      have hv : crossed_value k = 1 := by simp [crossed_value, hR]
      rw [hc, hv]
      decide
    · simp [crossed, crossed_value, hL, hR, h0, h1, Outcome.hash]
  reads {k d} _ _ hd := by
    refine ⟨crossed_rank_pos d, ?_⟩
    by_cases hL : k.kind = LEFT
    · have hc : crossed.compute k = left_tree := by simp [crossed, hL]
      rw [hc] at hd
      obtain rfl := asks_left_tree hd
      have hr : crossed_rank k = 2 := by
        simp only [crossed_rank, hL]
        rfl
      rw [hr]
      decide
    by_cases hR : k.kind = RIGHT
    · have hc : crossed.compute k = right_tree := by
        simp only [crossed, hR]
        rfl
      have hr : crossed_rank k = 3 := by simp [crossed_rank, hR]
      rw [hc] at hd
      rw [hr]
      rcases asks_right_tree hd with rfl | rfl <;> decide
    · have hc : crossed.compute k = .done (.value 0) := by simp [crossed, hL, hR]
      rw [hc] at hd
      cases hd

/-- **The claim of `cycle.rs` fails.**  On the ring the answers depend on which key is demanded first,
and `crossed` is asked for a recovery value while its graph has no cycle. -/
theorem order_matters : ¬ OrderIndependent ring (Engine.new .never) ∧
    ∃ events e, run crossed 6 crossed_ops (Engine.new .never) = .ok (events, e) ∧
      (∃ D rank, (∀ key, 0 < rank key) ∧
        Graph crossed (fun key => (current_inputs crossed_ops).lookup key) D rank) ∧
      ¬ NoRecovery e := by
  constructor
  · intro h
    obtain ⟨rs, e1, hd, hv⟩ := exists_of_answers
      (x := demand_all ring 4 [.one CYC 0, .one CYC 1] (Engine.new .never))
      (l := [(.one CYC 0, some 3), (.one CYC 1, some 2)]) (by decide +kernel)
    obtain ⟨rs', e2, hd', hv'⟩ := exists_of_answers
      (x := demand_all ring 4 [.one CYC 1, .one CYC 0] (Engine.new .never))
      (l := [(.one CYC 1, some 3), (.one CYC 0, some 1)]) (by decide +kernel)
    have heq := h (Perm.swap ..) hd hd' (.one CYC 0) 3 1 (hv _ _ (by simp)) (hv' _ _ (by simp))
    exact absurd heq (by decide)
  · have hrun : (run crossed 6 crossed_ops (Engine.new .never)).toOption.any
        (fun r => recovered r.2.calls) = true := by decide +kernel
    cases heq : run crossed 6 crossed_ops (Engine.new .never) with
    | error =>
      rw [heq] at hrun
      cases hrun
    | ok r =>
      rw [heq] at hrun
      exact ⟨r.1, r.2, rfl, ⟨_, _, crossed_rank_pos, graph_crossed⟩, not_noRecovery hrun⟩

end Fors.Query
