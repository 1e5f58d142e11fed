import Fors.Query.Wrap

/-!
# From-scratch consistency

For a stratified and honest query set, whatever the operations before it and whenever the cancellation
flag was set or reset, a demand that returns a value returns the value a fresh database with the
current inputs returns (`demand_from_scratch`), and it does return (`Meets.total` of the bound).

Principal result: `demand_from_scratch`.
-/

namespace Fors.Query

open RedGreen List

/-- Replaces or adds the value of one key. -/
def put_input (ins : List (QueryKey × ValueHash)) : Op → List (QueryKey × ValueHash)
  | .set_input key value => (key, value) :: ins.filter fun p => p.1 != key
  | _ => ins

/-- The current inputs after a sequence of operations: for each key set, the last value given. -/
def current_inputs (ops : List Op) : List (QueryKey × ValueHash) := ops.foldl put_input []

/-- The operations that give a fresh database these inputs. -/
def set_all (ins : List (QueryKey × ValueHash)) : List Op :=
  ins.reverse.map fun p => .set_input p.1 p.2

theorem lookup_put_input (ins : List (QueryKey × ValueHash)) (key : QueryKey) (v : ValueHash) :
    (fun k => (put_input ins (.set_input key v)).lookup k) =
      Function.update (fun k => ins.lookup k) key (some v) := by
  unfold put_input
  rw [lookup_cons_eq_update]
  funext k
  by_cases hk : k = key
  · subst hk
    simp
  · rw [Function.update_of_ne hk, Function.update_of_ne hk]
    induction ins with
    | nil => rfl
    | cons p ins ih =>
      obtain ⟨k', v'⟩ := p
      by_cases hk' : k' = key
      · subst hk'
        have hne : (k == k') = false := by simpa using hk
        simpa [filter_cons, lookup_cons, hne] using ih
      · have hne : (k' != key) = true := by simpa using hk'
        simp only [filter_cons, hne, if_true, lookup_cons]
        rw [ih]

/-- What the fresh operations write is what they were given. -/
theorem lookup_current_inputs_set_all :
    ∀ ins : List (QueryKey × ValueHash),
      (fun k => (current_inputs (set_all ins)).lookup k) = fun k => ins.lookup k
  | [] => rfl
  | (key, v) :: ins => by
    have hsplit : current_inputs (set_all ((key, v) :: ins)) =
        put_input (current_inputs (set_all ins)) (.set_input key v) := by
      simp [current_inputs, set_all, foldl_append]
    rw [hsplit, lookup_put_input, lookup_current_inputs_set_all ins, lookup_cons_eq_update]

section Wide

attribute [local instance] Ids.wide

variable {q : Queries} {rank : QueryKey → Nat}

variable {e : Engine} {fuel : Nat}

/-- An operation's write is in the history exactly as it is in the inputs. -/
theorem lookup_wrote_by {sol : Solver} {ws ins : List (QueryKey × ValueHash)} {e' : Engine} {op : Op} {reply : Reply} (h : At q sol ws e)
    (hstep : step q fuel op e = .ok (reply, e'))
    (hins : (fun k => ins.lookup k) = fun k => ws.lookup k) :
    (fun k => (put_input ins op).lookup k) = fun k => (wrote_by op reply ++ ws).lookup k := by
  cases op with
  | set_input key v =>
    rw [lookup_put_input, hins]
    unfold step at hstep
    dsimp only at hstep
    split at hstep
    · cases hstep
    rename_i changed db hset
    cases hstep
    obtain ⟨_, _, _, _, hrest⟩ := Db.set_input_spec h.wf hset
    cases changed with
    | true => exact (lookup_cons_eq_update key v ws).symm
    | false =>
      have hv : ws.lookup key = some v := (h.input_eq key).symm.trans hrest.2.1
      funext k
      by_cases hk : k = key
      · subst hk
        rw [Function.update_self]
        exact hv.symm
      · rw [Function.update_of_ne hk]
        rfl
  | demand _ => cases reply <;> exact hins
  | is_red _ => cases reply <;> exact hins
  | compact => cases reply <;> exact hins
  | open_window => cases reply <;> exact hins

theorem lookup_writes (hs : Stratified q rank) (hq : q.Honest) {ops : List Op}
    {ws ins : List (QueryKey × ValueHash)} {e e' : Engine} {events : List Event}
    (h : RankedAt q rank ws e) (hrun : run q fuel ops e = .ok (events, e'))
    (hins : (fun k => ins.lookup k) = fun k => ws.lookup k) :
    (fun k => (ops.foldl put_input ins).lookup k) = fun k => (writes events ++ ws).lookup k := by
  replace hrun := runs hrun
  induction hrun generalizing ws ins with
  | nil => exact hins
  | cons hstep _ ih =>
    have h1 := ih (h.step hs hq hstep).1 (lookup_wrote_by h.base hstep hins)
    rw [← append_assoc] at h1
    exact h1

/-- Setting inputs one after another never fails. -/
theorem run_set_inputs (fuel : Nat) :
    ∀ (ins : List (QueryKey × ValueHash)) (e : Engine), e.db.WF →
      (∀ k row, e.db.table k = some row → row.is_input = true) →
      ∃ r, run q fuel (ins.map fun p => .set_input p.1 p.2) e = .ok r
  | [], e, _, _ => ⟨_, rfl⟩
  | (key, v) :: ins, e, hwf, hin => by
    obtain ⟨⟨changed, db⟩, hset⟩ := Db.set_input_ok (v := v) hwf (hin key)
    obtain ⟨hwf1, _, _, _, hrest⟩ := Db.set_input_spec hwf hset
    have hin1 : ∀ k row, db.table k = some row → row.is_input = true := by
      intro k row hk
      cases changed with
      | false =>
        rw [hrest.2.2] at hk
        exact hin k row hk
      | true =>
        rw [hrest.2.2] at hk
        by_cases hkk : k = key
        · subst hkk
          rw [Function.update_self] at hk
          cases hk
          rfl
        · rw [Function.update_of_ne hkk] at hk
          exact hin k row hk
    obtain ⟨⟨events, e2⟩, hr⟩ := run_set_inputs fuel ins { e with db := db } hwf1 hin1
    simp only [map_cons, run, step, hset, hr]
    exact ⟨_, rfl⟩

theorem run_set_all (fuel : Nat) (cancel : CancelFlag) (ins : List (QueryKey × ValueHash)) :
    ∃ r, run q fuel (set_all ins) (Engine.new cancel) = .ok r :=
  run_set_inputs fuel ins.reverse _ (Db.wf_new cancel) nofun

/-- The value a key has under the inputs of a sequence of operations. -/
def current_value (q : Queries) (rank : QueryKey → Nat) (ops : List Op) (key : QueryKey) : ValueHash :=
  q.rules.solution rank (fun k => (current_inputs ops).lookup k) key

/-- **Every demand that returns a value returns the current one.** -/
theorem demand_current (hs : Stratified q rank) (hq : q.Honest) {cancel : CancelFlag} {ops : List Op} {events : List Event}
    (hrun : run q fuel ops (Engine.new cancel) = .ok (events, e)) (fuel' : Nat) (key : QueryKey) :
    Meets (rank key < fuel')
      (fun p => (∀ v, p.1 = .ok v → v = current_value q rank ops key) ∧
        ∀ c, p.1 = .error c → ¬ e.db.Never)
      (demand q fuel' key e) := by
  have h := (RankedAt.new q rank cancel).run hs hq hrun
  refine (demand_spec (hs.ranked hq _ _) (all_ranked_pos key) h.inv h.base.stack fuel').mono
    (fun h => h) fun p hp => ?_
  refine ⟨fun v hv => ?_, hp.2.2.2.2⟩
  rw [hp.2.2.2.1 v hv]
  show q.rules.solution rank (inputs_at _ _) key = _
  have hins : (fun k => (ops.foldl put_input []).lookup k) = fun k => (writes events ++ []).lookup k :=
    lookup_writes hs hq (RankedAt.new q rank cancel) hrun rfl
  rw [inputs_at_length, ← hins]
  rfl

/-- A run of the engine whose ids have no bound: what a demand returns, a fresh one returns. -/
theorem scratch_wide (hs : Stratified q rank) (hq : q.Honest) {cancel : CancelFlag} {ops : List Op} {events : List Event}
    (hrun : run q fuel ops (Engine.new cancel) = .ok (events, e)) {fuel' : Nat} {key : QueryKey}
    {v : ValueHash} {e' : Engine} (hd : demand q fuel' key e = .ok (.ok v, e')) {fuel'' : Nat}
    (hf : rank key < fuel'') : ∃ events' fresh e'',
      run q fuel'' (set_all (current_inputs ops)) (Engine.new .never) = .ok (events', fresh) ∧
      demand q fuel'' key fresh = .ok (.ok v, e'') := by
  have hval := demand_current hs hq hrun fuel' key
  rw [hd] at hval
  obtain ⟨⟨events', fresh⟩, hfresh⟩ :=
    run_set_all (q := q) fuel'' .never (current_inputs ops)
  refine ⟨events', fresh, ?_⟩
  rcases (demand_current hs hq hfresh fuel'' key).elim with ⟨⟨res, e''⟩, hr, hok, herr⟩ | ⟨_, hn⟩
  swap
  · exact absurd hf hn
  have hnever : fresh.db.Never := fun n => by
    rw [(RankedAt.new q rank .never).run_answers hs hq hfresh]
    rfl
  cases res with
  | error c => exact absurd hnever (herr c rfl)
  | ok v' =>
    have hsame : v' = v := by
      rw [hok v' rfl, hval.1 v rfl]
      unfold current_value
      rw [lookup_current_inputs_set_all]
    exact ⟨e'', hfresh, by rw [hr, hsame]⟩

end Wide

/-- A fresh database with the inputs these operations leave returns `v` for `key`. -/
structure Scratch (ids : Ids) (q : Queries) (fuel : Nat) (ops : List Op) (key : QueryKey)
    (v : ValueHash) (events : List Event) (fresh e' : Engine) : Prop where
  built : @run ids q fuel (set_all (current_inputs ops)) (Engine.new .never) = .ok (events, fresh)
  demanded : @demand ids q fuel key fresh = .ok (.ok v, e')

/-- **From-scratch consistency**, of every run whose tables fit: a demand returns, and the value it
returns is the one a fresh database with the current inputs returns. -/
theorem demand_from_scratch {q : Queries} {rank : QueryKey → Nat} (hs : Stratified q rank)
    (hq : q.Honest) {cancel : CancelFlag} {fuel : Nat} {ops : List Op} {events : List Event}
    {e : Engine} (hrun : run q fuel ops (Engine.new cancel) = .ok (events, e))
    (hfit : Fit events e) (key : QueryKey) :
    (∀ fuel', rank key < fuel' → ∃ r e', Yields (fun ids => @demand ids q fuel' key e) r e') ∧
    ∀ fuel' v e', demand q fuel' key e = .ok (.ok v, e') → e'.db.Fits →
      ∀ fuel'', rank key < fuel'' → ∃ events' fresh e'',
        Scratch .wide q fuel'' ops key v events' fresh e'' ∧
        (Fit events' fresh → e''.db.Fits → Scratch .u32 q fuel'' ops key v events' fresh e'') := by
  have hwide := run_agrees Ids.exact_u32 Ids.exact_wide q hrun hfit
  constructor
  · intro fuel' hf
    rcases (demand_current hs hq hwide fuel' key).elim with ⟨⟨r, e'⟩, hr, _⟩ | ⟨_, hn⟩
    · exact ⟨r, e', (demand_agrees Ids.exact_wide Ids.exact_u32 q fuel' key e).yields hr⟩
    · exact absurd hf hn
  · intro fuel' v e' hd hd' fuel'' hf
    have hdw := (demand_agrees Ids.exact_u32 Ids.exact_wide q fuel' key e hd hd').2
    obtain ⟨events', fresh, e'', hbuilt, hdemanded⟩ := scratch_wide hs hq hwide hdw hf
    refine ⟨events', fresh, e'', ⟨hbuilt, hdemanded⟩, fun hfresh he'' => ⟨?_, ?_⟩⟩
    · exact run_agrees Ids.exact_wide Ids.exact_u32 q hbuilt hfresh
    · exact (demand_agrees Ids.exact_wide Ids.exact_u32 q fuel'' key fresh hdemanded he'').2

/-- What the synthetic query set is asked: an edit that is cut off, an edit that is not, and a
cancelled demand between them. -/
def synth_ops : List Op :=
  [.set_input (.one IN 0) 11, .set_input (.one IN 1) 22, .demand (.unit TOP),
    .set_input (.one IN 1) 25, .demand (.unit TOP), .set_input (.one IN 1) 35, .is_red (.one MID 1),
    .demand (.unit TOP), .compact]

/-- Whether a run from a new engine ends, and all its engines fit. -/
def runs_fit (q : Queries) (fuel : Nat) (ops : List Op) (cancel : CancelFlag) : Bool :=
  match run q fuel ops (Engine.new cancel) with
  | .ok (events, e) => decide (Fit events e)
  | .error _ => false

theorem exists_fit (q : Queries) (fuel : Nat) (ops : List Op) (cancel : CancelFlag)
    (h : runs_fit q fuel ops cancel = true) :
    ∃ events e, run q fuel ops (Engine.new cancel) = .ok (events, e) ∧ Fit events e := by
  unfold runs_fit at h
  split at h
  · rename_i events e hrun
    exact ⟨events, e, hrun, of_decide_eq_true h⟩
  · cases h

theorem demand_from_scratch_synth : ∃ events e,
    run (synth 2) 3 synth_ops (Engine.new ⟨fun n => n == 14, 0⟩) = .ok (events, e) ∧
    (∀ fuel', 2 < fuel' →
      ∃ r e', Yields (fun ids => @demand ids (synth 2) fuel' (.unit TOP) e) r e') ∧
    ∀ fuel' v e', demand (synth 2) fuel' (.unit TOP) e = .ok (.ok v, e') → e'.db.Fits →
      ∀ fuel'', 2 < fuel'' → ∃ events' fresh e'',
        Scratch .wide (synth 2) fuel'' synth_ops (.unit TOP) v events' fresh e'' ∧
        (Fit events' fresh → e''.db.Fits →
          Scratch .u32 (synth 2) fuel'' synth_ops (.unit TOP) v events' fresh e'') := by
  obtain ⟨events, e, h, hfit⟩ := exists_fit (synth 2) 3 synth_ops ⟨fun n => n == 14, 0⟩
    (by decide +kernel)
  exact ⟨events, e, h,
    demand_from_scratch (stratified_synth 2) (honest_synth 2) h hfit (.unit TOP)⟩

theorem current_inputs_wrapped (n : Nat) :
    current_inputs (wrapped_ops n) = [(.one IN 1, 25), (.one IN 0, 11)] := by
  have hreds : ∀ (ks : List QueryKey) (ins : List (QueryKey × ValueHash)),
      (ks.map Op.is_red).foldl put_input ins = ins := by
    intro ks
    induction ks with
    | nil => exact fun _ => rfl
    | cons k ks ih => exact ih
  unfold current_inputs wrapped_ops
  rw [foldl_append, foldl_append, hreds]
  rfl

/-- The bound is needed: of two inputs that share a row, the first is answered with the value of the
second. -/
theorem stale_after_wrap : ∃ ops events e e',
    run (synth 2) 3 ops (Engine.new .never) = .ok (events, e) ∧
    demand (synth 2) 3 (.one IN 0) e = .ok (.ok 25, e') ∧
    ∃ events' fresh e'', Scratch .u32 (synth 2) 3 ops (.one IN 0) 11 events' fresh e'' := by
  obtain ⟨events, e, hrun, h, _⟩ := run_wrapped (n := 2 ^ 32 - 2) (by decide)
  obtain ⟨e', hpull, _⟩ := pull_input (synth 2) 2 true
    h.is_cancelled h.input (congrArg Node.is_input h.row0) (congrArg Node.state h.row0)
  have hdemand : demand (synth 2) 3 (.one IN 0) e = .ok (.ok 25, e') := by
    unfold demand
    rw [hpull]
    unfold Db.answer
    rw [h.row0]
    rfl
  refine ⟨_, events, e, e', hrun, hdemand, ?_⟩
  have hfresh : ∃ events' fresh e'',
      run (synth 2) 3 (set_all [(.one IN 1, 25), (.one IN 0, 11)]) (Engine.new .never) =
        .ok (events', fresh) ∧ demand (synth 2) 3 (.one IN 0) fresh = .ok (.ok 11, e'') :=
    ⟨_, _, _, rfl, rfl⟩
  obtain ⟨events', fresh, e'', hbuilt, hdemanded⟩ := hfresh
  exact ⟨events', fresh, e'', by rw [current_inputs_wrapped]; exact hbuilt, hdemanded⟩

end Fors.Query
