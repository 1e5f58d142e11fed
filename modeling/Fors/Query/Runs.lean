import Fors.Query.Pull

/-!
# Runs of operations

A run writes inputs, demands keys, asks for red keys, compacts and opens windows.  The input writes
that changed a value, newest first, are the history of the run (`history_of`): after `ws` the database
is at revision `ws.length`.

`At q sol ws e` is the invariant between operations; `sol` chooses a valuation for the inputs of each
revision.  `step_spec` is the step lemma: an operation keeps `At`, and it moves the engine in one of
three ways (`Moves`).

Principal result: `RankedAt.run`.
-/

namespace Fors.Query

attribute [local instance] Ids.wide

open RedGreen

/-- The inputs after the first `r` of the writes `ws` (newest first). -/
def inputs_at (ws : List (QueryKey × ValueHash)) (r : Nat) (key : QueryKey) : Option ValueHash :=
  (ws.drop (ws.length - r)).lookup key

/-- A choice of a valuation for every input map. -/
structure Solver where
  value : (QueryKey → Option ValueHash) → QueryKey → ValueHash
  value_input : ∀ {inp k v}, inp k = some v → value inp k = v

def history_of (sol : Solver) (ws : List (QueryKey × ValueHash)) : History QueryKey ValueHash where
  inputs := inputs_at ws
  value r := sol.value (inputs_at ws r)
  value_input h := sol.value_input h

theorem inputs_at_length (ws : List (QueryKey × ValueHash)) :
    inputs_at ws ws.length = fun key => ws.lookup key := by
  funext key
  simp [inputs_at]

theorem inputs_at_cons {ws : List (QueryKey × ValueHash)} {w : QueryKey × ValueHash} {r : Nat}
    (hr : r ≤ ws.length) : inputs_at (w :: ws) r = inputs_at ws r := by
  funext key
  unfold inputs_at
  rw [List.length_cons, show ws.length + 1 - r = (ws.length - r) + 1 by omega, List.drop_succ_cons]

theorem lookup_cons_eq_update (key : QueryKey) (v : ValueHash) (ws : List (QueryKey × ValueHash)) :
    (fun k => ((key, v) :: ws).lookup k) = Function.update (fun k => ws.lookup k) key (some v) := by
  funext k
  by_cases hk : k = key
  · subst hk
    simp
  · have hne : (k == key) = false := by simpa using hk
    simp [List.lookup_cons, hne, Function.update_of_ne hk]

/-- The write an operation made. -/
def wrote_by : Op → Reply → List (QueryKey × ValueHash)
  | .set_input key value, .wrote true => [(key, value)]
  | _, _ => []

/-- The writes of a run, newest first. -/
def writes : List Event → List (QueryKey × ValueHash)
  | [] => []
  | ev :: evs => writes evs ++ wrote_by ev.op ev.reply

/-- The invariant between operations. -/
structure At (q : Queries) (sol : Solver) (ws : List (QueryKey × ValueHash)) (e : Engine) : Prop where
  wf : e.db.WF
  rev_eq : e.db.rev = ws.length
  sound : ∃ Seen, Sound q.rules (history_of sol ws) Seen ws.length e.db.table
  stack : e.db.stack = []

/-- `op` demands `key` or asks whether it is red. -/
def Op.Pulls (op : Op) (key : QueryKey) : Prop := op = .demand key ∨ op = .is_red key

theorem Op.Pulls.unique {op : Op} {k k' : QueryKey} (h : op.Pulls k) (h' : op.Pulls k') : k = k' := by
  rcases h with rfl | rfl <;> rcases h' with h' | h' <;> cases h' <;> rfl

/-- How an operation moves the engine. -/
inductive Moves (q : Queries) (H : History QueryKey ValueHash) (rank : QueryKey → Nat)
    (rev : Nat) (op : Op) (reply : Reply) (e e' : Engine) : Prop where
  | pulled {key : QueryKey} (hop : op.Pulls key) (nothing : wrote_by op reply = [])
      (inv : Inv q H rank rev e'.db)
      (ext : Ext q H rank rev (rank key + 1) e e')
  | wrote {key : QueryKey} {v : ValueHash} (hop : op = .set_input key v)
      (one : wrote_by op reply = [(key, v)]) (hne : e.db.input key ≠ some v)
      (hin : ∀ row, e.db.table key = some row → row.is_input = true)
      (table : e'.db.table = Function.update e.db.table key (some (Row.written v (rev + 1))))
      (calls : e'.calls = e.calls) (answers : e'.db.cancel.answers = e.db.cancel.answers)
  | idle (nothing : wrote_by op reply = []) (table : e'.db.table = e.db.table) (calls : e'.calls = e.calls)
      (answers : e'.db.cancel.answers = e.db.cancel.answers)

section Top

variable {q : Queries} {H : History QueryKey ValueHash} {rank : QueryKey → Nat} {rev : Nat}

/-- **A demand at the top level** returns the current value. -/
theorem demand_spec (hrk : Ranked q H rank rev) {e : Engine} {key : QueryKey}
    (hpos : 0 < rank key) (hinv : Inv q H rank rev e.db) (hstack : e.db.stack = []) (fuel : Nat) :
    Meets (rank key ≤ fuel) (fun p => Inv q H rank rev p.2.db ∧
      Ext q H rank rev (rank key + 1) e p.2 ∧ p.2.db.stack = [] ∧
      (∀ v, p.1 = .ok v → v = H.value rev key) ∧ ∀ c, p.1 = .error c → ¬ e.db.Never)
      (demand q fuel key e) := by
  have habove : Above rank e.db (rank key + 1) := fun f hf => by rw [hstack] at hf; cases hf
  unfold demand
  rcases (pull_spec hrk fuel key true e hpos hinv habove).elim with ⟨⟨res, e1⟩, hres, hpost⟩ | ⟨hres, hn⟩
  · rw [hres]
    obtain ⟨es, hes, _⟩ := hpost.stack
    have hstack1 : e1.db.stack = [] := by rw [hes, hstack]; rfl
    cases res with
    | error c => exact ⟨hpost.inv, hpost.ext, hstack1, nofun, fun _ _ => hpost.err c rfl⟩
    | ok a =>
      refine ⟨hpost.inv, hpost.ext, hstack1, fun v hv => ?_, nofun⟩
      obtain ⟨row, hrow, hcur, rfl⟩ := hpost.ok a rfl
      cases hv
      exact hpost.inv.current_value hcur hrow
  · rw [hres]
    exact hn

/-- **`is_red` at the top level.** -/
theorem is_red_spec (hrk : Ranked q H rank rev) {e : Engine} {key : QueryKey}
    (hpos : 0 < rank key) (hinv : Inv q H rank rev e.db) (hstack : e.db.stack = []) (fuel : Nat) :
    Meets (rank key ≤ fuel + 1) (fun p => Inv q H rank rev p.2.db ∧
      Ext q H rank rev (rank key + 1) e p.2 ∧ p.2.db.stack = [] ∧ ∀ c, p.1 = .error c → ¬ e.db.Never)
      (is_red q fuel key e) := by
  unfold is_red
  dsimp only
  split
  · rename_i hc
    have hch := (Db.sameRows_polled e.db).trans
      (Db.sameRows_charge _ fun s => { s with cancellations := s.cancellations + 1 })
    refine ⟨hinv.of_sameRows hch rfl, .of_sameRows hch rfl rfl rfl, hstack, fun _ _ hn => ?_⟩
    rw [Db.is_cancelled, hn] at hc
    cases hc
  obtain ⟨id, db, hprobe⟩ : ∃ id db, e.db.polled.probe key false = (id, db) := ⟨_, _, rfl⟩
  have hpoll : Ext q H rank rev (rank key + 1) e ⟨e.db.polled, e.calls⟩ :=
    .of_sameRows (Db.sameRows_polled _) rfl rfl rfl
  obtain ⟨hf, hinv1, hext, es, hes, _, _⟩ :=
    probe_spec (e := ⟨e.db.polled, e.calls⟩) (hinv.of_sameRows (Db.sameRows_polled _) rfl) hprobe
  have hext1 := hpoll.trans (hext _)
  have hstack1 : db.stack = [] := by
    rw [hes]
    show note_deps es e.db.stack = []
    rw [hstack]
    rfl
  rw [hprobe]
  dsimp only
  split
  · exact ⟨hinv1, hext1, hstack1, fun _ h => by cases h⟩
  rename_i hi
  have hi' : (db.row id).is_input = false := by simpa using hi
  split
  · have hch := Db.sameRows_charge db fun s => { s with memo_hits := s.memo_hits + 1 }
    have hext2 : Ext q H rank rev (rank key + 1) ⟨db, e.calls⟩
        ⟨db.charge fun s => { s with memo_hits := s.memo_hits + 1 }, e.calls⟩ :=
      .of_sameRows hch rfl rfl rfl
    exact ⟨hinv1.of_sameRows hch rfl, hext1.trans hext2, hstack1, fun _ h => by cases h⟩
  rename_i hv
  rw [hinv1.rev_eq] at hv
  rw [hstack1]
  have habove : Above rank db (rank key + 1) := fun f hf => by rw [hstack1] at hf; cases hf
  rcases (verify_spec hrk (pull_spec hrk fuel) (e := ⟨db, e.calls⟩) hpos hinv1 habove hf hi'
    (not_current hf hi' hv)).elim with ⟨⟨res, e1⟩, hres, hpost⟩ | ⟨hres, hn⟩
  · rw [hres]
    have hstack2 : e1.db.stack = [] := hpost.stack.trans hstack1
    cases res with
    | error c =>
      exact ⟨hpost.inv, hext1.trans hpost.ext, hstack2,
        fun _ _ hn => hpost.err c rfl (hext1.never hn)⟩
    | ok green => exact ⟨hpost.inv, hext1.trans hpost.ext, hstack2, fun _ h => by cases h⟩
  · rw [hres]
    exact hn

end Top

section Step

variable {q : Queries} {sol : Solver} {ws : List (QueryKey × ValueHash)} {e : Engine}

theorem At.inv (h : At q sol ws e) {rank : QueryKey → Nat} (hr : e.db.table.Ranked rank) :
    Inv q (history_of sol ws) rank ws.length e.db := ⟨h.wf, h.rev_eq, h.sound, hr⟩

theorem At.new (q : Queries) (sol : Solver) (cancel : CancelFlag) :
    At q sol [] (Engine.new cancel) := by
  refine ⟨Db.wf_new cancel, rfl, ⟨fun _ _ => False, ?_⟩, rfl⟩
  exact Sound.init fun k => by simp [history_of, inputs_at]

/-- The input the engine holds is the one last written. -/
theorem At.input_eq (h : At q sol ws e) (key : QueryKey) : e.db.input key = ws.lookup key := by
  obtain ⟨Seen, hs⟩ := h.sound
  have hlen : (history_of sol ws).inputs ws.length key = ws.lookup key :=
    congrFun (inputs_at_length ws) key
  cases hw : ws.lookup key with
  | some v =>
    obtain ⟨row, hrow, hi, rfl⟩ := hs.input_row (hlen.trans hw)
    exact Db.table_input hrow hi
  | none =>
    by_contra hne
    obtain ⟨v, hv⟩ := Option.ne_none_iff_exists'.mp hne
    obtain ⟨row, hrow, hi, rfl⟩ := Db.input_some hv
    have := hs.row_input hrow hi ws.length (hs.changed_le hrow) le_rfl
    rw [hlen, hw] at this
    cases this

variable {e' : Engine}

/-- A write that changed an input. -/
theorem At.write (h : At q sol ws e) {key : QueryKey} {v : ValueHash}
    (hwf : e'.db.WF) (hrev : e'.db.rev = e.db.rev + 1) (hstack : e'.db.stack = e.db.stack)
    (hne : e.db.input key ≠ some v) (hin : ∀ row, e.db.table key = some row → row.is_input = true)
    (htable : e'.db.table = Function.update e.db.table key (some (Row.written v (e.db.rev + 1)))) :
    At q sol ((key, v) :: ws) e' := by
  refine ⟨hwf, by rw [hrev, h.rev_eq]; rfl, ?_, hstack.trans h.stack⟩
  obtain ⟨Seen, hs⟩ := h.sound
  have hs' : Sound q.rules (history_of sol ((key, v) :: ws)) Seen ws.length e.db.table :=
    hs.congr (fun r hr => inputs_at_cons hr) fun r hr => congrArg sol.value (inputs_at_cons hr)
  rw [htable, h.rev_eq]
  refine ⟨Seen, hs'.write hin ?_ ?_⟩
  · show inputs_at ((key, v) :: ws) ws.length key ≠ some v
    rw [inputs_at_cons le_rfl, inputs_at_length]
    exact fun hv => hne ((h.input_eq key).trans hv)
  · show inputs_at ((key, v) :: ws) ((key, v) :: ws).length = Function.update (inputs_at _ ws.length) _ _
    rw [inputs_at_length, lookup_cons_eq_update, inputs_at_cons le_rfl, inputs_at_length]

variable {op : Op} {reply : Reply}

/-- **The step lemma.** -/
theorem step_spec {rank : QueryKey → Nat} {fuel : Nat} (h : At q sol ws e)
    (hr : ∀ key, op.Pulls key → 0 < rank key ∧
      Ranked q (history_of sol ws) rank ws.length ∧ e.db.table.Ranked rank)
    (hstep : step q fuel op e = .ok (reply, e')) :
    At q sol (wrote_by op reply ++ ws) e' ∧
      Moves q (history_of sol ws) rank ws.length op reply e e' := by
  have keep : ∀ {e1 : Engine}, Inv q (history_of sol ws) rank ws.length e1.db → e1.db.stack = [] →
      At q sol ws e1 := fun hi hs => ⟨hi.wf, hi.rev_eq, hi.sound, hs⟩
  cases op with
  | set_input key v =>
    unfold step at hstep
    dsimp only at hstep
    split at hstep
    · cases hstep
    rename_i changed db hset
    cases hstep
    obtain ⟨hwf, hstack, hcancel, hin, hrest⟩ := Db.set_input_spec h.wf hset
    cases changed with
    | true =>
      obtain ⟨hrev, hne, htable⟩ := hrest
      refine ⟨h.write hwf hrev hstack hne hin htable,
        .wrote rfl rfl hne hin ?_ rfl (congrArg CancelFlag.answers hcancel)⟩
      rw [htable, h.rev_eq]
    | false =>
      obtain ⟨hrev, _, htable⟩ := hrest
      refine ⟨⟨hwf, hrev.trans h.rev_eq, ?_, hstack.trans h.stack⟩,
        .idle rfl htable rfl (congrArg CancelFlag.answers hcancel)⟩
      show ∃ Seen, Sound q.rules (history_of sol ws) Seen ws.length db.table
      rw [htable]
      exact h.sound
  | demand key =>
    unfold step at hstep
    dsimp only at hstep
    split at hstep
    · cases hstep
    rename_i r e1 hd
    cases hstep
    obtain ⟨hpos, hrk, htr⟩ := hr key (.inl rfl)
    have hpost := demand_spec hrk hpos (h.inv htr) h.stack fuel
    rw [hd] at hpost
    obtain ⟨hinv, hext, hstack, _⟩ := hpost
    exact ⟨keep hinv hstack, .pulled (.inl rfl) rfl hinv hext⟩
  | is_red key =>
    unfold step at hstep
    dsimp only at hstep
    split at hstep
    · cases hstep
    rename_i r e1 hd
    cases hstep
    obtain ⟨hpos, hrk, htr⟩ := hr key (.inr rfl)
    have hpost := is_red_spec hrk hpos (h.inv htr) h.stack fuel
    rw [hd] at hpost
    obtain ⟨hinv, hext, hstack, _⟩ := hpost
    exact ⟨keep hinv hstack, .pulled (.inr rfl) rfl hinv hext⟩
  | compact =>
    unfold step at hstep
    dsimp only at hstep
    split at hstep
    · cases hstep
    rename_i db hc
    cases hstep
    obtain ⟨hwf, htable, hrev, hstack, hcancel⟩ := Db.compact_spec h.wf hc
    refine ⟨⟨hwf, hrev.trans h.rev_eq, ?_, hstack.trans h.stack⟩,
      .idle rfl htable rfl (congrArg CancelFlag.answers hcancel)⟩
    show ∃ Seen, Sound q.rules (history_of sol ws) Seen ws.length db.table
    rw [htable]
    exact h.sound
  | open_window =>
    cases hstep
    have hs := Db.sameRows_open_window e.db
    refine ⟨⟨hs.wf h.wf, h.rev_eq, ?_, h.stack⟩, .idle rfl hs.table rfl rfl⟩
    show ∃ Seen, Sound q.rules (history_of sol ws) Seen ws.length e.db.open_window.table
    rw [hs.table]
    exact h.sound

theorem Moves.ranked {H : History QueryKey ValueHash} {rank : QueryKey → Nat} {rev : Nat} {e : Engine} (hm : Moves q H rank rev op reply e e')
    (hr : e.db.table.Ranked rank) :
    e'.db.table.Ranked rank := by
  cases hm with
  | pulled _ _ inv _ => exact inv.ranked
  | idle _ table => rw [table]; exact hr
  | @wrote key v _ _ _ _ table =>
    rintro k d h0 ⟨row, hk, hin, hd⟩
    rw [table] at hk
    by_cases hkk : k = key
    · subst hkk
      rw [Function.update_self] at hk
      cases hk
      cases hin
    · rw [Function.update_of_ne hkk] at hk
      exact hr h0 ⟨row, hk, hin, hd⟩

/-- No operation changes what the polls of the flag find. -/
theorem Moves.answers_eq {H : History QueryKey ValueHash} {rank : QueryKey → Nat} {rev : Nat} {e : Engine} (hm : Moves q H rank rev op reply e e') :
    e'.db.cancel.answers = e.db.cancel.answers := by
  cases hm with
  | pulled _ _ _ ext => exact ext.answers
  | wrote _ _ _ _ _ _ answers => exact answers
  | idle _ _ _ answers => exact answers

end Step

/-! ## Stratified query sets -/

/-- Every read a computation can take, whatever the answers, goes to a key of smaller rank. -/
def Stratified (q : Queries) (rank : QueryKey → Nat) : Prop :=
  ∀ k d, ReadTree.Asks (fun _ _ => True) (q.compute k) d → rank d < rank k

section Stratified

variable {q : Queries} {rank : QueryKey → Nat}

theorem Stratified.ranked_rules (hs : Stratified q rank) : q.rules.Ranked rank := fun _ k d hd =>
  hs k d (ReadTree.asks_of_mem_trace (fun _ => trivial) hd)

/-- The valuation a rank gives. -/
def rank_solver (q : Queries) (rank : QueryKey → Nat) : Solver where
  value := q.rules.solution rank
  value_input h := Rules.solution_input rank h

/-- The rank with every key ranked. -/
def all_ranked (rank : QueryKey → Nat) (key : QueryKey) : Nat := rank key + 1

theorem all_ranked_pos (key : QueryKey) : 0 < all_ranked rank key := Nat.succ_pos _

theorem Stratified.ranked (hs : Stratified q rank) (hq : q.Honest)
    (ws : List (QueryKey × ValueHash)) (rev : Nat) :
    Ranked q (history_of (rank_solver q rank) ws) (all_ranked rank) rev where
  honest := hq
  solves {k} _ hk := by
    have h := Rules.solves_solution hs.ranked_rules (inputs_at ws rev) k
    have hk' : inputs_at ws rev k = none := hk
    rw [hk', Option.getD_none] at h
    exact h
  reads _ _ hd := ⟨all_ranked_pos _, Nat.succ_lt_succ (hs _ _ (hd.mono fun _ _ _ => trivial))⟩

/-- The invariant of a run of a stratified query set. -/
structure RankedAt (q : Queries) (rank : QueryKey → Nat) (ws : List (QueryKey × ValueHash))
    (e : Engine) : Prop where
  base : At q (rank_solver q rank) ws e
  ranked : e.db.table.Ranked (all_ranked rank)

theorem RankedAt.inv {ws : List (QueryKey × ValueHash)} {e : Engine} (h : RankedAt q rank ws e) :
    Inv q (history_of (rank_solver q rank) ws) (all_ranked rank) ws.length e.db := h.base.inv h.ranked

theorem RankedAt.new (q : Queries) (rank : QueryKey → Nat) (cancel : CancelFlag) :
    RankedAt q rank [] (Engine.new cancel) := by
  refine ⟨.new .., ?_⟩
  rintro k d _ ⟨row, hk, _⟩
  cases hk

variable {fuel : Nat}

theorem RankedAt.step (hs : Stratified q rank) (hq : q.Honest) {ws : List (QueryKey × ValueHash)}
    {e e' : Engine} {op : Op} {reply : Reply} (h : RankedAt q rank ws e)
    (hstep : step q fuel op e = .ok (reply, e')) :
    RankedAt q rank (wrote_by op reply ++ ws) e' ∧
      Moves q (history_of (rank_solver q rank) ws) (all_ranked rank) ws.length op reply e e' := by
  obtain ⟨hat, hm⟩ :=
    step_spec h.base (fun _ _ => ⟨all_ranked_pos _, hs.ranked hq ws _, h.ranked⟩) hstep
  exact ⟨⟨hat, hm.ranked h.ranked⟩, hm⟩

/-- **The run lemma.** -/
theorem RankedAt.run (hs : Stratified q rank) (hq : q.Honest) {ops : List Op}
    {ws : List (QueryKey × ValueHash)} {e e' : Engine} {events : List Event} (h : RankedAt q rank ws e)
    (hrun : run q fuel ops e = .ok (events, e')) : RankedAt q rank (writes events ++ ws) e' := by
  replace hrun := runs hrun
  induction hrun generalizing ws with
  | nil => exact h
  | cons hstep _ ih =>
    have h2 := ih (h.step hs hq hstep).1
    rw [← List.append_assoc] at h2
    exact h2

theorem RankedAt.run_answers (hs : Stratified q rank) (hq : q.Honest) {ops : List Op}
    {ws : List (QueryKey × ValueHash)} {e e' : Engine} {events : List Event} (h : RankedAt q rank ws e)
    (hrun : Query.run q fuel ops e = .ok (events, e')) :
    e'.db.cancel.answers = e.db.cancel.answers := by
  replace hrun := runs hrun
  induction hrun generalizing ws with
  | nil => rfl
  | cons hstep _ ih =>
    obtain ⟨h1, hm⟩ := h.step hs hq hstep
    exact (ih h1).trans hm.answers_eq

end Stratified

end Fors.Query
