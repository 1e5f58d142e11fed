import Fors.Query.Consistency

/-!
# Minimal re-execution

For a stratified and honest query set whose flag nobody sets, as long as the tables fit:

* no key is executed twice in one revision;
* a key that had a value is executed again only when a dependency it recorded changed after the key
  was last verified, and below every such dependency an input was written with another value since;
* a key whose recorded dependencies keep their values is not executed (the early cutoff).

`LogInv` is the invariant that ties the calls a query set received to the events of the run.  Once the
ids have run out a key is executed though nothing below it was written (`executed_after_wrap`).

Principal result: `minimal_reexecution`.
-/

namespace Fors.Query

open RedGreen List Option

/-- The executions among the calls: the key and the revision. -/
def executions : List Call → List (QueryKey × Nat)
  | [] => []
  | .compute key db :: cs => (key, db.rev) :: executions cs
  | .on_cycle _ _ :: cs => executions cs

theorem executions_append :
    ∀ cs cs' : List Call, executions (cs ++ cs') = executions cs ++ executions cs'
  | [], _ => rfl
  | .compute _ _ :: cs, cs' => congrArg (_ :: ·) (executions_append cs cs')
  | .on_cycle _ _ :: cs, cs' => executions_append cs cs'

theorem executions_fst : ∀ cs : List Call, (executions cs).map Prod.fst = computed cs
  | [] => rfl
  | .compute _ _ :: cs => congrArg (_ :: ·) (executions_fst cs)
  | .on_cycle _ _ :: cs => executions_fst cs

variable {key : QueryKey}

theorem mem_executions {r : Nat} :
    ∀ {cs : List Call}, (key, r) ∈ executions cs → ∃ db, .compute key db ∈ cs ∧ db.rev = r
  | .compute key' db :: cs, h => by
    rcases mem_cons.mp h with h | h
    · cases h
      exact ⟨db, mem_cons_self, rfl⟩
    · obtain ⟨db', hd, hr⟩ := mem_executions h
      exact ⟨db', mem_cons_of_mem _ hd, hr⟩
  | .on_cycle _ _ :: cs, h => by
    have h' : (key, r) ∈ executions cs := h
    obtain ⟨db', hd, hr⟩ := mem_executions h'
    exact ⟨db', mem_cons_of_mem _ hd, hr⟩

variable {db : Db}

theorem mem_executions_of_mem :
    ∀ {cs : List Call}, .compute key db ∈ cs → (key, db.rev) ∈ executions cs
  | .compute key' db' :: cs, h => by
    rcases mem_cons.mp h with h | h
    · cases h
      exact mem_cons_self
    · exact mem_cons_of_mem _ (mem_executions_of_mem h)
  | .on_cycle _ _ :: cs, h => by
    rcases mem_cons.mp h with h | h
    · cases h
    · have h' : (key, db.rev) ∈ executions cs := mem_executions_of_mem h
      exact h'

/-- `d` is among the edges `k` recorded. -/
def Db.Recorded (db : Db) (k d : QueryKey) : Prop := d ∈ db.deps_of k

/-- Among the events an input below `k` was written with another value, at revision `since` or
later and before `db`. -/
def WrittenBelow (events : List Event) (db : Db) (since : Nat) (k : QueryKey) : Prop :=
  ∃ x, Relation.ReflTransGen db.Recorded k x ∧ ∃ ev ∈ events, ∃ old new,
    ev.op = .set_input x new ∧ ev.before.db.input x = some old ∧ old ≠ new ∧
    since ≤ ev.before.db.rev ∧ ev.before.db.rev < db.rev

/-- An execution of `key` on `db` that had to be: either the key had no value, or a recorded
dependency changed after the key was verified, and it changed because an input was written. -/
def Needed (events : List Event) (key : QueryKey) (db : Db) : Prop :=
  ∀ v, db.verified_at key = some v →
    (∃ d ∈ db.deps_of key, ∃ c, db.changed_at d = some c ∧ v < c) ∧
    ∀ d ∈ db.deps_of key, ∀ c, db.changed_at d = some c → v < c → WrittenBelow events db v d

variable {events : List Event}

theorem WrittenBelow.mono {events' : List Event} {since : Nat} {k : QueryKey}
    (h : WrittenBelow events db since k) (hs : ∀ ev ∈ events, ev ∈ events') :
    WrittenBelow events' db since k := by
  obtain ⟨x, hx, ev, hev, hrest⟩ := h
  exact ⟨x, hx, ev, hs ev hev, hrest⟩

theorem Needed.mono {events' : List Event}
    (h : Needed events key db) (hs : ∀ ev ∈ events, ev ∈ events') : Needed events' key db :=
  fun v hv => ⟨(h v hv).1, fun d hd c hc hlt => ((h v hv).2 d hd c hc hlt).mono hs⟩

/-! ## Writes and revisions -/

variable {ws : List (QueryKey × ValueHash)}

theorem inputs_at_isSome_mono {r r' : Nat} {k : QueryKey}
    (hr : r ≤ r') (h : (inputs_at ws r k).isSome) : (inputs_at ws r' k).isSome := by
  unfold inputs_at at *
  have hdrop : ws.drop (ws.length - r) =
      (ws.drop (ws.length - r')).drop (ws.length - r - (ws.length - r')) := by
    rw [drop_drop]
    congr 1
    omega
  rw [hdrop] at h
  generalize ws.drop (ws.length - r') = l at h ⊢
  generalize ws.length - r - (ws.length - r') = n at h
  induction l generalizing n with
  | nil => simp at h
  | cons p l ih =>
    cases n with
    | zero => exact h
    | succ n =>
      rw [drop_succ_cons] at h
      obtain ⟨k', v⟩ := p
      rw [lookup_cons]
      split
      · rfl
      · exact ih n h

/-- The write that made revision `c`. -/
def MadeBy (events : List Event) (ws : List (QueryKey × ValueHash)) (c : Nat) : Prop :=
  ∃ ev ∈ events, ∃ k v, ev.op = .set_input k v ∧ ev.before.db.rev + 1 = c ∧
    inputs_at ws c = Function.update (inputs_at ws (c - 1)) k (some v) ∧
    ∀ k', ev.before.db.input k' = inputs_at ws (c - 1) k'

theorem MadeBy.cons {c : Nat}
    {w : QueryKey × ValueHash} {ev : Event} (h : MadeBy events ws c) (hc : c ≤ ws.length) :
    MadeBy (events ++ [ev]) (w :: ws) c := by
  obtain ⟨ev', hev, k, v, hop, hrev, hupd, hin⟩ := h
  refine ⟨ev', mem_append_left _ hev, k, v, hop, hrev, ?_, fun k' => ?_⟩
  · rw [inputs_at_cons hc, inputs_at_cons (by omega), hupd]
  · rw [inputs_at_cons (by omega), hin]

theorem MadeBy.append {c : Nat}
    {ev : Event} (h : MadeBy events ws c) : MadeBy (events ++ [ev]) ws c := by
  obtain ⟨ev', hev, hrest⟩ := h
  exact ⟨ev', mem_append_left _ hev, hrest⟩

section Wide

attribute [local instance] Ids.wide

variable {q : Queries} {rank : QueryKey → Nat}

/-- The calls received so far, and the events they happened in. -/
structure LogInv (q : Queries) (rank : QueryKey → Nat) (events : List Event)
    (ws : List (QueryKey × ValueHash)) (e : Engine) : Prop where
  base : RankedAt q rank ws e
  never : e.db.Never
  made : ∀ c, 0 < c → c ≤ ws.length → MadeBy events ws c
  needed : ∀ key db, .compute key db ∈ e.calls → Needed events key db
  recent : ∀ key db, .compute key db ∈ e.calls →
    db.rev ≤ ws.length ∧ (db.rev = ws.length → e.db.table.Current ws.length key)
  once : (executions e.calls).Nodup

variable {d : QueryKey}

/-- An edge of the table is a recorded edge. -/
theorem recorded_of_edge {db : Db} {k : QueryKey} (h : db.table.Edge k d) : db.Recorded k d := by
  obtain ⟨row, hk, hi, hd⟩ := h
  show d ∈ db.deps_of k
  rw [Db.table_deps_of hk hi]
  exact hd

variable {events : List Event} {ws : List (QueryKey × ValueHash)} {e e' : Engine} {key : QueryKey}

/-- **A forced execution was needed.** -/
theorem Forced.needed {r : Nat} {db : Db}
    (hf : Forced q (history_of (rank_solver q rank) ws) (all_ranked rank) ws.length r e e' key db)
    (hmade : ∀ c, 0 < c → c ≤ ws.length → MadeBy events ws c) : Needed events key db := by
  intro v hv
  rw [Db.table_verified_at] at hv
  obtain ⟨row, hrow, rfl⟩ := map_eq_some_iff.mp hv
  have hi : row.is_input = false := by
    by_contra hin
    exact hf.not_current ⟨row, hrow, .inl (by simpa using hin)⟩
  rw [Db.table_deps_of hrow hi]
  refine ⟨?_, fun d hd c hc hlt => ?_⟩
  · obtain ⟨d, hd, row', hrow', _, hlt⟩ := hf.red row hrow
    exact ⟨d, hd, row'.changed_at, by rw [Db.table_changed_at, hrow']; rfl, hlt⟩
  · rw [Db.table_changed_at] at hc
    obtain ⟨rowd, hrowd, rfl⟩ := map_eq_some_iff.mp hc
    obtain ⟨Seen, hs⟩ := hf.inv.sound
    have hv : row.verified_at ≤ ws.length := (hs.stamps hrow).2
    obtain ⟨x, rowx, hpath, hx, hxi, hcx, hsome⟩ :=
      hs.changed_input hf.inv.ranked hv (all_ranked_pos d) (hs.seen_dep hrow hi hd) hrowd hlt
    have hcle := hs.changed_le hx
    obtain ⟨ev, hev, k, new, hop, hrev, hupd, hin⟩ := hmade rowx.changed_at (by omega) hcle
    have hval : inputs_at ws rowx.changed_at x = some rowx.value :=
      hs.row_input hx hxi rowx.changed_at le_rfl hcle
    have hwritten : inputs_at ws (rowx.changed_at - 1) x ≠ some rowx.value := hs.written hx hxi
    have hkx : x = k := by
      by_contra hne
      rw [hupd, Function.update_of_ne hne] at hval
      exact hwritten hval
    subst hkx
    rw [hupd, Function.update_self] at hval
    cases hval
    obtain ⟨old, hold⟩ := isSome_iff_exists.mp
      (inputs_at_isSome_mono (show row.verified_at ≤ rowx.changed_at - 1 by omega) hsome)
    refine ⟨x, Relation.ReflTransGen.mono (fun _ _ => recorded_of_edge) _ _ hpath, ev, hev, old,
      rowx.value, hop,
      (hin x).trans hold, fun heq => hwritten (heq ▸ hold), by omega, ?_⟩
    rw [hf.inv.rev_eq]
    omega

variable {fuel : Nat}

/-- **The step lemma for the log.** -/
theorem LogInv.step (hs : Stratified q rank) (hq : q.Honest) {op : Op} {reply : Reply}
    (h : LogInv q rank events ws e) (hstep : step q fuel op e = .ok (reply, e')) :
    LogInv q rank (events ++ [⟨op, e, reply⟩]) (wrote_by op reply ++ ws) e' := by
  obtain ⟨hat, hm⟩ := h.base.step hs hq hstep
  have hnever : e'.db.Never := fun n => by rw [hm.answers_eq]; exact h.never n
  have hmem : ∀ ev ∈ events, ev ∈ events ++ [⟨op, e, reply⟩] :=
    fun ev hev => mem_append_left _ hev
  cases hm with
  | @pulled key hop hws inv ext =>
    rw [hws, nil_append] at hat ⊢
    obtain ⟨new, hnew, hforced, honce⟩ := ext.calls
    obtain ⟨hnd, hcur⟩ := honce h.never
    have hsplit : ∀ {key db}, Call.compute key db ∈ e'.calls →
        (.compute key db ∈ new ∧ db.rev = ws.length ∧ Needed events key db) ∨
          .compute key db ∈ e.calls := by
      intro key db hc
      rw [hnew] at hc
      rcases mem_append.mp hc with hc | hc
      · obtain ⟨key', db', heq, hf⟩ := hforced _ hc
        cases heq
        exact .inl ⟨hc, hf.inv.rev_eq, hf.needed h.made⟩
      · exact .inr hc
    refine ⟨hat, hnever, fun c h0 hc => (h.made c h0 hc).append, fun key db hc => ?_,
      fun key db hc => ?_, ?_⟩
    · rcases hsplit hc with ⟨_, _, hn⟩ | hc
      · exact hn.mono hmem
      · exact (h.needed key db hc).mono hmem
    · rcases hsplit hc with ⟨hc, hrev, _⟩ | hc
      · refine ⟨hrev.le, fun _ => (hcur key ?_).2⟩
        rw [← executions_fst]
        exact mem_map.mpr ⟨_, mem_executions_of_mem hc, rfl⟩
      · exact ⟨(h.recent key db hc).1, fun hr => ext.current_mono ((h.recent key db hc).2 hr)⟩
    · rw [hnew, executions_append]
      refine nodup_append'.mpr ⟨?_, h.once, fun p hp hp' => ?_⟩
      · rw [← executions_fst] at hnd
        exact hnd.of_map _
      · obtain ⟨key, r⟩ := p
        obtain ⟨db, hc, rfl⟩ := mem_executions hp
        obtain ⟨key', db', heq, hf⟩ := hforced _ hc
        cases heq
        obtain ⟨db', hc', hr⟩ := mem_executions hp'
        have hk : key ∈ computed new := by
          rw [← executions_fst]
          exact mem_map.mpr ⟨_, hp, rfl⟩
        exact (hcur key hk).1 ((h.recent key db' hc').2 (hr.trans hf.inv.rev_eq))
  | @wrote key v hop hws hne hin table calls answers =>
    rw [hws] at hat ⊢
    have hup : inputs_at ((key, v) :: ws) (ws.length + 1) =
        Function.update (inputs_at ((key, v) :: ws) (ws.length + 1 - 1)) key (some v) := by
      rw [Nat.add_sub_cancel, inputs_at_cons le_rfl, inputs_at_length, ← lookup_cons_eq_update]
      exact inputs_at_length ((key, v) :: ws)
    refine ⟨hat, hnever, fun c h0 hc => ?_, fun key db hc => ?_, fun key db hc => ?_, ?_⟩
    · rcases Nat.lt_or_ge ws.length c with hlt | hle
      · obtain rfl : c = ws.length + 1 := by
          have : c ≤ ws.length + 1 := hc
          omega
        refine ⟨_, mem_append_right _ mem_cons_self, key, v, hop,
          congrArg (· + 1) h.base.base.rev_eq, hup, fun k' => ?_⟩
        show e.db.input k' = _
        rw [Nat.add_sub_cancel]
        show _ = inputs_at ((key, v) :: ws) ws.length k'
        rw [inputs_at_cons le_rfl, inputs_at_length]
        exact h.base.base.input_eq k'
      · exact (h.made c h0 hle).cons hle
    · rw [calls] at hc
      exact (h.needed key db hc).mono hmem
    · rw [calls] at hc
      have hle := (h.recent key db hc).1
      refine ⟨hle.trans (Nat.le_succ _), fun hr => ?_⟩
      have hr' : db.rev = ws.length + 1 := hr
      omega
    · rw [calls]
      exact h.once
  | idle hws table calls answers =>
    rw [hws, nil_append] at hat ⊢
    refine ⟨hat, hnever, fun c h0 hc => (h.made c h0 hc).append, fun key db hc => ?_,
      fun key db hc => ?_, ?_⟩
    · rw [calls] at hc
      exact (h.needed key db hc).mono hmem
    · rw [calls] at hc
      rw [table]
      exact h.recent key db hc
    · rw [calls]
      exact h.once

theorem LogInv.new (q : Queries) (rank : QueryKey → Nat) :
    LogInv q rank [] [] (Engine.new .never) where
  base := .new q rank .never
  never _ := rfl
  made c h0 hc := by
    have : c ≤ 0 := hc
    omega
  needed _ _ hc := by cases hc
  recent _ _ hc := by cases hc
  once := nodup_nil

/-- **The run lemma for the log.** -/
theorem LogInv.run (hs : Stratified q rank) (hq : q.Honest) {ops : List Op}
    {before events : List Event} {ws : List (QueryKey × ValueHash)} {e e' : Engine}
    (h : LogInv q rank before ws e) (hrun : run q fuel ops e = .ok (events, e')) :
    LogInv q rank (before ++ events) (writes events ++ ws) e' := by
  replace hrun := runs hrun
  induction hrun generalizing before ws with
  | nil =>
    rw [append_nil]
    exact h
  | cons hstep _ ih =>
    have h1 := ih (h.step hs hq hstep)
    simpa only [writes, append_assoc, singleton_append] using h1

/-! ## The early cutoff -/

/-- `key` has a value, recorded the reads `ds`, and none of them changed since it was verified. -/
def Quiet (key : QueryKey) (ds : List QueryKey) (e : Engine) : Prop :=
  ∃ row, e.db.table key = some row ∧ row.is_input = false ∧ (∀ d, d ∈ row.deps ↔ d ∈ ds) ∧
    ∀ d ∈ ds, ∀ row', e.db.table d = some row' → row'.changed_at ≤ row.verified_at

/-- The keys `ds` have the same values in both engines. -/
def SameValues (ds : List QueryKey) (e e' : Engine) : Prop :=
  ∀ d ∈ ds, e'.db.value_of d = e.db.value_of d

variable {ds : List QueryKey} {row : Row QueryKey ValueHash}

theorem SameValues.row_eq (h : SameValues ds e e') (hd : d ∈ ds) {row' : Row QueryKey ValueHash} (hr : e.db.table d = some row)
    (hr' : e'.db.table d = some row') : row'.value = row.value := by
  have hv := h d hd
  rw [Db.table_value_of, Db.table_value_of, hr, hr'] at hv
  exact some.inj hv

/-- A pull that changes no value of `ds` moves none of their `changed_at`. -/
theorem Ext.changed_at_eq {H : History QueryKey ValueHash} {rev r : Nat}
    (hext : Ext q H rank rev r e e') (hsame : SameValues ds e e') (hd : d ∈ ds) {row' : Row QueryKey ValueHash} (hr : e.db.table d = some row)
    (hr' : e'.db.table d = some row') : row'.changed_at = row.changed_at := by
  obtain ⟨row'', hr'', hm⟩ := hext.moved hr
  rw [hr'] at hr''
  cases hr''
  rcases hm with ⟨hc, _⟩ | hne
  · exact hc
  · exact absurd (hsame.row_eq hd hr hr') hne

/-- The reads of a quiet key are the same at the current revision. -/
theorem quiet_reads {H : History QueryKey ValueHash} {rev : Nat}
    (hinv : Inv q H rank rev e.db) (hinv' : Inv q H rank rev e'.db) (hrow : e.db.table key = some row)
    (hi : row.is_input = false) (hdeps : ∀ d, d ∈ row.deps ↔ d ∈ ds)
    (hc : ∀ d ∈ ds, ∀ row', e.db.table d = some row' → row'.changed_at ≤ row.verified_at)
    (hsame : SameValues ds e e') (hcur : e'.db.table.Current rev key) :
    q.rules.reads (H.value rev) key = q.rules.reads (H.value row.verified_at) key := by
  obtain ⟨Seen, hs⟩ := hinv.sound
  obtain ⟨Seen', hs'⟩ := hinv'.sound
  apply q.rules.reads_congr
  by_contra hne
  push Not at hne
  obtain ⟨d, hd, hd', hneq⟩ := q.rules.shared hne
  have hm : d ∈ row.deps := (hs.deps hrow hi d).mpr hd
  have hmd := (hdeps d).mp hm
  obtain ⟨rd, hrd⟩ := hs.dep_row hrow hi hm
  have hseen' : Seen' rev key := by
    refine (hs'.current_iff.mp hcur).resolve_right fun hin => ?_
    obtain ⟨v, hv⟩ := isSome_iff_exists.mp hin
    obtain ⟨row', hrow', hin', _⟩ := hs.input_row hv
    rw [hrow] at hrow'
    cases hrow'
    rw [hi] at hin'
    cases hin'
  have hcurd : e'.db.table.Current rev d := hs'.current_iff.mpr (hs'.reads hseen' d hd')
  obtain ⟨rd', hrd', _⟩ := hcurd
  apply hneq
  calc H.value row.verified_at d = rd.value :=
        hs.unchanged_value (hs.stamps hrow).2 (hs.seen_dep hrow hi hm) hrd (hc d hmd rd hrd)
    _ = rd'.value := (hsame.row_eq hmd hrd hrd').symm
    _ = H.value rev d := hs'.current_value ⟨rd', hrd', by assumption⟩ hrd'

/-- **One step of the cutoff.** -/
theorem Quiet.step {op : Op} {reply : Reply} (h : RankedAt q rank ws e)
    (hm : Moves q (history_of (rank_solver q rank) ws) (all_ranked rank) ws.length op reply e e') (hq : Quiet key ds e) (hsame : SameValues ds e e') :
    Quiet key ds e' ∧ ∃ new, e'.calls = new ++ e.calls ∧ key ∉ computed new := by
  obtain ⟨row, hrow, hi, hdeps, hc⟩ := hq
  obtain ⟨Seen, hs⟩ := h.inv.sound
  have hdrow : ∀ d ∈ ds, ∃ rd, e.db.table d = some rd := fun d hd =>
    hs.dep_row hrow hi ((hdeps d).mpr hd)
  cases hm with
  | pulled hop _ inv ext =>
    obtain ⟨new, hnew, hforced, _⟩ := ext.calls
    refine ⟨?_, new, hnew, fun hk => ?_⟩
    · by_cases hcur : e'.db.table.Current ws.length key
      · have hreads := quiet_reads h.inv inv hrow hi hdeps hc hsame hcur
        obtain ⟨row', hrow', hx⟩ := hcur
        obtain ⟨Seen', hs'⟩ := inv.sound
        have hi' : row'.is_input = false := by
          by_contra hin
          have hin' := hs'.row_input hrow' (by simpa using hin) _ (hs'.changed_le hrow') le_rfl
          obtain ⟨row'', hrow'', hin'', _⟩ := hs.input_row hin'
          rw [hrow] at hrow''
          cases hrow''
          rw [hi] at hin''
          cases hin''
        have hv' : row'.verified_at = ws.length := hx.resolve_left (by simp [hi'])
        refine ⟨row', hrow', hi', fun d => ?_, fun d hd rd hrd => ?_⟩
        · rw [hs'.deps hrow' hi', hv', hreads, ← hs.deps hrow hi, hdeps]
        · rw [hv']
          exact hs'.changed_le hrd
      · refine ⟨row, (ext.stale hcur).trans hrow, hi, hdeps, fun d hd rd' hrd' => ?_⟩
        obtain ⟨rd, hrd⟩ := hdrow d hd
        rw [ext.changed_at_eq hsame hd hrd hrd']
        exact hc d hd rd hrd
    · -- an execution would need a recorded dependency that moved
      obtain ⟨db, hmem⟩ := mem_computed hk
      obtain ⟨key', db', heq, hf⟩ := hforced _ hmem
      cases heq
      obtain ⟨d, hd, rd', hrd', hcur, hlt⟩ := hf.red row (hf.same.trans hrow)
      have hmd := (hdeps d).mp hd
      obtain ⟨rd, hrd⟩ := hdrow d hmd
      have heq := ext.changed_at_eq hsame hmd hrd ((hf.kept d hcur).trans hrd')
      have := hc d hmd rd hrd
      omega
  | @wrote k v _ _ hne hin table calls _ =>
    have hkey : key ≠ k := by
      rintro rfl
      rw [hin row hrow] at hi
      cases hi
    refine ⟨⟨row, ?_, hi, hdeps, fun d hd rd' hrd' => ?_⟩, [], calls, by simp⟩
    · rw [table, Function.update_of_ne hkey]
      exact hrow
    · have hdk : d ≠ k := by
        rintro rfl
        obtain ⟨rd, hrd⟩ := hdrow d hd
        have hval := hsame.row_eq hd hrd (by rw [table, Function.update_self])
        exact hne ((Db.table_input hrd (hin rd hrd)).trans (congrArg some hval.symm))
      rw [table, Function.update_of_ne hdk] at hrd'
      exact hc d hd rd' hrd'
  | idle _ table calls _ =>
    refine ⟨⟨row, by rw [table]; exact hrow, hi, hdeps, fun d hd rd' hrd' => ?_⟩, [], calls, by simp⟩
    rw [table] at hrd'
    exact hc d hd rd' hrd'

/-- The cutoff over a run all of whose states give `ds` the same values. -/
theorem Quiet.run (hs : Stratified q rank) (hq : q.Honest) {ops : List Op} {events : List Event}
    {ws : List (QueryKey × ValueHash)} {e0 e e' : Engine} (h : RankedAt q rank ws e)
    (hquiet : Quiet key ds e) (he : SameValues ds e0 e)
    (hrun : Query.run q fuel ops e = .ok (events, e'))
    (hall : ∀ ev ∈ events, SameValues ds e0 ev.before) (he' : SameValues ds e0 e') :
    ∃ new, e'.calls = new ++ e.calls ∧ key ∉ computed new := by
  replace hrun := runs hrun
  induction hrun generalizing ws with
  | nil => exact ⟨[], rfl, by simp⟩
  | @cons _ _ _ e1 _ _ _ hstep hrest ih =>
    obtain ⟨h1, hm⟩ := h.step hs hq hstep
    obtain ⟨-, hall⟩ := forall_mem_cons.mp hall
    have he1 : SameValues ds e0 e1 := by
      cases hrest with
      | nil => exact he'
      | cons => exact hall _ mem_cons_self
    obtain ⟨hquiet1, new, hnew, hnot⟩ :=
      hquiet.step h hm fun d hd => (he1 d hd).trans (he d hd).symm
    obtain ⟨new', hnew', hnot'⟩ := ih h1 hquiet1 he1 hall he'
    refine ⟨new' ++ new, by rw [hnew', hnew, append_assoc], ?_⟩
    rw [computed_append, mem_append]
    exact fun hk => hk.elim hnot' hnot

/-- **The early cutoff**: while its recorded dependencies keep their values, the key is not executed. -/
theorem LogInv.cutoff (hs : Stratified q rank) (hq : q.Honest) {ops : List Op} {before : List Event}
    {v : Nat} (h : LogInv q rank before ws e) (hrun : Query.run q fuel ops e = .ok (events, e'))
    (hin : e.db.input key = none) (hv : e.db.verified_at key = some v)
    (hdeps : ∀ d ∈ e.db.deps_of key, ∀ c, e.db.changed_at d = some c → c ≤ v)
    (hall : ∀ ev ∈ events, SameValues (e.db.deps_of key) e ev.before)
    (he' : SameValues (e.db.deps_of key) e e') :
    ∃ new, e'.calls = new ++ e.calls ∧ key ∉ computed new := by
  rw [Db.table_verified_at] at hv
  obtain ⟨row, hrow, rfl⟩ := map_eq_some_iff.mp hv
  have hi : row.is_input = false := by
    by_contra hi
    rw [Db.table_input hrow (by simpa using hi)] at hin
    cases hin
  have hquiet : Quiet key (e.db.deps_of key) e := by
    refine ⟨row, hrow, hi, fun d => by rw [Db.table_deps_of hrow hi], fun d hd rd hrd => ?_⟩
    exact hdeps d hd _ (by rw [Db.table_changed_at, hrd]; rfl)
  exact hquiet.run hs hq h.base (fun _ _ => rfl) hrun hall he'

end Wide

/-- **Minimal re-execution**, of every run whose tables fit. -/
theorem minimal_reexecution {q : Queries} {rank : QueryKey → Nat} (hs : Stratified q rank)
    (hq : q.Honest) {fuel : Nat} {ops : List Op} {events : List Event} {e : Engine}
    (hrun : run q fuel ops (Engine.new .never) = .ok (events, e)) (hfit : Fit events e) :
    (executions e.calls).Nodup ∧
    (∀ key db, .compute key db ∈ e.calls → Needed events key db) ∧
    ∀ fuel' ops' events' e' key v, run q fuel' ops' e = .ok (events', e') → Fit events' e' →
      e.db.input key = none → e.db.verified_at key = some v →
      (∀ d ∈ e.db.deps_of key, ∀ c, e.db.changed_at d = some c → c ≤ v) →
      (∀ ev ∈ events', SameValues (e.db.deps_of key) e ev.before) →
      SameValues (e.db.deps_of key) e e' →
      ∃ new, e'.calls = new ++ e.calls ∧ key ∉ computed new := by
  have hwide := run_agrees Ids.exact_u32 Ids.exact_wide q hrun hfit
  have h := (LogInv.new q rank).run hs hq hwide
  rw [nil_append] at h
  refine ⟨h.once, h.needed, ?_⟩
  intro fuel' ops' events' e' key v hrun' hfit' hin hv hdeps hall he'
  exact h.cutoff hs hq (run_agrees Ids.exact_u32 Ids.exact_wide q hrun' hfit') hin hv hdeps hall he'

/-- Two edits of one input: the first is cut off at `mid(1)`, the second is not. -/
theorem minimal_reexecution_synth : ∃ events e,
    run (synth 2) 3 synth_ops (Engine.new .never) = .ok (events, e) ∧
    (executions e.calls).Nodup ∧
    (∀ key db, .compute key db ∈ e.calls → Needed events key db) ∧
    ∀ fuel' ops' events' e' key v, run (synth 2) fuel' ops' e = .ok (events', e') →
      Fit events' e' → e.db.input key = none → e.db.verified_at key = some v →
      (∀ d ∈ e.db.deps_of key, ∀ c, e.db.changed_at d = some c → c ≤ v) →
      (∀ ev ∈ events', SameValues (e.db.deps_of key) e ev.before) →
      SameValues (e.db.deps_of key) e e' →
      ∃ new, e'.calls = new ++ e.calls ∧ key ∉ computed new := by
  obtain ⟨events, e, h, hfit⟩ := exists_fit (synth 2) 3 synth_ops .never (by decide +kernel)
  exact ⟨events, e, h, minimal_reexecution (stratified_synth 2) (honest_synth 2) h hfit⟩

/-- The bound is needed: after the wrap `mid(0)` is executed again, and no input below it was ever
written a second time. -/
theorem executed_after_wrap : ∃ ops events e db,
    run (synth 2) 3 ops (Engine.new .never) = .ok (events, e) ∧
    .compute (.one MID 0) db ∈ e.calls ∧ ¬ Needed events (.one MID 0) db := by
  obtain ⟨events, e, hrun, h, hinputs⟩ := run_wrapped (n := 2 ^ 32 - 2) (by decide)
  obtain ⟨r, e', e1, hdemand, h1, hmem⟩ := demand_wrapped h
  have hlast : run (synth 2) 3 [.demand (.one MID 0)] e =
      .ok ([⟨.demand (.one MID 0), e, .value r⟩], e') := by
    unfold run step
    simp only [hdemand]
    rfl
  refine ⟨_, _, e', _, run_append hrun hlast, hmem, fun hneeded => ?_⟩
  have hmid : Db.find? (e1.db.push ⟨1, [], true⟩) (.one MID 0) = some 1 := h1.mid
  have hin : Db.find? (e1.db.push ⟨1, [], true⟩) (.one IN 0) = some 0 := h1.input
  have hrow0 : Db.row (e1.db.push ⟨1, [], true⟩) 0 = _ := h1.row0
  have hrow1 : Db.row (e1.db.push ⟨1, [], true⟩) 1 = _ := h1.row1
  have hdeps : ∀ n, Db.range (e1.db.push ⟨1, [], true⟩) n = ([0].drop n.dep_start).take n.dep_len :=
    fun n => congrArg (fun ds : List Nat => (ds.drop n.dep_start).take n.dep_len) h1.deps
  -- the row of the input records nothing
  have hleaf : ∀ x, Relation.ReflTransGen (Db.Recorded (e1.db.push ⟨1, [], true⟩)) (.one IN 0) x →
      x = .one IN 0 := by
    intro x hx
    rcases Relation.ReflTransGen.cases_head hx with rfl | ⟨y, hy, _⟩
    · rfl
    · unfold Db.Recorded Db.deps_of at hy
      rw [hin] at hy
      simp only [hrow0, hdeps] at hy
      cases hy
  obtain ⟨x, hx, ev, hev, old, new, hop, hold, _⟩ := (hneeded 1 (by
    unfold Db.verified_at
    rw [hmid]
    simp only [hrow1, if_true])).2 (.one IN 0) (by
      unfold Db.deps_of
      rw [hmid]
      simp [hrow1, hdeps, hrow0]) 2 (by
      unfold Db.changed_at
      rw [hin]
      simp only [hrow0, if_true]) (by decide)
  obtain rfl := hleaf x hx
  rcases mem_append.mp hev with hev | hev
  · rw [hinputs ev hev new hop] at hold
    cases hold
  · obtain rfl := mem_singleton.mp hev
    cases hop

end Fors.Query
