import Fors.Query.Pull

/-!
# What a demand leaves alone

For any query set: its computations may read in circles, give up when they like and answer what they
like.  A demand keeps the index, the arena and the row of every node that is an input or up to date;
a row it does write is up to date afterwards.

Principal results: `keeps_pull_body` (one level of `pull` writes what the pulls below it write, and its
own node when it answers) and `keeps_pull`.
-/

namespace Fors.Query

open List

attribute [local instance] Ids.wide

namespace Db

/-- What holds of a database at any point of a run. -/
structure Coherent (db : Db) : Prop where
  wf : db.WF
  stamp_le : ∀ {i}, i < db.nodes.length → (db.row i).verified_at ≤ db.rev
  loopless : ∀ {i}, i < db.nodes.length → i ∉ db.range (db.row i)
  in_flight : ∀ f ∈ db.stack, f.node < db.nodes.length
  reads : ∀ f ∈ db.stack, ∀ d ∈ f.deps, d < db.nodes.length ∧ d ≠ f.node

namespace Coherent

variable {db db' : Db}

/-- The same columns under a stack whose frames are in order. -/
theorem of_sameRows (h : db.Coherent) (hs : SameRows db db') (hrev : db'.rev = db.rev)
    (hstack : ∀ f ∈ db'.stack, f.node < db.nodes.length ∧
      ∀ d ∈ f.deps, d < db.nodes.length ∧ d ≠ f.node) : db'.Coherent where
  wf := hs.wf h.wf
  stamp_le hi := by
    rw [hs.nodes] at hi
    rw [hs.row, hrev]
    exact h.stamp_le hi
  loopless hi := by
    rw [hs.nodes] at hi
    rw [hs.row, hs.range]
    exact h.loopless hi
  in_flight f hf := by
    rw [hs.nodes]
    exact (hstack f hf).1
  reads f hf := by
    rw [hs.nodes]
    exact (hstack f hf).2

theorem frames (h : db.Coherent) : ∀ f ∈ db.stack, f.node < db.nodes.length ∧
    ∀ d ∈ f.deps, d < db.nodes.length ∧ d ≠ f.node :=
  fun f hf => ⟨h.in_flight f hf, h.reads f hf⟩

theorem same (h : db.Coherent) (hs : SameRows db db') (hrev : db'.rev = db.rev)
    (hstack : db'.stack = db.stack) : db'.Coherent :=
  h.of_sameRows hs hrev (by rw [hstack]; exact h.frames)

variable {id : Nat}

theorem push (h : db.Coherent) (hid : id < db.nodes.length) (a : Bool) :
    (db.push ⟨id, [], a⟩).Coherent := by
  refine h.of_sameRows (sameRows_push db _) rfl fun f hf => ?_
  rcases mem_cons.mp hf with rfl | hf
  · exact ⟨hid, fun d hd => by cases hd⟩
  · exact h.frames f hf

theorem pop (h : db.Coherent) : db.pop.Coherent :=
  h.of_sameRows (sameRows_pop db) rfl fun f hf => h.frames f (mem_of_mem_tail hf)

theorem attribute_to (h : db.Coherent) (hid : id < db.nodes.length) :
    (db.attribute_to id).Coherent := by
  refine h.of_sameRows (sameRows_attribute_to db id) (attribute_to_eqs db id).1 fun f hf => ?_
  unfold Db.attribute_to at hf
  split at hf
  · exact h.frames f hf
  · rename_i g rest hs
    split at hf
    · rename_i hc
      have hg := h.frames g (by rw [hs]; exact mem_cons_self)
      rcases mem_cons.mp hf with rfl | hf
      · refine ⟨hg.1, fun d hd => ?_⟩
        rcases mem_append.mp hd with hd | hd
        · exact hg.2 d hd
        · obtain rfl := mem_singleton.mp hd
          exact ⟨hid, fun heq => hc.2 heq.symm⟩
      · exact h.frames f (by rw [hs]; exact mem_cons_of_mem _ hf)
    · exact h.frames f hf

theorem intern (h : db.Coherent) (key : QueryKey) : (db.intern key).2.Coherent := by
  obtain ⟨hdeps, hstack, hrev, -, hlen⟩ := @intern_eqs db key
  have hrange : ∀ n, (db.intern key).2.range n = db.range n := by
    intro n
    unfold range
    rw [hdeps]
  have hrow : ∀ {i}, i < (db.intern key).2.nodes.length →
      (i < db.nodes.length ∧ (db.intern key).2.row i = db.row i) ∨
        (db.intern key).2.row i = Node.new key := by
    intro i hi
    rcases Nat.lt_or_ge i db.nodes.length with hlt | hge
    · exact .inl ⟨hlt, row_intern key hlt⟩
    · right
      cases hf : db.find? key with
      | some id =>
        rw [intern_eq_of_find key hf] at hi
        exact absurd hi (Nat.not_lt_of_le hge)
      | none =>
        have hnew := row_intern_fresh key hf
        rw [intern_eq_of_fresh key hf] at hi hnew ⊢
        change i < (db.nodes ++ [Node.new key]).length at hi
        rw [length_append, length_singleton] at hi
        obtain rfl : i = db.nodes.length := by omega
        exact hnew
  refine ⟨wf_intern h.wf key, fun hi => ?_, fun hi => ?_, fun f hf => ?_, fun f hf d hd => ?_⟩
  · rcases hrow hi with ⟨hlt, hr⟩ | hr
    · rw [hr, hrev]
      exact h.stamp_le hlt
    · rw [hr]
      exact Nat.zero_le _
  · rcases hrow hi with ⟨hlt, hr⟩ | hr
    · rw [hr, hrange]
      exact h.loopless hlt
    · rw [hr, hrange]
      simp [range, Node.new]
  · rw [hstack] at hf
    exact (h.in_flight f hf).trans_le hlen
  · rw [hstack] at hf
    exact ⟨(h.reads f hf d hd).1.trans_le hlen, (h.reads f hf d hd).2⟩

variable {key : QueryKey}

theorem probe (h : db.Coherent) {attributed : Bool} (hprobe : db.probe key attributed = (id, db')) :
    db'.Coherent := by
  have hd := (h.intern key).same
    (sameRows_charge _ fun s => { s with probes := s.probes + 1 }) rfl rfl
  cases attributed with
  | false =>
    cases hprobe
    exact hd
  | true =>
    cases hprobe
    exact hd.attribute_to (hd.wf.find_key (find?_intern_self key)).1

/-- A row with the same edges, stamped at a revision there is. -/
theorem set_row (h : db.Coherent) {n : Node}
    (hf : db.find? key = some id) (hn : n.key = key) (hstart : n.dep_start = (db.row id).dep_start)
    (hlen : n.dep_len = (db.row id).dep_len) (hstamp : n.verified_at ≤ db.rev)
    (hv : n.is_input = true → n.state = .valid) : (db.set_row id n).Coherent := by
  have hid := (h.wf.find_key hf).1
  have hnodes : (db.set_row id n).nodes.length = db.nodes.length := by simp [Db.set_row]
  have hrange : db.range n = db.range (db.row id) := by
    unfold range
    rw [hstart, hlen]
  refine ⟨wf_set_row h.wf hf hn ?_ hv, fun {i} hi => ?_, fun {i} hi => ?_, fun f hf => ?_,
    fun f hf => ?_⟩
  · rw [hstart, hlen]
    exact h.wf.range_le hid
  · rw [hnodes] at hi
    by_cases hii : i = id
    · subst hii
      rw [row_set_row_self hid]
      exact hstamp
    · rw [row_set_row_ne hii]
      exact h.stamp_le hi
  · rw [hnodes] at hi
    by_cases hii : i = id
    · subst hii
      rw [row_set_row_self hid, range_set_row, hrange]
      exact h.loopless hid
    · rw [row_set_row_ne hii]
      exact h.loopless hi
  · rw [hnodes]
    exact h.in_flight f hf
  · rw [hnodes]
    exact h.reads f hf

theorem stamp (h : db.Coherent) (hf : db.find? key = some id) :
    (db.set_row id { db.row id with verified_at := db.rev }).Coherent := by
  obtain ⟨hid, hkey⟩ := h.wf.find_key hf
  exact h.set_row hf hkey rfl rfl (Nat.le_refl _) (h.wf.input_valid hid)

theorem later (h : db.Coherent) {r : Nat} (hr : db.rev ≤ r) : { db with rev := r }.Coherent :=
  ⟨wf_rev h.wf r, fun hi => (h.stamp_le hi).trans hr, h.loopless, h.in_flight, h.reads⟩

theorem set_input (h : db.Coherent) {v : ValueHash} {b : Bool}
    (hset : db.set_input key v = .ok (b, db')) : db'.Coherent ∧ db'.stack = db.stack := by
  have hstack := (set_input_spec h.wf hset).2.1
  refine ⟨?_, hstack⟩
  obtain ⟨i, d, hintern⟩ : ∃ i d, db.intern key = (i, d) := ⟨_, _, rfl⟩
  have hd : d.Coherent := by simpa [hintern] using h.intern key
  have hf : d.find? key = some i := by
    have hself := @find?_intern_self db key
    rwa [hintern] at hself
  obtain ⟨hid, hkey⟩ := hd.wf.find_key hf
  simp only [Db.set_input, hintern] at hset
  split at hset
  · cases hset
  split at hset
  · rename_i hsame
    cases hset
    exact hd.set_row hf hkey rfl rfl (hd.stamp_le hid) fun _ => hsame.1
  · cases hset
    have hlater := hd.later (Nat.le_succ d.rev)
    have hrow := hlater.set_row (n := { d.row i with
      is_input := true, value := v, changed_at := d.rev + 1, verified_at := d.rev + 1,
      state := .valid }) hf hkey rfl rfl (Nat.le_refl _) fun _ => rfl
    exact hrow.same (sameRows_charge _ _) rfl rfl

theorem compact (h : db.Coherent) (hc : db.compact = .ok db') : db'.Coherent := by
  obtain ⟨hlen, -, hdb, hrow⟩ := rows_compact hc
  have hrev : db'.rev = db.rev := by rw [hdb]
  have hstack : db'.stack = db.stack := by rw [hdb]
  refine ⟨(compact_spec h.wf hc).1, fun {i} hi => ?_, fun {i} hi => ?_, fun f hf => ?_,
    fun f hf => ?_⟩
  · obtain ⟨s, hs, -, -⟩ := hrow (hlen ▸ hi)
    rw [hs, hrev]
    exact h.stamp_le (hlen ▸ hi)
  · obtain ⟨s, hs, -, hr⟩ := hrow (hlen ▸ hi)
    rw [hr]
    exact h.loopless (hlen ▸ hi)
  · rw [hlen]
    exact h.in_flight f (hstack ▸ hf)
  · rw [hlen]
    exact h.reads f (hstack ▸ hf)

theorem new (cancel : CancelFlag) : (Db.new cancel).Coherent := by
  refine ⟨wf_new cancel, ?_, ?_, ?_, ?_⟩ <;> simp [Db.new]

theorem commit (h : db.Coherent) {ds : List Nat} {v : ValueHash}
    (hf : db.find? key = some id) (hds : ∀ d ∈ ds, d < db.nodes.length ∧ d ≠ id) :
    (db.commit key id ds v).Coherent := by
  have hid := (h.wf.find_key hf).1
  have hlen : (db.commit key id ds v).nodes.length = db.nodes.length := by simp [Db.commit]
  refine ⟨wf_commit h.wf hf fun d hd => (hds d hd).1, fun {i} hi => ?_, fun {i} hi => ?_,
    fun f hf => ?_, fun f hf => ?_⟩
  · rw [hlen] at hi
    by_cases hii : i = id
    · subst hii
      rw [row_commit_self hid]
      exact Nat.le_refl db.rev
    · rw [row_commit_ne hii]
      exact h.stamp_le hi
  · rw [hlen] at hi
    by_cases hii : i = id
    · subst hii
      rw [row_commit_self hid]
      have hrange : (db.commit key i ds v).range (db.executed_row i (edge_set ds).length v) =
          edge_set ds := range_fresh rfl rfl
      rw [hrange, mem_edge_set]
      exact fun hmem => (hds i hmem).2 rfl
    · rw [row_commit_ne hii]
      have hrange : (db.commit key id ds v).range (db.row i) = db.range (db.row i) :=
        range_append_deps (edge_set ds) (h.wf.range_le hi)
      rw [hrange]
      exact h.loopless hi
  · rw [hlen]
    exact h.in_flight f hf
  · rw [hlen]
    exact h.reads f hf

end Coherent

end Db

/-! ## What is kept -/

/-- From `e` to `e'` only open nodes in `W` are written, and those are up to date afterwards. -/
structure Kept (W : Nat → Prop) (e e' : Engine) : Prop where
  rev : e'.db.rev = e.db.rev
  length : e.db.nodes.length ≤ e'.db.nodes.length
  find : ∀ {key i}, e.db.find? key = some i → e'.db.find? key = some i
  input : ∀ {i}, i < e.db.nodes.length → (e'.db.row i).is_input = (e.db.row i).is_input
  row : ∀ {i}, i < e.db.nodes.length →
    e'.db.row i = e.db.row i ∨ (W i ∧ e.db.Open i ∧ e'.db.UpToDate i)
  arena : e.db.deps <+: e'.db.deps
  answers : e'.db.cancel.answers = e.db.cancel.answers
  polls : e.db.cancel.polls ≤ e'.db.cancel.polls
  calls : e.calls <:+ e'.calls

namespace Kept

variable {W W' : Nat → Prop} {e e' e'' : Engine}

theorem refl (e : Engine) : Kept W e e :=
  ⟨rfl, Nat.le_refl _, id, fun _ => rfl, fun _ => .inl rfl, prefix_rfl, rfl, Nat.le_refl _,
    suffix_rfl⟩

theorem upToDate (h : Kept W e e') {i : Nat} (hi : i < e.db.nodes.length)
    (hu : e.db.UpToDate i) : e'.db.row i = e.db.row i ∧ e'.db.UpToDate i := by
  have hrow : e'.db.row i = e.db.row i := (h.row hi).resolve_right fun hw => hu.not_open hw.2.1
  refine ⟨hrow, ?_⟩
  unfold Db.UpToDate
  rw [hrow, h.rev]
  exact hu

theorem trans (h : Kept W e e') (h' : Kept W e' e'') : Kept W e e'' where
  rev := h'.rev.trans h.rev
  length := h.length.trans h'.length
  find hk := h'.find (h.find hk)
  input hi := (h'.input (hi.trans_le h.length)).trans (h.input hi)
  row {i} hi := by
    have hi' := hi.trans_le h.length
    rcases h.row hi with hsame | ⟨hw, ho, hu⟩
    · rcases h'.row hi' with hsame' | ⟨hw, ho, hu⟩
      · exact .inl (hsame'.trans hsame)
      · exact .inr ⟨hw, ho.of_row hsame.symm h.rev.symm, hu⟩
    · exact .inr ⟨hw, ho, (h'.upToDate hi' hu).2⟩
  arena := h.arena.trans h'.arena
  answers := h'.answers.trans h.answers
  polls := h.polls.trans h'.polls
  calls := h.calls.trans h'.calls

theorem mono (h : Kept W e e') (hW : ∀ i, W i → W' i) : Kept W' e e' :=
  { h with row := fun hi => (h.row hi).imp id fun hw => ⟨hW _ hw.1, hw.2⟩ }

theorem of_sameRows (hs : Db.SameRows e.db e'.db) (hrev : e'.db.rev = e.db.rev)
    (hanswers : e'.db.cancel.answers = e.db.cancel.answers)
    (hpolls : e.db.cancel.polls ≤ e'.db.cancel.polls) (hcalls : e.calls <:+ e'.calls) :
    Kept W e e' where
  rev := hrev
  length := by rw [hs.nodes]
  find hk := by rwa [hs.find?]
  input _ := by rw [hs.row]
  row _ := .inl (hs.row _)
  arena := by simp [hs.deps]
  answers := hanswers
  polls := hpolls
  calls := hcalls

theorem intern (e : Engine) (key : QueryKey) : Kept W e ⟨(e.db.intern key).2, e.calls⟩ := by
  obtain ⟨hdeps, -, hrev, hcancel, hlen⟩ := @Db.intern_eqs e.db key
  refine ⟨hrev, hlen, Db.find?_intern key, fun hi => ?_, fun hi => .inl (Db.row_intern key hi), ?_,
    congrArg CancelFlag.answers hcancel, (congrArg CancelFlag.polls hcancel).ge, suffix_rfl⟩
  · show ((e.db.intern key).2.row _).is_input = _
    rw [Db.row_intern key hi]
  · show e.db.deps <+: (e.db.intern key).2.deps
    simp [hdeps]

/-- Writing one open row that becomes up to date. -/
theorem set_row {id : Nat} {n : Node} (hid : id < e.db.nodes.length) (hW : W id)
    (ho : e.db.Open id) (hn : n.state = .valid ∧ n.verified_at = e.db.rev)
    (hin : n.is_input = (e.db.row id).is_input) : Kept W e ⟨e.db.set_row id n, e.calls⟩ := by
  refine ⟨rfl, ?_, fun hk => hk, fun {i} hi => ?_, fun {i} hi => ?_, prefix_rfl, rfl,
    Nat.le_refl _, suffix_rfl⟩
  · show e.db.nodes.length ≤ (e.db.nodes.set id n).length
    rw [length_set]
  · show ((e.db.set_row id n).row i).is_input = _
    by_cases hii : i = id
    · subst hii
      rw [Db.row_set_row_self hid, hin]
    · rw [Db.row_set_row_ne hii]
  · show (e.db.set_row id n).row i = _ ∨ _
    by_cases hii : i = id
    · subst hii
      refine .inr ⟨hW, ho, ?_⟩
      unfold Db.UpToDate
      show ((e.db.set_row i n).row i).state = _ ∧ ((e.db.set_row i n).row i).verified_at = _
      rw [Db.row_set_row_self hid]
      exact hn
    · exact .inl (Db.row_set_row_ne hii)

theorem commit {key : QueryKey} {id : Nat} {ds : List Nat} {v : ValueHash}
    (hid : id < e.db.nodes.length) (hW : W id) (ho : e.db.Open id) :
    Kept W e ⟨e.db.commit key id ds v, e.calls⟩ := by
  have hset := set_row (e := ⟨e.db.append_deps (Db.edge_set ds), e.calls⟩)
    (n := e.db.executed_row id (Db.edge_set ds).length v) hid hW ho ⟨rfl, rfl⟩ rfl
  exact ⟨rfl, hset.length, hset.find, hset.input, hset.row, prefix_append _ _, rfl,
    Nat.le_refl _, suffix_rfl⟩

end Kept

theorem note_deps_note_deps (es es' : List Nat) : ∀ fs : List Frame,
    note_deps es' (note_deps es fs) = note_deps (es ++ es') fs
  | [] => rfl
  | f :: rest => by simp [note_deps]

theorem note_deps_nodes (es : List Nat) : ∀ fs : List Frame,
    (note_deps es fs).map Frame.node = fs.map Frame.node
  | [] => rfl
  | _ :: _ => rfl

/-- What a part of a demand leaves: besides, the nodes in flight are as they were, and the innermost
frame may have read more. -/
structure Ran (W : Nat → Prop) (e e' : Engine) : Prop extends Kept W e e' where
  coherent : e'.db.Coherent
  stack : ∃ es, e'.db.stack = note_deps es e.db.stack
  flight : ∀ i ∈ e.db.flight, e'.db.row i = e.db.row i

namespace Ran

variable {W W' : Nat → Prop} {e e' e'' : Engine}

theorem flight_eq (h : Ran W e e') : e'.db.flight = e.db.flight := by
  obtain ⟨es, hes⟩ := h.stack
  unfold Db.flight
  rw [hes, note_deps_nodes]

theorem refl (h : e.db.Coherent) : Ran W e e :=
  ⟨.refl e, h, ⟨[], (note_deps_nil _).symm⟩, fun _ _ => rfl⟩

theorem trans (h : Ran W e e') (h' : Ran W e' e'') : Ran W e e'' := by
  refine ⟨h.toKept.trans h'.toKept, h'.coherent, ?_, fun i hi => ?_⟩
  · obtain ⟨es, hes⟩ := h.stack
    obtain ⟨es', hes'⟩ := h'.stack
    exact ⟨es ++ es', by rw [hes', hes, note_deps_note_deps]⟩
  · rw [h'.flight i (h.flight_eq ▸ hi), h.flight i hi]

theorem mono (h : Ran W e e') (hW : ∀ i, W i → W' i) : Ran W' e e' :=
  ⟨h.toKept.mono hW, h.coherent, h.stack, h.flight⟩

/-- The same columns and the same frames. -/
theorem same (h : Ran W e e') (hs : Db.SameRows e'.db e''.db) (hrev : e''.db.rev = e'.db.rev)
    (hstack : e''.db.stack = e'.db.stack) (hanswers : e''.db.cancel.answers = e'.db.cancel.answers)
    (hpolls : e'.db.cancel.polls ≤ e''.db.cancel.polls) (hcalls : e'.calls <:+ e''.calls) :
    Ran W e e'' where
  toKept := h.toKept.trans (.of_sameRows hs hrev hanswers hpolls hcalls)
  coherent := h.coherent.same hs hrev hstack
  stack := by rw [hstack]; exact h.stack
  flight i hi := (hs.row i).trans (h.flight i hi)

theorem charge (h : Ran W e e') (f : Stats → Stats) : Ran W e ⟨e'.db.charge f, e'.calls⟩ :=
  h.same (Db.sameRows_charge e'.db f) rfl rfl rfl (Nat.le_refl _) suffix_rfl

theorem polled (h : Ran W e e') : Ran W e ⟨e'.db.polled, e'.calls⟩ :=
  h.same (Db.sameRows_polled e'.db) rfl rfl rfl (Nat.le_succ _) suffix_rfl

/-- Writing one row that is not in flight. -/
theorem write {id : Nat} (h : Ran W e e') (hstack : e'.db.stack = e.db.stack)
    (hfl : id ∉ e.db.flight) (hk : Kept (fun i => W i ∨ i = id) e' e'') (hc : e''.db.Coherent)
    (hs : e''.db.stack = e'.db.stack) (hne : ∀ i, i ≠ id → e''.db.row i = e'.db.row i) :
    Ran (fun i => W i ∨ i = id) e e'' where
  toKept := (h.toKept.mono fun _ => .inl).trans hk
  coherent := hc
  stack := ⟨[], by rw [note_deps_nil, hs, hstack]⟩
  flight i hi := (hne i fun hii => hfl (hii ▸ hi)).trans (h.flight i hi)

end Ran

/-- Every pull that returns writes nodes in `W` at most. -/
def Keeps (W : Nat → Prop) (pull : Puller) : Prop :=
  ∀ ⦃key attributed e r e'⦄, e.db.Coherent → pull key attributed e = .ok (r, e') → Ran W e e'

section Keeps

variable {W : Nat → Prop} {pull : Puller} {q : Queries} (hp : Keeps W pull)
include hp

theorem verify_deps_ran {verified s l j : Nat} {e e' : Engine} {r : Except Cancelled Bool}
    (hc : e.db.Coherent) (h : Walks pull verified s l j e r e') : Ran W e e' := by
  induction h with
  | done => exact .refl hc
  | error _ hpull => exact hp hc hpull
  | changed _ hpull => exact hp hc hpull
  | unchanged _ hpull _ _ ih =>
    have hran := hp hc hpull
    exact hran.trans (ih hran.coherent)

theorem run_tree_ran : ∀ {t : ReadTree QueryKey (Except Cancelled ValueHash) Outcome}
    {e e' : Engine} {out : Outcome}, e.db.Coherent → run_tree pull t e = .ok (out, e') → Ran W e e'
  | .done _, _, _, _, hc, h => by
    cases h
    exact .refl hc
  | .ask key next, e, e', out, hc, h => by
    unfold run_tree at h
    split at h
    · cases h
    · rename_i hpull
      have hran := hp hc hpull
      exact hran.trans (run_tree_ran hran.coherent h)

variable {id : Nat}

/-- The walk of `verify`, seen from outside of its frame. -/
theorem walk_ran {e e1 : Engine} {r : Except Cancelled Bool} (hc : e.db.Coherent)
    (hid : id < e.db.nodes.length) (h : WalksOf pull id e r e1) :
    Ran W e { e1 with db := e1.db.pop } ∧ e1.db.pop.stack = e.db.stack ∧
      e1.db.row id = e.db.row id := by
  have hpush : Kept W e ⟨e.db.push ⟨id, [], false⟩, e.calls⟩ :=
    .of_sameRows (Db.sameRows_push _ _) rfl rfl (Nat.le_refl _) suffix_rfl
  have hpop : Kept W e1 ⟨e1.db.pop, e1.calls⟩ :=
    .of_sameRows (Db.sameRows_pop _) rfl rfl (Nat.le_refl _) suffix_rfl
  have hran := verify_deps_ran hp (hc.push hid false) h
  have hstack : e1.db.pop.stack = e.db.stack := by
    obtain ⟨es, hes⟩ := hran.stack
    show e1.db.stack.tail = _
    rw [hes]
    rfl
  refine ⟨⟨(hpush.trans hran.toKept).trans hpop, hran.coherent.pop, ⟨[], ?_⟩, fun i hi => ?_⟩,
    hstack, ?_⟩
  · rw [note_deps_nil]
    exact hstack
  · exact hran.flight i (mem_cons_of_mem _ hi)
  · exact hran.flight id mem_cons_self

variable {key : QueryKey}

/-- `verify` writes its node when it comes out green. -/
theorem verify_ran {e e' : Engine} {r : Except Cancelled Bool}
    (hc : e.db.Coherent) (hf : e.db.find? key = some id) (ho : e.db.Open id)
    (hfl : id ∉ e.db.flight) (h : verify pull id e = .ok (r, e')) :
    e'.db.stack = e.db.stack ∧ Ran (fun i => W i ∨ i = id) e e' ∧
      (r ≠ .ok true → Ran W e e' ∧ e'.db.row id = e.db.row id) ∧
      (r = .ok true → e'.db.UpToDate id) := by
  have hid := (hc.wf.find_key hf).1
  cases verifies h with
  | empty => exact ⟨rfl, .refl hc, fun _ => ⟨.refl hc, rfl⟩, nofun⟩
  | error _ hwalk =>
    obtain ⟨hran, hstack, hrow⟩ := walk_ran hp hc hid hwalk
    exact ⟨hstack, hran.mono fun _ => .inl, fun _ => ⟨hran, hrow⟩, nofun⟩
  | red _ hwalk =>
    obtain ⟨hran, hstack, hrow⟩ := walk_ran hp hc hid hwalk
    exact ⟨hstack, (hran.charge _).mono fun _ => .inl, fun _ => ⟨hran.charge _, hrow⟩, nofun⟩
  | @green f e1 hv hwalk =>
    obtain ⟨hran, hstack, hrow⟩ := walk_ran hp hc hid hwalk
    -- the node was in flight during the walk, so it is still open
    have ho1 : e1.db.pop.Open id := ho.of_row hrow hran.rev
    have hid1 : id < e1.db.pop.nodes.length := hid.trans_le hran.length
    have hv : (e1.db.pop.row id).state = .valid := (congrArg Node.state hrow).trans hv
    have hset := Kept.set_row (W := fun i => W i ∨ i = id) (e := ⟨e1.db.pop, e1.calls⟩)
      (n := { e1.db.pop.row id with verified_at := e1.db.pop.rev }) hid1 (.inr rfl) ho1 ⟨hv, rfl⟩ rfl
    have hwrite := hran.write hstack hfl hset (hran.coherent.stamp (hran.find hf)) rfl fun i hi =>
      Db.row_set_row_ne hi
    refine ⟨hstack, hwrite.charge f, fun hne => absurd rfl hne, fun _ => ?_⟩
    unfold Db.UpToDate
    show ((e1.db.pop.set_row id _).row id).state = _ ∧ ((e1.db.pop.set_row id _).row id).verified_at = _
    rw [Db.row_set_row_self hid1]
    exact ⟨hv, rfl⟩

/-- `execute` writes its node when the computation returns a value. -/
theorem execute_ran {e e' : Engine} {r : Except Cancelled Answer}
    (hc : e.db.Coherent) (hf : e.db.find? key = some id) (ho : e.db.Open id)
    (hfl : id ∉ e.db.flight) (h : Executes q pull key id e r e') :
    e'.db.stack = e.db.stack ∧ Ran (fun i => W i ∨ i = id) e e' ∧
      (∀ c, r = .error c → Ran W e e') ∧ (∀ a, r = .ok a → e'.db.UpToDate id) ∧
      ∃ db, .compute key db :: e.calls <:+ e'.calls := by
  have hid := (hc.wf.find_key hf).1
  have hpush : Kept W e ⟨e.db.push ⟨id, [], true⟩,
      .compute key (e.db.push ⟨id, [], true⟩) :: e.calls⟩ :=
    .of_sameRows (Db.sameRows_push _ _) rfl rfl (Nat.le_refl _) (suffix_cons _ _)
  -- the computation, seen from outside of its frame
  have hcomputed : ∀ {out e1}, Computes q pull key id e out e1 →
      (∃ es, e1.db.stack = ⟨id, es, true⟩ :: e.db.stack) ∧ Ran W e ⟨e1.db.pop, e1.calls⟩ ∧
        e1.db.pop.stack = e.db.stack ∧ e1.db.row id = e.db.row id ∧ e1.db.Coherent ∧
        ∃ db, .compute key db :: e.calls <:+ e1.calls := by
    intro out e1 hrun
    have hran := run_tree_ran hp (hc.push hid true) hrun
    obtain ⟨es, hes⟩ := hran.stack
    have hstack1 : e1.db.stack = ⟨id, es, true⟩ :: e.db.stack := hes
    have hstack : e1.db.pop.stack = e.db.stack := by
      show e1.db.stack.tail = _
      rw [hstack1]
      rfl
    have hpop : Kept W e1 ⟨e1.db.pop, e1.calls⟩ :=
      .of_sameRows (Db.sameRows_pop _) rfl rfl (Nat.le_refl _) suffix_rfl
    exact ⟨⟨es, hstack1⟩, ⟨(hpush.trans hran.toKept).trans hpop, hran.coherent.pop,
      ⟨[], by rw [note_deps_nil]; exact hstack⟩,
      fun i hi => hran.flight i (mem_cons_of_mem _ hi)⟩, hstack, hran.flight id mem_cons_self,
      hran.coherent, _, hran.calls⟩
  cases h with
  | cancelled hrun =>
    obtain ⟨-, hran, hstack, -, -, hcalls⟩ := hcomputed hrun
    exact ⟨hstack, (hran.charge _).mono fun _ => .inl, fun _ _ => hran.charge _, nofun, hcalls⟩
  | @value v e1 frame rest hrun hframe =>
    obtain ⟨⟨es, hstack1⟩, hran, hstack, hrow, hc1, hcalls⟩ := hcomputed hrun
    rw [hstack1] at hframe
    cases hframe
    have ho1 : e1.db.pop.Open id := ho.of_row hrow hran.rev
    have hid1 : id < e1.db.pop.nodes.length := hid.trans_le hran.length
    have hcommit : Kept (fun i => W i ∨ i = id) ⟨e1.db.pop, e1.calls⟩
        ⟨e1.db.pop.commit key id es v, e1.calls⟩ :=
      .commit hid1 (.inr rfl) ho1
    have hreads := hc1.reads ⟨id, es, true⟩ (by rw [hstack1]; exact mem_cons_self)
    refine ⟨hstack, hran.write hstack hfl hcommit
      (hran.coherent.commit (hran.find hf) hreads) rfl fun i hi => Db.row_commit_ne hi,
      nofun, fun _ _ => ?_, hcalls⟩
    unfold Db.UpToDate
    show ((e1.db.pop.commit key id es v).row id).state = _ ∧
      ((e1.db.pop.commit key id es v).row id).verified_at = _
    rw [Db.row_commit_self hid1]
    exact ⟨rfl, rfl⟩

/-- What one level of `pull` writes besides what the pulls below it write: its own node, when it
answers. -/
structure Resolved (W : Nat → Prop) (id : Nat) (e : Engine) (r : Except Cancelled Answer)
    (e' : Engine) : Prop where
  stack : e'.db.stack = e.db.stack
  ran : Ran (fun i => W i ∨ i = id ∧ id ∉ e.db.flight) e e'
  err : ∀ c, r = .error c → Ran W e e'
  done : ∀ a, r = .ok a → e.db.Open id → id ∉ e.db.flight → e'.db.UpToDate id

theorem resolve_ran {e e' : Engine} {r : Except Cancelled Answer}
    (hc : e.db.Coherent) (hf : e.db.find? key = some id)
    (h : Resolves q pull key id e r e') : Resolved W id e r e' := by
  cases h with
  | known hclosed => exact ⟨rfl, (Ran.refl hc).charge _, nofun, fun _ _ ho => absurd ho hclosed⟩
  | cycle _ hfl =>
    exact ⟨rfl, (Ran.refl hc).same (Db.sameRows_charge _ _) rfl rfl rfl (Nat.le_refl _)
      (suffix_cons _ _), nofun, fun _ _ _ hout => absurd hfl hout⟩
  | opened ho hfl hopened =>
    have hW : ∀ i, W i ∨ i = id → W i ∨ i = id ∧ id ∉ e.db.flight :=
      fun i hi => hi.imp_right fun hi => ⟨hi, hfl⟩
    cases hopened with
    | error hver =>
      obtain ⟨hstack, hran, herr, -⟩ := verify_ran hp hc hf ho hfl hver
      exact ⟨hstack, hran.mono hW, fun _ _ => (herr nofun).1, nofun⟩
    | green hver =>
      obtain ⟨hstack, hran, -, hdone⟩ := verify_ran hp hc hf ho hfl hver
      exact ⟨hstack, hran.mono hW, nofun, fun _ _ _ _ => hdone rfl⟩
    | red hver hexec =>
      obtain ⟨hstack, -, hred, -⟩ := verify_ran hp hc hf ho hfl hver
      obtain ⟨hran, hrow⟩ := hred (by simp)
      have hfl1 : id ∉ _ := hran.flight_eq ▸ hfl
      obtain ⟨hstack', hran', herr, hdone, -⟩ := execute_ran hp hran.coherent (hran.find hf)
        (ho.of_row hrow hran.rev) hfl1 hexec
      exact ⟨hstack'.trans hstack, ((hran.mono fun _ => .inl).trans hran').mono hW,
        fun c hc => hran.trans (herr c hc), fun a ha _ _ => hdone a ha⟩

end Keeps

variable {key : QueryKey}

theorem probe_ran {W : Nat → Prop} {e : Engine} {attributed : Bool} {id : Nat}
    {db : Db} (hc : e.db.Coherent) (h : e.db.polled.probe key attributed = (id, db)) :
    db.find? key = some id ∧ Ran W e ⟨db, e.calls⟩ := by
  have hpolled : Ran W e ⟨e.db.polled, e.calls⟩ := (Ran.refl hc).polled
  obtain ⟨rfl, hs, hrev, hcancel, es, hes, -⟩ := probe_eqs h
  obtain ⟨-, -, hrev', hcancel', -⟩ := @Db.intern_eqs e.db.polled key
  have hsame : Kept W ⟨(e.db.polled.intern key).2, e.calls⟩ ⟨db, e.calls⟩ :=
    .of_sameRows hs (hrev.trans hrev'.symm)
      (congrArg CancelFlag.answers (hcancel.trans hcancel'.symm))
      (congrArg CancelFlag.polls (hcancel.trans hcancel'.symm)).ge suffix_rfl
  refine ⟨(hs.find? key).trans (Db.find?_intern_self key),
    (hpolled.toKept.trans (Kept.intern _ key)).trans hsame, hpolled.coherent.probe h, ⟨es, hes⟩,
    fun i hi => (hs.row i).trans ?_⟩
  obtain ⟨f, hf, rfl⟩ := mem_map.mp hi
  exact @Db.row_intern e.db.polled key _ (hc.in_flight f hf)

/-- A node there is only if it is the node of the key. -/
def Db.IsNode (db : Db) (key : QueryKey) (i : Nat) : Prop :=
  i < db.nodes.length → db.find? key = some i

theorem keeps_pull_body {W : Nat → Prop} {pull : Puller} {q : Queries} (hp : Keeps W pull)
    {attributed : Bool} {e e' : Engine} {r : Except Cancelled Answer}
    (hc : e.db.Coherent) (h : pull_body q pull key attributed e = .ok (r, e')) :
    Ran (fun i => W i ∨ e.db.IsNode key i ∧ i ∉ e.db.flight) e e' ∧
      (∀ c, r = .error c → Ran W e e') ∧
      ∀ a i, r = .ok a → e.db.find? key = some i → e.db.Open i → i ∉ e.db.flight →
        e'.db.UpToDate i := by
  cases pulls h with
  | @cancelled f _ =>
    have hran := (Ran.refl (W := W) hc).polled.charge f
    exact ⟨hran.mono fun _ => .inl, fun _ _ => hran, nofun⟩
  | @probed id db _ _ _ hprobe hres =>
    obtain ⟨hf, hran⟩ := probe_ran (W := W) hc hprobe
    have hres := resolve_ran hp (e := ⟨db, e.calls⟩) hran.coherent hf hres
    refine ⟨(hran.mono fun _ => .inl).trans (hres.ran.mono fun i hi => hi.imp_right ?_),
      fun c hc => hran.trans (hres.err c hc), fun a i ha hi ho hfl => ?_⟩
    · rintro ⟨rfl, hfl⟩
      refine ⟨fun hi => ?_, hran.flight_eq ▸ hfl⟩
      have hkey := (hran.coherent.wf.find_key hf).2
      have hsame := (hran.coherent.wf.find_key (hran.find (hc.wf.find_row hi))).2
      rw [← hkey, hsame]
      exact hc.wf.find_row hi
    · obtain rfl : i = id := Option.some.inj ((hran.find hi).symm.trans hf)
      by_cases hup : db.UpToDate i
      · exact (hres.ran.toKept.upToDate (hran.coherent.wf.find_key hf).1 hup).2
      · refine hres.done a ha ⟨?_, hup⟩ (hran.flight_eq ▸ hfl)
        rw [← ho.1]
        exact hran.input (hc.wf.find_key hi).1

/-- **A pull writes open nodes only**, whatever the query set does. -/
theorem keeps_pull (q : Queries) : ∀ fuel, Keeps (fun _ => True) (pull q fuel)
  | 0, _, _, _, _, _, _, h => by cases h
  | fuel + 1, _, _, _, _, _, hc, h =>
    (keeps_pull_body (keeps_pull q fuel) hc h).1.mono fun _ _ => trivial

/-! ## Runs -/

variable {fuel : Nat}

theorem demand_ran {q : Queries} {e e' : Engine}
    {r : Except Cancelled ValueHash} (hc : e.db.Coherent)
    (h : demand q fuel key e = .ok (r, e')) : Ran (fun _ => True) e e' := by
  unfold demand at h
  split at h
  · cases h
  · rename_i hpull
    cases h
    exact keeps_pull q fuel hc hpull

theorem is_red_ran {q : Queries} {e e' : Engine} {r : Except Cancelled Bool} (hc : e.db.Coherent)
    (h : is_red q fuel key e = .ok (r, e')) : Ran (fun _ => True) e e' := by
  cases reddens h with
  | cancelled _ => exact (Ran.refl hc).polled.charge _
  | known hprobe _ => exact (probe_ran hc hprobe).2.charge _
  | @walked id db _ _ hprobe ho hfl hver =>
    obtain ⟨hf, hran⟩ := probe_ran (W := fun _ => True) hc hprobe
    have hver := verify_ran (keeps_pull q fuel) (e := ⟨db, e.calls⟩) hran.coherent hf ho hfl hver
    exact hran.trans (hver.2.1.mono fun _ _ => trivial)

theorem Ran.at_rest {W : Nat → Prop} {e e' : Engine} (h : Ran W e e') (hs : e.db.stack = []) :
    e'.db.stack = [] := by
  obtain ⟨es, hes⟩ := h.stack
  rw [hes, hs]
  rfl

/-- A database between two operations: coherent, with nothing in flight. -/
def Engine.AtRest (e : Engine) : Prop :=
  e.db.Coherent ∧ e.db.stack = []

theorem Engine.AtRest.new (cancel : CancelFlag) : (Engine.new cancel).AtRest :=
  ⟨.new cancel, rfl⟩

theorem Engine.AtRest.step {q : Queries} {op : Op} {reply : Reply} {e e' : Engine}
    (h : e.AtRest) (hstep : step q fuel op e = .ok (reply, e')) : e'.AtRest := by
  unfold Query.step at hstep
  cases op with
  | set_input key value =>
    dsimp only at hstep
    split at hstep
    · cases hstep
    · rename_i hset
      cases hstep
      obtain ⟨hc, hs⟩ := h.1.set_input hset
      exact ⟨hc, hs.trans h.2⟩
  | demand key =>
    dsimp only at hstep
    split at hstep
    · cases hstep
    · rename_i hdemand
      cases hstep
      have hran := demand_ran h.1 hdemand
      exact ⟨hran.coherent, hran.at_rest h.2⟩
  | is_red key =>
    dsimp only at hstep
    split at hstep
    · cases hstep
    · rename_i hred
      cases hstep
      have hran := is_red_ran h.1 hred
      exact ⟨hran.coherent, hran.at_rest h.2⟩
  | compact =>
    dsimp only at hstep
    split at hstep
    · cases hstep
    · rename_i hcompact
      cases hstep
      exact ⟨h.1.compact hcompact, (Db.compact_spec h.1.wf hcompact).2.2.2.1.trans h.2⟩
  | open_window =>
    cases hstep
    exact ⟨h.1.same (Db.sameRows_open_window _) rfl rfl, h.2⟩

theorem Engine.AtRest.run {q : Queries} {ops : List Op} {e e' : Engine} {events : List Event}
    (h : e.AtRest) (hrun : run q fuel ops e = .ok (events, e')) : e'.AtRest := by
  replace hrun := runs hrun
  induction hrun with
  | nil => exact h
  | cons hstep _ ih => exact ih (h.step hstep)

end Fors.Query
