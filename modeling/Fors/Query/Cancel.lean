import Fors.Query.Consistency
import Fors.Query.Frame

/-!
# Cancelled demands

Model of `pull`, `verify` and `execute` of `db.rs` under a flag that becomes set.  `cycle.rs` says of a
cancelled demand that "nothing was written: every node is exactly as it was before the demand".  It has
that effect exactly when no node from before was brought up to date on the way: what the queries below
have finished by then stays written.

`Spares` says, of the columns before the demand, what a walk over them is answered on the way to its
cancellation when it finishes no such node.

Principal results: `cancelled_demand` and the demand `cancelled_after_mid`, which leaves a finished
dependency behind.
-/

namespace Fors.Query

open Option hiding map_map mem_map
open List

/-! ## The condition -/

/-- What a walk has used up: the polls so far and the new keys it has finished, with their values. -/
structure Spent where
  polls : Nat
  finished : List (QueryKey × ValueHash)

def Spent.polled (s : Spent) : Spent := { s with polls := s.polls + 1 }

def Spent.finish (s : Spent) (key : QueryKey) (v : ValueHash) : Spent :=
  { s with finished := (key, v) :: s.finished }

/-- The recovery value of a key in flight; `path` is the stack, innermost key first. -/
def recovery (q : Queries) (rev : Nat) (path : List QueryKey) (key : QueryKey) : Option Answer :=
  if key ∈ path then
    some ⟨q.on_cycle key ⟨key, path.reverse.dropWhile fun k => k != key⟩, rev⟩
  else none

/-- What a pull is answered at once: the columns of a node that is an input or up to date, the value of
a new key that has been finished, or a recovery value. -/
def Db.known (db : Db) (q : Queries) (path : List QueryKey) (s : Spent) (key : QueryKey) :
    Option Answer :=
  match db.find? key with
  | some i => if db.Open i then recovery q db.rev path key else some (db.answer i)
  | none =>
    match s.finished.lookup key with
    | some v => some ⟨v, db.rev⟩
    | none => recovery q db.rev path key

/-- The walk over the edges of a key that has a value: the revision it was verified at, and the edges. -/
def Db.walk_of (db : Db) (key : QueryKey) : Option (Nat × List Nat) :=
  match db.find? key with
  | some i =>
    if (db.row i).state = .valid then some ((db.row i).verified_at, db.range (db.row i)) else none
  | none => none

/-- A pull, the walk over the edges of a node, and the rest of a computation. -/
inductive Task where
  | pull (key : QueryKey)
  | walk (edges : Option (Nat × List Nat))
  | read (t : ReadTree QueryKey (Except Cancelled ValueHash) Outcome)

/-- How a task ends; a walk finds a change (`red`) or is cancelled (`stopped`). -/
inductive Ending where
  | answer (r : Except Cancelled Answer)
  | stopped
  | red
  | out (o : Outcome)

/-- How a walk ends whose answer `found` is that it needs an execution. -/
inductive WalkEnds (found : Bool) : Except Cancelled Bool → Ending → Prop
  | stopped {c} : WalkEnds found (.error c) .stopped
  | red : WalkEnds found (.ok found) .red

/-- A task over the columns of `e` that finishes no node of `e`: a node that is neither an input nor up
to date nor in flight is left by a cancellation only. -/
inductive Spares (q : Queries) (e : Engine) :
    List QueryKey → Spent → Task → Ending → Spent → Prop
  | cancelled {path s key} : e.db.cancel.answers s.polls = true →
    Spares q e path s (.pull key) (.answer (.error .cancelled)) s.polled
  | known {path s key a} : e.db.cancel.answers s.polls = false →
    e.db.known q path s key = some a → Spares q e path s (.pull key) (.answer (.ok a)) s.polled
  | stopped {path s key s'} : e.db.cancel.answers s.polls = false → e.db.known q path s key = none →
    Spares q e (key :: path) s.polled (.walk (e.db.walk_of key)) .stopped s' →
    Spares q e path s (.pull key) (.answer (.error .cancelled)) s'
  | gave_up {path s key s1 s'} : e.db.cancel.answers s.polls = false →
    e.db.known q path s key = none →
    Spares q e (key :: path) s.polled (.walk (e.db.walk_of key)) .red s1 →
    Spares q e (key :: path) s1 (.read (q.compute key)) (.out .cancelled) s' →
    Spares q e path s (.pull key) (.answer (.error .cancelled)) s'
  | finished {path s key v s'} : e.db.cancel.answers s.polls = false →
    e.db.known q path s key = none → e.db.find? key = none →
    Spares q e (key :: path) s.polled (.read (q.compute key)) (.out (.value v)) s' →
    Spares q e path s (.pull key) (.answer (.ok ⟨v, e.db.rev⟩)) (s'.finish key v)
  | empty {path s} : Spares q e path s (.walk none) .red s
  | edge_stopped {path s v d ds c s'} :
    Spares q e path s (.pull (e.db.row d).key) (.answer (.error c)) s' →
    Spares q e path s (.walk (some (v, d :: ds))) .stopped s'
  | changed {path s v d ds a s'} :
    Spares q e path s (.pull (e.db.row d).key) (.answer (.ok a)) s' → v < a.changed_at →
    Spares q e path s (.walk (some (v, d :: ds))) .red s'
  | unchanged {path s v d ds a s1 ending s'} :
    Spares q e path s (.pull (e.db.row d).key) (.answer (.ok a)) s1 → a.changed_at ≤ v →
    Spares q e path s1 (.walk (some (v, ds))) ending s' →
    Spares q e path s (.walk (some (v, d :: ds))) ending s'
  | done {path s o} : Spares q e path s (.read (.done o)) (.out o) s
  | ask {path s key next r s1 o s'} : Spares q e path s (.pull key) (.answer r) s1 →
    Spares q e path s1 (.read (next (r.map (·.value)))) (.out o) s' →
    Spares q e path s (.read (.ask key next)) (.out o) s'

/-- A demand of `key` made now can be cancelled before it has brought any node there is up to date. -/
def Untouched (q : Queries) (key : QueryKey) (e : Engine) : Prop :=
  ∃ s, Spares q e [] ⟨e.db.cancel.polls, []⟩ (.pull key) (.answer (.error .cancelled)) s

section Wide

attribute [local instance] Ids.wide

/-- The rows of `e` are the same in `e'`. -/
def Intact (e e' : Engine) : Prop :=
  ∀ i < e.db.nodes.length, e'.db.row i = e.db.row i

/-- The row of a new key: finished with its value, or still without one. -/
def Newer (rev : Nat) (v : Option ValueHash) (n : Node) : Prop :=
  n.is_input = false ∧ match v with
  | some v => n.state = .valid ∧ n.verified_at = rev ∧ n.value = v ∧ n.changed_at = rev
  | none => n.state ≠ .valid

/-- `e` is `e0` as a sparing walk has left it. -/
structure Sim (e0 : Engine) (path : List QueryKey) (s : Spent) (e : Engine) : Prop where
  kept : Kept (fun _ => True) e0 e
  coherent : e.db.Coherent
  intact : Intact e0 e
  polls : e.db.cancel.polls = s.polls
  path : e.db.flight.map (fun i => (e.db.row i).key) = path
  newer : ∀ {key i}, e0.db.find? key = none → e.db.find? key = some i →
    Newer e0.db.rev (s.finished.lookup key) (e.db.row i)
  finished : ∀ {key v}, s.finished.lookup key = some v → ∃ i, e.db.find? key = some i

theorem dropWhile_congr {α : Type} {p p' : α → Bool} : ∀ {l : List α}, (∀ a ∈ l, p a = p' a) →
    l.dropWhile p = l.dropWhile p'
  | [], _ => rfl
  | a :: l, h => by
    rw [dropWhile_cons, dropWhile_cons, h a mem_cons_self,
      dropWhile_congr fun b hb => h b (mem_cons_of_mem _ hb)]

namespace Sim

variable {q : Queries} {e0 e e' : Engine} {path : List QueryKey} {s : Spent} {key : QueryKey}
  {id : Nat}

theorem refl (hc : e0.db.Coherent) (hs : e0.db.stack = []) :
    Sim e0 [] ⟨e0.db.cancel.polls, []⟩ e0 where
  kept := .refl e0
  coherent := hc
  intact _ _ := rfl
  polls := rfl
  path := by
    unfold Db.flight
    rw [hs]
    rfl
  newer hnone hsome := by
    rw [hnone] at hsome
    cases hsome
  finished h := by cases h

/-- The same columns, with another stack and more polls. -/
theorem same (h : Sim e0 path s e) {path' : List QueryKey} (polls : Nat)
    (hs : Db.SameRows e.db e'.db) (hrev : e'.db.rev = e.db.rev)
    (hanswers : e'.db.cancel.answers = e.db.cancel.answers) (hle : e.db.cancel.polls ≤ polls)
    (hpolls : e'.db.cancel.polls = polls) (hcalls : e.calls <:+ e'.calls) (hc : e'.db.Coherent)
    (hpath : e'.db.flight.map (fun i => (e.db.row i).key) = path') :
    Sim e0 path' { s with polls := polls } e' where
  kept := h.kept.trans (.of_sameRows hs hrev hanswers (hle.trans_eq hpolls.symm) hcalls)
  coherent := hc
  intact i hi := (hs.row i).trans (h.intact i hi)
  polls := hpolls
  path := by
    simp only [hs.row]
    exact hpath
  newer hnone hsome := by
    rw [hs.row]
    exact h.newer hnone (by rwa [hs.find?] at hsome)
  finished hv := by
    simp only [hs.find?]
    exact h.finished hv

theorem charge (h : Sim e0 path s e) (f : Stats → Stats) :
    Sim e0 path s ⟨e.db.charge f, e.calls⟩ := by
  have hs := Db.sameRows_charge e.db f
  exact h.same s.polls hs rfl rfl h.polls.le h.polls suffix_rfl
    (h.coherent.same hs rfl rfl) h.path

theorem polled (h : Sim e0 path s e) : Sim e0 path s.polled ⟨e.db.polled, e.calls⟩ := by
  have hs := Db.sameRows_polled e.db
  exact h.same (s.polls + 1) hs rfl rfl (h.polls.le.trans (Nat.le_succ _))
    (congrArg (· + 1) h.polls) suffix_rfl (h.coherent.same hs rfl rfl) h.path

theorem push (h : Sim e0 path s e) (hf : e.db.find? key = some id) (a : Bool) (calls : List Call)
    (hcalls : e.calls <:+ calls) : Sim e0 (key :: path) s ⟨e.db.push ⟨id, [], a⟩, calls⟩ := by
  obtain ⟨hid, hkey⟩ := h.coherent.wf.find_key hf
  refine h.same s.polls (Db.sameRows_push e.db _) rfl rfl h.polls.le h.polls hcalls
    (h.coherent.push hid a) ?_
  show (e.db.row id).key :: e.db.flight.map _ = _
  rw [hkey, h.path]

/-- The start of a computation. -/
theorem computing (h : Sim e0 path s e) (hf : e.db.find? key = some id) :
    Sim e0 (key :: path) s
      ⟨e.db.push ⟨id, [], true⟩, .compute key (e.db.push ⟨id, [], true⟩) :: e.calls⟩ :=
  h.push hf true _ (suffix_cons _ _)

theorem pop (h : Sim e0 (key :: path) s e) : Sim e0 path s ⟨e.db.pop, e.calls⟩ := by
  refine h.same s.polls (Db.sameRows_pop e.db) rfl rfl h.polls.le h.polls suffix_rfl
    h.coherent.pop ?_
  have hpath := congrArg List.tail h.path
  unfold Db.flight at hpath ⊢
  rw [map_map, ← map_tail] at hpath
  rw [map_map]
  exact hpath

/-- Probing a key gives it a row, and leaves the others alone. -/
theorem intern (h : Sim e0 path s e) (key : QueryKey) :
    Sim e0 path s ⟨(e.db.intern key).2, e.calls⟩ := by
  obtain ⟨-, hstack, -, hcancel, -⟩ := @Db.intern_eqs e.db key
  have hlt : ∀ i < e0.db.nodes.length, i < e.db.nodes.length := fun i hi => hi.trans_le h.kept.length
  refine ⟨h.kept.trans (.intern e key), h.coherent.intern key, fun i hi => ?_,
    (congrArg CancelFlag.polls hcancel).trans h.polls, ?_, fun {k i} hnone hsome => ?_, fun hv => ?_⟩
  · exact (Db.row_intern key (hlt i hi)).trans (h.intact i hi)
  · have hflight : (e.db.intern key).2.flight = e.db.flight := congrArg (List.map Frame.node) hstack
    show (e.db.intern key).2.flight.map _ = path
    rw [hflight, ← h.path]
    refine map_congr_left fun i hi => ?_
    obtain ⟨f, hf, rfl⟩ := mem_map.mp hi
    exact congrArg Node.key (Db.row_intern key (h.coherent.in_flight f hf))
  · cases hf : e.db.find? k with
    | some j =>
      obtain rfl : j = i := some.inj ((Db.find?_intern key hf).symm.trans hsome)
      rw [Db.row_intern key (h.coherent.wf.find_key hf).1]
      exact h.newer hnone hf
    | none =>
      have hlookup : s.finished.lookup k = none := by
        cases hv : s.finished.lookup k with
        | none => rfl
        | some v =>
          obtain ⟨j, hj⟩ := h.finished hv
          rw [hf] at hj
          cases hj
      have hk : k = key := by
        by_contra hne
        have hsome' : (e.db.intern key).2.find? k = e.db.find? k := by
          cases hkey : e.db.find? key with
          | some j => rw [Db.intern_eq_of_find key hkey]
          | none =>
            rw [Db.intern_eq_of_fresh key hkey]
            show List.lookup k ((key, _) :: e.db.index) = _
            rw [lookup_cons, beq_eq_false_iff_ne.mpr hne]
            rfl
        dsimp only at hsome
        rw [hsome', hf] at hsome
        cases hsome
      subst hk
      obtain rfl : (e.db.intern k).1 = i :=
        some.inj ((Db.find?_intern_self k).symm.trans hsome)
      rw [hlookup, Db.row_intern_fresh k hf]
      exact ⟨rfl, nofun⟩
  · obtain ⟨i, hi⟩ := h.finished hv
    exact ⟨i, Db.find?_intern key hi⟩

/-- The start of a pull, once the poll has not found the flag set. -/
theorem probe (h : Sim e0 path s e) {attributed : Bool} {db : Db}
    (hprobe : e.db.polled.probe key attributed = (id, db)) :
    Sim e0 path s.polled ⟨db, e.calls⟩ ∧ db.find? key = some id := by
  have h1 := h.polled.intern key
  have hc := h.polled.coherent.probe hprobe
  obtain ⟨rfl, hs, hrev, hcancel, es, hes, -⟩ := probe_eqs hprobe
  obtain ⟨-, hstack, hrev', hcancel', -⟩ := @Db.intern_eqs e.db.polled key
  have hsame := hcancel.trans hcancel'.symm
  refine ⟨h1.same (s.polls + 1) hs (hrev.trans hrev'.symm)
    (congrArg CancelFlag.answers hsame) h1.polls.le
    ((congrArg CancelFlag.polls hsame).trans h1.polls) suffix_rfl hc ?_,
    (hs.find? key).trans (Db.find?_intern_self key)⟩
  have hflight : db.flight = (e.db.polled.intern key).2.flight := by
    unfold Db.flight
    rw [hes, note_deps_nodes, hstack]
  exact (congrArg (List.map _) hflight).trans h1.path

/-- A key in flight is the key of a node in flight. -/
theorem mem_path (h : Sim e0 path s e) (hf : e.db.find? key = some id) :
    key ∈ path ↔ id ∈ e.db.flight := by
  rw [← h.path, mem_map]
  constructor
  · rintro ⟨j, hj, rfl⟩
    obtain ⟨f, hmem, rfl⟩ := mem_map.mp hj
    have hsame := h.coherent.wf.find_row (h.coherent.in_flight f hmem)
    rwa [← some.inj (hsame.symm.trans hf)]
  · exact fun hid => ⟨id, hid, (h.coherent.wf.find_key hf).2⟩

theorem recovery_eq (h : Sim e0 path s e) (hf : e.db.find? key = some id) :
    recovery q e0.db.rev path key =
      if id ∈ e.db.flight then some ⟨q.on_cycle key (e.db.cycle_report id key), e.db.rev⟩
      else none := by
  unfold recovery
  simp only [h.mem_path hf, h.kept.rev]
  have hreport : e.db.cycle_report id key = ⟨key, path.reverse.dropWhile fun k => k != key⟩ := by
    unfold Db.cycle_report
    rw [← h.path]
    unfold Db.flight
    rw [map_map, ← map_reverse, dropWhile_map]
    congr 2
    refine dropWhile_congr fun f hmem => ?_
    have hrow := h.coherent.wf.find_row (h.coherent.in_flight f (mem_reverse.mp hmem))
    by_cases hid : f.node = id
    · subst hid
      simp [(h.coherent.wf.find_key hf).2]
    · have hkey : (e.db.row f.node).key ≠ key := by
        intro hkey
        rw [hkey, hf] at hrow
        exact hid (some.inj hrow).symm
      exact (bne_iff_ne.mpr hid).trans (bne_iff_ne.mpr hkey).symm
  rw [hreport]

/-- The node of a key that was not there is newer. -/
theorem newer_node (h : Sim e0 path s e) (hc0 : e0.db.WF) (hf : e.db.find? key = some id)
    (hnone : e0.db.find? key = none) : e0.db.nodes.length ≤ id := by
  by_contra hlt
  have hold := hc0.find_row (Nat.lt_of_not_le hlt)
  have hkey := Db.find?_inj h.coherent.wf (h.kept.find hold) hf
  rw [hkey, hnone] at hold
  cases hold

/-- **What the walk is answered at once** is what the engine answers at once. -/
theorem known_eq (h : Sim e0 path s e) (hc0 : e0.db.WF) (hf : e.db.find? key = some id) :
    e0.db.known q path s key =
      if e.db.Open id then
        if id ∈ e.db.flight then some ⟨q.on_cycle key (e.db.cycle_report id key), e.db.rev⟩
        else none
      else some (e.db.answer id) := by
  unfold Db.known
  rw [← h.recovery_eq hf]
  cases hold : e0.db.find? key with
  | some i =>
    obtain rfl : i = id := some.inj ((h.kept.find hold).symm.trans hf)
    have hrow := h.intact i (hc0.find_key hold).1
    have hopen : e.db.Open i ↔ e0.db.Open i :=
      ⟨fun ho => ho.of_row hrow.symm h.kept.rev.symm, fun ho => ho.of_row hrow h.kept.rev⟩
    have hanswer : e.db.answer i = e0.db.answer i := by
      unfold Db.answer
      rw [hrow]
    simp [hopen, hanswer]
  | none =>
    have hnewer := h.newer hold hf
    cases hv : s.finished.lookup key with
    | some v =>
      rw [hv] at hnewer
      obtain ⟨-, hstate, hver, hval, hch⟩ := hnewer
      have hup : e.db.UpToDate id := ⟨hstate, hver.trans h.kept.rev.symm⟩
      rw [if_neg hup.not_open]
      unfold Db.answer
      rw [hval, hch]
    | none =>
      rw [hv] at hnewer
      have ho : e.db.Open id := ⟨hnewer.1, fun hup => hnewer.2 hup.1⟩
      rw [if_pos ho]

/-- The recorded edges are where they were, and lead to the same keys. -/
theorem edge (h : Sim e0 path s e) (hc0 : e0.db.WF) {k l d : Nat} (hk : k < e0.db.deps.length)
    (hd : e.db.deps[k]? = some d) :
    (e0.db.deps.drop k).take (l + 1) = d :: (e0.db.deps.drop (k + 1)).take l ∧
      (e.db.row d).key = (e0.db.row d).key := by
  obtain ⟨more, hmore⟩ := h.kept.arena
  rw [← hmore, getElem?_append_left hk, getElem?_eq_getElem hk] at hd
  cases hd
  rw [drop_eq_getElem_cons hk, take_succ_cons]
  exact ⟨rfl, congrArg Node.key (h.intact _ (hc0.dep_lt (getElem_mem hk)))⟩

/-- The new key `key` is finished with the value `v`. -/
theorem commit (h : Sim e0 (key :: path) s e) (hc0 : e0.db.WF) (hnone : e0.db.find? key = none)
    (hf : e.db.find? key = some id) (ho : e.db.Open id) {deps : List Nat} {v : ValueHash}
    (hc : (e.db.pop.commit key id deps v).Coherent) :
    Sim e0 path (s.finish key v) ⟨e.db.pop.commit key id deps v, e.calls⟩ ∧
      (e.db.pop.commit key id deps v).answer id = ⟨v, e0.db.rev⟩ := by
  obtain ⟨hid, hkey⟩ := h.coherent.wf.find_key hf
  have hle := h.newer_node hc0 hf hnone
  have hstate : (e.db.row id).state ≠ .valid := by
    have hnewer := h.newer hnone hf
    cases hv : s.finished.lookup key with
    | none =>
      rw [hv] at hnewer
      exact hnewer.2
    | some v' =>
      rw [hv] at hnewer
      exact absurd ⟨hnewer.2.1, hnewer.2.2.1.trans h.kept.rev.symm⟩ ho.2
  have hfresh : e.db.pop.is_fresh id v = true := decide_eq_true (.inl hstate)
  have hself : (e.db.pop.commit key id deps v).row id =
      e.db.pop.executed_row id (Db.edge_set deps).length v := Db.row_commit_self hid
  have hne : ∀ {i}, i ≠ id → (e.db.pop.commit key id deps v).row i = e.db.row i :=
    fun hi => Db.row_commit_ne hi
  have hvalue : (e.db.pop.executed_row id (Db.edge_set deps).length v).value = v := if_pos hfresh
  have hchanged : (e.db.pop.executed_row id (Db.edge_set deps).length v).changed_at = e0.db.rev :=
    (if_pos hfresh).trans h.kept.rev
  have hp := h.pop
  have hkept : Kept (fun _ => True) ⟨e.db.pop, e.calls⟩ ⟨e.db.pop.commit key id deps v, e.calls⟩ :=
    .commit hid trivial ho
  refine ⟨⟨hp.kept.trans hkept, hc, fun i hi => ?_, h.polls, ?_, fun {k i} hk hi => ?_,
    fun {k v'} hv => ?_⟩, ?_⟩
  · exact (hne (by omega)).trans (h.intact i hi)
  · rw [← hp.path]
    refine map_congr_left fun i hi => ?_
    by_cases hii : i = id
    · subst hii
      show ((e.db.pop.commit key i deps v).row i).key = _
      rw [hself]
      rfl
    · exact congrArg Node.key (hne hii)
  · show Newer e0.db.rev (((key, v) :: s.finished).lookup k) _
    by_cases hkk : k = key
    · subst hkk
      obtain rfl : id = i := some.inj (hf.symm.trans hi)
      rw [lookup_cons, beq_self_eq_true]
      dsimp only
      rw [hself]
      exact ⟨ho.1, rfl, h.kept.rev, hvalue, hchanged⟩
    · have hii : i ≠ id := by
        rintro rfl
        exact hkk (Db.find?_inj h.coherent.wf hi hf)
      rw [lookup_cons, beq_eq_false_iff_ne.mpr hkk]
      dsimp only
      rw [hne hii]
      exact h.newer hk hi
  · by_cases hkk : k = key
    · subst hkk
      exact ⟨id, hf⟩
    · change ((key, v) :: s.finished).lookup k = some v' at hv
      rw [lookup_cons, beq_eq_false_iff_ne.mpr hkk] at hv
      exact h.finished hv
  · unfold Db.answer
    rw [hself, hvalue, hchanged]

/-- The branches of a pull. -/
theorem pull_cases (h : Sim e0 path s e) (hc0 : e0.db.WF) {fuel : Nat} {attributed : Bool}
    {r : Except Cancelled Answer} (hpull : pull q (fuel + 1) key attributed e = .ok (r, e')) :
    (e0.db.cancel.answers s.polls = true ∧ r = .error .cancelled ∧ Sim e0 path s.polled e') ∨
    e0.db.cancel.answers s.polls = false ∧
      ((∃ a, e0.db.known q path s key = some a ∧ r = .ok a ∧ Sim e0 path s.polled e') ∨
      e0.db.known q path s key = none ∧ ∃ id e1, Sim e0 path s.polled e1 ∧
        e1.db.find? key = some id ∧ e1.db.Open id ∧ id ∉ e1.db.flight ∧
        Opened q (pull q fuel) key id e1 r e') := by
  have hanswers : e.db.is_cancelled = e0.db.cancel.answers s.polls := by
    unfold Db.is_cancelled
    rw [h.kept.answers, h.polls]
  rw [← hanswers]
  cases pulls hpull with
  | cancelled hset => exact .inl ⟨hset, rfl, h.polled.charge _⟩
  | @probed id db _ _ hset hprobe hres =>
    obtain ⟨h1, hf⟩ := h.probe hprobe
    refine .inr ⟨hset, ?_⟩
    have hknown : e0.db.known q path s key = _ := h1.known_eq hc0 hf
    rw [hknown]
    cases hres with
    | known hclosed =>
      rw [if_neg hclosed]
      exact .inl ⟨_, rfl, rfl, h1.charge _⟩
    | @cycle f ho hfl =>
      rw [if_pos ho, if_pos hfl]
      have hs := Db.sameRows_charge db f
      exact .inl ⟨_, rfl, rfl, h1.same (s.polls + 1) hs rfl rfl h1.polls.le h1.polls
        (suffix_cons _ _) (h1.coherent.same hs rfl rfl) h1.path⟩
    | opened ho hfl hopened =>
      rw [if_pos ho, if_neg hfl]
      exact .inr ⟨rfl, id, _, h1, hf, ho, hfl, hopened⟩

/-- What `verify` walks over is what there was to walk over. -/
theorem walk_of_eq (h : Sim e0 path s e) (hc0 : e0.db.WF) (hf : e.db.find? key = some id)
    (ho : e.db.Open id) :
    e0.db.walk_of key = (if (e.db.row id).state = .valid then some ((e.db.row id).verified_at,
        (e0.db.deps.drop ((e.db.row id).dep_start + 0)).take (e.db.row id).dep_len) else none) ∧
      ((e.db.row id).state = .valid →
        (e.db.row id).dep_start + 0 + (e.db.row id).dep_len ≤ e0.db.deps.length) := by
  unfold Db.walk_of
  cases hold : e0.db.find? key with
  | some i =>
    obtain rfl : i = id := some.inj ((h.kept.find hold).symm.trans hf)
    have hid := (hc0.find_key hold).1
    rw [h.intact i hid]
    exact ⟨rfl, fun _ => hc0.range_le hid⟩
  | none =>
    have hempty : (e.db.row id).state ≠ .valid := by
      have hnewer := h.newer hold hf
      cases hlookup : s.finished.lookup key with
      | none =>
        rw [hlookup] at hnewer
        exact hnewer.2
      | some v =>
        rw [hlookup] at hnewer
        exact fun hvalid => ho.2 ⟨hvalid, hnewer.2.2.1.trans h.kept.rev.symm⟩
    exact ⟨(if_neg hempty).symm, fun hvalid => absurd hvalid hempty⟩

/-- The computation of a new key that returned a value. -/
theorem executed (h : Sim e0 path s e) (hc0 : e0.db.WF) {fuel : Nat} {e1 : Engine} {v : ValueHash}
    {frame : Frame} {rest : List Frame} (hf : e.db.find? key = some id) (ho : e.db.Open id)
    (hfl : id ∉ e.db.flight) (hrun : Computes q (pull q fuel) key id e (.value v) e1)
    (hstack : e1.db.stack = frame :: rest) (hnone : e0.db.find? key = none) :
    (Intact e0 ⟨e1.db.pop.commit key id frame.deps v, e1.calls⟩ → Intact e0 e1) ∧
      ∀ s', Sim e0 (key :: path) s' e1 →
        Sim e0 path (s'.finish key v) ⟨e1.db.pop.commit key id frame.deps v, e1.calls⟩ ∧
          (e1.db.pop.commit key id frame.deps v).answer id = ⟨v, e0.db.rev⟩ := by
  have hran := run_tree_ran (keeps_pull q fuel)
    (h.coherent.push (h.coherent.wf.find_key hf).1 true) hrun
  have hcommitted := (execute_ran (keeps_pull q fuel) h.coherent hf ho hfl
    (.value hrun hstack)).2.1.coherent
  refine ⟨fun hi i hlt => ?_, fun s' h' => h'.commit hc0 hnone (hran.find hf)
    (ho.of_row (hran.flight id mem_cons_self) hran.rev) hcommitted⟩
  -- the node that is written is a newer one
  have hle := h.newer_node hc0 hf hnone
  have hne : i ≠ id := by omega
  rw [← hi i hlt]
  exact (@Db.row_commit_ne _ key _ _ _ _ hne).symm

/-- What is intact in the end was intact on the way. -/
theorem intact_between (h : Sim e0 path s e) {W W' : Nat → Prop} {e1 : Engine} (h1 : Kept W e e1)
    (h2 : Kept W' e1 e') (hi : Intact e0 e') : Intact e0 e1 := by
  intro i hlt
  have hlen := hlt.trans_le h.kept.length
  rcases h1.row hlen with hsame | ⟨-, -, hu⟩
  · exact hsame.trans (h.intact i hlt)
  · -- a row that was written is up to date for good
    rw [← (h2.upToDate (hlen.trans_le h1.length) hu).1]
    exact hi i hlt

end Sim

/-! ## A pull that leaves the rows alone is sparing -/

/-- Every pull that leaves the older rows alone is a sparing walk. -/
def Forward (q : Queries) (e0 : Engine) (P : Puller) : Prop :=
  ∀ ⦃path s key attributed e r e'⦄, Sim e0 path s e → P key attributed e = .ok (r, e') →
    Intact e0 e' → ∃ s', Spares q e0 path s (.pull key) (.answer r) s' ∧ Sim e0 path s' e'

section Forward

variable {q : Queries} {e0 : Engine} {W : Nat → Prop} {P : Puller} (hc0 : e0.db.WF) (hk : Keeps W P)
  (hF : Forward q e0 P)
include hk hF

include hc0 in
theorem walk_forward {path : List QueryKey} {v start l j : Nat} {s : Spent} {e e' : Engine}
    {r : Except Cancelled Bool} (h : Sim e0 path s e) (hlen : start + j + l ≤ e0.db.deps.length)
    (hv : Walks P v start l j e r e') (hi : Intact e0 e') (hne : r ≠ .ok false) :
    ∃ s' ending,
      Spares q e0 path s (.walk (some (v, (e0.db.deps.drop (start + j)).take l))) ending s' ∧
      Sim e0 path s' e' ∧ WalkEnds true r ending := by
  induction hv generalizing s with
  | done => exact absurd rfl hne
  | error hdep hpull =>
    obtain ⟨hds, hkey⟩ := h.edge hc0 (by omega) hdep
    rw [hkey] at hpull
    rw [hds]
    obtain ⟨s', hs, h'⟩ := hF h hpull hi
    exact ⟨s', _, .edge_stopped hs, h', .stopped⟩
  | changed hdep hpull hgt =>
    obtain ⟨hds, hkey⟩ := h.edge hc0 (by omega) hdep
    rw [hkey] at hpull
    rw [hds]
    obtain ⟨s', hs, h'⟩ := hF h hpull hi
    exact ⟨s', _, .changed hs hgt, h', .red⟩
  | unchanged hdep hpull hle hrest ih =>
    obtain ⟨hds, hkey⟩ := h.edge hc0 (by omega) hdep
    rw [hkey] at hpull
    rw [hds]
    have hran := hk h.coherent hpull
    obtain ⟨s1, hs1, h1⟩ := hF h hpull
      (h.intact_between hran.toKept (verify_deps_ran hk hran.coherent hrest).toKept hi)
    obtain ⟨s', ending, hs, h', hend⟩ := ih h1 (by omega) hi hne
    exact ⟨s', ending, .unchanged hs1 hle hs, h', hend⟩

theorem read_forward {path : List QueryKey} :
    ∀ {t : ReadTree QueryKey (Except Cancelled ValueHash) Outcome} {s : Spent} {e e' : Engine}
      {out : Outcome}, Sim e0 path s e → run_tree P t e = .ok (out, e') → Intact e0 e' →
      ∃ s', Spares q e0 path s (.read t) (.out out) s' ∧ Sim e0 path s' e'
  | .done _, s, _, _, _, h, hrun, _ => by
    cases hrun
    exact ⟨s, .done, h⟩
  | .ask key next, s, e, e', out, h, hrun, hi => by
    unfold run_tree at hrun
    split at hrun
    · cases hrun
    rename_i r e1 hpull
    have hran := hk h.coherent hpull
    obtain ⟨s1, hs1, h1⟩ := hF h hpull
      (h.intact_between hran.toKept (run_tree_ran hk hran.coherent hrun).toKept hi)
    obtain ⟨s', hs, h'⟩ := read_forward h1 hrun hi
    exact ⟨s', .ask hs1 hs, h'⟩

end Forward

theorem pull_forward {q : Queries} {e0 : Engine} (hc0 : e0.db.WF) :
    ∀ fuel, Forward q e0 (pull q fuel)
  | 0, _, _, _, _, _, _, _, _, h, _ => by cases h
  | fuel + 1, path, s, key, attributed, e, r, e', h, hpull, hi => by
    have hk := keeps_pull q fuel
    have hF := pull_forward (q := q) hc0 fuel
    rcases h.pull_cases hc0 hpull with ⟨hset, rfl, h'⟩ | ⟨hset, ⟨a, hknown, rfl, h'⟩ |
      ⟨hknown, id, e1, h1, hf, ho, hfl, hopened⟩⟩
    · exact ⟨_, .cancelled hset, h'⟩
    · exact ⟨_, .known hset hknown, h'⟩
    obtain ⟨hwalk, hlen⟩ := h1.walk_of_eq hc0 hf ho
    -- an older node that has been brought up to date is not intact
    have hold : e'.db.UpToDate id → e'.db.rev = e1.db.rev → e0.db.find? key = none := by
      intro hup hrev
      cases hold : e0.db.find? key with
      | none => rfl
      | some i =>
        obtain rfl : i = id := some.inj ((h1.kept.find hold).symm.trans hf)
        have hid := (hc0.find_key hold).1
        exact absurd hup (ho.of_row ((hi i hid).trans (h1.intact i hid).symm) hrev).2
    have hnew : e0.db.find? key = none → e0.db.walk_of key = none := by
      intro hnone
      unfold Db.walk_of
      rw [hnone]
    cases hopened with
    | error hver =>
      cases verifies hver with
      | error hv hdeps =>
        rw [if_pos hv] at hwalk
        obtain ⟨s', _, hs, h', ⟨⟩⟩ := walk_forward hc0 hk hF
          (h1.push hf false _ suffix_rfl) (hlen hv) hdeps hi nofun
        exact ⟨s', .stopped hset hknown (hwalk ▸ hs), h'.pop⟩
    | green hver =>
      obtain ⟨-, hran2, -, hgreen⟩ := verify_ran hk h1.coherent hf ho hfl hver
      cases verifies hver with
      | green hv _ =>
        rw [hnew (hold (hgreen rfl) hran2.rev), if_pos hv] at hwalk
        cases hwalk
    | @red e2 _ _ hver hexec =>
      obtain ⟨-, -, hred, -⟩ := verify_ran hk h1.coherent hf ho hfl hver
      obtain ⟨hran2, hrow⟩ := hred nofun
      have ho2 := ho.of_row hrow hran2.rev
      have hfl2 : id ∉ e2.db.flight := by rwa [hran2.flight_eq]
      obtain ⟨-, hran', -, hdone, -⟩ := execute_ran hk hran2.coherent (hran2.find hf) ho2 hfl2 hexec
      have hi2 : Intact e0 e2 := h1.intact_between hran2.toKept hran'.toKept hi
      have hwalked : ∃ s2, Spares q e0 (key :: path) s.polled (.walk (e0.db.walk_of key)) .red s2 ∧
          Sim e0 path s2 e2 := by
        cases verifies hver with
        | empty hv =>
          rw [hwalk, if_neg hv]
          exact ⟨_, .empty, h1⟩
        | red hv hdeps =>
          rw [if_pos hv] at hwalk
          obtain ⟨s', _, hs, h', ⟨⟩⟩ := walk_forward hc0 hk hF
            (h1.push hf false _ suffix_rfl) (hlen hv) hdeps hi2 nofun
          exact ⟨s', hwalk ▸ hs, h'.pop.charge _⟩
      obtain ⟨s2, hs2, h2⟩ := hwalked
      have h2' := h2.computing (hran2.find hf)
      cases hexec with
      | cancelled hrun =>
        obtain ⟨s', hs, h'⟩ := read_forward hk hF h2' hrun hi
        exact ⟨s', .gave_up hset hknown hs2 hs, h'.pop.charge _⟩
      | value hrun hstack =>
        have hnone := hold (hdone _ rfl) (hran'.rev.trans hran2.rev)
        obtain ⟨hi3, hfinish⟩ := h2.executed hc0 (hran2.find hf) ho2 hfl2 hrun hstack hnone
        obtain ⟨s', hs, h'⟩ := read_forward hk hF h2' hrun (hi3 hi)
        obtain ⟨hsim, hanswer⟩ := hfinish s' h'
        rw [hanswer]
        rw [hnew hnone] at hs2
        cases hs2
        exact ⟨_, .finished hset hknown hnone hs, hsim⟩

/-! ## A sparing walk is what the engine does -/

/-- Wherever the engine is as the walk has left it, the call does what the task does. -/
def Follows (q : Queries) (e0 : Engine) (path : List QueryKey) (s s' : Spent) : Task → Ending → Prop
  | .pull key, ending => ∀ {fuel attributed e r e'}, Sim e0 path s e →
    pull q fuel key attributed e = .ok (r, e') → ending = .answer r ∧ Sim e0 path s' e'
  | .walk none, ending => ending = .red ∧ s' = s
  | .walk (some (v, ds)), ending => ∀ {fuel start l j e r e'}, Sim e0 path s e →
    ds = (e0.db.deps.drop (start + j)).take l → start + j + l ≤ e0.db.deps.length →
    Walks (pull q fuel) v start l j e r e' → Sim e0 path s' e' ∧ WalkEnds true r ending
  | .read t, ending => ∀ {fuel e out e'}, Sim e0 path s e →
    run_tree (pull q fuel) t e = .ok (out, e') → ending = .out out ∧ Sim e0 path s' e'

section Follows

variable {q : Queries} {e0 : Engine} (hc0 : e0.db.WF)
include hc0

/-- The first edge of a walk is pulled. -/
theorem walk_pulls {path : List QueryKey} {s : Spent} {v d fuel start l j : Nat} {ds : List Nat}
    {e e' : Engine} {r : Except Cancelled Bool} (h : Sim e0 path s e)
    (hds : d :: ds = (e0.db.deps.drop (start + j)).take l)
    (hlen : start + j + l ≤ e0.db.deps.length) (hv : Walks (pull q fuel) v start l j e r e') :
    ∃ r1 e1, pull q fuel (e0.db.row d).key false e = .ok (r1, e1) ∧
      ((∃ c, r1 = .error c ∧ r = .error c ∧ e' = e1) ∨
        (∃ a, r1 = .ok a ∧ v < a.changed_at ∧ r = .ok true ∧ e' = e1) ∨
        ∃ a l', r1 = .ok a ∧ a.changed_at ≤ v ∧ ds = (e0.db.deps.drop (start + (j + 1))).take l' ∧
          start + (j + 1) + l' ≤ e0.db.deps.length ∧
          Walks (pull q fuel) v start l' (j + 1) e1 r e') := by
  cases hv with
  | done =>
    rw [take_zero] at hds
    cases hds
  | error hdep hpull =>
    obtain ⟨hds', hkey⟩ := h.edge hc0 (by omega) hdep
    cases hds.trans hds'
    exact ⟨_, _, hkey ▸ hpull, .inl ⟨_, rfl, rfl, rfl⟩⟩
  | changed hdep hpull hgt =>
    obtain ⟨hds', hkey⟩ := h.edge hc0 (by omega) hdep
    cases hds.trans hds'
    exact ⟨_, _, hkey ▸ hpull, .inr (.inl ⟨_, rfl, hgt, rfl, rfl⟩)⟩
  | @unchanged l _ _ _ _ _ _ _ hdep hpull hle hrest =>
    obtain ⟨hds', hkey⟩ := h.edge hc0 (by omega) hdep
    cases hds.trans hds'
    exact ⟨_, _, hkey ▸ hpull, .inr (.inr ⟨_, l, rfl, hle, rfl, by omega, hrest⟩)⟩

/-- A pull of a key that is not answered at once goes on to verify its node. -/
theorem opened_of_unknown {path : List QueryKey} {s : Spent} {key : QueryKey} {fuel : Nat}
    {attributed : Bool} {e e' : Engine} {r : Except Cancelled Answer} (h : Sim e0 path s e)
    (hset : e0.db.cancel.answers s.polls = false) (hknown : e0.db.known q path s key = none)
    (hpull : pull q fuel key attributed e = .ok (r, e')) :
    ∃ fuel id e1, Sim e0 path s.polled e1 ∧ e1.db.find? key = some id ∧ e1.db.Open id ∧
      id ∉ e1.db.flight ∧ Opened q (pull q fuel) key id e1 r e' := by
  cases fuel with
  | zero => cases hpull
  | succ fuel =>
    rcases h.pull_cases hc0 hpull with ⟨hset', -⟩ | ⟨-, ⟨a, hknown', -⟩ | ⟨-, hopened⟩⟩
    · rw [hset] at hset'
      cases hset'
    · rw [hknown] at hknown'
      cases hknown'
    · exact ⟨fuel, hopened⟩

/-- The walk of a verification that ends as the task does. -/
theorem verify_follows {path : List QueryKey} {s s' : Spent} {key : QueryKey} {id fuel : Nat}
    {e e' : Engine} {r : Except Cancelled Bool} {ending : Ending} (h : Sim e0 path s e)
    (hf : e.db.find? key = some id) (ho : e.db.Open id)
    (hwalk : Follows q e0 (key :: path) s s' (.walk (e0.db.walk_of key)) ending)
    (hver : verify (pull q fuel) id e = .ok (r, e')) : Sim e0 path s' e' ∧ WalkEnds false r ending := by
  obtain ⟨heq, hlen⟩ := h.walk_of_eq hc0 hf ho
  have hpush := h.push hf false _ suffix_rfl
  cases verifies hver with
  | empty hv =>
    rw [heq, if_neg hv] at hwalk
    obtain ⟨rfl, rfl⟩ := hwalk
    exact ⟨h, .red⟩
  | error hv hdeps =>
    rw [heq, if_pos hv] at hwalk
    obtain ⟨h', ⟨⟩⟩ := hwalk hpush rfl (hlen hv) hdeps
    exact ⟨h'.pop, .stopped⟩
  | red hv hdeps =>
    rw [heq, if_pos hv] at hwalk
    obtain ⟨h', ⟨⟩⟩ := hwalk hpush rfl (hlen hv) hdeps
    exact ⟨h'.pop.charge _, .red⟩
  | green hv hdeps =>
    rw [heq, if_pos hv] at hwalk
    obtain ⟨-, ⟨⟩⟩ := hwalk hpush rfl (hlen hv) hdeps

/-- **The simulation.** -/
theorem Spares.follows {path : List QueryKey} {s s' : Spent} {task : Task} {ending : Ending}
    (hs : Spares q e0 path s task ending s') : Follows q e0 path s s' task ending := by
  induction hs with
  | cancelled hset =>
    intro fuel attributed e r e' h hpull
    cases fuel with
    | zero => cases hpull
    | succ fuel =>
      rcases h.pull_cases hc0 hpull with ⟨-, rfl, h'⟩ | ⟨hset', -⟩
      · exact ⟨rfl, h'⟩
      · cases hset.symm.trans hset'
  | known hset hknown =>
    intro fuel attributed e r e' h hpull
    cases fuel with
    | zero => cases hpull
    | succ fuel =>
      rcases h.pull_cases hc0 hpull with ⟨hset', -⟩ | ⟨-, ⟨a, hknown', rfl, h'⟩ | ⟨hknown', -⟩⟩
      · cases hset.symm.trans hset'
      · cases hknown.symm.trans hknown'
        exact ⟨rfl, h'⟩
      · cases hknown.symm.trans hknown'
  | stopped hset hknown _ ih =>
    intro fuel attributed e r e' h hpull
    obtain ⟨fuel, id, e1, h1, hf, ho, -, hopened⟩ := opened_of_unknown hc0 h hset hknown hpull
    cases hopened with
    | error hver => exact ⟨rfl, (verify_follows hc0 h1 hf ho ih hver).1⟩
    | green hver | red hver => cases (verify_follows hc0 h1 hf ho ih hver).2
  | gave_up hset hknown _ _ ihwalk ihread =>
    intro fuel attributed e r e' h hpull
    obtain ⟨fuel, id, e1, h1, hf, ho, hfl, hopened⟩ := opened_of_unknown hc0 h hset hknown hpull
    cases hopened with
    | error hver | green hver => cases (verify_follows hc0 h1 hf ho ihwalk hver).2
    | red hver hexec =>
      obtain ⟨-, -, hred, -⟩ := verify_ran (keeps_pull q fuel) h1.coherent hf ho hfl hver
      obtain ⟨hran, -⟩ := hred nofun
      have h2 := (verify_follows hc0 h1 hf ho ihwalk hver).1.computing (hran.find hf)
      cases hexec with
      | cancelled hrun => exact ⟨rfl, (ihread h2 hrun).2.pop.charge _⟩
      | value hrun => cases (ihread h2 hrun).1
  | finished hset hknown hnone _ ih =>
    intro fuel attributed e r e' h hpull
    obtain ⟨fuel, id, e1, h1, hf, ho, hfl, hopened⟩ := opened_of_unknown hc0 h hset hknown hpull
    have hwalk := (h1.walk_of_eq hc0 hf ho).1
    unfold Db.walk_of at hwalk
    rw [hnone] at hwalk
    -- a new key has no edges to walk over
    have hempty : ∀ {r e'}, verify (pull q fuel) id e1 = .ok (r, e') → r = .ok false ∧ e' = e1 := by
      intro r e' hver
      cases verifies hver with
      | empty => exact ⟨rfl, rfl⟩
      | error hv | red hv | green hv =>
        rw [if_pos hv] at hwalk
        cases hwalk
    cases hopened with
    | error hver | green hver => cases (hempty hver).1
    | red hver hexec =>
      obtain ⟨-, rfl⟩ := hempty hver
      have h2 := h1.computing hf
      cases hexec with
      | cancelled hrun => cases (ih h2 hrun).1
      | value hrun hstack =>
        obtain ⟨hout, h3⟩ := ih h2 hrun
        cases hout
        obtain ⟨hsim, hanswer⟩ := (h1.executed hc0 hf ho hfl hrun hstack hnone).2 _ h3
        exact ⟨congrArg (Ending.answer ∘ Except.ok) hanswer.symm, hsim⟩
  | empty => exact ⟨rfl, rfl⟩
  | edge_stopped _ ih =>
    intro fuel start l j e r e' h hds hlen hv
    obtain ⟨r1, e1, hpull, hbranch⟩ := walk_pulls hc0 h hds hlen hv
    obtain ⟨hans, h'⟩ := ih h hpull
    cases hans
    rcases hbranch with ⟨c, -, rfl, rfl⟩ | ⟨a, hr, -⟩ | ⟨a, l', hr, -⟩
    · exact ⟨h', .stopped⟩
    · cases hr
    · cases hr
  | changed _ hgt ih =>
    intro fuel start l j e r e' h hds hlen hv
    obtain ⟨r1, e1, hpull, hbranch⟩ := walk_pulls hc0 h hds hlen hv
    obtain ⟨hans, h'⟩ := ih h hpull
    cases hans
    rcases hbranch with ⟨c, hr, -⟩ | ⟨a, -, -, rfl, rfl⟩ | ⟨a, l', hr, hle, -⟩
    · cases hr
    · exact ⟨h', .red⟩
    · cases hr
      omega
  | unchanged _ hle _ ih ihrest =>
    intro fuel start l j e r e' h hds hlen hv
    obtain ⟨r1, e1, hpull, hbranch⟩ := walk_pulls hc0 h hds hlen hv
    obtain ⟨hans, h'⟩ := ih h hpull
    cases hans
    rcases hbranch with ⟨c, hr, -⟩ | ⟨a, hr, hgt, -⟩ | ⟨a, l', -, -, hds', hlen', hrest⟩
    · cases hr
    · cases hr
      omega
    · exact ihrest h' hds' hlen' hrest
  | done =>
    intro fuel e out e' h hrun
    cases hrun
    exact ⟨rfl, h⟩
  | ask _ _ ih ihrest =>
    intro fuel e out e' h hrun
    unfold run_tree at hrun
    split at hrun
    · cases hrun
    rename_i hpull
    obtain ⟨hans, h1⟩ := ih h hpull
    cases hans
    exact ihrest h1 hrun

end Follows

theorem pull_of_demand {q : Queries} {fuel : Nat} {key : QueryKey} {e e' : Engine} {c : Cancelled}
    (h : demand q fuel key e = .ok (.error c, e')) : pull q fuel key true e = .ok (.error c, e') := by
  unfold demand at h
  split at h
  · cases h
  · rename_i r e1 hpull
    cases r with
    | ok a => cases h
    | error c' =>
      cases h
      exact hpull

/-- The rows say where the edges are. -/
theorem range_of_intact {e e' : Engine} {W : Nat → Prop} (hc : e.db.WF) (hk : Kept W e e') {i : Nat}
    (hi : i < e.db.nodes.length) (hrow : e'.db.row i = e.db.row i) :
    e'.db.range (e'.db.row i) = e.db.range (e.db.row i) := by
  obtain ⟨more, hmore⟩ := hk.arena
  have hle := hc.range_le hi
  rw [hrow]
  unfold Db.range
  rw [← hmore, drop_append_of_le_length (by omega),
    take_append_of_le_length (by rw [length_drop]; omega)]

/-- A cancelled demand of the engine whose ids have no bound. -/
theorem cancelled_wide {q : Queries} {fuel : Nat} {e e' : Engine} {key : QueryKey} {c : Cancelled}
    (hs : e.AtRest) (h : demand q fuel key e = .ok (.error c, e')) :
    e'.db.stack = [] ∧
      ((∀ i < e.db.nodes.length, e'.db.row i = e.db.row i ∧
          e'.db.range (e'.db.row i) = e.db.range (e.db.row i)) ↔
        Untouched q key e) := by
  obtain ⟨hc, hstack⟩ := hs
  have hpull := pull_of_demand h
  have hran := keeps_pull q fuel hc hpull
  have hsim := Sim.refl hc hstack
  refine ⟨hran.at_rest hstack, fun hrows => ?_, fun ⟨s, hspares⟩ i hi => ?_⟩
  · obtain ⟨s, hspares, -⟩ := pull_forward hc.wf fuel hsim hpull fun i hi => (hrows i hi).1
    exact ⟨s, hspares⟩
  · have hrow := (hspares.follows hc.wf hsim hpull).2.intact i hi
    exact ⟨hrow, range_of_intact hc.wf hran.toKept hi hrow⟩

end Wide

/-- **A cancelled demand** of any query set leaves nothing in flight, and it leaves every node that
was there with its value, its revisions and its recorded edges exactly when a walk over the columns
can be cancelled before it has brought one of them up to date. -/
theorem cancelled_demand {q : Queries} {cancel : CancelFlag} {fuel fuel' : Nat} {ops : List Op}
    {events : List Event} {e e' : Engine} {key : QueryKey} {c : Cancelled}
    (hrun : run q fuel ops (Engine.new cancel) = .ok (events, e)) (hfit : Fit events e)
    (h : demand q fuel' key e = .ok (.error c, e')) (hfits : e'.db.Fits) :
    e'.db.stack = [] ∧
      ((∀ i < e.db.nodes.length, e'.db.row i = e.db.row i ∧
          e'.db.range (e'.db.row i) = e.db.range (e.db.row i)) ↔
        Untouched q key e) :=
  cancelled_wide
    ((Engine.AtRest.new cancel).run (run_agrees Ids.exact_u32 Ids.exact_wide q hrun hfit))
    (demand_agrees Ids.exact_u32 Ids.exact_wide q fuel' key e h hfits).2

/-! ## A dependency that was finished

`top()` sums two `mid`s.  Both inputs are edited; the demand executes `mid(0)` and is cancelled when
`top()` asks for `mid(1)`. -/

/-- A build of `top()` and an edit of both inputs. -/
def edited_ops : List Op :=
  [.set_input (.one IN 0) 11, .set_input (.one IN 1) 22, .demand (.unit TOP),
    .set_input (.one IN 0) 95, .set_input (.one IN 1) 35]

/-- The value of `mid(0)` before the demand, what the demand returned, and the value afterwards;
nothing if a table did not fit. -/
def mid_around (cancel : CancelFlag) : Option (Option ValueHash × Except Cancelled ValueHash ×
    Option ValueHash) :=
  match run (synth 2) 4 edited_ops (Engine.new cancel) with
  | .error _ => none
  | .ok (events, e) =>
    match demand (synth 2) 4 (.unit TOP) e with
    | .error _ => none
    | .ok (r, e') =>
      if Fit events e ∧ e'.db.Fits then
        some (e.db.value_of (.one MID 0), r, e'.db.value_of (.one MID 0))
      else none

theorem mid_around_eq {cancel : CancelFlag} {before after : Option ValueHash}
    {r : Except Cancelled ValueHash} (h : mid_around cancel = some (before, r, after)) :
    ∃ events e e', run (synth 2) 4 edited_ops (Engine.new cancel) = .ok (events, e) ∧
      demand (synth 2) 4 (.unit TOP) e = .ok (r, e') ∧ Fit events e ∧ e'.db.Fits ∧
      e.db.value_of (.one MID 0) = before ∧ e'.db.value_of (.one MID 0) = after := by
  unfold mid_around at h
  split at h
  · cases h
  · rename_i events e hrun
    split at h
    · cases h
    · rename_i r e' hdemand
      split at h
      swap
      · cases h
      rename_i hfits
      obtain ⟨rfl, hpair⟩ := Prod.mk.inj (some.inj h)
      cases hpair
      exact ⟨events, e, e', hrun, hdemand, hfits.1, hfits.2, rfl, rfl⟩

/-- The flag becomes set at the tenth poll, after `mid(0)` has been executed: the demand is
cancelled, and `mid(0)` has its new value. -/
theorem cancelled_after_mid :
    ∃ events e e', run (synth 2) 4 edited_ops (Engine.new ⟨fun n => n == 10, 0⟩) = .ok (events, e) ∧
      demand (synth 2) 4 (.unit TOP) e = .ok (.error .cancelled, e') ∧
      e.db.value_of (.one MID 0) = some 10 ∧ e'.db.value_of (.one MID 0) = some 90 := by
  have hmid : mid_around ⟨fun n => n == 10, 0⟩ = some (some 10, .error .cancelled, some 90) := by
    decide +kernel
  obtain ⟨events, e, e', hrun, hdemand, -, -, hvalues⟩ := mid_around_eq hmid
  exact ⟨events, e, e', hrun, hdemand, hvalues⟩

/-- At the sixth poll nothing is finished yet. -/
theorem cancelled_demand_before_mid :
    ∃ events e e', run (synth 2) 4 edited_ops (Engine.new ⟨fun n => n == 6, 0⟩) = .ok (events, e) ∧
      demand (synth 2) 4 (.unit TOP) e = .ok (.error .cancelled, e') ∧ e'.db.stack = [] ∧
      ((∀ i < e.db.nodes.length, e'.db.row i = e.db.row i ∧
          e'.db.range (e'.db.row i) = e.db.range (e.db.row i)) ↔
        Untouched (synth 2) (.unit TOP) e) := by
  have hmid : mid_around ⟨fun n => n == 6, 0⟩ = some (some 10, .error .cancelled, some 10) := by
    decide +kernel
  obtain ⟨events, e, e', hrun, hdemand, hfit, hfits, -, -⟩ := mid_around_eq hmid
  exact ⟨events, e, e', hrun, hdemand, cancelled_demand hrun hfit hdemand hfits⟩

end Fors.Query
