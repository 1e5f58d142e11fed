import Fors.Query.Narrow
import Fors.Query.Runs

/-!
# When the ids run out

`Nodes::push` of `db.rs` numbers rows by `len() as u32`: after `2 ^ 32` rows the next new key gets the
row of the first one.  This module has the two-level query set of the tests (`synth`), and the run of
it in which that happens (`wrapped_ops`).

Principal results: `run_grown` (every new key gets a row of its own while there are ids), `run_wrapped`
(the state in which two inputs share a row) and `demand_wrapped` (what is computed again there).
-/

namespace Fors.Query

open List

/-! ## The two-level query set

`mid(i)` is `in(i)` rounded down to a multiple of ten and `top()` sums the first `n` of them. -/

def IN : UInt16 := 0
def MID : UInt16 := 1
def TOP : UInt16 := 2

/-- The sum of `n` more `mid`s from the `i`-th on. -/
def sum_mids : Nat → Nat → BitVec 64 → ReadTree QueryKey (Except Cancelled ValueHash) Outcome
  | 0, _, sum => .done (.value (sum.setWidth 128))
  | n + 1, i, sum => .ask (.one MID (.ofNat i)) fun
    | .ok v => sum_mids n (i + 1) (sum + v.setWidth 64)
    | .error _ => .done .cancelled

def round_down (i : UInt32) : ReadTree QueryKey (Except Cancelled ValueHash) Outcome :=
  .ask (.one IN i) fun
    | .ok v => .done (.value ((v.setWidth 64 - v.setWidth 64 % 10#64).setWidth 128))
    | .error _ => .done .cancelled

def synth (n : Nat) : Queries where
  compute key :=
    if key.kind = MID then round_down key.a
    else if key.kind = TOP then sum_mids n 0 0
    else .done (.value 0)
  on_cycle _ _ := 0

theorem honest_sum_mids : ∀ n i sum, HonestFrom false (sum_mids n i sum)
  | 0, _, _ => by simp [sum_mids, HonestFrom]
  | n + 1, i, sum => by
    refine ⟨fun c => ?_, fun v => honest_sum_mids n (i + 1) _⟩
    simp [HonestFrom]

theorem honest_synth (n : Nat) : (synth n).Honest := by
  intro key
  unfold synth
  dsimp only
  split
  · exact ⟨fun c => by simp [HonestFrom], fun v => by simp [HonestFrom]⟩
  · split
    · exact honest_sum_mids n 0 0
    · simp [HonestFrom]

theorem asks_round_down {i : UInt32} {d : QueryKey} :
    ReadTree.Asks (fun _ _ => True) (round_down i) d → d = .one IN i
  | .here => rfl
  | .later (a := a) _ h => by
    cases a with
    | ok v => cases h
    | error c => cases h

theorem asks_sum_mids {d : QueryKey} : ∀ {n i sum},
    ReadTree.Asks (fun _ _ => True) (sum_mids n i sum) d → d.kind = MID
  | _ + 1, _, _, .here => rfl
  | n + 1, i, sum, .later (a := a) _ h => by
    cases a with
    | ok v => exact asks_sum_mids (n := n) h
    | error c => cases h

/-- The kinds are the layers. -/
theorem stratified_synth (n : Nat) : Stratified (synth n) fun key => key.kind.toNat := by
  intro k d h
  unfold synth at h
  dsimp only at h
  split at h
  · rename_i hk
    rw [asks_round_down h]
    show IN.toNat < k.kind.toNat
    rw [hk]
    decide
  · split at h
    · rename_i hk
      dsimp only
      rw [hk, asks_sum_mids h]
      decide
    · cases h

/-! ## Filling the table -/

/-- What `is_red` of the new keys `ks` leaves: a row for each of them. -/
structure Grown (ks : List QueryKey) (e e' : Engine) : Prop where
  nodes : e'.db.nodes = e.db.nodes ++ ks.map Node.new
  find : ∀ k ∉ ks, e'.db.find? k = e.db.find? k
  deps : e'.db.deps = e.db.deps
  rev : e'.db.rev = e.db.rev
  stack : e'.db.stack = e.db.stack
  answers : e'.db.cancel.answers = e.db.cancel.answers

variable {e : Engine}

theorem is_red_new (q : Queries) (fuel : Nat) {key : QueryKey}
    (hstack : e.db.stack = []) (hnever : ∀ n, e.db.cancel.answers n = false)
    (hnew : e.db.find? key = none) (hlen : e.db.nodes.length < 2 ^ 32) :
    ∃ e', is_red q fuel key e = .ok (.ok true, e') ∧ Grown [key] e e' := by
  have hid : Ids.of_len e.db.nodes.length = e.db.nodes.length := Ids.exact_u32 _ hlen
  have hfind : e.db.polled.find? key = none := hnew
  have hset : e.db.is_cancelled = false := hnever _
  have hintern : e.db.polled.intern key = (e.db.nodes.length, { e.db.polled with
      nodes := e.db.nodes ++ [Node.new key], index := (key, e.db.nodes.length) :: e.db.index }) := by
    unfold Db.intern
    rw [hfind]
    dsimp only [Db.polled]
    rw [hid]
  refine ⟨⟨(e.db.polled.intern key).2.charge fun s => { s with probes := s.probes + 1 }, e.calls⟩,
    ?_, ?_⟩
  · unfold is_red
    dsimp only
    unfold Db.probe
    rw [if_neg (by rw [hset]; decide), hintern]
    simp only [Db.charge, Db.row, Db.polled, hstack]
    unfold verify
    simp [Db.row, Node.new]
  · rw [hintern]
    refine ⟨rfl, fun k hk => ?_, rfl, rfl, rfl, rfl⟩
    have hne : (k == key) = false := by simpa using hk
    show List.lookup k ((key, _) :: e.db.index) = _
    rw [lookup_cons, hne]
    rfl

/-- Runs follow one another. -/
theorem run_append {q : Queries} {fuel : Nat} : ∀ {ops ops' : List Op} {e e1 e2 : Engine}
    {events events' : List Event}, run q fuel ops e = .ok (events, e1) →
    run q fuel ops' e1 = .ok (events', e2) → run q fuel (ops ++ ops') e = .ok (events ++ events', e2)
  | [], _, _, _, _, _, _, h, h' => by
    cases h
    exact h'
  | op :: ops, ops', e, e1, e2, events, events', h, h' => by
    rw [cons_append]
    unfold run at h ⊢
    split at h
    · cases h
    split at h
    · cases h
    rename_i hrest
    cases h
    simp [run_append hrest h']

/-- Each of the new keys gets a row of its own, while there are ids. -/
theorem run_grown (q : Queries) (fuel : Nat) : ∀ {ks : List QueryKey} {e : Engine}, ks.Nodup →
    e.db.stack = [] → (∀ n, e.db.cancel.answers n = false) → (∀ k ∈ ks, e.db.find? k = none) →
    e.db.nodes.length + ks.length ≤ 2 ^ 32 →
    ∃ events e', run q fuel (ks.map .is_red) e = .ok (events, e') ∧ Grown ks e e' ∧
      ∀ ev ∈ events, ∃ k, ev.op = .is_red k
  | [], e, _, _, _, _, _ =>
    ⟨[], e, rfl, ⟨(append_nil _).symm, fun _ _ => rfl, rfl, rfl, rfl, rfl⟩, nofun⟩
  | k :: ks, e, hnd, hstack, hnever, hnew, hlen => by
    rw [length_cons] at hlen
    obtain ⟨hk, hnd⟩ := nodup_cons.mp hnd
    obtain ⟨e1, hred, h1⟩ := is_red_new q fuel hstack hnever
      (hnew k mem_cons_self) (by omega)
    have hlen1 : e1.db.nodes.length = e.db.nodes.length + 1 := by
      rw [h1.nodes, length_append]
      rfl
    obtain ⟨events, e', hrun, h2, hops⟩ := run_grown q fuel hnd
      (h1.stack.trans hstack) (fun n => by rw [h1.answers, hnever])
      (fun k' hk' => (h1.find k' fun hmem => hk (mem_singleton.mp hmem ▸ hk')).trans
        (hnew k' (mem_cons_of_mem _ hk'))) (by omega)
    refine ⟨⟨.is_red k, e, .red (.ok true)⟩ :: events, e', ?_, ⟨?_, fun k' hk' => ?_,
      h2.deps.trans h1.deps, h2.rev.trans h1.rev, h2.stack.trans h1.stack,
      h2.answers.trans h1.answers⟩, ?_⟩
    · show run q fuel (.is_red k :: ks.map .is_red) e = _
      unfold run step
      simp [hred, hrun]
    · rw [h2.nodes, h1.nodes, append_assoc]
      rfl
    · obtain ⟨hne, hout⟩ := not_or.mp (mem_cons.not.mp hk')
      exact (h2.find k' hout).trans (h1.find k' (by simpa using hne))
    · intro ev hev
      rcases mem_cons.mp hev with rfl | hev
      · exact ⟨k, rfl⟩
      · exact hops ev hev

/-- Keys of a kind of their own. -/
def fillers (n : Nat) : List QueryKey := (List.range n).map fun i => .one 9 (.ofNat i)

variable {n : Nat}

theorem nodup_fillers (hn : n ≤ 2 ^ 32) : (fillers n).Nodup := by
  refine Nodup.map_on (fun i hi j hj h => ?_) nodup_range
  have hij : (UInt32.ofNat i).toNat = (UInt32.ofNat j).toNat :=
    congrArg (fun k : QueryKey => k.a.toNat) h
  rw [mem_range] at hi hj
  rwa [UInt32.toNat_ofNat', UInt32.toNat_ofNat', Nat.mod_eq_of_lt (by omega),
    Nat.mod_eq_of_lt (by omega)] at hij

/-- The first build of `mid(0)`: two rows and one edge. -/
def early : List Op := [.set_input (.one IN 0) 11, .demand (.one MID 0)]

theorem run_early : ∃ events e, run (synth 2) 3 early (Engine.new .never) = .ok (events, e) ∧
    e.db.nodes = [⟨.one IN 0, 11, 1, 1, 0, 0, .valid, true⟩,
      ⟨.one MID 0, 10, 1, 1, 0, 1, .valid, false⟩] ∧
    e.db.index = [(.one MID 0, 1), (.one IN 0, 0)] ∧ e.db.deps = [0] ∧ e.db.rev = 1 ∧ e.db.stack = [] ∧
    (e.db.cancel.answers = fun _ => false) ∧ ∀ ev ∈ events, ∀ v, ev.op = .set_input (.one IN 0) v →
      ev.before.db.input (.one IN 0) = none := by
  refine ⟨_, _, rfl, by decide +kernel, by decide +kernel, by decide +kernel, by decide +kernel,
    by decide +kernel, rfl, fun ev hev v hop => ?_⟩
  rcases mem_pair.mp hev with rfl | rfl
  · rfl
  · cases hop

/-- The rows, the index and the arena once the second input has been given row `0`. -/
structure Wrapped (e : Engine) : Prop where
  row0 : e.db.row 0 = ⟨.one IN 0, 25, 2, 2, 0, 0, .valid, true⟩
  row1 : e.db.row 1 = ⟨.one MID 0, 10, 1, 1, 0, 1, .valid, false⟩
  input : e.db.find? (.one IN 0) = some 0
  mid : e.db.find? (.one MID 0) = some 1
  deps : e.db.deps = [0]
  rev : e.db.rev = 2
  stack : e.db.stack = []
  answers : e.db.cancel.answers = fun _ => false

theorem kind_of_mem_fillers {k : QueryKey} (h : k ∈ fillers n) : k.kind = 9 := by
  obtain ⟨i, -, rfl⟩ := mem_map.mp h
  rfl

/-- A build of `mid(0)`, all the other ids, and one key more. -/
def wrapped_ops (n : Nat) : List Op :=
  early ++ (fillers n).map .is_red ++ [.set_input (.one IN 1) 25]

/-- **The ids run out**: the second input gets the row of the first. -/
theorem run_wrapped (hn : n + 2 = 2 ^ 32) : ∃ events e,
    run (synth 2) 3 (wrapped_ops n) (Engine.new .never) = .ok (events, e) ∧ Wrapped e ∧
    ∀ ev ∈ events, ∀ v, ev.op = .set_input (.one IN 0) v →
      ev.before.db.input (.one IN 0) = none := by
  obtain ⟨events0, e0, hrun0, hnodes, hindex, hdeps, hrev, hstack, hanswers, hevents⟩ := run_early
  have hlen : (fillers n).length = n := by
    rw [fillers, length_map, length_range]
  have hnew : ∀ k ∈ fillers n, e0.db.find? k = none := by
    intro k hk
    have hkind := kind_of_mem_fillers hk
    have hmid : (k == .one MID 0) = false := by
      refine beq_eq_false_iff_ne.mpr ?_
      rintro rfl
      cases hkind
    have hin : (k == .one IN 0) = false := by
      refine beq_eq_false_iff_ne.mpr ?_
      rintro rfl
      cases hkind
    unfold Db.find?
    rw [hindex, lookup_cons, hmid]
    dsimp only
    rw [lookup_cons, hin]
    rfl
  obtain ⟨events1, e1, hrun1, hgrown, hreds⟩ := run_grown (synth 2) 3
    (nodup_fillers (by omega)) hstack (congrFun hanswers) hnew (by
      rw [hnodes, hlen, length_cons, length_singleton]
      omega)
  have hnodes1 := hgrown.nodes
  have hlen1 : e1.db.nodes.length = 2 ^ 32 := by
    rw [hnodes1, length_append, length_map, hlen, hnodes, length_cons,
      length_singleton]
    omega
  have hfind : ∀ {k : QueryKey}, k.kind ≠ 9 → e1.db.find? k = e0.db.find? k := fun hk =>
    hgrown.find _ fun hmem => hk (kind_of_mem_fillers hmem)
  have hold : ∀ {k : QueryKey} {i : Nat}, k ≠ .one IN 1 → k.kind ≠ 9 → e0.db.find? k = some i →
      List.lookup k ((.one IN 1, 0) :: e1.db.index) = some i := by
    intro k i hk hkind hi
    rw [lookup_cons, beq_eq_false_iff_ne.mpr hk]
    exact (hfind hkind).trans hi
  have hfresh : e1.db.find? (.one IN 1) = none := by
    rw [hfind (by decide)]
    unfold Db.find?
    rw [hindex]
    decide
  have hid : Ids.of_len e1.db.nodes.length = 0 := by
    rw [hlen1]
    rfl
  have hset : ∃ e2, e1.db.set_input (.one IN 1) 25 = .ok (true, e2) ∧ Wrapped ⟨e2, e1.calls⟩ := by
    unfold Db.set_input Db.intern
    rw [hfresh]
    simp only [hid]
    have hrows : e1.db.nodes ++ [Node.new (.one IN 1)] = ⟨.one IN 0, 11, 1, 1, 0, 0, .valid, true⟩ ::
        ⟨.one MID 0, 10, 1, 1, 0, 1, .valid, false⟩ ::
          ((fillers n).map Node.new ++ [Node.new (.one IN 1)]) := by
      rw [hnodes1, hnodes]
      rfl
    rw [hrows]
    generalize (fillers n).map Node.new ++ [Node.new (.one IN 1)] = tail
    refine ⟨_, rfl, ⟨?_, rfl, ?_, ?_, ?_, ?_, ?_, ?_⟩⟩
    · show (⟨.one IN 0, 25, e1.db.rev + 1, e1.db.rev + 1, 0, 0, .valid, true⟩ : Node) = _
      rw [hgrown.rev, hrev]
    · exact hold (by decide) (by decide) (by unfold Db.find?; rw [hindex]; decide)
    · exact hold (by decide) (by decide) (by unfold Db.find?; rw [hindex]; decide)
    · exact hgrown.deps.trans hdeps
    · exact congrArg (· + 1) (hgrown.rev.trans hrev)
    · exact hgrown.stack.trans hstack
    · exact hgrown.answers.trans hanswers
  obtain ⟨e2, hset, hwrapped⟩ := hset
  have hlast : run (synth 2) 3 [.set_input (.one IN 1) 25] e1 =
      .ok ([⟨.set_input (.one IN 1) 25, e1, .wrote true⟩], ⟨e2, e1.calls⟩) := by
    unfold run step
    simp only [hset]
    rfl
  refine ⟨_, _, run_append (run_append hrun0 hrun1) hlast, hwrapped, fun ev hev v hop => ?_⟩
  rcases mem_append.mp hev with hev | hev
  · rcases mem_append.mp hev with hev | hev
    · exact hevents ev hev v hop
    · obtain ⟨k, hk⟩ := hreds ev hev
      rw [hk] at hop
      cases hop
  · obtain rfl := mem_singleton.mp hev
    cases hop

/-- What a read of an input leaves as it was. -/
structure Peeked (e e' : Engine) : Prop where
  nodes : e'.db.nodes = e.db.nodes
  find : e'.db.find? = e.db.find?
  deps : e'.db.deps = e.db.deps
  rev : e'.db.rev = e.db.rev
  stack : e.db.stack.length = e'.db.stack.length
  answers : e'.db.cancel.answers = e.db.cancel.answers
  calls : e'.calls = e.calls

theorem Db.attribute_to_eq (db : Db) (id : Nat) : ∃ stack, db.stack.length = stack.length ∧
    db.attribute_to id = { db with stack := stack } := by
  unfold attribute_to
  split
  · exact ⟨db.stack, rfl, rfl⟩
  · rename_i f rest hstack
    split
    · exact ⟨_, by rw [hstack]; rfl, rfl⟩
    · exact ⟨db.stack, rfl, rfl⟩

/-- A read of an input's row answers what is in it. -/
theorem pull_input (q : Queries) (fuel : Nat) {key : QueryKey} (attributed : Bool)
    {id : Nat} (hset : e.db.is_cancelled = false) (hid : e.db.find? key = some id)
    (hin : (e.db.row id).is_input = true) (hvalid : (e.db.row id).state = .valid) :
    ∃ e', pull q (fuel + 1) key attributed e = .ok (.ok (e.db.answer id), e') ∧ Peeked e e' := by
  have hprobe : ∃ stats stack, e.db.stack.length = stack.length ∧ e.db.polled.probe key attributed =
      (id, { e.db.polled with stats := stats, stack := stack }) := by
    have hintern : e.db.polled.intern key = (id, e.db.polled) := by
      unfold Db.intern
      rw [show e.db.polled.find? key = some id from hid]
    unfold Db.probe
    rw [hintern]
    cases attributed with
    | false => exact ⟨_, e.db.stack, rfl, rfl⟩
    | true =>
      obtain ⟨stack, hlen, heq⟩ := Db.attribute_to_eq
        (e.db.polled.charge fun s => { s with probes := s.probes + 1 }) id
      exact ⟨_, stack, hlen, congrArg (Prod.mk id) heq⟩
  obtain ⟨stats, stack, hlen, hprobe⟩ := hprobe
  unfold pull pull_body
  simp only [hset, hprobe, Bool.false_eq_true, if_false]
  unfold resolve
  have hin' : (Db.row { e.db.polled with stats := stats, stack := stack } id).is_input = true := hin
  have hvalid' : (Db.row { e.db.polled with stats := stats, stack := stack } id).state = .valid :=
    hvalid
  simp only [hin', hvalid', if_true]
  exact ⟨_, rfl, rfl, rfl, rfl, rfl, hlen, rfl, rfl⟩

theorem Wrapped.of_peeked {e' : Engine} (h : Wrapped e) (hp : Peeked e e') : Wrapped e' where
  row0 := by
    rw [← h.row0]
    exact congrArg (·.getD 0 (Node.new ⟨0, 0, 0⟩)) hp.nodes
  row1 := by
    rw [← h.row1]
    exact congrArg (·.getD 1 (Node.new ⟨0, 0, 0⟩)) hp.nodes
  input := (congrFun hp.find _).trans h.input
  mid := (congrFun hp.find _).trans h.mid
  deps := hp.deps.trans h.deps
  rev := hp.rev.trans h.rev
  stack := length_eq_zero_iff.mp (hp.stack.symm.trans (congrArg List.length h.stack))
  answers := hp.answers.trans h.answers

theorem Wrapped.is_cancelled (h : Wrapped e) : e.db.is_cancelled = false :=
  congrFun h.answers _

/-- The row of the input that `mid(0)` recorded has changed: it is somebody else's. -/
theorem verify_wrapped (h : Wrapped e) :
    ∃ e', verify (pull (synth 2) 2) 1 e = .ok (.ok false, e') ∧ Peeked e e' := by
  obtain ⟨e1, hpull, hp⟩ := pull_input (synth 2) 1 false
    (e := { e with db := e.db.push ⟨1, [], false⟩ }) h.is_cancelled h.input
    (congrArg Node.is_input h.row0) (congrArg Node.state h.row0)
  have hdeps : verify_deps (pull (synth 2) 2) 1 0 1 0 { e with db := e.db.push ⟨1, [], false⟩ } =
      .ok (.ok true, e1) := by
    unfold verify_deps
    have hdep : e.db.deps[0 + 0]? = some 0 := by
      rw [h.deps]
      rfl
    have hrow : Db.row (e.db.push ⟨1, [], false⟩) 0 = e.db.row 0 := rfl
    have hans : (e.db.push ⟨1, [], false⟩).answer 0 = ⟨25, 2⟩ := by
      unfold Db.answer
      rw [hrow, h.row0]
    rw [hans] at hpull
    simp only [Db.push] at hpull hdep hrow ⊢
    simp only [hdep, hrow, h.row0, hpull]
    rfl
  unfold verify
  simp only [h.row1, hdeps]
  refine ⟨_, rfl, hp.nodes, hp.find, hp.deps, hp.rev, ?_, hp.answers, hp.calls⟩
  have hlen := hp.stack
  show e.db.stack.length = e1.db.stack.tail.length
  rw [length_tail, ← hlen]
  rfl

/-- The execution is logged with the database it was handed. -/
theorem execute_wrapped (h : Wrapped e) : ∃ r e',
    execute (synth 2) (pull (synth 2) 2) (.one MID 0) 1 e = .ok (r, e') ∧
    .compute (.one MID 0) (e.db.push ⟨1, [], true⟩) ∈ e'.calls := by
  obtain ⟨e1, hpull, hp⟩ := pull_input (synth 2) 1 true
    (e := ⟨e.db.push ⟨1, [], true⟩, .compute (.one MID 0) (e.db.push ⟨1, [], true⟩) :: e.calls⟩)
    h.is_cancelled h.input (congrArg Node.is_input h.row0) (congrArg Node.state h.row0)
  have htree : (synth 2).compute (.one MID 0) = round_down 0 := rfl
  unfold execute
  have hlen := hp.stack
  simp only [htree]
  unfold round_down run_tree
  simp only [hpull]
  unfold run_tree
  cases hstack : e1.db.stack with
  | nil =>
    rw [hstack] at hlen
    cases hlen
  | cons frame _ =>
    simp only [Except.map, hstack]
    refine ⟨_, _, rfl, ?_⟩
    show _ ∈ e1.calls
    rw [hp.calls]
    exact mem_cons_self

/-- `mid(0)` is executed again, on a database in which the row of its input is somebody else's. -/
theorem demand_wrapped (h : Wrapped e) : ∃ r e' e1,
    demand (synth 2) 3 (.one MID 0) e = .ok (r, e') ∧ Wrapped e1 ∧
    .compute (.one MID 0) (e1.db.push ⟨1, [], true⟩) ∈ e'.calls := by
  have hprobe : e.db.polled.probe (.one MID 0) true =
      (1, e.db.polled.charge fun s => { s with probes := s.probes + 1 }) := by
    unfold Db.probe Db.intern
    rw [show e.db.polled.find? (.one MID 0) = some 1 from h.mid]
    unfold Db.attribute_to
    simp only [Db.charge, Db.polled, h.stack, if_true]
  let e0 : Engine := { e with db := e.db.polled.charge fun s => { s with probes := s.probes + 1 } }
  have h0 : Wrapped e0 := h.of_peeked ⟨rfl, rfl, rfl, rfl, rfl, rfl, rfl⟩
  obtain ⟨e1, hverify, hp⟩ := verify_wrapped h0
  obtain ⟨r, e', hexec, hmem⟩ := execute_wrapped (h0.of_peeked hp)
  have hresolve : resolve (synth 2) (pull (synth 2) 2) (.one MID 0) 1 e0 = .ok (r, e') := by
    unfold resolve
    simp only [h0.row1, h0.rev, h0.stack, hverify, hexec]
    rfl
  have hpull : pull (synth 2) 3 (.one MID 0) true e = .ok (r, e') := by
    unfold pull pull_body
    simp only [h.is_cancelled, hprobe]
    exact hresolve
  unfold demand
  rw [hpull]
  exact ⟨_, e', e1, rfl, h0.of_peeked hp, hmem⟩

end Fors.Query
