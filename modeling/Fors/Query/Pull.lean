import Fors.Query.Calls
import Fors.Query.Table

/-!
# What a pull does

One spec for each function of the engine: `verify_deps_spec`, `verify_spec`, `run_tree_spec`,
`execute_spec`, and from them `pull_spec` by induction on the recursion bound.

They hold at a revision whose graph is ranked (`Ranked`): a number for each key that goes down along
every recorded edge and along every read a computation can take when each answer is the current
value or `Cancelled`.  `Inv` is the invariant of the database between calls, `Ext` relates the
engines before and after a call:

* a key that is up to date stays as it is, and a key that is not up to date afterwards is as it was;
* only keys of smaller rank than the bound are touched;
* every call of `compute` was forced (`Forced`): the key had no value, or one of its recorded
  dependencies had changed since it was last verified.

Principal result: `pull_spec`.
-/

namespace Fors.Query

open List

attribute [local instance] Ids.wide

open RedGreen

/-- The value a computation ended with. -/
def Outcome.hash : Outcome → ValueHash
  | .value v => v
  | .cancelled => 0

/-- The rules of a query set: every read is answered by a value. -/
def Queries.rules (q : Queries) : Rules QueryKey ValueHash :=
  Rules.of_trees q.compute Except.ok Outcome.hash fun _ _ h => Except.ok.inj h

/-- After a read that failed (`failed`) the computation ends `cancelled`, otherwise with a value. -/
def HonestFrom : Bool → ReadTree QueryKey (Except Cancelled ValueHash) Outcome → Prop
  | failed, .done out => (out = .cancelled ↔ failed = true)
  | failed, .ask _ next => (∀ c, HonestFrom true (next (.error c))) ∧
      ∀ v, HonestFrom failed (next (.ok v))

/-- A computation returns `cancelled` exactly when one of its reads did. -/
def Queries.Honest (q : Queries) : Prop := ∀ key, HonestFrom false (q.compute key)

/-- The answers a read can get when the values are `D`. -/
def Answers (D : QueryKey → ValueHash) (key : QueryKey) (a : Except Cancelled ValueHash) : Prop :=
  a = .error .cancelled ∨ a = .ok (D key)

/-- At the keys that are ranked the valuation at `rev` solves the rules, and the reads under it go
to ranked keys and down in rank. -/
structure Ranked (q : Queries) (H : History QueryKey ValueHash) (rank : QueryKey → Nat)
    (rev : Nat) : Prop where
  honest : q.Honest
  solves : ∀ {k}, 0 < rank k → H.inputs rev k = none →
    H.value rev k = q.rules.eval (H.value rev) k
  reads : ∀ {k d}, 0 < rank k → H.inputs rev k = none →
    ReadTree.Asks (Answers (H.value rev)) (q.compute k) d → 0 < rank d ∧ rank d < rank k

/-- The invariant of a database at revision `rev`. -/
structure Inv (q : Queries) (H : History QueryKey ValueHash) (rank : QueryKey → Nat)
    (rev : Nat) (db : Db) : Prop where
  wf : db.WF
  rev_eq : db.rev = rev
  sound : ∃ Seen, Sound q.rules H Seen rev db.table
  ranked : db.table.Ranked rank

/-- Every in-flight query has at least this rank. -/
def Above (rank : QueryKey → Nat) (db : Db) (r : Nat) : Prop :=
  ∀ f ∈ db.stack, ∃ k, db.find? k = some f.node ∧ r ≤ rank k

/-- Nobody sets the cancellation flag. -/
def Db.Never (db : Db) : Prop := ∀ n, db.cancel.answers n = false

/-- A call of `compute` between `e` and `e'` that had to be made. -/
structure Forced (q : Queries) (H : History QueryKey ValueHash) (rank : QueryKey → Nat)
    (rev : Nat) (r : Nat) (e e' : Engine) (key : QueryKey) (db : Db) : Prop where
  rank_lt : rank key < r
  inv : Inv q H rank rev db
  not_current : ¬ db.table.Current rev key
  same : db.table key = e.db.table key
  red : ∀ row, db.table key = some row → ∃ d ∈ row.deps, ∃ row', db.table d = some row' ∧
    db.table.Current rev d ∧ row.verified_at < row'.changed_at
  kept : ∀ d, db.table.Current rev d → e'.db.table d = db.table d

/-- The keys `compute` was called for. -/
def computed : List Call → List QueryKey
  | [] => []
  | .compute key _ :: cs => key :: computed cs
  | .on_cycle _ _ :: cs => computed cs

@[simp] theorem computed_nil : computed [] = [] := rfl

@[simp] theorem computed_cons (key : QueryKey) (db : Db) (cs : List Call) :
    computed (.compute key db :: cs) = key :: computed cs := rfl

theorem computed_append : ∀ cs cs' : List Call, computed (cs ++ cs') = computed cs ++ computed cs'
  | [], _ => rfl
  | .compute key _ :: cs, cs' => congrArg (key :: ·) (computed_append cs cs')
  | .on_cycle _ _ :: cs, cs' => computed_append cs cs'

/-- How a call moves the engine. -/
structure Ext (q : Queries) (H : History QueryKey ValueHash) (rank : QueryKey → Nat)
    (rev : Nat) (r : Nat) (e e' : Engine) : Prop where
  rev_eq : e'.db.rev = e.db.rev
  find : ∀ {k i}, e.db.find? k = some i → e'.db.find? k = some i
  arena : e.db.deps <+: e'.db.deps
  rows : ∀ {k i}, r ≤ rank k → e.db.find? k = some i → e'.db.row i = e.db.row i
  current : ∀ {k}, e.db.table.Current rev k → e'.db.table k = e.db.table k
  stale : ∀ {k}, ¬ e'.db.table.Current rev k → e'.db.table k = e.db.table k
  moved : ∀ {k row}, e.db.table k = some row → ∃ row', e'.db.table k = some row' ∧
    (row'.changed_at = row.changed_at ∧ row'.value = row.value ∨ row'.value ≠ row.value)
  answers : e'.db.cancel.answers = e.db.cancel.answers
  calls : ∃ new, e'.calls = new ++ e.calls ∧
    (∀ c ∈ new, ∃ key db, c = .compute key db ∧ Forced q H rank rev r e e' key db) ∧
    (e.db.Never → (computed new).Nodup ∧
      ∀ key ∈ computed new, ¬ e.db.table.Current rev key ∧ e'.db.table.Current rev key)

namespace Ext

variable {q : Queries} {H : History QueryKey ValueHash} {rank : QueryKey → Nat} {rev : Nat}
  {r r' : Nat} {e e' e'' : Engine}

variable {k : QueryKey}

theorem current_mono (h : Ext q H rank rev r e e')
    (hc : e.db.table.Current rev k) : e'.db.table.Current rev k := by
  have ht := h.current hc
  obtain ⟨row, hrow, hcur⟩ := hc
  exact ⟨row, ht.trans hrow, hcur⟩

theorem never (h : Ext q H rank rev r e e') (hn : e.db.Never) : e'.db.Never := by
  intro n
  rw [h.answers]
  exact hn n

theorem mono (h : Ext q H rank rev r e e') (hr : r ≤ r') : Ext q H rank rev r' e e' where
  rev_eq := h.rev_eq
  find := h.find
  arena := h.arena
  rows hk := h.rows (hr.trans hk)
  current := h.current
  stale := h.stale
  moved := h.moved
  answers := h.answers
  calls := by
    obtain ⟨new, hnew, hforced, honce⟩ := h.calls
    refine ⟨new, hnew, fun c hc => ?_, honce⟩
    obtain ⟨key, db, rfl, hf⟩ := hforced c hc
    exact ⟨key, db, rfl, { hf with rank_lt := hf.rank_lt.trans_le hr }⟩

theorem no_calls (h : e'.calls = e.calls) : ∃ new, e'.calls = new ++ e.calls ∧
    (∀ c ∈ new, ∃ key db, c = .compute key db ∧ Forced q H rank rev r e e' key db) ∧
    (e.db.Never → (computed new).Nodup ∧
      ∀ key ∈ computed new, ¬ e.db.table.Current rev key ∧ e'.db.table.Current rev key) :=
  ⟨[], h, by simp⟩

/-- Changes that do not show in the rows. -/
theorem of_sameRows (h : Db.SameRows e.db e'.db) (hrev : e'.db.rev = e.db.rev)
    (hans : e'.db.cancel.answers = e.db.cancel.answers) (hcalls : e'.calls = e.calls) :
    Ext q H rank rev r e e' where
  rev_eq := hrev
  find hk := (h.find? _).trans hk
  arena := ⟨[], by rw [append_nil, h.deps]⟩
  rows _ _ := h.row _
  current _ := by rw [h.table]
  stale _ := by rw [h.table]
  moved hk := ⟨_, by rw [h.table]; exact hk, .inl ⟨rfl, rfl⟩⟩
  answers := hans
  calls := no_calls hcalls

theorem refl (e : Engine) : Ext q H rank rev r e e :=
  of_sameRows (.refl _) rfl rfl rfl

theorem intern (hwf : e.db.WF) (key : QueryKey) :
    Ext q H rank rev r e { e with db := (e.db.intern key).2 } where
  rev_eq := (Db.intern_eqs key).2.2.1
  find := Db.find?_intern key
  arena := ⟨[], (append_nil _).trans (Db.intern_eqs key).1.symm⟩
  rows _ hk := Db.row_intern key (hwf.find_key hk).1
  current _ := by rw [Db.table_intern hwf]
  stale _ := by rw [Db.table_intern hwf]
  moved hk := ⟨_, by rw [Db.table_intern hwf]; exact hk, .inl ⟨rfl, rfl⟩⟩
  answers := by
    show (e.db.intern key).2.cancel.answers = _
    rw [(Db.intern_eqs key).2.2.2.1]
  calls := no_calls rfl

theorem trans (h : Ext q H rank rev r e e') (h' : Ext q H rank rev r e' e'') :
    Ext q H rank rev r e e'' where
  rev_eq := h'.rev_eq.trans h.rev_eq
  find hk := h'.find (h.find hk)
  arena := h.arena.trans h'.arena
  rows hr hk := (h'.rows hr (h.find hk)).trans (h.rows hr hk)
  current hc := (h'.current (h.current_mono hc)).trans (h.current hc)
  stale hk := by
    have hk' : ¬ e'.db.table.Current rev _ := fun hc => hk (h'.current_mono hc)
    exact (h'.stale hk).trans (h.stale hk')
  moved {k row} hk := by
    obtain ⟨row', hk', hm⟩ := h.moved hk
    obtain ⟨row'', hk'', hm'⟩ := h'.moved hk'
    by_cases hc : e'.db.table.Current rev k
    · obtain rfl : row'' = row' := by
        rw [h'.current hc, hk'] at hk''
        exact (Option.some.inj hk'').symm
      exact ⟨row'', hk'', hm⟩
    · obtain rfl : row = row' := by
        rw [h.stale hc, hk] at hk'
        exact Option.some.inj hk'
      exact ⟨row'', hk'', hm'⟩
  answers := h'.answers.trans h.answers
  calls := by
    obtain ⟨new, hnew, hforced, honce⟩ := h.calls
    obtain ⟨new', hnew', hforced', honce'⟩ := h'.calls
    refine ⟨new' ++ new, by rw [hnew', hnew, append_assoc], fun c hc => ?_, fun hn => ?_⟩
    · rcases mem_append.mp hc with hc | hc
      · obtain ⟨key, db, rfl, hf⟩ := hforced' c hc
        refine ⟨key, db, rfl, { hf with same := hf.same.trans (h.stale fun hcur => ?_) }⟩
        obtain ⟨row, hrow, hx⟩ := hcur
        exact hf.not_current ⟨row, hf.same.trans hrow, hx⟩
      · obtain ⟨key, db, rfl, hf⟩ := hforced c hc
        refine ⟨key, db, rfl, { hf with kept := fun d hd => ?_ }⟩
        have hmid := hf.kept d hd
        obtain ⟨row, hrow, hx⟩ := hd
        exact (h'.current ⟨row, hmid.trans hrow, hx⟩).trans hmid
    · obtain ⟨hnd, hcur⟩ := honce hn
      obtain ⟨hnd', hcur'⟩ := honce' (h.never hn)
      rw [computed_append]
      refine ⟨nodup_append'.mpr ⟨hnd', hnd, ?_⟩, fun key hk => ?_⟩
      · exact fun key hk' hk => (hcur' key hk').1 (hcur key hk).2
      · rcases mem_append.mp hk with hk | hk
        · exact ⟨fun hc => (hcur' key hk).1 (h.current_mono hc), (hcur' key hk).2⟩
        · exact ⟨(hcur key hk).1, h'.current_mono (hcur key hk).2⟩

/-- One row is written, and it is now up to date. -/
theorem write {id : Nat} {row' : Row QueryKey ValueHash}
    (hwf : e.db.WF) (hf : e.db.find? k = some id) (hr : rank k < r)
    (hnc : ¬ e.db.table.Current rev k) (hrev : e'.db.rev = e.db.rev)
    (hfind : ∀ k, e'.db.find? k = e.db.find? k) (harena : e.db.deps <+: e'.db.deps)
    (hrows : ∀ j, j ≠ id → e'.db.row j = e.db.row j)
    (htable : e'.db.table = Function.update e.db.table k (some row')) (hcur : row'.verified_at = rev)
    (hmoved : ∀ row, e.db.table k = some row →
      row'.changed_at = row.changed_at ∧ row'.value = row.value ∨ row'.value ≠ row.value)
    (hans : e'.db.cancel.answers = e.db.cancel.answers) (hcalls : e'.calls = e.calls) :
    Ext q H rank rev r e e' where
  rev_eq := hrev
  find hk := (hfind _).trans hk
  arena := harena
  rows {k' i} hk' hi := by
    apply hrows
    rintro rfl
    rw [Db.find?_inj hwf hi hf] at hk'
    omega
  current {k'} hc := by
    rw [htable, Function.update_of_ne]
    rintro rfl
    exact hnc hc
  stale {k'} hc := by
    rw [htable, Function.update_of_ne]
    rintro rfl
    exact hc ⟨row', by rw [htable, Function.update_self], .inr hcur⟩
  moved {k' row} hk' := by
    rw [htable]
    by_cases hkk : k' = k
    · subst hkk
      exact ⟨row', Function.update_self .., hmoved row hk'⟩
    · exact ⟨row, by rw [Function.update_of_ne hkk]; exact hk', .inl ⟨rfl, rfl⟩⟩
  answers := hans
  calls := no_calls hcalls

/-- A key of rank at least the bound keeps its row. -/
theorem table_eq (h : Ext q H rank rev r e e') {id : Nat} (hk : r ≤ rank k)
    (hf : e.db.find? k = some id) : e'.db.table k = e.db.table k := by
  by_cases hc : e'.db.table.Current rev k
  · obtain ⟨row, hrow, hx⟩ := hc
    obtain ⟨i, hi, hv, rfl⟩ := Db.table_some hrow
    obtain rfl : i = id := by rw [h.find hf] at hi; exact (Option.some.inj hi).symm
    rw [h.rows hk hf] at hv hx
    exact h.current ⟨_, Db.table_valid hf hv, hx⟩
  · exact h.stale hc

end Ext

theorem mem_computed {key : QueryKey} : ∀ {cs : List Call}, key ∈ computed cs →
    ∃ db, .compute key db ∈ cs
  | .compute key' db :: cs, h => by
    rcases mem_cons.mp h with rfl | h
    · exact ⟨db, mem_cons_self⟩
    · obtain ⟨db, hd⟩ := mem_computed h
      exact ⟨db, mem_cons_of_mem _ hd⟩
  | .on_cycle _ _ :: cs, h => by
    have h' : key ∈ computed cs := h
    obtain ⟨db, hd⟩ := mem_computed h'
    exact ⟨db, mem_cons_of_mem _ hd⟩

/-! ## Results -/

/-- The call did not panic, what it returned satisfies `post`, and when `total` holds it did not
run out of fuel. -/
def Meets {α : Type} (total : Prop) (post : α → Prop) : Except Stop α → Prop
  | .ok a => post a
  | .error .panic => False
  | .error .fuel => ¬ total

theorem Meets.elim {α : Type} {total : Prop} {post : α → Prop} {x : Except Stop α}
    (h : Meets total post x) : (∃ a, x = .ok a ∧ post a) ∨ (x = .error .fuel ∧ ¬ total) := by
  cases x with
  | ok a => exact .inl ⟨a, rfl, h⟩
  | error s =>
    cases s with
    | panic => exact False.elim h
    | fuel => exact .inr ⟨rfl, h⟩

theorem Meets.mono {α : Type} {total total' : Prop} {post post' : α → Prop} {x : Except Stop α}
    (h : Meets total post x) (ht : total' → total) (hp : ∀ a, post a → post' a) :
    Meets total' post' x := by
  rcases h.elim with ⟨a, rfl, ha⟩ | ⟨rfl, hn⟩
  · exact hp a ha
  · exact fun ht' => hn (ht ht')

/-! ## The invariant between calls -/

section Inv

variable {q : Queries} {H : History QueryKey ValueHash} {rank : QueryKey → Nat} {rev : Nat}
  {db db' : Db}

theorem Inv.of_sameRows (h : Inv q H rank rev db) (hs : Db.SameRows db db')
    (hr : db'.rev = db.rev) : Inv q H rank rev db' where
  wf := hs.wf h.wf
  rev_eq := hr.trans h.rev_eq
  sound := by rw [hs.table]; exact h.sound
  ranked := by rw [hs.table]; exact h.ranked

theorem Inv.intern (h : Inv q H rank rev db) (key : QueryKey) :
    Inv q H rank rev (db.intern key).2 where
  wf := Db.wf_intern h.wf key
  rev_eq := (Db.intern_eqs key).2.2.1.trans h.rev_eq
  sound := by rw [Db.table_intern h.wf]; exact h.sound
  ranked := by rw [Db.table_intern h.wf]; exact h.ranked

variable {key : QueryKey} {id : Nat}

/-- A key that is not an input row is no input. -/
theorem Inv.inputs_none (h : Inv q H rank rev db)
    (hf : db.find? key = some id) (hi : (db.row id).is_input = false) : H.inputs rev key = none := by
  obtain ⟨Seen, hs⟩ := h.sound
  by_contra hne
  obtain ⟨v, hv⟩ := Option.ne_none_iff_exists'.mp hne
  obtain ⟨row, hrow, hin, _⟩ := hs.input_row hv
  obtain ⟨i, hi', _, rfl⟩ := Db.table_some hrow
  rw [hf] at hi'
  cases hi'
  simp [Db.row_of, hi] at hin

variable {row : Row QueryKey ValueHash}

theorem Inv.current_value (h : Inv q H rank rev db) (hc : db.table.Current rev key) (ht : db.table key = some row) :
    row.value = H.value rev key := by
  obtain ⟨Seen, hs⟩ := h.sound
  exact hs.current_value hc ht

/-- The value of a key that is no input is the value of its rule. -/
theorem Inv.rule_value (hrk : Ranked q H rank rev) (h : Inv q H rank rev db) (hpos : 0 < rank key) (hf : db.find? key = some id)
    (hi : (db.row id).is_input = false) : H.value rev key = q.rules.eval (H.value rev) key :=
  hrk.solves hpos (h.inputs_none hf hi)

/-- Stamping a node none of whose recorded dependencies changed. -/
theorem Inv.stamp (hrk : Ranked q H rank rev) (h : Inv q H rank rev db) (hpos : 0 < rank key) (hf : db.find? key = some id)
    (ht : db.table key = some row) (hi : row.is_input = false)
    (hg : ∀ d ∈ row.deps, db.table.Current rev d ∧
      ∀ row', db.table d = some row' → row'.changed_at ≤ row.verified_at) :
    Inv q H rank rev (db.set_row id { db.row id with verified_at := db.rev }) where
  wf := Db.wf_stamp h.wf hf _
  rev_eq := h.rev_eq
  sound := by
    obtain ⟨Seen, hs⟩ := h.sound
    have hi' : (db.row id).is_input = false := by
      obtain ⟨j, hj, _, rfl⟩ := Db.table_some ht
      rw [hf] at hj
      cases hj
      exact hi
    rw [Db.table_stamp h.wf hf ht, h.rev_eq]
    exact ⟨_, hs.stamp ht hi (h.rule_value hrk hpos hf hi') hg⟩
  ranked := by
    rintro k d h0 ⟨row', hk, hin, hd⟩
    rw [Db.table_stamp h.wf hf ht] at hk
    by_cases hkk : k = key
    · subst hkk
      rw [Function.update_self] at hk
      cases hk
      exact h.ranked h0 ⟨row, ht, hi, hd⟩
    · rw [Function.update_of_ne hkk] at hk
      exact h.ranked h0 ⟨row', hk, hin, hd⟩

theorem Ext.stamp {r : Nat} {e : Engine} (h : Inv q H rank rev e.db) (hf : e.db.find? key = some id)
    (ht : e.db.table key = some row) (hnc : ¬ e.db.table.Current rev key) (hr : rank key < r) :
    Ext q H rank rev r e
      { e with db := e.db.set_row id { e.db.row id with verified_at := e.db.rev } } := by
  refine Ext.write h.wf hf hr hnc rfl (fun _ => rfl) prefix_rfl (fun j hj => ?_)
    (Db.table_stamp h.wf hf ht) h.rev_eq (fun row' ht' => ?_) rfl rfl
  · exact Db.row_set_row_ne hj
  · rw [ht] at ht'
    cases ht'
    exact .inl ⟨rfl, rfl⟩

end Inv

/-! ## Frames -/

/-- The frames after the innermost one has read `es`. -/
def note_deps (es : List Nat) : List Frame → List Frame
  | [] => []
  | f :: rest => { f with deps := f.deps ++ es } :: rest

theorem note_deps_nil : ∀ fs : List Frame, note_deps [] fs = fs
  | [] => rfl
  | f :: rest => by simp [note_deps]

theorem mem_note_deps {es : List Nat} {f : Frame} : ∀ {fs : List Frame}, f ∈ note_deps es fs →
    ∃ g ∈ fs, f.node = g.node
  | g :: rest, h => by
    rcases mem_cons.mp h with rfl | h
    · exact ⟨g, mem_cons_self, rfl⟩
    · exact ⟨f, mem_cons_of_mem _ h, rfl⟩

theorem attribute_to_stack (db : Db) (id : Nat) :
    ∃ es, (db.attribute_to id).stack = note_deps es db.stack ∧
      ∀ f rest, db.stack = f :: rest → f.attributed = true → f.node ≠ id → es = [id] := by
  unfold Db.attribute_to
  split
  · rename_i hs
    exact ⟨[], by simp [hs, note_deps], fun f rest h => by simp [hs] at h⟩
  · rename_i f rest hs
    split
    · exact ⟨[id], by simp [hs, note_deps], fun _ _ _ _ _ => rfl⟩
    · rename_i hc
      refine ⟨[], by rw [note_deps_nil], fun g rest' h ha hn => ?_⟩
      rw [hs] at h
      cases h
      exact absurd ⟨ha, hn⟩ hc

theorem attribute_to_eqs (db : Db) (id : Nat) :
    (db.attribute_to id).rev = db.rev ∧ (db.attribute_to id).cancel = db.cancel := by
  unfold Db.attribute_to
  split
  · exact ⟨rfl, rfl⟩
  · split <;> exact ⟨rfl, rfl⟩

/-- What `probe` leaves: the index and the rows of the interned key, and an edge in the innermost frame. -/
theorem probe_eqs {db db' : Db} {key : QueryKey} {attributed : Bool} {id : Nat}
    (h : db.probe key attributed = (id, db')) :
    id = (db.intern key).1 ∧ Db.SameRows (db.intern key).2 db' ∧ db'.rev = db.rev ∧
      db'.cancel = db.cancel ∧ ∃ es, db'.stack = note_deps es db.stack ∧
        (attributed = false → es = []) ∧ ∀ f rest, attributed = true → db.stack = f :: rest →
          f.attributed = true → f.node ≠ id → es = [id] := by
  obtain ⟨-, hstack, hrev, hcancel, -⟩ := @Db.intern_eqs db key
  have hcharge := Db.sameRows_charge (db.intern key).2 fun s => { s with probes := s.probes + 1 }
  cases attributed with
  | false =>
    cases h
    exact ⟨rfl, hcharge, hrev, hcancel, [], hstack.trans (note_deps_nil _).symm, fun _ => rfl, nofun⟩
  | true =>
    cases h
    set d := (db.intern key).2.charge fun s => { s with probes := s.probes + 1 }
    obtain ⟨hrev', hcancel'⟩ := attribute_to_eqs d (db.intern key).1
    obtain ⟨es, hes, hedge⟩ := attribute_to_stack d (db.intern key).1
    exact ⟨rfl, hcharge.trans (Db.sameRows_attribute_to d _), hrev'.trans hrev,
      hcancel'.trans hcancel, es, hes.trans (congrArg (note_deps es) hstack), nofun,
      fun f rest _ hs ha hn => hedge f rest (hstack.trans hs) ha hn⟩

section Above

variable {rank : QueryKey → Nat} {db db' : Db} {r r' : Nat}

theorem Above.mono (h : Above rank db r) (hr : r' ≤ r) : Above rank db r' := fun f hf => by
  obtain ⟨k, hk, hle⟩ := h f hf
  exact ⟨k, hk, hr.trans hle⟩

theorem Above.of_stack (h : Above rank db r)
    (hfind : ∀ {k i}, db.find? k = some i → db'.find? k = some i)
    (hstack : ∀ f ∈ db'.stack, ∃ g ∈ db.stack, f.node = g.node) : Above rank db' r := fun f hf => by
  obtain ⟨g, hg, hfg⟩ := hstack f hf
  obtain ⟨k, hk, hle⟩ := h g hg
  exact ⟨k, hfg ▸ hfind hk, hle⟩

theorem Above.push (h : Above rank db r) {f : Frame} {k : QueryKey}
    (hf : db.find? k = some f.node) (hr : r ≤ rank k) : Above rank (db.push f) r := by
  intro g hg
  rcases mem_cons.mp hg with rfl | hg
  · exact ⟨k, hf, hr⟩
  · exact h g hg

/-- A key below every in-flight query is not in flight. -/
theorem Above.not_in_flight (hwf : db.WF) {key : QueryKey} {id : Nat}
    (h : Above rank db (rank key + 1)) (hf : db.find? key = some id) :
    (db.stack.any fun f => f.node == id) = false := by
  rw [any_eq_false]
  intro f hfs hid
  obtain ⟨k, hk, hle⟩ := h f hfs
  have hid' : f.node = id := by simpa using hid
  rw [hid'] at hk
  rw [Db.find?_inj hwf hk hf] at hle
  omega

end Above

/-! ## The specs -/

section Specs

variable {q : Queries} {H : History QueryKey ValueHash} {rank : QueryKey → Nat} {rev : Nat}

/-- What `pull` leaves behind. -/
structure PullPost (q : Queries) (H : History QueryKey ValueHash) (rank : QueryKey → Nat)
    (rev : Nat) (key : QueryKey) (attributed : Bool) (e : Engine)
    (p : Except Cancelled Answer × Engine) : Prop where
  inv : Inv q H rank rev p.2.db
  ext : Ext q H rank rev (rank key + 1) e p.2
  stack : ∃ es, p.2.db.stack = note_deps es e.db.stack ∧ (attributed = false → es = []) ∧
    ∀ a f rest, p.1 = .ok a → attributed = true → e.db.stack = f :: rest → f.attributed = true →
      ∃ id, p.2.db.find? key = some id ∧ es = [id]
  ok : ∀ a, p.1 = .ok a → ∃ row, p.2.db.table key = some row ∧ p.2.db.table.Current rev key ∧
    a = ⟨row.value, row.changed_at⟩
  err : ∀ c, p.1 = .error c → ¬ e.db.Never

/-- A puller that meets the spec of `pull` and does not run out of fuel up to rank `n`. -/
def PullerOk (q : Queries) (H : History QueryKey ValueHash) (rank : QueryKey → Nat)
    (rev : Nat) (n : Nat) (pull : Puller) : Prop :=
  ∀ key attributed e, 0 < rank key → Inv q H rank rev e.db → Above rank e.db (rank key + 1) →
    Meets (rank key ≤ n) (PullPost q H rank rev key attributed e) (pull key attributed e)

/-- Position `i` of the arena holds an edge to `k`. -/
def Db.EdgeAt (db : Db) (i : Nat) (k : QueryKey) : Prop :=
  ∃ d, db.deps[i]? = some d ∧ db.find? k = some d

theorem Ext.edge_at {r : Nat} {e e' : Engine} (h : Ext q H rank rev r e e') {i : Nat} {k : QueryKey}
    (hk : e.db.EdgeAt i k) : e'.db.EdgeAt i k := by
  obtain ⟨d, hd, hf⟩ := hk
  obtain ⟨more, hmore⟩ := h.arena
  refine ⟨d, ?_, h.find hf⟩
  rw [← hmore]
  rw [List.getElem?_append_left (List.getElem?_eq_some_iff.mp hd).1]
  exact hd

theorem edge_at_unique {db : Db} (hwf : db.WF) {i : Nat} {k k' : QueryKey} (h : db.EdgeAt i k)
    (h' : db.EdgeAt i k') : k = k' := by
  obtain ⟨d, hd, hf⟩ := h
  obtain ⟨d', hd', hf'⟩ := h'
  rw [hd] at hd'
  cases hd'
  exact Db.find?_inj hwf hf hf'

/-- The recorded edges of a row, by their positions in the arena. -/
theorem mem_dep_keys {db : Db} (hwf : db.WF) {id : Nat} (hid : id < db.nodes.length)
    {k : QueryKey} : k ∈ db.dep_keys (db.row id) ↔
      ∃ i < (db.row id).dep_len, db.EdgeAt ((db.row id).dep_start + i) k := by
  have hr := hwf.range_le hid
  have hget : ∀ i < (db.row id).dep_len, (db.range (db.row id))[i]? =
      db.deps[(db.row id).dep_start + i]? := by
    intro i hi
    rw [Db.range, getElem?_take_of_lt hi, getElem?_drop]
  constructor
  · intro hk
    obtain ⟨d, hd, rfl⟩ := mem_map.mp hk
    obtain ⟨i, hi, hdi⟩ := getElem_of_mem hd
    have hlt : i < (db.row id).dep_len := by
      have : (db.range (db.row id)).length ≤ (db.row id).dep_len := by
        unfold Db.range
        exact length_take_le ..
      omega
    refine ⟨i, hlt, d, ?_, hwf.find_row (hwf.dep_lt (Db.mem_range _ hd))⟩
    rw [← hget i hlt, getElem?_eq_getElem hi, hdi]
  · rintro ⟨i, hi, d, hd, hf⟩
    rw [← hget i hi] at hd
    exact mem_map.mpr ⟨d, mem_of_getElem? hd, (hwf.find_key hf).2⟩

/-- What the walk over the recorded edges leaves behind. -/
structure WalkPost (q : Queries) (H : History QueryKey ValueHash) (rank : QueryKey → Nat)
    (rev : Nat) (r verified s l : Nat) (e : Engine) (p : Except Cancelled Bool × Engine) :
    Prop where
  inv : Inv q H rank rev p.2.db
  ext : Ext q H rank rev r e p.2
  stack : p.2.db.stack = e.db.stack
  clean : p.1 = .ok false → ∀ i < l, ∀ k, e.db.EdgeAt (s + i) k →
    ∃ row, p.2.db.table k = some row ∧ p.2.db.table.Current rev k ∧ row.changed_at ≤ verified
  dirty : p.1 = .ok true → ∃ i < l, ∃ k row, e.db.EdgeAt (s + i) k ∧
    p.2.db.table k = some row ∧ p.2.db.table.Current rev k ∧ verified < row.changed_at
  err : ∀ c, p.1 = .error c → ¬ e.db.Never

/-- **The walk** asks every recorded edge until one has changed. -/
theorem verify_deps_spec {n : Nat} {pull : Puller} (hp : PullerOk q H rank rev n pull)
    {verified s r : Nat} :
    ∀ (l j : Nat) (e : Engine), Inv q H rank rev e.db → Above rank e.db r →
      (∀ i < l, ∃ k, e.db.EdgeAt (s + j + i) k ∧ 0 < rank k ∧ rank k < r) →
      Meets (r ≤ n + 1) (WalkPost q H rank rev r verified (s + j) l e) (verify_deps pull verified s l j e)
  | 0, j, e, hinv, _, _ => by
    refine ⟨hinv, .refl e, rfl, fun _ i hi => by omega, nofun, nofun⟩
  | l + 1, j, e, hinv, habove, hedges => by
    obtain ⟨k, ⟨d, hd, hf⟩, hpos, hrank⟩ := hedges 0 (by omega)
    have hkey : (e.db.row d).key = k := (hinv.wf.find_key hf).2
    have hd' : e.db.deps[s + j]? = some d := hd
    unfold verify_deps
    simp only [hd', hkey]
    rcases (hp k false e hpos hinv (habove.mono hrank)).elim with ⟨⟨res, e1⟩, hpull, hpost⟩ | ⟨hpull, hn⟩
    · obtain ⟨es, hstack, hes, _⟩ := hpost.stack
      rw [hes rfl, note_deps_nil] at hstack
      have hext : Ext q H rank rev r e e1 := hpost.ext.mono hrank
      rw [hpull]
      cases res with
      | error c =>
        exact ⟨hpost.inv, hext, hstack, nofun, nofun,
          fun _ _ => hpost.err c rfl⟩
      | ok a =>
        obtain ⟨row, hrow, hcur, rfl⟩ := hpost.ok a rfl
        dsimp only at hrow hcur ⊢
        split
        · rename_i hgt
          exact ⟨hpost.inv, hext, hstack, nofun,
            fun _ => ⟨0, by omega, k, row, ⟨d, hd, hf⟩, hrow, hcur, hgt⟩, nofun⟩
        · rename_i hle
          have habove1 : Above rank e1.db r :=
            habove.of_stack hext.find fun f hf => ⟨f, hstack ▸ hf, rfl⟩
          have hedges1 : ∀ i < l, ∃ k, e1.db.EdgeAt (s + (j + 1) + i) k ∧ 0 < rank k ∧
              rank k < r := by
            intro i hi
            obtain ⟨k', hk', hr'⟩ := hedges (i + 1) (by omega)
            refine ⟨k', ?_, hr'⟩
            rw [show s + (j + 1) + i = s + j + (i + 1) by omega]
            exact hext.edge_at hk'
          refine (verify_deps_spec hp l (j + 1) e1 hpost.inv habove1 hedges1).mono id fun p h => ?_
          refine ⟨h.inv, hext.trans h.ext, h.stack.trans hstack, fun hres i hi k' hk' => ?_,
            fun hres => ?_, fun c hres hn => h.err c hres (hext.never hn)⟩
          · cases i with
            | zero =>
              obtain rfl := edge_at_unique hinv.wf hk' ⟨d, hd, hf⟩
              exact ⟨row, (h.ext.current hcur).trans hrow, h.ext.current_mono hcur,
                Nat.le_of_not_lt hle⟩
            | succ i =>
              refine h.clean hres i (by omega) k' ?_
              rw [show s + (j + 1) + i = s + j + (i + 1) by omega]
              exact hext.edge_at hk'
          · obtain ⟨i, hi, k', row', hk', hx⟩ := h.dirty hres
            obtain ⟨k'', hk'', _⟩ := hedges (i + 1) (by omega)
            rw [show s + (j + 1) + i = s + j + (i + 1) by omega] at hk'
            obtain rfl := edge_at_unique hpost.inv.wf hk' (hext.edge_at hk'')
            exact ⟨i + 1, by omega, k', row', hk'', hx⟩
    · rw [hpull]
      exact fun hr => hn (by omega)

/-- What `verify` leaves behind. -/
structure VerifyPost (q : Queries) (H : History QueryKey ValueHash) (rank : QueryKey → Nat)
    (rev : Nat) (key : QueryKey) (e : Engine) (p : Except Cancelled Bool × Engine) : Prop where
  inv : Inv q H rank rev p.2.db
  ext : Ext q H rank rev (rank key + 1) e p.2
  stack : p.2.db.stack = e.db.stack
  green : p.1 = .ok true → p.2.db.table.Current rev key
  same : p.1 = .ok false → p.2.db.table key = e.db.table key
  red : p.1 = .ok false → ∀ row, p.2.db.table key = some row → ∃ d ∈ row.deps, ∃ row',
    p.2.db.table d = some row' ∧ p.2.db.table.Current rev d ∧ row.verified_at < row'.changed_at
  err : ∀ c, p.1 = .error c → ¬ e.db.Never

/-- **The red-green walk** re-stamps a node none of whose recorded dependencies changed, and
otherwise names one that did. -/
theorem verify_spec {n : Nat} {pull : Puller} (hrk : Ranked q H rank rev)
    (hp : PullerOk q H rank rev n pull) {key : QueryKey} {id : Nat} {e : Engine}
    (hpos : 0 < rank key) (hinv : Inv q H rank rev e.db) (habove : Above rank e.db (rank key + 1))
    (hf : e.db.find? key = some id) (hi : (e.db.row id).is_input = false)
    (hnc : ¬ e.db.table.Current rev key) :
    Meets (rank key ≤ n + 1) (VerifyPost q H rank rev key e) (verify pull id e) := by
  obtain ⟨hid, hkey⟩ := hinv.wf.find_key hf
  unfold verify
  dsimp only
  split
  · rename_i hv
    refine ⟨hinv, .refl e, rfl, fun h => (by cases h), fun _ => rfl, fun _ row hrow => ?_,
      fun _ h => (by cases h)⟩
    rw [Db.table_not_valid hf hv] at hrow
    cases hrow
  rename_i hv
  have hv' : (e.db.row id).state = .valid := by simpa using hv
  set walk : Engine := { e with db := e.db.push ⟨id, [], false⟩ } with hwalk
  have hsame : Db.SameRows e.db walk.db := Db.sameRows_push _ _
  have hrow : e.db.table key = some (e.db.row_of (e.db.row id)) := Db.table_valid hf hv'
  have hdeps : (e.db.row_of (e.db.row id)).deps = e.db.dep_keys (e.db.row id) := by
    simp [Db.row_of, hi]
  have hedges : ∀ i < (e.db.row id).dep_len,
      ∃ k, walk.db.EdgeAt ((e.db.row id).dep_start + 0 + i) k ∧ 0 < rank k ∧ rank k < rank key := by
    intro i hilt
    have hrange := hinv.wf.range_le hid
    have hlt : (e.db.row id).dep_start + i < e.db.deps.length := by omega
    have hd := hinv.wf.find_row (hinv.wf.dep_lt (getElem_mem hlt))
    have hat : e.db.EdgeAt ((e.db.row id).dep_start + i) _ :=
      ⟨_, getElem?_eq_getElem hlt, hd⟩
    refine ⟨_, hat, hinv.ranked hpos ⟨_, hrow, hi, ?_⟩⟩
    rw [hdeps]
    exact (mem_dep_keys hinv.wf hid).mpr ⟨i, hilt, hat⟩
  have habove' : Above rank walk.db (rank key) :=
    (habove.mono (by omega)).push hf le_rfl
  rcases (verify_deps_spec hp (e.db.row id).dep_len 0 walk (hinv.of_sameRows hsame rfl) habove'
    hedges).elim with ⟨⟨res, e1⟩, hres, hpost⟩ | ⟨hres, hn⟩
  swap
  · rw [hres]
    exact hn
  rw [hres]
  have hext : Ext q H rank rev (rank key) e e1 :=
    (Ext.of_sameRows hsame rfl rfl rfl).trans hpost.ext
  have hpop : Db.SameRows e1.db e1.db.pop := Db.sameRows_pop _
  have hstack : e1.db.pop.stack = e.db.stack := by
    show e1.db.stack.tail = _
    rw [hpost.stack]
    rfl
  have hpinv : Inv q H rank rev e1.db.pop := hpost.inv.of_sameRows hpop rfl
  have htable : e1.db.table key = e.db.table key := hext.table_eq le_rfl hf
  have hrow1 : e1.db.table key = some (e.db.row_of (e.db.row id)) := htable.trans hrow
  cases res with
  | error c =>
    exact ⟨hpinv, (hext.mono (by omega)).trans (.of_sameRows hpop rfl rfl rfl), hstack,
      fun h => (by cases h), fun h => (by cases h), fun h => (by cases h), fun _ _ => hpost.err c rfl⟩
  | ok dirty =>
    cases dirty with
    | true =>
      have hch : Db.SameRows e1.db (e1.db.pop.charge fun s => { s with red := s.red + 1 }) :=
        hpop.trans (Db.sameRows_charge _ _)
      refine ⟨hpost.inv.of_sameRows hch rfl,
        (hext.mono (by omega)).trans (.of_sameRows hch rfl rfl rfl), hstack, fun h => (by cases h),
        fun _ => by rw [hch.table]; exact htable, fun _ row hr => ?_, fun _ h => (by cases h)⟩
      rw [hch.table] at hr ⊢
      rw [hrow1] at hr
      cases hr
      obtain ⟨i, hilt, k, row', hat, hk, hcur, hgt⟩ := hpost.dirty rfl
      refine ⟨k, ?_, row', hk, hcur, hgt⟩
      rw [hdeps]
      exact (mem_dep_keys hinv.wf hid).mpr ⟨i, hilt, hat⟩
    | false =>
      -- every recorded dependency is up to date and unchanged
      have hg : ∀ d ∈ (e.db.row_of (e.db.row id)).deps, e1.db.table.Current rev d ∧
          ∀ row', e1.db.table d = some row' →
            row'.changed_at ≤ (e.db.row_of (e.db.row id)).verified_at := by
        intro d hd
        rw [hdeps] at hd
        obtain ⟨i, hilt, hat⟩ := (mem_dep_keys hinv.wf hid).mp hd
        obtain ⟨row, hrowd, hcur, hle⟩ := hpost.clean rfl i hilt d hat
        refine ⟨hcur, fun row' hrow' => ?_⟩
        rw [hrowd] at hrow'
        cases hrow'
        exact hle
      have hf1 : e1.db.pop.find? key = some id := hext.find hf
      have ht1 : e1.db.pop.table key = some (e.db.row_of (e.db.row id)) := hrow1
      have hnc1 : ¬ e1.db.pop.table.Current rev key := by
        rintro ⟨row, hr, hx⟩
        exact hnc ⟨row, htable.symm.trans hr, hx⟩
      have hch := Db.sameRows_charge
        (e1.db.pop.set_row id { e1.db.pop.row id with verified_at := e1.db.pop.rev })
        fun s => { s with green := s.green + 1 }
      refine ⟨(hpinv.stamp hrk hpos hf1 ht1 hi hg).of_sameRows hch rfl, ?_, hstack, fun _ => ?_,
        fun h => (by cases h), fun h => (by cases h), fun _ h => (by cases h)⟩
      · have hstamp := Ext.stamp (e := ⟨e1.db.pop, e1.calls⟩) hpinv hf1 ht1 hnc1
          (Nat.lt_succ_self (rank key))
        have hcharge : Ext q H rank rev (rank key + 1)
            ⟨e1.db.pop.set_row id { e1.db.pop.row id with verified_at := e1.db.pop.rev }, e1.calls⟩
            ⟨_, e1.calls⟩ := .of_sameRows hch rfl rfl rfl
        have hpopped : Ext q H rank rev (rank key + 1) e1 ⟨e1.db.pop, e1.calls⟩ :=
          .of_sameRows hpop rfl rfl rfl
        exact (((hext.mono (by omega)).trans hpopped).trans hstamp).trans hcharge
      · refine ⟨(e.db.row_of (e.db.row id)).stamped rev, ?_, .inr rfl⟩
        have htab := Db.table_stamp hpinv.wf hf1 ht1
        rw [hpinv.rev_eq] at htab
        rw [hch.table, hpinv.rev_eq, htab, Function.update_self]

/-- The answers of the valuation at `rev`. -/
def env_at (H : History QueryKey ValueHash) (rev : Nat) : QueryKey → Except Cancelled ValueHash :=
  fun d => .ok (H.value rev d)

/-- What a computation leaves behind: the reads it took are in its frame. -/
structure ReadPost (q : Queries) (H : History QueryKey ValueHash) (rank : QueryKey → Nat)
    (rev : Nat) (r : Nat) (failed : Bool) (f : Frame) (rest : List Frame)
    (t : ReadTree QueryKey (Except Cancelled ValueHash) Outcome) (e : Engine)
    (p : Outcome × Engine) : Prop where
  inv : Inv q H rank rev p.2.db
  ext : Ext q H rank rev r e p.2
  frames : ∃ es, p.2.db.stack = { f with deps := f.deps ++ es } :: rest ∧
    (p.1 ≠ .cancelled → (∀ d ∈ es, d < p.2.db.nodes.length) ∧
      es.map (fun d => (p.2.db.row d).key) = t.trace (env_at H rev))
  current : p.1 ≠ .cancelled → ∀ k ∈ t.trace (env_at H rev), p.2.db.table.Current rev k
  value : p.1 ≠ .cancelled → failed = false ∧ p.1 = t.run (env_at H rev)
  err : p.1 = .cancelled → failed = true ∨ ¬ e.db.Never

/-- **A computation** that is not cancelled reads and returns what it would against the valuation. -/
theorem run_tree_spec {n : Nat} {pull : Puller} (hp : PullerOk q H rank rev n pull) {r : Nat} :
    ∀ (t : ReadTree QueryKey (Except Cancelled ValueHash) Outcome) (failed : Bool) (e : Engine)
      (f : Frame) (rest : List Frame), Inv q H rank rev e.db → Above rank e.db r →
      e.db.stack = f :: rest → f.attributed = true → HonestFrom failed t →
      (∀ d, ReadTree.Asks (Answers (H.value rev)) t d → 0 < rank d ∧ rank d < r) →
      Meets (r ≤ n + 1) (ReadPost q H rank rev r failed f rest t e) (run_tree pull t e)
  | .done out, failed, e, f, rest, hinv, _, hstack, _, hon, _ => by
    refine ⟨hinv, .refl e, ⟨[], by simp [hstack], fun _ => by simp⟩, fun _ => by simp, fun hne => ?_,
      fun hc => .inl (hon.mp hc)⟩
    refine ⟨?_, rfl⟩
    cases failed with
    | false => rfl
    | true => exact absurd (hon.mpr rfl) hne
  | .ask key next, failed, e, f, rest, hinv, habove, hstack, hattr, hon, hasks => by
    obtain ⟨hpos, hrank⟩ := hasks key .here
    unfold run_tree
    rcases (hp key true e hpos hinv (habove.mono hrank)).elim with ⟨⟨res, e1⟩, hpull, hpost⟩ | ⟨hpull, hn⟩
    swap
    · rw [hpull]
      exact fun hr => hn (by omega)
    rw [hpull]
    obtain ⟨es, hes, _, hedge⟩ := hpost.stack
    have hstack1 : e1.db.stack = { f with deps := f.deps ++ es } :: rest := by
      rw [hes, hstack]
      rfl
    have hext : Ext q H rank rev r e e1 := hpost.ext.mono hrank
    have habove1 : Above rank e1.db r := habove.of_stack hext.find fun g hg => by
      rw [hes] at hg
      exact mem_note_deps hg
    cases res with
    | error c =>
      -- the rest of the computation runs, but it can only end cancelled
      have hon1 : HonestFrom true (next (.error c)) := hon.1 c
      have hasks1 : ∀ d, ReadTree.Asks (Answers (H.value rev)) (next (.error c)) d →
          0 < rank d ∧ rank d < r :=
        fun d hd => hasks d (.later (.inl rfl) hd)
      refine (run_tree_spec hp (next (.error c)) true e1 _ rest hpost.inv habove1 hstack1 hattr hon1
        hasks1).mono id fun p h => ?_
      have hcancel : p.1 = .cancelled := by
        by_contra hne
        cases (h.value hne).1
      obtain ⟨es', hes', _⟩ := h.frames
      refine ⟨h.inv, hext.trans h.ext, ⟨es ++ es', ?_, fun hne => absurd hcancel hne⟩,
        fun hne => absurd hcancel hne, fun hne => absurd hcancel hne,
        fun _ => .inr (hpost.err c rfl)⟩
      rw [hes']
      simp
    | ok a =>
      obtain ⟨row, hrow, hcur, rfl⟩ := hpost.ok a rfl
      have hval : row.value = H.value rev key := hpost.inv.current_value hcur hrow
      obtain ⟨id, hid, rfl⟩ := hedge _ f rest rfl rfl hstack hattr
      have hans : (Except.ok row.value : Except Cancelled ValueHash) = env_at H rev key := by
        rw [hval]; rfl
      have hon1 : HonestFrom failed (next (.ok row.value)) := hon.2 row.value
      have hasks1 : ∀ d, ReadTree.Asks (Answers (H.value rev)) (next (.ok row.value)) d →
          0 < rank d ∧ rank d < r :=
        fun d hd => hasks d (.later (.inr (congrArg Except.ok hval)) hd)
      refine (run_tree_spec hp (next (.ok row.value)) failed e1 _ rest hpost.inv habove1 hstack1 hattr
        hon1 hasks1).mono (fun h => h) fun p h => ?_
      obtain ⟨es', hes', hkeys⟩ := h.frames
      have hidp := h.ext.find hid
      have htrace : (ReadTree.ask key next).trace (env_at H rev) =
          key :: (next (.ok row.value)).trace (env_at H rev) := by
        rw [ReadTree.trace_ask, ← hans]
      refine ⟨h.inv, hext.trans h.ext, ⟨id :: es', ?_, fun hne => ⟨?_, ?_⟩⟩, fun hne => ?_,
        fun hne => ?_, fun hc => (h.err hc).imp_right fun hn hnev => hn (hext.never hnev)⟩
      · rw [hes']
        simp
      · intro d hd
        rcases mem_cons.mp hd with rfl | hd
        · exact (h.inv.wf.find_key hidp).1
        · exact (hkeys hne).1 d hd
      · rw [map_cons, (hkeys hne).2, htrace, (h.inv.wf.find_key hidp).2]
      · rw [htrace]
        intro k hk
        rcases mem_cons.mp hk with rfl | hk
        · exact h.ext.current_mono hcur
        · exact h.current hne k hk
      · rw [ReadTree.run_ask, ← hans]
        exact h.value hne

/-- What `resolve` leaves behind. -/
structure ResolvePost (q : Queries) (H : History QueryKey ValueHash) (rank : QueryKey → Nat)
    (rev : Nat) (key : QueryKey) (e : Engine) (p : Except Cancelled Answer × Engine) : Prop where
  inv : Inv q H rank rev p.2.db
  ext : Ext q H rank rev (rank key + 1) e p.2
  stack : p.2.db.stack = e.db.stack
  ok : ∀ a, p.1 = .ok a → ∃ row, p.2.db.table key = some row ∧ p.2.db.table.Current rev key ∧
    a = ⟨row.value, row.changed_at⟩
  err : ∀ c, p.1 = .error c → ¬ e.db.Never

/-- An answer read off an up-to-date row. -/
theorem answer_row {db : Db} {key : QueryKey} {id : Nat} (hf : db.find? key = some id)
    (hc : db.table.Current rev key) :
    ∃ row, db.table key = some row ∧ db.table.Current rev key ∧
      db.answer id = ⟨row.value, row.changed_at⟩ := by
  obtain ⟨row, hrow, hx⟩ := hc
  refine ⟨row, hrow, ⟨row, hrow, hx⟩, ?_⟩
  obtain ⟨i, hi, _, rfl⟩ := Db.table_some hrow
  rw [hf] at hi
  cases hi
  rfl

/-- The engine after a forced call of `compute` whose reads led to `e1`. -/
theorem Ext.called {e e1 e2 : Engine} {key : QueryKey} {db : Db} (hs : Db.SameRows e.db db)
    (hrev : db.rev = e.db.rev) (hans : db.cancel.answers = e.db.cancel.answers)
    (hinv : Inv q H rank rev e.db) (hnc : ¬ e.db.table.Current rev key)
    (hred : ∀ row, e.db.table key = some row → ∃ d ∈ row.deps, ∃ row', e.db.table d = some row' ∧
      e.db.table.Current rev d ∧ row.verified_at < row'.changed_at)
    (h1 : Ext q H rank rev (rank key) ⟨db, .compute key db :: e.calls⟩ e1)
    (h2 : Ext q H rank rev (rank key + 1) e1 e2) (hcalls : e2.calls = e1.calls)
    (hend : e.db.Never → e2.db.table.Current rev key) :
    Ext q H rank rev (rank key + 1) e e2 := by
  have h := (h1.mono (Nat.le_succ _)).trans h2
  have htab : db.table = e.db.table := hs.table
  have hnever : e.db.Never → db.Never := fun hn n => by rw [hans]; exact hn n
  refine ⟨h.rev_eq.trans hrev, fun hk => h.find ((hs.find? _).trans hk), ?_, fun hk hf => ?_, ?_, ?_,
    ?_, h.answers.trans hans, ?_⟩
  · rw [← hs.deps]
    exact h.arena
  · rw [← hs.row]
    exact h.rows hk ((hs.find? _).trans hf)
  · rw [← htab]
    exact h.current
  · rw [← htab]
    exact h.stale
  · rw [← htab]
    exact h.moved
  · obtain ⟨sub, hsub, hforced, honce⟩ := h1.calls
    refine ⟨sub ++ [.compute key db], by rw [hcalls, hsub]; simp, fun c hc => ?_, fun hn => ?_⟩
    · rcases mem_append.mp hc with hc | hc
      · obtain ⟨key', db', rfl, hf⟩ := hforced c hc
        refine ⟨key', db', rfl, hf.rank_lt.trans (Nat.lt_succ_self _), hf.inv, hf.not_current,
          hf.same.trans (congrFun htab key'), hf.red, fun d hd => ?_⟩
        have hmid := hf.kept d hd
        obtain ⟨row, hrow, hx⟩ := hd
        exact (h2.current ⟨row, hmid.trans hrow, hx⟩).trans hmid
      · obtain rfl := mem_singleton.mp hc
        refine ⟨key, db, rfl, Nat.lt_succ_self _, hinv.of_sameRows hs hrev, ?_, congrFun htab key, ?_,
          fun d hd => h.current hd⟩
        · rw [htab]
          exact hnc
        · rw [htab]
          exact hred
    · obtain ⟨hnd, hcur⟩ := honce (hnever hn)
      have hnot : key ∉ computed sub := fun hk => by
        obtain ⟨db', hmem⟩ := mem_computed hk
        obtain ⟨key', db'', heq, hf⟩ := hforced _ hmem
        cases heq
        exact absurd hf.rank_lt (lt_irrefl _)
      rw [computed_append]
      refine ⟨nodup_append'.mpr ⟨hnd, by simp, fun k hk hk' => ?_⟩, fun k hk => ?_⟩
      · obtain rfl : k = key := by simpa using hk'
        exact hnot hk
      · rcases mem_append.mp hk with hk | hk
        · exact ⟨fun hc => (hcur k hk).1 (by rw [htab]; exact hc), h2.current_mono (hcur k hk).2⟩
        · obtain rfl : k = key := by simpa using hk
          exact ⟨hnc, hend hn⟩

/-- Committing a computation that returned its value and read what it read. -/
theorem Inv.commit (hrk : Ranked q H rank rev) {db : Db} (h : Inv q H rank rev db)
    {key : QueryKey} {id : Nat} {ds : List Nat} {v : ValueHash} (hpos : 0 < rank key)
    (hf : db.find? key = some id) (hi : (db.row id).is_input = false)
    (hv : .value v = (q.compute key).run (env_at H rev))
    (hlt : ∀ d ∈ ds, d < db.nodes.length)
    (hds : ds.map (fun d => (db.row d).key) = (q.compute key).trace (env_at H rev))
    (hcur : ∀ k ∈ (q.compute key).trace (env_at H rev), db.table.Current rev k) :
    Inv q H rank rev (db.commit key id ds v) := by
  have hsol := h.rule_value hrk hpos hf hi
  have hval : v = H.value rev key := by
    rw [hsol]
    exact congrArg Outcome.hash hv
  have hreads : ∀ d, d ∈ (Db.edge_set ds).map (fun d => (db.row d).key) ↔
      d ∈ q.rules.reads (H.value rev) key := by
    intro d
    show _ ↔ d ∈ (q.compute key).trace (env_at H rev)
    rw [← hds]
    simp [Db.mem_edge_set]
  have htab := Db.table_commit (v := v) h.wf hf hi hlt
  refine ⟨Db.wf_commit h.wf hf hlt, h.rev_eq, ?_, ?_⟩
  · obtain ⟨Seen, hs⟩ := h.sound
    rw [htab, hval, h.rev_eq]
    refine ⟨_, hs.commit (fun row hrow => ?_) hsol hcur hreads⟩
    obtain ⟨j, hj, _, rfl⟩ := Db.table_some hrow
    rw [hf] at hj
    cases hj
    exact hi
  · rintro k d h0 ⟨row, hk, hin, hd⟩
    rw [htab] at hk
    by_cases hkk : k = key
    · subst hkk
      rw [Function.update_self] at hk
      cases hk
      exact hrk.reads h0 (h.inputs_none hf hi)
        (ReadTree.asks_of_mem_trace (fun k => .inr rfl) ((hreads d).mp hd))
    · rw [Function.update_of_ne hkk] at hk
      exact h.ranked h0 ⟨row, hk, hin, hd⟩

theorem Ext.commit {e : Engine} {key : QueryKey} {id r : Nat} {ds : List Nat} {v : ValueHash}
    (h : Inv q H rank rev e.db) (hf : e.db.find? key = some id)
    (hi : (e.db.row id).is_input = false) (hlt : ∀ d ∈ ds, d < e.db.nodes.length)
    (hnc : ¬ e.db.table.Current rev key) (hr : rank key < r) :
    Ext q H rank rev r e { e with db := e.db.commit key id ds v } := by
  refine Ext.write h.wf hf hr hnc rfl (fun _ => rfl) (prefix_append ..) (fun j hj => ?_)
    (Db.table_commit h.wf hf hi hlt) h.rev_eq (fun row hrow => ?_) rfl rfl
  · exact Db.row_set_row_ne (n := e.db.executed_row id (Db.edge_set ds).length v) hj
  · by_cases heq : row.value = v
    · exact .inl ⟨by simp [Row.committed, hrow, heq], heq.symm⟩
    · exact .inr fun hc => heq hc.symm

/-- **Execution** commits the value of the rule and the reads it took. -/
theorem execute_spec {n : Nat} {pull : Puller} (hrk : Ranked q H rank rev)
    (hp : PullerOk q H rank rev n pull) {key : QueryKey} {id : Nat} {e : Engine}
    (hpos : 0 < rank key) (hinv : Inv q H rank rev e.db) (habove : Above rank e.db (rank key + 1))
    (hf : e.db.find? key = some id) (hi : (e.db.row id).is_input = false)
    (hnc : ¬ e.db.table.Current rev key)
    (hred : ∀ row, e.db.table key = some row → ∃ d ∈ row.deps, ∃ row', e.db.table d = some row' ∧
      e.db.table.Current rev d ∧ row.verified_at < row'.changed_at) :
    Meets (rank key ≤ n + 1) (ResolvePost q H rank rev key e) (execute q pull key id e) := by
  unfold execute
  dsimp only
  have hpush : Db.SameRows e.db (e.db.push ⟨id, [], true⟩) := Db.sameRows_push _ _
  have habove' : Above rank (e.db.push ⟨id, [], true⟩) (rank key) :=
    (habove.mono (by omega)).push hf le_rfl
  rcases (run_tree_spec hp (q.compute key) false
    ⟨e.db.push ⟨id, [], true⟩, .compute key (e.db.push ⟨id, [], true⟩) :: e.calls⟩
    ⟨id, [], true⟩ e.db.stack (hinv.of_sameRows hpush rfl) habove' rfl rfl (hrk.honest key)
    fun d hd => hrk.reads hpos (hinv.inputs_none hf hi) hd).elim with ⟨⟨out, e1⟩, hrun, hpost⟩ | ⟨hrun, hn⟩
  swap
  · rw [hrun]
    exact hn
  rw [hrun]
  obtain ⟨es, hstack, hes⟩ := hpost.frames
  dsimp only at hstack hes ⊢
  rw [nil_append] at hstack
  rw [hstack]
  have hpop : Db.SameRows e1.db e1.db.pop := Db.sameRows_pop _
  have hpstack : e1.db.pop.stack = e.db.stack := by
    show e1.db.stack.tail = _
    rw [hstack]
    rfl
  have hpinv : Inv q H rank rev e1.db.pop := hpost.inv.of_sameRows hpop rfl
  have hpext : Ext q H rank rev (rank key + 1) e1 ⟨e1.db.pop, e1.calls⟩ :=
    .of_sameRows hpop rfl rfl rfl
  cases out with
  | cancelled =>
    have hnever : ¬ e.db.Never := fun hn =>
      (hpost.err rfl).elim (fun h => by cases h) fun h => h hn
    have hch := hpop.trans (Db.sameRows_charge e1.db.pop
      fun s => { s with cancellations := s.cancellations + 1 })
    have hext : Ext q H rank rev (rank key + 1) e1 ⟨_, e1.calls⟩ := .of_sameRows hch rfl rfl rfl
    exact ⟨hpost.inv.of_sameRows hch rfl,
      Ext.called hpush rfl rfl hinv hnc hred hpost.ext hext rfl fun hn => absurd hn hnever,
      hpstack, nofun, fun _ _ => hnever⟩
  | value v =>
    have hne : Outcome.value v ≠ .cancelled := nofun
    obtain ⟨hlt, hkeys⟩ := hes hne
    have hf1 : e1.db.pop.find? key = some id := hpost.ext.find hf
    have hi1 : (e1.db.pop.row id).is_input = false := by
      have hrow : e1.db.pop.row id = e.db.row id := hpost.ext.rows le_rfl hf
      rw [hrow]
      exact hi
    have hnc1 : ¬ e1.db.pop.table.Current rev key := by
      rintro ⟨row, hr, hx⟩
      exact hnc ⟨row, (hpost.ext.table_eq le_rfl hf).symm.trans hr, hx⟩
    have hcinv : Inv q H rank rev (e1.db.pop.commit key id es v) :=
      hpinv.commit hrk hpos hf1 hi1 (hpost.value hne).2 hlt hkeys (hpost.current hne)
    have hcext : Ext q H rank rev (rank key + 1) ⟨e1.db.pop, e1.calls⟩
        ⟨e1.db.pop.commit key id es v, e1.calls⟩ :=
      Ext.commit hpinv hf1 hi1 hlt hnc1 (Nat.lt_succ_self _)
    have hcur : (e1.db.pop.commit key id es v).table.Current rev key := by
      refine ⟨_, by rw [Db.table_commit hpinv.wf hf1 hi1 hlt, Function.update_self], .inr ?_⟩
      exact hpinv.rev_eq
    refine ⟨hcinv, Ext.called hpush rfl rfl hinv hnc hred hpost.ext (hpext.trans hcext) rfl
      fun _ => hcur, hpstack, fun a ha => ?_, nofun⟩
    cases ha
    exact answer_row (hcext.find hf1) hcur

/-- An engine whose key is not up to date, for a pull that got past the memo. -/
theorem not_current {db : Db} {key : QueryKey} {id : Nat} (hf : db.find? key = some id)
    (hi : (db.row id).is_input = false) (hv : ¬ ((db.row id).state = .valid ∧
      (db.row id).verified_at = rev)) : ¬ db.table.Current rev key := by
  rintro ⟨row, hrow, hx⟩
  obtain ⟨j, hj, hvalid, rfl⟩ := Db.table_some hrow
  rw [hf] at hj
  cases hj
  simp only [Db.row_of, hi, Bool.false_eq_true, false_or] at hx
  exact hv ⟨hvalid, hx⟩

theorem resolve_spec {n : Nat} {pull : Puller} (hrk : Ranked q H rank rev)
    (hp : PullerOk q H rank rev n pull) {key : QueryKey} {id : Nat} {e : Engine}
    (hpos : 0 < rank key) (hinv : Inv q H rank rev e.db) (habove : Above rank e.db (rank key + 1))
    (hf : e.db.find? key = some id) :
    Meets (rank key ≤ n + 1) (ResolvePost q H rank rev key e) (resolve q pull key id e) := by
  have hid := (hinv.wf.find_key hf).1
  unfold resolve
  dsimp only
  split
  · rename_i hi
    have hv := hinv.wf.input_valid hid hi
    have hcur : e.db.table.Current rev key := ⟨_, Db.table_valid hf hv, .inl hi⟩
    have hch := Db.sameRows_charge e.db fun s => { s with input_reads := s.input_reads + 1 }
    rw [if_pos hv]
    refine ⟨hinv.of_sameRows hch rfl, .of_sameRows hch rfl rfl rfl, rfl, fun a ha => ?_, nofun⟩
    cases ha
    exact answer_row hf hcur
  rename_i hi
  have hi' : (e.db.row id).is_input = false := by simpa using hi
  split
  · rename_i hv
    have hcur : e.db.table.Current rev key :=
      ⟨_, Db.table_valid hf hv.1, .inr (hv.2.trans hinv.rev_eq)⟩
    have hch := Db.sameRows_charge e.db fun s => { s with memo_hits := s.memo_hits + 1 }
    refine ⟨hinv.of_sameRows hch rfl, .of_sameRows hch rfl rfl rfl, rfl, fun a ha => ?_, nofun⟩
    cases ha
    exact answer_row hf hcur
  rename_i hv
  rw [hinv.rev_eq] at hv
  have hnc := not_current hf hi' hv
  rw [habove.not_in_flight hinv.wf hf]
  rcases (verify_spec hrk hp hpos hinv habove hf hi' hnc).elim with ⟨⟨res, e1⟩, hres, hpost⟩ | ⟨hres, hn⟩
  swap
  · rw [hres]
    exact hn
  rw [hres]
  have hf1 := hpost.ext.find hf
  cases res with
  | error c => exact ⟨hpost.inv, hpost.ext, hpost.stack, nofun, fun _ _ => hpost.err c rfl⟩
  | ok green =>
    cases green with
    | true =>
      refine ⟨hpost.inv, hpost.ext, hpost.stack, fun a ha => ?_, nofun⟩
      cases ha
      exact answer_row hf1 (hpost.green rfl)
    | false =>
      have hnc1 : ¬ e1.db.table.Current rev key := by
        rintro ⟨row, hrow, hx⟩
        exact hnc ⟨row, (hpost.same rfl).symm.trans hrow, hx⟩
      have hi1 : (e1.db.row id).is_input = false := by
        by_contra hin
        have hin' : (e1.db.row id).is_input = true := by simpa using hin
        have hv1 := hpost.inv.wf.input_valid (hpost.inv.wf.find_key hf1).1 hin'
        exact hnc1 ⟨_, Db.table_valid hf1 hv1, .inl hin'⟩
      have habove1 : Above rank e1.db (rank key + 1) :=
        habove.of_stack hpost.ext.find fun f hf => ⟨f, hpost.stack ▸ hf, rfl⟩
      refine (execute_spec hrk hp hpos hpost.inv habove1 hf1 hi1 hnc1 (hpost.red rfl)).mono
        (fun h => h) fun p h => ?_
      exact ⟨h.inv, hpost.ext.trans h.ext, h.stack.trans hpost.stack, h.ok,
        fun c hc hn => h.err c hc (hpost.ext.never hn)⟩

/-- What `probe` leaves behind. -/
theorem probe_spec {e : Engine} {key : QueryKey} {attributed : Bool} {id : Nat} {db : Db}
    (hinv : Inv q H rank rev e.db) (h : e.db.probe key attributed = (id, db)) :
    db.find? key = some id ∧ Inv q H rank rev db ∧
      (∀ r, Ext q H rank rev r e ⟨db, e.calls⟩) ∧
      ∃ es, db.stack = note_deps es e.db.stack ∧ (attributed = false → es = []) ∧
        ∀ f rest, attributed = true → e.db.stack = f :: rest → f.attributed = true → f.node ≠ id →
          es = [id] := by
  obtain ⟨rfl, hs, hrev, hcancel, hstack⟩ := probe_eqs h
  obtain ⟨-, -, hrev', hcancel', -⟩ := @Db.intern_eqs e.db key
  have hext : ∀ r, Ext q H rank rev r ⟨(e.db.intern key).2, e.calls⟩ ⟨db, e.calls⟩ := fun r =>
    .of_sameRows hs (hrev.trans hrev'.symm)
      (congrArg CancelFlag.answers (hcancel.trans hcancel'.symm)) rfl
  exact ⟨(hs.find? key).trans (Db.find?_intern_self key),
    (hinv.intern key).of_sameRows hs (hrev.trans hrev'.symm),
    fun r => (Ext.intern hinv.wf key).trans (hext r), hstack⟩

theorem pull_body_spec {n : Nat} {pull : Puller} (hrk : Ranked q H rank rev)
    (hp : PullerOk q H rank rev n pull) : PullerOk q H rank rev (n + 1) (pull_body q pull) := by
  intro key attributed e hpos hinv habove
  unfold pull_body
  dsimp only
  split
  · rename_i hc
    have hch := (Db.sameRows_polled e.db).trans
      (Db.sameRows_charge _ fun s => { s with cancellations := s.cancellations + 1 })
    refine ⟨hinv.of_sameRows hch rfl, .of_sameRows hch rfl rfl rfl,
      ⟨[], (note_deps_nil _).symm, fun _ => rfl, nofun⟩, nofun, fun _ _ hn => ?_⟩
    rw [Db.is_cancelled, hn] at hc
    cases hc
  obtain ⟨id, db, hprobe⟩ : ∃ id db, e.db.polled.probe key attributed = (id, db) := ⟨_, _, rfl⟩
  have hpoll : Ext q H rank rev (rank key + 1) e ⟨e.db.polled, e.calls⟩ :=
    .of_sameRows (Db.sameRows_polled _) rfl rfl rfl
  obtain ⟨hf, hinv1, hext, es, hes, hnone, hedge⟩ :=
    probe_spec (e := ⟨e.db.polled, e.calls⟩) (hinv.of_sameRows (Db.sameRows_polled _) rfl) hprobe
  have hext1 := hpoll.trans (hext _)
  have hstack1 : db.stack = note_deps es e.db.stack := hes
  have habove1 : Above rank db (rank key + 1) := habove.of_stack hext1.find fun f hf => by
    rw [hstack1] at hf
    exact mem_note_deps hf
  rw [hprobe]
  refine (resolve_spec hrk hp (e := ⟨db, e.calls⟩) hpos hinv1 habove1 hf).mono (fun h => by omega)
    fun p h => ?_
  refine ⟨h.inv, hext1.trans h.ext, ⟨es, h.stack.trans hstack1, hnone, ?_⟩, h.ok,
    fun c hc hn => h.err c hc (hext1.never hn)⟩
  intro a f rest _ hattr hs ha
  refine ⟨id, h.ext.find hf, hedge f rest hattr hs ha fun hid => ?_⟩
  obtain ⟨k, hk, hle⟩ := habove f (by rw [hs]; exact mem_cons_self)
  have hkk : k = key := Db.find?_inj hinv1.wf (hid ▸ hext1.find hk) hf
  rw [hkk] at hle
  omega

/-- **The spec of `pull`**, by induction on the recursion bound. -/
theorem pull_spec (hrk : Ranked q H rank rev) : ∀ fuel, PullerOk q H rank rev fuel (pull q fuel)
  | 0 => fun _ _ _ hpos _ _ => Nat.not_le_of_lt hpos
  | fuel + 1 => pull_body_spec hrk (pull_spec hrk fuel)

end Specs

end Fors.Query
