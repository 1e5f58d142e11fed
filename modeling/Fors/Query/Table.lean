import Fors.Lib.RedGreen
import Fors.Query.Db

/-!
# The memo table of a database

`Db.table` forgets ids, ranges and the arena: it is the red-green table the columns of a database stand
for.  `Db.WF` says that the index and the key column agree and that every recorded range lies in the
arena.

Principal results: how each write of the engine acts on the table (`table_intern`, `table_set_row`,
`table_stamp`, `table_commit`, `table_set_input`, `table_compact`), each keeping `Db.WF`.
-/

namespace Fors.Query

open List Option

attribute [local instance] Ids.wide

open RedGreen

namespace Db

/-- Index and columns agree, and every edge leads to a node. -/
structure WF (db : Db) : Prop where
  find_key : ∀ {key i}, db.find? key = some i → i < db.nodes.length ∧ (db.row i).key = key
  find_row : ∀ {i}, i < db.nodes.length → db.find? (db.row i).key = some i
  range_le : ∀ {i}, i < db.nodes.length →
    (db.row i).dep_start + (db.row i).dep_len ≤ db.deps.length
  dep_lt : ∀ {d}, d ∈ db.deps → d < db.nodes.length
  input_valid : ∀ {i}, i < db.nodes.length → (db.row i).is_input = true → (db.row i).state = .valid

/-- The keys a row's edges lead to. -/
def dep_keys (db : Db) (n : Node) : List QueryKey := (db.range n).map fun d => (db.row d).key

def row_of (db : Db) (n : Node) : Row QueryKey ValueHash :=
  ⟨n.value, n.verified_at, n.changed_at, if n.is_input then [] else db.dep_keys n, n.is_input⟩

/-- The rows of the nodes that have a value. -/
def table (db : Db) : Table QueryKey ValueHash := fun key =>
  match db.find? key with
  | none => none
  | some i => if (db.row i).state = .valid then some (db.row_of (db.row i)) else none

/-! ## Writes that leave the columns alone -/

/-- The columns, the index and the arena are the same. -/
structure SameRows (db db' : Db) : Prop where
  nodes : db'.nodes = db.nodes
  index : db'.index = db.index
  deps : db'.deps = db.deps

namespace SameRows

variable {db db' : Db} (h : SameRows db db')
include h

theorem row (i : Nat) : db'.row i = db.row i := by unfold Db.row; rw [h.nodes]

theorem find? (key : QueryKey) : db'.find? key = db.find? key := by unfold Db.find?; rw [h.index]

theorem range (n : Node) : db'.range n = db.range n := by unfold Db.range; rw [h.deps]

theorem dep_keys (n : Node) : db'.dep_keys n = db.dep_keys n := by
  unfold Db.dep_keys
  rw [h.range]
  exact map_congr_left fun d _ => by rw [h.row]

theorem table : db'.table = db.table := by
  funext key
  unfold Db.table Db.row_of
  rw [h.find?]
  cases db.find? key with
  | none => rfl
  | some i => simp [h.row, h.dep_keys]

theorem wf (hwf : db.WF) : db'.WF where
  find_key hf := by rw [h.find?] at hf; rw [h.nodes, h.row]; exact hwf.find_key hf
  find_row hi := by rw [h.nodes] at hi; rw [h.row, h.find?]; exact hwf.find_row hi
  range_le hi := by rw [h.nodes] at hi; rw [h.row, h.deps]; exact hwf.range_le hi
  dep_lt hd := by rw [h.deps] at hd; rw [h.nodes]; exact hwf.dep_lt hd
  input_valid hi := by rw [h.nodes] at hi; rw [h.row]; exact hwf.input_valid hi

end SameRows

theorem sameRows_charge (db : Db) (f : Stats → Stats) : SameRows db (db.charge f) := ⟨rfl, rfl, rfl⟩

theorem sameRows_polled (db : Db) : SameRows db db.polled := ⟨rfl, rfl, rfl⟩

theorem sameRows_push (db : Db) (f : Frame) : SameRows db (db.push f) := ⟨rfl, rfl, rfl⟩

theorem sameRows_pop (db : Db) : SameRows db db.pop := ⟨rfl, rfl, rfl⟩

theorem sameRows_open_window (db : Db) : SameRows db db.open_window := ⟨rfl, rfl, rfl⟩

theorem sameRows_attribute_to (db : Db) (id : Nat) : SameRows db (db.attribute_to id) := by
  unfold attribute_to
  split
  · exact ⟨rfl, rfl, rfl⟩
  · split <;> exact ⟨rfl, rfl, rfl⟩

theorem SameRows.trans {a b c : Db} (h : SameRows a b) (h' : SameRows b c) : SameRows a c :=
  ⟨h'.nodes.trans h.nodes, h'.index.trans h.index, h'.deps.trans h.deps⟩

theorem SameRows.refl (db : Db) : SameRows db db := ⟨rfl, rfl, rfl⟩

/-! ## Reading the table -/

theorem row_eq_getElem (db : Db) {i : Nat} (hi : i < db.nodes.length) : db.row i = db.nodes[i] := by
  simp [row, getD_eq_getElem?_getD, getElem?_eq_getElem hi]

theorem mem_range {db : Db} (n : Node) {d : Nat} (hd : d ∈ db.range n) : d ∈ db.deps :=
  mem_of_mem_drop (mem_of_mem_take hd)

theorem find?_inj {db : Db} (h : db.WF) {k k' : QueryKey} {i : Nat} (hk : db.find? k = some i)
    (hk' : db.find? k' = some i) : k = k' :=
  (h.find_key hk).2.symm.trans (h.find_key hk').2

theorem table_valid {db : Db} {key : QueryKey} {i : Nat} (hf : db.find? key = some i)
    (hv : (db.row i).state = .valid) : db.table key = some (db.row_of (db.row i)) := by
  simp [table, hf, hv]

theorem table_not_valid {db : Db} {key : QueryKey} {i : Nat} (hf : db.find? key = some i)
    (hv : (db.row i).state ≠ .valid) : db.table key = none := by
  simp [table, hf, hv]

variable {row : Row QueryKey ValueHash}

theorem table_some {db : Db} {key : QueryKey} (h : db.table key = some row) :
    ∃ i, db.find? key = some i ∧ (db.row i).state = .valid ∧ row = db.row_of (db.row i) := by
  unfold table at h
  split at h
  · cases h
  · rename_i i hf
    split at h
    · rename_i hv
      exact ⟨i, hf, hv, (some.inj h).symm⟩
    · cases h

theorem table_value_of (db : Db) (key : QueryKey) :
    db.value_of key = (db.table key).map (·.value) := by
  unfold value_of table
  cases db.find? key with
  | none => rfl
  | some i => by_cases h : (db.row i).state = .valid <;> simp [h, row_of]

theorem table_changed_at (db : Db) (key : QueryKey) :
    db.changed_at key = (db.table key).map (·.changed_at) := by
  unfold changed_at table
  cases db.find? key with
  | none => rfl
  | some i => by_cases h : (db.row i).state = .valid <;> simp [h, row_of]

theorem table_verified_at (db : Db) (key : QueryKey) :
    db.verified_at key = (db.table key).map (·.verified_at) := by
  unfold verified_at table
  cases db.find? key with
  | none => rfl
  | some i => by_cases h : (db.row i).state = .valid <;> simp [h, row_of]

theorem table_deps_of {db : Db} {key : QueryKey}
    (h : db.table key = some row) (hi : row.is_input = false) : db.deps_of key = row.deps := by
  obtain ⟨i, hf, _, rfl⟩ := table_some h
  simp only [row_of] at hi ⊢
  simp [deps_of, hf, hi, dep_keys]

theorem table_input {db : Db} {key : QueryKey}
    (h : db.table key = some row) (hi : row.is_input = true) : db.input key = some row.value := by
  obtain ⟨i, hf, hv, rfl⟩ := table_some h
  simp only [row_of] at hi ⊢
  simp [input, hf, hv, hi]

theorem input_some {db : Db} {key : QueryKey} {v : ValueHash} (h : db.input key = some v) :
    ∃ row, db.table key = some row ∧ row.is_input = true ∧ row.value = v := by
  unfold input at h
  split at h
  · cases h
  · rename_i i hf
    split at h
    · rename_i hc
      exact ⟨_, table_valid hf hc.2, hc.1, some.inj h⟩
    · cases h

/-! ## Interning -/

section Intern

variable {db : Db} (hwf : db.WF) (key : QueryKey)

theorem intern_eq_of_find {id : Nat} (hf : db.find? key = some id) : db.intern key = (id, db) := by
  simp [intern, hf]

theorem intern_eq_of_fresh (hf : db.find? key = none) :
    db.intern key = (db.nodes.length,
      { db with nodes := db.nodes ++ [Node.new key], index := (key, db.nodes.length) :: db.index }) := by
  simp [intern, hf]

theorem find?_intern_self : (db.intern key).2.find? key = some (db.intern key).1 := by
  cases hf : db.find? key with
  | some id => rw [intern_eq_of_find key hf]; exact hf
  | none =>
    rw [intern_eq_of_fresh key hf]
    simp [find?]

theorem find?_intern {k : QueryKey} {i : Nat} (hk : db.find? k = some i) :
    (db.intern key).2.find? k = some i := by
  cases hf : db.find? key with
  | some id => rw [intern_eq_of_find key hf]; exact hk
  | none =>
    rw [intern_eq_of_fresh key hf]
    have hne : k ≠ key := by rintro rfl; simp [hf] at hk
    have hne' : (k == key) = false := by simpa using hne
    simpa [find?, lookup_cons, hne'] using hk

theorem row_intern {i : Nat} (hi : i < db.nodes.length) :
    (db.intern key).2.row i = db.row i := by
  cases hf : db.find? key with
  | some id => rw [intern_eq_of_find key hf]
  | none =>
    rw [intern_eq_of_fresh key hf]
    simp [row, getD_eq_getElem?_getD, getElem?_append_left hi]

theorem row_intern_fresh (hf : db.find? key = none) :
    (db.intern key).2.row (db.intern key).1 = Node.new key := by
  rw [intern_eq_of_fresh key hf]
  simp [row, getD_eq_getElem?_getD]

theorem intern_eqs : (db.intern key).2.deps = db.deps ∧ (db.intern key).2.stack = db.stack ∧
    (db.intern key).2.rev = db.rev ∧ (db.intern key).2.cancel = db.cancel ∧
    db.nodes.length ≤ (db.intern key).2.nodes.length := by
  cases hf : db.find? key with
  | some id => rw [intern_eq_of_find key hf]; exact ⟨rfl, rfl, rfl, rfl, le_rfl⟩
  | none => rw [intern_eq_of_fresh key hf]; exact ⟨rfl, rfl, rfl, rfl, by simp⟩

include hwf

theorem dep_keys_intern {n : Node} : (db.intern key).2.dep_keys n = db.dep_keys n := by
  have hr : (db.intern key).2.range n = db.range n := by
    unfold range
    rw [(intern_eqs key).1]
  unfold dep_keys
  rw [hr]
  exact map_congr_left fun d hd => by rw [row_intern key (hwf.dep_lt (mem_range n hd))]

/-- **Interning a key does not show in the table.** -/
theorem table_intern : (db.intern key).2.table = db.table := by
  cases hf : db.find? key with
  | some id => rw [intern_eq_of_find key hf]
  | none =>
    funext k
    by_cases hk : k = key
    · subst hk
      have hrow := row_intern_fresh k hf
      rw [table_not_valid (find?_intern_self k) (by rw [hrow]; simp [Node.new])]
      simp [table, hf]
    · have hne : (k == key) = false := by simpa using hk
      have hfind : (db.intern key).2.find? k = db.find? k := by
        rw [intern_eq_of_fresh key hf]
        simp [find?, lookup_cons, hne]
      unfold table
      rw [hfind]
      cases hfk : db.find? k with
      | none => rfl
      | some i =>
        have hi := (hwf.find_key hfk).1
        simp [row_intern key hi, row_of, dep_keys_intern hwf key]

theorem wf_intern : (db.intern key).2.WF := by
  cases hf : db.find? key with
  | some id => rw [intern_eq_of_find key hf]; exact hwf
  | none =>
    have hlen : (db.intern key).2.nodes.length = db.nodes.length + 1 := by
      rw [intern_eq_of_fresh key hf]; simp
    have hid : (db.intern key).1 = db.nodes.length := by rw [intern_eq_of_fresh key hf]
    have hnew : (db.intern key).2.row db.nodes.length = Node.new key := by
      rw [← hid]; exact row_intern_fresh key hf
    have hrow : ∀ {i}, i < (db.intern key).2.nodes.length →
        (i < db.nodes.length ∧ (db.intern key).2.row i = db.row i) ∨
          (i = db.nodes.length ∧ (db.intern key).2.row i = Node.new key) := by
      intro i hi
      rw [hlen] at hi
      rcases Nat.lt_or_ge i db.nodes.length with hlt | hge
      · exact .inl ⟨hlt, row_intern key hlt⟩
      · obtain rfl : i = db.nodes.length := by omega
        exact .inr ⟨rfl, hnew⟩
    refine ⟨?_, ?_, ?_, ?_, ?_⟩
    · intro k i hk
      by_cases hkk : k = key
      · subst hkk
        rw [find?_intern_self, some.injEq, hid] at hk
        subst hk
        rw [hlen, hnew]
        exact ⟨by omega, rfl⟩
      · have hne : (k == key) = false := by simpa using hkk
        have hfk : db.find? k = some i := by
          rw [intern_eq_of_fresh key hf] at hk
          simpa [find?, lookup_cons, hne] using hk
        obtain ⟨hi, hkey⟩ := hwf.find_key hfk
        rw [hlen, row_intern key hi]
        exact ⟨by omega, hkey⟩
    · intro i hi
      rcases hrow hi with ⟨hlt, hr⟩ | ⟨rfl, hr⟩
      · rw [hr]; exact find?_intern key (hwf.find_row hlt)
      · rw [hr]
        show (db.intern key).2.find? key = some db.nodes.length
        rw [find?_intern_self, hid]
    · intro i hi
      rw [(intern_eqs key).1]
      rcases hrow hi with ⟨hlt, hr⟩ | ⟨rfl, hr⟩
      · rw [hr]; exact hwf.range_le hlt
      · rw [hr]; simp [Node.new]
    · intro d hd
      rw [(intern_eqs key).1] at hd
      have := hwf.dep_lt hd
      omega
    · intro i hi hin
      rcases hrow hi with ⟨hlt, hr⟩ | ⟨rfl, hr⟩
      · rw [hr] at hin ⊢; exact hwf.input_valid hlt hin
      · rw [hr] at hin; simp [Node.new] at hin

end Intern

/-! ## Writing a row -/

section SetRow

variable {db : Db} {key : QueryKey} {i : Nat} {n : Node}

@[simp] theorem find?_set_row (k : QueryKey) : (db.set_row i n).find? k = db.find? k := rfl

@[simp] theorem range_set_row (n' : Node) : (db.set_row i n).range n' = db.range n' := rfl

theorem row_set_row_self (hi : i < db.nodes.length) : (db.set_row i n).row i = n := by
  simp [set_row, row, getD_eq_getElem?_getD, getElem?_set_self hi]

theorem row_set_row_ne {j : Nat} (hj : j ≠ i) : (db.set_row i n).row j = db.row j := by
  simp [set_row, row, getD_eq_getElem?_getD, getElem?_set_ne hj.symm]

theorem key_set_row (hi : i < db.nodes.length) (hn : n.key = (db.row i).key) (j : Nat) :
    ((db.set_row i n).row j).key = (db.row j).key := by
  by_cases hj : j = i
  · subst hj; rw [row_set_row_self hi, hn]
  · rw [row_set_row_ne hj]

theorem dep_keys_set_row (hi : i < db.nodes.length) (hn : n.key = (db.row i).key) (n' : Node) :
    (db.set_row i n).dep_keys n' = db.dep_keys n' :=
  map_congr_left fun d _ => key_set_row hi hn d

/-- **Writing a valid row.** -/
theorem table_set_row (hwf : db.WF) (hf : db.find? key = some i) (hn : n.key = key)
    (hv : n.state = .valid) :
    (db.set_row i n).table = Function.update db.table key (some (db.row_of n)) := by
  obtain ⟨hi, hkey⟩ := hwf.find_key hf
  have hn' : n.key = (db.row i).key := hn.trans hkey.symm
  funext k
  by_cases hk : k = key
  · subst hk
    rw [Function.update_self, table_valid (i := i) (by rw [find?_set_row]; exact hf)
      (by rw [row_set_row_self hi]; exact hv), row_set_row_self hi]
    simp [row_of, dep_keys_set_row hi hn']
  · rw [Function.update_of_ne hk]
    unfold table
    rw [find?_set_row]
    cases hfk : db.find? k with
    | none => rfl
    | some j =>
      have hj : j ≠ i := by rintro rfl; exact hk (find?_inj hwf hfk hf)
      simp [row_set_row_ne hj, row_of, dep_keys_set_row hi hn']

theorem wf_set_row (hwf : db.WF) (hf : db.find? key = some i) (hn : n.key = key)
    (hr : n.dep_start + n.dep_len ≤ db.deps.length) (hv : n.is_input = true → n.state = .valid) :
    (db.set_row i n).WF := by
  obtain ⟨hi, hkey⟩ := hwf.find_key hf
  have hlen : (db.set_row i n).nodes.length = db.nodes.length := by simp [set_row]
  have hn' : n.key = (db.row i).key := hn.trans hkey.symm
  refine ⟨?_, ?_, ?_, ?_, ?_⟩
  · intro k j hk
    rw [hlen, key_set_row hi hn']
    exact hwf.find_key hk
  · intro j hj
    rw [hlen] at hj
    rw [key_set_row hi hn']
    exact hwf.find_row hj
  · intro j hj
    rw [hlen] at hj
    by_cases hji : j = i
    · subst hji; rw [row_set_row_self hi]; exact hr
    · rw [row_set_row_ne hji]; exact hwf.range_le hj
  · intro d hd
    rw [hlen]
    exact hwf.dep_lt hd
  · intro j hj hin
    rw [hlen] at hj
    by_cases hji : j = i
    · subst hji; rw [row_set_row_self hi] at hin ⊢; exact hv hin
    · rw [row_set_row_ne hji] at hin ⊢; exact hwf.input_valid hj hin

/-- Re-stamping a node that is not an input. -/
theorem table_stamp (hwf : db.WF) (hf : db.find? key = some i)
    {row : Row QueryKey ValueHash} (ht : db.table key = some row) :
    (db.set_row i { db.row i with verified_at := db.rev }).table =
      Function.update db.table key (some (row.stamped db.rev)) := by
  obtain ⟨j, hj, hv, rfl⟩ := table_some ht
  obtain rfl : i = j := by rw [hf] at hj; exact some.inj hj
  exact table_set_row hwf hf (hwf.find_key hf).2 hv

theorem wf_stamp (hwf : db.WF) (hf : db.find? key = some i) (r : Nat) :
    (db.set_row i { db.row i with verified_at := r }).WF := by
  obtain ⟨hi, hkey⟩ := hwf.find_key hf
  refine wf_set_row hwf hf ?_ ?_ ?_
  · exact hkey
  · exact hwf.range_le hi
  · exact hwf.input_valid hi

end SetRow

/-! ## Committing an execution -/

section Commit

variable {db : Db}

/-- The arena grows by a range. -/
def append_deps (db : Db) (ds : List Nat) : Db := { db with deps := db.deps ++ ds }

theorem range_append_deps (ds : List Nat) {n : Node} (hn : n.dep_start + n.dep_len ≤ db.deps.length) :
    (db.append_deps ds).range n = db.range n := by
  unfold range append_deps
  rw [drop_append_of_le_length (by omega), take_append_of_le_length (by simp; omega)]

theorem table_append_deps (hwf : db.WF) (ds : List Nat) : (db.append_deps ds).table = db.table := by
  funext key
  unfold table
  show (match db.find? key with | none => none | some i => _) = _
  cases hf : db.find? key with
  | none => rfl
  | some i =>
    have hr := range_append_deps ds (hwf.range_le (hwf.find_key hf).1)
    have hk : (db.append_deps ds).dep_keys (db.row i) = db.dep_keys (db.row i) := by
      unfold dep_keys
      rw [hr]
      rfl
    show (if (db.row i).state = .valid then some ((db.append_deps ds).row_of (db.row i)) else none) = _
    simp [row_of, hk]

theorem wf_append_deps (hwf : db.WF) {ds : List Nat} (hds : ∀ d ∈ ds, d < db.nodes.length) :
    (db.append_deps ds).WF where
  find_key := hwf.find_key
  find_row := hwf.find_row
  range_le {i} hi := by
    have := hwf.range_le hi
    show (db.row i).dep_start + (db.row i).dep_len ≤ (db.deps ++ ds).length
    rw [length_append]
    omega
  dep_lt hd := (mem_append.mp hd).elim hwf.dep_lt (hds _)
  input_valid := hwf.input_valid

theorem mem_dedup {d : Nat} : ∀ {ds : List Nat}, d ∈ dedup ds ↔ d ∈ ds
  | [] => Iff.rfl
  | [_] => Iff.rfl
  | a :: b :: ds => by
    unfold dedup
    split
    · rename_i h
      rw [mem_dedup, h]
      simp
    · rw [mem_cons, mem_dedup, mem_cons (a := d) (b := a)]

theorem mem_edge_set {d : Nat} {ds : List Nat} : d ∈ edge_set ds ↔ d ∈ ds := by
  unfold edge_set
  rw [mem_dedup, mem_insertionSort]

variable {key : QueryKey} {id : Nat} {ds : List Nat} {v : ValueHash}

theorem sameRows_commit : SameRows
    ((db.append_deps (edge_set ds)).set_row id (db.executed_row id (edge_set ds).length v))
    (db.commit key id ds v) := ⟨rfl, rfl, rfl⟩

theorem row_commit_self (hid : id < db.nodes.length) :
    (db.commit key id ds v).row id = db.executed_row id (edge_set ds).length v :=
  @row_set_row_self (db.append_deps (edge_set ds)) _ _ hid

theorem row_commit_ne {i : Nat} (hi : i ≠ id) : (db.commit key id ds v).row i = db.row i :=
  @row_set_row_ne (db.append_deps (edge_set ds)) _ _ _ hi

theorem range_fresh {n : Node} (hs : n.dep_start = db.deps.length) (hl : n.dep_len = ds.length) :
    (db.append_deps ds).range n = ds := by
  simp [range, append_deps, hs, hl]

/-- **A commit writes one row of the table.** -/
theorem table_commit (hwf : db.WF) (hf : db.find? key = some id)
    (hi : (db.row id).is_input = false) (hds : ∀ d ∈ ds, d < db.nodes.length) :
    (db.commit key id ds v).table = Function.update db.table key
      (some (Row.committed (db.table key) v ((edge_set ds).map fun d => (db.row d).key) db.rev)) := by
  have hds' : ∀ d ∈ edge_set ds, d < db.nodes.length := fun d hd => hds d (mem_edge_set.mp hd)
  have hkey : (db.executed_row id (edge_set ds).length v).key = key := (hwf.find_key hf).2
  rw [sameRows_commit.table, table_set_row (wf_append_deps hwf hds') hf hkey rfl, table_append_deps hwf]
  have hkeys : (db.append_deps (edge_set ds)).dep_keys (db.executed_row id (edge_set ds).length v) =
      (edge_set ds).map fun d => (db.row d).key := by
    unfold dep_keys
    rw [range_fresh rfl rfl]
    rfl
  have hi' : (db.executed_row id (edge_set ds).length v).is_input = false := hi
  have hrow : (db.append_deps (edge_set ds)).row_of (db.executed_row id (edge_set ds).length v) =
      Row.committed (db.table key) v ((edge_set ds).map fun d => (db.row d).key) db.rev := by
    unfold row_of
    rw [hkeys, hi']
    by_cases hv : (db.row id).state = .valid
    · rw [table_valid hf hv]
      by_cases hval : (db.row id).value = v <;>
        simp [Row.committed, row_of, executed_row, is_fresh, hv, hval]
    · rw [table_not_valid hf hv]
      simp [Row.committed, executed_row, is_fresh, hv]
  rw [hrow]

theorem wf_commit (hwf : db.WF) (hf : db.find? key = some id) (hds : ∀ d ∈ ds, d < db.nodes.length) :
    (db.commit key id ds v).WF := by
  have hds' : ∀ d ∈ edge_set ds, d < db.nodes.length := fun d hd => hds d (mem_edge_set.mp hd)
  refine sameRows_commit.wf (wf_set_row (wf_append_deps hwf hds') hf (hwf.find_key hf).2 ?_
    fun _ => rfl)
  show db.deps.length + (edge_set ds).length ≤ (db.deps ++ edge_set ds).length
  rw [length_append]

end Commit

/-! ## Setting an input -/

section SetInput

variable {db db' : Db} {key : QueryKey} {v : ValueHash} {b : Bool}

theorem wf_rev (hwf : db.WF) (r : Nat) : { db with rev := r }.WF :=
  ⟨hwf.find_key, hwf.find_row, hwf.range_le, hwf.dep_lt, hwf.input_valid⟩

theorem wf_new (c : CancelFlag) : (Db.new c).WF := by
  refine ⟨?_, ?_, ?_, ?_, ?_⟩ <;> simp [Db.new, find?]

/-- **`set_input`.**  Either the input had the value, and nothing the table shows changes, or the
revision goes up and the table has one new row. -/
theorem set_input_spec (hwf : db.WF) (h : db.set_input key v = .ok (b, db')) :
    db'.WF ∧ db'.stack = db.stack ∧ db'.cancel = db.cancel ∧
      (∀ row, db.table key = some row → row.is_input = true) ∧
      if b then db'.rev = db.rev + 1 ∧ db.input key ≠ some v ∧
        db'.table = Function.update db.table key (some (Row.written v (db.rev + 1)))
      else db'.rev = db.rev ∧ db.input key = some v ∧ db'.table = db.table := by
  obtain ⟨i, d, hintern⟩ : ∃ i d, db.intern key = (i, d) := ⟨_, _, rfl⟩
  have hdwf : d.WF := by simpa [hintern] using wf_intern hwf key
  have hf : d.find? key = some i := by
    have hself := @find?_intern_self db key
    rwa [hintern] at hself
  have ht : d.table = db.table := by simpa [hintern] using table_intern hwf key
  have heqs := @intern_eqs db key
  rw [hintern] at heqs
  obtain ⟨_, hstack, hrev, hcancel, _⟩ := heqs
  obtain ⟨hlt, hkey⟩ := hdwf.find_key hf
  simp only [set_input, hintern] at h
  split at h
  · cases h
  rename_i hderived
  have hin : (d.row i).state = .valid → (d.row i).is_input = true := by simpa using hderived
  have hinput : ∀ row, db.table key = some row → row.is_input = true := by
    intro row hrow
    rw [← ht] at hrow
    obtain ⟨j, hj, hv, rfl⟩ := table_some hrow
    rw [hf] at hj
    cases hj
    exact hin hv
  split at h
  · rename_i hsame
    cases h
    have hkeep : ({ d.row i with is_input := true } : Node) = d.row i := by
      rw [← hin hsame.1]
    rw [hkeep]
    have hrow := table_valid hf hsame.1
    refine ⟨wf_set_row hdwf hf hkey (hdwf.range_le hlt) fun _ => hsame.1, hstack, hcancel, hinput,
      hrev, ?_, ?_⟩
    · rw [ht] at hrow
      rw [table_input hrow (hin hsame.1)]
      exact congrArg some hsame.2
    · rw [table_set_row hdwf hf hkey hsame.1, ← hrow, Function.update_eq_self, ht]
  · rename_i hdiff
    cases h
    have hrwf : ({ d with rev := d.rev + 1 } : Db).WF := wf_rev hdwf _
    refine ⟨(sameRows_charge _ _).wf (wf_set_row hrwf hf hkey (hdwf.range_le hlt) fun _ => rfl),
      hstack, hcancel, hinput, congrArg (· + 1) hrev, ?_, ?_⟩
    · intro hv
      obtain ⟨row, hrow, _, hval⟩ := input_some hv
      rw [← ht] at hrow
      obtain ⟨j, hj, hvalid, rfl⟩ := table_some hrow
      rw [hf] at hj
      cases hj
      exact hdiff ⟨hvalid, hval⟩
    · rw [(sameRows_charge _ _).table, table_set_row hrwf hf ?_ rfl]
      · show Function.update d.table key _ = _
        rw [ht, hrev]
        rfl
      · exact hkey

/-- `set_input` panics only on a key that has a derived value. -/
theorem set_input_ok (hwf : db.WF) (h : ∀ row, db.table key = some row → row.is_input = true) :
    ∃ r, db.set_input key v = .ok r := by
  obtain ⟨i, d, hintern⟩ : ∃ i d, db.intern key = (i, d) := ⟨_, _, rfl⟩
  have hf : d.find? key = some i := by
    have hself := @find?_intern_self db key
    rwa [hintern] at hself
  have ht : d.table = db.table := by simpa [hintern] using table_intern hwf key
  simp only [set_input, hintern]
  split
  · rename_i hd
    have hin := h _ ((congrFun ht key).symm.trans (table_valid hf hd.1))
    rw [row_of, hd.2] at hin
    cases hin
  · split <;> exact ⟨_, rfl⟩

end SetInput

/-! ## Compacting -/

section Compact

/-- Each row keeps everything but its `dep_start`, and its range keeps its contents. -/
theorem compact_rows_spec {arena : List Nat} :
    ∀ {ns ns' : List Node} {fresh out : List Nat}, compact_rows arena ns fresh = .ok (ns', out) →
      (∃ more, out = fresh ++ more) ∧ ns'.length = ns.length ∧ (∀ d ∈ out, d ∈ fresh ∨ d ∈ arena) ∧
      ∀ (i : Nat) (n : Node), ns[i]? = some n → ∃ s, ns'[i]? = some { n with dep_start := s } ∧
        s + n.dep_len ≤ out.length ∧
        (out.drop s).take n.dep_len = (arena.drop n.dep_start).take n.dep_len
  | [], _, fresh, out, h => by
    cases h
    exact ⟨⟨[], by simp⟩, rfl, fun d hd => .inl hd, fun i n hn => by simp at hn⟩
  | n :: ns, ns', fresh, out, h => by
    unfold compact_rows at h
    split at h
    · rename_i hrange
      split at h
      · cases h
      · rename_i ns'' arena' heq
        cases h
        obtain ⟨⟨more, rfl⟩, hlen, hmem, hrows⟩ := compact_rows_spec heq
        have hl : ((arena.drop n.dep_start).take n.dep_len).length = n.dep_len := by
          simp; omega
        refine ⟨⟨_, append_assoc ..⟩, by simp [hlen], ?_, ?_⟩
        · intro d hd
          rcases hmem d hd with hd | hd
          · rcases mem_append.mp hd with hd | hd
            · exact .inl hd
            · exact .inr (mem_of_mem_drop (mem_of_mem_take hd))
          · exact .inr hd
        · intro i m hm
          cases i with
          | zero =>
            simp only [getElem?_cons_zero, some.injEq] at hm
            subst hm
            refine ⟨fresh.length, rfl, by simp only [length_append, hl]; omega, ?_⟩
            rw [append_assoc, drop_append_of_le_length (by simp), drop_length,
              nil_append, take_append_of_le_length (by omega), take_of_length_le (by omega)]
          | succ i =>
            simp only [getElem?_cons_succ] at hm ⊢
            exact hrows i m hm
    · cases h

/-- Compacting moves the ranges of the rows. -/
theorem rows_compact {db db' : Db} (h : db.compact = .ok db') :
    db'.nodes.length = db.nodes.length ∧ (∀ d ∈ db'.deps, d ∈ db.deps) ∧
      db' = { db with nodes := db'.nodes, deps := db'.deps } ∧
      ∀ {i}, i < db.nodes.length → ∃ s, db'.row i = { db.row i with dep_start := s } ∧
        s + (db.row i).dep_len ≤ db'.deps.length ∧ db'.range (db'.row i) = db.range (db.row i) := by
  unfold compact at h
  split at h
  · cases h
  split at h
  · cases h
  rename_i nodes deps heq
  cases h
  obtain ⟨_, hlen, hmem, hrows⟩ := compact_rows_spec heq
  set db' : Db := { db with nodes := nodes, deps := deps } with hdb'
  refine ⟨hlen, fun d hd => (hmem d hd).resolve_left (by simp), rfl, fun {i} hi => ?_⟩
  have hget : db.nodes[i]? = some (db.row i) := by
    rw [row_eq_getElem db hi, getElem?_eq_getElem hi]
  obtain ⟨s, hs, hle, hr⟩ := hrows i _ hget
  have hrow' : db'.row i = { db.row i with dep_start := s } := by
    show nodes.getD i _ = _
    rw [getD_eq_getElem?_getD, hs, getD_some]
  refine ⟨s, hrow', hle, ?_⟩
  rw [hrow']
  exact hr

/-- **Compacting does not show in the table.** -/
theorem compact_spec {db db' : Db} (hwf : db.WF) (h : db.compact = .ok db') :
    db'.WF ∧ db'.table = db.table ∧ db'.rev = db.rev ∧ db'.stack = db.stack ∧
      db'.cancel = db.cancel := by
  obtain ⟨hlen, hmem, hdb, hrow⟩ := rows_compact h
  have hfind : ∀ k, db'.find? k = db.find? k := fun k => by rw [hdb]; rfl
  have hkey : ∀ {i}, i < db.nodes.length → (db'.row i).key = (db.row i).key := by
    intro i hi
    obtain ⟨s, hs, _⟩ := hrow hi
    rw [hs]
  refine ⟨⟨?_, ?_, ?_, ?_, ?_⟩, ?_, by rw [hdb], by rw [hdb], by rw [hdb]⟩
  · intro k i hk
    rw [hfind] at hk
    obtain ⟨hi, hki⟩ := hwf.find_key hk
    exact ⟨hlen.symm ▸ hi, (hkey hi).trans hki⟩
  · intro i hi
    replace hi : i < db.nodes.length := hlen ▸ hi
    rw [hkey hi, hfind]
    exact hwf.find_row hi
  · intro i hi
    replace hi : i < db.nodes.length := hlen ▸ hi
    obtain ⟨s, hs, hle, _⟩ := hrow hi
    rw [hs]
    exact hle
  · intro d hd
    exact hlen.symm ▸ hwf.dep_lt (hmem d hd)
  · intro i hi hin
    replace hi : i < db.nodes.length := hlen ▸ hi
    obtain ⟨s, hs, _⟩ := hrow hi
    rw [hs] at hin ⊢
    exact hwf.input_valid hi hin
  · funext key
    unfold table
    rw [hfind]
    cases hf : db.find? key with
    | none => rfl
    | some i =>
      obtain ⟨s, hs, _, hr⟩ := hrow (hwf.find_key hf).1
      have hk : db'.dep_keys (db'.row i) = db.dep_keys (db.row i) := by
        unfold dep_keys
        rw [hr]
        exact map_congr_left fun d hd => hkey (hwf.dep_lt (mem_range _ hd))
      show (if (db'.row i).state = .valid then some (db'.row_of (db'.row i)) else none) = _
      unfold row_of
      rw [hk, hs]

end Compact

end Db

end Fors.Query
