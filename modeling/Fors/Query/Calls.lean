import Fors.Query.Db

/-!
# What a call does

The branches of `verify_deps`, `verify`, `execute`, `pull` and `is_red` of `db.rs`: a relation for each
function, with a case for each way in which a call comes back.  What holds of every call is proved over
these cases.

Principal results: `verifies`, `executes`, `resolves`, `pulls` and `reddens`.
-/

namespace Fors.Query

namespace Db

variable {db db' : Db} {i : Nat}

/-- "A derived node is up to date iff `verified_at == revision`." -/
def UpToDate (db : Db) (i : Nat) : Prop :=
  (db.row i).state = .valid ∧ (db.row i).verified_at = db.rev

instance (db : Db) (i : Nat) : Decidable (db.UpToDate i) :=
  inferInstanceAs (Decidable (_ ∧ _))

/-- A node that has to be verified or executed before it answers. -/
def Open (db : Db) (i : Nat) : Prop :=
  (db.row i).is_input = false ∧ ¬ db.UpToDate i

instance (db : Db) (i : Nat) : Decidable (db.Open i) :=
  inferInstanceAs (Decidable (_ ∧ _))

theorem Open.of_row (h : db.Open i) (hrow : db'.row i = db.row i) (hrev : db'.rev = db.rev) :
    db'.Open i := by
  unfold Open UpToDate at h ⊢
  rwa [hrow, hrev]

theorem UpToDate.not_open (h : db.UpToDate i) : ¬ db.Open i :=
  fun ho => ho.2 h

/-- The nodes in flight. -/
def flight (db : Db) : List Nat := db.stack.map Frame.node

theorem in_flight_iff : (db.stack.any fun f => f.node == i) = true ↔ i ∈ db.flight := by
  simp [flight]

end Db

variable {P : Puller} {id fuel : Nat} {key : QueryKey} {e e' : Engine}

/-! ## Verification -/

/-- A walk over `l` recorded edges from the `j`th on. -/
inductive Walks (P : Puller) (verified s : Nat) :
    Nat → Nat → Engine → Except Cancelled Bool → Engine → Prop
  | done {j e} : Walks P verified s 0 j e (.ok false) e
  | error {l j e dep c e'} (hdep : e.db.deps[s + j]? = some dep)
    (hpull : P (e.db.row dep).key false e = .ok (.error c, e')) :
    Walks P verified s (l + 1) j e (.error c) e'
  | changed {l j e dep a e'} (hdep : e.db.deps[s + j]? = some dep)
    (hpull : P (e.db.row dep).key false e = .ok (.ok a, e')) (hgt : verified < a.changed_at) :
    Walks P verified s (l + 1) j e (.ok true) e'
  | unchanged {l j e dep a e1 r e'} (hdep : e.db.deps[s + j]? = some dep)
    (hpull : P (e.db.row dep).key false e = .ok (.ok a, e1)) (hle : a.changed_at ≤ verified)
    (hrest : Walks P verified s l (j + 1) e1 r e') : Walks P verified s (l + 1) j e r e'

theorem walks {verified s : Nat} {r : Except Cancelled Bool} : ∀ {l j : Nat} {e : Engine},
    verify_deps P verified s l j e = .ok (r, e') → Walks P verified s l j e r e'
  | 0, _, _, h => by
    cases h
    exact .done
  | l + 1, j, e, h => by
    unfold verify_deps at h
    split at h
    · cases h
    rename_i hdep
    split at h
    · cases h
    · rename_i hpull
      cases h
      exact .error hdep hpull
    · rename_i hpull
      split at h
      · rename_i hgt
        cases h
        exact .changed hdep hpull hgt
      · rename_i hle
        exact .unchanged hdep hpull (Nat.le_of_not_lt hle) (walks h)

/-- The walk of `verify`, in a frame that takes no edges. -/
def WalksOf (P : Puller) (id : Nat) (e : Engine) : Except Cancelled Bool → Engine → Prop :=
  Walks P (e.db.row id).verified_at (e.db.row id).dep_start (e.db.row id).dep_len 0
    ⟨e.db.push ⟨id, [], false⟩, e.calls⟩

inductive Verifies (P : Puller) (id : Nat) (e : Engine) : Except Cancelled Bool → Engine → Prop
  | empty (hv : (e.db.row id).state ≠ .valid) : Verifies P id e (.ok false) e
  | error {c e1} (hv : (e.db.row id).state = .valid) (hwalk : WalksOf P id e (.error c) e1) :
    Verifies P id e (.error c) ⟨e1.db.pop, e1.calls⟩
  | red {f e1} (hv : (e.db.row id).state = .valid) (hwalk : WalksOf P id e (.ok true) e1) :
    Verifies P id e (.ok false) ⟨e1.db.pop.charge f, e1.calls⟩
  | green {f e1} (hv : (e.db.row id).state = .valid) (hwalk : WalksOf P id e (.ok false) e1) :
    Verifies P id e (.ok true) ⟨(e1.db.pop.set_row id
      { e1.db.pop.row id with verified_at := e1.db.pop.rev }).charge f, e1.calls⟩

theorem verifies {r : Except Cancelled Bool} (h : verify P id e = .ok (r, e')) :
    Verifies P id e r e' := by
  unfold verify at h
  dsimp only at h
  split at h
  · rename_i hv
    cases h
    exact .empty hv
  rename_i hv
  have hv : (e.db.row id).state = .valid := not_not.mp hv
  split at h
  · cases h
  all_goals
    rename_i hwalk
    cases h
  · exact .error hv (walks hwalk)
  · exact .red hv (walks hwalk)
  · exact .green hv (walks hwalk)

/-! ## Execution -/

variable [Ids] {q : Queries}

/-- A computation, in a frame that takes its edges. -/
def Computes (q : Queries) (P : Puller) (key : QueryKey) (id : Nat) (e : Engine) (out : Outcome)
    (e1 : Engine) : Prop :=
  run_tree P (q.compute key) ⟨e.db.push ⟨id, [], true⟩,
    .compute key (e.db.push ⟨id, [], true⟩) :: e.calls⟩ = .ok (out, e1)

inductive Executes (q : Queries) (P : Puller) (key : QueryKey) (id : Nat) (e : Engine) :
    Except Cancelled Answer → Engine → Prop
  | cancelled {f e1} (hrun : Computes q P key id e .cancelled e1) :
    Executes q P key id e (.error .cancelled) ⟨e1.db.pop.charge f, e1.calls⟩
  | value {v e1 frame rest} (hrun : Computes q P key id e (.value v) e1)
    (hstack : e1.db.stack = frame :: rest) :
    Executes q P key id e (.ok ((e1.db.pop.commit key id frame.deps v).answer id))
      ⟨e1.db.pop.commit key id frame.deps v, e1.calls⟩

theorem executes {r : Except Cancelled Answer} (h : execute q P key id e = .ok (r, e')) :
    Executes q P key id e r e' := by
  unfold execute at h
  dsimp only at h
  split at h
  · cases h
  rename_i hrun
  split at h
  · cases h
  rename_i hstack
  split at h
  · cases h
    exact .cancelled hrun
  · cases h
    exact .value hrun hstack

/-! ## `pull` and `is_red` -/

/-- A node that is not answered at once is verified, and executed when it is red. -/
inductive Opened (q : Queries) (P : Puller) (key : QueryKey) (id : Nat) (e : Engine) :
    Except Cancelled Answer → Engine → Prop
  | error {c e1} (hver : verify P id e = .ok (.error c, e1)) : Opened q P key id e (.error c) e1
  | green {e1} (hver : verify P id e = .ok (.ok true, e1)) :
    Opened q P key id e (.ok (e1.db.answer id)) e1
  | red {e1 r e'} (hver : verify P id e = .ok (.ok false, e1))
    (hexec : Executes q P key id e1 r e') : Opened q P key id e r e'

inductive Resolves (q : Queries) (P : Puller) (key : QueryKey) (id : Nat) (e : Engine) :
    Except Cancelled Answer → Engine → Prop
  | known {f} (hclosed : ¬ e.db.Open id) :
    Resolves q P key id e (.ok (e.db.answer id)) ⟨e.db.charge f, e.calls⟩
  | cycle {f} (ho : e.db.Open id) (hfl : id ∈ e.db.flight) :
    Resolves q P key id e (.ok ⟨q.on_cycle key (e.db.cycle_report id key), e.db.rev⟩)
      ⟨e.db.charge f, .on_cycle key (e.db.cycle_report id key) :: e.calls⟩
  | opened {r e'} (ho : e.db.Open id) (hfl : id ∉ e.db.flight)
    (hopened : Opened q P key id e r e') : Resolves q P key id e r e'

theorem resolves {r : Except Cancelled Answer} (h : resolve q P key id e = .ok (r, e')) :
    Resolves q P key id e r e' := by
  unfold resolve at h
  dsimp only at h
  split at h
  · rename_i hin
    split at h
    · cases h
      exact .known fun ho => by simp [ho.1] at hin
    · cases h
  rename_i hin
  split at h
  · rename_i hup
    cases h
    exact .known fun ho => ho.2 hup
  rename_i hup
  have ho : e.db.Open id := ⟨(Bool.not_eq_true _).mp hin, hup⟩
  split at h
  · rename_i hfl
    cases h
    exact .cycle ho (Db.in_flight_iff.mp hfl)
  rename_i hfl
  rw [Db.in_flight_iff] at hfl
  split at h
  · cases h
  · rename_i hver
    cases h
    exact .opened ho hfl (.error hver)
  · rename_i hver
    cases h
    exact .opened ho hfl (.green hver)
  · rename_i hver
    exact .opened ho hfl (.red hver (executes h))

inductive Pulls (q : Queries) (P : Puller) (key : QueryKey) (attributed : Bool) (e : Engine) :
    Except Cancelled Answer → Engine → Prop
  | cancelled {f} (hset : e.db.is_cancelled = true) :
    Pulls q P key attributed e (.error .cancelled) ⟨e.db.polled.charge f, e.calls⟩
  | probed {id db r e'} (hset : e.db.is_cancelled = false)
    (hprobe : e.db.polled.probe key attributed = (id, db))
    (hres : Resolves q P key id ⟨db, e.calls⟩ r e') : Pulls q P key attributed e r e'

theorem pulls {attributed : Bool} {r : Except Cancelled Answer}
    (h : pull_body q P key attributed e = .ok (r, e')) : Pulls q P key attributed e r e' := by
  unfold pull_body at h
  dsimp only at h
  split at h
  · rename_i hset
    cases h
    exact .cancelled hset
  · rename_i hset
    exact .probed ((Bool.not_eq_true _).mp hset) rfl (resolves h)

/-- `is_red` verifies the node when it is open and not in flight. -/
inductive Reddens (q : Queries) (fuel : Nat) (key : QueryKey) (e : Engine) :
    Except Cancelled Bool → Engine → Prop
  | cancelled {f} (hset : e.db.is_cancelled = true) :
    Reddens q fuel key e (.error .cancelled) ⟨e.db.polled.charge f, e.calls⟩
  | known {f id db} (hprobe : e.db.polled.probe key false = (id, db))
    (hclosed : ¬ db.Open id ∨ id ∈ db.flight) :
    Reddens q fuel key e (.ok false) ⟨db.charge f, e.calls⟩
  | walked {id db r e'} (hprobe : e.db.polled.probe key false = (id, db)) (ho : db.Open id)
    (hfl : id ∉ db.flight) (hver : verify (pull q fuel) id ⟨db, e.calls⟩ = .ok (r, e')) :
    Reddens q fuel key e (r.map (!·)) e'

theorem reddens {r : Except Cancelled Bool} (h : is_red q fuel key e = .ok (r, e')) :
    Reddens q fuel key e r e' := by
  unfold is_red at h
  dsimp only at h
  split at h
  · rename_i hset
    cases h
    exact .cancelled hset
  obtain ⟨id, db, hprobe⟩ : ∃ id db, e.db.polled.probe key false = (id, db) := ⟨_, _, rfl⟩
  rw [hprobe] at h
  dsimp only at h
  split at h
  · rename_i hin
    cases h
    exact .known (f := fun s => s) hprobe (.inl fun ho => by simp [ho.1] at hin)
  rename_i hin
  split at h
  · rename_i hup
    cases h
    exact .known hprobe (.inl fun ho => ho.2 hup)
  rename_i hup
  split at h
  · rename_i hfl
    cases h
    exact .known (f := fun s => s) hprobe (.inr (Db.in_flight_iff.mp hfl))
  rename_i hfl
  rw [Db.in_flight_iff] at hfl
  have ho : db.Open id := ⟨(Bool.not_eq_true _).mp hin, hup⟩
  split at h
  · cases h
  · rename_i hver
    cases h
    exact .walked hprobe ho hfl hver
  · rename_i hver
    cases h
    exact .walked hprobe ho hfl hver

/-! ## Runs -/

inductive Runs (q : Queries) (fuel : Nat) : List Op → Engine → List Event → Engine → Prop
  | nil {e : Engine} : Runs q fuel [] e [] e
  | cons {op ops reply e1 events} {e e' : Engine} (hstep : step q fuel op e = .ok (reply, e1))
    (hrest : Runs q fuel ops e1 events e') : Runs q fuel (op :: ops) e (⟨op, e, reply⟩ :: events) e'

theorem runs : ∀ {ops : List Op} {e : Engine} {events : List Event},
    run q fuel ops e = .ok (events, e') → Runs q fuel ops e events e'
  | [], _, _, h => by
    cases h
    exact .nil
  | op :: ops, e, events, h => by
    unfold run at h
    split at h
    · cases h
    rename_i hstep
    split at h
    · cases h
    rename_i hrest
    cases h
    exact .cons hstep (runs hrest)

end Fors.Query
