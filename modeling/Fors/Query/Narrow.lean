import Fors.Query.Calls

/-!
# Ids of 32 bits

`Nodes::push`, `execute` and `compact` of `db.rs` keep a length as `len() as u32`.  As long as the
tables a call leaves behind fit (`Db.Fits`), no length was cut on the way: the call does what the
engine without a bound does.

Principal results: `demand_agrees`, `is_red_agrees` and `run_agrees`, for any two engines whose ids
are exact below `2 ^ 32` (`Ids.Exact`), in either direction.
-/

namespace Fors.Query

open List

/-- A length below `2 ^ 32` is kept as it is. -/
def Ids.Exact (ids : Ids) : Prop :=
  ∀ n < 2 ^ 32, ids.of_len n = n

theorem Ids.exact_u32 : Ids.u32.Exact :=
  fun _ => Words.as_u32_eq

theorem Ids.exact_wide : Ids.wide.Exact :=
  fun _ _ => rfl

/-- Every node has an id of its own, and every place in the arena is told apart. -/
structure Db.Fits (db : Db) : Prop where
  nodes : db.nodes.length ≤ 2 ^ 32
  deps : db.deps.length < 2 ^ 32

instance (db : Db) : Decidable db.Fits :=
  decidable_of_iff (db.nodes.length ≤ 2 ^ 32 ∧ db.deps.length < 2 ^ 32)
    ⟨fun h => ⟨h.1, h.2⟩, fun h => ⟨h.nodes, h.deps⟩⟩

/-- Every engine of a run fits. -/
def Fit (events : List Event) (e : Engine) : Prop :=
  (∀ ev ∈ events, ev.before.db.Fits) ∧ e.db.Fits

instance (events : List Event) (e : Engine) : Decidable (Fit events e) :=
  inferInstanceAs (Decidable (_ ∧ _))

/-- A call ends with `r` in the engine `e'` where ids have no bound, and in the source, too, as long
as that engine fits. -/
def Yields {α : Type} (call : Ids → Except Stop (α × Engine)) (r : α) (e' : Engine) : Prop :=
  call .wide = .ok (r, e') ∧ (e'.db.Fits → call .u32 = .ok (r, e'))

/-- A call that ends in an engine that fits was made on one, and the other call ends the same way. -/
def Agrees {α : Type} (e : Engine) (x y : Except Stop (α × Engine)) : Prop :=
  ∀ ⦃r e'⦄, x = .ok (r, e') → e'.db.Fits → e.db.Fits ∧ y = .ok (r, e')

theorem Agrees.yields {α : Type} {call : Ids → Except Stop (α × Engine)} {e e' : Engine} {r : α}
    (h : Agrees e (call .wide) (call .u32)) (hcall : call .wide = .ok (r, e')) : Yields call r e' :=
  ⟨hcall, fun hfits => (h hcall hfits).2⟩

theorem Db.fits_attribute_to {db : Db} {id : Nat} (h : (db.attribute_to id).Fits) : db.Fits := by
  unfold attribute_to at h
  split at h
  · exact h
  · split at h
    · exact ⟨h.nodes, h.deps⟩
    · exact h

theorem Db.fits_set_row {db : Db} {i : Nat} {n : Node} (h : (db.set_row i n).Fits) : db.Fits :=
  ⟨(length_set ..).symm.trans_le h.nodes, h.deps⟩

section

variable {a b : Ids} (ha : a.Exact) (hb : b.Exact)
include ha hb

variable {db : Db} {key : QueryKey}

theorem intern_agrees (h : (@Db.intern a db key).2.Fits) :
    db.Fits ∧ @Db.intern b db key = @Db.intern a db key := by
  unfold Db.intern at h ⊢
  split at h
  · exact ⟨h, rfl⟩
  · have hlen := h.nodes
    rw [length_append, length_singleton] at hlen
    dsimp only
    rw [ha _ hlen, hb _ hlen]
    exact ⟨⟨Nat.le_of_succ_le hlen, h.deps⟩, rfl⟩

theorem set_input_agrees {db' : Db} {v : ValueHash} {changed : Bool}
    (hset : @Db.set_input a db key v = .ok (changed, db')) (h : db'.Fits) :
    @Db.set_input b db key v = .ok (changed, db') := by
  have hinterned : (@Db.intern a db key).2.Fits := by
    unfold Db.set_input at hset
    dsimp only at hset
    split at hset
    · cases hset
    split at hset
    · cases hset
      exact Db.fits_set_row h
    · cases hset
      exact Db.fits_set_row ⟨h.nodes, h.deps⟩
  unfold Db.set_input at hset ⊢
  rw [(intern_agrees ha hb hinterned).2]
  exact hset

theorem probe_agrees {attributed : Bool} (h : (@Db.probe a db key attributed).2.Fits) :
    db.Fits ∧ @Db.probe b db key attributed = @Db.probe a db key attributed := by
  have hinterned : (@Db.intern a db key).2.Fits := by
    unfold Db.probe at h
    cases attributed with
    | false => exact ⟨h.nodes, h.deps⟩
    | true =>
      have h := Db.fits_attribute_to h
      exact ⟨h.nodes, h.deps⟩
  obtain ⟨hdb, heq⟩ := intern_agrees ha hb hinterned
  unfold Db.probe
  rw [heq]
  exact ⟨hdb, rfl⟩

theorem commit_agrees {id : Nat} {deps : List Nat} {v : ValueHash}
    (h : (@Db.commit a db key id deps v).Fits) :
    db.Fits ∧ @Db.commit b db key id deps v = @Db.commit a db key id deps v := by
  have hdeps : (db.deps ++ Db.edge_set deps).length < 2 ^ 32 := h.deps
  rw [length_append] at hdeps
  have hnodes : (db.nodes.set id _).length ≤ 2 ^ 32 := h.nodes
  rw [length_set] at hnodes
  have hrow : @Db.executed_row b db id (Db.edge_set deps).length v =
      @Db.executed_row a db id (Db.edge_set deps).length v := by
    unfold Db.executed_row
    rw [ha db.deps.length (by omega), hb db.deps.length (by omega),
      ha (Db.edge_set deps).length (by omega), hb (Db.edge_set deps).length (by omega)]
  refine ⟨⟨hnodes, by omega⟩, ?_⟩
  unfold Db.commit
  dsimp only
  rw [hrow]

theorem compact_rows_agrees {arena : List Nat} : ∀ {ns ns' : List Node} {fresh out : List Nat},
    @Db.compact_rows a arena ns fresh = .ok (ns', out) → out.length < 2 ^ 32 →
    fresh.length < 2 ^ 32 ∧ @Db.compact_rows b arena ns fresh = .ok (ns', out)
  | [], _, _, _, h, hout => by
    cases h
    exact ⟨hout, rfl⟩
  | n :: ns, ns', fresh, out, h, hout => by
    unfold Db.compact_rows at h ⊢
    split at h
    · rename_i hrange
      split at h
      · cases h
      rename_i hrest
      cases h
      obtain ⟨hlen, hrest⟩ := compact_rows_agrees hrest hout
      rw [length_append] at hlen
      have hfresh : fresh.length < 2 ^ 32 := by omega
      rw [if_pos hrange, hrest, ha _ hfresh, hb _ hfresh]
      exact ⟨hfresh, rfl⟩
    · cases h

theorem compact_agrees {db' : Db} (hc : @Db.compact a db = .ok db') (h : db'.Fits) :
    @Db.compact b db = .ok db' := by
  unfold Db.compact at hc ⊢
  split at hc
  · cases hc
  rename_i hstack
  rw [if_neg hstack]
  split at hc
  · cases hc
  rename_i hrows
  cases hc
  rw [(compact_rows_agrees ha hb hrows h.deps).2]

end

/-! ## One level of a pull -/

section

variable {P P' : Puller} (hP : ∀ key attributed e, Agrees e (P key attributed e) (P' key attributed e))
include hP

theorem verify_deps_agrees {verified s : Nat} : ∀ (l j : Nat) (e : Engine),
    Agrees e (verify_deps P verified s l j e) (verify_deps P' verified s l j e)
  | 0, _, _, _, _, h, hfits => by
    cases h
    exact ⟨hfits, rfl⟩
  | l + 1, j, e, r, e', h, hfits => by
    unfold verify_deps at h ⊢
    split at h
    · cases h
    split at h
    · cases h
    · rename_i hpull
      cases h
      obtain ⟨he, hpull⟩ := hP _ _ _ hpull hfits
      exact ⟨he, by rw [hpull]⟩
    · rename_i hpull
      split at h
      · rename_i hgt
        cases h
        obtain ⟨he, hpull⟩ := hP _ _ _ hpull hfits
        rw [hpull]
        exact ⟨he, if_pos hgt⟩
      · rename_i hle
        obtain ⟨he1, hrest⟩ := verify_deps_agrees l (j + 1) _ h hfits
        obtain ⟨he, hpull⟩ := hP _ _ _ hpull he1
        rw [hpull]
        exact ⟨he, (if_neg hle).trans hrest⟩

theorem run_tree_agrees : ∀ (t : ReadTree QueryKey (Except Cancelled ValueHash) Outcome)
    (e : Engine), Agrees e (run_tree P t e) (run_tree P' t e)
  | .done _, _, _, _, h, hfits => by
    cases h
    exact ⟨hfits, rfl⟩
  | .ask key next, e, out, e', h, hfits => by
    unfold run_tree at h ⊢
    split at h
    · cases h
    · rename_i hpull
      obtain ⟨he1, hrest⟩ := run_tree_agrees _ _ h hfits
      obtain ⟨he, hpull⟩ := hP _ _ _ hpull he1
      rw [hpull]
      exact ⟨he, hrest⟩

theorem verify_agrees (id : Nat) (e : Engine) : Agrees e (verify P id e) (verify P' id e) := by
  intro r e' h hfits
  unfold verify at h ⊢
  dsimp only at h ⊢
  split at h
  · rename_i hv
    cases h
    exact ⟨hfits, if_pos hv⟩
  rename_i hv
  rw [if_neg hv]
  have hwalk : ∀ {w e1}, verify_deps P (e.db.row id).verified_at
      (e.db.row id).dep_start (e.db.row id).dep_len 0 { e with db := e.db.push ⟨id, [], false⟩ } =
        .ok (w, e1) → e1.db.Fits →
      e.db.Fits ∧ verify_deps P' (e.db.row id).verified_at (e.db.row id).dep_start
        (e.db.row id).dep_len 0 { e with db := e.db.push ⟨id, [], false⟩ } = .ok (w, e1) := by
    intro w e1 hw he1
    obtain ⟨he, hw'⟩ := verify_deps_agrees hP _ _ _ hw he1
    exact ⟨⟨he.nodes, he.deps⟩, hw'⟩
  split at h
  · cases h
  · rename_i hw
    cases h
    obtain ⟨he, hw'⟩ := hwalk hw ⟨hfits.nodes, hfits.deps⟩
    exact ⟨he, by rw [hw']⟩
  · rename_i hw
    cases h
    obtain ⟨he, hw'⟩ := hwalk hw ⟨hfits.nodes, hfits.deps⟩
    exact ⟨he, by rw [hw']⟩
  · rename_i e1 hw
    cases h
    have hpop : e1.db.pop.Fits := Db.fits_set_row ⟨hfits.nodes, hfits.deps⟩
    obtain ⟨he, hw'⟩ := hwalk hw ⟨hpop.nodes, hpop.deps⟩
    exact ⟨he, by rw [hw']⟩

variable {a b : Ids} (ha : a.Exact) (hb : b.Exact) (q : Queries)
include ha hb

theorem execute_agrees (key : QueryKey) (id : Nat) (e : Engine) :
    Agrees e (@execute a q P key id e) (@execute b q P' key id e) := by
  intro r e' h hfits
  unfold execute at h ⊢
  dsimp only at h ⊢
  split at h
  · cases h
  rename_i out e1 hrun
  split at h
  · cases h
  rename_i frame rest hstack
  have hpush : e1.db.Fits → e.db.Fits ∧ run_tree P' (q.compute key)
      ⟨e.db.push ⟨id, [], true⟩, .compute key (e.db.push ⟨id, [], true⟩) :: e.calls⟩ =
        .ok (out, e1) := by
    intro he1
    obtain ⟨he, hrun'⟩ := run_tree_agrees hP _ _ hrun he1
    exact ⟨⟨he.nodes, he.deps⟩, hrun'⟩
  cases out with
  | cancelled =>
    cases h
    obtain ⟨he, hrun'⟩ := hpush ⟨hfits.nodes, hfits.deps⟩
    rw [hrun']
    simp only [hstack]
    exact ⟨he, trivial⟩
  | value v =>
    cases h
    obtain ⟨hpop, hcommit⟩ := commit_agrees ha hb hfits
    obtain ⟨he, hrun'⟩ := hpush ⟨hpop.nodes, hpop.deps⟩
    rw [hrun']
    simp only [hstack, hcommit]
    exact ⟨he, trivial⟩

theorem resolve_agrees (key : QueryKey) (id : Nat) (e : Engine) :
    Agrees e (@resolve a q P key id e) (@resolve b q P' key id e) := by
  intro r e' h hfits
  unfold resolve at h ⊢
  dsimp only at h ⊢
  split at h
  · rename_i hin
    rw [if_pos hin]
    split at h
    · rename_i hv
      cases h
      exact ⟨⟨hfits.nodes, hfits.deps⟩, if_pos hv⟩
    · cases h
  rename_i hin
  rw [if_neg hin]
  split at h
  · rename_i hup
    cases h
    exact ⟨⟨hfits.nodes, hfits.deps⟩, if_pos hup⟩
  rename_i hup
  rw [if_neg hup]
  split at h
  · rename_i hflight
    cases h
    exact ⟨⟨hfits.nodes, hfits.deps⟩, if_pos hflight⟩
  rename_i hflight
  rw [if_neg hflight]
  split at h
  · cases h
  · rename_i hver
    cases h
    obtain ⟨he, hver⟩ := verify_agrees hP id e hver hfits
    exact ⟨he, by rw [hver]⟩
  · rename_i hver
    cases h
    obtain ⟨he, hver⟩ := verify_agrees hP id e hver hfits
    exact ⟨he, by rw [hver]⟩
  · rename_i hver
    obtain ⟨he1, hexec⟩ := execute_agrees hP ha hb q key id _ h hfits
    obtain ⟨he, hver⟩ := verify_agrees hP id e hver he1
    rw [hver]
    exact ⟨he, hexec⟩

theorem pull_body_agrees (key : QueryKey) (attributed : Bool) (e : Engine) :
    Agrees e (@pull_body a q P key attributed e) (@pull_body b q P' key attributed e) := by
  intro r e' h hfits
  unfold pull_body at h ⊢
  dsimp only at h ⊢
  split at h
  · rename_i hcancelled
    cases h
    exact ⟨⟨hfits.nodes, hfits.deps⟩, if_pos hcancelled⟩
  rename_i hcancelled
  obtain ⟨he1, hres⟩ := resolve_agrees hP ha hb q key _ _ h hfits
  obtain ⟨he, hprobe⟩ := probe_agrees ha hb he1
  rw [if_neg hcancelled, hprobe]
  exact ⟨⟨he.nodes, he.deps⟩, hres⟩

end

/-! ## Whole calls -/

theorem Fit.head {a : Ids} {q : Queries} {fuel : Nat} {ops : List Op} {events : List Event}
    {e e' : Engine} (hrun : @run a q fuel ops e = .ok (events, e')) (h : Fit events e') : e.db.Fits := by
  cases runs hrun with
  | nil => exact h.2
  | cons => exact h.1 _ mem_cons_self

section

variable {a b : Ids} (ha : a.Exact) (hb : b.Exact) (q : Queries)
include ha hb

theorem pull_agrees : ∀ (fuel : Nat) (key : QueryKey) (attributed : Bool) (e : Engine),
    Agrees e (@pull a q fuel key attributed e) (@pull b q fuel key attributed e)
  | 0, _, _, _, _, _, h, _ => by cases h
  | fuel + 1, key, attributed, e, _, _, h, hfits =>
    pull_body_agrees (pull_agrees fuel) ha hb q key attributed e h hfits

theorem demand_agrees (fuel : Nat) (key : QueryKey) (e : Engine) :
    Agrees e (@demand a q fuel key e) (@demand b q fuel key e) := by
  intro r e' h hfits
  unfold demand at h ⊢
  split at h
  · cases h
  · rename_i hpull
    cases h
    obtain ⟨he, hpull⟩ := pull_agrees ha hb q fuel key true e hpull hfits
    exact ⟨he, by rw [hpull]⟩

theorem is_red_agrees (fuel : Nat) (key : QueryKey) (e : Engine) :
    Agrees e (@is_red a q fuel key e) (@is_red b q fuel key e) := by
  intro r e' h hfits
  have hprobe : ∀ {db : Db}, db.Fits → db = (@Db.probe a e.db.polled key false).2 →
      e.db.Fits ∧ @Db.probe b e.db.polled key false = @Db.probe a e.db.polled key false := by
    rintro db hdb rfl
    obtain ⟨he, hprobe⟩ := probe_agrees ha hb hdb
    exact ⟨⟨he.nodes, he.deps⟩, hprobe⟩
  unfold is_red at h ⊢
  dsimp only at h ⊢
  split at h
  · rename_i hcancelled
    cases h
    exact ⟨⟨hfits.nodes, hfits.deps⟩, if_pos hcancelled⟩
  rename_i hcancelled
  rw [if_neg hcancelled]
  split at h
  · rename_i hin
    cases h
    obtain ⟨he, hprobe⟩ := hprobe hfits rfl
    rw [hprobe]
    exact ⟨he, if_pos hin⟩
  rename_i hin
  split at h
  · rename_i hup
    cases h
    obtain ⟨he, hprobe⟩ := @hprobe (@Db.probe a e.db.polled key false).2
      ⟨hfits.nodes, hfits.deps⟩ rfl
    rw [hprobe, if_neg hin]
    exact ⟨he, if_pos hup⟩
  rename_i hup
  split at h
  · rename_i hflight
    cases h
    obtain ⟨he, hprobe⟩ := hprobe hfits rfl
    rw [hprobe, if_neg hin, if_neg hup]
    exact ⟨he, if_pos hflight⟩
  rename_i hflight
  have hverified : ∀ {r e1}, e1.db.Fits → verify (@pull a q fuel)
      (@Db.probe a e.db.polled key false).1 { e with db := (@Db.probe a e.db.polled key false).2 } =
        .ok (r, e1) →
      e.db.Fits ∧ @Db.probe b e.db.polled key false = @Db.probe a e.db.polled key false ∧
        verify (@pull b q fuel) (@Db.probe a e.db.polled key false).1
          { e with db := (@Db.probe a e.db.polled key false).2 } = .ok (r, e1) := by
    intro r e1 he1 hver
    obtain ⟨he, hver⟩ := verify_agrees (pull_agrees ha hb q fuel) _ _ hver he1
    obtain ⟨he, hprobe⟩ := hprobe he rfl
    exact ⟨he, hprobe, hver⟩
  split at h
  · cases h
  · rename_i hver
    cases h
    obtain ⟨he, hprobe, hver⟩ := hverified hfits hver
    rw [hprobe, if_neg hin, if_neg hup, if_neg hflight, hver]
    exact ⟨he, rfl⟩
  · rename_i hver
    cases h
    obtain ⟨he, hprobe, hver⟩ := hverified hfits hver
    rw [hprobe, if_neg hin, if_neg hup, if_neg hflight, hver]
    exact ⟨he, rfl⟩

/-- **The step lemma.** -/
theorem step_agrees {fuel : Nat} {op : Op} {reply : Reply} {e e' : Engine}
    (h : @step a q fuel op e = .ok (reply, e')) (hfits : e'.db.Fits) :
    @step b q fuel op e = .ok (reply, e') := by
  unfold step at h ⊢
  cases op with
  | set_input key value =>
    dsimp only at h ⊢
    split at h
    · cases h
    · rename_i hset
      cases h
      rw [set_input_agrees ha hb hset hfits]
  | demand key =>
    dsimp only at h ⊢
    split at h
    · cases h
    · rename_i hdemand
      cases h
      rw [(demand_agrees ha hb q fuel key e hdemand hfits).2]
  | is_red key =>
    dsimp only at h ⊢
    split at h
    · cases h
    · rename_i hred
      cases h
      rw [(is_red_agrees ha hb q fuel key e hred hfits).2]
  | compact =>
    dsimp only at h ⊢
    split at h
    · cases h
    · rename_i hcompact
      cases h
      rw [compact_agrees ha hb hcompact hfits]
  | open_window => exact h

/-- **The run lemma**: a run all of whose engines fit is a run of the other engine. -/
theorem run_agrees {fuel : Nat} : ∀ {ops : List Op} {events : List Event} {e e' : Engine},
    @run a q fuel ops e = .ok (events, e') → Fit events e' →
      @run b q fuel ops e = .ok (events, e')
  | [], _, _, _, h, _ => h
  | op :: ops, events, e, e', h, hfit => by
    unfold run at h ⊢
    split at h
    · cases h
    rename_i hstep
    split at h
    · cases h
    rename_i hrest
    cases h
    have hfit' : Fit _ e' := ⟨fun ev hev => hfit.1 ev (mem_cons_of_mem _ hev), hfit.2⟩
    rw [step_agrees ha hb q hstep (Fit.head hrest hfit')]
    simp [run_agrees hrest hfit']

end

end Fors.Query
