import Fors.Interp.Record

/-!
# Replays

A run that is replayed from its own log is served the same responses, unless its monotonic clock
ran into the largest word. A run that asks for anything else ends in an error.

Principal result: `replay_exact`.
-/

namespace Fors.Interp

open Words List

/-- A request, with what a real read finds. -/
inductive Request where
  | clock_mono (real : UInt64)
  | clock_wall (real : Int64)
  | entropy_u64 (real : Except OracleError UInt64)

namespace Request

def kind : Request → String
  | .clock_mono _ => "mono"
  | .clock_wall _ => "wall"
  | .entropy_u64 _ => "entropy"

/-- The response, as it is logged. -/
def serve (o : Oracle) : Request → Except OracleError HostEvent × Oracle
  | .clock_mono real =>
    let (v, o) := o.clock_mono real
    (v.map .Mono, o)
  | .clock_wall real =>
    let (v, o) := o.clock_wall real
    (v.map .Wall, o)
  | .entropy_u64 real =>
    let (v, o) := o.entropy_u64 real
    (v.map .Entropy, o)

/-- What a live oracle responds. -/
def reading (last_mono : Option UInt64) : Request → Except OracleError HostEvent
  | .clock_mono real => .ok (.Mono (Oracle.after last_mono real))
  | .clock_wall real => .ok (.Wall real)
  | .entropy_u64 real => real.map .Entropy

/-- The real monotonic reading. -/
def mono : Request → Option UInt64
  | .clock_mono real => some real
  | _ => none

end Request

/-- Requests one after another, up to the first error. -/
def run : List Request → Oracle → Except OracleError (List HostEvent × Oracle)
  | [], o => .ok ([], o)
  | r :: reqs, o =>
    match r.serve o with
    | (.error e, _) => .error e
    | (.ok ev, o) => do
      let (evs, o) ← run reqs o
      .ok (ev :: evs, o)

/-- A run from a record, with the check at its end. -/
def replay_run (record : ByteArray) (reqs : List Request) :
    Except OracleError (List HostEvent × Oracle) := do
  let o ← Oracle.replay record
  let (evs, o) ← run reqs o
  o.finish
  .ok (evs, o)

variable {o o' : Oracle} {r : Request} {reqs : List Request} {ev : HostEvent}
  {evs events : List HostEvent} {at_ : Nat}

/-! ## One request -/

/-- A live response is logged. -/
theorem serve_live (hmode : o.mode = .Live) (h : r.serve o = (.ok ev, o')) :
    r.reading o.last_mono = .ok ev ∧ o'.mode = .Live ∧ o'.log = o.log ++ [ev] ∧
      o'.last_mono = ev.mono.or o.last_mono := by
  cases r with
  | clock_mono real =>
    simp only [Request.serve, Oracle.clock_mono, Oracle.next_replayed, Oracle.real_read, hmode,
      Except.map] at h
    obtain ⟨hev, rfl⟩ := Prod.mk.inj h
    cases hev
    exact ⟨rfl, rfl, rfl, rfl⟩
  | clock_wall real =>
    simp only [Request.serve, Oracle.clock_wall, Oracle.next_replayed, Oracle.real_read, hmode,
      Except.map] at h
    obtain ⟨hev, rfl⟩ := Prod.mk.inj h
    cases hev
    exact ⟨rfl, rfl, rfl, rfl⟩
  | entropy_u64 real =>
    cases real with
    | error e =>
      simp [Request.serve, Oracle.entropy_u64, Oracle.next_replayed, Oracle.real_read, hmode,
        Except.map] at h
    | ok v =>
      simp only [Request.serve, Oracle.entropy_u64, Oracle.next_replayed, Oracle.real_read, hmode,
        Except.map] at h
      obtain ⟨hev, rfl⟩ := Prod.mk.inj h
      cases hev
      exact ⟨rfl, rfl, rfl, rfl⟩

/-- A replayed response of the kind that is asked for. -/
theorem serve_replay (hmode : o.mode = .Replay events at_) (hev : events[at_]? = some ev)
    (hkind : ev.kind = r.kind) :
    ∃ o', r.serve o = (.ok ev, o') ∧ o'.mode = .Replay events (at_ + 1) ∧
      o'.log = o.log ++ [ev] ∧ o'.counters.live_reads = o.counters.live_reads := by
  cases r with
  | clock_mono real =>
    cases ev with
    | Mono v =>
      simp [Request.serve, Oracle.clock_mono, Oracle.next_replayed, hmode, hev, HostEvent.kind,
        HostEvent.bits, Except.map]
    | Wall v => simp [HostEvent.kind, Request.kind] at hkind
    | Entropy v => simp [HostEvent.kind, Request.kind] at hkind
  | clock_wall real =>
    cases ev with
    | Mono v => simp [HostEvent.kind, Request.kind] at hkind
    | Wall v =>
      simp [Request.serve, Oracle.clock_wall, Oracle.next_replayed, hmode, hev, HostEvent.kind,
        HostEvent.bits, Except.map]
    | Entropy v => simp [HostEvent.kind, Request.kind] at hkind
  | entropy_u64 real =>
    cases ev with
    | Mono v => simp [HostEvent.kind, Request.kind] at hkind
    | Wall v => simp [HostEvent.kind, Request.kind] at hkind
    | Entropy v =>
      simp [Request.serve, Oracle.entropy_u64, Oracle.next_replayed, hmode, hev, HostEvent.kind,
        HostEvent.bits, Except.map]

/-- A replay that is asked for another kind leaves its position. -/
theorem serve_mismatch (hmode : o.mode = .Replay events at_) (hev : events[at_]? = some ev)
    (hkind : ev.kind ≠ r.kind) :
    ∃ o', r.serve o = (.error (.Mismatch at_ ev.kind r.kind), o') ∧ o'.mode = o.mode := by
  have hne : ¬ ev.kind = r.kind := hkind
  cases r <;> simp only [Request.kind] at hne ⊢ <;>
    simp [Request.serve, Oracle.clock_mono, Oracle.clock_wall, Oracle.entropy_u64,
      Oracle.next_replayed, hmode, hev, hne, Except.map]

/-- A replay that is asked for more leaves its position. -/
theorem serve_exhausted (hmode : o.mode = .Replay events at_) (hev : events[at_]? = none) :
    ∃ o', r.serve o = (.error (.Exhausted at_ r.kind), o') ∧ o'.mode = o.mode := by
  cases r <;> simp only [Request.kind] <;>
    simp [Request.serve, Oracle.clock_mono, Oracle.clock_wall, Oracle.entropy_u64,
      Oracle.next_replayed, hmode, hev, Except.map]

/-! ## Runs -/

theorem run_cons (r : Request) (reqs : List Request) (o : Oracle) :
    run (r :: reqs) o = .ok (evs, o') ↔ ∃ ev o1 rest, r.serve o = (.ok ev, o1) ∧
      run reqs o1 = .ok (rest, o') ∧ evs = ev :: rest := by
  rw [run]
  cases hserve : r.serve o with
  | mk res o1 =>
    cases res with
    | error e => simp
    | ok ev =>
      simp only
      cases hrest : run reqs o1 with
      | error e => simp [bind, Except.bind, hrest]
      | ok p =>
        obtain ⟨rest, o2⟩ := p
        simp [bind, Except.bind, hrest, eq_comm, and_comm]

/-- The monotonic responses of a live run. -/
def served : Option UInt64 → List UInt64 → List UInt64
  | _, [] => []
  | last_mono, real :: reals =>
    Oracle.after last_mono real :: served (some (Oracle.after last_mono real)) reals

/-- A live run logs its responses. -/
theorem run_live (hmode : o.mode = .Live) (h : run reqs o = .ok (evs, o')) :
    o'.log = o.log ++ evs ∧ evs.map HostEvent.kind = reqs.map Request.kind ∧
      evs.filterMap HostEvent.mono = served o.last_mono (reqs.filterMap Request.mono) := by
  induction reqs generalizing o evs with
  | nil =>
    cases h
    exact ⟨(append_nil _).symm, rfl, rfl⟩
  | cons r reqs ih =>
    obtain ⟨ev, o1, rest, hserve, hrest, rfl⟩ := (run_cons r reqs o).mp h
    obtain ⟨hreading, hmode1, hlog, hlast⟩ := serve_live hmode hserve
    obtain ⟨hlog', hkinds, hmono⟩ := ih hmode1 hrest
    refine ⟨by rw [hlog', hlog, append_assoc]; rfl, ?_⟩
    cases r with
    | clock_mono real =>
      cases hreading
      rw [hlast] at hmono
      exact ⟨congrArg (_ :: ·) hkinds, congrArg (_ :: ·) hmono⟩
    | clock_wall real =>
      cases hreading
      rw [hlast] at hmono
      exact ⟨congrArg (_ :: ·) hkinds, hmono⟩
    | entropy_u64 real =>
      cases real with
      | error e => exact nomatch hreading
      | ok v =>
        cases hreading
        rw [hlast] at hmono
        exact ⟨congrArg (_ :: ·) hkinds, hmono⟩

/-- A replay serves what is logged, to requests of the logged kinds. -/
theorem run_replay {done : List HostEvent} (hmode : o.mode = .Replay (done ++ evs) done.length)
    (hkinds : reqs.map Request.kind = evs.map HostEvent.kind) :
    ∃ o', run reqs o = .ok (evs, o') ∧ o'.mode = .Replay (done ++ evs) (done ++ evs).length ∧
      o'.log = o.log ++ evs ∧ o'.counters.live_reads = o.counters.live_reads := by
  induction reqs generalizing o evs done with
  | nil =>
    obtain rfl := map_eq_nil_iff.mp hkinds.symm
    exact ⟨o, rfl, by simpa using hmode, (append_nil _).symm, rfl⟩
  | cons r reqs ih =>
    cases evs with
    | nil => exact nomatch hkinds
    | cons ev evs =>
      obtain ⟨hkind, hkinds⟩ := cons.inj hkinds
      have hev : (done ++ ev :: evs)[done.length]? = some ev := by simp
      have happend : done ++ ev :: evs = (done ++ [ev]) ++ evs := by simp
      have hlen : done.length + 1 = (done ++ [ev]).length := by simp
      obtain ⟨o1, hserve, hmode1, hlog, hreads⟩ := serve_replay hmode hev hkind.symm
      rw [happend, hlen] at hmode1
      rw [happend]
      obtain ⟨o', hrest, hmode', hlog', hreads'⟩ := ih hmode1 hkinds
      refine ⟨o', ?_, hmode', by rw [hlog', hlog, append_assoc]; rfl, hreads'.trans hreads⟩
      exact (run_cons r reqs o).mpr ⟨ev, o1, evs, hserve, hrest, rfl⟩

/-- The errors of a run that asks for something else than was recorded. -/
def Diverged : OracleError → Prop
  | .Mismatch _ _ _ | .Exhausted _ _ | .Unconsumed _ _ => True
  | _ => False

/-- A replay that is asked for something else fails, or leaves responses behind. -/
theorem run_diverges {done : List HostEvent} (hmode : o.mode = .Replay (done ++ evs) done.length)
    (hkinds : reqs.map Request.kind ≠ evs.map HostEvent.kind) :
    (∃ e, run reqs o = .error e ∧ Diverged e) ∨
      ∃ out o' k, run reqs o = .ok (out, o') ∧ o'.mode = .Replay (done ++ evs) k ∧
        k ≠ (done ++ evs).length := by
  induction reqs generalizing o evs done with
  | nil =>
    cases evs with
    | nil => exact absurd rfl hkinds
    | cons ev evs => exact .inr ⟨[], o, done.length, rfl, hmode, by simp⟩
  | cons r reqs ih =>
    cases evs with
    | nil =>
      obtain ⟨o1, hserve, -⟩ := serve_exhausted hmode (r := r) (by simp)
      exact .inl ⟨.Exhausted _ _, by rw [run, hserve], trivial⟩
    | cons ev evs =>
      have hev : (done ++ ev :: evs)[done.length]? = some ev := by simp
      have happend : done ++ ev :: evs = (done ++ [ev]) ++ evs := by simp
      have hlen : done.length + 1 = (done ++ [ev]).length := by simp
      by_cases hkind : ev.kind = r.kind
      · obtain ⟨o1, hserve, hmode1, -, -⟩ := serve_replay hmode hev hkind
        have hrest : reqs.map Request.kind ≠ evs.map HostEvent.kind := by
          intro h
          exact hkinds (by rw [map_cons, map_cons, hkind, h])
        rw [happend, hlen] at hmode1
        rw [happend, run, hserve]
        obtain ⟨e, hrun, hdiv⟩ | ⟨out, o', k, hrun, hmode', hk⟩ := ih hmode1 hrest
        · exact .inl ⟨e, by simp [hrun, bind, Except.bind], hdiv⟩
        · exact .inr ⟨ev :: out, o', k, by simp [hrun, bind, Except.bind], hmode', hk⟩
      · obtain ⟨o1, hserve, -⟩ := serve_mismatch hmode hev hkind
        exact .inl ⟨.Mismatch _ _ _, by rw [run, hserve], trivial⟩

/-! ## The clock at its end -/

/-- A reading and the number of monotonic requests after it stay within the largest word. -/
def Room : List UInt64 → Prop
  | [] => True
  | real :: reals => real.toNat + reals.length ≤ U64_MAX.toNat ∧ Room reals

theorem toNat_after_some (prev real : UInt64) :
    (Oracle.after (some prev) real).toNat =
      max real.toNat (min (prev.toNat + 1) U64_MAX.toNat) := by
  change (max real (saturating_add prev 1)).toNat = _
  rw [toNat_max, toNat_saturating_add]
  rfl

/-- The responses increase when the readings leave room. -/
theorem isChain_served (last_mono : Option UInt64) (reals : List UInt64) :
    (last_mono.toList ++ served last_mono reals).IsChain (· < ·) ↔
      (∀ prev, last_mono = some prev → prev.toNat + reals.length ≤ U64_MAX.toNat) ∧
        Room reals := by
  have hmax := max_word
  induction reals generalizing last_mono with
  | nil =>
    refine iff_of_true ?_ ⟨fun prev _ => ?_, trivial⟩
    · cases last_mono <;> simp [served]
    · have := prev.toNat_lt
      rw [length_nil]
      omega
  | cons real reals ih =>
    have hrest := ih (some (Oracle.after last_mono real))
    simp only [Option.toList_some, singleton_append, Option.some.injEq, forall_eq'] at hrest
    rw [served, Room, length_cons]
    cases last_mono with
    | none =>
      rw [Option.toList_none, nil_append]
      exact hrest.trans (and_iff_right nofun).symm
    | some prev =>
      have hafter := toNat_after_some prev real
      have hlt := real.toNat_lt
      rw [Option.toList_some, singleton_append, isChain_cons_cons,
        UInt64.lt_iff_toNat_lt]
      refine (and_congr_right fun _ => hrest).trans ?_
      simp only [Option.some.injEq, forall_eq']
      rw [hafter]
      constructor
      · rintro ⟨hgreater, hlast, hroom⟩
        exact ⟨by omega, by omega, hroom⟩
      · rintro ⟨hlast, hreal, hroom⟩
        exact ⟨by omega, by omega, hroom⟩

/-! ## Replays -/

/-- What replaying the log of a live run does: the same responses to the same requests, without
a real read, and the same log. -/
def Replays (o : Oracle) (evs : List HostEvent) : Prop :=
  ∀ reqs : List Request, reqs.map Request.kind = evs.map HostEvent.kind →
    ∃ o', replay_run o.log_bytes reqs = .ok (evs, o') ∧ o'.counters.live_reads = 0 ∧
      o'.log_bytes = o.log_bytes

variable {record : ByteArray}

theorem replay_eq_ok (h : parse_record record = .ok events) :
    Oracle.replay record = .ok (.replay_events events) := by
  rw [Oracle.replay, h]
  rfl

theorem replay_diverges (h : parse_record record = .ok events)
    (hkinds : reqs.map Request.kind ≠ events.map HostEvent.kind) :
    ∃ e, replay_run record reqs = .error e ∧ Diverged e := by
  rw [replay_run, replay_eq_ok h]
  have hmode : (Oracle.replay_events events).mode =
      .Replay ([] ++ events) ([] : List HostEvent).length :=
    rfl
  obtain ⟨e, hrun, hdiv⟩ | ⟨out, o', k, hrun, hmode', hk⟩ := run_diverges hmode hkinds
  · exact ⟨e, by simp [bind, Except.bind, hrun], hdiv⟩
  · have hne : ¬ k = events.length := hk
    refine ⟨.Unconsumed k events.length, ?_, trivial⟩
    simp [bind, Except.bind, hrun, Oracle.finish, hmode', hne]

theorem replay_serves (h : parse_record record = .ok events)
    (hkinds : reqs.map Request.kind = events.map HostEvent.kind) :
    ∃ o', replay_run record reqs = .ok (events, o') ∧ o'.counters.live_reads = 0 ∧
      o'.log = events := by
  have hmode : (Oracle.replay_events events).mode =
      .Replay ([] ++ events) ([] : List HostEvent).length := rfl
  obtain ⟨o', hrun, hmode', hlog, hreads⟩ := run_replay hmode hkinds
  refine ⟨o', ?_, hreads, hlog⟩
  rw [replay_run, replay_eq_ok h]
  simp [bind, Except.bind, hrun, Oracle.finish, hmode']

theorem replays_iff_room (h : run reqs .live = .ok (evs, o)) :
    Replays o evs ↔ Room (reqs.filterMap Request.mono) := by
  obtain ⟨hlog, hkinds, hmono⟩ := run_live rfl h
  have hlog : o.log = evs := hlog
  change _ = served none _ at hmono
  have hinc : Increasing none evs ↔ Room (reqs.filterMap Request.mono) := by
    have hchain := isChain_served none (reqs.filterMap Request.mono)
    rw [← hmono] at hchain
    exact hchain.trans (and_iff_right nofun)
  rw [← hinc]
  constructor
  · intro hreplays
    obtain ⟨o', hrun, -, -⟩ := hreplays reqs hkinds.symm
    cases hparse : parse_record o.log_bytes with
    | error e => simp [replay_run, Oracle.replay, hparse, bind, Except.bind] at hrun
    | ok events =>
      by_cases heq : reqs.map Request.kind = events.map HostEvent.kind
      · obtain ⟨o1, hrun1, -, -⟩ := replay_serves hparse heq
        rw [hrun1] at hrun
        obtain ⟨rfl, -⟩ := Prod.mk.inj (Except.ok.inj hrun)
        exact (parse_record_eq_ok.mp hparse).2
      · obtain ⟨e, herr, -⟩ := replay_diverges hparse heq
        rw [herr] at hrun
        exact nomatch hrun
  · intro hinc reqs' hkinds'
    have hparse : parse_record o.log_bytes = .ok evs :=
      parse_record_eq_ok.mpr ⟨by rw [Oracle.log_bytes, hlog], hinc⟩
    obtain ⟨o', hrun, hreads, hlog'⟩ := replay_serves hparse hkinds'
    exact ⟨o', hrun, hreads, by rw [Oracle.log_bytes, Oracle.log_bytes, hlog', hlog]⟩

/-- A live run replays exactly when its clock leaves room. What is accepted is the log of its
events, and a run that asks for anything else ends in an error. -/
theorem replay_exact (reqs : List Request) (record : ByteArray) :
    (∀ evs o, run reqs .live = .ok (evs, o) →
      (Replays o evs ↔ Room (reqs.filterMap Request.mono))) ∧
    ∀ events, parse_record record = .ok events → record = record_bytes events ∧
      (reqs.map Request.kind ≠ events.map HostEvent.kind →
        ∃ e, replay_run record reqs = .error e ∧ Diverged e) := by
  constructor
  · intro evs o h
    exact replays_iff_room h
  · intro events h
    exact ⟨(parse_record_eq_ok.mp h).1, fun hkinds => replay_diverges h hkinds⟩

/-- A clock that goes backwards, a time before the epoch, and a draw. -/
theorem replay_exact_backwards :
    run [.clock_mono 7, .clock_wall (-1), .clock_mono 3, .entropy_u64 (.ok 255)] .live =
      .ok ([.Mono 7, .Wall (-1), .Mono 8, .Entropy 255],
        ⟨.Live, [.Mono 7, .Wall (-1), .Mono 8, .Entropy 255], some 8, ⟨3, 1, 4⟩⟩) ∧
    Replays ⟨.Live, [.Mono 7, .Wall (-1), .Mono 8, .Entropy 255], some 8, ⟨3, 1, 4⟩⟩
      [.Mono 7, .Wall (-1), .Mono 8, .Entropy 255] := by
  have hrun : run [.clock_mono 7, .clock_wall (-1), .clock_mono 3, .entropy_u64 (.ok 255)] .live =
      .ok ([.Mono 7, .Wall (-1), .Mono 8, .Entropy 255],
        ⟨.Live, [.Mono 7, .Wall (-1), .Mono 8, .Entropy 255], some 8, ⟨3, 1, 4⟩⟩) := rfl
  refine ⟨hrun, ((replay_exact _ .empty).1 _ _ hrun).mpr ?_⟩
  change Room [7, 3]
  simp [Room, U64_MAX]

/-- Three readings just below the largest word: the last two responses are equal. -/
theorem clock_at_end :
    ¬ ∀ reqs evs o, run reqs .live = .ok (evs, o) →
      (∀ real ∈ reqs.filterMap Request.mono, real < U64_MAX) → Replays o evs := by
  intro h
  have hrun : run [.clock_mono (U64_MAX - 1), .clock_mono (U64_MAX - 1),
      .clock_mono (U64_MAX - 1)] .live = .ok ([.Mono (U64_MAX - 1), .Mono U64_MAX, .Mono U64_MAX],
        ⟨.Live, [.Mono (U64_MAX - 1), .Mono U64_MAX, .Mono U64_MAX], some U64_MAX, ⟨3, 0, 3⟩⟩) :=
    rfl
  have hbelow : ∀ real ∈ [U64_MAX - 1, U64_MAX - 1, U64_MAX - 1], real < U64_MAX := by
    simp [U64_MAX]
  have hroom := (replays_iff_room hrun).mp (h _ _ _ hrun hbelow)
  change Room [U64_MAX - 1, U64_MAX - 1, U64_MAX - 1] at hroom
  simp [Room, U64_MAX] at hroom

end Fors.Interp
