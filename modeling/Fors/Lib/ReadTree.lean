import Mathlib.Data.List.Basic

/-!
# Computations that read as they go

A `ReadTree K A R` is a deterministic computation that asks for the answer to keys of type `K`, one
after another, and ends with a result of type `R`.  Which key it asks next may depend on every
answer it has seen: the tree branches on the answer.

Two ways to look at one tree:

* against an environment `env : K → A` that answers every key, it has a result (`run`) and the
  list of the keys it asked, in order (`trace`);
* `Asks ok t k` — `t` can ask `k` when every earlier answer was one that `ok` allows.

Principal results: `run_congr` and `trace_congr` (only the answers to the keys in the trace
matter), `exists_changed_mem_trace` (when two environments give two results, the two runs share a
key they disagree on), `asks_of_mem_trace`.
-/

/-- A computation that asks for answers one key at a time. -/
inductive ReadTree (K A R : Type) where
  | done (r : R)
  | ask (k : K) (next : A → ReadTree K A R)

namespace ReadTree

variable {K A R : Type}

/-- The result against an environment. -/
def run (env : K → A) : ReadTree K A R → R
  | done r => r
  | ask k next => run env (next (env k))

/-- The keys asked against an environment, in order. -/
def trace (env : K → A) : ReadTree K A R → List K
  | done _ => []
  | ask k next => k :: trace env (next (env k))

/-- `Asks ok t k`: the tree can ask `k` after answers that `ok` allows. -/
inductive Asks (ok : K → A → Prop) : ReadTree K A R → K → Prop where
  | here {k : K} {next : A → ReadTree K A R} : Asks ok (ask k next) k
  | later {k k' : K} {a : A} {next : A → ReadTree K A R} :
      ok k a → Asks ok (next a) k' → Asks ok (ask k next) k'

@[simp] theorem run_done (env : K → A) (r : R) : (done r : ReadTree K A R).run env = r := rfl

@[simp] theorem run_ask (env : K → A) (k : K) (next : A → ReadTree K A R) :
    (ask k next).run env = (next (env k)).run env := rfl

@[simp] theorem trace_done (env : K → A) (r : R) :
    (done r : ReadTree K A R).trace env = [] := rfl

@[simp] theorem trace_ask (env : K → A) (k : K) (next : A → ReadTree K A R) :
    (ask k next).trace env = k :: (next (env k)).trace env := rfl

theorem Asks.mono {ok ok' : K → A → Prop} (h : ∀ k a, ok k a → ok' k a) {t : ReadTree K A R}
    {k : K} (ht : Asks ok t k) : Asks ok' t k := by
  induction ht with
  | here => exact .here
  | later ha _ ih => exact .later (h _ _ ha) ih

variable {env : K → A}

/-- A key of the trace is asked along the answers of the environment. -/
theorem asks_of_mem_trace {ok : K → A → Prop} (hok : ∀ k, ok k (env k)) :
    ∀ {t : ReadTree K A R} {k : K}, k ∈ t.trace env → Asks ok t k
  | done _, _, h => by simp at h
  | ask k next, k', h => by
    rw [trace_ask, List.mem_cons] at h
    rcases h with rfl | h
    · exact .here
    · exact .later (hok k) (asks_of_mem_trace hok h)

variable {env' : K → A}

/-- Environments that agree on the trace ask the same keys. -/
theorem trace_congr :
    ∀ {t : ReadTree K A R}, (∀ k ∈ t.trace env, env k = env' k) → t.trace env' = t.trace env
  | done _, _ => rfl
  | ask k next, h => by
    rw [trace_ask] at h
    have hk : env k = env' k := h k (by simp)
    rw [trace_ask, trace_ask, ← hk]
    exact congrArg _ (trace_congr fun k' hk' => h k' (List.mem_cons_of_mem _ hk'))

/-- Environments that agree on the trace give the same result. -/
theorem run_congr :
    ∀ {t : ReadTree K A R}, (∀ k ∈ t.trace env, env k = env' k) → t.run env' = t.run env
  | done _, _ => rfl
  | ask k next, h => by
    rw [trace_ask] at h
    have hk : env k = env' k := h k (by simp)
    rw [run_ask, run_ask, ← hk]
    exact run_congr fun k' hk' => h k' (List.mem_cons_of_mem _ hk')

/-- **Two results need a shared changed read.**  The keys two runs ask agree up to the first one
the environments disagree on, so that one is asked by both. -/
theorem exists_changed_mem_trace {t : ReadTree K A R} (h : ∃ k ∈ t.trace env, env k ≠ env' k) :
    ∃ k ∈ t.trace env, k ∈ t.trace env' ∧ env k ≠ env' k := by
  induction t with
  | done _ => obtain ⟨k, hk, _⟩ := h; simp at hk
  | ask k next ih =>
    by_cases hk : env k = env' k
    · obtain ⟨k', hm, hne⟩ := h
      rw [trace_ask, List.mem_cons] at hm
      have hm' : k' ∈ (next (env k)).trace env := by
        rcases hm with rfl | hm
        · exact absurd hk hne
        · exact hm
      obtain ⟨j, hj, hj', hd⟩ := ih (env k) ⟨k', hm', hne⟩
      refine ⟨j, by simp [hj], ?_, hd⟩
      rw [trace_ask, ← hk]
      exact List.mem_cons_of_mem _ hj'
    · exact ⟨k, by simp, by simp, hk⟩

end ReadTree
