import Mathlib.Data.Fintype.Pigeonhole
import Mathlib.Data.Set.Finite.Basic
import Mathlib.Logic.Relation

/-!
# Loops that end

A loop takes one step after another until no step is left. Over finitely many states, it ends if and
only if it reaches no state that leads back to itself.

Principal result: `halts_iff`.
-/

namespace Halting

variable {σ : Type*} {f : σ → Option σ} {s t u : σ} {n : Nat}

/-- One step of the loop. -/
def Step (f : σ → Option σ) (s t : σ) : Prop :=
  f s = some t

/-- The states of the run from `s`. -/
def Reaches (f : σ → Option σ) : σ → σ → Prop :=
  Relation.ReflTransGen (Step f)

/-- The run from `s` comes to a state without a step. -/
def Halts (f : σ → Option σ) (s : σ) : Prop :=
  ∃ t, Reaches f s t ∧ f t = none

/-- The run from `s` comes to a state that leads back to itself. -/
def Returns (f : σ → Option σ) (s : σ) : Prop :=
  ∃ t, Reaches f s t ∧ Relation.TransGen (Step f) t t

theorem Step.eq (h : Step f s t) (h' : Step f s u) : t = u :=
  Option.some.inj (h.symm.trans h')

/-- Where the run ends, it was in every state that it reaches before. -/
theorem reaches_end (h : Reaches f s t) (hend : f t = none) (hu : Reaches f s u) :
    Reaches f u t := by
  induction hu with
  | refl => exact h
  | tail _ hstep ih =>
    rcases Relation.ReflTransGen.cases_head ih with rfl | ⟨v, hstep', hrest⟩
    · rw [Step, hend] at hstep
      cases hstep
    · obtain rfl := hstep.eq hstep'
      exact hrest

/-- The run ends in one state only. -/
theorem end_unique (h : Reaches f s t) (hend : f t = none) (h' : Reaches f s u)
    (hend' : f u = none) : t = u := by
  rcases Relation.ReflTransGen.cases_head (reaches_end h hend h') with rfl | ⟨v, hstep, -⟩
  · rfl
  · rw [Step, hend'] at hstep
    cases hstep

/-- From a state that leads back to itself, the run comes to such states only. -/
theorem transGen_of_reaches (h : Relation.TransGen (Step f) s s) (ht : Reaches f s t) :
    Relation.TransGen (Step f) t t := by
  induction ht with
  | refl => exact h
  | tail _ hstep ih =>
    obtain ⟨v, hfirst, hback⟩ := Relation.TransGen.head'_iff.mp ih
    rw [hfirst.eq hstep] at hback
    exact Relation.TransGen.tail' hback hstep

theorem Halts.not_returns (h : Halts f s) : ¬ Returns f s := by
  obtain ⟨t, ht, hend⟩ := h
  rintro ⟨u, hu, hcycle⟩
  have hlast := transGen_of_reaches hcycle (reaches_end ht hend hu)
  obtain ⟨v, hstep, -⟩ := Relation.TransGen.head'_iff.mp hlast
  rw [Step, hend] at hstep
  cases hstep

/-- The state after `n` steps. -/
def iterate (f : σ → Option σ) (s : σ) : Nat → Option σ
  | 0 => some s
  | n + 1 => (iterate f s n).bind f

theorem reaches_iterate {m : Nat} (hmn : m ≤ n) (hm : iterate f s m = some t)
    (hn : iterate f s n = some u) : Reaches f t u := by
  induction n, hmn using Nat.le_induction generalizing u with
  | base =>
    obtain rfl := Option.some.inj (hm.symm.trans hn)
    exact .refl
  | succ n _ ih =>
    obtain ⟨v, hv, hstep⟩ := Option.bind_eq_some_iff.mp hn
    exact (ih hv).tail hstep

theorem transGen_iterate {m : Nat} (hmn : m < n) (hm : iterate f s m = some t)
    (hn : iterate f s n = some u) : Relation.TransGen (Step f) t u := by
  obtain ⟨n, rfl⟩ : ∃ k, n = k + 1 := ⟨n - 1, by omega⟩
  obtain ⟨v, hv, hstep⟩ := Option.bind_eq_some_iff.mp hn
  exact Relation.TransGen.tail' (reaches_iterate (Nat.le_of_lt_succ hmn) hm hv) hstep

/-- Among finitely many states, a run that does not end comes to one of them twice. -/
theorem halts_iff (hfinite : {t | Reaches f s t}.Finite) : Halts f s ↔ ¬ Returns f s := by
  refine ⟨Halts.not_returns, fun hreturns => ?_⟩
  by_contra hrun
  have hsome (n : Nat) : ∃ t, iterate f s n = some t := by
    induction n with
    | zero => exact ⟨s, rfl⟩
    | succ n ih =>
      obtain ⟨t, ht⟩ := ih
      have hreach : Reaches f s t := reaches_iterate (Nat.zero_le n) rfl ht
      cases hstep : f t with
      | none => exact absurd ⟨t, hreach, hstep⟩ hrun
      | some u => exact ⟨u, by rw [iterate, ht]; exact hstep⟩
  choose state hstate using hsome
  have hreach (n : Nat) : Reaches f s (state n) :=
    reaches_iterate (Nat.zero_le n) rfl (hstate n)
  have : Finite {t | Reaches f s t} := hfinite
  obtain ⟨m, n, hne, heq⟩ := Finite.exists_ne_map_eq_of_infinite
    (fun n : Nat => (⟨state n, hreach n⟩ : {t | Reaches f s t}))
  have hsame : state m = state n := congrArg Subtype.val heq
  rcases Nat.lt_or_gt_of_ne hne with hlt | hlt
  · refine hreturns ⟨state m, hreach m, ?_⟩
    have hcycle := transGen_iterate hlt (hstate m) (hstate n)
    rwa [← hsame] at hcycle
  · refine hreturns ⟨state n, hreach n, ?_⟩
    have hcycle := transGen_iterate hlt (hstate n) (hstate m)
    rwa [hsame] at hcycle

end Halting
