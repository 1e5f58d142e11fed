import Mathlib.Data.List.Forall2
import Mathlib.Algebra.GroupWithZero.Nat

/-!
# Runs that may fail

Inversion of a successful `Except` computation: of one step, and of a `mapM` over a list; and partial
functions that map over a list where they have a result for every element.

A computation that threads a state beside its result and may fail keeps an account.  `Erases` says
what it gives when the state is forgotten, and `Spends` balances a counter against the size of the
result: what the run starts with is what it has counted, and what is left of it.

Principal results: `mapM_eq_ok` and `Spends.frame`.
-/

namespace Runs

open List

variable {ε α β : Type}

variable {x : Except ε α} {f : α → Except ε β}

theorem bind_eq_ok {b : β} :
    (x >>= f) = .ok b ↔ ∃ a, x = .ok a ∧ f a = .ok b := by
  cases x <;> simp [bind, Except.bind]

theorem map_eq_ok {f : α → β} {b : β} :
    x.map f = .ok b ↔ ∃ a, x = .ok a ∧ f a = b := by
  cases x <;> simp [Except.map]

theorem pure_eq_ok {a b : α} : (pure a : Except ε α) = .ok b ↔ a = b := by
  simp [pure, Except.pure]

variable {xs : List α}

/-- A `mapM` succeeds exactly when each of its steps does. -/
theorem mapM_eq_ok {ys : List β} :
    xs.mapM f = .ok ys ↔ List.Forall₂ (fun x y => f x = .ok y) xs ys := by
  induction xs generalizing ys with
  | nil =>
    rw [mapM_nil, pure_eq_ok, List.forall₂_nil_left_iff]
    exact eq_comm
  | cons x xs ih =>
    simp only [mapM_cons, bind_eq_ok, pure_eq_ok, ih, List.forall₂_cons_left_iff]
    constructor
    · rintro ⟨y, hy, zs, hzs, rfl⟩
      exact ⟨y, zs, hy, hzs, rfl⟩
    · rintro ⟨y, zs, hy, hzs, rfl⟩
      exact ⟨y, hy, zs, hzs, rfl⟩

theorem exists_mapM_eq_ok :
    (∃ ys, xs.mapM f = .ok ys) ↔ ∀ x ∈ xs, ∃ y, f x = .ok y := by
  induction xs with
  | nil => simp [pure_eq_ok]
  | cons x xs ih =>
    simp only [mapM_cons, bind_eq_ok, pure_eq_ok, forall_mem_cons, ← ih]
    constructor
    · rintro ⟨_, y, hy, zs, hzs, -⟩
      exact ⟨⟨y, hy⟩, zs, hzs⟩
    · rintro ⟨⟨y, hy⟩, zs, hzs⟩
      exact ⟨y :: zs, y, hy, zs, hzs, rfl⟩

/-- A `mapM` that collects lists finds nothing exactly when no step does. -/
theorem flatten_mapM_eq_nil {f : α → Except ε (List β)} :
    (xs.mapM f >>= fun found => pure found.flatten) = .ok [] ↔ ∀ x ∈ xs, f x = .ok [] := by
  simp only [bind_eq_ok, pure_eq_ok, mapM_eq_ok]
  induction xs with
  | nil => simp
  | cons x xs ih =>
    simp only [List.forall₂_cons_left_iff, forall_mem_cons, ← ih]
    constructor
    · rintro ⟨_, ⟨y, ys, hy, hys, rfl⟩, hnil⟩
      obtain ⟨rfl, hnil⟩ := append_eq_nil_iff.mp hnil
      exact ⟨hy, ys, hys, hnil⟩
    · rintro ⟨hy, ys, hys, hnil⟩
      exact ⟨[] :: ys, ⟨[], ys, hy, hys, rfl⟩, hnil⟩

theorem exists_bind_iff :
    (∃ b, (x >>= f) = .ok b) ↔ ∃ a, x = .ok a ∧ ∃ b, f a = .ok b := by
  simp only [bind_eq_ok]
  exact ⟨fun ⟨b, a, ha, hb⟩ => ⟨a, ha, b, hb⟩, fun ⟨a, ha, b, hb⟩ => ⟨b, a, ha, hb⟩⟩

theorem exists_bind_pure {g : α → β} :
    (∃ b, (x >>= fun a => pure (g a)) = .ok b) ↔ ∃ a, x = .ok a := by
  rw [exists_bind_iff]
  exact exists_congr fun a => and_iff_left ⟨g a, rfl⟩

/-- Finitely many bounds have a common one. -/
theorem exists_common_bound {p : α → ℕ → Prop}
    (h : ∀ x ∈ xs, ∃ N, ∀ n ≥ N, p x n) : ∃ N, ∀ n ≥ N, ∀ x ∈ xs, p x n := by
  induction xs with
  | nil => exact ⟨0, by simp⟩
  | cons x xs ih =>
    obtain ⟨N, hN⟩ := h x mem_cons_self
    obtain ⟨M, hM⟩ := ih fun y hy => h y (mem_cons_of_mem _ hy)
    refine ⟨max N M, fun n hn => forall_mem_cons.mpr ⟨hN n ?_, hM n ?_⟩⟩
    · omega
    · omega

end Runs

/-! ## Lists of partial results -/

namespace MapM

open List

theorem mapM_eq_some {α β : Type} {f : α → Option β} {xs : List α} {ys : List β} :
    xs.mapM f = some ys ↔ List.Forall₂ (fun x y => f x = some y) xs ys := by
  induction xs generalizing ys with
  | nil =>
    rw [mapM_nil, List.forall₂_nil_left_iff]
    exact ⟨fun h => (Option.some.inj h).symm, fun h => h ▸ rfl⟩
  | cons x xs ih =>
    simp only [mapM_cons, Option.bind_eq_bind, Option.bind_eq_some_iff, Option.pure_def,
      Option.some.injEq]
    constructor
    · rintro ⟨y, hy, ys, hys, rfl⟩
      exact .cons hy (ih.mp hys)
    · rintro (_ | ⟨hy, hys⟩)
      exact ⟨_, hy, _, ih.mpr hys, rfl⟩

theorem mapM_left_inj {α β : Type} {f : α → Option β} {xs xs' : List α} {ys : List β}
    (hinj : ∀ {x x' y}, f x = some y → f x' = some y → x = x') (h : xs.mapM f = some ys)
    (h' : xs'.mapM f = some ys) : xs = xs' :=
  left_unique_forall₂' (R := fun x y => f x = some y) (fun _ _ _ => hinj)
    (mapM_eq_some.mp h) (mapM_eq_some.mp h')

theorem length_of_mapM {α β : Type} {f : α → Option β} {xs : List α} {ys : List β}
    (h : xs.mapM f = some ys) : ys.length = xs.length :=
  (mapM_eq_some.mp h).length_eq.symm

theorem exists_of_mem_mapM {α β : Type} {f : α → Option β} {xs : List α} {ys : List β} {y : β}
    (h : xs.mapM f = some ys) (hy : y ∈ ys) : ∃ x ∈ xs, f x = some y := by
  have hall := mapM_eq_some.mp h
  clear h
  induction hall with
  | nil => exact nomatch hy
  | cons hxz _ ih =>
    obtain rfl | hy := mem_cons.mp hy
    · exact ⟨_, mem_cons_self, hxz⟩
    · obtain ⟨x, hx, hxy⟩ := ih hy
      exact ⟨x, mem_cons_of_mem _ hx, hxy⟩

theorem exists_of_mem {α β : Type} {f : α → Option β} {xs : List α} {ys : List β} {x : α}
    (h : xs.mapM f = some ys) (hx : x ∈ xs) : ∃ y, f x = some y := by
  have hall := mapM_eq_some.mp h
  clear h
  induction hall with
  | nil => exact nomatch hx
  | cons hxy _ ih =>
    obtain rfl | hx := mem_cons.mp hx
    · exact ⟨_, hxy⟩
    · exact ih hx

/-- What holds at the start and is kept by each step holds after a loop over consecutive indices,
which has a result. -/
theorem foldlM_range' {α : Type} {f : α → Nat → Option α} {s n : Nat} {init : α}
    (P : Nat → α → Prop) (hinit : P s init)
    (hstep : ∀ i x, s ≤ i → i < s + n → P i x → ∃ y, f x i = some y ∧ P (i + 1) y) :
    ∃ y, (List.range' s n).foldlM f init = some y ∧ P (s + n) y := by
  induction n with
  | zero => exact ⟨init, rfl, hinit⟩
  | succ n ih =>
    obtain ⟨x, hrun, hx⟩ := ih fun i x hs hi => hstep i x hs (by omega)
    obtain ⟨y, hy, hP⟩ := hstep (s + n) x (by omega) (by omega) hx
    refine ⟨y, ?_, hP⟩
    rw [List.range'_1_concat, foldlM_append, hrun]
    simp only [Option.bind_eq_bind, Option.bind_some, foldlM_cons, hy, foldlM_nil]
    rfl

end MapM

/-! ## Runs with an account -/

namespace Accounts

open List

variable {σ ε α β : Type}

abbrev Account (σ ε α : Type) := StateT σ (Except ε) α

/-- Without its state the run is `r`. -/
def Erases (run : Account σ ε α) (r : Except ε α) : Prop :=
  ∀ s, (run s).map Prod.fst = r

namespace Erases

theorem pure (a : α) : Erases (pure a : Account σ ε α) (.ok a) :=
  fun _ => rfl

theorem bind {run : Account σ ε α} {r : Except ε α} {f : α → Account σ ε β} {g : α → Except ε β}
    (hrun : Erases run r) (hf : ∀ a, Erases (f a) (g a)) : Erases (run >>= f) (r >>= g) := by
  intro s
  have h := hrun s
  show ((run s) >>= fun p => f p.1 p.2).map Prod.fst = _
  rw [← h]
  cases run s with
  | error e => rfl
  | ok p => exact hf p.1 p.2

theorem throw (e : ε) : Erases (fun _ => .error e : Account σ ε α) (.error e) :=
  fun _ => rfl

theorem mapM {f : α → Account σ ε β} {g : α → Except ε β} (h : ∀ a, Erases (f a) (g a))
    (as : List α) : Erases (as.mapM f) (as.mapM g) := by
  induction as with
  | nil => exact pure []
  | cons a as ih =>
    rw [mapM_cons, mapM_cons]
    exact (h a).bind fun b => ih.bind fun bs => pure (b :: bs)

theorem foldlM {f : β → α → Account σ ε β} {g : β → α → Except ε β}
    (h : ∀ b a, Erases (f b a) (g b a)) (as : List α) (b : β) :
    Erases (as.foldlM f b) (as.foldlM g b) := by
  induction as generalizing b with
  | nil => exact pure b
  | cons a as ih =>
    rw [foldlM_cons, foldlM_cons]
    exact (h b a).bind fun b => ih b

end Erases

/-- From `k` items the run leaves a result of some size, and counts the rest. -/
def Spends (run : Account Nat ε α) (k : Nat) (size : α → Nat) : Prop :=
  ∀ s, ∃ a s', run s = .ok (a, s') ∧ s' + size a = s + k

namespace Spends

variable {size : α → Nat} {size' : β → Nat} {k : Nat}

theorem pure {a : α} (h : size a = k) : Spends (pure a : Account Nat ε α) k size :=
  fun s => ⟨a, s, rfl, congrArg (s + ·) h⟩

theorem bind {run : Account Nat ε α} {f : α → Account Nat ε β} (hrun : Spends run k size)
    (hf : ∀ a, (∃ s s', run s = .ok (a, s')) → Spends (f a) (size a) size') :
    Spends (run >>= f) k size' := by
  intro s
  obtain ⟨a, s', hrun, hbal⟩ := hrun s
  obtain ⟨b, s'', hrun', hbal'⟩ := hf a ⟨s, s', hrun⟩ s'
  refine ⟨b, s'', ?_, hbal'.trans hbal⟩
  show (run s >>= fun p => f p.1 p.2) = _
  rw [hrun]
  exact hrun'

/-- Items that wait beside the run. -/
theorem frame {run : Account Nat ε α} (h : Spends run k size) (j : Nat) :
    Spends run (j + k) fun a => j + size a := by
  intro s
  obtain ⟨a, s', hrun, hbal⟩ := h s
  exact ⟨a, s', hrun, show s' + (j + size a) = s + (j + k) by omega⟩

theorem mapM {f : α → Account Nat ε β} {need : α → Nat} {as : List α}
    (h : ∀ a ∈ as, Spends (f a) (need a) size') :
    Spends (as.mapM f) (as.map need).sum fun bs => (bs.map size').sum := by
  induction as with
  | nil => exact pure rfl
  | cons a as ih =>
    rw [forall_mem_cons] at h
    rw [mapM_cons, map_cons, sum_cons, Nat.add_comm]
    refine ((h.1.frame _).bind fun b _ => ?_ : Spends _ ((as.map need).sum + need a) _)
    rw [Nat.add_comm]
    refine ((ih h.2).frame (size' b)).bind fun bs _ => pure ?_
    rw [map_cons, sum_cons]

end Spends

end Accounts
