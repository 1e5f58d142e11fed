import Fors.Exec.Mem
import Mathlib.Data.List.Induction

/-!
# The borrow stack enforces exclusivity

A run of a stack from its root: pushes of tags that are new, and accesses that may fail. Below the
groups a stack holds the unique tags that no write through an earlier one has popped, the latest
first, and on top the shared tags that nothing exclusive came after.

Principal result: `stack_exact`.
-/

namespace Fors.Exec

open List

/-! ## Runs -/

inductive BorrowOp where
  | push_unique (tag : Nat)
  | push_shared (tag : Nat)
  | access (tag : Nat) (how : Access)

/-- A failed access leaves the stack as it is. -/
def BorrowStack.step (s : BorrowStack) : BorrowOp → BorrowStack
  | .push_unique tag => s.push_unique tag
  | .push_shared tag => s.push_shared tag
  | .access tag how => (s.access tag how).getD s

def BorrowStack.run (s : BorrowStack) (ops : List BorrowOp) : BorrowStack :=
  ops.foldl BorrowStack.step s

/-- An access through the tag succeeds. -/
def BorrowStack.Allows (s : BorrowStack) (tag : Nat) (how : Access) : Prop :=
  (s.access tag how).isSome = true

def BorrowOp.pushed : BorrowOp → Option Nat
  | .push_unique tag | .push_shared tag => some tag
  | .access _ _ => none

/-- The tags of a run, the latest first. -/
def pushes (root : Nat) (ops : List BorrowOp) : List Nat :=
  (ops.filterMap BorrowOp.pushed).reverse ++ [root]

/-- Every pushed tag is new. -/
def FreshTags (root : Nat) (ops : List BorrowOp) : Prop :=
  (pushes root ops).Nodup

instance (s : BorrowStack) (tag : Nat) (how : Access) : Decidable (s.Allows tag how) :=
  inferInstanceAs (Decidable (_ = true))

instance (root : Nat) (ops : List BorrowOp) : Decidable (FreshTags root ops) :=
  inferInstanceAs (Decidable (List.Nodup _))

/-- The step is a write through the tag, and succeeds. -/
def Writes (s : BorrowStack) (op : BorrowOp) (tag : Nat) : Prop :=
  op = .access tag .Write ∧ s.Allows tag .Write

/-- The step pushes a unique tag, or is a write that succeeds. -/
def Exclusive (s : BorrowStack) (op : BorrowOp) : Prop :=
  (∃ tag, op = .push_unique tag) ∨ ∃ tag, Writes s op tag

/-- A write through a tag of a list succeeds. -/
def WritesBelow (earlier : List Nat) (s : BorrowStack) (op : BorrowOp) : Prop :=
  ∃ u ∈ earlier, Writes s op u

/-- No step of a run is bad where it is taken. -/
def Never (bad : BorrowStack → BorrowOp → Prop) : BorrowStack → List BorrowOp → Prop
  | _, [] => True
  | s, op :: ops => ¬bad s op ∧ Never bad (s.step op) ops

/-! ## The tags that are alive -/

/-- The unique tags that are alive, the latest first, and the shared ones. -/
structure Alive where
  unique : List Nat
  shared : List Nat

namespace Alive

def items (a : Alive) : List BorrowItem :=
  (if a.shared = [] then [] else [.SharedRo a.shared]) ++ a.unique.map .Unique

def step (a : Alive) : BorrowOp → Alive
  | .push_unique tag => ⟨tag :: a.unique, []⟩
  | .push_shared tag => ⟨a.unique, a.shared ++ [tag]⟩
  | .access _ .Read => a
  | .access tag .Write =>
    if tag ∈ a.unique ∧ tag ∉ a.shared then ⟨a.unique.dropWhile (· ≠ tag), []⟩ else a

def run (a : Alive) (ops : List BorrowOp) : Alive :=
  ops.foldl step a

def rooted (root : Nat) : Alive :=
  ⟨[root], []⟩

variable {a : Alive} {tag : Nat}

/-- What lies at and below the topmost item that holds a tag. -/
theorem dropWhile_items (a : Alive) (tag : Nat) :
    (a.items.dropWhile fun item => !item.holds tag) =
      if tag ∈ a.shared then a.items else (a.unique.dropWhile (· ≠ tag)).map .Unique := by
  have hunique : ∀ us : List Nat, ((us.map BorrowItem.Unique).dropWhile
      fun item => !item.holds tag) = (us.dropWhile (· ≠ tag)).map .Unique := by
    intro us
    rw [dropWhile_map]
    congr 2
    funext t
    simp [BorrowItem.holds]
  unfold items
  by_cases hnil : a.shared = []
  · rw [if_pos hnil, if_neg (by rw [hnil]; exact not_mem_nil), nil_append, hunique]
  · rw [if_neg hnil, singleton_append]
    by_cases hin : tag ∈ a.shared
    · rw [if_pos hin, dropWhile_cons_of_neg]
      simp [BorrowItem.holds, hin]
    · rw [if_neg hin, dropWhile_cons_of_pos, hunique]
      simp [BorrowItem.holds, hin]

theorem dropWhile_of_mem {us : List Nat} (h : tag ∈ us) :
    ∃ rest, us.dropWhile (· ≠ tag) = tag :: rest := by
  induction us with
  | nil => exact nomatch h
  | cons t us ih =>
    by_cases ht : t = tag
    · rw [ht, dropWhile_cons_of_neg (by simp)]
      exact ⟨us, rfl⟩
    · rw [dropWhile_cons_of_pos (by simpa using ht)]
      apply ih
      rcases mem_cons.mp h with rfl | h
      · exact absurd rfl ht
      · exact h

theorem dropWhile_eq_nil {us : List Nat} : us.dropWhile (· ≠ tag) = [] ↔ tag ∉ us := by
  constructor
  · intro h hin
    obtain ⟨rest, hrest⟩ := dropWhile_of_mem hin
    rw [hrest] at h
    cases h
  · intro h
    induction us with
    | nil => rfl
    | cons t us ih =>
      rw [mem_cons, not_or] at h
      obtain ⟨hne, hrest⟩ := h
      rw [dropWhile_cons_of_pos (by simpa using Ne.symm hne), ih hrest]

/-- An access of the stack, on the tags that are alive. -/
theorem access_eq (a : Alive) (tag : Nat) (how : Access) :
    (⟨a.items⟩ : BorrowStack).access tag how =
      if tag ∈ a.shared then (if how = .Read then some ⟨a.items⟩ else none)
      else if tag ∈ a.unique then some ⟨(a.step (.access tag how)).items⟩
      else none := by
  unfold BorrowStack.access
  rw [dropWhile_items]
  by_cases hshared : tag ∈ a.shared
  · have hne : a.shared ≠ [] := ne_nil_of_mem hshared
    rw [if_pos hshared, if_pos hshared]
    have hitems : a.items = .SharedRo a.shared :: a.unique.map .Unique := by
      unfold items
      rw [if_neg hne, singleton_append]
    rw [hitems]
    cases how with
    | Read => rfl
    | Write => rfl
  · rw [if_neg hshared, if_neg hshared]
    by_cases hunique : tag ∈ a.unique
    · obtain ⟨rest, hrest⟩ := dropWhile_of_mem hunique
      rw [if_pos hunique, hrest]
      cases how with
      | Read => rfl
      | Write =>
        simp only [map_cons, step, hunique, hshared, hrest, items]
        rfl
    · rw [if_neg hunique, dropWhile_eq_nil.mpr hunique]
      rfl

theorem dropWhile_shared (a : Alive) :
    a.items.dropWhile BorrowItem.is_shared = a.unique.map .Unique := by
  have hunique : (a.unique.map BorrowItem.Unique).dropWhile BorrowItem.is_shared =
      a.unique.map .Unique := by
    cases a.unique with
    | nil => rfl
    | cons t us => rfl
  unfold items
  by_cases hnil : a.shared = []
  · rw [if_pos hnil, nil_append, hunique]
  · rw [if_neg hnil, singleton_append, dropWhile_cons_of_pos rfl, hunique]

/-- A step of the stack is a step of the tags. -/
theorem step_eq (a : Alive) (op : BorrowOp) :
    (⟨a.items⟩ : BorrowStack).step op = ⟨(a.step op).items⟩ := by
  cases op with
  | push_unique tag =>
    show BorrowStack.push_unique ⟨a.items⟩ tag = _
    unfold BorrowStack.push_unique
    rw [dropWhile_shared]
    rfl
  | push_shared tag =>
    show BorrowStack.push_shared ⟨a.items⟩ tag = _
    by_cases hnil : a.shared = []
    · have hitems : a.items = a.unique.map .Unique := by
        unfold items
        rw [if_pos hnil, nil_append]
      have hstep : (a.step (.push_shared tag)).items =
          .SharedRo [tag] :: a.unique.map .Unique := by
        simp [step, items, hnil]
      rw [hitems, hstep]
      cases a.unique with
      | nil => rfl
      | cons t us => rfl
    · have hitems : a.items = .SharedRo a.shared :: a.unique.map .Unique := by
        unfold items
        rw [if_neg hnil, singleton_append]
      have hstep : (a.step (.push_shared tag)).items =
          .SharedRo (a.shared ++ [tag]) :: a.unique.map .Unique := by
        simp [step, items]
      rw [hitems, hstep]
      rfl
  | access tag how =>
    show ((⟨a.items⟩ : BorrowStack).access tag how).getD ⟨a.items⟩ = _
    rw [access_eq]
    by_cases hshared : tag ∈ a.shared
    · rw [if_pos hshared]
      cases how with
      | Read => rfl
      | Write => simp [step, hshared]
    · rw [if_neg hshared]
      by_cases hunique : tag ∈ a.unique
      · rw [if_pos hunique]
        rfl
      · rw [if_neg hunique]
        cases how with
        | Read => rfl
        | Write => simp [step, hunique]

theorem run_eq (root : Nat) (ops : List BorrowOp) :
    (BorrowStack.rooted root).run ops = ⟨((rooted root).run ops).items⟩ := by
  have hrun : ∀ a : Alive, (⟨a.items⟩ : BorrowStack).run ops = ⟨(a.run ops).items⟩ := by
    induction ops with
    | nil => exact fun _ => rfl
    | cons op ops ih =>
      intro a
      show BorrowStack.run (BorrowStack.step ⟨a.items⟩ op) ops = _
      rw [step_eq, ih]
      rfl
  exact hrun (rooted root)

/-! ### Accesses -/

theorem allows_read : (⟨a.items⟩ : BorrowStack).Allows tag .Read ↔
    tag ∈ a.shared ∨ tag ∈ a.unique := by
  unfold BorrowStack.Allows
  rw [access_eq]
  by_cases hshared : tag ∈ a.shared
  · simp [hshared]
  · by_cases hunique : tag ∈ a.unique
    · simp [hshared, hunique]
    · simp [hshared, hunique]

theorem allows_write : (⟨a.items⟩ : BorrowStack).Allows tag .Write ↔
    tag ∈ a.unique ∧ tag ∉ a.shared := by
  unfold BorrowStack.Allows
  rw [access_eq]
  by_cases hshared : tag ∈ a.shared
  · simp [hshared]
  · by_cases hunique : tag ∈ a.unique
    · simp [hshared, hunique]
    · simp [hshared, hunique]

theorem writes_iff {op : BorrowOp} : Writes ⟨a.items⟩ op tag ↔
    op = .access tag .Write ∧ tag ∈ a.unique ∧ tag ∉ a.shared := by
  unfold Writes
  rw [allows_write]

/-! ### The order of the tags -/

/-- The tags that are alive, the latest first: the shared ones came after all unique ones. -/
def order (a : Alive) : List Nat :=
  a.shared.reverse ++ a.unique

theorem dropWhile_append_of_mem {above below : List Nat} (h : tag ∈ above) :
    (above ++ below).dropWhile (· ≠ tag) = above.dropWhile (· ≠ tag) ++ below := by
  obtain ⟨rest, hrest⟩ := dropWhile_of_mem h
  rw [dropWhile_append, hrest]
  rfl

theorem dropWhile_append_of_notMem {above below : List Nat} (h : tag ∉ above) :
    (above ++ below).dropWhile (· ≠ tag) = below.dropWhile (· ≠ tag) := by
  rw [dropWhile_append, dropWhile_eq_nil.mpr h]
  rfl

theorem step_write (h : tag ∈ a.unique ∧ tag ∉ a.shared) :
    a.step (.access tag .Write) = ⟨a.unique.dropWhile (· ≠ tag), []⟩ := by
  simp [step, h]

theorem step_write_failed (h : ¬(tag ∈ a.unique ∧ tag ∉ a.shared)) :
    a.step (.access tag .Write) = a := by
  simp [step, if_neg h]

/-- A step keeps the order of pushing, with the root last. -/
theorem step_ordered {tags : List Nat} {root : Nat} (op : BorrowOp) (hsub : a.order.Sublist tags)
    (hroot : ∃ us, a.unique = us ++ [root]) :
    (a.step op).order.Sublist (op.pushed.toList ++ tags) ∧
      ∃ us, (a.step op).unique = us ++ [root] := by
  have hunique : a.unique.Sublist tags := (sublist_append_right _ _).trans hsub
  cases op with
  | push_unique tag =>
    obtain ⟨us, hus⟩ := hroot
    refine ⟨hunique.cons_cons tag, tag :: us, ?_⟩
    show tag :: a.unique = _
    rw [hus]
    rfl
  | push_shared tag =>
    refine ⟨?_, hroot⟩
    show ((a.shared ++ [tag]).reverse ++ a.unique).Sublist (tag :: tags)
    rw [reverse_append]
    exact hsub.cons_cons tag
  | access tag how =>
    cases how with
    | Read => exact ⟨hsub, hroot⟩
    | Write =>
      by_cases h : tag ∈ a.unique ∧ tag ∉ a.shared
      · rw [step_write h]
        refine ⟨(dropWhile_sublist _).trans hunique, ?_⟩
        obtain ⟨us, hus⟩ := hroot
        show ∃ us, a.unique.dropWhile (· ≠ tag) = us ++ [root]
        rw [hus]
        by_cases hin : tag ∈ us
        · exact ⟨_, dropWhile_append_of_mem hin⟩
        · have htag : tag = root := by
            have hmem := h.1
            rw [hus] at hmem
            rcases mem_append.mp hmem with hmem | hmem
            · exact absurd hmem hin
            · exact mem_singleton.mp hmem
          refine ⟨[], ?_⟩
          rw [dropWhile_append_of_notMem hin, htag, dropWhile_cons_of_neg (by simp)]
          rfl
      · rw [step_write_failed h]
        exact ⟨hsub, hroot⟩

theorem pushes_cons (root : Nat) (ops ops' : List BorrowOp) :
    pushes root (ops ++ ops') = (ops'.filterMap BorrowOp.pushed).reverse ++ pushes root ops := by
  unfold pushes
  rw [filterMap_append, reverse_append, append_assoc]

theorem run_ordered (root : Nat) (ops : List BorrowOp) :
    ((rooted root).run ops).order.Sublist (pushes root ops) ∧
      ∃ us, ((rooted root).run ops).unique = us ++ [root] := by
  induction ops using List.reverseRecOn with
  | nil => exact ⟨Sublist.refl _, [], rfl⟩
  | append_singleton ops op ih =>
    have hrun : (rooted root).run (ops ++ [op]) = ((rooted root).run ops).step op := by
      unfold run
      rw [foldl_append]
      rfl
    have hpushes : pushes root (ops ++ [op]) = op.pushed.toList ++ pushes root ops := by
      rw [pushes_cons]
      cases op with
      | push_unique tag => rfl
      | push_shared tag => rfl
      | access tag how => rfl
    rw [hrun, hpushes]
    exact step_ordered op ih.1 ih.2

/-! ### Shared tags -/

theorem mem_step_unique {op : BorrowOp} (hpushed : op.pushed ≠ some tag) (hnot : tag ∉ a.unique) :
    tag ∉ (a.step op).unique := by
  cases op with
  | push_unique t =>
    have hne : tag ≠ t := fun h => hpushed (by rw [h]; rfl)
    exact fun h => (mem_cons.mp h).elim hne hnot
  | push_shared t => exact hnot
  | access t how =>
    cases how with
    | Read => exact hnot
    | Write =>
      by_cases h : t ∈ a.unique ∧ t ∉ a.shared
      · rw [step_write h]
        exact fun hin => hnot ((dropWhile_sublist _).subset hin)
      · rw [step_write_failed h]
        exact hnot

theorem mem_step_shared {op : BorrowOp} (hpushed : op.pushed ≠ some tag) :
    tag ∈ (a.step op).shared ↔ tag ∈ a.shared ∧ ¬Exclusive ⟨a.items⟩ op := by
  cases op with
  | push_unique t =>
    have hex : Exclusive ⟨a.items⟩ (.push_unique t) := .inl ⟨t, rfl⟩
    exact ⟨fun h => (nomatch h), fun h => absurd hex h.2⟩
  | push_shared t =>
    have hex : ¬Exclusive ⟨a.items⟩ (.push_shared t) := by
      rintro (⟨_, h⟩ | ⟨_, h, _⟩)
      · cases h
      · cases h
    have hne : tag ≠ t := fun h => hpushed (by rw [h]; rfl)
    show tag ∈ a.shared ++ [t] ↔ _
    rw [mem_append, mem_singleton]
    simp [hne, hex]
  | access t how =>
    have hex : Exclusive ⟨a.items⟩ (.access t how) ↔
        how = .Write ∧ t ∈ a.unique ∧ t ∉ a.shared := by
      unfold Exclusive
      constructor
      · rintro (⟨_, h⟩ | ⟨u, h⟩)
        · cases h
        · obtain ⟨heq, hin⟩ := writes_iff.mp h
          obtain ⟨rfl, rfl⟩ := BorrowOp.access.inj heq
          exact ⟨rfl, hin⟩
      · rintro ⟨rfl, hin⟩
        exact .inr ⟨t, writes_iff.mpr ⟨rfl, hin⟩⟩
    rw [hex]
    cases how with
    | Read => simp [step]
    | Write =>
      by_cases h : t ∈ a.unique ∧ t ∉ a.shared
      · rw [step_write h]
        simp [h]
      · rw [step_write_failed h]
        simp [h]

/-- A shared tag stays until something exclusive comes. -/
theorem mem_run_shared {ops : List BorrowOp} (hpushed : ∀ op ∈ ops, op.pushed ≠ some tag) :
    tag ∈ (a.run ops).shared ↔ tag ∈ a.shared ∧ Never Exclusive ⟨a.items⟩ ops := by
  induction ops generalizing a with
  | nil => simp [run, Never]
  | cons op ops ih =>
    show tag ∈ ((a.step op).run ops).shared ↔ _
    rw [ih fun x hx => hpushed x (mem_cons_of_mem _ hx),
      mem_step_shared (hpushed op mem_cons_self), ← step_eq, and_assoc]
    rfl

theorem notMem_run_unique {ops : List BorrowOp} (hpushed : ∀ op ∈ ops, op.pushed ≠ some tag)
    (hnot : tag ∉ a.unique) : tag ∉ (a.run ops).unique := by
  induction ops generalizing a with
  | nil => exact hnot
  | cons op ops ih =>
    exact ih (fun x hx => hpushed x (mem_cons_of_mem _ hx))
      (mem_step_unique (hpushed op mem_cons_self) hnot)

/-! ### Unique tags -/

/-- The tags that lie below one are those of a list, and no others that are alive are in it. -/
structure Above (a : Alive) (tag : Nat) (earlier : List Nat) : Prop where
  split : ∃ above below, a.unique = above ++ tag :: below ∧ (∀ u ∈ below, u ∈ earlier) ∧
    ∀ u ∈ above, u ∉ earlier
  shared : ∀ u ∈ a.shared, u ∉ earlier

variable {earlier : List Nat}

/-- What does not write below a tag leaves it where it is. -/
theorem step_above {op : BorrowOp} (h : a.Above tag earlier) (htag : tag ∉ earlier)
    (hpushed : ∀ t ∈ op.pushed, t ∉ earlier) (hnot : ¬WritesBelow earlier ⟨a.items⟩ op) :
    (a.step op).Above tag earlier := by
  obtain ⟨⟨above, below, hunique, hbelow, habove⟩, hshared⟩ := h
  cases op with
  | push_unique t =>
    refine ⟨⟨t :: above, below, ?_, hbelow, ?_⟩, nofun⟩
    · show t :: a.unique = _
      rw [hunique]
      rfl
    · exact forall_mem_cons.mpr ⟨hpushed t rfl, habove⟩
  | push_shared t =>
    refine ⟨⟨above, below, hunique, hbelow, habove⟩, ?_⟩
    intro u hu
    rcases mem_append.mp hu with hu | hu
    · exact hshared u hu
    · rw [mem_singleton.mp hu]
      exact hpushed t rfl
  | access t how =>
    cases how with
    | Read => exact ⟨⟨above, below, hunique, hbelow, habove⟩, hshared⟩
    | Write =>
      by_cases hin : t ∈ a.unique ∧ t ∉ a.shared
      · have hearlier : t ∉ earlier := fun hmem => hnot ⟨t, hmem, writes_iff.mpr ⟨rfl, hin⟩⟩
        rw [step_write hin, hunique]
        by_cases ht : t ∈ above
        · rw [dropWhile_append_of_mem ht]
          refine ⟨⟨_, below, rfl, hbelow, ?_⟩, nofun⟩
          exact fun u hu => habove u ((dropWhile_sublist _).subset hu)
        · have hsame : t = tag := by
            have hmem := hin.1
            rw [hunique] at hmem
            rcases mem_append.mp hmem with hmem | hmem
            · exact absurd hmem ht
            · rcases mem_cons.mp hmem with rfl | hmem
              · rfl
              · exact absurd (hbelow t hmem) hearlier
          rw [dropWhile_append_of_notMem ht, hsame, dropWhile_cons_of_neg (by simp)]
          exact ⟨⟨[], below, rfl, hbelow, nofun⟩, nofun⟩
      · rw [step_write_failed hin]
        exact ⟨⟨above, below, hunique, hbelow, habove⟩, hshared⟩

/-- A write through a tag below pops it. -/
theorem step_below {op : BorrowOp} (h : a.Above tag earlier) (htag : tag ∉ earlier)
    (hwrites : WritesBelow earlier ⟨a.items⟩ op) : tag ∉ (a.step op).unique := by
  obtain ⟨⟨above, below, hunique, hbelow, habove⟩, -⟩ := h
  obtain ⟨u, hu, hwrites⟩ := hwrites
  obtain ⟨rfl, hin⟩ := writes_iff.mp hwrites
  have hnot : u ∉ above := fun h => habove u h hu
  have hne : u ≠ tag := fun h => htag (h ▸ hu)
  rw [step_write hin, hunique, dropWhile_append_of_notMem hnot,
    dropWhile_cons_of_pos (by simpa using hne.symm)]
  exact fun h => htag (hbelow tag ((dropWhile_sublist _).subset h))

/-- A unique tag stays until a write through a tag below it. -/
theorem mem_run_unique {ops : List BorrowOp} (h : a.Above tag earlier) (htag : tag ∉ earlier)
    (hpushed : ∀ op ∈ ops, ∀ t ∈ op.pushed, t ∉ tag :: earlier) :
    tag ∈ (a.run ops).unique ↔ Never (WritesBelow earlier) ⟨a.items⟩ ops := by
  induction ops generalizing a with
  | nil =>
    obtain ⟨above, below, hunique, -⟩ := h.split
    simp [run, Never, hunique]
  | cons op ops ih =>
    obtain ⟨hop, hops⟩ := forall_mem_cons.mp hpushed
    show tag ∈ ((a.step op).run ops).unique ↔
      ¬WritesBelow earlier ⟨a.items⟩ op ∧ Never (WritesBelow earlier) (BorrowStack.step ⟨a.items⟩ op) ops
    rw [step_eq]
    by_cases hwrites : WritesBelow earlier ⟨a.items⟩ op
    · have hfresh : ∀ x ∈ ops, x.pushed ≠ some tag := by
        intro x hx hsome
        exact hops x hx tag hsome mem_cons_self
      have hgone := notMem_run_unique hfresh (step_below h htag hwrites)
      exact ⟨fun hin => absurd hin hgone, fun hnever => absurd hwrites hnever.1⟩
    · have hop' : ∀ t ∈ op.pushed, t ∉ earlier :=
        fun t ht hin => hop t ht (mem_cons_of_mem _ hin)
      rw [ih (step_above h htag hop' hwrites) hops]
      exact ⟨fun hnever => ⟨hwrites, hnever⟩, fun hnever => hnever.2⟩

/-- Only a push brings a tag in. -/
theorem notMem_run {ops : List BorrowOp} (hpushed : ∀ op ∈ ops, op.pushed ≠ some tag)
    (hunique : tag ∉ a.unique) (hshared : tag ∉ a.shared) :
    tag ∉ (a.run ops).unique ∧ tag ∉ (a.run ops).shared := by
  refine ⟨notMem_run_unique hpushed hunique, ?_⟩
  rw [mem_run_shared hpushed]
  exact fun h => hshared h.1

end Alive

/-! ## The stack -/

section Stack

variable {root tag : Nat} {ops pre post : List BorrowOp} {op : BorrowOp}

/-- The stack after a run from its root. -/
def after (root : Nat) (ops : List BorrowOp) : BorrowStack :=
  (BorrowStack.rooted root).run ops

def alive (root : Nat) (ops : List BorrowOp) : Alive :=
  (Alive.rooted root).run ops

theorem after_eq (root : Nat) (ops : List BorrowOp) : after root ops = ⟨(alive root ops).items⟩ :=
  Alive.run_eq root ops

theorem alive_append (root : Nat) (pre post : List BorrowOp) :
    alive root (pre ++ post) = (alive root pre).run post := by
  unfold alive Alive.run
  rw [foldl_append]

theorem alive_cons (root : Nat) (pre : List BorrowOp) (op : BorrowOp) (post : List BorrowOp) :
    alive root (pre ++ op :: post) = ((alive root pre).step op).run post := by
  rw [alive_append]
  rfl

theorem apart {xs ys : List Nat} (h : (xs ++ ys).Nodup) (hx : tag ∈ xs) : tag ∉ ys :=
  fun hy => (nodup_append.mp h).2.2 tag hx tag hy rfl

/-- What is pushed later is no tag of before. -/
theorem fresh_later (h : FreshTags root (pre ++ post)) :
    ∀ op ∈ post, ∀ t ∈ op.pushed, t ∉ pushes root pre := by
  intro op hop t ht
  unfold FreshTags at h
  rw [Alive.pushes_cons] at h
  have hmem : t ∈ (post.filterMap BorrowOp.pushed).reverse :=
    mem_reverse.mpr (mem_filterMap.mpr ⟨op, hop, ht⟩)
  exact apart h hmem

theorem pushes_snoc (root : Nat) (pre : List BorrowOp) (ht : op.pushed = some tag) :
    pushes root (pre ++ [op]) = tag :: pushes root pre := by
  rw [Alive.pushes_cons, filterMap_cons, ht]
  rfl

theorem fresh_push (h : FreshTags root (pre ++ op :: post)) (ht : op.pushed = some tag) :
    tag ∉ pushes root pre ∧ ∀ x ∈ post, ∀ t ∈ x.pushed, t ∉ tag :: pushes root pre := by
  refine ⟨fresh_later h op mem_cons_self tag ht, ?_⟩
  have hsplit : pre ++ op :: post = pre ++ [op] ++ post := by
    rw [append_assoc]
    rfl
  rw [hsplit] at h
  have hlater := fresh_later h
  rwa [pushes_snoc root pre ht] at hlater

theorem alive_pushed (root : Nat) (ops : List BorrowOp) :
    (∀ u ∈ (alive root ops).unique, u ∈ pushes root ops) ∧
      ∀ u ∈ (alive root ops).shared, u ∈ pushes root ops := by
  obtain ⟨hsub, -⟩ := Alive.run_ordered root ops
  refine ⟨fun u hu => hsub.subset (mem_append_right _ hu), ?_⟩
  exact fun u hu => hsub.subset (mem_append_left _ (mem_reverse.mpr hu))

theorem groups_on_top (root : Nat) (ops : List BorrowOp) : ∀ i item,
    (after root ops).items[i]? = some item → item.is_shared = true → i = 0 := by
  intro i item hitem hshared
  rw [after_eq] at hitem
  have hunique : ∀ j : Nat, ((alive root ops).unique.map BorrowItem.Unique)[j]? ≠ some item := by
    intro j hj
    obtain ⟨t, -, rfl⟩ := mem_map.mp (mem_of_getElem? hj)
    cases hshared
  have hitem' : (alive root ops).items[i]? = some item := hitem
  unfold Alive.items at hitem'
  split at hitem'
  · exact absurd hitem' (hunique i)
  · cases i with
    | zero => rfl
    | succ i => exact absurd hitem' (hunique i)

/-- The root is never popped. -/
theorem root_allows (h : FreshTags root ops) (how : Access) : (after root ops).Allows root how := by
  obtain ⟨hsub, us, hus⟩ := Alive.run_ordered root ops
  have hin : root ∈ (alive root ops).unique := by
    show root ∈ ((Alive.rooted root).run ops).unique
    rw [hus]
    exact mem_append_right _ mem_cons_self
  rw [after_eq]
  cases how with
  | Read => exact Alive.allows_read.mpr (.inr hin)
  | Write =>
    refine Alive.allows_write.mpr ⟨hin, ?_⟩
    intro hshared
    have hnodup : (alive root ops).order.Nodup := hsub.nodup h
    exact apart hnodup (mem_reverse.mpr hshared) hin

theorem read_keeps {s s' : BorrowStack} (h : s.access tag .Read = some s') : s' = s := by
  unfold BorrowStack.access at h
  split at h
  · cases h
  · exact (Option.some.inj h).symm

theorem shared_reads (h : FreshTags root (pre ++ .push_shared tag :: post)) :
    (after root (pre ++ .push_shared tag :: post)).Allows tag .Read ↔
      Never Exclusive (after root (pre ++ [.push_shared tag])) post := by
  obtain ⟨hnew, hlater⟩ := fresh_push h rfl
  have hpushed : ∀ x ∈ post, x.pushed ≠ some tag :=
    fun x hx hsome => hlater x hx tag hsome mem_cons_self
  have hunique : tag ∉ ((alive root pre).step (.push_shared tag)).unique :=
    fun hin => hnew ((alive_pushed root pre).1 tag hin)
  have hshared : tag ∈ ((alive root pre).step (.push_shared tag)).shared :=
    mem_append_right _ mem_cons_self
  have hgone := Alive.notMem_run_unique hpushed hunique
  rw [after_eq, after_eq, Alive.allows_read, alive_cons, alive_cons, Alive.mem_run_shared hpushed]
  simp only [hgone, or_false, hshared, true_and]
  rfl

theorem unique_accesses (h : FreshTags root (pre ++ .push_unique tag :: post)) (how : Access) :
    (after root (pre ++ .push_unique tag :: post)).Allows tag how ↔
      Never (WritesBelow (pushes root pre)) (after root (pre ++ [.push_unique tag])) post := by
  obtain ⟨hnew, hlater⟩ := fresh_push h rfl
  have hpushed : ∀ x ∈ post, x.pushed ≠ some tag :=
    fun x hx hsome => hlater x hx tag hsome mem_cons_self
  have habove : ((alive root pre).step (.push_unique tag)).Above tag (pushes root pre) :=
    ⟨⟨[], (alive root pre).unique, rfl, (alive_pushed root pre).1, nofun⟩, nofun⟩
  have hshared : tag ∉ (((alive root pre).step (.push_unique tag)).run post).shared := by
    rw [Alive.mem_run_shared hpushed]
    exact fun hin => (nomatch hin.1)
  have hunique := Alive.mem_run_unique habove hnew hlater
  rw [after_eq, after_eq, alive_cons, alive_cons]
  cases how with
  | Read =>
    rw [Alive.allows_read]
    simp only [hshared, false_or]
    exact hunique
  | Write =>
    rw [Alive.allows_write]
    simp only [hshared, not_false_eq_true, and_true]
    exact hunique

/-- What was pushed after a tag is gone after a write through it. -/
theorem popped {u : Nat} {later earlier : List Nat}
    (h : FreshTags root (pre ++ .access u .Write :: post))
    (hallows : (after root pre).Allows u .Write)
    (hpushes : pushes root pre = later ++ u :: earlier) (htag : tag ∈ later) (how : Access) :
    ¬(after root (pre ++ .access u .Write :: post)).Allows tag how := by
  have hnodup : (later ++ u :: earlier).Nodup := by
    unfold FreshTags at h
    rw [Alive.pushes_cons, hpushes] at h
    exact (nodup_append.mp h).2.1
  rw [after_eq, Alive.allows_write] at hallows
  obtain ⟨hsub, -⟩ := Alive.run_ordered root (pre ++ [.access u .Write])
  obtain ⟨rest, hrest⟩ := Alive.dropWhile_of_mem hallows.1
  have hstep : (alive root pre).step (.access u .Write) = ⟨u :: rest, []⟩ := by
    rw [Alive.step_write hallows, hrest]
  have hsub' : (u :: rest).Sublist (later ++ u :: earlier) := by
    have halive : (Alive.rooted root).run (pre ++ [.access u .Write]) = ⟨u :: rest, []⟩ := by
      rw [← hstep]
      exact alive_cons root pre (.access u .Write) []
    have hsame : pushes root (pre ++ [.access u .Write]) = later ++ u :: earlier := by
      rw [Alive.pushes_cons, ← hpushes]
      rfl
    rw [halive, hsame] at hsub
    exact hsub
  have hgone : tag ∉ u :: rest := by
    obtain ⟨front, back, heq, hfront, hback⟩ := sublist_append_iff.mp hsub'
    intro hin
    cases front with
    | nil =>
      rw [nil_append] at heq
      rw [heq] at hin
      exact apart hnodup htag (hback.subset hin)
    | cons x front =>
      obtain ⟨rfl, -⟩ := cons.inj heq
      exact apart hnodup (hfront.subset mem_cons_self) mem_cons_self
  have hpushed : ∀ x ∈ post, x.pushed ≠ some tag := by
    intro x hx hsome
    refine fresh_later h x (mem_cons_of_mem _ hx) tag hsome ?_
    rw [hpushes]
    exact mem_append_left _ htag
  have hnone := Alive.notMem_run (a := (⟨u :: rest, []⟩ : Alive)) hpushed hgone not_mem_nil
  rw [after_eq, alive_cons, hstep]
  cases how with
  | Read =>
    rw [Alive.allows_read]
    exact fun hin => hin.elim hnone.2 hnone.1
  | Write =>
    rw [Alive.allows_write]
    exact fun hin => hnone.1 hin.1

/-- Pushes of shared tags and reads are nothing exclusive. -/
theorem never_exclusive {s : BorrowStack} (h : ∀ op ∈ post,
    (∃ t, op = .push_shared t) ∨ ∃ t, op = .access t .Read) : Never Exclusive s post := by
  induction post generalizing s with
  | nil => trivial
  | cons op post ih =>
    obtain ⟨hop, hpost⟩ := forall_mem_cons.mp h
    refine ⟨?_, ih hpost⟩
    rintro (⟨t, rfl⟩ | ⟨t, rfl, -⟩)
    · rcases hop with ⟨_, hop⟩ | ⟨_, hop⟩
      · cases hop
      · cases hop
    · rcases hop with ⟨_, hop⟩ | ⟨_, hop⟩
      · cases hop
      · cases hop

/-- Over every run from its root whose tags are new, a stack lets through just what is exclusive. -/
theorem stack_exact (root : Nat) (ops : List BorrowOp) (h : FreshTags root ops) :
    (∀ i item, (after root ops).items[i]? = some item → item.is_shared = true → i = 0) ∧
    (∀ how, (after root ops).Allows root how) ∧
    (∀ tag s', (after root ops).access tag .Read = some s' → s' = after root ops) ∧
    (∀ pre tag post, ops = pre ++ .push_shared tag :: post →
      ((after root ops).Allows tag .Read ↔
        Never Exclusive (after root (pre ++ [.push_shared tag])) post)) ∧
    (∀ pre tag post, ops = pre ++ .push_unique tag :: post → ∀ how,
      ((after root ops).Allows tag how ↔
        Never (WritesBelow (pushes root pre)) (after root (pre ++ [.push_unique tag])) post)) ∧
    (∀ pre u post, ops = pre ++ .access u .Write :: post → (after root pre).Allows u .Write →
      ∀ later earlier, pushes root pre = later ++ u :: earlier → ∀ tag ∈ later, ∀ how,
        ¬(after root ops).Allows tag how) ∧
    ∀ pre post, ops = pre ++ post →
      (∀ op ∈ post, (∃ t, op = .push_shared t) ∨ ∃ t, op = .access t .Read) →
      ∀ tag, .push_shared tag ∈ post → (after root ops).Allows tag .Read := by
  refine ⟨groups_on_top root ops, root_allows h, fun _ _ => read_keeps, ?_, ?_, ?_, ?_⟩
  · rintro pre tag post rfl
    exact shared_reads h
  · rintro pre tag post rfl
    exact unique_accesses h
  · rintro pre u post rfl hallows later earlier hpushes tag htag
    exact popped h hallows hpushes htag
  · rintro pre post rfl hquiet tag htag
    obtain ⟨front, back, rfl⟩ := append_of_mem htag
    rw [← append_assoc] at h ⊢
    rw [shared_reads h]
    apply never_exclusive
    exact fun op hop => hquiet op (mem_append_right _ (mem_cons_of_mem _ hop))

/-- Two shared tags, a unique one and a write through the root. -/
theorem root_write_pops : ¬(after 0 [.push_shared 1, .push_shared 2, .push_unique 3,
    .access 0 .Write]).Allows 3 .Read := by
  have h := (stack_exact 0 [.push_shared 1, .push_shared 2, .push_unique 3, .access 0 .Write]
    (by decide)).2.2.2.2.1 [.push_shared 1, .push_shared 2] 3 [.access 0 .Write] rfl .Read
  rw [h]
  rintro ⟨hnot, -⟩
  exact hnot ⟨0, by decide, rfl, by decide⟩

end Stack

end Fors.Exec
