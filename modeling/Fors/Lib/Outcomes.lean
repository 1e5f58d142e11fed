import Fors.Lib.LittleEndian

/-!
# Calls that may panic

A call returns a value, or refuses its input with a reason, or panics. Machine arithmetic panics
when its result does not fit, and indexing when it leaves the slice; a checked access refuses.

Principal results: `bind_eq_panics` and `Ends.bind`.
-/

namespace Outcomes

/-- How a call ends. -/
inductive Outcome (ε α : Type) where
  | value (a : α)
  | refused (e : ε)
  | panics
  deriving DecidableEq

namespace Outcome

variable {ε ε' α β : Type}

def bind (x : Outcome ε α) (f : α → Outcome ε β) : Outcome ε β :=
  match x with
  | value a => f a
  | refused e => refused e
  | panics => panics

instance : Monad (Outcome ε) where
  pure := value
  bind := bind

@[simp] theorem value_bind (a : α) (f : α → Outcome ε β) : (value a >>= f) = f a :=
  rfl

@[simp] theorem refused_bind (e : ε) (f : α → Outcome ε β) : (refused e >>= f) = refused e :=
  rfl

theorem pure_eq_value {a b : α} : (pure a : Outcome ε α) = value b ↔ a = b :=
  ⟨value.inj, congrArg value⟩

variable {f : α → Outcome ε β}

theorem bind_eq_value {x : Outcome ε α} {b : β} :
    (x >>= f) = value b ↔ ∃ a, x = value a ∧ f a = value b := by
  cases x with
  | value a => exact ⟨fun h => ⟨a, rfl, h⟩, fun ⟨_, ha, h⟩ => (value.inj ha) ▸ h⟩
  | refused e => exact ⟨fun h => (nomatch h), fun ⟨_, ha, _⟩ => (nomatch ha)⟩
  | panics => exact ⟨fun h => (nomatch h), fun ⟨_, ha, _⟩ => (nomatch ha)⟩

/-- A panic comes from the first part or, after its value, from the second. -/
theorem bind_eq_panics {x : Outcome ε α} :
    (x >>= f) = panics ↔ x = panics ∨ ∃ a, x = value a ∧ f a = panics := by
  cases x with
  | value a =>
    refine ⟨fun h => Or.inr ⟨a, rfl, h⟩, ?_⟩
    rintro (h | ⟨_, ha, h⟩)
    · cases h
    · exact (value.inj ha) ▸ h
  | refused e =>
    refine ⟨fun h => (nomatch h), ?_⟩
    rintro (h | ⟨_, ha, -⟩)
    · cases h
    · cases ha
  | panics => exact ⟨fun _ => Or.inl rfl, fun _ => rfl⟩

theorem bind_ne_panics {x : Outcome ε α} (hx : x ≠ panics)
    (hf : ∀ a, x = value a → f a ≠ panics) : (x >>= f) ≠ panics := by
  rw [Ne, bind_eq_panics]
  rintro (h | ⟨a, ha, h⟩)
  · exact hx h
  · exact hf a ha h

/-- The value, or none where the call refused. -/
def attempt (x : Outcome ε α) : Outcome ε' (Option α) :=
  match x with
  | value a => value (some a)
  | refused _ => value none
  | panics => panics

/-- A refusal with a reason of its own. -/
def ok_or (x : Outcome ε α) (e : ε') : Outcome ε' α :=
  match x with
  | value a => value a
  | refused _ => refused e
  | panics => panics

def require (p : Prop) [Decidable p] (e : ε) : Outcome ε Unit :=
  if p then value () else refused e

/-- The value where there is one, and the refusal `e` where there is none. -/
def of_option (x : Option α) (e : ε) : Outcome ε α :=
  match x with
  | some a => value a
  | none => refused e

/-- The value, where the call has one. -/
def ok (x : Outcome ε α) : Option α :=
  match x with
  | value a => some a
  | _ => none

/-- Refuses any other result than a given value. -/
def expect [DecidableEq α] (x : Outcome ε α) (a : α) (e : ε') : Outcome ε' Unit := do
  let v ← attempt x
  require (v = some a) e

theorem attempt_eq_panics {x : Outcome ε α} :
    (attempt x : Outcome ε' (Option α)) = panics ↔ x = panics := by
  cases x with
  | value a => exact ⟨fun h => (nomatch h), fun h => (nomatch h)⟩
  | refused e => exact ⟨fun h => (nomatch h), fun h => (nomatch h)⟩
  | panics => exact ⟨fun _ => rfl, fun _ => rfl⟩

theorem ok_or_eq_panics {x : Outcome ε α} {e : ε'} : ok_or x e = panics ↔ x = panics := by
  cases x with
  | value a => exact ⟨fun h => (nomatch h), fun h => (nomatch h)⟩
  | refused e => exact ⟨fun h => (nomatch h), fun h => (nomatch h)⟩
  | panics => exact ⟨fun _ => rfl, fun _ => rfl⟩

theorem ok_or_eq_value {x : Outcome ε α} {e : ε'} {a : α} : ok_or x e = value a ↔ x = value a := by
  cases x with
  | value b => exact ⟨fun h => congrArg value (value.inj h), fun h => congrArg value (value.inj h)⟩
  | refused e => exact ⟨fun h => (nomatch h), fun h => (nomatch h)⟩
  | panics => exact ⟨fun h => (nomatch h), fun h => (nomatch h)⟩

theorem attempt_eq_value_some {x : Outcome ε α} {a : α} :
    (attempt x : Outcome ε' (Option α)) = value (some a) ↔ x = value a := by
  cases x with
  | value b =>
    constructor
    · exact fun h => congrArg value (Option.some.inj (value.inj h))
    · exact fun h => congrArg (fun v => value (some v)) (value.inj h)
  | refused e => exact ⟨fun h => (nomatch value.inj h), fun h => (nomatch h)⟩
  | panics => exact ⟨fun h => (nomatch h), fun h => (nomatch h)⟩

theorem of_option_eq_value {x : Option α} {e : ε} {a : α} :
    of_option x e = value a ↔ x = some a := by
  cases x with
  | none => exact ⟨fun h => (nomatch h), fun h => (nomatch h)⟩
  | some b => exact ⟨fun h => congrArg some (value.inj h), fun h => congrArg value (Option.some.inj h)⟩

theorem ok_eq_some {x : Outcome ε α} {a : α} : x.ok = some a ↔ x = value a := by
  cases x with
  | value b => exact ⟨fun h => congrArg value (Option.some.inj h), fun h => congrArg some (value.inj h)⟩
  | refused e => exact ⟨fun h => (nomatch h), fun h => (nomatch h)⟩
  | panics => exact ⟨fun h => (nomatch h), fun h => (nomatch h)⟩

theorem require_ne_panics (p : Prop) [Decidable p] (e : ε) : require p e ≠ panics := by
  unfold require
  split <;> exact nofun

theorem require_eq_value {p : Prop} [Decidable p] {e : ε} {u : Unit} :
    require p e = value u ↔ p := by
  unfold require
  split
  · next h => exact ⟨fun _ => h, fun _ => rfl⟩
  · next h => exact ⟨fun heq => (nomatch heq), fun hp => absurd hp h⟩

/-! ### Where a sequence panics -/

theorem require_bind_eq_panics {p : Prop} [Decidable p] {e : ε} {f : Unit → Outcome ε β} :
    (require p e >>= f) = panics ↔ p ∧ f () = panics := by
  rw [bind_eq_panics]
  constructor
  · rintro (h | ⟨u, hu, h⟩)
    · exact absurd h (require_ne_panics p e)
    · exact ⟨require_eq_value.mp hu, h⟩
  · rintro ⟨hp, h⟩
    exact Or.inr ⟨(), require_eq_value.mpr hp, h⟩

theorem ok_or_bind_eq_panics {x : Outcome ε α} {e : ε'} {f : α → Outcome ε' β} (hx : x ≠ panics) :
    (ok_or x e >>= f) = panics ↔ ∃ a, x = value a ∧ f a = panics := by
  rw [bind_eq_panics, ok_or_eq_panics]
  constructor
  · rintro (h | ⟨a, ha, h⟩)
    · exact absurd h hx
    · exact ⟨a, ok_or_eq_value.mp ha, h⟩
  · rintro ⟨a, ha, h⟩
    exact Or.inr ⟨a, ok_or_eq_value.mpr ha, h⟩

theorem expect_bind_eq_panics [DecidableEq α] {x : Outcome ε α} {a : α} {e : ε'}
    {f : Unit → Outcome ε' β} (hx : x ≠ panics) :
    (expect x a e >>= f) = panics ↔ x = value a ∧ f () = panics := by
  have hexpect : (expect x a e : Outcome ε' Unit) ≠ panics := by
    refine bind_ne_panics (fun h => hx (attempt_eq_panics.mp h)) fun v _ => ?_
    exact require_ne_panics _ e
  have hvalue (u : Unit) : (expect x a e : Outcome ε' Unit) = value u ↔ x = value a := by
    unfold expect
    rw [bind_eq_value]
    constructor
    · rintro ⟨v, hv, h⟩
      rw [require_eq_value.mp h] at hv
      exact attempt_eq_value_some.mp hv
    · intro h
      exact ⟨some a, attempt_eq_value_some.mpr h, require_eq_value.mpr rfl⟩
  rw [bind_eq_panics]
  constructor
  · rintro (h | ⟨u, hu, h⟩)
    · exact absurd h hexpect
    · exact ⟨(hvalue u).mp hu, h⟩
  · rintro ⟨ha, h⟩
    exact Or.inr ⟨(), (hvalue ()).mpr ha, h⟩

end Outcome

open Outcome

variable {ε : Type} {a b i j : Nat} {bytes : List UInt8}

/-! ## Arithmetic -/

/-- An unsigned difference. -/
def sub (a b : Nat) : Outcome ε Nat :=
  if b ≤ a then value (a - b) else panics

theorem sub_eq (h : b ≤ a) : (sub a b : Outcome ε Nat) = value (a - b) :=
  if_pos h

theorem sub_eq_value {c : Nat} : (sub a b : Outcome ε Nat) = value c ↔ a = c + b := by
  unfold sub
  split
  · next h => exact ⟨fun heq => by have := value.inj heq; omega, fun heq => by rw [heq, Nat.add_sub_cancel]⟩
  · next h => exact ⟨fun heq => (nomatch heq), fun heq => absurd (heq ▸ Nat.le_add_left b c) h⟩

/-! ## Arithmetic of 64 bits -/

def add (a b : Nat) : Outcome ε Nat :=
  if a + b < 2 ^ 64 then value (a + b) else panics

def mul (a b : Nat) : Outcome ε Nat :=
  if a * b < 2 ^ 64 then value (a * b) else panics

theorem add_eq (h : a + b < 2 ^ 64) : (add a b : Outcome ε Nat) = value (a + b) :=
  if_pos h

theorem mul_eq (h : a * b < 2 ^ 64) : (mul a b : Outcome ε Nat) = value (a * b) :=
  if_pos h

theorem add_eq_panics : (add a b : Outcome ε Nat) = panics ↔ 2 ^ 64 ≤ a + b := by
  unfold add
  split
  · next h => exact ⟨fun heq => (nomatch heq), fun hle => absurd h (Nat.not_lt.mpr hle)⟩
  · next h => exact ⟨fun _ => Nat.not_lt.mp h, fun _ => rfl⟩

/-! ## Slices -/

/-- `bytes[i..j]`. -/
def index (bytes : List UInt8) (i j : Nat) : Outcome ε (List UInt8) :=
  if i ≤ j ∧ j ≤ bytes.length then value ((bytes.drop i).take (j - i)) else panics

/-- `bytes.get(i..j)`. -/
def get (bytes : List UInt8) (i j : Nat) : Outcome Unit (List UInt8) :=
  if i ≤ j ∧ j ≤ bytes.length then value ((bytes.drop i).take (j - i)) else refused ()

theorem index_eq (hij : i ≤ j) (hj : j ≤ bytes.length) :
    (index bytes i j : Outcome ε (List UInt8)) = value ((bytes.drop i).take (j - i)) :=
  if_pos ⟨hij, hj⟩

theorem get_ne_panics (bytes : List UInt8) (i j : Nat) : get bytes i j ≠ panics := by
  unfold get
  split <;> exact nofun

theorem get_eq_value {part : List UInt8} (h : get bytes i j = value part) :
    (i ≤ j ∧ j ≤ bytes.length) ∧ part = (bytes.drop i).take (j - i) := by
  unfold get at h
  split at h
  · next hbounds => exact ⟨hbounds, (value.inj h).symm⟩
  · cases h

/-! ## Calls that end well -/

variable {α β : Type}

/-- The call does not panic, and its value has a property. -/
structure Ends (x : Outcome ε α) (Q : α → Prop) : Prop where
  not_panics : x ≠ panics
  post : ∀ a, x = value a → Q a

variable {Q : α → Prop}

theorem Ends.pure {a : α} (h : Q a) : Ends (Pure.pure a : Outcome ε α) Q where
  not_panics := nofun
  post := fun _ heq => value.inj heq ▸ h

theorem Ends.refused {e : ε} : Ends (Outcome.refused e : Outcome ε α) Q where
  not_panics := nofun
  post := nofun

theorem Ends.mono {x : Outcome ε α} {P : α → Prop} (h : Ends x P) (hPQ : ∀ a, P a → Q a) :
    Ends x Q :=
  ⟨h.not_panics, fun a ha => hPQ a (h.post a ha)⟩

theorem Ends.bind {x : Outcome ε α} {f : α → Outcome ε β} {P : α → Prop} {Q : β → Prop}
    (hx : Ends x P) (hf : ∀ a, P a → Ends (f a) Q) : Ends (x >>= f) Q where
  not_panics := bind_ne_panics hx.not_panics fun a ha => (hf a (hx.post a ha)).not_panics
  post := by
    intro b hb
    obtain ⟨a, ha, hb⟩ := bind_eq_value.mp hb
    exact (hf a (hx.post a ha)).post b hb

theorem ends_require (p : Prop) [Decidable p] (e : ε) : Ends (require p e) fun _ => p :=
  ⟨require_ne_panics p e, fun _ h => require_eq_value.mp h⟩

theorem ends_add (h : a + b < 2 ^ 64) : Ends (add a b : Outcome ε Nat) fun c => c = a + b := by
  rw [add_eq h]
  exact Ends.pure rfl

theorem ends_mul (h : a * b < 2 ^ 64) : Ends (mul a b : Outcome ε Nat) fun c => c = a * b := by
  rw [mul_eq h]
  exact Ends.pure rfl

theorem ends_get (bytes : List UInt8) (i j : Nat) : Ends (get bytes i j) fun part =>
    j ≤ bytes.length ∧ part = (bytes.drop i).take (j - i) :=
  ⟨get_ne_panics bytes i j, fun _ h => ⟨(get_eq_value h).1.2, (get_eq_value h).2⟩⟩

/-! ## Calls with an answer -/

/-- The call has a value or refuses with `e`: no panic, and no other refusal. -/
def Answers (x : Outcome ε α) (e : ε) : Prop :=
  (∃ a, x = value a) ∨ x = refused e

namespace Answers

variable {e : ε} {x : Outcome ε α}

theorem bind {f : α → Outcome ε β} (hx : Answers x e) (hf : ∀ a, x = value a → Answers (f a) e) :
    Answers (x >>= f) e := by
  rcases hx with ⟨a, rfl⟩ | rfl
  · exact hf a rfl
  · exact .inr rfl

theorem of_option (o : Option α) : Answers (Outcome.of_option o e) e := by
  cases o with
  | none => exact .inr rfl
  | some a => exact .inl ⟨a, rfl⟩

theorem sub {a b : Nat} (h : b ≤ a) : Answers (Outcomes.sub a b) e :=
  .inl ⟨a - b, sub_eq h⟩

theorem eq_of_option (hx : Answers x e) : x = Outcome.of_option x.ok e := by
  rcases hx with ⟨a, rfl⟩ | rfl <;> rfl

end Answers

end Outcomes
