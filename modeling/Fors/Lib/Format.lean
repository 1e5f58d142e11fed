import Mathlib.Data.List.Forall2

/-!
# Word formats

A reader consumes a prefix of a list of words and may fail. `Lawful write read strict sound valid`
ties a writer and a reader of one format together: a `valid` value that is written reads back, a
value that is read is `sound` and at most as wide when written again, and the test `strict` tells
from the words whether they are the ones that would be written. Formats compose in sequence,
along a map and to rows repeated a number of times.

Principal results: `Lawful.bind` and `Lawful.many`.
-/

namespace Format

open List

variable {W E : Type}

abbrev Reader (W E : Type) := StateT (List W) (Except E)

section Run

variable {α β : Type} {s rest : List W}

variable {x : Reader W E α}

/-- A sequence reads when its first part reads and its second reads what is left. -/
theorem bind_ok {f : α → Reader W E β} {b : β} :
    (x >>= f) s = .ok (b, rest) ↔ ∃ a t, x s = .ok (a, t) ∧ f a t = .ok (b, rest) := by
  show (x s >>= fun p => f p.1 p.2) = .ok (b, rest) ↔ _
  cases x s with
  | error e => simp [bind, Except.bind]
  | ok p => cases p; simp [bind, Except.bind]

theorem pure_ok {a b : α} : (pure a : Reader W E α) s = .ok (b, rest) ↔ a = b ∧ s = rest := by
  show Except.ok (a, s) = .ok (b, rest) ↔ _
  simp

theorem map_ok {f : α → β} {b : β} :
    (f <$> x) s = .ok (b, rest) ↔ ∃ a, x s = .ok (a, rest) ∧ f a = b := by
  rw [← bind_pure_comp, bind_ok]
  simp only [pure_ok]
  constructor
  · rintro ⟨a, t, ha, hb, rfl⟩
    exact ⟨a, ha, hb⟩
  · rintro ⟨a, ha, hb⟩
    exact ⟨a, rest, ha, hb, rfl⟩

theorem run_bind {f : α → Reader W E β} {a : α} {t : List W}
    (h : x s = .ok (a, t)) : (x >>= f) s = f a t := by
  show (x s >>= fun p => f p.1 p.2) = _
  rw [h]
  rfl

end Run

/-- A writer, a reader and a strictness test of one format. -/
structure Lawful {α : Type} (write : α → List W) (read : Reader W E α) (strict : List W → Bool)
    (sound valid : α → Prop) : Prop where
  read_write : ∀ {a}, valid a → ∀ rest, read (write a ++ rest) = .ok (a, rest)
  sound_of_read : ∀ {s a rest}, read s = .ok (a, rest) → sound a
  valid_of_strict : ∀ {s a rest}, read s = .ok (a, rest) → strict s = true → valid a
  split : ∀ {s a rest}, read s = .ok (a, rest) →
    ∃ c, s = c ++ rest ∧ (write a).length ≤ c.length
  strict_iff : ∀ {s a rest}, read s = .ok (a, rest) → (strict s = true ↔ s = write a ++ rest)

/-- A format of all values of its type. -/
abbrev Plain {α : Type} (write : α → List W) (read : Reader W E α) (strict : List W → Bool) : Prop :=
  Lawful write read strict (fun _ => True) (fun _ => True)

/-- The test of a second part runs on the words the first part leaves. -/
def after {α : Type} (read : Reader W E α) (strict : α → List W → Bool) (s : List W) : Bool :=
  match read s with
  | .ok (a, rest) => strict a rest
  | .error _ => true

/-- The test of one part and the test of the part after it. -/
def both {α : Type} (strict : List W → Bool) (read : Reader W E α) (next : List W → Bool)
    (s : List W) : Bool :=
  strict s && after read (fun _ => next) s

/-- A test that accepts every list of words: the format has one encoding for each value. -/
def always (_ : List W) : Bool := true

theorem both_always {α : Type} {strict : List W → Bool} {read : Reader W E α} :
    both strict read always = strict := by
  funext s
  rw [both, after]
  cases read s <;> simp [always]

namespace Lawful

variable {α β : Type} {write : α → List W} {read : Reader W E α} {strict : List W → Bool}
  {sound valid : α → Prop}

/-- A format given by what one read consumes. -/
theorem of_chunk (hread : ∀ a, valid a → ∀ rest, read (write a ++ rest) = .ok (a, rest))
    (hchunk : ∀ s a rest, read s = .ok (a, rest) → valid a ∧
      ∃ c, s = c ++ rest ∧ c.length = (write a).length ∧ (strict s = true ↔ c = write a)) :
    Lawful write read strict valid valid where
  read_write ha rest := hread _ ha rest
  sound_of_read hr := (hchunk _ _ _ hr).1
  valid_of_strict hr _ := (hchunk _ _ _ hr).1
  split hr := by
    obtain ⟨-, c, hc, hlen, -⟩ := hchunk _ _ _ hr
    exact ⟨c, hc, Nat.le_of_eq hlen.symm⟩
  strict_iff hr := by
    obtain ⟨-, c, rfl, -, hiff⟩ := hchunk _ _ _ hr
    rw [hiff, append_cancel_right_eq]

/-- A format whose reader accepts exactly what its writer writes. -/
theorem of_exact (h : ∀ s a rest, read s = .ok (a, rest) ↔ valid a ∧ s = write a ++ rest) :
    Lawful write read always valid valid :=
  .of_chunk (fun a ha rest => (h _ a rest).mpr ⟨ha, rfl⟩) fun s a rest hr =>
    have ⟨ha, hs⟩ := (h s a rest).mp hr
    ⟨ha, write a, hs, rfl, by simp [always]⟩

/-- The same format under other spellings. -/
theorem congr {write' : α → List W} {read' : Reader W E α} {strict' : List W → Bool}
    {sound' valid' : α → Prop} (h : Lawful write read strict sound valid)
    (hw : ∀ a, write' a = write a) (hr : read' = read) (hs : ∀ s, strict' s = strict s)
    (hsound : ∀ a, sound a → sound' a) (hvalid : ∀ a, valid' a ↔ valid a) :
    Lawful write' read' strict' sound' valid' := by
  obtain rfl : write' = write := funext hw
  obtain rfl : strict' = strict := funext hs
  obtain rfl : valid' = valid := funext fun a => propext (hvalid a)
  subst hr
  exact ⟨h.read_write, fun hr => hsound _ (h.sound_of_read hr), h.valid_of_strict, h.split,
    h.strict_iff⟩

/-- One format, then another that may depend on the value read. -/
theorem bind {write2 : α → β → List W} {read2 : α → Reader W E β}
    {strict2 : α → List W → Bool} {sound2 valid2 : α → β → Prop}
    (h : Lawful write read strict sound valid)
    (h2 : ∀ a, Lawful (write2 a) (read2 a) (strict2 a) (sound2 a) (valid2 a)) :
    Lawful (fun p : α × β => write p.1 ++ write2 p.1 p.2)
      (do let a ← read; let b ← read2 a; return (a, b))
      (fun s => strict s && after read strict2 s)
      (fun p => sound p.1 ∧ sound2 p.1 p.2) (fun p => valid p.1 ∧ valid2 p.1 p.2) where
  read_write := by
    rintro ⟨a, b⟩ ⟨ha, hb⟩ rest
    rw [append_assoc, run_bind (h.read_write ha _), run_bind ((h2 a).read_write hb _)]
    rfl
  sound_of_read := by
    rintro s ⟨a, b⟩ rest hr
    simp only [bind_ok, pure_ok, Prod.mk.injEq] at hr
    obtain ⟨a', t, ha, b', t', hb, ⟨rfl, rfl⟩, rfl⟩ := hr
    exact ⟨h.sound_of_read ha, (h2 a').sound_of_read hb⟩
  valid_of_strict := by
    rintro s ⟨a, b⟩ rest hr hs
    simp only [bind_ok, pure_ok, Prod.mk.injEq] at hr
    obtain ⟨a', t, ha, b', t', hb, ⟨rfl, rfl⟩, rfl⟩ := hr
    rw [Bool.and_eq_true, after, ha] at hs
    exact ⟨h.valid_of_strict ha hs.1, (h2 a').valid_of_strict hb hs.2⟩
  split := by
    rintro s ⟨a, b⟩ rest hr
    simp only [bind_ok, pure_ok, Prod.mk.injEq] at hr
    obtain ⟨a', t, ha, b', t', hb, ⟨rfl, rfl⟩, rfl⟩ := hr
    obtain ⟨c, rfl, hc⟩ := h.split ha
    obtain ⟨c', rfl, hc'⟩ := (h2 a').split hb
    refine ⟨c ++ c', (append_assoc ..).symm, ?_⟩
    simp only [length_append]
    omega
  strict_iff := by
    rintro s ⟨a, b⟩ rest hr
    simp only [bind_ok, pure_ok, Prod.mk.injEq] at hr
    obtain ⟨a', t, ha, b', t', hb, ⟨rfl, rfl⟩, rfl⟩ := hr
    rw [Bool.and_eq_true, after, ha, h.strict_iff ha, (h2 a').strict_iff hb]
    obtain ⟨c, rfl, hc⟩ := h.split ha
    obtain ⟨c', rfl, hc'⟩ := (h2 a').split hb
    simp only [← append_assoc, append_cancel_right_eq]
    constructor
    · rintro ⟨rfl, rfl⟩
      rfl
    · intro heq
      -- no part is narrower than what is written for it, so the parts end where the writers' do
      have hlen := congrArg List.length heq
      simp only [length_append] at hlen
      exact append_inj heq (by omega)

/-- One format after another. -/
theorem seq {write2 : β → List W} {read2 : Reader W E β} {strict2 : List W → Bool}
    {sound2 valid2 : β → Prop} (h : Lawful write read strict sound valid)
    (h2 : Lawful write2 read2 strict2 sound2 valid2) :
    Lawful (fun p : α × β => write p.1 ++ write2 p.2)
      (do let a ← read; let b ← read2; return (a, b)) (both strict read strict2)
      (fun p => sound p.1 ∧ sound2 p.2) (fun p => valid p.1 ∧ valid2 p.2) :=
  h.bind fun _ => h2

/-- A format carried along a map that every valid value comes from. -/
theorem map {sound' valid' : β → Prop} {write' : β → List W}
    (h : Lawful write read strict sound valid) (f : α → β)
    (hsurj : ∀ b, valid' b → ∃ a, valid a ∧ f a = b) (hvalid : ∀ a, valid a → valid' (f a))
    (hmap : ∀ a, sound a → sound' (f a) ∧ write' (f a) = write a)
    (hsound : ∀ a, valid a → sound a) :
    Lawful write' (do let a ← read; return f a) strict sound' valid' where
  read_write := by
    intro b hb rest
    obtain ⟨a, ha, rfl⟩ := hsurj b hb
    rw [(hmap a (hsound a ha)).2, run_bind (h.read_write ha rest)]
    rfl
  sound_of_read := by
    intro s b rest hr
    simp only [bind_ok, pure_ok] at hr
    obtain ⟨a, t, ha, rfl, rfl⟩ := hr
    exact (hmap a (h.sound_of_read ha)).1
  valid_of_strict := by
    intro s b rest hr hs
    simp only [bind_ok, pure_ok] at hr
    obtain ⟨a, t, ha, rfl, rfl⟩ := hr
    exact hvalid a (h.valid_of_strict ha hs)
  split := by
    intro s b rest hr
    simp only [bind_ok, pure_ok] at hr
    obtain ⟨a, t, ha, rfl, rfl⟩ := hr
    rw [(hmap a (h.sound_of_read ha)).2]
    exact h.split ha
  strict_iff := by
    intro s b rest hr
    simp only [bind_ok, pure_ok] at hr
    obtain ⟨a, t, ha, rfl, rfl⟩ := hr
    rw [(hmap a (h.sound_of_read ha)).2]
    exact h.strict_iff ha

end Lawful

/-! ## Repeated rows -/

/-- The loop that reads `n` rows. -/
def many {α : Type} (item : Reader W E α) : Nat → Reader W E (List α)
  | 0 => return []
  | n + 1 => do
    let x ← item
    let xs ← many item n
    return x :: xs

/-- The test of `n` rows. -/
def manyStrict {α : Type} (item : Reader W E α) (strict : List W → Bool) : Nat → List W → Bool
  | 0 => always
  | n + 1 => both strict item (manyStrict item strict n)

theorem manyStrict_always {α : Type} {item : Reader W E α} {n : Nat} :
    manyStrict item always n = always := by
  induction n with
  | zero => rfl
  | succ n ih => rw [manyStrict, ih, both_always]

/-- A list of `n` values with a property. -/
def Rows {α : Type} (p : α → Prop) (n : Nat) (xs : List α) : Prop :=
  xs.length = n ∧ ∀ x ∈ xs, p x

namespace Lawful

variable {α : Type} {write : α → List W} {item : Reader W E α} {strict : List W → Bool}
  {sound valid : α → Prop}

theorem many (h : Lawful write item strict sound valid) (hsound : ∀ a, valid a → sound a)
    (n : Nat) :
    Lawful (fun xs => xs.flatMap write) (many item n) (manyStrict item strict n)
      (Rows sound n) (Rows valid n) := by
  have rows_sound : ∀ n xs, Rows valid n xs → Rows sound n xs :=
    fun n xs hxs => ⟨hxs.1, fun x hx => hsound x (hxs.2 x hx)⟩
  induction n with
  | zero =>
    have hnil : Lawful (fun xs => xs.flatMap write) (Format.many item 0) always
        (Rows valid 0) (Rows valid 0) := by
      refine of_exact fun s xs rest => ?_
      rw [Format.many, pure_ok]
      constructor
      · rintro ⟨rfl, rfl⟩
        exact ⟨⟨rfl, by simp⟩, rfl⟩
      · rintro ⟨⟨hlen, -⟩, rfl⟩
        obtain rfl := length_eq_zero_iff.mp hlen
        exact ⟨rfl, rfl⟩
    exact hnil.congr (fun _ => rfl) rfl (fun _ => rfl) (rows_sound 0) fun _ => Iff.rfl
  | succ n ih =>
    have rows_cons : ∀ {p : α → Prop} {x : α} {xs : List α}, p x → Rows p n xs →
        Rows p (n + 1) (x :: xs) :=
      fun hx hxs => ⟨by simp [hxs.1], forall_mem_cons.mpr ⟨hx, hxs.2⟩⟩
    have hcons : Lawful (fun xs => xs.flatMap write)
        (do let p ← (do let x ← item; let xs ← Format.many item n; return (x, xs))
            return p.1 :: p.2)
        (manyStrict item strict (n + 1)) (Rows sound (n + 1)) (Rows valid (n + 1)) := by
      refine (h.seq ih).map (fun p => p.1 :: p.2) ?_ ?_ ?_ ?_
      · rintro (_ | ⟨x, xs⟩) ⟨hlen, hall⟩
        · simp at hlen
        · exact ⟨(x, xs), ⟨hall x mem_cons_self, by simpa using hlen,
            fun y hy => hall y (mem_cons_of_mem _ hy)⟩, rfl⟩
      · exact fun p hp => rows_cons hp.1 hp.2
      · exact fun p hp => ⟨rows_cons hp.1 hp.2, flatMap_cons⟩
      · exact fun p hp => ⟨hsound _ hp.1, rows_sound n _ hp.2⟩
    refine hcons.congr (fun _ => rfl) ?_ (fun _ => rfl) (fun _ => id) fun _ => Iff.rfl
    simp [Format.many]

end Lawful

/-! ## Formats of all values -/

namespace Plain

variable {α β : Type} {write : α → List W} {read : Reader W E α} {strict : List W → Bool}

theorem of_exact (h : ∀ s a rest, read s = .ok (a, rest) ↔ s = write a ++ rest) :
    Plain write read always :=
  Lawful.of_exact fun s a rest => by rw [h, true_and]

/-- The converse, where every list is strict. -/
theorem exact (h : Plain write read always) (s : List W) (a : α) (rest : List W) :
    read s = .ok (a, rest) ↔ s = write a ++ rest := by
  constructor
  · exact fun hr => (h.strict_iff hr).mp rfl
  · rintro rfl
    exact h.read_write trivial rest

theorem map {write' : β → List W} {read' : Reader W E β} (h : Plain write read strict) (f : α → β)
    (hsurj : ∀ b, ∃ a, f a = b) (hwrite : ∀ a, write' (f a) = write a)
    (hread : read' = do let a ← read; return f a) : Plain write' read' strict :=
  hread ▸ Lawful.map h f (fun b _ => (hsurj b).imp fun _ ha => ⟨trivial, ha⟩) (fun _ _ => trivial)
    (fun a _ => ⟨trivial, hwrite a⟩) fun _ _ => trivial

theorem seq {write2 : β → List W} {read2 : Reader W E β} {strict2 : List W → Bool}
    (h : Plain write read strict) (h2 : Plain write2 read2 strict2) :
    Plain (fun p : α × β => write p.1 ++ write2 p.2)
      (do let a ← read; let b ← read2; return (a, b)) (both strict read strict2) :=
  (Lawful.seq h h2).congr (fun _ => rfl) rfl (fun _ => rfl) (fun _ _ => trivial) fun _ => by simp

end Plain

end Format
