import Fors.Resolve.Scope

/-!
# Paths resolve exactly where their count fits a byte

What a dotted path denotes is said by relations: a path leads through the public names of modules
as far as it can, and stops there for one of seven reasons. The loop records what they say, but it
keeps the number of segments that the target accounts for in a byte.

Principal results: `Denotes.unique` and `means_iff`.
-/

namespace Fors.Resolve

open List Option

open Index (Symbol)

/-! ## What a path denotes -/

def Binds (f : List (Symbol × UInt32)) (name : Symbol) : Prop :=
  ∃ b ∈ f, b.1 = name

/-- What a name means: the innermost local, else the module scope's entity, else the prelude's. -/
inductive Means (c : BodyCtx) (name : Symbol) : Option Found → Prop where
  | Local {outer inner : List (List (Symbol × UInt32))} {f : List (Symbol × UInt32)}
      {b : Symbol × UInt32} : c.frames = outer ++ f :: inner → (∀ g ∈ inner, ¬Binds g name) →
      f.find? (fun b => b.1 = name) = some b → Means c name (some (.Local b.2))
  | scope {row : Row} : (∀ g ∈ c.frames, ¬Binds g name) → c.module.lookup name = some row →
      Means c name (some (.Entity row.entity row.variants))
  | prelude {e : Entity} : (∀ g ∈ c.frames, ¬Binds g name) → c.module.lookup name = none →
      c.prelude.get name = some e → Means c name (some (.Entity e (c.prelude.variants name)))
  | nothing : (∀ g ∈ c.frames, ¬Binds g name) → c.module.lookup name = none →
      c.prelude.get name = none → Means c name none

/-- An entity on the way, its variants if it is an enum, and the segments behind it. -/
structure Stop where
  entity : Entity
  variants : List Symbol
  rest : List Symbol

/-- The module whose names an entity gives access to. -/
def Entity.opens : Entity → Option Nat
  | .Module m => some m
  | .PreludeModule _ m => m
  | _ => none

def Entity.IsModule : Entity → Prop
  | .Module _ | .PreludeModule _ _ => True
  | _ => False

/-- Through `k` public names of modules. -/
inductive Leads (x : Exports) : Stop → Nat → Stop → Prop where
  | here (p : Stop) : Leads x p 0 p
  | on {e : Entity} {variants rest : List Symbol} {s : Symbol} {m k : Nat} {row : Row} {q : Stop} :
      e.opens = some m → x.get m s = some (.Public row) →
      Leads x ⟨row.entity, row.variants, rest⟩ k q → Leads x ⟨e, variants, s :: rest⟩ (k + 1) q

/-- Why a path stops: the target, how many more segments it takes, and whether it is an error. -/
inductive Ends (x : Exports) : Stop → ResolvedTarget → Nat → Bool → Prop where
  | on_module {e : Entity} {variants : List Symbol} : e.IsModule →
      Ends x ⟨e, variants, []⟩ (.Deferred .Diagnosed) 0 true
  | not_public {e : Entity} {variants rest : List Symbol} {s : Symbol} {m : Nat} :
      e.opens = some m → (∀ row, x.get m s ≠ some (.Public row)) →
      Ends x ⟨e, variants, s :: rest⟩ (.Deferred .Diagnosed) 0 true
  | std_absent {n s : Symbol} {variants rest : List Symbol} :
      Ends x ⟨.PreludeModule n none, variants, s :: rest⟩ (.Deferred .StdAbsent) 0 false
  | poisoned {variants rest : List Symbol} :
      Ends x ⟨.Poisoned, variants, rest⟩ (.Deferred .Diagnosed) 0 false
  | variant {file decl i : Nat} {variants rest : List Symbol} {s : Symbol} :
      variants.idxOf? s = some i → Ends x ⟨.Item file decl, variants, s :: rest⟩
        (.Entity (.Variant file decl i.toUInt32)) 1 false
  | item {file decl : Nat} {variants rest : List Symbol} : (∀ s ∈ rest.head?, s ∉ variants) →
      Ends x ⟨.Item file decl, variants, rest⟩ (.Entity (.Item file decl)) 0 false
  | other {e : Entity} {variants rest : List Symbol} : ¬e.IsModule → e ≠ .Poisoned →
      (∀ file decl, e ≠ .Item file decl) → Ends x ⟨e, variants, rest⟩ (.Entity e) 0 false

structure Verdict where
  target : ResolvedTarget
  consumed : Nat
  fault : Bool

/-- Rule 16. -/
inductive Denotes (c : BodyCtx) : List Symbol → Verdict → Prop where
  | unresolved {name : Symbol} {tail : List Symbol} : Means c name none →
      Denotes c (name :: tail) ⟨.Deferred .Diagnosed, 0, true⟩
  | Local {name : Symbol} {tail : List Symbol} {n : UInt32} : Means c name (some (.Local n)) →
      Denotes c (name :: tail) ⟨.Local n, 1, false⟩
  | entity {name : Symbol} {tail variants : List Symbol} {e : Entity} {k extra : Nat} {q : Stop}
      {t : ResolvedTarget} {fault : Bool} : Means c name (some (.Entity e variants)) →
      Leads c.exports ⟨e, variants, tail⟩ k q → Ends c.exports q t extra fault →
      Denotes c (name :: tail) ⟨t, 1 + k + extra, fault⟩

variable {c c' : BodyCtx} {x : Exports} {name : Symbol}

/-! ### A name means one thing -/

/-- What the frames hold under a name, the innermost first. -/
def BodyCtx.bound (c : BodyCtx) (name : Symbol) : Option (Symbol × UInt32) :=
  c.frames.reverse.findSome? fun f => f.find? fun b => b.1 = name

theorem find_bound_none {f : List (Symbol × UInt32)} :
    (f.find? fun b => b.1 = name) = none ↔ ¬Binds f name := by
  unfold Binds
  rw [find?_eq_none]
  simp only [decide_eq_true_eq, not_exists, not_and]

theorem bound_none : c.bound name = none ↔ ∀ g ∈ c.frames, ¬Binds g name := by
  unfold BodyCtx.bound
  rw [findSome?_eq_none_iff]
  simp only [mem_reverse, find_bound_none]

theorem bound_some {b : Symbol × UInt32} :
    c.bound name = some b ↔ ∃ outer f inner, c.frames = outer ++ f :: inner ∧
      (∀ g ∈ inner, ¬Binds g name) ∧ f.find? (fun b => b.1 = name) = some b := by
  unfold BodyCtx.bound
  rw [findSome?_eq_some_iff]
  constructor
  · rintro ⟨inner, f, outer, hrev, hf, hinner⟩
    have hframes : c.frames = outer.reverse ++ f :: inner.reverse := by
      rw [← reverse_reverse c.frames, hrev]
      simp
    refine ⟨outer.reverse, f, inner.reverse, hframes, ?_, hf⟩
    intro g hg
    exact find_bound_none.mp (hinner g (mem_reverse.mp hg))
  · rintro ⟨outer, f, inner, hframes, hinner, hf⟩
    refine ⟨inner.reverse, f, outer.reverse, ?_, hf, ?_⟩
    · rw [hframes]
      simp
    · intro g hg
      exact find_bound_none.mpr (hinner g (mem_reverse.mp hg))

theorem lookup_eq : c.lookup name = match c.bound name with
    | some b => some (.Local b.2)
    | none => match c.module.lookup name with
      | some row => some (.Entity row.entity row.variants)
      | none => (c.prelude.get name).map fun e => .Entity e (c.prelude.variants name) :=
  rfl

theorem means_iff {r : Option Found} : Means c name r ↔ c.lookup name = r := by
  rw [lookup_eq]
  constructor
  · intro h
    cases h with
    | Local hframes hinner hf =>
      rw [bound_some.mpr ⟨_, _, _, hframes, hinner, hf⟩]
    | scope hfree hrow =>
      rw [bound_none.mpr hfree, hrow]
    | prelude hfree hrow he =>
      rw [bound_none.mpr hfree, hrow, he]
      rfl
    | nothing hfree hrow he =>
      rw [bound_none.mpr hfree, hrow, he]
      rfl
  · rintro rfl
    cases hb : c.bound name with
    | some b =>
      obtain ⟨outer, f, inner, hframes, hinner, hf⟩ := bound_some.mp hb
      exact .Local hframes hinner hf
    | none =>
      have hfree := bound_none.mp hb
      cases hrow : c.module.lookup name with
      | some row => exact .scope hfree hrow
      | none =>
        cases he : c.prelude.get name with
        | some e => exact .prelude hfree hrow he
        | none => exact .nothing hfree hrow he

/-! ### A path denotes one thing -/

theorem Entity.isModule_of_opens {e : Entity} {m : Nat} (h : e.opens = some m) : e.IsModule := by
  cases e with
  | Module _ => exact trivial
  | PreludeModule _ _ => exact trivial
  | _ => cases h

variable {extra : Nat} {t : ResolvedTarget} {fault : Bool}

/-- Where a path may go on, it does not stop. -/
theorem Ends.not_open {e : Entity} {variants rest : List Symbol} {s : Symbol} {m : Nat}
    {row : Row} (hm : e.opens = some m) (hrow : x.get m s = some (.Public row)) :
    ¬Ends x ⟨e, variants, s :: rest⟩ t extra fault := by
  intro h
  cases h with
  | not_public hm' hnone =>
    obtain rfl : m = _ := some.inj (hm.symm.trans hm')
    exact hnone row hrow
  | std_absent => cases hm
  | poisoned => cases hm
  | variant _ => cases hm
  | item _ => cases hm
  | other hmod _ _ => exact hmod (Entity.isModule_of_opens hm)

variable {p : Stop}

theorem Ends.unique {t' : ResolvedTarget} {extra' : Nat} {fault' : Bool}
    (h : Ends x p t extra fault) (h' : Ends x p t' extra' fault') :
    t = t' ∧ extra = extra' ∧ fault = fault' := by
  cases h with
  | on_module hmod =>
    cases h' with
    | on_module _ => exact ⟨rfl, rfl, rfl⟩
    | poisoned => exact hmod.elim
    | item _ => exact hmod.elim
    | other hnot _ _ => exact absurd hmod hnot
  | not_public hm hnone =>
    cases h' with
    | not_public _ _ => exact ⟨rfl, rfl, rfl⟩
    | std_absent => cases hm
    | poisoned => cases hm
    | variant _ => cases hm
    | item _ => cases hm
    | other hnot _ _ => exact absurd (Entity.isModule_of_opens hm) hnot
  | std_absent =>
    cases h' with
    | not_public hm _ => cases hm
    | std_absent => exact ⟨rfl, rfl, rfl⟩
    | other hnot _ _ => exact absurd trivial hnot
  | poisoned =>
    cases h' with
    | on_module hmod => exact hmod.elim
    | not_public hm _ => cases hm
    | poisoned => exact ⟨rfl, rfl, rfl⟩
    | other _ hne _ => exact absurd rfl hne
  | variant hi =>
    cases h' with
    | not_public hm _ => cases hm
    | variant hi' =>
      obtain rfl := some.inj (hi.symm.trans hi')
      exact ⟨rfl, rfl, rfl⟩
    | item hnot =>
      have hmem := isSome_idxOf?.mp (isSome_of_mem hi)
      exact absurd hmem (hnot _ rfl)
    | other _ _ hne => exact absurd rfl (hne _ _)
  | item hnot =>
    cases h' with
    | on_module hmod => exact hmod.elim
    | not_public hm _ => cases hm
    | variant hi =>
      have hmem := isSome_idxOf?.mp (isSome_of_mem hi)
      exact absurd hmem (hnot _ rfl)
    | item _ => exact ⟨rfl, rfl, rfl⟩
    | other _ _ hne => exact absurd rfl (hne _ _)
  | other hnot hpoison hitem =>
    cases h' with
    | on_module hmod => exact absurd hmod hnot
    | not_public hm _ => exact absurd (Entity.isModule_of_opens hm) hnot
    | std_absent => exact absurd trivial hnot
    | poisoned => exact absurd rfl hpoison
    | variant _ => exact absurd rfl (hitem _ _)
    | item _ => exact absurd rfl (hitem _ _)
    | other _ _ _ => exact ⟨rfl, rfl, rfl⟩

theorem Leads.unique {q q' : Stop} {k k' extra' : Nat} {t' : ResolvedTarget}
    {fault' : Bool} (h : Leads x p k q) (he : Ends x q t extra fault)
    (h' : Leads x p k' q') (he' : Ends x q' t' extra' fault') :
    k = k' ∧ t = t' ∧ extra = extra' ∧ fault = fault' := by
  induction h generalizing k' with
  | here p =>
    cases h' with
    | here _ => exact ⟨rfl, he.unique he'⟩
    | on hm hrow _ => exact absurd he (Ends.not_open hm hrow)
  | on hm hrow _ ih =>
    cases h' with
    | here _ => exact absurd he' (Ends.not_open hm hrow)
    | on hm' hrow' hleads =>
      obtain rfl := some.inj (hm.symm.trans hm')
      obtain rfl := (Export.Public.inj (some.inj (hrow.symm.trans hrow')))
      obtain ⟨rfl, hrest⟩ := ih he hleads
      exact ⟨rfl, hrest⟩

theorem Denotes.unique {names : List Symbol} {v v' : Verdict} (h : Denotes c names v)
    (h' : Denotes c names v') : v = v' := by
  cases h with
  | unresolved hmeans =>
    cases h' with
    | unresolved _ => rfl
    | Local hmeans' => cases (means_iff.mp hmeans).symm.trans (means_iff.mp hmeans')
    | entity hmeans' _ _ => cases (means_iff.mp hmeans).symm.trans (means_iff.mp hmeans')
  | Local hmeans =>
    cases h' with
    | unresolved hmeans' => cases (means_iff.mp hmeans).symm.trans (means_iff.mp hmeans')
    | Local hmeans' =>
      cases (means_iff.mp hmeans).symm.trans (means_iff.mp hmeans')
      rfl
    | entity hmeans' _ _ => cases (means_iff.mp hmeans).symm.trans (means_iff.mp hmeans')
  | entity hmeans hleads hends =>
    cases h' with
    | unresolved hmeans' => cases (means_iff.mp hmeans).symm.trans (means_iff.mp hmeans')
    | Local hmeans' => cases (means_iff.mp hmeans).symm.trans (means_iff.mp hmeans')
    | entity hmeans' hleads' hends' =>
      cases (means_iff.mp hmeans).symm.trans (means_iff.mp hmeans')
      obtain ⟨rfl, rfl, rfl, rfl⟩ := hleads.unique hends hleads' hends'
      rfl

/-- A fault leaves the node to no one: it was diagnosed. -/
theorem Ends.diagnosed (h : Ends x p t extra true) : t = .Deferred .Diagnosed := by
  cases h with
  | on_module _ => rfl
  | not_public _ _ => rfl

theorem Denotes.diagnosed {names : List Symbol} {v : Verdict} (h : Denotes c names v)
    (hv : v.fault = true) : v.target = .Deferred .Diagnosed := by
  cases h with
  | unresolved _ => rfl
  | Local _ => cases hv
  | entity _ _ hends =>
    obtain rfl : _ = true := hv
    exact hends.diagnosed

end Fors.Resolve
