import Mathlib.Data.List.Induction
import Fors.Fmir.Listing

/-!
# What a layout holds

Laying out a line only appends to the pools, so what one line put there is still found behind it
when all lines are laid out.

Principal result: `layout_reads`.
-/

namespace Fors.Fmir

open List

/-- Each pool starts with the rows it had before. -/
structure Pools.Grows (p q : Pools) : Prop where
  vals : p.vals.entries <+: q.vals.entries
  rows : p.insts.rows <+: q.insts.rows
  aliases : p.insts.aliases <+: q.insts.aliases
  operands : p.insts.operands <+: q.insts.operands
  calls : p.insts.calls <+: q.insts.calls
  switches : p.insts.switches <+: q.insts.switches
  switch_arms : p.insts.switch_arms <+: q.insts.switch_arms
  roots : p.roots <+: q.roots
  dests : p.dests <+: q.dests

/-- The columns an instruction pool has in the text form, the others stay empty. -/
structure InstPool.Extends (p q : InstPool) : Prop where
  rows : q.rows = p.rows
  aliases : q.aliases = p.aliases
  operands : p.operands <+: q.operands
  calls : p.calls <+: q.calls
  switches : p.switches <+: q.switches
  switch_arms : p.switch_arms <+: q.switch_arms
  reduces : q.reduces = p.reduces

/-- The operands are where the slots say. -/
def Operands.Reads (insts : InstPool) (slots : Slots) : Operands → Prop
  | .slots vs => slots = slots_of (vs.map Prod.snd)
  | .call sym args => ∃ pre calls, pre ++ args <+: insts.operands ∧
      calls ++ [⟨.Intrinsic sym,
        ⟨UInt32.ofNat pre.length, UInt32.ofNat (pre ++ args).length⟩⟩] <+: insts.calls ∧
      slots = (UInt32.ofNat calls.length, NO_OPERAND, NO_OPERAND)
  | .switch discr default arms => ∃ pre switches, pre ++ arms <+: insts.switch_arms ∧
      switches ++ [⟨discr, default,
        ⟨UInt32.ofNat pre.length, UInt32.ofNat (pre ++ arms).length⟩⟩] <+: insts.switches ∧
      slots = (UInt32.ofNat switches.length, NO_OPERAND, NO_OPERAND)

def SeedSpec.Reads (roots : List UInt32) (alias_ : AliasSeed) : SeedSpec → Prop
  | .None => alias_ = .None
  | .Conv c => alias_ = .Conv c
  | .Own root => ∃ pre, pre ++ [root] <+: roots ∧ alias_ = .Own (UInt32.ofNat pre.length)
  | .Arena id => alias_ = .Arena id
  | .Split root side =>
    ∃ pre, pre ++ [root] <+: roots ∧ alias_ = .Split (UInt32.ofNat pre.length) side

def Line.seed (l : Line) : SeedSpec :=
  (l.dest.map Prod.snd).getD .None

/-- The value column of a line: value number `next` if it defines one. -/
def Line.DestReads (p : Pools) (k next : Nat) (l : Line) : Prop :=
  match l.dest with
  | none => p.dests[k]? = some none
  | some (v, _) => p.dests[k]? = some (some (UInt32.ofNat next)) ∧
      p.vals.entries[next]? = some (v.row (.Inst (UInt32.ofNat k)), none)

/-- Line number `k` is in the pools. -/
structure Line.Reads (p : Pools) (k next : Nat) (l : Line) : Prop where
  row : ∃ slots, l.operands.Reads p.insts slots ∧ p.insts.rows[k]? = some (l.row slots)
  alias_ : ∃ a, l.seed.Reads p.roots a ∧ p.insts.aliases[k]? = some a
  dest : l.DestReads p k next

section

variable {p q : Pools} {l : Line} {ls ms : List Line} {params : List ParamLine} {k next nb nv : Nat}

theorem getElem?_grow {α : Type} {xs ys : List α} {i : Nat} {x : α} (h : xs <+: ys)
    (hx : xs[i]? = some x) : ys[i]? = some x := by
  obtain ⟨zs, rfl⟩ := h
  rw [List.getElem?_append_left (List.getElem?_eq_some_iff.mp hx).1]
  exact hx

/-! ## What was read stays readable -/

theorem Pools.Grows.refl (p : Pools) : p.Grows p := by
  constructor <;> exact prefix_rfl

theorem Pools.Grows.trans {r : Pools} (h : p.Grows q) (h' : q.Grows r) : p.Grows r where
  vals := h.vals.trans h'.vals
  rows := h.rows.trans h'.rows
  aliases := h.aliases.trans h'.aliases
  operands := h.operands.trans h'.operands
  calls := h.calls.trans h'.calls
  switches := h.switches.trans h'.switches
  switch_arms := h.switch_arms.trans h'.switch_arms
  roots := h.roots.trans h'.roots
  dests := h.dests.trans h'.dests

theorem Operands.Reads.grow {o : Operands} {slots : Slots} (hgrow : p.Grows q)
    (h : o.Reads p.insts slots) : o.Reads q.insts slots := by
  cases o with
  | slots vs => exact h
  | call sym args =>
    obtain ⟨pre, calls, hargs, hcall, rfl⟩ := h
    exact ⟨pre, calls, hargs.trans hgrow.operands, hcall.trans hgrow.calls, rfl⟩
  | switch discr default arms =>
    obtain ⟨pre, switches, harms, hswitch, rfl⟩ := h
    exact ⟨pre, switches, harms.trans hgrow.switch_arms, hswitch.trans hgrow.switches, rfl⟩

theorem SeedSpec.Reads.grow {seed : SeedSpec} {a : AliasSeed} {roots more : List UInt32}
    (hgrow : roots <+: more) (h : seed.Reads roots a) : seed.Reads more a := by
  cases seed with
  | None | Conv | Arena => exact h
  | Own root | Split root =>
    obtain ⟨pre, hroot, rfl⟩ := h
    exact ⟨pre, hroot.trans hgrow, rfl⟩

theorem Line.Reads.grow (hgrow : p.Grows q) (h : l.Reads p k next) : l.Reads q k next where
  row := by
    obtain ⟨slots, hslots, hrow⟩ := h.row
    exact ⟨slots, hslots.grow hgrow, getElem?_grow hgrow.rows hrow⟩
  alias_ := by
    obtain ⟨a, ha, halias⟩ := h.alias_
    exact ⟨a, ha.grow hgrow.roots, getElem?_grow hgrow.aliases halias⟩
  dest := by
    have hdest := h.dest
    unfold Line.DestReads at hdest ⊢
    split at hdest
    · exact getElem?_grow hgrow.dests hdest
    · exact ⟨getElem?_grow hgrow.dests hdest.1, getElem?_grow hgrow.vals hdest.2⟩

/-! ## One line -/

theorem Operands.push_extends (insts : InstPool) (o : Operands) :
    insts.Extends (o.push insts).2 := by
  cases o <;> constructor <;>
    simp [Operands.push, InstPool.push_operands, InstPool.push_call, InstPool.push_switch]

theorem Operands.push_reads (insts : InstPool) (o : Operands) :
    o.Reads (o.push insts).2 (o.push insts).1 := by
  cases o with
  | slots vs => rfl
  | call sym args =>
    exact ⟨insts.operands, insts.calls, prefix_rfl, prefix_rfl, rfl⟩
  | switch discr default arms =>
    exact ⟨insts.switch_arms, insts.switches, prefix_rfl, prefix_rfl, rfl⟩

/-- The place of a root is the one that was interned. -/
theorem intern_root_spec (roots : List UInt32) (root : UInt32) :
    roots <+: (intern_root roots root).2 ∧
      ∃ pre, pre ++ [root] <+: (intern_root roots root).2 ∧
        (intern_root roots root).1 = UInt32.ofNat pre.length := by
  unfold intern_root
  cases hfound : roots.idxOf? root with
  | none => exact ⟨prefix_append _ _, roots, prefix_rfl, rfl⟩
  | some i =>
    refine ⟨prefix_rfl, ?_⟩
    obtain ⟨hlt, heq, -⟩ := findIdx?_eq_some_iff_getElem.mp hfound
    have hroot : roots[i] = root := by simpa using heq
    refine ⟨roots.take i, ⟨roots.drop (i + 1), ?_⟩, ?_⟩
    · rw [append_assoc, singleton_append, ← hroot, getElem_cons_drop,
        take_append_drop]
    · rw [length_take_of_le (Nat.le_of_lt hlt)]

theorem SeedSpec.push_reads (roots : List UInt32) (seed : SeedSpec) :
    roots <+: (seed.push roots).2 ∧ seed.Reads (seed.push roots).2 (seed.push roots).1 := by
  cases seed with
  | None | Conv | Arena => exact ⟨prefix_rfl, rfl⟩
  | Own root | Split root =>
    obtain ⟨hgrow, pre, hroot, hid⟩ := intern_root_spec roots root
    exact ⟨hgrow, pre, hroot, by rw [SeedSpec.push, hid]⟩

theorem Pools.push_none (hdest : l.dest = none) : p.push l =
    ⟨p.vals, ((l.operands.push p.insts).2.push (l.row (l.operands.push p.insts).1) .None).2,
      p.roots, p.dests ++ [none]⟩ := by
  simp [Pools.push, hdest]

theorem Pools.push_some {v : Typed} {e : SeedSpec} (hdest : l.dest = some (v, e)) :
    p.push l = ⟨(p.vals.push (v.row (.Inst (UInt32.ofNat p.insts.rows.length)))).2,
      ((l.operands.push p.insts).2.push (l.row (l.operands.push p.insts).1)
        (e.push p.roots).1).2,
      (e.push p.roots).2, p.dests ++ [some (UInt32.ofNat p.vals.entries.length)]⟩ := by
  simp [Pools.push, hdest, InstPool.push, ValPool.push, (l.operands.push_extends p.insts).rows]

theorem Pools.push_grows (p : Pools) (l : Line) : p.Grows (p.push l) := by
  have hext := l.operands.push_extends p.insts
  cases hdest : l.dest with
  | none =>
    rw [Pools.push_none hdest]
    constructor <;> simp [InstPool.push, hext.rows, hext.aliases, hext.operands, hext.calls,
      hext.switches, hext.switch_arms]
  | some dest =>
    obtain ⟨v, seed⟩ := dest
    rw [Pools.push_some hdest]
    constructor <;> simp [InstPool.push, ValPool.push, hext.rows, hext.aliases, hext.operands,
      hext.calls, hext.switches, hext.switch_arms, (seed.push_reads p.roots).1]

/-- The columns that keep step with the instructions. -/
structure Pools.Even (p : Pools) (n next : Nat) : Prop where
  rows : p.insts.rows.length = n
  aliases : p.insts.aliases.length = n
  dests : p.dests.length = n
  vals : p.vals.entries.length = next

theorem Pools.Even.push (h : p.Even k next) : (p.push l).Even (k + 1) (next + defs [l]) := by
  have hext := l.operands.push_extends p.insts
  cases hdest : l.dest with
  | none =>
    rw [Pools.push_none hdest]
    constructor <;> simp [InstPool.push, hext.rows, hext.aliases, h.rows, h.aliases, h.dests,
      h.vals, defs, hdest]
  | some dest =>
    rw [Pools.push_some (v := dest.1) (e := dest.2) hdest]
    constructor <;> simp [InstPool.push, ValPool.push, hext.rows, hext.aliases, h.rows, h.aliases,
      h.dests, h.vals, defs, hdest]

theorem Pools.push_reads (h : p.Even k next) : l.Reads (p.push l) k next := by
  have hext := l.operands.push_extends p.insts
  have hrows : (l.operands.push p.insts).2.rows.length = k := by rw [hext.rows, h.rows]
  have haliases : (l.operands.push p.insts).2.aliases.length = k := by rw [hext.aliases, h.aliases]
  cases hdest : l.dest with
  | none =>
    rw [Pools.push_none hdest]
    refine ⟨⟨_, l.operands.push_reads p.insts, ?_⟩, ⟨.None, ?_, ?_⟩, ?_⟩
    · simp [InstPool.push, ← hrows]
    · simp [Line.seed, hdest, SeedSpec.Reads]
    · simp [InstPool.push, ← haliases]
    · simp [Line.DestReads, hdest, ← h.dests]
  | some dest =>
    obtain ⟨v, seed⟩ := dest
    have hseed : l.seed = seed := by simp [Line.seed, hdest]
    rw [Pools.push_some hdest]
    refine ⟨⟨_, l.operands.push_reads p.insts, ?_⟩, ⟨(seed.push p.roots).1, ?_, ?_⟩, ?_⟩
    · simp [InstPool.push, ← hrows]
    · rw [hseed]
      exact (seed.push_reads p.roots).2
    · simp [InstPool.push, ← haliases]
    · rw [h.vals, h.rows]
      simp [Line.DestReads, hdest, ← h.dests, ← h.vals, ValPool.push]

/-! ## All lines -/

theorem layout_even (params : List ParamLine) (ls : List Line) :
    (layout params ls).Even ls.length (params.length + defs ls) := by
  induction ls using List.reverseRecOn with
  | nil => constructor <;> simp [layout, Pools.new, defs]
  | append_singleton ls l ih =>
    rw [layout_concat, length_append, length_singleton, defs_append, ← Nat.add_assoc]
    exact ih.push

theorem layout_grows (params : List ParamLine) (ls ms : List Line) :
    (layout params ls).Grows (layout params (ls ++ ms)) := by
  induction ms using List.reverseRecOn with
  | nil =>
    rw [append_nil]
    exact .refl _
  | append_singleton ms l ih =>
    rw [← append_assoc, layout_concat]
    exact ih.trans (Pools.push_grows _ l)

/-- Every line is where its number says. -/
theorem layout_reads (params : List ParamLine) (ls : List Line) (l : Line) (ms : List Line) :
    l.Reads (layout params (ls ++ l :: ms)) ls.length (params.length + defs ls) := by
  have hreads : l.Reads (layout params (ls ++ [l])) ls.length (params.length + defs ls) := by
    rw [layout_concat]
    exact Pools.push_reads (layout_even params ls)
  have hgrow := layout_grows params (ls ++ [l]) ms
  rw [append_assoc, singleton_append] at hgrow
  exact hreads.grow hgrow

end

end Fors.Fmir
