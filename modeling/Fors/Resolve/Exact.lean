import Fors.Resolve.Path

/-!
# Paths resolve exactly where their count fits a byte

The loop follows a path as Rule 16 says and always ends: an entity is left once for every segment,
and a prelude module once more for the module it stands for. What it records is right but for the
number of segments, which is kept in a byte; the parser bounds no path, and at 256 segments the
byte starts again at 0.

Principal result: `resolves_exactly_iff`.
-/

namespace Fors.Resolve

open BodyCtx List

open Index (Symbol Range)

variable {c c' : BodyCtx} {node : PathNode} {idx n : Nat}

/-! ## One row is recorded -/

/-- One row at the node, and one diagnostic where there is a fault. -/
structure Records (c c' : BodyCtx) (node : PathNode) (t : ResolvedTarget) (n : Nat)
    (fault : Bool) : Prop where
  row : c'.uses = c.uses.push node.id t n.toUInt8
  diags : ∃ ds, c'.diags = c.diags ++ ds ∧ ds.length = fault.toNat

theorem records_record (t : ResolvedTarget) (n : Nat) :
    Records c (c.record node.id t n.toUInt8) node t n false :=
  ⟨rfl, [], (append_nil _).symm, rfl⟩

theorem records_report (range : Range) (rule n : Nat) (message : String) (fixes : List Diag.Fix) :
    Records c ((c.report range rule message fixes).record node.id (.Deferred .Diagnosed) n.toUInt8)
      node (.Deferred .Diagnosed) n true :=
  ⟨rfl, [_], rfl, rfl⟩

theorem records_ends_on_module (idx : Nat) :
    Records c (c.ends_on_module node idx) node (.Deferred .Diagnosed) idx true :=
  records_report _ _ _ _ _

theorem records_not_exported (m : Nat) (r : Range) (other : Option Export) (idx : Nat) :
    Records c (c.not_exported node m r other idx) node (.Deferred .Diagnosed) idx true :=
  records_report _ _ _ _ _

/-! ## The loop -/

/-- The rounds left at an entity with `r` segments behind it. -/
def need (e : Entity) (r : Nat) : Nat :=
  match e with
  | .Module _ => 2 * r + 1
  | .PreludeModule _ _ => 2 * r + 2
  | _ => 1

theorem need_pos (e : Entity) (r : Nat) : 0 < need e r := by
  cases e <;> simp only [need] <;> omega

theorem need_le (e : Entity) (r : Nat) : need e r ≤ 2 * r + 2 := by
  cases e <;> simp only [need] <;> omega

/-- From an entity with the segments from `idx` on behind it, the loop records one verdict. -/
def Follows (c : BodyCtx) (node : PathNode) (segs : List (Symbol × Range)) (e : Entity)
    (variants : List Symbol) (idx n : Nat) : Prop :=
  ∃ c' k q t extra fault, (∀ fuel, n ≤ fuel → c.follow node segs fuel e variants idx = some c') ∧
    Leads c.exports ⟨e, variants, (segs.drop idx).map Prod.fst⟩ k q ∧
      Ends c.exports q t extra fault ∧ Records c c' node t (idx + k + extra) fault

variable {segs : List (Symbol × Range)} {e : Entity} {variants : List Symbol}

/-- The loop stops in this round. -/
theorem Follows.stop {t : ResolvedTarget} {extra : Nat} {fault : Bool}
    (hround : ∀ fuel, c.follow node segs (fuel + 1) e variants idx = some c')
    (hends : Ends c.exports ⟨e, variants, (segs.drop idx).map Prod.fst⟩ t extra fault)
    (hrec : Records c c' node t (idx + extra) fault) :
    Follows c node segs e variants idx (n + 1) := by
  refine ⟨c', 0, _, t, extra, fault, ?_, .here _, hends, hrec⟩
  intro fuel hfuel
  obtain ⟨f, rfl⟩ : ∃ f, fuel = f + 1 := ⟨fuel - 1, by omega⟩
  exact hround f

variable {s : Symbol}

/-- The loop goes on in the next round. -/
theorem Follows.next {r : Range} {m : Nat} {row : Row}
    (hround : ∀ fuel, c.follow node segs (fuel + 1) e variants idx =
      c.follow node segs fuel row.entity row.variants (idx + 1))
    (hseg : segs[idx]? = some (s, r)) (hm : e.opens = some m)
    (hrow : c.exports.get m s = some (.Public row))
    (h : Follows c node segs row.entity row.variants (idx + 1) n) :
    Follows c node segs e variants idx (n + 1) := by
  obtain ⟨c', k, q, t, extra, fault, hrun, hleads, hends, hrec⟩ := h
  refine ⟨c', k + 1, q, t, extra, fault, ?_, ?_, hends, ?_⟩
  · intro fuel hfuel
    obtain ⟨f, rfl⟩ : ∃ f, fuel = f + 1 := ⟨fuel - 1, by omega⟩
    rw [hround, hrun f (by omega)]
  · obtain ⟨hi, hget⟩ := List.getElem?_eq_some_iff.mp hseg
    rw [List.drop_eq_getElem_cons hi, hget, List.map_cons]
    exact .on hm hrow hleads
  · rwa [show idx + (k + 1) + extra = idx + 1 + k + extra by omega]

theorem drop_map_of_none (h : segs[idx]? = none) : (segs.drop idx).map Prod.fst = [] := by
  rw [drop_eq_nil_of_le (getElem?_eq_none_iff.mp h), map_nil]

theorem drop_map_of_some {r : Range} (h : segs[idx]? = some (s, r)) :
    (segs.drop idx).map Prod.fst = s :: (segs.drop (idx + 1)).map Prod.fst := by
  obtain ⟨hi, hget⟩ := List.getElem?_eq_some_iff.mp h
  rw [List.drop_eq_getElem_cons hi, hget, List.map_cons]

theorem follow_module {m : Nat} (ih : ∀ (e : Entity) (variants : List Symbol) (idx : Nat),
      need e (segs.length - idx) ≤ n → Follows c node segs e variants idx n)
    (h : need (.Module m) (segs.length - idx) ≤ n + 1) :
    Follows c node segs (.Module m) variants idx (n + 1) := by
  cases hseg : segs[idx]? with
  | none =>
    have hends : Ends c.exports ⟨.Module m, variants, (segs.drop idx).map Prod.fst⟩
        (.Deferred .Diagnosed) 0 true := by
      rw [drop_map_of_none hseg]
      exact .on_module trivial
    refine .stop ?_ hends (records_ends_on_module idx)
    intro fuel
    rw [follow, hseg]
  | some seg =>
    obtain ⟨s, r⟩ := seg
    have hstop (hnone : ∀ row, c.exports.get m s ≠ some (.Public row)) :
        Follows c node segs (.Module m) variants idx (n + 1) := by
      have hends : Ends c.exports ⟨.Module m, variants, (segs.drop idx).map Prod.fst⟩
          (.Deferred .Diagnosed) 0 true := by
        rw [drop_map_of_some hseg]
        exact .not_public rfl hnone
      refine .stop ?_ hends (records_not_exported m r (c.exports.get m s) idx)
      intro fuel
      rw [follow, hseg]
      dsimp only
      split
      · next row hrow => exact absurd hrow (hnone row)
      · rfl
    cases hget : c.exports.get m s with
    | none => exact hstop (by simp [hget])
    | some ex =>
      cases ex with
      | Private => exact hstop (by simp [hget])
      | Public row =>
        have hi := (List.getElem?_eq_some_iff.mp hseg).1
        have hneed := need_le row.entity (segs.length - (idx + 1))
        simp only [need] at h
        refine .next ?_ hseg rfl hget (ih _ _ _ (by omega))
        intro fuel
        rw [follow, hseg]
        dsimp only
        rw [hget]

theorem follow_prelude_module {m : Option Nat}
    (ih : ∀ (e : Entity) (variants : List Symbol) (idx : Nat),
      need e (segs.length - idx) ≤ n → Follows c node segs e variants idx n)
    (h : need (.PreludeModule s m) (segs.length - idx) ≤ n + 1) :
    Follows c node segs (.PreludeModule s m) variants idx (n + 1) := by
  cases hseg : segs[idx]? with
  | none =>
    have hi := List.getElem?_eq_none_iff.mp hseg
    have hends : Ends c.exports ⟨.PreludeModule s m, variants, (segs.drop idx).map Prod.fst⟩
        (.Deferred .Diagnosed) 0 true := by
      rw [drop_map_of_none hseg]
      exact .on_module trivial
    refine .stop ?_ hends (records_ends_on_module idx)
    intro fuel
    cases m with
    | none => rw [follow, if_neg (by omega)]
    | some m => rw [follow, if_neg (by omega)]
  | some seg =>
    have hi := (List.getElem?_eq_some_iff.mp hseg).1
    cases m with
    | none =>
      have hends : Ends c.exports ⟨.PreludeModule s none, variants, (segs.drop idx).map Prod.fst⟩
          (.Deferred .StdAbsent) 0 false := by
        rw [drop_map_of_some hseg]
        exact .std_absent
      refine .stop ?_ hends (records_record _ idx)
      intro fuel
      rw [follow, if_pos hi]
    | some m =>
      -- the module it stands for goes on in its place, with the same segments behind it
      obtain ⟨c', k, q, t, extra, fault, hrun, hleads, hends, hrec⟩ :=
        ih (.Module m) variants idx (by simp only [need] at h ⊢; omega)
      have hround (fuel : Nat) (hfuel : n + 1 ≤ fuel) :
          c.follow node segs fuel (.PreludeModule s (some m)) variants idx = some c' := by
        obtain ⟨f, rfl⟩ : ∃ f, fuel = f + 1 := ⟨fuel - 1, by omega⟩
        rw [follow, if_pos hi]
        exact hrun f (by omega)
      rw [drop_map_of_some hseg] at hleads
      cases hleads with
      | here _ =>
        refine ⟨c', 0, _, t, extra, fault, hround, .here _, ?_, hrec⟩
        rw [drop_map_of_some hseg]
        cases hends with
        | not_public hm hnone => exact .not_public hm hnone
        | other hmod _ _ => exact absurd trivial hmod
      | on hm hrow hrest =>
        refine ⟨c', _, q, t, extra, fault, hround, ?_, hends, hrec⟩
        rw [drop_map_of_some hseg]
        exact .on hm hrow hrest

theorem follow_item {file decl : Nat} :
    Follows c node segs (.Item file decl) variants idx (n + 1) := by
  have hitem (hvar : (segs[idx]?.bind fun s => variants.idxOf? s.1) = none)
      (hrest : ∀ s ∈ ((segs.drop idx).map Prod.fst).head?, s ∉ variants) :
      Follows c node segs (.Item file decl) variants idx (n + 1) := by
    refine .stop ?_ (.item hrest) (records_record _ idx)
    intro fuel
    rw [follow, hvar]
  cases hseg : segs[idx]? with
  | none =>
    refine hitem (by rw [hseg]; rfl) ?_
    rw [drop_map_of_none hseg]
    rintro s ⟨⟩
  | some seg =>
    obtain ⟨s, r⟩ := seg
    cases hvar : variants.idxOf? s with
    | none =>
      refine hitem (by rw [hseg]; exact hvar) ?_
      rw [drop_map_of_some hseg]
      rintro s' ⟨⟩
      exact idxOf?_eq_none_iff.mp hvar
    | some i =>
      have hends : Ends c.exports ⟨.Item file decl, variants, (segs.drop idx).map Prod.fst⟩
          (.Entity (.Variant file decl i.toUInt32)) 1 false := by
        rw [drop_map_of_some hseg]
        exact .variant hvar
      refine .stop ?_ hends (records_record _ (idx + 1))
      intro fuel
      rw [follow, hseg, Option.bind_some, hvar]

/-- One round, and by induction on the rounds left, the loop. -/
theorem follow_spec : ∀ (n : Nat) (e : Entity) (variants : List Symbol) (idx : Nat),
    need e (segs.length - idx) ≤ n → Follows c node segs e variants idx n := by
  intro n
  induction n with
  | zero =>
    intro e variants idx h
    have hpos := need_pos e (segs.length - idx)
    omega
  | succ n ih =>
    intro e variants idx h
    cases e with
    | Module m => exact follow_module ih h
    | PreludeModule s m => exact follow_prelude_module ih h
    | Item file decl => exact follow_item
    | Poisoned =>
      exact .stop (fun fuel => by rw [follow]) .poisoned (records_record _ idx)
    | Variant file decl index =>
      exact .stop (fun fuel => by rw [follow] <;> simp) (.other id (by simp) (by simp))
        (records_record _ idx)
    | PreludeType s =>
      exact .stop (fun fuel => by rw [follow] <;> simp) (.other id (by simp) (by simp))
        (records_record _ idx)
    | PreludeValue s =>
      exact .stop (fun fuel => by rw [follow] <;> simp) (.other id (by simp) (by simp))
        (records_record _ idx)

/-! ## A whole path -/

/-- The names of a path. -/
def PathNode.names (node : PathNode) : List Symbol :=
  (segments_with_ranges node).map Prod.fst

/-- Rounds enough for every path of a node. -/
def PathNode.rounds (node : PathNode) : Nat :=
  2 * node.names.length

/-- A path with a segment is resolved, and one verdict is recorded. -/
theorem resolve_records (c : BodyCtx) (h : node.names ≠ []) :
    ∃ c' v, (∀ fuel, node.rounds ≤ fuel → c.resolve_path_within node fuel = some c') ∧
      Denotes c node.names v ∧ Records c c' node v.target v.consumed v.fault := by
  unfold PathNode.rounds
  unfold PathNode.names at h ⊢
  cases hsegs : segments_with_ranges node with
  | nil =>
    rw [hsegs] at h
    exact absurd rfl h
  | cons seg tail =>
    obtain ⟨name0, range0⟩ := seg
    cases hfound : c.lookup name0 with
    | none =>
      refine ⟨c.unresolved_head node name0 range0 (tail.length + 1), _, ?_,
        .unresolved (means_iff.mpr hfound), records_report _ _ 0 _ _⟩
      intro fuel _
      simp [resolve_path_within, hsegs, hfound]
    | some found =>
      cases found with
      | Local n =>
        refine ⟨_, _, ?_, .Local (means_iff.mpr hfound), records_record _ 1⟩
        intro fuel _
        simp only [resolve_path_within, hsegs, hfound]
        rfl
      | Entity e variants =>
        have hneed := need_le e (((name0, range0) :: tail).length - 1)
        have hfollows : Follows c node ((name0, range0) :: tail) e variants 1 _ :=
          follow_spec _ e variants 1 hneed
        obtain ⟨c', k, q, t, extra, fault, hfollow, hleads, hends, hrec⟩ := hfollows
        refine ⟨c', ⟨t, 1 + k + extra, fault⟩, ?_,
          .entity (means_iff.mpr hfound) hleads hends, hrec⟩
        intro fuel hfuel
        simp only [resolve_path_within, hsegs, hfound]
        refine hfollow fuel ?_
        simp only [length_map, length_cons] at hfuel ⊢
        omega

/-- What Rule 16 asks of a path's node: with rounds enough, one row with the target and the number of
segments it accounts for, and a diagnostic where the path is at fault. -/
def ResolvesExactly (c : BodyCtx) (node : PathNode) : Prop :=
  ∃ c' v row, (∀ fuel, node.rounds ≤ fuel → c.resolve_path_within node fuel = some c') ∧
    Denotes c node.names v ∧ c'.uses.rows = c.uses.rows ++ [row] ∧ row.node = node.id ∧
    row.target = v.target ∧ row.consumed.toNat = v.consumed ∧
    ((∃ d, c'.diags = c.diags ++ [d]) ↔ v.fault = true) ∧
    (v.fault = false → c'.diags = c.diags) ∧
    (v.fault = true → row.target = .Deferred .Diagnosed)

theorem Records.pushed {t : ResolvedTarget} {fault : Bool} (h : Records c c' node t n fault) :
    ((∃ d, c'.diags = c.diags ++ [d]) ↔ fault = true) ∧
      (fault = false → c'.diags = c.diags) := by
  obtain ⟨ds, hds, hlen⟩ := h.diags
  cases fault with
  | false =>
    obtain rfl : ds = [] := eq_nil_of_length_eq_zero hlen
    rw [append_nil] at hds
    rw [hds]
    simp
  | true =>
    obtain ⟨d, rfl⟩ := length_eq_one_iff.mp hlen
    exact ⟨⟨fun _ => rfl, fun _ => ⟨d, hds⟩⟩, nofun⟩

theorem denotes_ne_nil {names : List Symbol} {v : Verdict} (h : Denotes c names v) :
    names ≠ [] := by
  cases h <;> exact cons_ne_nil _ _

theorem resolves_exactly_iff (c : BodyCtx) (node : PathNode) :
    ResolvesExactly c node ↔
      node.names ≠ [] ∧ ∀ v, Denotes c node.names v → v.consumed < 256 := by
  constructor
  · rintro ⟨c', v, row, -, hdenotes, -, -, -, hconsumed, -⟩
    refine ⟨denotes_ne_nil hdenotes, ?_⟩
    intro v' hdenotes'
    obtain rfl := hdenotes.unique hdenotes'
    rw [← hconsumed]
    exact row.consumed.toNat_lt
  · rintro ⟨hne, hsmall⟩
    obtain ⟨c', v, hrun, hdenotes, hrec⟩ := resolve_records c hne
    have hconsumed : v.consumed.toUInt8.toNat = v.consumed :=
      UInt8.toNat_ofNat_of_lt' (hsmall v hdenotes)
    obtain ⟨hpushed, hclean⟩ := hrec.pushed
    refine ⟨c', v, ⟨node.id, v.target, v.consumed.toUInt8⟩, hrun, hdenotes, ?_, rfl, rfl,
      hconsumed, hpushed, hclean, hdenotes.diagnosed⟩
    rw [hrec.row]
    rfl

/-! ### A path of 256 segments -/

/-- Module `i` of a chain, which exports the next one as `m` and an item as `x`. -/
def chained (i : Nat) : ModuleScope where
  rows := [⟨"m", .Module (i + 1), .Use, .Public, []⟩, ⟨"x", .Item i 0, .Item, .Public, []⟩]
  index := fun s => if s = "m" then some 0 else if s = "x" then some 1 else none

/-- In the first module of a chain of 256. -/
def chain_ctx : BodyCtx where
  root := []
  modules := ⟨(List.range 256).map fun i => ["m" ++ toString i], fun _ => none⟩
  exports := ⟨(List.range 256).map chained⟩
  prelude := ⟨fun _ => none, fun _ => none⟩
  module := chained 0
  diags := []
  uses := ⟨[], false⟩
  frames := []
  fn_params := []

/-- A type `m.m. … .m.x` with 255 times `m`. -/
def chain_path : PathNode where
  id := 0
  own := (List.range 255).flatMap (fun i => [⟨.Ident, "m", (.ofNat (2 * i), .ofNat (2 * i + 1))⟩,
      ⟨.Dot, ".", (.ofNat (2 * i + 1), .ofNat (2 * i + 2))⟩]) ++ [⟨.Ident, "x", (510, 511)⟩]
  byte_range := (0, 511)

/-- The item is found, and its 256 segments are counted as none. -/
theorem chain_resolved : (chain_ctx.resolve_path_within chain_path 512).map (fun c => c.uses.rows) =
    some [⟨0, .Entity (.Item 255 0), 0⟩] := by
  decide +kernel

theorem long_path_wraps : ¬ResolvesExactly chain_ctx chain_path := by
  rintro ⟨c', v, row, hrun, hdenotes, hrow, -, htarget, hconsumed, -⟩
  have hrows : some c'.uses.rows = some [⟨0, .Entity (.Item 255 0), 0⟩] := by
    rw [← chain_resolved, hrun 512 (by decide +kernel)]
    rfl
  rw [hrow] at hrows
  obtain rfl : row = ⟨0, .Entity (.Item 255 0), 0⟩ :=
    (cons.inj (Option.some.inj hrows)).1
  -- a path that means an item takes a segment at least
  cases hdenotes with
  | unresolved _ => cases htarget
  | Local _ => cases htarget
  | entity _ _ _ =>
    have hzero : (0 : UInt8).toNat = 0 := rfl
    simp only [hzero] at hconsumed
    omega

end Fors.Resolve
