import Mathlib.Data.List.Perm.Basic
import Fors.Lib.Runs
import Fors.Sigs.Portable

/-!
# What the tables show determines the ids

Names, keys and types are interned, so two ids of one build that show the same are one id; and the
key bytes the encoder writes are those of the path it shows.

Principal results: `ty_cases` and `bounds_perm`.
-/

namespace Fors.Sigs

open Fors.Ty Trees MapM List
open Option hiding pure_def

theorem getElem?_inj {α : Type} {xs : List α} (h : xs.Nodup) {i j : Nat} {x : α}
    (hi : xs[i]? = some x) (hj : xs[j]? = some x) : i = j := by
  obtain ⟨hi', hix⟩ := List.getElem?_eq_some_iff.mp hi
  obtain ⟨hj', hjx⟩ := List.getElem?_eq_some_iff.mp hj
  exact (List.Nodup.getElem_inj_iff h).mp (hix.trans hjx.symm)

/-! ## Keys -/

section Keys

variable {keys : DeclKeyTable} {names : Interner} {fuel fuel' : Nat} {key key' : DeclKeyId}
  {p : Path}

/-- The row a path starts with, and the path of its parent. -/
theorem path_within_eq (h : path_within keys names (fuel + 1) key = some p) :
    ∃ row segs bytes name rest, keys.rows[key]? = some row ∧
      keys.segments row.module = some segs ∧ segs.mapM names.resolve = some bytes ∧
      name_of names row.name = some name ∧
      of_parent row.parent [] (path_within keys names fuel row.parent) = some rest ∧
        p = ⟨bytes, row.kind, name, row.disamb⟩ :: rest := by
  simp only [path_within, bind_eq_bind, bind_eq_some_iff, Option.pure_def,
    some.injEq] at h
  obtain ⟨row, hrow, segs, hsegs, bytes, hbytes, name, hname, rest, hrest, rfl⟩ := h
  exact ⟨row, segs, bytes, name, rest, hrow, hsegs, hbytes, hname, hrest, rfl⟩

theorem path_within_ne_nil (h : path_within keys names fuel key = some p) : p ≠ [] := by
  cases fuel with
  | zero => exact nomatch h
  | succ fuel =>
    obtain ⟨_, _, _, _, _, -, -, -, -, -, rfl⟩ := path_within_eq h
    exact cons_ne_nil _ _

theorem resolve_inj (hn : names.strings.Nodup) {a b : Symbol} {x : Bytes}
    (ha : names.resolve a = some x) (hb : names.resolve b = some x) : a = b :=
  getElem?_inj hn ha hb

theorem name_of_inj (hn : names.strings.Nodup) {a b : Option Symbol} {x : Option Bytes}
    (ha : name_of names a = some x) (hb : name_of names b = some x) : a = b := by
  cases a with
  | none =>
    cases ha
    cases b with
    | none => rfl
    | some b => simp [name_of] at hb
  | some a =>
    obtain ⟨y, hy, rfl⟩ := map_eq_some_iff.mp ha
    cases b with
    | none => simp [name_of] at hb
    | some b =>
      obtain ⟨z, hz, hzy⟩ := map_eq_some_iff.mp hb
      cases hzy
      rw [resolve_inj hn hy hz]

/-- A path is that of one key. -/
theorem path_within_inj (hn : names.strings.Nodup) (hp : keys.paths.Nodup)
    (hr : keys.rows.Nodup) (h : path_within keys names fuel key = some p)
    (h' : path_within keys names fuel' key' = some p) : key = key' := by
  induction p generalizing fuel fuel' key key' with
  | nil => exact absurd rfl (path_within_ne_nil h)
  | cons s p ih =>
    cases fuel with
    | zero => exact nomatch h
    | succ fuel =>
      cases fuel' with
      | zero => exact nomatch h'
      | succ fuel' =>
        obtain ⟨row, segs, bytes, name, rest, hrow, hsegs, hbytes, hname, hrest, heq⟩ :=
          path_within_eq h
        obtain ⟨row', segs', bytes', name', rest', hrow', hsegs', hbytes', hname', hrest',
          heq'⟩ := path_within_eq h'
        obtain ⟨hs, rfl⟩ := cons.inj heq
        obtain ⟨hs', rfl⟩ := cons.inj heq'
        obtain ⟨rfl, hkind, rfl, hdisamb⟩ := Segment.mk.inj (hs.symm.trans hs')
        obtain rfl := mapM_left_inj (resolve_inj hn) hbytes hbytes'
        have hmodule := getElem?_inj hp hsegs hsegs'
        have hnames := name_of_inj hn hname hname'
        have hparent : row.parent = row'.parent := by
          rw [of_parent] at hrest hrest'
          by_cases hno : row.parent = NO_DECL_KEY
          · rw [if_pos hno] at hrest
            cases hrest
            by_contra hne
            rw [if_neg (fun hno' => hne (hno.trans hno'.symm))] at hrest'
            exact path_within_ne_nil hrest' rfl
          · rw [if_neg hno] at hrest
            by_cases hno' : row'.parent = NO_DECL_KEY
            · rw [if_pos hno'] at hrest'
              cases hrest'
              exact absurd rfl (path_within_ne_nil hrest)
            · rw [if_neg hno'] at hrest'
              exact ih hrest hrest'
        have hrows : row = row' := by
          obtain ⟨_, _, _, _, _⟩ := row
          obtain ⟨_, _, _, _, _⟩ := row'
          simp_all
        exact getElem?_inj hr hrow (hrows ▸ hrow')

theorem write_name_of {n : Option Symbol} {name : Option Bytes}
    (h : name_of names n = some name) :
    write_name names n = some (name.elim [0] fun bytes => 1 :: write_bytes bytes) := by
  cases n with
  | none =>
    cases h
    rfl
  | some n =>
    obtain ⟨bytes, hbytes, rfl⟩ := map_eq_some_iff.mp h
    rw [write_name, hbytes]
    rfl

/-- The bytes written for a key are those of its path. -/
theorem decl_key_bytes_eq (hkey : key ≠ NO_DECL_KEY)
    (h : path_within keys names fuel key = some p) :
    decl_key_bytes keys names fuel key = some (path_bytes p) := by
  induction fuel generalizing key p with
  | zero => exact nomatch h
  | succ fuel ih =>
    obtain ⟨row, segs, bytes, name, rest, hrow, hsegs, hbytes, hname, hrest, rfl⟩ :=
      path_within_eq h
    have hparent : of_parent row.parent [0]
        ((decl_key_bytes keys names fuel row.parent).map fun bytes => 1 :: bytes) =
        some (if rest = [] then [0] else 1 :: path_bytes rest) := by
      rw [of_parent] at hrest ⊢
      by_cases hno : row.parent = NO_DECL_KEY
      · rw [if_pos hno] at hrest ⊢
        cases hrest
        rfl
      · rw [if_neg hno] at hrest ⊢
        rw [ih hno hrest, if_neg (path_within_ne_nil hrest)]
        rfl
    simp only [decl_key_bytes, if_neg hkey, hrow, hparent, hsegs, hbytes, write_name_of hname,
      bind_eq_bind, bind_some, Option.pure_def, path_bytes, Segment.bytes,
      append_assoc]

end Keys

/-! ## Types -/

namespace Ctx

variable {c : Ctx} {k : Keys}

/-- The tables of the context intern. -/
structure Interned (c : Ctx) (k : Keys) : Prop where
  tys : c.fir.tys.Inv k
  bounds : ∀ bs ∈ c.fir.sigs.bounds, bs.Pairwise (· < ·)
  strings : c.names.strings.Nodup
  paths : c.fir.keys.paths.Nodup
  keys : c.fir.keys.rows.Nodup
  paired : ∃ n, c.fir.defs.Paired n

theorem path_inj (h : c.Interned k) {a b : DeclKeyId} {p : Path} (ha : c.path a = some p)
    (hb : c.path b = some p) : a = b := by
  obtain ⟨-, ha⟩ := ite_none_left_eq_some.mp ha
  obtain ⟨-, hb⟩ := ite_none_left_eq_some.mp hb
  exact path_within_inj h.strings h.paths h.keys ha hb

variable {a b : DefId}

theorem key_of_inj (h : c.Interned k) (ha : c.key_of a ≠ NO_DECL_KEY)
    (hab : c.key_of a = c.key_of b) : a = b := by
  obtain ⟨n, hpaired⟩ := h.paired
  exact hpaired.key_of_inj ha hab

theorem head_inj (h : c.Interned k) {p : Path} (ha : c.head a = some p)
    (hb : c.head b = some p) : a = b := by
  refine key_of_inj h ?_ (path_inj h ha hb)
  exact (ite_none_left_eq_some.mp ha).1

variable {d : DefId} {o : Owner}

/-- An owner shows its key, or is one of the two the markers stand for. -/
theorem owner_cases (h : c.owner d = some o) :
    c.key_of d ≠ NO_DECL_KEY ∧
      ((o = .own ∧ c.key_of d = c.self_key) ∨ (o = .parent ∧ c.key_of d = c.parent_key) ∨
        ∃ p, o = .key p ∧ c.path (c.key_of d) = some p) := by
  rw [owner] at h
  split at h
  · rename_i hself
    exact ⟨hself.1, .inl ⟨(some.inj h).symm, hself.2⟩⟩
  · split at h
    · rename_i hparent
      exact ⟨hparent.1, .inr (.inl ⟨(some.inj h).symm, hparent.2⟩)⟩
    · obtain ⟨p, hp, rfl⟩ := map_eq_some_iff.mp h
      exact ⟨(ite_none_left_eq_some.mp hp).1, .inr (.inr ⟨p, rfl, hp⟩)⟩

theorem owner_inj (h : c.Interned k) (ha : c.owner a = some o)
    (hb : c.owner b = some o) : a = b := by
  obtain ⟨hka, hca⟩ := owner_cases ha
  obtain ⟨-, hcb⟩ := owner_cases hb
  refine key_of_inj h hka ?_
  obtain ⟨rfl, hka⟩ | ⟨rfl, hka⟩ | ⟨p, rfl, hpa⟩ := hca
  · obtain ⟨-, hkb⟩ | ⟨ho, -⟩ | ⟨p, ho, -⟩ := hcb
    · exact hka.trans hkb.symm
    · exact nomatch ho
    · exact nomatch ho
  · obtain ⟨ho, -⟩ | ⟨-, hkb⟩ | ⟨p, ho, -⟩ := hcb
    · exact nomatch ho
    · exact hka.trans hkb.symm
    · exact nomatch ho
  · obtain ⟨ho, -⟩ | ⟨ho, -⟩ | ⟨q, ho, hpb⟩ := hcb
    · exact nomatch ho
    · exact nomatch ho
    · obtain rfl := Owner.key.inj ho
      exact path_inj h hpa hpb

theorem ofInt_inj {a b : Int} (ha : -2 ^ 127 ≤ a ∧ a < 2 ^ 127) (hb : -2 ^ 127 ≤ b ∧ b < 2 ^ 127)
    (h : BitVec.ofInt 128 a = BitVec.ofInt 128 b) : a = b := by
  have := congrArg BitVec.toInt h
  rw [BitVec.toInt_ofInt, BitVec.toInt_ofInt, Int.bmod_eq_of_le (by omega) (by omega),
    Int.bmod_eq_of_le (by omega) (by omega)] at this
  exact this

theorem value_inj (h : c.Interned k) {a b : ConstValue} {v : Value} (ha : c.value a = some v)
    (hb : c.value b = some v) : a = b := by
  cases a with
  | I n =>
    obtain ⟨hn, hv⟩ := ite_none_right_eq_some.mp ha
    cases hv
    cases b with
    | I m =>
      obtain ⟨hm, hv⟩ := ite_none_right_eq_some.mp hb
      rw [ofInt_inj hn hm (Value.I.inj (some.inj hv)).symm]
    | B _ => simp [value] at hb
    | S _ => simp [value] at hb
  | B x =>
    cases ha
    cases b with
    | I m => simp [value] at hb
    | B y =>
      rw [Value.B.inj (some.inj hb)]
    | S _ => simp [value] at hb
  | S x =>
    obtain ⟨bytes, hx, rfl⟩ := map_eq_some_iff.mp ha
    cases b with
    | I m => simp [value] at hb
    | B y => simp [value] at hb
    | S y =>
      obtain ⟨bytes', hy, heq⟩ := map_eq_some_iff.mp hb
      obtain rfl := Value.S.inj heq
      rw [resolve_inj h.strings hx hy]

variable {s : Shape}

theorem shape_param {o : DefId} {i : Nat} (h : c.shape (.Param o i) = some s) :
    ∃ p, c.owner o = some p ∧ i < 2 ^ 16 ∧ s = .Param p i := by
  obtain ⟨hi, h⟩ := ite_none_right_eq_some.mp h
  obtain ⟨p, hp, rfl⟩ := map_eq_some_iff.mp h
  exact ⟨p, hp, hi, rfl⟩

theorem shape_brand {o : DefId} {i : Nat} (h : c.shape (.Brand (.Param o i)) = some s) :
    ∃ p, c.owner o = some p ∧ i < 2 ^ 16 ∧ s = .Brand p i := by
  obtain ⟨hi, h⟩ := ite_none_right_eq_some.mp h
  obtain ⟨p, hp, rfl⟩ := map_eq_some_iff.mp h
  exact ⟨p, hp, hi, rfl⟩

/-- What a constructor shows has its tag. -/
theorem shape_tag {x : Head} (h : c.shape x = some s) : s.tag = x.tag := by
  cases x with
  | Error | Unit | Never | Tuple | Fn =>
    cases h
    rfl
  | Prim kind =>
    obtain ⟨-, h⟩ := ite_none_right_eq_some.mp h
    cases h
    rfl
  | Nominal d | Dyn d =>
    obtain ⟨_, -, rfl⟩ := map_eq_some_iff.mp h
    rfl
  | Param o i =>
    obtain ⟨_, -, -, rfl⟩ := shape_param h
    rfl
  | Proj d name =>
    obtain ⟨_, -, h⟩ := bind_eq_some_iff.mp h
    obtain ⟨_, -, h⟩ := bind_eq_some_iff.mp h
    cases h
    rfl
  | Brand row =>
    cases row with
    | Param o i =>
      obtain ⟨_, -, -, rfl⟩ := shape_brand h
      rfl
    | Fresh o i => exact nomatch h
  | ConstVal v =>
    cases v with
    | some v =>
      obtain ⟨_, -, rfl⟩ := map_eq_some_iff.mp h
      rfl
    | none => exact nomatch h

theorem shape_inj (h : c.Interned k) {x y : Head} (hx : c.shape x = some s)
    (hy : c.shape y = some s) : x = y := by
  have htag : x.tag = y.tag := (shape_tag hx).symm.trans (shape_tag hy)
  cases x <;> cases y <;> simp only [Head.tag, reduceCtorEq] at htag
  case Error.Error | Unit.Unit | Never.Never | Tuple.Tuple => rfl
  case Prim.Prim =>
    obtain ⟨-, hx⟩ := ite_none_right_eq_some.mp hx
    cases hx
    obtain ⟨-, hy⟩ := ite_none_right_eq_some.mp hy
    rw [Shape.Prim.inj (some.inj hy)]
  case Nominal.Nominal =>
    obtain ⟨p, hp, rfl⟩ := map_eq_some_iff.mp hx
    obtain ⟨q, hq, heq⟩ := map_eq_some_iff.mp hy
    obtain rfl := Shape.Nominal.inj heq
    rw [head_inj h hp hq]
  case Fn.Fn =>
    cases hx
    obtain ⟨rfl, rfl, rfl⟩ := Shape.Fn.inj (some.inj hy)
    rfl
  case Dyn.Dyn =>
    obtain ⟨p, hp, rfl⟩ := map_eq_some_iff.mp hx
    obtain ⟨q, hq, heq⟩ := map_eq_some_iff.mp hy
    obtain rfl := Shape.Dyn.inj heq
    rw [head_inj h hp hq]
  case Param.Param =>
    obtain ⟨o, ho, -, rfl⟩ := shape_param hx
    obtain ⟨o', ho', -, heq⟩ := shape_param hy
    obtain ⟨rfl, rfl⟩ := Shape.Param.inj heq
    rw [owner_inj h ho ho']
  case Proj.Proj =>
    obtain ⟨p, hp, hx⟩ := bind_eq_some_iff.mp hx
    obtain ⟨n, hn, hx⟩ := bind_eq_some_iff.mp hx
    cases hx
    obtain ⟨q, hq, hy⟩ := bind_eq_some_iff.mp hy
    obtain ⟨m, hm, hy⟩ := bind_eq_some_iff.mp hy
    obtain ⟨rfl, rfl⟩ := Shape.Proj.inj (some.inj hy)
    rw [head_inj h hp hq, resolve_inj h.strings hn hm]
  case Brand.Brand row row' =>
    cases row with
    | Fresh _ _ => cases hx
    | Param o i =>
      cases row' with
      | Fresh _ _ => cases hy
      | Param o' i' =>
        obtain ⟨p, hp, -, rfl⟩ := shape_brand hx
        obtain ⟨q, hq, -, heq⟩ := shape_brand hy
        obtain ⟨rfl, rfl⟩ := Shape.Brand.inj heq
        rw [owner_inj h hp hq]
  case ConstVal.ConstVal v w =>
    cases v with
    | none => cases hx
    | some v =>
      cases w with
      | none => cases hy
      | some w =>
        obtain ⟨x, hv, rfl⟩ := map_eq_some_iff.mp hx
        obtain ⟨y, hw, heq⟩ := map_eq_some_iff.mp hy
        obtain rfl := Shape.ConstVal.inj heq
        rw [value_inj h hv hw]

variable {l : Label}

/-- A label shows when its unused columns are zero. -/
theorem mark_eq_some {m : Mark} : c.mark l = some m ↔
    l.spare = (0, 0) ∧ c.shape l.head = some m.shape ∧ m.quals = l.quals := by
  rw [mark, ite_none_right_eq_some, map_eq_some_iff]
  refine and_congr_right fun _ => ⟨?_, ?_⟩
  · rintro ⟨s, hs, rfl⟩
    exact ⟨hs, rfl⟩
  · rintro ⟨hs, hq⟩
    exact ⟨m.shape, hs, by rw [← hq]⟩

theorem mark_inj (h : c.Interned k) {l' : Label} {m : Mark} (hl : c.mark l = some m)
    (hl' : c.mark l' = some m) : l = l' := by
  obtain ⟨hspare, hshape, hq⟩ := mark_eq_some.mp hl
  obtain ⟨hspare', hshape', hq'⟩ := mark_eq_some.mp hl'
  obtain ⟨head, spare, quals⟩ := l
  obtain ⟨head', spare', quals'⟩ := l'
  obtain rfl : spare = spare' := hspare.trans hspare'.symm
  obtain rfl : quals = quals' := hq.symm.trans hq'
  obtain rfl : head = head' := shape_inj h hshape hshape'
  rfl

theorem pty_node {cs : List (Rose Label)} {u : PTy} :
    c.pty (.node l cs) = some u ↔ ∃ m us, c.mark l = some m ∧ c.ptys cs = some us ∧
      u = .node m us := by
  simp only [pty, bind_eq_bind, bind_eq_some_iff, Option.pure_def,
    some.injEq]
  constructor
  · rintro ⟨m, hm, us, hus, rfl⟩
    exact ⟨m, us, hm, hus, rfl⟩
  · rintro ⟨m, us, hm, hus, rfl⟩
    exact ⟨m, hm, us, hus, rfl⟩

theorem ptys_eq (ts : List (Rose Label)) : c.ptys ts = ts.mapM c.pty := by
  induction ts with
  | nil => rfl
  | cons t ts ih =>
    rw [ptys, mapM_cons, ih]

mutual

theorem pty_inj (h : c.Interned k) : ∀ {T T' : Rose Label} {u : PTy}, c.pty T = some u →
    c.pty T' = some u → T = T'
  | .node l cs, .node l' cs', u, hT, hT' => by
    obtain ⟨m, us, hm, hus, rfl⟩ := pty_node.mp hT
    obtain ⟨m', us', hm', hus', heq⟩ := pty_node.mp hT'
    obtain ⟨rfl, rfl⟩ := Rose.node.inj heq
    rw [mark_inj h hm hm', ptys_inj h hus hus']

theorem ptys_inj (h : c.Interned k) : ∀ {Ts Ts' : List (Rose Label)} {us : List PTy},
    c.ptys Ts = some us → c.ptys Ts' = some us → Ts = Ts'
  | [], [], us, hT, hT' => rfl
  | [], T' :: Ts', us, hT, hT' => by
    cases hT
    simp [ptys, bind_eq_some_iff] at hT'
  | T :: Ts, [], us, hT, hT' => by
    cases hT'
    simp [ptys, bind_eq_some_iff] at hT
  | T :: Ts, T' :: Ts', us, hT, hT' => by
    simp only [ptys, bind_eq_bind, bind_eq_some_iff, Option.pure_def,
      some.injEq] at hT hT'
    obtain ⟨v, hv, vs, hvs, rfl⟩ := hT
    obtain ⟨w, hw, ws, hws, heq⟩ := hT'
    obtain ⟨rfl, rfl⟩ := cons.inj heq
    rw [pty_inj h hv hw, ptys_inj h hvs hws]

end

theorem ty_inj (h : c.Interned k) {t u : TyId} {T : PTy} (ht : c.ty t = some T)
    (hu : c.ty u = some T) : t = u := by
  obtain ⟨hlt, ht⟩ := ite_none_right_eq_some.mp ht
  obtain ⟨hlt', hu⟩ := ite_none_right_eq_some.mp hu
  exact (h.tys.tree_eq_iff hlt hlt').mp (pty_inj h ht hu)

/-- A type that shows has a row; its mark shows the row's label, and its children the row's
children. -/
theorem ty_cases (h : c.Interned k) {t : TyId} {T : PTy} (ht : c.ty t = some T) :
    ∃ row l cs, c.fir.tys.rows[t]? = some row ∧ c.fir.tys.node_of row.content = some (l, cs) ∧
      (∀ x ∈ cs, x < t) ∧ c.mark l = some T.label ∧ cs.mapM c.ty = some T.children := by
  obtain ⟨hlt, ht⟩ := ite_none_right_eq_some.mp ht
  have hrow := getElem?_eq_getElem hlt
  obtain ⟨hnode, hdown, -⟩ := h.tys.node_spec hrow
  rw [h.tys.tree_node hrow hnode] at ht
  obtain ⟨m, us, hm, hus, rfl⟩ := pty_node.mp ht
  refine ⟨_, _, _, hrow, hnode, hdown, hm, ?_⟩
  rw [ptys_eq, mapM_eq_some, List.forall₂_map_left_iff] at hus
  have hboth := (List.forall₂_and_left (p := fun x => x < t) _ _).mpr ⟨hdown, hus⟩
  refine mapM_eq_some.mpr (hboth.imp fun x u hx => ?_)
  rw [ty, if_pos (hx.1.trans hlt)]
  exact hx.2

theorem trait_ref_eq_some {tr : TraitRefId} {r : PTraitRef} (h : c.trait_ref tr = some r) :
    ∃ td args xs, c.fir.tys.trait_refs[tr]? = some (td, args) ∧
      c.fir.tys.args_at args = some xs ∧ xs.mapM c.ty = some r.args ∧ c.head td = some r.path := by
  simp only [Ctx.trait_ref, bind_eq_bind, bind_eq_some_iff, Option.pure_def,
    some.injEq, Prod.exists] at h
  obtain ⟨td, args, htr, xs, hxs, us, hus, p, hp, rfl⟩ := h
  exact ⟨td, args, xs, htr, hxs, hus, hp⟩

theorem trait_ref_inj (h : c.Interned k) {a b : TraitRefId} {r : PTraitRef}
    (ha : c.trait_ref a = some r) (hb : c.trait_ref b = some r) : a = b := by
  obtain ⟨td, args, xs, htr, hxs, hus, hp⟩ := trait_ref_eq_some ha
  obtain ⟨td', args', xs', htr', hxs', hus', hp'⟩ := trait_ref_eq_some hb
  obtain rfl := head_inj h hp hp'
  obtain rfl := mapM_left_inj (ty_inj h) hus hus'
  rw [h.tys.args_at_eq] at hxs hxs'
  obtain rfl := h.tys.args.index_inj hxs hxs'
  exact h.tys.trait_refs.index_inj htr htr'

/-- A bound list as the store has it: sorted by id, so that its entries determine it. -/
theorem bounds_perm (h : c.Interned k) {a b : TraitRefListId} {bs bs' : List PTraitRef}
    (ha : c.bounds a = some bs) (hb : c.bounds b = some bs') (hperm : bs.Perm bs') : bs = bs' := by
  obtain ⟨xs, hxs, hbs⟩ := bind_eq_some_iff.mp ha
  obtain ⟨ys, hys, hbs'⟩ := bind_eq_some_iff.mp hb
  obtain ⟨zs, hshow, hzs⟩ := perm_comp_forall₂ hperm.symm (mapM_eq_some.mp hbs).flip
  obtain rfl := mapM_left_inj (trait_ref_inj h) (mapM_eq_some.mpr hshow.flip) hbs'
  have hlt := h.bounds _ (mem_of_getElem? hxs)
  have hlt' := h.bounds _ (mem_of_getElem? hys)
  obtain rfl := hzs.symm.eq_of_pairwise (fun x y _ _ hxy hyx => absurd hxy (Nat.lt_asymm hyx)) hlt hlt'
  exact some.inj (hbs.symm.trans hbs')

theorem write_head_eq {p : Path} (h : c.head d = some p) :
    c.write_head d = some (path_bytes p) := by
  obtain ⟨hkey, hp⟩ := ite_none_left_eq_some.mp h
  exact decl_key_bytes_eq hkey hp

theorem write_owner_eq (h : c.owner d = some o) :
    c.write_owner d = some o.bytes := by
  rw [owner] at h
  rw [write_owner]
  split at h
  · rename_i hself
    cases h
    exact if_pos hself
  · rename_i hself
    simp only [if_neg hself]
    split at h
    · rename_i hparent
      cases h
      exact if_pos hparent
    · rename_i hparent
      simp only [if_neg hparent]
      obtain ⟨p, hp, rfl⟩ := map_eq_some_iff.mp h
      obtain ⟨hkey, hp⟩ := ite_none_left_eq_some.mp hp
      rw [write_decl_key, decl_key_bytes_eq hkey hp]
      rfl

theorem write_const_value_eq {v : ConstValue} {w : Value} (h : c.value v = some w) :
    write_const_value c.names v = some w.bytes := by
  cases v with
  | I n =>
    obtain ⟨-, hv⟩ := ite_none_right_eq_some.mp h
    cases hv
    rfl
  | B b =>
    cases h
    rfl
  | S s =>
    obtain ⟨bytes, hbytes, rfl⟩ := map_eq_some_iff.mp h
    rw [write_const_value, hbytes]
    rfl

end Ctx

end Fors.Sigs
