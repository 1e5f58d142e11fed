import Fors.Sigs.View

/-!
# What an encoding emits

A part of the encoder that is given ids emits what the ids show: the types it mentions go to the
type section in order of mention, each once and after its children, and its bytes refer to types
by their place in any section that this one is the start of.

Principal result: `run_new`.
-/

namespace Fors.Sigs

open Fors.Ty Trees MapM List
open Option hiding pure_def

theorem mapM_cons_eq_some {α β : Type} {f : α → Option β} {x : α} {xs : List α} {zs : List β} :
    (x :: xs).mapM f = some zs ↔ ∃ y ys, zs = y :: ys ∧ f x = some y ∧ xs.mapM f = some ys := by
  simp only [mapM_cons, bind_eq_bind, bind_eq_some_iff, Option.pure_def,
    some.injEq]
  constructor
  · rintro ⟨y, hy, ys, hys, rfl⟩
    exact ⟨y, ys, rfl, hy, hys⟩
  · rintro ⟨y, ys, rfl, hy, hys⟩
    exact ⟨y, hy, ys, hys, rfl⟩

theorem mapM_append_eq_some {α β : Type} {f : α → Option β} {xs xs' : List α} {zs : List β} :
    (xs ++ xs').mapM f = some zs ↔
      ∃ ys ys', zs = ys ++ ys' ∧ xs.mapM f = some ys ∧ xs'.mapM f = some ys' := by
  simp only [mapM_append, bind_eq_bind, bind_eq_some_iff, Option.pure_def,
    some.injEq]
  constructor
  · rintro ⟨ys, hys, ys', hys', rfl⟩
    exact ⟨ys, ys', rfl, hys, hys'⟩
  · rintro ⟨ys, ys', rfl, hys, hys'⟩
    exact ⟨ys, hys, ys', hys', rfl⟩

/-! ## Types seen -/

section Visits

variable {seen later : List PTy} {t u : PTy}

theorem visits_append (ts us : List PTy) (seen : List PTy) :
    visits (ts ++ us) seen = visits us (visits ts seen) := by
  induction ts generalizing seen with
  | nil => rfl
  | cons t ts ih => exact ih _

theorem visit_node {m : Mark} {cs : List PTy} (h : .node m cs ∉ seen) :
    visit (.node m cs) seen = visits cs seen ++ [.node m cs] := by
  rw [visit, if_neg h]

theorem visit_of_mem {m : Mark} {cs : List PTy} (h : .node m cs ∈ seen) :
    visit (.node m cs) seen = seen := by
  rw [visit, if_pos h]

mutual

theorem prefix_visit : ∀ (t : PTy) (seen : List PTy), seen <+: visit t seen
  | .node m cs, seen => by
    by_cases h : .node m cs ∈ seen
    · rw [visit_of_mem h]
    · rw [visit_node h]
      exact (prefix_visits cs seen).trans (prefix_append _ _)

theorem prefix_visits : ∀ (ts seen : List PTy), seen <+: visits ts seen
  | [], _ => prefix_rfl
  | t :: ts, seen => (prefix_visit t seen).trans (prefix_visits ts _)

end

theorem mem_visit (t : PTy) (seen : List PTy) : t ∈ visit t seen := by
  cases t with
  | node m cs =>
    by_cases h : .node m cs ∈ seen
    · rwa [visit_of_mem h]
    · rw [visit_node h]
      exact mem_append_right _ (mem_singleton.mpr rfl)

theorem mem_visits {ts : List PTy} (ht : t ∈ ts) (seen : List PTy) : t ∈ visits ts seen := by
  induction ts generalizing seen with
  | nil => exact nomatch ht
  | cons u ts ih =>
    obtain rfl | ht := mem_cons.mp ht
    · exact (prefix_visits ts _).subset (mem_visit t seen)
    · exact ih ht _

/-- Every child of a type seen was seen. -/
def Closed (seen : List PTy) : Prop :=
  ∀ t ∈ seen, ∀ u ∈ t.children, u ∈ seen

mutual

/-- Only types inside the one visited are added. -/
theorem size_visit : ∀ (t : PTy) {seen : List PTy} {u : PTy}, u ∈ visit t seen →
    u ∈ seen ∨ sizeOf u ≤ sizeOf t
  | .node m cs, seen, u, hu => by
    by_cases hmem : .node m cs ∈ seen
    · rw [visit_of_mem hmem] at hu
      exact .inl hu
    · rw [visit_node hmem] at hu
      obtain hu | hu := mem_append.mp hu
      · obtain h | h := size_visits cs hu
        · exact .inl h
        · refine .inr ?_
          rw [Rose.node.sizeOf_spec]
          omega
      · obtain rfl := mem_singleton.mp hu
        exact .inr (Nat.le_refl _)

theorem size_visits : ∀ (ts : List PTy) {seen : List PTy} {u : PTy}, u ∈ visits ts seen →
    u ∈ seen ∨ sizeOf u ≤ sizeOf ts
  | [], _, _, hu => .inl hu
  | t :: ts, seen, u, hu => by
    have hsize : sizeOf (t :: ts) = 1 + sizeOf t + sizeOf ts := rfl
    obtain h | h := size_visits ts hu
    · obtain h | h := size_visit t h
      · exact .inl h
      · exact .inr (by omega)
    · exact .inr (by omega)

end

theorem not_mem_visits_children {m : Mark} {cs : List PTy} (h : .node m cs ∉ seen) :
    .node m cs ∉ visits cs seen := by
  intro hmem
  obtain hmem | hsize := size_visits cs hmem
  · exact h hmem
  · rw [Rose.node.sizeOf_spec] at hsize
    omega

theorem idxOf_later (h : seen <+: later) (ht : t ∈ seen) : later.idxOf t = seen.idxOf t := by
  obtain ⟨ws, rfl⟩ := h
  exact idxOf_append_of_mem ht

theorem map_idxOf_later (h : seen <+: later) {ts : List PTy} (hts : ∀ t ∈ ts, t ∈ seen) :
    (ts.map fun t => later.idxOf t) = ts.map fun t => seen.idxOf t :=
  map_congr_left fun t ht => idxOf_later h (hts t ht)

/-- A new type goes to the end of the section. -/
theorem ty_section_concat (hclosed : Closed seen) (ht : ∀ u ∈ t.children, u ∈ seen) :
    ty_section (seen ++ [t]) = ty_section seen ++ entry_of seen t := by
  have hprefix : seen <+: seen ++ [t] := prefix_append _ _
  have hentry : ∀ u, (∀ w ∈ u.children, w ∈ seen) → entry_of (seen ++ [t]) u = entry_of seen u := by
    intro u hu
    rw [entry_of, map_idxOf_later hprefix hu, entry_of]
  rw [ty_section, flatMap_append, flatMap_singleton, hentry t ht, ty_section]
  congr 1
  exact flatMap_congr fun u hu => hentry u (hclosed u hu)

end Visits

/-! ## The state of an encoding -/

/-- The encoder's state after the types of `seen`. -/
structure Holds (c : Ctx) (e : Enc) (seen : List PTy) : Prop where
  next : e.next = seen.length
  pos : ∀ t T, c.ty t = some T →
    e.pos.lookup t = if T ∈ seen then some (seen.idxOf T) else none
  tys : e.tys = ty_section seen
  closed : Closed seen

theorem holds_new (c : Ctx) : Holds c .new [] where
  next := rfl
  pos := fun _ _ _ => rfl
  tys := rfl
  closed := fun _ h => nomatch h

/-- `m` mentions `tys`, returns `val` and writes `out`, where both read positions in a section
that starts with what was seen. -/
def Emits {α : Type} (c : Ctx) (m : EncM α) (tys : List PTy) (val : List PTy → α)
    (out : List PTy → Bytes) : Prop :=
  ∀ e seen, Holds c e seen → ∃ x e', m e = some (x, e') ∧ Holds c e' (visits tys seen) ∧
    ∀ later, visits tys seen <+: later → x = val later ∧ e'.body = e.body ++ out later

namespace Emits

variable {α β γ : Type} {c : Ctx} {m : EncM α} {f : α → EncM β} {tys tys' : List PTy}
  {val : List PTy → α} {val' : α → List PTy → β} {out : List PTy → Bytes}
  {out' : α → List PTy → Bytes}

theorem pure (x : α) : Emits c (Pure.pure x) [] (fun _ => x) fun _ => [] := by
  intro e seen h
  exact ⟨x, e, rfl, h, fun _ _ => ⟨rfl, (append_nil _).symm⟩⟩

theorem bind (h : Emits c m tys val out) (h' : ∀ x, Emits c (f x) tys' (val' x) (out' x)) :
    Emits c (m >>= f) (tys ++ tys') (fun L => val' (val L) L)
      fun L => out L ++ out' (val L) L := by
  intro e seen he
  obtain ⟨x, e1, hm, he1, hx⟩ := h e seen he
  obtain ⟨y, e2, hf, he2, hy⟩ := h' x e1 _ he1
  refine ⟨y, e2, ?_, ?_, fun later hlater => ?_⟩
  · show (m e).bind (fun p => f p.1 p.2) = _
    rw [hm]
    exact hf
  · rwa [visits_append]
  · rw [visits_append] at hlater
    obtain ⟨rfl, hbody⟩ := hx later ((prefix_visits tys' _).trans hlater)
    obtain ⟨rfl, hbody'⟩ := hy later hlater
    exact ⟨rfl, by rw [hbody', hbody, append_assoc]⟩

theorem congr {tys1 : List PTy} {val1 : List PTy → α} {out1 : List PTy → Bytes}
    (h : Emits c m tys val out) (htys : tys = tys1) (hval : ∀ L, val L = val1 L)
    (hout : ∀ L, out L = out1 L) : Emits c m tys1 val1 out1 := by
  obtain rfl : val = val1 := funext hval
  obtain rfl : out = out1 := funext hout
  exact htys ▸ h

/-- The end of a part: what is returned is computed from what was emitted. -/
theorem map (h : Emits c m tys val out) (g : α → β) :
    Emits c (do let x ← m; return g x) tys (fun L => g (val L)) out :=
  (h.bind fun x => .pure (g x)).congr (append_nil _) (fun _ => rfl)
    fun _ => append_nil _

theorem mapM {ι κ : Type} {f : ι → EncM α} {M : κ → List PTy} {val : κ → List PTy → α}
    {B : κ → List PTy → Bytes} {xs : List ι} {ys : List κ}
    (h : List.Forall₂ (fun x y => Emits c (f x) (M y) (val y) (B y)) xs ys) :
    Emits c (xs.mapM f) (ys.flatMap M) (fun L => ys.map fun y => val y L)
      fun L => ys.flatMap fun y => B y L := by
  induction h with
  | nil =>
    rw [mapM_nil]
    exact .pure []
  | cons hx _ ih =>
    rw [mapM_cons]
    exact (hx.bind fun a => ih.map (a :: ·)).congr rfl (fun _ => rfl) fun _ => rfl

theorem forM {ι κ : Type} {f : ι → EncM Unit} {M : κ → List PTy}
    {B : κ → List PTy → Bytes} {xs : List ι} {ys : List κ}
    (h : List.Forall₂ (fun x y => Emits c (f x) (M y) (fun _ => ()) (B y)) xs ys) :
    Emits c (xs.forM f) (ys.flatMap M) (fun _ => ()) fun L => ys.flatMap fun y => B y L := by
  induction h with
  | nil => exact .pure ()
  | cons hx _ ih => exact (hx.bind fun _ => ih).congr rfl (fun _ => rfl) fun _ => rfl

theorem write (bytes : Bytes) : Emits c (Ctx.write bytes) [] (fun _ => ()) fun _ => bytes := by
  intro e seen h
  exact ⟨(), _, rfl, ⟨h.next, h.pos, h.tys, h.closed⟩, fun _ _ => ⟨rfl, rfl⟩⟩

/-- A part that ends with a write. -/
theorem then_write (h : Emits c m tys val out) (g : α → Bytes) :
    Emits c (do let x ← m; Ctx.write (g x)) tys (fun _ => ()) fun L => out L ++ g (val L) :=
  (h.bind fun x => .write (g x)).congr (append_nil _) (fun _ => rfl) fun _ => rfl

/-- A part that starts with a write. -/
theorem after_write {n : EncM α} (bytes : Bytes) (h : Emits c n tys val out) :
    Emits c (do Ctx.write bytes; n) tys val fun L => bytes ++ out L :=
  ((Emits.write bytes).bind fun _ => h).congr rfl (fun _ => rfl) fun _ => rfl

/-- Two parts that return nothing. -/
theorem seq {m n : EncM Unit} {out out' : List PTy → Bytes} (h : Emits c m tys (fun _ => ()) out)
    (h' : Emits c n tys' (fun _ => ()) out') :
    Emits c (do m; n) (tys ++ tys') (fun _ => ()) fun L => out L ++ out' L :=
  h.bind fun _ => h'

end Emits

theorem lift_some {α β : Type} {a : α} {f : α → EncM β} : (liftM (some a) >>= f : EncM β) = f a :=
  rfl

/-! ## Types -/

/-- The references of an entry, as the encoder keeps them. -/
def Shape.refs (rs : List Nat) : Shape → Refs
  | .Nominal _ | .Tuple | .Dyn _ => { Refs.none with child_refs := rs }
  | .Fn convs _ closure =>
    ⟨0, rs.take convs.length, convs, (rs.drop convs.length).headD 0,
      (rs.drop (convs.length + 1)).head?, closure, 0⟩
  | .Proj _ _ => { Refs.none with head_ref := rs.headD 0, child_refs := rs.tail }
  | .ConstVal _ => { Refs.none with const_ty_ref := rs.headD 0 }
  | _ => Refs.none

/-- A function's references are those of its parameters, of its result and of what it raises. -/
theorem fn_refs {convs : List Conv} {raises closure : Bool} {rs rs' : List Nat} {r : Nat}
    (hn : rs.length = convs.length) :
    Shape.refs (rs ++ r :: rs') (.Fn convs raises closure) =
      ⟨0, rs, convs, r, rs'.head?, closure, 0⟩ := by
  have hdrop : (rs ++ r :: rs').drop (convs.length + 1) = rs' := by
    rw [← drop_drop, drop_left' hn]
    rfl
  rw [Shape.refs, take_left' hn, drop_left' hn, hdrop]
  rfl

theorem fn_split {params : List (Conv × TyId)} {result raises : TyId} {rs : List Nat}
    (h : rs.length =
      (params.map Prod.snd ++ result :: if raises = NO_TY then [] else [raises]).length) :
    ∃ rs1 r rs2, rs = rs1 ++ r :: rs2 ∧ rs1.length = (params.map Prod.fst).length ∧
      rs2.length = if raises = NO_TY then 0 else 1 := by
  rw [length_append, length_cons, length_map] at h
  have hlast : (if raises = NO_TY then [] else [raises]).length =
      if raises = NO_TY then 0 else 1 := by
    split <;> rfl
  rw [hlast] at h
  have hdrop : (rs.drop params.length).length = (if raises = NO_TY then 0 else 1) + 1 := by
    rw [length_drop]
    omega
  obtain ⟨r, rs2, hr⟩ := exists_cons_of_length_eq_add_one hdrop
  refine ⟨rs.take params.length, r, rs2, ?_, ?_, ?_⟩
  · rw [← hr, take_append_drop]
  · rw [length_take, length_map]
    omega
  · rw [hr, length_cons] at hdrop
    exact Nat.succ.inj hdrop

section Types

variable {c : Ctx} {k : Keys} {emit : TyId → EncM Nat} {a b : Nat} {q : Quals}
  {l : Label} {cs : List TyId} {us : List PTy} {s : Shape}

/-- Types that are emitted one after another. -/
theorem emits_tys (hemit : ∀ x ∈ cs, ∀ u, c.ty x = some u →
      Emits c (emit x) [u] (fun L => L.idxOf u) fun _ => [])
    (hus : cs.mapM c.ty = some us) :
    Emits c (cs.mapM emit) us (fun L => us.map fun u => L.idxOf u) fun _ => [] := by
  have hboth := (List.forall₂_and_left (p := fun x => ∀ u, c.ty x = some u →
    Emits c (emit x) [u] (fun L => L.idxOf u) fun _ => []) _ _).mpr ⟨hemit, mapM_eq_some.mp hus⟩
  have hall : List.Forall₂ (fun x u =>
      Emits c (emit x) [u] (fun L => L.idxOf u) fun _ => []) cs us :=
    hboth.imp fun x u hx => hx.1 u hx.2
  refine (Emits.mapM (M := fun u => [u]) hall).congr ?_ (fun _ => rfl) fun L => ?_
  · exact flatMap_singleton' us
  · simp

/-- Children are emitted in order, whatever the constructor. -/
theorem emits_children {tag : TyTag}
    (hnode : c.fir.tys.node_of (tag, a, b, q) = some (l, cs)) (hs : c.shape l.head = some s)
    (hemit : ∀ x ∈ cs, ∀ u, c.ty x = some u →
      Emits c (emit x) [u] (fun L => L.idxOf u) fun _ => [])
    (hus : cs.mapM c.ty = some us) :
    Emits c (c.emit_children emit tag a b) us
      (fun L => s.refs (us.map fun u => L.idxOf u)) fun _ => [] := by
  cases tag with
  | Error | Unit | Never =>
    cases hnode
    cases hs
    cases hus
    exact .pure Refs.none
  | Prim =>
    cases hnode
    obtain ⟨-, hs⟩ := ite_none_right_eq_some.mp hs
    cases hs
    cases hus
    exact .pure Refs.none
  | Param =>
    cases hnode
    obtain ⟨o, -, -, rfl⟩ := Ctx.shape_param hs
    cases hus
    exact .pure Refs.none
  | Brand =>
    obtain ⟨row, -, hnode⟩ := bind_eq_some_iff.mp hnode
    cases hnode
    cases hus
    cases row with
    | Param o i =>
      obtain ⟨o, -, -, rfl⟩ := Ctx.shape_brand hs
      exact .pure Refs.none
    | Fresh o i => cases hs
  | Nominal =>
    obtain ⟨xs, hxs, hnode⟩ := bind_eq_some_iff.mp hnode
    cases hnode
    obtain ⟨p, -, rfl⟩ := map_eq_some_iff.mp hs
    simp only [Ctx.emit_children, hxs, lift_some]
    exact (emits_tys hemit hus).map _
  | Tuple =>
    obtain ⟨xs, hxs, hnode⟩ := bind_eq_some_iff.mp hnode
    cases hnode
    cases hs
    simp only [Ctx.emit_children, hxs, lift_some]
    exact (emits_tys hemit hus).map _
  | Dyn =>
    obtain ⟨⟨d, args⟩, htr, hnode⟩ := bind_eq_some_iff.mp hnode
    obtain ⟨xs, hxs, hnode⟩ := bind_eq_some_iff.mp hnode
    cases hnode
    obtain ⟨p, -, rfl⟩ := map_eq_some_iff.mp hs
    simp only [Ctx.emit_children, htr, hxs, lift_some]
    exact (emits_tys hemit hus).map _
  | Fn =>
    obtain ⟨⟨params, result, raises, closure⟩, hfn, hnode⟩ := bind_eq_some_iff.mp hnode
    cases hnode
    cases hs
    obtain ⟨us1, us2, rfl, hparams, hrest⟩ := mapM_append_eq_some.mp hus
    obtain ⟨u, us3, rfl, hresult, hraises⟩ := mapM_cons_eq_some.mp hrest
    have hlen : us1.length = (params.map Prod.fst).length := by
      rw [length_of_mapM hparams, length_map, length_map]
    have hp := emits_tys (fun x hx => hemit x (mem_append_left _ hx)) hparams
    have hr := hemit result (mem_append_right _ mem_cons_self) u hresult
    have hx : Emits c (Ctx.emit_raises emit raises) us3
        (fun L => (us3.map fun u => L.idxOf u).head?) fun _ => [] := by
      rw [Ctx.emit_raises]
      by_cases hno : raises = NO_TY
      · rw [if_pos hno] at hraises ⊢
        cases hraises
        exact .pure none
      · rw [if_neg hno] at hraises ⊢
        obtain ⟨w, us4, rfl, hw, hnil⟩ := mapM_cons_eq_some.mp hraises
        cases hnil
        refine (hemit raises ?_ w hw).map some
        rw [if_neg hno]
        exact mem_append_right _ (mem_cons_of_mem _ mem_cons_self)
    simp only [Ctx.emit_children, hfn, lift_some]
    refine (hp.bind fun rs => hr.bind fun r => hx.map fun r' =>
      (⟨0, rs, params.map Prod.fst, r, r', closure, 0⟩ : Refs)).congr rfl (fun L => ?_)
      fun _ => rfl
    have hn : (us1.map fun u => L.idxOf u).length = (params.map Prod.fst).length := by
      rw [length_map, hlen]
    rw [map_append, map_cons]
    exact (fn_refs hn).symm
  | Proj =>
    obtain ⟨⟨tr, name⟩, hkey, hnode⟩ := bind_eq_some_iff.mp hnode
    obtain ⟨⟨d, args⟩, htr, hnode⟩ := bind_eq_some_iff.mp hnode
    obtain ⟨xs, hxs, hnode⟩ := bind_eq_some_iff.mp hnode
    cases hnode
    obtain ⟨p, -, hs⟩ := bind_eq_some_iff.mp hs
    obtain ⟨n, -, hs⟩ := bind_eq_some_iff.mp hs
    cases hs
    obtain ⟨u, us1, rfl, hhead, hargs⟩ := mapM_cons_eq_some.mp hus
    have hh := hemit a mem_cons_self u hhead
    have hx := emits_tys (fun x hx => hemit x (mem_cons_of_mem _ hx)) hargs
    simp only [Ctx.emit_children, hkey, htr, hxs, lift_some]
    exact (hh.bind fun r => hx.map fun rs =>
      ({ Refs.none with head_ref := r, child_refs := rs } : Refs)).congr rfl (fun _ => rfl)
      fun _ => rfl
  | ConstVal =>
    rw [TyStore.node_of] at hnode
    cases hv : c.fir.tys.consts[a]? with
    | none =>
      rw [hv] at hnode
      cases hnode
      cases hs
    | some v =>
      rw [hv] at hnode
      cases hnode
      obtain ⟨w, -, rfl⟩ := map_eq_some_iff.mp hs
      obtain ⟨u, us1, rfl, hu, hnil⟩ := mapM_cons_eq_some.mp hus
      cases hnil
      exact (hemit b mem_cons_self u hu).map _

/-- The entry the encoder builds is the one the label shows. -/
theorem entry_eq {tag : TyTag} {m : Mark} {rs : List Nat}
    (hnode : c.fir.tys.node_of (tag, a, b, q) = some (l, cs)) (hm : c.mark l = some m)
    (hrs : rs.length = cs.length) : c.entry tag a b q (m.shape.refs rs) = some (m.entry rs) := by
  obtain ⟨-, hs, hq⟩ := Ctx.mark_eq_some.mp hm
  obtain ⟨htag, hquals⟩ := TyStore.node_of_tag hnode
  obtain ⟨shape, quals⟩ := m
  obtain rfl : quals = q := hq.trans hquals
  have hshape : shape.tag = tag := (Ctx.shape_tag hs).trans htag
  simp only at hs
  cases tag with
  | Error | Unit | Never =>
    cases hnode
    cases hs
    rfl
  | Prim =>
    cases hnode
    obtain ⟨-, hs⟩ := ite_none_right_eq_some.mp hs
    cases hs
    rfl
  | Param =>
    cases hnode
    obtain ⟨o, ho, -, rfl⟩ := Ctx.shape_param hs
    simp [Ctx.entry, Ctx.write_owner_eq ho, Mark.entry, Shape.tag, Shape.payload]
  | Brand =>
    obtain ⟨row, hrow, hnode⟩ := bind_eq_some_iff.mp hnode
    cases hnode
    cases row with
    | Param o i =>
      obtain ⟨o, ho, -, rfl⟩ := Ctx.shape_brand hs
      simp [Ctx.entry, hrow, Ctx.write_owner_eq ho, Mark.entry, Shape.tag, Shape.payload]
    | Fresh o i => cases hs
  | Nominal =>
    obtain ⟨xs, hxs, hnode⟩ := bind_eq_some_iff.mp hnode
    cases hnode
    obtain ⟨p, hp, rfl⟩ := map_eq_some_iff.mp hs
    simp [Ctx.entry, Ctx.write_head_eq hp, Mark.entry, Shape.tag, Shape.payload, Shape.refs]
  | Tuple =>
    obtain ⟨xs, hxs, hnode⟩ := bind_eq_some_iff.mp hnode
    cases hnode
    cases hs
    simp [Ctx.entry, Mark.entry, Shape.tag, Shape.payload, Shape.refs]
  | Dyn =>
    obtain ⟨⟨d, args⟩, htr, hnode⟩ := bind_eq_some_iff.mp hnode
    obtain ⟨xs, hxs, hnode⟩ := bind_eq_some_iff.mp hnode
    cases hnode
    obtain ⟨p, hp, rfl⟩ := map_eq_some_iff.mp hs
    simp [Ctx.entry, htr, Ctx.write_head_eq hp, Mark.entry, Shape.tag, Shape.payload, Shape.refs]
  | Fn =>
    obtain ⟨⟨params, result, raises, closure⟩, hfn, hnode⟩ := bind_eq_some_iff.mp hnode
    cases hnode
    cases hs
    obtain ⟨rs1, r, rs2, rfl, hn, hrs2⟩ := fn_split hrs
    rw [fn_refs hn]
    have hzip : (params.map Prod.fst).zip (rs1 ++ r :: rs2) = (params.map Prod.fst).zip rs1 := by
      have h := @zip_append _ _ _ [] _ (r :: rs2) hn.symm
      rwa [append_nil, zip_nil_left, append_nil] at h
    by_cases hno : raises = NO_TY
    · rw [if_pos hno] at hrs2
      obtain rfl := length_eq_zero_iff.mp hrs2
      simp [Ctx.entry, Mark.entry, Shape.tag, Shape.payload, hno, hzip, hn]
    · rw [if_neg hno] at hrs2
      obtain ⟨r', rfl⟩ := length_eq_one_iff.mp hrs2
      simp [Ctx.entry, Mark.entry, Shape.tag, Shape.payload, hno, hzip, hn]
  | Proj =>
    obtain ⟨⟨tr, name⟩, hkey, hnode⟩ := bind_eq_some_iff.mp hnode
    obtain ⟨⟨d, args⟩, htr, hnode⟩ := bind_eq_some_iff.mp hnode
    obtain ⟨xs, hxs, hnode⟩ := bind_eq_some_iff.mp hnode
    cases hnode
    obtain ⟨p, hp, hs⟩ := bind_eq_some_iff.mp hs
    obtain ⟨n, hn, hs⟩ := bind_eq_some_iff.mp hs
    cases hs
    obtain ⟨r, rs, rfl⟩ := exists_cons_of_length_eq_add_one hrs
    simp [Ctx.entry, hkey, htr, hn, Ctx.write_head_eq hp, Mark.entry, Shape.tag, Shape.payload,
      Shape.refs]
  | ConstVal =>
    rw [TyStore.node_of] at hnode
    cases hv : c.fir.tys.consts[a]? with
    | none =>
      rw [hv] at hnode
      cases hnode
      cases hs
    | some v =>
      rw [hv] at hnode
      cases hnode
      obtain ⟨w, hw, rfl⟩ := map_eq_some_iff.mp hs
      obtain ⟨r, rs, rfl⟩ := exists_cons_of_length_eq_add_one hrs
      obtain rfl := length_eq_zero_iff.mp (Nat.succ.inj hrs)
      simp [Ctx.entry, hv, Ctx.write_const_value_eq hw, Mark.entry, Shape.tag, Shape.payload,
        Shape.refs]

end Types

/-- A new type's entry goes under the next position. -/
theorem Holds.push {c : Ctx} {k : Keys} {e : Enc} {seen : List PTy} {t : TyId} {T : PTy}
    (h : Holds c e seen) (hc : c.Interned k) (ht : c.ty t = some T) (hnew : T ∉ seen)
    (hchildren : ∀ u ∈ T.children, u ∈ seen) :
    Holds c ⟨e.tys ++ entry_of seen T, e.body, (t, e.next) :: e.pos, e.next + 1⟩
      (seen ++ [T]) where
  next := by
    rw [h.next, length_append, length_singleton]
  pos := by
    intro t' T' ht'
    rw [lookup_cons]
    by_cases htt : t' = t
    · subst htt
      obtain rfl := some.inj (ht.symm.trans ht')
      rw [if_pos (by simp), beq_self_eq_true, h.next, idxOf_append_of_notMem hnew]
      simp
    · have hne : T' ≠ T := by
        rintro rfl
        exact htt (Ctx.ty_inj hc ht' ht)
      rw [beq_eq_false_iff_ne.mpr htt, h.pos t' T' ht']
      by_cases hmem : T' ∈ seen
      · rw [if_pos hmem, if_pos (mem_append_left _ hmem), idxOf_append_of_mem hmem]
      · rw [if_neg hmem, if_neg (by simp [hmem, hne])]
  tys := by
    rw [h.tys, ty_section_concat h.closed hchildren]
  closed := by
    intro u hu w hw
    obtain hu | hu := mem_append.mp hu
    · exact mem_append_left _ (h.closed u hu w hw)
    · obtain rfl := mem_singleton.mp hu
      exact mem_append_left _ (hchildren w hw)

section Parts

variable {c : Ctx} {k : Keys}

theorem emit_within_eq (fuel : Nat) (t : TyId) (e : Enc) :
    c.emit_within (fuel + 1) t e = match e.pos.lookup t with
      | some p => some (p, e)
      | none => (do
          let row ← c.fir.tys.rows[t]?
          let refs ← c.emit_children (c.emit_within fuel) row.tag row.a row.b
          let bytes ← c.entry row.tag row.a row.b row.quals refs
          Ctx.push_entry t bytes : EncM Nat) e := by
  rw [Ctx.emit_within]
  show (match e.pos.lookup t with
    | some p => (pure p : EncM Nat)
    | none => _) e = _
  cases e.pos.lookup t with
  | some p => rfl
  | none => rfl

variable {T : PTy}

/-- A type is emitted after its children, once. -/
theorem emits_within (hc : c.Interned k) {fuel : Nat} {t : TyId} (hlt : t < fuel)
    (hT : c.ty t = some T) :
    Emits c (c.emit_within fuel t) [T] (fun L => L.idxOf T) fun _ => [] := by
  induction fuel generalizing t T with
  | zero => exact absurd hlt (Nat.not_lt_zero t)
  | succ fuel ih =>
    intro e seen he
    have hpos := he.pos t T hT
    rw [emit_within_eq]
    by_cases hmem : T ∈ seen
    · rw [if_pos hmem] at hpos
      have hsame : visits [T] seen = seen := by
        cases T with
        | node m us => exact visit_of_mem hmem
      rw [hpos, hsame]
      exact ⟨_, e, rfl, he, fun later hlater =>
        ⟨(idxOf_later hlater hmem).symm, (append_nil _).symm⟩⟩
    · rw [if_neg hmem] at hpos
      obtain ⟨row, l, cs, hrow, hnode, hdown, hm, hus⟩ := Ctx.ty_cases hc hT
      obtain ⟨m, us⟩ := T
      simp only [Rose.label, Rose.children] at hm hus
      have hemit : ∀ x ∈ cs, ∀ u, c.ty x = some u →
          Emits c (c.emit_within fuel x) [u] (fun L => L.idxOf u) fun _ => [] := by
        intro x hx u hu
        exact ih (Nat.lt_of_lt_of_le (hdown x hx) (Nat.lt_succ_iff.mp hlt)) hu
      obtain ⟨refs, e1, hrun, he1, hrefs⟩ :=
        emits_children hnode (Ctx.mark_eq_some.mp hm).2.1 hemit hus e seen he
      obtain ⟨rfl, hbody⟩ := hrefs _ prefix_rfl
      rw [append_nil] at hbody
      have hlen : (us.map fun u => (visits us seen).idxOf u).length = cs.length := by
        rw [length_map]
        exact length_of_mapM hus
      have hentry := entry_eq hnode hm hlen
      rw [visits, visits, visit_node hmem]
      refine ⟨e1.next, _, ?_, he1.push hc hT (not_mem_visits_children hmem)
        (fun u hu => mem_visits hu seen), fun later hlater => ⟨?_, ?_⟩⟩
      · rw [hpos]
        simp only [hrow, lift_some]
        show (c.emit_children (c.emit_within fuel) row.tag row.a row.b e).bind _ = _
        rw [hrun]
        simp only [bind_some, hentry, lift_some]
        rfl
      · show e1.next = later.idxOf (.node m us)
        rw [he1.next, idxOf_later hlater (mem_append_right _ (mem_singleton.mpr rfl)),
          idxOf_append_of_notMem (not_mem_visits_children hmem)]
        simp
      · rw [append_nil]
        exact hbody

theorem emits_ty (hc : c.Interned k) {t : TyId} (hT : c.ty t = some T) :
    Emits c (c.emit_ty t) [T] (fun L => L.idxOf T) fun _ => [] :=
  emits_within hc (ite_none_right_eq_some.mp hT).1 hT

theorem emits_ty_list (hc : c.Interned k) {xs : List TyId} {us : List PTy}
    (hus : xs.mapM c.ty = some us) :
    Emits c (xs.mapM c.emit_ty) us (fun L => us.map fun u => L.idxOf u) fun _ => [] :=
  emits_tys (fun _ _ _ hu => emits_ty hc hu) hus

theorem emits_trait_ref (hc : c.Interned k) {tr : TraitRefId} {r : PTraitRef}
    (h : c.trait_ref tr = some r) :
    Emits c (c.trait_ref_bytes tr) r.args (fun L => r.bytes L) fun _ => [] := by
  obtain ⟨td, args, xs, htr, hxs, hus, hp⟩ := Ctx.trait_ref_eq_some h
  simp only [Ctx.trait_ref_bytes, htr, hxs, lift_some, Ctx.write_head_eq hp]
  exact (emits_ty_list hc hus).map _

/-! ## Canonical bytes -/

/-- What a part emits from nothing. -/
theorem run_new {α : Type} {m : EncM α} {tys : List PTy} {val : List PTy → α}
    {out : List PTy → Bytes} (h : Emits c m tys val out) :
    ∃ e, m.run .new = some (val (visits tys []), e) ∧ e.next = (visits tys []).length ∧
      e.tys = ty_section (visits tys []) ∧ e.body = out (visits tys []) := by
  obtain ⟨x, e, hrun, he, hx⟩ := h .new [] (holds_new c)
  obtain ⟨rfl, hbody⟩ := hx _ prefix_rfl
  exact ⟨e, hrun, he.next, he.tys, hbody⟩

theorem canon_trait_ref_eq (hc : c.Interned k) {tr : TraitRefId} {r : PTraitRef}
    (h : c.trait_ref tr = some r) : c.canon_trait_ref tr = some r.canon := by
  obtain ⟨e, hrun, hnext, htys, -⟩ := run_new (emits_trait_ref hc h)
  simp only [Ctx.canon_trait_ref, hrun, hnext, htys, bind_eq_bind, bind_some,
    Option.pure_def]
  rfl

theorem canon_ty_eq (hc : c.Interned k) {t : TyId} (h : c.ty t = some T) :
    c.canon_ty t = some (canon_ty T) := by
  obtain ⟨e, hrun, hnext, htys, -⟩ := run_new (emits_ty hc h)
  simp only [Ctx.canon_ty, hrun, hnext, htys, bind_eq_bind, bind_some,
    Option.pure_def]
  rfl

end Parts

end Fors.Sigs
