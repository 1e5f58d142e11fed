import Fors.Syntax.Columns

/-!
# The builder in step with the ordered tree

Each call keeps the simulation as long as there are fewer than `2 ^ 32` nodes, and `finish` writes out
what the slices hold: the columns of the ordered tree.

Principal results: `sim_run`, `finish_refines` and `builder_is_insertion`.
-/

namespace Fors.Syntax

open TreeBuilder Node Option
open List hiding getElem?_eq_some_iff
open Words (as_u32 as_u32_eq)

variable {K : Type}

/-! ## The simulation -/

/-- The builder's columns hold the open and the finished nodes of the ordered tree. -/
structure Sim (b : TreeBuilder K) (r : OrderedBuilder K) : Prop where
  frames : Frames b.rows b.rows.length b.stack r.opened r.done b.last_closed
  cur : b.cur_token = r.cur_token

section Steps

variable {rows : List (BuildRow K)} {b : TreeBuilder K} {r : OrderedBuilder K}

@[simp]
theorem OrderedBuilder.set_siblings_cur (r : OrderedBuilder K) (nodes : List (Node K)) :
    (r.set_siblings nodes).cur_token = r.cur_token := by
  unfold OrderedBuilder.set_siblings
  cases r.opened <;> rfl

theorem agree_append (rows : List (BuildRow K)) (row : BuildRow K) (lo : Nat) :
    AgreeOn rows (rows ++ [row]) lo rows.length :=
  fun _ _ hhi => getElem?_append_left hhi

theorem agree_modify (rows : List (BuildRow K)) (f : BuildRow K → BuildRow K) {i lo hi : Nat}
    (hout : i < lo ∨ hi ≤ i) : AgreeOn rows (rows.modify i f) lo hi := by
  intro j hlo hhi
  have hne : i ≠ j := by omega
  exact getElem?_modify_ne f rows hne

theorem getElem?_modify_self {rows : List (BuildRow K)} {i : Nat} {row : BuildRow K}
    (h : rows[i]? = some row) (f : BuildRow K → BuildRow K) :
    (rows.modify i f)[i]? = some (f row) := by
  rw [getElem?_modify_eq, h]
  rfl

theorem sim_new : Sim (.new : TreeBuilder K) .new :=
  ⟨.base (.nil (Nat.le_refl 0)), rfl⟩

/-- A row behind the others is an open node with nothing in it. -/
theorem Frames.start {stack : List Nat} {opened : List (OpenNode K)} {done : List (Node K)}
    {last : Option Nat} (h : Frames rows rows.length stack opened done last) (row : BuildRow K)
    (hstart : row.start_of = rows.length) (hwrapper : row.wrapper = none) :
    Frames (rows ++ [row]) (rows ++ [row]).length (rows.length :: stack)
      (⟨row.kind, row.first_token, [], []⟩ :: opened) done none := by
  have hlen : (rows ++ [row]).length = rows.length + 1 := length_append
  have hrow : (rows ++ [row])[rows.length]? = some row := getElem?_concat_length
  rw [hlen]
  refine .cons (h.of_agree (by omega) (agree_append rows row 0)) ⟨⟨row, hrow, rfl, rfl, hwrapper⟩, ?_⟩
    (.nil (by omega))
  exact .plain (by omega) (by rw [hrow, map_some, hstart])

theorem Sim.start (h : Sim b r) (kind : K) (hlen : b.rows.length + 1 < 2 ^ 32) :
    Sim (b.start_node kind) (r.open_node kind r.cur_token []) := by
  have hframes := h.frames.start ⟨kind, b.cur_token, b.cur_token, b.rows.length + 1,
    b.rows.length, none⟩ rfl rfl
  rw [h.cur] at hframes
  refine ⟨?_, h.cur⟩
  unfold TreeBuilder.start_node TreeBuilder.push
  dsimp only
  rw [h.cur, as_u32_eq (Nat.lt_of_succ_lt hlen), as_u32_eq hlen]
  exact hframes

/-- The last finished sibling comes to be inside a new open node. -/
theorem Frames.wrap {lo mid top : Nat} {stack : List Nat} {nodes : List (Node K)}
    {last : Option Nat} {node : Node K} (kind : K)
    (hfocus : ∀ {rows' : List (BuildRow K)} {hi' : Nat} {nodes' : List (Node K)} {last' : Option Nat},
      rows.length ≤ rows'.length → AgreeOn rows rows' 0 lo → Forest rows' lo hi' nodes' last' →
        Frames rows' hi' stack (r.set_siblings nodes').opened (r.set_siblings nodes').done last')
    (hforest : Forest rows lo mid nodes last) (hnode : NodeAt rows mid rows.length top node)
    {row : BuildRow K} (hrow : rows[top]? = some row) :
    Frames ((rows ++ [(⟨kind, row.first_token, row.first_token, rows.length + 1, row.start_of,
        none⟩ : BuildRow K)]).modify top fun row : BuildRow K =>
          { row with wrapper := some rows.length }) (rows.length + 1)
      (rows.length :: stack)
      (((r.set_siblings nodes).open_node kind node.first_token [node]).opened)
      (r.set_siblings nodes).done none := by
  have hlt := hnode.holds.lt
  have hge := hnode.holds.ge
  have hle := hforest.le
  have hhead := hnode.head
  have hstart := hnode.holds.start
  rw [hrow, map_some] at hhead hstart
  have hhead := some.inj hhead
  have hstart := some.inj hstart
  generalize hnew : (⟨kind, row.first_token, row.first_token, rows.length + 1, row.start_of, none⟩ :
    BuildRow K) = new
  generalize hf : (fun row : BuildRow K => { row with wrapper := some rows.length }) = f
  have hlen : ((rows ++ [new]).modify top f).length = rows.length + 1 := by
    rw [length_modify, length_append, length_singleton]
  -- the table is as before but for the top node's link and the new row
  have hsame : ∀ i, i < rows.length → i ≠ top →
      ((rows ++ [new]).modify top f)[i]? = rows[i]? := by
    intro i hi hne
    rw [getElem?_modify_ne f _ (Ne.symm hne), getElem?_append_left hi]
  have htop : ((rows ++ [new]).modify top f)[top]? = some (f row) :=
    getElem?_modify_self (by rw [getElem?_append_left hlt, hrow]) f
  have hlast : ((rows ++ [new]).modify top f)[rows.length]? = some new := by
    rw [getElem?_modify_ne f _ (by omega), getElem?_concat_length]
  have hbefore : AgreeOn rows ((rows ++ [new]).modify top f) 0 mid :=
    fun i _ hi => hsame i (by omega) (by omega)
  have houter := hfocus (by omega) (fun i hlo hi => hbefore i hlo (by omega))
    (hforest.of_agree (by omega) fun i _ hi => hbefore i (Nat.zero_le i) hi)
  have hholds : Holds ((rows ++ [new]).modify top f) mid rows.length top node.inside :=
    hnode.holds.of_agree (by omega) ⟨fun i _ hi hne => hsame i hi hne, by
      rw [htop, hrow, ← hf]; rfl⟩
  refine .cons houter ⟨⟨new, hlast, ?_, ?_, ?_⟩, ?_⟩ (.nil (by omega))
  · rw [← hnew]
  · rw [← hnew]
    have hfirst := congrArg TreeRow.first_token hhead
    cases node
    exact hfirst
  · rw [← hnew]
  · rw [preorder_all, preorder_all, append_nil, preorder_eq]
    refine hholds.wrap ?_ (by omega) ?_ ?_
    · rw [wrapper_of, htop, ← hf]
      rfl
    · rw [hlast, ← hnew, map_some, hstart]
    · rw [htop, ← hf, ← hhead]
      rfl

theorem Sim.wrap (h : Sim b r) (kind : K) (hlen : b.rows.length + 1 < 2 ^ 32) :
    Sim (b.wrap_last_sibling kind) (r.wrap_last_sibling kind) := by
  obtain ⟨lo, hforest, hfocus⟩ := h.frames.focus
  generalize hs : r.siblings = nodes at hforest
  generalize hl : b.last_closed = last at hforest
  generalize hhi : b.rows.length = hi at hforest
  cases hforest with
  | nil =>
    unfold TreeBuilder.wrap_last_sibling OrderedBuilder.wrap_last_sibling
    rw [hl, hs]
    exact h.start kind hlen
  | @snoc mid _ top nodes last node hforest hnode =>
    obtain ⟨row, hrow, hhead⟩ := map_eq_some_iff.1 hnode.head
    subst hhi
    have hframes := Frames.wrap kind hfocus hforest hnode hrow
    have hge := hnode.holds.ge
    have hlt := hnode.holds.lt
    have hstart := hnode.holds.start
    rw [hrow, map_some] at hstart
    have hlink : link row.start_of = some row.start_of :=
      link_of_lt (by rw [some.inj hstart, NONE]; omega)
    have hlink' : link b.rows.length = some b.rows.length := link_of_lt (by rw [NONE]; omega)
    unfold TreeBuilder.wrap_last_sibling OrderedBuilder.wrap_last_sibling
    rw [hl, hs, getLast?_concat, dropLast_concat]
    simp only [Option.bind, Option.map, hrow, TreeBuilder.push, Option.getD,
      as_u32_eq (Nat.lt_of_succ_lt hlen), as_u32_eq hlen, hlink, hlink']
    refine ⟨?_, ?_⟩
    · simp only [length_modify, length_append, length_singleton]
      exact hframes
    · rw [OrderedBuilder.open_node, OrderedBuilder.set_siblings_cur]
      exact h.cur

/-- The innermost open node is finished: its row gets its end, and it is the last sibling. -/
theorem OpenAt.finish {lo idx : Nat} {o : OpenNode K} {last : Option Nat} (cur : UInt32)
    (hlen : rows.length < 2 ^ 32) (hopen : OpenAt rows lo idx o)
    (hforest : Forest rows (idx + 1) rows.length o.children last) :
    NodeAt (rows.modify idx fun row : BuildRow K =>
      { row with end_token := cur, end_idx := rows.length }) lo rows.length idx (o.close cur) := by
  obtain ⟨row, hrow, hkind, hfirst, hbare⟩ := hopen.row
  have hholds := hopen.holds.close hforest
  rw [← preorder_all_append] at hholds
  have hcount := hholds.count
  rw [length_preorder_all] at hcount
  have hstart := hopen.holds.start
  rw [hrow, map_some] at hstart
  have hstart := some.inj hstart
  have hself := getElem?_modify_self hrow fun row : BuildRow K =>
    { row with end_token := cur, end_idx := rows.length }
  refine ⟨?_, hholds.of_agree (Nat.le_of_eq (length_modify ..).symm) ⟨fun i _ _ hne => ?_, ?_⟩, ?_⟩
  · rw [hself, map_some, BuildRow.emit, OpenNode.close, Node.head]
    dsimp only
    have hle : lo ≤ rows.length := Nat.le_trans hholds.ge (Nat.le_of_lt hholds.lt)
    rw [hkind, hfirst, hstart, sub_u32_eq hle hlen, hcount]
  · exact getElem?_modify_ne _ rows (Ne.symm hne)
  · rw [hself, hrow]
    rfl
  · rw [wrapper_of, hself]
    exact hbare

theorem Sim.finish (h : Sim b r) (hlen : b.rows.length < 2 ^ 32) :
    Sim b.finish_node r.finish_node := by
  obtain ⟨rows, stack, cur, last⟩ := b
  obtain ⟨opened, done, cur'⟩ := r
  obtain ⟨hframes, hcur⟩ := h
  dsimp only at hframes hcur
  subst hcur
  generalize hhi : rows.length = hi at hframes
  cases hframes with
  | base h => exact ⟨hhi ▸ .base h, rfl⟩
  | @cons lo idx _ stack opened o _ _ _ hrest hopen hforest =>
    subst hhi
    obtain ⟨lo0, hbefore, hfocus⟩ := Frames.focus (r := ⟨opened, done, cur⟩) hrest
    have hbound : rows.length < 2 ^ 32 := hlen
    have hnode := hopen.finish cur hbound hforest
    have hge := hopen.holds.ge
    have hidx : link idx = some idx := link_of_lt (by
      have := hforest.le
      rw [NONE]
      omega)
    refine ⟨?_, ?_⟩
    · have hlen : rows.length = (rows.modify idx fun row : BuildRow K =>
          { row with end_token := cur, end_idx := rows.length }).length := (length_modify ..).symm
      have hforest' := hbefore.of_agree (Nat.le_of_eq hlen) (agree_modify rows _ (.inr hge))
      have hframes := hfocus (Nat.le_of_eq hlen)
        (agree_modify rows _ (.inr (Nat.le_trans hbefore.le.1 hge)))
        (hforest'.snoc hnode)
      unfold TreeBuilder.finish_node
      dsimp only
      rwa [as_u32_eq hbound, hidx, ← hlen]
    · unfold OrderedBuilder.finish_node
      dsimp only
      rw [OrderedBuilder.set_siblings_cur]
      rfl

theorem Sim.current (h : Sim b r) (kind : K) :
    Sim (b.set_current_kind kind) (r.set_current_kind kind) := by
  obtain ⟨rows, stack, cur, last⟩ := b
  obtain ⟨opened, done, cur'⟩ := r
  obtain ⟨hframes, hcur⟩ := h
  refine ⟨?_, ?_⟩
  · dsimp only at hframes
    generalize hhi : rows.length = hi at hframes
    cases hframes with
    | base h => exact hhi ▸ .base h
    | @cons lo idx _ stack opened o _ _ _ hrest hopen hforest =>
      obtain ⟨row, hrow, -, hfirst, hbare⟩ := hopen.row
      have hge := hopen.holds.ge
      have hlen : rows.length = (rows.modify idx fun row : BuildRow K =>
          { row with kind := kind }).length := (length_modify ..).symm
      have hself := getElem?_modify_self hrow fun row : BuildRow K => { row with kind := kind }
      show Frames (rows.modify idx fun row : BuildRow K => { row with kind := kind })
        (rows.modify idx fun row : BuildRow K => { row with kind := kind }).length _ _ _ _
      rw [← hlen, hhi]
      refine .cons (hrest.of_agree (Nat.le_of_eq hlen) (agree_modify rows _ (.inr hge))) ⟨?_, ?_⟩
        (hforest.of_agree (Nat.le_of_eq hlen) (agree_modify rows _ (.inl (Nat.lt_succ_self idx))))
      · exact ⟨_, hself, rfl, hfirst, hbare⟩
      · refine hopen.holds.of_agree (Nat.le_of_eq hlen) ⟨fun i _ _ hne => ?_, ?_⟩
        · exact getElem?_modify_ne _ rows (Ne.symm hne)
        · rw [hself, hrow]
          rfl
  · unfold TreeBuilder.set_current_kind OrderedBuilder.set_current_kind
    cases stack <;> cases opened <;> exact hcur

/-- The kind of a finished node may be set in its row. -/
theorem NodeAt.set_kind {lo hi top : Nat} {node : Node K} (h : NodeAt rows lo hi top node)
    (kind : K) : NodeAt (rows.modify top fun row : BuildRow K => { row with kind := kind }) lo hi top
      (node.set_kind kind) := by
  obtain ⟨row, hrow, hhead⟩ := map_eq_some_iff.1 h.head
  have hself := getElem?_modify_self hrow fun row : BuildRow K => { row with kind := kind }
  have hlen : (rows.modify top fun row : BuildRow K => { row with kind := kind }).length =
    rows.length := length_modify ..
  obtain ⟨kind', first, len, children⟩ := node
  refine ⟨?_, h.holds.of_agree (Nat.le_of_eq hlen.symm) ⟨fun i _ _ hne => ?_, ?_⟩, ?_⟩
  · rw [hself, map_some, Node.set_kind, Node.head]
    rw [Node.head] at hhead
    injection hhead with _ hfirst htokens hsub
    subst hfirst
    rw [BuildRow.emit]
    dsimp only
    rw [htokens, hsub]
  · exact getElem?_modify_ne _ rows (Ne.symm hne)
  · rw [hself, hrow]
    rfl
  · have hbare := h.bare
    rw [wrapper_of, hrow] at hbare
    rw [wrapper_of, hself]
    exact hbare

theorem Sim.last (h : Sim b r) (kind : K) :
    Sim (b.set_last_kind kind) (r.set_last_kind kind) := by
  obtain ⟨lo, hforest, hfocus⟩ := h.frames.focus
  generalize hs : r.siblings = nodes at hforest
  generalize hl : b.last_closed = last at hforest
  generalize hhi : b.rows.length = hi at hforest
  unfold TreeBuilder.set_last_kind OrderedBuilder.set_last_kind
  cases hforest with
  | nil =>
    rw [hl, hs]
    exact h
  | @snoc mid _ top nodes last node hforest hnode =>
    subst hhi
    rw [hl, hs, getLast?_concat, dropLast_concat]
    have hlen : b.rows.length = (b.rows.modify top fun row : BuildRow K =>
        { row with kind := kind }).length := (length_modify ..).symm
    have hge := hnode.holds.ge
    have hnode' := hnode.set_kind kind
    have hforest' := hforest.of_agree (Nat.le_of_eq hlen) (agree_modify b.rows _ (.inr hge))
    have hframes := hfocus (Nat.le_of_eq hlen)
      (agree_modify b.rows _ (.inr (Nat.le_trans hforest.le.1 hge))) (hforest'.snoc hnode')
    refine ⟨?_, ?_⟩
    · dsimp only
      rw [← hlen]
      exact hframes
    · rw [OrderedBuilder.set_siblings_cur]
      exact h.cur

theorem length_finish (b : TreeBuilder K) : b.finish_node.rows.length = b.rows.length := by
  unfold TreeBuilder.finish_node
  split
  · rfl
  · exact length_modify ..

/-- A call appends the rows of the nodes it records. -/
theorem length_call (b : TreeBuilder K) (c : Call K) :
    (b.call c).rows.length = b.rows.length + c.creates := by
  have hstart : ∀ (b : TreeBuilder K) kind, (b.start_node kind).rows.length = b.rows.length + 1 :=
    fun b kind => length_append
  cases c with
  | start_node kind => exact hstart b kind
  | finish_node => exact length_finish b
  | wrap_last_sibling kind =>
    show (b.wrap_last_sibling kind).rows.length = b.rows.length + 1
    unfold TreeBuilder.wrap_last_sibling
    split
    · exact hstart b kind
    · exact (length_modify ..).trans length_append
  | set_current_kind kind =>
    show (b.set_current_kind kind).rows.length = b.rows.length
    unfold TreeBuilder.set_current_kind
    split
    · rfl
    · exact length_modify ..
  | set_last_kind kind =>
    show (b.set_last_kind kind).rows.length = b.rows.length
    unfold TreeBuilder.set_last_kind
    split
    · rfl
    · exact length_modify ..
  | bump_raw n => rfl
  | empty_node kind => exact (length_finish _).trans (hstart b kind)

theorem Sim.call (h : Sim b r) (c : Call K) (hlen : b.rows.length + c.creates < 2 ^ 32) :
    Sim (b.call c) (r.call c) := by
  cases c with
  | start_node kind => exact h.start kind hlen
  | finish_node => exact h.finish hlen
  | wrap_last_sibling kind => exact h.wrap kind hlen
  | set_current_kind kind => exact h.current kind
  | set_last_kind kind => exact h.last kind
  | bump_raw n => exact ⟨h.frames, congrArg (· + n) h.cur⟩
  | empty_node kind =>
    refine (h.start kind hlen).finish (Nat.lt_of_le_of_lt (Nat.le_of_eq ?_) hlen)
    exact length_append

end Steps

theorem sim_foldl {b : TreeBuilder K} {r : OrderedBuilder K} (h : Sim b r) (calls : List (Call K))
    (hlen : b.rows.length + nodes_of calls < 2 ^ 32) :
    Sim (calls.foldl TreeBuilder.call b) (calls.foldl OrderedBuilder.call r) ∧
      (calls.foldl TreeBuilder.call b).rows.length = b.rows.length + nodes_of calls := by
  induction calls generalizing b r with
  | nil => exact ⟨h, rfl⟩
  | cons c calls ih =>
    have hnodes : nodes_of (c :: calls) = c.creates + nodes_of calls := sum_cons
    rw [hnodes, ← Nat.add_assoc] at hlen ⊢
    rw [← length_call b c] at hlen ⊢
    rw [length_call] at hlen
    exact ih (h.call c (Nat.lt_of_le_of_lt (Nat.le_add_right _ _) hlen))
      (by rw [length_call]; exact hlen)

/-- Every run of calls that fits keeps the two in step, and has a row for each node. -/
theorem sim_run {calls : List (Call K)} (hlen : nodes_of calls < 2 ^ 32) :
    Sim (TreeBuilder.run calls) (OrderedBuilder.run calls) ∧
      (TreeBuilder.run calls).rows.length = nodes_of calls := by
  obtain ⟨hsim, hrows⟩ := sim_foldl (b := .new) sim_new calls (by rwa [show (TreeBuilder.new :
    TreeBuilder K).rows.length = 0 from rfl, Nat.zero_add])
  exact ⟨hsim, hrows.trans (Nat.zero_add _)⟩

/-! ## Closing what is open -/

theorem Frames.length {rows : List (BuildRow K)} {hi : Nat} {stack : List Nat}
    {opened : List (OpenNode K)} {done : List (Node K)} {last : Option Nat}
    (h : Frames rows hi stack opened done last) : stack.length = opened.length := by
  induction h with
  | base => rfl
  | cons _ _ _ ih => rw [length_cons, length_cons, ih]

theorem sim_finish_all {b : TreeBuilder K} {r : OrderedBuilder K} {js : List Nat}
    {os : List (OpenNode K)} (hlen : js.length = os.length) (h : Sim b r)
    (hrows : b.rows.length < 2 ^ 32) :
    Sim (js.foldl (fun b _ => b.finish_node) b) (os.foldl (fun r _ => r.finish_node) r) := by
  induction js generalizing os b r with
  | nil =>
    rw [eq_nil_of_length_eq_zero hlen.symm]
    exact h
  | cons j js ih =>
    cases os with
    | nil => cases hlen
    | cons o os =>
      have hlen : js.length = os.length := by simpa using hlen
      exact @ih _ _ os hlen (h.finish hrows) (by rwa [length_finish])

theorem stack_finish_all {b : TreeBuilder K} {js : List Nat} (h : b.stack = js) :
    (js.foldl (fun b _ => b.finish_node) b).stack = [] := by
  induction js generalizing b with
  | nil => exact h
  | cons j js ih =>
    refine ih (b := b.finish_node) ?_
    unfold TreeBuilder.finish_node
    rw [h]

/-- When all is closed the columns are a forest. -/
theorem Sim.forest {b : TreeBuilder K} {r : OrderedBuilder K} (h : Sim b r)
    (hrows : b.rows.length < 2 ^ 32) :
    ∃ last, Forest b.close_all.rows 0 b.close_all.rows.length r.close_all.done last := by
  have hsim : Sim b.close_all r.close_all := sim_finish_all h.frames.length h hrows
  have hframes := hsim.frames
  rw [show b.close_all.stack = [] from stack_finish_all rfl] at hframes
  generalize r.close_all.opened = opened at hframes
  cases hframes with
  | base h => exact ⟨_, h⟩

/-! ## Emission -/

section Emission

variable {rows : List (BuildRow K)}

variable {j : Nat} {ws : List Nat}

theorem Up.chain_len (h : Up rows j ws) {fuel : Nat}
    (hfuel : ws.length ≤ fuel) : chain_len rows fuel j = ws.length + 1 := by
  induction h generalizing fuel with
  | last h =>
    cases fuel with
    | zero => rfl
    | succ fuel => rw [TreeBuilder.chain_len, h]; rfl
  | step h _ _ _ ih =>
    cases fuel with
    | zero => cases hfuel
    | succ fuel =>
      rw [TreeBuilder.chain_len, h]
      exact congrArg (· + 1) (ih (Nat.le_of_succ_le_succ hfuel))

/-- Wrappers are younger than what they enclose, so a chain is no longer than the table. -/
theorem Up.length_le (h : Up rows j ws) (hj : j < rows.length) :
    ws.length + j < rows.length := by
  induction h with
  | last h => simpa using hj
  | step h hlt hlen hup ih =>
    have := ih hlen
    rw [length_cons]
    omega

theorem Up.emitted_length (h : Up rows j ws) (hj : j < rows.length) :
    (emitted rows (j :: ws)).length = ws.length + 1 := by
  induction h with
  | @last j _ =>
    rw [emitted_cons (e := rows[j].emit) (by rw [getElem?_eq_getElem hj]; rfl)]
    rfl
  | @step j w ws _ _ hlen _ ih =>
    rw [emitted_cons (e := rows[j].emit) (by rw [getElem?_eq_getElem hj]; rfl),
      length_cons, ih hlen, length_cons]

theorem set_behind (xs ys : Tree K) (y e : TreeRow K) :
    (xs ++ y :: ys).set xs.length e = xs ++ e :: ys := by
  rw [set_append_right _ _ (Nat.le_refl _), Nat.sub_self, set_cons_zero]

/-- A chain is written from its innermost node to the left. -/
theorem Up.write_chain (h : Up rows j ws) (hj : j < rows.length)
    {fuel : Nat} (hfuel : ws.length < fuel) (before middle after : Tree K)
    (hmiddle : middle.length = ws.length + 1) :
    write_chain rows fuel (before.length + (ws.length + 1)) j (before ++ middle ++ after) =
      before ++ (emitted rows (j :: ws)).reverse ++ after := by
  induction h generalizing fuel middle after with
  | @last j h =>
    cases fuel with
    | zero => cases hfuel
    | succ fuel =>
      obtain ⟨y, rfl⟩ := length_eq_one_iff.1 hmiddle
      rw [TreeBuilder.write_chain, h, getElem?_eq_getElem hj,
        emitted_cons (e := rows[j].emit) (by rw [getElem?_eq_getElem hj]; rfl)]
      simp [emitted]
  | @step j w ws h _ hlen _ ih =>
    cases fuel with
    | zero => cases hfuel
    | succ fuel =>
      have hne : middle ≠ [] := fun hnil => by rw [hnil] at hmiddle; cases hmiddle
      obtain ⟨middle, y, rfl⟩ := (eq_nil_or_concat middle).resolve_left hne
      rw [concat_eq_append, length_append] at hmiddle
      rw [concat_eq_append]
      have hmiddle : middle.length = ws.length + 1 := Nat.succ_inj.1 hmiddle
      rw [TreeBuilder.write_chain, h, getElem?_eq_getElem hj,
        emitted_cons (e := rows[j].emit) (by rw [getElem?_eq_getElem hj]; rfl)]
      dsimp only
      have hset := set_behind (before ++ middle) after y rows[j].emit
      rw [length_append, hmiddle] at hset
      have hpos : before.length + ((w :: ws).length + 1) - 1 = before.length + (ws.length + 1) := rfl
      have hih := ih hlen (Nat.lt_of_succ_lt_succ hfuel) middle (rows[j].emit :: after) hmiddle
      rw [← hset] at hih
      rw [hpos, reverse_cons]
      simpa using hih

/-- What `finish` writes for the nodes of a slice. -/
theorem Emits.foldl {lo hi : Nat} {es : Tree K} (h : Emits rows lo hi es) {n : Nat}
    (hn : lo + n = hi) (before middle after : Tree K) (hmiddle : middle.length = es.length) :
    (List.range' lo n).foldl (emit_row rows) (before.length, before ++ middle ++ after) =
      ((before ++ es).length, before ++ es ++ after) := by
  induction h generalizing n before middle with
  | nil i =>
    have hzero : n = 0 := by omega
    rw [eq_nil_of_length_eq_zero hmiddle, hzero]
    rw [append_nil]
    rfl
  | @skip i hi row es hrow hstart h ih =>
    have hle := h.le
    obtain ⟨n, rfl⟩ : ∃ m, n = m + 1 := ⟨n - 1, by omega⟩
    have hskip : emit_row rows (before.length, before ++ middle ++ after) i =
        (before.length, before ++ middle ++ after) := by
      unfold emit_row
      dsimp only
      rw [hrow, map_some, if_pos (fun heq => hstart (some.inj heq))]
    rw [List.range'_succ, foldl_cons, hskip]
    exact ih (by omega) before middle hmiddle
  | @chain i hi row ws es hrow hstart hup h ih =>
    have hle := h.le
    obtain ⟨n, rfl⟩ : ∃ m, n = m + 1 := ⟨n - 1, by omega⟩
    have hi : i < rows.length := (List.getElem?_eq_some_iff.1 hrow).1
    have hws := hup.length_le hi
    have hchain := hup.emitted_length hi
    rw [length_append, length_reverse, hchain] at hmiddle
    have hfirst : (middle.take (ws.length + 1)).length = ws.length + 1 :=
      length_take_of_le (by omega)
    have hrest : (middle.drop (ws.length + 1)).length = es.length := by
      rw [length_drop]
      omega
    have hwrite : emit_row rows (before.length, before ++ middle ++ after) i =
        ((before ++ (emitted rows (i :: ws)).reverse).length,
          before ++ (emitted rows (i :: ws)).reverse ++ middle.drop (ws.length + 1) ++ after) := by
      unfold emit_row
      dsimp only
      rw [hrow, map_some, if_neg (fun hne => hne (congrArg some hstart)),
        hup.chain_len (by omega)]
      rw [length_append, length_reverse, hchain]
      have hput := hup.write_chain hi (show ws.length < rows.length + 1 by omega) before _
        (middle.drop (ws.length + 1) ++ after) hfirst
      rw [← append_assoc, ← append_assoc, append_assoc before,
        take_append_drop] at hput
      rw [hput]
    rw [List.range'_succ, foldl_cons, hwrite, ih (by omega) _ _ hrest, append_assoc before]

end Emission

/-! ## Subtrees are slices -/

/-- The rows from `p` on, as many as row `p` says, are the columns of a node of that many nodes. -/
def SliceAt (tree : Tree K) (p : Nat) (row : TreeRow K) : Prop :=
  ∃ node : Node K, (tree.drop p).take row.subtree_len = preorder node ∧ row.subtree_len = node.size

theorem SliceAt.append {tree : Tree K} {p : Nat} {row : TreeRow K} (h : SliceAt tree p row)
    (after : Tree K) : SliceAt (tree ++ after) p row := by
  obtain ⟨node, htake, hsize⟩ := h
  refine ⟨node, ?_, hsize⟩
  have hlen := congrArg List.length htake
  rw [length_preorder, ← hsize, length_take, length_drop] at hlen
  by_cases hzero : row.subtree_len = 0
  · rw [← htake, hzero, take_zero, take_zero]
  · rw [drop_append_of_le_length (by omega),
      take_append_of_le_length (by rw [length_drop]; omega), htake]

theorem SliceAt.behind {tree : Tree K} {p : Nat} {row : TreeRow K} (h : SliceAt tree p row)
    (before : Tree K) : SliceAt (before ++ tree) (before.length + p) row := by
  obtain ⟨node, htake, hsize⟩ := h
  refine ⟨node, ?_, hsize⟩
  rw [← drop_drop, drop_left, htake]

mutual

theorem slice_preorder : ∀ (node : Node K) (p : Nat) (row : TreeRow K),
    (preorder node)[p]? = some row → SliceAt (preorder node) p row
  | .mk kind first len children, 0, row => by
    intro hrow
    have hlen := length_preorder (.mk kind first len children)
    refine ⟨.mk kind first len children, ?_, ?_⟩
    · rw [preorder, getElem?_cons_zero] at hrow
      rw [drop_zero, take_of_length_le]
      exact Nat.le_of_eq (by rw [hlen, ← some.inj hrow, size])
    · rw [preorder, getElem?_cons_zero] at hrow
      rw [← some.inj hrow, size]
  | .mk kind first len children, p + 1, row => by
    intro hrow
    rw [preorder, getElem?_cons_succ] at hrow
    have hslice := (slice_preorder_all children p row hrow).behind
      [⟨kind, first, len, size_all children + 1⟩]
    rw [length_singleton, Nat.add_comm 1 p] at hslice
    rw [preorder]
    exact hslice

theorem slice_preorder_all : ∀ (nodes : List (Node K)) (p : Nat) (row : TreeRow K),
    (preorder_all nodes)[p]? = some row → SliceAt (preorder_all nodes) p row
  | [], p, row => by
    intro hrow
    cases hrow
  | node :: nodes, p, row => by
    intro hrow
    rw [preorder_all] at hrow ⊢
    by_cases hp : p < (preorder node).length
    · rw [getElem?_append_left hp] at hrow
      exact (slice_preorder node p row hrow).append _
    · have hp : (preorder node).length ≤ p := Nat.le_of_not_lt hp
      rw [getElem?_append_right hp] at hrow
      have hslice := (slice_preorder_all nodes _ row hrow).behind (preorder node)
      rwa [Nat.add_sub_cancel' hp] at hslice

end

/-! ## The columns -/

/-- Whatever calls are made, the emitted columns are the ordered tree's. -/
theorem finish_refines (error : K) {calls : List (Call K)} (hlen : nodes_of calls < 2 ^ 32) :
    (TreeBuilder.run calls).finish error = (OrderedBuilder.run calls).finish := by
  obtain ⟨hsim, hrows⟩ := sim_run hlen
  obtain ⟨last, hforest⟩ := hsim.forest (hrows.trans_lt hlen)
  have hemits := hforest.emits
  have hcount := hforest.count
  unfold TreeBuilder.finish OrderedBuilder.finish
  generalize (TreeBuilder.run calls).close_all.rows = rows at *
  have hfold := hemits.foldl (Nat.zero_add rows.length) []
    (List.replicate rows.length ⟨error, 0, 0, 0⟩) []
    (by rw [length_replicate, hcount, Nat.sub_zero])
  dsimp only
  rw [range_eq_range']
  simpa using congrArg Prod.snd hfold

/-- The builder writes the ordered tree's columns, and every row's subtree is the slice it names, in a
run that records fewer than `2 ^ 32` nodes. -/
theorem builder_is_insertion (error : K) {calls : List (Call K)} (hlen : nodes_of calls < 2 ^ 32) :
    (TreeBuilder.run calls).finish error = (OrderedBuilder.run calls).finish ∧
      ∀ (p : Nat) (row : TreeRow K), ((TreeBuilder.run calls).finish error)[p]? = some row →
        SliceAt ((TreeBuilder.run calls).finish error) p row := by
  have hfinish := finish_refines error hlen
  refine ⟨hfinish, ?_⟩
  rw [hfinish]
  exact slice_preorder_all _

/-- A wrapper around a wrapper, with a leaf behind the inner node. -/
theorem builder_is_insertion_wrapped :
    let calls : List (Call Nat) :=
      [.start_node 0, .bump_raw 1, .start_node 1, .bump_raw 1, .finish_node, .wrap_last_sibling 2,
        .bump_raw 2, .empty_node 3, .finish_node, .wrap_last_sibling 4, .bump_raw 1, .finish_node,
        .set_last_kind 5]
    (TreeBuilder.run calls).finish 9 = (OrderedBuilder.run calls).finish ∧
      ∀ (p : Nat) (row : TreeRow Nat), ((TreeBuilder.run calls).finish 9)[p]? = some row →
        SliceAt ((TreeBuilder.run calls).finish 9) p row :=
  builder_is_insertion 9 (by decide)

/-- The child a node was wrapped around is not wrapped again while the node is open. -/
theorem wrapped_child_stays :
    let calls : List (Call Nat) :=
      [.start_node 0, .start_node 1, .finish_node, .wrap_last_sibling 2, .wrap_last_sibling 3]
    (TreeBuilder.run calls).finish 9 ≠ (OrderedBuilder.run_any calls).finish := by
  decide

end Fors.Syntax
