import MiddleEnd.Proofs.Normalize.Hooks

/-!
# MiddleEnd.Proofs.Normalize.Rewrite

What the rules make of a statement before it is entered, read off the trees below it: the rewrites
of the arena (`wrapBranches`, `hoistCondition`, `dropNop`) are those of the tree (`wrapAll`,
`Temp.declTree`, leaving the entry out), and they draw the same ids from the supply.
-/

namespace MiddleEnd.Normalize

open MiddleEnd.Tree Walk

/-- What the next rewrite draws from. -/
def supplyOf (scene : Scene Normalizer) : Supply :=
  ⟨scene.program.symbols.size, scene.program.stmts.size, scene.program.exprs.size,
    scene.own.nextTemp, scene.own.counts⟩

/-- A pass that has moved nowhere and was asked for the same. -/
structure SamePlace (a b : Normalizer) : Prop where
  rules : b.rules = a.rules
  context : b.context = a.context

theorem SamePlace.refl (a : Normalizer) : SamePlace a a := ⟨rfl, rfl⟩

theorem SamePlace.trans {a b c : Normalizer} (h : SamePlace a b) (h' : SamePlace b c) :
    SamePlace a c := ⟨h'.rules.trans h.rules, h'.context.trans h.context⟩

/-! ## Wrapping branches -/

theorem wrapAll_cons (r : Rules) (block : Nat) (t : Tree) (ts : List Tree) :
    wrapAll r block (t :: ts) =
      wrapAll r block [t] ++ wrapAll r (block + [t].countP (wrapped r)) ts := by
  by_cases h : wrapped r t = true <;> simp [wrapAll, h]

/-- `scene'` is `scene` with `n` new blocks around branches of a statement, which now holds
`stmts`; among them are the trees `us`. -/
structure Wraps (s : StmtId) (c : Cell) (scene scene' : Scene Normalizer) (stmts : List NodeId)
    (us : List Tree) (n : Nat) : Prop where
  place : SamePlace scene.own scene'.own
  frame : Program.Extends (· = .stmt s) scene.program scene'.program
  cell : scene'.program.cell? (.stmt s) = some { c with stmts }
  backs : scene'.program.backs? (.stmt s) = scene.program.backs? (.stmt s)
  bears : scene'.program.Bears us
  apart : .stmt s ∉ nodesOf us
  supply : supplyOf scene' = ((newBlocks n).run (supplyOf scene)).2

section

variable {scene : Scene Normalizer} {s : StmtId} {head : StmtHead} {line : UInt32} {c : Cell}

/-- A branch that is no block is put into a new one. -/
theorem wrapBranch_eq {place : StmtPlace} {x : StmtId} {y : Stmt}
    (hat : scene.program.stmtAt? place = some x) (hy : scene.program.stmt? x = some y) :
    wrapBranch place scene =
      if y.kind.isBlock then scene
      else
        let (block, program) := scene.program.addStmt (.block [x]) y.line
        match program.setStmtAt? place block with
        | none => { scene with program }
        | some program => { scene with
            program, own.counts.wrappedBranches := scene.own.counts.wrappedBranches + 1 } := by
  rewrite [wrapBranch, hat, Option.bind_some, hy, Option.map_some]
  rfl

/-- `scene'` is `scene` with a branch of a statement, at position `i`, in the new block `new`. -/
structure Boxes (s : StmtId) (c : Cell) (scene scene' : Scene Normalizer) (i : Nat) (x : StmtId)
    (line : UInt32) (new : StmtId) : Prop where
  place : SamePlace scene.own scene'.own
  frame : Program.Extends (· = .stmt s) scene.program scene'.program
  cell : scene'.program.cell? (.stmt s) = some { c with stmts := c.stmts.set i (.stmt new) }
  backs : scene'.program.backs? (.stmt s) = scene.program.backs? (.stmt s)
  block : scene'.program.cell? (.stmt new) = some ⟨.stmt .block line, [], [], [.stmt x]⟩
  fresh : scene.program.has (.stmt new) = false
  supply : supplyOf scene' = ((newBlocks 1).run (supplyOf scene)).2

/-- A branch that is not a block is put into one. -/
theorem boxes_wrapBranch {which : Branch} {x : StmtId} {y : Stmt}
    (hc : scene.program.cell? (.stmt s) = some c) (hl : c.label = .stmt head line)
    (hw : which ∈ head.branches) (hat : scene.program.stmtAt? (.branch s which) = some x)
    (hy : scene.program.stmt? x = some y) (hb : y.kind.isBlock = false)
    (hsize : (wrapBranch (.branch s which) scene).program.stmts.size ≤ UInt32.size) :
    Boxes s c scene (wrapBranch (.branch s which) scene) which.index x y.line
      (.ofIndex scene.program.stmts.size) := by
  rw [wrapBranch_eq hat hy, if_neg (by simp [hb])] at hsize ⊢
  dsimp only at hsize ⊢
  have hlt : scene.program.stmts.size < UInt32.size := by
    refine Nat.lt_of_succ_le (Nat.le_trans (Nat.le_of_eq ?_) hsize)
    split
    · simp [Program.addStmt]
    · next h => rw [(Program.sameSize_setStmtAt? h).stmts]; simp [Program.addStmt]
  -- the new block, which holds the branch and which nothing holds yet
  have hput := Program.put_addStmt hlt (.block [x]) y.line
  have hfresh := Program.has_addStmt hlt
  set p₁ := (scene.program.addStmt (.block [x]) y.line).2 with hp₁
  set new : StmtId := .ofIndex scene.program.stmts.size with hnew
  change Program.Put scene.program p₁ (.stmt new) _ _ at hput
  have hne : NodeId.stmt s ≠ .stmt new := Program.ne_of_cell? hc hfresh
  have hc₁ := (hput.cell_ne hne).trans hc
  obtain ⟨b, hb₁⟩ := Program.backs?_of_cell? hc₁
  obtain ⟨x₁, hat₁⟩ : ∃ x₁, p₁.stmtAt? (.branch s which) = some x₁ := by
    have hsame := (Program.branch_of_cell? hc₁ hl hw).trans (Program.branch_of_cell? hc hl hw).symm
    rw [hat, Option.map_some] at hsame
    obtain ⟨x₁, hx₁, _⟩ := Option.map_eq_some_iff.mp hsame
    exact ⟨x₁, hx₁⟩
  -- the branch becomes the block
  obtain ⟨q, hset, hsame, hput₂⟩ := Program.put_setBranch? hc₁ hb₁ hl hw hat₁ new
  have hset' : p₁.setStmtAt? (.branch s which) (scene.program.addStmt (.block [x]) y.line).1 =
      some q := hset
  rw [hset']
  refine ⟨⟨rfl, rfl⟩, (hput.frame fun h => absurd h (by simp [hfresh])).trans
    (hput₂.frame fun _ => rfl), hput₂.cell_self, ?_, ?_, hfresh, ?_⟩
  · rw [hput₂.backs_self, ← hb₁, hput.backs_ne hne]
  · rw [hput₂.cell_ne hne.symm, hput.cell_self]
    simp [Node.cell, Stmt.new, StmtKind.head, StmtKind.operands, StmtKind.declared?, StmtKind.held]
  · simp only [supplyOf, hsame.symbols, hsame.stmts, hsame.exprs, hp₁, Program.addStmt,
      Array.size_push]
    rfl

/-- A branch is wrapped exactly if it is to be wrapped. -/
theorem wraps_wrapBranch {which : Branch} {t : Tree} {front back : List NodeId}
    (hc : scene.program.cell? (.stmt s) = some c) (hl : c.label = .stmt head line)
    (hw : which ∈ head.branches) (hstmts : c.stmts = front ++ t.id :: back)
    (hindex : which.index = front.length) (ht : scene.program.Bears [t])
    (hs : .stmt s ∉ nodesOf [t]) (hr : scene.own.rules.wrapBranches = true)
    (hsize : (wrapBranch (.branch s which) scene).program.stmts.size ≤ UInt32.size) :
    ∃ t', wrapAll scene.own.rules scene.program.stmts.size [t] = [t'] ∧
      Wraps s c scene (wrapBranch (.branch s which) scene) (front ++ t'.id :: back) [t']
        ([t].countP (wrapped scene.own.rules)) := by
  have hat := Program.branch_of_cell? hc hl hw
  rw [hstmts, hindex, List.getElem?_append_right (Nat.le_refl _), Nat.sub_self,
    List.getElem?_cons_zero, Option.map_eq_some_iff] at hat
  obtain ⟨x, hat, hx⟩ := hat
  have htcell := ht.cell List.mem_cons_self
  rw [← hx] at htcell
  obtain ⟨y, hy, hycell⟩ := Program.cell?_stmt htcell
  have hlabel : t.label = .stmt y.kind.head y.line := congrArg Cell.label hycell
  have hblock : t.label.isBlock = y.kind.isBlock := by
    rw [hlabel]
    cases y.kind <;> rfl
  by_cases hb : y.kind.isBlock = true
  · have hwrapped : wrapped scene.own.rules t = false := by simp [wrapped, hblock, hb]
    refine ⟨t, by simp [wrapAll, hwrapped], ?_⟩
    rw [wrapBranch_eq hat hy, if_pos hb]
    exact ⟨.refl _, .refl _ _, by rw [hc, ← hstmts], rfl, ht, hs, by simp [hwrapped]; rfl⟩
  · have hwrapped : wrapped scene.own.rules t = true := by simp [wrapped, hblock, hb, hr]
    have hboxes := boxes_wrapBranch hc hl hw hat hy (by simpa using hb) hsize
    have hne : NodeId.stmt s ≠ .stmt (.ofIndex scene.program.stmts.size) :=
      Program.ne_of_cell? hc hboxes.fresh
    have ht' := ht.frame hboxes.frame fun n hn he => hs (he ▸ hn)
    refine ⟨blockTree scene.program.stmts.size t.label.line [t], by simp [wrapAll, hwrapped],
      hboxes.place, hboxes.frame, ?_, hboxes.backs, ?_, ?_, ?_⟩
    · rw [hboxes.cell, hstmts, hindex]
      simp [blockTree]
    · refine Program.bears_node.mpr ⟨?_, Program.bears_nil, Program.bears_nil, ht'⟩
      rw [hboxes.block]
      simp [hlabel, Label.line, hx]
    · simp only [blockTree, nodesOf_node, nodesOf_nil, List.nil_append, List.append_nil,
        List.mem_cons, not_or]
      exact ⟨hne, hs⟩
    · simpa only [List.countP_singleton, hwrapped, if_true] using hboxes.supply

/-- A place without a branch is left alone. -/
theorem wrapBranch_of_none {place : StmtPlace} (hat : scene.program.stmtAt? place = none) :
    wrapBranch place scene = scene := by
  simp only [wrapBranch, hat, Option.bind_none]

/-- Branches that come after others are wrapped after them, into the blocks that follow. -/
theorem Wraps.trans {scene₁ scene₂ : Scene Normalizer} {stmts stmts' : List NodeId}
    {us vs : List Tree} {n m : Nat} (h : Wraps s c scene scene₁ stmts us n)
    (h' : Wraps s { c with stmts } scene₁ scene₂ stmts' vs m) :
    Wraps s c scene scene₂ stmts' (us ++ vs) (n + m) where
  place := h.place.trans h'.place
  frame := h.frame.trans h'.frame
  cell := h'.cell
  backs := h'.backs.trans h.backs
  bears := Program.bears_append.mpr
    ⟨h.bears.frame h'.frame fun _ hn he => h.apart (he ▸ hn), h'.bears⟩
  apart := by
    rw [nodesOf_append, List.mem_append, not_or]
    exact ⟨h.apart, h'.apart⟩
  supply := by
    rw [h'.supply, h.supply]
    simp only [run_newBlocks, Nat.add_assoc]

/-- Wrapping branches in a row leaves all nodes. -/
theorem larger_foldl_wrapBranch (places : List StmtPlace) (scene : Scene Normalizer) :
    Larger scene (places.foldl (fun scene place => wrapBranch place scene) scene) := by
  induction places generalizing scene with
  | nil => exact Larger.composes.refl scene
  | cons place places ih =>
    exact Larger.composes.trans (larger_wrapBranch place scene) (ih (wrapBranch place scene))

/-- Places without branches are left alone. -/
theorem foldl_wrapBranch_of_none {places : List StmtPlace}
    (h : ∀ place ∈ places, scene.program.stmtAt? place = none) :
    places.foldl (fun scene place => wrapBranch place scene) scene = scene := by
  induction places with
  | nil => rfl
  | cons place places ih =>
    rw [List.foldl_cons, wrapBranch_of_none (h place List.mem_cons_self),
      ih fun place' hp => h place' (List.mem_cons_of_mem place hp)]

/-- The branches from some position on are wrapped, one after another. -/
theorem wraps_foldl {r : Rules} (hr : r.wrapBranches = true) :
    ∀ {whichs : List Branch} (front : List NodeId) (ts : List Tree) {c : Cell}
      {scene : Scene Normalizer}, scene.own.rules = r → scene.program.cell? (.stmt s) = some c →
      c.label = .stmt head line → (∀ which ∈ whichs, which ∈ head.branches) →
      whichs.map Branch.index = List.range' front.length whichs.length →
      c.stmts = front ++ ts.map Tree.id → ts.length ≤ whichs.length → scene.program.Bears ts →
      .stmt s ∉ nodesOf ts →
      ((whichs.map (StmtPlace.branch s)).foldl (fun scene place => wrapBranch place scene)
        scene).program.stmts.size ≤ UInt32.size →
      Wraps s c scene
        ((whichs.map (StmtPlace.branch s)).foldl (fun scene place => wrapBranch place scene) scene)
        (front ++ (wrapAll r scene.program.stmts.size ts).map Tree.id)
        (wrapAll r scene.program.stmts.size ts) (ts.countP (wrapped r))
  | whichs, front, [], c, scene, _, hc, hl, hw, hindex, hstmts, _, _, _, _ => by
    rw [foldl_wrapBranch_of_none
      (Program.stmtAt?_eq_none_of_branches hc hl hw (by simp [hstmts]) hindex)]
    refine ⟨.refl _, .refl _ _, ?_, rfl, Program.bears_nil, by simp [wrapAll], rfl⟩
    rw [hc, wrapAll, ← hstmts]
  | [], front, t :: ts, c, scene, _, _, _, _, _, _, hlen, _, _, _ => by
    simp at hlen
  | which :: whichs, front, t :: ts, c, scene, hrules, hc, hl, hw, hindex, hstmts, hlen, ht, hs,
      hsize => by
    subst hrules
    rw [List.map_cons, List.length_cons, List.range'_succ, List.cons.injEq] at hindex
    rw [List.map_cons, List.foldl_cons] at hsize ⊢
    rw [nodesOf_cons, List.mem_append, not_or] at hs
    rw [Program.bears_cons] at ht
    obtain ⟨t', ht', hwraps⟩ := wraps_wrapBranch hc hl (hw which List.mem_cons_self) hstmts
      hindex.1 ht.1 hs.1 hr (Nat.le_trans (larger_foldl_wrapBranch _ _).stmts hsize)
    have hsize₁ : (wrapBranch (.branch s which) scene).program.stmts.size =
        scene.program.stmts.size + [t].countP (wrapped scene.own.rules) :=
      congrArg Supply.stmts hwraps.supply
    have ih := wraps_foldl hr (front ++ [t'.id]) ts hwraps.place.rules hwraps.cell
      hl (fun w hw' => hw w (List.mem_cons_of_mem which hw')) (by simpa using hindex.2) (by simp)
      (by simpa using hlen) (ht.2.frame hwraps.frame fun _ hn he => hs.2 (he ▸ hn)) hs.2 hsize
    have htrans := hwraps.trans ih
    have hcount : (t :: ts).countP (wrapped scene.own.rules) =
        [t].countP (wrapped scene.own.rules) + ts.countP (wrapped scene.own.rules) := by
      rw [← List.countP_append, List.singleton_append]
    rw [wrapAll_cons, ht', hcount, ← hsize₁]
    simpa using htrans

/-- A statement has no branches if its label says so. -/
theorem branches_eq_nil {head : StmtHead} {line : UInt32} :
    head.branches = [] ↔ (Label.stmt head line).hasBranches = false := by
  cases head <;> simp [Label.hasBranches, StmtHead.branches]

/-- The branches of a statement that has any are wrapped one after another. -/
theorem wrapBranches_eq_foldl (hc : scene.program.cell? (.stmt s) = some c)
    (hl : c.label = .stmt head line) (hb : head.branches ≠ []) :
    wrapBranches s scene = (head.branches.map (StmtPlace.branch s)).foldl
      (fun scene place => wrapBranch place scene) scene := by
  have hblock : head ≠ .block := by
    rintro rfl
    exact hb rfl
  unfold wrapBranches
  rw [Program.children_of_cell? hc hl, if_neg hblock, if_neg hb]

/-- A statement without branches is left alone. -/
theorem wrapBranches_of_none (hc : scene.program.cell? (.stmt s) = some c)
    (hl : c.label.hasBranches = false) : wrapBranches s scene = scene := by
  obtain ⟨x, _, rfl⟩ := Program.cell?_stmt hc
  have hchildren := Program.children_of_cell? hc rfl
  rw [if_pos (branches_eq_nil.mpr hl)] at hchildren
  unfold wrapBranches
  rw [hchildren]
  by_cases hblock : x.kind.head = .block <;> simp [hblock]

/-- The branches of a statement are wrapped if the rule is on. -/
theorem wraps_wrapBranches (scene : Scene Normalizer) {n : NodeId} {l : Label}
    {es ss ts : List Tree} (hc : scene.program.cell? (.stmt s) = some (Tree.node n l es ss ts).cell)
    (hl : l = .stmt head line) (ht : scene.program.Bears ts) (hs : .stmt s ∉ nodesOf ts)
    (hsize : (applyIf scene.own.rules.wrapBranches (wrapBranches s) scene).program.stmts.size ≤
      UInt32.size) :
    let us := if l.hasBranches then wrapAll scene.own.rules scene.program.stmts.size ts else ts
    Wraps s (Tree.node n l es ss ts).cell scene
      (applyIf scene.own.rules.wrapBranches (wrapBranches s) scene) (us.map Tree.id) us
      (blocksFor scene.own.rules (.node n l es ss ts)) := by
  subst hl
  have hsame : Wraps s (Tree.node n (.stmt head line) es ss ts).cell scene scene (ts.map Tree.id)
      ts 0 := ⟨.refl _, .refl _ _, hc, rfl, ht, hs, rfl⟩
  by_cases hr : scene.own.rules.wrapBranches = true
  · rw [hr, applyIf_true] at hsize ⊢
    by_cases hb : head.branches = []
    · have hnot : (Label.stmt head line).hasBranches = false := branches_eq_nil.mp hb
      rw [wrapBranches_of_none hc hnot, blocksFor]
      simpa [hnot] using hsame
    · have hhas : (Label.stmt head line).hasBranches = true := by
        by_contra h
        exact hb (branches_eq_nil.mpr (by simpa using h))
      rw [wrapBranches_eq_foldl hc rfl hb] at hsize ⊢
      have hlen := Program.length_branches hc rfl hb
      have hwraps := wraps_foldl hr [] ts rfl hc rfl
        (fun _ hw => hw) head.index_branches rfl (by simpa using hlen) ht hs hsize
      simpa [hhas, blocksFor] using hwraps
  · have hnone : ∀ t ∈ ts, wrapped scene.own.rules t = false := by simp [wrapped, hr]
    have hzero : blocksFor scene.own.rules (.node n (.stmt head line) es ss ts) = 0 := by
      unfold blocksFor
      split
      · rw [List.countP_eq_zero]
        exact fun t ht => by simp [hnone t ht]
      · rfl
    have hoff : scene.own.rules.wrapBranches = false := by simpa using hr
    intro us
    have hus : us = ts := by simp only [us, wrapAll_of_not_wrapped hnone, ite_self]
    have hself : applyIf scene.own.rules.wrapBranches (wrapBranches s) scene = scene := by
      rw [hoff]
      rfl
    rw [hus, hzero, hself]
    exact hsame

end

/-! ## Calls under parentheses -/

/-- The nodes that the search for a call goes through. -/
def parenChain : Tree → List NodeId
  | .node n (.expr .paren _) [inner] _ _ => n :: parenChain inner
  | t => [t.id]

section

variable {p : Program} {t : Tree}

/-- The parenthesis of a program encloses one expression; any other node ends the search. -/
theorem paren_cases (ht : p.Bears [t]) :
    (∃ n line inner, t = .node n (.expr .paren line) [inner] [] []) ∨
      (t.label.isParen = false ∧ underParens t = t ∧ parenChain t = [t.id]) := by
  obtain ⟨n, l, es, ss, ts⟩ := t
  by_cases hl : l.isParen = true
  · obtain ⟨line, rfl⟩ : ∃ line, l = .expr .paren line := by
      unfold Label.isParen at hl
      split at hl
      · exact ⟨_, rfl⟩
      · cases hl
    left
    have hcell := ht.cell List.mem_cons_self
    cases n with
    | expr e =>
      obtain ⟨x, hx, hxcell⟩ := Program.cell?_expr hcell
      obtain ⟨k, line', _, _⟩ := x
      cases k <;> simp [Node.cell, ExprKind.head] at hxcell
      next inner =>
        obtain ⟨_, hes, rfl, rfl⟩ := hxcell
        obtain ⟨e', rfl, _⟩ := List.map_eq_singleton_iff.mp hes
        exact ⟨_, _, e', rfl⟩
    | module m => obtain ⟨x, hx, hxcell⟩ := Program.cell?_module hcell; simp [Node.cell] at hxcell
    | symbol m => obtain ⟨x, hx, hxcell⟩ := Program.cell?_symbol hcell; simp [Node.cell] at hxcell
    | stmt m => obtain ⟨x, hx, hxcell⟩ := Program.cell?_stmt hcell; simp [Node.cell] at hxcell
  · right
    have hl : l.isParen = false := by simpa using hl
    refine ⟨hl, underParens_of_not_paren hl, ?_⟩
    unfold parenChain
    split
    · next heq =>
      cases heq
      exact absurd hl (by simp [Label.isParen])
    · rfl

theorem parenChain_sublist (t : Tree) : (parenChain t).Sublist (nodesOf [t]) := by
  induction t using Tree.induction with
  | step n l es ss ts he hs ht =>
    unfold parenChain
    split
    · next heq =>
      cases heq
      simp only [nodesOf_node, nodesOf_nil, List.append_nil]
      refine List.Sublist.cons_cons _ ((he _ List.mem_cons_self).trans ?_)
      rw [List.append_assoc]
      exact List.sublist_append_left _ _
    · simp

/-- What a parenthesis encloses is an expression. -/
theorem exists_inner {n : NodeId} {l : Label} {inner : Tree} {ss ts : List Tree}
    (ht : p.Bears [.node n l [inner] ss ts]) : ∃ e, inner.id = .expr e := by
  have hcell := ht.cell List.mem_cons_self
  obtain ⟨x, _, hxcell⟩ := Option.map_eq_some_iff.mp hcell
  have hexprs : [inner.id] = x.cell.exprs := (congrArg Cell.exprs hxcell).symm
  cases x <;> simp only [Node.cell, List.cons_ne_nil] at hexprs
  all_goals
    obtain ⟨e, _, he⟩ := List.map_eq_singleton_iff.mp hexprs.symm
    exact ⟨e, he.symm⟩

/-- The search for a call goes through expressions only. -/
theorem parenChain_expr (t : Tree) : ∀ {e : ExprId}, p.Bears [t] → t.id = .expr e →
    ∀ n ∈ parenChain t, ∃ e, n = .expr e := by
  induction t using Tree.induction with
  | step n l es ss ts he hs ht =>
    intro e hbears hid m hm
    rcases paren_cases hbears with ⟨n, line, inner, heq⟩ | ⟨_, _, hchain⟩
    · cases heq
      rcases List.mem_cons.mp hm with rfl | hm
      · exact ⟨e, hid⟩
      · obtain ⟨e', he'⟩ := exists_inner hbears
        exact he inner List.mem_cons_self (Program.bears_node.mp hbears).2.1 he' m hm
    · rw [hchain, List.mem_singleton] at hm
      exact ⟨e, hm.trans hid⟩

/-- A path of parentheses without repetition is no longer than the arena. -/
theorem length_parenChain {e : ExprId} (ht : p.Bears [t]) (hid : t.id = .expr e)
    (hnodup : (nodesOf [t]).Nodup) : (parenChain t).length ≤ p.exprs.size := by
  have hsub : parenChain t ⊆ (List.range p.exprs.size).map fun i => NodeId.expr (.ofIndex i) := by
    intro n hn
    obtain ⟨e, rfl⟩ := parenChain_expr t ht hid n hn
    have hhas := ht.has ((parenChain_sublist t).subset hn)
    have hlt : e.index < p.exprs.size := by simpa [Program.has, Program.expr?] using hhas
    have hself : ExprId.ofIndex e.index = e :=
      ExprId.index_inj.mp (ExprId.index_ofIndex e.val.toNat_lt_size)
    exact List.mem_map.mpr ⟨e.index, List.mem_range.mpr hlt, by rw [hself]⟩
  have hle := (List.subperm_of_subset (hnodup.sublist (parenChain_sublist t)) hsub).length_le
  simpa using hle

/-- The search for a call ends where the parentheses of the tree end. -/
theorem underParens?_eq (t : Tree) : ∀ {e : ExprId} (steps : Nat), p.Bears [t] → t.id = .expr e →
    (parenChain t).length ≤ steps →
    ∃ k line, underParens? p steps e = some k ∧ (underParens t).label = .expr k.head line := by
  induction t using Tree.induction with
  | step n l es ss ts he hs ht =>
    intro e steps hbears hid hlen
    obtain rfl : n = .expr e := hid
    obtain ⟨x, hx, hxcell⟩ := Program.cell?_expr (hbears.cell List.mem_cons_self)
    rcases paren_cases hbears with ⟨n, line, inner, heq⟩ | ⟨hl, hunder, hchain⟩
    · cases heq
      obtain ⟨e', he'⟩ := exists_inner hbears
      have hkind : x.kind = .paren e' := by
        have hhead : ExprHead.paren = x.kind.head :=
          (Label.expr.inj (congrArg Cell.label hxcell)).1
        have hexprs : [inner.id] = x.kind.operands.map .expr := congrArg Cell.exprs hxcell
        obtain ⟨k, _, _, _⟩ := x
        cases k with
        | paren e'' => simpa [he', ExprKind.operands, eq_comm] using hexprs
        | _ => cases hhead
      cases steps with
      | zero => simp [parenChain] at hlen
      | succ steps =>
        obtain ⟨k, line', hk, hlabel⟩ := he inner List.mem_cons_self
          steps (Program.bears_node.mp hbears).2.1 he' (by simpa [parenChain] using hlen)
        exact ⟨k, line', by simp only [underParens?, hx, hkind, hk],
          by simpa [underParens] using hlabel⟩
    · have hkind : ∀ e', x.kind ≠ .paren e' := by
        intro e' hk
        have hlabel : l = .expr x.kind.head x.line := congrArg Cell.label hxcell
        rw [hk] at hlabel
        simp [hlabel, Label.isParen, ExprKind.head] at hl
      cases steps with
      | zero => simp [hchain] at hlen
      | succ steps =>
        refine ⟨x.kind, x.line, ?_, by rw [hunder]; exact congrArg Cell.label hxcell⟩
        rw [underParens?, hx]
        dsimp only
        split
        · next hk => exact (hkind _ hk).elim
        · rfl

/-- The search finds a call exactly if there is one in the tree. -/
theorem isCall_eq {e : ExprId} (ht : p.Bears [t]) (hid : t.id = .expr e)
    (hnodup : (nodesOf [t]).Nodup) : isCall p e = (underParens t).label.isCall := by
  obtain ⟨k, line, hk, hlabel⟩ := underParens?_eq t _ ht hid (length_parenChain ht hid hnodup)
  rw [isCall, hk, hlabel]
  cases k <;> rfl

end

/-! ## Hoisting a condition -/

/-- `q` is `p` with the condition of an `if` in a temporary: `c` was the cell of the `if`, `ch`
that of the owner of the list that it stands in. -/
structure Hoists (p q : Program) (s : StmtId) (c : Cell) (list : StmtList) (ch : Cell)
    (front back : List StmtId) (cond : NodeId) (line : UInt32) (temp : Temp) : Prop where
  frame : Program.Extends (fun n => n = .stmt s ∨ n = list.node) p q
  cell : q.cell? (.stmt s) = some { c with exprs := [.expr temp.ref] }
  backs : q.backs? (.stmt s) = p.backs? (.stmt s)
  listCell : q.cell? list.node =
    some { ch with stmts := (front ++ temp.decl :: s :: back).map .stmt }
  listBacks : q.backs? list.node = p.backs? list.node
  declCell : q.cell? (.stmt temp.decl) =
    some ⟨.stmt .decl line, [cond], [.symbol temp.symbol], []⟩
  var : q.Bears [temp.varTree line]
  ref : q.Bears [temp.refTree line]
  freshVar : p.has (.symbol temp.symbol) = false
  freshDecl : p.has (.stmt temp.decl) = false
  freshRef : p.has (.expr temp.ref) = false

/-- A condition is in a temporary after five changes to the program: the symbol and its declaration
are made, the declaration is listed, the reference is made, and it takes the condition's place. -/
theorem Hoists.of_puts {p p₁ p₂ p₃ p₄ q : Program} {s : StmtId} {c ch : Cell} {b bh : Backs}
    {list : StmtList} {front back : List StmtId} {cond : NodeId} {line : UInt32} {temp : Temp}
    (hc : p.cell? (.stmt s) = some c) (hb : p.backs? (.stmt s) = some b)
    (hch : p.cell? list.node = some ch) (hbh : p.backs? list.node = some bh)
    (hne : list.node ≠ .stmt s) (hvar : p.has (.symbol temp.symbol) = false)
    (hdecl : p.has (.stmt temp.decl) = false) (href : p.has (.expr temp.ref) = false)
    (h₁ : Program.Put p p₁ (.symbol temp.symbol)
      ⟨.symbol temp.name line false (.var none), [], [], []⟩ (.scope none))
    (h₂ : Program.Put p₁ p₂ (.stmt temp.decl)
      ⟨.stmt .decl line, [cond], [.symbol temp.symbol], []⟩ (.parents none none))
    (h₃ : Program.Put p₂ p₃ list.node
      { ch with stmts := (front ++ temp.decl :: s :: back).map .stmt } bh)
    (h₄ : Program.Put p₃ p₄ (.expr temp.ref) ⟨.expr (.symRef temp.symbol) line, [], [], []⟩
      (.parents none none))
    (h₅ : Program.Put p₄ q (.stmt s) { c with exprs := [.expr temp.ref] } b) :
    Hoists p q s c list ch front back cond line temp := by
  have hds := Program.ne_of_cell? hc hdecl
  have hdl := Program.ne_of_cell? hch hdecl
  have hvl := Program.ne_of_cell? hch hvar
  have hrl := Program.ne_of_cell? hch href
  refine ⟨?_, h₅.cell_self, ?_, ?_, ?_, ?_, ?_, ?_, hvar, hdecl, href⟩
  · refine ((((h₁.frame ?_).trans (h₂.frame ?_)).trans (h₃.frame ?_)).trans (h₄.frame ?_)).trans
      (h₅.frame fun _ => .inl rfl)
    · exact fun h => absurd h (by simp [hvar])
    · exact fun h => absurd h (by simp [h₁.has, hdecl])
    · exact fun _ => .inr rfl
    · intro h
      simp [h₃.has, h₂.has, h₁.has, href, hrl.symm] at h
  · rw [h₅.backs_self, hb]
  · rw [h₅.cell_ne hne, h₄.cell_ne hrl, h₃.cell_self]
  · rw [h₅.backs_ne hne, h₄.backs_ne hrl, h₃.backs_self, hbh]
  · rw [h₅.cell_ne hds.symm, h₄.cell_ne (by simp), h₃.cell_ne hdl.symm, h₂.cell_self]
  · refine Program.bears_node.mpr ⟨?_, by simp, by simp, by simp⟩
    rw [h₅.cell_ne (by simp), h₄.cell_ne (by simp), h₃.cell_ne hvl.symm, h₂.cell_ne (by simp),
      h₁.cell_self]
    rfl
  · refine Program.bears_node.mpr ⟨?_, by simp, by simp, by simp⟩
    rw [h₅.cell_ne (by simp), h₄.cell_self]
    rfl

/-- What stands below the `if` then, the declaration besides. -/
theorem Hoists.bears {p q : Program} {s : StmtId} {c ch : Cell} {list : StmtList}
    {front back : List StmtId} {cond : Tree} {line : UInt32} {temp : Temp} {ss ts : List Tree}
    (h : Hoists p q s c list ch front back cond.id line temp) (hp : p.Bears ([cond] ++ ss ++ ts))
    (hne : ∀ n ∈ nodesOf ([temp.refTree line] ++ ss ++ ts ++ [temp.declTree line [cond]]),
      ¬ (n = .stmt s ∨ n = list.node)) :
    q.Bears ([temp.refTree line] ++ ss ++ ts ++ [temp.declTree line [cond]]) := by
  simp only [nodesOf_append, List.mem_append, or_imp, forall_and] at hne
  obtain ⟨⟨⟨_, hss⟩, hts⟩, hdecl⟩ := hne
  simp only [Program.bears_append] at hp ⊢
  have hcond := hp.1.1.frame h.frame fun n hn => hdecl n (by simp [Temp.declTree, hn])
  exact ⟨⟨⟨h.ref, hp.1.2.frame h.frame hss⟩, hp.2.frame h.frame hts⟩,
    Program.bears_node.mpr ⟨h.declCell, hcond, h.var, Program.bears_nil⟩⟩

/-- To hoist a condition makes these changes. -/
theorem hoists_hoistInto {p : Program} {s : StmtId} {c ch : Cell} {list : StmtList}
    {front back : List StmtId} {cond : ExprId} {line : UInt32} {name : String} {x : NodeId}
    (hc : p.cell? (.stmt s) = some c) (hexprs : c.exprs = [x])
    (hch : p.cell? list.node = some ch) (hfits : list.Fits ch.label)
    (hlist : p.stmtsIn list = front ++ s :: back) (hs : s ∉ front) (hne : list.node ≠ .stmt s)
    (hsize : (hoistInto p s list cond line name).Addressable) :
    Hoists p (hoistInto p s list cond line name) s c list ch front back (.expr cond) line
      ⟨.ofIndex p.symbols.size, .ofIndex p.stmts.size, .ofIndex p.exprs.size, name⟩ := by
  obtain ⟨_, hsymbols, hstmts, hsizes⟩ := size_hoistInto p s list cond line name
  have hlt₁ : p.symbols.size < UInt32.size := by have := hsize.symbols; omega
  have hlt₂ : p.stmts.size < UInt32.size := by have := hsize.stmts; omega
  have hlt₄ : p.exprs.size < UInt32.size := by have := hsize.exprs; omega
  obtain ⟨b, hb⟩ := Program.backs?_of_cell? hc
  obtain ⟨bh, hbh⟩ := Program.backs?_of_cell? hch
  have hvar := Program.has_addSymbol hlt₁
  have hdecl := Program.has_addStmt hlt₂
  have href := Program.has_addExpr hlt₄
  have hds := Program.ne_of_cell? hc hdecl
  have hdl := Program.ne_of_cell? hch hdecl
  have hvl := Program.ne_of_cell? hch hvar
  clear hsize
  -- the temporary and its declaration, which nothing holds yet
  have h₁ := Program.put_addSymbol hlt₁ name (.var none) line
  have h₂ := Program.put_addStmt (p := (p.addSymbol name (.var none) line).2) hlt₂
    (.decl (p.addSymbol name (.var none) line).1 (some cond)) line
  -- the declaration goes into the list
  have hch₂ := (h₂.cell_ne hdl).trans ((h₁.cell_ne hvl).trans hch)
  have hbh₂ := (h₂.backs_ne hdl).trans ((h₁.backs_ne hvl).trans hbh)
  have hlist₂ := map_stmt_inj.mp ((Program.stmts_of_cell? _ hch₂ hfits).symm.trans
    ((Program.stmts_of_cell? _ hch hfits).trans (by rw [hlist])))
  obtain ⟨p₃, hinsert, hsame₃, h₃⟩ := Program.put_insertBefore?
    (d := ((p.addSymbol name (.var none) line).2.addStmt
      (.decl (p.addSymbol name (.var none) line).1 (some cond)) line).1) hch₂ hbh₂ hlist₂ hs
  -- the reference takes the place of the condition
  have hsize₃ : p₃.exprs.size = p.exprs.size := hsame₃.exprs
  have h₄ := Program.put_addExpr (p := p₃) (hsize₃ ▸ hlt₄)
    (.symRef (p.addSymbol name (.var none) line).1) line
  have hr : (p₃.addExpr (.symRef (p.addSymbol name (.var none) line).1) line).1 =
      .ofIndex p.exprs.size := by rw [Program.addExpr, hsize₃]
  rw [hr] at h₄
  have hc₃ := (h₃.cell_ne hne.symm).trans ((h₂.cell_ne hds).trans
    ((h₁.cell_ne (by simp)).trans hc))
  have hb₃ := (h₃.backs_ne hne.symm).trans ((h₂.backs_ne hds).trans
    ((h₁.backs_ne (by simp)).trans hb))
  obtain ⟨q, hset, _, h₅⟩ := @Program.put_setExprAt? _ _ _ (.stmt s) 0
    ((h₄.cell_ne (by simp [ExprOwner.node])).trans hc₃)
    ((h₄.backs_ne (by simp [ExprOwner.node])).trans hb₃) (by simp [hexprs])
    (.ofIndex p.exprs.size)
  have hq : hoistInto p s list cond line name = q := by
    unfold hoistInto
    dsimp only
    rw [hinsert, Option.getD_some, hr, hset, Option.getD_some]
  rw [hq]
  rw [hexprs] at h₅
  exact .of_puts hc hb hch hbh hne hvar hdecl href h₁ h₂ h₃ h₄ h₅

/-- Whether a condition is to be hoisted is read off the tree. -/
theorem hoistable?_eq {p : Program} {s : StmtId} {c : Cell} (list : StmtList) {head : StmtHead}
    {line : UInt32} (es : List Tree) (hc : p.cell? (.stmt s) = some c)
    (hl : c.label = .stmt head line) (hes : c.exprs = es.map Tree.id) (hbears : p.Bears es)
    (hnodup : (nodesOf es).Nodup) (hs : s ∈ p.stmtsIn list) :
    if (c.label.isIf && es.any fun e => (underParens e).label.isCall) = true then
      ∃ cond e, es = [cond] ∧ cond.id = .expr e ∧ hoistable? p s list = some (e, line)
    else hoistable? p s list = none := by
  obtain ⟨x, hx, rfl⟩ := Program.cell?_stmt hc
  obtain ⟨k, line', _, _⟩ := x
  simp only [Node.cell, Label.stmt.injEq] at hl hes ⊢
  obtain ⟨rfl, rfl⟩ := hl
  have hlist := Program.stmtList?_of_mem hs
  cases k with
  | ifElse e t f =>
    obtain ⟨cond, hcond, hid⟩ := List.map_eq_singleton_iff.mp hes.symm
    obtain rfl := hcond
    have hcall := isCall_eq hbears hid hnodup
    simp only [StmtKind.head, Label.isIf, Bool.true_and, List.any_cons, List.any_nil,
      Bool.or_false, hoistable?, hx, Option.bind_eq_bind, Option.bind_some, hlist,
      Option.getD_some, hs, hcall, decide_true, Bool.and_true]
    split
    · exact ⟨cond, e, rfl, hid, rfl⟩
    · rfl
  | _ => simp [StmtKind.head, Label.isIf, hoistable?, hx]

theorem hoistable?_of_not_if {p : Program} {s : StmtId} {c : Cell} {list : StmtList}
    (hc : p.cell? (.stmt s) = some c) (hl : c.label.isIf = false) : hoistable? p s list = none := by
  obtain ⟨x, hx, rfl⟩ := Program.cell?_stmt hc
  obtain ⟨k, _, _, _⟩ := x
  cases k with
  | ifElse => cases hl
  | _ => simp [hoistable?, hx]

/-- Where no condition may move none does. -/
theorem hoistCondition_of_none {s : StmtId} {place : StmtPlace} {scene : Scene Normalizer}
    (h : ∀ list, place.list? = some list → hoistable? scene.program s list = none) :
    hoistCondition s place scene = scene := by
  rw [hoistCondition_eq]
  cases hlist : place.list? with
  | none => rfl
  | some list => rw [Option.bind_some, h list hlist]; rfl

/-- A condition that may move does, into a temporary with the next number. -/
theorem hoistCondition_of_some {s : StmtId} {list : StmtList} {i : Nat} {cond : ExprId}
    {line : UInt32} {scene : Scene Normalizer}
    (h : hoistable? scene.program s list = some (cond, line)) :
    hoistCondition s (.entry list i) scene = { scene with
      program := hoistInto scene.program s list cond line ("_t" ++ scene.own.nextTemp.repr)
      own.counts.hoistedTemps := scene.own.counts.hoistedTemps + 1
      own.nextTemp := scene.own.nextTemp + 1 } := by
  rw [hoistCondition_eq, StmtPlace.list?, Option.bind_some, h]
  rfl

/-- A condition is hoisted from a list, or nothing is done. -/
theorem hoistCondition_cases (s : StmtId) (place : StmtPlace) (scene : Scene Normalizer) :
    hoistCondition s place scene = scene ∨ ∃ list cond line, place.list? = some list ∧
      hoistable? scene.program s list = some (cond, line) ∧
      hoistCondition s place scene = { scene with
        program := hoistInto scene.program s list cond line ("_t" ++ scene.own.nextTemp.repr)
        own.counts.hoistedTemps := scene.own.counts.hoistedTemps + 1
        own.nextTemp := scene.own.nextTemp + 1 } := by
  cases place with
  | branch owner which => exact .inl (hoistCondition_of_none fun list hlist => by cases hlist)
  | entry list i =>
    cases hcan : hoistable? scene.program s list with
    | none =>
      exact .inl (hoistCondition_of_none fun list' hlist => by cases hlist; exact hcan)
    | some found => exact .inr ⟨list, found.1, found.2, rfl, hcan, hoistCondition_of_some hcan⟩

/-! ## A statement when it is entered -/

/-- The pass has recorded what encloses the statement. -/
def marked (s : StmtId) (scene : Scene Normalizer) : Scene Normalizer :=
  { scene with program := scene.program.updateStmt s fun x => { x with
      parentStmt := scene.own.context.enclosingStmt
      parentSymbol := scene.own.context.enclosingSymbol } }

/-- The rules are applied to a statement once it was marked: it is dropped, wrapped and relieved of
its condition, in this order. -/
theorem rewriteStmt_eq (s : StmtId) (place : StmtPlace) (isNop : Bool) (scene : Scene Normalizer) :
    rewriteStmt s place isNop scene =
      applyIf scene.own.rules.hoistCallConditions (hoistCondition s place)
        (applyIf scene.own.rules.wrapBranches (wrapBranches s)
          (applyIf (scene.own.rules.dropNops && isNop) (dropNop s place) (marked s scene))) := rfl

/-- The trees below a statement when it is entered. -/
def underEntered (r : Rules) (block : Nat) (t : Tree) : List Tree :=
  (entered r block none t).exprs ++ (entered r block none t).symbols ++
    (entered r block none t).stmts

/-- `scene'` is `scene` with the back-references of a statement recorded and its branches
wrapped. -/
structure Opened (scene scene' : Scene Normalizer) (s : StmtId) (t : Tree) : Prop where
  place : SamePlace scene.own scene'.own
  frame : Program.Extends (· = .stmt s) scene.program scene'.program
  cell : scene'.program.cell? (.stmt s) =
    some (entered scene.own.rules scene.program.stmts.size none t).cell
  backs : scene'.program.backs? (.stmt s) =
    some (.parents scene.own.context.enclosingStmt scene.own.context.enclosingSymbol)
  bears : scene'.program.Bears (underEntered scene.own.rules scene.program.stmts.size t)
  supply : supplyOf scene' =
    ((newBlocks (blocksFor scene.own.rules t)).run (supplyOf scene)).2

section

variable {scene : Scene Normalizer} {s : StmtId} {l : Label} {es ss ts : List Tree}

/-- Wrapping the branches of a statement that was marked makes of its tree what is entered. -/
theorem opened_of_wrap (ht : scene.program.Bears [.node (.stmt s) l es ss ts])
    (hnodup : (nodesOf [.node (.stmt s) l es ss ts]).Nodup)
    (hsize : (applyIf scene.own.rules.wrapBranches (wrapBranches s)
      (marked s scene)).program.stmts.size ≤ UInt32.size) :
    Opened scene (applyIf scene.own.rules.wrapBranches (wrapBranches s) (marked s scene)) s
      (.node (.stmt s) l es ss ts) := by
  have hc := ht.cell List.mem_cons_self
  obtain ⟨head, line, hl⟩ := Program.exists_stmt_label hc
  obtain ⟨_, hes, hss, hts⟩ := Program.bears_node.mp ht
  have hnot : ∀ n ∈ nodesOf (es ++ ss ++ ts), n ≠ .stmt s := by
    simp only [nodesOf_node, nodesOf_nil, List.append_nil, List.nodup_cons] at hnodup
    rintro n hn rfl
    exact hnodup.1 (by simpa [nodesOf_append] using hn)
  simp only [nodesOf_append, List.mem_append, or_imp, forall_and] at hnot
  -- recording the back-references leaves all cells
  have hput : Program.Put scene.program (marked s scene).program (.stmt s) _ _ :=
    Program.put_stmtParents hc _ _
  have hmark : Program.Extends (· = .stmt s) scene.program (marked s scene).program :=
    hput.frame fun _ => rfl
  have hsame : supplyOf (marked s scene) = supplyOf scene := by
    have h : Program.SameSize scene.program (marked s scene).program :=
      Program.sameSize_updateStmt _ _
    rw [supplyOf, h.symbols, h.stmts, h.exprs]
    rfl
  have hstmts : (marked s scene).program.stmts.size = scene.program.stmts.size :=
    congrArg Supply.stmts hsame
  have hwraps := wraps_wrapBranches (marked s scene) hput.cell_self hl
    (hts.frame hmark hnot.2) (fun h => hnot.2 _ h rfl) hsize
  rw [hstmts] at hwraps
  have hframe := hmark.trans hwraps.frame
  refine ⟨⟨hwraps.place.rules, hwraps.place.context⟩, hframe, hwraps.cell, ?_, ?_, ?_⟩
  · exact hwraps.backs.trans hput.backs_self
  · exact Program.bears_append.mpr ⟨Program.bears_append.mpr
      ⟨hes.frame hframe hnot.1.1, hss.frame hframe hnot.1.2⟩, hwraps.bears⟩
  · have hsupply := hwraps.supply
    rw [hsame] at hsupply
    exact hsupply

/-- The list that a statement stands in, seen from a program. -/
structure InList (p : Program) (list : StmtList) (c : Cell) (front : List StmtId) (s : StmtId)
    (back : List StmtId) : Prop where
  cell : p.cell? list.node = some c
  fits : list.Fits c.label
  entries : p.stmtsIn list = front ++ s :: back
  before : s ∉ front
  after : s ∉ back
  apart : list.node ≠ .stmt s

/-- A statement stands in its list as long as the owner of the list stays. -/
theorem InList.frame {p q : Program} {list : StmtList} {c : Cell} {front back : List StmtId}
    {s : StmtId} (h : InList p list c front s back)
    (hcell : q.cell? list.node = p.cell? list.node) :
    InList q list c front s back := by
  have hc := hcell.trans h.cell
  refine ⟨hc, h.fits, ?_, h.before, h.after, h.apart⟩
  rw [← h.entries]
  exact map_stmt_inj.mp
    ((Program.stmts_of_cell? _ hc h.fits).symm.trans (Program.stmts_of_cell? _ h.cell h.fits))

/-- A branch is never dropped. -/
theorem dropNop_of_branch {place : StmtPlace} (h : place.list? = none) (s : StmtId)
    (scene : Scene Normalizer) : dropNop s place scene = scene := by
  rw [dropNop, h]

/-- What precedes hoisting: a statement that stays in its list is opened. -/
theorem opened_before_hoist {place : StmtPlace} {isNop : Bool}
    (ht : scene.program.Bears [.node (.stmt s) l es ss ts])
    (hnodup : (nodesOf [.node (.stmt s) l es ss ts]).Nodup)
    (hdrop : (scene.own.rules.dropNops && isNop) = true → place.list? = none)
    (haddr : (rewriteStmt s place isNop scene).program.Addressable) :
    ∃ scene₂, Opened scene scene₂ s (.node (.stmt s) l es ss ts) ∧
      rewriteStmt s place isNop scene =
        applyIf scene.own.rules.hoistCallConditions (hoistCondition s place) scene₂ := by
  have hself : applyIf (scene.own.rules.dropNops && isNop) (dropNop s place) (marked s scene) =
      marked s scene := by
    cases hb : scene.own.rules.dropNops && isNop with
    | false => rfl
    | true => exact dropNop_of_branch (hdrop hb) s _
  rw [rewriteStmt_eq, hself] at haddr ⊢
  have hlarger := larger_applyIf (larger_hoistCondition s place)
    scene.own.rules.hoistCallConditions
    (applyIf scene.own.rules.wrapBranches (wrapBranches s) (marked s scene))
  exact ⟨_, opened_of_wrap ht hnodup (Nat.le_trans hlarger.stmts haddr.stmts), rfl⟩

theorem entered_exprs (r : Rules) (block : Nat) (t : Tree) :
    (entered r block none t).exprs = t.exprs := by
  cases t
  rfl

/-- Whether the condition of an opened statement is hoisted is read off the tree it had. -/
theorem Opened.hoistable? {scene₂ : Scene Normalizer} {t : Tree} {list : StmtList}
    {ch : Cell} {front back : List StmtId} (h : Opened scene scene₂ s t)
    (hnodup : (nodesOf t.exprs).Nodup) (hin : InList scene.program list ch front s back) :
    if (t.label.isIf && t.exprs.any fun e => (underParens e).label.isCall) = true then
      ∃ cond e, t.exprs = [cond] ∧ cond.id = .expr e ∧
        hoistable? scene₂.program s list = some (e, t.label.line)
    else Normalize.hoistable? scene₂.program s list = none := by
  obtain ⟨head, line, hl⟩ := Program.exists_stmt_label h.cell
  have hin₂ := hin.frame (h.frame.cell (Program.has_of_cell? hin.cell) hin.apart)
  have hbears : scene₂.program.Bears t.exprs :=
    entered_exprs _ _ t ▸ (Program.bears_append.mp (Program.bears_append.mp h.bears).1).1
  have heq := hoistable?_eq list t.exprs h.cell hl (by rw [Tree.cell, entered_exprs]) hbears
    hnodup (by rw [hin₂.entries]; simp)
  have hlabel : (entered scene.own.rules scene.program.stmts.size none t).cell.label = t.label := by
    cases t
    rfl
  rw [hlabel] at heq hl
  rwa [show line = t.label.line by rw [hl]; rfl] at heq

/-- A statement that neither leaves its list nor has its condition hoisted is opened. -/
theorem opened_of_plain {place : StmtPlace} {isNop : Bool}
    (ht : scene.program.Bears [.node (.stmt s) l es ss ts])
    (hnodup : (nodesOf [.node (.stmt s) l es ss ts]).Nodup)
    (hdrop : (scene.own.rules.dropNops && isNop) = true → place.list? = none)
    (hin : ∀ list, place.list? = some list → ∃ ch front back,
      InList scene.program list ch front s back ∧
        hoisted scene.own.rules (.node (.stmt s) l es ss ts) = false)
    (haddr : (rewriteStmt s place isNop scene).program.Addressable) :
    Opened scene (rewriteStmt s place isNop scene) s (.node (.stmt s) l es ss ts) := by
  obtain ⟨scene₂, hopened, heq⟩ := opened_before_hoist ht hnodup hdrop haddr
  have hself : applyIf scene.own.rules.hoistCallConditions (hoistCondition s place) scene₂ =
      scene₂ := by
    cases hr : scene.own.rules.hoistCallConditions with
    | false => rfl
    | true =>
      refine hoistCondition_of_none fun list hlist => ?_
      obtain ⟨ch, front, back, hlist, hnot⟩ := hin list hlist
      have hcall := hopened.hoistable? (nodup_exprs hnodup) hlist
      rw [hoisted, hr, Bool.true_and] at hnot
      rwa [if_neg (by rw [hnot]; simp)] at hcall
  rw [heq, hself]
  exact hopened

/-- An `if` in a list whose condition is a call is opened, and then the condition is hoisted. -/
theorem opened_of_hoist {list : StmtList} {ch : Cell} {front back : List StmtId} {isNop : Bool}
    (ht : scene.program.Bears [.node (.stmt s) l es ss ts])
    (hnodup : (nodesOf [.node (.stmt s) l es ss ts]).Nodup)
    (hnop : isNop = l.isNop) (hin : InList scene.program list ch front s back)
    (hhoist : hoisted scene.own.rules (.node (.stmt s) l es ss ts) = true)
    (haddr : (rewriteStmt s (.entry list front.length) isNop scene).program.Addressable) :
    ∃ scene₂ cond, Opened scene scene₂ s (.node (.stmt s) l es ss ts) ∧ es = [cond] ∧
      SamePlace scene₂.own (rewriteStmt s (.entry list front.length) isNop scene).own ∧
      supplyOf (rewriteStmt s (.entry list front.length) isNop scene) =
        (newTemp.run (supplyOf scene₂)).2 ∧
      Hoists scene₂.program (rewriteStmt s (.entry list front.length) isNop scene).program s
        (entered scene.own.rules scene.program.stmts.size none (.node (.stmt s) l es ss ts)).cell
        list ch front back cond.id l.line (newTemp.run (supplyOf scene₂)).1 := by
  have hif : l.isIf = true := by
    simp only [hoisted, Bool.and_eq_true, label_node] at hhoist
    exact hhoist.1.2
  have hnot : isNop = false := by
    rw [hnop]
    unfold Label.isIf at hif
    split at hif
    · rfl
    · cases hif
  obtain ⟨scene₂, hopened, heq⟩ := opened_before_hoist ht hnodup (by simp [hnot]) haddr
  have hcall := hopened.hoistable? (nodup_exprs hnodup) hin
  simp only [hoisted, Bool.and_eq_true, and_assoc] at hhoist
  rw [if_pos (by rw [Bool.and_eq_true]; exact hhoist.2)] at hcall
  obtain ⟨cond, e, rfl, hid, hcall⟩ := hcall
  rw [heq, hhoist.1, applyIf_true, hoistCondition_of_some hcall] at haddr ⊢
  have hin₂ := hin.frame
    (hopened.frame.cell (Program.has_of_cell? hin.cell) hin.apart)
  refine ⟨scene₂, cond, hopened, rfl, ⟨rfl, rfl⟩, ?_, ?_⟩
  · obtain ⟨_, hsymbols, hstmts, hexprs⟩ := size_hoistInto scene₂.program s list e l.line
      ("_t" ++ scene₂.own.nextTemp.repr)
    simp only [supplyOf, label_node, hsymbols, hstmts, hexprs]
    rfl
  · rw [hid]
    exact hoists_hoistInto hopened.cell (by rw [Tree.cell, entered_exprs]; rfl) hin₂.cell
      hin₂.fits hin₂.entries hin₂.before hin₂.apart haddr

/-- There is nothing below an empty statement. -/
theorem leaf_of_nop {p : Program} {n : NodeId} {l : Label} {es ss ts : List Tree}
    (hc : p.cell? n = some (Tree.node n l es ss ts).cell) (hnop : l.isNop = true) :
    ∃ s line, Tree.node n l es ss ts = .node (.stmt s) (.stmt .nop line) [] [] [] := by
  obtain ⟨line, rfl⟩ := Label.exists_of_isNop hnop
  obtain ⟨s, rfl⟩ := Program.category_of_label hc
  obtain ⟨⟨k, _, _, _⟩, _, hcell, hhead⟩ := Program.stmt?_of_cell? hc rfl
  cases k with
  | nop =>
    obtain ⟨rfl, rfl, rfl⟩ : es = [] ∧ ss = [] ∧ ts = [] := by
      simpa [Node.cell, StmtKind.operands, StmtKind.declared?, StmtKind.held] using
        (Cell.mk.inj hcell).2
    exact ⟨s, line, rfl⟩
  | _ => cases hhead

/-- An empty statement is left out of its list. -/
structure Drops (scene scene' : Scene Normalizer) (s : StmtId) (list : StmtList) (c ch : Cell)
    (front back : List StmtId) : Prop where
  place : SamePlace scene.own scene'.own
  frame : Program.Extends (fun n => n = .stmt s ∨ n = list.node) scene.program scene'.program
  cell : scene'.program.cell? (.stmt s) = some c
  backs : scene'.program.backs? (.stmt s) =
    some (.parents scene.own.context.enclosingStmt scene.own.context.enclosingSymbol)
  listCell : scene'.program.cell? list.node =
    some { ch with stmts := (front ++ back).map .stmt }
  listBacks : scene'.program.backs? list.node = scene.program.backs? list.node
  supply : supplyOf scene' = (countDropped.run (supplyOf scene)).2

/-- An empty statement in a list is dropped, and no other rule concerns it. -/
theorem drops_of_nop {c ch : Cell} {list : StmtList} {front back : List StmtId}
    (hc : scene.program.cell? (.stmt s) = some c) (hnop : c.label.isNop = true)
    (hrule : scene.own.rules.dropNops = true)
    (hin : InList scene.program list ch front s back) :
    Drops scene (rewriteStmt s (.entry list front.length) true scene) s list c ch front back := by
  have hput : Program.Put scene.program (marked s scene).program (.stmt s) _ _ :=
    Program.put_stmtParents hc _ _
  have hsame₁ : Program.SameSize scene.program (marked s scene).program :=
    Program.sameSize_updateStmt _ _
  have hin₁ := hin.frame (hput.cell_ne hin.apart)
  obtain ⟨bh, hbh⟩ := Program.backs?_of_cell? hin₁.cell
  obtain ⟨q, hremove, hsame₂, hput₂⟩ := Program.put_removeStmt? (s := s) hin₁.cell hbh
    (by rw [hin₁.entries]; simp)
  rw [hin₁.entries, filter_ne_append_cons hin.before hin.after] at hput₂
  have hc₂ : q.cell? (.stmt s) = some c := by rw [hput₂.cell_ne hin.apart.symm, hput.cell_self]
  -- what is left over of an empty statement has no branches and no condition
  have heq : rewriteStmt s (.entry list front.length) true scene = { scene with
      program := q
      own.counts.droppedNops := scene.own.counts.droppedNops + 1 } := by
    have hdrop : dropNop s (.entry list front.length) (marked s scene) = { scene with
        program := q
        own.counts.droppedNops := scene.own.counts.droppedNops + 1 } := by
      rw [dropNop]
      simp only [StmtPlace.list?, hremove]
      rfl
    rw [rewriteStmt_eq, hrule, Bool.and_self, applyIf_true, hdrop]
    have hlabel : c.label.hasBranches = false ∧ c.label.isIf = false := by
      obtain ⟨line, hl⟩ := Label.exists_of_isNop hnop
      rw [hl]
      exact ⟨rfl, rfl⟩
    have hwrap : ∀ own, applyIf scene.own.rules.wrapBranches (wrapBranches s) ⟨q, own⟩ =
        ⟨q, own⟩ := by
      intro own
      cases scene.own.rules.wrapBranches with
      | false => rfl
      | true => exact wrapBranches_of_none hc₂ hlabel.1
    have hhoist : ∀ own, applyIf scene.own.rules.hoistCallConditions
        (hoistCondition s (.entry list front.length)) ⟨q, own⟩ = ⟨q, own⟩ := by
      intro own
      cases scene.own.rules.hoistCallConditions with
      | false => rfl
      | true => exact hoistCondition_of_none fun list _ => hoistable?_of_not_if hc₂ hlabel.2
    rw [hwrap, hhoist]
  rw [heq]
  refine ⟨⟨rfl, rfl⟩, (hput.frame fun _ => .inl rfl).trans (hput₂.frame fun _ => .inr rfl), hc₂,
    hput₂.backs_ne hin.apart.symm ▸ hput.backs_self, hput₂.cell_self, ?_, ?_⟩
  · rw [hput₂.backs_self, ← hbh, hput.backs_ne hin.apart]
  · simp only [supplyOf, hsame₂.symbols, hsame₂.stmts, hsame₂.exprs, hsame₁.symbols, hsame₁.stmts,
      hsame₁.exprs]
    rfl

end

end MiddleEnd.Normalize
