import MiddleEnd.Proofs.Normalize.Moved

/-!
# MiddleEnd.Proofs.Normalize.Exprs

The pass on expressions: visiting a place that holds an expression, or the operands of an owner
from some position on, makes of them what `flatten` makes of their trees.
-/

namespace MiddleEnd.Normalize

open MiddleEnd.Tree Walk

/-! ## Flattening -/

/-- The parentheses of expressions in a row add up. -/
theorem parens_append (es fs : List Tree) : parens (es ++ fs) = parens es + parens fs := by
  rw [parens, subtreesOf_append, List.countP_append]
  rfl

theorem flatAll_append (es fs : List Tree) : flatAll (es ++ fs) = flatAll es ++ flatAll fs := by
  rw [flatAll_eq, flatAll_eq, flatAll_eq, List.map_append]

/-- If they are to be flattened at all, expressions are, and their parentheses counted. -/
theorem run_flatten (r : Rules) (es : List Tree) (s : Supply) : (flatten r es).run s =
    if r.flattenParens then
      (flatAll es, { s with counts.flattenedParens := s.counts.flattenedParens + parens es })
    else (es, s) := by
  unfold flatten
  split <;> rfl

/-- Expressions in a row are flattened one after the other. -/
theorem run_flatten_append (r : Rules) (es fs : List Tree) (s : Supply) :
    (flatten r (es ++ fs)).run s = (((flatten r es).run s).1 ++
      ((flatten r fs).run ((flatten r es).run s).2).1,
      ((flatten r fs).run ((flatten r es).run s).2).2) := by
  simp only [run_flatten]
  split
  · simp only [flatAll_append, parens_append, Nat.add_assoc]
  · rfl

/-- A parenthesis is replaced by what it encloses. -/
theorem run_flatten_paren {r : Rules} (hr : r.flattenParens = true) (n : NodeId) (line : UInt32)
    (inner : Tree) (s : Supply) :
    (flatten r [.node n (.expr .paren line) [inner] [] []]).run s =
      (flatten r [inner]).run
        { s with counts.flattenedParens := s.counts.flattenedParens + 1 } := by
  simp only [run_flatten, if_pos hr]
  have hcount : parens [.node n (.expr .paren line) [inner] [] []] = 1 + parens [inner] := by
    simp [parens, Label.isParen, List.countP_cons, Nat.add_comm]
  simp only [hcount, Nat.add_assoc]
  rfl

/-- Any other expression keeps its place, with its operands flattened. -/
theorem run_flatten_node {r : Rules} {l : Label} (hr : (r.flattenParens && l.isParen) = false)
    (n : NodeId) (es : List Tree) (s : Supply) :
    (flatten r [.node n l es [] []]).run s =
      ([.node n l ((flatten r es).run s).1 [] []], ((flatten r es).run s).2) := by
  simp only [run_flatten]
  by_cases hf : r.flattenParens = true
  · have hl : l.isParen = false := by simpa [hf] using hr
    have hcount : parens [.node n l es [] []] = parens es := by
      simp [parens, hl]
    simp only [if_pos hf, flatAll, flat_of_not_paren hl, hcount]
  · simp only [if_neg hf]

/-! ## Visiting -/

/-- Visiting a place that holds the expression makes of it what `flatten` makes of the tree. -/
def ExprGoes (t : Tree) : Prop :=
  ∀ (st : WalkState Normalizer) (owner : ExprOwner) (i : Nat) (c : Cell),
    Ready (· = owner.node) st [t] → st.scene.program.cell? owner.node = some c →
    c.exprs[i]? = some t.id → st.scene.own.context.enclosingStmt.isSome = true →
    Ends (Walk.run hooks (.expr ⟨owner, i⟩)) st fun st' => ∃ u,
      (flatten st.scene.own.rules [t]).run (supplyOf st.scene) = ([u], supplyOf st'.scene) ∧
        Becomes (· = owner.node) st st' [t] [u] ∧
        Owns owner.node { c with exprs := c.exprs.set i u.id } st st'

/-- The operands of an owner, counted off its cell. -/
theorem length_operands {p : Program} {owner : ExprOwner} {c : Cell}
    (hc : p.cell? owner.node = some c) : (p.operands owner).length = c.exprs.length := by
  rw [Program.exprs_of_cell? _ hc, List.length_map]

/-- Operands are visited one after another. -/
theorem operands_go (owner : ExprOwner) {ts : List Tree} (hts : ∀ t ∈ ts, ExprGoes t) :
    ∀ (st : WalkState Normalizer) (c : Cell) (front : List NodeId),
      Ready (· = owner.node) st ts → st.scene.program.cell? owner.node = some c →
      c.exprs = front ++ ts.map Tree.id → st.scene.own.context.enclosingStmt.isSome = true →
      Ends (Walk.run hooks (.operandsFrom owner front.length)) st fun st' => ∃ us,
        (flatten st.scene.own.rules ts).run (supplyOf st.scene) = (us, supplyOf st'.scene) ∧
          Becomes (· = owner.node) st st' ts us ∧
          Owns owner.node { c with exprs := front ++ us.map Tree.id } st st' := by
  induction ts with
  | nil =>
    intro st c front hready hc hexprs _
    have hdone : ¬ front.length < (st.scene.program.operands owner).length := by
      rw [length_operands hc, hexprs]
      simp
    rw [run_eq, visit]
    refine .step (exec_program st) ?_
    rw [if_neg hdone]
    refine .pure ⟨[], by rw [flatten_nil]; rfl, .refl _ st, ?_, rfl⟩
    rw [hc, ← hexprs]
  | cons t ts ih =>
    intro st c front hready hc hexprs hstmt
    have hlt : front.length < (st.scene.program.operands owner).length := by
      rw [length_operands hc, hexprs]
      simp
    rw [run_eq, visit]
    refine .step (exec_program st) ?_
    rw [if_pos hlt]
    have hfirst := hts t List.mem_cons_self st owner front.length c
      hready.head hc (by simp [hexprs]) hstmt
    refine hfirst.bind (larger_local.run _) ?_
    rintro st₁ ⟨u, hu, hbecomes, howns⟩
    have hset : c.exprs.set front.length u.id = (front ++ [u.id]) ++ ts.map Tree.id := by
      simp [hexprs]
    rw [hset] at howns
    have hrest := ih (fun t ht => hts t (List.mem_cons_of_mem _ ht)) st₁ _ (front ++ [u.id])
      (hbecomes.ready hready) howns.cell rfl (by
        have hsame : st₁.scene.own.context.enclosingStmt = st.scene.own.context.enclosingStmt :=
          congrArg Around.stmt hbecomes.level.around_eq
        rw [hsame, hstmt])
    rw [List.length_append, List.length_singleton] at hrest
    refine hrest.mono ?_
    rintro st₂ ⟨us, hus, hbecomes₂, howns₂⟩
    refine ⟨u :: us, ?_, hbecomes.trans hbecomes₂ hready.held, ?_, ?_⟩
    · rw [hbecomes.moved.rules] at hus
      have happend := run_flatten_append st.scene.own.rules [t] ts (supplyOf st.scene)
      rw [hu, hus] at happend
      exact happend
    · rw [howns₂.cell]
      simp
    · rw [howns₂.backs, howns.backs]

/-- The expression that a place holds, read off the cell of its owner. -/
theorem exprAt?_of_cell {p : Program} {owner : ExprOwner} {i : Nat} {c : Cell} {e : ExprId}
    (hc : p.cell? owner.node = some c) (hi : c.exprs[i]? = some (.expr e)) :
    p.exprAt? ⟨owner, i⟩ = some e := by
  rw [Program.exprs_of_cell? _ hc, List.getElem?_map, Option.map_eq_some_iff] at hi
  obtain ⟨e', he', hid⟩ := hi
  cases hid
  exact he'

/-- An expression that is there is found. -/
theorem expr_of_expr? {p : Program} {e : ExprId} {x : Expr} (h : p.expr? e = some x) :
    p.expr e = .ok x := by
  rw [Program.expr, h]

/-- The pass has recorded what encloses the expression. -/
def markedExpr (e : ExprId) (scene : Scene Normalizer) : Scene Normalizer :=
  { scene with program := scene.program.updateExpr e fun x => { x with
      parentStmt := scene.own.context.enclosingStmt
      parentSymbol := scene.own.context.enclosingSymbol } }

section

variable {scene : Scene Normalizer} {e : ExprId} {x : Expr} {place : ExprPlace}

/-- A parenthesised expression is replaced by what it encloses. -/
theorem exec_preExpr_paren {e' : ExprId} {q : Program}
    (hstmt : scene.own.context.enclosingStmt.isSome = true) (hx : scene.program.expr? e = some x)
    (hk : x.kind = .paren e') (hr : scene.own.rules.flattenParens = true)
    (hset : scene.program.setExprAt? place e' = some q) :
    exec (preExpr e place) scene = (.ok (), { scene with
      program := q
      own.counts.flattenedParens := scene.own.counts.flattenedParens + 1 }) := by
  obtain ⟨enclosing, henclosing⟩ := Option.isSome_iff_exists.mp hstmt
  rw [exec_preExpr, henclosing, expr_of_expr? hx]
  simp only [flattened?, hk, hr, if_true, Option.bind_some, hset]

/-- An expression is replaced if it is a parenthesis and the rule is on, and not else. -/
theorem flattened?_eq_none {r : Rules}
    (hr : (r.flattenParens && (Node.expr x).cell.label.isParen) = false) :
    flattened? r x = none := by
  unfold flattened?
  split
  · next h => simpa [h, Node.cell, Label.isParen, ExprKind.head] using hr
  · rfl

/-- What encloses any other expression is recorded. -/
theorem exec_preExpr_mark (scene : Scene Normalizer)
    (hstmt : scene.own.context.enclosingStmt.isSome = true)
    (hx : scene.program.expr? e = some x) (hk : flattened? scene.own.rules x = none) :
    exec (preExpr e place) scene = (.ok (), markedExpr e scene) := by
  obtain ⟨enclosing, henclosing⟩ := Option.isSome_iff_exists.mp hstmt
  rw [exec_preExpr, henclosing, expr_of_expr? hx]
  simp only [hk, Option.bind_none, markedExpr, henclosing]

/-- Recording where an expression is takes nothing from the supply. -/
theorem supplyOf_markedExpr : supplyOf (markedExpr e scene) = supplyOf scene := by
  have h : Program.SameSize scene.program (markedExpr e scene).program :=
    Program.sameSize_updateExpr _ _
  rw [supplyOf, h.symbols, h.stmts, h.exprs]
  rfl

end

/-- What the hook before an expression does, whatever it meets. -/
theorem of_exec_preExpr {scene scene' : Scene Normalizer} {e : ExprId} {x : Expr}
    {place : ExprPlace} {r : Except Refusal Unit} (hx : scene.program.expr? e = some x)
    (hexec : exec (preExpr e place) scene = (r, scene')) :
    (∃ cause, r = .error (.defect cause)) ∨
      r = .ok () ∧ scene.own.context.enclosingStmt.isSome = true ∧
        ((∃ inner q, x.kind = .paren inner ∧ scene.own.rules.flattenParens = true ∧
            scene.program.setExprAt? place inner = some q ∧ scene' = { scene with
              program := q
              own.counts.flattenedParens := scene.own.counts.flattenedParens + 1 }) ∨
          scene' = markedExpr e scene ∧
            (flattened? scene.own.rules x).bind (scene.program.setExprAt? place) = none) := by
  rw [exec_preExpr, expr_of_expr? hx] at hexec
  cases hstmt : scene.own.context.enclosingStmt with
  | none =>
    rw [hstmt] at hexec
    cases hexec
    exact .inl ⟨_, rfl⟩
  | some enclosing =>
    rw [hstmt] at hexec
    right
    cases hset : (flattened? scene.own.rules x).bind (scene.program.setExprAt? place) with
    | none =>
      simp only [hset, Prod.mk.injEq] at hexec
      exact ⟨hexec.1.symm, rfl, .inr ⟨by rw [← hexec.2, markedExpr, hstmt], rfl⟩⟩
    | some q =>
      simp only [hset, Prod.mk.injEq] at hexec
      obtain ⟨inner, hinner, hq⟩ := Option.bind_eq_some_iff.mp hset
      unfold flattened? at hinner
      split at hinner
      · next inner' hk =>
        obtain ⟨hr, rfl⟩ : scene.own.rules.flattenParens = true ∧ inner' = inner := by
          simpa using hinner
        exact ⟨hexec.1.symm, rfl, .inl ⟨inner', q, hk, hr, hq, hexec.2.symm⟩⟩
      · cases hinner

/-- A parenthesis under the rule goes as what it encloses. -/
theorem paren_goes {e : ExprId} {line : UInt32} {inner : Tree} (hinner : ExprGoes inner)
    {st : WalkState Normalizer} (hr : st.scene.own.rules.flattenParens = true)
    {owner : ExprOwner} {i : Nat} {c : Cell}
    (hready : Ready (· = owner.node) st [.node (.expr e) (.expr .paren line) [inner] [] []])
    (hc : st.scene.program.cell? owner.node = some c) (hi : c.exprs[i]? = some (.expr e))
    (hstmt : st.scene.own.context.enclosingStmt.isSome = true) :
    Ends (Walk.run hooks (.expr ⟨owner, i⟩)) st fun st' => ∃ u,
      (flatten st.scene.own.rules [.node (.expr e) (.expr .paren line) [inner] [] []]).run
          (supplyOf st.scene) = ([u], supplyOf st'.scene) ∧
        Becomes (· = owner.node) st st' [.node (.expr e) (.expr .paren line) [inner] [] []] [u] ∧
        Owns owner.node { c with exprs := c.exprs.set i u.id } st st' := by
  obtain ⟨e', he'⟩ := exists_inner hready.bears
  obtain ⟨x, hx, hxcell⟩ := Program.cell?_expr (hready.bears.cell List.mem_cons_self)
  have hkind : x.kind = .paren e' := by
    obtain ⟨k, _, _, _⟩ := x
    cases k <;> simp_all [Node.cell, ExprKind.head, ExprKind.operands]
  have hlt : i < c.exprs.length := (List.getElem?_eq_some_iff.mp hi).1
  obtain ⟨b, hb⟩ := Program.backs?_of_cell? hc
  obtain ⟨q, hset, hsame, hput⟩ := Program.put_setExprAt? hc hb hlt e'
  have hne : e' ≠ e := by
    rintro rfl
    have := (nodup_node.mp hready.nodup).1
    exact this (by
      simp only [List.append_nil]
      exact he' ▸ id_mem_nodesOf List.mem_cons_self)
  rw [run_eq, visit]
  refine .step (exec_program st) ?_
  rw [exprAt?_of_cell hc hi]
  refine .step hready.exec_enter ?_
  rw [hooks_preExpr]
  refine .step (exec_call_ok (exec_preExpr_paren hstmt hx hkind hr hset)) ?_
  refine .step (exec_program _) ?_
  have hat : q.exprAt? ⟨owner, i⟩ = some e' := by
    refine exprAt?_of_cell hput.cell_self ?_
    simp [hlt]
  simp only [hat, hne, if_false]
  refine .step (exec_leave _ _) ?_
  refine .step (exec_get _) ?_
  generalize hst₃ : ({ trail := _, scene := _ } : WalkState Normalizer) = st₃
  have hscene : st₃.scene = { st.scene with
      program := q
      own.counts.flattenedParens := st.scene.own.counts.flattenedParens + 1 } := by rw [← hst₃]
  have hmoved : Moved (· = .expr e) (· = owner.node) st st₃ := by
    refine moved_enter (hready.unseen _ (by simp)) (by rw [← hst₃]; rfl) (by rw [hscene]) ?_
      (hready.bears.has (by simp))
    rw [hscene]
    exact hput.frame fun _ => .inr rfl
  have hready₃ : Ready (· = owner.node) st₃ [inner] :=
    (by simpa using hmoved.ready_below hready : Ready _ st₃ [inner]).held_mono
      fun n hn => hmoved.seen_of_seen (hready.held n hn)
  have hunseen : st₃.trail.seen.contains (.expr e') = false :=
    hready₃.unseen _ (he' ▸ id_mem_nodesOf List.mem_cons_self)
  rw [hunseen]
  have hcell₃ : st₃.scene.program.cell? owner.node =
      some { c with exprs := c.exprs.set i (.expr e') } := by rw [hscene]; exact hput.cell_self
  refine (hinner st₃ owner i _ hready₃ hcell₃ (by simp [hlt, he'])
    (by rw [hscene]; exact hstmt)).mono
    ?_
  rintro st' ⟨u, hu, hbecomes, howns⟩
  refine ⟨u, ?_, ?_, ?_, ?_⟩
  · rw [run_flatten_paren hr, ← hu, hscene]
    simp only [supplyOf, hsame.symbols, hsame.stmts, hsame.exprs]
  · refine (Yields.after hbecomes hmoved (by rw [hscene])).congr fun n => ?_
    have hhas : ∀ m, st₃.scene.program.has m = st.scene.program.has m := by
      rw [hscene]
      exact hput.has_eq (by rw [hc]; rfl)
    simpa using @entered_node _ _ _ _ _ [inner] [] [] hhas n
  · rw [howns.cell]
    simp
  · rw [howns.backs, hscene, hput.backs_self, hb]

/-- Any other expression keeps its place, and its operands go as they are flattened. -/
theorem node_goes {e : ExprId} {l : Label} {es : List Tree} (hes : ∀ t ∈ es, ExprGoes t)
    {st : WalkState Normalizer} (hr : (st.scene.own.rules.flattenParens && l.isParen) = false)
    {owner : ExprOwner} {i : Nat} {c : Cell}
    (hready : Ready (· = owner.node) st [.node (.expr e) l es [] []])
    (hc : st.scene.program.cell? owner.node = some c) (hi : c.exprs[i]? = some (.expr e))
    (hstmt : st.scene.own.context.enclosingStmt.isSome = true) :
    Ends (Walk.run hooks (.expr ⟨owner, i⟩)) st fun st' => ∃ u,
      (flatten st.scene.own.rules [.node (.expr e) l es [] []]).run (supplyOf st.scene) =
          ([u], supplyOf st'.scene) ∧
        Becomes (· = owner.node) st st' [.node (.expr e) l es [] []] [u] ∧
        Owns owner.node { c with exprs := c.exprs.set i u.id } st st' := by
  have hcell := hready.bears.cell List.mem_cons_self
  obtain ⟨x, hx, hxcell⟩ := Program.cell?_expr hcell
  have hflat : flattened? st.scene.own.rules x = none := by
    rw [show l = (Node.expr x).cell.label from congrArg Cell.label hxcell] at hr
    exact flattened?_eq_none hr
  have hput : Program.Put st.scene.program (markedExpr e st.scene).program (.expr e)
      ⟨l, es.map Tree.id, [], []⟩ (st.scene.own.context.around.backs (.expr e)) :=
    Program.put_exprParents hcell _ _
  have hne : owner.node ≠ .expr e :=
    NodeSet.ne_of_contains (hready.held _ rfl) (hready.unseen _ (by simp))
  rw [run_eq, visit]
  refine .step (exec_program st) ?_
  rw [exprAt?_of_cell hc hi]
  refine .step hready.exec_enter ?_
  rw [hooks_preExpr]
  refine .step (exec_call_ok (exec_preExpr_mark _ hstmt hx hflat)) ?_
  refine .step (exec_program _) ?_
  have hat := exprAt?_of_cell ((hput.cell_ne hne).trans hc) hi
  simp only [hat, if_true]
  generalize hst₂ : ({ trail := _, scene := _ } : WalkState Normalizer) = st₂
  have hscene : st₂.scene = markedExpr e st.scene := by rw [← hst₂]
  rw [← hscene] at hput
  have hown : st₂.scene.own = st.scene.own := by rw [hscene]; rfl
  have hmoved : Moved (· = .expr e) (· = owner.node) st st₂ :=
    moved_enter (hready.unseen _ (by simp)) (by rw [← hst₂]) (by rw [hown])
      (hput.frame fun _ => .inl rfl) (hready.bears.has (by simp))
  have hready₂ : Ready (· = .expr e) st₂ es := by simpa using hmoved.ready_below hready
  have hoperands := operands_go (.expr e) hes st₂ _ [] hready₂ hput.cell_self rfl
    (by rw [hown]; exact hstmt)
  refine hoperands.bind ?_ ?_
  · exact larger_local.bind (larger_local.call (.postExpr e)) fun _ => larger_local.leave _
  rintro st₃ ⟨us, hus, hbecomes, howns⟩
  rw [hooks_postExpr]
  refine .step (exec_call_ok (exec_pure _ _)) (.of_exec (exec_leave _ _) ?_)
  have hhas := hput.has_eq (by
    rw [show st.scene.program.cell? (.expr e) = _ from hcell]
    rfl)
  have hseen := hmoved.seen_of_seen (hready.held _ rfl)
  have hbecomes' : Yields (Entered st₂ st₃ (es ++ [] ++ [])) (· = .expr e) st₂ st₃
      (us ++ [] ++ []) := by
    rw [List.append_nil, List.append_nil, List.append_nil, List.append_nil]
    exact hbecomes
  refine ⟨.node (.expr e) l us [] [], ?_, ?_, ?_, ?_⟩
  · rw [hown, hscene, supplyOf_markedExpr] at hus
    rw [run_flatten_node hr, hus]
  · refine Yields.congr (E := fun m => m = .expr e ∨ Entered st₂ st₃ (es ++ [] ++ []) m) ?_
      (entered_node hhas)
    refine Yields.node hmoved hbecomes' ?_ ?_ ?_ rfl rfl rfl ?_
    · exact howns.cell
    · exact howns.backs.trans hput.backs_self
    · rw [hown]
      rfl
    · rw [← hown]
      exact hbecomes.level
  · change st₃.scene.program.cell? owner.node = _
    obtain ⟨hlt, hat⟩ := List.getElem?_eq_some_iff.mp hi
    have hset : c.exprs.set i (.expr e) = c.exprs := by rw [← hat, List.set_getElem_self hlt]
    rw [id_node, hset, hbecomes.moved.held_cell hready₂.sound hseen hne, hput.cell_ne hne, hc]
  · change st₃.scene.program.backs? owner.node = _
    rw [hbecomes.moved.held_backs hready₂.sound hseen hne, hput.backs_ne hne]

/-- Every expression goes as its tree is flattened. -/
theorem expr_goes (t : Tree) : ExprGoes t := by
  induction t using Tree.induction with
  | step n l es ss ts he hs ht =>
    intro st owner i c hready hc hi hstmt
    obtain ⟨e, rfl⟩ : ∃ e, n = .expr e := by
      rw [Program.exprs_of_cell? _ hc, List.getElem?_map, Option.map_eq_some_iff] at hi
      obtain ⟨e, _, he⟩ := hi
      exact ⟨e, he.symm⟩
    by_cases hp : (st.scene.own.rules.flattenParens && l.isParen) = true
    · rw [Bool.and_eq_true] at hp
      rcases paren_cases hready.bears with ⟨_, line, inner, heq⟩ | ⟨hnot, _⟩
      · cases heq
        exact paren_goes (he inner List.mem_cons_self) hp.1 hready hc hi hstmt
      · rw [label_node, hp.2] at hnot
        cases hnot
    · obtain ⟨x, _, hxcell⟩ := Program.cell?_expr (hready.bears.cell List.mem_cons_self)
      obtain rfl : ss = [] := by simpa [Node.cell] using congrArg Cell.symbols hxcell
      obtain rfl : ts = [] := by simpa [Node.cell] using congrArg Cell.stmts hxcell
      exact node_goes he (by simpa using hp) hready hc hi hstmt

end MiddleEnd.Normalize
