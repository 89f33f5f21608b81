import MiddleEnd.Proofs.Normalize.Kept
import MiddleEnd.Proofs.Normalize.Result
import MiddleEnd.Proofs.Normalize.Taken
import MiddleEnd.Proofs.Pass

/-!
# MiddleEnd.Proofs.Normalize.Frame

What a run may touch, on any program whatsoever and however it ends.  Each operation of its walks
writes to nodes that were entered only, and there it keeps what every rewrite keeps (`Writes`).
Both compose, so they hold of the whole run, also where it halts between two edits (`run_frame`).
-/

namespace MiddleEnd

namespace Normalize

open Walk

/-! ## Writes -/

/-- From `p` to `q` all nodes are kept, and nothing is written to but nodes of `H` and new ones. -/
structure Writes (r : Rules) (H : NodeId → Prop) (p q : Program) : Prop where
  keeping : Keeping r p q
  frame : Program.Extends H p q

namespace Writes

variable {r : Rules} {H K : NodeId → Prop} {p q q' : Program} {n : NodeId} {c : Cell}

theorem refl (r : Rules) (H : NodeId → Prop) (p : Program) : Writes r H p p :=
  ⟨.refl r p, .refl H p⟩

/-- What is kept in two stretches is kept in both together. -/
theorem trans (h : Writes r H p q) (h' : Writes r H q q') : Writes r H p q' :=
  ⟨h.keeping.trans h'.keeping, h.frame.trans h'.frame⟩

/-- What is kept with few nodes at work is kept with more. -/
theorem mono (h : Writes r H p q) (hHK : ∀ n, H n → K n) : Writes r K p q :=
  ⟨h.keeping, h.frame.mono hHK⟩

/-- Back-references are recorded. -/
theorem of_marks {b : Backs} (hput : Program.Put p q n c b) (hc : p.cell? n = some c) (hn : H n) :
    Writes r H p q :=
  ⟨.of_cells (cell?_of_put hput hc), hput.frame fun _ => hn⟩

/-- A statement is rewritten in its place. -/
theorem of_rewriteStmt {s : StmtId} {place : StmtPlace} {isNop : Bool} {scene : Scene Normalizer}
    (hr : scene.own.rules = r) (hc : scene.program.cell? (.stmt s) = some c)
    (hnop : isNop = true → ∃ line, c.label = .stmt .nop line) (hne : place.holder ≠ .stmt s)
    (hhas : scene.program.has place.holder = true) (hs : H (.stmt s)) (hholder : H place.holder)
    (haddr : (rewriteStmt s place isNop scene).program.Addressable) :
    Writes r H scene.program (rewriteStmt s place isNop scene).program where
  keeping := keeping_rewriteStmt hr hc hnop haddr
  frame := (spares_rewriteStmt (Program.has_of_cell? hc) hne hhas haddr).frame.mono fun n hn => by
    rcases hn with rfl | rfl
    · exact hs
    · exact hholder

/-- An expression takes the place of another one. -/
theorem of_setExprAt? {place : ExprPlace} {e inner : ExprId} (hat : p.exprAt? place = some e)
    (hset : p.setExprAt? place inner = some q) (howner : H place.owner.node) : Writes r H p q where
  keeping := keeping_setExprAt? hat hset
  frame := by
    obtain ⟨owner, i⟩ := place
    obtain ⟨q', c, b, hset', _, _, hput⟩ := put_at hat inner
    obtain rfl : q' = q := Option.some.inj (hset'.symm.trans hset)
    exact hput.frame fun _ => howner

end Writes

/-! ## Along a run -/

/-- What a run over `p` has written so far, as long as nodes have ids. -/
structure Framed (r : Rules) (p : Program) (st : WalkState Normalizer) : Prop where
  sound : Sound st
  rules : st.scene.own.rules = r
  writes : st.scene.program.Addressable →
    Writes r (fun n => st.trail.seen.contains n = true) p st.scene.program

section

variable {r : Rules} {modules : List ModuleId} {p : Program} {st : WalkState Normalizer}
  {n : NodeId} {hook : NormalizeM Unit}

/-- A run begins with nothing written. -/
theorem framed_begun (r : Rules) (p : Program) : Framed r p (begun r p) :=
  ⟨fun n hn => by simp [begun, Trail.start] at hn, rfl, fun _ => .refl _ _ _⟩

/-- What a hook writes at a node that was entered. -/
theorem Framed.call (hst : Framed r p st) (hat : HookAt hooks n hook)
    (hwrites : (exec hook st.scene).2.program.Addressable → Writes r
      (fun m => st.trail.seen.contains m = true) st.scene.program (exec hook st.scene).2.program) :
    Framed r p (exec (Walk.call hooks n hook) st).2 := by
  have hlarger := keeps_hook hat st.scene
  rw [exec_call_state]
  exact ⟨fun m hm => hlarger.has m (hst.sound m hm), hlarger.rules.trans hst.rules, fun haddr =>
    (hst.writes (hlarger.addressable haddr)).trans (hwrites haddr)⟩

/-- Keeping track of the place does not touch the program. -/
theorem program_of_exec_move (m : ContextM Unit) (scene : Scene Normalizer) :
    (exec (move m) scene).2.program = scene.program := by
  rw [exec_move]
  split <;> rfl

/-- What the hook before an expression writes. -/
theorem writes_preExpr {H : NodeId → Prop} {scene : Scene Normalizer} {e : ExprId}
    {place : ExprPlace} {c : Cell} (hc : scene.program.cell? (.expr e) = some c)
    (hat : scene.program.exprAt? place = some e) (he : H (.expr e)) (howner : H place.owner.node) :
    Writes r H scene.program (exec (preExpr e place) scene).2.program := by
  rw [exec_preExpr]
  split
  · exact .refl _ _ _
  split
  · exact .refl _ _ _
  split
  · next q hq =>
    obtain ⟨inner, _, hset⟩ := Option.bind_eq_some_iff.mp hq
    exact .of_setExprAt? hat hset howner
  · exact .of_marks (Program.put_exprParents hc _ _) hc he

/-- What a hook writes, where it is called. -/
theorem Framed.writes_hook (hst : Framed r p st) (hn : st.trail.seen.contains n = true)
    (hsite : Walk.Site hooks st n hook) (haddr : (exec hook st.scene).2.program.Addressable) :
    Writes r (fun m => st.trail.seen.contains m = true) st.scene.program
      (exec hook st.scene).2.program := by
  obtain ⟨c, hc⟩ := Program.exists_cell? (hst.sound n hn)
  cases hsite with
  | preSymbol s =>
    obtain ⟨x, hx, _⟩ := Program.cell?_symbol hc
    rw [hooks_preSymbol, exec_preSymbol, Program.symbol, hx]
    exact .of_marks (Program.put_scope hc _) hc hn
  | @preStmt s place hplace hholder hne =>
    obtain ⟨x, hx, hxcell⟩ := Program.cell?_stmt hc
    rw [hooks_preStmt, exec_preStmt, Program.stmt, hx] at haddr ⊢
    refine .of_rewriteStmt hst.rules hc (fun hnop => ⟨x.line, ?_⟩) hne (hst.sound _ hholder) hn
      hholder haddr
    rw [hxcell, Node.cell, of_decide_eq_true hnop, StmtKind.head]
  | @preExpr e place hplace howner hne =>
    rw [hooks_preExpr]
    exact writes_preExpr hc hplace hn howner
  | postSymbol s =>
    rw [hooks_postSymbol, program_of_exec_move]
    exact .refl _ _ _
  | postStmt s =>
    rw [hooks_postStmt, program_of_exec_move]
    exact .refl _ _ _
  | postExpr e => exact .refl _ _ _

/-- Every operation of a run writes to nodes that were entered. -/
theorem framed (r : Rules) (modules : List ModuleId) (p : Program) :
    Upheld hooks modules (Framed r p) fun _ => Framed r p where
  defect _ _ hst := hst
  enter {st n} hst _ hhas _ := by
    refine ⟨fun m hm => ?_, hst.rules, fun haddr =>
      (hst.writes haddr).mono fun m hm => grown_entering n st m hm⟩
    rw [entering, NodeSet.contains_insert, Bool.or_eq_true, decide_eq_true_iff] at hm
    exact hm.elim (fun he => he ▸ hhas) (hst.sound m)
  leave _ hst := ⟨hst.sound, hst.rules, hst.writes⟩
  call hst hn hsite := does_of_state (hst.call hsite.hookAt (hst.writes_hook hn hsite))

/-- Between two modules only the context changes. -/
theorem framed_runModules : ∀ {ms : List ModuleId} {st : WalkState Normalizer}, Framed r p st →
    Does (pass.runModules ms) st (fun _ => Framed r p) fun _ => Framed r p
  | [], _, hst => .pure hst
  | m :: ms, st, hst => by
    have hmove : ∀ (step : ContextM Unit) {st : WalkState Normalizer}, Framed r p st →
        Does (pass.move m step) st (fun _ => Framed r p) fun _ => Framed r p :=
      fun step st hst => does_of_state (by
        obtain ⟨htrail, hprogram⟩ := pass.exec_move_state m step st
        exact ⟨by rw [Sound, htrail, hprogram]; exact hst.sound,
          (grows_pass_move m step st).rules.trans hst.rules, by
            rw [htrail, hprogram]; exact hst.writes⟩)
    have hwalk : ∀ {st : WalkState Normalizer}, Framed r p st →
        Does (Walk.run pass.hooks (.module m)) st (fun _ => Framed r p) fun _ => Framed r p :=
      fun {st} hst => ((framed r [m] p).scoped.run (.module m) st ⟨hst, List.forall_mem_nil _⟩
        (List.mem_singleton_self m)).mono (fun _ _ h => h.1) fun _ _ h => h
    refine Does.bind ((hmove _ hst).bind fun _ _ hst => (hwalk hst).bind fun _ _ hst =>
      hmove _ hst) fun _ _ hst => ?_
    exact framed_runModules hst

end

/-! ## Runs -/

/-- The nodes that a run enters, however it ends. -/
def reached (r : Rules) (modules : List ModuleId) (p : Program) : NodeSet :=
  (exec (pass.runModules modules) (begun r p)).2.trail.seen

/-- An empty statement of `p`, which may be dropped. -/
def Dropped (r : Rules) (p : Program) (s : StmtId) : Prop :=
  r.dropNops = true ∧ ∃ x, p.stmt? s = some x ∧ x.kind = .nop

/-- A declaration that `q` has and `p` has not, which holds a condition. -/
def Inserted (r : Rules) (p q : Program) (s : StmtId) : Prop :=
  r.hoistCallConditions = true ∧ p.stmt? s = none ∧
    ∃ y sym init, q.stmt? s = some y ∧ y.kind = .decl sym init

/-- What a run keeps of a symbol. -/
structure KeptSymbol (Gone New : StmtId → Prop) (x y : Symbol) : Prop where
  name : y.name = x.name
  line : y.line = x.line
  removed : y.removed = x.removed
  head : y.kind.head = x.kind.head
  nested : y.kind.nested? = x.kind.nested?
  body : Relisted Gone New (x.kind.body?.getD []) (y.kind.body?.getD [])

/-- What a run keeps of a statement. -/
structure KeptStmt (Gone New : StmtId → Prop) (x y : Stmt) : Prop where
  line : y.line = x.line
  head : y.kind.head = x.kind.head
  declared : y.kind.declared? = x.kind.declared?
  operands : y.kind.operands.length = x.kind.operands.length
  entries : Relisted Gone New (x.kind.entries?.getD []) (y.kind.entries?.getD [])

/-- What a run keeps of an expression. -/
structure KeptExpr (x y : Expr) : Prop where
  line : y.line = x.line
  head : y.kind.head = x.kind.head
  operands : y.kind.operands.length = x.kind.operands.length

/-- What a run by the rules `r` keeps of `p` where it leaves `q`. -/
structure Preserves (r : Rules) (p q : Program) : Prop where
  modules : q.modules = p.modules
  symbolsSize : p.symbols.size ≤ q.symbols.size
  stmtsSize : p.stmts.size ≤ q.stmts.size
  exprsSize : p.exprs.size ≤ q.exprs.size
  symbol : ∀ {s x}, p.symbol? s = some x →
    ∃ y, q.symbol? s = some y ∧ KeptSymbol (Dropped r p) (Inserted r p q) x y
  stmt : ∀ {s x}, p.stmt? s = some x →
    ∃ y, q.stmt? s = some y ∧ KeptStmt (Dropped r p) (Inserted r p q) x y
  expr : ∀ {e x}, p.expr? e = some x → ∃ y, q.expr? e = some y ∧ KeptExpr x y

section

variable {r : Rules} {p q : Program}

/-- What may be dropped is an empty statement of the program before. -/
theorem Droppable.dropped {s : StmtId} (h : Droppable r p (.stmt s)) : Dropped r p s := by
  obtain ⟨hr, c, line, hc, hlabel⟩ := h
  obtain ⟨x, hx, rfl⟩ := Program.cell?_stmt hc
  obtain ⟨k, _, _, _⟩ := x
  refine ⟨hr, _, hx, ?_⟩
  cases k <;> simp_all [Node.cell, StmtKind.head]

/-- What may be inserted is a declaration that was not there before. -/
theorem Insertable.inserted {s : StmtId} (h : Insertable r p q (.stmt s)) : Inserted r p q s := by
  obtain ⟨hr, hmissing, c, line, hc, hlabel⟩ := h
  obtain ⟨y, hy, rfl⟩ := Program.cell?_stmt hc
  obtain ⟨k, _, _, _⟩ := y
  refine ⟨hr, by simpa [Program.has] using hmissing, ?_⟩
  cases k <;> simp_all [Node.cell, StmtKind.head]

/-- The entries of a list, and not their ids among all nodes. -/
theorem relisted_stmts {xs ys : List StmtId}
    (h : Relisted (Droppable r p) (Insertable r p q) (xs.map .stmt) (ys.map .stmt)) :
    Relisted (Dropped r p) (Inserted r p q) xs ys :=
  h.of_map (fun _ _ he => NodeId.stmt.inj he) (fun _ hx => hx.dropped) fun _ hx => hx.inserted

/-- A symbol keeps its name, and of what it lists all but what is dropped. -/
theorem Keeping.symbol (h : Keeping r p q) {s : SymbolId} {x : Symbol} (hx : p.symbol? s = some x) :
    ∃ y, q.symbol? s = some y ∧ KeptSymbol (Dropped r p) (Inserted r p q) x y := by
  obtain ⟨d, hd, hkept⟩ :=
    h.kept (Program.cell?_of_node? (Program.node?_symbol hx))
  obtain ⟨y, hy, rfl⟩ := Program.cell?_symbol hd
  have hlabel := hkept.label
  simp only [Node.cell, Label.symbol.injEq] at hlabel
  obtain ⟨hname, hline, hremoved, hhead⟩ := hlabel
  refine ⟨y, hy, hname, hline, hremoved, hhead, ?_, relisted_stmts (hkept.stmts rfl)⟩
  have hnested := map_symbol_inj.mp hkept.symbols
  revert hhead hnested
  cases x.kind <;> cases y.kind <;> simp [SymbolKind.head, SymbolKind.nested?]

theorem Keeping.stmt (h : Keeping r p q) {s : StmtId} {x : Stmt} (hx : p.stmt? s = some x) :
    ∃ y, q.stmt? s = some y ∧ KeptStmt (Dropped r p) (Inserted r p q) x y := by
  obtain ⟨d, hd, hkept⟩ :=
    h.kept (Program.cell?_of_node? (Program.node?_stmt hx))
  obtain ⟨y, hy, rfl⟩ := Program.cell?_stmt hd
  have hlabel := hkept.label
  simp only [Node.cell, Label.stmt.injEq] at hlabel
  obtain ⟨hhead, hline⟩ := hlabel
  refine ⟨y, hy, hline, hhead, ?_, ?_, ?_⟩
  · have hsymbols := map_symbol_inj.mp hkept.symbols
    revert hsymbols
    cases x.kind.declared? <;> cases y.kind.declared? <;> simp
  · simpa [Node.cell] using hkept.exprs
  · have hstmts := hkept.stmts
    simp only [Node.cell] at hstmts
    revert hhead hstmts
    generalize x.kind = k
    generalize y.kind = k'
    intro hhead hstmts
    cases k <;> cases k' <;> cases hhead <;> first
      | exact .nil
      | exact relisted_stmts (hstmts rfl)

theorem Keeping.expr (h : Keeping r p q) {e : ExprId} {x : Expr} (hx : p.expr? e = some x) :
    ∃ y, q.expr? e = some y ∧ KeptExpr x y := by
  obtain ⟨d, hd, hkept⟩ :=
    h.kept (Program.cell?_of_node? (Program.node?_expr hx))
  obtain ⟨y, hy, rfl⟩ := Program.cell?_expr hd
  have hlabel := hkept.label
  simp only [Node.cell, Label.expr.injEq] at hlabel
  exact ⟨y, hy, hlabel.2, hlabel.1, by simpa [Node.cell] using hkept.exprs⟩

theorem Keeping.preserves {a b : Scene Normalizer} (h : Keeping r a.program b.program)
    (hlarger : Larger a b) : Preserves r a.program b.program :=
  ⟨hlarger.modules, hlarger.symbols, hlarger.stmts, hlarger.exprs, h.symbol, h.stmt, h.expr⟩

end

/-- Whatever the program, the modules and the rules, and whether the run ends well or halts: the
modules stay, no node goes, and every node keeps what it says and what it owns but for operands
and branches that are exchanged; of the entries of a list only empty statements are dropped, and
only declarations that were made are inserted, each if its rule is on.  What was not entered is
what it was, back-references included. -/
theorem run_frame {r : Rules} {modules : List ModuleId} {p : Program}
    (haddr : (Normalize.run r modules p).2.Addressable) :
    Preserves r p (Normalize.run r modules p).2 ∧ ∀ n, p.has n = true →
      (reached r modules p).contains n = false →
      (Normalize.run r modules p).2.node? n = p.node? n := by
  have hlarger := larger_local.forM grows_runModule modules (begun r p)
  have hframed : Framed r p (exec (pass.runModules modules) (begun r p)).2 := by
    have hdoes := @framed_runModules r p modules _ (framed_begun r p)
    rcases hexec : exec (pass.runModules modules) (begun r p) with ⟨e | ⟨⟩, st⟩
    · exact hdoes.of_error hexec
    · exact hdoes.of_ok hexec
  rw [run_of_exec rfl] at haddr ⊢
  have hwrites := hframed.writes haddr
  refine ⟨hwrites.keeping.preserves hlarger, fun n hn hunseen =>
    hwrites.frame.kept n hn fun hseen => ?_⟩
  rw [reached, hseen] at hunseen
  cases hunseen

/-- A function in which every rule has something to do before an expression is missing. -/
def broken : Program where
  modules := #[⟨"m", "m.w", none, [⟨0⟩]⟩]
  symbols := #[.new "f" (.func [] none [⟨0⟩, ⟨1⟩, ⟨3⟩]) 1]
  stmts := #[.new .nop 2, .new (.ifElse ⟨1⟩ ⟨2⟩ none) 3, .new .nop 4, .new (.expr ⟨5⟩) 5]
  exprs := #[.new (.call ⟨2⟩ []) 3, .new (.paren ⟨0⟩) 3, .new (.symRef ⟨0⟩) 3]

theorem run_frame_broken : (Normalize.run .all [⟨0⟩] broken).1.toOption = none ∧
    (Normalize.run .all [⟨0⟩] broken).2.Addressable ∧
    (Normalize.run .all [⟨0⟩] broken).2 ≠ broken ∧
    Preserves .all broken (Normalize.run .all [⟨0⟩] broken).2 ∧ ∀ n, broken.has n = true →
      (reached .all [⟨0⟩] broken).contains n = false →
      (Normalize.run .all [⟨0⟩] broken).2.node? n = broken.node? n :=
  ⟨by decide +kernel, by decide +kernel, by decide +kernel, run_frame (by decide +kernel)⟩

end Normalize

end MiddleEnd
