import MiddleEnd.Proofs.Tree.Cell

/-!
# MiddleEnd.Proofs.Tree.Change

What an edit does to a program, node by node.  Every edit that the passes make *puts* a cell and
back-references at one node and leaves all other nodes as they are (`Put`): one that changes what a
node owns keeps its back-references, one that records back-references keeps the cell, and one that
adds a node puts it where there was none.
-/

namespace MiddleEnd.Program

/-- `q` is `p` with a cell and back-references put at one node. -/
structure Put (p q : Program) (n : NodeId) (c : Cell) (b : Backs) : Prop where
  cell : ∀ m, q.cell? m = if m = n then some c else p.cell? m
  backs : ∀ m, q.backs? m = if m = n then some b else p.backs? m

section

variable {p q : Program} {n m : NodeId} {c : Cell} {b : Backs}

/-- The node has the cell that was put there. -/
theorem Put.cell_self (h : Put p q n c b) : q.cell? n = some c := by
  rw [h.cell, if_pos rfl]

theorem Put.backs_self (h : Put p q n c b) : q.backs? n = some b := by
  rw [h.backs, if_pos rfl]

/-- Other nodes keep their cells. -/
theorem Put.cell_ne (h : Put p q n c b) (hm : m ≠ n) : q.cell? m = p.cell? m := by
  rw [h.cell, if_neg hm]

/-- Other nodes keep their back-references. -/
theorem Put.backs_ne (h : Put p q n c b) (hm : m ≠ n) : q.backs? m = p.backs? m := by
  rw [h.backs, if_neg hm]

theorem Put.node_ne (h : Put p q n c b) (hm : m ≠ n) : q.node? m = p.node? m :=
  node?_eq_of_views (h.cell_ne hm) (h.backs_ne hm)

/-- Besides the old nodes only the node itself may be new. -/
theorem Put.has (h : Put p q n c b) (m : NodeId) : q.has m = (decide (m = n) || p.has m) := by
  rw [has_eq_cell?, has_eq_cell?, h.cell]
  by_cases hm : m = n <;> simp [hm]

/-- Where a node is overwritten, the same nodes exist. -/
theorem Put.has_eq (h : Put p q n c b) (hn : (p.cell? n).isSome = true) (m : NodeId) :
    q.has m = p.has m := by
  rw [h.has]
  by_cases hm : m = n
  · rw [hm, has_eq_cell?, hn]
    simp
  · simp [hm]

/-- What replaces one node by another puts the views of the other. -/
theorem put_of_node {x : Node} (h : ∀ m, q.node? m = if m = n then some x else p.node? m) :
    Put p q n x.cell x.backs := by
  constructor <;> intro m <;> simp only [cell?, backs?, h m] <;> by_cases hm : m = n <;> simp [hm]

end

/-! ## Changes elsewhere -/

/-- `q` is `p` with new nodes, and with changes at no old node but those of `H`. -/
structure Extends (H : NodeId → Prop) (p q : Program) : Prop where
  has : ∀ n, p.has n = true → q.has n = true
  kept : ∀ n, p.has n = true → ¬ H n → q.node? n = p.node? n

namespace Extends

variable {H K : NodeId → Prop} {p q r : Program} {n : NodeId}

/-- A program that stays is changed nowhere. -/
theorem refl (H : NodeId → Prop) (p : Program) : Extends H p p := ⟨fun _ h => h, fun _ _ _ => rfl⟩

/-- What is changed nowhere else in two stretches is changed nowhere else in both together. -/
theorem trans (h : Extends H p q) (h' : Extends H q r) : Extends H p r where
  has n hn := h'.has n (h.has n hn)
  kept n hn hH := (h'.kept n (h.has n hn) hH).trans (h.kept n hn hH)

/-- What is missing in the end was never there. -/
theorem missing (h : Extends H p q) (hn : q.has n = false) : p.has n = false := by
  cases hp : p.has n with
  | false => rfl
  | true => rw [← hn, h.has n hp]

/-- Changes at few nodes are changes at more. -/
theorem mono (h : Extends H p q) (hHK : ∀ n, H n → K n) : Extends K p q :=
  ⟨h.has, fun n hn hK => h.kept n hn fun hH => hK (hHK n hH)⟩

/-- An old node outside of `H` keeps its cell. -/
theorem cell (h : Extends H p q) (hn : p.has n = true) (hH : ¬ H n) : q.cell? n = p.cell? n := by
  rw [cell?, cell?, h.kept n hn hH]

/-- An old node outside of `H` keeps its back-references. -/
theorem backs (h : Extends H p q) (hn : p.has n = true) (hH : ¬ H n) :
    q.backs? n = p.backs? n := by
  rw [backs?, backs?, h.kept n hn hH]

end Extends

/-- What is put at a node of `H`, or where there was no node, changes nothing elsewhere. -/
theorem Put.frame {H : NodeId → Prop} {p q : Program} {n : NodeId} {c : Cell} {b : Backs}
    (h : Put p q n c b) (hn : p.has n = true → H n) : Extends H p q where
  has m hm := by rw [h.has, hm, Bool.or_true]
  kept m hm hH := h.node_ne fun he => hH (he ▸ hn (he ▸ hm))

/-! ## Overwriting a node -/

section

variable {p : Program}

/-- A change to a symbol is seen there and nowhere else. -/
theorem symbol?_updateSymbol (s t : SymbolId) (f : Symbol → Symbol) :
    (p.updateSymbol s f).symbol? t = if t = s then (p.symbol? t).map f else p.symbol? t := by
  simp only [symbol?, updateSymbol, Array.getElem?_modify, SymbolId.index_inj]
  by_cases h : t = s
  · simp [h]
  · rw [if_neg h, if_neg (Ne.symm h)]

/-- A change to a statement is seen there and nowhere else. -/
theorem stmt?_updateStmt (s t : StmtId) (f : Stmt → Stmt) :
    (p.updateStmt s f).stmt? t = if t = s then (p.stmt? t).map f else p.stmt? t := by
  simp only [stmt?, updateStmt, Array.getElem?_modify, StmtId.index_inj]
  by_cases h : t = s
  · simp [h]
  · rw [if_neg h, if_neg (Ne.symm h)]

/-- A change to an expression is seen there and nowhere else. -/
theorem expr?_updateExpr (e t : ExprId) (f : Expr → Expr) :
    (p.updateExpr e f).expr? t = if t = e then (p.expr? t).map f else p.expr? t := by
  simp only [expr?, updateExpr, Array.getElem?_modify, ExprId.index_inj]
  by_cases h : t = e
  · simp [h]
  · rw [if_neg h, if_neg (Ne.symm h)]

/-- A change to a symbol makes no node. -/
theorem sameSize_updateSymbol (s : SymbolId) (f : Symbol → Symbol) :
    SameSize p (p.updateSymbol s f) :=
  ⟨rfl, by simp [updateSymbol], rfl, rfl⟩

/-- A change to a statement makes no node. -/
theorem sameSize_updateStmt (s : StmtId) (f : Stmt → Stmt) : SameSize p (p.updateStmt s f) :=
  ⟨rfl, rfl, by simp [updateStmt], rfl⟩

theorem sameSize_updateExpr (e : ExprId) (f : Expr → Expr) : SameSize p (p.updateExpr e f) :=
  ⟨rfl, rfl, rfl, by simp [updateExpr]⟩

/-- A change to a symbol puts a cell and back-references there. -/
theorem put_updateSymbol {s : SymbolId} {x : Symbol} (hx : p.symbol? s = some x)
    (f : Symbol → Symbol) :
    Put p (p.updateSymbol s f) (.symbol s) (Node.symbol (f x)).cell (Node.symbol (f x)).backs := by
  refine put_of_node fun m => ?_
  cases m with
  | symbol t =>
    simp only [node?, symbol?_updateSymbol, NodeId.symbol.injEq]
    by_cases h : t = s <;> simp [h, hx]
  | _ => rfl

/-- A change to a statement puts a cell and back-references there. -/
theorem put_updateStmt {s : StmtId} {x : Stmt} (hx : p.stmt? s = some x) (f : Stmt → Stmt) :
    Put p (p.updateStmt s f) (.stmt s) (Node.stmt (f x)).cell (Node.stmt (f x)).backs := by
  refine put_of_node fun m => ?_
  cases m with
  | stmt t =>
    simp only [node?, stmt?_updateStmt, NodeId.stmt.injEq]
    by_cases h : t = s <;> simp [h, hx]
  | _ => rfl

/-- A change to an expression puts a cell and back-references there. -/
theorem put_updateExpr {e : ExprId} {x : Expr} (hx : p.expr? e = some x) (f : Expr → Expr) :
    Put p (p.updateExpr e f) (.expr e) (Node.expr (f x)).cell (Node.expr (f x)).backs := by
  refine put_of_node fun m => ?_
  cases m with
  | expr t =>
    simp only [node?, expr?_updateExpr, NodeId.expr.injEq]
    by_cases h : t = e <;> simp [h, hx]
  | _ => rfl

end

/-! ## Recording back-references -/

section

variable {p : Program} {c : Cell}

/-- Where a symbol is declared is no part of its cell. -/
theorem put_scope {s : SymbolId} (hc : p.cell? (.symbol s) = some c) (scope : Option Scope) :
    Put p (p.updateSymbol s fun symbol => { symbol with scope }) (.symbol s) c (.scope scope) := by
  obtain ⟨x, hx, rfl⟩ := cell?_symbol hc
  exact put_updateSymbol hx _

/-- What encloses a statement is no part of its cell. -/
theorem put_stmtParents {s : StmtId} (hc : p.cell? (.stmt s) = some c) (stmt : Option StmtId)
    (symbol : Option SymbolId) :
    Put p (p.updateStmt s fun x => { x with parentStmt := stmt, parentSymbol := symbol })
      (.stmt s) c (.parents stmt symbol) := by
  obtain ⟨x, hx, rfl⟩ := cell?_stmt hc
  exact put_updateStmt hx _

/-- What encloses an expression is no part of its cell. -/
theorem put_exprParents {e : ExprId} (hc : p.cell? (.expr e) = some c) (stmt : Option StmtId)
    (symbol : Option SymbolId) :
    Put p (p.updateExpr e fun x => { x with parentStmt := stmt, parentSymbol := symbol })
      (.expr e) c (.parents stmt symbol) := by
  obtain ⟨x, hx, rfl⟩ := cell?_expr hc
  exact put_updateExpr hx _

end

/-! ## Changing what a node owns -/

section

variable {p : Program} {c : Cell} {b : Backs}

/-- Another operand is put in its place, and nothing else changes. -/
theorem ExprKind.withOperand?_eq {k : ExprKind} {i : Nat} (hi : i < k.operands.length)
    (e : ExprId) :
    ∃ k', k.withOperand? i e = some k' ∧ k'.head = k.head ∧ k'.operands = k.operands.set i e := by
  cases k with
  | call callee args =>
    cases i with
    | zero => exact ⟨_, rfl, rfl, rfl⟩
    | succ i =>
      have hi : i < args.length := by simpa [ExprKind.operands] using hi
      exact ⟨.call callee (args.set i e), by simp [ExprKind.withOperand?, hi], rfl, rfl⟩
  | binary op lhs rhs =>
    rcases i with _ | _ | i
    · exact ⟨_, rfl, rfl, rfl⟩
    · exact ⟨_, rfl, rfl, rfl⟩
    · simp only [ExprKind.operands, List.length_cons, List.length_nil] at hi
      omega
  | assign target value =>
    rcases i with _ | _ | i
    · exact ⟨_, rfl, rfl, rfl⟩
    · exact ⟨_, rfl, rfl, rfl⟩
    · simp only [ExprKind.operands, List.length_cons, List.length_nil] at hi
      omega
  | paren inner =>
    cases i with
    | zero => exact ⟨_, rfl, rfl, rfl⟩
    | succ i => simp [ExprKind.operands] at hi
  | _ => simp [ExprKind.operands] at hi

/-- Another operand is put in its place, and nothing else changes. -/
theorem StmtKind.withOperand?_eq {k : StmtKind} {i : Nat} (hi : i < k.operands.length)
    (e : ExprId) :
    ∃ k', k.withOperand? i e = some k' ∧ k'.head = k.head ∧ k'.operands = k.operands.set i e ∧
      k'.declared? = k.declared? ∧ k'.held = k.held := by
  cases k with
  | block _ => simp [StmtKind.operands] at hi
  | nop => simp [StmtKind.operands] at hi
  | decl sym init =>
    cases init with
    | none => simp [StmtKind.operands] at hi
    | some init =>
      obtain rfl : i = 0 := by simpa [StmtKind.operands] using hi
      exact ⟨_, rfl, rfl, rfl, rfl, rfl⟩
  | ret value =>
    cases value with
    | none => simp [StmtKind.operands] at hi
    | some value =>
      obtain rfl : i = 0 := by simpa [StmtKind.operands] using hi
      exact ⟨_, rfl, rfl, rfl, rfl, rfl⟩
  | _ =>
    obtain rfl : i = 0 := by simpa [StmtKind.operands] using hi
    exact ⟨_, rfl, rfl, rfl, rfl, rfl⟩

/-- An operand is overwritten. -/
theorem put_setExprAt? {owner : ExprOwner} {i : Nat} (hc : p.cell? owner.node = some c)
    (hb : p.backs? owner.node = some b) (hi : i < c.exprs.length) (e : ExprId) :
    ∃ q, p.setExprAt? ⟨owner, i⟩ e = some q ∧ SameSize p q ∧
      Put p q owner.node { c with exprs := c.exprs.set i (.expr e) } b := by
  cases owner with
  | stmt s =>
    obtain ⟨x, hx, rfl⟩ := cell?_stmt hc
    obtain rfl := Option.some.inj (hb.symm.trans (backs?_of_node? (node?_stmt hx)))
    simp only [Node.cell, List.length_map] at hi
    obtain ⟨k, hk, hhead, hops, hdecl, hheld⟩ := StmtKind.withOperand?_eq hi e
    refine ⟨p.updateStmt s ({ · with kind := k }), by simp [setExprAt?, hx, hk],
      sameSize_updateStmt _ _, ?_⟩
    have hput := put_updateStmt hx ({ · with kind := k })
    simpa [Node.cell, Node.backs, hhead, hops, hdecl, hheld, List.map_set, ExprOwner.node]
      using hput
  | expr s =>
    obtain ⟨x, hx, rfl⟩ := cell?_expr hc
    obtain rfl := Option.some.inj (hb.symm.trans (backs?_of_node? (node?_expr hx)))
    simp only [Node.cell, List.length_map] at hi
    obtain ⟨k, hk, hhead, hops⟩ := ExprKind.withOperand?_eq hi e
    refine ⟨p.updateExpr s ({ · with kind := k }), by simp [setExprAt?, hx, hk],
      sameSize_updateExpr _ _, ?_⟩
    have hput := put_updateExpr hx ({ · with kind := k })
    simpa [Node.cell, Node.backs, hhead, hops, List.map_set, ExprOwner.node] using hput

/-- Writing a list makes no node. -/
theorem sameSize_putStmtList (list : StmtList) (entries : List StmtId) :
    SameSize p (p.putStmtList list entries) := by
  cases list with
  | body s => exact sameSize_updateSymbol _ _
  | block b => exact sameSize_updateStmt _ _

/-- A list gets other entries. -/
theorem put_putStmtList {list : StmtList} {old : List StmtId} (hc : p.cell? list.node = some c)
    (hb : p.backs? list.node = some b) (hold : p.stmtList? list = some old)
    (entries : List StmtId) :
    Put p (p.putStmtList list entries) list.node { c with stmts := entries.map .stmt } b := by
  cases list with
  | body s =>
    obtain ⟨x, hx, rfl⟩ := cell?_symbol hc
    obtain rfl := Option.some.inj (hb.symm.trans (backs?_of_node? (node?_symbol hx)))
    have hput := put_updateSymbol hx fun x => { x with kind := x.kind.withBody entries }
    obtain ⟨name, line, k, scope, removed⟩ := x
    cases k with
    | func params ret body => exact hput
    | _ => simp [stmtList?, hx, SymbolKind.body?] at hold
  | block t =>
    obtain ⟨x, hx, rfl⟩ := cell?_stmt hc
    obtain rfl := Option.some.inj (hb.symm.trans (backs?_of_node? (node?_stmt hx)))
    have hput := put_updateStmt hx fun x => { x with kind := x.kind.withEntries entries }
    obtain ⟨k, line, stmt, symbol⟩ := x
    cases k with
    | block stmts => exact hput
    | _ => simp [stmtList?, hx, StmtKind.entries?] at hold

/-- A list with an entry is one. -/
theorem stmtList?_of_mem {list : StmtList} {s : StmtId} (hs : s ∈ p.stmtsIn list) :
    p.stmtList? list = some (p.stmtsIn list) := by
  cases h : p.stmtList? list with
  | none => simp [stmtsIn, h] at hs
  | some entries => simp [stmtsIn, h]

/-- An entry is taken out of its list. -/
theorem put_removeStmt? {list : StmtList} {s : StmtId} (hc : p.cell? list.node = some c)
    (hb : p.backs? list.node = some b) (hs : s ∈ p.stmtsIn list) :
    ∃ q, p.removeStmt? list s = some q ∧ SameSize p q ∧ Put p q list.node
      { c with stmts := ((p.stmtsIn list).filter (· ≠ s)).map .stmt } b := by
  have hl := stmtList?_of_mem hs
  exact ⟨_, by simp [removeStmt?, hl, hs], sameSize_putStmtList _ _, put_putStmtList hc hb hl _⟩

/-- A statement is listed before the first entry that is the anchor. -/
theorem insertedBefore?_append {anchor new : StmtId} {front : List StmtId} (h : anchor ∉ front)
    (back : List StmtId) :
    insertedBefore? anchor new (front ++ anchor :: back) =
      some (front ++ new :: anchor :: back) := by
  induction front with
  | nil => simp [insertedBefore?]
  | cons s front ih =>
    have hs : s ≠ anchor := fun he => h (he ▸ List.mem_cons_self)
    simp [insertedBefore?, hs, ih fun hf => h (List.mem_cons_of_mem s hf)]

/-- A statement is put right before an entry of a list. -/
theorem put_insertBefore? {list : StmtList} {s d : StmtId} {front back : List StmtId}
    (hc : p.cell? list.node = some c) (hb : p.backs? list.node = some b)
    (hl : p.stmtsIn list = front ++ s :: back) (hs : s ∉ front) :
    ∃ q, p.insertBefore? list s d = some q ∧ SameSize p q ∧ Put p q list.node
      { c with stmts := (front ++ d :: s :: back).map .stmt } b := by
  have hold : p.stmtList? list = some (front ++ s :: back) :=
    hl ▸ stmtList?_of_mem (s := s) (by simp [hl])
  refine ⟨_, ?_, sameSize_putStmtList _ _, put_putStmtList hc hb hold _⟩
  simp [insertBefore?, hold, insertedBefore?_append hs]

/-- A branch is overwritten. -/
theorem put_setBranch? {s t : StmtId} {head : StmtHead} {line : UInt32} {which : Branch}
    (hc : p.cell? (.stmt s) = some c) (hb : p.backs? (.stmt s) = some b)
    (hl : c.label = .stmt head line) (hw : which ∈ head.branches)
    (ht : p.stmtAt? (.branch s which) = some t) (new : StmtId) :
    ∃ q, p.setStmtAt? (.branch s which) new = some q ∧ SameSize p q ∧
      Put p q (.stmt s) { c with stmts := c.stmts.set which.index (.stmt new) } b := by
  obtain ⟨x, hx, rfl⟩ := cell?_stmt hc
  obtain rfl := Option.some.inj (hb.symm.trans (backs?_of_node? (node?_stmt hx)))
  obtain ⟨k, line', stmt, symbol⟩ := x
  simp only [Node.cell, Label.stmt.injEq] at hl
  obtain ⟨rfl, rfl⟩ := hl
  simp only [stmtAt?, hx, Option.bind_some] at ht
  cases k <;> simp only [StmtKind.head, StmtHead.branches, List.mem_cons, List.not_mem_nil,
    or_false] at hw
  · rcases hw with rfl | rfl
    · exact ⟨_, by simp [setStmtAt?, hx, StmtKind.withBranch?]; rfl, sameSize_updateStmt _ _,
        put_updateStmt hx _⟩
    · simp only [StmtKind.branch?] at ht
      subst ht
      exact ⟨_, by simp [setStmtAt?, hx, StmtKind.withBranch?]; rfl, sameSize_updateStmt _ _,
        put_updateStmt hx _⟩
  · subst hw
    exact ⟨_, by simp [setStmtAt?, hx, StmtKind.withBranch?]; rfl, sameSize_updateStmt _ _,
      put_updateStmt hx _⟩

end

/-! ## New nodes -/

section

variable {p : Program}

theorem index_eq_size_symbols {s : SymbolId} (h : p.symbols.size < UInt32.size) :
    s.index = p.symbols.size ↔ s = .ofIndex p.symbols.size := by
  rw [← SymbolId.index_inj, SymbolId.index_ofIndex h]

/-- A statement behind the last one has the next id. -/
theorem index_eq_size_stmts {s : StmtId} (h : p.stmts.size < UInt32.size) :
    s.index = p.stmts.size ↔ s = .ofIndex p.stmts.size := by
  rw [← StmtId.index_inj, StmtId.index_ofIndex h]

theorem index_eq_size_exprs {e : ExprId} (h : p.exprs.size < UInt32.size) :
    e.index = p.exprs.size ↔ e = .ofIndex p.exprs.size := by
  rw [← ExprId.index_inj, ExprId.index_ofIndex h]

/-- A new symbol gets the next id, and nothing around it. -/
theorem put_addSymbol (h : p.symbols.size < UInt32.size) (name : String) (kind : SymbolKind)
    (line : UInt32) :
    Put p (p.addSymbol name kind line).2 (.symbol (p.addSymbol name kind line).1)
      (Node.symbol (.new name kind line)).cell (.scope none) := by
  refine put_of_node (x := .symbol (.new name kind line)) fun m => ?_
  cases m with
  | symbol s =>
    simp only [node?, symbol?, addSymbol, Array.getElem?_push, index_eq_size_symbols h,
      NodeId.symbol.injEq]
    split <;> rfl
  | _ => rfl

/-- A new statement gets the next id, and nothing around it. -/
theorem put_addStmt (h : p.stmts.size < UInt32.size) (kind : StmtKind) (line : UInt32) :
    Put p (p.addStmt kind line).2 (.stmt (p.addStmt kind line).1)
      (Node.stmt (.new kind line)).cell (.parents none none) := by
  refine put_of_node (x := .stmt (.new kind line)) fun m => ?_
  cases m with
  | stmt s =>
    simp only [node?, stmt?, addStmt, Array.getElem?_push, index_eq_size_stmts h,
      NodeId.stmt.injEq]
    split <;> rfl
  | _ => rfl

/-- A new expression gets the next id, and nothing around it. -/
theorem put_addExpr (h : p.exprs.size < UInt32.size) (kind : ExprKind) (line : UInt32) :
    Put p (p.addExpr kind line).2 (.expr (p.addExpr kind line).1)
      (Node.expr (.new kind line)).cell (.parents none none) := by
  refine put_of_node (x := .expr (.new kind line)) fun m => ?_
  cases m with
  | expr e =>
    simp only [node?, expr?, addExpr, Array.getElem?_push, index_eq_size_exprs h,
      NodeId.expr.injEq]
    split <;> rfl
  | _ => rfl

/-- A symbol added to a program was not there before. -/
theorem has_addSymbol (h : p.symbols.size < UInt32.size) :
    p.has (.symbol (.ofIndex p.symbols.size)) = false := by
  simp [Program.has, symbol?, SymbolId.index_ofIndex h]

/-- The next statement was not there before. -/
theorem has_addStmt (h : p.stmts.size < UInt32.size) :
    p.has (.stmt (.ofIndex p.stmts.size)) = false := by
  simp [Program.has, stmt?, StmtId.index_ofIndex h]

theorem has_addExpr (h : p.exprs.size < UInt32.size) :
    p.has (.expr (.ofIndex p.exprs.size)) = false := by
  simp [Program.has, expr?, ExprId.index_ofIndex h]

end

end MiddleEnd.Program
