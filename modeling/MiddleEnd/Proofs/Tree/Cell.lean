import MiddleEnd.Tree.Edit
import MiddleEnd.Verify.Declared

/-!
# MiddleEnd.Proofs.Tree.Cell

Two views of a node, whatever its category, that together are the whole node:

* its `Cell` — what it says by itself (a `Label`) and which nodes it owns, by category.  A node
  owns expressions, symbols and statements, and a walk meets them in that order;
* its `Backs` — what it records of its surroundings.

A change to a program concerns one view of one node.  `Recast` is a change of the cell, `Marked`
one of the back-references and `Added` a new node; each edit of `MiddleEnd.Tree.Edit` that the
passes use is shown to be one of them, so that no proof after this module opens an arena.
-/

namespace MiddleEnd

/-! ## Heads -/

/-- What an expression says without its operands. -/
inductive ExprHead where
  | int (value : Int64)
  | bool (value : Bool)
  | str (value : String)
  | symRef (sym : SymbolId)
  | call
  | binary (op : BinOp)
  | assign
  | paren
deriving DecidableEq, Repr

/-- What a statement says without what it owns. -/
inductive StmtHead where
  | expr | decl | block | ifElse | whileDo | ret | nop
deriving DecidableEq, Repr

/-- What a declaration says without what it owns. -/
inductive SymbolHead where
  | var (ty : Option String)
  | param (ty : Option String)
  | func (ret : Option String)
  | type
deriving DecidableEq, Repr

def ExprKind.head : ExprKind → ExprHead
  | .int value => .int value
  | .bool value => .bool value
  | .str value => .str value
  | .symRef sym => .symRef sym
  | .call _ _ => .call
  | .binary op _ _ => .binary op
  | .assign _ _ => .assign
  | .paren _ => .paren

def StmtKind.head : StmtKind → StmtHead
  | .expr _ => .expr
  | .decl _ _ => .decl
  | .block _ => .block
  | .ifElse _ _ _ => .ifElse
  | .whileDo _ _ => .whileDo
  | .ret _ => .ret
  | .nop => .nop

/-- The statements that a statement holds: the entries of a block, the branches of an `if`, the
body of a loop. -/
def StmtKind.held : StmtKind → List StmtId
  | .block stmts => stmts
  | .ifElse _ t f => t :: f.toList
  | .whileDo _ body => [body]
  | _ => []

def SymbolKind.head : SymbolKind → SymbolHead
  | .var ty => .var ty
  | .param ty => .param ty
  | .func _ ret _ => .func ret
  | .type _ => .type

/-! ## Cells and back-references -/

/-- What a node says by itself. -/
inductive Label where
  | module (name file : String) (source : Option String)
  | symbol (name : String) (line : UInt32) (removed : Bool) (head : SymbolHead)
  | stmt (head : StmtHead) (line : UInt32)
  | expr (head : ExprHead) (line : UInt32)
deriving DecidableEq, Repr

/-- What a node says by itself, and the nodes it owns, by category. -/
structure Cell where
  label : Label
  exprs : List NodeId
  symbols : List NodeId
  stmts : List NodeId
deriving DecidableEq, Repr

/-- What a node records of its surroundings. -/
inductive Backs where
  | none
  | scope (scope : Option Scope)
  | parents (stmt : Option StmtId) (symbol : Option SymbolId)
deriving DecidableEq, Repr

/-- A node of any category. -/
inductive Node where
  | module (m : Module)
  | symbol (s : Symbol)
  | stmt (s : Stmt)
  | expr (e : Expr)
deriving DecidableEq, Repr

namespace Node

def cell : Node → Cell
  | .module m => ⟨.module m.name m.file m.source, [], m.symbols.map .symbol, []⟩
  | .symbol s => ⟨.symbol s.name s.line s.removed s.kind.head, [],
      (s.kind.nested?.getD []).map .symbol, (s.kind.body?.getD []).map .stmt⟩
  | .stmt s => ⟨.stmt s.kind.head s.line, s.kind.operands.map .expr,
      s.kind.declared?.toList.map .symbol, s.kind.held.map .stmt⟩
  | .expr e => ⟨.expr e.kind.head e.line, e.kind.operands.map .expr, [], []⟩

def backs : Node → Backs
  | .module _ => .none
  | .symbol s => .scope s.scope
  | .stmt s => .parents s.parentStmt s.parentSymbol
  | .expr e => .parents e.parentStmt e.parentSymbol

end Node

theorem map_symbol_inj {xs ys : List SymbolId} :
    xs.map NodeId.symbol = ys.map NodeId.symbol ↔ xs = ys :=
  List.map_inj_right fun _ _ h => NodeId.symbol.inj h

theorem map_stmt_inj {xs ys : List StmtId} :
    xs.map NodeId.stmt = ys.map NodeId.stmt ↔ xs = ys :=
  List.map_inj_right fun _ _ h => NodeId.stmt.inj h

theorem map_expr_inj {xs ys : List ExprId} :
    xs.map NodeId.expr = ys.map NodeId.expr ↔ xs = ys :=
  List.map_inj_right fun _ _ h => NodeId.expr.inj h

/-- A statement is taken out of a list of nodes as out of a list of statements. -/
theorem map_stmt_filter (s : StmtId) (xs : List StmtId) :
    (xs.filter (· ≠ s)).map NodeId.stmt = (xs.map NodeId.stmt).filter (· ≠ .stmt s) := by
  rw [List.filter_map]
  congr 1
  exact List.filter_congr fun x _ => by simp

/-- Taking an entry out that stands in a list once. -/
theorem filter_ne_append_cons {α : Type} [DecidableEq α] {x : α} {front back : List α}
    (hfront : x ∉ front) (hback : x ∉ back) :
    (front ++ x :: back).filter (· ≠ x) = front ++ back := by
  have hall : ∀ y ∈ front ++ back, y ≠ x := by
    rintro y hy rfl
    exact (List.mem_append.mp hy).elim hfront hback
  rw [List.filter_append, List.filter_cons_of_neg (by simp), ← List.filter_append,
    List.filter_eq_self.mpr fun y hy => decide_eq_true (hall y hy)]

namespace Node

private theorem toList_injective {α : Type} {a b : Option α} (h : a.toList = b.toList) : a = b := by
  cases a <;> cases b <;> simp_all

/-- A node is its cell and its back-references. -/
theorem ext_views {x y : Node} (hc : x.cell = y.cell) (hb : x.backs = y.backs) : x = y := by
  cases x with
  | module m =>
    cases y with
    | module m' =>
      obtain ⟨_, _, _, _⟩ := m; obtain ⟨_, _, _, _⟩ := m'
      simp_all [cell, map_symbol_inj]
    | _ => simp [cell] at hc
  | symbol s =>
    cases y with
    | symbol s' =>
      obtain ⟨_, _, k, _, _⟩ := s; obtain ⟨_, _, k', _, _⟩ := s'
      simp only [cell, Cell.mk.injEq, map_symbol_inj, map_stmt_inj] at hc
      cases k <;> cases k' <;>
        simp_all [backs, SymbolKind.head, SymbolKind.nested?, SymbolKind.body?]
    | _ => simp [cell] at hc
  | stmt s =>
    cases y with
    | stmt s' =>
      obtain ⟨k, _, _, _⟩ := s; obtain ⟨k', _, _, _⟩ := s'
      simp only [cell, Cell.mk.injEq, map_symbol_inj, map_stmt_inj, map_expr_inj] at hc
      cases k <;> cases k' <;>
        simp_all [backs, StmtKind.head, StmtKind.operands, StmtKind.declared?, StmtKind.held] <;>
        exact toList_injective (by simp_all)
    | _ => simp [cell] at hc
  | expr e =>
    cases y with
    | expr e' =>
      obtain ⟨k, _, _, _⟩ := e; obtain ⟨k', _, _, _⟩ := e'
      simp only [cell, Cell.mk.injEq, map_expr_inj] at hc
      cases k <;> cases k' <;> simp_all [backs, ExprKind.head, ExprKind.operands]
    | _ => simp [cell] at hc

end Node

/-! ## The views of a program -/

namespace Program

/-- The node with an id. -/
def node? (p : Program) : NodeId → Option Node
  | .module m => (p.module? m).map .module
  | .symbol s => (p.symbol? s).map .symbol
  | .stmt s => (p.stmt? s).map .stmt
  | .expr e => (p.expr? e).map .expr

/-- What a node says and owns. -/
def cell? (p : Program) (n : NodeId) : Option Cell := (p.node? n).map Node.cell

/-- What a node records of its surroundings. -/
def backs? (p : Program) (n : NodeId) : Option Backs := (p.node? n).map Node.backs

/-- A symbol is a node. -/
theorem node?_symbol {p : Program} {s : SymbolId} {x : Symbol} (hx : p.symbol? s = some x) :
    p.node? (.symbol s) = some (.symbol x) := congrArg (Option.map Node.symbol) hx

/-- A statement is a node. -/
theorem node?_stmt {p : Program} {s : StmtId} {x : Stmt} (hx : p.stmt? s = some x) :
    p.node? (.stmt s) = some (.stmt x) := congrArg (Option.map Node.stmt) hx

/-- An expression is a node. -/
theorem node?_expr {p : Program} {e : ExprId} {x : Expr} (hx : p.expr? e = some x) :
    p.node? (.expr e) = some (.expr x) := congrArg (Option.map Node.expr) hx

/-- A node that is there has a cell. -/
theorem cell?_of_node? {p : Program} {n : NodeId} {x : Node} (hx : p.node? n = some x) :
    p.cell? n = some x.cell := congrArg (Option.map Node.cell) hx

/-- A node that is there has back-references. -/
theorem backs?_of_node? {p : Program} {n : NodeId} {x : Node} (hx : p.node? n = some x) :
    p.backs? n = some x.backs := congrArg (Option.map Node.backs) hx

/-- A node is there if its arena reaches it. -/
theorem has_eq (p : Program) (n : NodeId) : p.has n = (p.node? n).isSome := by
  cases n <;> simp [has, node?]

/-- A node is there if it has a cell. -/
theorem has_eq_cell? (p : Program) (n : NodeId) : p.has n = (p.cell? n).isSome := by
  simp [has_eq, cell?]

/-- What has a cell is there. -/
theorem has_of_cell? {p : Program} {n : NodeId} {c : Cell} (h : p.cell? n = some c) :
    p.has n = true := by
  rw [has_eq_cell?, h]
  rfl

/-- A node that exists differs from one that does not. -/
theorem ne_of_has {p : Program} {n m : NodeId} (hn : p.has n = true) (hm : p.has m = false) :
    n ≠ m := by
  rintro rfl
  rw [hn] at hm
  cases hm

/-- A node with a cell is none that is missing. -/
theorem ne_of_cell? {p : Program} {n m : NodeId} {c : Cell} (hn : p.cell? n = some c)
    (hm : p.has m = false) : n ≠ m :=
  ne_of_has (has_of_cell? hn) hm

theorem exists_cell? {p : Program} {n : NodeId} (h : p.has n = true) : ∃ c, p.cell? n = some c :=
  Option.isSome_iff_exists.mp (p.has_eq_cell? n ▸ h)

/-- What has a cell has back-references. -/
theorem backs?_of_cell? {p : Program} {n : NodeId} {c : Cell} (h : p.cell? n = some c) :
    ∃ b, p.backs? n = some b := by
  obtain ⟨x, hx, _⟩ := Option.map_eq_some_iff.mp h
  exact ⟨x.backs, backs?_of_node? hx⟩

/-- A program agrees with another at a node where both views agree. -/
theorem node?_eq_of_views {p q : Program} {n : NodeId} (hc : p.cell? n = q.cell? n)
    (hb : p.backs? n = q.backs? n) : p.node? n = q.node? n := by
  simp only [cell?, backs?] at hc hb
  match hp : p.node? n, hq : q.node? n with
  | none, none => rfl
  | none, some y => simp [hp, hq] at hc
  | some x, none => simp [hp, hq] at hc
  | some x, some y =>
    rw [hp, hq] at hc hb
    exact congrArg some (Node.ext_views (Option.some.inj hc) (Option.some.inj hb))

/-- No arena has more nodes than there are ids. -/
structure Addressable (p : Program) : Prop where
  symbols : p.symbols.size ≤ UInt32.size
  stmts : p.stmts.size ≤ UInt32.size
  exprs : p.exprs.size ≤ UInt32.size

instance (p : Program) : Decidable p.Addressable :=
  decidable_of_iff (p.symbols.size ≤ UInt32.size ∧ p.stmts.size ≤ UInt32.size ∧
    p.exprs.size ≤ UInt32.size)
    ⟨fun ⟨hs, ht, he⟩ => ⟨hs, ht, he⟩, fun ⟨hs, ht, he⟩ => ⟨hs, ht, he⟩⟩

/-- Two programs have arenas of the same sizes. -/
structure SameSize (p q : Program) : Prop where
  modules : q.modules = p.modules
  symbols : q.symbols.size = p.symbols.size
  stmts : q.stmts.size = p.stmts.size
  exprs : q.exprs.size = p.exprs.size

theorem SameSize.refl (p : Program) : SameSize p p := ⟨rfl, rfl, rfl, rfl⟩

end Program

/-! ## Ids and positions -/

/-- The position of a symbol is read back from its id, if it has one. -/
theorem SymbolId.index_ofIndex {n : Nat} (h : n < UInt32.size) : (ofIndex n).index = n :=
  Nat.mod_eq_of_lt h

/-- The position of a statement is read back from its id, if it has one. -/
theorem StmtId.index_ofIndex {n : Nat} (h : n < UInt32.size) : (ofIndex n).index = n :=
  Nat.mod_eq_of_lt h

theorem ExprId.index_ofIndex {n : Nat} (h : n < UInt32.size) : (ofIndex n).index = n :=
  Nat.mod_eq_of_lt h

/-! ## Holders -/

/-- The node whose operands they are. -/
def ExprOwner.node : ExprOwner → NodeId
  | .stmt s => .stmt s
  | .expr e => .expr e

/-- The node that owns the symbols of a list. -/
def SymbolList.node : SymbolList → NodeId
  | .module m => .module m
  | .symbol s => .symbol s

/-- The node that owns the statements of a list. -/
def StmtList.node : StmtList → NodeId
  | .body s => .symbol s
  | .block b => .stmt b

/-- The node that a statement held in the place belongs to. -/
def StmtPlace.holder : StmtPlace → NodeId
  | .entry list _ => list.node
  | .branch s _ => .stmt s

/-- Whether what owns the statements under a label owns them as a list. -/
def StmtList.Fits : StmtList → Label → Prop
  | .body _, .symbol _ _ _ _ => True
  | .block _, .stmt .block _ => True
  | _, _ => False

/-- The positions that a statement has for single other statements. -/
def StmtHead.branches : StmtHead → List Branch
  | .ifElse => [.thenBranch, .elseBranch]
  | .whileDo => [.loopBody]
  | _ => []

/-- The position of a branch among the statements that its owner holds. -/
def Branch.index : Branch → Nat
  | .thenBranch | .loopBody => 0
  | .elseBranch => 1

/-- The branches of a statement are numbered as they are listed. -/
theorem StmtHead.index_branches (head : StmtHead) :
    head.branches.map Branch.index = List.range' 0 head.branches.length := by
  cases head <;> rfl

/-! ## Questions about a program, answered from a cell -/

namespace Program

/-- The symbols in a list; none where there is no list. -/
def symbolsIn (p : Program) (list : SymbolList) : List SymbolId := (p.symbolList? list).getD []

/-- The statements in a list; none where there is no list. -/
def stmtsIn (p : Program) (list : StmtList) : List StmtId := (p.stmtList? list).getD []

/-- What a list holds depends on the owner of the list only. -/
theorem stmtsIn_congr {p q : Program} {list : StmtList}
    (h : q.node? list.node = p.node? list.node) : q.stmtsIn list = p.stmtsIn list := by
  cases list with
  | body s =>
    have hsymbol : q.symbol? s = p.symbol? s :=
      Option.map_injective (fun _ _ he => Node.symbol.inj he) h
    rw [stmtsIn, stmtsIn, stmtList?, stmtList?, hsymbol]
  | block b =>
    have hstmt : q.stmt? b = p.stmt? b :=
      Option.map_injective (fun _ _ he => Node.stmt.inj he) h
    rw [stmtsIn, stmtsIn, stmtList?, stmtList?, hstmt]

/-- What stands in a branch depends on the owner of the branch only. -/
theorem stmtAt?_branch_congr {p q : Program} {s : StmtId}
    (h : q.node? (.stmt s) = p.node? (.stmt s)) (which : Branch) :
    q.stmtAt? (.branch s which) = p.stmtAt? (.branch s which) := by
  have hstmt : q.stmt? s = p.stmt? s :=
    Option.map_injective (fun _ _ he => Node.stmt.inj he) h
  rw [stmtAt?, stmtAt?, hstmt]

variable {p : Program} {c : Cell}

/-- A question that has no answer for the empty list may be asked where there is no list. -/
theorem symbolList?_bind {α : Type} (list : SymbolList) {f : List SymbolId → Option α}
    (hf : f [] = none) : (p.symbolList? list).bind f = f (p.symbolsIn list) := by
  rw [symbolsIn]
  cases p.symbolList? list with
  | none => exact hf.symm
  | some xs => rfl

/-- To do nothing where there is no list is to take it for an empty one. -/
theorem stmtList?_bind {α : Type} (list : StmtList) {f : List StmtId → Option α}
    (hf : f [] = none) : (p.stmtList? list).bind f = f (p.stmtsIn list) := by
  rw [stmtsIn]
  cases p.stmtList? list with
  | none => exact hf.symm
  | some xs => rfl

/-- The entry at a position is that of the list. -/
theorem stmtAt?_entry (list : StmtList) (i : Nat) :
    p.stmtAt? (.entry list i) = (p.stmtsIn list)[i]? :=
  stmtList?_bind list rfl

/-- Only a statement has the cell of one. -/
theorem cell?_stmt {s : StmtId} (h : p.cell? (.stmt s) = some c) :
    ∃ x, p.stmt? s = some x ∧ c = (Node.stmt x).cell := by
  simp only [cell?, node?, Option.map_map, Option.map_eq_some_iff] at h
  obtain ⟨x, hx, rfl⟩ := h
  exact ⟨x, hx, rfl⟩

/-- A statement by what it says. -/
theorem stmt?_of_cell? {s : StmtId} {head : StmtHead} {line : UInt32}
    (h : p.cell? (.stmt s) = some c) (hl : c.label = .stmt head line) :
    ∃ x, p.stmt? s = some x ∧ c = (Node.stmt x).cell ∧ head = x.kind.head := by
  obtain ⟨x, hx, rfl⟩ := cell?_stmt h
  simp only [Node.cell, Label.stmt.injEq] at hl
  exact ⟨x, hx, rfl, hl.1.symm⟩

/-- Only a symbol has the cell of one. -/
theorem cell?_symbol {s : SymbolId} (h : p.cell? (.symbol s) = some c) :
    ∃ x, p.symbol? s = some x ∧ c = (Node.symbol x).cell := by
  simp only [cell?, node?, Option.map_map, Option.map_eq_some_iff] at h
  obtain ⟨x, hx, rfl⟩ := h
  exact ⟨x, hx, rfl⟩

/-- Only an expression has the cell of one. -/
theorem cell?_expr {e : ExprId} (h : p.cell? (.expr e) = some c) :
    ∃ x, p.expr? e = some x ∧ c = (Node.expr x).cell := by
  simp only [cell?, node?, Option.map_map, Option.map_eq_some_iff] at h
  obtain ⟨x, hx, rfl⟩ := h
  exact ⟨x, hx, rfl⟩

/-- Only a module has the cell of one. -/
theorem cell?_module {m : ModuleId} (h : p.cell? (.module m) = some c) :
    ∃ x, p.module? m = some x ∧ c = (Node.module x).cell := by
  simp only [cell?, node?, Option.map_map, Option.map_eq_some_iff] at h
  obtain ⟨x, hx, rfl⟩ := h
  exact ⟨x, hx, rfl⟩

/-- A statement is labelled as a statement. -/
theorem exists_stmt_label {s : StmtId} (h : p.cell? (.stmt s) = some c) :
    ∃ head line, c.label = .stmt head line := by
  obtain ⟨x, _, rfl⟩ := cell?_stmt h
  exact ⟨_, _, rfl⟩

/-- The label of a node tells its category. -/
theorem category_of_label {n : NodeId} (h : p.cell? n = some c) : match c.label with
    | .module _ _ _ => ∃ m, n = .module m
    | .symbol _ _ _ _ => ∃ s, n = .symbol s
    | .stmt _ _ => ∃ s, n = .stmt s
    | .expr _ _ => ∃ e, n = .expr e := by
  cases n with
  | module m => obtain ⟨x, _, rfl⟩ := cell?_module h; exact ⟨m, rfl⟩
  | symbol s => obtain ⟨x, _, rfl⟩ := cell?_symbol h; exact ⟨s, rfl⟩
  | stmt s => obtain ⟨x, _, rfl⟩ := cell?_stmt h; exact ⟨s, rfl⟩
  | expr e => obtain ⟨x, _, rfl⟩ := cell?_expr h; exact ⟨e, rfl⟩

/-- The expressions of a cell are the operands. -/
theorem exprs_of_cell? (owner : ExprOwner) (h : p.cell? owner.node = some c) :
    c.exprs = (p.operands owner).map .expr := by
  cases owner with
  | stmt s =>
    obtain ⟨x, hx, rfl⟩ := cell?_stmt h
    simp [operands, hx, Node.cell]
  | expr e =>
    obtain ⟨x, hx, rfl⟩ := cell?_expr h
    simp [operands, hx, Node.cell]

/-- The symbols of a cell are those in the node's list. -/
theorem symbols_of_cell? (list : SymbolList) (h : p.cell? list.node = some c) :
    c.symbols = (p.symbolsIn list).map .symbol := by
  cases list with
  | module m =>
    obtain ⟨x, hx, rfl⟩ := cell?_module h
    simp [symbolsIn, symbolList?, hx, Node.cell]
  | symbol s =>
    obtain ⟨x, hx, rfl⟩ := cell?_symbol h
    cases hk : x.kind.nested? <;> simp [symbolsIn, symbolList?, hx, Node.cell, hk]

/-- The symbols of a statement's cell are what it declares. -/
theorem declared_of_cell? {s : StmtId} (h : p.cell? (.stmt s) = some c) :
    c.symbols = (p.declared? s).toList.map .symbol := by
  obtain ⟨x, hx, rfl⟩ := cell?_stmt h
  simp [declared?, hx, Node.cell]

/-- The statements of a cell are those in the node's list, if it has one. -/
theorem stmts_of_cell? (list : StmtList) (h : p.cell? list.node = some c)
    (hl : list.Fits c.label) : c.stmts = (p.stmtsIn list).map .stmt := by
  cases list with
  | body s =>
    obtain ⟨x, hx, rfl⟩ := cell?_symbol h
    cases hk : x.kind.body? <;> simp [stmtsIn, stmtList?, hx, Node.cell, hk]
  | block b =>
    obtain ⟨x, hx, rfl⟩ := cell?_stmt h
    obtain ⟨k, line, _, _⟩ := x
    cases k with
    | block stmts => simp [stmtsIn, stmtList?, hx, Node.cell, StmtKind.held, StmtKind.entries?]
    | _ => exact hl.elim

/-- The statements of a statement's cell are those it holds. -/
theorem held_of_cell? {s : StmtId} (h : p.cell? (.stmt s) = some c) :
    c.stmts = (p.heldStmts s).map .stmt := by
  obtain ⟨x, hx, rfl⟩ := cell?_stmt h
  obtain ⟨k, line, _, _⟩ := x
  cases k with
  | ifElse cond t f =>
    cases f <;> simp [heldStmts, children, stmtAt?, hx, Node.cell, StmtKind.held,
      StmtKind.children, StmtKind.branch?]
  | _ => simp [heldStmts, children, stmtAt?, stmtList?, hx, Node.cell, StmtKind.held,
      StmtKind.children, StmtKind.branch?, StmtKind.entries?]

/-- The statement in a branch, where the statement has such a position. -/
theorem branch_of_cell? {s : StmtId} {head : StmtHead} {line : UInt32}
    (h : p.cell? (.stmt s) = some c) (hl : c.label = .stmt head line) {which : Branch}
    (hw : which ∈ head.branches) :
    (p.stmtAt? (.branch s which)).map .stmt = c.stmts[which.index]? := by
  obtain ⟨⟨k, _, _, _⟩, hx, rfl, rfl⟩ := stmt?_of_cell? h hl
  cases k <;> simp only [StmtKind.head, StmtHead.branches, List.mem_cons, List.not_mem_nil,
    or_false] at hw
  case ifElse cond t f =>
    rcases hw with rfl | rfl
    · simp [stmtAt?, hx, Node.cell, StmtKind.held, StmtKind.branch?, Branch.index]
    · cases f <;>
        simp [stmtAt?, hx, Node.cell, StmtKind.held, StmtKind.branch?, Branch.index]
  case whileDo cond body =>
    subst hw
    simp [stmtAt?, hx, Node.cell, StmtKind.held, StmtKind.branch?, Branch.index]

/-- There is no statement in branches behind those that are held. -/
theorem stmtAt?_eq_none_of_branches {s : StmtId} {head : StmtHead} {line : UInt32}
    (h : p.cell? (.stmt s) = some c) (hl : c.label = .stmt head line) {whichs : List Branch}
    (hw : ∀ which ∈ whichs, which ∈ head.branches) {k : Nat} (hk : c.stmts.length ≤ k)
    (hindex : whichs.map Branch.index = List.range' k whichs.length) :
    ∀ place ∈ whichs.map (StmtPlace.branch s), p.stmtAt? place = none := by
  intro place hplace
  obtain ⟨which, hwhich, rfl⟩ := List.mem_map.mp hplace
  have hle : k ≤ which.index := (List.mem_range'_1.mp (hindex ▸ List.mem_map_of_mem hwhich)).1
  have hat := branch_of_cell? h hl (hw which hwhich)
  rw [List.getElem?_eq_none (Nat.le_trans hk hle)] at hat
  exact Option.map_eq_none_iff.mp hat

/-- A statement with branches holds no more statements than it has positions for. -/
theorem length_branches {s : StmtId} {head : StmtHead} {line : UInt32}
    (h : p.cell? (.stmt s) = some c) (hl : c.label = .stmt head line) (hb : head.branches ≠ []) :
    c.stmts.length ≤ head.branches.length := by
  obtain ⟨⟨k, _, _, _⟩, hx, rfl, rfl⟩ := stmt?_of_cell? h hl
  cases k with
  | ifElse cond t f => cases f <;> simp [Node.cell, StmtKind.held, StmtKind.head, StmtHead.branches]
  | whileDo cond body => simp [Node.cell, StmtKind.held, StmtKind.head, StmtHead.branches]
  | _ => exact absurd rfl hb

/-- What a walk visits below a statement is known from its label. -/
theorem children_of_cell? {s : StmtId} {head : StmtHead} {line : UInt32}
    (h : p.cell? (.stmt s) = some c) (hl : c.label = .stmt head line) :
    p.children s = if head = .block then .list (.block s) else
      if head.branches = [] then .none else .places (head.branches.map (.branch s)) := by
  obtain ⟨⟨k, _, _, _⟩, hx, rfl, rfl⟩ := stmt?_of_cell? h hl
  cases k <;> simp [children, hx, StmtKind.children, StmtKind.head, StmtHead.branches]

end Program

end MiddleEnd
