import MiddleEnd.Tree.Fault

/-!
# MiddleEnd.Tree.Program

A program: four arenas, one per category of node. Looking a node up by id may fail, because
ids come from outside: `stmt?` and its like then give `none`, and `stmt` and its like, for callers
that take the node for granted, give a `Fault`. Every other question about the tree is answered
from the lookups and fails with them.
-/

namespace MiddleEnd

/-- The modules of a program and every node they may reach. -/
structure Program where
  modules : Array Module
  symbols : Array Symbol
  stmts : Array Stmt
  exprs : Array Expr
deriving DecidableEq, Repr

namespace Program

/-- The program without nodes. -/
def empty : Program := ⟨#[], #[], #[], #[]⟩

instance : Inhabited Program := ⟨empty⟩

/-! ## Nodes -/

/-- The module with an id. -/
def module? (p : Program) (m : ModuleId) : Option Module := p.modules[m.index]?

/-- The symbol with an id. -/
def symbol? (p : Program) (s : SymbolId) : Option Symbol := p.symbols[s.index]?

/-- The statement with an id. -/
def stmt? (p : Program) (s : StmtId) : Option Stmt := p.stmts[s.index]?

/-- The expression with an id. -/
def expr? (p : Program) (e : ExprId) : Option Expr := p.exprs[e.index]?

/-- Whether a node exists. -/
def has (p : Program) : NodeId → Bool
  | .module m => (p.module? m).isSome
  | .symbol s => (p.symbol? s).isSome
  | .stmt s => (p.stmt? s).isSome
  | .expr e => (p.expr? e).isSome

/-- All modules, in declaration order. -/
def moduleIds (p : Program) : List ModuleId := (List.range p.modules.size).map ModuleId.ofIndex

/-! ## Nodes that must exist -/

/-- The module, which must exist. -/
def module (p : Program) (m : ModuleId) : Except Fault Module :=
  match p.module? m with
  | some module => .ok module
  | none => .error (.outOfBounds p.modules.size m.index)

/-- The symbol, which must exist. -/
def symbol (p : Program) (s : SymbolId) : Except Fault Symbol :=
  match p.symbol? s with
  | some symbol => .ok symbol
  | none => .error (.outOfBounds p.symbols.size s.index)

/-- The statement, which must exist. -/
def stmt (p : Program) (s : StmtId) : Except Fault Stmt :=
  match p.stmt? s with
  | some stmt => .ok stmt
  | none => .error (.outOfBounds p.stmts.size s.index)

/-- The expression, which must exist. -/
def expr (p : Program) (e : ExprId) : Except Fault Expr :=
  match p.expr? e with
  | some expr => .ok expr
  | none => .error (.outOfBounds p.exprs.size e.index)

/-! ## Lists -/

/-- The symbols in a list; `none` if its owner does not exist or owns no symbols. -/
def symbolList? (p : Program) : SymbolList → Option (List SymbolId)
  | .module m => (p.module? m).map (·.symbols)
  | .symbol s => (p.symbol? s).bind (·.kind.nested?)

/-- The statements in a list; `none` if its owner does not exist or owns no list. -/
def stmtList? (p : Program) : StmtList → Option (List StmtId)
  | .body s => (p.symbol? s).bind (·.kind.body?)
  | .block b => (p.stmt? b).bind (·.kind.entries?)

/-! ## Places -/

/-- The statement held in a place. -/
def stmtAt? (p : Program) : StmtPlace → Option StmtId
  | .entry list index => (p.stmtList? list).bind (·[index]?)
  | .branch owner which => (p.stmt? owner).bind (·.kind.branch? which)

/-- The expressions that an owner holds, in source order. An owner that does not exist holds
none. -/
def operands (p : Program) : ExprOwner → List ExprId
  | .stmt s => ((p.stmt? s).map (·.kind.operands)).getD []
  | .expr e => ((p.expr? e).map (·.kind.operands)).getD []

/-- The expression held in a place. -/
def exprAt? (p : Program) (place : ExprPlace) : Option ExprId :=
  (p.operands place.owner)[place.index]?

/-- How many places for expressions an owner has. An owner that does not exist has none. -/
def operandCount (p : Program) : ExprOwner → Nat
  | .stmt s => ((p.stmt? s).map (·.kind.operandCount)).getD 0
  | .expr e => ((p.expr? e).map (·.kind.operandCount)).getD 0

/-- The expressions that an owner holds, read place by place. -/
def heldExprs (p : Program) (owner : ExprOwner) : List ExprId :=
  (List.range (p.operandCount owner)).filterMap fun index => p.exprAt? ⟨owner, index⟩

/-- How a statement holds other statements. -/
def children (p : Program) (s : StmtId) : StmtChildren :=
  match p.stmt? s with
  | some stmt => stmt.kind.children s
  | none => .none

/-- The symbol that a statement declares. -/
def declared? (p : Program) (s : StmtId) : Option SymbolId :=
  (p.stmt? s).bind (·.kind.declared?)

end Program

end MiddleEnd
