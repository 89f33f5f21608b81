import MiddleEnd.Tree.Id

/-!
# MiddleEnd.Tree.Node

What the nodes hold. Every child is an id: the tree is drawn by ids that point from one arena
into another, so nothing here says that the ids exist, or that no two nodes hold the same one.

Besides its children a node records *back-references*: the `scope` of a symbol, the
`parentStmt` and `parentSymbol` of a statement or an expression. They are redundant, since
a walk from the modules finds them again.

The operands of a node (the expressions it owns, in source order) are one list,
`StmtKind.operands` and `ExprKind.operands`; `operandCount` says how many they are without listing
them, and `withOperand?` overwrites one of them.
In the same way `StmtKind.branch?` reads and `StmtKind.withBranch?` overwrites a branch.
-/

namespace MiddleEnd

/-! ## Modules and symbols -/

/-- A compilation unit. -/
structure Module where
  name : String
  /-- Path of the source file. -/
  file : String
  /-- The source text, where it was kept. Only reports show it. -/
  source : Option String
  /-- The symbols declared at module scope, in declaration order. -/
  symbols : List SymbolId
deriving DecidableEq, Repr

/-- What is declared. A function owns its parameters and its body, a type its members. -/
inductive SymbolKind where
  | var (ty : Option String)
  | param (ty : Option String)
  | func (params : List SymbolId) (ret : Option String) (body : List StmtId)
  | type (members : List SymbolId)
deriving DecidableEq, Repr

namespace SymbolKind

/-- The statements of a function body; nothing else has one. -/
def body? : SymbolKind → Option (List StmtId)
  | .func _ _ body => some body
  | _ => none

/-- The parameters of a function or the members of a type. -/
def nested? : SymbolKind → Option (List SymbolId)
  | .func params _ _ => some params
  | .type members => some members
  | _ => none

/-- The same symbol with another body; a symbol without a body is unchanged. -/
def withBody (k : SymbolKind) (body : List StmtId) : SymbolKind :=
  match k with
  | .func params ret _ => .func params ret body
  | k => k

/-- The same symbol with other parameters or members; a symbol that has neither is unchanged. -/
def withNested (k : SymbolKind) (nested : List SymbolId) : SymbolKind :=
  match k with
  | .func _ ret body => .func nested ret body
  | .type _ => .type nested
  | k => k

/-- The same symbol without `s` among its parameters or members. -/
def withoutNested (k : SymbolKind) (s : SymbolId) : SymbolKind :=
  match k with
  | .func params ret body => .func (params.filter (· ≠ s)) ret body
  | .type members => .type (members.filter (· ≠ s))
  | k => k

/-- Whether the name stands for a type. -/
def declaresType : SymbolKind → Bool
  | .type _ => true
  | _ => false

/-- Whether the name stands for a value: whatever is no type is one. -/
def declaresValue (k : SymbolKind) : Bool := !k.declaresType

/-- Whether the symbol owns other symbols or a body. -/
def declaresScope (k : SymbolKind) : Bool := k.nested?.isSome

/-- The word that introduces a symbol in a listing. -/
def keyword : SymbolKind → String
  | .var _ => "var"
  | .param _ => "param"
  | .func _ _ _ => "fn"
  | .type _ => "type"

end SymbolKind

/-- A named, declared entity. -/
structure Symbol where
  name : String
  line : UInt32
  kind : SymbolKind
  /-- Back-reference: what declares the symbol. -/
  scope : Option Scope
  /-- Whether the symbol was deleted. Its node stays, so that a reference left behind can
  still be reported by name. -/
  removed : Bool
deriving DecidableEq, Repr

/-- A live symbol without a back-reference. -/
def Symbol.new (name : String) (kind : SymbolKind) (line : UInt32) : Symbol :=
  ⟨name, line, kind, none, false⟩

/-! ## Statements -/

/-- What a statement does. -/
inductive StmtKind where
  /-- An expression evaluated for its effect. -/
  | expr (e : ExprId)
  /-- Declares a local symbol, with an initial value or without. -/
  | decl (sym : SymbolId) (init : Option ExprId)
  | block (stmts : List StmtId)
  | ifElse (cond : ExprId) (thenBranch : StmtId) (elseBranch : Option StmtId)
  | whileDo (cond : ExprId) (body : StmtId)
  | ret (value : Option ExprId)
  /-- The empty statement. -/
  | nop
deriving DecidableEq, Repr

/-- The positions at which a statement holds a single other statement. -/
inductive Branch where
  | thenBranch
  | elseBranch
  | loopBody
deriving DecidableEq, Repr

namespace StmtKind

/-- The expressions the statement owns; there is at most one. -/
def operands : StmtKind → List ExprId
  | .expr e => [e]
  | .decl _ init => init.toList
  | .block _ => []
  | .ifElse cond _ _ => [cond]
  | .whileDo cond _ => [cond]
  | .ret value => value.toList
  | .nop => []

/-- How many expressions the statement owns. -/
def operandCount : StmtKind → Nat
  | .expr _ | .ifElse _ _ _ | .whileDo _ _ => 1
  | .decl _ (some _) | .ret (some _) => 1
  | _ => 0

/-- Overwrite an operand; `none` where there is none. -/
def withOperand? : StmtKind → Nat → ExprId → Option StmtKind
  | .expr _, 0, e => some (.expr e)
  | .decl sym (some _), 0, e => some (.decl sym (some e))
  | .ifElse _ t f, 0, e => some (.ifElse e t f)
  | .whileDo _ body, 0, e => some (.whileDo e body)
  | .ret (some _), 0, e => some (.ret (some e))
  | _, _, _ => none

/-- The statement in a branch. An `if` without an `else` has the position but nothing in it. -/
def branch? : StmtKind → Branch → Option StmtId
  | .ifElse _ t _, .thenBranch => some t
  | .ifElse _ _ f, .elseBranch => f
  | .whileDo _ body, .loopBody => some body
  | _, _ => none

/-- Overwrite a branch; `none` where the statement has no such position. -/
def withBranch? : StmtKind → Branch → StmtId → Option StmtKind
  | .ifElse c _ f, .thenBranch, s => some (.ifElse c s f)
  | .ifElse c t _, .elseBranch, s => some (.ifElse c t (some s))
  | .whileDo c _, .loopBody, s => some (.whileDo c s)
  | _, _, _ => none

/-- Whether the statement is a block. -/
def isBlock : StmtKind → Bool
  | .block _ => true
  | _ => false

/-- The entries of a block. -/
def entries? : StmtKind → Option (List StmtId)
  | .block stmts => some stmts
  | _ => none

/-- The same block with other entries; anything else is unchanged. -/
def withEntries (k : StmtKind) (stmts : List StmtId) : StmtKind :=
  match k with
  | .block _ => .block stmts
  | k => k

/-- The symbol introduced by a declaration. -/
def declared? : StmtKind → Option SymbolId
  | .decl sym _ => some sym
  | _ => none

/-- The empty statement for a declaration of `s`; anything else is unchanged. -/
def withoutDecl (k : StmtKind) (s : SymbolId) : StmtKind :=
  if k.declared? = some s then .nop else k

end StmtKind

/-- An executable statement. -/
structure Stmt where
  kind : StmtKind
  line : UInt32
  /-- Back-reference: the nearest enclosing statement. -/
  parentStmt : Option StmtId
  /-- Back-reference: the nearest enclosing symbol. -/
  parentSymbol : Option SymbolId
deriving DecidableEq, Repr

/-- A statement without back-references. -/
def Stmt.new (kind : StmtKind) (line : UInt32) : Stmt := ⟨kind, line, none, none⟩

/-! ## Expressions -/

/-- An operator between two operands. -/
inductive BinOp where
  | add | sub | mul | div
  | eq | ne | lt | le | gt | ge
  | and | or
deriving DecidableEq, Repr

/-- The operator as it is written between its operands. -/
def BinOp.text : BinOp → String
  | .add => "+"
  | .sub => "-"
  | .mul => "*"
  | .div => "/"
  | .eq => "=="
  | .ne => "!="
  | .lt => "<"
  | .le => "<="
  | .gt => ">"
  | .ge => ">="
  | .and => "&&"
  | .or => "||"

/-- How an expression makes its value. -/
inductive ExprKind where
  | int (value : Int64)
  | bool (value : Bool)
  | str (value : String)
  /-- A reference to a symbol declared elsewhere. It does not own the symbol. -/
  | symRef (sym : SymbolId)
  | call (callee : ExprId) (args : List ExprId)
  | binary (op : BinOp) (lhs rhs : ExprId)
  | assign (target value : ExprId)
  | paren (inner : ExprId)
deriving DecidableEq, Repr

namespace ExprKind

/-- The expressions the expression owns, in source order: a call its callee and then its
arguments, an operator its left side and then its right side, an assignment its target and
then its value, a parenthesis what it encloses. -/
def operands : ExprKind → List ExprId
  | .int _ => []
  | .bool _ => []
  | .str _ => []
  | .symRef _ => []
  | .call callee args => callee :: args
  | .binary _ lhs rhs => [lhs, rhs]
  | .assign target value => [target, value]
  | .paren inner => [inner]

/-- How many expressions the expression owns. -/
def operandCount : ExprKind → Nat
  | .call _ args => 1 + args.length
  | .binary _ _ _ | .assign _ _ => 2
  | .paren _ => 1
  | _ => 0

/-- Overwrite an operand; `none` where there is none. -/
def withOperand? : ExprKind → Nat → ExprId → Option ExprKind
  | .call _ args, 0, e => some (.call e args)
  | .call callee args, i + 1, e =>
    if i < args.length then some (.call callee (args.set i e)) else none
  | .binary op _ rhs, 0, e => some (.binary op e rhs)
  | .binary op lhs _, 1, e => some (.binary op lhs e)
  | .assign _ value, 0, e => some (.assign e value)
  | .assign target _, 1, e => some (.assign target e)
  | .paren _, 0, e => some (.paren e)
  | _, _, _ => none

end ExprKind

/-- An expression. -/
structure Expr where
  kind : ExprKind
  line : UInt32
  /-- Back-reference: the nearest enclosing statement. -/
  parentStmt : Option StmtId
  /-- Back-reference: the nearest enclosing symbol. -/
  parentSymbol : Option SymbolId
deriving DecidableEq, Repr

/-- An expression without back-references. -/
def Expr.new (kind : ExprKind) (line : UInt32) : Expr := ⟨kind, line, none, none⟩

end MiddleEnd
