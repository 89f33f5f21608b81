import MiddleEnd.Json.Value
import MiddleEnd.Tree.Program

/-!
# MiddleEnd.Dump.Encode

A program as JSON. A record is an object with its fields in declaration order. A choice is an
object with a single member, named for the alternative that was taken; an alternative that carries
nothing is its name as a text. An id is its number. What is absent is `null`, except the source
text of a module, which is left out.

The names and the order of fields and alternatives are the program's. How records, choices and what
is absent become JSON is assumed of the JSON library, which derives it from their declarations.
-/

namespace MiddleEnd.Dump

/-- An alternative that carries something. -/
def choice (name : String) (payload : Json) : Json := .obj [(name, payload)]

def orNull {α : Type} (encode : α → Json) : Option α → Json
  | none => .null
  | some a => encode a

def array {α : Type} (encode : α → Json) (items : List α) : Json := .arr (items.map encode)

def word (n : UInt32) : Json := .int n.toNat

/-! ## Ids -/

def moduleId (m : ModuleId) : Json := word m.val

def symbolId (s : SymbolId) : Json := word s.val

def stmtId (s : StmtId) : Json := word s.val

def exprId (e : ExprId) : Json := word e.val

def scope : Scope → Json
  | .module m => choice "Module" (moduleId m)
  | .symbol s => choice "Symbol" (symbolId s)
  | .stmt s => choice "Stmt" (stmtId s)

/-! ## Nodes -/

/-- The source text of a module, where it was kept. -/
def source : Option String → List (String × Json)
  | none => []
  | some text => [("source", .str text)]

def module (m : Module) : Json :=
  .obj ([("name", .str m.name), ("file", .str m.file)] ++ source m.source
    ++ [("symbols", array symbolId m.symbols)])

def symbolKind : SymbolKind → Json
  | .var ty => choice "Variable" (.obj [("ty", orNull .str ty)])
  | .param ty => choice "Param" (.obj [("ty", orNull .str ty)])
  | .func params ret body =>
    choice "Function" (.obj [("params", array symbolId params), ("ret", orNull .str ret),
      ("body", array stmtId body)])
  | .type members => choice "Type" (.obj [("members", array symbolId members)])

def symbol (s : Symbol) : Json :=
  .obj [("name", .str s.name), ("line", word s.line), ("kind", symbolKind s.kind),
    ("scope", orNull scope s.scope), ("removed", .bool s.removed)]

def stmtKind : StmtKind → Json
  | .expr e => choice "Expr" (exprId e)
  | .decl sym init => choice "Decl" (.obj [("sym", symbolId sym), ("init", orNull exprId init)])
  | .block stmts => choice "Block" (array stmtId stmts)
  | .ifElse cond thenBranch elseBranch =>
    choice "If" (.obj [("cond", exprId cond), ("then_branch", stmtId thenBranch),
      ("else_branch", orNull stmtId elseBranch)])
  | .whileDo cond body => choice "While" (.obj [("cond", exprId cond), ("body", stmtId body)])
  | .ret value => choice "Return" (orNull exprId value)
  | .nop => .str "Nop"

def stmt (s : Stmt) : Json :=
  .obj [("kind", stmtKind s.kind), ("line", word s.line),
    ("parent_stmt", orNull stmtId s.parentStmt),
    ("parent_symbol", orNull symbolId s.parentSymbol)]

/-- The name of an operator. -/
def opName : BinOp → String
  | .add => "Add"
  | .sub => "Sub"
  | .mul => "Mul"
  | .div => "Div"
  | .eq => "Eq"
  | .ne => "Ne"
  | .lt => "Lt"
  | .le => "Le"
  | .gt => "Gt"
  | .ge => "Ge"
  | .and => "And"
  | .or => "Or"

def exprKind : ExprKind → Json
  | .int value => choice "Int" (.int value.toInt)
  | .bool value => choice "Bool" (.bool value)
  | .str value => choice "Str" (.str value)
  | .symRef sym => choice "SymRef" (symbolId sym)
  | .call callee args =>
    choice "Call" (.obj [("callee", exprId callee), ("args", array exprId args)])
  | .binary op lhs rhs =>
    choice "Binary" (.obj [("op", .str (opName op)), ("lhs", exprId lhs), ("rhs", exprId rhs)])
  | .assign target value =>
    choice "Assign" (.obj [("target", exprId target), ("value", exprId value)])
  | .paren inner => choice "Paren" (exprId inner)

def expr (e : Expr) : Json :=
  .obj [("kind", exprKind e.kind), ("line", word e.line),
    ("parent_stmt", orNull stmtId e.parentStmt),
    ("parent_symbol", orNull symbolId e.parentSymbol)]

/-! ## Programs -/

def program (p : Program) : Json :=
  .obj [("modules", array module p.modules.toList), ("symbols", array symbol p.symbols.toList),
    ("stmts", array stmt p.stmts.toList), ("exprs", array expr p.exprs.toList)]

/-- A program as an indented text. -/
def text (p : Program) : String := (program p).pretty

/-- A program as a text on one line. -/
def compactText (p : Program) : String := (program p).compact

end MiddleEnd.Dump
