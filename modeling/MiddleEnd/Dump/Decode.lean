import MiddleEnd.Dump.Encode
import MiddleEnd.Dump.Read

/-!
# MiddleEnd.Dump.Decode

Programs read from their dump. What was written by hand or by an older version may leave out the
back-references, which then count as absent, and the source texts. Which fields these are is said by
the program; how a record with missing fields is read is assumed of the JSON library (`Dump.Read`).
-/

namespace MiddleEnd.Dump

open Fields (required optional omissible defaulted)

/-! ## Ids -/

def readModuleId : Read ModuleId := fun doc => (readWord doc).map ModuleId.mk

def readSymbolId : Read SymbolId := fun doc => (readWord doc).map SymbolId.mk

def readStmtId : Read StmtId := fun doc => (readWord doc).map StmtId.mk

def readExprId : Read ExprId := fun doc => (readWord doc).map ExprId.mk

/-- Read a value as part of another one. -/
def Read.as {α β : Type} (read : Read α) (f : α → β) : Read β := fun doc => (read doc).map f

def readScope : Read Scope :=
  readChoice "Scope"
    [⟨"Module", .value (readModuleId.as .module)⟩,
      ⟨"Symbol", .value (readSymbolId.as .symbol)⟩,
      ⟨"Stmt", .value (readStmtId.as .stmt)⟩]

/-! ## Nodes -/

def readModule : Read Module :=
  readRecord "struct Module"
    (Module.mk <$> required "name" readText <*> required "file" readText
      <*> omissible "source" readText <*> required "symbols" (readList readSymbolId))

def readSymbolKind : Read SymbolKind :=
  readChoice "SymbolKind"
    [⟨"Variable", .record (SymbolKind.var <$> optional "ty" readText)⟩,
      ⟨"Param", .record (SymbolKind.param <$> optional "ty" readText)⟩,
      ⟨"Function", .record (SymbolKind.func <$> required "params" (readList readSymbolId)
        <*> optional "ret" readText <*> required "body" (readList readStmtId))⟩,
      ⟨"Type", .record (SymbolKind.type <$> required "members" (readList readSymbolId))⟩]

def readSymbol : Read Symbol :=
  readRecord "struct Symbol"
    (Symbol.mk <$> required "name" readText <*> required "line" readWord
      <*> required "kind" readSymbolKind <*> omissible "scope" readScope
      <*> defaulted "removed" readBool false true)

def readStmtKind : Read StmtKind :=
  readChoice "StmtKind"
    [⟨"Expr", .value (readExprId.as .expr)⟩,
      ⟨"Decl", .record (StmtKind.decl <$> required "sym" readSymbolId
        <*> optional "init" readExprId)⟩,
      ⟨"Block", .value ((readList readStmtId).as .block)⟩,
      ⟨"If", .record (StmtKind.ifElse <$> required "cond" readExprId
        <*> required "then_branch" readStmtId <*> optional "else_branch" readStmtId)⟩,
      ⟨"While", .record (StmtKind.whileDo <$> required "cond" readExprId
        <*> required "body" readStmtId)⟩,
      ⟨"Return", .value ((readOptional readExprId).as .ret)⟩,
      ⟨"Nop", .nothing .nop⟩]

def readStmt : Read Stmt :=
  readRecord "struct Stmt"
    (Stmt.mk <$> required "kind" readStmtKind <*> required "line" readWord
      <*> omissible "parent_stmt" readStmtId <*> omissible "parent_symbol" readSymbolId)

/-- All operators. -/
def allOps : List BinOp := [.add, .sub, .mul, .div, .eq, .ne, .lt, .le, .gt, .ge, .and, .or]

def readOp : Read BinOp :=
  readChoice "BinOp" (allOps.map fun op => ⟨opName op, .nothing op⟩)

def readExprKind : Read ExprKind :=
  readChoice "ExprKind"
    [⟨"Int", .value (readInt.as .int)⟩,
      ⟨"Bool", .value (readBool.as .bool)⟩,
      ⟨"Str", .value (readText.as .str)⟩,
      ⟨"SymRef", .value (readSymbolId.as .symRef)⟩,
      ⟨"Call", .record (ExprKind.call <$> required "callee" readExprId
        <*> required "args" (readList readExprId))⟩,
      ⟨"Binary", .record (ExprKind.binary <$> required "op" readOp
        <*> required "lhs" readExprId <*> required "rhs" readExprId)⟩,
      ⟨"Assign", .record (ExprKind.assign <$> required "target" readExprId
        <*> required "value" readExprId)⟩,
      ⟨"Paren", .value (readExprId.as .paren)⟩]

def readExpr : Read Expr :=
  readRecord "struct Expr"
    (Expr.mk <$> required "kind" readExprKind <*> required "line" readWord
      <*> omissible "parent_stmt" readStmtId <*> omissible "parent_symbol" readSymbolId)

/-! ## Programs -/

def readArray {α : Type} (read : Read α) : Read (Array α) := (readList read).as List.toArray

def readProgram : Read Program :=
  readRecord "struct Ast"
    (Program.mk <$> required "modules" (readArray readModule)
      <*> required "symbols" (readArray readSymbol) <*> required "stmts" (readArray readStmt)
      <*> required "exprs" (readArray readExpr))

/-- The program that a text is a dump of. Nothing but blanks may stand behind it. -/
def decode (text : String) : Except Problem Program := do
  let (doc, trailing) := Json.readDocument text
  let p ← readProgram doc
  if trailing then throw (.damage .malformed)
  return p

end MiddleEnd.Dump
