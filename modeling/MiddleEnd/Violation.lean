import MiddleEnd.Text.Location
import MiddleEnd.Tree.Id

/-!
# MiddleEnd.Violation

What is wrong with a program: a back-reference that disagrees with the tree, or a reference to a
symbol that is gone. Each kind has a stable code, a message, and a short label that stands under
the line it concerns.
-/

namespace MiddleEnd

/-- What disagrees with the tree. -/
inductive Violation.Kind where
  /-- A reference whose id is not in the tree at all. -/
  | unknownSymbol (sym : SymbolId)
  /-- A reference to a symbol that was removed. -/
  | removedSymbol (name : String)
  /-- The recorded enclosing statement is not the one the walk found. -/
  | enclosingStmt (expected recorded : Option StmtId)
  /-- The recorded enclosing symbol is not the one the walk found. -/
  | parentSymbol (expected recorded : Option SymbolId)
  /-- The recorded scope of a symbol is not where it is declared. -/
  | scope (name : String) (expected recorded : Option Scope)
deriving DecidableEq, Repr

namespace Violation.Kind

/-- A stable name for the kind of violation. -/
def code : Kind → String
  | .unknownSymbol _ => "E0101"
  | .removedSymbol _ => "E0102"
  | .enclosingStmt _ _ => "E0103"
  | .parentSymbol _ _ => "E0104"
  | .scope _ _ _ => "E0105"

/-- What stands under the line concerned. -/
def label : Kind → String
  | .unknownSymbol _ => "unresolved reference"
  | .removedSymbol _ => "symbol no longer exists"
  | .enclosingStmt _ _ => "enclosing statement out of date"
  | .parentSymbol _ _ => "parent symbol out of date"
  | .scope _ _ _ => "declaring scope out of date"

/-- Both sides of a disagreement; a side that names no node reads as `nothing`. -/
def disagreement (expected recorded : Option String) : String :=
  expected.getD "nothing" ++ ", but " ++ recorded.getD "nothing" ++ " is recorded"

/-- The violation in words. -/
def message : Kind → String
  | .unknownSymbol sym => "reference to unknown " ++ sym.text
  | .removedSymbol name => "reference to removed symbol `" ++ name ++ "`"
  | .enclosingStmt expected recorded =>
    "enclosing statement is " ++ disagreement (expected.map (·.text)) (recorded.map (·.text))
  | .parentSymbol expected recorded =>
    "parent symbol is " ++ disagreement (expected.map (·.text)) (recorded.map (·.text))
  | .scope name expected recorded =>
    "`" ++ name ++ "` is declared in "
      ++ disagreement (expected.map (·.text)) (recorded.map (·.text))

end Violation.Kind

/-- A violation, tied to a node and to a line of the module that contains it. -/
structure Violation where
  kind : Violation.Kind
  module : ModuleId
  file : String
  line : UInt32
  node : NodeId
deriving DecidableEq, Repr

namespace Violation

def code (v : Violation) : String := v.kind.code

def message (v : Violation) : String := v.kind.message

def location (v : Violation) : Location := ⟨v.file, v.line⟩

/-- The violation on one line. -/
def text (v : Violation) : String :=
  v.location.text ++ ": error[" ++ v.code ++ "]: " ++ v.message

end Violation

end MiddleEnd
