import MiddleEnd.Tree.Place

/-!
# MiddleEnd.Tree.Fault

Misuse of the tree by its caller: an operation was handed an id, a list or a layout for which it has
no meaning. Callers that cannot rule this out ask first (`Program.stmt?` and its like).
-/

namespace MiddleEnd

/-- A list of statements, as a fault names it. -/
def StmtList.debugText : StmtList → String
  | .body s => "Body(SymbolId(" ++ s.index.repr ++ "))"
  | .block b => "Block(StmtId(" ++ b.index.repr ++ "))"

/-- How an operation was misused. -/
inductive Fault where
  /-- An id points past the end of its arena. -/
  | outOfBounds (length index : Nat)
  /-- A symbol was to declare another one but is neither a function nor a type. -/
  | ownsNoSymbols (owner : SymbolId)
  /-- A statement was to be appended where there is no list. -/
  | ownsNoStmts (list : StmtList)
  /-- A text was asked for that would be longer than any can be. -/
  | textTooLong
deriving DecidableEq, Repr

/-- The misuse in words. -/
def Fault.message : Fault → String
  | .outOfBounds length index =>
    "index out of bounds: the len is " ++ length.repr ++ " but the index is " ++ index.repr
  | .ownsNoSymbols owner => owner.text ++ " cannot own nested symbols"
  | .ownsNoStmts list => list.debugText ++ " does not own a statement list"
  | .textTooLong => "capacity overflow"

end MiddleEnd
