import MiddleEnd.Tree.Node

/-!
# MiddleEnd.Tree.Place

Where a child is held, as opposed to which child it is. Writing an id into a place replaces
the child; reading the place again afterwards gives the new one. Nothing here says that a
place exists: the accessors of `Program` answer that.
-/

namespace MiddleEnd

/-- An ordered list of symbols: those of a module, or the parameters or members of a symbol. -/
inductive SymbolList where
  | module (m : ModuleId)
  | symbol (s : SymbolId)
deriving DecidableEq, Repr

/-- An ordered list of statements: the body of a function, or the entries of a block. -/
inductive StmtList where
  | body (s : SymbolId)
  | block (b : StmtId)
deriving DecidableEq, Repr

/-- Where a statement is held. -/
inductive StmtPlace where
  /-- An entry of a list, counted from 0 at the moment the list is read. -/
  | entry (list : StmtList) (index : Nat)
  /-- A branch of the statement `owner`. -/
  | branch (owner : StmtId) (which : Branch)
deriving DecidableEq, Repr

/-- The list that the place is an entry of. -/
def StmtPlace.list? : StmtPlace → Option StmtList
  | .entry list _ => some list
  | .branch _ _ => none

/-- What can hold expressions. -/
inductive ExprOwner where
  | stmt (s : StmtId)
  | expr (e : ExprId)
deriving DecidableEq, Repr

/-- Where an expression is held: an operand of its owner, counted from 0. -/
structure ExprPlace where
  owner : ExprOwner
  index : Nat
deriving DecidableEq, Repr

/-- How a statement holds other statements. -/
inductive StmtChildren where
  | none
  /-- A list that may grow. -/
  | list (list : StmtList)
  /-- A fixed sequence of places, some of which may be empty. -/
  | places (places : List StmtPlace)
deriving DecidableEq, Repr

/-- A block holds a list, `if` its two branches, `while` its body. -/
def StmtKind.children (s : StmtId) : StmtKind → StmtChildren
  | .block _ => .list (.block s)
  | .ifElse _ _ _ => .places [.branch s .thenBranch, .branch s .elseBranch]
  | .whileDo _ _ => .places [.branch s .loopBody]
  | _ => .none

end MiddleEnd
