import MiddleEnd.Tree.Fault

/-!
# MiddleEnd.Defect

Defects of the compiler itself. A defect never describes a problem in the user's program: it
says that an earlier pass, or the walk, broke the shape of the tree, and it stops everything.
What is wrong with the user's program is a `Violation`.
-/

namespace MiddleEnd

/-- Which part of a walk was running. -/
inductive Step where
  | module
  | symbol
  | stmt
  | expr
deriving DecidableEq, Repr

/-- The name of a part of a walk. -/
def Step.text : Step → String
  | .module => "module"
  | .symbol => "symbol"
  | .stmt => "statement"
  | .expr => "expression"

/-- The part of a walk in which a node is entered. -/
def NodeId.step : NodeId → Step
  | .module _ => .module
  | .symbol _ => .symbol
  | .stmt _ => .stmt
  | .expr _ => .expr

/-- What went wrong. -/
inductive Cause where
  /-- The node is its own ancestor. -/
  | cycle
  /-- The node has two parents. -/
  | sharedNode
  /-- The id points past the end of its arena. -/
  | missingNode
  /-- The stack of open statements was not empty at the edge of a module, or was popped while
  empty. -/
  | stackImbalance (depth pushes pops : Nat)
  /-- A hook was called where its call makes no sense. -/
  | hookOutOfOrder (hook detail : String)
deriving DecidableEq, Repr

namespace Cause

/-- A statement was left that is not the innermost open one. -/
def unexpectedLeave (hook : String) (expected : StmtId) (found : Option StmtId) : Cause :=
  .hookOutOfOrder hook
    ("expected to leave " ++ expected.text ++ ", found "
      ++ (found.map (·.text)).getD "an empty stack")

/-- An expression was visited while no statement is open. -/
def outsideStatement (e : ExprId) : Cause :=
  .hookOutOfOrder "pre_expr" (e.text ++ " visited outside any statement")

/-- What went wrong, in words. -/
def message : Cause → String
  | .cycle => "cycle detected: node is its own ancestor"
  | .sharedNode => "node is owned by more than one parent"
  | .missingNode => "node id does not exist in the AST"
  | .stackImbalance depth pushes pops =>
    "enclosing-statement stack imbalance: depth " ++ depth.repr ++ ", " ++ pushes.repr
      ++ " pushes, " ++ pops.repr ++ " pops"
  | .hookOutOfOrder hook detail => "`" ++ hook ++ "` invoked out of order: " ++ detail

end Cause

/-- A defect with its context: the pass that ran, the part of the walk, and the node it was at. -/
structure Defect where
  pass : String
  step : Step
  node : NodeId
  cause : Cause
deriving DecidableEq, Repr

namespace Defect

/-- The defect found at a node while that node was being visited. -/
def during (pass : String) (node : NodeId) (cause : Cause) : Defect :=
  ⟨pass, node.step, node, cause⟩

/-- The defect on one line, with its context. -/
def message (d : Defect) : String :=
  "pass `" ++ d.pass ++ "`, " ++ d.step.text ++ " step, at " ++ d.node.text ++ ": "
    ++ d.cause.message

end Defect

end MiddleEnd
