import MiddleEnd.Tree.Program
import MiddleEnd.Walk.NodeSet

/-!
# MiddleEnd.Verify.Declared

The symbols that a program still declares: those reached from the modules through parameters,
members, bodies, declarations and nested statements, where a removed symbol is not passed through.

Programs come from outside and may be circular, so this is a search that remembers where it was.
Every node is expanded once; the number of steps is bounded by the number of ways from a node to
its successors.
-/

namespace MiddleEnd.Program

/-- Whether a node exists and was not removed. -/
def isLive (p : Program) : NodeId → Bool
  | .symbol s => (p.symbol? s).any (!·.removed)
  | n => p.has n

/-- The statements that a statement holds. -/
def heldStmts (p : Program) (s : StmtId) : List StmtId :=
  match p.children s with
  | .none => []
  | .list list => (p.stmtList? list).getD []
  | .places places => places.filterMap p.stmtAt?

/-- The symbols and statements that a node declares or holds. -/
def successors (p : Program) : NodeId → List NodeId
  | .module m => ((p.symbolList? (.module m)).getD []).map .symbol
  | .symbol s => ((p.symbolList? (.symbol s)).getD []).map .symbol
      ++ ((p.stmtList? (.body s)).getD []).map .stmt
  | .stmt s => (p.declared? s).toList.map .symbol ++ (p.heldStmts s).map .stmt
  | .expr _ => []

/-- The nodes of a program that have successors. -/
def searchNodes (p : Program) : List NodeId :=
  p.moduleIds.map .module
    ++ (List.range p.symbols.size).map (fun i => .symbol (.ofIndex i))
    ++ (List.range p.stmts.size).map (fun i => .stmt (.ofIndex i))

/-- Everything live that is reached from `work` past the nodes in `seen`, in at most so many
steps. -/
def search (p : Program) : Nat → List NodeId → NodeSet → NodeSet
  | 0, _, seen => seen
  | _ + 1, [], seen => seen
  | steps + 1, n :: work, seen =>
    if p.isLive n && !seen.contains n then
      p.search steps (p.successors n ++ work) (seen.insert n)
    else p.search steps work seen

/-- More steps than a search from the modules can take. -/
def searchBound (p : Program) : Nat :=
  p.modules.size + (p.searchNodes.flatMap p.successors).length + 1

/-- The live nodes reached from the modules; among them, the symbols still declared. -/
def declaredNodes (p : Program) : NodeSet :=
  p.search p.searchBound (p.moduleIds.map .module) .empty

end MiddleEnd.Program
