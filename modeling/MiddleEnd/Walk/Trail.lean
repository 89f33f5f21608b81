import MiddleEnd.Defect
import MiddleEnd.Walk.NodeSet

/-!
# MiddleEnd.Walk.Trail

What a walk remembers about the nodes it has entered. A node is entered at most once per trail;
the second attempt finds a cycle if the first visit is still going on, and a node with two
parents otherwise.
-/

namespace MiddleEnd

/-- How many nodes were entered, by category. -/
structure Tally where
  modules : Nat
  symbols : Nat
  stmts : Nat
  exprs : Nat
deriving DecidableEq, Repr

namespace Tally

/-- Nothing was entered. -/
def zero : Tally := ⟨0, 0, 0, 0⟩

instance : Inhabited Tally := ⟨zero⟩

/-- The number of nodes of any category. -/
def total (t : Tally) : Nat := t.modules + t.symbols + t.stmts + t.exprs

/-- One more node of a category. -/
def count (t : Tally) : Step → Tally
  | .module => { t with modules := t.modules + 1 }
  | .symbol => { t with symbols := t.symbols + 1 }
  | .stmt => { t with stmts := t.stmts + 1 }
  | .expr => { t with exprs := t.exprs + 1 }

end Tally

/-- The nodes entered so far. -/
structure Trail where
  /-- The nodes whose visit is going on, innermost first. -/
  path : List NodeId
  /-- All nodes entered, those on the path included. -/
  seen : NodeSet
  tally : Tally
deriving DecidableEq, Repr

namespace Trail

/-- The trail of a walk that has not started. -/
def start : Trail := ⟨[], .empty, .zero⟩

/-- Enter a node that was not entered before. -/
def enter (t : Trail) (n : NodeId) : Except Cause Trail :=
  if t.seen.contains n then
    .error (if n ∈ t.path then .cycle else .sharedNode)
  else
    .ok { path := n :: t.path, seen := t.seen.insert n, tally := t.tally.count n.step }

/-- Finish the visit of a node. -/
def leave (t : Trail) (n : NodeId) : Trail := { t with path := t.path.erase n }

end Trail

end MiddleEnd
