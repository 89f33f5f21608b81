import MiddleEnd.Tree.Id

/-!
# MiddleEnd.Walk.NodeSet

Sets of nodes, one bit per node in a number per category. Ids are dense, so the numbers stay as
small as the arenas. A set is used through `contains_empty` and `contains_insert`, which say what
the operations do to membership.
-/

namespace MiddleEnd

/-- A set of nodes. Bit `i` of a field says whether the node at position `i` is a member. -/
structure NodeSet where
  modules : Nat
  symbols : Nat
  stmts : Nat
  exprs : Nat
deriving DecidableEq, Repr

namespace NodeSet

/-- The set without members. -/
def empty : NodeSet := ⟨0, 0, 0, 0⟩

/-- Whether a node is a member. -/
def contains (s : NodeSet) : NodeId → Bool
  | .module m => s.modules.testBit m.index
  | .symbol y => s.symbols.testBit y.index
  | .stmt t => s.stmts.testBit t.index
  | .expr e => s.exprs.testBit e.index

/-- The set with one more member. -/
def insert (s : NodeSet) : NodeId → NodeSet
  | .module m => { s with modules := s.modules ||| 1 <<< m.index }
  | .symbol y => { s with symbols := s.symbols ||| 1 <<< y.index }
  | .stmt t => { s with stmts := s.stmts ||| 1 <<< t.index }
  | .expr e => { s with exprs := s.exprs ||| 1 <<< e.index }

@[simp] theorem contains_empty (n : NodeId) : empty.contains n = false := by
  cases n <;> simp [empty, contains]

private theorem testBit_set (b i j : Nat) :
    (b ||| 1 <<< i).testBit j = (decide (j = i) || b.testBit j) := by
  rw [Nat.testBit_or, Nat.one_shiftLeft, Nat.testBit_two_pow, Bool.or_comm]
  simp [eq_comm]

@[simp] theorem contains_insert (s : NodeSet) (n m : NodeId) :
    (s.insert n).contains m = (decide (m = n) || s.contains m) := by
  cases n <;> cases m <;> simp only [insert, contains, testBit_set] <;> simp

/-- A member differs from what is no member. -/
theorem ne_of_contains {s : NodeSet} {n m : NodeId} (hn : s.contains n = true)
    (hm : s.contains m = false) : n ≠ m := by
  rintro rfl
  rw [hn] at hm
  cases hm

end NodeSet

end MiddleEnd
