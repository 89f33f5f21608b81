/-!
# MiddleEnd.Text.Range

Sets of characters given as ranges of code points.
-/

namespace MiddleEnd.Text

/-- Whether a character lies in one of the ranges, both ends included. -/
def inRanges (ranges : Array (Nat × Nat)) (c : Char) : Bool :=
  ranges.any fun (first, last) => first ≤ c.toNat && c.toNat ≤ last

end MiddleEnd.Text
