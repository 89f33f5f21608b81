import MiddleEnd.Text.Blank

/-!
# MiddleEnd.Verify.Checks

Which invariants are verified, and how a selection is written: names separated by commas, taken
from left to right, where `all` and `none` replace what was selected before them.
-/

namespace MiddleEnd

/-- A selection of invariants. -/
structure Checks where
  /-- References name a symbol that is still declared somewhere in the program. -/
  symbolRefs : Bool
  /-- The recorded enclosing statement is the enclosing statement. -/
  enclosingStmt : Bool
  /-- The recorded enclosing symbol is the enclosing symbol. -/
  parentSymbol : Bool
  /-- The recorded scope of a symbol is where it is declared. -/
  symbolScope : Bool
deriving DecidableEq, Repr

namespace Checks

/-- Every invariant. -/
def all : Checks := ⟨true, true, true, true⟩

/-- No invariant. -/
def none : Checks := ⟨false, false, false, false⟩

/-- The names of the single invariants. -/
def names : List String := ["symbol-refs", "enclosing-stmt", "parent-symbol", "symbol-scope"]

/-- A name that selects nothing. -/
structure UnknownName where
  name : String
deriving DecidableEq, Repr

/-- What the user is told. -/
def UnknownName.message (e : UnknownName) : String :=
  "unknown check `" ++ e.name ++ "` (expected one of: all, none, " ++ ", ".intercalate names ++ ")"

/-- Add what a name selects. -/
def select (checks : Checks) (name : String) : Except UnknownName Checks :=
  match name with
  | "all" => .ok all
  | "none" => .ok none
  | "symbol-refs" => .ok { checks with symbolRefs := true }
  | "enclosing-stmt" => .ok { checks with enclosingStmt := true }
  | "parent-symbol" => .ok { checks with parentSymbol := true }
  | "symbol-scope" => .ok { checks with symbolScope := true }
  | name => .error ⟨name⟩

/-- Read a selection. Blanks around a name and empty names count for nothing. -/
def parse (text : String) : Except UnknownName Checks :=
  let names := (text.toList.splitOn ',').map fun part => String.ofList (Text.trim part)
  (names.filter (· ≠ "")).foldlM select none

end Checks

end MiddleEnd
