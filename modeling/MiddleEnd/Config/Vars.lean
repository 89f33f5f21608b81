import MiddleEnd.Decimal.Float
import MiddleEnd.Text.Blank
import MiddleEnd.Toml.Read

/-!
# MiddleEnd.Config.Vars

Variables: names with values, all of them texts. They are given one by one as `NAME=VALUE`, or in a
TOML document, where numbers and truth values stand for the way they are written out.
-/

namespace MiddleEnd

/-- Variables, sorted by name. -/
abbrev Vars := List (String × String)

namespace Vars

/-- Give a variable a value, whether it had one or not. -/
def put (name value : String) : Vars → Vars
  | [] => [(name, value)]
  | (n, v) :: rest =>
    if name < n then (name, value) :: (n, v) :: rest
    else if name = n then (name, value) :: rest
    else (n, v) :: put name value rest

/-- A name and a value joined by `=`. Blanks around the name do not count, and it must not be
empty. -/
def assignment? (text : String) : Option (String × String) :=
  let chars := text.toList
  match chars.dropWhile (· ≠ '=') with
  | [] => none
  | _ :: value =>
    match Text.trim (chars.takeWhile (· ≠ '=')) with
    | [] => none
    | name => some (String.ofList name, String.ofList value)

/-- The text that a TOML value stands for. -/
def valueText? : Toml.Item → Option String
  | .text s => some s
  | .integer n => some n.repr
  | .float x => some (Decimal.positionalText x)
  | .bool b => some (toString b)
  | _ => none

/-- The entries of a table, sorted by key. -/
def sorted (entries : Toml.Entries) : Toml.Entries := entries.mergeSort fun a b => a.1 ≤ b.1

/-- The variables in a table, or the first name whose value is no text, number or truth value. -/
def ofEntries (entries : Toml.Entries) : Except String Vars :=
  (sorted entries).mapM fun (name, item) =>
    match valueText? item with
    | some value => .ok (name, value)
    | none => .error name

end Vars

end MiddleEnd
