import MiddleEnd.Toml.Moment
import MiddleEnd.Toml.Number
import MiddleEnd.Toml.Table
import MiddleEnd.Toml.Text

/-!
# MiddleEnd.Toml.Read

Reading TOML documents. Whether a text is one is all that is said of a text that is not.
-/

namespace MiddleEnd.Toml

open Scan

/-- How many arrays and tables may be nested in each other, and how many keys be joined by dots. -/
def depthLimit : Nat := 79

/-! ## Keys -/

def isBareKey (c : Char) : Bool := c.isAlphanum || c = '_' || c = '-'

/-- A single key. -/
def simpleKey : Scan String := do
  match ← peek with
  | some '"' => basicText
  | some '\'' => literalText
  | _ =>
    let first ← charWhere isBareKey
    let others ← takeWhile isBareKey
    return String.ofList (first :: others)

/-- A single key and the blanks around it. -/
def paddedKey : Scan String := do
  spaces
  let key ← simpleKey
  spaces
  return key

/-- Keys joined by dots: the last one, and the path before it. -/
def dottedKey : Scan (List String × String) := do
  let keys ← separated paddedKey (char '.')
  match keys.getLast? with
  | some key => if keys.length ≤ depthLimit then return (keys.dropLast, key) else failure
  | none => failure

/-! ## Values -/

/-- A date or time, as it is written. -/
def momentText : Scan String := do
  let before ← rest
  moment
  let after ← rest
  return String.ofList (before.take (before.length - after.length))

/-- A value that contains no others. -/
def scalar : Scan Item := do
  match ← peek with
  | some '"' | some '\'' => .text <$> text
  | some 't' =>
    chars ['t', 'r', 'u', 'e']
    return .bool true
  | some 'f' =>
    chars ['f', 'a', 'l', 's', 'e']
    return .bool false
  | _ => (.moment <$> momentText) <|> (.float <$> decimal) <|> (.float <$> special)
    <|> (.integer <$> integer)

/-- An array, whose items may stand on several lines and be followed by a comma. -/
def array (item : Scan Item) : Scan Item := do
  char '['
  let items ← separated (do gap; let i ← item; gap; return i) (char ',')
  unless items.isEmpty do
    let _ ← optional (char ',')
  gap
  char ']'
  return .array items

/-- A key and its value in a table between braces. -/
def inlineEntry (item : Scan Item) : Scan ((List String × String) × Item) := do
  let key ← dottedKey
  char '='
  spaces
  let i ← item
  spaces
  return (key, i)

/-- A table between braces, on one line. -/
def inlineTable (item : Scan Item) : Scan Item := do
  char '\x7b'
  let pairs ← separated (inlineEntry item) (char ',')
  spaces
  char '\x7d'
  match pairs.foldlM (fun entries ((path, key), i) => Entries.insert? path key i entries) [] with
  | some entries => return .inline entries
  | none => failure

/-- A value with at most so many arrays and tables inside each other. -/
def value : Nat → Scan Item
  | 0 => scalar
  | depth + 1 => do
    match ← peek with
    | some '[' => array (value depth)
    | some '\x7b' => inlineTable (value depth)
    | _ => scalar

/-! ## Documents -/

/-- A key and its value, on a line. -/
def keyLine (d : Draft) : Scan Draft := do
  let (path, key) ← dottedKey
  char '='
  spaces
  let item ← value depthLimit
  lineEnd
  match d.addKey path key item with
  | some d => return d
  | none => failure

/-- The header of a table, on a line. -/
def headerLine (d : Draft) : Scan Draft := do
  char '['
  let several : Bool := (← peek) = some '['
  if several then char '['
  let (path, key) ← dottedKey
  if several then char ']'
  char ']'
  lineEnd
  match d.addHeader (if several then Entries.openTables else Entries.openTable) path key with
  | some d => return d
  | none => failure

/-- A line without blanks in front of it. -/
def line (d : Draft) : Scan Draft := do
  match ← peek with
  | some '#' | some '\n' | some '\r' =>
    lineEnd
    return d
  | some '[' => headerLine d
  | _ => keyLine d

/-- Lines up to the end of the text, at most so many. -/
def lines : Nat → Draft → Scan Draft
  | 0, _ => failure
  | count + 1, d => do
    spaces
    match ← peek with
    | none => return d
    | some _ => lines count (← line d)

/-! ## Finished values -/

/-- The key of a table that stands for a date or a time. -/
def momentKey : String := "$__toml_private_datetime"

/-- The date or time that a table stands for, by the value of its key. -/
def momentItem? : Item → Option Item
  | .text s => if isMoment s then some (.moment s) else none
  | _ => none

mutual

/-- A value of a document that is complete. A table that begins with the key for it is a date or a
time, and fails if it is none; what else is in it does not count. Tables of one name are an array.
-/
def finishItem? : Item → Option Item
  | .array items => .array <$> finishItems? items
  | .inline entries => finishTable? .inline entries
  | .table origin entries => finishTable? (.table origin) entries
  | .tables all => do return .array (← finishTables? all).reverse
  | .text value => some (.text value)
  | .integer value => some (.integer value)
  | .float value => some (.float value)
  | .bool value => some (.bool value)
  | .moment text => some (.moment text)

/-- The values of an array. -/
def finishItems? : List Item → Option (List Item)
  | [] => some []
  | item :: rest => do return (← finishItem? item) :: (← finishItems? rest)

/-- The table that `make` makes of entries, or the date or time that they stand for. -/
def finishTable? (make : List (String × Item) → Item) : List (String × Item) → Option Item
  | [] => some (make [])
  | (key, item) :: rest =>
    if key = momentKey then momentItem? item
    else do return make ((key, ← finishItem? item) :: (← finishEntries? rest))

/-- The entries of a table. -/
def finishEntries? : List (String × Item) → Option (List (String × Item))
  | [] => some []
  | (key, item) :: rest => do return (key, ← finishItem? item) :: (← finishEntries? rest)

/-- Tables of one name. -/
def finishTables? : List (List (String × Item)) → Option (List Item)
  | [] => some []
  | entries :: rest => do
    return (← finishTable? (.table .header) entries) :: (← finishTables? rest)

end

/-- The entries of the document that a text is, if it is one. A mark for the order of bytes may
stand in front of it. -/
def read? (source : String) : Option Entries := do
  let source := match source.toList with
    | '\uFEFF' :: rest => rest
    | rest => rest
  let (d, _) ← (lines (source.length + 1) .empty).run source
  finishEntries? d.root

end MiddleEnd.Toml
