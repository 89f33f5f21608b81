/-!
# MiddleEnd.Json.Value

JSON values as they are written: compactly on one line, or over several lines with two spaces per
level. Numbers are whole, since nothing that is written needs others. A text is written with the
escapes that JSON requires and no more, so that characters outside ASCII stand for themselves.

JSON leaves all of this open. It is the layout of the library that the program writes with, and that
the library writes so is assumed: which escapes are short, that digits of the others are lower case,
where spaces and line ends stand, and that what is empty is written on one line.
-/

namespace MiddleEnd

/-- A JSON value. The members of an object are written in the order given. -/
inductive Json where
  | null
  | bool (value : Bool)
  | int (value : Int)
  | str (text : String)
  | arr (items : List Json)
  | obj (members : List (String × Json))
deriving Repr, Inhabited

namespace Json

/-- A hexadecimal digit, in lower case. -/
def hexDigit (n : Nat) : Char := Nat.digitChar (n % 16)

/-- A character as it stands in a text. -/
def escapeChar (c : Char) : List Char :=
  match c with
  | '"' => ['\\', '"']
  | '\\' => ['\\', '\\']
  | '\n' => ['\\', 'n']
  | '\r' => ['\\', 'r']
  | '\t' => ['\\', 't']
  | '\x08' => ['\\', 'b']
  | '\x0c' => ['\\', 'f']
  | c =>
    if c.toNat < 0x20 then ['\\', 'u', '0', '0', hexDigit (c.toNat / 16), hexDigit c.toNat]
    else [c]

/-- A text between quotes. -/
def textChars (text : String) : List Char := '"' :: text.toList.flatMap escapeChar ++ ['"']

def boolChars : Bool → List Char
  | true => ['t', 'r', 'u', 'e']
  | false => ['f', 'a', 'l', 's', 'e']

def nullChars : List Char := ['n', 'u', 'l', 'l']

/-! ## On one line -/

mutual

/-- A value without any blanks. -/
def compactChars : Json → List Char
  | .null => nullChars
  | .bool b => boolChars b
  | .int n => n.repr.toList
  | .str s => textChars s
  | .arr items => '[' :: compactItems items ++ [']']
  | .obj members => '\x7b' :: compactMembers members ++ ['\x7d']

/-- The items of an array, separated by commas. -/
def compactItems : List Json → List Char
  | [] => []
  | [item] => compactChars item
  | item :: rest => compactChars item ++ ',' :: compactItems rest

/-- The members of an object, separated by commas. -/
def compactMembers : List (String × Json) → List Char
  | [] => []
  | [(key, value)] => textChars key ++ ':' :: compactChars value
  | (key, value) :: rest => textChars key ++ ':' :: compactChars value ++ ',' :: compactMembers rest

end

/-- A value on one line. -/
def compact (j : Json) : String := String.ofList j.compactChars

/-! ## Over several lines -/

/-- A new line, indented by so many levels. -/
def newline (level : Nat) : List Char := '\n' :: List.replicate (2 * level) ' '

mutual

/-- A value whose first line stands on the given level. -/
def prettyChars (level : Nat) : Json → List Char
  | .arr (item :: rest) =>
    '[' :: prettyItems (level + 1) (item :: rest) ++ newline level ++ [']']
  | .obj (member :: rest) =>
    '\x7b' :: prettyMembers (level + 1) (member :: rest) ++ newline level ++ ['\x7d']
  | .arr [] => ['[', ']']
  | .obj [] => ['\x7b', '\x7d']
  | .null => nullChars
  | .bool b => boolChars b
  | .int n => n.repr.toList
  | .str s => textChars s

/-- The items of an array, each on a line of its own. -/
def prettyItems (level : Nat) : List Json → List Char
  | [] => []
  | [item] => newline level ++ prettyChars level item
  | item :: rest => newline level ++ prettyChars level item ++ ',' :: prettyItems level rest

/-- The members of an object, each on a line of its own. -/
def prettyMembers (level : Nat) : List (String × Json) → List Char
  | [] => []
  | [(key, value)] => newline level ++ textChars key ++ ':' :: ' ' :: prettyChars level value
  | (key, value) :: rest =>
    newline level ++ textChars key ++ ':' :: ' ' :: prettyChars level value
      ++ ',' :: prettyMembers level rest

end

/-- A value over several lines, without a newline at the end. -/
def pretty (j : Json) : String := String.ofList (j.prettyChars 0)

end Json

end MiddleEnd
