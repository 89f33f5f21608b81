/-!
# MiddleEnd.Toml.Write

Writing TOML documents whose values are texts, whole numbers and truth values. A text is written in
the plainest of the four ways that can hold it without escapes, and with escapes if none can; a key
likewise. Which way it is depends on how many quotes stand in a row.

TOML asks for none of this: it is how the writer goes about it that the program uses. Of that writer
one thing is assumed that no document needs, that it counts the quotes in a row in eight bits and,
built so that it checks for overflow, stops at a longer row (`rowLimit`). A writer that counts
further would write such texts too.
-/

namespace MiddleEnd.Toml

/-- A value that is written. -/
inductive Scalar where
  | text (value : String)
  | integer (value : Int)
  | bool (value : Bool)
deriving DecidableEq, Repr

/-- A table that is written; the one at the top has no header. -/
structure Section where
  header : Option String
  entries : List (String × Scalar)
deriving DecidableEq, Repr

/-! ## Texts -/

/-- Whether a character must be escaped wherever escapes are known. -/
def isControl (c : Char) : Bool := (c.toNat < 0x20 && c ≠ '\t') || c.toNat = 0x7F

/-- The length of the longest row of a character, where `row` of them came right before and
`longest` is the longest row until then. -/
def longestRow (quote : Char) (row longest : Nat) : List Char → Nat
  | [] => max row longest
  | c :: rest =>
    if c = quote then longestRow quote (row + 1) longest rest
    else longestRow quote 0 (max row longest) rest

/-- The longest row of quotes of one kind that is counted: an assumption about the writer, and no
rule of TOML. -/
def rowLimit : Nat := UInt8.size - 1

/-- Whether the writer can count the quotes in a text. -/
def isCountable (text : List Char) : Bool :=
  longestRow '"' 0 0 text ≤ rowLimit && longestRow '\'' 0 0 text ≤ rowLimit

/-- A number with four hexadecimal digits. -/
def fourDigits (n : Nat) : List Char :=
  let digits := (Nat.toDigits 16 n).map Char.toUpper
  List.replicate (4 - digits.length) '0' ++ digits

/-- A character between double quotes. -/
def escapeChar (c : Char) : List Char :=
  match c with
  | '\x08' => ['\\', 'b']
  | '\t' => ['\\', 't']
  | '\n' => ['\\', 'n']
  | '\x0c' => ['\\', 'f']
  | '\r' => ['\\', 'r']
  | '"' => ['\\', '"']
  | '\\' => ['\\', '\\']
  | c => if isControl c then '\\' :: 'u' :: fourDigits c.toNat else [c]

/-- The inside of a text over several lines, where `row` double quotes came right before. Line ends
stand for themselves, and of three quotes in a row the third is escaped. -/
def escapeLong (row : Nat) : List Char → List Char
  | [] => []
  | c :: rest =>
    if c = '"' then
      if row = 2 then '\\' :: '"' :: escapeLong 0 rest else '"' :: escapeLong (row + 1) rest
    else if c = '\n' then '\n' :: escapeLong 0 rest
    else escapeChar c ++ escapeLong 0 rest

/-- A text between double quotes. -/
def basicChars (text : List Char) : List Char := '"' :: text.flatMap escapeChar ++ ['"']

/-- A text between single quotes. -/
def literalChars (text : List Char) : List Char := '\'' :: text ++ ['\'']

/-- A text between three quotes on each side, starting on a new line if it has several. -/
def longChars (quote : Char) (text inside : List Char) : List Char :=
  [quote, quote, quote] ++ (if text.contains '\n' then ['\n'] else []) ++ inside
    ++ [quote, quote, quote]

/-- A text as a value. -/
def textChars (text : List Char) : List Char :=
  let hasLines := text.contains '\n'
  let hasControl := text.any fun c => isControl c && c ≠ '\n'
  let hasBackslash := text.contains '\\'
  let doubleRow := longestRow '"' 0 0 text
  let singleRow := longestRow '\'' 0 0 text
  if !hasControl && !hasBackslash && doubleRow = 0 && !hasLines then basicChars text
  else if !hasControl && singleRow = 0 && !hasLines then literalChars text
  else if !hasControl && !hasBackslash && doubleRow ≤ 2 then longChars '"' text (escapeLong 0 text)
  else if !hasControl && singleRow ≤ 2 then longChars '\'' text text
  else if hasLines then longChars '"' text (escapeLong 0 text)
  else basicChars text

/-- A text as a key. -/
def keyChars (key : List Char) : List Char :=
  let hasControl := key.any isControl
  if !key.isEmpty && key.all fun c => c.isAlphanum || c = '_' || c = '-' then key
  else if !hasControl && !key.contains '\\' && !key.contains '"' then basicChars key
  else if !hasControl && !key.contains '\'' then literalChars key
  else basicChars key

/-! ## Documents -/

def Scalar.chars : Scalar → List Char
  | .text s => textChars s.toList
  | .integer n => n.repr.toList
  | .bool true => ['t', 'r', 'u', 'e']
  | .bool false => ['f', 'a', 'l', 's', 'e']

/-- A key and its value, on a line. -/
def entryChars (key : String) (value : Scalar) : List Char :=
  keyChars key.toList ++ [' ', '=', ' '] ++ value.chars ++ ['\n']

def Section.chars (s : Section) : List Char :=
  (match s.header with
    | none => []
    | some name => ['\n', '['] ++ keyChars name.toList ++ [']', '\n'])
    ++ s.entries.flatMap fun (key, value) => entryChars key value

/-- Whether the writer gets to the end of a value. -/
def Scalar.isWritable : Scalar → Bool
  | .text s => isCountable s.toList
  | .integer _ | .bool _ => true

/-- Whether all values of a section can be written. Its keys always can: a key takes up one line, so
it only matters whether there are quotes in it. -/
def Section.isWritable (s : Section) : Bool := s.entries.all fun (_, value) => value.isWritable

/-- A document, if all of its values can be written. -/
def write? (sections : List Section) : Option String :=
  if sections.all Section.isWritable then some (String.ofList (sections.flatMap Section.chars))
  else none

end MiddleEnd.Toml
