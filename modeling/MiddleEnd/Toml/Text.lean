import MiddleEnd.Toml.Scan

/-!
# MiddleEnd.Toml.Text

The four ways to write a text in TOML: between double quotes with escapes or between single quotes
without, and on one line or over several. A text over several lines begins and ends with three
quotes; up to two quotes may stand right before the end of it, and a line end right behind its
begin is not part of it.
-/

namespace MiddleEnd.Toml

open Scan

/-! ## Escapes -/

/-- A character given by its number, of so many digits. -/
def codePoint (digits : Nat) : Scan Char := do
  let n := digitsValue 16 (← exactly digits isHexDigit)
  if n.isValidChar then return Char.ofNat n else failure

/-- What a backslash and the characters behind it stand for. -/
def escape : Scan Char := do
  char '\\'
  match ← charWhere fun _ => true with
  | 'b' => return '\x08'
  | 't' => return '\t'
  | 'n' => return '\n'
  | 'f' => return '\x0c'
  | 'r' => return '\r'
  | '"' => return '"'
  | '\\' => return '\\'
  | 'u' => codePoint 4
  | 'U' => codePoint 8
  | _ => failure

/-! ## On one line -/

/-- A text between double quotes. -/
def basicText : Scan String := do
  char '"'
  let chars ← many (charWhere (fun c => isPlain c && c ≠ '"' && c ≠ '\\') <|> escape)
  char '"'
  return String.ofList chars

/-- A text between single quotes. -/
def literalText : Scan String := do
  char '\''
  let chars ← takeWhile fun c => isPlain c && c ≠ '\''
  char '\''
  return String.ofList chars

/-! ## Over several lines -/

/-- One or two quotes that are not part of a longer row. -/
def fewQuotes (quote : Char) : Scan (List Char) := do
  let row ← takeWhile (· = quote)
  if 0 < row.length && row.length < 3 then return row else failure

/-- The quotes that end a text, and up to two before them that belong to it. -/
def closingQuotes (quote : Char) : Scan (List Char) := fun text =>
  let row := text.takeWhile (· = quote)
  if row.length < 3 then none
  else
    let extra := min (row.length - 3) 2
    some (row.take extra, text.drop (extra + 3))

/-- A backslash at the end of a line, with all blanks and line ends behind it. It stands for
nothing. -/
def foldedLines : Scan (List Char) := do
  char '\\'
  spaces
  newline
  let _ ← many ((do let _ ← charWhere isSpace) <|> newline)
  return []

/-- A line end inside a text. -/
def innerNewline : Scan (List Char) := do
  newline
  return ['\n']

/-- A text between three quotes on each side, made of pieces. -/
def longText (quote : Char) (piece : Scan (List Char)) : Scan String := do
  chars [quote, quote, quote]
  let _ ← optional newline
  let pieces ← many (piece <|> innerNewline <|> fewQuotes quote)
  let last ← closingQuotes quote
  return String.ofList (pieces.flatten ++ last)

/-- A stretch of characters that stand for themselves. -/
def plainPiece (p : Char → Bool) : Scan (List Char) := do
  let chars ← takeWhile fun c => isPlain c && p c
  if chars.isEmpty then failure else return chars

/-- A text between three double quotes on each side. -/
def longBasicText : Scan String :=
  longText '"'
    (plainPiece (fun c => c ≠ '"' && c ≠ '\\') <|> foldedLines <|> do return [← escape])

/-- A text between three single quotes on each side. -/
def longLiteralText : Scan String := longText '\'' (plainPiece (· ≠ '\''))

/-- A text. -/
def text : Scan String := do
  match (← rest) with
  | '"' :: '"' :: '"' :: _ => longBasicText
  | '\'' :: '\'' :: '\'' :: _ => longLiteralText
  | '"' :: _ => basicText
  | _ => literalText

end MiddleEnd.Toml
