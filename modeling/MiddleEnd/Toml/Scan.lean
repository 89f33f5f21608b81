/-!
# MiddleEnd.Toml.Scan

Reading a text from its front. A scanner takes what it recognises and leaves the rest, or fails.
Alternatives (`<|>`) start over from the same place. Repetition is bounded by the length of the
text, which it cannot exceed because every repeated scanner takes something.
-/

namespace MiddleEnd.Toml

/-- A scanner for values of one type. -/
abbrev Scan (α : Type) := StateT (List Char) Option α

namespace Scan

/-- What is left. -/
def rest : Scan (List Char) := get

/-- Take a character with a property. -/
def charWhere (p : Char → Bool) : Scan Char := fun text =>
  match text with
  | c :: rest => if p c then some (c, rest) else none
  | [] => none

/-- Take a given character. -/
def char (c : Char) : Scan Unit := do
  let _ ← charWhere (· = c)

/-- Take given characters. -/
def chars : List Char → Scan Unit
  | [] => pure ()
  | c :: rest => do
    char c
    chars rest

/-- Take all characters up to the first without a property. -/
def takeWhile (p : Char → Bool) : Scan (List Char) := fun text =>
  some (text.takeWhile p, text.dropWhile p)

/-- Take a number of characters that all have a property. -/
def exactly (n : Nat) (p : Char → Bool) : Scan (List Char) := fun text =>
  let taken := text.take n
  if taken.length = n && taken.all p then some (taken, text.drop n) else none

/-- Take as many as possible, at most so many. -/
def repeatAtMost {α : Type} (item : Scan α) : Nat → Scan (List α)
  | 0 => pure []
  | n + 1 =>
    (do
      let a ← item
      return a :: (← repeatAtMost item n))
    <|> pure []

/-- Take as many as possible. -/
def many {α : Type} (item : Scan α) : Scan (List α) := do
  repeatAtMost item (← rest).length

/-- Take items with something in between; a separator without an item behind it is left. -/
def separated {α : Type} (item : Scan α) (separator : Scan Unit) : Scan (List α) :=
  (do
    let first ← item
    let others ← many do
      separator
      item
    return first :: others)
  <|> pure []

/-- Succeed only at the end of the text. -/
def atEnd : Scan Unit := fun text =>
  match text with
  | [] => some ((), [])
  | _ :: _ => none

/-- The next character, which is left. -/
def peek : Scan (Option Char) := fun text => some (text.head?, text)

end Scan

open Scan

/-! ## Digits -/

/-- Whether a character is a digit in base 16, small or capital. -/
def isHexDigit (c : Char) : Bool := c.isDigit || ('a' ≤ c && c ≤ 'f') || ('A' ≤ c && c ≤ 'F')

/-- The value of a digit in any base up to 16. -/
def digitValue (c : Char) : Nat :=
  if c.isDigit then c.toNat - '0'.toNat
  else if 'a' ≤ c then c.toNat - 'a'.toNat + 10
  else c.toNat - 'A'.toNat + 10

/-- The value of digits in a base. -/
def digitsValue (base : Nat) (digits : List Char) : Nat :=
  digits.foldl (fun n c => n * base + digitValue c) 0

/-! ## Blanks, line ends and comments -/

/-- Blanks within a line. -/
def isSpace (c : Char) : Bool := c = ' ' || c = '\t'

def spaces : Scan Unit := do
  let _ ← takeWhile isSpace

/-- Whether a character may stand in a line at all: no control character but the tab. -/
def isPlain (c : Char) : Bool := c = '\t' || (0x20 ≤ c.toNat && c.toNat ≠ 0x7F)

/-- The end of a line. -/
def newline : Scan Unit := char '\n' <|> chars ['\r', '\n']

/-- A comment, up to the end of its line. -/
def comment : Scan Unit := do
  char '#'
  let _ ← takeWhile isPlain

/-- What may stand behind the last thing in a line. -/
def lineEnd : Scan Unit := do
  spaces
  let _ ← optional comment
  newline <|> atEnd

/-- Blanks, line ends and comments. -/
def gap : Scan Unit := do
  let _ ← many ((do let _ ← charWhere isSpace) <|> newline <|> comment)

end MiddleEnd.Toml
