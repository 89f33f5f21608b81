import MiddleEnd.Text.Blank
import MiddleEnd.Text.Width

/-!
# MiddleEnd.Report.SourceLine

The lines of a source text as a report counts and draws them.

Positions are counted in characters. Lines end at every line break that Unicode knows, with the
break as their last character. White space is drawn as spaces, and at the end of a line not at all.
-/

namespace MiddleEnd.Report

/-! ## Lines -/

/-- Whether a character ends a line by itself. -/
def breaksLine (c : Char) : Bool :=
  c = '\n' || c = '\r' || c = '\x0b' || c = '\x0c' || c = Char.ofNat 0x85
    || c = Char.ofNat 0x2028 || c = Char.ofNat 0x2029

/-- The lines of a text, where `line` is the beginning of the first one, latest character first.
Behind a final break there is no line. -/
def breakLines (line : List Char) : List Char → List (List Char)
  | [] => if line.isEmpty then [] else [line.reverse]
  | '\r' :: '\n' :: rest => ('\n' :: '\r' :: line).reverse :: breakLines [] rest
  | c :: rest =>
    if breaksLine c then (c :: line).reverse :: breakLines [] rest
    else breakLines (c :: line) rest

/-- The lines of a source text, of which there is at least one. -/
def sourceLines (text : List Char) : List (List Char) :=
  match breakLines [] text with
  | [] => [[]]
  | lines => lines

/-- A line of a source text. -/
structure SourceLine where
  /-- Counted from 1. -/
  number : Nat
  /-- Characters before the line. -/
  offset : Nat
  chars : List Char
deriving DecidableEq, Repr

/-- The position behind a line and its break. -/
def SourceLine.stop (line : SourceLine) : Nat := line.offset + line.chars.length

/-- The last of several lines that starts at or before a position; `line` is the one before
them. -/
def lineFrom (position : Nat) (line : SourceLine) : List (List Char) → SourceLine
  | [] => line
  | chars :: rest =>
    let offset := line.offset + line.chars.length
    if offset ≤ position then lineFrom position ⟨line.number + 1, offset, chars⟩ rest else line

/-- The line of a source text that a position is in. -/
def lineAt (position : Nat) (text : List Char) : SourceLine :=
  match sourceLines text with
  | [] => ⟨1, 0, []⟩
  | chars :: rest => lineFrom position ⟨1, 0, chars⟩ rest

/-! ## Columns -/

/-- The number of cells of the character with an index in its line. A tab goes to the next multiple
of four. -/
def cells (index : Nat) (c : Char) : Nat :=
  if c = '\t' then 4 - index % 4
  else if Text.isBlank c then 1
  else Text.width c

/-- What is written for the character with an index in its line: white space is spaces. -/
def shown (index : Nat) (c : Char) : List Char :=
  if Text.isBlank c then List.replicate (cells index c) ' ' else [c]

/-- What is written for a line. -/
def drawn (chars : List Char) : List Char :=
  (Text.trimEnd chars).zipIdx.flatMap fun (c, index) => shown index c

end MiddleEnd.Report
