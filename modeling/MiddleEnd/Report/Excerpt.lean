import MiddleEnd.Report.Renderer
import MiddleEnd.Report.SourceLine

/-!
# MiddleEnd.Report.Excerpt

A renderer: lines of source text with a stretch of them marked, in a frame that says where it
starts. A stretch that stays in its line is underlined. One that goes on is a bracket in front of
the line it starts in and the line it ends in, and what is between them is left out.

The stretch counts characters. Columns of the drawing are as wide as the characters above them.

The drawing follows the library that the program uses, with the settings it has by default. What is
proved of reports does not rely on it, but on `Renderer.CountsChars`.
-/

namespace MiddleEnd.Report

open Text (Span)

/-! ## Stretches -/

/-- A line with a marked stretch. -/
structure Underlining where
  /-- The line without white space at its end. -/
  chars : List Char
  /-- The stretch, in characters of the line. -/
  span : Span
deriving DecidableEq, Repr

namespace Underlining

/-- The part of a stretch that is in a line. -/
def ofLine (line : SourceLine) (span : Span) : Underlining :=
  ⟨Text.trimEnd line.chars, ⟨span.start - line.offset, span.stop - line.offset⟩⟩

/-- The column from which the label hangs. -/
def middle (u : Underlining) : Nat := (u.span.start + u.span.stop) / 2

/-- Whether a column is marked. -/
def covers (u : Underlining) (column : Nat) : Bool := u.span.start ≤ column && column < u.span.stop

/-- The columns of the drawing, up to two behind the stretch. -/
def columns (u : Underlining) : List Nat := List.range (u.span.stop + 2)

/-- The number of cells of a column. Behind the end of the line it is one. -/
def columnCells (u : Underlining) (column : Nat) : Nat :=
  match u.chars[column]? with
  | some c => cells column c
  | none => 1

/-- A cell of the drawing. -/
def cell (drawn : Option Char) : Piece :=
  match drawn with
  | some c => painted .red c.toString
  | none => bare " "

/-- A column of a drawing: its first cell, and the others. -/
def column (u : Underlining) (index : Nat) (first others : Option Char) : List Piece :=
  match u.columnCells index with
  | 0 => []
  | n + 1 => cell first :: List.replicate n (cell others)

/-- The text of the line. -/
def textRow (u : Underlining) : List Piece :=
  u.chars.zipIdx.flatMap fun (c, index) =>
    (shown index c).map fun c => painted (if u.covers index then .red else .faint) c.toString

/-- The line drawn under the stretch. -/
def underlineRow (u : Underlining) : List Piece :=
  u.columns.flatMap fun index =>
    let under := if u.covers index then some '─' else none
    let first :=
      if index = u.middle then some (if u.covers index then '┬' else '│') else under
    u.column index first under

/-- The line drawn from the middle of the stretch to the label. -/
def labelRow (u : Underlining) (label : String) : List Piece :=
  u.columns.flatMap (fun index =>
    let first :=
      if index = u.middle then some '╰' else if u.middle < index then some '─' else none
    u.column index first (if u.middle ≤ index then some '─' else none))
    ++ [bare (" " ++ label)]

/-- The same in every column from the start of the line to two behind a length. -/
def fill (u : Underlining) (length : Nat) (drawn : Option Char) : List Piece :=
  (List.range (length + 2)).flatMap fun index => u.column index drawn drawn

end Underlining

/-! ## Frames -/

/-- So many spaces. -/
def spaces (n : Nat) : String := String.ofList (List.replicate n ' ')

/-- What stands in front of the text of a line, where numbers have so many digits. -/
def numbered (digits number : Nat) : List Piece :=
  [bare " ", painted .frame (spaces (digits - number.repr.length) ++ number.repr ++ " │"), bare " "]

/-- What stands in front of a row that has no number. -/
def margin (digits : Nat) : List Piece :=
  [bare " ", painted .margin (spaces (digits + 1) ++ "│"), bare " "]

/-- A row for what is left out of a bracket. -/
def gapRow (digits : Nat) : List Piece :=
  [bare " ", painted .margin (spaces (digits + 1) ++ "┆"), bare " ", painted .red "┆", bare "   "]

/-- The start of a bracket, in front of the text that it stands at. -/
def opening : String := "╭─▶ "

/-- The row that a bracket starts at. -/
def openingRow (digits : Nat) (line : SourceLine) (span : Span) : List Piece :=
  numbered digits line.number ++ paintedApart .red opening
    ++ (Underlining.ofLine line span).textRow

/-- The rows that a bracket ends with. -/
def closingRows (digits : Nat) (line : SourceLine) (span : Span) (label : String) :
    List (List Piece) :=
  let u := Underlining.ofLine line span
  [numbered digits line.number ++ paintedApart .red "├─▶ " ++ u.textRow,
    margin digits ++ [painted .red "│", bare "   "] ++ u.fill line.chars.length none,
    margin digits ++ paintedApart .red "╰───" ++ u.fill line.chars.length (some '─')
      ++ [bare (" " ++ label)]]

/-- A stretch that stays in its line; nothing but an empty row if it goes on behind the text. -/
def lineRows (digits : Nat) (line : SourceLine) (span : Span) (label : String) :
    List (List Piece) :=
  if line.stop < span.stop then [margin digits]
  else
    let u := Underlining.ofLine line span
    [numbered digits line.number ++ u.textRow, margin digits ++ u.underlineRow,
      margin digits ++ u.labelRow label]

/-- A stretch that starts in one line and ends in another. If it goes on behind the text, its
bracket has no end. -/
def bracketRows (digits : Nat) (first last : SourceLine) (span : Span) (label : String) :
    List (List Piece) :=
  if last.stop < span.stop then [openingRow digits first span, gapRow digits]
  else
    openingRow digits first span
      :: ((if last.number = first.number + 1 then [] else [gapRow digits])
        ++ closingRows digits last span label)

/-- Where a mark is said to start. -/
def place (number column : Nat) : String :=
  " <unknown>:" ++ number.repr ++ ":" ++ column.repr ++ " "

/-- The head of an excerpt, which says where the stretch starts. -/
def headRows (digits : Nat) (line : SourceLine) (start : Nat) : List (List Piece) :=
  let indent := bare (spaces (digits + 2))
  [indent :: paintedApart .frame "╭─["
      ++ [bare (place line.number (start - line.offset + 1)), painted .frame "]"],
    [indent, painted .frame "│"]]

/-- The lines of a note, where `line` is the beginning of the first one, latest character first.
They end with newlines, which a carriage return may stand before; neither belongs to the line. -/
def noteLines (line : List Char) : List Char → List (List Char)
  | [] => if line.isEmpty then [] else [line.reverse]
  | '\r' :: '\n' :: rest => line.reverse :: noteLines [] rest
  | '\n' :: rest => line.reverse :: noteLines [] rest
  | c :: rest => noteLines (c :: line) rest

/-- A note, whose lines stand below each other. -/
def noteRows (note : String) : List (List Piece) :=
  match (noteLines [] note.toList).map String.ofList with
  | [] => []
  | first :: rest =>
    [painted .note "Note", bare (": " ++ first)] :: rest.map fun line => [bare (spaces 6 ++ line)]

/-- The foot of an excerpt, with a note. A bracket keeps its cells in front of the note. -/
def footRows (digits : Nat) (bracketed : Bool) (note : String) : List (List Piece) :=
  let margin := margin digits ++ (if bracketed then [bare (spaces 4)] else [])
  margin :: (noteRows note).map (margin ++ ·)
    ++ [[painted .frame (String.ofList (List.replicate (digits + 2) '─') ++ "╯")]]

/-- The rows below the title. There are none if the stretch starts or ends behind the text. -/
def excerptRows (m : Mark) : List (List Piece) :=
  let span := m.span
  let length := m.text.length
  if length < span.start || (span.start < span.stop && length < span.stop - 1) then []
  else
    let first := lineAt span.start m.text
    let last := lineAt (max span.start (span.stop - 1)) m.text
    let digits := last.number.repr.length
    let rows :=
      if first.number = last.number then lineRows digits first span m.label
      else bracketRows digits first last span m.label
    headRows digits first span.start ++ rows ++ footRows digits (first.number ≠ last.number) m.note

/-- The first row. -/
def title (m : Mark) : List Piece :=
  [painted .red ("[" ++ m.code ++ "] Error:"), bare (" " ++ m.message)]

/-- Draw a mark with an excerpt of its text. -/
def Excerpt.draw : Renderer := fun m => some (title m :: excerptRows m)

end MiddleEnd.Report
