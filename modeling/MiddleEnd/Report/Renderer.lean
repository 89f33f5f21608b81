import MiddleEnd.Report.Paint
import MiddleEnd.Text.Lines

/-!
# MiddleEnd.Report.Renderer

What a report asks of the library that draws it: to mark a stretch of a source text, under a title,
with a label and a note. The library is not a part of the program, so what is said about reports is
said for every `Renderer` that obeys the rules it needs.
-/

namespace MiddleEnd.Report

open Text (Span)

/-- What is to be drawn. -/
structure Mark where
  /-- A short name for the kind of mark, for its title. -/
  code : String
  message : String
  /-- The source text. -/
  text : List Char
  /-- The stretch that is marked. It is the library that says what its ends count. -/
  span : Span
  label : String
  note : String
deriving DecidableEq, Repr

/-- A library that draws marks, row by row; `none` if a drawing cannot be written. -/
abbrev Renderer := Mark → Option (List (List Piece))

/-- A row of a drawing. -/
def row (pieces : List Piece) : List Piece := pieces ++ [bare "\n"]

/-- A drawing as a text. -/
def write (inColour : Bool) (rows : List (List Piece)) : String :=
  renderAll inColour (rows.flatMap row)

end MiddleEnd.Report
