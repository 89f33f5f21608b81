/-!
# MiddleEnd.Report.Paint

Text in colours. A report is a list of pieces, each painted as a whole; a terminal is told the
colour before a piece and told to forget it after it.
-/

namespace MiddleEnd.Report

/-- The colours of a report. -/
inductive Colour where
  | red
  /-- For the frame around an excerpt. -/
  | frame
  /-- For the margin below a line number. -/
  | margin
  /-- For text that is not concerned. -/
  | faint
  /-- For the heading of a note. -/
  | note
deriving DecidableEq, Repr

/-- The code that selects a colour. -/
def Colour.code : Colour → String
  | .red => "31"
  | .frame => "38;5;246"
  | .margin => "38;5;240"
  | .faint => "38;5;249"
  | .note => "38;5;115"

/-- A stretch of text in one colour, or in none. -/
structure Piece where
  text : String
  colour : Option Colour
deriving DecidableEq, Repr

/-- Text without a colour. -/
def bare (text : String) : Piece := ⟨text, none⟩

/-- Text in a colour. -/
def painted (colour : Colour) (text : String) : Piece := ⟨text, some colour⟩

/-- Every character of a text as a piece of its own. -/
def paintedApart (colour : Colour) (text : String) : List Piece :=
  text.toList.map fun c => painted colour c.toString

/-- A piece as a terminal wants it, or only its text. -/
def Piece.render (inColour : Bool) (p : Piece) : String :=
  match p.colour with
  | none => p.text
  | some colour =>
    if inColour then "\x1b[" ++ colour.code ++ "m" ++ p.text ++ "\x1b[0m" else p.text

/-- Pieces one after another. -/
def renderAll (inColour : Bool) (pieces : List Piece) : String :=
  String.join (pieces.map (Piece.render inColour))

end MiddleEnd.Report
