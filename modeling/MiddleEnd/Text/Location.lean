/-!
# MiddleEnd.Text.Location

A line of a file. Lines count from 1; line 0 stands for a place that is in no file, such as that of
a node a pass made up.
-/

namespace MiddleEnd

/-- A file and a line in it. -/
structure Location where
  file : String
  line : UInt32
deriving DecidableEq, Repr

namespace Location

/-- Whether the location is a line of a file. -/
def isKnown (l : Location) : Bool := 0 < l.line

/-- The file, with the line if it is known. -/
def text (l : Location) : String :=
  if l.isKnown then l.file ++ ":" ++ l.line.toNat.repr else l.file

end Location

end MiddleEnd
