import MiddleEnd.Json.Value
import MiddleEnd.Report.Excerpt
import MiddleEnd.Violation

/-!
# MiddleEnd.Report

Violations as they are shown: for people, with an excerpt of the source text where it is known, or
for programs, as one JSON object on one line.
-/

namespace MiddleEnd.Report

open Text (Span LineTable)

/-- How violations are shown. -/
inductive Format where
  | plain
  | colour
  | json
deriving DecidableEq, Repr

/-- A violation as a JSON object; the members are in alphabetical order. -/
def jsonOf (v : Violation) : Json :=
  .obj [("code", .str v.code), ("file", .str v.file), ("line", .int v.line.toNat),
    ("message", .str v.message), ("node", .str v.node.text), ("severity", .str "error")]

/-- A violation without a drawing. -/
def brief (v : Violation) : String :=
  "error[" ++ v.code ++ "]: " ++ v.message ++ "\n --> " ++ v.location.text ++ "\n"

/-- The stretch that is underlined for a line: the whole line, or the character behind its start if
it is empty and the text goes on. -/
def underlined (length : Nat) (line : Span) : Span :=
  let start := min line.start length
  let stop := max (min line.stop length) start
  ⟨start, if start = stop then min (stop + 1) length else stop⟩

/-- What is drawn for a violation in a line. The offsets of the line, which count bytes, are handed
on as they are, so a renderer that counts characters finds the line only where the two agree. -/
def mark (v : Violation) (source : String) (line : Span) : Mark where
  code := v.code
  message := v.message
  text := source.toList
  span := underlined (Text.byteLength source.toList) line
  label := v.kind.label
  note := "at " ++ v.node.text ++ " in " ++ v.location.text

/-- A violation in a format, drawn by a renderer. `source` is the text of the module that it is in,
where it was kept. There is a drawing if the text has the line and the drawing can be written. -/
def renderWith (draw : Renderer) (format : Format) (source : Option String) (v : Violation) :
    String :=
  match format with
  | .json => (jsonOf v).compact
  | .plain | .colour =>
    let drawing := do
      let source ← source
      let line ← (LineTable.ofText source.toList).line? v.line.toNat
      draw (mark v source line)
    match drawing with
    | none => brief v
    | some rows => write (format = .colour) rows

/-- A violation in a format, with an excerpt of its source text. -/
def render (format : Format) (source : Option String) (v : Violation) : String :=
  renderWith Excerpt.draw format source v

end MiddleEnd.Report
