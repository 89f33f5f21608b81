/-!
# MiddleEnd.Text.Lines

Where the lines of a text begin and end, in bytes of its UTF-8 form. Lines are separated by
newlines, which belong to no line; a text that ends with a newline has an empty last line.

A table of lines holds its offsets as 32-bit words, so those of a text of 4 GiB or more wrap around.
-/

namespace MiddleEnd.Text

/-- A stretch of a text, from `start` up to but not including `stop`. -/
structure Span where
  start : Nat
  stop : Nat
deriving DecidableEq, Repr

/-- The number of bytes of a text. -/
def byteLength (text : List Char) : Nat := text.foldr (fun c n => c.utf8Size + n) 0

/-- What is left of a text after so many bytes. -/
def dropBytes : Nat → List Char → List Char
  | 0, text => text
  | _ + 1, [] => []
  | n + 1, c :: rest => dropBytes (n + 1 - c.utf8Size) rest

/-- The first characters of a text, up to so many bytes. -/
def takeBytes : Nat → List Char → List Char
  | 0, _ => []
  | _ + 1, [] => []
  | n + 1, c :: rest => c :: takeBytes (n + 1 - c.utf8Size) rest

/-- The part of a text in a span of bytes. -/
def slice (text : List Char) (span : Span) : List Char :=
  takeBytes (span.stop - span.start) (dropBytes span.start text)

/-- The offsets right behind the newlines of a text that starts at `offset`. -/
def startsFrom (offset : Nat) : List Char → List UInt32
  | [] => []
  | c :: rest =>
    let next := offset + c.utf8Size
    if c = '\n' then next.toUInt32 :: startsFrom next rest else startsFrom next rest

/-- The lines of a text. -/
structure LineTable where
  /-- The offset of each line; the first is 0. -/
  starts : List UInt32
  /-- The length of the text. -/
  length : UInt32
deriving DecidableEq, Repr

namespace LineTable

/-- The lines of a text, found in one go. -/
def ofText (text : List Char) : LineTable := ⟨0 :: startsFrom 0 text, (byteLength text).toUInt32⟩

/-- The span of a line, counted from 1, without its newline; `none` for line 0 and for a line that
the text does not have. -/
def line? (t : LineTable) (line : Nat) : Option Span :=
  match line with
  | 0 => none
  | index + 1 =>
    match t.starts.drop index with
    | [] => none
    | [start] => some ⟨start.toNat, t.length.toNat⟩
    | start :: next :: _ => some ⟨start.toNat, (next - 1).toNat⟩

end LineTable

end MiddleEnd.Text
