import MiddleEnd.Toml.Scan

/-!
# MiddleEnd.Toml.Moment

Dates and times in TOML, as values of a document and as texts that stand for them.
-/

namespace MiddleEnd.Toml

open Scan

/-- A number of so many digits in a range. -/
def field (length low high : Nat) : Scan Nat := do
  let n := digitsValue 10 (← exactly length Char.isDigit)
  if low ≤ n && n ≤ high then return n else failure

/-- The number of days in a month. -/
def daysIn (year month : Nat) : Nat :=
  match month with
  | 2 => if year % 4 = 0 && (year % 100 ≠ 0 || year % 400 = 0) then 29 else 28
  | 4 | 6 | 9 | 11 => 30
  | _ => 31

/-- A date. -/
def date : Scan Unit := do
  let year ← field 4 0 9999
  char '-'
  let month ← field 2 1 12
  char '-'
  let day ← field 2 1 31
  if daysIn year month < day then failure

/-- A fraction of a second. -/
def secondFraction : Scan Unit := do
  char '.'
  let _ ← charWhere Char.isDigit
  let _ ← takeWhile Char.isDigit

/-- A time of day. A minute may have a leap second. -/
def time : Scan Unit := do
  let _ ← field 2 0 23
  char ':'
  let _ ← field 2 0 59
  char ':'
  let _ ← field 2 0 60
  let _ ← optional secondFraction

/-- A difference to universal time. -/
def offset : Scan Unit := do
  match ← charWhere fun c => c = 'Z' || c = 'z' || c = '+' || c = '-' with
  | '+' | '-' =>
    let _ ← field 2 0 23
    char ':'
    let _ ← field 2 0 59
  | _ => pure ()

/-- A date, with a time and a difference to universal time, or a time. -/
def moment : Scan Unit :=
  (do
    date
    let _ ← optional do
      let _ ← charWhere fun c => c = 'T' || c = 't' || c = ' '
      time
      let _ ← optional offset)
  <|> time

/-- Whether a text is a date or a time, and nothing more. -/
def isMoment (text : String) : Bool := ((do moment; atEnd).run text.toList).isSome

end MiddleEnd.Toml
