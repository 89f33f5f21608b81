import MiddleEnd.Decimal.Shortest

/-!
# MiddleEnd.Decimal.Float

Two ways to write a double, both with the fewest digits that read back: always positional, and
positional or scientific depending on its size. They differ in which of two equally near decimals
they take.
-/

namespace MiddleEnd.Decimal

/-- The sign of a double as text; zero has one too. -/
def signChars (x : Float) : List Char := if x.toBits ≥ 0x8000000000000000 then ['-'] else []

/-- A double without exponent. A whole number has no point, and what is no number is `NaN`. -/
def positionalText (x : Float) : String :=
  if x.isNaN then "NaN"
  else if x.isInf then String.ofList (signChars x ++ ['i', 'n', 'f'])
  else if x == 0 then String.ofList (signChars x ++ ['0'])
  else String.ofList (signChars x ++ ((Binary.ofBits x.toBits).shortest .upper).positional)

/-- How large and small numbers are written with an exponent. -/
structure FloatStyle where
  /-- The smallest exponent of a first digit that is written positionally. -/
  minPositional : Int
  /-- The largest one. -/
  maxPositional : Int
deriving DecidableEq, Repr

/-- Positional from `0.00001` up to below `10 ^ 16`. -/
def FloatStyle.standard : FloatStyle := ⟨-5, 15⟩

/-- An exponent, always with a sign. -/
def exponentChars (e : Int) : List Char :=
  (if e < 0 then '-' else '+') :: Nat.toDigits 10 e.natAbs

/-- A finite positive number: with a point in every case where it is positional, and with an
exponent otherwise. -/
def FloatStyle.write (n : FloatStyle) (d : Decimal) : List Char :=
  let e := d.leading
  if n.minPositional ≤ e && e ≤ n.maxPositional then
    if 0 ≤ d.exponent then d.positional ++ ['.', '0'] else d.positional
  else
    let tail := 'e' :: exponentChars e
    match d.digitChars with
    | [] => tail
    | [c] => c :: tail
    | c :: rest => c :: '.' :: rest ++ tail

/-- A finite double in a notation. -/
def FloatStyle.text (n : FloatStyle) (x : Float) : String :=
  if x == 0 then String.ofList (signChars x ++ ['0', '.', '0'])
  else String.ofList (signChars x ++ n.write ((Binary.ofBits x.toBits).shortest .even))

end MiddleEnd.Decimal
