/-!
# MiddleEnd.Decimal.Shortest

The shortest decimal that reads back as a given binary number, and the nearest of those. A finite
double is `mantissa · 2 ^ exponent`; the reals that round to it form an interval around it, which
contains its ends exactly if the mantissa is even. For 1, 2, … digits the two neighbours of the
number on the decimal grid of that many digits are tested, and the first grid with a hit wins.
Everything is exact arithmetic on natural numbers.
-/

namespace MiddleEnd

/-- A positive decimal number, `digits · 10 ^ exponent`. -/
structure Decimal where
  digits : Nat
  exponent : Int
deriving DecidableEq, Repr

namespace Decimal

/-- The same number without zeros at the end of its digits, in at most so many steps. -/
def stripZeros : Nat → Decimal → Decimal
  | 0, d => d
  | steps + 1, d =>
    if d.digits % 10 = 0 && d.digits ≠ 0 then stripZeros steps ⟨d.digits / 10, d.exponent + 1⟩
    else d

/-- The digits of the number. -/
def digitChars (d : Decimal) : List Char := Nat.toDigits 10 d.digits

/-- The exponent of the first digit. -/
def leading (d : Decimal) : Int := d.exponent + d.digitChars.length - 1

/-- The number with all its digits before and after the point; no point if nothing comes after
it. -/
def positional (d : Decimal) : List Char :=
  let chars := d.digitChars
  match d.exponent with
  | .ofNat n => chars ++ List.replicate n '0'
  | .negSucc n =>
    let after := n + 1
    if after < chars.length then
      chars.take (chars.length - after) ++ '.' :: chars.drop (chars.length - after)
    else
      ['0', '.'] ++ List.replicate (after - chars.length) '0' ++ chars

/-- A finite double without its sign: `mantissa · 2 ^ exponent`. `isolated` says that the next
smaller double is nearer than the next larger one. -/
structure Binary where
  mantissa : Nat
  exponent : Int
  isolated : Bool
deriving DecidableEq, Repr

/-- The parts of a finite double given by its bits. -/
def Binary.ofBits (bits : UInt64) : Binary :=
  let fraction : Nat := bits.toNat % Nat.pow 2 52
  let biased : Nat := bits.toNat / Nat.pow 2 52 % Nat.pow 2 11
  if biased = 0 then ⟨fraction, -1074, false⟩
  else ⟨fraction + Nat.pow 2 52, (biased : Int) - 1075, fraction = 0 && 1 < biased⟩

/-- The interval of reals that round to a number, over one denominator. -/
structure Interval where
  low : Nat
  value : Nat
  high : Nat
  denominator : Nat
  /-- Whether the ends belong to the interval. -/
  closed : Bool
deriving DecidableEq, Repr

/-- The interval around a positive number. The ends lie half way to its neighbours. -/
def Binary.interval (b : Binary) : Interval :=
  let exponent := b.exponent - 2
  let scale := Nat.pow 2 exponent.toNat
  { low := (4 * b.mantissa - (if b.isolated then 1 else 2)) * scale
    value := 4 * b.mantissa * scale
    high := (4 * b.mantissa + 2) * scale
    denominator := Nat.pow 2 (-exponent).toNat
    closed := b.mantissa % 2 = 0 }

/-- A number and a decimal brought to one denominator: the numerators of both. -/
def Interval.align (i : Interval) (numerator : Nat) (d : Decimal) : Nat × Nat :=
  (numerator * Nat.pow 10 (-d.exponent).toNat,
    d.digits * Nat.pow 10 d.exponent.toNat * i.denominator)

/-- Whether a decimal lies in the interval. -/
def Interval.contains (i : Interval) (d : Decimal) : Bool :=
  let (low, x) := i.align i.low d
  let (high, _) := i.align i.high d
  if i.closed then low ≤ x && x ≤ high else low < x && x < high

/-- The distance of a decimal from the value, in units that depend only on its exponent. -/
def Interval.distance (i : Interval) (d : Decimal) : Nat :=
  let (value, x) := i.align i.value d
  (value - x) + (x - value)

/-- The exponent of the first decimal digit of the value. -/
def Interval.leading (i : Interval) : Int :=
  if i.denominator ≤ i.value then (Nat.toDigits 10 (i.value / i.denominator)).length - 1
  else -((Nat.toDigits 10 ((i.denominator + i.value - 1) / i.value - 1)).length : Int)

/-- The decimals of the grid `10 ^ exponent` right below and right above the value. -/
def Interval.neighbours (i : Interval) (exponent : Int) : Decimal × Decimal :=
  let below := i.value * Nat.pow 10 (-exponent).toNat
    / (i.denominator * Nat.pow 10 exponent.toNat)
  (⟨below, exponent⟩, ⟨below + 1, exponent⟩)

/-- Which of two equally near decimals is taken. -/
inductive Tie where
  | upper
  /-- The one with the even last digit. -/
  | even
deriving DecidableEq, Repr

/-- Whether the lower one of two neighbours is taken, given how far both are. -/
def Tie.takesLower (tie : Tie) (lower : Decimal) (toLower toUpper : Nat) : Bool :=
  toLower < toUpper || (toLower = toUpper && tie = .even && lower.digits % 2 = 0)

/-- The best decimal on a grid: of two neighbours in the interval the nearer. -/
def Interval.onGrid? (i : Interval) (tie : Tie) (exponent : Int) : Option Decimal :=
  let (lower, upper) := i.neighbours exponent
  match i.contains lower, i.contains upper with
  | true, true =>
    some (if tie.takesLower lower (i.distance lower) (i.distance upper) then lower else upper)
  | true, false => some lower
  | false, true => some upper
  | false, false => none

/-- The best decimal with a number of digits between `digits` and `digits + more`. -/
def Interval.shortestFrom (i : Interval) (tie : Tie) (digits : Nat) : Nat → Decimal
  | 0 => (i.neighbours (i.leading - digits + 1)).1
  | more + 1 =>
    match i.onGrid? tie (i.leading - digits + 1) with
    | some d => d
    | none => i.shortestFrom tie (digits + 1) more

/-- The shortest decimal that reads back as a positive number. Seventeen digits always do. -/
def Binary.shortest (b : Binary) (tie : Tie) : Decimal :=
  (b.interval.shortestFrom tie 1 17).stripZeros 18

end Decimal

end MiddleEnd
