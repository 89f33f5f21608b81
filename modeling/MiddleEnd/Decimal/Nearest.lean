/-!
# MiddleEnd.Decimal.Nearest

The double nearest to a decimal number; of two equally near ones, that with the even mantissa.
The result is computed in exact arithmetic. A number beyond all doubles becomes infinite, and one
nearer to zero than to every other double becomes zero.
-/

namespace MiddleEnd.Decimal

/-- `numerator / denominator` rounded to the nearest whole number, to the even one if two are
equally near. -/
def roundEven (numerator denominator : Nat) : Nat :=
  let q := numerator / denominator
  let r := numerator % denominator
  if 2 * r < denominator then q
  else if denominator < 2 * r then q + 1
  else q + q % 2

/-- `numerator / (denominator · 2 ^ exponent)`, as a fraction. -/
def scaleBy (numerator denominator : Nat) (exponent : Int) : Nat × Nat :=
  (numerator * Nat.pow 2 (-exponent).toNat, denominator * Nat.pow 2 exponent.toNat)

/-- The exponent of the last bit of a positive fraction as a double, of which 53 bits are kept, or
fewer for the smallest numbers. -/
def lastBit (numerator denominator : Nat) : Int :=
  let guess : Int := numerator.log2 - denominator.log2 - 52
  let (n, d) := scaleBy numerator denominator guess
  max (if n / d < Nat.pow 2 52 then guess - 1 else guess) (-1074)

/-- The bits of an infinite double. -/
def infinityBits : Nat := 0x7FF * Nat.pow 2 52

/-- The bits of the double nearest to a positive fraction. -/
def nearestBits (numerator denominator : Nat) : Nat :=
  let exponent := lastBit numerator denominator
  let (n, d) := scaleBy numerator denominator exponent
  let mantissa := roundEven n d
  -- the leading bit of the mantissa, which is not stored, counts the stored exponent up by one
  min ((exponent + 1074).toNat * Nat.pow 2 52 + mantissa) infinityBits

/-- The double nearest to `digits · 10 ^ exponent`. Numbers far out of range are not multiplied
out. -/
def nearest (digits : Nat) (exponent : Int) : Float :=
  let magnitude := exponent + (Nat.toDigits 10 digits).length
  if digits = 0 || magnitude < -400 then 0
  else if 400 < magnitude then Float.ofBits infinityBits.toUInt64
  else
    let bits := nearestBits (digits * Nat.pow 10 exponent.toNat) (Nat.pow 10 (-exponent).toNat)
    Float.ofBits bits.toUInt64

end MiddleEnd.Decimal
