import MiddleEnd.Decimal.Nearest
import MiddleEnd.Json.Damage

/-!
# MiddleEnd.Json.Number

Reading numbers. A number is whole if it has neither a point nor an exponent and fits into 64 bits,
signed if it is negative and unsigned otherwise; every other number is a double.

A double is computed from the first digits only, as many as fit into 64 bits: they are scaled by a
power of ten in double arithmetic, so that the last bit may differ from the nearest double.

JSON only says how numbers are spelled. Which of them are whole and how the others are rounded is
assumed of the library that the program reads with.
-/

namespace MiddleEnd.Json

/-- A number that was read. -/
inductive Number where
  | whole (value : Int)
  | double (value : Float)
deriving Repr

/-- The part of a number that was read last. -/
inductive Numeral.Part where
  | sign
  /-- A zero in front, which no digit may follow. -/
  | zero
  | whole
  | point
  | fraction
  /-- The letter in front of an exponent. -/
  | mark
  | exponentSign
  | exponent
deriving DecidableEq, Repr

/-- A number while it is read. -/
structure Numeral where
  negative : Bool
  part : Numeral.Part
  /-- The digits before the exponent, as far as they are kept. -/
  digits : Nat
  /-- Whether digits were dropped from the part that is read. -/
  full : Bool
  /-- The power of ten of the last digit kept. -/
  scale : Int
  exponentNegative : Bool
  exponent : Nat
deriving DecidableEq, Repr

namespace Numeral

/-- The number that starts with a minus sign. -/
def minus : Numeral := ⟨true, .sign, 0, false, 0, false, 0⟩

/-- The value of a digit. -/
def digit? (c : Char) : Option Nat :=
  if '0' ≤ c && c ≤ '9' then some (c.toNat - '0'.toNat) else none

/-- The first digit of a number. -/
def first (negative : Bool) (d : Nat) : Numeral :=
  ⟨negative, if d = 0 then .zero else .whole, d, false, 0, false, 0⟩

/-- The digits with one more, where they still fit into 64 bits. -/
def extended? (n : Numeral) (d : Nat) : Option Nat :=
  if !n.full && n.digits * 10 + d < UInt64.size then some (n.digits * 10 + d) else none

/-- One more digit before the point. -/
def wholeDigit (n : Numeral) (d : Nat) : Numeral :=
  match n.extended? d with
  | some digits => { n with digits }
  | none => { n with full := true, scale := n.scale + 1 }

/-- One more digit after the point. -/
def fractionDigit (n : Numeral) (d : Nat) : Numeral :=
  match n.extended? d with
  | some digits => { n with part := .fraction, digits, scale := n.scale - 1 }
  | none => { n with part := .fraction, full := true }

/-- One more digit of the exponent. -/
def exponentDigit (n : Numeral) (d : Nat) : Numeral :=
  { n with part := .exponent, exponent := n.exponent * 10 + d }

/-- What a character does to a number. -/
inductive Change where
  | grow (n : Numeral)
  /-- The character does not belong to the number, which is complete. -/
  | stop
  /-- The character may not stand here. -/
  | bad
deriving DecidableEq, Repr

/-- Go on to the exponent. -/
def marked (n : Numeral) : Numeral := { n with part := .mark }

/-- The effect of the next character. -/
def next (n : Numeral) (c : Char) : Change :=
  let isMark := c = 'e' || c = 'E'
  match n.part, digit? c with
  | .sign, some d => .grow (first n.negative d)
  | .sign, none => .bad
  | .zero, some _ => .bad
  | .whole, some d => .grow (n.wholeDigit d)
  | .point, some d => .grow (n.fractionDigit d)
  | .point, none => .bad
  | .fraction, some d => .grow (n.fractionDigit d)
  | .mark, some d | .exponentSign, some d | .exponent, some d => .grow (n.exponentDigit d)
  | .mark, none =>
    if c = '+' then .grow { n with part := .exponentSign }
    else if c = '-' then .grow { n with part := .exponentSign, exponentNegative := true }
    else .bad
  | .exponentSign, none => .bad
  | .zero, none | .whole, none =>
    if c = '.' then .grow { n with part := .point, full := false }
    else if isMark then .grow n.marked
    else .stop
  | .fraction, none => if isMark then .grow n.marked else .stop
  | .exponent, none => .stop

/-- Whether a number may end here. -/
def isComplete (n : Numeral) : Bool :=
  match n.part with
  | .zero | .whole | .fraction | .exponent => true
  | .sign | .point | .mark | .exponentSign => false

/-! ## Values -/

/-- `10 ^ k` as a double. -/
def power (k : Nat) : Float := Decimal.nearest 1 k

/-- `x / 10 ^ k`. The division is done in steps of a power that a double can hold; after a few of
them nothing is left of any number that fits into 64 bits. -/
def divided : Nat → Float → Nat → Float
  | 0, x, _ => x
  | steps + 1, x, k =>
    if k ≤ 308 then x / power k
    else divided steps (x / power 308) (k - 308)

/-- `x · 10 ^ k`; `none` if a double cannot hold it. -/
def scaled? (x : Float) : Int → Option Float
  | .ofNat k =>
    if k ≤ 308 then
      let y := x * power k
      if y.isInf then none else some y
    else if x == 0 then some x else none
  | .negSucc k => some (divided 3 x (k + 1))

/-- The exponent as written, with the power of ten of the last digit. An exponent that does not fit
into 32 bits is beyond everything. -/
def totalScale (n : Numeral) : Int :=
  if n.exponentNegative then n.scale - n.exponent else n.scale + n.exponent

/-- A double with the sign of the number. -/
def signed (n : Numeral) (x : Float) : Float := if n.negative then -x else x

/-- Whether the number has neither a point nor an exponent. -/
def isWhole (n : Numeral) : Bool :=
  match n.part with
  | .zero | .whole => true
  | _ => false

/-- The value of a complete number; `none` if a double cannot hold it. A negative zero is not
whole. -/
def value? (n : Numeral) : Option Number :=
  let fits := if n.negative then 0 < n.digits && n.digits ≤ Nat.pow 2 63 else true
  if n.isWhole && !n.full && fits then
    some (.whole (if n.negative then -(n.digits : Int) else n.digits))
  else
    (scaled? n.digits.toUInt64.toFloat n.totalScale).map fun x => .double (n.signed x)

end Numeral

end MiddleEnd.Json
