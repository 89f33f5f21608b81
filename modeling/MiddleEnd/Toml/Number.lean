import MiddleEnd.Decimal.Nearest
import MiddleEnd.Toml.Scan

/-!
# MiddleEnd.Toml.Number

Numbers in TOML. Single underscores may stand between digits.
-/

namespace MiddleEnd.Toml

open Scan

/-! ## Digits -/

/-- The digits at the front of a text, without single underscores between them, and what is left
behind them. -/
def splitDigits (isDigit : Char → Bool) : List Char → List Char × List Char
  | [] => ([], [])
  | c :: rest =>
    if isDigit c then
      let (digits, rest) := splitDigits isDigit rest
      (c :: digits, rest)
    else if c = '_' && (rest.head?.map isDigit).getD false then splitDigits isDigit rest
    else ([], c :: rest)

/-- At least one digit. -/
def digits (isDigit : Char → Bool) : Scan (List Char) := do
  let first ← charWhere isDigit
  let others ← fun text => some (splitDigits isDigit text)
  return first :: others

/-- A sign; whether it is a minus. -/
def sign : Scan Bool := do
  match ← peek with
  | some '-' =>
    char '-'
    return true
  | some '+' =>
    char '+'
    return false
  | _ => return false

/-- The digits of a whole number, which has no zero in front unless it is zero. -/
def wholeDigits : Scan (List Char) := do
  match ← peek with
  | some '0' =>
    char '0'
    return ['0']
  | _ => digits Char.isDigit

/-! ## Numbers -/

/-- A whole number that fits into 64 bits. -/
def bounded (negative : Bool) (n : Nat) : Scan Int :=
  if negative then if n ≤ Nat.pow 2 63 then return -(n : Int) else failure
  else if n < Nat.pow 2 63 then return n else failure

/-- A whole number in another base than ten, behind a mark. -/
def radixInteger (mark : Char) (base : Nat) (isDigit : Char → Bool) : Scan Int := do
  chars ['0', mark]
  bounded false (digitsValue base (← digits isDigit))

/-- A whole number. -/
def integer : Scan Int := do
  match (← rest) with
  | '0' :: 'x' :: _ => radixInteger 'x' 16 isHexDigit
  | '0' :: 'o' :: _ => radixInteger 'o' 8 fun c => '0' ≤ c && c ≤ '7'
  | '0' :: 'b' :: _ => radixInteger 'b' 2 fun c => c = '0' || c = '1'
  | _ =>
    let negative ← sign
    bounded negative (digitsValue 10 (← wholeDigits))

/-- The part of a number behind its point, if there is one. -/
def fraction : Scan (Option (List Char)) := do
  match ← peek with
  | some '.' =>
    char '.'
    some <$> digits Char.isDigit
  | _ => return none

/-- The exponent of a number, if there is one. -/
def exponent : Scan (Option Int) := do
  match ← peek with
  | some 'e' | some 'E' =>
    let _ ← charWhere fun _ => true
    let negative ← sign
    let n := digitsValue 10 (← digits Char.isDigit)
    return some (if negative then -(n : Int) else n)
  | _ => return none

/-- A number with a point or an exponent. A positive one that is too large is no number, but a
negative one is minus infinity. -/
def decimal : Scan Float := do
  let negative ← sign
  let whole ← wholeDigits
  let after ← fraction
  let power ← exponent
  if after.isNone && power.isNone then failure
  let after := after.getD []
  let x := Decimal.nearest (digitsValue 10 (whole ++ after)) (power.getD 0 - after.length)
  if negative then return -x
  else if x.isInf then failure
  else return x

/-- Infinity or no number, with or without a sign. -/
def special : Scan Float := do
  let negative ← sign
  let x ← (do chars ['i', 'n', 'f']; return 1.0 / 0.0)
    <|> (do chars ['n', 'a', 'n']; return 0.0 / 0.0)
  return if negative then -x else x

end MiddleEnd.Toml
