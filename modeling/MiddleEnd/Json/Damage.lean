/-!
# MiddleEnd.Json.Damage

What can be wrong with a text that should be JSON. A reader stops at the first thing it cannot
use, so the order in which damage is met matters. It depends on whether the reader needs a value
or skips it: a number that is too large and a text with half a surrogate pair cannot be read, but
they can be skipped.

JSON does not say in which order damage is met, or what can be skipped. Here it is as in the library
that the program reads with, which is assumed to go through a text once and to stop where it is.
-/

namespace MiddleEnd.Json

/-- How a text fails to be JSON. -/
inductive Damage where
  /-- Something stands where it must not. -/
  | malformed
  /-- The text ends too early. -/
  | truncated
deriving DecidableEq, Repr

/-- What a value is, as far as its first character tells. -/
inductive Kind where
  /-- No value starts here. -/
  | nothing
  /-- The word `null`. -/
  | null
  /-- The word `true` or the word `false`. -/
  | bool
  | number
  | text
deriving DecidableEq, Repr

/-- A value that cannot be read. -/
structure Wreck where
  kind : Kind
  /-- What a reader meets that needs the value. -/
  read : Damage
  /-- What a reader meets that skips the value; `none` if it can be skipped. -/
  skip : Option Damage
deriving DecidableEq, Repr

namespace Wreck

/-- A value that can neither be read nor skipped. -/
def lost (kind : Kind) (damage : Damage) : Wreck := ⟨kind, damage, some damage⟩

/-- No value where one must stand. -/
def absent (damage : Damage) : Wreck := lost .nothing damage

end Wreck

end MiddleEnd.Json
