/-!
# MiddleEnd.Walk.Cursor

Going through a list that may change between two steps. A cursor hands out every entry once: an
entry inserted at or after the one handed out last is met when the cursor gets there, an entry
removed before that is not met, and entries that an insertion shifted to the right are skipped.
-/

namespace MiddleEnd

/-- A position in a changing list. -/
structure Cursor (α : Type) where
  /-- Everything before this index was handed out, or stands behind the cursor. -/
  low : Nat
  /-- The entries handed out so far, latest first. -/
  handed : List α
deriving Repr

namespace Cursor

variable {α : Type} [DecidableEq α]

/-- A cursor before the first entry. -/
def start : Cursor α := ⟨0, []⟩

/-- The first entry at or after the cursor that was not handed out before, with its index. -/
def next? (c : Cursor α) (entries : List α) : Option (Nat × α × Cursor α) :=
  match (entries.drop c.low).dropWhile (· ∈ c.handed) with
  | [] => none
  | x :: rest =>
    let index := entries.length - (rest.length + 1)
    some (index, x, ⟨index, x :: c.handed⟩)

end Cursor

/-- The first entry that also stands earlier in `entries` or is among `earlier`. -/
def firstRepeat? {α : Type} [DecidableEq α] (earlier : List α) : List α → Option α
  | [] => none
  | x :: rest => if x ∈ earlier then some x else firstRepeat? (x :: earlier) rest

end MiddleEnd
