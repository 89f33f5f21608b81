/-!
# MiddleEnd.Toml.Table

TOML values and the tables they are collected in. A table may be written in one place only, but it
may be named in passing before that, by the header of a table inside it or by a key with dots. So
a table remembers where it comes from, which decides what may still be added to it.
-/

namespace MiddleEnd.Toml

/-- Where a table comes from. -/
inductive Origin where
  /-- It has a header of its own. -/
  | header
  /-- It was named in a longer header. -/
  | implied
  /-- It was named in a key with dots. -/
  | dotted
deriving DecidableEq, Repr

/-- A TOML value. -/
inductive Item where
  | text (value : String)
  | integer (value : Int)
  | float (value : Float)
  | bool (value : Bool)
  /-- A date or a time, as it is written. -/
  | moment (text : String)
  | array (items : List Item)
  /-- A table between braces, to which nothing can be added. -/
  | inline (entries : List (String × Item))
  | table (origin : Origin) (entries : List (String × Item))
  /-- Tables under headers of one name, latest first. -/
  | tables (all : List (List (String × Item)))
deriving Repr, Inhabited

/-- Keys with their values, in the order they were added. No two keys are the same. -/
abbrev Entries := List (String × Item)

namespace Entries

/-- Give a key, which is there, another value. -/
def replace (entries : Entries) (key : String) (item : Item) : Entries :=
  entries.map fun (k, old) => if k = key then (k, item) else (k, old)

/-- Add a key, which must not be there. -/
def add? (entries : Entries) (key : String) (item : Item) : Option Entries :=
  if (entries.lookup key).isSome then none else some (entries ++ [(key, item)])

/-- Change the table at the end of a path. The path may lead through tables of the origins that
`passes` allows, and through the last one of several tables of one name; tables that are missing
are made. -/
def modifyAt (made : Origin) (passes : Origin → Bool)
    (change : Origin → Entries → Option Entries) :
    List String → Origin → Entries → Option Entries
  | [], origin, entries => change origin entries
  | key :: path, _, entries =>
    match entries.lookup key with
    | none => do
      let inner ← modifyAt made passes change path made []
      return entries ++ [(key, .table made inner)]
    | some (.table origin inner) =>
      if passes origin then do
        let inner ← modifyAt made passes change path origin inner
        return replace entries key (.table origin inner)
      else none
    | some (.tables (last :: before)) => do
      let last ← modifyAt made passes change path .header last
      return replace entries key (.tables (last :: before))
    | some _ => none

/-- Add a key below a path of dotted keys. A table that the path leads to must have been made by
such paths only. -/
def insert? (path : List String) (key : String) (item : Item) (entries : Entries) :
    Option Entries :=
  modifyAt .dotted (· ≠ .header)
    (fun origin inner =>
      if !path.isEmpty && origin ≠ .dotted then none else add? inner key item)
    path .header entries

/-- Make a table that has a header of its own. It comes last, even if it was named before. -/
def openTable (key : String) (entries : Entries) : Option Entries :=
  match entries.lookup key with
  | none => some (entries ++ [(key, .table .header [])])
  | some (.table .implied inner) =>
    some (entries.filter (·.1 ≠ key) ++ [(key, .table .header inner)])
  | some _ => none

/-- Make one more of several tables of one name. -/
def openTables (key : String) (entries : Entries) : Option Entries :=
  match entries.lookup key with
  | none => some (entries ++ [(key, .tables [[]])])
  | some (.tables all) => some (replace entries key (.tables ([] :: all)))
  | some _ => none

end Entries

/-- A document that is read: its tables so far, and the path of the table to which keys are
added. -/
structure Draft where
  root : Entries
  here : List String

namespace Draft

def empty : Draft := ⟨[], []⟩

/-- Add a key to the current table. -/
def addKey (d : Draft) (path : List String) (key : String) (item : Item) : Option Draft := do
  let root ← Entries.modifyAt .implied (fun _ => true)
    (fun _ entries => entries.insert? path key item) d.here .header d.root
  return { d with root }

/-- Go to the table with a header. `openAs` makes it in the table that contains it. -/
def addHeader (d : Draft) (openAs : String → Entries → Option Entries) (path : List String)
    (key : String) : Option Draft := do
  let root ← Entries.modifyAt .implied (fun _ => true) (fun _ entries => openAs key entries) path
    .header d.root
  return ⟨root, path ++ [key]⟩

end Draft

end MiddleEnd.Toml
