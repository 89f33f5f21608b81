import MiddleEnd.Dump.Problem

/-!
# MiddleEnd.Dump.Read

How documents are read: single values, lists, records and choices.

Documents are read from the front, and reading stops at the first problem. A record is an object,
whose members may stand in any order and among unknown ones, or an array of its fields in
declaration order. What may be missing from an object is known per field, and likewise for the end
of an array.

None of this is said by JSON or by the program. It is what the JSON library is assumed to derive
from a declaration: that unknown members are skipped and that a known one may not come twice, that
an array stands for a record, which values can be taken for which, and what is said when none can.
-/

namespace MiddleEnd.Dump

open Json (Document Damage)

/-- A way to read documents as values of one type. -/
abbrev Read (α : Type) := Document → Except Problem α

/-- The problem of a document that has the wrong type, or is damaged where it begins. -/
def unexpected (doc : Document) (expected : String) : Problem :=
  match doc with
  | .wreck w => .damage w.read
  | doc => .mismatch (.wrongType doc.describe expected)

/-! ## Single values -/

def readText : Read String
  | .text s => .ok s
  | doc => .error (unexpected doc "a string")

def readBool : Read Bool
  | .bool b => .ok b
  | doc => .error (unexpected doc "a boolean")

/-- Nothing at all. -/
def readUnit : Read Unit
  | .null => .ok ()
  | doc => .error (unexpected doc "unit")

/-- A whole number from `low` up to `high`. -/
def readWhole (low high : Int) (expected : String) : Read Int
  | .number (.whole n) =>
    if low ≤ n && n ≤ high then .ok n
    else .error (.mismatch (.wrongValue (Document.number (.whole n)).describe expected))
  | doc => .error (unexpected doc expected)

/-- A number of 32 bits, without sign. -/
def readWord : Read UInt32 := fun doc =>
  (readWhole 0 (UInt32.size - 1) "u32" doc).map fun n => n.toNat.toUInt32

/-- A number of 64 bits, with sign. -/
def readInt : Read Int64 := fun doc =>
  (readWhole Int64.minValue.toInt Int64.maxValue.toInt "i64" doc).map Int64.ofInt

/-- A value, or `null`. What begins like `null` is nothing else, even if it is cut short. -/
def readOptional {α : Type} (read : Read α) : Read (Option α)
  | .null => .ok none
  | .wreck w =>
    if w.kind = .null then .error (.damage w.read) else (read (.wreck w)).map some
  | doc => (read doc).map some

/-- Succeed unless something is damaged. -/
def undamaged : Option Damage → Except Problem Unit
  | none => .ok ()
  | some damage => .error (.damage damage)

def readList {α : Type} (read : Read α) : Read (List α)
  | .arr items damage => do
    let values ← items.mapM read
    undamaged damage
    return values
  | doc => .error (unexpected doc "a sequence")

/-! ## Records -/

/-- A field of a record. -/
structure Field where
  name : String
  /-- Whether a document is a value of the field. -/
  check : Read Unit
  /-- Whether an object may lack the field. -/
  lackedByObject : Bool
  /-- Whether an array may end before the field. -/
  lackedByArray : Bool

/-- The fields of a record, and how the record is made from the documents found for them. -/
structure Fields (α : Type) where
  fields : List Field
  make : (String → Option Document) → Except Problem α

namespace Fields

def pure {α : Type} (a : α) : Fields α := ⟨[], fun _ => .ok a⟩

/-- One more argument for the function that makes the record. -/
def seq {α β : Type} (f : Fields (α → β)) (a : Fields α) : Fields β where
  fields := f.fields ++ a.fields
  make found := do
    let f ← f.make found
    let a ← a.make found
    return f a

/-- Ignore the value that was read. -/
def checked {α : Type} (read : Read α) : Read Unit := fun doc => (read doc).map fun _ => ()

/-- A field that must be there. -/
def required {α : Type} (name : String) (read : Read α) : Fields α where
  fields := [⟨name, checked read, false, false⟩]
  make found :=
    match found name with
    | none => .error (.mismatch (.missingField name))
    | some doc => read doc

/-- A field with a value for the case that it is missing from an object or, if `inArray`, from an
array. -/
def defaulted {α : Type} (name : String) (read : Read α) (value : α) (inArray : Bool) :
    Fields α where
  fields := [⟨name, checked read, true, inArray⟩]
  make found :=
    match found name with
    | none => .ok value
    | some doc => read doc

/-- A field that an object may lack, but not an array. -/
def optional {α : Type} (name : String) (read : Read α) : Fields (Option α) :=
  defaulted name (readOptional read) none false

/-- A field that may be missing. -/
def omissible {α : Type} (name : String) (read : Read α) : Fields (Option α) :=
  defaulted name (readOptional read) none true

end Fields

instance : Applicative Fields where
  pure := Fields.pure
  seq f a := Fields.seq f (a ())

/-- The text of a key, which must be one. -/
def readKey : Read String
  | .text s => .ok s
  | .wreck w => .error (.damage (if w.kind = .text then w.read else .malformed))
  | _ => .error (.damage .malformed)

/-- Read the members of an object from the front: those that are fields, by name, and the unknown
ones not at all. -/
def readMembers (fields : List Field) (found : List (String × Document)) :
    List (Document × Document) → Except Problem (List (String × Document))
  | [] => .ok found
  | (key, value) :: rest => do
    let name ← readKey key
    match fields.find? (·.name = name) with
    | none => do
      undamaged value.skip
      readMembers fields found rest
    | some field =>
      if (found.lookup name).isSome then throw (.mismatch (.duplicateField name))
      field.check value
      readMembers fields ((name, value) :: found) rest

/-- The items of an array as fields, from the front. `expected` is what the array stands for;
`index` counts the fields before. -/
def readItems (expected : String) (damage : Option Damage) :
    Nat → List Field → List Document → Except Problem (List (String × Document))
  | _, [], [] => do
    undamaged damage
    return []
  | _, [], _ :: _ => .error (.damage .malformed)
  | index, field :: fields, [] => do
    undamaged damage
    if field.lackedByArray then readItems expected damage (index + 1) fields []
    else throw (.mismatch (.wrongLength index expected))
  | index, field :: fields, item :: items => do
    field.check item
    let found ← readItems expected damage (index + 1) fields items
    return (field.name, item) :: found

/-- A number of fields, in words. -/
def elementCount (n : Nat) : String :=
  if n = 1 then "1 element" else n.repr ++ " elements"

/-- A record called `name` in messages. -/
def readRecord {α : Type} (name : String) (shape : Fields α) : Read α
  | .obj members damage => do
    let found ← readMembers shape.fields [] members
    undamaged damage
    shape.make (found.lookup ·)
  | .arr items damage => do
    let expected := name ++ " with " ++ elementCount shape.fields.length
    let found ← readItems expected damage 0 shape.fields items
    shape.make (found.lookup ·)
  | doc => .error (unexpected doc name)

/-! ## Choices -/

/-- What an alternative carries. -/
inductive Payload (α : Type) where
  | nothing (value : α)
  | value (read : Read α)
  | record (shape : Fields α)

/-- An alternative of a choice. -/
structure Variant (α : Type) where
  name : String
  payload : Payload α

/-- The alternative of a name. -/
def findVariant {α : Type} (variants : List (Variant α)) (name : String) :
    Except Problem (Variant α) :=
  match variants.find? (·.name = name) with
  | some v => .ok v
  | none => .error (.mismatch (.unknownVariant name (variants.map (·.name))))

/-- An alternative that is named and nothing more. -/
def readBare {α : Type} (v : Variant α) : Except Problem α :=
  let wrong (expected : String) := .error (.mismatch (.wrongType "unit variant" expected))
  match v.payload with
  | .nothing value => .ok value
  | .value _ => wrong "newtype variant"
  | .record _ => wrong "struct variant"

/-- What an alternative of the choice called `choice` carries. -/
def readPayload {α : Type} (choice : String) (v : Variant α) : Read α := fun doc =>
  match v.payload with
  | .nothing value => (readUnit doc).map fun _ => value
  | .value read => read doc
  | .record shape => readRecord ("struct variant " ++ choice ++ "::" ++ v.name) shape doc

/-- Behind the single member of an object nothing but its end may stand. -/
def readEnd (rest : List (Document × Document)) (damage : Option Damage) : Except Problem Unit :=
  match rest with
  | [] => undamaged damage
  | _ :: _ => .error (.damage .malformed)

/-- A choice called `choice` in messages: the name of an alternative, or an object whose single
member is named for it. -/
def readChoice {α : Type} (choice : String) (variants : List (Variant α)) : Read α
  | .text name => do readBare (← findVariant variants name)
  | .obj ((key, value) :: rest) damage => do
    let v ← findVariant variants (← readKey key)
    let a ← readPayload choice v value
    readEnd rest damage
    return a
  | .obj [] damage => .error (.damage (damage.getD .malformed))
  | .wreck w =>
    .error (.damage (if w.kind = .text || w.kind = .nothing then w.read else .malformed))
  | _ => .error (.damage .malformed)

end MiddleEnd.Dump
