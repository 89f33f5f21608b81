import MiddleEnd.Json.Document

/-!
# MiddleEnd.Dump.Problem

Why a text is not a dump: it is not JSON, or it is JSON that describes no program. The words are
those of the JSON library, as it is assumed to put them.
-/

namespace MiddleEnd.Dump

/-- How a document differs from what is wanted. -/
inductive Mismatch where
  | wrongType (found expected : String)
  | wrongValue (found expected : String)
  /-- An array stands for a record, but it has too few items. -/
  | wrongLength (length : Nat) (expected : String)
  | missingField (name : String)
  | duplicateField (name : String)
  | unknownVariant (name : String) (known : List String)
deriving DecidableEq, Repr

/-- A name that is quoted in a message. -/
def tick (name : String) : String := "`" ++ name ++ "`"

/-- The mismatch in words. -/
def Mismatch.message : Mismatch → String
  | .wrongType found expected => "invalid type: " ++ found ++ ", expected " ++ expected
  | .wrongValue found expected => "invalid value: " ++ found ++ ", expected " ++ expected
  | .wrongLength length expected =>
    "invalid length " ++ length.repr ++ ", expected " ++ expected
  | .missingField name => "missing field " ++ tick name
  | .duplicateField name => "duplicate field " ++ tick name
  | .unknownVariant name known =>
    "unknown variant " ++ tick name ++ ", expected one of " ++ ", ".intercalate (known.map tick)

/-- The first problem in a dump. -/
inductive Problem where
  | damage (d : Json.Damage)
  | mismatch (m : Mismatch)
deriving DecidableEq, Repr

end MiddleEnd.Dump
