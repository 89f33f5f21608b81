import MiddleEnd.Config.Vars
import MiddleEnd.Toml.Write

/-!
# MiddleEnd.Config

The settings of a run. None of them reaches the passes: they say how much is printed, and are
shown on request.
-/

namespace MiddleEnd

/-- How much is printed about a run. -/
inductive Verbosity where
  /-- Violations and errors only. -/
  | quiet
  | normal
  /-- The settings and statistics too. -/
  | verbose
deriving DecidableEq, Repr

/-- The name of a level. -/
def Verbosity.text : Verbosity → String
  | .quiet => "quiet"
  | .normal => "normal"
  | .verbose => "verbose"

/-- Limits and tracking of memory. -/
structure Memory where
  max : Option UInt64
  stat : Bool
  finalStat : Bool
  track : Bool
  threshold : Option UInt64
  /-- A path. It is a text here, so it can be shown; a system may have paths that are none. -/
  trace : Option String
deriving DecidableEq, Repr

/-- The settings of a run. -/
structure Config where
  numLocales : UInt32
  verbosity : Verbosity
  gdb : Bool
  blockReport : Bool
  taskReport : Bool
  memory : Memory
  vars : Vars
deriving DecidableEq, Repr

/-- Why there are no settings, or why they cannot be shown. -/
inductive Config.Error where
  | zeroLocales
  | badAssignment (text : String)
  | unreadable (path message : String)
  | notToml (path : String)
  /-- A variable in a file is neither a text nor a number nor a truth value. -/
  | badValue (name path : String)
  /-- A number is too large to be shown. -/
  | outOfRange
  /-- A text has more quotes in a row than the TOML writer is assumed to count. -/
  | rowTooLong
deriving DecidableEq, Repr

/-- What the user is told. -/
def Config.Error.message : Config.Error → String
  | .zeroLocales => "Number of locales must be greater than 0"
  | .badAssignment text => "malformed config variable `" ++ text ++ "` (expected NAME=VALUE)"
  | .unreadable path message => "failed to read config file '" ++ path ++ "': " ++ message
  | .notToml path => "failed to parse config file '" ++ path ++ "': not a TOML document"
  | .badValue name path =>
    "config variable `" ++ name ++ "` in '" ++ path ++ "' must be a string, number or boolean"
  | .outOfRange => "failed to render configuration: out-of-range value for u64 type"
  | .rowTooLong => "attempt to add with overflow"

/-- Whether the compiler is to blame, and not what it was given. -/
def Config.Error.isInternal : Config.Error → Bool
  | .rowTooLong => true
  | _ => false

namespace Config

open Toml (Scalar Section)

/-- A number of 64 bits. TOML numbers have a sign, so the largest ones cannot be written. -/
def size? (n : UInt64) : Except Config.Error Scalar :=
  if n.toNat < Nat.pow 2 63 then .ok (.integer n.toNat) else .error .outOfRange

/-- An entry that may be missing. -/
def entry? {α : Type} (key : String) (scalar : α → Except Config.Error Scalar) :
    Option α → Except Config.Error (List (String × Scalar))
  | none => .ok []
  | some a => do return [(key, ← scalar a)]

/-- The settings about memory. -/
def memoryEntries (m : Memory) : Except Config.Error (List (String × Scalar)) := do
  let max ← entry? "max" size? m.max
  let threshold ← entry? "threshold" size? m.threshold
  let trace ← entry? "trace" (fun path => .ok (.text path)) m.trace
  return max ++ [("stat", .bool m.stat), ("final_stat", .bool m.finalStat),
    ("track", .bool m.track)] ++ threshold ++ trace

/-- The settings as the sections of a document. -/
def sections (c : Config) : Except Config.Error (List Section) := do
  let memory ← memoryEntries c.memory
  return [⟨none, [("num_locales", .integer c.numLocales.toNat),
      ("verbosity", .text c.verbosity.text), ("gdb", .bool c.gdb),
      ("block_report", .bool c.blockReport), ("task_report", .bool c.taskReport)]⟩,
    ⟨some "memory", memory⟩,
    ⟨some "config_vars", c.vars.map fun (name, value) => (name, .text value)⟩]

/-- The settings as a TOML document, of the kind that variables are read from. -/
def text (c : Config) : Except Config.Error String := do
  match Toml.write? (← c.sections) with
  | some text => return text
  | none => throw .rowTooLong

end Config

end MiddleEnd
