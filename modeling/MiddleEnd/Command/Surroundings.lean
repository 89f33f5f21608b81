import MiddleEnd.Command.Host

/-!
# MiddleEnd.Command.Surroundings

What stands around the directory that commands run in, as far as every system has it: the
directories up to the root, the devices, and the streams that a command was started with. Of other
files nothing is known, and there are none.

A directory is known by the names that lead to it from the root, the last one first, so that the
directory around it is the tail of the list.
-/

namespace MiddleEnd.Command

/-- A stream that a command was started with. -/
inductive Stream where
  /-- What the command may read; it is empty. -/
  | input
  /-- What the command prints. -/
  | output
  /-- What the command tells the user. -/
  | report
deriving DecidableEq, Repr

/-- Something that can be read or written and is not among the files of a command. -/
inductive Fixture where
  /-- It is empty, and what is written is lost. -/
  | null
  /-- It can be read without end, and what is written is lost. -/
  | endless
  /-- It can be read without end, and has no room for what is written. -/
  | full
  /-- The terminal of the command, which has none. -/
  | terminal
  | stream (s : Stream)
deriving DecidableEq, Repr

/-- A place where names mean something. -/
inductive Spot where
  /-- The directory that commands run in, among those for temporary files. -/
  | here
  /-- A directory of the system. -/
  | outside (names : List String)
deriving DecidableEq, Repr

/-- The place above; above the root is the root. -/
def Spot.parent : Spot → Spot
  | .here => .outside ["tmp"]
  | .outside names => .outside names.tail

/-- What a name stands for. -/
inductive Entry where
  | directory (spot : Spot)
  /-- A file where commands run. -/
  | file
  | fixture (f : Fixture)
  | nothing
deriving DecidableEq, Repr

namespace Surroundings

/-- The names of the directories in a directory. -/
def directories : List String → List String
  | [] =>
    ["bin", "boot", "dev", "etc", "home", "lib", "lib64", "media", "mnt", "opt", "proc", "root",
      "run", "sbin", "srv", "sys", "tmp", "usr", "var"]
  | ["dev"] => ["fd"]
  | _ => []

/-- The devices, and the streams by the names that devices have. -/
def device? : String → Option Fixture
  | "null" => some .null
  | "zero" | "random" | "urandom" => some .endless
  | "full" => some .full
  | "tty" => some .terminal
  | "stdin" => some (.stream .input)
  | "stdout" => some (.stream .output)
  | "stderr" => some (.stream .report)
  | _ => none

/-- The streams by their numbers. -/
def stream? : String → Option Fixture
  | "0" => some (.stream .input)
  | "1" => some (.stream .output)
  | "2" => some (.stream .report)
  | _ => none

/-- What a name in a directory stands for if it is no directory. -/
def fixture? : List String → String → Option Fixture
  | ["dev"], name => device? name
  | ["fd", "dev"], name => stream? name
  | _, _ => none

/-- What a name in a directory stands for. -/
def entry (names : List String) (name : String) : Entry :=
  if (directories names).contains name then .directory (.outside (name :: names))
  else
    match fixture? names name with
    | some f => .fixture f
    | none => .nothing

/-- Make a file in a directory, which is gone when the command has ended. Where the system tells
about itself, no file can be made. -/
def create (names : List String) : Except FileError Fixture :=
  match names.getLast? with
  | some "proc" => .error .missing
  | some "sys" => .error .denied
  | _ => .ok .null

end Surroundings

/-- Read all there is. The streams that a command writes give nothing back. -/
def Fixture.read : Fixture → Except FileError ByteArray
  | .null | .stream _ => .ok .empty
  | .endless | .full => .error .outOfMemory
  | .terminal => .error .noDevice

end MiddleEnd.Command
