import MiddleEnd.Command.Surroundings

/-!
# MiddleEnd.Command.World

A system in memory: one directory with files, in which commands run, and what they printed. Around
it stands what every system has; files that are made there are lost.

A path is walked part by part, and the first part that leads nowhere decides what is wrong with it.
-/

namespace MiddleEnd.Command

/-! ## Paths -/

/-- A path, cut at its slashes. Empty parts lead nowhere else and are left out. -/
structure Path where
  /-- Whether it starts at the root, and not where the command runs. -/
  absolute : Bool
  parts : List String
  /-- Whether it ends with a slash, so that it can lead to a directory only. -/
  closed : Bool
deriving DecidableEq, Repr

/-- The path that a text is. -/
def Path.ofString (text : String) : Path :=
  ⟨text.toList.head? = some '/',
    ((text.toList.splitOn '/').map String.ofList).filter (· ≠ ""),
    text.toList.getLast? = some '/'⟩

/-- The bytes of the longest path, with the one that ends it. -/
def pathLimit : Nat := 4096

/-- The bytes of the longest name in a path. -/
def nameLimit : Nat := 255

/-! ## Directories -/

/-- The files of a directory. -/
abbrev Directory := List (String × ByteArray)

/-- What a path leads to, if something can be read or written there. -/
inductive Target where
  /-- A file where commands run. -/
  | file (name : String)
  | fixture (f : Fixture)
deriving DecidableEq, Repr

namespace Directory

/-- The contents of a file. -/
def file? (d : Directory) (name : String) : Option ByteArray := d.lookup name

/-- Give a file other contents; it need not have been there. -/
def write (d : Directory) (name : String) (contents : ByteArray) : Directory :=
  if (d.file? name).isSome then
    d.map fun (n, old) => if n = name then (n, contents) else (n, old)
  else d ++ [(name, contents)]

/-- What a name stands for in a place. -/
def entry (d : Directory) (spot : Spot) (name : String) : Entry :=
  match spot with
  | .here => if (d.file? name).isSome then .file else .nothing
  | .outside names => Surroundings.entry names name

/-- Look up a name that is not too long. -/
def find (d : Directory) (spot : Spot) (name : String) : Except FileError Entry :=
  if nameLimit < name.utf8ByteSize then .error .nameTooLong else .ok (d.entry spot name)

/-- Whether a part of a path is a way between directories, and not a name. -/
def isStep (part : String) : Bool := part = "." || part = ".."

/-- Go on to the directory that a part of a path leads to. -/
def enter (d : Directory) (spot : Spot) (part : String) : Except FileError Spot :=
  if part = "." then .ok spot
  else if part = ".." then .ok spot.parent
  else do
    match ← d.find spot part with
    | .directory inner => .ok inner
    | .file | .fixture _ => .error .notDirectory
    | .nothing => .error .missing

/-- Make a file of a name that stands for nothing yet. -/
def create (spot : Spot) (name : String) : Except FileError Target :=
  match spot with
  | .here => .ok (.file name)
  | .outside names => Target.fixture <$> Surroundings.create names

/-- What the last part of a path leads to. A file that is not there is made if `making` says so,
but not from a path that can lead to a directory only. -/
def arrive (d : Directory) (making closed : Bool) (spot : Spot) (part : String) :
    Except FileError Target :=
  if isStep part || (making && closed) then .error .isDirectory
  else do
    match ← d.find spot part with
    | .directory _ => .error .isDirectory
    | .file => if closed then .error .notDirectory else .ok (.file part)
    | .fixture f => if closed then .error .notDirectory else .ok (.fixture f)
    | .nothing => if making then create spot part else .error .missing

/-- What a path leads to, to read it or, if `making` says so, to write it. -/
def target (d : Directory) (path : String) (making : Bool) : Except FileError Target :=
  if path.toList.contains '\x00' then .error .badName
  else if path.isEmpty then .error .missing
  else if pathLimit ≤ path.utf8ByteSize then .error .nameTooLong
  else
    let p := Path.ofString path
    match p.parts.getLast? with
    | none => .error .isDirectory
    | some last => do
      let spot ← p.parts.dropLast.foldlM d.enter (if p.absolute then .outside [] else .here)
      d.arrive making p.closed spot last

end Directory

/-! ## Commands in memory -/

/-- A system as commands see it: its files, of whatever kind they are, and what was printed. -/
structure System (F : Type) where
  files : F
  printed : String
  reported : String

namespace System

variable {F : Type} (w : System F) (text : String)

/-- Print a text. -/
def print : System F := { w with printed := w.printed ++ text }

/-- Tell the user a text. -/
def report : System F := { w with reported := w.reported ++ text }

end System

/-- A system in memory: a directory, and what was printed. -/
abbrev World := System Directory

/-- The contents of what a path leads to. -/
def Directory.read (d : Directory) (path : String) : Except FileError ByteArray := do
  match ← d.target path false with
  | .fixture f => f.read
  | .file name =>
    match d.file? name with
    | some contents => .ok contents
    | none => .error .missing

namespace World

/-- Write a text to something outside. -/
def writeFixture (w : World) (text : String) : Fixture → Except FileError World
  | .stream .output => .ok (w.print text)
  | .stream .report => .ok (w.report text)
  | .stream .input | .null | .endless => .ok w
  | .full => if text.isEmpty then .ok w else .error .full
  | .terminal => .error .noDevice

/-- Write a text to what a path leads to. -/
def write (w : World) (path text : String) : Except FileError World := do
  match ← w.files.target path true with
  | .fixture f => w.writeFixture text f
  | .file name => .ok { w with files := w.files.write name text.toUTF8 }

end World

/-- Run commands in memory. -/
def Host.inMemory : Host (StateM World) where
  readFile path := do
    return (← get).files.read path
  writeFile path text := do
    match (← get).write path text with
    | .error e => return .error e
    | .ok world =>
      set world
      return .ok ()
  print text := modify fun world => world.print text
  report text := modify fun world => world.report text

end MiddleEnd.Command
