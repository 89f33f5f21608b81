/-!
# MiddleEnd.Command.Host

What a command needs of the system that it runs on: files and two streams of text. A command is
written against a `Host`, so that it can run on the real system and on one in memory, where its
effects are values.

Two things are left out that a real system can do. Paths are texts, where a system may have paths
that are none. And printing and telling the user something cannot fail, so a command does not stop
because nobody listens; a host that loses what it is given may still be written.
-/

namespace MiddleEnd.Command

/-- Why a file cannot be read or written. -/
inductive FileError where
  | missing
  | isDirectory
  /-- A path leads through a file as if it were a directory. -/
  | notDirectory
  /-- A path holds the character that ends a path for the system. -/
  | badName
  /-- A path, or one name in it, has more bytes than the system takes. -/
  | nameTooLong
  | notText
  | denied
  /-- A device that is named is not there. -/
  | noDevice
  /-- The device failed. -/
  | inputOutput
  /-- A program that runs cannot be written. -/
  | busy
  /-- There is no room for what is written. -/
  | full
  /-- There is no room for what is read. -/
  | outOfMemory
  | other (message : String)
deriving DecidableEq, Repr

/-- The reason, as the system words it. -/
def FileError.message : FileError → String
  | .missing => "No such file or directory (os error 2)"
  | .isDirectory => "Is a directory (os error 21)"
  | .notDirectory => "Not a directory (os error 20)"
  | .badName => "file name contained an unexpected NUL byte"
  | .nameTooLong => "File name too long (os error 36)"
  | .notText => "stream did not contain valid UTF-8"
  | .denied => "Permission denied (os error 13)"
  | .noDevice => "No such device or address (os error 6)"
  | .inputOutput => "Input/output error (os error 5)"
  | .busy => "Text file busy (os error 26)"
  | .full => "No space left on device (os error 28)"
  | .outOfMemory => "out of memory"
  | .other message => message

/-- The system that a command runs on. -/
structure Host (m : Type → Type) where
  readFile : String → m (Except FileError ByteArray)
  writeFile : String → String → m (Except FileError Unit)
  /-- Print a text as it is; it cannot fail. -/
  print : String → m Unit
  /-- Print a text as it is, for the user and not as a result; it cannot fail. -/
  report : String → m Unit

/-- Read a file that is a text. -/
def Host.readText {m : Type → Type} [Monad m] (host : Host m) (path : String) :
    m (Except FileError String) := do
  match ← host.readFile path with
  | .error e => return .error e
  | .ok bytes =>
    match String.fromUTF8? bytes with
    | some text => return .ok text
    | none => return .error .notText

end MiddleEnd.Command
