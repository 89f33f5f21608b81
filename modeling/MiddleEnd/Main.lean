import MiddleEnd.Command.Run

/-!
# MiddleEnd.Main

The program: the command line, run on the real system.
-/

namespace MiddleEnd.Command

/-- The number of a refusal; some parts of the system give it with a minus. -/
def systemCode (code : UInt32) : Nat := min code.toNat (UInt32.size - code.toNat)

/-- The number of a refusal and what the system says about it, if it has a number. -/
def refusal? (e : IO.Error) : Option (Nat × String) :=
  match e with
  | .unexpectedEof | .userError _ => none
  | .otherError code details | .resourceBusy code details | .resourceVanished code details
  | .unsupportedOperation code details | .hardwareFault code details
  | .unsatisfiedConstraints code details | .illegalOperation code details
  | .protocolError code details | .timeExpired code details
  | .interrupted _ code details | .noFileOrDirectory _ code details
  | .alreadyExists _ code details | .invalidArgument _ code details
  | .permissionDenied _ code details | .resourceExhausted _ code details
  | .inappropriateType _ code details | .noSuchThing _ code details =>
    some (systemCode code, details)

/-- Why the system refused to read or write a file. -/
def FileError.ofSystem (e : IO.Error) : FileError :=
  match refusal? e with
  | none => .other e.toString
  | some (2, _) => .missing
  | some (5, _) => .inputOutput
  | some (6, _) => .noDevice
  | some (12, _) => .outOfMemory
  | some (13, _) => .denied
  | some (20, _) => .notDirectory
  | some (21, _) => .isDirectory
  | some (26, _) => .busy
  | some (28, _) => .full
  | some (36, _) => .nameTooLong
  | some (code, details) => .other (details ++ " (os error " ++ code.repr ++ ")")

/-- Run commands on the real system. -/
def Host.system : Host IO where
  readFile path := do
    try return .ok (← IO.FS.readBinFile path)
    catch e => return .error (.ofSystem e)
  writeFile path text := do
    try
      IO.FS.withFile path .write fun handle => do
        handle.putStr text
        handle.flush
      return .ok ()
    catch e => return .error (.ofSystem e)
  print text := do
    (← IO.getStdout).putStr text
  report text := do
    (← IO.getStderr).putStr text

end MiddleEnd.Command

/-- Run the command line, and end with its exit code. -/
def main (args : List String) : IO UInt32 :=
  MiddleEnd.Command.run MiddleEnd.Command.Host.system args
