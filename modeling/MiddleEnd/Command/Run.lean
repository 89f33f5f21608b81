import MiddleEnd.Command.Fixup

/-!
# MiddleEnd.Command.Run

The command line as a whole: which command is run, and with what exit code it ends.

The code is 0 for success, 1 if violations were found or the input cannot be used, 2 if the command
line is wrong, and 101 if a pass found a defect or the compiler itself failed.
-/

namespace MiddleEnd.Command

/-- What a command line asks for. -/
inductive Request where
  | fixup (options : FixupOptions) (flags : Flags)
  | config (flags : Flags)
  | info (i : Info)
  | misuse (m : Misuse)

/-- What a command line asks for if the words of its command are read like this. -/
def Request.ofWords (words : Except Stop Words) (request : Words → Request) : Request :=
  match words with
  | .ok w => request w
  | .error (.info i) => .info i
  | .error (.misuse m) => .misuse m

/-- What a command line asks for. -/
def Request.ofArgs : List String → Request
  | "fixup" :: rest =>
    .ofWords (FixupOptions.grammar.read rest) fun w => .fixup (.ofWords w) (.ofWords w)
  | "config" :: rest => .ofWords (Flags.grammar.read rest) fun w => .config (.ofWords w)
  | "--version" :: _ => .info .version
  | "--help" :: _ => .info .help
  | ["help"] => .info .help
  | word :: _ =>
    match word.toList with
    | '-' :: 'V' :: _ => .info .version
    | '-' :: 'h' :: _ => .info .help
    | _ => .misuse .unknown
  | [] => .misuse .missingArgument

/-- What is printed when the version is asked for. -/
def versionText : String := "weftc 0.1.0\n"

/-- How the commands are called. -/
def helpText : String :=
  "Usage: weftc fixup [OPTIONS] <INPUT>\n"
    ++ "       weftc config [OPTIONS]\n"

variable {m : Type → Type} [Monad m]

/-- Print the settings. -/
def showConfig (host : Host m) (flags : Flags) : Fixup.RunM m Unit := do
  let config ← Fixup.orStop .config (← (flags.resolve host).run)
  host.print (← Fixup.orStop .config config.text)

/-- The exit code of a command that has ended. -/
def conclude (host : Host m) (asJson : Bool) : Except Failure Nat → m UInt32
  | .ok 0 => return 0
  | .ok _ => return 1
  | .error f => do
    host.report (f.text asJson)
    return f.exitCode

/-- Do what is asked for, and return the exit code. -/
def Request.run (host : Host m) : Request → m UInt32
  | .fixup options flags => do
    conclude host (options.format = .json) (← (Fixup.run host options flags).run)
  | .config flags => do
    conclude host false (← ((fun () => 0) <$> showConfig host flags).run)
  | .info .version => do
    host.print versionText
    return 0
  | .info .help => do
    host.print helpText
    return 0
  | .misuse _ => do
    host.report helpText
    return 2

/-- Run a command line, and return the exit code. -/
def run (host : Host m) (args : List String) : m UInt32 := (Request.ofArgs args).run host

end MiddleEnd.Command
