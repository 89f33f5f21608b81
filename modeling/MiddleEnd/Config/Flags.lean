import MiddleEnd.Command.Host
import MiddleEnd.Command.Options
import MiddleEnd.Config

/-!
# MiddleEnd.Config.Flags

The flags that every command takes, and the settings they lead to. Variables in a file are read
first, and those on the command line replace them.
-/

namespace MiddleEnd

open Command (Grammar Host Misuse Opt OptionKind Words)

/-- The flags as they were given. -/
structure Flags where
  numLocales : UInt32
  quiet : Bool
  verbose : Bool
  memmax : Option UInt64
  memstat : Bool
  memfinalstat : Bool
  memtrack : Bool
  memthreshold : Option UInt64
  memtrace : Option String
  gdb : Bool
  blockReport : Bool
  taskReport : Bool
  /-- The assignments of variables, in order. -/
  assignments : List String
  configFile : Option String
deriving DecidableEq, Repr

namespace Flags

/-! ## Values -/

/-- The value of digits, of which there must be at least one. -/
def digits? (chars : List Char) : Option Nat :=
  if chars.isEmpty || !chars.all Char.isDigit then none
  else some (chars.foldl (fun n c => n * 10 + (c.toNat - '0'.toNat)) 0)

/-- A whole number, with or without a sign. -/
def int? (text : String) : Option Int :=
  match text.toList with
  | '+' :: rest => (digits? rest).map Int.ofNat
  | '-' :: rest => (digits? rest).map fun n => -(n : Int)
  | rest => (digits? rest).map Int.ofNat

/-- A number of 32 bits. Zero may have a minus. -/
def word? (text : String) : Option UInt32 := do
  let n ← int? text
  if 0 ≤ n && n.toNat < UInt32.size then some n.toNat.toUInt32 else none

/-- A number of 64 bits, without a minus. -/
def size? (text : String) : Option UInt64 := do
  if text.startsWith "-" then none
  let n ← int? text
  if n.toNat < UInt64.size then some n.toNat.toUInt64 else none

/-! ## Grammar -/

/-- What is wrong with a value that must have a form. -/
def formed {α : Type} (parse : String → Option α) (text : String) : Option Misuse :=
  if (parse text).isSome then none else some .badValue

/-- What is wrong with a file name. -/
def fileName (text : String) : Option Misuse := if text.isEmpty then some .missingValue else none

/-- Nothing is wrong with any text. -/
def anyText (_ : String) : Option Misuse := none

/-- The flags, with the request for help. -/
def options : List Opt :=
  [⟨"num-locales", some 'n', .value (formed word?) false⟩,
    ⟨"quiet", some 'q', .flag⟩,
    ⟨"verbose", some 'v', .flag⟩,
    ⟨"memmax", none, .value (formed size?) false⟩,
    ⟨"memstat", none, .flag⟩,
    ⟨"memfinalstat", none, .flag⟩,
    ⟨"memtrack", none, .flag⟩,
    ⟨"memthreshold", none, .value (formed size?) false⟩,
    ⟨"memtrace", none, .value fileName false⟩,
    ⟨"gdb", none, .flag⟩,
    ⟨"blockreport", some 'b', .flag⟩,
    ⟨"taskreport", some 't', .flag⟩,
    ⟨"set", some 's', .value anyText true⟩,
    ⟨"config-file", some 'f', .value fileName false⟩,
    ⟨"help", some 'h', .info .help⟩]

/-- The flags that exclude each other. -/
def exclusive : List (String × String) := [("quiet", "verbose")]

/-- A command that takes the flags and nothing else. -/
def grammar : Grammar := ⟨options, 0, exclusive⟩

/-- The flags among the words of a command line. -/
def ofWords (w : Words) : Flags where
  numLocales := ((w.value? "num-locales").bind word?).getD 1
  quiet := w.has "quiet"
  verbose := w.has "verbose"
  memmax := (w.value? "memmax").bind size?
  memstat := w.has "memstat"
  memfinalstat := w.has "memfinalstat"
  memtrack := w.has "memtrack"
  memthreshold := (w.value? "memthreshold").bind size?
  memtrace := w.value? "memtrace"
  gdb := w.has "gdb"
  blockReport := w.has "blockreport"
  taskReport := w.has "taskreport"
  assignments := w.values "set"
  configFile := w.value? "config-file"

/-! ## Settings -/

/-- How much is printed. -/
def verbosity (f : Flags) : Verbosity :=
  if f.quiet then .quiet else if f.verbose then .verbose else .normal

/-- Add the variables that were given one by one. -/
def assign (vars : Vars) (assignments : List String) : Except Config.Error Vars :=
  assignments.foldlM (fun vars text =>
    match Vars.assignment? text with
    | some (name, value) => .ok (vars.put name value)
    | none => .error (.badAssignment text)) vars

/-- The variables in a text read from a file. -/
def parseVars (path text : String) : Except Config.Error Vars :=
  match Toml.read? text with
  | none => .error (.notToml path)
  | some entries => (Vars.ofEntries entries).mapError fun name => .badValue name path

/-- The settings, apart from where the variables come from. -/
def config (f : Flags) (vars : Vars) : Config where
  numLocales := f.numLocales
  verbosity := f.verbosity
  gdb := f.gdb
  blockReport := f.blockReport
  taskReport := f.taskReport
  memory := ⟨f.memmax, f.memstat, f.memfinalstat, f.memtrack, f.memthreshold, f.memtrace⟩
  vars := vars

variable {m : Type → Type} [Monad m]

/-- The variables in the file that was given. -/
def fileVars (host : Host m) : Option String → ExceptT Config.Error m Vars
  | none => return []
  | some path => do
    match ← host.readText path with
    | .error e => throw (.unreadable path e.message)
    | .ok text => liftExcept (parseVars path text)
where
  liftExcept {α : Type} (e : Except Config.Error α) : ExceptT Config.Error m α :=
    ExceptT.mk (pure e)

/-- The settings that the flags lead to. -/
def resolve (host : Host m) (f : Flags) : ExceptT Config.Error m Config := do
  if f.numLocales = 0 then throw .zeroLocales
  let vars ← fileVars host f.configFile
  let vars ← ExceptT.mk (pure (assign vars f.assignments))
  return f.config vars

end Flags

end MiddleEnd
