import MiddleEnd.Config.Flags
import MiddleEnd.Dump.Decode
import MiddleEnd.Listing
import MiddleEnd.Normalize
import MiddleEnd.Report
import MiddleEnd.Verify

/-!
# MiddleEnd.Command.Fixup

The command that reads a dump, normalises and verifies the program in it, and writes it out again
or lists it. Its result is the number of violations found. What is said about the run goes to the
user; the listing is the only thing printed.
-/

namespace MiddleEnd.Command

/-- Why a command stopped. -/
inductive Failure where
  | config (e : Config.Error)
  | checks (e : Checks.UnknownName)
  | file (path : String) (e : FileError)
  | dump (path : String) (p : Dump.Problem)
  | halted (h : Halt)
deriving DecidableEq, Repr

namespace Failure

/-- What is wrong with a text that should be a dump. -/
def problemText : Dump.Problem → String
  | .damage .malformed => "malformed JSON"
  | .damage .truncated => "unexpected end of JSON"
  | .mismatch m => m.message

/-- What stopped a pass. -/
def haltText : Halt → String
  | .defect d => d.message
  | .fault f => f.message
  | .tooDeep => "the walk did not end"

/-- What the user is told. -/
def message : Failure → String
  | .config e => e.message
  | .checks e => e.message
  | .file path e => "Failed to access '" ++ path ++ "': " ++ e.message
  | .dump path p => "'" ++ path ++ "' is not a valid AST dump: " ++ problemText p
  | .halted h => "internal compiler error: " ++ haltText h

/-- Whether the compiler is to blame, and not what it was given. -/
def isInternal : Failure → Bool
  | .halted _ => true
  | .config e => e.isInternal
  | _ => false

/-- A stable name for the kind of failure. -/
def code (f : Failure) : String := if f.isInternal then "I0001" else "C0001"

/-- The code that the command ends with. -/
def exitCode (f : Failure) : UInt32 := if f.isInternal then 101 else 1

/-- A failure as a JSON object; the members are in alphabetical order. -/
def json (f : Failure) : Json :=
  .obj [("code", .str f.code), ("file", .str ""), ("line", .int 0), ("message", .str f.message),
    ("severity", .str "error")]

/-- A failure on one line, as an object or as a text. -/
def text (f : Failure) (asJson : Bool) : String :=
  (if asJson then f.json.compact else "error: " ++ f.message) ++ "\n"

end Failure

/-- What the command is asked to do. -/
structure FixupOptions where
  /-- The path of the dump. Like `emit` it is a text, so a path that is none cannot be given. -/
  input : String
  verifyOnly : Bool
  noVerify : Bool
  checks : String
  /-- The path of the file to write. -/
  emit : Option String
  dump : Bool
  format : Report.Format
deriving DecidableEq, Repr

namespace FixupOptions

/-- The words of the command: its own options, the flags, and the name of one file. -/
def grammar : Grammar where
  options :=
    [⟨"verify-only", none, .flag⟩,
      ⟨"no-verify", none, .flag⟩,
      ⟨"checks", none, .value Flags.anyText false⟩,
      ⟨"emit", none, .value Flags.fileName false⟩,
      ⟨"dump", none, .flag⟩,
      ⟨"json", none, .flag⟩,
      ⟨"no-color", none, .flag⟩] ++ Flags.options
  arguments := 1
  exclusive := ("verify-only", "no-verify") :: Flags.exclusive

/-- What the words of a command line ask for. -/
def ofWords (w : Words) : FixupOptions where
  input := w.arguments.headD ""
  verifyOnly := w.has "verify-only"
  noVerify := w.has "no-verify"
  checks := (w.value? "checks").getD "all"
  emit := w.value? "emit"
  dump := w.has "dump"
  format :=
    if w.has "json" then .json else if w.has "no-color" then .plain else .colour

end FixupOptions

namespace Fixup

variable {m : Type → Type} [Monad m]

/-- A command that may stop. -/
abbrev RunM (m : Type → Type) := ExceptT Failure m

/-- Go on with a result, or stop. -/
def orStop {ε α : Type} (failure : ε → Failure) (result : Except ε α) : RunM m α :=
  ExceptT.mk (pure (result.mapError failure))

/-- Print a line for the user. -/
def reportLine (host : Host m) (line : String) : RunM m Unit := host.report (line ++ "\n")

/-- Read the program. -/
def load (host : Host m) (path : String) : RunM m Program := do
  let text ← orStop (.file path) (← host.readText path)
  orStop (.dump path) (Dump.decode text)

/-- What is said about normalisation. -/
def normalizeLines (verbosity : Verbosity) (modules : Nat) (r : Normalize.Report) : List String :=
  let summary := "  Normalized " ++ modules.repr ++ " module(s): " ++ r.counts.total.repr
    ++ " rewrite(s)"
  let rewrites := "    wrapped branches: " ++ r.counts.wrappedBranches.repr
    ++ ", hoisted temporaries: " ++ r.counts.hoistedTemps.repr
    ++ ", flattened parens: " ++ r.counts.flattenedParens.repr
    ++ ", dropped empty statements: " ++ r.counts.droppedNops.repr
  let visits := "    visited " ++ r.tally.symbols.repr ++ " symbol(s), " ++ r.tally.stmts.repr
    ++ " statement(s), " ++ r.tally.exprs.repr ++ " expression(s)"
  match verbosity with
  | .quiet => []
  | .normal => [summary]
  | .verbose => [summary, rewrites, visits]

/-- Normalise the program. -/
def normalize (host : Host m) (verbosity : Verbosity) (p : Program) : RunM m Program := do
  let modules := p.moduleIds
  let (result, p) := Normalize.run .all modules p
  let report ← orStop .halted result
  (normalizeLines verbosity modules.length report).forM (reportLine host)
  return p

/-- A violation, as it is shown to the user. -/
def violationText (format : Report.Format) (p : Program) (v : Violation) : String :=
  Report.render format ((p.module? v.module).bind (·.source)) v
    ++ (if format = .json then "\n" else "")

/-- What is said about verification, behind the violations. -/
def verifyLine (modules violations : Nat) : String :=
  "  Verified " ++ modules.repr ++ " module(s): "
    ++ (if violations = 0 then "no violations" else violations.repr ++ " violation(s)")

/-- Verify the program: the number of violations. -/
def verify (host : Host m) (verbosity : Verbosity) (format : Report.Format) (checks : Checks)
    (p : Program) : RunM m Nat := do
  let modules := p.moduleIds
  let report ← orStop .halted (Verify.run checks modules p)
  report.violations.forM fun v => host.report (violationText format p v)
  if verbosity ≠ .quiet && format ≠ .json then
    reportLine host (verifyLine modules.length report.violations.length)
  return report.violations.length

/-- Write the program out again. -/
def emit (host : Host m) (path : String) (p : Program) : RunM m Unit := do
  orStop (.file path) (← host.writeFile path (Dump.text p))

/-- Show the settings. -/
def reportConfig (host : Host m) (config : Config) : RunM m Unit := do
  reportLine host "runtime configuration:"
  host.report (← orStop .config config.text)

/-- Run the command: the number of violations. -/
def run (host : Host m) (options : FixupOptions) (flags : Flags) : RunM m Nat := do
  let config ← orStop .config (← (flags.resolve host).run)
  if config.verbosity = .verbose then reportConfig host config
  let checks ← orStop .checks (Checks.parse options.checks)
  let p ← load host options.input
  let p ← if options.verifyOnly then pure p else normalize host config.verbosity p
  let violations ←
    if options.noVerify then pure 0
    else verify host config.verbosity options.format checks p
  match options.emit with
  | none => pure ()
  | some path => emit host path p
  if options.dump then
    p.moduleIds.forM fun module => host.print (Listing.moduleText .standard p module)
  return violations

end Fixup

end MiddleEnd.Command
