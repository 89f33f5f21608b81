import MiddleEnd.Proofs.Command.Lawful
import MiddleEnd.Proofs.Walk.Exec

/-!
# MiddleEnd.Proofs.Command.Steps

The steps of the command on a lawful host. For each there is one law, which says when the step ends
well and what it leaves: the steps that read leave the system as it is, and the others only add to
what was printed and told, or write one file.

What the steps read is a function of the files (`FileSystem.settings`, `FileSystem.loaded`), and
what they tell is a text (`settingsText`, `rewritesText`, `verdictText`). A run finds its settings
first, and then is these steps in a row (`exec_run`).
-/

namespace MiddleEnd.Command

open Walk (exec exec_bind exec_bind_ok ok_of_exec_bind exec_pure)

variable {F K : Type}

namespace Fixup

/-! ## What is told -/

/-- What is told about the settings, if they are shown. -/
def settingsText (config : Config) : Except Config.Error String :=
  if config.verbosity = .verbose then config.text.map ("runtime configuration:\n" ++ ·) else .ok ""

/-- What is told about normalisation. -/
def rewritesText (verbosity : Verbosity) (modules : Nat) (report : Normalize.Report) : String :=
  String.join ((normalizeLines verbosity modules report).map (· ++ "\n"))

/-- What is told about verification: the violations, and how many they are. -/
def verdictText (verbosity : Verbosity) (format : Report.Format) (p : Program)
    (report : Verify.Report) : String :=
  String.join (report.violations.map (violationText format p)) ++
    if verbosity ≠ .quiet && format ≠ .json then
      verifyLine p.moduleIds.length report.violations.length ++ "\n"
    else ""

/-- What is printed of a program. -/
def listing (p : Program) : String := String.join (p.moduleIds.map (Listing.moduleText .standard p))

/-! ## Single steps -/

section

variable {ε α : Type} {w w' : System F} {host : Host (StateM (System F))} {fs : FileSystem F K}

/-- What the host does is done, and does not stop the command. -/
theorem exec_lift (w : System F) (x : StateM (System F) α) :
    exec (liftM x : ExceptT ε (StateM (System F)) α) w = (.ok (x.run w).1, (x.run w).2) := rfl

/-- A result that is there already does not change the system. -/
theorem exec_orStop (failure : ε → Failure) (result : Except ε α) (w : System F) :
    exec (orStop failure result : RunM (StateM (System F)) α) w =
      (result.mapError failure, w) := rfl

/-- A result that is at hand is the only one, and it leaves the system as it is. -/
theorem exec_orStop_iff {failure : ε → Failure} {result : Except ε α} {a : α} :
    exec (orStop failure result : RunM (StateM (System F)) α) w = (.ok a, w') ↔
      result = .ok a ∧ w' = w := by
  rw [exec_orStop, Prod.mk.injEq, eq_comm (a := w)]
  refine and_congr_left fun _ => ?_
  cases result with
  | error e => exact ⟨nofun, nofun⟩
  | ok b =>
    exact ⟨fun h => congrArg Except.ok (Except.ok.inj h),
      fun h => congrArg Except.ok (Except.ok.inj h)⟩

/-- Steps that change the system one after another. -/
theorem exec_forM {act : α → RunM (StateM (System F)) Unit} {step : System F → α → System F}
    (hact : ∀ a w, exec (act a) w = (.ok (), step w a)) : ∀ (items : List α) (w : System F),
    exec (items.forM act) w = (.ok (), items.foldl step w)
  | [], _ => rfl
  | a :: items, w => by
    show exec (act a >>= fun _ => items.forM act) w = _
    rw [exec_bind_ok (hact a w), exec_forM hact items]
    rfl

/-- The result of a write is handed on, with the path if it is a refusal. -/
theorem exec_emit (w : System F) (path : String) (p : Program) : exec (emit host path p) w =
    (((host.writeFile path (Dump.text p)).run w).1.mapError (.file path),
      ((host.writeFile path (Dump.text p)).run w).2) := by
  rw [emit, exec_bind_ok (exec_lift w _), exec_orStop]

/-- Show the settings, if that is asked for. -/
def showing (host : Host (StateM (System F))) (config : Config) : RunM (StateM (System F)) Unit :=
  if config.verbosity = .verbose then reportConfig host config else pure ()

/-- Print a program, if that is asked for. -/
def listingIf (host : Host (StateM (System F))) (dump : Bool) (p : Program) :
    RunM (StateM (System F)) Unit :=
  if dump then p.moduleIds.forM fun module => host.print (Listing.moduleText .standard p module)
  else pure ()

variable (law : host.Lawful fs)
include law

/-- A text that is told is told, and that is all. -/
theorem exec_report (text : String) (w : System F) :
    exec (liftM (host.report text) : ExceptT ε (StateM (System F)) Unit) w =
      (.ok (), w.report text) := by
  rw [exec_lift, law.report]

theorem exec_reportLine (line : String) (w : System F) :
    exec (reportLine host line) w = (.ok (), w.report (line ++ "\n")) :=
  exec_report law _ w

/-! ## Reading -/

/-- Reading a text leaves the system as it is. -/
theorem exec_readText (w : System F) (path : String) :
    exec (liftM (host.readText path) : ExceptT ε (StateM (System F)) _) w =
      (.ok (fs.readText w.files path), w) := by
  have hrun : (host.readText path).run w = (fs.readText w.files path, w) := by
    rw [Host.readText, FileSystem.readText, StateT.run_bind, law.readFile]
    cases fs.read w.files path with
    | error e => rfl
    | ok bytes =>
      simp only [bind]
      cases String.fromUTF8? bytes <;> rfl
  rw [exec_lift, hrun]

/-- The variables of the configuration file are a function of the files. -/
theorem exec_fileVars (w : System F) (source : Option String) :
    exec (Flags.fileVars host source) w = (fs.fileVars w.files source, w) := by
  cases source with
  | none => rfl
  | some path =>
    rw [Flags.fileVars, exec_bind_ok (exec_readText law w path), FileSystem.fileVars]
    cases fs.readText w.files path <;> rfl

/-- The settings are a function of the files. -/
theorem exec_resolve (w : System F) (flags : Flags) :
    exec (flags.resolve host) w = (fs.settings w.files flags, w) := by
  rw [Flags.resolve, FileSystem.settings]
  by_cases hzero : flags.numLocales = 0
  · simp only [hzero, if_true]
    rfl
  · simp only [hzero, if_false]
    rw [exec_bind, exec_fileVars law]
    cases fs.fileVars w.files flags.configFile with
    | error e => rfl
    | ok vars =>
      show exec (ExceptT.mk (pure (Flags.assign vars flags.assignments)) >>= fun vars =>
        pure (flags.config vars)) w = (Flags.assign vars flags.assignments >>= fun vars =>
          pure (flags.config vars), w)
      cases Flags.assign vars flags.assignments <;> rfl

/-- Finding the settings leaves the system as it is. -/
theorem exec_settings (w : System F) (flags : Flags) :
    exec (liftM (flags.resolve host).run : RunM (StateM (System F)) _) w =
      (.ok (fs.settings w.files flags), w) := by
  have hrun : ((flags.resolve host).run).run w = (fs.settings w.files flags, w) :=
    exec_resolve law w flags
  rw [exec_lift, hrun]

/-- So does reading the program. -/
theorem exec_load (w : System F) (path : String) :
    exec (load host path) w = (fs.loaded w.files path, w) := by
  rw [load, exec_bind_ok (exec_readText law w path), FileSystem.loaded]
  cases fs.readText w.files path <;> rfl

/-- A program that was loaded is the one that the files hold, and loading leaves the system. -/
theorem exec_load_iff {path : String} {p : Program} :
    exec (load host path) w = (.ok p, w') ↔ fs.loaded w.files path = .ok p ∧ w' = w := by
  rw [exec_load law, Prod.mk.injEq, eq_comm (a := w)]

/-! ## Passes -/

/-- Normalisation ends well if the pass does, and only adds to what was told. -/
theorem exec_normalize_iff {verbosity : Verbosity} {p q : Program} :
    exec (normalize host verbosity p) w = (.ok q, w') ↔
      ∃ report, Normalize.run .all p.moduleIds p = (.ok report, q) ∧
        w' = w.report (rewritesText verbosity p.moduleIds.length report) := by
  rw [normalize]
  obtain ⟨result, q'⟩ := Normalize.run .all p.moduleIds p
  cases result with
  | error halt =>
    constructor
    · intro h
      cases h
    · rintro ⟨_, ⟨⟩, _⟩
  | ok report =>
    have htold := exec_forM (exec_reportLine law)
      (normalizeLines verbosity p.moduleIds.length report) w
    rw [System.foldl_report] at htold
    show exec ((normalizeLines verbosity p.moduleIds.length report).forM (reportLine host) >>=
      fun _ => pure q') w = _ ↔ _
    rw [exec_bind_ok htold]
    constructor
    · intro h
      cases h
      exact ⟨report, rfl, rfl⟩
    · rintro ⟨_, ⟨⟩, rfl⟩
      rfl

/-- Verification ends well if the pass does, and only adds to what was told. -/
theorem exec_verify_iff {verbosity : Verbosity} {format : Report.Format} {checks : Checks}
    {p : Program} {n : Nat} : exec (verify host verbosity format checks p) w = (.ok n, w') ↔
      ∃ report, Verify.run checks p.moduleIds p = .ok report ∧ n = report.violations.length ∧
        w' = w.report (verdictText verbosity format p report) := by
  rw [verify]
  cases Verify.run checks p.moduleIds p with
  | error halt =>
    constructor
    · intro h
      cases h
    · rintro ⟨_, ⟨⟩, _⟩
  | ok report =>
    have hsaid : ∀ v w, exec (liftM (host.report (violationText format p v)) :
        RunM (StateM (System F)) Unit) w = (.ok (), w.report (violationText format p v)) :=
      fun v w => exec_report law _ w
    have hall := exec_forM hsaid report.violations w
    rw [System.foldl_report] at hall
    have hend : exec (do
        if verbosity ≠ .quiet && format ≠ .json then
          reportLine host (verifyLine p.moduleIds.length report.violations.length)
        return report.violations.length)
          (w.report (String.join (report.violations.map (violationText format p)))) =
        (.ok report.violations.length, w.report (verdictText verbosity format p report)) := by
      rw [verdictText]
      by_cases hline : (verbosity ≠ .quiet && format ≠ .json) = true
      · rw [if_pos hline, if_pos hline, exec_bind_ok (exec_reportLine law _ _),
          System.report_report]
        rfl
      · rw [if_neg hline, if_neg hline, String.append_empty]
        rfl
    rw [exec_bind_ok (exec_orStop_iff.mpr ⟨rfl, rfl⟩), exec_bind_ok hall, hend]
    constructor
    · intro h
      cases h
      exact ⟨report, rfl, rfl, rfl⟩
    · rintro ⟨_, ⟨⟩, rfl, rfl⟩
      rfl

/-! ## Results -/

/-- A program is written to a file as its dump. -/
theorem exec_emit_file {path : String} {k : K} (hfile : fs.target? w.files path = some k)
    (p : Program) : exec (emit host path p) w =
      (.ok (), { w with files := fs.put w.files k (Dump.text p).toUTF8 }) := by
  rw [exec_emit, law.writeFile _ hfile]
  rfl

/-- Settings are shown as their text, and stop the command if they have none. -/
theorem exec_showing_iff {config : Config} : exec (showing host config) w = (.ok (), w') ↔
    ∃ text, settingsText config = .ok text ∧ w' = w.report text := by
  rw [showing, settingsText]
  by_cases hverbose : config.verbosity = .verbose
  · rw [if_pos hverbose, if_pos hverbose, reportConfig, exec_bind_ok (exec_reportLine law _ _)]
    cases config.text with
    | error e =>
      constructor
      · intro h
        cases h
      · rintro ⟨_, ⟨⟩, _⟩
    | ok text =>
      have htold : exec (host.report text : RunM (StateM (System F)) Unit)
          (w.report ("runtime configuration:" ++ "\n")) =
          (.ok (), w.report ("runtime configuration:\n" ++ text)) :=
        (exec_report law _ _).trans (congrArg _ (System.report_report w _ text))
      rw [exec_bind_ok (exec_orStop_iff.mpr ⟨rfl, rfl⟩), htold]
      constructor
      · intro h
        cases h
        exact ⟨_, rfl, rfl⟩
      · rintro ⟨_, ⟨⟩, rfl⟩
        rfl
  · rw [if_neg hverbose, if_neg hverbose]
    constructor
    · intro h
      cases h
      exact ⟨_, rfl, (System.report_empty w).symm⟩
    · rintro ⟨_, ⟨⟩, rfl⟩
      exact congrArg _ (System.report_empty w).symm

/-- A listing is only printed. -/
theorem exec_listingIf (w : System F) (dump : Bool) (p : Program) :
    exec (listingIf host dump p) w = (.ok (), w.print (if dump then listing p else "")) := by
  cases dump with
  | false => exact congrArg _ (System.print_empty w).symm
  | true =>
    have hone : ∀ m w, exec (liftM (host.print (Listing.moduleText .standard p m)) :
        RunM (StateM (System F)) Unit) w = (.ok (), w.print (Listing.moduleText .standard p m)) :=
      fun m w => by rw [exec_lift, law.print]
    have hall := exec_forM hone p.moduleIds w
    rw [System.foldl_print] at hall
    exact hall

end

/-! ## Runs -/

section

variable (host : Host (StateM (System F)))

/-- Normalise the program, unless it is only to be verified. -/
def normalizing (verifyOnly : Bool) (v : Verbosity) (p : Program) :
    RunM (StateM (System F)) Program :=
  if verifyOnly then pure p else normalize host v p

/-- Verify the program, unless it is not to be verified. -/
def verifying (noVerify : Bool) (v : Verbosity) (format : Report.Format) (checks : Checks)
    (p : Program) : RunM (StateM (System F)) Nat :=
  if noVerify then pure 0 else verify host v format checks p

/-- Write the program to a file, if there is one to write. -/
def emitting (path : Option String) (p : Program) : RunM (StateM (System F)) Unit :=
  match path with
  | none => pure ()
  | some path => emit host path p

/-- What is left of a run when the settings are known. -/
def afterSettings (options : FixupOptions) (config : Config) : RunM (StateM (System F)) Nat := do
  showing host config
  let checks ← orStop .checks (Checks.parse options.checks)
  let p ← load host options.input
  let q ← normalizing host options.verifyOnly config.verbosity p
  let violations ← verifying host options.noVerify config.verbosity options.format checks q
  emitting host options.emit q
  listingIf host options.dump q
  return violations

/-- A run is made of these steps. -/
theorem run_eq_afterSettings (options : FixupOptions) (flags : Flags) :
    run host options flags = (do
      let config ← orStop .config (← (flags.resolve host).run)
      afterSettings host options config) := by
  rw [run]
  refine congrArg _ (funext fun resolved => congrArg _ (funext fun config => ?_))
  rw [afterSettings, showing]
  obtain ⟨input, verifyOnly, noVerify, checks, emit, dump, format⟩ := options
  by_cases hverbose : config.verbosity = .verbose
  · simp only [if_pos hverbose]
    cases verifyOnly <;> cases noVerify <;> cases emit <;> cases dump <;> rfl
  · simp only [if_neg hverbose]
    cases verifyOnly <;> cases noVerify <;> cases emit <;> cases dump <;> rfl

end

/-- A run finds its settings first, and stops there if there are none. -/
theorem exec_run {host : Host (StateM (System F))} {fs : FileSystem F K} (law : host.Lawful fs)
    (options : FixupOptions) (flags : Flags) (w : System F) :
    exec (run host options flags) w = match fs.settings w.files flags with
      | .error e => (.error (.config e), w)
      | .ok config => exec (afterSettings host options config) w := by
  rw [run_eq_afterSettings, exec_bind_ok (exec_settings law w flags), exec_bind, exec_orStop]
  cases fs.settings w.files flags <;> rfl

end Fixup

end MiddleEnd.Command
