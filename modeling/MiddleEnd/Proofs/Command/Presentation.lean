import MiddleEnd.Proofs.Command.Again
import MiddleEnd.Proofs.Config
import MiddleEnd.Proofs.Walk.Lockstep

/-!
# MiddleEnd.Proofs.Command.Presentation

What the way of presentation decides over. How much is told, and in which form, is a matter between
the command and the user: runs that differ in it go in lockstep, on systems that are alike but for
what the user was told, so they end with one code, print one text and write one file
(`run_presented`).

There is one way out of step. A run that tells everything begins with the settings, and stops when
they cannot be shown (`run_unshown`), where the other runs go on.
-/

namespace MiddleEnd.Command

open Walk

variable {F K : Type}

namespace Fixup

/-! ## Steps -/

/-- Steps that come to a result, and do nothing but tell the user something. -/
def Tells {α : Type} (a : α) (steps : RunM (StateM (System F)) α) : Prop :=
  ∀ w, ∃ text, exec steps w = (.ok a, w.report text)

section

variable {α ε : Type} {a : α} {steps steps' : RunM (StateM (System F)) α}
  {first : RunM (StateM (System F)) Unit} {host : Host (StateM (System F))} {fs : FileSystem F K}

/-- Steps that do nothing come to their result and tell nothing. -/
theorem tells_pure (a : α) : Tells a (pure a : RunM (StateM (System F)) α) :=
  fun w => ⟨"", by rw [System.report_empty]; rfl⟩

/-- What is told one after the other is told. -/
theorem Tells.then (h : Tells () first) (h' : Tells a steps) :
    Tells a (first >>= fun _ => steps) := by
  intro w
  obtain ⟨text, hfirst⟩ := h w
  obtain ⟨more, hsteps⟩ := h' (w.report text)
  exact ⟨text ++ more, by rw [exec_bind_ok hfirst, hsteps, System.report_report]⟩

/-- Steps that only tell do so in a row. -/
theorem tells_forM {tell : α → RunM (StateM (System F)) Unit} (h : ∀ a, Tells () (tell a)) :
    ∀ items : List α, Tells () (items.forM tell)
  | [] => tells_pure ()
  | a :: items => (h a).then (tells_forM h items)

/-- Whatever they tell the user, steps to one result are in lockstep. -/
theorem Tells.lockstep (h : Tells a steps) (h' : Tells a steps') :
    Lockstep System.Alike steps steps' := by
  intro x y hxy
  obtain ⟨text, hsteps⟩ := h x
  obtain ⟨text', hsteps'⟩ := h' y
  rw [hsteps, hsteps']
  exact ⟨rfl, hxy.report text text'⟩

/-- A result that is at hand stops the steps on both systems or on none. -/
theorem lockstep_orStop (failure : ε → Failure) (result : Except ε α) :
    Lockstep System.Alike (orStop failure result : RunM (StateM (System F)) α)
      (orStop failure result) :=
  fun _ _ h => ⟨rfl, h⟩

variable (law : host.Lawful fs)
include law

/-- A report only tells. -/
theorem tells_report (text : String) :
    Tells () (liftM (host.report text) : RunM (StateM (System F)) Unit) :=
  fun w => ⟨text, exec_report law text w⟩

/-- Reading a program does not depend on what the user was told. -/
theorem lockstep_load (path : String) :
    Lockstep System.Alike (load host path) (load host path) := by
  intro x y h
  rw [exec_load law, exec_load law, h.files]
  exact ⟨rfl, h⟩

/-- How much is told about normalisation does not decide over its result. -/
theorem lockstep_normalize (v v' : Verbosity) (p : Program) :
    Lockstep System.Alike (normalize host v p) (normalize host v' p) := by
  rw [normalize, normalize]
  obtain ⟨result, q⟩ := Normalize.run .all p.moduleIds p
  have htell : ∀ lines : List String,
      Tells q (lines.forM (reportLine host) >>= fun _ => pure q) := fun lines =>
    (tells_forM (fun _ => tells_report law _) lines).then (tells_pure q)
  exact (lockstep_orStop _ _).bind fun report => (htell _).lockstep (htell _)

/-- What the user is told of violations, and of their number if `counted` says so. -/
theorem tells_violations (format : Report.Format) (p : Program) (violations : List Violation)
    (counted : Bool) (line : String) :
    Tells violations.length (show RunM (StateM (System F)) Nat from do
      violations.forM fun v => host.report (violationText format p v)
      if counted then reportLine host line
      return violations.length) := by
  refine Tells.then (tells_forM (fun v => tells_report law _) violations) ?_
  cases counted with
  | true => exact Tells.then (tells_report law _) (tells_pure _)
  | false => exact tells_pure _

/-- How much is told about violations, and in which form, does not decide over their number. -/
theorem lockstep_verify (v v' : Verbosity) (format format' : Report.Format) (checks : Checks)
    (p : Program) : Lockstep System.Alike (verify host v format checks p)
      (verify host v' format' checks p) :=
  (lockstep_orStop _ _).bind fun report =>
    (tells_violations law format p report.violations _ _).lockstep
      (tells_violations law format' p report.violations _ _)

/-- Writing a program does not depend on what the user was told. -/
theorem lockstep_emit (path : String) (p : Program) :
    Lockstep System.Alike (emit host path p) (emit host path p) := by
  intro x y h
  obtain ⟨hresult, halike⟩ := law.writeFile_alike path (Dump.text p) h
  rw [exec_emit, exec_emit, hresult]
  exact ⟨rfl, halike⟩

/-- A listing is printed alike on systems that are alike. -/
theorem lockstep_listingIf (dump : Bool) (p : Program) :
    Lockstep System.Alike (listingIf host dump p) (listingIf host dump p) := by
  intro x y h
  rw [exec_listingIf law, exec_listingIf law]
  exact ⟨rfl, h.print _⟩

/-- Settings that can be shown are told if that is asked for. -/
theorem tells_showing {config : Config} (h : config.verbosity = .verbose → config.Showable) :
    Tells () (showing host config) := by
  obtain ⟨text, htext⟩ : ∃ text, settingsText config = .ok text := by
    rw [settingsText]
    split
    · next hverbose =>
      obtain ⟨text, htext⟩ := Config.exists_text_iff.mpr (h hverbose)
      rw [htext]
      exact ⟨_, rfl⟩
    · exact ⟨"", rfl⟩
  exact fun w => ⟨text, (exec_showing_iff law).mpr ⟨text, htext, rfl⟩⟩

end

/-! ## Runs -/

variable {host : Host (StateM (System F))} {fs : FileSystem F K} {flags : Flags} {w : System F}
  {config : Config}

/-- Where the settings can be shown, presentation does not decide over what is left of a run. -/
theorem lockstep_afterSettings (law : host.Lawful fs) {options : FixupOptions}
    (format : Report.Format) (v : Verbosity)
    (h : config.verbosity = .verbose ∨ v = .verbose → config.Showable) :
    Lockstep System.Alike (afterSettings host options config)
      (afterSettings host { options with format } { config with verbosity := v }) := by
  have hshowing : Tells () (showing host config) := tells_showing law fun hv => h (.inl hv)
  have hshowing' : Tells () (showing host { config with verbosity := v }) :=
    tells_showing law fun hv => (Config.showable_verbosity v).mpr (h (.inr hv))
  refine (hshowing.lockstep hshowing').bind fun _ => (lockstep_orStop _ _).bind fun checks =>
    (lockstep_load law _).bind fun p => Lockstep.bind ?_ fun q => Lockstep.bind ?_ fun violations =>
    Lockstep.bind ?_ fun _ => (lockstep_listingIf law _ q).bind fun _ => lockstep_pure violations
  · cases options.verifyOnly with
    | true => exact lockstep_pure p
    | false => exact lockstep_normalize law _ _ p
  · cases options.noVerify with
    | true => exact lockstep_pure 0
    | false => exact lockstep_verify law _ _ _ _ checks q
  · cases options.emit with
    | none => exact lockstep_pure ()
    | some path => exact lockstep_emit law path q

/-! ## Results -/

/-- A command that has ended only says why it did. -/
theorem conclude_alike (law : host.Lawful fs) {x y : System F} (h : x.Alike y)
    (asJson asJson' : Bool) (answer : Except Failure Nat) :
    ((conclude host asJson' answer).run y).1 = ((conclude host asJson answer).run x).1 ∧
      ((conclude host asJson answer).run x).2.Alike ((conclude host asJson' answer).run y).2 := by
  match answer with
  | .ok 0 => exact ⟨rfl, h⟩
  | .ok (_ + 1) => exact ⟨rfl, h⟩
  | .error f =>
    rw [conclude, conclude, StateT.run_bind, StateT.run_bind, law.report, law.report]
    exact ⟨rfl, h.report _ _⟩

/-- Runs that differ in presentation only, in how much they tell the user and in which form, end
with the same code, have printed the same, and leave the same files. The settings have to be such
that they can be shown, if one of the runs shows them. -/
theorem run_presented (law : host.Lawful fs) (options : FixupOptions) (format : Report.Format)
    (quiet verbose : Bool)
    (hshown : ∀ config, fs.settings w.files flags = .ok config →
      flags.verbosity = .verbose ∨ Flags.verbosity { flags with quiet, verbose } = .verbose →
        config.Showable) :
    let here := ((Request.fixup options flags).run host).run w
    let there := ((Request.fixup { options with format } { flags with quiet, verbose }).run
      host).run w
    there.1 = here.1 ∧ here.2.Alike there.2 := by
  have hruns : (exec (run host { options with format } { flags with quiet, verbose }) w).1 =
        (exec (run host options flags) w).1 ∧
      (exec (run host options flags) w).2.Alike
        (exec (run host { options with format } { flags with quiet, verbose }) w).2 := by
    rw [exec_run law, exec_run law, FileSystem.settings_presented]
    cases hconfig : fs.settings w.files flags with
    | error e => exact ⟨rfl, .refl w⟩
    | ok config =>
      rw [← FileSystem.verbosity_of_settings hconfig] at hshown
      exact lockstep_afterSettings law format _ (hshown config hconfig) w w (.refl w)
  intro here there
  rw [show here = _ from run_fixup _ _ _ _, show there = _ from run_fixup _ _ _ _, hruns.1]
  exact conclude_alike law hruns.2 _ _ _

/-- The violation in `draft` is found, and the file is written, if everything is told and as JSON as
well as if not. -/
theorem run_presented_copied :
    (∀ config, inMemory.settings desk.files bare = .ok config → config.Showable) ∧
    let there := ((Request.fixup { copying with format := .json } { bare with verbose := true }).run
      Host.inMemory).run desk
    there.1 = 1 ∧ (copied.after copying inMemory "out" desk).Alike there.2 := by
  have hshown : ∀ config, inMemory.settings desk.files bare = .ok config → config.Showable := by
    intro config hconfig
    obtain rfl : bare.config [] = config := Except.ok.inj (copied_of.config.symm.trans hconfig)
    exact ⟨nofun, nofun, nofun, nofun⟩
  have hfile : inMemory.target? desk.files "out" = some "out" := rfl
  have hrun : exec (run Host.inMemory copying bare) desk =
      (.ok 1, copied.after copying inMemory "out" desk) :=
    (exec_run_iff lawful_inMemory rfl rfl rfl hfile).mpr ⟨copied, copied_of, rfl, rfl⟩
  obtain ⟨hcode, halike⟩ := run_presented lawful_inMemory copying .json false true
    fun config hconfig _ => hshown config hconfig
  rw [request_run hrun] at hcode halike
  exact ⟨hshown, hcode, halike⟩

/-- A run that tells everything, with settings that cannot be shown, stops at once: nothing is
printed, and no file is written, whatever the run was to do. -/
theorem run_unshown (law : host.Lawful fs) (options : FixupOptions) {e : Config.Error}
    (hconfig : fs.settings w.files flags = .ok config)
    (hverbose : flags.verbosity = .verbose) (htext : config.text = .error e) :
    ((Request.fixup options flags).run host).run w = ((Failure.config e).exitCode,
      (w.report "runtime configuration:\n").report
        ((Failure.config e).text (options.format = .json))) := by
  have hshowing : exec (showing host config) w =
      (.error (.config e), w.report "runtime configuration:\n") := by
    rw [showing, if_pos ((FileSystem.verbosity_of_settings hconfig).trans hverbose), reportConfig,
      exec_bind_ok (exec_reportLine law _ _), htext]
    rfl
  have hrun : exec (run host options flags) w =
      (.error (.config e), w.report "runtime configuration:\n") := by
    rw [exec_run law, hconfig]
    simp only [afterSettings, exec_bind, hshowing]
  rw [run_fixup, hrun, conclude, StateT.run_bind, law.report]
  rfl

/-- A limit that no document has a place for. -/
def heavy : Flags := { bare with memthreshold := some 9223372036854775808 }

/-- A world with a dump of nothing. -/
def blank : World := ⟨[("in", (Dump.text ⟨#[], #[], #[], #[]⟩).toUTF8)], "", ""⟩

/-- Nothing is wrong with nothing. -/
def idle : Outcome where
  config := heavy.config []
  shown := ""
  checks := .all
  input := ⟨#[], #[], #[], #[]⟩
  result := ⟨#[], #[], #[], #[]⟩
  rewrites := ⟨.zero, .zero⟩
  verdict := ⟨[], .zero⟩

theorem idle_of : idle.Of copying heavy inMemory blank.files := by
  refine ⟨rfl, rfl, copied_of.checks, ?_, ?_, ?_⟩
  · have hread : inMemory.read blank.files "in" = .ok (Dump.text idle.input).toUTF8 := rfl
    exact FileSystem.loaded_of_read hread (Dump.decode_text _)
  · decide +kernel
  · decide +kernel

/-- With `heavy`, a run over nothing ends well and writes a file.  The same run, if it is to tell
everything, ends with an error and writes none. -/
theorem run_unshown_heavy :
    inMemory.settings blank.files heavy = .ok (heavy.config []) ∧
    ((Request.fixup copying heavy).run Host.inMemory).run blank =
      (0, idle.after copying inMemory "out" blank) ∧
    (((Request.fixup copying { heavy with verbose := true }).run Host.inMemory).run blank).1 = 1 ∧
    (((Request.fixup copying { heavy with verbose := true }).run Host.inMemory).run blank).2.files =
      blank.files ∧ (idle.after copying inMemory "out" blank).files ≠ blank.files := by
  have hfile : inMemory.target? blank.files "out" = some "out" := rfl
  have hrun : exec (run Host.inMemory copying heavy) blank =
      (.ok 0, idle.after copying inMemory "out" blank) :=
    (exec_run_iff lawful_inMemory rfl rfl rfl hfile).mpr ⟨idle, idle_of, rfl, rfl⟩
  have hverbose : inMemory.settings blank.files { heavy with verbose := true } =
      .ok (Flags.config { heavy with verbose := true } []) := rfl
  have htext : (Flags.config { heavy with verbose := true } []).text = .error .outOfRange := rfl
  have hstops := run_unshown lawful_inMemory copying hverbose rfl htext
  have hwritten : (idle.after copying inMemory "out" blank).files ≠ blank.files := fun hfiles => by
    have hfound : blank.files.file? "out" = some (Dump.text idle.result).toUTF8 :=
      hfiles ▸ Directory.file?_write_self blank.files "out" _
    have hnone : blank.files.file? "out" = none := rfl
    rw [hnone] at hfound
    cases hfound
  rw [hstops]
  exact ⟨rfl, request_run hrun, rfl, rfl, hwritten⟩

end Fixup

end MiddleEnd.Command
