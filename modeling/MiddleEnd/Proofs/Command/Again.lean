import MiddleEnd.Command.Run
import MiddleEnd.Proofs.Command.Files
import MiddleEnd.Proofs.Command.Steps
import MiddleEnd.Proofs.Dump.RoundTrip
import MiddleEnd.Proofs.Normalize.Defects
import MiddleEnd.Proofs.Normalize.Stable

/-!
# MiddleEnd.Proofs.Command.Again

Running the command on what it wrote.  A run that normalises, verifies and writes a file leaves
there a program on which normalisation has nothing to do (`Normalize.run_of_verified`), because the
verifier accepted it; and the file is read as this program (`Dump.decode_text`).  So a second run,
on the file, repeats the first one.
-/

namespace MiddleEnd

open Walk

/-! ## Programs that were normalised and verified -/

namespace Program

/-- No module unfolds twice: the nodes of the trees are distinct. -/
theorem Unfolds.nodup_modules {modules : List ModuleId} {p : Program} {ts : List Tree}
    (h : p.Unfolds modules ts) : modules.Nodup := by
  have hroots := Tree.nodup_roots h.nodup
  rw [h.roots] at hroots
  exact hroots.of_map _

/-- Every module of a program is there. -/
theorem has_of_mem_moduleIds {p : Program} {m : ModuleId} (h : m ∈ p.moduleIds) :
    p.has (.module m) = true := by
  obtain ⟨i, hi, rfl⟩ := List.mem_map.mp h
  have hindex : (ModuleId.ofIndex i).index < p.modules.size :=
    Nat.lt_of_le_of_lt (Nat.mod_le _ _) (List.mem_range.mp hi)
  rw [has, module?, Array.getElem?_eq_getElem hindex]
  rfl

end Program

namespace Normalize

/-- A run changes no module. -/
theorem modules_run (r : Rules) (modules : List ModuleId) (p : Program) :
    (Normalize.run r modules p).2.modules = p.modules := by
  have hgrows : Grows (pass.runModules modules) := larger_local.forM grows_runModule modules
  rw [run_of_exec rfl]
  exact (hgrows (begun r p)).modules

/-- A run has nothing to do on what another run left, if a verifier accepts it. -/
theorem run_of_verified {r : Rules} {checks : Checks} {modules : List ModuleId} {p q : Program}
    {report : Report} {verdict : Verify.Report} (hexist : ∀ m ∈ modules, p.has (.module m) = true)
    (haddr : q.Addressable) (hrun : Normalize.run r modules p = (.ok report, q))
    (hverify : Verify.run checks modules q = .ok verdict) :
    ∃ tally, Normalize.run r modules q = (.ok ⟨.zero, tally⟩, q) := by
  obtain ⟨us, hus⟩ := Verify.unfolds_of_run hverify
  obtain rfl : (Normalize.run r modules p).2 = q := congrArg Prod.snd hrun
  have hok : (Normalize.run r modules p).1 = .ok report := congrArg Prod.fst hrun
  have hsurvey : survey modules p = .ok () :=
    survey_of_isForest (isForest_of_run (.inr ⟨us, hus⟩) haddr hok) hus.nodup_modules hexist
  obtain ⟨ts, hts⟩ := trees_of_survey hsurvey
  obtain ⟨_, hunfolds, _⟩ := rebuilt_of_run hts haddr
  exact run_of_stable (stable_of_run hts haddr) hunfolds.roots

end Normalize

namespace Command

variable {F K : Type}

/-! ## What a run works out -/

/-- What a run of the command works out. -/
structure Outcome where
  config : Config
  /-- What is told about the settings. -/
  shown : String
  checks : Checks
  /-- The program that is read. -/
  input : Program
  /-- The program that is written. -/
  result : Program
  rewrites : Normalize.Report
  verdict : Verify.Report

namespace Outcome

/-- It is what a run with these options and flags works out from the files. -/
structure Of (o : Outcome) (options : FixupOptions) (flags : Flags) (fs : FileSystem F K)
    (files : F) : Prop where
  config : fs.settings files flags = .ok o.config
  shown : Fixup.settingsText o.config = .ok o.shown
  checks : Checks.parse options.checks = .ok o.checks
  input : fs.loaded files options.input = .ok o.input
  normalized : Normalize.run .all o.input.moduleIds o.input = (.ok o.rewrites, o.result)
  verified : Verify.run o.checks o.result.moduleIds o.result = .ok o.verdict

/-- The violations, as the user is told them. -/
def diagnostics (o : Outcome) (format : Report.Format) : String :=
  Fixup.verdictText o.config.verbosity format o.result o.verdict

/-- What the user is told in all. -/
def told (o : Outcome) (format : Report.Format) : String :=
  o.shown ++ Fixup.rewritesText o.config.verbosity o.input.moduleIds.length o.rewrites ++
    o.diagnostics format

/-- The files after a run that writes one. -/
def written (o : Outcome) (fs : FileSystem F K) (file : K) (files : F) : F :=
  fs.put files file (Dump.text o.result).toUTF8

/-- The system after a run that writes a file. -/
def after (o : Outcome) (options : FixupOptions) (fs : FileSystem F K) (file : K) (w : System F) :
    System F :=
  ({ w with files := o.written fs file w.files }.report (o.told options.format)).print
    (if options.dump then Fixup.listing o.result else "")

/-- The same, of a program that was normalised already. -/
def settled (o : Outcome) (tally : Tally) : Outcome :=
  { o with input := o.result, rewrites := ⟨.zero, tally⟩ }

end Outcome

/-! ## Runs -/

namespace Fixup

variable {options : FixupOptions} {flags : Flags} {out : String} {n : Nat}
  {host : Host (StateM (System F))} {fs : FileSystem F K} {file : K} {files : F} {w w' : System F}

/-- What is left of a run when the settings are known and shown. -/
def passes (host : Host (StateM (System F))) (options : FixupOptions) (out : String)
    (config : Config) : RunM (StateM (System F)) Nat := do
  let checks ← orStop .checks (Checks.parse options.checks)
  let p ← load host options.input
  let q ← normalize host config.verbosity p
  let violations ← verify host config.verbosity options.format checks q
  emit host out q
  listingIf host options.dump q
  return violations

/-- The steps of a run that normalises, verifies and writes a file. -/
theorem run_eq (host : Host (StateM (System F))) (hnormalizes : options.verifyOnly = false)
    (hverifies : options.noVerify = false) (hemits : options.emit = some out) :
    run host options flags = (do
      let config ← orStop .config (← (flags.resolve host).run)
      showing host config
      passes host options out config) := by
  rw [run_eq_afterSettings]
  refine congrArg _ (funext fun resolved => congrArg _ (funext fun config => ?_))
  rw [afterSettings, hnormalizes, hverifies, hemits]
  rfl

/-- A run ends well exactly if there is something that it works out, and then it leaves the program
in the file and has told the user what there is to tell. -/
theorem exec_run_iff (law : host.Lawful fs) (hnormalizes : options.verifyOnly = false)
    (hverifies : options.noVerify = false) (hemits : options.emit = some out)
    (hfile : fs.target? w.files out = some file) :
    exec (run host options flags) w = (.ok n, w') ↔
      ∃ o : Outcome, o.Of options flags fs w.files ∧ n = o.verdict.violations.length ∧
        w' = o.after options fs file w := by
  rw [run_eq host hnormalizes hverifies hemits, exec_bind_ok (exec_settings law w flags)]
  have htold : ∀ o : Outcome, ((w.report o.shown).report
      (rewritesText o.config.verbosity o.input.moduleIds.length o.rewrites)).report
        (verdictText o.config.verbosity options.format o.result o.verdict) =
      w.report (o.told options.format) := fun o => by
    rw [System.report_report, System.report_report, ← String.append_assoc]
    rfl
  have hemit : ∀ o : Outcome, exec (emit host out o.result) (w.report (o.told options.format)) =
      (.ok (), { w with files := o.written fs file w.files }.report (o.told options.format)) :=
    fun o =>
      have hfile' : fs.target? (w.report (o.told options.format)).files out = some file := hfile
      exec_emit_file law hfile' o.result
  constructor
  · intro h
    obtain ⟨config, _, h₁, hs₁⟩ := ok_of_exec_bind h
    obtain ⟨hconfig, rfl⟩ := exec_orStop_iff.mp h₁
    obtain ⟨_, _, h₂, hs₂⟩ := ok_of_exec_bind hs₁
    obtain ⟨shown, hshown, rfl⟩ := (exec_showing_iff law).mp h₂
    obtain ⟨checks, _, h₃, hs₃⟩ := ok_of_exec_bind hs₂
    obtain ⟨hchecks, rfl⟩ := exec_orStop_iff.mp h₃
    obtain ⟨p, _, h₄, hs₄⟩ := ok_of_exec_bind hs₃
    obtain ⟨hinput, rfl⟩ := (exec_load_iff law).mp h₄
    obtain ⟨q, _, h₅, hs₅⟩ := ok_of_exec_bind hs₄
    obtain ⟨rewrites, hnormalized, rfl⟩ := (exec_normalize_iff law).mp h₅
    obtain ⟨violations, _, h₆, hs₆⟩ := ok_of_exec_bind hs₅
    obtain ⟨verdict, hverified, rfl, rfl⟩ := (exec_verify_iff law).mp h₆
    let o : Outcome := ⟨config, shown, checks, p, q, rewrites, verdict⟩
    rw [htold o, exec_bind_ok (hemit o), exec_bind_ok (exec_listingIf law _ _ _)] at hs₆
    cases hs₆
    exact ⟨o, ⟨hconfig, hshown, hchecks, hinput, hnormalized, hverified⟩, rfl, rfl⟩
  · rintro ⟨o, ho, rfl, rfl⟩
    have hinput : fs.loaded (w.report o.shown).files options.input = .ok o.input := ho.input
    rw [exec_bind_ok (exec_orStop_iff.mpr ⟨ho.config, rfl⟩),
      exec_bind_ok ((exec_showing_iff law).mpr ⟨_, ho.shown, rfl⟩), passes,
      exec_bind_ok (exec_orStop_iff.mpr ⟨ho.checks, rfl⟩),
      exec_bind_ok ((exec_load_iff law).mpr ⟨hinput, rfl⟩),
      exec_bind_ok ((exec_normalize_iff law).mpr ⟨_, ho.normalized, rfl⟩),
      exec_bind_ok ((exec_verify_iff law).mpr ⟨_, ho.verified, rfl, rfl⟩), htold o,
      exec_bind_ok (hemit o), exec_bind_ok (exec_listingIf law _ _ _)]
    rfl

/-- The file that was written is a dump of the program that was written. -/
theorem loaded_written (hfile : fs.target? files out = some file) (o : Outcome) :
    fs.loaded (o.written fs file files) out = .ok o.result :=
  FileSystem.loaded_of_read (fs.read_put_self _ hfile) (Dump.decode_text o.result)

/-- What was worked out in a run is worked out again on the file that it wrote, but that there is
nothing to rewrite. -/
theorem of_written (hfile : fs.target? files out = some file)
    (hother : ∀ path, flags.configFile = some path → fs.source? files path ≠ some file)
    {o : Outcome} (ho : o.Of options flags fs files) (haddr : o.result.Addressable) :
    ∃ tally, (o.settled tally).Of { options with input := out } flags fs
      (o.written fs file files) := by
  have hmodules : o.result.moduleIds = o.input.moduleIds := by
    have hsame := Normalize.modules_run .all o.input.moduleIds o.input
    rw [ho.normalized] at hsame
    rw [Program.moduleIds, Program.moduleIds, hsame]
  obtain ⟨tally, hagain⟩ := Normalize.run_of_verified (fun _ hm => Program.has_of_mem_moduleIds hm)
    haddr ho.normalized (hmodules ▸ ho.verified)
  exact ⟨tally, FileSystem.settings_put hother ho.config, ho.shown, ho.checks,
    loaded_written hfile o, by rw [← hmodules] at hagain; exact hagain, ho.verified⟩

/-- The code that a run ends with if it finds so many violations. -/
def codeOf (n : Nat) : UInt32 := if n = 0 then 0 else 1

/-- A command, read off its run. -/
theorem run_fixup (host : Host (StateM (System F))) (options : FixupOptions) (flags : Flags)
    (w : System F) :
    ((Request.fixup options flags).run host).run w =
      (conclude host (options.format = .json) (exec (run host options flags) w).1).run
        (exec (run host options flags) w).2 := rfl

/-- A run that ends well has its code as the exit code. -/
theorem request_run (hexec : exec (run host options flags) w = (.ok n, w')) :
    ((Request.fixup options flags).run host).run w = (codeOf n, w') := by
  rw [run_fixup, hexec]
  cases n <;> rfl

/-- A run that normalises, verifies and writes a file, and ends without an error, is repeated by a
run of the same command on that file: it ends without an error and with the same code, it works out
the same but finds nothing to rewrite, it tells the user the same violations, and it leaves the file
as it is. Nothing is asked of the program that was read, and of the host only that its files are
files. The settings must come from elsewhere than the file that is written. -/
theorem run_again (law : host.Lawful fs)
    (hnormalizes : options.verifyOnly = false) (hverifies : options.noVerify = false)
    (hemits : options.emit = some out) (hfile : fs.target? w.files out = some file)
    (hother : ∀ path, flags.configFile = some path → fs.source? w.files path ≠ some file)
    (haddr : ∀ p, fs.loaded w.files options.input = .ok p →
      (Normalize.run .all p.moduleIds p).2.Addressable)
    (hrun : exec (run host options flags) w = (.ok n, w')) :
    ∃ (o : Outcome) (tally : Tally) (w'' : System F),
      (o.Of options flags fs w.files ∧ w' = o.after options fs file w) ∧
      exec (run host { options with input := out } flags) w' = (.ok n, w'') ∧
      ((o.settled tally).Of { options with input := out } flags fs w'.files ∧
        w'' = (o.settled tally).after { options with input := out } fs file w') ∧
      (o.settled tally).rewrites.counts.total = 0 ∧
      (o.settled tally).diagnostics options.format = o.diagnostics options.format ∧
      w''.files = w'.files ∧
      ((Request.fixup options flags).run host).run w = (codeOf n, w') ∧
      ((Request.fixup { options with input := out } flags).run host).run w' = (codeOf n, w'') := by
  obtain ⟨o, ho, rfl, rfl⟩ := (exec_run_iff law hnormalizes hverifies hemits hfile).mp hrun
  have haddr' : o.result.Addressable := by
    have haddr' := haddr o.input ho.input
    rwa [ho.normalized] at haddr'
  obtain ⟨tally, hagain⟩ := of_written hfile hother ho haddr'
  have hfile' : fs.target? (o.after options fs file w).files out = some file :=
    fs.target?_put _ hfile
  have hrun' : exec (run host { options with input := out } flags) (o.after options fs file w) =
      (.ok o.verdict.violations.length,
        (o.settled tally).after { options with input := out } fs file
          (o.after options fs file w)) := by
    refine (exec_run_iff law ?_ ?_ ?_ hfile').mpr ⟨o.settled tally, hagain, rfl, rfl⟩
    · exact hnormalizes
    · exact hverifies
    · exact hemits
  have hfiles : ((o.settled tally).after { options with input := out } fs file
      (o.after options fs file w)).files = (o.after options fs file w).files :=
    fs.put_put w.files file _
  exact ⟨o, tally, _, ⟨ho, rfl⟩, hrun', ⟨hagain, rfl⟩, rfl, rfl, hfiles, request_run hrun,
    request_run hrun'⟩

/-- `(v);` in a function, where `v` was removed. -/
def draft : Program where
  modules := #[⟨"m", "m.w", none, [⟨0⟩]⟩]
  symbols := #[.new "f" (.func [] none [⟨0⟩]) 1,
    { Symbol.new "v" (.var none) 2 with removed := true }]
  stmts := #[.new (.expr ⟨1⟩) 3]
  exprs := #[.new (.symRef ⟨1⟩) 3, .new (.paren ⟨0⟩) 3]

/-- `v;` in the same function, with every back-reference. -/
def tidied : Program where
  modules := draft.modules
  symbols := #[{ Symbol.new "f" (.func [] none [⟨0⟩]) 1 with scope := some (.module ⟨0⟩) },
    { Symbol.new "v" (.var none) 2 with removed := true }]
  stmts := #[⟨.expr ⟨0⟩, 3, none, some ⟨0⟩⟩]
  exprs := #[⟨.symRef ⟨1⟩, 3, some ⟨0⟩, some ⟨0⟩⟩, .new (.paren ⟨0⟩) 3]

/-- A world with a dump of `draft`. -/
def desk : World := ⟨[("in", (Dump.text draft).toUTF8)], "", ""⟩

/-- Read `in`, and write `out`. -/
def copying : FixupOptions := .ofWords ⟨[("emit", "out")], ["in"]⟩

/-- No flags. -/
def bare : Flags := .ofWords ⟨[], []⟩

/-- The parentheses go, and the reference to the removed symbol is found. -/
def copied : Outcome where
  config := bare.config []
  shown := ""
  checks := .all
  input := draft
  result := tidied
  rewrites := ⟨⟨0, 0, 1, 0⟩, ⟨1, 1, 1, 2⟩⟩
  verdict := ⟨[⟨.removedSymbol "v", ⟨0⟩, "m.w", 3, .expr ⟨0⟩⟩], ⟨1, 1, 1, 1⟩⟩

/-- The files in memory. -/
abbrev inMemory : FileSystem Directory String := Directory.fileSystem

/-- The dump on the desk is that of `draft`. -/
theorem loaded_desk : inMemory.loaded desk.files "in" = .ok draft := by
  have hread : inMemory.read desk.files "in" = .ok (Dump.text draft).toUTF8 := rfl
  exact FileSystem.loaded_of_read hread (Dump.decode_text draft)

theorem copied_of : copied.Of copying bare inMemory desk.files := by
  refine ⟨rfl, rfl, rfl, loaded_desk, ?_, ?_⟩
  · show Normalize.run .all draft.moduleIds draft = (.ok ⟨⟨0, 0, 1, 0⟩, ⟨1, 1, 1, 2⟩⟩, tidied)
    decide +kernel
  · show Verify.run .all tidied.moduleIds tidied = .ok copied.verdict
    decide +kernel

theorem run_again_copied :
    exec (run Host.inMemory copying bare) desk = (.ok 1, copied.after copying inMemory "out" desk) ∧
    ∃ (o : Outcome) (tally : Tally) (w : World),
      exec (run Host.inMemory { copying with input := "out" } bare)
          (copied.after copying inMemory "out" desk) =
        (.ok 1, w) ∧
      (o.settled tally).rewrites.counts.total = 0 ∧
      w.files = (copied.after copying inMemory "out" desk).files := by
  have hfile : inMemory.target? desk.files "out" = some "out" := rfl
  have hrun : exec (run Host.inMemory copying bare) desk =
      (.ok 1, copied.after copying inMemory "out" desk) :=
    (exec_run_iff lawful_inMemory rfl rfl rfl hfile).mpr ⟨copied, copied_of, rfl, rfl⟩
  have haddr : ∀ p, inMemory.loaded desk.files copying.input = .ok p →
      (Normalize.run .all p.moduleIds p).2.Addressable := by
    intro p hp
    obtain rfl := Except.ok.inj (loaded_desk.symm.trans hp)
    decide +kernel
  obtain ⟨o, tally, w, _, hagain, _, htotal, _, hfiles, _⟩ :=
    run_again lawful_inMemory rfl rfl rfl hfile (fun _ hpath => by cases hpath) haddr hrun
  exact ⟨hrun, o, tally, w, hagain, htotal, hfiles⟩

end Fixup

end Command

end MiddleEnd
