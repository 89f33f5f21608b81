import MiddleEnd.Proofs.Tree.Modules
import MiddleEnd.Proofs.Verify.Reports
import MiddleEnd.Proofs.Walk.Census

/-!
# MiddleEnd.Proofs.Verify.Modules

Verifying modules together or one by one.  What a run reports is a function of the trees of its
modules (`run_eq_reportOn`), and over trees side by side it is the sum of what is reported over each
(`reportOn_cons`).  So a run over modules reports module by module what runs over single modules do,
and it makes no difference to any of them which modules come before (`run_modules`).
-/

namespace MiddleEnd

open MiddleEnd.Tree Walk

namespace Verify

/-- What is reported of one part and then of the next. -/
def Report.plus (a b : Report) : Report := ⟨a.violations ++ b.violations, a.tally.plus b.tally⟩

/-- What is reported of several parts, in order. -/
def Report.joined (parts : List Report) : Report := parts.foldr .plus ⟨[], .zero⟩

/-- What is reported of modules that are these trees. -/
def reportOn (checks : Checks) (p : Program) (ts : List Tree) : Report :=
  ⟨found checks p (declaredFor checks p) .outside ts, .of (nodesOf ts)⟩

section

variable {checks : Checks} {p : Program} {modules : List ModuleId} {ts : List Tree}

/-- What is reported of modules is what is reported of the first, and then of the others. -/
theorem reportOn_cons (t : Tree) (ts : List Tree) :
    reportOn checks p (t :: ts) = (reportOn checks p [t]).plus (reportOn checks p ts) := by
  rw [reportOn, ← List.singleton_append, found_append, nodesOf_append, Tally.of_append]
  rfl

/-- A run over modules that are trees ends well, and its report is that of the trees. -/
theorem run_eq_reportOn (hts : p.Unfolds modules ts) :
    Verify.run checks modules p = .ok (reportOn checks p ts) := by
  obtain ⟨report, hrun, hviolations⟩ := run_of_unfolds checks hts
  obtain ⟨scene, hpass⟩ := pass_of_run hrun
  have htally : report.tally = .of (nodesOf ts) := Tally.ext_number fun step =>
    (Pass.number_of_run (o := observer) rfl hpass hts step).trans (Tally.number_of _ _).symm
  rw [hrun, reportOn, ← hviolations, ← htally]

/-- Over modules that are trees, a run reports what runs over each of them report. -/
theorem run_of_parts {part : ModuleId → Report} (hts : p.Unfolds modules ts)
    (hpart : ∀ m ∈ modules, Verify.run checks [m] p = .ok (part m)) :
    Verify.run checks modules p = .ok (.joined (modules.map part)) := by
  rw [run_eq_reportOn hts]
  congr 1
  induction modules generalizing ts with
  | nil =>
    obtain rfl : ts = [] := by simpa using hts.roots
    rfl
  | cons m modules ih =>
    obtain ⟨t, us, rfl, ht, hus⟩ := hts.cons
    have hfirst : reportOn checks p [t] = part m := Except.ok.inj
      ((run_eq_reportOn ht).symm.trans (hpart m List.mem_cons_self))
    rw [reportOn_cons, hfirst, ih hus fun k hk => hpart k (List.mem_cons_of_mem m hk)]
    rfl

/-- When a run over modules ends well, then so does the run over each of them, and so do the runs
over the modules in any order; and each reports module by module what the runs over single modules
do. -/
theorem run_modules {report : Report} (h : Verify.run checks modules p = .ok report) :
    ∃ part : ModuleId → Report, (∀ m ∈ modules, Verify.run checks [m] p = .ok (part m)) ∧
      report = .joined (modules.map part) ∧
      ∀ others, others.Perm modules →
        Verify.run checks others p = .ok (.joined (others.map part)) := by
  obtain ⟨ts, hts⟩ := unfolds_of_run h
  have heach : ∀ m ∈ modules, ∃ part, Verify.run checks [m] p = .ok part := fun m hm =>
    let ⟨_, ht⟩ := hts.mem hm
    ⟨_, run_eq_reportOn ht⟩
  have : Nonempty Report := ⟨report⟩
  choose! part hpart using heach
  refine ⟨part, hpart, Except.ok.inj (h.symm.trans (run_of_parts hts hpart)),
    fun others hperm => ?_⟩
  obtain ⟨us, hus⟩ := hts.perm hperm.symm
  exact run_of_parts hus fun m hm => hpart m (hperm.mem_iff.mp hm)

end

/-- Two modules with a function each, of which the second one names the first one, and nothing
records what encloses it. -/
def strays : Program where
  modules := #[⟨"m", "m.w", none, [⟨0⟩]⟩, ⟨"n", "n.w", none, [⟨1⟩]⟩]
  symbols := #[.new "f" (.func [] none []) 1, .new "g" (.func [] none [⟨0⟩]) 1]
  stmts := #[.new (.expr ⟨0⟩) 2]
  exprs := #[.new (.symRef ⟨0⟩) 2]

/-- What is reported about the scopes and references of `strays`. -/
def strayReport : Report where
  violations := [⟨.scope "f" (some (.module ⟨0⟩)) none, ⟨0⟩, "m.w", 1, .symbol ⟨0⟩⟩,
    ⟨.scope "g" (some (.module ⟨1⟩)) none, ⟨1⟩, "n.w", 1, .symbol ⟨1⟩⟩]
  tally := ⟨2, 2, 1, 1⟩

/-- A reference into a module counts, wherever among the modules that one is. -/
theorem run_modules_strays :
    Verify.run ⟨true, false, false, true⟩ [⟨0⟩, ⟨1⟩] strays = .ok strayReport ∧
    ∃ part : ModuleId → Report, strayReport = .joined [part ⟨0⟩, part ⟨1⟩] ∧
      Verify.run ⟨true, false, false, true⟩ [⟨1⟩, ⟨0⟩] strays =
        .ok (.joined [part ⟨1⟩, part ⟨0⟩]) := by
  have hrun : Verify.run ⟨true, false, false, true⟩ [⟨0⟩, ⟨1⟩] strays = .ok strayReport := by
    decide +kernel
  obtain ⟨part, _, hjoined, hperm⟩ := run_modules hrun
  exact ⟨hrun, part, hjoined, hperm [⟨1⟩, ⟨0⟩] (.swap _ _ [])⟩

end Verify

end MiddleEnd
