import MiddleEnd.Proofs.Normalize.Result
import MiddleEnd.Proofs.Verify.Found

/-!
# MiddleEnd.Proofs.Normalize.Verified

Normalised modules verify.  Whatever the program recorded before, afterwards every node records
what encloses it, so that the verifier can find nothing wrong but references.
-/

namespace MiddleEnd

open Walk

namespace Normalize

/-- After a run over modules that are trees, the verifier ends well and finds no back-reference
that disagrees with the tree. -/
theorem run_verifies {r : Rules} {modules : List ModuleId} {p : Program}
    (hok : survey modules p = .ok ()) (haddr : (Normalize.run r modules p).2.Addressable) :
    ∃ report, Verify.run .all modules (Normalize.run r modules p).2 = .ok report ∧
      ∀ v ∈ report.violations, (∀ expected recorded, v.kind ≠ .enclosingStmt expected recorded) ∧
        (∀ expected recorded, v.kind ≠ .parentSymbol expected recorded) ∧
        ∀ name expected recorded, v.kind ≠ .scope name expected recorded := by
  obtain ⟨ts, hts⟩ := trees_of_survey hok
  obtain ⟨_, hunfolds, hrecords⟩ := rebuilt_of_run hts haddr
  obtain ⟨report, hreport, hfound⟩ := Verify.run_of_unfolds .all hunfolds
  refine ⟨report, hreport, fun v hv => ?_⟩
  rw [hfound] at hv
  obtain ⟨sym, hkind⟩ | ⟨name, hkind⟩ := Verify.ref_of_found hrecords hv <;>
    simp [hkind]

/-- The sample with back-references that point nowhere. -/
def stale : Program :=
  { sample with
    symbols := sample.symbols.map fun x => { x with scope := some (.stmt ⟨9⟩) }
    stmts := sample.stmts.map fun x => { x with parentStmt := some ⟨9⟩ }
    exprs := sample.exprs.map fun x => { x with parentSymbol := some ⟨9⟩ } }

/-- Records that were out of date are in order after a run. -/
theorem run_verifies_stale : survey [⟨0⟩] stale = .ok () ∧
    ∃ report, Verify.run .all [⟨0⟩] (Normalize.run .all [⟨0⟩] stale).2 = .ok report ∧
      ∀ v ∈ report.violations, (∀ expected recorded, v.kind ≠ .enclosingStmt expected recorded) ∧
        (∀ expected recorded, v.kind ≠ .parentSymbol expected recorded) ∧
        ∀ name expected recorded, v.kind ≠ .scope name expected recorded :=
  ⟨by decide +kernel, run_verifies (by decide +kernel) (by decide +kernel)⟩

end Normalize

end MiddleEnd
