import MiddleEnd.Proofs.Normalize.References
import MiddleEnd.Proofs.Verify.References

/-!
# MiddleEnd.Proofs.Normalize.Unresolved

What becomes of a reference to a symbol that does not exist.  It stays where it is and what it is,
but the ids of new nodes are the next free ones, and nothing keeps such an id apart from those that
references already use: if a temporary gets it, the reference names the temporary from then on
(`run_cures_dangling`).  In any other case the verifier reports after the run what it reported
before (`run_keeps_unresolved`).
-/

namespace MiddleEnd

open MiddleEnd.Tree Walk

/-- An id is known by its position. -/
theorem SymbolId.ofIndex_index (s : SymbolId) : ofIndex s.index = s := by
  simp [ofIndex, index]

namespace Normalize

section

variable {p q : Program} {ts us : List Tree} {temps : Nat}

/-- A temporary is a symbol of the program. -/
theorem HasTemp.symbol? {b k : Nat} (h : HasTemp b us k) (hbears : q.Bears us) :
    ∃ y, q.symbol? (.ofIndex (b + k)) = some y ∧ y.name = "_t" ++ k.repr ∧ y.removed = false := by
  obtain ⟨u, hu, line, hid, hlabel⟩ := h
  have hcell := hbears u hu
  rw [hid] at hcell
  obtain ⟨y, hy, hycell⟩ := Program.cell?_symbol hcell
  have hsame := hlabel.symm.trans (congrArg Cell.label hycell)
  simp only [Node.cell, Label.symbol.injEq] at hsame
  exact ⟨y, hy, hsame.1.symm, hsame.2.2.1.symm⟩

/-- What is due about a reference that named nothing before the run. -/
theorem Leaves.refDue (h : Leaves p q ts us temps) (hbears : q.Bears us) {sym : SymbolId}
    (hsym : p.symbol? sym = none) : Verify.refDue q sym =
      if sym.index < p.symbols.size + temps then
        if q.Alive (.symbol sym) then []
        else [.removedSymbol ("_t" ++ (sym.index - p.symbols.size).repr)]
      else [.unknownSymbol sym] := by
  have hle : p.symbols.size ≤ sym.index := Array.getElem?_eq_none_iff.mp hsym
  by_cases hlt : sym.index < p.symbols.size + temps
  · obtain ⟨y, hy, hname, hremoved⟩ :=
      (h.declares (sym.index - p.symbols.size) (by omega)).symbol? hbears
    rw [Nat.add_sub_cancel' hle, SymbolId.ofIndex_index] at hy
    rw [if_pos hlt, Verify.refDue, hy]
    by_cases halive : q.Alive (.symbol sym) <;> simp [hremoved, hname, halive]
  · have hnone : q.symbol? sym = none :=
      Array.getElem?_eq_none_iff.mpr (by rw [h.symbols]; omega)
    rw [if_neg hlt, Verify.refDue, hnone]

end

/-- A reference that is reported before a run because it names no symbol is reported in the same
words after it, unless its id was given to a temporary in the run; then it is reported exactly if
that temporary is not declared any more, which is so below a removed symbol. -/
theorem run_keeps_unresolved {r : Rules} {modules : List ModuleId} {p : Program} {checks : Checks}
    (hok : survey modules p = .ok ()) (haddr : (Normalize.run r modules p).2.Addressable)
    (hrefs : checks.symbolRefs = true) :
    ∃ report before after, (Normalize.run r modules p).1 = .ok report ∧
      Verify.run checks modules p = .ok before ∧
      Verify.run checks modules (Normalize.run r modules p).2 = .ok after ∧
      ∀ v ∈ before.violations, ∀ sym, v.kind = .unknownSymbol sym → ∀ w : Violation,
        (w ∈ after.violations ∧ w.node = v.node) ↔
          if sym.index < p.symbols.size + report.counts.hoistedTemps then
            ¬ (Normalize.run r modules p).2.Alive (.symbol sym) ∧
              w = { v with kind := .removedSymbol ("_t" ++ (sym.index - p.symbols.size).repr) }
          else w = v := by
  obtain ⟨ts, hts⟩ := trees_of_survey hok
  obtain ⟨report, hreport, hleaves⟩ := leaves_of_run hts haddr
  obtain ⟨_, hunfolds, hrecords⟩ := rebuilt_of_run hts haddr
  obtain ⟨before, hbefore, hfound⟩ := Verify.run_of_unfolds checks hts
  obtain ⟨after, hafter, hfound'⟩ := Verify.run_of_unfolds checks hunfolds
  refine ⟨report, before, after, hreport, hbefore, hafter, fun v hv sym hkind w => ?_⟩
  -- the reference that the report is about
  have hv' : v ∈ (references .outside ts).flatMap (Verify.brokenAt p) := by
    rw [← Verify.filter_found hrefs hts.bears, ← hfound]
    exact List.mem_filter.mpr ⟨hv, by rw [hkind]; rfl⟩
  obtain ⟨x, hx, hv'⟩ := List.mem_flatMap.mp hv'
  obtain ⟨m, hm, kind, hdue, rfl⟩ := Verify.mem_brokenAt.mp hv'
  obtain rfl : kind = .unknownSymbol sym := hkind
  obtain ⟨rfl, hsym⟩ : x.target = sym ∧ p.symbol? x.target = none := by
    unfold Verify.refDue at hdue
    cases hsym : p.symbol? x.target with
    | none => simpa [hsym, eq_comm] using hdue
    | some y => simp [hsym] at hdue
  -- which is still there, and what is due about it now
  have hx' := (hleaves.enriched_references .outside).mem_of_old hx
  rw [hfound', Verify.found_of_records hrefs hunfolds.bears hrecords,
    Verify.mem_brokenAt_of_node hunfolds.nodup hx', Verify.mem_brokenAt,
    hleaves.refDue hunfolds.bears hsym]
  have hfile : ∀ k, (Normalize.run r modules p).2.module? k = p.module? k := fun k => by
    rw [Program.module?, hleaves.modules]
    rfl
  simp only [hm, Option.some.injEq, hfile, exists_eq_left']
  by_cases hlt : x.target.index < p.symbols.size + report.counts.hoistedTemps
  · by_cases halive : (Normalize.run r modules p).2.Alive (.symbol x.target) <;>
      simp [hlt, halive]
  · simp [hlt]

/-- A function with a condition to hoist and two references to nothing.  The id in the first of them
is the next free one. -/
def dangling : Program where
  modules := #[⟨"m", "m.w", none, [⟨0⟩]⟩]
  symbols := #[.new "f" (.func [] none [⟨0⟩, ⟨2⟩]) 1]
  stmts := #[.new (.ifElse ⟨1⟩ ⟨1⟩ none) 2, .new (.block []) 2, .new (.expr ⟨4⟩) 3]
  exprs := #[.new (.symRef ⟨0⟩) 2, .new (.call ⟨0⟩ []) 2, .new (.symRef ⟨1⟩) 3,
    .new (.symRef ⟨7⟩) 3, .new (.binary .add ⟨2⟩ ⟨3⟩) 3]

theorem run_keeps_unresolved_dangling : survey [⟨0⟩] dangling = .ok () ∧
    ∃ report before after, (Normalize.run .all [⟨0⟩] dangling).1 = .ok report ∧
      Verify.run ⟨true, false, false, false⟩ [⟨0⟩] dangling = .ok before ∧
      Verify.run ⟨true, false, false, false⟩ [⟨0⟩] (Normalize.run .all [⟨0⟩] dangling).2 =
        .ok after ∧
      ∀ v ∈ before.violations, ∀ sym, v.kind = .unknownSymbol sym → ∀ w : Violation,
        (w ∈ after.violations ∧ w.node = v.node) ↔
          if sym.index < dangling.symbols.size + report.counts.hoistedTemps then
            ¬ (Normalize.run .all [⟨0⟩] dangling).2.Alive (.symbol sym) ∧
              w = { v with
                kind := .removedSymbol ("_t" ++ (sym.index - dangling.symbols.size).repr) }
          else w = v :=
  ⟨by decide +kernel, run_keeps_unresolved (by decide +kernel) (by decide +kernel) rfl⟩

/-- Before the run both references are reported, after it the second one only: the first names the
temporary. -/
theorem run_cures_dangling : survey [⟨0⟩] dangling = .ok () ∧
    (Verify.run ⟨true, false, false, false⟩ [⟨0⟩] dangling).map (·.violations) =
      .ok [⟨.unknownSymbol ⟨1⟩, ⟨0⟩, "m.w", 3, .expr ⟨2⟩⟩,
        ⟨.unknownSymbol ⟨7⟩, ⟨0⟩, "m.w", 3, .expr ⟨3⟩⟩] ∧
    (Verify.run ⟨true, false, false, false⟩ [⟨0⟩] (Normalize.run .all [⟨0⟩] dangling).2).map
      (·.violations) = .ok [⟨.unknownSymbol ⟨7⟩, ⟨0⟩, "m.w", 3, .expr ⟨3⟩⟩] := by
  decide +kernel

end Normalize

end MiddleEnd
