import MiddleEnd.Proofs.Tree.Reference
import MiddleEnd.Proofs.Verify.Reports

/-!
# MiddleEnd.Proofs.Verify.References

What the verifier reports about references.  Among all reports on trees, those about references are
a matter of the references alone, one after another (`filter_found`): nothing else that stands
in the trees has a say in them.
-/

namespace MiddleEnd

open MiddleEnd.Tree Walk

/-- Whether a reference is at fault, and not a back-reference. -/
def Violation.Kind.isReference : Violation.Kind → Bool
  | .unknownSymbol _ | .removedSymbol _ => true
  | .enclosingStmt _ _ | .parentSymbol _ _ | .scope _ _ _ => false

namespace Verify

/-- What has to be reported about a reference. -/
def brokenAt (p : Program) (x : Reference) : List Violation :=
  reported p x.module (refDue p x.target) x.line x.expr

section

variable {p : Program} {sym : SymbolId}

/-- Nothing is due about a reference to something alive. -/
theorem refDue_of_alive (h : p.Alive (.symbol sym)) : refDue p sym = [] := by
  have hlive : p.isLive (.symbol sym) = true := by
    cases h with
    | held _ _ hlive => exact hlive
  cases hx : p.symbol? sym with
  | none => simp [Program.isLive, hx] at hlive
  | some x =>
    have hremoved : x.removed = false := by simpa [Program.isLive, hx] using hlive
    simp [refDue, hx, hremoved, h]

/-- A reference to a symbol that is not alive is due as one to a removed symbol. -/
theorem refDue_of_not_alive {x : Symbol} (hx : p.symbol? sym = some x)
    (h : ¬ p.Alive (.symbol sym)) : refDue p sym = [.removedSymbol x.name] := by
  simp [refDue, hx, h]

end

section

variable {checks : Checks} {p : Program} {a : Around} {ts : List Tree} {x : Reference}
  {v : Violation}

/-- A report about a reference is made in its module, at its node and line. -/
theorem mem_brokenAt : v ∈ brokenAt p x ↔ ∃ m, x.module = some m ∧ ∃ kind ∈ refDue p x.target,
    v = ⟨kind, m, ((p.module? m).map (·.file)).getD "", x.line, x.expr⟩ := by
  simp only [brokenAt, reported, List.mem_flatMap, Option.mem_toList, List.mem_map, eq_comm]

/-- No back-reference is a reference. -/
theorem filter_misplaced (checks : Checks) (a : Around) (stmt : Option StmtId)
    (symbol : Option SymbolId) : (misplaced checks a stmt symbol).filter (·.isReference) = [] := by
  unfold misplaced
  grind [Violation.Kind.isReference]

/-- All that is due for a reference is about references. -/
theorem filter_refDue (p : Program) (sym : SymbolId) :
    (refDue p sym).filter (·.isReference) = refDue p sym := by
  unfold refDue
  grind [Violation.Kind.isReference]

/-- Of a node that stands here only the reference is reported that it is. -/
theorem filter_wrongAt (hrefs : checks.symbolRefs = true) {t : Tree}
    (hcell : p.cell? t.id = some t.cell) :
    (wrongAt checks p (declaredFor checks p) a t.id).filter (·.kind.isReference) =
      (t.label.reference? a.module t.id).toList.flatMap (brokenAt p) := by
  obtain ⟨y, hy, hlabel⟩ := Option.map_eq_some_iff.mp hcell
  replace hlabel : t.label = y.cell.label := (congrArg Cell.label hlabel).symm
  rw [wrongAt_of_node hy, filter_reported, hlabel]
  cases y with
  | module m => simp [wrongWith, Node.cell, Label.reference?]
  | symbol s =>
    have hscope : (wrongWith checks p (declaredFor checks p) a (.symbol s)).filter
        (·.isReference) = [] := by
      unfold wrongWith
      grind [Violation.Kind.isReference]
    simp [hscope, Node.cell, Label.reference?]
  | stmt s => simp [wrongWith, filter_misplaced, Node.cell, Label.reference?]
  | expr e =>
    rw [wrongWith, if_pos hrefs, List.filter_append, filter_misplaced, List.nil_append,
      brokenExpr?_eq hrefs]
    cases hk : e.kind with
    | symRef sym =>
      simp [hrefs, filter_refDue, Node.cell, Label.reference?, hk, ExprKind.head, brokenAt, lineOf]
    | _ => simp [Node.cell, Label.reference?, hk, ExprKind.head]

/-- Of trees only the references in them are reported, besides back-references. -/
theorem filter_found (hrefs : checks.symbolRefs = true) (h : p.Bears ts) :
    (found checks p (declaredFor checks p) a ts).filter (·.kind.isReference) =
      (references a ts).flatMap (brokenAt p) := by
  rw [found, List.filter_flatMap, references_eq, List.filterMap_eq_flatMap_toList,
    List.flatMap_assoc]
  exact List.flatMap_congr fun x hx =>
    filter_wrongAt hrefs (h x.2 (mem_subtreesOf_of_placed hx))

/-- Where every node records what encloses it, nothing else is reported at all. -/
theorem found_of_records (hrefs : checks.symbolRefs = true) (h : p.Bears ts)
    (hrecords : p.Records a ts) :
    found checks p (declaredFor checks p) a ts = (references a ts).flatMap (brokenAt p) := by
  rw [← filter_found hrefs h, List.filter_eq_self.mpr]
  intro v hv
  obtain ⟨sym, hkind⟩ | ⟨name, hkind⟩ := ref_of_found hrecords hv <;>
    simp [hkind, Violation.Kind.isReference]

/-- What is reported at the node of a reference is reported about the reference. -/
theorem mem_brokenAt_of_node (hnodup : (nodesOf ts).Nodup) (hx : x ∈ references a ts) :
    v ∈ (references a ts).flatMap (brokenAt p) ∧ v.node = x.expr ↔ v ∈ brokenAt p x := by
  constructor
  · rintro ⟨hv, hnode⟩
    obtain ⟨y, hy, hv⟩ := List.mem_flatMap.mp hv
    obtain ⟨m, hm, kind, hkind, rfl⟩ := mem_brokenAt.mp hv
    obtain rfl := references_inj hnodup hy hx hnode
    exact hv
  · intro hv
    refine ⟨List.mem_flatMap.mpr ⟨x, hx, hv⟩, ?_⟩
    obtain ⟨m, hm, kind, hkind, rfl⟩ := mem_brokenAt.mp hv
    rfl

end

end Verify

end MiddleEnd
