import MiddleEnd.Proofs.Pass
import MiddleEnd.Verify

/-!
# MiddleEnd.Proofs.Verify.Found

What the verifier finds.  At a node that stands somewhere (`Around`) it reports `wrongAt`, which
looks at that node and at what encloses it and at nothing else; over modules that are trees it
reports this node by node, in the order of the walk (`run_of_unfolds`).
-/

namespace MiddleEnd

open MiddleEnd.Tree Walk

namespace Verify

/-! ## What is wrong -/

/-- What a statement or an expression records wrongly of its surroundings. -/
def misplaced (checks : Checks) (a : Around) (stmt : Option StmtId) (symbol : Option SymbolId) :
    List Violation.Kind :=
  (if checks.enclosingStmt && stmt ≠ a.stmt then [.enclosingStmt a.stmt stmt] else []) ++
    if checks.parentSymbol && symbol ≠ a.symbol then [.parentSymbol a.symbol symbol] else []

/-- What is wrong with a node that stands here. -/
def wrongWith (checks : Checks) (p : Program) (declared : NodeSet) (a : Around) :
    Node → List Violation.Kind
  | .module _ => []
  | .symbol x =>
    if checks.symbolScope && x.scope ≠ a.scope then [.scope x.name a.scope x.scope] else []
  | .stmt x => misplaced checks a x.parentStmt x.parentSymbol
  | .expr x => misplaced checks a x.parentStmt x.parentSymbol ++
    if checks.symbolRefs then (brokenExpr? p declared x.kind).toList else []

/-- The line that a report about a node names. -/
def lineOf : Node → UInt32
  | .module _ => 0
  | .symbol x => x.line
  | .stmt x => x.line
  | .expr x => x.line

/-- Reports about a node, in the module that is walked. Outside of modules there are none. -/
def reported (p : Program) (module : Option ModuleId) (kinds : List Violation.Kind)
    (line : UInt32) (n : NodeId) : List Violation :=
  module.toList.flatMap fun m =>
    kinds.map fun kind => ⟨kind, m, ((p.module? m).map (·.file)).getD "", line, n⟩

@[simp] theorem reported_nil (p : Program) (module : Option ModuleId) (line : UInt32)
    (n : NodeId) : reported p module [] line n = [] := by
  cases module <;> rfl

/-- What is wrong in two ways is reported twice, in this order. -/
theorem reported_append (p : Program) (module : Option ModuleId)
    (kinds kinds' : List Violation.Kind)
    (line : UInt32) (n : NodeId) : reported p module (kinds ++ kinds') line n =
      reported p module kinds line n ++ reported p module kinds' line n := by
  cases module <;> simp [reported]

/-- To keep some reports is to report some kinds. -/
theorem filter_reported (keep : Violation.Kind → Bool) (p : Program) (module : Option ModuleId)
    (kinds : List Violation.Kind) (line : UInt32) (n : NodeId) :
    (reported p module kinds line n).filter (keep ·.kind) =
      reported p module (kinds.filter keep) line n := by
  cases module with
  | none => rfl
  | some m =>
    simp only [reported, Option.toList_some, List.flatMap_cons, List.flatMap_nil, List.append_nil,
      List.filter_map]
    rfl

/-- What is reported about a node that stands here. -/
def wrongAt (checks : Checks) (p : Program) (declared : NodeSet) (a : Around) (n : NodeId) :
    List Violation :=
  (p.node? n).toList.flatMap fun x =>
    reported p a.module (wrongWith checks p declared a x) (lineOf x) n

/-- What is reported about the nodes of trees that stand here. -/
def found (checks : Checks) (p : Program) (declared : NodeSet) (a : Around) (ts : List Tree) :
    List Violation :=
  (placedOf a ts).flatMap fun x => wrongAt checks p declared x.1 x.2.id

section

variable {checks : Checks} {p : Program} {declared : NodeSet} {a : Around}

@[simp] theorem found_nil : found checks p declared a [] = [] := rfl

/-- What is found in trees in a row is reported in their order. -/
theorem found_append (ts us : List Tree) : found checks p declared a (ts ++ us) =
    found checks p declared a ts ++ found checks p declared a us := by
  rw [found, placedOf_append, List.flatMap_append, found, found]

/-- What is wrong with a node is reported before what is found below it. -/
theorem found_node (n : NodeId) (l : Label) (es ss ts : List Tree) :
    found checks p declared a [.node n l es ss ts] =
      wrongAt checks p declared a n ++ found checks p declared (a.under n) (es ++ ss ++ ts) := by
  simp [found, placedOf_append]

/-- What is wrong with a node that is there is known from its kind and its surroundings. -/
theorem wrongAt_of_node {n : NodeId} {x : Node} (hx : p.node? n = some x) :
    wrongAt checks p declared a n =
      reported p a.module (wrongWith checks p declared a x) (lineOf x) n := by
  simp [wrongAt, hx]

/-- A module records nothing that could be wrong. -/
theorem wrongAt_module (m : ModuleId) : wrongAt checks p declared a (.module m) = [] := by
  cases hm : p.module? m <;>
    simp [wrongAt, Program.node?, hm, wrongWith, reported]

end

/-- What records its surroundings is nowhere misplaced. -/
theorem misplaced_self (checks : Checks) (a : Around) :
    misplaced checks a a.stmt a.symbol = [] := by
  simp [misplaced]

/-- Where a node records what encloses it, only a reference can be wrong. -/
theorem ref_of_wrongWith {checks : Checks} {p : Program} {declared : NodeSet} {a : Around}
    {n : NodeId} {x : Node} (hx : p.node? n = some x) (hbacks : x.backs = a.backs n)
    {kind : Violation.Kind} (hkind : kind ∈ wrongWith checks p declared a x) :
    (∃ sym, kind = .unknownSymbol sym) ∨ ∃ name, kind = .removedSymbol name := by
  cases x with
  | module m => simp [wrongWith] at hkind
  | symbol x =>
    cases n <;> simp [Program.node?] at hx
    have hscope : x.scope = a.scope := by simpa [Node.backs, Around.backs] using hbacks
    simp [wrongWith, hscope] at hkind
  | stmt x =>
    cases n <;> simp [Program.node?] at hx
    obtain ⟨hs, hy⟩ : x.parentStmt = a.stmt ∧ x.parentSymbol = a.symbol := by
      simpa [Node.backs, Around.backs] using hbacks
    rw [wrongWith, hs, hy, misplaced_self] at hkind
    exact absurd hkind List.not_mem_nil
  | expr x =>
    cases n <;> simp [Program.node?] at hx
    obtain ⟨hs, hy⟩ : x.parentStmt = a.stmt ∧ x.parentSymbol = a.symbol := by
      simpa [Node.backs, Around.backs] using hbacks
    rw [wrongWith, hs, hy, misplaced_self, List.nil_append] at hkind
    have hbroken : brokenExpr? p declared x.kind = some kind := by
      split at hkind
      · exact Option.mem_toList.mp hkind
      · exact absurd hkind List.not_mem_nil
    revert hbroken
    unfold brokenExpr? brokenRef?
    grind

/-- Where every node records what encloses it, only references can be wrong. -/
theorem ref_of_found {checks : Checks} {p : Program} {declared : NodeSet} {a : Around}
    {ts : List Tree} (hrecords : p.Records a ts) {v : Violation}
    (hv : v ∈ found checks p declared a ts) :
    (∃ sym, v.kind = .unknownSymbol sym) ∨ ∃ name, v.kind = .removedSymbol name := by
  obtain ⟨y, hy, hv⟩ := List.mem_flatMap.mp hv
  obtain ⟨x, hx, hbacks⟩ := Option.map_eq_some_iff.mp (hrecords y hy)
  rw [wrongAt_of_node hx] at hv
  obtain ⟨m, _, hv⟩ := List.mem_flatMap.mp hv
  obtain ⟨kind, hkind, rfl⟩ := List.mem_map.mp hv
  exact ref_of_wrongWith hx hbacks hkind

/-! ## Hooks -/

/-- The verifier with more reports. -/
def Verifier.add (own : Verifier) (found : List Violation) : Verifier :=
  { own with violations := own.violations ++ found.toArray }

namespace Verifier

variable (own : Verifier) (xs ys : List Violation)

@[simp] theorem add_nil : own.add [] = own := by simp [add]

@[simp] theorem add_add : (own.add xs).add ys = own.add (xs ++ ys) := by simp [add]

/-- More reports change nothing about where the verifier is. -/
@[simp] theorem context_add : (own.add xs).context = own.context := rfl

@[simp] theorem checks_add : (own.add xs).checks = own.checks := rfl

@[simp] theorem declared_add : (own.add xs).declared = own.declared := rfl

end Verifier

section

variable {p : Program} {own : Verifier}

/-- The verifier after it met a node, where it stands then. -/
def Verifier.meet (own : Verifier) (p : Program) (n : NodeId) (c : Context) : Verifier :=
  { own.add (wrongAt own.checks p own.declared own.context.around n) with context := c }

/-- A move that is accepted changes the context alone. -/
theorem exec_move {step : ContextM Unit} {c : Context} (h : exec step own.context = (.ok (), c)) :
    exec (move step) own = (.ok (), { own with context := c }) := by
  simp only [move, exec_bind, exec_get, run_eq_exec, h, exec_set]
  rfl

theorem exec_need {α : Type} (a : α) : exec (need (.ok a)) own = (.ok a, own) := rfl

/-- A report is added to those that were made. -/
theorem exec_report (kind : Violation.Kind) (line : UInt32) (n : NodeId) :
    exec (report p kind line n) own =
      (.ok (), own.add (reported p own.context.module [kind] line n)) := by
  rw [report, exec_modify]
  cases hm : own.context.module <;> simp [reported, Verifier.add]

/-- A report that depends on a condition, and what comes after it. -/
theorem exec_report_if {α : Type} (c : Bool) (kind : Violation.Kind) (line : UInt32) (n : NodeId)
    (rest : VerifyM α) :
    exec (if c then report p kind line n >>= fun _ => rest else rest) own =
      exec rest (own.add (reported p own.context.module (if c then [kind] else []) line n)) := by
  cases c
  · simp
  · exact exec_bind_ok (exec_report kind line n)

/-- Whatever a node records wrongly of its surroundings is reported. -/
theorem exec_checkParents (n : NodeId) (line : UInt32) (stmt : Option StmtId)
    (symbol : Option SymbolId) :
    exec (checkParents p n line stmt symbol) own = (.ok (), own.add (reported p own.context.module
      (misplaced own.checks own.context.around stmt symbol) line n)) := by
  rw [checkParents, exec_bind_ok (exec_get own)]
  simp only
  rw [exec_report_if, misplaced, reported_append, ← Verifier.add_add]
  exact exec_report_if _ _ _ _ (pure ())

/-- A symbol is met. -/
theorem exec_preSymbol {s : SymbolId} {x : Symbol} (hx : p.symbol? s = some x) :
    exec (preSymbol p s) own = (.ok (), own.meet p (.symbol s) (own.context.inSymbol s)) := by
  have hneed : p.symbol s = .ok x := by simp [Program.symbol, hx]
  rw [preSymbol, hneed, exec_bind_ok (exec_need x), exec_bind_ok (exec_get own)]
  simp only
  rw [exec_report_if, exec_move (c := own.context.inSymbol s) rfl, Verifier.meet,
    wrongAt_of_node (Program.node?_symbol hx)]
  rfl

/-- A statement is met. -/
theorem exec_preStmt {s : StmtId} {x : Stmt} (hx : p.stmt? s = some x) :
    exec (preStmt p s) own = (.ok (), own.meet p (.stmt s) (own.context.inStmt s)) := by
  have hneed : p.stmt s = .ok x := by simp [Program.stmt, hx]
  rw [preStmt, hneed, exec_bind_ok (exec_need x), exec_bind_ok (exec_checkParents _ _ _ _),
    exec_move (c := own.context.inStmt s) rfl, Verifier.meet,
    wrongAt_of_node (Program.node?_stmt hx)]
  rfl

/-- An expression is met. -/
theorem exec_preExpr {e : ExprId} {x : Expr} (hx : p.expr? e = some x)
    (hstmt : own.context.enclosingStmt.isSome) :
    exec (preExpr p e) own = (.ok (), own.meet p (.expr e) own.context) := by
  have hneed : p.expr e = .ok x := by simp [Program.expr, hx]
  have hnone : ¬ own.context.enclosingStmt.isNone := by
    rw [Option.isNone_eq_false_iff.mpr hstmt]
    simp
  rw [preExpr, exec_bind_ok (exec_get own)]
  simp only
  rw [if_neg hnone, hneed, exec_bind_ok (exec_need x), exec_bind_ok (exec_checkParents _ _ _ _),
    Verifier.meet, wrongAt_of_node (Program.node?_expr hx), wrongWith,
    reported_append, ← Verifier.add_add]
  change exec _ (own.add (reported p own.context.around.module _ _ _)) = (.ok (), (own.add _).add _)
  by_cases hrefs : own.checks.symbolRefs
  · rw [if_pos hrefs, if_pos hrefs]
    cases brokenExpr? p own.declared x.kind with
    | none => simp [lineOf]
    | some kind => exact exec_report kind x.line (.expr e)
  · rw [if_neg hrefs, if_neg hrefs]
    simp [lineOf]

end

/-! ## Runs -/

/-- Visits of trees report what is wrong with their nodes, and leave the context where it was. -/
structure Reports (p : Program) (a : Around) (ts : List Tree) (x y : Verifier) : Prop where
  level : Context.Level x.context y.context
  checks : y.checks = x.checks
  declared : y.declared = x.declared
  violations : y.violations = x.violations ++ (found x.checks p x.declared a ts).toArray

/-- The verifier on its way through trees. -/
def tour (p : Program) : Tour Verifier where
  At a own := own.context.around = a
  Leads := Reports p

/-- The verifier keeps track of its way. -/
theorem tour_lawful (p : Program) : (tour p).Lawful where
  nil a own := ⟨.refl _, rfl, rfl, by simp⟩
  append h h' := ⟨h.level.trans h'.level, h'.checks.trans h.checks, h'.declared.trans h.declared,
    by rw [h'.violations, h.violations, h.checks, h.declared, found_append]; simp⟩
  stays hat h := h.level.around_eq.trans hat

variable {p : Program} {a : Around} {n : NodeId} {l : Label} {es ss ts : List Tree}
  {x y : Verifier}

/-- A node is reported about, and then what it owns. -/
theorem Reports.node {c : Context}
    (h : Reports p (x.context.around.under n) (es ++ ss ++ ts) (x.meet p n c) y)
    {d : Context} (hlevel : Context.Level x.context d) :
    Reports p x.context.around [.node n l es ss ts] x { y with context := d } where
  level := hlevel
  checks := h.checks
  declared := h.declared
  violations := by
    rw [h.violations, found_node]
    simp [Verifier.meet, Verifier.add]

section

variable {own own' : Verifier}

/-- What the verifier does at a symbol it does in a walk. -/
theorem exec_hook_preSymbol {s : SymbolId} (h : exec (preSymbol p s) own = (.ok (), own')) :
    exec (pass.hooks.preSymbol s) ⟨p, own⟩ = (.ok (), ⟨p, own'⟩) :=
  exec_looking_ok (preSymbol · s) h

/-- How the verifier leaves a symbol it does in a walk. -/
theorem exec_hook_postSymbol {s : SymbolId}
    (h : exec (move (Context.leaveSymbol s)) own = (.ok (), own')) :
    exec (pass.hooks.postSymbol s) ⟨p, own⟩ = (.ok (), ⟨p, own'⟩) :=
  exec_looking_ok (fun _ => move (Context.leaveSymbol s)) h

/-- What the verifier does at a statement it does in a walk. -/
theorem exec_hook_preStmt {s : StmtId} {place : StmtPlace}
    (h : exec (preStmt p s) own = (.ok (), own')) :
    exec (pass.hooks.preStmt s place) ⟨p, own⟩ = (.ok (), ⟨p, own'⟩) :=
  exec_looking_ok (preStmt · s) h

theorem exec_hook_postStmt {s : StmtId}
    (h : exec (move (Context.leaveStmt s)) own = (.ok (), own')) :
    exec (pass.hooks.postStmt s) ⟨p, own⟩ = (.ok (), ⟨p, own'⟩) :=
  exec_looking_ok (fun _ => move (Context.leaveStmt s)) h

/-- What the verifier does at an expression it does in a walk. -/
theorem exec_hook_preExpr {e : ExprId} {place : ExprPlace}
    (h : exec (preExpr p e) own = (.ok (), own')) :
    exec (pass.hooks.preExpr e place) ⟨p, own⟩ = (.ok (), ⟨p, own'⟩) :=
  exec_looking_ok (preExpr · e) h

/-- Leaving an expression, the verifier does nothing. -/
theorem exec_hook_postExpr (e : ExprId) :
    exec (pass.hooks.postExpr e) ⟨p, own⟩ = (.ok (), ⟨p, own⟩) := rfl

end

/-- The verifier has something to say at every node, and goes on. -/
theorem tour_welcomes {Own : NodeId → Prop} {t : Tree} (hcell : p.cell? t.id = some t.cell)
    (hmodule : ∀ m, t.id ≠ .module m) (hexpr : ∀ e, t.id = .expr e → a.stmt.isSome) :
    (tour p).Welcomes pass.hooks p Own a t := by
  obtain ⟨n, l, es, ss, ts⟩ := t
  rintro pre post hcalls own rfl
  cases hcalls with
  | module m => exact absurd rfl (hmodule m)
  | symbol s =>
    obtain ⟨x, hx, _⟩ := Program.cell?_symbol hcell
    refine ⟨own.meet p (.symbol s) (own.context.inSymbol s),
      exec_hook_preSymbol (exec_preSymbol hx), rfl, fun own₂ h => ?_⟩
    obtain ⟨d, hleave, hlevel⟩ := Context.Level.leaveSymbol h.level
    exact ⟨{ own₂ with context := d }, exec_hook_postSymbol (exec_move hleave), h.node hlevel⟩
  | stmt hat hown =>
    obtain ⟨x, hx, _⟩ := Program.cell?_stmt hcell
    refine ⟨own.meet p _ (own.context.inStmt _),
      exec_hook_preStmt (exec_preStmt hx), rfl, fun own₂ h => ?_⟩
    obtain ⟨d, hleave, hlevel⟩ := Context.Level.leaveStmt h.level
    exact ⟨{ own₂ with context := d }, exec_hook_postStmt (exec_move hleave), h.node hlevel⟩
  | expr hat =>
    obtain ⟨x, hx, _⟩ := Program.cell?_expr hcell
    exact ⟨own.meet p _ own.context, exec_hook_preExpr (exec_preExpr hx (hexpr _ rfl)), rfl,
      fun own₂ h => ⟨own₂, exec_hook_postExpr _, h.node h.level⟩⟩

/-- The hooks of the verifier do what the tour says. -/
theorem toured (p : Program) : pass.Toured (tour p) where
  lawful := tour_lawful p
  context _ _ := rfl
  level h := h.level
  enters m _ hout := hout.around_inModule m
  root h := ⟨h.level, h.checks, h.declared, by
    rw [h.violations, found_node, wrongAt_module]
    rfl⟩
  leaves h hlevel := ⟨hlevel, h.checks, h.declared, by
    have hviolations := h.violations
    rw [found_node, wrongAt_module] at hviolations ⊢
    exact hviolations⟩

/-- The symbols that references are held against. -/
def declaredFor (checks : Checks) (p : Program) : NodeSet :=
  if checks.symbolRefs then p.declaredNodes else .empty

/-- A run, read off the run of the pass. -/
theorem run_eq (checks : Checks) (modules : List ModuleId) (p : Program) :
    Verify.run checks modules p =
      (pass.run modules ⟨p, .start checks (declaredFor checks p)⟩).1.map fun tally =>
        ⟨(pass.run modules ⟨p, .start checks (declaredFor checks p)⟩).2.own.violations.toList,
          tally⟩ := rfl

/-- The tally of a run is that of the pass. -/
theorem pass_of_run {checks : Checks} {modules : List ModuleId} {p : Program} {report : Report}
    (h : Verify.run checks modules p = .ok report) :
    ∃ scene, pass.run modules ⟨p, .start checks (declaredFor checks p)⟩ =
      (.ok report.tally, scene) := by
  rw [run_eq] at h
  rcases hx : pass.run modules ⟨p, .start checks (declaredFor checks p)⟩ with
    ⟨halt | tally, scene⟩ <;>
    rw [hx] at h <;> cases h
  exact ⟨scene, rfl⟩

/-- Over modules that are trees, a run ends well, and reports what is wrong with the nodes of the
trees in the order in which they are met. -/
theorem run_of_unfolds (checks : Checks) {modules : List ModuleId} {p : Program} {ts : List Tree}
    (hts : p.Unfolds modules ts) : ∃ report, Verify.run checks modules p = .ok report ∧
      report.violations = found checks p (declaredFor checks p) .outside ts := by
  have hempty : ∀ n ∈ nodesOf ts, Trail.start.seen.contains n = false := fun n _ => by
    simp [Trail.start]
  have hexprs : ∀ x ∈ placedOf .outside ts, ∀ e, x.2.id = .expr e → x.1.stmt.isSome := by
    refine hts.bears.expr_in_stmt fun t ht e he => ?_
    have hroot : t.id ∈ modules.map NodeId.module := hts.roots ▸ List.mem_map_of_mem ht
    simp [he] at hroot
  have hwelcome : ∀ x ∈ placedOf .outside ts, (∀ m, x.2.id ≠ .module m) →
      (tour p).Welcomes pass.hooks p (fun _ => True) x.1 x.2 := fun x hx hm =>
    tour_welcomes (hts.bears x.2 (mem_subtreesOf_of_placed hx)) hm (hexprs x hx)
  have hstart : (⟨.start, ⟨p, .start checks (declaredFor checks p)⟩⟩ :
      WalkState Verifier).scene.program = p := rfl
  obtain ⟨st, hexec, hvisits⟩ := (toured p).ends hstart hts hempty
    (fun _ _ => trivial) hwelcome rfl Context.outside_start
  refine ⟨⟨st.scene.own.violations.toList, st.trail.tally⟩, ?_, ?_⟩
  · have hrun : (pass.runModules modules).run.run
        ⟨.start, ⟨p, .start checks (declaredFor checks p)⟩⟩ = (.ok (), st) := hexec
    rw [declaredFor] at hrun
    simp only [Verify.run, Pass.run, hrun]
    rfl
  · rw [hvisits.leads.violations]
    simp [Verifier.start]

end Verify

end MiddleEnd
