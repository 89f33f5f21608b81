import MiddleEnd.Pass
import MiddleEnd.Verify.Checks
import MiddleEnd.Verify.Declared
import MiddleEnd.Violation

/-!
# MiddleEnd.Verify

The pass that compares a program with itself. It only looks: it finds every back-reference again
from where the walk stands, and reports each that is recorded differently, and each reference to a
symbol that is gone. The walk goes on after a violation, so that one run reports them all.

References are resolved against the whole program, not only against the modules that are verified.
-/

namespace MiddleEnd.Verify

/-- The state of the pass. -/
structure Verifier where
  checks : Checks
  context : Context
  violations : Array Violation
  /-- The symbols that references may name. -/
  declared : NodeSet
deriving DecidableEq, Repr

/-- The pass before its first module. -/
def Verifier.start (checks : Checks) (declared : NodeSet) : Verifier :=
  ⟨checks, .start, #[], declared⟩

/-- What a run found, and how many nodes it entered. -/
structure Report where
  violations : List Violation
  tally : Tally
deriving DecidableEq, Repr

/-- Whether nothing is wrong. -/
def Report.isClean (r : Report) : Bool := r.violations.isEmpty

/-- A hook of the pass. -/
abbrev VerifyM := ObserverM Verifier

/-- Make a move of the context. -/
def move (move : ContextM Unit) : VerifyM Unit := do
  let own ← get
  let (result, context) := move.run.run own.context
  set { own with context }
  match result with
  | .ok () => pure ()
  | .error cause => throw (.defect cause)

/-- Read a node that must exist. -/
def need {α : Type} (read : Except Fault α) : VerifyM α :=
  match read with
  | .ok a => pure a
  | .error fault => throw (.fault fault)

/-- Report a violation in the module that is walked. Between modules nothing is reported. -/
def report (p : Program) (kind : Violation.Kind) (line : UInt32) (node : NodeId) : VerifyM Unit :=
  modify fun own =>
    match own.context.module with
    | none => own
    | some module =>
      let file := ((p.module? module).map (·.file)).getD ""
      { own with violations := own.violations.push ⟨kind, module, file, line, node⟩ }

/-- Compare what a statement or expression records of its surroundings with what they are. -/
def checkParents (p : Program) (node : NodeId) (line : UInt32) (parentStmt : Option StmtId)
    (parentSymbol : Option SymbolId) : VerifyM Unit := do
  let own ← get
  let stmt := own.context.enclosingStmt
  if own.checks.enclosingStmt && parentStmt ≠ stmt then
    report p (.enclosingStmt stmt parentStmt) line node
  let symbol := own.context.enclosingSymbol
  if own.checks.parentSymbol && parentSymbol ≠ symbol then
    report p (.parentSymbol symbol parentSymbol) line node

/-- What is wrong with a reference to a symbol, if anything. -/
def brokenRef? (p : Program) (declared : NodeSet) (sym : SymbolId) : Option Violation.Kind :=
  match p.symbol? sym with
  | none => some (.unknownSymbol sym)
  | some symbol =>
    if symbol.removed || !declared.contains (.symbol sym) then some (.removedSymbol symbol.name)
    else none

/-- What is wrong with an expression that refers to a symbol, if anything. -/
def brokenExpr? (p : Program) (declared : NodeSet) (kind : ExprKind) : Option Violation.Kind :=
  match kind with
  | .symRef sym => brokenRef? p declared sym
  | _ => none

/-! ## Hooks -/

/-- Compare the recorded scope of a symbol with what declares it. -/
def preSymbol (p : Program) (s : SymbolId) : VerifyM Unit := do
  let symbol ← need (p.symbol s)
  let own ← get
  let scope := own.context.ownerScope
  if own.checks.symbolScope && symbol.scope ≠ scope then
    report p (.scope symbol.name scope symbol.scope) symbol.line (.symbol s)
  move (Context.enterSymbol s)

/-- Compare what a statement records with what encloses it. -/
def preStmt (p : Program) (s : StmtId) : VerifyM Unit := do
  let stmt ← need (p.stmt s)
  checkParents p (.stmt s) stmt.line stmt.parentStmt stmt.parentSymbol
  move (Context.enterStmt s)

/-- Compare what an expression records with what encloses it, and resolve it if it is a reference.
-/
def preExpr (p : Program) (e : ExprId) : VerifyM Unit := do
  let own ← get
  if own.context.enclosingStmt.isNone then throw (.defect (.outsideStatement e))
  let expr ← need (p.expr e)
  checkParents p (.expr e) expr.line expr.parentStmt expr.parentSymbol
  if own.checks.symbolRefs then
    match brokenExpr? p own.declared expr.kind with
    | none => pure ()
    | some kind => report p kind expr.line (.expr e)

/-- The hooks of the pass. -/
def observer : Observer Verifier where
  pass := "fixup-verify"
  preSymbol p s := preSymbol p s
  postSymbol _ s := move (Context.leaveSymbol s)
  preStmt p s _ := preStmt p s
  postStmt _ s := move (Context.leaveStmt s)
  preExpr p e _ := preExpr p e

/-- The pass, with its context. -/
def pass : Pass Verifier where
  hooks := observer.toHooks
  context := (·.context)
  withContext own context := { own with context }

/-- Verify modules in order: what was found, or why the pass halted. -/
def run (checks : Checks) (modules : List ModuleId) (p : Program) : Except Halt Report :=
  let declared := if checks.symbolRefs then p.declaredNodes else .empty
  let (result, scene) := pass.run modules ⟨p, .start checks declared⟩
  result.map fun tally => ⟨scene.own.violations.toList, tally⟩

end MiddleEnd.Verify
