import MiddleEnd.Proofs.Verify.Reports
import MiddleEnd.Proofs.Walk.Lockstep

/-!
# MiddleEnd.Proofs.Verify.Checks

What a selection of checks changes.  A run that makes some of the checks goes in lockstep with the
run that makes them all, on programs of any shape: both halt alike, or both end well after as many
nodes, and the first one reports what the second one does, less what its checks do not cover
(`run_checks`).

The selection decides what is looked at in a node, and whether the declared symbols are searched for
at all.  In neither has it a say where it does not cover what is found there (`wrongAt_narrowed`).
-/

namespace MiddleEnd

open Walk

/-- Whether a kind of violation is looked for. -/
def Checks.covers (c : Checks) : Violation.Kind → Bool
  | .unknownSymbol _ | .removedSymbol _ => c.symbolRefs
  | .enclosingStmt _ _ => c.enclosingStmt
  | .parentSymbol _ _ => c.parentSymbol
  | .scope _ _ _ => c.symbolScope

namespace Verify

section

variable (checks : Checks) (p : Program)

/-! ## One node -/

/-- With fewer checks less is misplaced, and the rest is the same. -/
theorem misplaced_narrowed (a : Around) (stmt : Option StmtId) (symbol : Option SymbolId) :
    misplaced checks a stmt symbol = (misplaced .all a stmt symbol).filter checks.covers := by
  unfold misplaced
  grind [Checks.covers, Checks.all]

/-- A reference that is broken is covered by the check of references. -/
theorem covers_of_brokenExpr? {declared : NodeSet} {kind : ExprKind} {found : Violation.Kind}
    (h : brokenExpr? p declared kind = some found) : checks.covers found = checks.symbolRefs := by
  revert h
  unfold brokenExpr? brokenRef?
  grind [Checks.covers]

/-- The declared symbols are searched for where they are asked for. -/
theorem references_narrowed (kind : ExprKind) :
    (if checks.symbolRefs then (brokenExpr? p (declaredFor checks p) kind).toList else []) =
      (brokenExpr? p (declaredFor .all p) kind).toList.filter checks.covers := by
  have hcovers : ∀ found ∈ (brokenExpr? p (declaredFor .all p) kind).toList,
      checks.covers found = checks.symbolRefs := fun found hfound =>
    covers_of_brokenExpr? checks p (Option.mem_toList.mp hfound)
  cases hrefs : checks.symbolRefs with
  | false =>
    rw [if_neg Bool.false_ne_true, eq_comm, List.filter_eq_nil_iff]
    intro found hfound
    simp [hcovers found hfound, hrefs]
  | true =>
    have hdeclared : declaredFor checks p = declaredFor .all p := by
      rw [declaredFor, if_pos hrefs]
      rfl
    rw [if_pos rfl, hdeclared, eq_comm, List.filter_eq_self]
    exact fun found hfound => (hcovers found hfound).trans hrefs

/-- With fewer checks less is wrong, and the rest is the same. -/
theorem wrongWith_narrowed (a : Around) (x : Node) :
    wrongWith checks p (declaredFor checks p) a x =
      (wrongWith .all p (declaredFor .all p) a x).filter checks.covers := by
  cases x with
  | module x => rfl
  | symbol x =>
    simp only [wrongWith]
    grind [Checks.covers, Checks.all]
  | stmt x => exact misplaced_narrowed checks a _ _
  | expr x =>
    rw [wrongWith, wrongWith, List.filter_append, ← misplaced_narrowed, references_narrowed]
    rfl

/-- What is reported about a node is what is reported about it by all checks, as far as it is
covered. -/
theorem wrongAt_narrowed (a : Around) (n : NodeId) :
    wrongAt checks p (declaredFor checks p) a n =
      (wrongAt .all p (declaredFor .all p) a n).filter (checks.covers ·.kind) := by
  cases hx : p.node? n with
  | none => simp [wrongAt, hx]
  | some x => rw [wrongAt_of_node hx, wrongAt_of_node hx, filter_reported, ← wrongWith_narrowed]

/-! ## Verifiers -/

/-- The verifier that made some of the checks, where this one made them all. -/
def Verifier.narrowed (own : Verifier) : Verifier where
  checks := checks
  context := own.context
  violations := own.violations.filter (checks.covers ·.kind)
  declared := declaredFor checks p

/-- A verifier that makes all checks, and one that makes some of them on the same way. -/
structure Narrows (x y : Verifier) : Prop where
  all : x.checks = .all
  declared : x.declared = declaredFor .all p
  eq : y = x.narrowed checks p

end

section

variable {checks : Checks} {p : Program} {x y : Verifier}

/-- Both meet a node. -/
theorem Narrows.meet (h : Narrows checks p x y) (n : NodeId) (c : Context) :
    Narrows checks p (x.meet p n c) (y.meet p n c) where
  all := h.all
  declared := h.declared
  eq := by
    rw [h.eq, Verifier.meet, Verifier.meet, Verifier.narrowed, Verifier.narrowed]
    simp only [Verifier.add, h.all, h.declared]
    rw [wrongAt_narrowed]
    simp

/-- Fewer checks change nothing about where the walk is. -/
theorem Narrows.context (h : Narrows checks p x y) : y.context = x.context := by
  rw [h.eq]
  rfl

/-- Both move. -/
theorem Narrows.withContext (h : Narrows checks p x y) (c : Context) :
    Narrows checks p { x with context := c } { y with context := c } where
  all := h.all
  declared := h.declared
  eq := by
    rw [h.eq]
    rfl

theorem lockstep_move (step : ContextM Unit) :
    Lockstep (Narrows checks p) (move step) (move step) := by
  intro x y h
  simp only [move, exec_bind, exec_get, run_eq_exec, h.context]
  obtain ⟨_ | ⟨⟩, c⟩ := exec step x.context <;> exact ⟨rfl, h.withContext c⟩

/-- Both meet the symbol, or both miss it. -/
theorem lockstep_preSymbol (s : SymbolId) :
    Lockstep (Narrows checks p) (preSymbol p s) (preSymbol p s) := by
  intro x y h
  cases hs : p.symbol? s with
  | none =>
    have hneed : p.symbol s = .error (.outOfBounds p.symbols.size s.index) := by
      rw [Program.symbol, hs]
    simp only [preSymbol, hneed]
    exact ⟨rfl, h⟩
  | some _ =>
    rw [exec_preSymbol hs, exec_preSymbol hs, h.context]
    exact ⟨rfl, h.meet _ _⟩

/-- Both meet the statement, or both miss it. -/
theorem lockstep_preStmt (s : StmtId) :
    Lockstep (Narrows checks p) (preStmt p s) (preStmt p s) := by
  intro x y h
  cases hs : p.stmt? s with
  | none =>
    have hneed : p.stmt s = .error (.outOfBounds p.stmts.size s.index) := by
      rw [Program.stmt, hs]
    simp only [preStmt, hneed]
    exact ⟨rfl, h⟩
  | some _ =>
    rw [exec_preStmt hs, exec_preStmt hs, h.context]
    exact ⟨rfl, h.meet _ _⟩

/-- Outside of statements both refuse an expression, whether it exists or not. -/
theorem lockstep_preExpr (e : ExprId) :
    Lockstep (Narrows checks p) (preExpr p e) (preExpr p e) := by
  intro x y h
  cases hstmt : x.context.enclosingStmt with
  | none =>
    simp only [preExpr, exec_bind, exec_get, h.context, hstmt]
    exact ⟨rfl, h⟩
  | some enclosing =>
    have hx : x.context.enclosingStmt.isSome = true := by rw [hstmt]; rfl
    cases hs : p.expr? e with
    | none =>
      have hneed : p.expr e = .error (.outOfBounds p.exprs.size e.index) := by
        rw [Program.expr, hs]
      simp only [preExpr, exec_bind, exec_get, h.context, hstmt, hneed]
      exact ⟨rfl, h⟩
    | some _ =>
      rw [exec_preExpr hs hx, exec_preExpr hs (h.context ▸ hx), h.context]
      exact ⟨rfl, h.meet _ _⟩

/-! ## Runs -/

/-- Two scenes of the program, of which the second one is verified with some of the checks. -/
structure Scenes (checks : Checks) (p : Program) (x y : Scene Verifier) : Prop where
  left : x.program = p
  right : y.program = p
  own : Narrows checks p x.own y.own

/-- Hooks that look in lockstep are called in lockstep. -/
theorem lockstep_looking (look : Program → VerifyM Unit)
    (h : Lockstep (Narrows checks p) (look p) (look p)) :
    Lockstep (Scenes checks p) (HookM.looking look) (HookM.looking look) := by
  intro x y hxy
  obtain ⟨hanswer, hown⟩ := h _ _ hxy.own
  rw [exec_looking, exec_looking, hxy.left, hxy.right]
  exact ⟨hanswer, rfl, rfl, hown⟩

/-- No check has a say in how a hook answers. -/
theorem paired : pass.Paired (Scenes checks p) where
  program h := h.right.trans h.left.symm
  hook hat := by
    cases hat with
    | preSymbol s => exact lockstep_looking (preSymbol · s) (lockstep_preSymbol s)
    | postSymbol s =>
      exact lockstep_looking (fun _ => move (Context.leaveSymbol s)) (lockstep_move _)
    | preStmt s place => exact lockstep_looking (preStmt · s) (lockstep_preStmt s)
    | postStmt s =>
      exact lockstep_looking (fun _ => move (Context.leaveStmt s)) (lockstep_move _)
    | preExpr e place => exact lockstep_looking (preExpr · e) (lockstep_preExpr e)
    | postExpr e => exact lockstep_looking (fun _ => pure ()) (lockstep_pure ())
  context h := h.own.context
  withContext c h := ⟨h.left, h.right, h.own.withContext c⟩

/-- Before the first module nothing was reported. -/
theorem scenes_start (checks : Checks) (p : Program) :
    Scenes checks p ⟨p, .start .all (declaredFor .all p)⟩
      ⟨p, .start checks (declaredFor checks p)⟩ :=
  ⟨rfl, rfl, rfl, rfl, rfl⟩

end

/-- What a run reports, as far as it is covered. -/
def Report.only (checks : Checks) (r : Report) : Report :=
  { r with violations := r.violations.filter (checks.covers ·.kind) }

/-- A run with some of the checks halts as the run with all checks does, or it ends well as that one
does, having entered as many nodes, and reports what that one reports as far as it is covered. -/
theorem run_checks (checks : Checks) (modules : List ModuleId) (p : Program) :
    Verify.run checks modules p = (Verify.run .all modules p).map (Report.only checks) := by
  obtain ⟨hanswer, hscene⟩ := paired.run modules (scenes_start checks p)
  rw [run_eq checks, run_eq .all, hanswer, hscene.own.eq]
  cases (pass.run modules ⟨p, .start .all (declaredFor .all p)⟩).1 with
  | error halt => rfl
  | ok tally => simp [Except.map, Report.only, Verifier.narrowed]

end Verify

end MiddleEnd
