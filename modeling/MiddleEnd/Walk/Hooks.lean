import MiddleEnd.Defect
import MiddleEnd.Tree.Program

/-!
# MiddleEnd.Walk.Hooks

What a pass does at each node. A pass is a record of six hooks, called before and after the
children of a symbol, a statement or an expression.

- `Hooks`: the hooks of a pass that may rewrite the program as it is walked;
- `Observer`: the hooks of a pass that can only look at it. `Observer.toHooks` makes hooks of
  them, which by construction leave the program alone.
-/

namespace MiddleEnd

/-- Why a hook refused to go on: it found a defect, or it misused the tree. -/
inductive Refusal where
  | defect (cause : Cause)
  | fault (fault : Fault)
deriving DecidableEq, Repr

/-- What a hook works on: the program and the pass's own state. -/
structure Scene (σ : Type) where
  program : Program
  own : σ

/-- A hook may change the program and its own state, and may refuse; what it changed before it
refused stays changed. -/
abbrev HookM (σ : Type) := ExceptT Refusal (StateM (Scene σ))

/-- The hooks of a pass, by default none. -/
structure Hooks (σ : Type) where
  /-- The name of the pass in reports. -/
  pass : String
  preSymbol : SymbolId → HookM σ Unit := fun _ => pure ()
  postSymbol : SymbolId → HookM σ Unit := fun _ => pure ()
  /-- Called with the place that the statement is held in. -/
  preStmt : StmtId → StmtPlace → HookM σ Unit := fun _ _ => pure ()
  postStmt : StmtId → HookM σ Unit := fun _ => pure ()
  /-- Called with the place that the expression is held in. Putting another expression there
  replaces this one for the rest of the walk. -/
  preExpr : ExprId → ExprPlace → HookM σ Unit := fun _ _ => pure ()
  postExpr : ExprId → HookM σ Unit := fun _ => pure ()

/-- A hook that can only look at the program. -/
abbrev ObserverM (σ : Type) := ExceptT Refusal (StateM σ)

/-- The hooks of a pass that can only look at the program, by default none. -/
structure Observer (σ : Type) where
  /-- The name of the pass in reports. -/
  pass : String
  preSymbol : Program → SymbolId → ObserverM σ Unit := fun _ _ => pure ()
  postSymbol : Program → SymbolId → ObserverM σ Unit := fun _ _ => pure ()
  preStmt : Program → StmtId → StmtPlace → ObserverM σ Unit := fun _ _ _ => pure ()
  postStmt : Program → StmtId → ObserverM σ Unit := fun _ _ => pure ()
  preExpr : Program → ExprId → ExprPlace → ObserverM σ Unit := fun _ _ _ => pure ()
  postExpr : Program → ExprId → ObserverM σ Unit := fun _ _ => pure ()

variable {σ : Type}

/-- Look at the program of the scene and leave it as it is. -/
def HookM.looking (look : Program → ObserverM σ Unit) : HookM σ Unit :=
  ExceptT.mk fun scene =>
    let (result, own) := (look scene.program).run.run scene.own
    (result, { scene with own })

/-- Hooks that look and leave the program as it is. -/
def Observer.toHooks (o : Observer σ) : Hooks σ where
  pass := o.pass
  preSymbol s := .looking (o.preSymbol · s)
  postSymbol s := .looking (o.postSymbol · s)
  preStmt s place := .looking (o.preStmt · s place)
  postStmt s := .looking (o.postStmt · s)
  preExpr e place := .looking (o.preExpr · e place)
  postExpr e := .looking (o.postExpr · e)

end MiddleEnd
