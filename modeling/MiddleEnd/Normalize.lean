import MiddleEnd.Pass
import MiddleEnd.Tree.Edit

/-!
# MiddleEnd.Normalize

The pass that brings a program into canonical shape. It writes every back-reference from where
the walk stands, and rewrites on the way what its rules ask for:

1. the empty statement is dropped from statement lists;
2. a branch that is not a block is wrapped in one;
3. a call used as the condition of an `if` that stands in a list, parenthesised or not, moves into
   a temporary declared right before the `if`;
4. a parenthesised expression is replaced by what the parentheses enclose.

The rules that concern a statement are applied before it is entered, so that the walk goes on
through what they made of it; a declaration inserted before the current statement is visited
right after that statement.
-/

namespace MiddleEnd.Normalize

/-- Which rewrites are applied. Back-references are written in any case. -/
structure Rules where
  wrapBranches : Bool
  hoistCallConditions : Bool
  flattenParens : Bool
  dropNops : Bool
deriving DecidableEq, Repr

/-- Every rewrite. -/
def Rules.all : Rules := ⟨true, true, true, true⟩

/-- No rewrite; only back-references are written. -/
def Rules.none : Rules := ⟨false, false, false, false⟩

/-- How often each rewrite was made. -/
structure Counts where
  wrappedBranches : Nat
  hoistedTemps : Nat
  flattenedParens : Nat
  droppedNops : Nat
deriving DecidableEq, Repr

/-- Nothing was rewritten yet. -/
def Counts.zero : Counts := ⟨0, 0, 0, 0⟩

/-- The number of rewrites of any kind. -/
def Counts.total (c : Counts) : Nat :=
  c.wrappedBranches + c.hoistedTemps + c.flattenedParens + c.droppedNops

/-- What a run changed, and how many nodes it entered. -/
structure Report where
  counts : Counts
  tally : Tally
deriving DecidableEq, Repr

/-- The state of the pass. -/
structure Normalizer where
  rules : Rules
  context : Context
  counts : Counts
  /-- The number of the next temporary. -/
  nextTemp : Nat
deriving DecidableEq, Repr

/-- The pass before its first module. -/
def Normalizer.start (rules : Rules) : Normalizer := ⟨rules, .start, .zero, 0⟩

/-- A rewrite changes the program and counts what it did. -/
abbrev Rewrite := Scene Normalizer → Scene Normalizer

/-! ## Rewrites at a statement -/

/-- Take an empty statement out of the list that holds it. -/
def dropNop (s : StmtId) (place : StmtPlace) : Rewrite := fun scene =>
  match place.list? with
  | none => scene
  | some list =>
    match scene.program.removeStmt? list s with
    | none => scene
    | some program =>
      { scene with program, own.counts.droppedNops := scene.own.counts.droppedNops + 1 }

/-- Wrap the branch held in a place in a new block, unless it is a block. -/
def wrapBranch (place : StmtPlace) : Rewrite := fun scene =>
  match (scene.program.stmtAt? place).bind fun s =>
      (scene.program.stmt? s).map fun stmt => (s, stmt) with
  | none => scene
  | some (s, stmt) =>
    if stmt.kind.isBlock then scene
    else
      let (block, program) := scene.program.addStmt (.block [s]) stmt.line
      match program.setStmtAt? place block with
      | none => { scene with program }
      | some program =>
        { scene with program, own.counts.wrappedBranches := scene.own.counts.wrappedBranches + 1 }

/-- Wrap all branches of a statement. -/
def wrapBranches (s : StmtId) : Rewrite := fun scene =>
  match scene.program.children s with
  | .places places => places.foldl (fun scene place => wrapBranch place scene) scene
  | _ => scene

/-- The expression under any number of parentheses, at most so many steps away. -/
def underParens? (p : Program) : Nat → ExprId → Option ExprKind
  | 0, _ => none
  | steps + 1, e =>
    match p.expr? e with
    | none => none
    | some expr =>
      match expr.kind with
      | .paren inner => underParens? p steps inner
      | kind => some kind

/-- Whether an expression is a call under any number of parentheses. Parentheses that enclose each
other in a circle enclose no call; a path without repetition is no longer than the arena. -/
def isCall (p : Program) (e : ExprId) : Bool :=
  match underParens? p p.exprs.size e with
  | some (.call _ _) => true
  | _ => false

/-- The condition of an `if`, where it is a call and the `if` still stands in the list. -/
def hoistable? (p : Program) (s : StmtId) (list : StmtList) : Option (ExprId × UInt32) := do
  let stmt ← p.stmt? s
  match stmt.kind with
  | .ifElse cond _ _ =>
    if isCall p cond && s ∈ (p.stmtList? list).getD [] then some (cond, stmt.line) else none
  | _ => none

/-- Move the condition of an `if` in a list into a new temporary, where it is a call. -/
def hoistCondition (s : StmtId) (place : StmtPlace) : Rewrite := fun scene =>
  match place.list?.bind fun list =>
      (hoistable? scene.program s list).map fun (cond, line) => (list, cond, line) with
  | none => scene
  | some (list, cond, line) =>
    let (temp, program) :=
      scene.program.addSymbol ("_t" ++ scene.own.nextTemp.repr) (.var none) line
    let (decl, program) := program.addStmt (.decl temp (some cond)) line
    let program := (program.insertBefore? list s decl).getD program
    let (ref, program) := program.addExpr (.symRef temp) line
    let program := (program.setExprAt? ⟨.stmt s, 0⟩ ref).getD program
    { scene with
      program
      own.counts.hoistedTemps := scene.own.counts.hoistedTemps + 1
      own.nextTemp := scene.own.nextTemp + 1 }

/-- Apply a rewrite if its rule is on. -/
def applyIf (rule : Bool) (rewrite : Rewrite) : Rewrite := if rule then rewrite else id

/-! ## Hooks -/

/-- A hook of the pass. -/
abbrev NormalizeM := HookM Normalizer

/-- Make a move of the context. -/
def move (move : ContextM Unit) : NormalizeM Unit := do
  let scene ← get
  let (result, context) := move.run.run scene.own.context
  set { scene with own.context := context }
  match result with
  | .ok () => pure ()
  | .error cause => throw (.defect cause)

/-- Read a node that must exist. -/
def need {α : Type} (read : Program → Except Fault α) : NormalizeM α := do
  match read (← get).program with
  | .ok a => pure a
  | .error fault => throw (.fault fault)

/-- Change the program. -/
def edit (change : Program → Program) : NormalizeM Unit :=
  modify fun scene => { scene with program := change scene.program }

/-- Record where a symbol is declared. -/
def preSymbol (s : SymbolId) : NormalizeM Unit := do
  let _ ← need (·.symbol s)
  let context := (← get).own.context
  edit (·.updateSymbol s fun symbol => { symbol with scope := context.ownerScope })
  move (Context.enterSymbol s)

/-- Record what encloses a statement and rewrite it. -/
def preStmt (s : StmtId) (place : StmtPlace) : NormalizeM Unit := do
  let stmt ← need (·.stmt s)
  let own := (← get).own
  edit (·.updateStmt s fun stmt => { stmt with
    parentStmt := own.context.enclosingStmt, parentSymbol := own.context.enclosingSymbol })
  modify (applyIf (own.rules.dropNops && stmt.kind = .nop) (dropNop s place))
  modify (applyIf own.rules.wrapBranches (wrapBranches s))
  modify (applyIf own.rules.hoistCallConditions (hoistCondition s place))
  move (Context.enterStmt s)

/-- The expression in parentheses, if the rule that drops them is on. -/
def flattened? (rules : Rules) (expr : Expr) : Option ExprId :=
  match expr.kind with
  | .paren inner => if rules.flattenParens then some inner else none
  | _ => none

/-- Replace a parenthesised expression by what it encloses; record what encloses any other. An
expression that is replaced keeps the back-references it had. -/
def preExpr (e : ExprId) (place : ExprPlace) : NormalizeM Unit := do
  let scene ← get
  let own := scene.own
  match own.context.enclosingStmt with
  | none => throw (.defect (.outsideStatement e))
  | some enclosing =>
    let expr ← need (·.expr e)
    match (flattened? own.rules expr).bind (scene.program.setExprAt? place) with
    | some program =>
      set { scene with program, own.counts.flattenedParens := own.counts.flattenedParens + 1 }
    | none =>
      edit (·.updateExpr e fun expr => { expr with
        parentStmt := some enclosing, parentSymbol := own.context.enclosingSymbol })

/-- The hooks of the pass. -/
def hooks : Hooks Normalizer where
  pass := "fixup-normalize"
  preSymbol := preSymbol
  postSymbol s := move (Context.leaveSymbol s)
  preStmt := preStmt
  postStmt s := move (Context.leaveStmt s)
  preExpr := preExpr

/-- The pass, with its context. -/
def pass : Pass Normalizer where
  hooks := hooks
  context := (·.context)
  withContext own context := { own with context }

/-- Normalise modules in order: what was changed, or why the pass halted, and the program it
left. -/
def run (rules : Rules) (modules : List ModuleId) (p : Program) : Except Halt Report × Program :=
  let (result, scene) := pass.run modules ⟨p, .start rules⟩
  (result.map fun tally => ⟨scene.own.counts, tally⟩, scene.program)

end MiddleEnd.Normalize
