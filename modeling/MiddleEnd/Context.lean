import MiddleEnd.Defect

/-!
# MiddleEnd.Context

Where in the program a walk stands, as seen by the hooks of a pass: the module, and the symbols
and statements around the current node.

- `OpenStmts` is the stack of the statements that were entered and not left, with a count of
  its pushes and pops;
- `Context` adds the chain of frames, symbols and statements together.

Both are moved by hooks only, so they check what they are told: a statement or symbol that is
left must be the innermost one, and at the edges of a module nothing may be open.
-/

namespace MiddleEnd

/-! ## Open statements -/

/-- The statements being visited, innermost first. -/
structure OpenStmts where
  stack : List StmtId
  pushes : Nat
  pops : Nat
deriving DecidableEq, Repr

namespace OpenStmts

/-- No statement is open, and none was. -/
def empty : OpenStmts := ⟨[], 0, 0⟩

/-- The innermost open statement. -/
def top? (o : OpenStmts) : Option StmtId := o.stack.head?

/-- How many statements are open. -/
def depth (o : OpenStmts) : Nat := o.stack.length

/-- Whether every statement that was entered has been left. -/
def isBalanced (o : OpenStmts) : Bool := o.stack.isEmpty && o.pushes == o.pops

/-- The defect of being unbalanced. -/
def imbalance (o : OpenStmts) : Cause := .stackImbalance o.depth o.pushes o.pops

/-- Enter a statement. -/
def push (o : OpenStmts) (s : StmtId) : OpenStmts :=
  { o with stack := s :: o.stack, pushes := o.pushes + 1 }

/-- Remove a statement, which must be the innermost one. -/
def pop (o : OpenStmts) (s : StmtId) : Except Cause OpenStmts :=
  match o.stack with
  | [] => .error o.imbalance
  | top :: rest =>
    if top = s then .ok { o with stack := rest, pops := o.pops + 1 }
    else .error (.unexpectedLeave "post_stmt" s (some top))

end OpenStmts

/-! ## Frames -/

/-- A frame, as a defect names it. -/
def Scope.debugText : Scope → String
  | .module m => "Module(ModuleId(" ++ m.index.repr ++ "))"
  | .symbol s => "Symbol(SymbolId(" ++ s.index.repr ++ "))"
  | .stmt s => "Stmt(StmtId(" ++ s.index.repr ++ "))"

/-- The innermost frame, as a defect names it. -/
def innermostText : Option Scope → String
  | none => "None"
  | some frame => "Some(" ++ frame.debugText ++ ")"

/-- Where a walk stands. -/
structure Context where
  module : Option ModuleId
  stmts : OpenStmts
  /-- The symbols and statements between the module and the current node, innermost first. -/
  frames : List Scope
deriving DecidableEq, Repr

/-- A move of a context. A move that is refused may have changed the context all the same. -/
abbrev ContextM := ExceptT Cause (StateM Context)

namespace Context

/-- Outside every module. -/
def start : Context := ⟨none, .empty, []⟩

/-- Whether nothing is open, as it must be at the edges of a module. -/
def isClear (c : Context) : Bool := c.stmts.isBalanced && c.frames.isEmpty

/-- The nearest enclosing statement, inside or outside the nearest symbol. -/
def enclosingStmt (c : Context) : Option StmtId := c.stmts.top?

/-- The nearest enclosing symbol. -/
def enclosingSymbol (c : Context) : Option SymbolId :=
  c.frames.findSome? fun
    | .symbol s => some s
    | _ => none

/-- What declares a symbol met here: the innermost frame, or the module where there is none. -/
def ownerScope (c : Context) : Option Scope :=
  match c.frames with
  | frame :: _ => some frame
  | [] => c.module.map .module

/-! ## Moves -/

/-- Start a module. Nothing may be open; the counts start again at 0. -/
def beginModule (m : ModuleId) : ContextM Unit := do
  let c ← get
  if c.isClear then set { c with module := some m, stmts := .empty }
  else throw c.stmts.imbalance

/-- Finish the module. Nothing may be open. -/
def endModule : ContextM Unit := do
  let c ← get
  if c.isClear then set { c with module := none }
  else throw c.stmts.imbalance

/-- Enter a symbol, which becomes the innermost frame. -/
def enterSymbol (s : SymbolId) : ContextM Unit :=
  modify fun c => { c with frames := .symbol s :: c.frames }

/-- The refusal to leave what is not the innermost frame. -/
def notInnermost (hook expected : String) (frames : List Scope) : Cause :=
  .hookOutOfOrder hook
    ("expected to leave " ++ expected ++ ", innermost scope is " ++ innermostText frames.head?)

/-- Leave a symbol, which must be the innermost frame. -/
def leaveSymbol (s : SymbolId) : ContextM Unit := do
  let c ← get
  match c.frames with
  | .symbol top :: rest =>
    if top = s then set { c with frames := rest }
    else throw (notInnermost "post_symbol" s.text c.frames)
  | _ => throw (notInnermost "post_symbol" s.text c.frames)

/-- Enter a statement, which becomes the innermost open one and the innermost frame. -/
def enterStmt (s : StmtId) : ContextM Unit :=
  modify fun c => { c with stmts := c.stmts.push s, frames := .stmt s :: c.frames }

/-- Leave a statement, which must be the innermost open one and the innermost frame. The stack
is popped before the frames are looked at. -/
def leaveStmt (s : StmtId) : ContextM Unit := do
  let c ← get
  match c.stmts.pop s with
  | .error cause => throw cause
  | .ok stmts =>
    set { c with stmts }
    match c.frames with
    | .stmt top :: rest =>
      if top = s then set { c with stmts, frames := rest }
      else throw (notInnermost "post_stmt" s.text c.frames)
    | _ => throw (notInnermost "post_stmt" s.text c.frames)

end Context

end MiddleEnd
