import MiddleEnd.Walk.Trail
import MiddleEnd.Walk.Cursor
import MiddleEnd.Walk.Hooks

/-!
# MiddleEnd.Walk.Basic

The one order in which a program is walked, depth first:

1. a module: the symbols it declares, in declaration order;
2. a symbol: `preSymbol`, its parameters or members, its body, `postSymbol`;
3. a statement: `preStmt`, its operands, the symbol it declares, the statements it holds,
   `postStmt`;
4. an expression: `preExpr`, its operands from left to right, `postExpr`.

The walk itself changes nothing, but its hooks may, and it always goes on from what they left:
every place is read again after the child before it is finished. What was not yet visited is
seen as rewritten. A statement inserted into a list at or after the current entry is visited when
its turn comes, and one that was removed by then is not. An expression that its own `preExpr`
replaced is abandoned (no operands, no `postExpr`), and the walk goes on with the one that took its
place, unless that one was visited before.

A node is entered once per `Trail`. Entering it again, or entering an id that does not exist, is a
`Defect`.

The walk is an unfolding of `visit`, which says what is done for one `Task` in terms of how
further tasks are done. `walk` unfolds it to a given depth. Ids are 32-bit words, so no walk can
enter more than `2 ^ 34` nodes, and between two nodes only a few tasks are nested; `run` uses a
depth that no walk reaches.
-/

namespace MiddleEnd

/-- Why a walk stopped before its end. -/
inductive Halt where
  | defect (defect : Defect)
  /-- A hook misused the tree. -/
  | fault (fault : Fault)
  /-- The walk was to be unfolded deeper than allowed. -/
  | tooDeep
deriving DecidableEq, Repr

/-- The state of a walk. -/
structure WalkState (σ : Type) where
  trail : Trail
  scene : Scene σ

/-- A walk that halts keeps what it did until then. -/
abbrev WalkM (σ : Type) := ExceptT Halt (StateM (WalkState σ))

/-- Something to walk through. -/
inductive Task where
  | module (m : ModuleId)
  | symbol (s : SymbolId)
  /-- The statement held in a place, if any. -/
  | stmt (place : StmtPlace)
  /-- The expression held in a place, if any. -/
  | expr (place : ExprPlace)
  | symbols (list : SymbolList)
  /-- What is left of a list of symbols. -/
  | symbolsFrom (list : SymbolList) (cursor : Cursor SymbolId)
  | stmts (list : StmtList)
  /-- What is left of a list of statements. -/
  | stmtsFrom (list : StmtList) (cursor : Cursor StmtId)
  /-- The operands of an owner from an index on. -/
  | operandsFrom (owner : ExprOwner) (index : Nat)

namespace Walk

variable {σ : Type}

/-- The program as it is now. -/
def program : WalkM σ Program := return (← get).scene.program

/-- Stop with a defect at a node. -/
def fail {α : Type} (h : Hooks σ) (n : NodeId) (cause : Cause) : WalkM σ α :=
  throw (.defect (.during h.pass n cause))

/-- Enter a node: it must exist, and must not have been entered before. -/
def enter (h : Hooks σ) (n : NodeId) : WalkM σ Unit := do
  let state ← get
  if state.scene.program.has n then
    match state.trail.enter n with
    | .ok trail => set { state with trail }
    | .error cause => fail h n cause
  else
    fail h n .missingNode

/-- Finish the visit of a node. -/
def leave (n : NodeId) : WalkM σ Unit :=
  modify fun state => { state with trail := state.trail.leave n }

/-- Call a hook at a node. -/
def call (h : Hooks σ) (n : NodeId) (hook : HookM σ Unit) : WalkM σ Unit := do
  let state ← get
  let (result, scene) := hook.run.run state.scene
  set { state with scene }
  match result with
  | .ok () => pure ()
  | .error (.defect cause) => fail h n cause
  | .error (.fault fault) => throw (.fault fault)

/-- What is done for a task, where `rest` does the tasks that come up on the way. -/
def visit (h : Hooks σ) (rest : Task → WalkM σ Unit) : Task → WalkM σ Unit
  | .module m => do
    enter h (.module m)
    rest (.symbols (.module m))
    leave (.module m)
  | .symbol s => do
    enter h (.symbol s)
    call h (.symbol s) (h.preSymbol s)
    rest (.symbols (.symbol s))
    rest (.stmts (.body s))
    call h (.symbol s) (h.postSymbol s)
    leave (.symbol s)
  | .stmt place => do
    match (← program).stmtAt? place with
    | none => pure ()
    | some s =>
      enter h (.stmt s)
      call h (.stmt s) (h.preStmt s place)
      rest (.operandsFrom (.stmt s) 0)
      match (← program).declared? s with
      | none => pure ()
      | some symbol => rest (.symbol symbol)
      match (← program).children s with
      | .none => pure ()
      | .list list => rest (.stmts list)
      | .places places => places.forM fun place => rest (.stmt place)
      call h (.stmt s) (h.postStmt s)
      leave (.stmt s)
  | .expr place => do
    match (← program).exprAt? place with
    | none => pure ()
    | some e =>
      enter h (.expr e)
      call h (.expr e) (h.preExpr e place)
      match (← program).exprAt? place with
      | none => leave (.expr e)
      | some e' =>
        if e' = e then
          rest (.operandsFrom (.expr e) 0)
          call h (.expr e) (h.postExpr e)
          leave (.expr e)
        else
          leave (.expr e)
          unless (← get).trail.seen.contains (.expr e') do
            rest (.expr place)
  | .symbols list => do
    match ((← program).symbolList? list).bind (firstRepeat? []) with
    | some s => fail h (.symbol s) .sharedNode
    | none => rest (.symbolsFrom list .start)
  | .symbolsFrom list cursor => do
    match ((← program).symbolList? list).bind cursor.next? with
    | none => pure ()
    | some (_, s, cursor) =>
      rest (.symbol s)
      rest (.symbolsFrom list cursor)
  | .stmts list => do
    match ((← program).stmtList? list).bind (firstRepeat? []) with
    | some s => fail h (.stmt s) .sharedNode
    | none => rest (.stmtsFrom list .start)
  | .stmtsFrom list cursor => do
    match ((← program).stmtList? list).bind cursor.next? with
    | none => pure ()
    | some (index, _, cursor) =>
      rest (.stmt (.entry list index))
      rest (.stmtsFrom list cursor)
  | .operandsFrom owner index => do
    if index < ((← program).operands owner).length then
      rest (.expr ⟨owner, index⟩)
      rest (.operandsFrom owner (index + 1))

/-- Do a task, nesting at most so many tasks. -/
def walk (h : Hooks σ) : Nat → Task → WalkM σ Unit
  | 0, _ => throw .tooDeep
  | depth + 1, task => visit h (walk h depth) task

/-- A depth that no walk reaches. -/
def depthLimit : Nat := UInt32.size * 256

/-- Do a task. -/
def run (h : Hooks σ) (task : Task) : WalkM σ Unit := walk h depthLimit task

end Walk

end MiddleEnd
