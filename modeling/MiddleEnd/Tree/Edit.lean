import MiddleEnd.Tree.Program

/-!
# MiddleEnd.Tree.Edit

Changes to a program. Nodes are added and overwritten, never taken out of their arena:
detaching a node means removing its id from the places that hold it.

An operation that can miss its target (`setExprAt?`, `insertBefore?`, …) gives `none` and
leaves the program alone. One that must not miss it gives a `Fault`; `declare` adds its symbol
first, so even its faults come with a changed program.
-/

namespace MiddleEnd

namespace Program

/-! ## New nodes -/

/-- Add an empty module. -/
def addModule (p : Program) (name file : String) : ModuleId × Program :=
  (.ofIndex p.modules.size, { p with modules := p.modules.push ⟨name, file, none, []⟩ })

/-- Add a symbol that nothing declares yet. -/
def addSymbol (p : Program) (name : String) (kind : SymbolKind) (line : UInt32) :
    SymbolId × Program :=
  (.ofIndex p.symbols.size, { p with symbols := p.symbols.push (.new name kind line) })

/-- Add a statement that nothing holds yet. -/
def addStmt (p : Program) (kind : StmtKind) (line : UInt32) : StmtId × Program :=
  (.ofIndex p.stmts.size, { p with stmts := p.stmts.push (.new kind line) })

/-- Add an expression that nothing holds yet. -/
def addExpr (p : Program) (kind : ExprKind) (line : UInt32) : ExprId × Program :=
  (.ofIndex p.exprs.size, { p with exprs := p.exprs.push (.new kind line) })

/-! ## Overwriting nodes -/

/-- Change a module; one that does not exist stays so. -/
def updateModule (p : Program) (m : ModuleId) (f : Module → Module) : Program :=
  { p with modules := p.modules.modify m.index f }

/-- Change a symbol; one that does not exist stays so. -/
def updateSymbol (p : Program) (s : SymbolId) (f : Symbol → Symbol) : Program :=
  { p with symbols := p.symbols.modify s.index f }

/-- Change a statement; one that does not exist stays so. -/
def updateStmt (p : Program) (s : StmtId) (f : Stmt → Stmt) : Program :=
  { p with stmts := p.stmts.modify s.index f }

/-- Change an expression; one that does not exist stays so. -/
def updateExpr (p : Program) (e : ExprId) (f : Expr → Expr) : Program :=
  { p with exprs := p.exprs.modify e.index f }

/-! ## Overwriting nodes that must exist -/

/-- Overwrite a module, which must exist. -/
def setModule (p : Program) (m : ModuleId) (value : Module) : Except Fault Program :=
  (p.module m).map fun _ => p.updateModule m fun _ => value

/-- Overwrite a symbol, which must exist. -/
def setSymbol (p : Program) (s : SymbolId) (value : Symbol) : Except Fault Program :=
  (p.symbol s).map fun _ => p.updateSymbol s fun _ => value

/-- Overwrite a statement, which must exist. -/
def setStmt (p : Program) (s : StmtId) (value : Stmt) : Except Fault Program :=
  (p.stmt s).map fun _ => p.updateStmt s fun _ => value

/-- Overwrite an expression, which must exist. -/
def setExpr (p : Program) (e : ExprId) (value : Expr) : Except Fault Program :=
  (p.expr e).map fun _ => p.updateExpr e fun _ => value

/-! ## Places -/

/-- Put an expression into a place; `none` if there is no such place. -/
def setExprAt? (p : Program) (place : ExprPlace) (e : ExprId) : Option Program :=
  match place.owner with
  | .stmt s => do
    let stmt ← p.stmt? s
    let kind ← stmt.kind.withOperand? place.index e
    some (p.updateStmt s ({ · with kind }))
  | .expr s => do
    let expr ← p.expr? s
    let kind ← expr.kind.withOperand? place.index e
    some (p.updateExpr s ({ · with kind }))

/-- Give a list other entries. Where there is no list nothing changes. -/
def putStmtList (p : Program) (list : StmtList) (entries : List StmtId) : Program :=
  match list with
  | .body s => p.updateSymbol s fun symbol => { symbol with kind := symbol.kind.withBody entries }
  | .block b => p.updateStmt b fun stmt => { stmt with kind := stmt.kind.withEntries entries }

/-- Put a statement into a place; `none` if there is no such place. The empty `else` of an `if`
is a place. -/
def setStmtAt? (p : Program) (place : StmtPlace) (s : StmtId) : Option Program :=
  match place with
  | .entry list index => do
    let entries ← p.stmtList? list
    if index < entries.length then some (p.putStmtList list (entries.set index s)) else none
  | .branch owner which => do
    let stmt ← p.stmt? owner
    let kind ← stmt.kind.withBranch? which s
    some (p.updateStmt owner ({ · with kind }))

/-! ## Statement lists -/

/-- Append a statement to a list, which must exist. -/
def appendStmt (p : Program) (list : StmtList) (s : StmtId) : Except Fault Program :=
  match p.stmtList? list with
  | some entries => .ok (p.putStmtList list (entries ++ [s]))
  | none => .error (.ownsNoStmts list)

/-- `entries` with `new` before the first `anchor`; `none` if `anchor` is not among them. -/
def insertedBefore? (anchor new : StmtId) : List StmtId → Option (List StmtId)
  | [] => none
  | s :: rest =>
    if s = anchor then some (new :: s :: rest)
    else (insertedBefore? anchor new rest).map (s :: ·)

/-- Insert a statement right before `anchor`; `none` if there is no such list or `anchor` is not
in it. -/
def insertBefore? (p : Program) (list : StmtList) (anchor s : StmtId) : Option Program := do
  let entries ← p.stmtList? list
  let entries ← insertedBefore? anchor s entries
  some (p.putStmtList list entries)

/-- Remove a statement from a list, wherever in it it stands; `none` if it was not there. -/
def removeStmt? (p : Program) (list : StmtList) (s : StmtId) : Option Program := do
  let entries ← p.stmtList? list
  if s ∈ entries then some (p.putStmtList list (entries.filter (· ≠ s))) else none

/-! ## Symbols -/

/-- Add a symbol and append it to a list, which must exist. The symbol is added even where the
list does not exist. -/
def declare (p : Program) (list : SymbolList) (name : String) (kind : SymbolKind)
    (line : UInt32) : Except Fault SymbolId × Program :=
  let (id, p) := p.addSymbol name kind line
  match list with
  | .module m =>
    match p.module m with
    | .error fault => (.error fault, p)
    | .ok _ => (.ok id, p.updateModule m fun module =>
        { module with symbols := module.symbols ++ [id] })
  | .symbol s =>
    match p.symbol s with
    | .error fault => (.error fault, p)
    | .ok owner =>
      match owner.kind.nested? with
      | none => (.error (.ownsNoSymbols s), p)
      | some nested => (.ok id, p.updateSymbol s fun symbol =>
          { symbol with kind := symbol.kind.withNested (nested ++ [id]) })

/-- Delete a symbol: mark it as removed, take it out of every list that declares it and turn
every declaration statement for it into the empty statement. References to it stay behind. A
symbol that does not exist has nothing to delete. -/
def removeSymbol (p : Program) (s : SymbolId) : Program :=
  if (p.symbol? s).isSome then
    let p := p.updateSymbol s ({ · with removed := true })
    { p with
      modules := p.modules.map fun module =>
        { module with symbols := module.symbols.filter (· ≠ s) }
      symbols := p.symbols.map fun symbol => { symbol with kind := symbol.kind.withoutNested s }
      stmts := p.stmts.map fun stmt => { stmt with kind := stmt.kind.withoutDecl s } }
  else p

end Program

end MiddleEnd
