/-!
# MiddleEnd.Tree.Id

Names of nodes. A node is named by its category and its position in the arena of that
category; ids are 32-bit words, handed out in order from 0 and never reused, so an id stays
valid (possibly detached from the tree) as long as the program lives.

- `ModuleId`, `SymbolId`, `StmtId`, `ExprId`: one type per category, so that an id cannot be
  looked up in the wrong arena;
- `NodeId`: a node of any category, for reports that only have to say which node is meant;
- `Scope`: what can declare a symbol.
-/

namespace MiddleEnd

/-! ## Ids by category -/

/-- A compilation unit. -/
structure ModuleId where
  val : UInt32
deriving DecidableEq, Repr, Inhabited

/-- A declared entity: variable, parameter, function or type. -/
structure SymbolId where
  val : UInt32
deriving DecidableEq, Repr, Inhabited

/-- An executable statement. -/
structure StmtId where
  val : UInt32
deriving DecidableEq, Repr, Inhabited

/-- An expression, which produces a value. -/
structure ExprId where
  val : UInt32
deriving DecidableEq, Repr, Inhabited

namespace ModuleId

/-- The position in the arena of modules. -/
def index (m : ModuleId) : Nat := m.val.toNat

/-- The id of the module at a position; positions count modulo `2 ^ 32`. -/
def ofIndex (n : Nat) : ModuleId := ⟨n.toUInt32⟩

@[simp] theorem index_inj {a b : ModuleId} : a.index = b.index ↔ a = b := by
  cases a; cases b; simp [index, UInt32.toNat_inj]

/-- The category and the position, as a report names the module. -/
def text (m : ModuleId) : String := "module #" ++ m.index.repr

end ModuleId

namespace SymbolId

/-- The position in the arena of symbols. -/
def index (s : SymbolId) : Nat := s.val.toNat

/-- The id of the symbol at a position; positions count modulo `2 ^ 32`. -/
def ofIndex (n : Nat) : SymbolId := ⟨n.toUInt32⟩

@[simp] theorem index_inj {a b : SymbolId} : a.index = b.index ↔ a = b := by
  cases a; cases b; simp [index, UInt32.toNat_inj]

/-- The category and the position, as a report names the symbol. -/
def text (s : SymbolId) : String := "symbol #" ++ s.index.repr

end SymbolId

namespace StmtId

/-- The position in the arena of statements. -/
def index (s : StmtId) : Nat := s.val.toNat

/-- The id of the statement at a position; positions count modulo `2 ^ 32`. -/
def ofIndex (n : Nat) : StmtId := ⟨n.toUInt32⟩

@[simp] theorem index_inj {a b : StmtId} : a.index = b.index ↔ a = b := by
  cases a; cases b; simp [index, UInt32.toNat_inj]

/-- The category and the position, as a report names the statement. -/
def text (s : StmtId) : String := "statement #" ++ s.index.repr

end StmtId

namespace ExprId

/-- The position in the arena of expressions. -/
def index (e : ExprId) : Nat := e.val.toNat

/-- The id of the expression at a position; positions count modulo `2 ^ 32`. -/
def ofIndex (n : Nat) : ExprId := ⟨n.toUInt32⟩

@[simp] theorem index_inj {a b : ExprId} : a.index = b.index ↔ a = b := by
  cases a; cases b; simp [index, UInt32.toNat_inj]

/-- The category and the position, as a report names the expression. -/
def text (e : ExprId) : String := "expression #" ++ e.index.repr

end ExprId

/-! ## Nodes of any category -/

/-- A node of any category. -/
inductive NodeId where
  | module (m : ModuleId)
  | symbol (s : SymbolId)
  | stmt (s : StmtId)
  | expr (e : ExprId)
deriving DecidableEq, Repr

/-- The category and the position, as a report names the node. -/
def NodeId.text : NodeId → String
  | .module m => m.text
  | .symbol s => s.text
  | .stmt s => s.text
  | .expr e => e.text

/-- What can declare a symbol: a module, another symbol (a function its parameters, a type its
members) or a declaration statement inside a body. -/
inductive Scope where
  | module (m : ModuleId)
  | symbol (s : SymbolId)
  | stmt (s : StmtId)
deriving DecidableEq, Repr

/-- The category and the position, as a report names the scope. -/
def Scope.text : Scope → String
  | .module m => m.text
  | .symbol s => s.text
  | .stmt s => s.text

end MiddleEnd
