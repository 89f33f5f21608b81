import MiddleEnd.Text.Quoted
import MiddleEnd.Tree.Program

/-!
# MiddleEnd.Listing

A program as indented text, to be read by people and not to be parsed again.

A listing is a list of lines, each with its level of nesting; `Style` says how levels are drawn and
how deep the listing goes. Programs may be circular, so the depth is bounded: where the listing
would go deeper, it shows `...` and stops there. Everything is defined by recursion on the number
of levels that are left.
-/

namespace MiddleEnd.Listing

/-- How a listing is laid out. Both numbers can be any, and so can the levels that are counted with
them: on a machine they are words, which a listing cannot count beyond. -/
structure Style where
  /-- Spaces per level. -/
  indent : Nat
  /-- The number of levels, beyond the first, that are shown. -/
  maxDepth : Nat
deriving DecidableEq, Repr

/-- Two spaces per level, 256 levels. -/
def Style.standard : Style := ⟨2, 256⟩

/-- A line of a listing. -/
structure Line where
  level : Nat
  text : String
deriving DecidableEq, Repr

/-- The same line one level deeper. -/
def Line.deeper (l : Line) : Line := { l with level := l.level + 1 }

/-- The line as text, with its end. -/
def Line.render (style : Style) (l : Line) : String :=
  String.ofList (List.replicate (l.level * style.indent) ' ') ++ l.text ++ "\n"

/-- The spaces that one line begins with are fewer than this, or they cannot be drawn. Nothing else
is held against it: that there is room for what stands behind them, and for the text as a whole, is
taken for granted, as it is of every text here. -/
def sizeLimit : Nat := Nat.pow 2 63

/-- Whether the spaces that the line begins with can be drawn. -/
def Line.fits (style : Style) (l : Line) : Bool := l.level * style.indent < sizeLimit

/-- What stands for the parts that are not shown. -/
def elided : String := "..."

/-- What stands for a node that does not exist. -/
def dangling (name : String) : String := "<dangling " ++ name ++ ">"

/-! ## Expressions -/

/-- The name of a symbol that is referred to. -/
def refText (p : Program) (s : SymbolId) : String :=
  match p.symbol? s with
  | none => dangling s.text
  | some symbol => if symbol.removed then "<removed " ++ symbol.name ++ ">" else symbol.name

/-- An expression on one line, down to a number of levels. -/
def exprText (p : Program) : Nat → ExprId → String
  | 0, _ => elided
  | levels + 1, e =>
    let sub := exprText p levels
    match p.expr? e with
    | none => dangling e.text
    | some expr =>
      match expr.kind with
      | .int value => toString value
      | .bool value => toString value
      | .str value => Text.quote value
      | .symRef sym => refText p sym
      | .call callee args => sub callee ++ "(" ++ ", ".intercalate (args.map sub) ++ ")"
      | .binary op lhs rhs => sub lhs ++ " " ++ op.text ++ " " ++ sub rhs
      | .assign target value => sub target ++ " = " ++ sub value
      | .paren inner => "(" ++ sub inner ++ ")"

/-! ## Symbols and statements -/

/-- Something listed on lines of its own. -/
inductive Item where
  | symbol (s : SymbolId)
  | stmt (s : StmtId)
deriving DecidableEq, Repr

/-- A type written after a name. -/
def annotation : Option String → String
  | none => ""
  | some ty => ": " ++ ty

/-- A parameter in the head of a function. -/
def paramText (p : Program) (s : SymbolId) : String :=
  match p.symbol? s with
  | none => dangling s.text
  | some symbol =>
    match symbol.kind with
    | .var ty | .param ty => symbol.name ++ annotation ty
    | _ => symbol.name

/-- The first line of a function. -/
def funcHead (p : Program) (name : String) (params : List SymbolId) (ret : Option String) :
    String :=
  "fn " ++ name ++ "(" ++ ", ".intercalate (params.map (paramText p)) ++ ")"
    ++ (match ret with | none => "" | some ty => " -> " ++ ty) ++ " \x7b"

/-- Lines between a head, which opens a brace, and the brace that closes it. -/
def braced (head : String) (inner : List Line) : List Line :=
  ⟨0, head⟩ :: inner ++ [⟨0, "\x7d"⟩]

/-- A symbol, where `nested` lists what stands one level deeper. -/
def symbolLines (p : Program) (nested : List Item → List Line) (s : SymbolId) : List Line :=
  match p.symbol? s with
  | none => [⟨0, dangling s.text⟩]
  | some symbol =>
    match symbol.kind with
    | .var ty | .param ty => [⟨0, symbol.kind.keyword ++ " " ++ symbol.name ++ annotation ty⟩]
    | .func params ret body =>
      braced (funcHead p symbol.name params ret) (nested (body.map .stmt))
    | .type members => braced ("type " ++ symbol.name ++ " \x7b") (nested (members.map .symbol))

/-- The type of a variable or parameter, written after its name. -/
def declaredType : SymbolKind → String
  | .var ty | .param ty => annotation ty
  | _ => ""

/-- A branch under its head: between braces if it is a block, and indented otherwise. -/
def branchLines (p : Program) (nested : List Item → List Line) (head : String) (s : StmtId) :
    List Line :=
  match (p.stmt? s).bind (·.kind.entries?) with
  | some stmts => braced (head ++ " \x7b") (nested (stmts.map .stmt))
  | none => ⟨0, head⟩ :: nested [.stmt s]

/-- A statement, where `nested` lists what stands one level deeper. -/
def stmtLines (style : Style) (p : Program) (nested : List Item → List Line) (s : StmtId) :
    List Line :=
  let text := exprText p (style.maxDepth + 1)
  match p.stmt? s with
  | none => [⟨0, dangling s.text⟩]
  | some stmt =>
    match stmt.kind with
    | .expr e => [⟨0, text e ++ ";"⟩]
    | .decl sym init =>
      match p.symbol? sym with
      | none => [⟨0, "var " ++ dangling sym.text ++ ";"⟩]
      | some symbol =>
        if symbol.kind.declaresScope then symbolLines p nested sym
        else
          let value := match init with | none => "" | some e => " = " ++ text e
          [⟨0, "var " ++ symbol.name ++ declaredType symbol.kind ++ value ++ ";"⟩]
    | .block stmts => braced "\x7b" (nested (stmts.map .stmt))
    | .ifElse cond thenBranch elseBranch =>
      branchLines p nested ("if " ++ text cond) thenBranch
        ++ (match elseBranch with | none => [] | some s => branchLines p nested "else" s)
    | .whileDo cond body => branchLines p nested ("while " ++ text cond) body
    | .ret none => [⟨0, "return;"⟩]
    | .ret (some e) => [⟨0, "return " ++ text e ++ ";"⟩]
    | .nop => [⟨0, ";"⟩]

/-- One symbol or statement. -/
def itemLines (style : Style) (p : Program) (nested : List Item → List Line) : Item → List Line
  | .symbol s => symbolLines p nested s
  | .stmt s => stmtLines style p nested s

/-- Items one level deeper than what contains them, where so many levels are left. -/
def nestedLines (style : Style) (p : Program) : Nat → List Item → List Line
  | 0, _ => [⟨1, elided⟩]
  | levels + 1, items =>
    (items.flatMap (itemLines style p (nestedLines style p levels))).map Line.deeper

/-! ## Modules -/

/-- The lines of a module and everything it owns; none if the module does not exist. -/
def moduleLines (style : Style) (p : Program) (m : ModuleId) : List Line :=
  match p.module? m with
  | none => []
  | some module =>
    ⟨0, "module " ++ module.name ++ " (" ++ module.file ++ ")"⟩
      :: module.symbols.flatMap (symbolLines p (nestedLines style p style.maxDepth))

/-- A module and everything it owns. -/
def moduleText (style : Style) (p : Program) (m : ModuleId) : String :=
  String.join ((moduleLines style p m).map (Line.render style))

/-- A module and everything it owns, in a style that may ask for too many spaces at the beginning
of a line. The standard style does not: it shows 257 levels at most. -/
def checkedModuleText (style : Style) (p : Program) (m : ModuleId) : Except Fault String :=
  if (moduleLines style p m).all (Line.fits style) then .ok (moduleText style p m)
  else .error .textTooLong

/-- An expression on one line, in the standard style. -/
def exprLine (p : Program) (e : ExprId) : String := exprText p (Style.standard.maxDepth + 1) e

end MiddleEnd.Listing
