import MiddleEnd.Listing
import MiddleEnd.Proofs.Walk.Exec

/-!
# MiddleEnd.Proofs.Listing.Printer

A printer writes a listing line by line.  It does not know how many levels are left: it keeps count
of the depth at which it stands, goes one deeper for a nested part and comes back, and leaves the
part out where that is too deep.  As a program may be circular, nothing in the calls themselves
becomes smaller.  Which lines can be drawn is left open (`draws`): all of them on paper, and in a
text those that fit (`Line.fits`).

`perform` is one call in terms of the calls that it makes, and `run` allows so many calls to be open
at the same time.  What ends it is the depth: between one nested part and the next stand at most two
other calls, so no more than `Style.callLimit` calls are ever open, whatever the program is.

`Writes` says which lines a printer writes that stands at some depth; it is closed under the ways in
which a call is put together (`Writes.append`, `Writes.forM`, `Writes.limited`, `Writes.inside`).
The main statement is `writes_module`: the printer writes the lines of `moduleLines`.
-/

namespace MiddleEnd.Listing

open Walk (exec exec_bind exec_bind_ok exec_bind_error exec_pure exec_get exec_set
  exec_modify exec_throw)

/-! ## Printers -/

/-- Why a printer stopped before its end. -/
inductive Stop where
  | fault (fault : Fault)
  /-- More calls were to be open at the same time than allowed. -/
  | tooManyCalls
deriving DecidableEq, Repr

/-- The state of a printer. -/
structure Printer where
  /-- How many nested parts it is inside of. -/
  depth : Nat
  /-- The lines that it was told to write. -/
  lines : List Line
  /-- How many parts it has left out, nested parts and operands of expressions. -/
  cuts : Nat
deriving DecidableEq, Repr

/-- A printer that stops keeps what it wrote until then. -/
abbrev PrintM := ExceptT Stop (StateM Printer)

namespace Printer

/-- A printer that has not written anything. -/
def start : Printer := ⟨0, [], 0⟩

/-- What was written, as one text. -/
def text (style : Style) (printer : Printer) : String :=
  String.join (printer.lines.map (Line.render style))

/-- Write a line where the printer stands. A line that cannot be drawn is the last one. -/
def write (draws : Line → Bool) (text : String) : PrintM Unit := do
  let printer ← get
  let line : Line := ⟨printer.depth, text⟩
  set { printer with lines := printer.lines ++ [line] }
  if draws line then pure () else throw (.fault .textTooLong)

/-- Leave a part out. -/
def cut : PrintM Unit := modify fun printer => { printer with cuts := printer.cuts + 1 }

/-- Go so deep. -/
def stand (depth : Nat) : PrintM Unit := modify fun printer => { printer with depth }

/-- Write a part, or leave it out where the printer stands too deep for it. -/
def limited (draws : Line → Bool) (style : Style) (part : PrintM Unit) : PrintM Unit := do
  if style.maxDepth < (← get).depth then
    cut
    write draws elided
  else
    part

/-- Write a part one level deeper. -/
def inside (draws : Line → Bool) (style : Style) (part : PrintM Unit) : PrintM Unit := do
  stand ((← get).depth + 1)
  limited draws style part
  stand ((← get).depth - 1)

/-! ## Expressions -/

/-- An expression on one line, where `rest` shows its operands. -/
def showExpr (p : Program) (rest : ExprId → PrintM String) (e : ExprId) : PrintM String :=
  match p.expr? e with
  | none => return dangling e.text
  | some expr =>
    match expr.kind with
    | .int value => return toString value
    | .bool value => return toString value
    | .str value => return Text.quote value
    | .symRef sym => return refText p sym
    | .call callee args => do
      let args ← args.mapM rest
      let callee ← rest callee
      return callee ++ "(" ++ ", ".intercalate args ++ ")"
    | .binary op lhs rhs => do
      let lhs ← rest lhs
      let rhs ← rest rhs
      return lhs ++ " " ++ op.text ++ " " ++ rhs
    | .assign target value => do
      let target ← rest target
      let value ← rest value
      return target ++ " = " ++ value
    | .paren inner => do
      let inner ← rest inner
      return "(" ++ inner ++ ")"

/-- An expression that stands inside of `depth` others, with so many calls open at most. -/
def expr (style : Style) (p : Program) : Nat → Nat → ExprId → PrintM String
  | 0, _, _ => throw .tooManyCalls
  | calls + 1, depth, e =>
    if style.maxDepth < depth then do
      cut
      return elided
    else showExpr p (expr style p calls (depth + 1)) e

/-! ## Symbols and statements -/

/-- Something that a printer is called for. -/
inductive Part where
  | symbol (s : SymbolId)
  | stmt (s : StmtId)
  /-- A branch under its head. -/
  | branch (head : String) (s : StmtId)
  /-- Items one level deeper than what contains them. -/
  | nested (items : List Item)

/-- An item as a call. -/
def Part.ofItem : Item → Part
  | .symbol s => .symbol s
  | .stmt s => .stmt s

/-- Items between a head, which opens a brace, and the brace that closes it. -/
def writeBraced (draws : Line → Bool) (rest : Part → PrintM Unit) (head : String)
    (items : List Item) : PrintM Unit := do
  write draws head
  rest (.nested items)
  write draws "\x7d"

/-- The initial value of a declaration. -/
def showInit (text : ExprId → PrintM String) : Option ExprId → PrintM String
  | none => return ""
  | some e => do
    let value ← text e
    return " = " ++ value

/-- One call, where `rest` makes the calls that come up on the way and `text` shows expressions. -/
def perform (draws : Line → Bool) (style : Style) (p : Program) (rest : Part → PrintM Unit)
    (text : ExprId → PrintM String) : Part → PrintM Unit
  | .symbol s =>
    match p.symbol? s with
    | none => write draws (dangling s.text)
    | some symbol =>
      match symbol.kind with
      | .var ty | .param ty =>
        write draws (symbol.kind.keyword ++ " " ++ symbol.name ++ annotation ty)
      | .func params ret body =>
        writeBraced draws rest (funcHead p symbol.name params ret) (body.map .stmt)
      | .type members =>
        writeBraced draws rest ("type " ++ symbol.name ++ " \x7b") (members.map .symbol)
  | .stmt s =>
    match p.stmt? s with
    | none => write draws (dangling s.text)
    | some stmt =>
      match stmt.kind with
      | .expr e => do
        let value ← text e
        write draws (value ++ ";")
      | .decl sym init =>
        match p.symbol? sym with
        | none => write draws ("var " ++ dangling sym.text ++ ";")
        | some symbol =>
          if symbol.kind.declaresScope then rest (.symbol sym)
          else do
            let value ← showInit text init
            write draws ("var " ++ symbol.name ++ declaredType symbol.kind ++ value ++ ";")
      | .block stmts => writeBraced draws rest "\x7b" (stmts.map .stmt)
      | .ifElse cond thenBranch elseBranch => do
        let value ← text cond
        rest (.branch ("if " ++ value) thenBranch)
        match elseBranch with
        | none => pure ()
        | some s => rest (.branch "else" s)
      | .whileDo cond body => do
        let value ← text cond
        rest (.branch ("while " ++ value) body)
      | .ret none => write draws "return;"
      | .ret (some e) => do
        let value ← text e
        write draws ("return " ++ value ++ ";")
      | .nop => write draws ";"
  | .branch head s =>
    match (p.stmt? s).bind (·.kind.entries?) with
    | some stmts => writeBraced draws rest (head ++ " \x7b") (stmts.map .stmt)
    | none => do
      write draws head
      rest (.nested [.stmt s])
  | .nested items => inside draws style (items.forM fun item => rest (.ofItem item))

/-- A call, with so many calls open at most. -/
def run (draws : Line → Bool) (style : Style) (p : Program) : Nat → Part → PrintM Unit
  | 0, _ => throw .tooManyCalls
  | calls + 1, part => perform draws style p (run draws style p calls) (expr style p calls 0) part

/-- A module and everything it owns, with so many calls open at most besides this one. -/
def module (draws : Line → Bool) (style : Style) (p : Program) (calls : Nat) (m : ModuleId) :
    PrintM Unit :=
  match p.module? m with
  | none => pure ()
  | some module => do
    write draws ("module " ++ module.name ++ " (" ++ module.file ++ ")")
    module.symbols.forM fun s => run draws style p calls (.symbol s)

end Printer

/-- The calls that may be open besides that for the module: three for each level, and then, for an
expression, one for each level of it. -/
def Style.callLimit (style : Style) : Nat := 4 * style.maxDepth + 2

/-- How printing a module ends, and the printer it leaves. -/
def print (draws : Line → Bool) (style : Style) (p : Program) (m : ModuleId) :
    Except Stop Unit × Printer :=
  exec (Printer.module draws style p style.callLimit m) .start

/-! ## The lines that a printer writes -/

/-- The line inside of so many nested parts. -/
def Line.under (depth : Nat) (l : Line) : Line := { l with level := l.level + depth }

theorem Line.under_zero (l : Line) : l.under 0 = l := rfl

/-- To be put one level deeper and under others is to be put under one more. -/
theorem Line.under_deeper (depth : Nat) (l : Line) :
    l.deeper.under depth = l.under (depth + 1) := by
  simp only [Line.under, Line.deeper, Line.mk.injEq, and_true]
  omega

/-- Lines that are put one level deeper and under others are put under one more. -/
theorem map_under_deeper (depth : Nat) (lines : List Line) :
    (lines.map Line.deeper).map (Line.under depth) = lines.map (Line.under (depth + 1)) := by
  rw [List.map_map]
  exact List.map_congr_left fun l _ => l.under_deeper depth

namespace Printer

variable {α β : Type} {draws : Line → Bool} {style : Style} {p : Program} {depth : Nat}

/-- From depth `depth`, the printer writes the lines and comes back to that depth; or one of them
cannot be drawn, and it stops there. -/
def Writes (draws : Line → Bool) (depth : Nat) (x : PrintM Unit) (lines : List Line) : Prop :=
  ∀ printer : Printer, printer.depth = depth →
    (lines.all draws = true ∧ ∃ cuts,
      exec x printer = (.ok (), ⟨depth, printer.lines ++ lines, cuts⟩)) ∨
    ∃ done last others depth' cuts, lines = done ++ last :: others ∧ draws last = false ∧
      exec x printer =
        (.error (.fault .textTooLong), ⟨depth', printer.lines ++ (done ++ [last]), cuts⟩)

/-- The printer finds a text and writes nothing. -/
def Yields (x : PrintM α) (a : α) : Prop :=
  ∀ printer : Printer, ∃ cuts, exec x printer = (.ok a, { printer with cuts })

/-- A text that is at hand is found. -/
theorem Yields.pure (a : α) : Yields (pure a) a := fun printer => ⟨printer.cuts, rfl⟩

/-- To leave something out writes nothing. -/
theorem Yields.cut : Yields cut () := fun printer => ⟨printer.cuts + 1, rfl⟩

/-- A text that is found from another one is found. -/
theorem Yields.bind {x : PrintM α} {f : α → PrintM β} {a : α} {b : β} (hx : Yields x a)
    (hf : Yields (f a) b) : Yields (x >>= f) b := by
  intro printer
  obtain ⟨cuts, hexec⟩ := hx printer
  rw [exec_bind_ok hexec]
  exact hf _

/-- The texts of several things are found one by one. -/
theorem Yields.mapM {f : α → PrintM β} {g : α → β} (h : ∀ a, Yields (f a) (g a)) :
    ∀ as : List α, Yields (as.mapM f) (as.map g)
  | [] => .pure []
  | a :: as => by
    rw [List.mapM_cons]
    exact (h a).bind ((Yields.mapM h as).bind (.pure _))

/-- What is written after a text was found. -/
theorem Yields.writes {x : PrintM α} {f : α → PrintM Unit} {a : α} {lines : List Line}
    (hx : Yields x a) (hf : Writes draws depth (f a) lines) :
    Writes draws depth (x >>= f) lines := by
  intro printer hdepth
  obtain ⟨cuts, hexec⟩ := hx printer
  rw [exec_bind_ok hexec]
  exact hf { printer with cuts } hdepth

theorem Writes.nothing : Writes draws depth (pure ()) [] := by
  rintro ⟨d, lines, cuts⟩ rfl
  exact .inl ⟨rfl, cuts, by rw [List.append_nil]; rfl⟩

/-- A line is written at the depth where the printer stands. -/
theorem Writes.line (text : String) : Writes draws depth (write draws text) [⟨depth, text⟩] := by
  rintro ⟨d, lines, cuts⟩ rfl
  by_cases hdraws : draws ⟨d, text⟩ = true
  · refine .inl ⟨by rw [List.all_cons, hdraws]; rfl, cuts, ?_⟩
    simp only [write, exec_bind, exec_get, exec_set, if_pos hdraws, exec_pure]
  · refine .inr ⟨[], ⟨d, text⟩, [], d, cuts, rfl, Bool.eq_false_iff.mpr hdraws, ?_⟩
    simp only [write, exec_bind, exec_get, exec_set, if_neg hdraws, exec_throw, List.nil_append]

/-- A line at the level of what it belongs to. -/
theorem Writes.head (text : String) :
    Writes draws depth (write draws text) ([⟨0, text⟩].map (.under depth)) := by
  simpa [Line.under] using Writes.line text

/-- One part after another. -/
theorem Writes.append {x y : PrintM Unit} {first second : List Line}
    (hx : Writes draws depth x first)
    (hy : Writes draws depth y second) :
    Writes draws depth (x >>= fun _ => y) (first ++ second) := by
  intro printer hdepth
  rcases hx printer hdepth with
    ⟨hdraws, cuts, hexec⟩ | ⟨done, last, others, d, cuts, rfl, hlast, hexec⟩
  · rw [exec_bind_ok hexec, List.all_append, hdraws, Bool.true_and]
    rcases hy ⟨depth, printer.lines ++ first, cuts⟩ rfl with
      ⟨hdraws, cuts, hexec⟩ | ⟨done, last, others, d, cuts, rfl, hlast, hexec⟩
    · exact .inl ⟨hdraws, cuts, by rw [hexec, List.append_assoc]⟩
    · refine .inr ⟨first ++ done, last, others, d, cuts, (List.append_assoc ..).symm, hlast, ?_⟩
      rw [hexec]
      simp only [List.append_assoc]
  · rw [exec_bind_error hexec]
    exact .inr ⟨done, last, others ++ second, d, cuts, List.append_assoc .., hlast, rfl⟩

/-- The lines of several things are written one by one. -/
theorem Writes.forM {f : α → PrintM Unit} {g : α → List Line}
    (h : ∀ a, Writes draws depth (f a) (g a)) :
    ∀ as : List α, Writes draws depth (as.forM f) (as.flatMap g)
  | [] => .nothing
  | a :: as => (h a).append (Writes.forM h as)

/-- Within the limit nothing is left out. -/
theorem Writes.limited {x : PrintM Unit} {lines : List Line} (hdepth : depth ≤ style.maxDepth)
    (hx : Writes draws depth x lines) : Writes draws depth (limited draws style x) lines := by
  rintro ⟨d, written, cuts⟩ rfl
  simp only [Printer.limited, exec_bind, exec_get, if_neg (Nat.not_lt.mpr hdepth)]
  exact hx ⟨d, written, cuts⟩ rfl

/-- A part for which the printer stands too deep, whatever it is. -/
theorem Writes.limited_elided {x : PrintM Unit} (hdepth : style.maxDepth < depth) :
    Writes draws depth (Printer.limited draws style x) [⟨depth, elided⟩] := by
  rintro ⟨d, written, cuts⟩ rfl
  simp only [Printer.limited, exec_bind (get : PrintM Printer), exec_get, if_pos hdepth]
  exact Yields.cut.writes (.line elided) ⟨d, written, cuts⟩ rfl

/-- A nested part: the printer comes back from where it went. -/
theorem Writes.inside {x : PrintM Unit} {lines : List Line}
    (hx : Writes draws (depth + 1) (Printer.limited draws style x) lines) :
    Writes draws depth (inside draws style x) lines := by
  rintro ⟨d, written, cuts⟩ rfl
  simp only [Printer.inside, stand, exec_bind, exec_get, exec_modify]
  rcases hx ⟨d + 1, written, cuts⟩ rfl with
    ⟨hdraws, cuts, hexec⟩ | ⟨done, last, others, d', cuts, hrest⟩
  · rw [hexec]
    exact .inl ⟨hdraws, cuts, rfl⟩
  · rw [hrest.2.2]
    exact .inr ⟨done, last, others, d', cuts, hrest.1, hrest.2.1, rfl⟩

/-! ## Expressions -/

/-- The text of an expression is found from those of its operands. -/
theorem yields_showExpr {rest : ExprId → PrintM String} {levels : Nat}
    (hrest : ∀ e, Yields (rest e) (exprText p levels e)) (e : ExprId) :
    Yields (showExpr p rest e) (exprText p (levels + 1) e) := by
  rw [showExpr, exprText]
  cases p.expr? e with
  | none => exact .pure _
  | some expr =>
    dsimp only
    cases expr.kind with
    | int value => exact .pure _
    | bool value => exact .pure _
    | str value => exact .pure _
    | symRef sym => exact .pure _
    | call callee args => exact (Yields.mapM hrest args).bind ((hrest callee).bind (.pure _))
    | binary op lhs rhs => exact (hrest lhs).bind ((hrest rhs).bind (.pure _))
    | assign target value => exact (hrest target).bind ((hrest value).bind (.pure _))
    | paren inner => exact (hrest inner).bind (.pure _)

/-- As many calls as levels are left, and one more, show an expression. -/
theorem yields_expr : ∀ {levels calls depth : Nat}, depth + levels = style.maxDepth + 1 →
    levels < calls → ∀ e, Yields (expr style p calls depth e) (exprText p levels e)
  | 0, calls + 1, depth, hdepth, _, e => by
    rw [expr, if_pos (by omega)]
    exact Yields.cut.bind (.pure elided)
  | levels + 1, calls + 1, depth, hdepth, hcalls, e => by
    rw [expr, if_neg (by omega)]
    exact yields_showExpr (yields_expr (by omega) (by omega)) e

theorem yields_showInit {text : ExprId → PrintM String}
    (htext : ∀ e, Yields (text e) (exprText p (style.maxDepth + 1) e)) :
    ∀ init : Option ExprId, Yields (showInit text init)
      (match init with | none => "" | some e => " = " ++ exprText p (style.maxDepth + 1) e)
  | none => .pure _
  | some e => (htext e).bind (.pure _)

/-! ## Symbols, statements and modules -/

section

variable {rest : Part → PrintM Unit} {text : ExprId → PrintM String}
  {nested : List Item → List Line}
  (hnested : ∀ items, Writes draws depth (rest (.nested items)) ((nested items).map (.under depth)))

include hnested

/-- Between braces the lines of the parts are written one level deeper. -/
theorem writes_braced (head : String) (items : List Item) :
    Writes draws depth (writeBraced draws rest head items)
      ((braced head (nested items)).map (.under depth)) := by
  have h := (Writes.head head).append ((hnested items).append (Writes.head "\x7d"))
  simpa [braced, writeBraced] using h

/-- A symbol is written as its lines. -/
theorem writes_symbol (s : SymbolId) :
    Writes draws depth (perform draws style p rest text (.symbol s))
      ((symbolLines p nested s).map (.under depth)) := by
  rw [perform, symbolLines]
  cases p.symbol? s with
  | none => exact .head _
  | some symbol =>
    dsimp only
    cases symbol.kind with
    | var ty => exact .head _
    | param ty => exact .head _
    | func params ret body => exact writes_braced hnested _ _
    | type members => exact writes_braced hnested _ _

/-- A branch is written as its lines. -/
theorem writes_branch (head : String) (s : StmtId) :
    Writes draws depth (perform draws style p rest text (.branch head s))
      ((branchLines p nested head s).map (.under depth)) := by
  rw [perform, branchLines]
  cases (p.stmt? s).bind (·.kind.entries?) with
  | some stmts => exact writes_braced hnested _ _
  | none => exact (Writes.head head).append (hnested [.stmt s])

/-- A statement is written as its lines, if the symbols and branches in it are. -/
theorem writes_stmt
    (hsymbol : ∀ s, Writes draws depth (rest (.symbol s))
      ((symbolLines p nested s).map (.under depth)))
    (hbranch : ∀ head s, Writes draws depth (rest (.branch head s))
      ((branchLines p nested head s).map (.under depth)))
    (htext : ∀ e, Yields (text e) (exprText p (style.maxDepth + 1) e)) (s : StmtId) :
    Writes draws depth (perform draws style p rest text (.stmt s))
      ((stmtLines style p nested s).map (.under depth)) := by
  rw [perform, stmtLines]
  cases p.stmt? s with
  | none => exact .head _
  | some stmt =>
    dsimp only
    cases stmt.kind with
    | expr e => exact (htext e).writes (.head _)
    | decl sym init =>
      dsimp only
      cases p.symbol? sym with
      | none => exact .head _
      | some symbol =>
        by_cases hscope : symbol.kind.declaresScope = true
        · simp only [if_pos hscope]
          exact hsymbol sym
        · simp only [if_neg hscope]
          exact (yields_showInit htext init).writes (.head _)
    | block stmts => exact writes_braced hnested _ _
    | ifElse cond thenBranch elseBranch =>
      refine (htext cond).writes ?_
      rw [List.map_append]
      refine (hbranch _ _).append ?_
      cases elseBranch with
      | none => exact .nothing
      | some s => exact hbranch _ _
    | whileDo cond body => exact (htext cond).writes (hbranch _ _)
    | ret value =>
      cases value with
      | none => exact .head _
      | some e => exact (htext e).writes (.head _)
    | nop => exact .head _

end

/-- A level takes three calls, one for a statement, one for a branch or a symbol in it, and one for
what is nested there.  Where levels end expressions may still begin, and these take a call for each
level. -/
theorem writes_nested {levels : Nat} : ∀ {calls depth : Nat}, depth + levels = style.maxDepth →
    3 * levels + style.maxDepth + 1 ≤ calls → ∀ items,
      Writes draws depth (run draws style p calls (.nested items))
        ((nestedLines style p levels items).map (.under depth)) := by
  induction levels with
  | zero =>
    intro calls depth hdepth hcalls items
    obtain ⟨calls, rfl⟩ := Nat.exists_eq_add_of_le' (Nat.le_trans (Nat.le_add_left 1 _) hcalls)
    rw [run, perform, nestedLines]
    refine .inside ?_
    simpa [Line.under, Nat.add_comm] using
      Writes.limited_elided (show style.maxDepth < depth + 1 by omega)
  | succ levels ih =>
    intro calls depth hdepth hcalls items
    obtain ⟨calls, rfl⟩ := Nat.exists_eq_add_of_le' (show 3 ≤ calls by omega)
    have hnested : ∀ calls, 3 * levels + style.maxDepth + 1 ≤ calls → ∀ items,
        Writes draws (depth + 1) (run draws style p calls (.nested items))
          ((nestedLines style p levels items).map (.under (depth + 1))) :=
      fun _ hcalls => ih (by omega) hcalls
    have hsymbol : ∀ calls, 3 * levels + style.maxDepth + 2 ≤ calls + 1 → ∀ s,
        Writes draws (depth + 1) (run draws style p (calls + 1) (.symbol s))
          ((symbolLines p (nestedLines style p levels) s).map (.under (depth + 1))) :=
      fun calls hcalls => writes_symbol (hnested calls (by omega))
    have hbranch : ∀ head s, Writes draws (depth + 1)
        (run draws style p (calls + 1) (.branch head s))
        ((branchLines p (nestedLines style p levels) head s).map (.under (depth + 1))) :=
      writes_branch (hnested calls (by omega))
    have hstmt : ∀ s, Writes draws (depth + 1) (run draws style p (calls + 2) (.stmt s))
        ((stmtLines style p (nestedLines style p levels) s).map (.under (depth + 1))) :=
      writes_stmt (hnested (calls + 1) (by omega)) (hsymbol calls (by omega)) hbranch
        (yields_expr (by omega) (by omega))
    rw [run, perform, nestedLines, map_under_deeper, List.map_flatMap]
    refine .inside (.limited (by omega) (Writes.forM (fun item => ?_) items))
    cases item with
    | symbol s => exact hsymbol (calls + 1) (by omega) s
    | stmt s => exact hstmt s

/-- A printer writes the lines of the listing, with no more than `Style.callLimit` calls open. -/
theorem writes_module {calls : Nat} (hcalls : style.callLimit ≤ calls) (m : ModuleId) :
    Writes draws 0 (module draws style p calls m) (moduleLines style p m) := by
  rw [Style.callLimit] at hcalls
  obtain ⟨calls, rfl⟩ := Nat.exists_eq_add_of_le' (Nat.le_trans (Nat.le_add_left 1 _) hcalls)
  have hsymbol : ∀ s, Writes draws 0 (run draws style p (calls + 1) (.symbol s))
      ((symbolLines p (nestedLines style p style.maxDepth) s).map (.under 0)) :=
    writes_symbol (writes_nested (Nat.zero_add _) (by omega))
  rw [module, moduleLines]
  cases p.module? m with
  | none => exact .nothing
  | some module =>
    refine (Writes.line _).append (Writes.forM (fun s => ?_) module.symbols)
    have h := hsymbol s
    rwa [List.map_congr_left (fun l _ => l.under_zero), List.map_id'] at h

end Printer

end MiddleEnd.Listing
