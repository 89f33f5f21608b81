import MiddleEnd.Proofs.Listing.Printer

/-!
# MiddleEnd.Proofs.Listing.Depth

How deep a listing goes, and what its limit changes.

No line of a listing is deeper than one level below the limit (`within_moduleLines`).  `Agrees`
compares two printers step by step: more calls change nothing if fewer were enough, and a higher
limit changes nothing if the lower one left nothing out (`agrees_module`).  With the lines of a
printer from `Printer.writes_module`, this says how printing ends (`print_ends`), for circular
programs too.
-/

namespace MiddleEnd.Listing

open Walk (exec exec_bind exec_bind_ok exec_bind_error exec_get exec_set)

/-! ## Levels -/

/-- No line is deeper than this level. -/
def Within (level : Nat) (lines : List Line) : Prop := ∀ l ∈ lines, l.level ≤ level

section

variable {style : Style} {p : Program} {level : Nat} {nested : List Item → List Line}

theorem Within.nil : Within level [] := fun _ h => nomatch h

theorem Within.cons {text : String} {lines : List Line} (h : Within level lines) :
    Within level (⟨0, text⟩ :: lines) := by
  intro l hl
  rcases List.mem_cons.mp hl with rfl | hl
  · exact Nat.zero_le _
  · exact h l hl

/-- Lines that stay in a level do so one after the other. -/
theorem Within.append {first second : List Line} (hfirst : Within level first)
    (hsecond : Within level second) : Within level (first ++ second) := fun l hl =>
  (List.mem_append.mp hl).elim (hfirst l) (hsecond l)

/-- The lines of several things stay in a level if those of each do. -/
theorem Within.flatMap {α : Type} {f : α → List Line} (h : ∀ a, Within level (f a)) (as : List α) :
    Within level (as.flatMap f) := by
  intro l hl
  obtain ⟨a, -, hl⟩ := List.mem_flatMap.mp hl
  exact h a l hl

/-- Lines that are put inside of something are one level deeper. -/
theorem Within.deeper {lines : List Line} (h : Within level lines) :
    Within (level + 1) (lines.map Line.deeper) := by
  intro l hl
  obtain ⟨l', hl', rfl⟩ := List.mem_map.mp hl
  exact Nat.succ_le_succ (h l' hl')

section

variable (hnested : ∀ items, Within level (nested items))

include hnested

/-- What stands between braces is in the level of what is nested. -/
theorem within_braced (head : String) (items : List Item) :
    Within level (braced head (nested items)) :=
  ((hnested items).append Within.nil.cons).cons

/-- A symbol is in the level of what is nested in it. -/
theorem within_symbolLines (s : SymbolId) : Within level (symbolLines p nested s) := by
  rw [symbolLines]
  cases p.symbol? s with
  | none => exact Within.nil.cons
  | some symbol =>
    dsimp only
    cases symbol.kind with
    | var ty => exact Within.nil.cons
    | param ty => exact Within.nil.cons
    | func params ret body => exact within_braced hnested _ _
    | type members => exact within_braced hnested _ _

/-- A branch is in the level of what is nested in it. -/
theorem within_branchLines (head : String) (s : StmtId) :
    Within level (branchLines p nested head s) := by
  rw [branchLines]
  cases (p.stmt? s).bind (·.kind.entries?) with
  | some stmts => exact within_braced hnested _ _
  | none => exact (hnested _).cons

/-- A statement is in the level of what is nested in it. -/
theorem within_stmtLines (s : StmtId) : Within level (stmtLines style p nested s) := by
  rw [stmtLines]
  cases p.stmt? s with
  | none => exact Within.nil.cons
  | some stmt =>
    dsimp only
    cases stmt.kind with
    | expr e => exact Within.nil.cons
    | decl sym init =>
      dsimp only
      cases p.symbol? sym with
      | none => exact Within.nil.cons
      | some symbol =>
        by_cases hscope : symbol.kind.declaresScope = true
        · simp only [if_pos hscope]
          exact within_symbolLines hnested sym
        · simp only [if_neg hscope]
          exact Within.nil.cons
    | block stmts => exact within_braced hnested _ _
    | ifElse cond thenBranch elseBranch =>
      refine (within_branchLines hnested _ _).append ?_
      cases elseBranch with
      | none => exact .nil
      | some s => exact within_branchLines hnested _ _
    | whileDo cond body => exact within_branchLines hnested _ _
    | ret value => cases value <;> exact Within.nil.cons
    | nop => exact Within.nil.cons

end

/-- So many levels of nested parts reach one level deeper than that. -/
theorem within_nestedLines : ∀ (levels : Nat) (items : List Item),
    Within (levels + 1) (nestedLines style p levels items)
  | 0, items => by
    rw [nestedLines]
    exact fun l hl => Nat.le_of_eq (congrArg Line.level (List.mem_singleton.mp hl))
  | levels + 1, items => by
    rw [nestedLines]
    refine Within.deeper (Within.flatMap (fun item => ?_) items)
    cases item with
    | symbol s => exact within_symbolLines (within_nestedLines levels) s
    | stmt s => exact within_stmtLines (within_nestedLines levels) s

/-- What is left out stands one level below the limit, and nothing stands deeper. -/
theorem within_moduleLines (m : ModuleId) :
    Within (style.maxDepth + 1) (moduleLines style p m) := by
  rw [moduleLines]
  cases p.module? m with
  | none => exact .nil
  | some module =>
    exact (Within.flatMap (within_symbolLines (within_nestedLines style.maxDepth))
      module.symbols).cons

end

/-! ## Another limit -/

/-- The same style with another limit. -/
def Style.upTo (style : Style) (maxDepth : Nat) : Style := { style with maxDepth }

namespace Printer

variable {α β : Type} {draws : Line → Bool} {style : Style} {maxDepth : Nat} {p : Program}

/-- The second printer does what the first does if that had enough calls and, unless both have the
same limit, left nothing out. -/
def Agrees (same : Prop) (x y : PrintM α) : Prop :=
  ∀ printer : Printer, printer.cuts ≤ (exec x printer).2.cuts ∧
    ((exec x printer).1 ≠ .error .tooManyCalls →
      same ∨ (exec x printer).2.cuts = printer.cuts → exec y printer = exec x printer)

section

variable {same : Prop}

/-- Printers that do nothing agree. -/
theorem Agrees.pure (a : α) : Agrees same (pure a : PrintM α) (pure a) :=
  fun _ => ⟨Nat.le_refl _, fun _ _ => rfl⟩

theorem Agrees.get : Agrees same (get : PrintM Printer) get :=
  fun _ => ⟨Nat.le_refl _, fun _ _ => rfl⟩

theorem Agrees.stand (depth : Nat) : Agrees same (stand depth) (Printer.stand depth) :=
  fun _ => ⟨Nat.le_refl _, fun _ _ => rfl⟩

/-- Whether a line can be written does not depend on the limit. -/
theorem Agrees.write (text : String) :
    Agrees same (write draws text) (Printer.write draws text) := by
  refine fun printer => ⟨?_, fun _ _ => rfl⟩
  simp only [Printer.write, exec_bind, exec_get, exec_set]
  split <;> exact Nat.le_refl _

/-- A printer that had too few calls agrees with any. -/
theorem Agrees.tooManyCalls (y : PrintM α) : Agrees same (throw .tooManyCalls) y :=
  fun _ => ⟨Nat.le_refl _, fun hcalls => absurd rfl hcalls⟩

/-- Printers agree on steps in a row, since what is left out is counted and never taken back. -/
theorem Agrees.bind {x y : PrintM α} {f g : α → PrintM β} (hx : Agrees same x y)
    (hf : ∀ a, Agrees same (f a) (g a)) : Agrees same (x >>= f) (y >>= g) := by
  intro printer
  obtain ⟨hcuts, hagrees⟩ := hx printer
  rcases hexec : exec x printer with ⟨e | a, printer'⟩
  · rw [exec_bind_error hexec]
    rw [hexec] at hcuts hagrees
    refine ⟨hcuts, fun hcalls hsame => exec_bind_error (hagrees (fun herror => hcalls ?_) hsame)⟩
    cases herror
    rfl
  · rw [exec_bind_ok hexec]
    rw [hexec] at hcuts hagrees
    obtain ⟨hcuts', hagrees'⟩ := hf a printer'
    refine ⟨Nat.le_trans hcuts hcuts', fun hcalls hsame => ?_⟩
    -- cuts only grow: where none are left at the end, none were made on the way
    have hy := hagrees nofun (hsame.imp_right fun heq => by simp only at hcuts ⊢; omega)
    rw [exec_bind_ok hy]
    exact hagrees' hcalls (hsame.imp_right fun heq => by simp only at hcuts ⊢; omega)

/-- Printers that agree on each text agree on all of them. -/
theorem Agrees.mapM {f g : α → PrintM β} (h : ∀ a, Agrees same (f a) (g a)) :
    ∀ as : List α, Agrees same (as.mapM f) (as.mapM g)
  | [] => .pure []
  | a :: as => by
    rw [List.mapM_cons, List.mapM_cons]
    exact (h a).bind fun _ => (Agrees.mapM h as).bind fun _ => .pure _

/-- Printers that agree on each part agree on all of them. -/
theorem Agrees.forM {f g : α → PrintM Unit} (h : ∀ a, Agrees same (f a) (g a)) :
    ∀ as : List α, Agrees same (as.forM f) (as.forM g)
  | [] => .pure ()
  | a :: as => (h a).bind fun _ => Agrees.forM h as

/-- Where something is left out, only a printer with the same limit agrees. -/
theorem Agrees.cut {f : Unit → PrintM α} {y : PrintM α} (hf : ∀ a, Agrees same (f a) (f a))
    (hy : same → y = cut >>= f) : Agrees same (Printer.cut >>= f) y := by
  intro printer
  have hcuts := (hf () { printer with cuts := printer.cuts + 1 }).1
  have hexec : exec (Printer.cut >>= f) printer =
      exec (f ()) { printer with cuts := printer.cuts + 1 } := exec_bind_ok rfl
  rw [hexec]
  refine ⟨by simp only at hcuts; omega, fun _ hsame => ?_⟩
  rcases hsame with hsame | hsame
  · rw [hy hsame, hexec]
  · simp only at hcuts
    omega

end

/-- What is not too deep for the first printer is not too deep for the second. -/
theorem Agrees.limit (hle : style.maxDepth ≤ maxDepth) (depth : Nat) {f : Unit → PrintM α}
    {x y : PrintM α} (hf : ∀ a, Agrees (style.maxDepth = maxDepth) (f a) (f a))
    (hx : Agrees (style.maxDepth = maxDepth) x y) :
    Agrees (style.maxDepth = maxDepth) (if style.maxDepth < depth then Printer.cut >>= f else x)
      (if (style.upTo maxDepth).maxDepth < depth then Printer.cut >>= f else y) := by
  have hmaxDepth : (style.upTo maxDepth).maxDepth = maxDepth := rfl
  rw [hmaxDepth]
  by_cases hdepth : style.maxDepth < depth
  · rw [if_pos hdepth]
    exact .cut hf fun hsame => if_pos (hsame ▸ hdepth)
  · rw [if_neg hdepth, if_neg (by omega)]
    exact hx

/-- Printers agree on parts that are shown within a limit, if the second one's is higher. -/
theorem Agrees.limited {x y : PrintM Unit} (hle : style.maxDepth ≤ maxDepth)
    (hx : Agrees (style.maxDepth = maxDepth) x y) :
    Agrees (style.maxDepth = maxDepth) (limited draws style x)
      (limited draws (style.upTo maxDepth) y) :=
  Agrees.get.bind fun printer => .limit hle printer.depth (fun _ => .write _) hx

theorem Agrees.inside {x y : PrintM Unit} (hle : style.maxDepth ≤ maxDepth)
    (hx : Agrees (style.maxDepth = maxDepth) x y) :
    Agrees (style.maxDepth = maxDepth) (inside draws style x)
      (inside draws (style.upTo maxDepth) y) :=
  Agrees.get.bind fun _ => (Agrees.stand _).bind fun _ => (hx.limited hle).bind fun _ =>
    Agrees.get.bind fun _ => .stand _

/-- Printers that agree on the operands agree on an expression. -/
theorem agrees_showExpr {same : Prop} {rest rest' : ExprId → PrintM String}
    (hrest : ∀ e, Agrees same (rest e) (rest' e)) (e : ExprId) :
    Agrees same (showExpr p rest e) (showExpr p rest' e) := by
  rw [showExpr, showExpr]
  cases p.expr? e with
  | none => exact .pure _
  | some expr =>
    dsimp only
    cases expr.kind with
    | int value => exact .pure _
    | bool value => exact .pure _
    | str value => exact .pure _
    | symRef sym => exact .pure _
    | call callee args =>
      exact (Agrees.mapM hrest args).bind fun _ => (hrest callee).bind fun _ => .pure _
    | binary op lhs rhs => exact (hrest lhs).bind fun _ => (hrest rhs).bind fun _ => .pure _
    | assign target value => exact (hrest target).bind fun _ => (hrest value).bind fun _ => .pure _
    | paren inner => exact (hrest inner).bind fun _ => .pure _

/-- Printers agree on expressions, if the second has a higher limit and no fewer calls. -/
theorem agrees_expr (hle : style.maxDepth ≤ maxDepth) : ∀ {calls calls' : Nat}, calls ≤ calls' →
    ∀ (depth : Nat) (e : ExprId), Agrees (style.maxDepth = maxDepth) (expr style p calls depth e)
      (expr (style.upTo maxDepth) p calls' depth e)
  | 0, _, _, _, _ => .tooManyCalls _
  | calls + 1, calls' + 1, hcalls, depth, e => by
    rw [expr, expr]
    exact .limit hle depth (fun _ => .pure _)
      (agrees_showExpr (agrees_expr hle (Nat.le_of_succ_le_succ hcalls) (depth + 1)) e)

section

variable {rest rest' : Part → PrintM Unit} {text text' : ExprId → PrintM String} {same : Prop}

/-- Printers that agree on the parts agree on them between braces. -/
theorem agrees_writeBraced (hrest : ∀ part, Agrees same (rest part) (rest' part)) (head : String)
    (items : List Item) :
    Agrees same (writeBraced draws rest head items) (writeBraced draws rest' head items) :=
  (Agrees.write _).bind fun _ => (hrest _).bind fun _ => .write _

theorem agrees_showInit (htext : ∀ e, Agrees same (text e) (text' e)) :
    ∀ init : Option ExprId, Agrees same (showInit text init) (showInit text' init)
  | none => .pure _
  | some e => (htext e).bind fun _ => .pure _

/-- A call agrees if the calls do that come up on the way. -/
theorem agrees_perform (hle : style.maxDepth ≤ maxDepth)
    (hrest : ∀ part, Agrees (style.maxDepth = maxDepth) (rest part) (rest' part))
    (htext : ∀ e, Agrees (style.maxDepth = maxDepth) (text e) (text' e)) :
    ∀ part, Agrees (style.maxDepth = maxDepth) (perform draws style p rest text part)
      (perform draws (style.upTo maxDepth) p rest' text' part)
  | .symbol s => by
    rw [perform, perform]
    cases p.symbol? s with
    | none => exact .write _
    | some symbol =>
      dsimp only
      cases symbol.kind with
      | var ty => exact .write _
      | param ty => exact .write _
      | func params ret body => exact agrees_writeBraced hrest _ _
      | type members => exact agrees_writeBraced hrest _ _
  | .stmt s => by
    rw [perform, perform]
    cases p.stmt? s with
    | none => exact .write _
    | some stmt =>
      dsimp only
      cases stmt.kind with
      | expr e => exact (htext e).bind fun _ => .write _
      | decl sym init =>
        dsimp only
        cases p.symbol? sym with
        | none => exact .write _
        | some symbol =>
          by_cases hscope : symbol.kind.declaresScope = true
          · simp only [if_pos hscope]
            exact hrest _
          · simp only [if_neg hscope]
            exact (agrees_showInit htext init).bind fun _ => .write _
      | block stmts => exact agrees_writeBraced hrest _ _
      | ifElse cond thenBranch elseBranch =>
        refine (htext cond).bind fun _ => (hrest _).bind fun _ => ?_
        cases elseBranch with
        | none => exact .pure ()
        | some s => exact hrest _
      | whileDo cond body => exact (htext cond).bind fun _ => hrest _
      | ret value =>
        cases value with
        | none => exact .write _
        | some e => exact (htext e).bind fun _ => .write _
      | nop => exact .write _
  | .branch head s => by
    rw [perform, perform]
    cases (p.stmt? s).bind (·.kind.entries?) with
    | some stmts => exact agrees_writeBraced hrest _ _
    | none => exact (Agrees.write _).bind fun _ => hrest _
  | .nested items => .inside hle (Agrees.forM (fun item => hrest (.ofItem item)) items)

end

/-- Printers agree on parts, if the second has a higher limit and no fewer calls. -/
theorem agrees_run (hle : style.maxDepth ≤ maxDepth) : ∀ {calls calls' : Nat}, calls ≤ calls' →
    ∀ part, Agrees (style.maxDepth = maxDepth) (run draws style p calls part)
      (run draws (style.upTo maxDepth) p calls' part)
  | 0, _, _, _ => .tooManyCalls _
  | _ + 1, _ + 1, hcalls, part =>
    have hle' := Nat.le_of_succ_le_succ hcalls
    agrees_perform hle (agrees_run hle hle') (agrees_expr hle hle' 0) part

/-- Printers of a module agree, where the second may have more calls and a higher limit. -/
theorem agrees_module (hle : style.maxDepth ≤ maxDepth) {calls calls' : Nat}
    (hcalls : calls ≤ calls')
    (m : ModuleId) : Agrees (style.maxDepth = maxDepth) (module draws style p calls m)
      (module draws (style.upTo maxDepth) p calls' m) := by
  rw [module, module]
  cases p.module? m with
  | none => exact .pure ()
  | some module =>
    exact (Agrees.write _).bind fun _ =>
      Agrees.forM (fun s => agrees_run hle hcalls (.symbol s)) module.symbols

end Printer

/-! ## How printing ends -/

/-- What a caller gets: the text, the fault of a line that cannot be drawn, or nothing as long as
there are calls to make. -/
def Printer.answer? (style : Style) : Except Stop Unit × Printer → Option (Except Fault String)
  | (.ok (), printer) => some (.ok (printer.text style))
  | (.error (.fault fault), _) => some (.error fault)
  | (.error .tooManyCalls, _) => none

section

variable (draws : Line → Bool) (style : Style) (p : Program) (m : ModuleId)

/-- All lines of the listing are written, or those up to one that cannot be drawn. -/
theorem print_cases :
    ((moduleLines style p m).all draws = true ∧ ∃ cuts,
      print draws style p m = (.ok (), ⟨0, moduleLines style p m, cuts⟩)) ∨
    ∃ done last others depth cuts, moduleLines style p m = done ++ last :: others ∧
      draws last = false ∧
      print draws style p m = (.error (.fault .textTooLong), ⟨depth, done ++ [last], cuts⟩) :=
  Printer.writes_module (Nat.le_refl _) m .start rfl

/-- Printing a module never runs out of calls. -/
theorem print_ne_tooManyCalls : (print draws style p m).1 ≠ .error .tooManyCalls := by
  rcases print_cases draws style p m with ⟨-, cuts, hprint⟩ | ⟨_, _, _, _, _, -, -, hprint⟩ <;>
    rw [hprint] <;> exact nofun

/-- Calls beyond `Style.callLimit` are not made. -/
theorem print_of_callLimit_le {calls : Nat} (hcalls : style.callLimit ≤ calls) :
    exec (Printer.module draws style p calls m) .start = print draws style p m :=
  (Printer.agrees_module (Nat.le_refl style.maxDepth) hcalls m .start).2
    (print_ne_tooManyCalls draws style p m) (.inl rfl)

/-- Where nothing is left out, nothing comes to light with a higher limit. -/
theorem print_upTo {maxDepth : Nat} (hle : style.maxDepth ≤ maxDepth)
    (hcuts : (print draws style p m).2.cuts = 0) :
    print draws (style.upTo maxDepth) p m = print draws style p m := by
  have hcalls : style.callLimit ≤ (style.upTo maxDepth).callLimit := by
    simp only [Style.callLimit, Style.upTo]
    omega
  exact (Printer.agrees_module hle hcalls m .start).2 (print_ne_tooManyCalls draws style p m)
    (.inr hcuts)

/-- The text of a module is what a printer answers that draws the lines that fit. -/
theorem answer?_print :
    Printer.answer? style (print (Line.fits style) style p m) =
      some (checkedModuleText style p m) := by
  rw [checkedModuleText]
  rcases print_cases (Line.fits style) style p m with
    ⟨hfits, cuts, hprint⟩ | ⟨done, last, others, depth, cuts, hlines, hlast, hprint⟩
  · rw [hprint, if_pos hfits]
    rfl
  · have hfits : (moduleLines style p m).all (Line.fits style) = false := by
      rw [hlines, List.all_append, List.all_cons, hlast, Bool.false_and, Bool.and_false]
    rw [hprint, if_neg (Bool.eq_false_iff.mp hfits)]
    rfl

/-- A printer writes lines of the listing only. -/
theorem mem_moduleLines_of_mem_print {l : Line} (hl : l ∈ (print draws style p m).2.lines) :
    l ∈ moduleLines style p m := by
  rcases print_cases draws style p m with
    ⟨-, cuts, hprint⟩ | ⟨done, last, others, depth, cuts, hlines, -, hprint⟩
  · rwa [hprint] at hl
  · rw [hprint] at hl
    rw [hlines, ← List.singleton_append, ← List.append_assoc]
    exact List.mem_append_left _ hl

/-- Where the deepest line that there may be can be drawn, every line can. -/
theorem checkedModuleText_of_room (hroom : (style.maxDepth + 1) * style.indent < sizeLimit) :
    checkedModuleText style p m = .ok (moduleText style p m) := by
  have hfits : ∀ l ∈ moduleLines style p m, l.fits style = true := fun l hl =>
    decide_eq_true (Nat.lt_of_le_of_lt (Nat.mul_le_mul_right _ (within_moduleLines m l hl)) hroom)
  rw [checkedModuleText, if_pos (List.all_eq_true.mpr hfits)]

/-- The standard style asks for too many spaces in no program. -/
theorem checkedModuleText_standard :
    checkedModuleText .standard p m = .ok (moduleText .standard p m) :=
  checkedModuleText_of_room .standard p m (by decide)

end

/-- Printing a module ends, whatever the program, the module and the style are, and whichever lines
can be drawn: no more than `Style.callLimit` calls are ever open.  Either the printer has written
the whole listing and stands at depth 0, or it stopped at a line that cannot be drawn; either way no
line is deeper than one level below the limit.  If nothing was left out, neither a nested part nor
an operand, every higher limit leads to the very same.

Of a text it is only asked that no line begins with more spaces than can be drawn (`sizeLimit`).
`checkedModuleText` is what a printer answers that draws the lines with fewer, so it is the listing
unless a line needs more, and the limit changes it as little. -/
theorem print_ends (draws : Line → Bool) (style : Style) (p : Program) (m : ModuleId) :
    (∀ calls, style.callLimit ≤ calls →
      exec (Printer.module draws style p calls m) .start = print draws style p m) ∧
    ((print draws style p m).1 = .ok () ∧ (print draws style p m).2.depth = 0 ∧
        (print draws style p m).2.lines = moduleLines style p m ∨
      (print draws style p m).1 = .error (.fault .textTooLong) ∧
        ∃ l ∈ (print draws style p m).2.lines, draws l = false) ∧
    (∀ l ∈ (print draws style p m).2.lines,
      l.level * style.indent ≤ (style.maxDepth + 1) * style.indent) ∧
    ((print draws style p m).2.cuts = 0 → ∀ maxDepth, style.maxDepth < maxDepth →
      print draws (style.upTo maxDepth) p m = print draws style p m) ∧
    Printer.answer? style (print (Line.fits style) style p m) = some (checkedModuleText style p m) ∧
    ((style.maxDepth + 1) * style.indent < sizeLimit →
      checkedModuleText style p m = .ok (moduleText style p m)) ∧
    ((print (Line.fits style) style p m).2.cuts = 0 → ∀ maxDepth, style.maxDepth < maxDepth →
      checkedModuleText (style.upTo maxDepth) p m = checkedModuleText style p m) := by
  refine ⟨fun _ => print_of_callLimit_le draws style p m, ?_, fun l hl => ?_, fun hcuts _ hlt =>
    print_upTo draws style p m (Nat.le_of_lt hlt) hcuts, answer?_print style p m,
    checkedModuleText_of_room style p m, fun hcuts maxDepth hlt => ?_⟩
  · rcases print_cases draws style p m with
      ⟨-, cuts, hprint⟩ | ⟨done, last, others, depth, cuts, -, hlast, hprint⟩
    · rw [hprint]
      exact .inl ⟨rfl, rfl, rfl⟩
    · rw [hprint]
      exact .inr ⟨rfl, last, List.mem_append_right _ List.mem_cons_self, hlast⟩
  · have hlevel := within_moduleLines m l (mem_moduleLines_of_mem_print draws style p m hl)
    exact Nat.mul_le_mul_right _ hlevel
  · have hprint : print (Line.fits (style.upTo maxDepth)) (style.upTo maxDepth) p m =
        print (Line.fits style) style p m := print_upTo _ style p m (Nat.le_of_lt hlt) hcuts
    have hanswer := answer?_print (style.upTo maxDepth) p m
    rw [hprint] at hanswer
    exact Option.some.inj (hanswer.symm.trans (answer?_print style p m))

/-- A function with a block, in it a loop whose condition is `((true))`.  The body of the loop is
the block again if `circular`, and an empty statement otherwise. -/
def looping (circular : Bool) : Program where
  modules := #[⟨"m", "m.w", none, [⟨0⟩]⟩]
  symbols := #[.new "f" (.func [] none [⟨0⟩]) 1]
  stmts := #[.new (.block [⟨1⟩]) 2,
    .new (.whileDo ⟨0⟩ (if circular then ⟨0⟩ else ⟨2⟩)) 3, .new .nop 4]
  exprs := #[.new (.paren ⟨1⟩) 3, .new (.paren ⟨2⟩) 3, .new (.bool true) 3]

/-- Three levels show everything, and so does every higher limit. -/
theorem print_ends_looping :
    (print (Line.fits ⟨2, 3⟩) ⟨2, 3⟩ (looping false) ⟨0⟩).2.cuts = 0 ∧
    checkedModuleText ⟨2, 1000⟩ (looping false) ⟨0⟩ =
      checkedModuleText ⟨2, 3⟩ (looping false) ⟨0⟩ := by
  have hcuts : (print (Line.fits ⟨2, 3⟩) ⟨2, 3⟩ (looping false) ⟨0⟩).2.cuts = 0 := by decide +kernel
  obtain ⟨-, -, -, -, -, -, hsame⟩ := print_ends (Line.fits ⟨2, 3⟩) ⟨2, 3⟩ (looping false) ⟨0⟩
  exact ⟨hcuts, hsame hcuts 1000 (by decide)⟩

example : (print (Line.fits ⟨2, 3⟩) ⟨2, 3⟩ (looping true) ⟨0⟩).2.lines.map Line.level =
    [0, 0, 1, 2, 3, 4, 3, 2, 1, 0] := by decide +kernel

end MiddleEnd.Listing
