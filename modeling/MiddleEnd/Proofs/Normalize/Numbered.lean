import MiddleEnd.Proofs.Context
import MiddleEnd.Proofs.Normalize.Hooks
import MiddleEnd.Proofs.Walk.Beside

/-!
# MiddleEnd.Proofs.Normalize.Numbered

Temporaries under other numbers.  `Program.numbered first k` is a program in which the symbols from
position `first` on are named as temporaries, from number `k` on.  Nothing that the pass reads tells
such programs apart, and every edit that it makes commutes with the numbering (`numbered_*`); a
temporary that is made next gets the name that the numbering gives it.

So the pass does the same on both, from the same place in the tree and whatever it counted before
(`Twin`, `simulates_twin`).
-/

namespace MiddleEnd

open Walk

/-! ## Numbering -/

/-- The symbol at position `i`, named as a temporary if the position is `first` or a later one. -/
def Symbol.numbered (first k i : Nat) (x : Symbol) : Symbol :=
  if first ≤ i then { x with name := "_t" ++ (k + (i - first)).repr } else x

theorem Symbol.kind_numbered (first k i : Nat) (x : Symbol) :
    (x.numbered first k i).kind = x.kind := by
  unfold Symbol.numbered
  split <;> rfl

namespace Program

/-- The program whose symbols from position `first` on are temporaries with the numbers from `k`
on. -/
def numbered (first k : Nat) (p : Program) : Program :=
  { p with symbols := p.symbols.mapIdx (Symbol.numbered first k) }

variable {p : Program} {first k : Nat}

/-- A symbol of the numbered program is the symbol with its number. -/
theorem symbol?_numbered (s : SymbolId) : (p.numbered first k).symbol? s =
    (p.symbol? s).map (Symbol.numbered first k s.index) := by
  simp [symbol?, numbered]

@[simp] theorem stmt?_numbered (s : StmtId) : (p.numbered first k).stmt? s = p.stmt? s := rfl

@[simp] theorem expr?_numbered (e : ExprId) : (p.numbered first k).expr? e = p.expr? e := rfl

/-- Numbering leaves the lists of symbols. -/
theorem symbolList?_numbered (list : SymbolList) :
    (p.numbered first k).symbolList? list = p.symbolList? list := by
  cases list with
  | module m => rfl
  | symbol s => simp [symbolList?, symbol?_numbered, Option.bind_map, Symbol.kind_numbered]

/-- Numbering leaves the lists of statements. -/
theorem stmtList?_numbered (list : StmtList) :
    (p.numbered first k).stmtList? list = p.stmtList? list := by
  cases list with
  | body s => simp [stmtList?, symbol?_numbered, Option.bind_map, Symbol.kind_numbered]
  | block b => rfl

/-- Numbering leaves the branches. -/
theorem stmtAt?_numbered (place : StmtPlace) :
    (p.numbered first k).stmtAt? place = p.stmtAt? place := by
  cases place with
  | entry list i => rw [stmtAt?, stmtAt?, stmtList?_numbered]
  | branch owner which => rfl

/-- Names are not read in a walk. -/
theorem alike_numbered (first k : Nat) (p : Program) : Alike p (p.numbered first k) where
  has := by
    funext n
    cases n with
    | symbol s => simp [has, symbol?_numbered]
    | _ => rfl
  operands := rfl
  stmtAt? := funext stmtAt?_numbered
  declared? := rfl
  children := rfl
  symbolList? := funext symbolList?_numbered
  stmtList? := funext stmtList?_numbered

/-- Where there are no such positions nothing is renamed. -/
theorem numbered_of_size_le (h : p.symbols.size ≤ first) : p.numbered first k = p := by
  have hsame : p.symbols.mapIdx (Symbol.numbered first k) = p.symbols := by
    refine Array.ext (by simp) fun i hi hi' => ?_
    rw [Array.getElem_mapIdx, Symbol.numbered, if_neg (by omega)]
  rw [numbered, hsame]

/-! ## Edits -/

/-- A change to a symbol that has nothing to do with its name may be made before numbering. -/
theorem numbered_updateSymbol {s : SymbolId} {f : Symbol → Symbol}
    (hf : ∀ x, f (x.numbered first k s.index) = (f x).numbered first k s.index) :
    (p.numbered first k).updateSymbol s f = (p.updateSymbol s f).numbered first k := by
  have hsame : (p.symbols.mapIdx (Symbol.numbered first k)).modify s.index f =
      (p.symbols.modify s.index f).mapIdx (Symbol.numbered first k) := by
    refine Array.ext_getElem? fun i => ?_
    simp only [Array.getElem?_modify, Array.getElem?_mapIdx]
    split
    · next h =>
      subst h
      cases p.symbols[s.index]? <;> simp [hf]
    · rfl
  simp only [updateSymbol, numbered, hsame]

/-- A list may be written before numbering. -/
theorem numbered_putStmtList (list : StmtList) (entries : List StmtId) :
    (p.numbered first k).putStmtList list entries =
      (p.putStmtList list entries).numbered first k := by
  cases list with
  | body s =>
    refine numbered_updateSymbol fun x => ?_
    simp only [Symbol.numbered]
    split <;> rfl
  | block b => rfl

/-- A statement may be written before numbering. -/
theorem numbered_updateStmt (s : StmtId) (f : Stmt → Stmt) :
    (p.numbered first k).updateStmt s f = (p.updateStmt s f).numbered first k := rfl

theorem numbered_updateExpr (e : ExprId) (f : Expr → Expr) :
    (p.numbered first k).updateExpr e f = (p.updateExpr e f).numbered first k := rfl

/-- A statement may be added before numbering, under the same id. -/
theorem numbered_addStmt (kind : StmtKind) (line : UInt32) :
    (p.numbered first k).addStmt kind line =
      ((p.addStmt kind line).1, (p.addStmt kind line).2.numbered first k) := rfl

theorem numbered_addExpr (kind : ExprKind) (line : UInt32) :
    (p.numbered first k).addExpr kind line =
      ((p.addExpr kind line).1, (p.addExpr kind line).2.numbered first k) := rfl

/-- An operand may be written before numbering. -/
theorem numbered_setExprAt? (place : ExprPlace) (e : ExprId) :
    (p.numbered first k).setExprAt? place e = (p.setExprAt? place e).map (numbered first k) := by
  obtain ⟨owner, i⟩ := place
  cases owner with
  | stmt s =>
    simp only [setExprAt?, Option.bind_eq_bind, Option.map_bind, Function.comp_def, Option.map_some,
      stmt?_numbered, numbered_updateStmt]
  | expr s =>
    simp only [setExprAt?, Option.bind_eq_bind, Option.map_bind, Function.comp_def, Option.map_some,
      expr?_numbered, numbered_updateExpr]

/-- A branch may be written before numbering. -/
theorem numbered_setStmtAt? (place : StmtPlace) (s : StmtId) :
    (p.numbered first k).setStmtAt? place s = (p.setStmtAt? place s).map (numbered first k) := by
  cases place with
  | entry list i =>
    simp only [setStmtAt?, Option.bind_eq_bind, Option.map_bind, Function.comp_def,
      stmtList?_numbered, numbered_putStmtList, apply_ite, Option.map_some,
      Option.map_none]
  | branch owner which =>
    simp only [setStmtAt?, Option.bind_eq_bind, Option.map_bind, Function.comp_def, Option.map_some,
      stmt?_numbered, numbered_updateStmt]

/-- An entry may be taken out before numbering. -/
theorem numbered_removeStmt? (list : StmtList) (s : StmtId) :
    (p.numbered first k).removeStmt? list s = (p.removeStmt? list s).map (numbered first k) := by
  simp only [removeStmt?, Option.bind_eq_bind, Option.map_bind, Function.comp_def,
    stmtList?_numbered, numbered_putStmtList, apply_ite, Option.map_some,
    Option.map_none]

/-- A statement may be listed before numbering. -/
theorem numbered_insertBefore? (list : StmtList) (anchor s : StmtId) :
    (p.numbered first k).insertBefore? list anchor s =
      (p.insertBefore? list anchor s).map (numbered first k) := by
  simp only [insertBefore?, Option.bind_eq_bind, Option.map_bind, Function.comp_def,
    stmtList?_numbered, numbered_putStmtList, Option.map_some]

/-- The next temporary is named as the numbering says. -/
theorem numbered_addSymbol {n : Nat} (hsize : p.symbols.size = first + n) (kind : SymbolKind)
    (line : UInt32) : (p.numbered first k).addSymbol ("_t" ++ (k + n).repr) kind line =
      ((p.addSymbol ("_t" ++ n.repr) kind line).1,
        (p.addSymbol ("_t" ++ n.repr) kind line).2.numbered first k) := by
  have hname : Symbol.numbered first k p.symbols.size (.new ("_t" ++ n.repr) kind line) =
      .new ("_t" ++ (k + n).repr) kind line := by
    rw [Symbol.numbered, if_pos (by omega), hsize, Nat.add_sub_cancel_left]
    rfl
  simp [addSymbol, numbered, Array.mapIdx_push, hname]

end Program

namespace Normalize

section

variable {p : Program} {first k : Nat}

/-- What is under parentheses does not depend on the names of symbols. -/
theorem underParens?_numbered (steps : Nat) : ∀ e,
    underParens? (p.numbered first k) steps e = underParens? p steps e := by
  induction steps with
  | zero => exact fun _ => rfl
  | succ steps ih =>
    intro e
    simp only [underParens?, Program.expr?_numbered, ih]

/-- Whether a condition may move does not depend on the names of symbols. -/
theorem hoistable?_numbered (s : StmtId) (list : StmtList) :
    hoistable? (p.numbered first k) s list = hoistable? p s list := by
  have hcall : ∀ e, isCall (p.numbered first k) e = isCall p e := fun e => by
    rw [isCall, underParens?_numbered]
    rfl
  simp only [hoistable?, Program.stmt?_numbered, hcall,
    Program.stmtList?_numbered]

/-- A condition is hoisted into the temporary that the numbering names. -/
theorem hoistInto_numbered {n : Nat} (hsize : p.symbols.size = first + n) (s : StmtId)
    (list : StmtList) (cond : ExprId) (line : UInt32) :
    hoistInto (p.numbered first k) s list cond line ("_t" ++ (k + n).repr) =
      (hoistInto p s list cond line ("_t" ++ n.repr)).numbered first k := by
  simp only [hoistInto, Program.numbered_addSymbol hsize, Program.numbered_addStmt,
    Program.numbered_insertBefore?, Option.getD_map, Program.numbered_addExpr,
    Program.numbered_setExprAt?]

end

/-! ## The same pass from somewhere else -/

/-- What was counted in one part and in the next. -/
def Counts.plus (a b : Counts) : Counts :=
  ⟨a.wrappedBranches + b.wrappedBranches, a.hoistedTemps + b.hoistedTemps,
    a.flattenedParens + b.flattenedParens, a.droppedNops + b.droppedNops⟩

/-- The pass stands in `y` as it stands in `x`, where it began with `first` symbols; but it made `k`
temporaries and counted `base` before.  In `x` it made all the symbols from `first` on, and counted
them. -/
structure Twin (first k : Nat) (base : Counts) (x y : Scene Normalizer) : Prop where
  program : y.program = x.program.numbered first k
  rules : y.own.rules = x.own.rules
  level : Context.Level x.own.context y.own.context
  counts : y.own.counts = base.plus x.own.counts
  nextTemp : y.own.nextTemp = k + x.own.nextTemp
  size : x.program.symbols.size = first + x.own.nextTemp
  hoisted : x.own.counts.hoistedTemps = x.own.nextTemp

namespace Twin

variable {first k : Nat} {base : Counts} {x y x' : Scene Normalizer}

/-- Both sides are rewritten, and count it. -/
theorem counted {p q : Program} {c d : Counts} (h : Twin first k base x y)
    (hq : q = p.numbered first k) (hsize : p.symbols.size = x.program.symbols.size)
    (hd : d = base.plus c) (hc : c.hoistedTemps = x.own.counts.hoistedTemps) :
    Twin first k base { x with program := p, own.counts := c }
      { y with program := q, own.counts := d } :=
  ⟨hq, h.rules, h.level, hd, h.nextTemp, hsize.trans h.size, hc.trans h.hoisted⟩

/-- Both sides are rewritten, and do not count it. -/
theorem put {p q : Program} (h : Twin first k base x y) (hq : q = p.numbered first k)
    (hsize : p.symbols.size = x.program.symbols.size) :
    Twin first k base { x with program := p } { y with program := q } :=
  h.counted hq hsize h.counts rfl

/-- Both sides move to contexts that are level. -/
theorem turn {c d : Context} (h : Twin first k base x y) (hcd : Context.Level c d) :
    Twin first k base { x with own.context := c } { y with own.context := d } :=
  ⟨h.program, h.rules, hcd, h.counts, h.nextTemp, h.size, h.hoisted⟩

/-- Twins drop the same statements. -/
theorem dropNop (h : Twin first k base x y) (s : StmtId) (place : StmtPlace) :
    Twin first k base (dropNop s place x) (dropNop s place y) := by
  unfold Normalize.dropNop
  cases place.list? with
  | none => exact h
  | some list =>
    simp only [h.program, Program.numbered_removeStmt?]
    cases hremove : x.program.removeStmt? list s with
    | none => exact h
    | some q =>
      have hsize := (Program.sameSize_removeStmt? hremove).symbols
      exact h.counted rfl hsize (by rw [h.counts]; rfl) rfl

/-- Twins put the same branches into blocks. -/
theorem wrapBranch (h : Twin first k base x y) (place : StmtPlace) :
    Twin first k base (wrapBranch place x) (wrapBranch place y) := by
  unfold Normalize.wrapBranch
  simp only [h.program, Program.stmtAt?_numbered, Program.stmt?_numbered, Program.numbered_addStmt,
    Program.numbered_setStmtAt?]
  split
  · exact h
  split
  · exact h
  next s stmt _ _ =>
  cases hset : (x.program.addStmt (.block [s]) stmt.line).2.setStmtAt? place
      (x.program.addStmt (.block [s]) stmt.line).1 with
  | none => exact h.put rfl rfl
  | some q =>
    have hsize := (Program.sameSize_setStmtAt? hset).symbols
    exact h.counted rfl hsize (by rw [h.counts]; rfl) rfl

theorem foldl_wrapBranch (h : Twin first k base x y) : ∀ places : List StmtPlace,
    Twin first k base (places.foldl (fun scene place => Normalize.wrapBranch place scene) x)
      (places.foldl (fun scene place => Normalize.wrapBranch place scene) y) := by
  intro places
  induction places generalizing x y with
  | nil => exact h
  | cons place places ih => exact ih (h.wrapBranch place)

/-- Twins put the branches of the same statements into blocks. -/
theorem wrapBranches (h : Twin first k base x y) (s : StmtId) :
    Twin first k base (wrapBranches s x) (wrapBranches s y) := by
  unfold Normalize.wrapBranches
  rw [h.program, (Program.alike_numbered first k x.program).children]
  split
  · next places _ => exact h.foldl_wrapBranch places
  · exact h

/-- Twins move the same conditions, under temporaries whose numbers are `k` apart. -/
theorem hoistCondition (h : Twin first k base x y) (s : StmtId) (place : StmtPlace) :
    Twin first k base (hoistCondition s place x) (hoistCondition s place y) := by
  simp only [hoistCondition_eq, h.program, hoistable?_numbered]
  split
  · exact h
  next list cond line _ =>
  obtain ⟨_, hsize, _, _⟩ := size_hoistInto x.program s list cond line
    ("_t" ++ x.own.nextTemp.repr)
  refine ⟨?_, h.rules, h.level, ?_, ?_, ?_, congrArg (· + 1) h.hoisted⟩ <;> dsimp only
  · rw [h.nextTemp, hoistInto_numbered h.size]
  · rw [h.counts]
    rfl
  · rw [h.nextTemp, Nat.add_assoc]
  · rw [hsize, h.size, Nat.add_assoc]

/-- Twins follow the same rules. -/
theorem applyIf {rewrite : Rewrite} (h : Twin first k base x y) (rule : Bool)
    (hrewrite : ∀ {x y}, Twin first k base x y → Twin first k base (rewrite x) (rewrite y)) :
    Twin first k base (applyIf rule rewrite x) (applyIf rule rewrite y) := by
  cases rule
  · exact h
  · exact hrewrite h

/-- Twins rewrite a statement alike. -/
theorem rewriteStmt (h : Twin first k base x y) (s : StmtId) (place : StmtPlace) (isNop : Bool) :
    Twin first k base (rewriteStmt s place isNop x) (rewriteStmt s place isNop y) := by
  have hstmt : y.own.context.enclosingStmt = x.own.context.enclosingStmt :=
    congrArg Around.stmt h.level.around_eq
  have hsymbol : y.own.context.enclosingSymbol = x.own.context.enclosingSymbol :=
    congrArg Around.symbol h.level.around_eq
  unfold Normalize.rewriteStmt
  dsimp only
  rw [h.rules, h.program, hstmt, hsymbol]
  refine (((h.put ?_ ?_).applyIf _ (dropNop · s place)).applyIf _ (wrapBranches · s)).applyIf _
    (hoistCondition · s place)
  · rfl
  · rfl

/-! ## Hooks -/

/-- Twins keep track of the place alike. -/
theorem exec_move {step : ContextM Unit} (hstep : Context.Levels step) (h : Twin first k base x y)
    (hx : exec (move step) x = (.ok (), x')) :
    ∃ y', exec (move step) y = (.ok (), y') ∧ Twin first k base x' y' := by
  rw [Normalize.exec_move] at hx ⊢
  rcases hc : exec step x.own.context with ⟨_ | ⟨⟩, c⟩ <;> rw [hc] at hx <;> cases hx
  obtain ⟨d, hd, hlevel⟩ := hstep _ _ _ h.level hc
  rw [hd]
  exact ⟨_, rfl, h.turn hlevel⟩

/-- Where one twin enters a symbol the other does. -/
theorem exec_preSymbol (h : Twin first k base x y) (s : SymbolId)
    (hx : exec (preSymbol s) x = (.ok (), x')) :
    ∃ y', exec (preSymbol s) y = (.ok (), y') ∧ Twin first k base x' y' := by
  have howner : y.own.context.ownerScope = x.own.context.ownerScope :=
    congrArg Around.scope h.level.around_eq
  rw [Normalize.exec_preSymbol, Program.symbol] at hx ⊢
  rw [h.program, Program.symbol?_numbered]
  cases hsymbol : x.program.symbol? s with
  | none => rw [hsymbol] at hx; cases hx
  | some z =>
    rw [hsymbol] at hx
    cases hx
    obtain ⟨d, hd, hlevel⟩ := Context.levels_enterSymbol s _ _ _ h.level rfl
    cases hd
    refine ⟨_, rfl, (h.put ?_ ?_).turn hlevel⟩
    · rw [howner]
      refine Program.numbered_updateSymbol fun z => ?_
      simp only [Symbol.numbered]
      split <;> rfl
    · exact (Program.sameSize_updateSymbol s _).symbols

/-- Where one twin enters a statement the other does. -/
theorem exec_preStmt (h : Twin first k base x y) (s : StmtId) (place : StmtPlace)
    (hx : exec (preStmt s place) x = (.ok (), x')) :
    ∃ y', exec (preStmt s place) y = (.ok (), y') ∧ Twin first k base x' y' := by
  rw [Normalize.exec_preStmt, Program.stmt] at hx ⊢
  rw [h.program, Program.stmt?_numbered]
  cases hstmt : x.program.stmt? s with
  | none => rw [hstmt] at hx; cases hx
  | some z =>
    rw [hstmt] at hx
    cases hx
    have hrewritten := h.rewriteStmt s place (z.kind = .nop)
    obtain ⟨d, hd, hlevel⟩ := Context.levels_enterStmt s _ _ _ hrewritten.level rfl
    cases hd
    exact ⟨_, rfl, hrewritten.turn hlevel⟩

/-- Where one twin enters an expression the other does. -/
theorem exec_preExpr (h : Twin first k base x y) (e : ExprId) (place : ExprPlace)
    (hx : exec (preExpr e place) x = (.ok (), x')) :
    ∃ y', exec (preExpr e place) y = (.ok (), y') ∧ Twin first k base x' y' := by
  have hstmt : y.own.context.enclosingStmt = x.own.context.enclosingStmt :=
    congrArg Around.stmt h.level.around_eq
  have hsymbol : y.own.context.enclosingSymbol = x.own.context.enclosingSymbol :=
    congrArg Around.symbol h.level.around_eq
  rw [Normalize.exec_preExpr, Program.expr] at hx ⊢
  simp only [h.program, hstmt, hsymbol, Program.expr?_numbered]
  cases henclosing : x.own.context.enclosingStmt with
  | none => rw [henclosing] at hx; cases hx
  | some enclosing =>
    rw [henclosing] at hx
    cases hexpr : x.program.expr? e with
    | none => rw [hexpr] at hx; cases hx
    | some z =>
      rw [hexpr] at hx
      have hset : (flattened? y.own.rules z).bind ((x.program.numbered first k).setExprAt? place) =
          ((flattened? x.own.rules z).bind (x.program.setExprAt? place)).map
            (Program.numbered first k) := by
        rw [h.rules, Option.map_bind]
        exact congrArg _ (funext fun inner => Program.numbered_setExprAt? place inner)
      dsimp only at hx ⊢
      rw [hset]
      cases hq : (flattened? x.own.rules z).bind (x.program.setExprAt? place) with
      | none =>
        rw [hq] at hx
        cases hx
        exact ⟨_, rfl, h.put rfl rfl⟩
      | some q =>
        rw [hq] at hx
        cases hx
        obtain ⟨inner, _, hinner⟩ := Option.bind_eq_some_iff.mp hq
        have hsize := (Program.sameSize_setExprAt? place hinner).symbols
        exact ⟨_, rfl, h.counted rfl hsize (by rw [h.counts]; rfl) rfl⟩

end Twin

/-- The hooks do the same on both sides. -/
theorem simulates_twin (first k : Nat) (base : Counts) :
    Simulates hooks (Twin first k base) where
  alike {x y} h := by
    rw [h.program]
    exact Program.alike_numbered first k x.program
  hook {_ _ x x' y} hat h hx := by
    cases hat with
    | preSymbol s => exact h.exec_preSymbol s hx
    | preStmt s place => exact h.exec_preStmt s place hx
    | preExpr e place => exact h.exec_preExpr e place hx
    | postSymbol s =>
      rw [hooks_postSymbol] at hx ⊢
      exact h.exec_move (Context.levels_leaveSymbol s) hx
    | postStmt s =>
      rw [hooks_postStmt] at hx ⊢
      exact h.exec_move (Context.levels_leaveStmt s) hx
    | postExpr e =>
      cases hx
      exact ⟨y, rfl, h⟩

end Normalize

end MiddleEnd
