import MiddleEnd.Proofs.Normalize.Canonical
import MiddleEnd.Proofs.Walk.Forest

/-!
# MiddleEnd.Proofs.Normalize.Hooks

The hooks of the pass one by one: that none of them makes an arena smaller, whether it refuses or
not (`larger_local`), and what each of them does where it accepts.
-/

namespace MiddleEnd

/-! ## What the edits keep -/

namespace Program

variable {p q : Program}

/-- Writing an operand makes no node. -/
theorem sameSize_setExprAt? (place : ExprPlace) {e : ExprId} (h : p.setExprAt? place e = some q) :
    SameSize p q := by
  obtain ⟨owner, i⟩ := place
  cases owner with
  | stmt s =>
    simp only [setExprAt?, Option.bind_eq_bind, Option.bind_eq_some_iff, Option.some.injEq] at h
    obtain ⟨_, _, _, _, rfl⟩ := h
    exact sameSize_updateStmt _ _
  | expr s =>
    simp only [setExprAt?, Option.bind_eq_bind, Option.bind_eq_some_iff, Option.some.injEq] at h
    obtain ⟨_, _, _, _, rfl⟩ := h
    exact sameSize_updateExpr _ _

/-- Writing a branch makes no node. -/
theorem sameSize_setStmtAt? {place : StmtPlace} {s : StmtId} (h : p.setStmtAt? place s = some q) :
    SameSize p q := by
  cases place with
  | entry list i =>
    simp only [setStmtAt?, Option.bind_eq_bind, Option.bind_eq_some_iff,
      Option.ite_none_right_eq_some, Option.some.injEq] at h
    obtain ⟨_, _, _, rfl⟩ := h
    exact sameSize_putStmtList _ _
  | branch owner which =>
    simp only [setStmtAt?, Option.bind_eq_bind, Option.bind_eq_some_iff, Option.some.injEq] at h
    obtain ⟨_, _, _, _, rfl⟩ := h
    exact sameSize_updateStmt _ _

/-- Taking an entry out of its list makes no node. -/
theorem sameSize_removeStmt? {list : StmtList} {s : StmtId} (h : p.removeStmt? list s = some q) :
    SameSize p q := by
  simp only [removeStmt?, Option.bind_eq_bind, Option.bind_eq_some_iff,
    Option.ite_none_right_eq_some, Option.some.injEq] at h
  obtain ⟨_, _, _, rfl⟩ := h
  exact sameSize_putStmtList _ _

/-- A write that may be refused makes no node if it makes none where it is done. -/
theorem sameSize_getD {o : Option Program} (h : ∀ q, o = some q → SameSize p q) :
    SameSize p (o.getD p) := by
  cases o with
  | none => exact .refl p
  | some q => exact h q rfl

/-- Listing a statement makes no node. -/
theorem sameSize_insertBefore? {list : StmtList} {s d : StmtId}
    (h : p.insertBefore? list s d = some q) : SameSize p q := by
  simp only [insertBefore?, Option.bind_eq_bind, Option.bind_eq_some_iff, Option.some.injEq] at h
  obtain ⟨_, _, _, _, rfl⟩ := h
  exact sameSize_putStmtList _ _

end Program

namespace Normalize

open Walk

/-! ## Growing -/

/-- The arenas only grow, and what the pass was asked for stays. -/
structure Larger (a b : Scene Normalizer) : Prop where
  rules : b.own.rules = a.own.rules
  modules : b.program.modules = a.program.modules
  symbols : a.program.symbols.size ≤ b.program.symbols.size
  stmts : a.program.stmts.size ≤ b.program.stmts.size
  exprs : a.program.exprs.size ≤ b.program.exprs.size

/-- What only grows in each of two stretches only grows in both. -/
theorem Larger.composes : Composes Larger where
  refl _ := ⟨rfl, rfl, Nat.le_refl _, Nat.le_refl _, Nat.le_refl _⟩
  trans h h' := ⟨h'.rules.trans h.rules, h'.modules.trans h.modules,
    Nat.le_trans h.symbols h'.symbols, Nat.le_trans h.stmts h'.stmts,
    Nat.le_trans h.exprs h'.exprs⟩

/-- A program of the same size is no smaller. -/
theorem Larger.of_sameSize {a b : Scene Normalizer} (h : a.program.SameSize b.program)
    (hr : b.own.rules = a.own.rules) : Larger a b :=
  ⟨hr, h.modules, Nat.le_of_eq h.symbols.symm, Nat.le_of_eq h.stmts.symm,
    Nat.le_of_eq h.exprs.symm⟩

/-- Dropping an empty statement leaves all nodes. -/
theorem larger_dropNop (s : StmtId) (place : StmtPlace) (scene : Scene Normalizer) :
    Larger scene (dropNop s place scene) := by
  unfold dropNop
  split
  · exact Larger.composes.refl scene
  · split
    · exact Larger.composes.refl scene
    · next h => exact .of_sameSize (Program.sameSize_removeStmt? h) rfl

/-- A block around a branch is at most one more statement. -/
theorem larger_wrapBranch (place : StmtPlace) (scene : Scene Normalizer) :
    Larger scene (wrapBranch place scene) := by
  unfold wrapBranch
  split
  · exact Larger.composes.refl scene
  · next s stmt _ =>
    split
    · exact Larger.composes.refl scene
    · have hadd : Larger scene
          { scene with program := (scene.program.addStmt (.block [s]) stmt.line).2 } :=
        ⟨rfl, rfl, Nat.le_refl _, by simp [Program.addStmt], Nat.le_refl _⟩
      refine Larger.composes.trans hadd ?_
      dsimp only
      split
      · exact Larger.composes.refl _
      · next h => exact .of_sameSize (Program.sameSize_setStmtAt? h) rfl

/-- The branches of a statement are put into blocks one by one, so all nodes stay. -/
theorem larger_wrapBranches (s : StmtId) (scene : Scene Normalizer) :
    Larger scene (wrapBranches s scene) := by
  unfold wrapBranches
  split
  · next places hplaces =>
    clear hplaces
    induction places generalizing scene with
    | nil => exact Larger.composes.refl scene
    | cons place places ih =>
      exact Larger.composes.trans (larger_wrapBranch place scene) (ih (wrapBranch place scene))
  · exact Larger.composes.refl scene

/-- The program with the condition of an `if` in a temporary. -/
def hoistInto (p : Program) (s : StmtId) (list : StmtList) (cond : ExprId) (line : UInt32)
    (name : String) : Program :=
  let (temp, p) := p.addSymbol name (.var none) line
  let (decl, p) := p.addStmt (.decl temp (some cond)) line
  let p := (p.insertBefore? list s decl).getD p
  let (ref, p) := p.addExpr (.symRef temp) line
  (p.setExprAt? ⟨.stmt s, 0⟩ ref).getD p

/-- A condition moves if its statement is in a list and has a condition that may move. -/
theorem hoistCondition_eq (s : StmtId) (place : StmtPlace) (scene : Scene Normalizer) :
    hoistCondition s place scene =
      match place.list?.bind fun list =>
        (hoistable? scene.program s list).map fun (cond, line) => (list, cond, line) with
      | none => scene
      | some (list, cond, line) => { scene with
          program := hoistInto scene.program s list cond line ("_t" ++ scene.own.nextTemp.repr)
          own.counts.hoistedTemps := scene.own.counts.hoistedTemps + 1
          own.nextTemp := scene.own.nextTemp + 1 } := rfl

/-- A temporary takes one node of each category. -/
theorem size_hoistInto (p : Program) (s : StmtId) (list : StmtList) (cond : ExprId)
    (line : UInt32) (name : String) :
    (hoistInto p s list cond line name).modules = p.modules ∧
      (hoistInto p s list cond line name).symbols.size = p.symbols.size + 1 ∧
      (hoistInto p s list cond line name).stmts.size = p.stmts.size + 1 ∧
      (hoistInto p s list cond line name).exprs.size = p.exprs.size + 1 := by
  unfold hoistInto
  dsimp only
  set p₁ := ((p.addSymbol name (.var none) line).2.addStmt _ line).2 with hp₁
  set p₂ := (p₁.insertBefore? list s _).getD p₁ with hp₂
  set p₃ := (p₂.addExpr _ line).2 with hp₃
  have h₂ : Program.SameSize p₁ p₂ := Program.sameSize_getD fun q => Program.sameSize_insertBefore?
  have h₄ := Program.sameSize_getD fun q =>
    @Program.sameSize_setExprAt? p₃ q ⟨.stmt s, 0⟩
      (p₂.addExpr (.symRef (p.addSymbol name (.var none) line).1) line).1
  refine ⟨?_, ?_, ?_, ?_⟩
  · rw [h₄.modules]
    exact h₂.modules
  · rw [h₄.symbols]
    exact h₂.symbols.trans (by simp [hp₁, Program.addSymbol, Program.addStmt])
  · rw [h₄.stmts]
    exact h₂.stmts.trans (by simp [hp₁, Program.addSymbol, Program.addStmt])
  · rw [h₄.exprs, hp₃, Program.addExpr, Array.size_push, h₂.exprs]
    rfl

/-- A temporary is made of new nodes. -/
theorem larger_hoistCondition (s : StmtId) (place : StmtPlace) (scene : Scene Normalizer) :
    Larger scene (hoistCondition s place scene) := by
  rw [hoistCondition_eq]
  split
  · exact Larger.composes.refl scene
  · next list cond line _ =>
    obtain ⟨hm, hs, ht, he⟩ := size_hoistInto scene.program s list cond line
      ("_t" ++ scene.own.nextTemp.repr)
    exact ⟨rfl, hm, by simp [hs], by simp [ht], by simp [he]⟩

@[simp] theorem applyIf_true (rewrite : Rewrite) : applyIf true rewrite = rewrite := rfl

@[simp] theorem applyIf_false (rewrite : Rewrite) (scene : Scene Normalizer) :
    applyIf false rewrite scene = scene := rfl

/-- A rule that is not asked for leaves all nodes too. -/
theorem larger_applyIf {rewrite : Rewrite} (h : ∀ scene, Larger scene (rewrite scene))
    (rule : Bool) (scene : Scene Normalizer) : Larger scene (applyIf rule rewrite scene) := by
  cases rule
  · exact Larger.composes.refl scene
  · exact h scene

/-! ## What a hook does -/

/-- Keeping track of the place is refused or changes the context alone. -/
theorem exec_move (m : ContextM Unit) (scene : Scene Normalizer) :
    exec (move m) scene = match exec m scene.own.context with
      | (.ok (), context) => (.ok (), { scene with own.context := context })
      | (.error cause, context) =>
        (.error (.defect cause), { scene with own.context := context }) := by
  simp only [move, exec_bind, exec_get, run_eq_exec]
  generalize exec m scene.own.context = r
  obtain ⟨_ | _, _⟩ := r <;> rfl

@[simp] theorem hooks_preSymbol : hooks.preSymbol = preSymbol := rfl

@[simp] theorem hooks_preStmt : hooks.preStmt = preStmt := rfl

@[simp] theorem hooks_preExpr : hooks.preExpr = preExpr := rfl

@[simp] theorem hooks_postSymbol (s : SymbolId) :
    hooks.postSymbol s = move (Context.leaveSymbol s) := rfl

@[simp] theorem hooks_postStmt (s : StmtId) :
    hooks.postStmt s = move (Context.leaveStmt s) := rfl

@[simp] theorem hooks_postExpr (e : ExprId) : hooks.postExpr e = pure () := rfl

/-- Where a symbol is entered it is marked with its place, and the context is told. -/
theorem exec_preSymbol (s : SymbolId) (scene : Scene Normalizer) :
    exec (preSymbol s) scene = match scene.program.symbol s with
      | .ok _ => (.ok (), { scene with
          program := scene.program.updateSymbol s fun x =>
            { x with scope := scene.own.context.ownerScope }
          own.context.frames := .symbol s :: scene.own.context.frames })
      | .error fault => (.error (.fault fault), scene) := by
  simp only [preSymbol, need, exec_bind, exec_get]
  cases scene.program.symbol s <;> rfl

/-- What the pass makes of a statement before it is entered: its back-references are recorded, and
the rules that concern it are applied. -/
def rewriteStmt (s : StmtId) (place : StmtPlace) (isNop : Bool) : Rewrite := fun scene =>
  let rules := scene.own.rules
  applyIf rules.hoistCallConditions (hoistCondition s place)
    (applyIf rules.wrapBranches (wrapBranches s)
      (applyIf (rules.dropNops && isNop) (dropNop s place)
        { scene with program := scene.program.updateStmt s fun x => { x with
            parentStmt := scene.own.context.enclosingStmt
            parentSymbol := scene.own.context.enclosingSymbol } }))

/-- Where a statement is entered the rules are applied to it, and the context is told. -/
theorem exec_preStmt (s : StmtId) (place : StmtPlace) (scene : Scene Normalizer) :
    exec (preStmt s place) scene = match scene.program.stmt s with
      | .ok x =>
        let scene := rewriteStmt s place (x.kind = .nop) scene
        (.ok (), { scene with
          own.context.stmts := scene.own.context.stmts.push s
          own.context.frames := .stmt s :: scene.own.context.frames })
      | .error fault => (.error (.fault fault), scene) := by
  simp only [preStmt, need, exec_bind, exec_get]
  cases scene.program.stmt s <;> rfl

/-- Where an expression is entered its place gets what is inside of its parentheses if these go, and
it is marked with where it is if not. -/
theorem exec_preExpr (e : ExprId) (place : ExprPlace) (scene : Scene Normalizer) :
    exec (preExpr e place) scene = match scene.own.context.enclosingStmt with
      | none => (.error (.defect (.outsideStatement e)), scene)
      | some enclosing => match scene.program.expr e with
        | .error fault => (.error (.fault fault), scene)
        | .ok expr =>
          match (flattened? scene.own.rules expr).bind (scene.program.setExprAt? place) with
          | some program => (.ok (), { scene with
              program
              own.counts.flattenedParens := scene.own.counts.flattenedParens + 1 })
          | none => (.ok (), { scene with
              program := scene.program.updateExpr e fun x => { x with
                parentStmt := some enclosing
                parentSymbol := scene.own.context.enclosingSymbol } }) := by
  simp only [preExpr, exec_bind, exec_get]
  cases scene.own.context.enclosingStmt with
  | none => rfl
  | some enclosing =>
    simp only [need, exec_bind, exec_get]
    cases scene.program.expr e with
    | error fault => rfl
    | ok expr =>
      simp only [exec_pure]
      cases (flattened? scene.own.rules expr).bind (scene.program.setExprAt? place) <;> rfl

/-! ## Arenas only grow -/

/-- Keeping track of the place leaves all nodes. -/
theorem keeps_move (m : ContextM Unit) : Keeps Larger (move m) := by
  intro scene
  rw [exec_move]
  generalize exec m scene.own.context = r
  obtain ⟨_ | _, _⟩ := r <;> exact .of_sameSize (.refl _) rfl

/-- Entering a symbol leaves all nodes. -/
theorem keeps_preSymbol (s : SymbolId) : Keeps Larger (preSymbol s) := by
  intro scene
  rw [exec_preSymbol]
  cases scene.program.symbol s with
  | error fault => exact Larger.composes.refl scene
  | ok x => exact .of_sameSize (Program.sameSize_updateSymbol _ _) rfl

/-- All rules together leave all nodes. -/
theorem larger_rewriteStmt (s : StmtId) (place : StmtPlace) (isNop : Bool)
    (scene : Scene Normalizer) : Larger scene (rewriteStmt s place isNop scene) := by
  have hmark : Larger scene { scene with program := scene.program.updateStmt s fun x => { x with
      parentStmt := scene.own.context.enclosingStmt
      parentSymbol := scene.own.context.enclosingSymbol } } :=
    .of_sameSize (Program.sameSize_updateStmt _ _) rfl
  have hdrop := Larger.composes.trans hmark
    (larger_applyIf (larger_dropNop s place) (scene.own.rules.dropNops && isNop) _)
  have hwrap := Larger.composes.trans hdrop
    (larger_applyIf (larger_wrapBranches s) scene.own.rules.wrapBranches _)
  exact Larger.composes.trans hwrap
    (larger_applyIf (larger_hoistCondition s place) scene.own.rules.hoistCallConditions _)

/-- Entering a statement leaves all nodes. -/
theorem keeps_preStmt (s : StmtId) (place : StmtPlace) : Keeps Larger (preStmt s place) := by
  intro scene
  rw [exec_preStmt]
  cases scene.program.stmt s with
  | error fault => exact Larger.composes.refl scene
  | ok x =>
    have h := larger_rewriteStmt s place (x.kind = .nop) scene
    exact ⟨h.rules, h.modules, h.symbols, h.stmts, h.exprs⟩

/-- Entering an expression leaves all nodes. -/
theorem keeps_preExpr (e : ExprId) (place : ExprPlace) : Keeps Larger (preExpr e place) := by
  intro scene
  rw [exec_preExpr]
  split
  · exact Larger.composes.refl scene
  · split
    · exact Larger.composes.refl scene
    · next expr _ =>
      cases hset : (flattened? scene.own.rules expr).bind (scene.program.setExprAt? place) with
      | none => exact .of_sameSize (Program.sameSize_updateExpr _ _) rfl
      | some q =>
        obtain ⟨inner, _, hq⟩ := Option.bind_eq_some_iff.mp hset
        exact .of_sameSize (Program.sameSize_setExprAt? _ hq) rfl

/-- No hook of the pass makes an arena smaller. -/
theorem keeps_hook {n : NodeId} {hook : NormalizeM Unit} (h : HookAt hooks n hook) :
    Keeps Larger hook := by
  cases h with
  | preSymbol s => exact hooks_preSymbol ▸ keeps_preSymbol s
  | postSymbol s => exact hooks_postSymbol s ▸ keeps_move _
  | preStmt s place => exact hooks_preStmt ▸ keeps_preStmt s place
  | postStmt s => exact hooks_postStmt s ▸ keeps_move _
  | preExpr e place => exact hooks_preExpr ▸ keeps_preExpr e place
  | postExpr e => exact hooks_postExpr e ▸ Larger.composes.pure ()

/-- What hooks keep of the scene, walks keep. -/
theorem larger_local : Local hooks fun st st' => Larger st.scene st'.scene where
  refl _ := Larger.composes.refl _
  trans := Larger.composes.trans
  enter n st := by
    rw [exec_enter]
    split
    · split <;> exact Larger.composes.refl _
    · exact Larger.composes.refl _
  leave _ _ := Larger.composes.refl _
  call {_ hook} hh st := by
    have hscene := keeps_hook hh st.scene
    rw [exec_call]
    generalize exec hook st.scene = r at hscene
    obtain ⟨(_ | _) | _, _⟩ := r <;> exact hscene

end Normalize

end MiddleEnd
