import MiddleEnd.Pass
import MiddleEnd.Proofs.Tree.Unfold
import MiddleEnd.Proofs.Walk.Exec

/-!
# MiddleEnd.Proofs.Context

What a context says of the place where a walk stands (`Context.around`), and that whatever is
opened on the way is closed again (`Context.Level`): a symbol, a statement or a module is left
where it was entered.  Contexts that are level are moved alike (`Context.Levels`): only what is open
counts, and not what was opened and closed before.
-/

namespace MiddleEnd

namespace Context

/-- What encloses a node that is met here. -/
def around (c : Context) : Around :=
  ⟨c.module, c.enclosingStmt, c.enclosingSymbol, c.ownerScope⟩

/-- Everything that was opened in between was closed again. -/
structure Level (c d : Context) : Prop where
  module : d.module = c.module
  frames : d.frames = c.frames
  stack : d.stmts.stack = c.stmts.stack
  balance : d.stmts.pushes + c.stmts.pops = c.stmts.pushes + d.stmts.pops

/-- Every context is level with itself. -/
theorem Level.refl (c : Context) : Level c c := ⟨rfl, rfl, rfl, rfl⟩

/-- Being level is passed on. -/
theorem Level.trans {c d e : Context} (h : Level c d) (h' : Level d e) : Level c e where
  module := h'.module.trans h.module
  frames := h'.frames.trans h.frames
  stack := h'.stack.trans h.stack
  balance := by
    have := h.balance
    have := h'.balance
    omega

/-- Level contexts say the same about where the walk is. -/
theorem Level.around_eq {c d : Context} (h : Level c d) : d.around = c.around := by
  simp only [around, enclosingStmt, OpenStmts.top?, enclosingSymbol, ownerScope, h.stack, h.frames,
    h.module]

/-- Level contexts are clear together. -/
theorem Level.isClear_eq {c d : Context} (h : Level c d) : d.isClear = c.isClear := by
  have hbalance : (d.stmts.pushes == d.stmts.pops) = (c.stmts.pushes == c.stmts.pops) := by
    have := h.balance
    rw [Bool.eq_iff_iff, beq_iff_eq, beq_iff_eq]
    omega
  rw [isClear, isClear, OpenStmts.isBalanced, OpenStmts.isBalanced, h.stack, h.frames, hbalance]

/-- In a symbol that is met here. -/
def inSymbol (c : Context) (s : SymbolId) : Context := { c with frames := .symbol s :: c.frames }

/-- In a statement that is met here. -/
def inStmt (c : Context) (s : StmtId) : Context :=
  { c with stmts := c.stmts.push s, frames := .stmt s :: c.frames }

/-- In a statement the surroundings are those of the tree below it. -/
theorem around_inStmt (c : Context) (s : StmtId) :
    (c.inStmt s).around = c.around.under (.stmt s) := rfl

open Walk in
/-- A symbol is left where it was entered. -/
theorem Level.leaveSymbol {c d : Context} {s : SymbolId} (h : Level (c.inSymbol s) d) :
    ∃ d', exec (leaveSymbol s) d = (.ok (), d') ∧ Level c d' := by
  have hframes : d.frames = .symbol s :: c.frames := h.frames
  refine ⟨{ d with frames := c.frames }, ?_, h.module, rfl, h.stack, h.balance⟩
  simp only [Context.leaveSymbol, exec_bind, exec_get, hframes, if_true, exec_set]

open Walk in
/-- A statement is left where it was entered. -/
theorem Level.leaveStmt {c d : Context} {s : StmtId} (h : Level (c.inStmt s) d) :
    ∃ d', exec (leaveStmt s) d = (.ok (), d') ∧ Level c d' := by
  have hframes : d.frames = .stmt s :: c.frames := h.frames
  have hstack : d.stmts.stack = s :: c.stmts.stack := h.stack
  refine ⟨{ d with
    stmts := { d.stmts with stack := c.stmts.stack, pops := d.stmts.pops + 1 }
    frames := c.frames }, ?_, h.module, rfl, rfl, ?_⟩
  · simp only [Context.leaveStmt, exec_bind, exec_get, OpenStmts.pop, hstack, hframes, if_true,
      exec_set]
  · have := h.balance
    simp only [inStmt, OpenStmts.push] at this ⊢
    omega

/-! ## Between modules -/

/-- Between two modules. -/
structure Outside (c : Context) : Prop where
  module : c.module = none
  frames : c.frames = []
  stack : c.stmts.stack = []
  balance : c.stmts.pushes = c.stmts.pops

/-- A walk starts outside of every module. -/
theorem outside_start : start.Outside := ⟨rfl, rfl, rfl, rfl⟩

/-- What is level with the outside is outside. -/
theorem Level.outside {c d : Context} (h : Level c d) (hc : c.Outside) : d.Outside := by
  refine ⟨h.module.trans hc.module, h.frames.trans hc.frames, h.stack.trans hc.stack, ?_⟩
  have := h.balance
  have := hc.balance
  omega

/-- Outside of a module nothing is around. -/
theorem Outside.around {c : Context} (h : c.Outside) : c.around = .outside := by
  simp [Context.around, Around.outside, enclosingStmt, OpenStmts.top?, enclosingSymbol,
    ownerScope, h.module, h.frames, h.stack]

/-- In a module. -/
def inModule (c : Context) (m : ModuleId) : Context :=
  { c with module := some m, stmts := .empty }

/-- In a module only the module is around. -/
theorem Outside.around_inModule {c : Context} (h : c.Outside) (m : ModuleId) :
    (c.inModule m).around = Around.outside.under (.module m) := by
  simp [Context.around, inModule, Around.under, enclosingStmt, OpenStmts.top?, OpenStmts.empty,
    enclosingSymbol, ownerScope, h.frames]

open Walk in
/-- From outside a module is begun without a refusal. -/
theorem Outside.beginModule {c : Context} (h : c.Outside) (m : ModuleId) :
    exec (beginModule m) c = (.ok (), c.inModule m) := by
  have hclear : c.isClear = true := by
    simp [isClear, OpenStmts.isBalanced, h.frames, h.stack, h.balance]
  simp only [Context.beginModule, exec_bind, exec_get, hclear, if_true, exec_set]
  rfl

open Walk in
/-- A module is left where it was entered. -/
theorem Outside.endModule {c d : Context} {m : ModuleId} (h : c.Outside)
    (hd : Level (c.inModule m) d) :
    ∃ d', exec endModule d = (.ok (), d') ∧ d'.Outside ∧ Level c d' := by
  have hbalance : d.stmts.pushes = d.stmts.pops := by
    have := hd.balance
    simpa [inModule, OpenStmts.empty] using this
  have hframes : d.frames = [] := hd.frames.trans h.frames
  have hclear : d.isClear = true := by
    simp [isClear, OpenStmts.isBalanced, hframes, show d.stmts.stack = [] from hd.stack, hbalance]
  have hout : Outside { d with module := none } := ⟨rfl, hframes, hd.stack, hbalance⟩
  refine ⟨{ d with module := none }, ?_, hout, h.module.symm, hframes.trans h.frames.symm,
    hout.stack.trans h.stack.symm, ?_⟩
  · simp only [Context.endModule, exec_bind, exec_get, hclear, if_true, exec_set]
  · have := h.balance
    simp only
    omega

/-! ## Moves on the same level -/

section

open Walk

/-- A move does the same wherever the same is open. -/
def Levels (move : ContextM Unit) : Prop := ∀ c d c' : Context, Level c d →
  exec move c = (.ok (), c') → ∃ d', exec move d = (.ok (), d') ∧ Level c' d'

/-- Whether a module can be begun is known from what is open. -/
theorem levels_beginModule (m : ModuleId) : Levels (beginModule m) := by
  intro c d c' h hc
  simp only [beginModule, exec_bind, exec_get, h.isClear_eq] at hc ⊢
  cases hclear : c.isClear <;> rw [hclear] at hc <;> cases hc
  exact ⟨_, rfl, rfl, h.frames, rfl, rfl⟩

theorem levels_endModule : Levels endModule := by
  intro c d c' h hc
  simp only [endModule, exec_bind, exec_get, h.isClear_eq] at hc ⊢
  cases hclear : c.isClear <;> rw [hclear] at hc <;> cases hc
  exact ⟨_, rfl, rfl, h.frames, h.stack, h.balance⟩

/-- What was opened and closed before does not matter where a symbol is entered. -/
theorem levels_enterSymbol (s : SymbolId) : Levels (enterSymbol s) := by
  intro c d c' h hc
  cases hc
  refine ⟨_, rfl, h.module, ?_, h.stack, h.balance⟩
  dsimp only
  rw [h.frames]

/-- What was opened and closed before does not matter where a statement is entered. -/
theorem levels_enterStmt (s : StmtId) : Levels (enterStmt s) := by
  intro c d c' h hc
  cases hc
  refine ⟨_, rfl, h.module, ?_, ?_, ?_⟩ <;> dsimp only [OpenStmts.push]
  · rw [h.frames]
  · rw [h.stack]
  · have := h.balance
    omega

/-- A symbol that is left was entered last. -/
theorem level_of_leaveSymbol {c c' : Context} {s : SymbolId}
    (h : exec (leaveSymbol s) c = (.ok (), c')) : Level (c'.inSymbol s) c := by
  simp only [leaveSymbol, exec_bind, exec_get] at h
  split at h
  · next hframes =>
    split at h <;> cases h
    subst_vars
    exact ⟨rfl, hframes, rfl, rfl⟩
  · cases h

/-- A statement that is left was entered last. -/
theorem level_of_leaveStmt {c c' : Context} {s : StmtId}
    (h : exec (leaveStmt s) c = (.ok (), c')) : Level (c'.inStmt s) c := by
  simp only [leaveStmt, exec_bind, exec_get, OpenStmts.pop] at h
  split at h
  · cases h
  next stmts hpop =>
  split at hpop
  · cases hpop
  next hstack =>
  split at hpop <;> cases hpop
  rw [exec_bind_ok (exec_set _ _)] at h
  split at h
  · next hframes =>
    split at h <;> cases h
    subst_vars
    refine ⟨rfl, hframes, hstack, ?_⟩
    simp only [inStmt, OpenStmts.push]
    omega
  · cases h

theorem levels_leaveSymbol (s : SymbolId) : Levels (leaveSymbol s) := fun _ _ _ h hc =>
  ((level_of_leaveSymbol hc).trans h).leaveSymbol

theorem levels_leaveStmt (s : StmtId) : Levels (leaveStmt s) := fun _ _ _ h hc =>
  ((level_of_leaveStmt hc).trans h).leaveStmt

end

end Context

/-- A move that a pass makes between two walks. -/
theorem Pass.exec_move {σ : Type} (pass : Pass σ) (m : ModuleId) {step : ContextM Unit}
    {st : WalkState σ} {c : Context}
    (h : Walk.exec step (pass.context st.scene.own) = (.ok (), c)) :
    Walk.exec (pass.move m step) st =
      (.ok (), { st with scene.own := pass.withContext st.scene.own c }) := by
  simp only [Pass.move, Walk.exec_bind, Walk.exec_get, Walk.run_eq_exec, h]
  rfl

/-- A move that ended well was accepted. -/
theorem Pass.of_exec_move {σ : Type} {pass : Pass σ} {m : ModuleId} {step : ContextM Unit}
    {st st' : WalkState σ} (h : Walk.exec (pass.move m step) st = (.ok (), st')) :
    ∃ c, Walk.exec step (pass.context st.scene.own) = (.ok (), c) ∧
      st' = { st with scene.own := pass.withContext st.scene.own c } := by
  simp only [Pass.move, Walk.exec_bind, Walk.exec_get, Walk.run_eq_exec] at h
  rcases hc : Walk.exec step (pass.context st.scene.own) with ⟨_ | ⟨⟩, c⟩ <;>
    rw [hc] at h <;> cases h
  exact ⟨c, rfl, rfl⟩

end MiddleEnd
