import MiddleEnd.Proofs.Normalize.Made
import MiddleEnd.Proofs.Verify.Reports
import MiddleEnd.Proofs.Walk.Scoped

/-!
# MiddleEnd.Proofs.Tracks

Passes whose context keeps step with the walk.  A hook call is one move of the context
(`Call.move`), and a context that shows a stack of visits (`Context.Shows`) accepts the move of
every hook that is called there.  A pass `Tracks` the walk if its hooks make these moves and refuse
nothing else; both passes do (`Normalize.tracks`, `Verify.tracks`).
-/

namespace MiddleEnd

open Walk

/-- The move of a context that goes with a hook call. -/
def Call.move : Call → ContextM Unit
  | preSymbol s => Context.enterSymbol s
  | postSymbol s => Context.leaveSymbol s
  | preStmt s _ => Context.enterStmt s
  | postStmt s => Context.leaveStmt s
  | preExpr _ _ | postExpr _ => pure ()

/-- The frame of a node that is visited.  Modules and expressions have none. -/
def NodeId.frame? : NodeId → Option Scope
  | .symbol s => some (.symbol s)
  | .stmt s => some (.stmt s)
  | .module _ | .expr _ => none

/-! ## Visits that are going on -/

/-- Every expression that is visited stands in a statement. -/
def Grounded (stack : List NodeId) : Prop :=
  ∀ e below, (.expr e :: below) <:+ stack → ∃ s, .stmt s ∈ below

section

variable {stack : List NodeId} {p : Program} {n : NodeId} {c : Call}

theorem grounded_nil : Grounded [] := fun _ _ h => by
  simp at h

/-- Fewer visits are grounded if more are. -/
theorem Grounded.tail (h : Grounded (n :: stack)) : Grounded stack := fun e below hsuffix =>
  h e below (hsuffix.trans (List.suffix_cons n stack))

/-- A module may be visited at any time. -/
theorem Grounded.module (h : Grounded stack) (m : ModuleId) : Grounded (.module m :: stack) :=
  fun e below hsuffix => h e below ((List.suffix_cons_iff.mp hsuffix).resolve_left (by simp))

/-- Where an expression is met, a statement is visited. -/
theorem Grounded.stmt_of_sited {e : ExprId} {place : ExprPlace} (h : Grounded stack)
    (hsited : (Call.preExpr e place).Sited stack p) : ∃ s, .stmt s ∈ stack := by
  obtain ⟨_, htop, _, htold⟩ := hsited
  obtain rfl := htold _ rfl
  have hcons := List.eq_cons_of_mem_head? htop
  obtain ⟨owner, i⟩ := place
  cases owner with
  | stmt s => exact ⟨s, List.mem_of_mem_head? htop⟩
  | expr e' =>
    have hsuffix : (.expr e' :: stack.tail) <:+ stack := ⟨[], hcons.symm⟩
    obtain ⟨s, hs⟩ := h e' _ hsuffix
    exact ⟨s, List.mem_of_mem_tail hs⟩

/-- What a hook call opens in its place is grounded. -/
theorem Grounded.opens (h : Grounded stack) (hc : c.isPre = true) (hsited : c.Sited stack p) :
    Grounded (c.node :: stack) := fun e below hsuffix => by
  rcases List.suffix_cons_iff.mp hsuffix with heq | hsuffix
  · cases c with
    | preExpr e' place =>
      obtain ⟨_, rfl⟩ := List.cons.inj heq
      exact h.stmt_of_sited hsited
    | preSymbol _ | preStmt _ _ => cases heq
    | postSymbol _ | postStmt _ | postExpr _ => cases hc
  · exact h e below hsuffix

end

namespace Context

/-- In this context these visits are going on, innermost first. -/
structure Shows (c : Context) (stack : List NodeId) : Prop where
  frames : c.frames = stack.filterMap NodeId.frame?
  stack : c.stmts.stack = stack.filterMap NodeId.stmt?
  balance : c.stmts.pushes = c.stmts.pops + c.stmts.depth

variable {c d : Context} {stack : List NodeId} {call : Call}

/-- A node is entered wherever it is met. -/
theorem Shows.opens (h : c.Shows stack) (hpre : call.isPre = true) :
    ∃ d, exec call.move c = (.ok (), d) ∧ d.Shows (call.node :: stack) ∧
      d.stmts.pushes = c.stmts.pushes + if call.node.step = .stmt then 1 else 0 := by
  have hbalance := h.balance
  cases call with
  | preSymbol s =>
    exact ⟨c.inSymbol s, rfl, ⟨congrArg (Scope.symbol s :: ·) h.frames, h.stack, hbalance⟩, rfl⟩
  | preStmt s place =>
    refine ⟨c.inStmt s, rfl,
      ⟨congrArg (Scope.stmt s :: ·) h.frames, congrArg (s :: ·) h.stack, ?_⟩, rfl⟩
    simp only [OpenStmts.depth] at hbalance
    simp only [inStmt, OpenStmts.push, OpenStmts.depth, List.length_cons]
    omega
  | preExpr e place => exact ⟨c, rfl, ⟨h.frames, h.stack, hbalance⟩, rfl⟩
  | postSymbol _ | postStmt _ | postExpr _ => cases hpre

/-- The innermost visit can be ended. -/
theorem Shows.closes (h : c.Shows (call.node :: stack)) (hpost : call.isPre = false) :
    ∃ d, exec call.move c = (.ok (), d) ∧ d.Shows stack ∧ d.stmts.pushes = c.stmts.pushes := by
  have hbalance := h.balance
  cases call with
  | postSymbol s =>
    have hframes : c.frames = .symbol s :: stack.filterMap NodeId.frame? := h.frames
    refine ⟨{ c with frames := stack.filterMap NodeId.frame? }, ?_, ⟨rfl, h.stack, hbalance⟩, rfl⟩
    simp only [Call.move, leaveSymbol, exec_bind, exec_get, hframes, if_true, exec_set]
  | postStmt s =>
    have hframes : c.frames = .stmt s :: stack.filterMap NodeId.frame? := h.frames
    have hstack : c.stmts.stack = s :: stack.filterMap NodeId.stmt? := h.stack
    refine ⟨{ c with
      stmts := { c.stmts with stack := stack.filterMap NodeId.stmt?, pops := c.stmts.pops + 1 }
      frames := stack.filterMap NodeId.frame? }, ?_, ⟨rfl, rfl, ?_⟩, rfl⟩
    · simp only [Call.move, leaveStmt, exec_bind, exec_get, OpenStmts.pop, hstack, hframes, if_true,
        exec_set]
    · simp only [OpenStmts.depth, hstack, List.length_cons] at hbalance ⊢
      omega
  | postExpr e => exact ⟨c, rfl, ⟨h.frames, h.stack, hbalance⟩, rfl⟩
  | preSymbol _ | preStmt _ _ | preExpr _ _ => cases hpost

/-- Modules and expressions that are visited do not show. -/
theorem Shows.congr {n : NodeId} (hframe : n.frame? = none) (hstmt : n.stmt? = none) :
    c.Shows (n :: stack) ↔ c.Shows stack := by
  have hframes : (n :: stack).filterMap NodeId.frame? = stack.filterMap NodeId.frame? := by
    simp [hframe]
  have hstmts : (n :: stack).filterMap NodeId.stmt? = stack.filterMap NodeId.stmt? := by
    simp [hstmt]
  exact ⟨fun h => ⟨h.frames.trans hframes, h.stack.trans hstmts, h.balance⟩,
    fun h => ⟨h.frames.trans hframes.symm, h.stack.trans hstmts.symm, h.balance⟩⟩

/-- Where a statement is visited it is known. -/
theorem Shows.enclosingStmt (h : c.Shows stack) (hstmt : ∃ s, .stmt s ∈ stack) :
    c.enclosingStmt.isSome = true := by
  obtain ⟨s, hs⟩ := hstmt
  have hmem : s ∈ c.stmts.stack := h.stack ▸ List.mem_filterMap.mpr ⟨.stmt s, hs, rfl⟩
  rw [Context.enclosingStmt, OpenStmts.top?, List.isSome_head?]
  simpa using List.ne_nil_of_mem hmem

/-- Where no visit is going on, nothing is open. -/
theorem shows_nil : c.Shows [] ↔ c.isClear = true := by
  have hclear : c.isClear = true ↔
      (c.stmts.stack = [] ∧ c.stmts.pushes = c.stmts.pops) ∧ c.frames = [] := by
    simp [isClear, OpenStmts.isBalanced]
  rw [hclear]
  refine ⟨fun h => ⟨⟨h.stack, ?_⟩, h.frames⟩, fun h => ⟨h.2, h.1.1, ?_⟩⟩
  · have hbalance := h.balance
    rwa [OpenStmts.depth, h.stack] at hbalance
  · rw [OpenStmts.depth, h.1.1, h.1.2]
    rfl

/-- A module that was begun starts with nothing open, and nothing counted. -/
theorem of_beginModule {m : ModuleId} (h : exec (beginModule m) c = (.ok (), d)) :
    d.Shows [] ∧ d.stmts.pushes = 0 := by
  simp only [beginModule, exec_bind, exec_get] at h
  cases hclear : c.isClear with
  | false =>
    simp [hclear] at h
  | true =>
    simp only [hclear, if_true, exec_set, Prod.mk.injEq, true_and] at h
    subst h
    exact ⟨⟨(shows_nil.mpr hclear).frames, rfl, rfl⟩, rfl⟩

/-- A module is begun where nothing is visited. -/
theorem Shows.beginModule (h : c.Shows []) (m : ModuleId) :
    exec (beginModule m) c = (.ok (), c.inModule m) ∧ (c.inModule m).Shows [] := by
  refine ⟨?_, h.frames, rfl, rfl⟩
  simp only [Context.beginModule, exec_bind, exec_get, shows_nil.mp h, if_true, exec_set]
  rfl

/-- A module is ended where nothing is visited. -/
theorem Shows.endModule (h : c.Shows []) :
    exec endModule c = (.ok (), { c with module := none }) ∧
      { c with module := none }.Shows [] := by
  refine ⟨?_, h.frames, h.stack, h.balance⟩
  simp only [Context.endModule, exec_bind, exec_get, shows_nil.mp h, if_true, exec_set]

end Context

/-! ## Passes -/

/-- The hooks of the pass make the moves that go with their calls, and refuse nothing where these
are accepted, the node exists and expressions stand in a statement.  No node is lost. -/
structure Pass.Tracks {σ : Type} (pass : Pass σ) : Prop where
  withContext : ∀ own c, pass.context (pass.withContext own c) = c
  moves : ∀ {c : Call} (scene) {d}, (c.isPre = true → scene.program.has c.node = true) →
    (∀ e place, c = .preExpr e place → (pass.context scene.own).enclosingStmt.isSome = true) →
    exec c.move (pass.context scene.own) = (.ok (), d) →
    ∃ left, exec (pass.hooks.hook c) scene = (.ok (), left) ∧ pass.context left.own = d ∧
      ∀ n, scene.program.has n = true → left.program.has n = true

namespace Normalize

variable {scene : Scene Normalizer} {s : StmtId} {place : StmtPlace}

@[simp] theorem context_dropNop : (dropNop s place scene).own.context = scene.own.context := by
  unfold dropNop
  split
  · rfl
  · split <;> rfl

@[simp] theorem context_wrapBranch : (wrapBranch place scene).own.context = scene.own.context := by
  unfold wrapBranch
  split
  · rfl
  · split
    · rfl
    · dsimp only
      split <;> rfl

@[simp] theorem context_wrapBranches : (wrapBranches s scene).own.context = scene.own.context := by
  unfold wrapBranches
  split
  · next places hplaces =>
    clear hplaces
    induction places generalizing scene with
    | nil => rfl
    | cons place places ih => exact ih.trans context_wrapBranch
  · rfl

@[simp] theorem context_hoistCondition :
    (hoistCondition s place scene).own.context = scene.own.context := by
  rw [hoistCondition_eq]
  split <;> rfl

/-- A rule that does not touch the context may be left out. -/
theorem context_applyIf {rewrite : Rewrite}
    (h : ∀ scene, (rewrite scene).own.context = scene.own.context) (rule : Bool) :
    (applyIf rule rewrite scene).own.context = scene.own.context := by
  cases rule
  · rfl
  · exact h scene

/-- Rewriting does not move the context. -/
theorem context_rewriteStmt (s : StmtId) (place : StmtPlace) (isNop : Bool)
    (scene : Scene Normalizer) :
    (rewriteStmt s place isNop scene).own.context = scene.own.context := by
  rw [rewriteStmt, context_applyIf fun _ => context_hoistCondition,
    context_applyIf fun _ => context_wrapBranches, context_applyIf fun _ => context_dropNop]

/-- No hook of the pass loses a node. -/
theorem has_of_exec {c : Call} {left : Scene Normalizer}
    (h : exec (hooks.hook c) scene = (.ok (), left)) :
    ∀ n, scene.program.has n = true → left.program.has n = true := by
  have hlarger := keeps_hook (hookAt_hook hooks c) scene
  rw [h] at hlarger
  exact hlarger.has

/-- The hooks of the normalizer keep track of the visits. -/
theorem tracks : pass.Tracks where
  withContext _ _ := rfl
  moves {c} scene {d} hhas hstmt hmove := by
    have hhook : ∃ left, exec (hooks.hook c) scene = (.ok (), left) ∧ left.own.context = d := by
      replace hmove : exec c.move scene.own.context = (.ok (), d) := hmove
      cases c with
      | preSymbol s =>
        obtain ⟨x, hx⟩ := Option.isSome_iff_exists.mp
          (show (scene.program.symbol? s).isSome = true from hhas rfl)
        have hsymbol : scene.program.symbol s = .ok x := by rw [Program.symbol, hx]
        exact ⟨_, by rw [Hooks.hook, hooks_preSymbol, exec_preSymbol, hsymbol],
          (Prod.mk.inj hmove).2⟩
      | preStmt s place =>
        obtain ⟨x, hx⟩ := Option.isSome_iff_exists.mp
          (show (scene.program.stmt? s).isSome = true from hhas rfl)
        have hstmt : scene.program.stmt s = .ok x := by rw [Program.stmt, hx]
        refine ⟨_, by rw [Hooks.hook, hooks_preStmt, exec_preStmt, hstmt], ?_⟩
        rw [← (Prod.mk.inj hmove).2]
        simp only [context_rewriteStmt]
      | preExpr e place =>
        obtain ⟨x, hx⟩ := Option.isSome_iff_exists.mp
          (show (scene.program.expr? e).isSome = true from hhas rfl)
        have hexpr : scene.program.expr e = .ok x := by rw [Program.expr, hx]
        obtain ⟨enclosing, henclosing⟩ := Option.isSome_iff_exists.mp (hstmt e place rfl)
        have hd : scene.own.context = d := (Prod.mk.inj hmove).2
        replace henclosing : scene.own.context.enclosingStmt = some enclosing := henclosing
        rw [Hooks.hook, hooks_preExpr, exec_preExpr, henclosing, hexpr]
        dsimp only
        cases (flattened? scene.own.rules x).bind (scene.program.setExprAt? place) with
        | none => exact ⟨_, rfl, hd⟩
        | some q => exact ⟨_, rfl, hd⟩
      | postSymbol s =>
        rw [Call.move] at hmove
        exact ⟨_, by rw [Hooks.hook, hooks_postSymbol, exec_move, hmove], rfl⟩
      | postStmt s =>
        rw [Call.move] at hmove
        exact ⟨_, by rw [Hooks.hook, hooks_postStmt, exec_move, hmove], rfl⟩
      | postExpr e => exact ⟨scene, rfl, (Prod.mk.inj hmove).2⟩
    obtain ⟨left, hexec, hcontext⟩ := hhook
    exact ⟨left, hexec, hcontext, has_of_exec hexec⟩

end Normalize

namespace Verify

/-- The hooks of the verifier keep track of the visits. -/
theorem tracks : pass.Tracks where
  withContext _ _ := rfl
  moves {c} scene {d} hhas hstmt hmove := by
    obtain ⟨p, own⟩ := scene
    suffices hhook : ∃ own', exec (pass.hooks.hook c) ⟨p, own⟩ = (.ok (), ⟨p, own'⟩) ∧
        own'.context = d by
      obtain ⟨own', hexec, hcontext⟩ := hhook
      exact ⟨_, hexec, hcontext, fun _ hn => hn⟩
    replace hmove : exec c.move own.context = (.ok (), d) := hmove
    cases c with
    | preSymbol s =>
      obtain ⟨x, hx⟩ := Option.isSome_iff_exists.mp
        (show (p.symbol? s).isSome = true from hhas rfl)
      exact ⟨_, exec_hook_preSymbol (exec_preSymbol hx), (Prod.mk.inj hmove).2⟩
    | preStmt s place =>
      obtain ⟨x, hx⟩ := Option.isSome_iff_exists.mp
        (show (p.stmt? s).isSome = true from hhas rfl)
      exact ⟨_, exec_hook_preStmt (exec_preStmt hx), (Prod.mk.inj hmove).2⟩
    | preExpr e place =>
      obtain ⟨x, hx⟩ := Option.isSome_iff_exists.mp
        (show (p.expr? e).isSome = true from hhas rfl)
      exact ⟨_, exec_hook_preExpr (exec_preExpr hx (hstmt e place rfl)), (Prod.mk.inj hmove).2⟩
    | postSymbol s => exact ⟨_, exec_hook_postSymbol (exec_move hmove), rfl⟩
    | postStmt s => exact ⟨_, exec_hook_postStmt (exec_move hmove), rfl⟩
    | postExpr e => exact ⟨own, exec_hook_postExpr e, (Prod.mk.inj hmove).2⟩

end Verify

end MiddleEnd
