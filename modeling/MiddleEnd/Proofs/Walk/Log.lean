import MiddleEnd.Proofs.Tree.Position
import MiddleEnd.Proofs.Walk.Exec

/-!
# MiddleEnd.Proofs.Walk.Log

What hooks are called in a walk.  A `Call` names a hook with what it is told, and `Hooks.logged` are
hooks that besides their work write down each call and what came of it.  Writing this down is not
noticed by the walk: the same is done with and without (`exec_run_logged`).
-/

namespace MiddleEnd

/-- A call of a hook, with the place that it is told. -/
inductive Call where
  | preSymbol (s : SymbolId)
  | postSymbol (s : SymbolId)
  | preStmt (s : StmtId) (place : StmtPlace)
  | postStmt (s : StmtId)
  | preExpr (e : ExprId) (place : ExprPlace)
  | postExpr (e : ExprId)
deriving DecidableEq, Repr

namespace Call

/-- The node that the hook is called at. -/
def node : Call → NodeId
  | preSymbol s | postSymbol s => .symbol s
  | preStmt s _ | postStmt s => .stmt s
  | preExpr e _ | postExpr e => .expr e

/-- Whether the hook is called before the children of its node. -/
def isPre : Call → Bool
  | preSymbol _ | preStmt _ _ | preExpr _ _ => true
  | postSymbol _ | postStmt _ | postExpr _ => false

/-- The place that the hook is told. -/
def place? : Call → Option Position
  | preStmt _ place => some (.stmt place)
  | preExpr _ place => some (.expr place)
  | _ => none

end Call

variable {σ : Type}

/-- The hook that is called. -/
def Hooks.hook (h : Hooks σ) : Call → HookM σ Unit
  | .preSymbol s => h.preSymbol s
  | .postSymbol s => h.postSymbol s
  | .preStmt s place => h.preStmt s place
  | .postStmt s => h.postStmt s
  | .preExpr e place => h.preExpr e place
  | .postExpr e => h.postExpr e

/-- What came of a call. -/
structure Event (σ : Type) where
  call : Call
  /-- Whether the hook accepted. -/
  accepted : Bool
  /-- What the hook left. -/
  scene : Scene σ

/-- Do what a hook does, and add to a list what came of it. -/
def HookM.logging (c : Call) (hook : HookM σ Unit) : HookM (σ × List (Event σ)) Unit :=
  ExceptT.mk fun scene =>
    let (result, after) := hook.run.run ⟨scene.program, scene.own.1⟩
    (result, ⟨after.program, after.own, scene.own.2 ++ [⟨c, result.isOk, after⟩]⟩)

/-- Hooks that write down each call. -/
def Hooks.logged (h : Hooks σ) : Hooks (σ × List (Event σ)) where
  pass := h.pass
  preSymbol s := .logging (.preSymbol s) (h.preSymbol s)
  postSymbol s := .logging (.postSymbol s) (h.postSymbol s)
  preStmt s place := .logging (.preStmt s place) (h.preStmt s place)
  postStmt s := .logging (.postStmt s) (h.postStmt s)
  preExpr e place := .logging (.preExpr e place) (h.preExpr e place)
  postExpr e := .logging (.postExpr e) (h.postExpr e)

/-- The state of a walk without the list of calls. -/
def WalkState.unlogged (st : WalkState (σ × List (Event σ))) : WalkState σ :=
  ⟨st.trail, st.scene.program, st.scene.own.1⟩

namespace Walk

/-- The hook of a call is called at the node of the call. -/
theorem hookAt_hook (h : Hooks σ) (c : Call) : HookAt h c.node (h.hook c) := by
  cases c <;> constructor

/-- Hooks that write down their calls do so for each of them. -/
theorem hook_logged (h : Hooks σ) (c : Call) : h.logged.hook c = .logging c (h.hook c) := by
  cases c <;> rfl

/-- Hooks that write down each call are called where the hooks are. -/
theorem HookAt.of_logged {h : Hooks σ} {n : NodeId} {hook : HookM (σ × List (Event σ)) Unit}
    (hh : HookAt h.logged n hook) : ∃ c : Call, c.node = n ∧ hook = .logging c (h.hook c) := by
  cases hh with
  | preSymbol s => exact ⟨.preSymbol s, rfl, rfl⟩
  | postSymbol s => exact ⟨.postSymbol s, rfl, rfl⟩
  | preStmt s place => exact ⟨.preStmt s place, rfl, rfl⟩
  | postStmt s => exact ⟨.postStmt s, rfl, rfl⟩
  | preExpr e place => exact ⟨.preExpr e place, rfl, rfl⟩
  | postExpr e => exact ⟨.postExpr e, rfl, rfl⟩

/-- A hook that writes down its call does what it did, and the call is noted with the answer. -/
theorem exec_logging (c : Call) (hook : HookM σ Unit) (scene : Scene (σ × List (Event σ))) :
    exec (HookM.logging c hook) scene =
      ((exec hook ⟨scene.program, scene.own.1⟩).1,
        ⟨(exec hook ⟨scene.program, scene.own.1⟩).2.program,
          (exec hook ⟨scene.program, scene.own.1⟩).2.own, scene.own.2 ++
            [⟨c, (exec hook ⟨scene.program, scene.own.1⟩).1.isOk,
              (exec hook ⟨scene.program, scene.own.1⟩).2⟩]⟩) := rfl

/-- A call is written down with what came of it; it enters and leaves nothing. -/
theorem exec_call_logged (h : Hooks σ) (c : Call) (st : WalkState (σ × List (Event σ))) :
    ∃ e : Event σ, e.call = c ∧
      e.accepted = (exec (call h.logged c.node (h.logged.hook c)) st).1.isOk ∧
      e.scene.program = (exec (call h.logged c.node (h.logged.hook c)) st).2.scene.program ∧
      (exec (call h.logged c.node (h.logged.hook c)) st).2.scene.own.2 = st.scene.own.2 ++ [e] ∧
      (exec (call h.logged c.node (h.logged.hook c)) st).2.trail = st.trail := by
  rw [hook_logged]
  refine ⟨_, rfl, ?_, ?_, by rw [exec_call_state, exec_logging], by rw [exec_call_state]⟩
  · rw [exec_call, exec_logging]
    generalize exec (h.hook c) ⟨st.scene.program, st.scene.own.1⟩ = r
    obtain ⟨(_ | _) | _, _⟩ := r <;> rfl
  · rw [exec_call_state, exec_logging]

/-! ## The same walk -/

/-- One walk does what the other does, and writes down the calls. -/
def Mirrors {α : Type} (x : WalkM (σ × List (Event σ)) α) (y : WalkM σ α) : Prop :=
  ∀ st, exec y st.unlogged = ((exec x st).1, (exec x st).2.unlogged)

section

variable {α β : Type} {h : Hooks σ}

theorem mirrors_pure (a : α) : Mirrors (pure a) (pure a : WalkM σ α) := fun _ => rfl

/-- Two parts that mirror others mirror them one after the other. -/
theorem Mirrors.bind {x : WalkM (σ × List (Event σ)) α} {y : WalkM σ α}
    {f : α → WalkM (σ × List (Event σ)) β} {g : α → WalkM σ β} (hx : Mirrors x y)
    (hf : ∀ a, Mirrors (f a) (g a)) : Mirrors (x >>= f) (y >>= g) := by
  intro st
  have hxst := hx st
  rw [exec_bind, exec_bind, hxst]
  match exec x st with
  | (.ok a, st') => exact hf a st'
  | (.error e, st') => rfl

/-- What mirrors one by one mirrors in a row. -/
theorem mirrors_forM {f : α → WalkM (σ × List (Event σ)) Unit} {g : α → WalkM σ Unit}
    (hf : ∀ a, Mirrors (f a) (g a)) : ∀ xs : List α, Mirrors (xs.forM f) (xs.forM g)
  | [] => mirrors_pure ()
  | x :: xs => (hf x).bind fun _ => mirrors_forM hf xs

theorem trail_unlogged (st : WalkState (σ × List (Event σ))) : st.unlogged.trail = st.trail := rfl

theorem scene_unlogged (st : WalkState (σ × List (Event σ))) :
    st.unlogged.scene = ⟨st.scene.program, st.scene.own.1⟩ := rfl

theorem program_unlogged (st : WalkState (σ × List (Event σ))) :
    st.unlogged.scene.program = st.scene.program := rfl

/-- Both walks read the same program. -/
theorem mirrors_program {f : Program → WalkM (σ × List (Event σ)) β} {g : Program → WalkM σ β}
    (hf : ∀ p, Mirrors (f p) (g p)) : Mirrors (program >>= f) (program >>= g) :=
  Mirrors.bind (fun _ => rfl) hf

/-- A walk halts as without a log. -/
theorem mirrors_fail (n : NodeId) (cause : Cause) :
    Mirrors (fail h.logged n cause : WalkM _ α) (fail h n cause) := fun _ => rfl

theorem mirrors_leave (n : NodeId) : Mirrors (leave n) (leave n : WalkM σ Unit) := fun _ => rfl

/-- Nodes are entered as without a log. -/
theorem mirrors_enter (n : NodeId) : Mirrors (enter h.logged n) (enter h n) := by
  intro st
  rw [exec_enter, exec_enter, program_unlogged, trail_unlogged]
  by_cases hn : st.scene.program.has n = true
  · rw [if_pos hn, if_pos hn]
    cases st.trail.enter n <;> rfl
  · rw [if_neg hn, if_neg hn]
    rfl

/-- Hooks answer as without a log. -/
theorem mirrors_call (n : NodeId) (c : Call) (hook : HookM σ Unit) :
    Mirrors (call h.logged n (.logging c hook)) (call h n hook) := by
  intro st
  rw [exec_call, exec_call, exec_logging, scene_unlogged]
  generalize exec hook ⟨st.scene.program, st.scene.own.1⟩ = r
  obtain ⟨(_ | _) | _, _⟩ := r <;> rfl

variable {rest : Task → WalkM (σ × List (Event σ)) Unit} {rest' : Task → WalkM σ Unit}

/-- A statement is gone through as without a log. -/
theorem mirrors_inside (hrest : ∀ t, Mirrors (rest t) (rest' t)) (s : StmtId) :
    Mirrors (inside rest s) (inside rest' s) := by
  refine (hrest _).bind fun _ => Mirrors.bind (mirrors_program fun p => ?_) fun _ =>
    mirrors_program fun p => ?_
  · cases p.declared? s with
    | none => exact mirrors_pure ()
    | some y => exact hrest _
  · cases p.children s with
    | none => exact mirrors_pure ()
    | list list => exact hrest _
    | places places => exact mirrors_forM (fun place => hrest _) places

/-- If tasks on the way are done in the same way, then so is a task. -/
theorem mirrors_visit (h : Hooks σ) (hrest : ∀ t, Mirrors (rest t) (rest' t)) :
    ∀ task, Mirrors (visit h.logged rest task) (visit h rest' task)
  | .module m => (mirrors_enter _).bind fun _ => (hrest _).bind fun _ => mirrors_leave _
  | .symbol s =>
    (mirrors_enter _).bind fun _ => (mirrors_call _ (.preSymbol s) _).bind fun _ =>
      (hrest _).bind fun _ => (hrest _).bind fun _ =>
      (mirrors_call _ (.postSymbol s) _).bind fun _ => mirrors_leave _
  | .stmt place => by
    rw [visit_stmt, visit_stmt]
    refine mirrors_program fun p => ?_
    cases p.stmtAt? place with
    | none => exact mirrors_pure ()
    | some s =>
      exact (mirrors_enter _).bind fun _ => (mirrors_call _ (.preStmt s place) _).bind fun _ =>
        (mirrors_inside hrest s).bind fun _ => (mirrors_call _ (.postStmt s) _).bind fun _ =>
        mirrors_leave _
  | .expr place => mirrors_program fun p => by
    cases p.exprAt? place with
    | none => exact mirrors_pure ()
    | some e =>
      refine (mirrors_enter _).bind fun _ => (mirrors_call _ (.preExpr e place) _).bind fun _ =>
        mirrors_program fun p => ?_
      cases p.exprAt? place with
      | none => exact mirrors_leave _
      | some e' =>
        by_cases he : e' = e
        · simp only [he, if_true]
          exact (hrest _).bind fun _ => (mirrors_call _ (.postExpr e) _).bind fun _ =>
            mirrors_leave _
        · simp only [he, if_false]
          refine (mirrors_leave _).bind fun _ st => ?_
          -- both walks look at the same trail
          rw [exec_bind_ok (exec_get st), exec_bind_ok (exec_get st.unlogged)]
          change exec (if st.trail.seen.contains (.expr e') = true then _ else _) _ = _
          split
          · rfl
          · exact hrest _ st
  | .symbols list => mirrors_program fun p => by
    cases (p.symbolList? list).bind (firstRepeat? []) with
    | none => exact hrest _
    | some s => exact mirrors_fail _ _
  | .symbolsFrom list cursor => mirrors_program fun p => by
    cases (p.symbolList? list).bind cursor.next? with
    | none => exact mirrors_pure ()
    | some r => exact (hrest _).bind fun _ => hrest _
  | .stmts list => mirrors_program fun p => by
    cases (p.stmtList? list).bind (firstRepeat? []) with
    | none => exact hrest _
    | some s => exact mirrors_fail _ _
  | .stmtsFrom list cursor => mirrors_program fun p => by
    cases (p.stmtList? list).bind cursor.next? with
    | none => exact mirrors_pure ()
    | some r => exact (hrest _).bind fun _ => hrest _
  | .operandsFrom owner index => mirrors_program fun p => by
    by_cases hi : index < (p.operands owner).length
    · simp only [hi, if_true]
      exact (hrest _).bind fun _ => hrest _
    · simp only [hi, if_false]
      exact mirrors_pure ()

/-- Writing down the calls changes nothing about a walk. -/
theorem mirrors_walk (h : Hooks σ) :
    ∀ depth task, Mirrors (walk h.logged depth task) (walk h depth task)
  | 0, _ => fun _ => rfl
  | depth + 1, task => mirrors_visit h (mirrors_walk h depth) task

/-- A walk does the same whether its calls are written down or not. -/
theorem exec_run_logged (h : Hooks σ) (task : Task) (st : WalkState (σ × List (Event σ))) :
    exec (run h task) st.unlogged =
      ((exec (run h.logged task) st).1, (exec (run h.logged task) st).2.unlogged) :=
  mirrors_walk h depthLimit task st

end

end Walk

end MiddleEnd
