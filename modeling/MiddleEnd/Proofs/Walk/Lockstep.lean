import MiddleEnd.Pass
import MiddleEnd.Proofs.Walk.Exec

/-!
# MiddleEnd.Proofs.Walk.Lockstep

Two runs in lockstep.  `Lockstep S x y` says that `x` and `y`, from states that `S` relates, come to
the same answer, an error or not, and leave related states.  Sequences of runs in lockstep are in
lockstep, so of a pass only its hooks have to be looked at: if they answer alike on related scenes
(`Pass.Paired`), whole runs of the pass do (`Pass.Paired.run`), on programs of any shape.
-/

namespace MiddleEnd

namespace Walk

variable {σ τ τ' ε α β : Type}

/-- From related states both come to the same answer and leave related states. -/
def Lockstep (S : τ → τ' → Prop) (x : ExceptT ε (StateM τ) α) (y : ExceptT ε (StateM τ') α) :
    Prop :=
  ∀ a b, S a b → (exec y b).1 = (exec x a).1 ∧ S (exec x a).2 (exec y b).2

section

variable {S : τ → τ' → Prop} {x : ExceptT ε (StateM τ) α} {y : ExceptT ε (StateM τ') α}

/-- To do nothing is to be in lockstep. -/
theorem lockstep_pure (r : α) :
    Lockstep S (pure r : ExceptT ε (StateM τ) α) (pure r) := fun _ _ hab => ⟨rfl, hab⟩

/-- To halt for one reason is to be in lockstep. -/
theorem lockstep_throw (e : ε) :
    Lockstep S (throw e : ExceptT ε (StateM τ) α) (throw e) := fun _ _ hab => ⟨rfl, hab⟩

/-- Two parts in lockstep are so one after the other. -/
theorem Lockstep.bind {f : α → ExceptT ε (StateM τ) β} {g : α → ExceptT ε (StateM τ') β}
    (hxy : Lockstep S x y) (hfg : ∀ r, Lockstep S (f r) (g r)) :
    Lockstep S (x >>= f) (y >>= g) := by
  intro a b hab
  obtain ⟨hanswer, hleft⟩ := hxy a b hab
  rw [exec_bind, exec_bind]
  rcases hx : exec x a with ⟨e | r, a'⟩ <;> rcases hy : exec y b with ⟨e' | r', b'⟩ <;>
    rw [hx, hy] at hanswer hleft <;> cases hanswer
  · exact ⟨rfl, hleft⟩
  · exact hfg r a' b' hleft

/-- What is in lockstep one by one is so in a row. -/
theorem lockstep_forM {f : α → ExceptT ε (StateM τ) Unit} {g : α → ExceptT ε (StateM τ') Unit}
    (hfg : ∀ r, Lockstep S (f r) (g r)) : ∀ rs : List α, Lockstep S (rs.forM f) (rs.forM g)
  | [] => lockstep_pure ()
  | r :: rs => (hfg r).bind fun _ => lockstep_forM hfg rs

/-- What is done with a state that was read has to be in lockstep on related states only. -/
theorem lockstep_get {f : τ → ExceptT ε (StateM τ) β} {g : τ' → ExceptT ε (StateM τ') β}
    (hfg : ∀ a b, S a b → Lockstep S (f a) (g b)) : Lockstep S (get >>= f) (get >>= g) := by
  intro a b hab
  rw [exec_bind_ok (exec_get a), exec_bind_ok (exec_get b)]
  exact hfg a b hab a b hab

end

/-! ## Walks -/

/-- Two walks that entered the same nodes, on related scenes. -/
structure Alongside (S : Scene σ → Scene σ → Prop) (a b : WalkState σ) : Prop where
  trail : b.trail = a.trail
  scene : S a.scene b.scene

/-- Hooks answer alike on related scenes, which have one program. -/
structure Paired (h : Hooks σ) (S : Scene σ → Scene σ → Prop) : Prop where
  program : ∀ {x y}, S x y → y.program = x.program
  hook : ∀ {n hook}, HookAt h n hook → Lockstep S hook hook

section

variable {h : Hooks σ} {S : Scene σ → Scene σ → Prop} {rest : Task → WalkM σ Unit}

/-- Both walks read one program. -/
theorem Paired.readProgram (hS : Paired h S) {f : Program → WalkM σ α}
    (hf : ∀ p, Lockstep (Alongside S) (f p) (f p)) :
    Lockstep (Alongside S) (Walk.program >>= f) (Walk.program >>= f) := by
  intro a b hab
  rw [exec_bind_ok (exec_program a), exec_bind_ok (exec_program b), hS.program hab.scene]
  exact hf _ a b hab

theorem lockstep_fail (n : NodeId) (cause : Cause) :
    Lockstep (Alongside S) (fail h n cause : WalkM σ α) (fail h n cause) :=
  fun _ _ hab => ⟨rfl, hab⟩

/-- Both walks enter the node, or neither does. -/
theorem Paired.enter (hS : Paired h S) (n : NodeId) :
    Lockstep (Alongside S) (Walk.enter h n) (Walk.enter h n) := by
  intro a b hab
  rw [exec_enter, exec_enter, hS.program hab.scene, hab.trail]
  cases a.scene.program.has n with
  | false => exact ⟨rfl, hab⟩
  | true =>
    cases a.trail.enter n with
    | error cause => exact ⟨rfl, hab⟩
    | ok trail => exact ⟨rfl, rfl, hab.scene⟩

theorem lockstep_leave (n : NodeId) :
    Lockstep (Alongside S) (leave n : WalkM σ Unit) (leave n) := by
  intro a b hab
  rw [exec_leave, exec_leave, hab.trail]
  exact ⟨rfl, rfl, hab.scene⟩

/-- Hooks that answer alike keep walks in lockstep. -/
theorem Paired.call (hS : Paired h S) {n : NodeId} {hook : HookM σ Unit} (hat : HookAt h n hook) :
    Lockstep (Alongside S) (Walk.call h n hook) (Walk.call h n hook) := by
  intro a b hab
  obtain ⟨hanswer, hscene⟩ := hS.hook hat _ _ hab.scene
  rw [exec_call, exec_call]
  rcases hx : exec hook a.scene with ⟨(cause | fault) | ⟨⟩, x⟩ <;>
    rcases hy : exec hook b.scene with ⟨(cause' | fault') | ⟨⟩, y⟩ <;>
    rw [hx, hy] at hanswer hscene <;> cases hanswer <;> exact ⟨rfl, hab.trail, hscene⟩

/-- Both walks go through a statement. -/
theorem Paired.inside (hS : Paired h S) (hrest : ∀ t, Lockstep (Alongside S) (rest t) (rest t))
    (s : StmtId) : Lockstep (Alongside S) (Walk.inside rest s) (Walk.inside rest s) := by
  refine (hrest _).bind fun _ => Lockstep.bind (hS.readProgram fun p => ?_) fun _ =>
    hS.readProgram fun p => ?_
  · cases p.declared? s with
    | none => exact lockstep_pure ()
    | some y => exact hrest _
  · cases p.children s with
    | none => exact lockstep_pure ()
    | list list => exact hrest _
    | places places => exact lockstep_forM (fun place => hrest _) places

/-- If the tasks on the way are done in lockstep, then so is a task. -/
theorem Paired.visit (hS : Paired h S) (hrest : ∀ t, Lockstep (Alongside S) (rest t) (rest t)) :
    ∀ task, Lockstep (Alongside S) (Walk.visit h rest task) (Walk.visit h rest task)
  | .module m => (hS.enter _).bind fun _ => (hrest _).bind fun _ => lockstep_leave _
  | .symbol s =>
    (hS.enter _).bind fun _ => (hS.call (.preSymbol s)).bind fun _ => (hrest _).bind fun _ =>
      (hrest _).bind fun _ => (hS.call (.postSymbol s)).bind fun _ => lockstep_leave _
  | .stmt place => visit_stmt h rest place ▸ hS.readProgram fun p => by
    cases p.stmtAt? place with
    | none => exact lockstep_pure ()
    | some s =>
      exact (hS.enter _).bind fun _ => (hS.call (.preStmt s place)).bind fun _ =>
        (hS.inside hrest s).bind fun _ => (hS.call (.postStmt s)).bind fun _ => lockstep_leave _
  | .expr place => hS.readProgram fun p => by
    cases p.exprAt? place with
    | none => exact lockstep_pure ()
    | some e =>
      refine (hS.enter _).bind fun _ => (hS.call (.preExpr e place)).bind fun _ =>
        hS.readProgram fun p => ?_
      cases p.exprAt? place with
      | none => exact lockstep_leave _
      | some e' =>
        by_cases he : e' = e
        · simp only [he, if_true]
          exact (hrest _).bind fun _ => (hS.call (.postExpr e)).bind fun _ => lockstep_leave _
        · simp only [he, if_false]
          refine (lockstep_leave _).bind fun _ => lockstep_get fun a b hab => ?_
          -- whether the new expression was entered before is a matter of the trail
          rw [hab.trail]
          split
          · exact lockstep_pure ()
          · exact hrest _
  | .symbols list => hS.readProgram fun p => by
    cases (p.symbolList? list).bind (firstRepeat? []) with
    | none => exact hrest _
    | some s => exact lockstep_fail _ _
  | .symbolsFrom list cursor => hS.readProgram fun p => by
    cases (p.symbolList? list).bind cursor.next? with
    | none => exact lockstep_pure ()
    | some r => exact (hrest _).bind fun _ => hrest _
  | .stmts list => hS.readProgram fun p => by
    cases (p.stmtList? list).bind (firstRepeat? []) with
    | none => exact hrest _
    | some s => exact lockstep_fail _ _
  | .stmtsFrom list cursor => hS.readProgram fun p => by
    cases (p.stmtList? list).bind cursor.next? with
    | none => exact lockstep_pure ()
    | some r => exact (hrest _).bind fun _ => hrest _
  | .operandsFrom owner index => hS.readProgram fun p => by
    by_cases hi : index < (p.operands owner).length
    · simp only [hi, if_true]
      exact (hrest _).bind fun _ => hrest _
    · simp only [hi, if_false]
      exact lockstep_pure ()

/-- Walks with such hooks are in lockstep, at any depth. -/
theorem Paired.walk (hS : Paired h S) :
    ∀ depth task, Lockstep (Alongside S) (Walk.walk h depth task) (Walk.walk h depth task)
  | 0, _ => lockstep_throw _
  | depth + 1, task => hS.visit (hS.walk depth) task

/-- Walks with hooks that answer alike are in lockstep. -/
theorem Paired.run (hS : Paired h S) (task : Task) :
    Lockstep (Alongside S) (Walk.run h task) (Walk.run h task) := hS.walk depthLimit task

end

end Walk

/-! ## Passes -/

open Walk

/-- A run, read off the state in which it ends. -/
theorem Pass.run_eq {σ : Type} (pass : Pass σ) (modules : List ModuleId) (scene : Scene σ) :
    pass.run modules scene =
      ((exec (pass.runModules modules) ⟨.start, scene⟩).1.map fun () =>
        (exec (pass.runModules modules) ⟨.start, scene⟩).2.trail.tally,
        (exec (pass.runModules modules) ⟨.start, scene⟩).2.scene) := rfl

/-- The hooks of a pass answer alike on related scenes, in which the pass has one context. -/
structure Pass.Paired {σ : Type} (pass : Pass σ) (S : Scene σ → Scene σ → Prop) : Prop extends
    Walk.Paired pass.hooks S where
  context : ∀ {x y}, S x y → pass.context y.own = pass.context x.own
  withContext : ∀ {x y} (c : Context), S x y →
    S { x with own := pass.withContext x.own c } { y with own := pass.withContext y.own c }

namespace Pass.Paired

variable {σ : Type} {pass : Pass σ} {S : Scene σ → Scene σ → Prop}

/-- Both passes move, or neither does. -/
theorem move (hS : pass.Paired S) (m : ModuleId) (step : ContextM Unit) :
    Lockstep (Alongside S) (pass.move m step) (pass.move m step) := by
  intro a b hab
  simp only [Pass.move, exec_bind, exec_get, run_eq_exec, hS.context hab.scene]
  obtain ⟨_ | ⟨⟩, c⟩ := exec step (pass.context a.scene.own) <;>
    exact ⟨rfl, hab.trail, hS.withContext c hab.scene⟩

/-- Both passes go through the modules. -/
theorem runModules (hS : pass.Paired S) (modules : List ModuleId) :
    Lockstep (Alongside S) (pass.runModules modules) (pass.runModules modules) :=
  lockstep_forM (fun m => (hS.move m _).bind fun _ => (hS.toPaired.run _).bind fun _ => hS.move m _)
    modules

/-- Runs of a pass on related scenes enter as many nodes or halt alike, and leave related scenes. -/
theorem run (hS : pass.Paired S) (modules : List ModuleId) {x y : Scene σ} (hxy : S x y) :
    (pass.run modules y).1 = (pass.run modules x).1 ∧
      S (pass.run modules x).2 (pass.run modules y).2 := by
  obtain ⟨hanswer, htrail, hscene⟩ := hS.runModules modules ⟨.start, x⟩ ⟨.start, y⟩ ⟨rfl, hxy⟩
  rw [run_eq, run_eq]
  exact ⟨by rw [hanswer, htrail], hscene⟩

end Pass.Paired

end MiddleEnd
