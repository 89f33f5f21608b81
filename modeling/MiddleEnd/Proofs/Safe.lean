import MiddleEnd.Proofs.Normalize.Parens
import MiddleEnd.Proofs.Tracks

/-!
# MiddleEnd.Proofs.Safe

Both passes are safe on programs of any shape.  They halt only because of the shape of the tree, at
a node that is entered a second time or does not exist (`runs_halt_for_shape`): no hook refuses, and
nothing that is taken for granted is missing.

The hooks of `Normalize` read some nodes through total lookups.  `Normalize.runStrictly` reads each
of them as a node that must exist, and so does `Verify.declaredSeeds` for the modules that the
search for declared symbols starts from; neither meets a fault, and neither gives anything else.
-/

namespace MiddleEnd

open Walk

/-- A walk halted because of the shape of the tree. -/
def Halt.OfShape (pass : String) (e : Halt) : Prop :=
  ∃ n cause, e = .defect (.during pass n cause) ∧ cause.OfShape

namespace Pass.Tracks

variable {σ : Type} {pass : Pass σ}

/-- Every operation of a walk keeps the context in step, and is accepted. -/
theorem keeps_step (hpass : pass.Tracks) (modules : List ModuleId) :
    Scoped pass.hooks modules
      (fun stack st => (pass.context st.scene.own).Shows stack ∧ Grounded stack)
      fun e _ => e.OfShape pass.hooks.pass where
  refuse n cause _ hshape := ⟨n, cause, rfl, hshape⟩
  enter hst _ _ _ := ⟨(Context.Shows.congr rfl rfl).mpr hst.1, hst.2.module _⟩
  leave hst := ⟨(Context.Shows.congr rfl rfl).mp hst.1, hst.2.tail⟩
  opens {stack st c} hst hpre hsited hhas _ := by
    obtain ⟨d, hmove, hshows, _⟩ := hst.1.opens hpre
    obtain ⟨left, hexec, hcontext, _⟩ := hpass.moves st.scene (fun _ => hhas)
      (fun e place hc => hst.1.enclosingStmt (hst.2.stmt_of_sited (hc ▸ hsited))) hmove
    have hcall : exec (call pass.hooks c.node (pass.hooks.hook c)) (entering c.node st) = _ :=
      exec_call_ok hexec
    refine does_of_ok hcall
      ⟨fun _ => ⟨hcontext ▸ hshows, hst.2.opens hpre hsited⟩, fun hreplaced => ?_⟩
    cases c with
    | preExpr e place => exact ⟨(Context.Shows.congr rfl rfl).mp (hcontext ▸ hshows), hst.2⟩
    | _ => exact hreplaced.elim
  closes {stack st c} hst hpost := by
    obtain ⟨d, hmove, hshows, _⟩ := hst.1.closes hpost
    obtain ⟨left, hexec, hcontext, _⟩ := hpass.moves st.scene
      (fun hpre => absurd hpre (by simp [hpost]))
      (fun e place hc => by
        rw [hc] at hpost
        cases hpost) hmove
    have hcall : exec (call pass.hooks c.node (pass.hooks.hook c)) st = _ := exec_call_ok hexec
    exact does_of_ok hcall ⟨hcontext ▸ hshows, hst.2.tail⟩

/-- One module after another is begun, walked and ended, or the walk halts because of the shape of
the tree. -/
theorem runModules (hpass : pass.Tracks) : ∀ {modules : List ModuleId} {st : WalkState σ},
    (pass.context st.scene.own).Shows [] →
    Does (pass.runModules modules) st (fun _ st' => (pass.context st'.scene.own).Shows [])
      fun e _ => e.OfShape pass.hooks.pass
  | [], _, hst => .pure hst
  | m :: modules, st, hst => by
    refine Does.bind ?_ fun _ st' hst' => runModules hpass hst'
    obtain ⟨hbegin, hbegun⟩ := hst.beginModule m
    refine .step (pass.exec_move m hbegin) ?_
    have hshows : (pass.context (pass.withContext st.scene.own
        ((pass.context st.scene.own).inModule m))).Shows [] := by
      rw [hpass.withContext]
      exact hbegun
    have hwalk := (hpass.keeps_step [m]).run (.module m)
      ⟨st.trail, st.scene.program, pass.withContext st.scene.own _⟩ ⟨hshows, grounded_nil⟩
      List.mem_cons_self
    refine hwalk.bind fun _ st' hst' => ?_
    obtain ⟨hend, hended⟩ := hst'.1.endModule
    refine does_of_ok (pass.exec_move m hend) ?_
    rw [hpass.withContext]
    exact hended

/-- A run halts only because of the shape of the tree. -/
theorem run (hpass : pass.Tracks) {modules : List ModuleId} {scene scene' : Scene σ} {e : Halt}
    (hrun : pass.run modules scene = (.error e, scene'))
    (hscene : (pass.context scene.own).Shows []) : e.OfShape pass.hooks.pass := by
  have hdoes : Does (pass.runModules modules) ⟨.start, scene⟩ _ _ := hpass.runModules hscene
  simp only [Pass.run, run_eq_exec] at hrun
  rcases hexec : exec (pass.runModules modules) ⟨.start, scene⟩ with ⟨e' | ⟨⟩, st'⟩
  · rw [hexec] at hrun
    cases hrun
    exact hdoes.of_error hexec
  · rw [hexec] at hrun
    cases hrun

end Pass.Tracks

/-- At the start nothing is visited. -/
theorem Context.shows_start : Context.start.Shows [] := ⟨rfl, rfl, rfl⟩

/-- What does the same from every state is the same. -/
theorem Walk.exec_ext {τ ε α : Type} {x y : ExceptT ε (StateM τ) α}
    (h : ∀ st, exec x st = exec y st) : x = y := funext h

namespace Normalize

/-- A run that fails halts because of the shape of the tree. -/
theorem ofShape_of_run {r : Rules} {modules : List ModuleId} {p : Program} {e : Halt}
    (h : (Normalize.run r modules p).1 = .error e) : e.OfShape pass.hooks.pass := by
  rw [Normalize.run] at h
  rcases hrun : pass.run modules ⟨p, .start r⟩ with ⟨e' | tally, scene⟩
  · rw [hrun] at h
    cases h
    exact tracks.run hrun Context.shows_start
  · rw [hrun] at h
    cases h

/-! ## Nodes that are taken for granted -/

/-- Move the condition of an `if` in a list into a new temporary. -/
def hoisting (s : StmtId) (list : StmtList) (cond : ExprId) (line : UInt32) : Rewrite :=
  fun scene =>
  { scene with
    program := hoistInto scene.program s list cond line ("_t" ++ scene.own.nextTemp.repr)
    own.counts.hoistedTemps := scene.own.counts.hoistedTemps + 1
    own.nextTemp := scene.own.nextTemp + 1 }

/-- Move the condition of an `if` in a list into a new temporary, where it is a call.  The `if` and
what is under the parentheses of its condition are taken for granted. -/
def hoistStrictly (s : StmtId) (place : StmtPlace) : NormalizeM Unit := do
  match place.list? with
  | none => pure ()
  | some list =>
    let stmt ← need (·.stmt s)
    match stmt.kind with
    | .ifElse cond _ _ =>
      match stripParens? (← get).program [] cond with
      | none => pure ()
      | some inner =>
        let expr ← need (·.expr inner)
        match expr.kind with
        | .call _ _ =>
          if s ∈ ((← get).program.stmtList? list).getD [] then
            let stmt ← need (·.stmt s)
            modify (hoisting s list cond stmt.line)
        | _ => pure ()
    | _ => pure ()

/-- Record what encloses a statement and rewrite it, with all nodes taken for granted. -/
def preStmtStrictly (s : StmtId) (place : StmtPlace) : NormalizeM Unit := do
  let stmt ← need (·.stmt s)
  let own := (← get).own
  edit (·.updateStmt s fun stmt => { stmt with
    parentStmt := own.context.enclosingStmt, parentSymbol := own.context.enclosingSymbol })
  modify (applyIf (own.rules.dropNops && stmt.kind = .nop) (dropNop s place))
  modify (applyIf own.rules.wrapBranches (wrapBranches s))
  if own.rules.hoistCallConditions then hoistStrictly s place
  move (Context.enterStmt s)

/-- The pass, with all nodes taken for granted. -/
def strictPass : Pass Normalizer := { pass with hooks := { hooks with preStmt := preStmtStrictly } }

/-- Normalise modules in order, with all nodes taken for granted. -/
def runStrictly (r : Rules) (modules : List ModuleId) (p : Program) :
    Except Halt Report × Program :=
  let (result, scene) := strictPass.run modules ⟨p, .start r⟩
  (result.map fun tally => ⟨scene.own.counts, tally⟩, scene.program)

section

variable {scene : Scene Normalizer} {s : StmtId} {place : StmtPlace}

theorem exec_need {α : Type} (read : Program → Except Fault α) (scene : Scene Normalizer) :
    exec (need read) scene = match read scene.program with
      | .ok a => (.ok a, scene)
      | .error fault => (.error (.fault fault), scene) := by
  simp only [need, exec_bind, exec_get]
  cases read scene.program <;> rfl

/-- Where the statement exists, nothing else is missing. -/
theorem exec_hoistStrictly {x : Stmt} (hx : scene.program.stmt? s = some x) :
    exec (hoistStrictly s place) scene = (.ok (), hoistCondition s place scene) := by
  have hneed : scene.program.stmt s = .ok x := by rw [Program.stmt, hx]
  rw [hoistCondition_eq, hoistStrictly]
  cases place.list? with
  | none => rfl
  | some list =>
    simp only [exec_bind, exec_need, hneed, Option.bind_some]
    cases hk : x.kind with
    | ifElse cond t f =>
      have hhoistable : hoistable? scene.program s list =
          if isCall scene.program cond && s ∈ (scene.program.stmtList? list).getD [] then
            some (cond, x.line) else none := by
        simp [hoistable?, hx, hk]
      simp only [exec_bind, exec_get]
      rcases underParens?_of_strip scene.program cond with
        ⟨hstrip, hunder⟩ | ⟨inner, y, hstrip, hy, hunder⟩
      · have hcall : isCall scene.program cond = false := by simp [isCall, hunder]
        simp only [hstrip, hhoistable, hcall, Bool.false_and, Bool.false_eq_true, if_false,
          Option.map_none, exec_pure]
      · have hexpr : scene.program.expr inner = .ok y := by rw [Program.expr, hy]
        simp only [hstrip, exec_bind, exec_need, hexpr]
        cases hkind : y.kind with
        | call callee args =>
          have hcall : isCall scene.program cond = true := by simp [isCall, hunder, hkind]
          simp only [hhoistable, hcall, Bool.true_and, exec_bind, exec_get]
          by_cases hmem : s ∈ (scene.program.stmtList? list).getD []
          · simp only [hmem, if_true, decide_true, exec_bind, exec_need, hneed, exec_modify,
              Option.map_some]
            rfl
          · simp only [hmem, if_false, decide_false, Bool.false_eq_true, exec_pure, Option.map_none]
        | _ =>
          have hcall : isCall scene.program cond = false := by simp [isCall, hunder, hkind]
          simp only [hhoistable, hcall, Bool.false_and, Bool.false_eq_true, if_false,
            Option.map_none, exec_pure]
    | _ => simp [hoistable?, hx, hk]

/-- A statement that exists before its rewrites exists between them. -/
theorem preStmtStrictly_eq : preStmtStrictly = preStmt := by
  funext s place
  refine exec_ext fun scene => ?_
  rw [exec_preStmt]
  simp only [preStmtStrictly, exec_bind, exec_need]
  cases hstmt : scene.program.stmt s with
  | error fault => rfl
  | ok x =>
    simp only [exec_get, edit, exec_modify]
    set marked : Scene Normalizer := { scene with program := scene.program.updateStmt s _ }
    have hhas : marked.program.has (.stmt s) = true := by
      have hsame : marked.program.stmts.size = scene.program.stmts.size :=
        (Program.sameSize_updateStmt _ _).stmts
      have hx : scene.program.has (.stmt s) = true := by
        rw [Program.stmt] at hstmt
        cases hy : scene.program.stmt? s with
        | none => simp [hy] at hstmt
        | some y => simp [Program.has, hy]
      rw [Program.has_stmt] at hx ⊢
      rw [hsame]
      exact hx
    have hlarger := Larger.composes.trans
      (larger_applyIf (larger_dropNop s place)
        (scene.own.rules.dropNops && decide (x.kind = .nop)) marked)
      (larger_applyIf (larger_wrapBranches s) scene.own.rules.wrapBranches _)
    obtain ⟨y, hy⟩ := Option.isSome_iff_exists.mp
      (show (Program.stmt? _ s).isSome = true from hlarger.has _ hhas)
    rw [rewriteStmt]
    cases scene.own.rules.hoistCallConditions with
    | false => rfl
    | true => exact exec_bind_ok (exec_hoistStrictly hy)

/-- The pass never meets a node that is not there, so taking nodes for granted changes nothing. -/
theorem strictPass_eq : strictPass = pass := by
  rw [strictPass, preStmtStrictly_eq]
  rfl

/-- No node that a run takes for granted is missing. -/
theorem runStrictly_eq : runStrictly = Normalize.run := by
  funext r modules p
  rw [runStrictly, strictPass_eq]
  rfl

end

end Normalize

namespace Verify

/-- A verification that fails halts because of the shape of the tree. -/
theorem ofShape_of_run {checks : Checks} {modules : List ModuleId} {p : Program} {e : Halt}
    (h : Verify.run checks modules p = .error e) : e.OfShape pass.hooks.pass := by
  rw [Verify.run] at h
  rcases hrun : pass.run modules
    ⟨p, .start checks (if checks.symbolRefs then p.declaredNodes else .empty)⟩ with
    ⟨e' | tally, scene⟩
  · rw [hrun] at h
    cases h
    exact tracks.run hrun Context.shows_start
  · rw [hrun] at h
    cases h

/-- What the search for declared symbols starts from, with all modules taken for granted. -/
def declaredSeeds (p : Program) : Except Fault (List NodeId) := do
  let symbols ← p.moduleIds.mapM fun m => (p.module m).map (·.symbols)
  return symbols.flatten.map .symbol

/-- The search for declared symbols starts from modules that are there. -/
theorem declaredSeeds_eq (p : Program) :
    declaredSeeds p = .ok (p.moduleIds.flatMap fun m => p.successors (.module m)) := by
  have hmodules : ∀ ms : List ModuleId, (∀ m ∈ ms, (p.module? m).isSome) →
      ms.mapM (fun m => (p.module m).map (·.symbols)) =
        .ok (ms.map fun m => (p.symbolList? (.module m)).getD []) := fun ms hms => by
    induction ms with
    | nil => rfl
    | cons m ms ih =>
      obtain ⟨x, hx⟩ := Option.isSome_iff_exists.mp (hms m List.mem_cons_self)
      rw [List.mapM_cons, ih fun k hk => hms k (List.mem_cons_of_mem m hk)]
      simp [Program.module, hx, Program.symbolList?, Except.map, bind, Except.bind, pure,
        Except.pure]
  rw [declaredSeeds, hmodules _ fun m hm => ?_]
  · simp [bind, Except.bind, pure, Except.pure, List.flatMap, List.map_flatten,
      Program.successors, Function.comp_def]
  · obtain ⟨i, hi, rfl⟩ := List.mem_map.mp hm
    rw [Program.module?, Option.isSome_iff_exists]
    refine ⟨_, Array.getElem?_eq_getElem (Nat.lt_of_le_of_lt ?_ (List.mem_range.mp hi))⟩
    simp [ModuleId.index, ModuleId.ofIndex, Nat.mod_le]

end Verify

/-- Whatever the program, the modules, the rules and the checks, both passes halt only because of
the shape of the tree.  No node is missing that a hook, or the search for declared symbols, takes
for granted. -/
theorem runs_halt_for_shape (r : Normalize.Rules) (checks : Checks) (modules : List ModuleId)
    (p : Program) :
    (∀ e, (Normalize.runStrictly r modules p).1 = .error e →
      e.OfShape Normalize.pass.hooks.pass) ∧
    Normalize.runStrictly r modules p = Normalize.run r modules p ∧
    (∀ e, Verify.run checks modules p = .error e → e.OfShape Verify.pass.hooks.pass) ∧
    Verify.declaredSeeds p = .ok (p.moduleIds.flatMap fun m => p.successors (.module m)) := by
  exact ⟨fun e he => Normalize.ofShape_of_run (by rwa [Normalize.runStrictly_eq] at he),
    by rw [Normalize.runStrictly_eq], fun e he => Verify.ofShape_of_run he,
    Verify.declaredSeeds_eq p⟩

end MiddleEnd
