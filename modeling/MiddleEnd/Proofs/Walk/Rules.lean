import MiddleEnd.Proofs.Walk.Nesting
import MiddleEnd.Proofs.Walk.Scoped

/-!
# MiddleEnd.Proofs.Walk.Rules

The ways in which a walk is put together.  A property of computations and the states they start from
that is closed under these (`Rules`) holds of every task but a module (`Rules.run`), whatever the
hooks do: of doing nothing, of one part after another, of halting at a repeated entry of a list, and
of a visit.  A visit is a node that is entered, its first hook, and what comes then (`Rest`): the
node's own and its last hook, or, where the first hook took an expression from its place, what is
there now.
-/

namespace MiddleEnd

/-- A list of the program repeats the node. -/
def Program.Repeats (p : Program) : NodeId → Prop
  | .symbol s => ∃ list, (p.symbolList? list).bind (firstRepeat? []) = some s
  | .stmt s => ∃ list, (p.stmtList? list).bind (firstRepeat? []) = some s
  | _ => False

/-- A task inside of a module. -/
def Task.IsInner : Task → Prop
  | .module _ => False
  | _ => True

namespace Walk

variable {σ : Type} {h : Hooks σ}

/-- What comes after the first hook of a node: the visit of the node goes on, or it was taken from
its place and is left first of all. -/
structure Rest (h : Hooks σ) (P : WalkM σ Unit → WalkState σ → Prop) (c d : Call)
    (k : WalkM σ Unit) (st : WalkState σ) : Prop where
  goes_on : ¬ c.DroppedIn st.scene.program → ∃ x, P x st ∧
    exec k st = exec (do x; call h c.node (h.hook d); leave c.node) st
  dropped : c.DroppedIn st.scene.program → ∃ x, P x (leaving c.node st) ∧
    exec k st = exec (do leave c.node; x) st

/-- A property is closed under the ways in which a walk is put together. -/
structure Rules (h : Hooks σ) (P : WalkM σ Unit → WalkState σ → Prop) : Prop where
  nothing : ∀ st, P (pure ()) st
  same : ∀ {x y st}, exec x st = exec y st → P y st → P x st
  andThen : ∀ {x y st}, P x st → (∀ st₁, exec x st = (.ok (), st₁) → P y st₁) →
    P (x >>= fun _ => y) st
  repeated : ∀ {n st}, st.scene.program.Repeats n → P (fail h n .sharedNode) st
  node : ∀ {c d k st}, c.isPre = true → d.isPre = false → d.node = c.node →
    (∀ st₁ st₂, exec (enter h c.node) st = (.ok (), st₁) →
      exec (call h c.node (h.hook c)) st₁ = (.ok (), st₂) → Rest h P c d k st₂) →
    P (do enter h c.node; call h c.node (h.hook c); k) st

namespace Rules

variable {P : WalkM σ Unit → WalkState σ → Prop} {st st₁ st₂ : WalkState σ}

/-- What is read of the program is known. -/
theorem reads (hP : Rules h P) {f : Program → WalkM σ Unit} (hf : P (f st.scene.program) st) :
    P (program >>= f) st :=
  hP.same (exec_bind_ok (exec_program st)) hf

/-- From a state on, and after whatever is entered besides, inner tasks have the property. -/
def From (h : Hooks σ) (P : WalkM σ Unit → WalkState σ → Prop) (st : WalkState σ) : Prop :=
  ∀ task st', Grown st st' → task.IsInner → P (Walk.run h task) st'

/-- The branches of a statement have the property if they have it one by one. -/
theorem places (hP : Rules h P) : ∀ {places : List StmtPlace} {st : WalkState σ}, From h P st →
    P (places.forM fun place => Walk.run h (.stmt place)) st
  | [], st, _ => hP.nothing st
  | place :: places, st, hfrom => by
    refine hP.andThen (hfrom _ st (fun _ hn => hn) trivial) fun st₁ hexec => ?_
    have hgrown := grown_of_exec ((grown_local h).run _) hexec
    exact hP.places fun task st' hst' => hfrom task st' fun n hn => hst' n (hgrown n hn)

/-- All that a statement owns has the property if its parts do. -/
theorem inside (hP : Rules h P) {s : StmtId} (hfrom : From h P st) :
    P (Walk.inside (Walk.run h) s) st := by
  have hG := grown_local h
  refine hP.andThen (hfrom _ st (fun _ hn => hn) trivial) fun st₁ hexec₁ => ?_
  have hgrown₁ := grown_of_exec (hG.run _) hexec₁
  refine hP.andThen (hP.reads ?_) fun st₂ hexec₂ => hP.reads ?_
  · cases st₁.scene.program.declared? s with
    | none => exact hP.nothing st₁
    | some y => exact hfrom _ st₁ hgrown₁ trivial
  · have hgrown₂ : Grown st st₂ := fun n hn =>
      grown_of_exec (hG.throughDeclared hG.run s) hexec₂ n (hgrown₁ n hn)
    cases st₂.scene.program.children s with
    | none => exact hP.nothing st₂
    | list list => exact hfrom _ st₂ hgrown₂ trivial
    | places places =>
      exact hP.places fun task st' hst' => hfrom task st' fun n hn => hst' n (hgrown₂ n hn)

/-- Once a node was entered and its first hook called, inner tasks have the property. -/
theorem from_of_entered {task : Task} {c : Call}
    (ih : Below (fun task st => task.IsInner → P (Walk.run h task) st) task st)
    (henter : exec (enter h c.node) st = (.ok (), st₁))
    (hcall : exec (call h c.node (h.hook c)) st₁ = (.ok (), st₂)) : From h P st₂ := by
  intro t st' hgrown hinner
  obtain ⟨_, hunseen, rfl⟩ := of_exec_enter_ok henter
  have hgrown₂ := grown_of_exec ((grown_local h).call (hookAt_hook h c)) hcall
  refine ih.later (Nat.lt_of_le_of_lt (Grown.room_le fun n hn => hgrown n (hgrown₂ n hn)) ?_) hinner
  exact room_entering_lt hunseen

/-- An expression is visited if it is in its place after its first hook.  If another one is, that
one is visited next, unless it was entered before. -/
theorem rest_expr (hP : Rules h P) {e : ExprId} {place : ExprPlace} (hfrom : From h P st) :
    Rest h P (.preExpr e place) (.postExpr e) (do
      match (← program).exprAt? place with
      | none => leave (.expr e)
      | some e' =>
        if e' = e then
          Walk.run h (.operandsFrom (.expr e) 0)
          call h (.expr e) (h.postExpr e)
          leave (.expr e)
        else
          leave (.expr e)
          unless (← get).trail.seen.contains (.expr e') do
            Walk.run h (.expr place)) st where
  goes_on hat := by
    refine ⟨_, hfrom (.operandsFrom (.expr e) 0) st (fun _ hn => hn) trivial, ?_⟩
    rw [Call.DroppedIn, ne_eq, not_not] at hat
    rw [exec_bind_ok (exec_program st), hat]
    simp only [if_true]
    rfl
  dropped hat := by
    rw [exec_bind_ok (exec_program st)]
    cases he : st.scene.program.exprAt? place with
    | none => exact ⟨pure (), hP.nothing _, rfl⟩
    | some e' =>
      have hne : e' ≠ e := fun hee => hat (he.trans (congrArg some hee))
      simp only [hne, if_false]
      refine ⟨_, hP.same (exec_bind_ok (exec_get _)) ?_, rfl⟩
      split
      · exact hP.nothing _
      · exact hfrom _ _ (fun _ hn => hn) trivial

/-- Every task but a module has the property. -/
theorem run (hP : Rules h P) (task : Task) (st : WalkState σ) (hinner : task.IsInner) :
    P (Walk.run h task) st := by
  revert hinner
  induction task, st using task_induction with
  | step task st ih =>
  intro hinner
  rw [run_eq]
  cases task with
  | module m => exact hinner.elim
  | symbol s =>
    refine hP.node (c := .preSymbol s) (d := .postSymbol s) rfl rfl rfl fun st₁ st₂ henter hcall =>
      ⟨fun _ => ⟨do Walk.run h (.symbols (.symbol s)); Walk.run h (.stmts (.body s)), ?_, ?_⟩,
        fun hdropped => hdropped.elim⟩
    · have hfrom := from_of_entered ih henter hcall
      exact hP.andThen (hfrom _ st₂ (fun _ hn => hn) trivial) fun st₃ hexec =>
        hfrom _ st₃ (grown_of_exec ((grown_local h).run _) hexec) trivial
    · rw [bind_assoc]
      rfl
  | stmt place =>
    rw [visit_stmt]
    refine hP.reads ?_
    cases st.scene.program.stmtAt? place with
    | none => exact hP.nothing st
    | some s =>
      exact hP.node (c := .preStmt s place) (d := .postStmt s) rfl rfl rfl fun _ _ henter hcall =>
        ⟨fun _ => ⟨_, hP.inside (from_of_entered ih henter hcall), rfl⟩,
          fun hdropped => hdropped.elim⟩
  | expr place =>
    refine hP.reads ?_
    cases st.scene.program.exprAt? place with
    | none => exact hP.nothing st
    | some e =>
      exact hP.node (c := .preExpr e place) (d := .postExpr e) rfl rfl rfl fun _ _ henter hcall =>
        hP.rest_expr (from_of_entered ih henter hcall)
  | symbols list =>
    refine hP.reads ?_
    cases hrepeat : (st.scene.program.symbolList? list).bind (firstRepeat? []) with
    | none => exact ih.lighter (t := .symbolsFrom list .start) (by simp [Task.weight]) trivial
    | some s => exact hP.repeated ⟨list, hrepeat⟩
  | symbolsFrom list cursor =>
    refine hP.reads ?_
    cases (st.scene.program.symbolList? list).bind cursor.next? with
    | none => exact hP.nothing st
    | some r =>
      refine hP.andThen (ih.lighter (t := .symbol _) (by simp [Task.weight]) trivial)
        fun st₁ hexec => ?_
      exact ih.later (t := .symbolsFrom list _) (room_lt_of_walk (.symbol _) trivial hexec) trivial
  | stmts list =>
    refine hP.reads ?_
    cases hrepeat : (st.scene.program.stmtList? list).bind (firstRepeat? []) with
    | none => exact ih.lighter (t := .stmtsFrom list .start) (by simp [Task.weight]) trivial
    | some s => exact hP.repeated ⟨list, hrepeat⟩
  | stmtsFrom list cursor =>
    refine hP.reads ?_
    cases hnext : (st.scene.program.stmtList? list).bind cursor.next? with
    | none => exact hP.nothing st
    | some r =>
      obtain ⟨i, s, cursor'⟩ := r
      obtain ⟨entries, hentries, hnext⟩ := Option.bind_eq_some_iff.mp hnext
      have hat : st.scene.program.stmtAt? (.entry list i) = some s := by
        simp [Program.stmtAt?, hentries, Cursor.getElem?_of_next? hnext]
      refine hP.andThen (ih.lighter (t := .stmt (.entry list i)) (by simp [Task.weight]) trivial)
        fun st₁ hexec => ?_
      exact ih.later (t := .stmtsFrom list cursor') (room_lt_of_entry hat hexec) trivial
  | operandsFrom owner i =>
    refine hP.reads ?_
    by_cases hi : i < (st.scene.program.operands owner).length
    · have hat : st.scene.program.exprAt? ⟨owner, i⟩ = some (st.scene.program.operands owner)[i] :=
        List.getElem?_eq_getElem hi
      simp only [hi, if_true]
      refine hP.andThen (ih.lighter (t := .expr ⟨owner, i⟩) (by simp [Task.weight]) trivial)
        fun st₁ hexec => ?_
      exact ih.later (t := .operandsFrom owner (i + 1)) (room_lt_of_operand hat hexec) trivial
    · simp only [hi, if_false]
      exact hP.nothing st

end Rules

end Walk

end MiddleEnd
