import MiddleEnd.Proofs.Walk.Log
import MiddleEnd.Proofs.Walk.Outcome
import MiddleEnd.Proofs.Walk.Visit

/-!
# MiddleEnd.Proofs.Walk.Scoped

Invariants of a walk that know which visits are going on.  `Scoped` lists what the operations of one
node have to keep: a node is entered together with its first hook, which puts it on a stack, and it
is left together with its last hook, which takes it from there; an expression that its own first
hook took from its place is left without a last hook.  `Scoped.run` concludes that every task leaves
the stack as it found it, or halts as the operations do.

The stack is no part of the state, and nothing is asked of the program: hooks may write what they
like.  All that is known of a task is that what it asks about is the innermost visit
(`Task.AtTop`), and of a node that it is held there (`Call.Sited`).
-/

namespace MiddleEnd

/-- A cause that says how the tree is shaped, not how it was walked. -/
def Cause.OfShape (c : Cause) : Prop := c = .cycle ∨ c = .sharedNode ∨ c = .missingNode

/-- The node of a first hook is held in a position of the innermost visit, which is the place that
the hook is told. -/
def Call.Sited (stack : List NodeId) (p : Program) (c : Call) : Prop :=
  ∃ pos, stack.head? = some pos.owner ∧ p.heldAt? pos = some c.node ∧
    ∀ told, c.place? = some told → told = pos

/-- An expression is not held any more where it was when its first hook was called. -/
def Call.Replaced (p : Program) : Call → Prop
  | .preExpr e place => p.exprAt? place ≠ some e
  | _ => False

/-- What a task asks about is the innermost visit. -/
def Task.AtTop (modules : List ModuleId) (stack : List NodeId) (p : Program) : Task → Prop
  | .module m => m ∈ modules
  | .symbol s => (Call.preSymbol s).Sited stack p
  | .stmt place => stack.head? = some place.holder
  | .expr place => stack.head? = some place.owner.node
  | .symbols list | .symbolsFrom list _ => stack.head? = some list.node
  | .stmts list | .stmtsFrom list _ => stack.head? = some list.node
  | .operandsFrom owner _ => stack.head? = some owner.node

namespace Walk

variable {σ : Type} {h : Hooks σ} {modules : List ModuleId} {st st₁ : WalkState σ}

/-- The state in which a node has just been entered. -/
def entering (n : NodeId) (st : WalkState σ) : WalkState σ :=
  { st with trail := ⟨n :: st.trail.path, st.trail.seen.insert n, st.trail.tally.count n.step⟩ }

/-- The state in which a node has just been left. -/
def leaving (n : NodeId) (st : WalkState σ) : WalkState σ := { st with trail := st.trail.leave n }

/-- `I` holds at a stack of visits before and after each operation of a walk, and an operation halts
as `J` says. -/
structure Scoped (h : Hooks σ) (modules : List ModuleId) (I : List NodeId → WalkState σ → Prop)
    (J : Halt → WalkState σ → Prop) : Prop where
  refuse : ∀ {stack st} n {cause}, I stack st → cause.OfShape →
    J (.defect (.during h.pass n cause)) st
  enter : ∀ {stack st m}, I stack st → m ∈ modules → st.scene.program.has (.module m) = true →
    st.trail.seen.contains (.module m) = false → I (.module m :: stack) (entering (.module m) st)
  leave : ∀ {stack st m}, I (.module m :: stack) st → I stack (leaving (.module m) st)
  opens : ∀ {stack st c}, I stack st → c.isPre = true → c.Sited stack st.scene.program →
    st.scene.program.has c.node = true → st.trail.seen.contains c.node = false →
    Does (call h c.node (h.hook c)) (entering c.node st) (fun _ st' =>
      (¬ c.Replaced st'.scene.program → I (c.node :: stack) st') ∧
      (c.Replaced st'.scene.program → I stack (leaving c.node st'))) J
  closes : ∀ {stack st c}, I (c.node :: stack) st → c.isPre = false →
    Does (call h c.node (h.hook c)) st (fun _ st' => I stack (leaving c.node st')) J

/-- Entering a node forgets none. -/
theorem grown_entering (n : NodeId) (st : WalkState σ) : Grown st (entering n st) := fun m hm => by
  simp [entering, hm]

theorem seen_entering (n : NodeId) (st : WalkState σ) :
    (entering n st).trail.seen.contains n = true := by
  simp [entering]

/-- Entering a node leaves less room. -/
theorem room_entering_lt {n : NodeId} {st : WalkState σ} (hn : st.trail.seen.contains n = false) :
    (entering n st).trail.seen.room < st.trail.seen.room := NodeSet.room_insert_lt hn

/-- What forgets nothing leaves all that was entered. -/
theorem grown_of_exec {x : WalkM σ Unit} (hx : Keeps Grown x)
    (hexec : exec x st = (.ok (), st₁)) : Grown st st₁ := by
  have hgrown := hx st
  rwa [hexec] at hgrown

/-- What follows a part of a walk starts where that part ends well, with no more room. -/
theorem andThen {x y : WalkM σ Unit} {ok ok' : WalkState σ → Prop}
    {J : Halt → WalkState σ → Prop} (hx : Does x st (fun _ => ok) J) (hgrown : Keeps Grown x)
    (hy : ∀ st₁, exec x st = (.ok (), st₁) → ok st₁ → Grown st st₁ → Does y st₁ (fun _ => ok') J) :
    Does (x >>= fun _ => y) st (fun _ => ok') J := by
  rcases hexec : exec x st with ⟨e | ⟨⟩, st₁⟩
  · exact does_of_error (by rw [exec_bind, hexec]) (hx.of_error hexec)
  · exact .step hexec (hy st₁ hexec (hx.of_ok hexec) (grown_of_exec hgrown hexec))

namespace Scoped

/-- Another way to state an invariant. -/
theorem congr {I I' : List NodeId → WalkState σ → Prop} {J : Halt → WalkState σ → Prop}
    (hI : Scoped h modules I J) (heq : ∀ stack st, I stack st ↔ I' stack st) :
    Scoped h modules I' J := by
  obtain rfl : I = I' := funext fun stack => funext fun st => propext (heq stack st)
  exact hI

/-- Two invariants are kept together. -/
theorem and {I I' : List NodeId → WalkState σ → Prop} {J J' : Halt → WalkState σ → Prop}
    (hI : Scoped h modules I J) (hI' : Scoped h modules I' J') :
    Scoped h modules (fun stack st => I stack st ∧ I' stack st) fun e st => J e st ∧ J' e st where
  refuse n _ hst hshape := ⟨hI.refuse n hst.1 hshape, hI'.refuse n hst.2 hshape⟩
  enter hst hm hhas hunseen := ⟨hI.enter hst.1 hm hhas hunseen, hI'.enter hst.2 hm hhas hunseen⟩
  leave hst := ⟨hI.leave hst.1, hI'.leave hst.2⟩
  opens hst hpre hsited hhas hunseen :=
    ((hI.opens hst.1 hpre hsited hhas hunseen).and (hI'.opens hst.2 hpre hsited hhas hunseen)).mono
      (fun _ _ h => ⟨fun hkept => ⟨h.1.1 hkept, h.2.1 hkept⟩,
        fun hreplaced => ⟨h.1.2 hreplaced, h.2.2 hreplaced⟩⟩) fun _ _ h => h
  closes hst hpost := (hI.closes hst.1 hpost).and (hI'.closes hst.2 hpost)

variable {I : List NodeId → WalkState σ → Prop} {J : Halt → WalkState σ → Prop}
  {stack : List NodeId}

/-- A node is entered, or the walk halts because of the shape of the tree. -/
theorem andEnter (hI : Scoped h modules I J) {n : NodeId} {y : WalkM σ Unit}
    {ok : WalkState σ → Prop} (hst : I stack st)
    (hy : st.scene.program.has n = true → st.trail.seen.contains n = false →
      Does y (entering n st) (fun _ => ok) J) :
    Does (Walk.enter h n >>= fun _ => y) st (fun _ => ok) J := by
  rcases hexec : exec (Walk.enter h n) st with ⟨e | ⟨⟩, st₁⟩
  · refine does_of_error (by rw [exec_bind, hexec]) ?_
    have hdoes : Does (Walk.enter h n) st (fun _ _ => True) J :=
      does_enter _ (fun _ _ => trivial) (fun _ => hI.refuse n hst (.inr (.inr rfl)))
        (fun _ _ => hI.refuse n hst (.inl rfl)) fun _ _ => hI.refuse n hst (.inr (.inl rfl))
    exact hdoes.of_error hexec
  · obtain ⟨hhas, hunseen, rfl⟩ := of_exec_enter_ok hexec
    exact .step hexec (hy hhas hunseen)

/-- The last hook of a node is called, and the node is left. -/
theorem andClose (hI : Scoped h modules I J) {c : Call} (hst : I (c.node :: stack) st)
    (hc : c.isPre = false) :
    Does (do call h c.node (h.hook c); Walk.leave c.node) st (fun _ => I stack) J :=
  (hI.closes hst hc).bind fun _ _ hst' => does_of_ok (exec_leave _ _) hst'

section

variable {rest : Task → WalkM σ Unit} {s : StmtId}

/-- The statements held in places of the innermost visit are walked. -/
theorem places (hgrown : ∀ task, Keeps Grown (rest task)) : ∀ {places : List StmtPlace}
    {st : WalkState σ}, (∀ (task : Task) (st' : WalkState σ),
      st'.trail.seen.room ≤ st.trail.seen.room → I stack st' →
      task.AtTop modules stack st'.scene.program → Does (rest task) st' (fun _ => I stack) J) →
    I stack st → (∀ place ∈ places, stack.head? = some place.holder) →
    Does (places.forM fun place => rest (.stmt place)) st (fun _ => I stack) J
  | [], _, _, hst, _ => .pure hst
  | place :: places, st, hrest, hst, hholder => by
    refine andThen (hrest (.stmt place) st (Nat.le_refl _) hst (hholder place List.mem_cons_self))
      (hgrown _) fun st₁ _ h₁ hg₁ => ?_
    exact Scoped.places hgrown
      (fun task st' hroom => hrest task st' (Nat.le_trans hroom hg₁.room_le)) h₁
      fun place' hmem => hholder place' (List.mem_cons_of_mem place hmem)

/-- What a statement declares is walked while its visit is the innermost. -/
theorem throughDeclared
    (hrest : ∀ (task : Task) (st' : WalkState σ), st'.trail.seen.room ≤ st.trail.seen.room →
      I (.stmt s :: stack) st' → task.AtTop modules (.stmt s :: stack) st'.scene.program →
      Does (rest task) st' (fun _ => I (.stmt s :: stack)) J)
    (hst : I (.stmt s :: stack) st) :
    Does (Walk.throughDeclared rest s) st (fun _ => I (.stmt s :: stack)) J := by
  refine .step (exec_program st) ?_
  cases hd : st.scene.program.declared? s with
  | none => exact .pure hst
  | some y =>
    refine hrest (.symbol y) st (Nat.le_refl _) hst ⟨.declared s, rfl, ?_, by simp [Call.place?]⟩
    simp [Program.heldAt?, hd, Call.node]

/-- What stands in a statement is walked while its visit is the innermost. -/
theorem throughChildren (hgrown : ∀ task, Keeps Grown (rest task))
    (hrest : ∀ (task : Task) (st' : WalkState σ), st'.trail.seen.room ≤ st.trail.seen.room →
      I (.stmt s :: stack) st' → task.AtTop modules (.stmt s :: stack) st'.scene.program →
      Does (rest task) st' (fun _ => I (.stmt s :: stack)) J)
    (hst : I (.stmt s :: stack) st) :
    Does (Walk.throughChildren rest s) st (fun _ => I (.stmt s :: stack)) J := by
  refine .step (exec_program st) ?_
  cases hc : st.scene.program.children s with
  | none => exact .pure hst
  | list list =>
    obtain rfl := Program.children_list hc
    exact hrest (.stmts (.block s)) st (Nat.le_refl _) hst rfl
  | places places =>
    refine Scoped.places hgrown hrest hst fun place hmem => ?_
    rw [(Program.children_places hc).2 place hmem]
    rfl

/-- What a statement owns is walked while its visit is the innermost. -/
theorem inside (h : Hooks σ) (hgrown : ∀ task, Keeps Grown (rest task))
    (hrest : ∀ (task : Task) (st' : WalkState σ), st'.trail.seen.room ≤ st.trail.seen.room →
      I (.stmt s :: stack) st' → task.AtTop modules (.stmt s :: stack) st'.scene.program →
      Does (rest task) st' (fun _ => I (.stmt s :: stack)) J)
    (hst : I (.stmt s :: stack) st) :
    Does (Walk.inside rest s) st (fun _ => I (.stmt s :: stack)) J := by
  have hG := grown_local h
  refine andThen (hrest _ st (Nat.le_refl _) hst rfl) (hgrown _) fun st₁ _ h₁ hg₁ => ?_
  refine andThen (Scoped.throughDeclared (fun task st' hle =>
    hrest task st' (Nat.le_trans hle hg₁.room_le)) h₁) (hG.throughDeclared hgrown s)
    fun st₂ _ h₂ hg₂ => ?_
  exact Scoped.throughChildren hgrown (fun task st' hle =>
    hrest task st' (Nat.le_trans hle (Nat.le_trans hg₂.room_le hg₁.room_le))) h₂

end

/-- From a state in which what a task asks about is the innermost visit, the task leaves the visits
that are going on as it found them, or halts as an operation does. -/
def Restores (h : Hooks σ) (modules : List ModuleId) (I : List NodeId → WalkState σ → Prop)
    (J : Halt → WalkState σ → Prop) (task : Task) (st : WalkState σ) : Prop :=
  ∀ stack, I stack st → task.AtTop modules stack st.scene.program →
    Does (Walk.run h task) st (fun _ => I stack) J

/-- A module leaves the visits as they were if its lists do. -/
theorem restores_module (hI : Scoped h modules I J) {m : ModuleId}
    (ih : Below (Restores h modules I J) (.module m) st) :
    Restores h modules I J (.module m) st := by
  intro stack hst htop
  rw [run_eq]
  refine hI.andEnter hst fun hhas hunseen => ?_
  have h₁ := hI.enter hst htop hhas hunseen
  have hsymbols := ih.later (t := .symbols (.module m)) (room_entering_lt hunseen) _ h₁ rfl
  refine andThen hsymbols ((grown_local h).run _) fun st₂ _ h₂ _ => ?_
  exact does_of_ok (exec_leave _ _) (hI.leave h₂)

/-- A symbol leaves the visits as they were if its lists do. -/
theorem restores_symbol (hI : Scoped h modules I J) {s : SymbolId}
    (ih : Below (Restores h modules I J) (.symbol s) st) :
    Restores h modules I J (.symbol s) st := by
  intro stack hst htop
  have hG := grown_local h
  rw [run_eq]
  refine hI.andEnter hst fun hhas hunseen => ?_
  have hroom₁ := room_entering_lt hunseen
  refine andThen (hI.opens (c := .preSymbol s) hst rfl htop hhas hunseen)
    (hG.call (.preSymbol s)) fun st₂ _ hopened hg₂ => ?_
  have h₂ := hopened.1 id
  have hroom₂ := Nat.lt_of_le_of_lt hg₂.room_le hroom₁
  refine andThen (ih.later (t := .symbols (.symbol s)) hroom₂ _ h₂ rfl) (hG.run _)
    fun st₃ _ h₃ hg₃ => ?_
  have hroom₃ := Nat.lt_of_le_of_lt hg₃.room_le hroom₂
  refine andThen (ih.later (t := .stmts (.body s)) hroom₃ _ h₃ rfl) (hG.run _) fun st₄ _ h₄ _ => ?_
  exact hI.andClose (c := .postSymbol s) h₄ rfl

/-- A statement leaves the visits as they were if what it owns does. -/
theorem restores_stmt (hI : Scoped h modules I J) {place : StmtPlace}
    (ih : Below (Restores h modules I J) (.stmt place) st) :
    Restores h modules I J (.stmt place) st := by
  intro stack hst htop
  have hG := grown_local h
  rw [run_eq, visit_stmt]
  refine .step (exec_program st) ?_
  cases hat : st.scene.program.stmtAt? place with
  | none => exact .pure hst
  | some s =>
    have hsited : (Call.preStmt s place).Sited stack st.scene.program :=
      ⟨.stmt place, htop, by simp [Program.heldAt?, hat, Call.node], by simp [Call.place?]⟩
    refine hI.andEnter hst fun hhas hunseen => ?_
    refine andThen (hI.opens (c := .preStmt s place) hst rfl hsited hhas hunseen)
      (hG.call (.preStmt s place)) fun st₂ _ hopened hg₂ => ?_
    have hroom₂ := Nat.lt_of_le_of_lt hg₂.room_le (room_entering_lt hunseen)
    have hinside := Scoped.inside h hG.run
      (fun task st' hle => ih.later (Nat.lt_of_le_of_lt hle hroom₂) _) (hopened.1 id)
    refine andThen hinside (hG.inside hG.run s) fun st₃ _ h₃ _ => ?_
    exact hI.andClose (c := .postStmt s) h₃ rfl

/-- After its first hook, an expression that was kept is gone through, and one that was taken from
its place is left for what stands there now. -/
theorem restores_expr (hI : Scoped h modules I J) {place : ExprPlace}
    (ih : Below (Restores h modules I J) (.expr place) st) :
    Restores h modules I J (.expr place) st := by
  intro stack hst htop
  have hG := grown_local h
  rw [run_eq, visit]
  refine .step (exec_program st) ?_
  cases hat : st.scene.program.exprAt? place with
  | none => exact .pure hst
  | some e =>
    have hsited : (Call.preExpr e place).Sited stack st.scene.program :=
      ⟨.expr place, htop, by simp [Program.heldAt?, hat, Call.node], by simp [Call.place?]⟩
    refine hI.andEnter hst fun hhas hunseen => ?_
    refine andThen (hI.opens (c := .preExpr e place) hst rfl hsited hhas hunseen)
      (hG.call (.preExpr e place)) fun st₂ _ hopened hg₂ => ?_
    obtain ⟨hkept, hreplaced⟩ := hopened
    have hroom₂ := Nat.lt_of_le_of_lt hg₂.room_le (room_entering_lt hunseen)
    refine .step (exec_program st₂) ?_
    cases hat₂ : st₂.scene.program.exprAt? place with
    | none =>
      exact does_of_ok (exec_leave _ _) (hreplaced (by simp [Call.Replaced, hat₂]))
    | some e' =>
      by_cases hsame : e' = e
      · simp only [hsame, if_true]
        have h₂ := hkept (by simp [Call.Replaced, hat₂, hsame])
        refine andThen (ih.later (t := .operandsFrom (.expr e) 0) hroom₂ _ h₂ rfl) (hG.run _)
          fun st₃ _ h₃ _ => ?_
        exact hI.andClose (c := .postExpr e) h₃ rfl
      · simp only [hsame, if_false]
        have h₃ := hreplaced (by simp [Call.Replaced, hat₂, hsame])
        have hroom₃ : (leaving (.expr e) st₂).trail.seen.room < st.trail.seen.room := hroom₂
        refine .step (exec_leave _ _) (.step (exec_get _) ?_)
        split
        · exact .pure h₃
        · exact ih.later (t := .expr place) hroom₃ _ h₃ htop

theorem restores_symbols (hI : Scoped h modules I J) {list : SymbolList}
    (ih : Below (Restores h modules I J) (.symbols list) st) :
    Restores h modules I J (.symbols list) st := by
  intro stack hst htop
  rw [run_eq, visit]
  refine .step (exec_program st) ?_
  cases (st.scene.program.symbolList? list).bind (firstRepeat? []) with
  | none => exact ih.lighter (t := .symbolsFrom list .start) (by simp [Task.weight]) _ hst htop
  | some s => exact does_of_error (exec_fail _ _ _ _) (hI.refuse _ hst (.inr (.inl rfl)))

/-- Symbols leave the visits as they were from where the cursor stands. -/
theorem restores_symbolsFrom {list : SymbolList} {cursor : Cursor SymbolId}
    (ih : Below (Restores h modules I J) (.symbolsFrom list cursor) st) :
    Restores h modules I J (.symbolsFrom list cursor) st := by
  intro stack hst htop
  rw [run_eq, visit]
  refine .step (exec_program st) ?_
  cases hnext : (st.scene.program.symbolList? list).bind cursor.next? with
  | none => exact .pure hst
  | some r =>
    obtain ⟨i, s, cursor'⟩ := r
    obtain ⟨entries, hentries, hnext⟩ := Option.bind_eq_some_iff.mp hnext
    have hsited : (Call.preSymbol s).Sited stack st.scene.program := by
      refine ⟨.symbol list i, htop, ?_, by simp [Call.place?]⟩
      simp [Program.heldAt?, hentries, Cursor.getElem?_of_next? hnext, Call.node]
    have hfirst := ih.lighter (t := .symbol s) (by simp [Task.weight]) _ hst hsited
    refine andThen hfirst ((grown_local h).run _) fun st₁ hexec h₁ hg₁ => ?_
    exact ih.later (t := .symbolsFrom list cursor') (room_lt_of_walk (.symbol s) trivial hexec) _ h₁
      htop

theorem restores_stmts (hI : Scoped h modules I J) {list : StmtList}
    (ih : Below (Restores h modules I J) (.stmts list) st) :
    Restores h modules I J (.stmts list) st := by
  intro stack hst htop
  rw [run_eq, visit]
  refine .step (exec_program st) ?_
  cases (st.scene.program.stmtList? list).bind (firstRepeat? []) with
  | none => exact ih.lighter (t := .stmtsFrom list .start) (by simp [Task.weight]) _ hst htop
  | some s => exact does_of_error (exec_fail _ _ _ _) (hI.refuse _ hst (.inr (.inl rfl)))

/-- Statements leave the visits as they were from where the cursor stands. -/
theorem restores_stmtsFrom {list : StmtList} {cursor : Cursor StmtId}
    (ih : Below (Restores h modules I J) (.stmtsFrom list cursor) st) :
    Restores h modules I J (.stmtsFrom list cursor) st := by
  intro stack hst htop
  rw [run_eq, visit]
  refine .step (exec_program st) ?_
  cases hnext : (st.scene.program.stmtList? list).bind cursor.next? with
  | none => exact .pure hst
  | some r =>
    obtain ⟨i, s, cursor'⟩ := r
    obtain ⟨entries, hentries, hnext⟩ := Option.bind_eq_some_iff.mp hnext
    have hat : st.scene.program.stmtAt? (.entry list i) = some s := by
      simp [Program.stmtAt?, hentries, Cursor.getElem?_of_next? hnext]
    have hfirst := ih.lighter (t := .stmt (.entry list i)) (by simp [Task.weight]) _ hst htop
    refine andThen hfirst ((grown_local h).run _) fun st₁ hexec h₁ hg₁ => ?_
    exact ih.later (t := .stmtsFrom list cursor') (room_lt_of_entry hat hexec) _ h₁ htop

theorem restores_operandsFrom {owner : ExprOwner} {i : Nat}
    (ih : Below (Restores h modules I J) (.operandsFrom owner i) st) :
    Restores h modules I J (.operandsFrom owner i) st := by
  intro stack hst htop
  by_cases hi : i < (st.scene.program.operands owner).length
  · refine Does.congr ?_ (exec_operandsFrom_lt hi)
    have hat : st.scene.program.exprAt? ⟨owner, i⟩ = some (st.scene.program.operands owner)[i] :=
      List.getElem?_eq_getElem hi
    have hfirst := ih.lighter (t := .expr ⟨owner, i⟩) (by simp [Task.weight]) _ hst htop
    refine andThen hfirst ((grown_local h).run _) fun st₁ hexec h₁ hg₁ => ?_
    exact ih.later (t := .operandsFrom owner (i + 1)) (room_lt_of_operand hat hexec) _ h₁ htop
  · exact does_of_ok (exec_operandsFrom_ge hi) hst

/-- Every task leaves the visits as it found them, or halts. -/
theorem restores (hI : Scoped h modules I J) (task : Task) (st : WalkState σ) :
    Restores h modules I J task st := by
  induction task, st using task_induction with
  | step task st ih =>
  cases task with
  | module m => exact restores_module hI ih
  | symbol s => exact restores_symbol hI ih
  | stmt place => exact restores_stmt hI ih
  | expr place => exact restores_expr hI ih
  | symbols list => exact restores_symbols hI ih
  | symbolsFrom list cursor => exact restores_symbolsFrom ih
  | stmts list => exact restores_stmts hI ih
  | stmtsFrom list cursor => exact restores_stmtsFrom ih
  | operandsFrom owner i => exact restores_operandsFrom ih

/-- Every task leaves the visits that are going on as it found them, or halts as an operation
does. -/
theorem run (hI : Scoped h modules I J) (task : Task) (st : WalkState σ) {stack : List NodeId}
    (hst : I stack st) (htop : task.AtTop modules stack st.scene.program) :
    Does (Walk.run h task) st (fun _ => I stack) J :=
  hI.restores task st stack hst htop

end Scoped

end Walk

end MiddleEnd
