import Mathlib.Data.Set.Card
import MiddleEnd.Proofs.Walk.Cursor
import MiddleEnd.Proofs.Walk.Exec

/-!
# MiddleEnd.Proofs.Walk.Depth

No walk reaches the depth that `run` allows.  Every node is entered at most once, so what bounds
the nesting of tasks is the *room* of the trail: how many nodes there are that were not entered.
Between two nodes at most three tasks are nested (a list, the rest of it, its first entry), which
`depthOf` puts together.

Main statement: `run_eq`, by which a walk is `visit` of itself.  Nothing after this module has to
mention a depth.  `task_induction` is the induction that goes with it.
-/

namespace MiddleEnd

/-! ## How many nodes there are -/

namespace NodeId

/-- A number for each node. -/
def code : NodeId → Nat
  | .module m => 4 * m.index
  | .symbol s => 4 * s.index + 1
  | .stmt s => 4 * s.index + 2
  | .expr e => 4 * e.index + 3

/-- There are four numbers for each index. -/
theorem code_lt (n : NodeId) : n.code < 4 * UInt32.size := by
  cases n with
  | module m => have := m.val.toNat_lt_size; simp only [code, ModuleId.index]; omega
  | symbol s => have := s.val.toNat_lt_size; simp only [code, SymbolId.index]; omega
  | stmt s => have := s.val.toNat_lt_size; simp only [code, StmtId.index]; omega
  | expr e => have := e.val.toNat_lt_size; simp only [code, ExprId.index]; omega

/-- A node is known by its number. -/
theorem code_inj {a b : NodeId} (h : a.code = b.code) : a = b := by
  cases a <;> cases b <;> simp only [code] at h <;>
    first
      | (exfalso; omega)
      | (congr 1; first
          | exact ModuleId.index_inj.mp (by omega)
          | exact SymbolId.index_inj.mp (by omega)
          | exact StmtId.index_inj.mp (by omega)
          | exact ExprId.index_inj.mp (by omega))

/-- The number of a node, within the range of all of them. -/
def fin (n : NodeId) : Fin (4 * UInt32.size) := ⟨n.code, n.code_lt⟩

theorem fin_injective : Function.Injective fin := fun _ _ h => code_inj (Fin.mk.inj h)

instance : Finite NodeId := Finite.of_injective fin fin_injective

end NodeId

/-! ## Room -/

namespace NodeSet

/-- How many nodes are no members. -/
noncomputable def room (s : NodeSet) : Nat := {n : NodeId | s.contains n = false}.ncard

/-- There is at most room for all nodes that have ids. -/
theorem room_le (s : NodeSet) : s.room ≤ 4 * UInt32.size := by
  calc
    s.room ≤ (Set.univ : Set NodeId).ncard := Set.ncard_le_ncard (Set.subset_univ _)
    _ = Nat.card NodeId := Set.ncard_univ _
    _ ≤ Nat.card (Fin (4 * UInt32.size)) := Nat.card_le_card_of_injective _ NodeId.fin_injective
    _ = 4 * UInt32.size := Nat.card_fin _

/-- A larger set leaves less room. -/
theorem room_anti {s t : NodeSet} (h : ∀ n, s.contains n = true → t.contains n = true) :
    t.room ≤ s.room := by
  refine Set.ncard_le_ncard fun n hn => ?_
  simp only [Set.mem_ofPred_eq] at hn ⊢
  by_contra hs
  rw [h n (by simpa using hs)] at hn
  cases hn

/-- A new member takes up room. -/
theorem room_insert_lt {s : NodeSet} {n : NodeId} (h : s.contains n = false) :
    (s.insert n).room < s.room := by
  refine Set.ncard_lt_ncard ⟨fun m hm => ?_, fun hsub => ?_⟩
  · simp only [Set.mem_ofPred_eq, contains_insert, Bool.or_eq_false_iff] at hm
    exact hm.2
  · have hn := hsub (show n ∈ {m : NodeId | s.contains m = false} from h)
    simp at hn

end NodeSet

/-! ## Tasks -/

namespace Task

/-- Whether doing the task means entering a node first. -/
def HasNode (p : Program) : Task → Prop
  | .module _ | .symbol _ => True
  | .stmt place => (p.stmtAt? place).isSome
  | .expr place => (p.exprAt? place).isSome
  | _ => False

/-- How many tasks may be nested from this one on until a node is entered. -/
def weight : Task → Nat
  | .symbols _ | .stmts _ => 3
  | .symbolsFrom _ _ | .stmtsFrom _ _ | .operandsFrom _ _ => 2
  | _ => 1

end Task

/-- What a cursor hands out stands at the index it names. -/
theorem Cursor.getElem?_of_next? {α : Type} [DecidableEq α] {c c' : Cursor α} {entries : List α}
    {i : Nat} {x : α} (h : c.next? entries = some (i, x, c')) : entries[i]? = some x := by
  obtain ⟨done, rest, rfl, rfl, _⟩ := splits_of_next? h
  simp

namespace Walk

variable {σ : Type} {h : Hooks σ}

/-! ## Room only shrinks -/

/-- Every node entered in one state is entered in the other. -/
def Grown (st st' : WalkState σ) : Prop :=
  ∀ n, st.trail.seen.contains n = true → st'.trail.seen.contains n = true

/-- The more was entered, the less room is left. -/
theorem Grown.room_le {st st' : WalkState σ} (h : Grown st st') :
    st'.trail.seen.room ≤ st.trail.seen.room := NodeSet.room_anti h

/-- No operation of a walk forgets what was entered. -/
theorem grown_local (h : Hooks σ) : Local h Grown where
  refl _ _ hn := hn
  trans hab hbc n hn := hbc n (hab n hn)
  enter n st m hm := by
    rw [exec_enter]
    split
    · rw [Trail.enter]
      split
      · rename_i trail heq
        split at heq
        · cases heq
        · cases heq
          simp [hm]
      · exact hm
    · exact hm
  leave _ _ _ hm := hm
  call {_ _} _ st m hm := by
    rw [exec_call]
    split <;> exact hm

/-- What enters a node and only grows afterwards takes up room. -/
theorem room_lt_of_enter {n : NodeId} {x : WalkM σ Unit} (hx : Keeps Grown x)
    {st st' : WalkState σ} (hok : exec (enter h n >>= fun _ => x) st = (.ok (), st')) :
    st'.trail.seen.room < st.trail.seen.room := by
  obtain ⟨_, st₁, he, hrest⟩ := ok_of_exec_bind hok
  obtain ⟨_, hs, rfl⟩ := of_exec_enter_ok he
  have hle := Grown.room_le (hx { st with trail :=
    ⟨n :: st.trail.path, st.trail.seen.insert n, st.trail.tally.count n.step⟩ })
  rw [hrest] at hle
  exact Nat.lt_of_le_of_lt hle (NodeSet.room_insert_lt hs)

/-- A task that has a node and ends well takes up room. -/
theorem room_lt_of_visit {rest : Task → WalkM σ Unit} (hrest : ∀ t, Keeps Grown (rest t))
    {task : Task} {st st' : WalkState σ} (hnode : task.HasNode st.scene.program)
    (hok : exec (visit h rest task) st = (.ok (), st')) :
    st'.trail.seen.room < st.trail.seen.room := by
  have hG := grown_local h
  cases task with
  | module m => exact room_lt_of_enter (hG.bind (hrest _) fun _ => hG.leave _) hok
  | symbol s =>
    exact room_lt_of_enter (hG.bind (hG.call (.preSymbol s)) fun _ => hG.bind (hrest _) fun _ =>
      hG.bind (hrest _) fun _ => hG.bind (hG.call (.postSymbol s)) fun _ => hG.leave _) hok
  | stmt place =>
    obtain ⟨s, hs⟩ := Option.isSome_iff_exists.mp hnode
    rw [visit_stmt, exec_bind_ok (exec_program st)] at hok
    simp only [hs] at hok
    exact room_lt_of_enter (hG.bind (hG.call (.preStmt s place)) fun _ =>
      hG.bind (hG.inside hrest s) fun _ => hG.bind (hG.call (.postStmt s)) fun _ => hG.leave _) hok
  | expr place =>
    obtain ⟨e, he⟩ := Option.isSome_iff_exists.mp hnode
    rw [visit, exec_bind_ok (exec_program st)] at hok
    simp only [he] at hok
    refine room_lt_of_enter (hG.bind (hG.call (.preExpr e place)) fun _ =>
      hG.bind hG.program fun p => ?_) hok
    cases p.exprAt? place with
    | none => exact hG.leave _
    | some e' =>
      by_cases he : e' = e
      · simp only [he, if_true]
        exact hG.bind (hrest _) fun _ => hG.bind (hG.call (.postExpr e)) fun _ => hG.leave _
      · simp only [he, if_false]
        refine hG.bind (hG.leave _) fun _ => hG.bind hG.get fun st => ?_
        split
        · exact hG.pure ()
        · exact hrest _
  | symbols _ | symbolsFrom _ _ | stmts _ | stmtsFrom _ _ | operandsFrom _ _ => exact hnode.elim

/-- A task that enters a node leaves less room. -/
theorem room_lt_of_walk {depth : Nat} (task : Task) {st st' : WalkState σ}
    (hnode : task.HasNode st.scene.program) (hok : exec (walk h depth task) st = (.ok (), st')) :
    st'.trail.seen.room < st.trail.seen.room := by
  cases depth with
  | zero => cases hok
  | succ depth => exact room_lt_of_visit ((grown_local h).walk depth) hnode hok

/-! ## The depth of a task -/

/-- A depth that a task does not exceed. -/
noncomputable def depthOf (task : Task) (st : WalkState σ) : Nat :=
  4 * st.trail.seen.room + task.weight

/-- A task is less deep once a node was entered. -/
theorem depthOf_lt_of_room_lt {t task : Task} {st st' : WalkState σ}
    (hr : st'.trail.seen.room < st.trail.seen.room) : depthOf t st' < depthOf task st := by
  have ht : t.weight ≤ 3 := by cases t <;> simp [Task.weight]
  simp only [depthOf]
  omega

/-- What forgets nothing leaves no more room. -/
theorem room_le_of_exec {α : Type} {x : WalkM σ α} (hx : Keeps Grown x) {st st' : WalkState σ}
    {r : Except Halt α} (hr : exec x st = (r, st')) :
    st'.trail.seen.room ≤ st.trail.seen.room := by
  have hle := Grown.room_le (hx st)
  rwa [hr] at hle

/-- Entering a node leaves less room. -/
theorem room_lt_of_exec_enter {n : NodeId} {st st' : WalkState σ}
    (he : exec (enter h n) st = (.ok (), st')) : st'.trail.seen.room < st.trail.seen.room := by
  obtain ⟨_, hs, rfl⟩ := of_exec_enter_ok he
  exact NodeSet.room_insert_lt hs

/-- The hook called at a node just entered leaves less room than there was before the node. -/
theorem room_lt_of_exec_call {n : NodeId} {hook : HookM σ Unit} (hhook : HookAt h n hook)
    {st st₁ st₂ : WalkState σ} (he : exec (enter h n) st = (.ok (), st₁))
    (hc : exec (call h n hook) st₁ = (.ok (), st₂)) :
    st₂.trail.seen.room < st.trail.seen.room :=
  Nat.lt_of_le_of_lt (room_le_of_exec ((grown_local h).call hhook) hc) (room_lt_of_exec_enter he)

section

variable {rest rest' : Task → WalkM σ Unit}

/-- Walks through the same places agree where every place is walked alike. -/
theorem exec_places_congr (hgrown : ∀ t, Keeps Grown (rest t)) {st : WalkState σ}
    (hagree : ∀ t st', st'.trail.seen.room ≤ st.trail.seen.room →
      exec (rest t) st' = exec (rest' t) st') :
    ∀ places : List StmtPlace, exec (places.forM fun place => rest (.stmt place)) st =
      exec (places.forM fun place => rest' (.stmt place)) st := by
  intro places
  induction places generalizing st with
  | nil => rfl
  | cons place places ih =>
    refine exec_bind_congr (hagree _ _ (Nat.le_refl _)) fun _ st₁ h₁ => ih fun t st' hle => ?_
    exact hagree t st' (Nat.le_trans hle (room_le_of_exec (hgrown _) h₁))

/-- What a statement owns is walked alike where every task is. -/
theorem exec_inside_congr (h : Hooks σ) (hgrown : ∀ t, Keeps Grown (rest t)) {st : WalkState σ}
    (hagree : ∀ t st', st'.trail.seen.room ≤ st.trail.seen.room →
      exec (rest t) st' = exec (rest' t) st') (s : StmtId) :
    exec (inside rest s) st = exec (inside rest' s) st := by
  have hG := grown_local h
  refine exec_bind_congr (hagree _ _ (Nat.le_refl _)) fun _ st₁ h₁ => ?_
  have hle₁ := room_le_of_exec (hgrown _) h₁
  refine exec_bind_congr ?_ fun _ st₂ h₂ => ?_
  · refine exec_program_congr ?_
    cases st₁.scene.program.declared? s with
    | none => rfl
    | some y => exact hagree _ _ hle₁
  · have hle₂ := Nat.le_trans (room_le_of_exec (hG.throughDeclared hgrown s) h₂) hle₁
    refine exec_program_congr ?_
    cases st₂.scene.program.children s with
    | none => rfl
    | list list => exact hagree _ _ hle₂
    | places places =>
      exact exec_places_congr hgrown (fun t st' hle => hagree t st' (Nat.le_trans hle hle₂)) places

/-! ### Tasks that enter a node

After the node was entered every task is less deep, so that the tasks below need to be done alike
only where there is less room. -/

/-- The visit of a module depends only on what is done after the module was entered. -/
theorem visit_module_congr (h : Hooks σ) {st : WalkState σ}
    (hlater : ∀ t st', st'.trail.seen.room < st.trail.seen.room →
      exec (rest t) st' = exec (rest' t) st') (m : ModuleId) :
    exec (visit h rest (.module m)) st = exec (visit h rest' (.module m)) st := by
  refine exec_bind_congr rfl fun _ st₁ h₁ => ?_
  exact exec_bind_congr (hlater _ _ (room_lt_of_exec_enter h₁)) fun _ _ _ => rfl

/-- The visit of a symbol depends only on what is done after the symbol was entered. -/
theorem visit_symbol_congr (h : Hooks σ) (hgrown : ∀ t, Keeps Grown (rest t)) {st : WalkState σ}
    (hlater : ∀ t st', st'.trail.seen.room < st.trail.seen.room →
      exec (rest t) st' = exec (rest' t) st') (s : SymbolId) :
    exec (visit h rest (.symbol s)) st = exec (visit h rest' (.symbol s)) st := by
  refine exec_bind_congr rfl fun _ st₁ h₁ => exec_bind_congr rfl fun _ st₂ h₂ => ?_
  have hr₂ := room_lt_of_exec_call (.preSymbol s) h₁ h₂
  refine exec_bind_congr (hlater _ _ hr₂) fun _ st₃ h₃ => ?_
  have hr₃ := Nat.lt_of_le_of_lt (room_le_of_exec (hgrown _) h₃) hr₂
  exact exec_bind_congr (hlater _ _ hr₃) fun _ _ _ => rfl

/-- The visit of a statement depends only on what is done after it was entered. -/
theorem visit_stmt_congr (h : Hooks σ) (hgrown : ∀ t, Keeps Grown (rest t)) {st : WalkState σ}
    (hlater : ∀ t st', st'.trail.seen.room < st.trail.seen.room →
      exec (rest t) st' = exec (rest' t) st') (place : StmtPlace) :
    exec (visit h rest (.stmt place)) st = exec (visit h rest' (.stmt place)) st := by
  rw [visit_stmt, visit_stmt]
  refine exec_program_congr ?_
  cases st.scene.program.stmtAt? place with
  | none => rfl
  | some s =>
    refine exec_bind_congr rfl fun _ st₁ h₁ => exec_bind_congr rfl fun _ st₂ h₂ => ?_
    have hr₂ := room_lt_of_exec_call (.preStmt s place) h₁ h₂
    refine exec_bind_congr ?_ fun _ _ _ => rfl
    exact exec_inside_congr h hgrown
      (fun t st' hle => hlater t st' (Nat.lt_of_le_of_lt hle hr₂)) s

/-- The visit of an expression depends only on what is done after it was entered. -/
theorem visit_expr_congr (h : Hooks σ) {st : WalkState σ}
    (hlater : ∀ t st', st'.trail.seen.room < st.trail.seen.room →
      exec (rest t) st' = exec (rest' t) st') (place : ExprPlace) :
    exec (visit h rest (.expr place)) st = exec (visit h rest' (.expr place)) st := by
  refine exec_program_congr ?_
  cases st.scene.program.exprAt? place with
  | none => rfl
  | some e =>
    refine exec_bind_congr rfl fun _ st₁ h₁ => exec_bind_congr rfl fun _ st₂ h₂ => ?_
    have hr₂ := room_lt_of_exec_call (.preExpr e place) h₁ h₂
    refine exec_program_congr ?_
    cases st₂.scene.program.exprAt? place with
    | none => rfl
    | some e' =>
      by_cases he : e' = e
      · simp only [he, if_true]
        exact exec_bind_congr (hlater _ _ hr₂) fun _ _ _ => rfl
      · -- The hook put another expression into the place, which is walked once more.
        simp only [he, if_false]
        refine exec_bind_congr rfl fun _ st₃ h₃ => exec_bind_congr rfl fun s st₄ h₄ => ?_
        cases h₃
        cases h₄
        split
        · rfl
        · exact hlater _ _ hr₂

/-! ### All tasks -/

/-- What is done for a task depends only on how less deep tasks are done. -/
theorem visit_congr (hgrown : ∀ t, Keeps Grown (rest t))
    (hroom : ∀ {t st st'}, Task.HasNode st.scene.program t → exec (rest t) st = (.ok (), st') →
      st'.trail.seen.room < st.trail.seen.room)
    {task : Task} {st : WalkState σ}
    (hagree : ∀ t st', depthOf t st' < depthOf task st → exec (rest t) st' = exec (rest' t) st') :
    exec (visit h rest task) st = exec (visit h rest' task) st := by
  have hlater : ∀ t st', st'.trail.seen.room < st.trail.seen.room →
      exec (rest t) st' = exec (rest' t) st' := fun t st' hr =>
    hagree t st' (depthOf_lt_of_room_lt hr)
  have hlighter : ∀ t : Task, t.weight < task.weight → exec (rest t) st = exec (rest' t) st :=
    fun t hw => hagree t st (by simp only [depthOf]; omega)
  cases task with
  | module m => exact visit_module_congr h hlater m
  | symbol s => exact visit_symbol_congr h hgrown hlater s
  | stmt place => exact visit_stmt_congr h hgrown hlater place
  | expr place => exact visit_expr_congr h hlater place
  | symbols list =>
    refine exec_program_congr ?_
    cases (st.scene.program.symbolList? list).bind (firstRepeat? []) with
    | none => exact hlighter _ (by simp [Task.weight])
    | some s => rfl
  | symbolsFrom list cursor =>
    refine exec_program_congr ?_
    cases (st.scene.program.symbolList? list).bind cursor.next? with
    | none => rfl
    | some r =>
      refine exec_bind_congr (hlighter _ (by simp [Task.weight])) fun _ st₁ h₁ => ?_
      exact hlater _ _ (hroom (t := .symbol r.2.1) trivial h₁)
  | stmts list =>
    refine exec_program_congr ?_
    cases (st.scene.program.stmtList? list).bind (firstRepeat? []) with
    | none => exact hlighter _ (by simp [Task.weight])
    | some s => rfl
  | stmtsFrom list cursor =>
    refine exec_program_congr ?_
    match hn : (st.scene.program.stmtList? list).bind cursor.next? with
    | none => rfl
    | some (i, s, c) =>
      refine exec_bind_congr (hlighter _ (by simp [Task.weight])) fun _ st₁ h₁ => ?_
      refine hlater _ _ (hroom ?_ h₁)
      obtain ⟨entries, hentries, hnext⟩ := Option.bind_eq_some_iff.mp hn
      simp [Task.HasNode, Program.stmtAt?, hentries, Cursor.getElem?_of_next? hnext]
  | operandsFrom owner index =>
    refine exec_program_congr ?_
    by_cases hi : index < (st.scene.program.operands owner).length
    · simp only [hi, if_true]
      refine exec_bind_congr (hlighter _ (by simp [Task.weight])) fun _ st₁ h₁ => ?_
      refine hlater _ _ (hroom ?_ h₁)
      simp [Task.HasNode, Program.exprAt?, hi]
    · simp only [hi, if_false]

end

/-- A walk that may nest as deep as its task can go does not use any depth beyond. -/
theorem walk_succ : ∀ (depth : Nat) (task : Task) (st : WalkState σ), depthOf task st ≤ depth →
    exec (walk h (depth + 1) task) st = exec (walk h depth task) st
  | 0, task, st, hd => by
    have : 0 < task.weight := by cases task <;> simp [Task.weight]
    simp only [depthOf] at hd
    omega
  | depth + 1, task, st, hd => by
    refine visit_congr ((grown_local h).walk _) (room_lt_of_walk _) fun t st' hlt => ?_
    exact walk_succ depth t st' (by omega)

/-- A walk is `visit` of itself: the depth that bounds it is never reached. -/
theorem run_eq (h : Hooks σ) (task : Task) : run h task = visit h (run h) task := by
  have hlimit : ∀ (t : Task) (st : WalkState σ),
      exec (walk h depthLimit t) st = exec (walk h (depthLimit - 1) t) st := by
    intro t st
    refine walk_succ (depthLimit - 1) t st ?_
    have hroom := st.trail.seen.room_le
    have hweight : t.weight ≤ 3 := by cases t <;> simp [Task.weight]
    simp only [depthOf, depthLimit, UInt32.size] at hroom ⊢
    omega
  have hwalk : walk h depthLimit = walk h (depthLimit - 1) :=
    funext fun t => funext fun st => hlimit t st
  calc
    run h task = visit h (walk h (depthLimit - 1)) task := rfl
    _ = visit h (run h) task := by rw [← hwalk]; rfl

/-- What holds of every task that is less deep. -/
def Below (motive : Task → WalkState σ → Prop) (task : Task) (st : WalkState σ) : Prop :=
  ∀ t st', depthOf t st' < depthOf task st → motive t st'

/-- It holds of a lighter task from the same state. -/
theorem Below.lighter {motive : Task → WalkState σ → Prop} {task t : Task} {st : WalkState σ}
    (h : Below motive task st) (hw : t.weight < task.weight) : motive t st :=
  h t st (by simp only [depthOf]; omega)

/-- It holds of any task once a node was entered. -/
theorem Below.later {motive : Task → WalkState σ → Prop} {task t : Task} {st st' : WalkState σ}
    (h : Below motive task st) (hr : st'.trail.seen.room < st.trail.seen.room) : motive t st' :=
  h t st' (depthOf_lt_of_room_lt hr)

/-- Induction on how deep a task can go: what holds of a task whenever it holds of all less deep
ones holds of all tasks. -/
theorem task_induction {motive : Task → WalkState σ → Prop}
    (step : ∀ task st, Below motive task st → motive task st)
    (task : Task) (st : WalkState σ) : motive task st := by
  induction hn : depthOf task st using Nat.strong_induction_on generalizing task st with
  | _ n ih => exact step task st fun t st' hlt => ih _ (hn ▸ hlt) t st' rfl

end Walk

end MiddleEnd
