import MiddleEnd.Walk.Basic

/-!
# MiddleEnd.Proofs.Walk.Exec

A walk as a function of the state it starts from.  `exec` runs one, the `exec_*` lemmas say what
each operation of a walk does to the state, and `exec_bind_ok` / `ok_of_exec_bind` take a sequence
of operations apart, forwards and backwards.

`Keeps R x` says that `x` relates every state to the one it leaves, whether it halts or not.
`Local h R` lists what an operation of one node has to satisfy for that, and `keeps_walk` concludes
it for whole walks.
-/

namespace MiddleEnd.Walk

variable {σ τ ε α β : Type}

/-! ## Running what may stop -/

/-- What `x` answers from a state, and the state it leaves. -/
def exec (x : ExceptT ε (StateM τ) α) (st : τ) : Except ε α × τ := x.run.run st

theorem run_eq_exec (x : ExceptT ε (StateM τ) α) (st : τ) : x.run.run st = exec x st := rfl

@[simp] theorem exec_pure (a : α) (st : τ) :
    exec (pure a : ExceptT ε (StateM τ) α) st = (.ok a, st) := rfl

@[simp] theorem exec_throw (e : ε) (st : τ) :
    exec (throw e : ExceptT ε (StateM τ) α) st = (.error e, st) := rfl

@[simp] theorem exec_get (st : τ) : exec (get : ExceptT ε (StateM τ) τ) st = (.ok st, st) := rfl

@[simp] theorem exec_set (st st' : τ) :
    exec (set st' : ExceptT ε (StateM τ) PUnit) st = (.ok ⟨⟩, st') := rfl

@[simp] theorem exec_modify (f : τ → τ) (st : τ) :
    exec (modify f : ExceptT ε (StateM τ) PUnit) st = (.ok ⟨⟩, f st) := rfl

/-- What comes next is done in the state that was left, unless this is the end. -/
theorem exec_bind (x : ExceptT ε (StateM τ) α) (f : α → ExceptT ε (StateM τ) β) (st : τ) :
    exec (x >>= f) st = match exec x st with
      | (.ok a, st') => exec (f a) st'
      | (.error e, st') => (.error e, st') := by
  simp only [exec, ExceptT.run_bind, StateT.run_bind]
  generalize x.run.run st = r
  obtain ⟨_ | _, _⟩ := r <;> rfl

/-- A sequence goes on from where its first part ended. -/
theorem exec_bind_ok {x : ExceptT ε (StateM τ) α} {f : α → ExceptT ε (StateM τ) β} {st st' : τ}
    {a : α} (h : exec x st = (.ok a, st')) : exec (x >>= f) st = exec (f a) st' := by
  rw [exec_bind, h]

/-- A sequence halts where its first part halts. -/
theorem exec_bind_error {x : ExceptT ε (StateM τ) α} {f : α → ExceptT ε (StateM τ) β} {st st' : τ}
    {e : ε} (h : exec x st = (.error e, st')) : exec (x >>= f) st = (.error e, st') := by
  rw [exec_bind, h]

/-- A sequence that ended well had a first part that ended well. -/
theorem ok_of_exec_bind {x : ExceptT ε (StateM τ) α} {f : α → ExceptT ε (StateM τ) β}
    {st st' : τ} {b : β} (h : exec (x >>= f) st = (.ok b, st')) :
    ∃ a st₁, exec x st = (.ok a, st₁) ∧ exec (f a) st₁ = (.ok b, st') := by
  rw [exec_bind] at h
  match hx : exec x st with
  | (.ok a, st₁) => rw [hx] at h; exact ⟨a, st₁, rfl, h⟩
  | (.error e, st₁) => rw [hx] at h; cases h

/-- Sequences agree where their first parts agree and what follows agrees from there on. -/
theorem exec_bind_congr {x y : ExceptT ε (StateM τ) α} {f g : α → ExceptT ε (StateM τ) β} {st : τ}
    (hx : exec x st = exec y st)
    (hf : ∀ a st', exec x st = (.ok a, st') → exec (f a) st' = exec (g a) st') :
    exec (x >>= f) st = exec (y >>= g) st := by
  rw [exec_bind, exec_bind, ← hx]
  match hr : exec x st with
  | (.ok a, st') => exact hf a st' hr
  | (.error e, st') => rfl

/-! ## The operations of a walk -/

@[simp] theorem exec_program (st : WalkState σ) :
    exec program st = (.ok st.scene.program, st) := rfl

/-- Sequences that look at the program first agree where they agree for the program as it is. -/
theorem exec_program_congr {f g : Program → WalkM σ α} {st : WalkState σ}
    (hf : exec (f st.scene.program) st = exec (g st.scene.program) st) :
    exec (program >>= f) st = exec (program >>= g) st := by
  rwa [exec_bind_ok (exec_program st), exec_bind_ok (exec_program st)]

@[simp] theorem exec_fail (h : Hooks σ) (n : NodeId) (cause : Cause) (st : WalkState σ) :
    exec (fail h n cause : WalkM σ α) st = (.error (.defect (.during h.pass n cause)), st) := rfl

@[simp] theorem exec_leave (n : NodeId) (st : WalkState σ) :
    exec (leave n) st = (.ok (), { st with trail := st.trail.leave n }) := rfl

/-- A node that is there is entered if the trail lets it. -/
theorem exec_enter (h : Hooks σ) (n : NodeId) (st : WalkState σ) :
    exec (enter h n) st =
      if st.scene.program.has n then
        match st.trail.enter n with
        | .ok trail => (.ok (), { st with trail })
        | .error cause => (.error (.defect (.during h.pass n cause)), st)
      else (.error (.defect (.during h.pass n .missingNode)), st) := by
  simp only [enter, exec_bind, exec_get]
  by_cases hn : st.scene.program.has n
  · rw [if_pos hn, if_pos hn]
    cases st.trail.enter n <;> rfl
  · rw [if_neg hn, if_neg hn]
    rfl

/-- A hook changes the scene, and what it refuses halts the walk. -/
theorem exec_call (h : Hooks σ) (n : NodeId) (hook : HookM σ Unit) (st : WalkState σ) :
    exec (call h n hook) st = match exec hook st.scene with
      | (.ok (), scene) => (.ok (), { st with scene })
      | (.error (.defect cause), scene) =>
        (.error (.defect (.during h.pass n cause)), { st with scene })
      | (.error (.fault fault), scene) => (.error (.fault fault), { st with scene }) := by
  simp only [call, exec_bind, exec_get]
  rw [run_eq_exec]
  generalize exec hook st.scene = r
  obtain ⟨(_ | _) | _, _⟩ := r <;> rfl

/-- A call changes the scene only. -/
theorem exec_call_state (h : Hooks σ) (n : NodeId) (hook : HookM σ Unit) (st : WalkState σ) :
    (exec (call h n hook) st).2 = { st with scene := (exec hook st.scene).2 } := by
  rw [exec_call]
  generalize exec hook st.scene = r
  obtain ⟨(_ | _) | _, _⟩ := r <;> rfl

/-- A hook that accepts moves the walk to the scene it leaves. -/
theorem exec_call_ok {h : Hooks σ} {n : NodeId} {hook : HookM σ Unit} {st : WalkState σ}
    {scene : Scene σ} (hh : exec hook st.scene = (.ok (), scene)) :
    exec (call h n hook) st = (.ok (), { st with scene }) := by
  rw [exec_call, hh]

/-- A hook that was called accepted. -/
theorem of_exec_call_ok {h : Hooks σ} {n : NodeId} {hook : HookM σ Unit} {st st' : WalkState σ}
    (hx : exec (call h n hook) st = (.ok (), st')) :
    ∃ scene, exec hook st.scene = (.ok (), scene) ∧ st' = { st with scene } := by
  rw [exec_call] at hx
  generalize exec hook st.scene = r at hx ⊢
  obtain ⟨(_ | _) | _, scene⟩ := r <;> cases hx
  exact ⟨scene, rfl, rfl⟩

/-- A node is entered if it exists and was not entered before. -/
theorem exec_enter_ok {h : Hooks σ} {n : NodeId} {st : WalkState σ}
    (hn : st.scene.program.has n = true) (hs : st.trail.seen.contains n = false) :
    exec (enter h n) st = (.ok (), { st with trail :=
      ⟨n :: st.trail.path, st.trail.seen.insert n, st.trail.tally.count n.step⟩ }) := by
  rw [exec_enter, if_pos hn, Trail.enter, if_neg (by simp [hs])]

/-- A node that could be entered exists and was not entered before. -/
theorem of_exec_enter_ok {h : Hooks σ} {n : NodeId} {st st' : WalkState σ}
    (he : exec (enter h n) st = (.ok (), st')) :
    st.scene.program.has n = true ∧ st.trail.seen.contains n = false ∧
      st' = { st with trail :=
        ⟨n :: st.trail.path, st.trail.seen.insert n, st.trail.tally.count n.step⟩ } := by
  rw [exec_enter] at he
  by_cases hn : st.scene.program.has n
  · by_cases hs : st.trail.seen.contains n = true
    · rw [if_pos hn, Trail.enter, if_pos hs] at he
      cases he
    · rw [if_pos hn, Trail.enter, if_neg hs] at he
      cases he
      exact ⟨hn, by simpa using hs, rfl⟩
  · rw [if_neg hn] at he
    cases he

/-- A node that could not be entered leaves the state as it was. -/
theorem of_exec_enter_error {h : Hooks σ} {n : NodeId} {st st' : WalkState σ} {e : Halt}
    (he : exec (enter h n) st = (.error e, st')) : st' = st := by
  rw [exec_enter] at he
  by_cases hn : st.scene.program.has n
  · rw [if_pos hn] at he
    cases htrail : st.trail.enter n <;> rw [htrail] at he <;> cases he
    rfl
  · rw [if_neg hn] at he
    cases he
    rfl

/-! ## What a statement owns -/

/-- Walk through the symbol that a statement declares. -/
def throughDeclared (rest : Task → WalkM σ Unit) (s : StmtId) : WalkM σ Unit := do
  match (← program).declared? s with
  | none => pure ()
  | some y => rest (.symbol y)

/-- Walk through the statements that a statement holds. -/
def throughChildren (rest : Task → WalkM σ Unit) (s : StmtId) : WalkM σ Unit := do
  match (← program).children s with
  | .none => pure ()
  | .list list => rest (.stmts list)
  | .places places => places.forM fun place => rest (.stmt place)

/-- Walk through everything that a statement owns: what is done between its two hooks. -/
def inside (rest : Task → WalkM σ Unit) (s : StmtId) : WalkM σ Unit := do
  rest (.operandsFrom (.stmt s) 0)
  throughDeclared rest s
  throughChildren rest s

/-- The visit of a statement goes through what it owns, between its two hooks. -/
theorem visit_stmt (h : Hooks σ) (rest : Task → WalkM σ Unit) (place : StmtPlace) :
    visit h rest (.stmt place) = (do
      match (← program).stmtAt? place with
      | none => pure ()
      | some s =>
        enter h (.stmt s)
        call h (.stmt s) (h.preStmt s place)
        inside rest s
        call h (.stmt s) (h.postStmt s)
        leave (.stmt s)) := by
  refine bind_congr fun p => ?_
  cases p.stmtAt? place with
  | none => rfl
  | some s =>
    refine bind_congr fun _ => bind_congr fun _ => ?_
    simp only [inside, throughDeclared, throughChildren, bind_assoc]
    refine bind_congr fun _ => bind_congr fun p => ?_
    cases p.declared? s with
    | none =>
      simp only [pure_bind]
      refine bind_congr fun p => ?_
      cases p.children s <;> simp only [pure_bind]
    | some y =>
      refine bind_congr fun _ => bind_congr fun p => ?_
      cases p.children s <;> simp only [pure_bind]

/-! ## What whole walks keep -/

/-- Whether `x` halts or not, the state it leaves is related to the one it started from. -/
def Keeps (R : τ → τ → Prop) (x : ExceptT ε (StateM τ) α) : Prop := ∀ st, R st (exec x st).2

/-- A relation that a sequence keeps if its parts do. -/
structure Composes (R : τ → τ → Prop) : Prop where
  refl : ∀ st, R st st
  trans : ∀ {a b c}, R a b → R b c → R a c

section

variable {R : τ → τ → Prop}

/-- To do nothing keeps every such relation. -/
theorem Composes.pure (hR : Composes R) (a : α) :
    Keeps R (pure a : ExceptT ε (StateM τ) α) := fun st => hR.refl st

/-- To look at the state keeps every such relation. -/
theorem Composes.get (hR : Composes R) : Keeps R (get : ExceptT ε (StateM τ) τ) :=
  fun st => hR.refl st

/-- What is kept by two parts is kept by one after the other. -/
theorem Composes.bind (hR : Composes R) {x : ExceptT ε (StateM τ) α}
    {f : α → ExceptT ε (StateM τ) β} (hx : Keeps R x) (hf : ∀ a, Keeps R (f a)) :
    Keeps R (x >>= f) := by
  intro st
  rw [exec_bind]
  have hst := hx st
  match hr : exec x st with
  | (.ok a, st') =>
    rw [hr] at hst
    exact hR.trans hst (hf a st')
  | (.error e, st') =>
    rw [hr] at hst
    exact hst

/-- What is kept one by one is kept in a row. -/
theorem Composes.forM (hR : Composes R) {f : α → ExceptT ε (StateM τ) Unit}
    (hf : ∀ a, Keeps R (f a)) : ∀ xs : List α, Keeps R (xs.forM f)
  | [] => hR.pure ()
  | x :: xs => hR.bind (hf x) fun _ => hR.forM hf xs

end

/-- The hooks of a pass, each with the node it is called at. -/
inductive HookAt (h : Hooks σ) : NodeId → HookM σ Unit → Prop where
  | preSymbol (s : SymbolId) : HookAt h (.symbol s) (h.preSymbol s)
  | postSymbol (s : SymbolId) : HookAt h (.symbol s) (h.postSymbol s)
  | preStmt (s : StmtId) (place : StmtPlace) : HookAt h (.stmt s) (h.preStmt s place)
  | postStmt (s : StmtId) : HookAt h (.stmt s) (h.postStmt s)
  | preExpr (e : ExprId) (place : ExprPlace) : HookAt h (.expr e) (h.preExpr e place)
  | postExpr (e : ExprId) : HookAt h (.expr e) (h.postExpr e)

/-- A relation of states that composes and that every operation of a walk keeps. -/
structure Local (h : Hooks σ) (R : WalkState σ → WalkState σ → Prop) : Prop extends
    Composes R where
  enter : ∀ n, Keeps R (enter h n)
  leave : ∀ n, Keeps R (leave n : WalkM σ Unit)
  call : ∀ {n hook}, HookAt h n hook → Keeps R (call h n hook)

section

variable {h : Hooks σ} {R : WalkState σ → WalkState σ → Prop}

/-- To read the program keeps every such relation. -/
theorem Local.program (hR : Local h R) : Keeps R (program : WalkM σ Program) := fun st => hR.refl st

/-- To halt keeps every such relation. -/
theorem Local.fail (hR : Local h R) (n : NodeId) (cause : Cause) :
    Keeps R (fail h n cause : WalkM σ α) := fun st => hR.refl st

/-- What is kept below a declared symbol is kept in going through it. -/
theorem Local.throughDeclared (hR : Local h R) {rest : Task → WalkM σ Unit}
    (hrest : ∀ t, Keeps R (rest t)) (s : StmtId) : Keeps R (throughDeclared rest s) :=
  hR.bind hR.program fun p => by
    cases p.declared? s with
    | none => exact hR.pure ()
    | some y => exact hrest _

/-- What is kept below a statement is kept in going through it. -/
theorem Local.throughChildren (hR : Local h R) {rest : Task → WalkM σ Unit}
    (hrest : ∀ t, Keeps R (rest t)) (s : StmtId) : Keeps R (throughChildren rest s) :=
  hR.bind hR.program fun p => by
    cases p.children s with
    | none => exact hR.pure ()
    | list list => exact hrest _
    | places places => exact hR.forM (fun place => hrest _) places

/-- What is kept in each part of a statement is kept in all of it. -/
theorem Local.inside (hR : Local h R) {rest : Task → WalkM σ Unit} (hrest : ∀ t, Keeps R (rest t))
    (s : StmtId) : Keeps R (inside rest s) :=
  hR.bind (hrest _) fun _ =>
    hR.bind (hR.throughDeclared hrest s) fun _ => hR.throughChildren hrest s

/-- What the operations of one node keep, and the tasks that come up on the way, a task keeps. -/
theorem Local.visit (hR : Local h R) {rest : Task → WalkM σ Unit} (hrest : ∀ t, Keeps R (rest t)) :
    ∀ task, Keeps R (visit h rest task)
  | .module m =>
    hR.bind (hR.enter _) fun _ => hR.bind (hrest _) fun _ => hR.leave _
  | .symbol s =>
    hR.bind (hR.enter _) fun _ => hR.bind (hR.call (.preSymbol s)) fun _ =>
      hR.bind (hrest _) fun _ => hR.bind (hrest _) fun _ =>
      hR.bind (hR.call (.postSymbol s)) fun _ => hR.leave _
  | .stmt place => visit_stmt h rest place ▸ hR.bind hR.program fun p => by
    cases p.stmtAt? place with
    | none => exact hR.pure ()
    | some s =>
      exact hR.bind (hR.enter _) fun _ => hR.bind (hR.call (.preStmt s place)) fun _ =>
        hR.bind (hR.inside hrest s) fun _ => hR.bind (hR.call (.postStmt s)) fun _ => hR.leave _
  | .expr place => hR.bind hR.program fun p => by
    cases p.exprAt? place with
    | none => exact hR.pure ()
    | some e =>
      refine hR.bind (hR.enter _) fun _ => hR.bind (hR.call (.preExpr e place)) fun _ =>
        hR.bind hR.program fun p => ?_
      cases p.exprAt? place with
      | none => exact hR.leave _
      | some e' =>
        by_cases he : e' = e
        · simp only [he, if_true]
          exact hR.bind (hrest _) fun _ => hR.bind (hR.call (.postExpr e)) fun _ => hR.leave _
        · simp only [he, if_false]
          refine hR.bind (hR.leave _) fun _ => hR.bind hR.get fun st => ?_
          split
          · exact hR.pure ()
          · exact hrest _
  | .symbols list => hR.bind hR.program fun p => by
    cases (p.symbolList? list).bind (firstRepeat? []) with
    | none => exact hrest _
    | some s => exact hR.fail _ _
  | .symbolsFrom list cursor => hR.bind hR.program fun p => by
    cases (p.symbolList? list).bind cursor.next? with
    | none => exact hR.pure ()
    | some r => exact hR.bind (hrest _) fun _ => hrest _
  | .stmts list => hR.bind hR.program fun p => by
    cases (p.stmtList? list).bind (firstRepeat? []) with
    | none => exact hrest _
    | some s => exact hR.fail _ _
  | .stmtsFrom list cursor => hR.bind hR.program fun p => by
    cases (p.stmtList? list).bind cursor.next? with
    | none => exact hR.pure ()
    | some r => exact hR.bind (hrest _) fun _ => hrest _
  | .operandsFrom owner index => hR.bind hR.program fun p => by
    by_cases hi : index < (p.operands owner).length
    · simp only [hi, if_true]
      exact hR.bind (hrest _) fun _ => hrest _
    · simp only [hi, if_false]
      exact hR.pure ()

/-- What every operation of a walk keeps, the whole walk keeps. -/
theorem Local.walk (hR : Local h R) : ∀ depth task, Keeps R (walk h depth task)
  | 0, _ => fun st => hR.refl st
  | depth + 1, task => hR.visit (hR.walk depth) task

/-- What is kept by the operations of a walk is kept by the walk. -/
theorem Local.run (hR : Local h R) (task : Task) : Keeps R (run h task) := hR.walk depthLimit task

end

end MiddleEnd.Walk
