import MiddleEnd.Proofs.Walk.Replay
import MiddleEnd.Proofs.Walk.Scoped

/-!
# MiddleEnd.Proofs.Walk.Beside

Two walks side by side.  Both do the same tasks with the same hooks, on scenes that a walk cannot
tell apart (`Alike`); the second one comes from somewhere else and has entered nodes before
(`Beside`).  As long as the first one enters none of these, the second one does what the first one
does: it ends where that ends, and is beside it there (`Repeats`).

Only the hooks know what the scenes have in common; what `Simulates` asks of them at one node,
`repeats_run` concludes for whole walks.
-/

namespace MiddleEnd.Walk

variable {σ α β : Type}

/-! ## States side by side -/

/-- A walk reads the same of both programs. -/
structure Alike (p q : Program) : Prop where
  has : q.has = p.has
  operands : q.operands = p.operands
  stmtAt? : q.stmtAt? = p.stmtAt?
  declared? : q.declared? = p.declared?
  children : q.children = p.children
  symbolList? : q.symbolList? = p.symbolList?
  stmtList? : q.stmtList? = p.stmtList?

/-- In programs that are read alike the places hold the same expressions. -/
theorem Alike.exprAt? {p q : Program} (h : Alike p q) : q.exprAt? = p.exprAt? := by
  funext place
  rw [Program.exprAt?, Program.exprAt?, h.operands]

/-- The second walk entered what the first one did, and before that the nodes of `old`, which its
tally still counts. -/
structure Beside (old : NodeSet) (before : Tally) (S : Scene σ → Scene σ → Prop)
    (a b : WalkState σ) : Prop where
  seen : ∀ n, b.trail.seen.contains n = (old.contains n || a.trail.seen.contains n)
  number : ∀ step, b.trail.tally.number step = before.number step + a.trail.tally.number step
  scene : S a.scene b.scene

/-- What the first walk does well from `a` without entering a node of `old`, the second one does as
well. -/
def Again (old : NodeSet) (before : Tally) (S : Scene σ → Scene σ → Prop) (x : WalkM σ α)
    (a : WalkState σ) : Prop :=
  ∀ b r a', Beside old before S a b → exec x a = (.ok r, a') →
    (∀ n, old.contains n = true → a'.trail.seen.contains n = false) →
    ∃ b', exec x b = (.ok r, b') ∧ Beside old before S a' b'

/-- What is done well once is done well again by a walk beside, wherever it starts from. -/
structure Repeats (old : NodeSet) (before : Tally) (S : Scene σ → Scene σ → Prop) (x : WalkM σ α) :
    Prop where
  grown : Keeps Grown x
  again : ∀ a, Again old before S x a

/-- What hooks do well at a scene, they do as well at a scene of which a walk reads the same. -/
structure Simulates (h : Hooks σ) (S : Scene σ → Scene σ → Prop) : Prop where
  alike : ∀ {x y}, S x y → Alike x.program y.program
  hook : ∀ {n hook x x' y}, HookAt h n hook → S x y → exec hook x = (.ok (), x') →
    ∃ y', exec hook y = (.ok (), y') ∧ S x' y'

section

variable {old : NodeSet} {before : Tally} {S : Scene σ → Scene σ → Prop} {h : Hooks σ}

/-- What is neither old nor met by the first walk is not met by the second. -/
theorem Beside.unseen {a b : WalkState σ} {n : NodeId} (hab : Beside old before S a b)
    (ha : a.trail.seen.contains n = false) (hn : old.contains n = false) :
    b.trail.seen.contains n = false := by
  rw [hab.seen, hn, ha]
  rfl

/-! ## Sequences -/

/-- What was entered stays so along a sequence. -/
theorem grown_composes : Composes (Grown : WalkState σ → WalkState σ → Prop) where
  refl _ _ hn := hn
  trans hab hbc n hn := hbc n (hab n hn)

/-- To do nothing is done again. -/
theorem repeats_pure (r : α) : Repeats old before S (pure r : WalkM σ α) where
  grown _ := fun _ hn => hn
  again _ b _ _ hab hx _ := by
    cases hx
    exact ⟨b, rfl, hab⟩

/-- Nodes that are not entered in the end were not entered half way. -/
theorem Repeats.bind {x : WalkM σ α} {f : α → WalkM σ β} (hx : Repeats old before S x)
    (hf : ∀ r, Repeats old before S (f r)) : Repeats old before S (x >>= f) where
  grown := grown_composes.bind hx.grown fun r => (hf r).grown
  again a b r a' hab hexec hapart := by
    obtain ⟨r₁, a₁, hx₁, hf₁⟩ := ok_of_exec_bind hexec
    have hlater := (hf r₁).grown a₁
    rw [hf₁] at hlater
    have hapart₁ : ∀ n, old.contains n = true → a₁.trail.seen.contains n = false := fun n hn => by
      by_contra hseen
      have hseen' := hlater n (by simpa using hseen)
      rw [hapart n hn] at hseen'
      cases hseen'
    obtain ⟨b₁, hb₁, hab₁⟩ := hx.again a b r₁ a₁ hab hx₁ hapart₁
    obtain ⟨b', hb', hab'⟩ := (hf r₁).again a₁ b₁ r a' hab₁ hf₁ hapart
    exact ⟨b', (exec_bind_ok hb₁).trans hb', hab'⟩

/-- What is done again one by one is done again in a row. -/
theorem repeats_forM {f : α → WalkM σ Unit} (hf : ∀ x, Repeats old before S (f x)) :
    ∀ xs : List α, Repeats old before S (xs.forM f)
  | [] => repeats_pure ()
  | x :: xs => (hf x).bind fun _ => repeats_forM hf xs

/-! ## The operations of a walk -/

/-- Both walks read the same, so they go on in the same way. -/
theorem repeats_program (hS : Simulates h S) {f : Program → WalkM σ α}
    (hsame : ∀ {p q}, Alike p q → f q = f p) (hgrown : ∀ p, Keeps Grown (f p))
    (hf : ∀ a : WalkState σ, Again old before S (f a.scene.program) a) :
    Repeats old before S (program >>= f) where
  grown := grown_composes.bind (fun st => grown_composes.refl st) hgrown
  again a b r a' hab hexec hapart := by
    rw [exec_bind_ok (exec_program a)] at hexec
    rw [exec_bind_ok (exec_program b), hsame (hS.alike hab.scene)]
    exact hf a b r a' hab hexec hapart

/-- What is done with a program does not depend on the state. -/
theorem repeats_program_all (hS : Simulates h S) {f : Program → WalkM σ α}
    (hsame : ∀ {p q}, Alike p q → f q = f p) (hf : ∀ p, Repeats old before S (f p)) :
    Repeats old before S (program >>= f) :=
  repeats_program hS hsame (fun p => (hf p).grown) fun a => (hf a.scene.program).again a

theorem repeats_fail (n : NodeId) (cause : Cause) :
    Repeats old before S (fail h n cause : WalkM σ α) where
  grown st := grown_composes.refl st
  again a b r a' _ hexec _ := by
    rw [exec_fail] at hexec
    cases hexec

/-- A node that is not old is entered again. -/
theorem repeats_enter (hS : Simulates h S) (n : NodeId) : Repeats old before S (enter h n) where
  grown := (grown_local h).enter n
  again a b r a' hab hexec hapart := by
    obtain ⟨hhas, hunseen, rfl⟩ := of_exec_enter_ok hexec
    have hn : old.contains n = false := by
      by_contra hold
      have hseen := hapart n (by simpa using hold)
      simp at hseen
    rw [← (hS.alike hab.scene).has] at hhas
    refine ⟨_, exec_enter_ok hhas (hab.unseen hunseen hn), fun m => ?_, fun step => ?_, hab.scene⟩
    · rw [NodeSet.contains_insert, NodeSet.contains_insert, hab.seen]
      exact Bool.or_left_comm _ _ _
    · rw [Tally.number_count, Tally.number_count, hab.number]
      omega

theorem repeats_leave (n : NodeId) : Repeats old before S (leave n : WalkM σ Unit) where
  grown st := grown_composes.refl st
  again a b r a' hab hexec _ := by
    cases hexec
    exact ⟨_, rfl, hab.seen, hab.number, hab.scene⟩

/-- A hook that accepts does so again. -/
theorem repeats_call (hS : Simulates h S) {n : NodeId} {hook : HookM σ Unit}
    (hat : HookAt h n hook) : Repeats old before S (call h n hook) where
  grown := (grown_local h).call hat
  again a b r a' hab hexec _ := by
    obtain ⟨x, hx, rfl⟩ := of_exec_call_ok hexec
    obtain ⟨y, hy, hxy⟩ := hS.hook hat hab.scene hx
    exact ⟨_, exec_call_ok hy, hab.seen, hab.number, hxy⟩

/-! ## Whole walks -/

variable {rest : Task → WalkM σ Unit} {place : ExprPlace} {e e' : ExprId}

/-- What is done of an expression after its first hook, which may have exchanged it. -/
def finish (h : Hooks σ) (rest : Task → WalkM σ Unit) (place : ExprPlace) (e : ExprId)
    (p : Program) : WalkM σ Unit :=
  match p.exprAt? place with
  | none => leave (.expr e)
  | some e' =>
    if e' = e then do
      rest (.operandsFrom (.expr e) 0)
      call h (.expr e) (h.postExpr e)
      leave (.expr e)
    else do
      leave (.expr e)
      unless (← get).trail.seen.contains (.expr e') do
        rest (.expr place)

/-- The visit of an expression is its first hook and then what follows from that. -/
theorem visit_expr (h : Hooks σ) (rest : Task → WalkM σ Unit) (place : ExprPlace) :
    visit h rest (.expr place) = (do
      match (← program).exprAt? place with
      | none => pure ()
      | some e =>
        enter h (.expr e)
        call h (.expr e) (h.preExpr e place)
        finish h rest place e (← program)) := rfl

/-- Finishing an expression leaves what was entered. -/
theorem grown_finish (h : Hooks σ) (hrest : ∀ t, Keeps Grown (rest t)) (p : Program) :
    Keeps Grown (finish h rest place e p) := by
  have hR := grown_local h
  rw [finish]
  split
  · exact hR.leave _
  split
  · exact hR.bind (hrest _) fun _ => hR.bind (hR.call (.postExpr e)) fun _ => hR.leave _
  · refine hR.bind (hR.leave _) fun _ => hR.bind hR.get fun st => ?_
    split
    · exact hR.pure ()
    · exact hrest _

/-- A walk of the expression in a place enters it. -/
theorem seen_of_walk_expr {depth : Nat} {st st' : WalkState σ}
    (hat : st.scene.program.exprAt? place = some e)
    (hexec : exec (walk h depth (.expr place)) st = (.ok (), st')) :
    st'.trail.seen.contains (.expr e) = true := by
  cases depth with
  | zero => cases hexec
  | succ depth =>
    have hR := grown_local h
    rw [walk, visit_expr, exec_bind_ok (exec_program st), hat] at hexec
    obtain ⟨_, st₁, henter, hexec⟩ := ok_of_exec_bind hexec
    obtain ⟨_, _, rfl⟩ := of_exec_enter_ok henter
    refine grown_of_exec (hR.bind (hR.call (.preExpr e place)) fun _ =>
      hR.bind hR.program fun p => grown_finish h (hR.walk depth) p) hexec _ (by simp)

/-- What a statement owns is walked again. -/
theorem repeats_inside (hS : Simulates h S) (hrest : ∀ t, Repeats old before S (rest t))
    (s : StmtId) : Repeats old before S (inside rest s) := by
  refine (hrest _).bind fun _ => Repeats.bind
    (repeats_program_all hS (fun hpq => by simp only [hpq.declared?]) fun p => ?_) fun _ =>
    repeats_program_all hS (fun hpq => by simp only [hpq.children]) fun p => ?_
  · cases p.declared? s with
    | none => exact repeats_pure ()
    | some y => exact hrest _
  · cases p.children s with
    | none => exact repeats_pure ()
    | list list => exact hrest _
    | places places => exact repeats_forM (fun place => hrest _) places

/-- Where an expression was exchanged, the first walk goes on with the new one if it did not enter
it before, and enters it then; so it is none of `old`, and the second walk goes on as well. -/
theorem again_finish (hS : Simulates h S) (hrest : ∀ t, Repeats old before S (rest t))
    (henters : ∀ {place : ExprPlace} {e : ExprId} {st st' : WalkState σ},
      st.scene.program.exprAt? place = some e →
      exec (rest (.expr place)) st = (.ok (), st') → st'.trail.seen.contains (.expr e) = true)
    (a : WalkState σ) :
    Again old before S (finish h rest place e a.scene.program) a := by
  rw [finish]
  split
  · exact (repeats_leave _).again a
  next e' hat =>
  split
  · exact ((hrest _).bind fun _ => (repeats_call hS (.postExpr e)).bind fun _ =>
      repeats_leave _).again a
  intro b r a' hab hexec hapart
  let a₁ : WalkState σ := { a with trail := a.trail.leave (.expr e) }
  let b₁ : WalkState σ := { b with trail := b.trail.leave (.expr e) }
  have hab₁ : Beside old before S a₁ b₁ := ⟨hab.seen, hab.number, hab.scene⟩
  have hat₁ : a₁.scene.program.exprAt? place = some e' := hat
  rw [exec_bind_ok (exec_leave _ a), exec_bind_ok (exec_get a₁)] at hexec
  rw [exec_bind_ok (exec_leave _ b), exec_bind_ok (exec_get b₁)]
  by_cases hseen : a₁.trail.seen.contains (.expr e') = true
  · rw [if_pos hseen] at hexec
    have hseen' : b₁.trail.seen.contains (.expr e') = true := by
      rw [hab₁.seen, hseen, Bool.or_true]
    rw [if_pos hseen']
    exact (repeats_pure ()).again a₁ b₁ r a' hab₁ hexec hapart
  · rw [if_neg hseen] at hexec
    have hold : old.contains (.expr e') = false := by
      by_contra hold
      have hlater := henters hat₁ hexec
      rw [hapart _ (by simpa using hold)] at hlater
      cases hlater
    have hunseen := hab₁.unseen (by simpa using hseen) hold
    rw [if_neg (by simpa using hunseen)]
    exact (hrest _).again a₁ b₁ r a' hab₁ hexec hapart

/-- If the tasks on the way are repeated, then so is a task. -/
theorem repeats_visit (hS : Simulates h S) (hrest : ∀ t, Repeats old before S (rest t))
    (henters : ∀ {place : ExprPlace} {e : ExprId} {st st' : WalkState σ},
      st.scene.program.exprAt? place = some e →
      exec (rest (.expr place)) st = (.ok (), st') → st'.trail.seen.contains (.expr e) = true) :
    ∀ task, Repeats old before S (visit h rest task)
  | .module m =>
    (repeats_enter hS _).bind fun _ => (hrest _).bind fun _ => repeats_leave _
  | .symbol s =>
    (repeats_enter hS _).bind fun _ => (repeats_call hS (.preSymbol s)).bind fun _ =>
      (hrest _).bind fun _ => (hrest _).bind fun _ =>
      (repeats_call hS (.postSymbol s)).bind fun _ => repeats_leave _
  | .stmt place => by
    rw [visit_stmt]
    refine repeats_program_all hS (fun hpq => by simp only [hpq.stmtAt?]) fun p => ?_
    cases p.stmtAt? place with
    | none => exact repeats_pure ()
    | some s =>
      exact (repeats_enter hS _).bind fun _ => (repeats_call hS (.preStmt s place)).bind fun _ =>
        (repeats_inside hS hrest s).bind fun _ => (repeats_call hS (.postStmt s)).bind fun _ =>
        repeats_leave _
  | .expr place => by
    rw [visit_expr]
    refine repeats_program_all hS (fun hpq => by simp only [hpq.exprAt?]) fun p => ?_
    cases p.exprAt? place with
    | none => exact repeats_pure ()
    | some e =>
      exact (repeats_enter hS _).bind fun _ => (repeats_call hS (.preExpr e place)).bind fun _ =>
        repeats_program hS (fun hpq => by simp only [finish, hpq.exprAt?])
          (grown_finish h fun t => (hrest t).grown) (again_finish hS hrest henters)
  | .symbols list => repeats_program_all hS (fun hpq => by simp only [hpq.symbolList?]) fun p => by
    cases (p.symbolList? list).bind (firstRepeat? []) with
    | none => exact hrest _
    | some s => exact repeats_fail _ _
  | .symbolsFrom list cursor =>
    repeats_program_all hS (fun hpq => by simp only [hpq.symbolList?]) fun p => by
      cases (p.symbolList? list).bind cursor.next? with
      | none => exact repeats_pure ()
      | some r => exact (hrest _).bind fun _ => hrest _
  | .stmts list => repeats_program_all hS (fun hpq => by simp only [hpq.stmtList?]) fun p => by
    cases (p.stmtList? list).bind (firstRepeat? []) with
    | none => exact hrest _
    | some s => exact repeats_fail _ _
  | .stmtsFrom list cursor =>
    repeats_program_all hS (fun hpq => by simp only [hpq.stmtList?]) fun p => by
      cases (p.stmtList? list).bind cursor.next? with
      | none => exact repeats_pure ()
      | some r => exact (hrest _).bind fun _ => hrest _
  | .operandsFrom owner index =>
    repeats_program_all hS (fun hpq => by simp only [hpq.operands]) fun p => by
      by_cases hi : index < (p.operands owner).length
      · simp only [hi, if_true]
        exact (hrest _).bind fun _ => hrest _
      · simp only [hi, if_false]
        exact repeats_pure ()

/-- A walk that ends well is done again, at any depth. -/
theorem repeats_walk (hS : Simulates h S) :
    ∀ depth task, Repeats old before S (walk h depth task)
  | 0, _ => ⟨fun st => grown_composes.refl st, fun _ _ _ _ _ hexec _ => by cases hexec⟩
  | depth + 1, task => repeats_visit hS (repeats_walk hS depth) seen_of_walk_expr task

/-- What hooks do as well side by side, walks do as well. -/
theorem repeats_run (hS : Simulates h S) (task : Task) : Repeats old before S (run h task) :=
  repeats_walk hS depthLimit task

end

end MiddleEnd.Walk
