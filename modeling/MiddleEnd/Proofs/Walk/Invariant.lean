import MiddleEnd.Proofs.Walk.Scoped

/-!
# MiddleEnd.Proofs.Walk.Invariant

Invariants of a walk, whatever its hooks do and however it ends.  A walk enters a node only if it
starts from it or finds it in a position of a node entered before (`Met`), and it calls its hooks
only at such nodes (`Site`).  What is kept there, from one operation to the next, holds wherever
the walk ends well, and tells for which reasons it may halt: it is an invariant of the visits that
are going on, too (`Invariant.scoped`, `Upheld.scoped`).
-/

namespace MiddleEnd.Walk

variable {σ : Type} {h : Hooks σ} {modules : List ModuleId} {st st₁ : WalkState σ}

/-! ## Where a walk gets -/

/-- The nodes that may be entered: the modules that are walked, and what is held in a position of a
node that was entered. -/
inductive Met (modules : List ModuleId) (st : WalkState σ) : NodeId → Prop where
  | root {m : ModuleId} (hm : m ∈ modules) : Met modules st (.module m)
  | held {pos : Position} {n : NodeId} (howner : st.trail.seen.contains pos.owner = true)
      (hheld : st.scene.program.heldAt? pos = some n) : Met modules st n

/-- A hook where it is called: at a node that is held in a place of another node, which was entered
before. -/
inductive Site (h : Hooks σ) (st : WalkState σ) : NodeId → HookM σ Unit → Prop where
  | preSymbol (s : SymbolId) : Site h st (.symbol s) (h.preSymbol s)
  | postSymbol (s : SymbolId) : Site h st (.symbol s) (h.postSymbol s)
  | preStmt {s : StmtId} {place : StmtPlace} (hat : st.scene.program.stmtAt? place = some s)
      (hholder : st.trail.seen.contains place.holder = true) (hne : place.holder ≠ .stmt s) :
      Site h st (.stmt s) (h.preStmt s place)
  | postStmt (s : StmtId) : Site h st (.stmt s) (h.postStmt s)
  | preExpr {e : ExprId} {place : ExprPlace} (hat : st.scene.program.exprAt? place = some e)
      (howner : st.trail.seen.contains place.owner.node = true) (hne : place.owner.node ≠ .expr e) :
      Site h st (.expr e) (h.preExpr e place)
  | postExpr (e : ExprId) : Site h st (.expr e) (h.postExpr e)

/-- A hook that is called somewhere is one of the pass. -/
theorem Site.hookAt {n : NodeId} {hook : HookM σ Unit} (hsite : Site h st n hook) :
    HookAt h n hook := by
  cases hsite with
  | preSymbol s => exact .preSymbol s
  | postSymbol s => exact .postSymbol s
  | preStmt _ _ _ => exact .preStmt _ _
  | postStmt s => exact .postStmt s
  | preExpr _ _ _ => exact .preExpr _ _
  | postExpr e => exact .postExpr e

/-- `I` holds after each operation of a walk if it did before; an operation halts for a reason of
`J` only. -/
structure Invariant (h : Hooks σ) (modules : List ModuleId) (I : WalkState σ → Prop)
    (J : Halt → Prop) : Prop where
  defect : ∀ n cause, J (.defect (.during h.pass n cause))
  enter : ∀ {st n}, I st → Met modules st n → st.scene.program.has n = true →
    st.trail.seen.contains n = false → I (entering n st)
  leave : ∀ {st} n, I st → I { st with trail := st.trail.leave n }
  call : ∀ {st n hook}, I st → st.trail.seen.contains n = true → Site h st n hook →
    Does (Walk.call h n hook) st (fun _ => I) fun e _ => J e

/-- `I` holds after each operation of a walk if it did before, and an operation halts as `J` says of
the reason and of the state that it leaves. -/
structure Upheld (h : Hooks σ) (modules : List ModuleId) (I : WalkState σ → Prop)
    (J : Halt → WalkState σ → Prop) : Prop where
  defect : ∀ {st} n cause, I st → J (.defect (.during h.pass n cause)) st
  enter : ∀ {st n}, I st → Met modules st n → st.scene.program.has n = true →
    st.trail.seen.contains n = false → I (entering n st)
  leave : ∀ {st} n, I st → I { st with trail := st.trail.leave n }
  call : ∀ {st n hook}, I st → st.trail.seen.contains n = true → Site h st n hook →
    Does (Walk.call h n hook) st (fun _ => I) J

section

variable {I : WalkState σ → Prop} {J : Halt → WalkState σ → Prop} {stack : List NodeId} {c : Call}

/-- A first hook is called at a node that is held in a place of a node that was entered before. -/
theorem Site.of_sited (hsited : c.Sited stack st.scene.program) (hc : c.isPre = true)
    (hstack : ∀ n ∈ stack, st.trail.seen.contains n = true)
    (hunseen : st.trail.seen.contains c.node = false) :
    Met modules st c.node ∧ Site h (entering c.node st) c.node (h.hook c) := by
  obtain ⟨pos, htop, hheld, htold⟩ := hsited
  have howner := hstack _ (List.mem_of_mem_head? htop)
  have hne : pos.owner ≠ c.node := NodeSet.ne_of_contains howner hunseen
  have howner' := grown_entering c.node st _ howner
  refine ⟨.held howner hheld, ?_⟩
  cases c with
  | preSymbol s => exact .preSymbol s
  | preStmt s place =>
    obtain rfl := htold _ rfl
    have hat : st.scene.program.stmtAt? place = some s := by
      simpa [Program.heldAt?, Call.node] using hheld
    exact .preStmt hat howner' hne
  | preExpr e place =>
    obtain rfl := htold _ rfl
    have hat : st.scene.program.exprAt? place = some e := by
      simpa [Program.heldAt?, Call.node] using hheld
    exact .preExpr hat howner' hne
  | postSymbol _ | postStmt _ | postExpr _ => cases hc

/-- A last hook may be called wherever its node was entered. -/
theorem Site.of_post (hc : c.isPre = false) : Site h st c.node (h.hook c) := by
  cases c with
  | postSymbol s => exact .postSymbol s
  | postStmt s => exact .postStmt s
  | postExpr e => exact .postExpr e
  | preSymbol _ | preStmt _ _ | preExpr _ _ => cases hc

/-- Such an invariant does not depend on which visits are going on, but that they are of nodes that
were entered. -/
theorem Upheld.scoped (hI : Upheld h modules I J) :
    Scoped h modules (fun stack st => I st ∧ ∀ n ∈ stack, st.trail.seen.contains n = true) J where
  refuse n _ hst _ := hI.defect n _ hst.1
  enter {stack st m} hst hm hhas hunseen := by
    refine ⟨hI.enter hst.1 (.root hm) hhas hunseen, fun n hn => ?_⟩
    rcases List.mem_cons.mp hn with rfl | hn
    · exact seen_entering _ st
    · exact grown_entering _ st n (hst.2 n hn)
  leave hst := ⟨hI.leave _ hst.1, fun n hn => hst.2 n (List.mem_cons_of_mem _ hn)⟩
  opens {stack st c} hst hc hsited hhas hunseen := by
    obtain ⟨hmet, hsite⟩ := Site.of_sited hsited hc hst.2 hunseen
    have hseen := seen_entering c.node st
    have hdoes := hI.call (hI.enter hst.1 hmet hhas hunseen) hseen hsite
    have hgrown := (grown_local h).call (hookAt_hook h c) (entering c.node st)
    rcases hexec : exec (Walk.call h c.node (h.hook c)) (entering c.node st) with ⟨e | ⟨⟩, st₁⟩
    · exact does_of_error hexec (hdoes.of_error hexec)
    · rw [hexec] at hgrown
      have hbelow : ∀ n ∈ stack, st₁.trail.seen.contains n = true := fun n hn =>
        hgrown _ (grown_entering _ st n (hst.2 n hn))
      exact does_of_ok hexec ⟨fun _ => ⟨hdoes.of_ok hexec,
        List.forall_mem_cons.mpr ⟨hgrown _ hseen, hbelow⟩⟩,
        fun _ => ⟨hI.leave _ (hdoes.of_ok hexec), hbelow⟩⟩
  closes {stack st c} hst hc := by
    have hdoes := hI.call hst.1 (hst.2 _ List.mem_cons_self) (Site.of_post hc)
    have hgrown := (grown_local h).call (hookAt_hook h c) st
    rcases hexec : exec (Walk.call h c.node (h.hook c)) st with ⟨e | ⟨⟩, st₁⟩
    · exact does_of_error hexec (hdoes.of_error hexec)
    · rw [hexec] at hgrown
      exact does_of_ok hexec ⟨hI.leave _ (hdoes.of_ok hexec), fun n hn =>
        hgrown n (hst.2 n (List.mem_cons_of_mem _ hn))⟩

end

section

variable {I : WalkState σ → Prop} {J : Halt → Prop}

theorem Invariant.scoped (hI : Invariant h modules I J) :
    Scoped h modules (fun stack st => I st ∧ ∀ n ∈ stack, st.trail.seen.contains n = true)
      fun e _ => J e :=
  Upheld.scoped ⟨fun n cause _ => hI.defect n cause, hI.enter, hI.leave, hI.call⟩

end

end MiddleEnd.Walk
