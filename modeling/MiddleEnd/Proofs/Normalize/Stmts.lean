import MiddleEnd.Proofs.Normalize.Lists
import MiddleEnd.Proofs.Normalize.Made

/-!
# MiddleEnd.Proofs.Normalize.Stmts

The pass on single symbols and statements.  By induction on its tree, visiting a symbol, a branch
or an entry makes of it what `rebuild` makes of the tree (`goes`).

Every visit has two parts: the hook called first puts the node into the shape that `entered`
describes (`MiddleEnd.Proofs.Normalize.Rewrite`), and from there on the visit goes through what is
below it (`inside_goes`).
-/

namespace MiddleEnd.Normalize

open MiddleEnd.Tree Walk

/-! ## Below a node -/

section

variable {st : WalkState Normalizer} {s : StmtId} {c : Cell}

/-- The symbol that a statement declares is visited. -/
theorem declared_go {ss : List Tree} (hss : ∀ t ∈ ss, SymbolGoes t)
    (hready : Ready (· = .stmt s) st ss) (hc : st.scene.program.cell? (.stmt s) = some c)
    (hsymbols : c.symbols = ss.map Tree.id) :
    Ends (throughDeclared (Walk.run hooks) s) st fun st' => ∃ us,
      (rebuildAll st.scene.own.rules ss).run (supplyOf st.scene) = (us, supplyOf st'.scene) ∧
        Becomes nowhere st st' ss us := by
  rw [Program.declared_of_cell? hc] at hsymbols
  refine .step (exec_program st) ?_
  cases hd : st.scene.program.declared? s with
  | none =>
    obtain rfl : ss = [] := by simpa [hd] using hsymbols.symm
    exact .pure ⟨[], by rw [rebuildAll, run_pure], .refl _ st⟩
  | some y =>
    rw [hd] at hsymbols
    obtain ⟨t, rfl, hid⟩ := List.map_eq_singleton_iff.mp hsymbols.symm
    refine (hss t List.mem_cons_self st y hid hready.alone).mono ?_
    rintro st' ⟨u, hu, hbecomes⟩
    exact ⟨[u], by simp only [rebuildAll, run_bind, run_pure, hu], hbecomes⟩

/-- Whether the statements below a node are ready to be visited where they stand: branches must
not have to be wrapped any more. -/
def HeldGo (r : Rules) (l : Label) (ts : List Tree) : Prop :=
  if l.hasBranches then ∀ t ∈ ts, BranchGoes t ∧ wrapped r t = false else ∀ t ∈ ts, EntryGoes t

/-- The statements that a statement holds are visited. -/
theorem held_go {ts : List Tree} (hts : HeldGo st.scene.own.rules c.label ts)
    (hready : Ready (· = .stmt s) st ts) (hc : st.scene.program.cell? (.stmt s) = some c)
    (hstmts : c.stmts = ts.map Tree.id) :
    Ends (throughChildren (Walk.run hooks) s) st fun st' => ∃ us,
      (rebuildHeld st.scene.own.rules c.label ts).run (supplyOf st.scene) =
          (us, supplyOf st'.scene) ∧
        Becomes (· = .stmt s) st st' ts us ∧
        Owns (.stmt s) { c with stmts := us.map Tree.id } st st' := by
  obtain ⟨head, line, hl⟩ := Program.exists_stmt_label hc
  have hchildren := Program.children_of_cell? hc hl
  unfold HeldGo at hts
  unfold rebuildHeld
  refine .step (exec_program st) ?_
  rw [hchildren]
  by_cases hblock : head = .block
  · have hnot : c.label.hasBranches = false := by rw [hl, hblock]; rfl
    rw [if_pos hblock]
    simp only [hnot, Bool.false_eq_true, if_false] at hts ⊢
    exact stmts_go (.block s) hts hready hc (by rw [hl, hblock]; trivial) hstmts
  rw [if_neg hblock]
  by_cases hb : head.branches = []
  · -- there is nothing to visit
    have hnot : c.label.hasBranches = false := by rw [hl]; exact branches_eq_nil.mp hb
    have hheld := Program.held_of_cell? hc
    rw [Program.heldStmts, hchildren, if_neg hblock, if_pos hb] at hheld
    obtain rfl : ts = [] := by simpa [hheld] using hstmts.symm
    rw [if_pos hb]
    simp only [hnot, Bool.false_eq_true, if_false]
    exact .pure ⟨[], by rw [rebuildEntries, run_pure], .refl _ st, by rw [hc, ← hstmts], rfl⟩
  · have hhas : c.label.hasBranches = true := by
      rw [hl]
      by_contra h
      exact hb (branches_eq_nil.mpr (by simpa using h))
    rw [if_neg hb]
    simp only [hhas, if_true] at hts ⊢
    have hlen := Program.length_branches hc hl hb
    rw [hstmts, List.length_map] at hlen
    refine (branches_go (fun t ht => (hts t ht).1) head.branches [] c st (fun t ht => (hts t ht).2)
      hready hc hl (fun _ h => h) head.index_branches hstmts hlen).mono ?_
    rintro st' ⟨us, hus, hbecomes⟩
    refine ⟨us, hus, hbecomes.widen, ?_, ?_⟩
    · have hids := map_id_rebuildAll st.scene.own.rules ts (supplyOf st.scene)
      rw [hus] at hids
      rw [hbecomes.moved.held_cell hready.sound (hready.held _ rfl) id, hc, hids, ← hstmts]
    · rw [hbecomes.moved.held_backs hready.sound (hready.held _ rfl) id]

/-- Everything below a statement is visited. -/
theorem through_goes {l : Label} {es ss ts : List Tree}
    (hready : Ready (· = .stmt s) st (es ++ ss ++ ts))
    (hc : st.scene.program.cell? (.stmt s) = some (Tree.node (.stmt s) l es ss ts).cell)
    (hstmt : st.scene.own.context.enclosingStmt.isSome = true) (hss : ∀ t ∈ ss, SymbolGoes t)
    (hts : HeldGo st.scene.own.rules l ts) :
    Ends (inside (Walk.run hooks) s) st fun st' => ∃ us vs ws,
      (below st.scene.own.rules (.node (.stmt s) l es ss ts)).run (supplyOf st.scene) =
          (.node (.stmt s) l us vs ws, supplyOf st'.scene) ∧
        Becomes (· = .stmt s) st st' (es ++ ss ++ ts) (us ++ vs ++ ws) ∧
        Owns (.stmt s) (Tree.node (.stmt s) l us vs ws).cell st st' := by
  have hready₀ : Ready (· = (ExprOwner.stmt s).node) st es := hready.left.left
  have hoperands := operands_go _ (fun t _ => expr_goes t) st _ [] hready₀ hc rfl hstmt
  refine hoperands.bind (larger_local.bind (larger_local.throughDeclared larger_local.run s)
    fun _ => larger_local.throughChildren larger_local.run s) ?_
  rintro st₁ ⟨us, hus, hbecomes₁, howns₁⟩
  have hready₁ : Ready (· = .stmt s) st₁ (ss ++ ts) :=
    Becomes.ready hbecomes₁ (by simpa using hready)
  have hdeclared := declared_go hss hready₁.left howns₁.cell rfl
  refine hdeclared.bind (larger_local.throughChildren larger_local.run s) ?_
  rintro st₂ ⟨vs, hvs, hbecomes₂⟩
  have hready₂ := Becomes.ready hbecomes₂.widen hready₁
  have hrules₁ := hbecomes₁.moved.rules
  have hrules₂ := hbecomes₂.moved.rules.trans hrules₁
  have hc₂ := (hbecomes₂.moved.held_cell hready₁.sound (hready₁.held _ rfl) id).trans howns₁.cell
  refine (held_go (hrules₂ ▸ hts) hready₂ hc₂ rfl).mono ?_
  rintro st₃ ⟨ws, hws, hbecomes₃, howns₃⟩
  rw [hrules₁] at hvs
  rw [hrules₂] at hws
  refine ⟨us, vs, ws, ?_, ?_, ?_, ?_⟩
  · rw [below, run_bind, hus, run_bind, hvs, run_bind,
      show (rebuildHeld st.scene.own.rules l ts).run (supplyOf st₂.scene) = _ from hws]
    rfl
  · exact (hbecomes₁.trans hbecomes₂.widen hready.held).trans hbecomes₃ hready.held
  · have hids := map_id_rebuildAll st.scene.own.rules ss (supplyOf st₁.scene)
    rw [hvs] at hids
    rw [howns₃.cell]
    simp [hids]
  · rw [howns₃.backs, hbecomes₂.moved.held_backs hready₁.sound (hready₁.held _ rfl) id]
    exact howns₁.backs

end

section

variable {st st₁ : WalkState Normalizer} {H : NodeId → Prop} {s : StmtId} {l : Label}
  {es ss ts : List Tree}

/-- What is done in a statement once the hook called first is through. -/
theorem inside_goes (henter : Moved (· = .stmt s) H st st₁)
    (hready : Ready (· = .stmt s) st₁ (es ++ ss ++ ts))
    (hc : st₁.scene.program.cell? (.stmt s) = some (Tree.node (.stmt s) l es ss ts).cell)
    (hb : st₁.scene.program.backs? (.stmt s) =
      some (st.scene.own.context.around.backs (.stmt s)))
    (hcontext : st₁.scene.own.context = st.scene.own.context.inStmt s)
    (hss : ∀ t ∈ ss, SymbolGoes t) (hts : HeldGo st.scene.own.rules l ts) :
    Ends (do
        inside (Walk.run hooks) s
        call hooks (.stmt s) (hooks.postStmt s)
        leave (.stmt s)) st₁ fun st' => ∃ u,
      (below st.scene.own.rules (.node (.stmt s) l es ss ts)).run (supplyOf st₁.scene) =
          (u, supplyOf st'.scene) ∧
        Moved (Entered st₁ st' (es ++ ss ++ ts)) (· = .stmt s) st₁ st' ∧
        Yields (fun n => n = .stmt s ∨ Entered st₁ st' (es ++ ss ++ ts) n) H st st' [u] := by
  have hthrough := through_goes hready hc (by rw [hcontext]; rfl) hss (henter.rules ▸ hts)
  refine hthrough.bind (larger_local.bind (larger_local.call (.postStmt s)) fun _ =>
    larger_local.leave _) ?_
  rintro st₂ ⟨us, vs, ws, hrun, hbecomes, howns⟩
  obtain ⟨context, hleave, hlevel⟩ := Context.Level.leaveStmt (hcontext ▸ hbecomes.level)
  have hpost : exec (hooks.postStmt s) st₂.scene =
      (.ok (), { st₂.scene with own.context := context }) := by
    rw [hooks_postStmt, exec_move, hleave]
  refine .step (exec_call_ok hpost) (.of_exec (exec_leave _ _) ?_)
  rw [henter.rules] at hrun
  refine ⟨_, hrun, ?_, ?_⟩
  · exact ⟨hbecomes.moved.rules, hbecomes.moved.frame, hbecomes.moved.unseen, hbecomes.moved.seen,
      hbecomes.moved.exist⟩
  · exact Yields.node henter hbecomes howns.cell (howns.backs.trans hb)
      (by rw [hcontext, Context.around_inStmt]) rfl rfl rfl hlevel

/-! ## Entering a statement -/

/-- A statement is rewritten, and then it is entered. -/
theorem exec_preStmt_of_cell? {s : StmtId} {place : StmtPlace} (scene : Scene Normalizer) {c : Cell}
    (hc : scene.program.cell? (.stmt s) = some c) :
    exec (preStmt s place) scene = (.ok (), { rewriteStmt s place c.label.isNop scene with
      own.context := (rewriteStmt s place c.label.isNop scene).own.context.inStmt s }) := by
  obtain ⟨x, hx, rfl⟩ := Program.cell?_stmt hc
  have hnop : decide (x.kind = .nop) = (Node.stmt x).cell.label.isNop := by
    cases hk : x.kind <;> simp [Node.cell, hk, StmtKind.head, Label.isNop]
  rw [exec_preStmt, Program.stmt, hx]
  simp only [hnop]
  rfl

/-- The state in a statement once the hook called first is through. -/
def atStmt (s : StmtId) (place : StmtPlace) (isNop : Bool) (st : WalkState Normalizer) :
    WalkState Normalizer :=
  let scene := rewriteStmt s place isNop st.scene
  ⟨⟨.stmt s :: st.trail.path, st.trail.seen.insert (.stmt s),
    st.trail.tally.count (NodeId.stmt s).step⟩,
    { scene with own.context := scene.own.context.inStmt s }⟩

/-- A statement is visited by entering it, and by what is done in it after that. -/
theorem visit_goes {place : StmtPlace} {Q : WalkState Normalizer → Prop}
    (hat : st.scene.program.stmtAt? place = some s)
    (hready : Ready H st [.node (.stmt s) l es ss ts])
    (hinside : (rewriteStmt s place l.isNop st.scene).program.Addressable →
      Ends (do
        inside (Walk.run hooks) s
        call hooks (.stmt s) (hooks.postStmt s)
        leave (.stmt s)) (atStmt s place l.isNop st) Q) :
    Ends (Walk.run hooks (.stmt place)) st Q := by
  have hpre : exec (hooks.preStmt s place) st.scene =
      (.ok (), (atStmt s place l.isNop st).scene) :=
    exec_preStmt_of_cell? _ (hready.bears.cell List.mem_cons_self)
  rw [run_eq, visit_stmt]
  refine .step (exec_program st) ?_
  rw [hat]
  refine .step hready.exec_enter ?_
  refine Ends.bind (P := fun st₁ => st₁ = atStmt s place l.isNop st ∧
    (rewriteStmt s place l.isNop st.scene).program.Addressable)
    (.exact (exec_call_ok hpre) fun haddr => ⟨rfl, haddr⟩)
    (larger_local.bind (larger_local.inside larger_local.run s) fun _ =>
      larger_local.bind (larger_local.call (.postStmt s)) fun _ => larger_local.leave _) ?_
  rintro _ ⟨rfl, haddr⟩
  exact hinside haddr

/-- Whether the statements below a statement are ready to be visited once it was entered. -/
def ReadyBelow (t : Tree) : Prop :=
  (∀ u ∈ t.symbols, SymbolGoes u) ∧
    ∀ (r : Rules) (block : Nat), HeldGo r t.label (entered r block none t).stmts

/-- A statement that is opened, and no more than that, is rewritten where it stands. -/
theorem opened_goes {place : StmtPlace} (hat : st.scene.program.stmtAt? place = some s)
    (hready : Ready nowhere st [.node (.stmt s) l es ss ts])
    (hbelow : ReadyBelow (.node (.stmt s) l es ss ts))
    (hopened : (rewriteStmt s place l.isNop st.scene).program.Addressable →
      Opened st.scene (rewriteStmt s place l.isNop st.scene) s (.node (.stmt s) l es ss ts)) :
    Ends (Walk.run hooks (.stmt place)) st fun st' => ∃ u,
      (rebuild st.scene.own.rules st.scene.program.stmts.size none
          (.node (.stmt s) l es ss ts)).run
          ((newBlocks (blocksFor st.scene.own.rules (.node (.stmt s) l es ss ts))).run
            (supplyOf st.scene)).2 = (u, supplyOf st'.scene) ∧
        Becomes nowhere st st' [.node (.stmt s) l es ss ts] [u] := by
  refine visit_goes hat hready fun haddr => ?_
  have hopen := hopened haddr
  have hmore : Program.More st.scene.program (rewriteStmt s place l.isNop st.scene).program 0
      (blocksFor st.scene.own.rules (.node (.stmt s) l es ss ts)) 0 :=
    ⟨(larger_rewriteStmt s place l.isNop st.scene).modules, congrArg Supply.symbols hopen.supply,
      congrArg Supply.stmts hopen.supply, congrArg Supply.exprs hopen.supply⟩
  have hmade := made_of_blocks hmore haddr hready.bears (nodup_node.mp hready.nodup).2
  have henter : Moved (· = .stmt s) nowhere st (atStmt s place l.isNop st) :=
    moved_enter (hready.unseen _ (by simp)) rfl hopen.place.rules
      (hopen.frame.mono fun _ => .inl) (hready.bears.has (by simp))
  have hready₁ := ready_of_made hready henter hmade hopen.bears
  refine (inside_goes henter hready₁ hopen.cell hopen.backs
    (congrArg (Context.inStmt · s) hopen.place.context) hbelow.1 (hbelow.2 _ _)).mono ?_
  rintro st' ⟨u, hu, hmoved, hyields⟩
  refine ⟨u, ?_, hyields.congr (entered_of_made hmade henter.frame.has hmoved.frame.has)⟩
  rw [rebuild_eq, ← hopen.supply]
  exact hu

/-- A branch goes if what is below it does. -/
theorem branch_goes {n : NodeId} (hbelow : ReadyBelow (.node n l es ss ts)) :
    BranchGoes (.node n l es ss ts) := by
  rintro st owner which s hat rfl hwrapped hready
  have hzero := blocksFor_of_not_wrapped hwrapped
  have hopened := opened_goes hat hready hbelow fun haddr =>
    opened_of_plain hready.bears hready.nodup (fun _ => rfl) (fun _ h => by cases h) haddr
  rw [hzero, run_newBlocks_zero] at hopened
  rwa [rebuild_of_blocksFor hzero] at hopened

/-- Below a statement everything is ready if the branches and entries that it has go. -/
theorem readyBelow_of_goes {n : NodeId} (hss : ∀ t ∈ ss, SymbolGoes t)
    (hts : ∀ t ∈ ts, BranchGoes t ∧ EntryGoes t) : ReadyBelow (.node n l es ss ts) := by
  refine ⟨hss, fun r block => ?_⟩
  unfold HeldGo
  by_cases hl : l.hasBranches = true
  · simp only [label_node, hl, if_true, entered, stmts_node]
    intro u hu
    obtain ⟨hnot, hmem | ⟨position, t, ht, rfl⟩⟩ := not_wrapped_of_mem_wrapAll hu
    · exact ⟨(hts u hmem).1, hnot⟩
    · refine ⟨branch_goes ⟨by simp, fun r block => ?_⟩, hnot⟩
      simpa [HeldGo, Label.hasBranches, entered] using (hts t ht).2
  · simp only [label_node, hl, entered, stmts_node]
    exact fun t ht => (hts t ht).2

/-! ## Symbols -/

/-- The state in a symbol once the hook called first is through. -/
def atSymbol (s : SymbolId) (st : WalkState Normalizer) : WalkState Normalizer :=
  ⟨⟨.symbol s :: st.trail.path, st.trail.seen.insert (.symbol s),
    st.trail.tally.count (NodeId.symbol s).step⟩,
    { st.scene with
      program := st.scene.program.updateSymbol s fun x =>
        { x with scope := st.scene.own.context.ownerScope }
      own.context := st.scene.own.context.inSymbol s }⟩

/-- A symbol goes if what is below it does. -/
theorem symbol_goes {n : NodeId} (hss : ∀ t ∈ ss, SymbolGoes t) (hts : ∀ t ∈ ts, EntryGoes t) :
    SymbolGoes (.node n l es ss ts) := by
  rintro st s rfl hready
  have hcell := hready.bears.cell List.mem_cons_self
  obtain ⟨x, hx, hxcell⟩ := Program.cell?_symbol hcell
  obtain rfl : es = [] := by simpa [Node.cell] using congrArg Cell.exprs hxcell
  have hl : l = .symbol x.name x.line x.removed x.kind.head := congrArg Cell.label hxcell
  have hput : Program.Put st.scene.program (atSymbol s st).scene.program (.symbol s) _ _ :=
    Program.put_scope hcell st.scene.own.context.ownerScope
  have hpre : exec (hooks.preSymbol s) st.scene = (.ok (), (atSymbol s st).scene) := by
    rw [hooks_preSymbol, exec_preSymbol, Program.symbol, hx]
    rfl
  rw [run_eq, visit]
  refine .step hready.exec_enter (.step (exec_call_ok hpre) ?_)
  have henter : Moved (· = .symbol s) nowhere st (atSymbol s st) :=
    moved_enter (hready.unseen _ (by simp)) rfl rfl (hput.frame fun _ => .inl rfl)
      (hready.bears.has (by simp))
  have hsame : supplyOf (atSymbol s st).scene = supplyOf st.scene := by
    have h : Program.SameSize st.scene.program (atSymbol s st).scene.program :=
      Program.sameSize_updateSymbol _ _
    rw [supplyOf, h.symbols, h.stmts, h.exprs]
    rfl
  have hready₁ : Ready (· = .symbol s) (atSymbol s st) (ss ++ ts) := henter.ready_below hready
  have hgrows : Grows (call hooks (.symbol s) (hooks.postSymbol s) >>= fun _ =>
      leave (.symbol s)) :=
    larger_local.bind (larger_local.call (.postSymbol s)) fun _ => larger_local.leave _
  have hsymbols := symbols_go (.symbol s) hss hready₁.left hput.cell_self rfl
  refine hsymbols.bind (larger_local.bind (larger_local.run _) fun _ => hgrows) ?_
  rintro st₂ ⟨vs, hvs, hbecomes₂⟩
  have hcell₂ := (hbecomes₂.moved.held_cell hready₁.sound (hready₁.held _ rfl) id).trans
    hput.cell_self
  have hready₂ := Becomes.ready hbecomes₂.widen hready₁
  have hbody := stmts_go (.body s) hts hready₂ hcell₂ (by rw [cell_node, hl]; trivial) rfl
  refine hbody.bind hgrows ?_
  rintro st₃ ⟨ws, hws, hbecomes₃, howns⟩
  have hbecomes : Becomes (· = .symbol s) (atSymbol s st) st₃ ([] ++ ss ++ ts) ([] ++ vs ++ ws) :=
    Becomes.trans hbecomes₂.widen hbecomes₃ hready₁.held
  obtain ⟨context, hleave, hlevel⟩ := Context.Level.leaveSymbol hbecomes.level
  have hpost : exec (hooks.postSymbol s) st₃.scene =
      (.ok (), { st₃.scene with own.context := context }) := by
    rw [hooks_postSymbol, exec_move, hleave]
  refine .step (exec_call_ok hpost) (.of_exec (exec_leave _ _) ?_)
  rw [hbecomes₂.moved.rules] at hws
  rw [hsame] at hvs
  have hids := map_id_rebuildAll st.scene.own.rules ss (supplyOf st.scene)
  rw [show (rebuildAll st.scene.own.rules ss).run (supplyOf st.scene) = _ from hvs] at hids
  refine ⟨.node (.symbol s) l [] vs ws, ?_, ?_⟩
  · rw [rebuild_lists (by rw [hl]; rfl), run_bind,
      show (rebuildAll st.scene.own.rules ss).run (supplyOf st.scene) = _ from hvs, run_bind,
      show (rebuildEntries st.scene.own.rules ts).run (supplyOf st₂.scene) = _ from hws]
    rfl
  · refine Yields.congr (Yields.node henter hbecomes ?_ ?_ rfl rfl rfl rfl hlevel)
      (entered_node fun m => hput.has_eq
        (by rw [show st.scene.program.cell? (.symbol s) = _ from hcell]; rfl) m)
    · rw [show st₃.scene.program.cell? (.symbol s) = _ from howns.cell]
      simp [show vs.map Tree.id = ss.map Tree.id from hids]
    · have hbacks : st₃.scene.program.backs? (.symbol s) = st₂.scene.program.backs? (.symbol s) :=
        howns.backs
      rw [hbacks, hbecomes₂.moved.held_backs hready₁.sound (hready₁.held _ rfl) id, hput.backs_self]
      rfl

end

/-! ## Entries -/

section

variable {st st' : WalkState Normalizer} {list : StmtList} {c : Cell} {cursor : Cursor StmtId}
  {front back : List StmtId} {s : StmtId} {l : Label} {es ss ts : List Tree}

theorem Stands.inList (h : Stands st list c cursor front (s :: back))
    (hready : Ready (· = list.node) st [.node (.stmt s) l es ss ts]) (hafter : s ∉ back) :
    InList st.scene.program list c front s back := by
  have hs : st.trail.seen.contains (.stmt s) = false := hready.unseen _ (by simp)
  refine ⟨h.cell, h.fits, h.stmtsIn, fun hmem => ?_, hafter, fun he => ?_⟩
  · rw [h.seen s (List.mem_append_left _ hmem)] at hs
    cases hs
  · rw [← he, hready.held _ rfl] at hs
    cases hs

/-- What was visited stays so, and the entry was visited. -/
theorem Stands.seen_of_moved {E H : NodeId → Prop} (h : Stands st list c cursor front (s :: back))
    (hmoved : Moved E H st st') (hs : E (.stmt s)) :
    ∀ x ∈ front ++ s :: cursor.handed, st'.trail.seen.contains (.stmt x) = true := by
  intro x hx
  rcases List.mem_append.mp hx with hx | hx
  · exact hmoved.seen_of_seen (h.seen x (List.mem_append_left _ hx))
  · rcases List.mem_cons.mp hx with rfl | hx
    · exact (hmoved.seen _).mpr (.inr hs)
    · exact hmoved.seen_of_seen (h.seen x (List.mem_append_right _ hx))

/-- An empty statement leaves the list. -/
theorem entry_goes_of_dropped
    (hready : Ready (· = list.node) st [.node (.stmt s) l es ss ts])
    (hstands : Stands st list c cursor front (s :: back)) (hafter : s ∉ back)
    (hdropped : dropped st.scene.own.rules (.node (.stmt s) l es ss ts) = true) :
    Ends (Walk.run hooks (.stmt (.entry list front.length))) st fun st' =>
      (entryOf st.scene.own.rules (.node (.stmt s) l es ss ts) fun block temp? =>
          rebuild st.scene.own.rules block temp? (.node (.stmt s) l es ss ts)).run
          (supplyOf st.scene) = ([], supplyOf st'.scene) ∧
        Becomes (· = list.node) st st' [.node (.stmt s) l es ss ts] [] ∧
        Owns list.node { c with stmts := (front ++ back).map .stmt } st st' := by
  have hin := hstands.inList hready hafter
  have hcell := hready.bears.cell List.mem_cons_self
  rw [dropped, Bool.and_eq_true, label_node] at hdropped
  obtain ⟨hrule, hnop⟩ := hdropped
  obtain ⟨_, line, hleaf⟩ := leaf_of_nop hcell hnop
  cases hleaf
  refine visit_goes (stmtAt?_of_stmtsIn hstands.stmtsIn) hready fun _ => ?_
  have hdrops := drops_of_nop hcell rfl hrule hin
  have henter : Moved (· = .stmt s) (· = list.node) st
      (atStmt s (.entry list front.length) true st) :=
    moved_enter (hready.unseen _ (by simp)) rfl hdrops.place.rules hdrops.frame
      (hready.bears.has (by simp))
  have hready₁ : Ready (· = .stmt s) (atStmt s (.entry list front.length) true st)
      ([] ++ [] ++ []) := henter.ready_below hready
  have hmore : Program.More st.scene.program
      (atStmt s (.entry list front.length) true st).scene.program 0 0 0 :=
    ⟨(larger_rewriteStmt s (.entry list front.length) true st.scene).modules,
      congrArg Supply.symbols hdrops.supply, congrArg Supply.stmts hdrops.supply,
      congrArg Supply.exprs hdrops.supply⟩
  refine (inside_goes henter hready₁ hdrops.cell hdrops.backs
    (congrArg (Context.inStmt · s) hdrops.place.context) (by simp) (by simp [HeldGo])).mono ?_
  rintro st' ⟨u, hu, hmoved, hyields⟩
  have hseen : (atStmt s (.entry list front.length) true st).trail.seen.contains list.node = true :=
    henter.seen_of_seen (hready.held _ rfl)
  refine ⟨?_, hyields.forget.congr (entered_node hmore.has_eq), ?_, ?_⟩
  · rw [below_leaf, run_pure, Prod.mk.injEq] at hu
    have hdropped :
        dropped st.scene.own.rules (.node (.stmt s) (.stmt .nop line) [] [] []) = true := by
      simp [dropped, hrule, Label.isNop]
    rw [entryOf_of_dropped hdropped, ← hu.2]
    exact Prod.ext rfl hdrops.supply.symm
  · rw [hmoved.held_cell hready₁.sound hseen hin.apart]
    exact hdrops.listCell
  · rw [hmoved.held_backs hready₁.sound hseen hin.apart]
    exact hdrops.listBacks

/-- A statement that no rule of lists is about keeps its place. -/
theorem entry_goes_of_plain (hready : Ready (· = list.node) st [.node (.stmt s) l es ss ts])
    (hstands : Stands st list c cursor front (s :: back)) (hafter : s ∉ back)
    (hbelow : ReadyBelow (.node (.stmt s) l es ss ts))
    (hdropped : dropped st.scene.own.rules (.node (.stmt s) l es ss ts) = false)
    (hhoisted : hoisted st.scene.own.rules (.node (.stmt s) l es ss ts) = false) :
    Ends (Walk.run hooks (.stmt (.entry list front.length))) st fun st' => ∃ u,
      u.id = .stmt s ∧
        (entryOf st.scene.own.rules (.node (.stmt s) l es ss ts) fun block temp? =>
          rebuild st.scene.own.rules block temp? (.node (.stmt s) l es ss ts)).run
          (supplyOf st.scene) = ([u], supplyOf st'.scene) ∧
        Becomes nowhere st st' [.node (.stmt s) l es ss ts] [u] := by
  have hin := hstands.inList hready hafter
  refine (opened_goes (stmtAt?_of_stmtsIn hstands.stmtsIn) hready.alone hbelow fun haddr =>
    opened_of_plain hready.bears hready.nodup ?_ ?_ haddr).mono ?_
  · intro hnop
    rw [dropped, label_node, hnop] at hdropped
    cases hdropped
  · intro list' hlist
    cases hlist
    exact ⟨c, front, back, hin, hhoisted⟩
  · rintro st' ⟨u, hu, hbecomes⟩
    have hid := id_rebuild st.scene.own.rules st.scene.program.stmts.size none
      (.node (.stmt s) l es ss ts) ((newBlocks (blocksFor st.scene.own.rules
        (.node (.stmt s) l es ss ts))).run (supplyOf st.scene)).2
    rw [hu] at hid
    refine ⟨u, hid, ?_, hbecomes⟩
    rw [entryOf_of_plain hdropped hhoisted, run_bind, run_bind]
    exact congrArg (fun r => ([r.1], r.2)) hu

/-- What the visit of an `if` leaves whose condition moved into a temporary: the `if` was made into
`u`, and the declaration, which holds the condition, is next in the list. -/
structure Hoisted (st st' : WalkState Normalizer) (E : NodeId → Prop) (list : StmtList) (c : Cell)
    (front back : List StmtId) (s : StmtId) (t cond : Tree) (temp : Temp) (u : Tree) : Prop where
  exprs : t.exprs = [cond]
  run : (hoistOf st.scene.own.rules t fun block temp? =>
    rebuild st.scene.own.rules block temp? t).run (supplyOf st.scene) =
      ((temp, u), supplyOf st'.scene)
  id : u.id = .stmt s
  yields : Yields E (· = list.node) st st' [u]
  ready : Ready (· = list.node) st' [temp.declTree t.label.line [cond]]
  owns : Owns list.node { c with stmts := (front ++ temp.decl :: s :: back).map .stmt } st st'
  fresh : st.scene.program.has (.stmt temp.decl) = false
  entered : ∀ {st₂ : WalkState Normalizer},
    (∀ n, st'.scene.program.has n = true → st₂.scene.program.has n = true) → ∀ n,
    E n ∨ Entered st' st₂ [temp.declTree t.label.line [cond]] n ↔ Entered st st₂ [t] n

/-- The visit of an `if` whose condition moves into a temporary. -/
theorem hoisted_goes (hready : Ready (· = list.node) st [.node (.stmt s) l es ss ts])
    (hstands : Stands st list c cursor front (s :: back)) (hafter : s ∉ back)
    (hbelow : ReadyBelow (.node (.stmt s) l es ss ts))
    (hhoisted : hoisted st.scene.own.rules (.node (.stmt s) l es ss ts) = true) :
    Ends (Walk.run hooks (.stmt (.entry list front.length))) st fun st' => ∃ E cond temp u,
      Hoisted st st' E list c front back s (.node (.stmt s) l es ss ts) cond temp u := by
  have hin := hstands.inList hready hafter
  refine visit_goes (stmtAt?_of_stmtsIn hstands.stmtsIn) hready fun haddr => ?_
  obtain ⟨scene₂, cond, hopened, rfl, hplace, hsupply, hhoists⟩ :=
    opened_of_hoist hready.bears hready.nodup rfl hin hhoisted haddr
  have hsupply₂ := hopened.supply
  have hmore : Program.More st.scene.program
      (rewriteStmt s (.entry list front.length) l.isNop st.scene).program 1
      (blocksFor st.scene.own.rules (.node (.stmt s) l [cond] ss ts) + 1) 1 := by
    rw [hsupply₂] at hsupply
    exact ⟨(larger_rewriteStmt s _ l.isNop st.scene).modules, congrArg Supply.symbols hsupply,
      congrArg Supply.stmts hsupply, congrArg Supply.exprs hsupply⟩
  have hmade := made_of_temp l.line hmore haddr hready.bears (nodup_node.mp hready.nodup).2
    (congrArg Supply.symbols hsupply₂) (congrArg Supply.stmts hsupply₂)
    (congrArg Supply.exprs hsupply₂)
  generalize htemp : (newTemp.run (supplyOf scene₂)).1 = temp at hmade hhoists
  generalize hheld : (entered st.scene.own.rules st.scene.program.stmts.size none
    (.node (.stmt s) l [cond] ss ts)).stmts = held at hmade
  -- what was made is neither the `if` nor the owner of the list
  have hne : ∀ n ∈ nodesOf ([temp.refTree l.line] ++ ss ++ held ++ [temp.declTree l.line [cond]]),
      ¬ (n = .stmt s ∨ n = list.node) := by
    intro n hn
    obtain ⟨hne, hunseen⟩ := apart_of_made hready hmade hn
    exact not_or.mpr ⟨hne, (NodeSet.ne_of_contains (hready.held _ rfl) hunseen).symm⟩
  have hbears : (rewriteStmt s (.entry list front.length) l.isNop st.scene).program.Bears
      ([temp.refTree l.line] ++ ss ++ held ++ [temp.declTree l.line [cond]]) :=
    hhoists.bears (hheld ▸ hopened.bears) hne
  have henter : Moved (· = .stmt s) (· = list.node) st
      (atStmt s (.entry list front.length) l.isNop st) :=
    moved_enter (hready.unseen _ (by simp)) rfl (hplace.rules.trans hopened.place.rules)
      ((hopened.frame.mono fun _ => .inl).trans hhoists.frame) (hready.bears.has (by simp))
  have hready₁ := ready_of_made hready henter hmade hbears
  have hcell₁ : (rewriteStmt s (.entry list front.length) l.isNop st.scene).program.cell?
      (.stmt s) = some (Tree.node (.stmt s) l [temp.refTree l.line] ss held).cell := by
    rw [hhoists.cell, ← hheld]
    rfl
  refine (inside_goes henter hready₁.left hcell₁ (hhoists.backs.trans hopened.backs)
    (congrArg (Context.inStmt · s) (hplace.context.trans hopened.place.context)) hbelow.1
    (hheld ▸ hbelow.2 _ _)).mono ?_
  rintro st₂ ⟨u, hu, hmoved, hyields⟩
  have hseen : (atStmt s (.entry list front.length) l.isNop st).trail.seen.contains list.node =
      true := henter.seen_of_seen (hready.held _ rfl)
  refine ⟨fun n => n = .stmt s ∨ Entered (atStmt s (.entry list front.length) l.isNop st) st₂
    ([temp.refTree l.line] ++ ss ++ held) n, cond, temp, u, ?_⟩
  refine ⟨rfl, ?_, ?_, hyields, ?_, ⟨?_, ?_⟩, hopened.frame.missing hhoists.freshDecl, ?_⟩
  · have hentered : entered st.scene.own.rules st.scene.program.stmts.size (some temp)
        (.node (.stmt s) l [cond] ss ts) = .node (.stmt s) l [temp.refTree l.line] ss held := by
      rw [← hheld]
      rfl
    rw [show supplyOf (atStmt s (.entry list front.length) l.isNop st).scene = _ from hsupply,
      ← hentered, ← rebuild_eq] at hu
    rw [hoistOf, run_bind, run_bind, run_bind, ← hsupply₂, htemp]
    exact congrArg (fun r => ((temp, r.1), r.2)) hu
  · have hid := id_below st.scene.own.rules (.node (.stmt s) l [temp.refTree l.line] ss held)
      (supplyOf (atStmt s (.entry list front.length) l.isNop st).scene)
    rwa [hu] at hid
  · exact (hmoved.ready_right hready₁ hready₁.held).held_mono fun n hn =>
      hmoved.seen_of_seen (hn ▸ hseen)
  · rw [hmoved.held_cell hready₁.sound hseen hin.apart]
    exact hhoists.listCell
  · rw [hmoved.held_backs hready₁.sound hseen hin.apart]
    exact hhoists.listBacks.trans (hopened.frame.backs
      (hready.sound _ (hready.held _ rfl)) hin.apart)
  · intro st₃ hmono n
    rw [or_assoc, entered_append hmoved.frame.has hmono]
    exact entered_of_made hmade henter.frame.has
      (fun m hm => hmono m (hmoved.frame.has m hm)) n

variable {E : NodeId → Prop} {t cond u : Tree} {temp : Temp}

/-- The declaration of the temporary stands in the list where the `if` stood. -/
theorem Hoisted.inList (h : Hoisted st st' E list c front back s t cond temp u)
    (hstands : Stands st list c cursor front (s :: back)) (hsound : Sound st)
    (hlist : st.trail.seen.contains list.node = true)
    (hhas : ∀ x ∈ s :: back, st.scene.program.has (.stmt x) = true) :
    InList st'.scene.program list
      { c with stmts := (front ++ temp.decl :: s :: back).map .stmt } front temp.decl
      (s :: back) := by
  have hne : ∀ n, st.scene.program.has n = true → n ≠ .stmt temp.decl := fun _ hn =>
    Program.ne_of_has hn h.fresh
  refine ⟨h.owns.cell, hstands.fits, ?_, fun hmem => ?_, fun hmem => ?_, hne _ (hsound _ hlist)⟩
  · rw [← map_stmt_inj, ← Program.stmts_of_cell? _ h.owns.cell hstands.fits]
  · exact hne _ (hsound _ (hstands.seen _ (List.mem_append_left _ hmem))) rfl
  · exact hne _ (hhas _ hmem) rfl

/-- The declaration of the temporary is visited next. -/
theorem Hoisted.decl_goes (h : Hoisted st st' E list c front back s t cond temp u)
    (hin : InList st'.scene.program list
      { c with stmts := (front ++ temp.decl :: s :: back).map .stmt } front temp.decl
      (s :: back)) :
    Ends (Walk.run hooks (.stmt (.entry list front.length))) st' fun st₂ => ∃ init,
      (flatten st.scene.own.rules [cond]).run (supplyOf st'.scene) = (init, supplyOf st₂.scene) ∧
        Becomes nowhere st' st₂ [temp.declTree t.label.line [cond]]
          [temp.declTree t.label.line init] := by
  have hvar : SymbolGoes (temp.varTree t.label.line) := symbol_goes (by simp) (by simp)
  have hbelow : ReadyBelow (temp.declTree t.label.line [cond]) :=
    readyBelow_of_goes (by simpa using hvar) (by simp)
  have hopened := opened_goes (stmtAt?_of_stmtsIn hin.entries) h.ready.alone hbelow fun haddr =>
    opened_of_plain h.ready.bears h.ready.nodup (by simp [Label.isNop]) (by
      intro list' hlist
      cases hlist
      exact ⟨_, front, s :: back, hin, by simp [hoisted, Label.isIf]⟩) haddr
  refine hopened.mono ?_
  rintro st₂ ⟨u', hu', hbecomes⟩
  have hzero : blocksFor st'.scene.own.rules (temp.declTree t.label.line [cond]) = 0 := rfl
  rw [show blocksFor st'.scene.own.rules (.node _ _ _ _ _) = 0 from hzero, run_newBlocks_zero,
    ← Temp.declTree, rebuild_declTree, run_bind, run_pure, h.yields.moved.rules] at hu'
  obtain ⟨rfl, hsupply⟩ := Prod.mk.inj hu'
  exact ⟨_, Prod.ext rfl hsupply, hbecomes⟩

/-- An entry goes if what is below it does. -/
theorem entry_goes {n : NodeId} (hbelow : ReadyBelow (.node n l es ss ts)) :
    EntryGoes (.node n l es ss ts) := by
  rintro st list c cursor front back s rfl hready hstands hafter hhas haddr
  have hin := hstands.inList hready hafter
  have hlist : st.trail.seen.contains list.node = true := hready.held _ rfl
  have hsplits : cursor.Splits front [s] :=
    ⟨hstands.splits.low, hstands.splits.done, fun x hx => hstands.splits.todo x (by simp_all)⟩
  have hgrows : ∀ task, Grows (Walk.run hooks task) := larger_local.run
  have hentered : ∀ st', Entered st st' [.node (.stmt s) l es ss ts] (.stmt s) :=
    fun st' => .inl (by simp)
  rw [exec_stmtsFrom_cons hstands.stmtsIn hsplits] at haddr ⊢
  by_cases hdropped : dropped st.scene.own.rules (.node (.stmt s) l es ss ts) = true
  · obtain ⟨st₁, hexec, hrun, hbecomes, howns⟩ :=
      (entry_goes_of_dropped hready hstands hafter hdropped).on (hgrows _) haddr
    refine ⟨st₁, [], [], _, hexec, hrun, rfl, hbecomes, howns.backs, ?_, hstands.fits, ?_, ?_, ?_⟩
    · simpa using howns.cell
    · simp
    · simpa using hstands.splits.drop hafter
    · simpa using hstands.seen_of_moved hbecomes.moved (hentered st₁)
  have hnot : dropped st.scene.own.rules (.node (.stmt s) l es ss ts) = false := by
    simpa using hdropped
  by_cases hhoisted : hoisted st.scene.own.rules (.node (.stmt s) l es ss ts) = true
  · obtain ⟨st₁, hexec₁, E, cond, temp, u, h⟩ :=
      (hoisted_goes hready hstands hafter hbelow hhoisted).on (hgrows _) haddr
    have hs : st.scene.program.has (.stmt s) = true := hready.bears.has (by simp)
    have hin₁ := h.inList hstands hready.sound hlist (by simpa [hs] using hhas)
    -- nothing that the cursor handed out is the declaration
    have hdecl : temp.decl ∉ s :: cursor.handed := fun hmem => by
      rcases List.mem_cons.mp hmem with he | hmem
      · exact Program.ne_of_has hs h.fresh (congrArg NodeId.stmt he.symm)
      · have hhas := hready.sound _ (hstands.seen _ (List.mem_append_right _ hmem))
        exact Program.ne_of_has hhas h.fresh rfl
    have hsplits₁ : Cursor.Splits ⟨front.length, s :: cursor.handed⟩ front [temp.decl] :=
      ⟨Nat.le_refl _, by simp, by simpa using hdecl⟩
    have hdrop := hstands.splits.drop hafter
    have hnext := exec_stmtsFrom_cons (h := hooks) hin₁.entries hsplits₁
    rw [hexec₁, hnext] at haddr
    obtain ⟨st₂, hexec₂, init, hinit, hbecomes⟩ := (h.decl_goes hin₁).on (hgrows _) haddr
    have hready₁ : st₁.trail.seen.contains list.node = true := h.ready.held _ rfl
    have hyields := (h.yields.trans hbecomes.widen hready.held).comm.congr
      (h.entered hbecomes.moved.frame.has)
    refine ⟨st₂, [temp.declTree l.line init, u], [temp.decl, s],
      ⟨front.length, temp.decl :: s :: cursor.handed⟩, hexec₁.trans (hnext.trans hexec₂), ?_, ?_,
      hyields, ?_, ?_, hstands.fits, ?_, ⟨by simp, by simp, ?_⟩, ?_⟩
    · obtain rfl : es = [cond] := h.exprs
      rw [entryOf_of_hoisted hnot hhoisted, run_bind, h.run, run_bind, exprs_node, hinit]
      rfl
    · simp [Temp.declTree, h.id]
    · rw [hbecomes.moved.held_backs h.ready.sound hready₁ id, h.owns.backs]
    · rw [hbecomes.moved.held_cell h.ready.sound hready₁ id, h.owns.cell]
      simp
    · simp
    · intro x hx
      have hne : x ≠ temp.decl := fun he => hin₁.after (he ▸ List.mem_cons_of_mem s hx)
      simpa [hne] using hdrop.todo x hx
    · intro x hx
      by_cases he : x = temp.decl
      · exact (hbecomes.moved.seen _).mpr (.inr (.inl (by simp [he, Temp.declTree])))
      · exact hstands.seen_of_moved hyields.moved (hentered st₂) x (by simp_all)
  · obtain ⟨st₁, hexec, u, hid, hrun, hbecomes⟩ :=
      (entry_goes_of_plain hready hstands hafter hbelow hnot (by simpa using hhoisted)).on
        (hgrows _) haddr
    have hcell := hbecomes.moved.held_cell hready.sound hlist id
    have hbacks := hbecomes.moved.held_backs hready.sound hlist id
    refine ⟨st₁, [u], [s], _, hexec, hrun, by simp [hid], hbecomes.widen, hbacks, ?_,
      hstands.fits, ?_, hstands.splits.keep hafter, ?_⟩
    · rw [hcell, hstands.cell, List.append_assoc, List.singleton_append, ← hstands.entries]
    · rw [List.append_assoc, List.singleton_append]
    · intro x hx
      exact hstands.seen_of_moved hbecomes.moved (hentered st₁) x (by simp_all)

end

/-- Every symbol, every branch and every entry goes. -/
theorem goes (t : Tree) : SymbolGoes t ∧ BranchGoes t ∧ EntryGoes t := by
  induction t using Tree.induction with
  | step n l es ss ts _ hs ht =>
    have hbelow : ReadyBelow (.node n l es ss ts) :=
      readyBelow_of_goes (fun t h => (hs t h).1) fun t h => (ht t h).2
    exact ⟨symbol_goes (fun t h => (hs t h).1) fun t h => (ht t h).2.2, branch_goes hbelow,
      entry_goes hbelow⟩

end MiddleEnd.Normalize
