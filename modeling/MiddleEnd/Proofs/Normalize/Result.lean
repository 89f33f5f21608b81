import MiddleEnd.Proofs.Normalize.Stmts
import MiddleEnd.Proofs.Walk.Survey

/-!
# MiddleEnd.Proofs.Normalize.Result

What a whole run of the pass leaves.  Over modules that are trees it ends well, the trees have
become those that `rebuildAll` makes of them, and every node in them records what encloses it
(`rebuilt_of_run`).
-/

namespace MiddleEnd

namespace Normalize

open MiddleEnd.Tree Walk

/-! ## Modules -/

theorem grows_pass_move (m : ModuleId) (step : ContextM Unit) : Grows (pass.move m step) := by
  intro st
  simp only [Pass.move, exec_bind, exec_get, run_eq_exec]
  generalize exec step (pass.context st.scene.own) = r
  obtain ⟨_ | _, _⟩ := r <;> exact .of_sameSize (.refl _) rfl

theorem grows_runModule (m : ModuleId) : Grows (pass.runModule m) :=
  larger_local.bind (grows_pass_move m _) fun _ =>
    larger_local.bind (larger_local.run (.module m)) fun _ => grows_pass_move m _

/-- A module is visited, and its symbols go. -/
theorem runModule_goes {st : WalkState Normalizer} {m : ModuleId} {l : Label}
    {es ss ts : List Tree} (hready : Ready nowhere st [.node (.module m) l es ss ts])
    (hout : st.scene.own.context.Outside) :
    Ends (pass.runModule m) st fun st' => ∃ u,
      (rebuild st.scene.own.rules 0 none (.node (.module m) l es ss ts)).run
          (supplyOf st.scene) = (u, supplyOf st'.scene) ∧
        Becomes nowhere st st' [.node (.module m) l es ss ts] [u] := by
  have hcell := hready.bears.cell List.mem_cons_self
  obtain ⟨x, hx, hxcell⟩ := Program.cell?_module hcell
  obtain rfl : es = [] := by simpa [Node.cell] using congrArg Cell.exprs hxcell
  obtain rfl : ts = [] := by simpa [Node.cell] using congrArg Cell.stmts hxcell
  have hl : l.hasBranches = false := by
    rw [show l = .module x.name x.file x.source from congrArg Cell.label hxcell]
    rfl
  refine .step (pass.exec_move m (hout.beginModule m)) ?_
  generalize hst₁ : ({ trail := _, scene := _ } : WalkState Normalizer) = st₁
  have hscene₁ : st₁.scene = { st.scene with
      own.context := st.scene.own.context.inModule m } := by
    rw [← hst₁]
    rfl
  have hready₁ : Ready nowhere st₁ [.node (.module m) l [] ss []] := by
    rw [← hst₁]
    exact ⟨hready.bears, hready.nodup, hready.unseen, hready.sound, hready.held⟩
  change Ends (Walk.run hooks (.module m) >>= fun _ => pass.move m Context.endModule) st₁ _
  rw [run_eq, visit, bind_assoc]
  refine .step hready₁.exec_enter ?_
  generalize hst₂ : ({ trail := _, scene := _ } : WalkState Normalizer) = st₂
  have hscene₂ : st₂.scene = st₁.scene := by rw [← hst₂]
  have henter : Moved (· = .module m) nowhere st st₂ := by
    refine moved_enter (hready.unseen _ (by simp)) (by rw [← hst₂, ← hst₁]) ?_ ?_
      (hready.bears.has (by simp))
    · rw [hscene₂, hscene₁]
    · rw [hscene₂, hscene₁]
      exact .refl _ _
  have hready₂ : Ready (· = .module m) st₂ ss := by simpa using henter.ready_below hready
  have hcell₂ : st₂.scene.program.cell? (.module m) =
      some (Tree.node (.module m) l [] ss []).cell := by
    rw [hscene₂, hscene₁]
    exact hcell
  have hsymbols := symbols_go (.module m) (fun t _ => (goes t).1) hready₂ hcell₂ rfl
  rw [bind_assoc]
  refine hsymbols.bind
    (larger_local.bind (larger_local.leave _) fun _ => grows_pass_move m _) ?_
  rintro st₃ ⟨vs, hvs, hbecomes⟩
  have hcontext : st₂.scene.own.context = st.scene.own.context.inModule m := by
    rw [hscene₂, hscene₁]
  obtain ⟨context, hend, hout', hlevel⟩ := hout.endModule (hcontext ▸ hbecomes.level)
  refine .step (exec_leave _ _) (.of_exec (pass.exec_move m hend) ?_)
  have hids := map_id_rebuildAll st₂.scene.own.rules ss (supplyOf st₂.scene)
  rw [hvs] at hids
  have hbecomes' : Becomes (· = .module m) st₂ st₃ ([] ++ ss ++ []) ([] ++ vs ++ []) := by
    rw [List.append_nil, List.append_nil]
    exact hbecomes.widen
  refine ⟨.node (.module m) l [] vs [], ?_, ?_⟩
  · rw [henter.rules, hscene₂, hscene₁] at hvs
    rw [rebuild_lists hl, run_bind,
      show (rebuildAll st.scene.own.rules ss).run (supplyOf st.scene) = _ from hvs, run_bind,
      rebuildEntries, run_pure]
    rfl
  · refine Yields.congr (Yields.node henter hbecomes' ?_ ?_ ?_ rfl rfl rfl hlevel)
      (entered_node fun n => ?_)
    · rw [hbecomes.moved.held_cell hready₂.sound (hready₂.held _ rfl) id, hcell₂]
      simp [hids]
    · rw [hbecomes.moved.held_backs hready₂.sound (hready₂.held _ rfl) id, hscene₂, hscene₁,
        Program.backs?, Program.node?, hx]
      rfl
    · rw [hcontext, hout.around_inModule]
      rfl
    · rw [hscene₂, hscene₁]

/-- Modules are visited one after another. -/
theorem runModules_go {modules : List ModuleId} : ∀ {ts : List Tree} {st : WalkState Normalizer},
    ts.map Tree.id = modules.map .module → Ready nowhere st ts →
    st.scene.own.context.Outside →
    Ends (pass.runModules modules) st fun st' => ∃ us,
      (rebuildAll st.scene.own.rules ts).run (supplyOf st.scene) = (us, supplyOf st'.scene) ∧
        Becomes nowhere st st' ts us := by
  induction modules with
  | nil =>
    intro ts st hroots _ _
    obtain rfl : ts = [] := by simpa using hroots
    exact .pure ⟨[], by rw [rebuildAll, run_pure], .refl _ st⟩
  | cons m modules ih =>
    intro ts st hroots hready hout
    obtain ⟨t, ts, rfl, hid, htail⟩ := List.map_eq_cons_iff.mp hroots
    obtain ⟨n, l, es, ss, us⟩ := t
    obtain rfl : n = .module m := hid
    refine (runModule_goes hready.head hout).bind
      (larger_local.forM grows_runModule modules) ?_
    rintro st₁ ⟨u, hu, hbecomes⟩
    refine (ih htail (hbecomes.ready hready) (hbecomes.level.outside hout)).mono ?_
    exact fun st₂ => rebuilt_cons hu hbecomes

/-! ## Runs -/

/-- The state that a run starts from. -/
def begun (r : Rules) (p : Program) : WalkState Normalizer := ⟨.start, ⟨p, .start r⟩⟩

/-- What the recursion draws from at the start of a run. -/
def supplyAt (p : Program) : Supply :=
  ⟨p.symbols.size, p.stmts.size, p.exprs.size, 0, .zero⟩

/-- What trees of a program are rewritten to in a run. -/
def rebuilt (r : Rules) (p : Program) (ts : List Tree) : List Tree :=
  ((rebuildAll r ts).run (supplyAt p)).1

/-- A run, from the state in which the walks end. -/
theorem run_of_exec {r : Rules} {modules : List ModuleId} {p : Program}
    {result : Except Halt Unit} {st : WalkState Normalizer}
    (h : exec (pass.runModules modules) (begun r p) = (result, st)) :
    Normalize.run r modules p =
      (result.map fun () => ⟨st.scene.own.counts, st.trail.tally⟩, st.scene.program) := by
  have hrun : (pass.runModules modules).run.run ⟨.start, ⟨p, .start r⟩⟩ = (result, st) := h
  cases result <;> simp [Normalize.run, Pass.run, hrun, Except.map]

/-- At the start of a run everything is still to be visited. -/
theorem ready_begun (r : Rules) {modules : List ModuleId} {p : Program} {ts : List Tree}
    (hts : p.Unfolds modules ts) : Ready nowhere (begun r p) ts := by
  have hempty : ∀ n, (begun r p).trail.seen.contains n = false := fun n => by
    simp [begun, Trail.start]
  refine ⟨hts.bears, hts.nodup, fun n _ => hempty n, fun n hn => ?_, fun _ => False.elim⟩
  rw [hempty] at hn
  cases hn

/-- Over modules that are trees, a run ends well, and makes of the trees what the recursion does. -/
theorem exec_runModules {r : Rules} {modules : List ModuleId} {p : Program} {ts : List Tree}
    (hts : p.Unfolds modules ts) (haddr : (Normalize.run r modules p).2.Addressable) :
    ∃ st, exec (pass.runModules modules) (begun r p) = (.ok (), st) ∧
      (rebuildAll r ts).run (supplyAt p) = (rebuilt r p ts, supplyOf st.scene) ∧
      Becomes nowhere (begun r p) st ts (rebuilt r p ts) := by
  rw [run_of_exec rfl] at haddr
  obtain ⟨st, hexec, us, hus, hbecomes⟩ :=
    runModules_go hts.roots (ready_begun r hts) Context.outside_start haddr
  have hrebuilt : rebuilt r p ts = us := congrArg Prod.fst hus
  exact ⟨st, hexec, hrebuilt ▸ hus, hrebuilt ▸ hbecomes⟩

/-- What a run leaves of modules that are trees. -/
theorem rebuilt_of_run {r : Rules} {modules : List ModuleId} {p : Program} {ts : List Tree}
    (hts : p.Unfolds modules ts) (haddr : (Normalize.run r modules p).2.Addressable) :
    (∃ report, (Normalize.run r modules p).1 = .ok report) ∧
      (Normalize.run r modules p).2.Unfolds modules (rebuilt r p ts) ∧
      (Normalize.run r modules p).2.Records .outside (rebuilt r p ts) := by
  obtain ⟨st, hexec, hrebuilt, hbecomes⟩ := exec_runModules hts haddr
  rw [run_of_exec hexec]
  refine ⟨⟨_, rfl⟩, ⟨?_, hbecomes.bears, hbecomes.nodup⟩, ?_⟩
  · rw [rebuilt, map_id_rebuildAll, hts.roots]
  · have hrecords := hbecomes.records
    rwa [show (begun r p).scene.own.context.around = _ from
      Context.outside_start.around] at hrecords

/-- Normalising modules that are trees ends well, and what the program unfolds to afterwards is
what the recursion makes of the trees that it unfolded to before. -/
theorem run_rebuilds {r : Rules} {modules : List ModuleId} {p : Program}
    (hok : survey modules p = .ok ()) (haddr : (Normalize.run r modules p).2.Addressable) :
    ∃ ts report, p.Unfolds modules ts ∧ (Normalize.run r modules p).1 = .ok report ∧
      (Normalize.run r modules p).2.Unfolds modules (rebuilt r p ts) := by
  obtain ⟨ts, hts⟩ := trees_of_survey hok
  obtain ⟨⟨report, hreport⟩, hunfolds, _⟩ := rebuilt_of_run hts haddr
  exact ⟨ts, report, hts, hreport, hunfolds⟩

/-- A function in which every rule has something to do. -/
def sample : Program where
  modules := #[⟨"m", "m.w", none, [⟨0⟩]⟩]
  symbols := #[.new "f" (.func [] none [⟨0⟩, ⟨1⟩]) 1]
  stmts := #[.new .nop 2, .new (.ifElse ⟨1⟩ ⟨2⟩ none) 3, .new .nop 4]
  exprs := #[.new (.call ⟨2⟩ []) 3, .new (.paren ⟨0⟩) 3, .new (.symRef ⟨0⟩) 3]

theorem run_rebuilds_sample : survey [⟨0⟩] sample = .ok () ∧
    ∃ ts report, sample.Unfolds [⟨0⟩] ts ∧ (Normalize.run .all [⟨0⟩] sample).1 = .ok report ∧
      (Normalize.run .all [⟨0⟩] sample).2.Unfolds [⟨0⟩] (rebuilt .all sample ts) :=
  ⟨by decide +kernel, run_rebuilds (by decide +kernel) (by decide +kernel)⟩

end Normalize

end MiddleEnd
