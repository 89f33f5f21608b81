import MiddleEnd.Proofs.Context
import MiddleEnd.Proofs.Walk.Tour

/-!
# MiddleEnd.Proofs.Pass

Tours of whole modules by a pass that keeps a context.  `Pass.Toured` lists what a tour has to know
of the pass at the edges of a module; then a run over modules that are trees ends well
(`Pass.Toured.ends`).
-/

namespace MiddleEnd

open MiddleEnd.Tree Walk

variable {σ : Type}

/-- How a tour starts and ends with a module. -/
structure Pass.Toured (pass : Pass σ) (tour : Tour σ) : Prop where
  lawful : tour.Lawful
  context : ∀ own c, pass.context (pass.withContext own c) = c
  level : ∀ {a ts x y}, tour.Leads a ts x y → Context.Level (pass.context x) (pass.context y)
  enters : ∀ {x} (m : ModuleId), tour.At .outside x → (pass.context x).Outside →
    tour.At (Around.outside.under (.module m))
      (pass.withContext x ((pass.context x).inModule m))
  root : ∀ {m l es ss ts x y}, tour.Leads (Around.outside.under (.module m)) (es ++ ss ++ ts) x y →
    tour.Leads (Around.outside.under (.module m)) [.node (.module m) l es ss ts] x y
  leaves : ∀ {m l es ss ts x y c},
    tour.Leads (Around.outside.under (.module m)) [.node (.module m) l es ss ts]
      (pass.withContext x ((pass.context x).inModule m)) y →
    Context.Level (pass.context x) c →
    tour.Leads .outside [.node (.module m) l es ss ts] x (pass.withContext y c)

namespace Pass.Toured

variable {pass : Pass σ} {tour : Tour σ} {p : Program} {Own : NodeId → Prop}

/-- One module is visited. -/
theorem ends_module (htour : pass.Toured tour) {st : WalkState σ} {m : ModuleId} {l : Label}
    {es ss ts : List Tree} (hprogram : st.scene.program = p)
    (hbears : p.Bears [.node (.module m) l es ss ts])
    (hnodup : (nodesOf [.node (.module m) l es ss ts]).Nodup)
    (hunseen : ∀ n ∈ nodesOf [.node (.module m) l es ss ts], st.trail.seen.contains n = false)
    (howned : ∀ n ∈ nodesOf [.node (.module m) l es ss ts], Own n)
    (hwelcome : ∀ x ∈ placedOf (Around.outside.under (.module m)) (es ++ ss ++ ts),
      tour.Welcomes pass.hooks p Own x.1 x.2)
    (hat : tour.At .outside st.scene.own) (hout : (pass.context st.scene.own).Outside) :
    ∃ st', exec (pass.runModule m) st = (.ok (), st') ∧
      tour.Visits .outside [.node (.module m) l es ss ts] st st' ∧
      (pass.context st'.scene.own).Outside := by
  generalize hst₁ : (⟨st.trail, ⟨st.scene.program,
    pass.withContext st.scene.own ((pass.context st.scene.own).inModule m)⟩⟩ :
      WalkState σ) = st₁
  have hbegin : exec (pass.move m (Context.beginModule m)) st = (.ok (), st₁) :=
    hst₁ ▸ pass.exec_move m (hout.beginModule m)
  have hmeets : tour.Meets pass.hooks p Own (Around.outside.under (.module m))
      [.node (.module m) l es ss ts] st₁ := by
    refine ⟨?_, hbears, hnodup, ?_, howned, fun x hx => ?_, ?_⟩
    · rw [← hst₁, hprogram]
    · rw [← hst₁]
      exact hunseen
    · rw [placedOf_node, placedOf_nil, List.append_nil] at hx
      rcases List.mem_cons.mp hx with rfl | hx
      · intro pre post hcalls own hat
        cases hcalls
        exact ⟨own, rfl, hat, fun own₂ hleads => ⟨own₂, rfl, htour.root hleads⟩⟩
      · exact hwelcome x (by rw [placedOf_append, placedOf_append]; exact hx)
    · rw [← hst₁]
      exact htour.enters m hat hout
  obtain ⟨st₂, h₂, hvisits⟩ := htour.lawful.ends (.module m) st₁ _ _ hmeets rfl trivial
  have hleads := hvisits.leads
  rw [← hst₁] at hleads
  have hlevel := htour.level hleads
  rw [htour.context] at hlevel
  obtain ⟨context, hend, hout', hlevel'⟩ := hout.endModule hlevel
  refine ⟨⟨st₂.trail, ⟨st₂.scene.program, pass.withContext st₂.scene.own context⟩⟩, ?_,
    ⟨?_, htour.leaves hleads hlevel'⟩, ?_⟩
  · rw [Pass.runModule, exec_bind_ok hbegin, exec_bind_ok h₂, pass.exec_move m hend]
  · refine hvisits.through.congr ?_ ?_ rfl rfl <;> rw [← hst₁]
  · rw [htour.context]
    exact hout'

/-- Modules that are trees are visited one after another. -/
theorem ends (htour : pass.Toured tour) {modules : List ModuleId} :
    ∀ {ts : List Tree} {st : WalkState σ}, st.scene.program = p → p.Unfolds modules ts →
      (∀ n ∈ nodesOf ts, st.trail.seen.contains n = false) → (∀ n ∈ nodesOf ts, Own n) →
      (∀ x ∈ placedOf .outside ts, (∀ m, x.2.id ≠ .module m) →
        tour.Welcomes pass.hooks p Own x.1 x.2) →
      tour.At .outside st.scene.own → (pass.context st.scene.own).Outside →
      ∃ st', exec (pass.runModules modules) st = (.ok (), st') ∧
        tour.Visits .outside ts st st' := by
  induction modules with
  | nil =>
    intro ts st _ hts _ _ _ _ _
    obtain rfl : ts = [] := by simpa using hts.roots
    exact ⟨st, rfl, .nil htour.lawful _ st⟩
  | cons m modules ih =>
    intro ts st hprogram hts hunseen howned hwelcome hat hout
    obtain ⟨t, ts, rfl, hid, htail⟩ := List.map_eq_cons_iff.mp hts.roots
    obtain ⟨n, l, es, ss, us⟩ := t
    obtain rfl : n = .module m := hid
    have hbears := Program.bears_cons.mp hts.bears
    have hnodup := (@nodup_append [_] ts).mp hts.nodup
    rw [nodesOf_cons] at hunseen howned
    simp only [List.mem_append, or_imp, forall_and] at hunseen howned
    have hmodule := htour.ends_module hprogram hbears.1 hnodup.1 hunseen.1 howned.1
      (fun x hx => ?_) hat hout
    · obtain ⟨st₁, h₁, hvisits₁, hout₁⟩ := hmodule
      have hunseen₁ : ∀ n ∈ nodesOf ts, st₁.trail.seen.contains n = false := fun n hn => by
        rw [hvisits₁.through.seen, hunseen.2 n hn, Bool.or_false, decide_eq_false_iff_not]
        exact fun hm => hnodup.2.2 n hm hn
      obtain ⟨st₂, h₂, hvisits₂⟩ := ih (hvisits₁.through.program.trans hprogram)
        ⟨htail, hbears.2, hnodup.2.1⟩ hunseen₁ howned.2 (fun x hx => hwelcome x (by
          rw [placedOf_node]
          exact List.mem_cons_of_mem _ (List.mem_append_right _ hx)))
        (htour.lawful.stays hat hvisits₁.leads) hout₁
      exact ⟨st₂, (exec_bind_ok h₁).trans h₂, hvisits₁.append htour.lawful hvisits₂⟩
    · refine hwelcome x ?_ ?_
      · rw [placedOf_append, placedOf_append] at hx
        rw [placedOf_node]
        exact List.mem_cons_of_mem _ (List.mem_append_left _ hx)
      · exact hbears.1.below.ne_module (fun t ht =>
          Program.ne_module_of_cell? (Program.bears_node.mp hbears.1).1 (Program.id_mem_cell ht))
          x hx

end Pass.Toured

/-! ## Runs that end well -/

namespace Pass

/-- A move changes the state of the pass only. -/
theorem exec_move_state (pass : Pass σ) (m : ModuleId) (step : ContextM Unit) (st : WalkState σ) :
    (exec (pass.move m step) st).2.trail = st.trail ∧
      (exec (pass.move m step) st).2.scene.program = st.scene.program := by
  simp only [move, exec_bind, exec_get, run_eq_exec]
  obtain ⟨result, context⟩ := exec step (pass.context st.scene.own)
  cases result <;> exact ⟨rfl, rfl⟩

/-- Modules that a pass which looks has run over are trees. -/
theorem through_of_runModules {pass : Pass σ} {o : Observer σ} (ho : pass.hooks = o.toHooks) :
    ∀ {modules : List ModuleId} {st st' : WalkState σ},
      exec (pass.runModules modules) st = (.ok (), st') →
      ∃ ts, ts.map Tree.id = modules.map .module ∧ Through st st' ts
  | [], st, st', hok => by
    cases hok
    exact ⟨[], rfl, .refl st⟩
  | m :: modules, st, st', hok => by
    obtain ⟨_, st₃, hmodule, hrest⟩ := ok_of_exec_bind hok
    obtain ⟨_, st₁, hbegin, hmodule⟩ := ok_of_exec_bind hmodule
    obtain ⟨_, st₂, hwalk, hend⟩ := ok_of_exec_bind hmodule
    have hst₁ := pass.exec_move_state m (Context.beginModule m) st
    have hst₃ := pass.exec_move_state m Context.endModule st₂
    rw [hbegin] at hst₁
    rw [hend] at hst₃
    rw [ho] at hwalk
    obtain ⟨ts, hts, ht⟩ := forest_of_ok o (.module m) st₁ st₂ _ rfl hwalk
    obtain ⟨us, hus, hu⟩ := through_of_runModules ho hrest
    refine ⟨ts ++ us, by rw [List.map_append, hts, hus]; rfl, Through.trans ?_ hu⟩
    exact ht.congr (by rw [← hst₁.1]) hst₁.2.symm (by rw [hst₃.1]) hst₃.2

end Pass

end MiddleEnd
