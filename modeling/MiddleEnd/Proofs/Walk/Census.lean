import MiddleEnd.Proofs.Pass
import MiddleEnd.Proofs.Walk.Replay

/-!
# MiddleEnd.Proofs.Walk.Census

What a walk counts.  Entering a node counts it and makes it seen, and nothing else does either, so
the tally is a census of the nodes that were seen, whatever the hooks do and however the walk ends
(`Trail.Census`).  Where it is known which nodes were seen, the tally is known
(`Trail.Census.number_eq`).
-/

namespace MiddleEnd

open MiddleEnd.Tree Walk

/-! ## Counting the seen -/

/-- The tally counts the nodes that were seen, each once. -/
def Trail.Census (t : Trail) : Prop := ∃ ns : List NodeId, ns.Nodup ∧
  (∀ n, t.seen.contains n = true ↔ n ∈ ns) ∧
  ∀ step, t.tally.number step = ns.countP (·.step = step)

namespace Trail.Census

variable {t t' : Trail} {n : NodeId}

theorem start : Trail.start.Census :=
  ⟨[], .nil, fun n => by simp [Trail.start], fun step => by cases step <;> rfl⟩

/-- A node that is entered is counted. -/
theorem enter (h : t.Census) (ht : t.enter n = .ok t') : t'.Census := by
  rw [Trail.enter] at ht
  split at ht
  · cases ht
  · next hunseen =>
    cases ht
    obtain ⟨ns, hnodup, hmem, hcount⟩ := h
    refine ⟨n :: ns, List.nodup_cons.mpr ⟨fun hn => hunseen ((hmem n).mpr hn), hnodup⟩,
      fun m => ?_, fun step => ?_⟩
    · rw [NodeSet.contains_insert, Bool.or_eq_true, decide_eq_true_iff, hmem, List.mem_cons]
    · rw [Tally.number_count, hcount, List.countP_cons]
      simp

/-- A census of given nodes. -/
theorem number_eq (h : t.Census) {ns : List NodeId} (hnodup : ns.Nodup)
    (hmem : ∀ n, t.seen.contains n = true ↔ n ∈ ns) (step : Step) :
    t.tally.number step = ns.countP (·.step = step) := by
  obtain ⟨ms, hnodup', hmem', hcount⟩ := h
  have hperm : ms.Perm ns :=
    (List.perm_ext_iff_of_nodup hnodup' hnodup).mpr fun n => (hmem' n).symm.trans (hmem n)
  rw [hcount, hperm.countP_eq]

end Trail.Census

/-- Tallies that count the same in every category are the same. -/
theorem Tally.ext_number {a b : Tally} (h : ∀ step, a.number step = b.number step) : a = b := by
  obtain ⟨_, _, _, _⟩ := a
  obtain ⟨_, _, _, _⟩ := b
  have hmodules := h .module
  have hsymbols := h .symbol
  have hstmts := h .stmt
  have hexprs := h .expr
  simp_all [Tally.number]

/-- The nodes of one part and of the next. -/
def Tally.plus (a b : Tally) : Tally :=
  ⟨a.modules + b.modules, a.symbols + b.symbols, a.stmts + b.stmts, a.exprs + b.exprs⟩

/-- The tally of given nodes. -/
def Tally.of (ns : List NodeId) : Tally :=
  ⟨ns.countP (·.step = .module), ns.countP (·.step = .symbol), ns.countP (·.step = .stmt),
    ns.countP (·.step = .expr)⟩

/-- The tally of nodes counts them by category. -/
theorem Tally.number_of (ns : List NodeId) (step : Step) :
    (Tally.of ns).number step = ns.countP (·.step = step) := by
  cases step <;> rfl

/-- The tallies of two lists of nodes add up. -/
theorem Tally.of_append (ns ms : List NodeId) :
    Tally.of (ns ++ ms) = (Tally.of ns).plus (Tally.of ms) := by
  simp only [Tally.of, Tally.plus, List.countP_append]

namespace Walk

variable {σ : Type}

/-- What counts the seen goes on counting them. -/
theorem census_local (h : Hooks σ) :
    Local h fun st st' => st.trail.Census → st'.trail.Census where
  refl _ hst := hst
  trans h h' hst := h' (h hst)
  enter n st hst := by
    rw [exec_enter]
    split
    · split
      · next ht => exact hst.enter ht
      · exact hst
    · exact hst
  leave _ _ hst := hst
  call {_ hook} _ st hst := by
    rw [exec_call_state]
    exact hst

/-- A walk through trees on a new trail counts their nodes. -/
theorem number_of_through {st : WalkState σ} {p : Program} {own : σ} {ts : List Tree}
    (hcensus : st.trail.Census) (h : Through ⟨.start, ⟨p, own⟩⟩ st ts) (step : Step) :
    st.trail.tally.number step = (nodesOf ts).countP (·.step = step) := by
  refine hcensus.number_eq h.nodup (fun n => ?_) step
  rw [h.seen, Bool.or_eq_true, decide_eq_true_iff]
  simp [Trail.start]

end Walk

namespace Pass

variable {σ : Type} {modules : List ModuleId} {p : Program} {own : σ}

/-- The moves between modules enter nothing. -/
theorem census_runModules (pass : Pass σ) (modules : List ModuleId) :
    Keeps (fun st st' => st.trail.Census → st'.trail.Census) (pass.runModules modules) := by
  have hlocal := census_local pass.hooks
  have hmove : ∀ m step,
      Keeps (fun st st' : WalkState σ => st.trail.Census → st'.trail.Census) (pass.move m step) :=
    fun m step st hst => by
      rw [(pass.exec_move_state m step st).1]
      exact hst
  exact hlocal.forM (fun m => hlocal.bind (hmove m _) fun _ =>
    hlocal.bind (hlocal.run (.module m)) fun _ => hmove m _) modules

/-- A pass that looks counts the nodes of the trees that it goes through. -/
theorem number_of_run {pass : Pass σ} {o : Observer σ} (ho : pass.hooks = o.toHooks) {tally : Tally}
    {scene : Scene σ} {ts : List Tree} (h : pass.run modules ⟨p, own⟩ = (.ok tally, scene))
    (hts : p.Unfolds modules ts) (step : Step) :
    tally.number step = (nodesOf ts).countP (·.step = step) := by
  rcases hexec : exec (pass.runModules modules) ⟨.start, ⟨p, own⟩⟩ with ⟨e | ⟨⟩, st⟩ <;>
    rw [Pass.run, run_eq_exec, hexec] at h <;> cases h
  have hcensus := pass.census_runModules modules ⟨.start, ⟨p, own⟩⟩ .start
  rw [hexec] at hcensus
  obtain ⟨us, hroots, hthrough⟩ := through_of_runModules ho hexec
  obtain rfl : us = ts :=
    Program.unfolds_unique hts ⟨hroots, hthrough.bears, hthrough.nodup⟩
  exact number_of_through hcensus hthrough step

end Pass

end MiddleEnd
