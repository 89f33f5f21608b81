import MiddleEnd.Proofs.Normalize.Numbered
import MiddleEnd.Proofs.Normalize.Result
import MiddleEnd.Proofs.Tree.Modules
import MiddleEnd.Proofs.Walk.Census

/-!
# MiddleEnd.Proofs.Normalize.Split

Normalising modules in one run or in two.  When a run comes to the modules that a second run is left
with, the pass stands outside every module, and of the nodes to come it has entered none; so from
there on it is a twin of a pass that starts (`beside_begun`).  What the second run does, the one run
does after the first modules: it leaves the same program, but goes on numbering temporaries, and its
report adds up what the two runs report (`run_append`).
-/

namespace MiddleEnd

open MiddleEnd.Tree Walk

namespace Normalize

/-- What is reported of one part and of the next. -/
def Report.plus (a b : Report) : Report := ⟨a.counts.plus b.counts, a.tally.plus b.tally⟩

section

variable {old : NodeSet} {before : Tally} {first k : Nat} {base : Counts}

/-! ## Modules side by side -/

theorem repeats_move (m : ModuleId) {step : ContextM Unit} (hstep : Context.Levels step) :
    Repeats old before (Twin first k base) (pass.move m step) where
  grown st n hn := by
    rw [(pass.exec_move_state m step st).1]
    exact hn
  again a b r a' hab hexec _ := by
    obtain ⟨c, hc, rfl⟩ := Pass.of_exec_move hexec
    obtain ⟨d, hd, hlevel⟩ := hstep _ _ _ hab.scene.level hc
    exact ⟨_, pass.exec_move m hd, hab.seen, hab.number, hab.scene.turn hlevel⟩

/-- What is done with modules once is done again beside. -/
theorem repeats_runModules (modules : List ModuleId) :
    Repeats old before (Twin first k base) (pass.runModules modules) :=
  repeats_forM (fun m => (repeats_move m (Context.levels_beginModule m)).bind fun _ =>
    (repeats_run (simulates_twin first k base) (.module m)).bind fun _ =>
    repeats_move m Context.levels_endModule) modules

end

section

variable {r : Rules} {p : Program} {st st' : WalkState Normalizer}

/-- Between modules, a run stands beside one that starts there. -/
theorem beside_begun (hrules : st.scene.own.rules = r)
    (hlevel : Context.Level .start st.scene.own.context) :
    Beside st.trail.seen st.trail.tally
      (Twin st.scene.program.symbols.size st.scene.own.nextTemp st.scene.own.counts)
      (begun r st.scene.program) st where
  seen n := by simp [begun, Trail.start]
  number step := by cases step <;> rfl
  scene := ⟨(Program.numbered_of_size_le (Nat.le_refl _)).symm, hrules, hlevel, rfl, rfl, rfl, rfl⟩

/-- A run numbers its temporaries from 0 on, and counts them. -/
theorem numbered_of_exec {modules : List ModuleId}
    (hexec : exec (pass.runModules modules) (begun r p) = (.ok (), st)) :
    st.scene.program = st.scene.program.numbered p.symbols.size 0 ∧
      st.scene.program.symbols.size = p.symbols.size + st.scene.own.counts.hoistedTemps ∧
      st.scene.own.counts.hoistedTemps = st.scene.own.nextTemp := by
  have hself := @beside_begun r (begun r p) rfl (.refl _)
  obtain ⟨st', hexec', hbeside⟩ := (repeats_runModules modules).again _ _ _ _ hself hexec
    fun n hn => by simp [begun, Trail.start] at hn
  obtain rfl : st = st' := congrArg Prod.snd (hexec.symm.trans hexec')
  have hsize := hbeside.scene.size
  rw [← hbeside.scene.hoisted] at hsize
  exact ⟨hbeside.scene.program, hsize, hbeside.scene.hoisted⟩

/-- The second of two runs, and the end of one run over all the modules. -/
theorem exec_append {ms ms' : List ModuleId} {ts : List Tree} (hts : p.Unfolds (ms ++ ms') ts)
    (haddr : (Normalize.run r ms' (Normalize.run r ms p).2).2.Addressable) :
    ∃ st₁ st₂ st, exec (pass.runModules ms) (begun r p) = (.ok (), st₁) ∧
      exec (pass.runModules ms') (begun r st₁.scene.program) = (.ok (), st₂) ∧
      exec (pass.runModules (ms ++ ms')) (begun r p) = (.ok (), st) ∧
      Beside st₁.trail.seen st₁.trail.tally
        (Twin st₁.scene.program.symbols.size st₁.scene.own.nextTemp st₁.scene.own.counts)
        st₂ st := by
  obtain ⟨ts₁, ts₂, rfl, hts₁, hts₂⟩ := hts.append
  have hlarger := larger_local.forM grows_runModule ms'
    (begun r (Normalize.run r ms p).2)
  have haddr' := haddr
  rw [run_of_exec rfl] at haddr'
  obtain ⟨st₁, hfirst, _, hbecomes⟩ := exec_runModules hts₁ (hlarger.addressable haddr')
  have hq : (Normalize.run r ms p).2 = st₁.scene.program := congrArg Prod.snd (run_of_exec hfirst)
  rw [hq] at haddr
  have hready : Ready nowhere st₁ ts₂ := hbecomes.ready (ready_begun r hts)
  obtain ⟨st₂, hsecond, _, hbecomes₂⟩ := exec_runModules
    ⟨hts₂.roots, hready.bears, hready.nodup⟩ haddr
  have hapart : ∀ n, st₁.trail.seen.contains n = true → st₂.trail.seen.contains n = false := by
    intro n hn
    by_contra hseen
    rcases (hbecomes₂.moved.seen n).mp (by simpa using hseen) with hstart | htree | ⟨hmissing, _⟩
    · simp [begun, Trail.start] at hstart
    · rw [hready.unseen n htree] at hn
      cases hn
    · rw [show (begun r st₁.scene.program).scene.program.has n = true from hready.sound n hn]
        at hmissing
      cases hmissing
  obtain ⟨st, hrest, hbeside⟩ := (repeats_runModules ms').again _ _ _ _
    (beside_begun hbecomes.moved.rules hbecomes.level) hsecond hapart
  refine ⟨st₁, st₂, st, hfirst, hsecond, ?_, hbeside⟩
  simp only [Pass.runModules, List.forM_eq_forM, List.forM_append]
  exact (exec_bind_ok hfirst).trans hrest

end

/-- Normalising modules that a pass could walk which looks and nothing else: one run leaves what two
runs leave, one over the first modules and one over the others, but that it numbers the temporaries
of the others on where the second run starts from 0 again; and its report is the sum of the two. -/
theorem run_append {σ : Type} {o : Observer σ} {own : σ} {r : Rules} {ms ms' : List ModuleId}
    {p : Program} (hok : (walked o.toHooks (ms ++ ms') p own).1 = .ok ())
    (haddr : (Normalize.run r ms' (Normalize.run r ms p).2).2.Addressable) :
    let q := (Normalize.run r ms p).2
    let split := (Normalize.run r ms' q).2
    ∃ first second, (Normalize.run r ms p).1 = .ok first ∧ (Normalize.run r ms' q).1 = .ok second ∧
      Normalize.run r (ms ++ ms') p = (.ok (first.plus second),
        split.numbered q.symbols.size first.counts.hoistedTemps) ∧
      split.symbols.size = q.symbols.size + second.counts.hoistedTemps ∧
      split = split.numbered q.symbols.size 0 := by
  intro q split
  have hwalk : exec ((ms ++ ms').forM fun m => Walk.run o.toHooks (.module m)) ⟨.start, ⟨p, own⟩⟩ =
    (.ok (), (walked o.toHooks (ms ++ ms') p own).2) := Prod.ext hok rfl
  obtain ⟨ts, hroots, hthrough⟩ := through_of_modules hwalk
  have hts : p.Unfolds (ms ++ ms') ts := ⟨hroots, hthrough.bears, hthrough.nodup⟩
  obtain ⟨st₁, st₂, st, hfirst, hsecond, hwhole, hbeside⟩ := exec_append hts haddr
  have hq : q = st₁.scene.program := congrArg Prod.snd (run_of_exec hfirst)
  have hrun : Normalize.run r ms' q =
      (.ok ⟨st₂.scene.own.counts, st₂.trail.tally⟩, st₂.scene.program) := by
    rw [hq]
    exact run_of_exec hsecond
  have hsplit : split = st₂.scene.program := congrArg Prod.snd hrun
  obtain ⟨_, _, htemps⟩ := numbered_of_exec hfirst
  obtain ⟨hnames, hsize, _⟩ := numbered_of_exec hsecond
  have htally : st.trail.tally = st₁.trail.tally.plus st₂.trail.tally :=
    Tally.ext_number fun step => (hbeside.number step).trans (by cases step <;> rfl)
  refine ⟨_, _, congrArg Prod.fst (run_of_exec hfirst), congrArg Prod.fst hrun, ?_, ?_, ?_⟩
  · rw [run_of_exec hwhole, hbeside.scene.counts, htally, hbeside.scene.program, ← htemps, ← hq,
      ← hsplit]
    rfl
  · rw [hsplit, hq]
    exact hsize
  · rw [hsplit, hq]
    exact hnames

/-- Two modules with a function each, and in each of them a call as the condition of an `if`. -/
def calls : Program where
  modules := #[⟨"m", "m.w", none, [⟨0⟩]⟩, ⟨"n", "n.w", none, [⟨1⟩]⟩]
  symbols := #[.new "f" (.func [] none [⟨0⟩]) 1, .new "g" (.func [] none [⟨2⟩]) 1]
  stmts := #[.new (.ifElse ⟨1⟩ ⟨1⟩ none) 2, .new .nop 3, .new (.ifElse ⟨3⟩ ⟨3⟩ none) 2, .new .nop 3]
  exprs := #[.new (.symRef ⟨0⟩) 2, .new (.call ⟨0⟩ []) 2, .new (.symRef ⟨1⟩) 2,
    .new (.call ⟨2⟩ []) 2]

/-- In two runs the temporaries of `calls` are both `_t0`, in one run they are `_t0` and `_t1`. -/
theorem run_append_calls : (walked silent.toHooks ([⟨0⟩] ++ [⟨1⟩]) calls ()).1 = .ok () ∧
    (Normalize.run .all [⟨1⟩] (Normalize.run .all [⟨0⟩] calls).2).2.Addressable ∧
    (Normalize.run .all [⟨1⟩] (Normalize.run .all [⟨0⟩] calls).2).2.symbols.map (·.name) =
      #["f", "g", "_t0", "_t0"] ∧
    (Normalize.run .all [⟨0⟩, ⟨1⟩] calls).2.symbols.map (·.name) = #["f", "g", "_t0", "_t1"] ∧
    ∃ first second, (Normalize.run .all [⟨0⟩] calls).1 = .ok first ∧
      (Normalize.run .all [⟨1⟩] (Normalize.run .all [⟨0⟩] calls).2).1 = .ok second ∧
      Normalize.run .all [⟨0⟩, ⟨1⟩] calls = (.ok (first.plus second),
        (Normalize.run .all [⟨1⟩] (Normalize.run .all [⟨0⟩] calls).2).2.numbered 3
          first.counts.hoistedTemps) := by
  have hok : (walked silent.toHooks ([⟨0⟩] ++ [⟨1⟩]) calls ()).1 = .ok () := by decide +kernel
  have haddr : (Normalize.run .all [⟨1⟩] (Normalize.run .all [⟨0⟩] calls).2).2.Addressable := by
    decide +kernel
  have hsize : (Normalize.run .all [⟨0⟩] calls).2.symbols.size = 3 := by decide +kernel
  obtain ⟨first, second, hfirst, hsecond, hwhole, _⟩ := run_append (r := .all) hok haddr
  rw [hsize] at hwhole
  exact ⟨hok, haddr, by decide +kernel, by decide +kernel, first, second, hfirst, hsecond, hwhole⟩

end Normalize

end MiddleEnd
