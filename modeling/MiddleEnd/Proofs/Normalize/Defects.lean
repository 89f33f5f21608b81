import MiddleEnd.Proofs.Normalize.Result
import MiddleEnd.Proofs.Normalize.Tasks
import MiddleEnd.Proofs.Safe
import MiddleEnd.Proofs.Verify.Reports
import MiddleEnd.Proofs.Walk.Verdict

/-!
# MiddleEnd.Proofs.Normalize.Defects

Which programs a run refuses.  If a program is `Unambiguous`, or if a run on it leaves a forest, a
run that ends well has accounted for all the nodes that are reached in the program, each of them
once, so they were a forest (`isForest_of_run`).  What a survey refuses is so refused by the run, or
else by every verifier that comes after it (`run_refuses_defects`).
-/

namespace MiddleEnd

open Walk

/-- All nodes of a program. -/
def Program.nodes (p : Program) : List NodeId :=
  p.searchNodes ++ (List.range p.exprs.size).map fun i => .expr (.ofIndex i)

theorem Program.mem_nodes {p : Program} {n : NodeId} (h : p.has n = true) : n ∈ p.nodes := by
  rw [nodes, List.mem_append]
  by_cases hn : ∃ e, n = .expr e
  · obtain ⟨e, rfl⟩ := hn
    obtain ⟨x, hx⟩ := Option.isSome_iff_exists.mp (show (p.expr? e).isSome = true from h)
    refine .inr (List.mem_map.mpr ⟨e.index, ?_, by simp [ExprId.ofIndex, ExprId.index]⟩)
    exact List.mem_range.mpr (Array.getElem?_eq_some_iff.mp hx).1
  · exact .inl (mem_searchNodes h fun e he => hn ⟨e, he⟩)

namespace Normalize

variable {p : Program} {modules : List ModuleId} {r : Rules} {z : WalkState Normalizer}
  {st st' : WalkState Normalizer}

/-! ## Modules -/

/-- A move of the context between modules halts with a defect, or nothing but the context moves. -/
theorem does_pass_move (m : ModuleId) (step : ContextM Unit) (st : WalkState Normalizer) :
    Does (pass.move m step) st
      (fun _ st' => ∃ context, st' = ⟨st.trail, { st.scene with own.context := context }⟩)
      fun e _ => ∃ d, e = .defect d := by
  simp only [Does, Pass.move, exec_bind, exec_get, run_eq_exec]
  generalize exec step (pass.context st.scene.own) = result
  obtain ⟨_ | _, context⟩ := result
  · exact ⟨_, rfl⟩
  · exact ⟨context, rfl⟩

/-- Moving the context between modules does not get a run off its way. -/
theorem Underway.move (h : Underway p modules [] st) (context : Context) :
    Underway p modules [] ⟨st.trail, { st.scene with own.context := context }⟩ ∧
      Lasts st ⟨st.trail, { st.scene with own.context := context }⟩ :=
  ⟨⟨h.following, h.visiting.congr rfl rfl rfl⟩, .of_eq (fun _ hn => hn) rfl rfl⟩

theorem Underway.module {m : ModuleId} (h : Underway p modules [] st) (hm : m ∈ modules)
    (hexec : exec (pass.runModule m) st = (.ok (), st')) :
    Underway p modules [] st' ∧ Lasts st st' := by
  obtain ⟨_, st₁, hbegin, hexec⟩ := ok_of_exec_bind hexec
  obtain ⟨_, st₂, hwalk, hend⟩ := ok_of_exec_bind hexec
  obtain ⟨context, rfl⟩ := (does_pass_move _ _ _).of_ok hbegin
  obtain ⟨context₂, rfl⟩ := (does_pass_move _ _ _).of_ok hend
  obtain ⟨hu₁, hl₁⟩ := h.move context
  have htop : (Task.module m).AtTop modules [] st.scene.program := hm
  obtain ⟨hu₂, hl₂⟩ := hu₁.run htop hwalk
  obtain ⟨hu₃, hl₃⟩ := hu₂.move context₂
  exact ⟨hu₃, hl₁.trans (hl₂.trans hl₃)⟩

/-- A run stays on its way from module to module. -/
theorem Underway.runModules : ∀ {ms : List ModuleId} {st st' : WalkState Normalizer},
    (∀ m ∈ ms, m ∈ modules) → Underway p modules [] st →
    exec (pass.runModules ms) st = (.ok (), st') → Underway p modules [] st' ∧ Lasts st st'
  | [], st, _, _, h, hexec => by
    cases hexec
    exact ⟨h, .refl st⟩
  | m :: ms, st, st', hms, h, hexec => by
    obtain ⟨_, st₁, h₁, hrest⟩ := ok_of_exec_bind hexec
    obtain ⟨hu₁, hl₁⟩ := h.module (hms m List.mem_cons_self) h₁
    obtain ⟨hu₂, hl₂⟩ :=
      Underway.runModules (fun k hk => hms k (List.mem_cons_of_mem m hk)) hu₁ hrest
    exact ⟨hu₂, hl₁.trans hl₂⟩

/-- Modules are accounted for one after another. -/
theorem modules_accounted (hsure : Sure modules p z) (haddr : z.scene.program.Addressable) :
    ∀ {ms : List ModuleId} {st st' : WalkState Normalizer},
      (∀ m ∈ ms, m ∈ modules) → Underway p modules [] st →
      exec (pass.runModules ms) st = (.ok (), st') → Lasts st' z →
      ∃ es, Balanced nowhere st st' (ms.map .module) es
  | [], st, st', _, _, hexec, _ => by
    cases hexec
    exact ⟨[], .refl _ _⟩
  | m :: ms, st, st', hms, h, hexec, hz => by
    obtain ⟨_, st₃, hmodule, hrest⟩ := ok_of_exec_bind hexec
    have hlater : ∀ k ∈ ms, k ∈ modules := fun k hk => hms k (List.mem_cons_of_mem m hk)
    obtain ⟨hu₃, _⟩ := h.module (hms m List.mem_cons_self) hmodule
    have hz₃ := (Underway.runModules hlater hu₃ hrest).2.trans hz
    obtain ⟨_, st₁, hbegin, hmodule⟩ := ok_of_exec_bind hmodule
    obtain ⟨_, st₂, hwalk, hend⟩ := ok_of_exec_bind hmodule
    obtain ⟨context, rfl⟩ := (does_pass_move _ _ _).of_ok hbegin
    obtain ⟨context₂, rfl⟩ := (does_pass_move _ _ _).of_ok hend
    obtain ⟨hu₁, _⟩ := h.move context
    have htop : (Task.module m).AtTop modules [] st.scene.program := hms m List.mem_cons_self
    obtain ⟨hu₂, _⟩ := hu₁.run htop hwalk
    obtain ⟨es, hes⟩ := accounted hsure haddr (.module m) _ _ st₂ _ hu₁ htop rfl trivial hwalk
      ((hu₂.move context₂).2.trans hz₃)
    have hes' : Balanced nowhere st ⟨st₂.trail, { st₂.scene with own.context := context₂ }⟩
        [.module m] es := hes.congr rfl rfl rfl rfl rfl rfl
    obtain ⟨fs, hfs⟩ := modules_accounted hsure haddr hlater hu₃ hrest hz
    exact ⟨es ++ fs, hes'.trans hfs fun _ => False.elim⟩

/-! ## Unambiguous programs -/

/-- Forests are unambiguous. -/
theorem Unambiguous.of_isForest (h : p.IsForest modules) (r : Rules) (q : Program) :
    Unambiguous r modules p q where
  alone _ e _ _ henclose he howner hheld := by
    have hreach : p.Reaches modules (Position.expr ⟨.expr e, 0⟩).owner := he
    rw [h.alone howner hreach hheld henclose.held]
    rfl
  enclosed _ e _ henclose he _ := by
    have hreach : p.Reaches modules (Position.expr ⟨.expr e, 0⟩).owner := he
    exact h.exist hreach henclose.held
  placed {place s} hplace hat _ := by
    have hreach : p.Reaches modules (Position.stmt place).owner := hplace
    exact h.exist hreach (by simp [Program.heldAt?, hat])

/-- A program is unambiguous if no node is missing in it, and none that a parenthesis encloses is
held elsewhere. -/
theorem Unambiguous.of_nodes
    (hexist : ∀ k ∈ p.nodes, ∀ m ∈ p.childrenOf k, p.has m = true)
    (halone : ∀ e ∈ p.nodes, (p.cell? e).any (·.label.isParen) = true →
      ∀ m ∈ p.childrenOf e, ∀ k ∈ p.nodes, m ∈ p.childrenOf k → k = e)
    (r : Rules) (modules : List ModuleId) (q : Program) : Unambiguous r modules p q where
  alone _ _ _ _ henclose _ _ hheld := by
    obtain ⟨c, hc, hparen, _⟩ := henclose.cell
    exact halone _ (Program.mem_nodes (Program.has_of_cell? hc)) (by rw [hc]; exact hparen) _
      (Program.mem_childrenOf henclose.held) _
      (Program.mem_nodes (Program.has_of_heldAt? hheld)) (Program.mem_childrenOf hheld)
  enclosed _ _ _ henclose _ _ := hexist _ (Program.mem_nodes (Program.has_of_heldAt? henclose.held))
    _ (Program.mem_childrenOf henclose.held)
  placed {place s} _ hat _ := by
    have hheld : p.heldAt? (.stmt place) = some (.stmt s) := by simp [Program.heldAt?, hat]
    exact hexist _ (Program.mem_nodes (Program.has_of_heldAt? hheld)) _
      (Program.mem_childrenOf hheld)

/-! ## Forests -/

/-- What was accounted for from modules on was a forest. -/
theorem Balanced.isForest {es : List NodeId}
    (h : Balanced nowhere st st' (modules.map .module) es) :
    st.scene.program.IsForest modules := by
  have hreach : ∀ {n}, st.scene.program.Reaches modules n → n ∈ es := by
    intro n hn
    induction hn with
    | root hm => exact h.mem_of_due (List.mem_map_of_mem hm)
    | held _ hheld ih => exact h.mem_of_child ih (Program.mem_childrenOf hheld)
  have honce : ∀ n, (es.flatMap st.scene.program.childrenOf).count n +
      st.scene.program.made st'.scene.program n ≤ 1 := fun n => by
    have hcount := h.count n
    have hle := List.nodup_iff_count_le_one.mp h.nodup n
    omega
  refine ⟨fun {pos n} howner hheld => ?_, fun howner howner' => ?_⟩
  · -- a node that is held and missing would have been entered once for either reason
    by_contra hmissing
    have hchild := List.count_pos_iff.mpr
      (List.mem_flatMap.mpr ⟨_, hreach howner, Program.mem_childrenOf hheld⟩)
    have hmade := Program.made_pos.mpr
      ⟨by simpa using hmissing, h.moved.exist n (hreach (.held howner hheld))⟩
    have hle := honce n
    omega
  · refine Program.alone_of_nodup (List.nodup_iff_count_le_one.mpr fun n => ?_) (hreach howner)
      (hreach howner')
    have hle := honce n
    omega

/-- A run starts on its way. -/
theorem underway_begun (r : Rules) (modules : List ModuleId) (p : Program) :
    Underway p modules [] (begun r p) := by
  have hnone : ∀ n, (begun r p).trail.seen.contains n = false := fun n => by
    simp [begun, Trail.start]
  have hempty : ∀ {n} {P : Prop}, (begun r p).trail.seen.contains n = true → P := fun {n} _ hn => by
    rw [hnone n] at hn
    cases hn
  exact ⟨⟨fun n hn => hempty hn, fun _ => .start p modules⟩, fun n hn => hempty hn, by simp,
    fun _ => ⟨fun e he => hempty he, fun he => hempty he.2.1⟩, by simp⟩

/-- A program on which a run ends well is a forest, if it is unambiguous, or if what the run leaves
is one. -/
theorem isForest_of_run {report : Report}
    (hsure : Unambiguous r modules p (Normalize.run r modules p).2 ∨
      ∃ ts, (Normalize.run r modules p).2.Unfolds modules ts)
    (haddr : (Normalize.run r modules p).2.Addressable)
    (hok : (Normalize.run r modules p).1 = .ok report) : p.IsForest modules := by
  rcases hexec : exec (pass.runModules modules) (begun r p) with ⟨halt | ⟨⟩, z⟩
  · rw [run_of_exec hexec] at hok
    cases hok
  · rw [run_of_exec hexec] at hsure haddr
    obtain ⟨hend, hlasts⟩ := (underway_begun r modules p).runModules (fun _ hm => hm) hexec
    have hrules : z.scene.own.rules = r := hlasts.larger.rules
    have hsure' : Sure modules p z := by
      rcases hsure with hamb | ⟨ts, hts⟩
      · exact .unambiguous (hrules ▸ hamb)
      · exact .forest hts (hend.visiting.standing haddr)
    obtain ⟨es, hes⟩ := modules_accounted hsure' haddr (fun _ hm => hm) (underway_begun r modules p)
      hexec (.refl z)
    exact hes.isForest

/-- A run that ends well on a program that a survey refuses has overlooked something, and what it
leaves is no forest. -/
theorem overlooks_of_run {report : Report} {halt : Halt} (hnodup : modules.Nodup)
    (hexist : ∀ m ∈ modules, p.has (.module m) = true)
    (haddr : (Normalize.run r modules p).2.Addressable) (hhalt : survey modules p = .error halt)
    (hok : (Normalize.run r modules p).1 = .ok report) :
    ¬ Unambiguous r modules p (Normalize.run r modules p).2 ∧
      ∀ ts, ¬ (Normalize.run r modules p).2.Unfolds modules ts := by
  have hnot : ¬ (Unambiguous r modules p (Normalize.run r modules p).2 ∨
      ∃ ts, (Normalize.run r modules p).2.Unfolds modules ts) := fun hsure => by
    rw [survey_of_isForest (isForest_of_run hsure haddr hok) hnodup hexist] at hhalt
    cases hhalt
  exact ⟨fun hamb => hnot (.inl hamb), fun ts hts => hnot (.inr ⟨ts, hts⟩)⟩

/-- What a survey refuses, a run refuses too, because of the shape of the tree; or, where the run
overlooked something, it ends well, and every verifier refuses what it leaves.  So a verifier that
comes after a run that ended well halts if and only if a survey before the run does, and it does not
if there was nothing that the run would overlook. -/
theorem run_refuses_defects {r : Rules} {modules : List ModuleId} {p : Program}
    (hnodup : modules.Nodup) (hexist : ∀ m ∈ modules, p.has (.module m) = true)
    (haddr : (Normalize.run r modules p).2.Addressable) :
    (∀ halt, survey modules p = .error halt →
      (∃ e, (Normalize.run r modules p).1 = .error e ∧ e.OfShape pass.hooks.pass) ∨
      ¬ Unambiguous r modules p (Normalize.run r modules p).2 ∧
        ∀ checks, ∃ e, Verify.run checks modules (Normalize.run r modules p).2 = .error e ∧
          e.OfShape Verify.pass.hooks.pass) ∧
    ∀ report, (Normalize.run r modules p).1 = .ok report → ∀ checks,
      ((∃ found, Verify.run checks modules (Normalize.run r modules p).2 = .ok found) ↔
        survey modules p = .ok ()) ∧
      (Unambiguous r modules p (Normalize.run r modules p).2 → survey modules p = .ok ()) := by
  refine ⟨fun halt hhalt => ?_, fun report hok checks =>
    ⟨⟨fun ⟨found, hfound⟩ => ?_, fun hsurvey => ?_⟩,
    fun hamb => survey_of_isForest (isForest_of_run (.inl hamb) haddr hok) hnodup hexist⟩⟩
  · cases hrun : (Normalize.run r modules p).1 with
    | error e => exact .inl ⟨e, rfl, ofShape_of_run hrun⟩
    | ok report =>
      obtain ⟨hamb, hnone⟩ := overlooks_of_run hnodup hexist haddr hhalt hrun
      refine .inr ⟨hamb, fun checks => ?_⟩
      cases hverify : Verify.run checks modules (Normalize.run r modules p).2 with
      | error e => exact ⟨e, rfl, Verify.ofShape_of_run hverify⟩
      | ok found =>
        obtain ⟨ts, hts⟩ := Verify.unfolds_of_run hverify
        exact (hnone ts hts).elim
  · exact survey_of_isForest (isForest_of_run (.inr (Verify.unfolds_of_run hfound)) haddr hok)
      hnodup
      hexist
  · obtain ⟨ts, hts⟩ := trees_of_survey hsurvey
    obtain ⟨_, hunfolds, _⟩ := rebuilt_of_run hts haddr
    obtain ⟨found, hfound, _⟩ := Verify.run_of_unfolds checks hunfolds
    exact ⟨found, hfound⟩

/-- `(1 + 1)`, with one node for both sides. -/
def doubled : Program where
  modules := #[⟨"a", "a.src", none, [⟨0⟩]⟩]
  symbols := #[.new "f" (.func [] none [⟨0⟩]) 1]
  stmts := #[.new (.ret (some ⟨2⟩)) 2]
  exprs := #[.new (.int 1) 2, .new (.binary .add ⟨0⟩ ⟨0⟩) 2, .new (.paren ⟨1⟩) 2]

/-- There is nothing to overlook in `doubled`, so the run halts. -/
theorem run_refuses_defects_doubled : [(⟨0⟩ : ModuleId)].Nodup ∧
    (∀ m ∈ [(⟨0⟩ : ModuleId)], doubled.has (.module m) = true) ∧
    (Normalize.run .all [⟨0⟩] doubled).2.Addressable ∧
    survey [⟨0⟩] doubled = .error (.defect (.during "silent" (.expr ⟨0⟩) .sharedNode)) ∧
    Unambiguous .all [⟨0⟩] doubled (Normalize.run .all [⟨0⟩] doubled).2 ∧
    ∃ e, (Normalize.run .all [⟨0⟩] doubled).1 = .error e ∧ e.OfShape pass.hooks.pass := by
  have haddr : (Normalize.run .all [⟨0⟩] doubled).2.Addressable := by decide +kernel
  have hsurvey : survey [⟨0⟩] doubled =
      .error (.defect (.during "silent" (.expr ⟨0⟩) .sharedNode)) := by
    decide +kernel
  have hamb : Unambiguous .all [⟨0⟩] doubled (Normalize.run .all [⟨0⟩] doubled).2 :=
    .of_nodes (by decide +kernel) (by decide +kernel) _ _ _
  exact ⟨by decide, by decide, haddr, hsurvey, hamb,
    ((run_refuses_defects (by decide) (by decide) haddr).1 _ hsurvey).resolve_right
      fun h => h.1 hamb⟩

/-- `1 + (1)`, with one node for both sides. -/
def overlooked : Program where
  modules := #[⟨"a", "a.src", none, [⟨0⟩]⟩]
  symbols := #[.new "f" (.func [] none [⟨0⟩]) 1]
  stmts := #[.new (.ret (some ⟨2⟩)) 2]
  exprs := #[.new (.int 1) 2, .new (.paren ⟨0⟩) 2, .new (.binary .add ⟨0⟩ ⟨1⟩) 2]

/-- A node that was visited before the parenthesis around it is not visited again when the
parenthesis is flattened, so that a run accepts what no other walk does. -/
theorem run_overlooks_enclosed : [(⟨0⟩ : ModuleId)].Nodup ∧
    (∀ m ∈ [(⟨0⟩ : ModuleId)], overlooked.has (.module m) = true) ∧
    survey [⟨0⟩] overlooked = .error (.defect (.during "silent" (.expr ⟨0⟩) .sharedNode)) ∧
    (Normalize.run .all [⟨0⟩] overlooked).1 = .ok ⟨⟨0, 0, 1, 0⟩, ⟨1, 1, 1, 3⟩⟩ ∧
    Verify.run .all [⟨0⟩] (Normalize.run .all [⟨0⟩] overlooked).2 =
      .error (.defect (.during "fixup-verify" (.expr ⟨0⟩) .sharedNode)) := by
  decide +kernel

/-- `if (f()) { }`, and after it an id that has no node before the declaration of `_t0` is made. -/
def unmade : Program where
  modules := #[⟨"a", "a.src", none, [⟨0⟩]⟩]
  symbols := #[.new "f" (.func [] none [⟨0⟩, ⟨2⟩]) 1]
  stmts := #[.new (.ifElse ⟨1⟩ ⟨1⟩ none) 2, .new (.block []) 2]
  exprs := #[.new (.symRef ⟨0⟩) 2, .new (.call ⟨0⟩ []) 2]

-- the other thing that a run overlooks: by then the declaration was handed out
example : survey [⟨0⟩] unmade = .error (.defect (.during "silent" (.stmt ⟨2⟩) .missingNode)) ∧
    (Normalize.run .all [⟨0⟩] unmade).1 = .ok ⟨⟨0, 1, 0, 0⟩, ⟨1, 2, 3, 3⟩⟩ ∧
    Verify.run .all [⟨0⟩] (Normalize.run .all [⟨0⟩] unmade).2 =
      .error (.defect (.during "fixup-verify" (.stmt ⟨2⟩) .sharedNode)) := by
  decide +kernel

end Normalize

end MiddleEnd
