import MiddleEnd.Proofs.Normalize.References
import MiddleEnd.Proofs.Verify.Reports
import MiddleEnd.Proofs.Walk.Census

/-!
# MiddleEnd.Proofs.Normalize.Census

The reports of a run account for every node.  Between two supplies the recursion makes of trees as
many nodes more as it counts new blocks and temporaries, and as many less as it counts empty
statements and parentheses (`Weighs`, `weighs_rebuildAll`).  A walk counts the nodes of the trees
that it goes through, and a run besides those that it makes; so the three tallies, before, of the
run and after it, differ by what was counted (`run_accounts`).
-/

namespace MiddleEnd

namespace Normalize

open MiddleEnd.Tree Walk

/-! ## Nodes of a category -/

/-- How many nodes of a category there are in trees. -/
def number (step : Step) (ts : List Tree) : Nat := (nodesOf ts).countP (·.step = step)

section

variable {step : Step} {ts us : List Tree}

@[simp] theorem number_nil : number step [] = 0 := rfl

/-- The nodes of trees in a row add up. -/
@[simp] theorem number_append : number step (ts ++ us) = number step ts + number step us := by
  rw [number, nodesOf_append, List.countP_append, ← number, ← number]

theorem number_cons (t : Tree) (ts : List Tree) :
    number step (t :: ts) = number step [t] + number step ts :=
  @number_append step [t] ts

@[simp] theorem number_node (n : NodeId) (l : Label) (es ss us : List Tree) :
    number step [.node n l es ss us] = (if n.step = step then 1 else 0) +
      (number step es + number step ss + number step us) := by
  simp only [number, nodesOf_node, nodesOf_nil, List.append_nil, List.countP_cons,
    List.countP_append, decide_eq_true_eq]
  omega

/-- A tree has its root and the nodes below it. -/
theorem number_tree (t : Tree) : number step [t] = (if t.id.step = step then 1 else 0) +
    number step (t.exprs ++ t.symbols ++ t.stmts) := by
  obtain ⟨n, l, es, ss, ts⟩ := t
  rw [exprs_node, symbols_node, stmts_node, number_append, number_append, number_node]
  rfl

end

/-! ## What is counted -/

/-- The nodes of a category that were made. -/
def Counts.made (c : Counts) : Step → Nat
  | .module => 0
  | .symbol => c.hoistedTemps
  | .stmt => c.wrappedBranches + c.hoistedTemps
  | .expr => c.hoistedTemps

/-- The nodes of a category that were taken out of the trees. -/
def Counts.gone (c : Counts) : Step → Nat
  | .stmt => c.droppedNops
  | .expr => c.flattenedParens
  | _ => 0

/-- The position of the next node of a category. -/
def Supply.next (s : Supply) : Step → Nat
  | .module => 0
  | .symbol => s.symbols
  | .stmt => s.stmts
  | .expr => s.exprs

/-- Between two supplies the trees `ts` became `us`, with `k` blocks that were set aside before: the
positions and the numbers of nodes moved by what was counted. -/
structure Weighs (k : Nat) (s s' : Supply) (ts us : List Tree) : Prop where
  next : ∀ step, s'.next step + s.counts.made step = s.next step + s'.counts.made step
  nodes : ∀ step, number step us + s'.counts.gone step + s.counts.made step =
    number step ts + s.counts.gone step + s'.counts.made step + if step = .stmt then k else 0

namespace Weighs

variable {j k : Nat} {s s₁ s₂ : Supply} {t u : Tree} {ts us ts' us' : List Tree}

/-- Trees that stay take nothing from the supply. -/
theorem refl (s : Supply) (ts : List Tree) : Weighs 0 s s ts ts :=
  ⟨fun _ => rfl, fun step => by split <;> rfl⟩

/-- Trees in a row take from the supply one after the other. -/
theorem trans (h : Weighs j s s₁ ts us) (h' : Weighs k s₁ s₂ ts' us') :
    Weighs (j + k) s s₂ (ts ++ ts') (us ++ us') where
  next step := by
    have := h.next step
    have := h'.next step
    omega
  nodes step := by
    have := h.nodes step
    have := h'.nodes step
    rw [number_append, number_append]
    split <;> simp_all <;> omega

/-- The nodes below a tree changed. -/
theorem node (hid : u.id = t.id) (h : Weighs k s s₁ (t.exprs ++ t.symbols ++ t.stmts)
    (u.exprs ++ u.symbols ++ u.stmts)) : Weighs k s s₁ [t] [u] where
  next := h.next
  nodes step := by
    have := h.nodes step
    rw [number_tree t, number_tree u, hid]
    omega

/-- One of the blocks is put around statements. -/
theorem block (h : Weighs k s s₁ ts us) (position : Nat) (line : UInt32) :
    Weighs (k + 1) s s₁ ts [blockTree position line us] where
  next := h.next
  nodes step := by
    have := h.nodes step
    rw [blockTree, number_node]
    cases step <;> simp_all [NodeId.step]
    omega

/-- The blocks are set aside. -/
theorem after_newBlocks (h : Weighs k ((newBlocks k).run s).2 s₁ ts us) : Weighs 0 s s₁ ts us where
  next step := by
    have := h.next step
    rw [run_newBlocks] at this
    cases step <;> simp_all [Supply.next, Counts.made]
    omega
  nodes step := by
    have := h.nodes step
    rw [run_newBlocks] at this
    cases step <;> simp_all [Counts.gone, Counts.made]
    omega

end Weighs

/-! ## Expressions -/

section

variable {p : Program} {r : Rules} {es : List Tree}

/-- The parentheses in expressions, among the nodes of a category. -/
def parensIn (step : Step) (es : List Tree) : Nat := if step = .expr then parens es else 0

/-- The parentheses of expressions add up. -/
theorem parensIn_cons (step : Step) (e : Tree) (es : List Tree) :
    parensIn step (e :: es) = parensIn step [e] + parensIn step es := by
  have hparens : parens (e :: es) = parens [e] + parens es := parens_append [e] es
  rw [parensIn, parensIn, parensIn, hparens]
  split <;> rfl

/-- What is missing of expressions is missing of each. -/
theorem number_flatAll {step : Step}
    (h : ∀ e ∈ es, number step [flat e] + parensIn step [e] = number step [e]) :
    number step (flatAll es) + parensIn step es = number step es := by
  induction es with
  | nil => simp [flatAll, parensIn, parens]
  | cons e es ih =>
    have hhead := h e List.mem_cons_self
    have htail := ih fun f hf => h f (List.mem_cons_of_mem e hf)
    rw [flatAll, number_cons, number_cons e, parensIn_cons]
    omega

/-- What is missing of an expression without its parentheses are these. -/
theorem number_flat (step : Step) (t : Tree) : p.Bears [t] → (∃ e, t.id = .expr e) →
    number step [flat t] + parensIn step [t] = number step [t] := by
  induction t using Tree.induction with
  | step n l es ss ts he hs ht =>
    rintro hbears ⟨e, hid⟩
    obtain rfl : n = .expr e := hid
    obtain ⟨_, hbe, _, _⟩ := Program.bears_node.mp hbears
    obtain ⟨n, line, inner, hnode⟩ | ⟨hl, _, _⟩ := paren_cases hbears
    · cases hnode
      have hinner := he inner List.mem_cons_self hbe (exists_inner hbears)
      have hparens : parens [.node (.expr e) (.expr .paren line) [inner] [] []] =
          parens [inner] + 1 := by
        simp [parens, Label.isParen, List.countP_cons]
      rw [parensIn] at hinner
      rw [flat_paren, number_node, parensIn, hparens]
      cases step <;> simp_all [NodeId.step]
      omega
    · have hlabel : l.isParen = false := hl
      have hparens : parensIn step [.node (.expr e) l es [] []] = parensIn step es := by
        simp [parensIn, parens, hlabel]
      obtain ⟨hss, hts⟩ := leaf_of_expr hbears rfl
      obtain rfl : ss = [] := hss
      obtain rfl : ts = [] := hts
      have hes := number_flatAll fun f hf => he f hf (hbe.mem hf) (hbears.kinds.1 f hf)
      rw [flat_of_not_paren hlabel, number_node, number_node, hparens, ← hes]
      simp only [number_nil]
      omega

/-- Where expressions are flattened, the parentheses that go are counted. -/
theorem weighs_flatten (hbears : p.Bears es) (hroots : ∀ t ∈ es, ∃ e, t.id = .expr e)
    (s : Supply) : Weighs 0 s ((flatten r es).run s).2 es ((flatten r es).run s).1 := by
  rw [run_flatten]
  split
  · refine ⟨fun step => ?_, fun step => ?_⟩
    · cases step <;> rfl
    · have hes := number_flatAll fun e he =>
        number_flat step e (hbears.mem he) (hroots e he)
      cases step <;> simp_all [Counts.gone, Counts.made, parensIn]
      omega
  · exact .refl _ _

end

/-! ## Statements and symbols -/

section

variable {p : Program} {r : Rules} {t : Tree} {ts us : List Tree} {s s' : Supply}

/-- The children of a statement or a symbol once its condition was moved. -/
def childrenWith (temp? : Option Temp) (t : Tree) : List Tree :=
  ((temp?.map fun temp => [temp.refTree t.label.line]).getD t.exprs) ++ t.symbols ++ t.stmts

/-- Where the recursion gets to a node, it weighs what is below it, and its expressions. -/
structure Weighed (r : Rules) (t : Tree) : Prop where
  below : ∀ block temp? s, Weighs (blocksFor r t) s ((rebuild r block temp? t).run s).2
    (childrenWith temp? t) (((rebuild r block temp? t).run s).1.exprs ++
      ((rebuild r block temp? t).run s).1.symbols ++ ((rebuild r block temp? t).run s).1.stmts)
  exprs : ∀ s, Weighs 0 s ((flatten r t.exprs).run s).2 t.exprs ((flatten r t.exprs).run s).1
  /-- A statement that does nothing owns nothing. -/
  nop : t.label.isNop = true → ∀ step, number step [t] = if step = .stmt then 1 else 0

/-- A statement that keeps its condition weighs its blocks. -/
theorem Weighed.plain (h : Weighed r t) (block : Nat) (s : Supply) :
    Weighs (blocksFor r t) s ((rebuild r block none t).run s).2 [t]
      [((rebuild r block none t).run s).1] :=
  (h.below block none s).node (id_rebuild r block none t s)

/-- A temporary is a declaration, its symbol and a reference to it. -/
theorem Weighed.hoisted (h : Weighed r t) (block : Nat) (s : Supply) :
    let temp := (newTemp.run s).1
    let rest : Tree × Supply := (rebuild r block (some temp) t).run (newTemp.run s).2
    let init : List Tree × Supply := (flatten r t.exprs).run rest.2
    Weighs (blocksFor r t) s init.2 [t] [temp.declTree t.label.line init.1, rest.1] := by
  intro temp rest init
  have hrest : Weighs (blocksFor r t) (newTemp.run s).2 rest.2 (childrenWith (some temp) t)
    (rest.1.exprs ++ rest.1.symbols ++ rest.1.stmts) := h.below block (some temp) _
  have hinit : Weighs 0 rest.2 init.2 t.exprs init.1 := h.exprs rest.2
  have hid : rest.1.id = t.id := id_rebuild r block _ t _
  have hmade : ∀ step, (newTemp.run s).2.counts.made step =
      s.counts.made step + if step = .module then 0 else 1 := fun step => by
    rw [run_newTemp]
    cases step <;> rfl
  have hnext : ∀ step, (newTemp.run s).2.next step =
      s.next step + if step = .module then 0 else 1 := fun step => by
    rw [run_newTemp]
    cases step <;> rfl
  have hgone : ∀ step, (newTemp.run s).2.counts.gone step = s.counts.gone step := fun step => by
    rw [run_newTemp]
    cases step <;> rfl
  refine ⟨fun step => ?_, fun step => ?_⟩
  · have hnext₁ := hrest.next step
    have hnext₂ := hinit.next step
    rw [hmade, hnext] at hnext₁
    omega
  · have hnodes₁ := hrest.nodes step
    have hnodes₂ := hinit.nodes step
    rw [number_cons, number_tree rest.1, number_tree t, hid, Temp.declTree, Temp.varTree]
    rw [hmade, hgone] at hnodes₁
    simp only [childrenWith, Option.map_some, Option.getD_some, Temp.refTree, number_append,
      number_node, number_nil] at hnodes₁ ⊢
    cases step <;> simp only [NodeId.step, reduceCtorEq, if_true, if_false] at hnodes₁ hnodes₂ ⊢ <;>
      omega

/-- What comes in the place of an entry of a list. -/
theorem weighs_entryOf (h : Weighed r t) (s : Supply) :
    Weighs 0 s ((entryOf r t fun block temp? => rebuild r block temp? t).run s).2 [t]
      ((entryOf r t fun block temp? => rebuild r block temp? t).run s).1 := by
  by_cases hd : dropped r t = true
  · rw [entryOf_of_dropped hd]
    have hnop : t.label.isNop = true := (Bool.and_eq_true _ _ ▸ hd).2
    have hrun : (do countDropped; return [] : SupplyM (List Tree)).run s =
        ([], { s with counts.droppedNops := s.counts.droppedNops + 1 }) := rfl
    rw [hrun]
    refine ⟨fun step => by cases step <;> rfl, fun step => ?_⟩
    rw [h.nop hnop]
    cases step <;> simp [Counts.gone, Counts.made]
    omega
  have hd : dropped r t = false := by simpa using hd
  by_cases hh : hoisted r t = true
  · rw [entryOf_of_hoisted hd hh]
    exact (h.hoisted _ _).after_newBlocks
  · rw [entryOf_of_plain hd (by simpa using hh)]
    exact (h.plain _ _).after_newBlocks

/-- Entries take and count what each of them does. -/
theorem weighs_rebuildEntries (h : ∀ t ∈ ts, Weighed r t) : ∀ s,
    Weighs 0 s ((rebuildEntries r ts).run s).2 ts ((rebuildEntries r ts).run s).1 := by
  induction ts with
  | nil => exact fun s => .refl s []
  | cons t ts ih =>
    intro s
    exact (weighs_entryOf (h t List.mem_cons_self) s).trans
      (ih (fun t ht => h t (List.mem_cons_of_mem _ ht)) _)

/-- Branches weigh the blocks that they are put into. -/
theorem weighs_rebuildBranches (h : ∀ t ∈ ts, Weighed r t) : ∀ block s,
    Weighs (ts.countP (wrapped r)) s ((rebuildBranches r block ts).run s).2 ts
      ((rebuildBranches r block ts).run s).1 := by
  induction ts with
  | nil => exact fun _ s => .refl s []
  | cons t ts ih =>
    intro block s
    have hrest := ih fun t ht => h t (List.mem_cons_of_mem _ ht)
    by_cases hw : wrapped r t = true
    · have hentry := (weighs_entryOf (h t List.mem_cons_self) s).block block t.label.line
      rw [List.countP_cons_of_pos hw, Nat.add_comm]
      simp only [rebuildBranches, if_pos hw, run_bind, run_pure]
      exact (Nat.zero_add 1 ▸ hentry).trans (hrest _ _)
    · have htree := (h t List.mem_cons_self).plain 0 s
      rw [blocksFor_of_not_wrapped (by simpa using hw)] at htree
      rw [List.countP_cons_of_neg hw, ← Nat.zero_add (ts.countP _)]
      simp only [rebuildBranches, if_neg hw, run_bind, run_pure]
      exact htree.trans (hrest _ _)

/-- Only statements have branches. -/
theorem blocksFor_of_not_stmt (hbears : p.Bears [t]) (ht : ∀ s, t.id ≠ .stmt s) :
    blocksFor r t = 0 := by
  have hcategory := Program.category_of_label (hbears.cell List.mem_cons_self)
  have hl : t.label.hasBranches = false := by
    obtain ⟨n, l, es, ss, ts⟩ := t
    unfold Label.hasBranches
    split
    · next hl =>
      obtain rfl : l = _ := hl
      obtain ⟨s, hs⟩ := hcategory
      exact (ht s hs).elim
    · next hl =>
      obtain rfl : l = _ := hl
      obtain ⟨s, hs⟩ := hcategory
      exact (ht s hs).elim
    · rfl
  simp [blocksFor, hl]

/-- Symbols take and count what each of them does. -/
theorem weighs_rebuildAll (h : ∀ t ∈ ts, Weighed r t) (hblocks : ∀ t ∈ ts, blocksFor r t = 0) :
    ∀ s, Weighs 0 s ((rebuildAll r ts).run s).2 ts ((rebuildAll r ts).run s).1 := by
  induction ts with
  | nil => exact fun s => .refl s []
  | cons t ts ih =>
    intro s
    have htree := (h t List.mem_cons_self).plain 0 s
    rw [hblocks t List.mem_cons_self] at htree
    simp only [rebuildAll, run_bind, run_pure]
    exact htree.trans (ih (fun t ht => h t (List.mem_cons_of_mem _ ht))
      (fun t ht => hblocks t (List.mem_cons_of_mem _ ht)) _)

/-- The recursion weighs every tree that a program bears. -/
theorem weighed {p : Program} (t : Tree) : p.Bears [t] → (∀ e, t.id ≠ .expr e) → Weighed r t := by
  induction t using Tree.induction with
  | step n l es ss ts he hs ht =>
    intro hbears hid
    obtain ⟨hcell, hbe, hbs, hbt⟩ := Program.bears_node.mp hbears
    obtain ⟨hes, hss, hts⟩ := hbears.kinds
    have hsymbols : ∀ t ∈ ss, Weighed r t ∧ blocksFor r t = 0 := fun t hmem => by
      obtain ⟨s, hid⟩ := hss t hmem
      exact ⟨hs t hmem (hbs.mem hmem) (by simp [hid]),
        blocksFor_of_not_stmt (hbs.mem hmem) (by simp [hid])⟩
    have hstmts : ∀ t ∈ ts, Weighed r t := fun t hmem => ht t hmem (hbt.mem hmem) fun e => by
      obtain ⟨s, hs⟩ := hts t hmem
      simp [hs]
    refine ⟨fun block temp? s => ?_, weighs_flatten hbe hes, fun hnop step => ?_⟩
    · rw [rebuild_eq]
      simp only [entered, below, rebuildHeld, run_bind, run_pure, exprs_node, symbols_node,
        stmts_node, childrenWith, label_node]
      set es' := (temp?.map fun temp => [temp.refTree l.line]).getD es with hes'
      have hexprs : ∀ s, Weighs 0 s ((flatten r es').run s).2 es' ((flatten r es').run s).1 := by
        cases temp? with
        | none => exact weighs_flatten hbe hes
        | some temp =>
          intro s
          rw [hes', Option.map_some, Option.getD_some, flatten_ref, run_pure]
          exact .refl _ _
      have hboth := (hexprs s).trans (weighs_rebuildAll (fun t ht => (hsymbols t ht).1)
        (fun t ht => (hsymbols t ht).2) ((flatten r es').run s).2)
      by_cases hl : l.hasBranches = true
      · have hblocks : blocksFor r (.node n l es ss ts) = 0 + 0 + ts.countP (wrapped r) := by
          rw [Nat.zero_add]
          exact if_pos hl
        rw [if_pos hl, if_pos hl, ← rebuildBranches_eq, hblocks]
        exact hboth.trans (weighs_rebuildBranches hstmts block _)
      · have hblocks : blocksFor r (.node n l es ss ts) = 0 := if_neg hl
        rw [if_neg hl, if_neg hl, hblocks]
        exact hboth.trans (weighs_rebuildEntries hstmts _)
    · obtain ⟨s, line, hleaf⟩ := leaf_of_nop hcell hnop
      cases hleaf
      cases step <;> rfl

end

/-! ## Runs -/

section

variable {p q : Program} {modules : List ModuleId} {ts us : List Tree} {r : Rules}

/-- What a run makes of modules that are trees, and what it counts there. -/
theorem weighs_of_run (hts : p.Unfolds modules ts)
    (haddr : (Normalize.run r modules p).2.Addressable) :
    ∃ st, exec (pass.runModules modules) (begun r p) = (.ok (), st) ∧
      Becomes nowhere (begun r p) st ts (rebuilt r p ts) ∧
      Weighs 0 (supplyAt p) (supplyOf st.scene) ts (rebuilt r p ts) := by
  obtain ⟨st, hexec, hrebuilt, hbecomes⟩ := exec_runModules hts haddr
  have hroots : ∀ t ∈ ts, ∃ m, t.id = .module m := fun t ht => by
    obtain ⟨m, _, hm⟩ := List.mem_map.mp (hts.roots ▸ List.mem_map_of_mem ht)
    exact ⟨m, hm.symm⟩
  have htrees : ∀ t ∈ ts, Weighed r t ∧ blocksFor r t = 0 := fun t ht => by
    obtain ⟨m, hm⟩ := hroots t ht
    exact ⟨weighed t (hts.bears.mem ht) (by simp [hm]),
      blocksFor_of_not_stmt (hts.bears.mem ht) (by simp [hm])⟩
  have hweighs := weighs_rebuildAll (fun t ht => (htrees t ht).1) (fun t ht => (htrees t ht).2)
    (supplyAt p)
  rw [hrebuilt] at hweighs
  exact ⟨st, hexec, hbecomes, hweighs⟩

/-- The arenas grow by what is counted. -/
theorem Weighs.more {scene : Scene Normalizer}
    (h : Weighs 0 (supplyAt p) (supplyOf scene) ts us)
    (hmodules : scene.program.modules = p.modules) :
    p.More scene.program (scene.own.counts.made .symbol) (scene.own.counts.made .stmt)
      (scene.own.counts.made .expr) :=
  ⟨hmodules, h.next .symbol, h.next .stmt, h.next .expr⟩

/-- At the start nothing is counted. -/
theorem Weighs.number_eq {scene : Scene Normalizer}
    (h : Weighs 0 (supplyAt p) (supplyOf scene) ts us) (step : Step) :
    number step us + scene.own.counts.gone step = number step ts + scene.own.counts.made step := by
  have hzero : Counts.zero.made step = 0 ∧ Counts.zero.gone step = 0 := by
    cases step <;> exact ⟨rfl, rfl⟩
  have hnodes : number step us + scene.own.counts.gone step + Counts.zero.made step =
      number step ts + Counts.zero.gone step + scene.own.counts.made step +
        if step = .stmt then 0 else 0 := h.nodes step
  rw [hzero.1, hzero.2, ite_self] at hnodes
  exact hnodes

/-- The verifier counts the nodes of the trees. -/
theorem number_of_verify {checks : Checks} {report : Verify.Report}
    (h : Verify.run checks modules q = .ok report) (hus : q.Unfolds modules us) (step : Step) :
    report.tally.number step = number step us := by
  obtain ⟨scene, hrun⟩ := Verify.pass_of_run h
  exact Pass.number_of_run rfl hrun hus step

/-- A run counts the nodes of the trees, and those that it makes. -/
theorem number_of_exec {st : WalkState Normalizer} {c : Counts} (hts : p.Unfolds modules ts)
    (hexec : exec (pass.runModules modules) (begun r p) = (.ok (), st))
    (hbecomes : Becomes nowhere (begun r p) st ts us)
    (hmore : p.More st.scene.program (c.made .symbol) (c.made .stmt) (c.made .expr))
    (haddr : st.scene.program.Addressable) (step : Step) :
    st.trail.tally.number step = number step ts + c.made step := by
  have hcensus := pass.census_runModules modules (begun r p) .start
  rw [hexec] at hcensus
  have hnew := Program.mem_fresh hmore haddr
  have hnodup : (nodesOf ts ++ p.fresh (c.made .symbol) (c.made .stmt) (c.made .expr)).Nodup := by
    refine List.nodup_append.mpr ⟨hts.nodup, hmore.nodup_fresh haddr, fun n hn m hm he => ?_⟩
    have hmissing := ((hnew m).mp hm).1
    rw [← he, hts.bears.has hn] at hmissing
    cases hmissing
  have hfresh : (p.fresh (c.made .symbol) (c.made .stmt) (c.made .expr)).countP
      (·.step = step) = c.made step := by
    cases step <;>
      simp [Program.fresh, List.countP_map, Function.comp_def, NodeId.step, Counts.made]
  rw [hcensus.number_eq hnodup (fun n => ?_) step, List.countP_append, ← number, hfresh]
  rw [hbecomes.moved.seen, Entered, List.mem_append, hnew]
  simp [begun, Trail.start]

end

/-- Normalising modules that a pass could walk which looks and nothing else: the arenas grow by what
the report counts as made, and its tally is that of the walk and as many nodes more.  Whatever the
verifier checks afterwards, it goes through the same modules, and its tally is that of the report
without the empty statements and the parentheses that were taken away. -/
theorem run_census {σ : Type} {o : Observer σ} {own : σ} {r : Rules} {modules : List ModuleId}
    {p : Program} (hok : (walked o.toHooks modules p own).1 = .ok ())
    (haddr : (Normalize.run r modules p).2.Addressable) :
    let q := (Normalize.run r modules p).2
    let before := (walked o.toHooks modules p own).2.trail.tally
    ∃ report, (Normalize.run r modules p).1 = .ok report ∧
      (q.modules = p.modules ∧
        q.symbols.size = p.symbols.size + report.counts.hoistedTemps ∧
        q.stmts.size = p.stmts.size + report.counts.wrappedBranches + report.counts.hoistedTemps ∧
        q.exprs.size = p.exprs.size + report.counts.hoistedTemps) ∧
      report.tally = ⟨before.modules, before.symbols + report.counts.hoistedTemps,
        before.stmts + report.counts.wrappedBranches + report.counts.hoistedTemps,
        before.exprs + report.counts.hoistedTemps⟩ ∧
      ∀ checks, ∃ after, Verify.run checks modules q = .ok after ∧
        report.tally = ⟨after.tally.modules, after.tally.symbols,
          after.tally.stmts + report.counts.droppedNops,
          after.tally.exprs + report.counts.flattenedParens⟩ := by
  intro q before
  have hwalk : exec (modules.forM fun m => Walk.run o.toHooks (.module m)) ⟨.start, ⟨p, own⟩⟩ =
    (.ok (), (walked o.toHooks modules p own).2) := Prod.ext hok rfl
  obtain ⟨ts, hroots, hthrough⟩ := through_of_modules hwalk
  have hts : p.Unfolds modules ts := ⟨hroots, hthrough.bears, hthrough.nodup⟩
  have hbefore : ∀ step, before.number step = number step ts := by
    have hcensus := (census_local o.toHooks).forM
      (fun m => (census_local o.toHooks).run (.module m)) modules ⟨.start, ⟨p, own⟩⟩ .start
    rw [hwalk] at hcensus
    exact number_of_through hcensus hthrough
  obtain ⟨st', hexec, hbecomes, hweighs⟩ := weighs_of_run (r := r) hts haddr
  have hq : q = st'.scene.program := congrArg Prod.snd (run_of_exec hexec)
  have hmore := hweighs.more
    (Larger.of_exec (larger_local.forM grows_runModule modules) hexec).modules
  have hrun := number_of_exec hts hexec hbecomes hmore (hq ▸ haddr)
  refine ⟨_, congrArg Prod.fst (run_of_exec hexec), ?_, ?_, fun checks => ?_⟩
  · rw [hq, Nat.add_assoc]
    exact ⟨hmore.modules, hmore.symbols, hmore.stmts, hmore.exprs⟩
  · refine Tally.ext_number fun step => ?_
    rw [hrun, ← hbefore]
    cases step <;> simp [Tally.number, Counts.made, Nat.add_assoc]
  · have hunfolds := (rebuilt_of_run hts haddr).2.1
    obtain ⟨after, hafter, _⟩ := Verify.run_of_unfolds checks hunfolds
    refine ⟨after, hafter, Tally.ext_number fun step => ?_⟩
    rw [hrun, ← hweighs.number_eq, ← number_of_verify hafter hunfolds]
    cases step <;> rfl

/-- The walk over `sample` meets 1 module, 1 symbol, 3 statements and 3 expressions.  Each rule is
applied, and one of the empty statements ends up in a block before it is dropped. -/
theorem run_census_sample : (walked silent.toHooks [⟨0⟩] sample ()).1 = .ok () ∧
    ∃ report, (Normalize.run .all [⟨0⟩] sample).1 = .ok report ∧
      (Normalize.run .all [⟨0⟩] sample).2.stmts.size =
        3 + report.counts.wrappedBranches + report.counts.hoistedTemps ∧
      report.tally = ⟨1, 1 + report.counts.hoistedTemps,
        3 + report.counts.wrappedBranches + report.counts.hoistedTemps,
        3 + report.counts.hoistedTemps⟩ ∧
      ∃ after, Verify.run .all [⟨0⟩] (Normalize.run .all [⟨0⟩] sample).2 = .ok after ∧
        report.tally = ⟨after.tally.modules, after.tally.symbols,
          after.tally.stmts + report.counts.droppedNops,
          after.tally.exprs + report.counts.flattenedParens⟩ := by
  have hok : (walked silent.toHooks [⟨0⟩] sample ()).1 = .ok () := by decide +kernel
  have hbefore : (walked silent.toHooks [⟨0⟩] sample ()).2.trail.tally = ⟨1, 1, 3, 3⟩ := by
    decide +kernel
  obtain ⟨report, hreport, ⟨_, _, hstmts, _⟩, htally, hafter⟩ :=
    run_census (r := .all) hok (by decide +kernel)
  rw [hbefore] at htally
  exact ⟨hok, report, hreport, hstmts, htally, hafter .all⟩

end Normalize

end MiddleEnd
