import Mathlib.Algebra.Order.BigOperators.Group.Finset
import MiddleEnd.Proofs.Normalize.Result
import MiddleEnd.Proofs.Safe

/-!
# MiddleEnd.Proofs.Normalize.Bounded

How many nodes a run can enter, whatever the program.  The pass makes nodes while it walks, but only
where it comes to an `if` (two blocks, and a temporary of three nodes) or to a `while` (one block),
and it comes to each of them once.  So what a run has made, and what the statements that were not
yet entered can still make it make (`Program.owed`), is never more than all of them together:
entering a statement sets free as much as its first hook may use up (`Costs`).

A node is entered once, so the nodes that were entered are no more than there are in the end
(`Counted.total_le`).
-/

namespace MiddleEnd

open Walk

instance : Finite StmtId := Finite.of_injective NodeId.stmt fun _ _ => NodeId.stmt.inj

noncomputable instance : Fintype StmtId := .ofFinite StmtId

namespace StmtKind

/-- Whether the statement is an `if`. -/
def isIf : StmtKind → Bool
  | .ifElse _ _ _ => true
  | _ => false

/-- Whether the statement is a `while`. -/
def isWhile : StmtKind → Bool
  | .whileDo _ _ => true
  | _ => false

/-- How many nodes may be made where the statement is entered. -/
def load (k : StmtKind) : Nat := (if k.isIf then 5 else 0) + if k.isWhile then 1 else 0

/-- Another operand does not change how many nodes may be made. -/
theorem load_withOperand? {k k' : StmtKind} {i : Nat} {e : ExprId}
    (h : k.withOperand? i e = some k') : k'.load = k.load := by
  revert h
  unfold withOperand?
  split <;> intro h <;> cases h <;> rfl

/-- Another branch does not change how many nodes may be made. -/
theorem load_withBranch? {k k' : StmtKind} {which : Branch} {s : StmtId}
    (h : k.withBranch? which s = some k') : k'.load = k.load := by
  revert h
  unfold withBranch?
  split <;> intro h <;> cases h <;> rfl

/-- Other entries do not change how many nodes may be made. -/
theorem load_withEntries (k : StmtKind) (entries : List StmtId) :
    (k.withEntries entries).load = k.load := by
  cases k <;> rfl

end StmtKind

namespace Program

/-- How many symbols, statements and expressions there are. -/
def weight (p : Program) : Nat := p.symbols.size + p.stmts.size + p.exprs.size

/-- How many nodes may be made where a statement is entered. -/
def load (p : Program) (s : StmtId) : Nat := ((p.stmt? s).map (·.kind.load)).getD 0

/-- How many nodes may be made where a node is entered. -/
def due (p : Program) : NodeId → Nat
  | .stmt s => p.load s
  | _ => 0

/-- How many nodes may be made for all statements that were not entered. -/
noncomputable def owed (p : Program) (seen : NodeSet) : Nat :=
  ∑ s : StmtId, if seen.contains (.stmt s) then 0 else p.load s

variable {p q : Program}

/-- Programs of the same size have the same number of nodes. -/
theorem SameSize.weight (h : p.SameSize q) : q.weight = p.weight := by
  rw [Program.weight, h.symbols, h.stmts, h.exprs, Program.weight]

/-- What a change to a statement leaves due is what it leaves due for that statement. -/
theorem load_updateStmt {s : StmtId} {f : Stmt → Stmt}
    (h : ∀ x, p.stmt? s = some x → (f x).kind.load = x.kind.load) (t : StmtId) :
    (p.updateStmt s f).load t = p.load t := by
  rw [load, load, stmt?_updateStmt]
  by_cases hts : t = s
  · subst hts
    rw [if_pos rfl]
    cases hx : p.stmt? t with
    | none => rfl
    | some x => exact h x hx
  · rw [if_neg hts]

/-- Writing a list makes nothing due. -/
theorem load_putStmtList (list : StmtList) (entries : List StmtId) (t : StmtId) :
    (p.putStmtList list entries).load t = p.load t := by
  cases list with
  | body s => rfl
  | block b => exact load_updateStmt (fun x _ => x.kind.load_withEntries entries) t

/-- Writing an operand makes nothing due. -/
theorem load_setExprAt? {place : ExprPlace} {e : ExprId} (h : p.setExprAt? place e = some q)
    (t : StmtId) : q.load t = p.load t := by
  obtain ⟨owner, i⟩ := place
  cases owner with
  | stmt s =>
    simp only [setExprAt?, Option.bind_eq_bind, Option.bind_eq_some_iff, Option.some.injEq] at h
    obtain ⟨x, hx, kind, hkind, rfl⟩ := h
    refine load_updateStmt (fun y hy => ?_) t
    rw [hx, Option.some.injEq] at hy
    exact hy ▸ StmtKind.load_withOperand? hkind
  | expr s =>
    simp only [setExprAt?, Option.bind_eq_bind, Option.bind_eq_some_iff, Option.some.injEq] at h
    obtain ⟨_, _, _, _, rfl⟩ := h
    rfl

/-- Writing a branch makes nothing due. -/
theorem load_setStmtAt? {place : StmtPlace} {s : StmtId} (h : p.setStmtAt? place s = some q)
    (t : StmtId) : q.load t = p.load t := by
  cases place with
  | entry list i =>
    simp only [setStmtAt?, Option.bind_eq_bind, Option.bind_eq_some_iff,
      Option.ite_none_right_eq_some, Option.some.injEq] at h
    obtain ⟨_, _, _, rfl⟩ := h
    exact load_putStmtList _ _ t
  | branch owner which =>
    simp only [setStmtAt?, Option.bind_eq_bind, Option.bind_eq_some_iff, Option.some.injEq] at h
    obtain ⟨x, hx, kind, hkind, rfl⟩ := h
    refine load_updateStmt (fun y hy => ?_) t
    rw [hx, Option.some.injEq] at hy
    exact hy ▸ StmtKind.load_withBranch? hkind

theorem load_removeStmt? {list : StmtList} {s : StmtId} (h : p.removeStmt? list s = some q)
    (t : StmtId) : q.load t = p.load t := by
  simp only [removeStmt?, Option.bind_eq_bind, Option.bind_eq_some_iff,
    Option.ite_none_right_eq_some, Option.some.injEq] at h
  obtain ⟨_, _, _, rfl⟩ := h
  exact load_putStmtList _ _ t

theorem load_insertBefore? {list : StmtList} {s d : StmtId}
    (h : p.insertBefore? list s d = some q) (t : StmtId) : q.load t = p.load t := by
  simp only [insertBefore?, Option.bind_eq_bind, Option.bind_eq_some_iff, Option.some.injEq] at h
  obtain ⟨_, _, _, _, rfl⟩ := h
  exact load_putStmtList _ _ t

/-- A write that may be refused makes nothing due if it does not where it is done. -/
theorem load_getD {o : Option Program} (h : ∀ q, o = some q → ∀ t, q.load t = p.load t)
    (t : StmtId) : (o.getD p).load t = p.load t := by
  cases o with
  | none => rfl
  | some q => exact h q rfl t

/-- A new statement for which nothing is made. -/
theorem load_addStmt {kind : StmtKind} (hkind : kind.load = 0) (line : UInt32) (t : StmtId) :
    (p.addStmt kind line).2.load t = p.load t := by
  simp only [load, stmt?, addStmt, Array.getElem?_push]
  by_cases ht : t.index = p.stmts.size
  · rw [if_pos ht, ht]
    simp [Stmt.new, hkind]
  · rw [if_neg ht]

/-- Entering a node sets free what may be made there. -/
theorem owed_insert {seen : NodeSet} {n : NodeId} (h : seen.contains n = false) :
    p.owed (seen.insert n) + p.due n = p.owed seen := by
  by_cases hn : ∃ s, n = .stmt s
  · obtain ⟨s, rfl⟩ := hn
    classical
    rw [owed, owed, ← Finset.sum_erase_add _ _ (Finset.mem_univ s),
      ← Finset.sum_erase_add Finset.univ (fun t => if seen.contains (.stmt t) then 0 else p.load t)
        (Finset.mem_univ s)]
    have hrest : ∑ t ∈ Finset.univ.erase s,
        (if (seen.insert (.stmt s)).contains (.stmt t) then 0 else p.load t) =
        ∑ t ∈ Finset.univ.erase s, if seen.contains (.stmt t) then 0 else p.load t :=
      Finset.sum_congr rfl fun t ht => by simp [Finset.ne_of_mem_erase ht]
    rw [hrest]
    simp [h, due]
  · have hdue : p.due n = 0 := by
      cases n with
      | stmt s => exact absurd ⟨s, rfl⟩ hn
      | _ => rfl
    rw [hdue, Nat.add_zero]
    refine Finset.sum_congr rfl fun s _ => ?_
    rw [NodeSet.contains_insert, decide_eq_false fun hs => hn ⟨s, hs.symm⟩, Bool.false_or]

/-- What is due for nodes is known from what is due for statements. -/
theorem due_congr (h : ∀ s, q.load s = p.load s) (n : NodeId) : q.due n = p.due n := by
  cases n with
  | stmt s => exact h s
  | _ => rfl

/-- What may be made for all statements, counted in the arena. -/
theorem owed_empty_le (p : Program) : p.owed .empty ≤
    5 * p.stmts.toList.countP (·.kind.isIf) + p.stmts.toList.countP (·.kind.isWhile) := by
  have hlist : ∀ xs : List Stmt, ∑ i ∈ Finset.range xs.length, ((xs[i]?).map (·.kind.load)).getD 0 =
      5 * xs.countP (·.kind.isIf) + xs.countP (·.kind.isWhile) := fun xs => by
    induction xs with
    | nil => rfl
    | cons x xs ih =>
      rw [List.length_cons, Finset.sum_range_succ']
      simp only [List.getElem?_cons_succ, List.getElem?_cons_zero, ih, List.countP_cons,
        Option.map_some, Option.getD_some]
      rw [StmtKind.load]
      split <;> split <;> omega
  have hindex : Function.Injective StmtId.index := fun _ _ => StmtId.index_inj.mp
  calc
    p.owed .empty = ∑ s : StmtId, ((p.stmts.toList[s.index]?).map (·.kind.load)).getD 0 :=
      Finset.sum_congr rfl fun s _ => by simp [load, stmt?]
    _ = ∑ i ∈ Finset.univ.map ⟨StmtId.index, hindex⟩,
        ((p.stmts.toList[i]?).map (·.kind.load)).getD 0 := by rw [Finset.sum_map]; rfl
    _ ≤ ∑ i ∈ Finset.range p.stmts.toList.length,
        ((p.stmts.toList[i]?).map (·.kind.load)).getD 0 := by
      refine Finset.sum_le_sum_of_ne_zero fun i _ hne => Finset.mem_range.mpr ?_
      by_contra hlt
      exact hne (by simp [List.getElem?_eq_none (Nat.le_of_not_lt hlt)])
    _ = _ := hlist _

end Program

namespace Normalize

/-! ## What the hooks cost -/

/-- At most so many nodes were made, and nothing is due for them. -/
structure Costs (n : Nat) (a b : Scene Normalizer) : Prop where
  weight : b.program.weight ≤ a.program.weight + n
  load : ∀ s, b.program.load s = a.program.load s

section

variable {a b c : Scene Normalizer} {n m : Nat} {s : StmtId} {place : StmtPlace}

theorem Costs.refl (a : Scene Normalizer) : Costs 0 a a := ⟨Nat.le_refl _, fun _ => rfl⟩

/-- What two stretches cost adds up. -/
theorem Costs.trans (h : Costs n a b) (h' : Costs m b c) : Costs (n + m) a c where
  weight := by
    have := h.weight
    have := h'.weight
    omega
  load s := (h'.load s).trans (h.load s)

/-- What costs so much costs at most more than that. -/
theorem Costs.mono (h : Costs n a b) (hle : n ≤ m) : Costs m a b :=
  ⟨Nat.le_trans h.weight (Nat.add_le_add_left hle _), h.load⟩

/-- Overwriting nodes costs nothing. -/
theorem Costs.of_sameSize (h : a.program.SameSize b.program)
    (hload : ∀ s, b.program.load s = a.program.load s) : Costs 0 a b :=
  ⟨Nat.le_of_eq h.weight, hload⟩

/-- Nothing is made where an empty statement is dropped. -/
theorem costs_dropNop (s : StmtId) (place : StmtPlace) (scene : Scene Normalizer) :
    Costs 0 scene (dropNop s place scene) := by
  unfold dropNop
  split
  · exact .refl scene
  · split
    · exact .refl scene
    · next h => exact .of_sameSize (Program.sameSize_removeStmt? h) (Program.load_removeStmt? h)

/-- At most one block is made around a branch. -/
theorem costs_wrapBranch (place : StmtPlace) (scene : Scene Normalizer) :
    Costs 1 scene (wrapBranch place scene) := by
  unfold wrapBranch
  split
  · exact (Costs.refl scene).mono (Nat.zero_le 1)
  · next s stmt _ =>
    split
    · exact (Costs.refl scene).mono (Nat.zero_le 1)
    · have hadd : Costs 1 scene
          { scene with program := (scene.program.addStmt (.block [s]) stmt.line).2 } := by
        refine ⟨?_, Program.load_addStmt rfl stmt.line⟩
        simp only [Program.weight, Program.addStmt, Array.size_push]
        omega
      dsimp only
      split
      · exact hadd
      · next h =>
        exact hadd.trans (m := 0)
          (.of_sameSize (Program.sameSize_setStmtAt? h) (Program.load_setStmtAt? h))

/-- At most two branches of an `if` are wrapped, and one of a `while`. -/
theorem costs_wrapBranches (s : StmtId) (scene : Scene Normalizer) :
    Costs (min (scene.program.load s) 2) scene (wrapBranches s scene) := by
  have hfold : ∀ (places : List StmtPlace) (scene : Scene Normalizer),
      Costs places.length scene
        (places.foldl (fun scene place => wrapBranch place scene) scene) := fun places => by
    induction places with
    | nil => exact fun scene => .refl scene
    | cons place places ih =>
      intro scene
      rw [List.length_cons, Nat.add_comm, List.foldl_cons]
      exact (costs_wrapBranch place scene).trans (ih _)
  unfold wrapBranches
  split
  · next places hplaces =>
    refine (hfold places scene).mono ?_
    cases hx : scene.program.stmt? s with
    | none => simp [Program.children, hx] at hplaces
    | some x =>
      rw [Program.children, hx] at hplaces
      simp only [Program.load, hx, Option.map_some, Option.getD_some, StmtKind.load]
      cases hk : x.kind with
      | ifElse cond t f =>
        simp only [hk, StmtKind.children, StmtChildren.places.injEq] at hplaces
        subst hplaces
        exact Nat.le_refl 2
      | whileDo cond body =>
        simp [hk, StmtKind.children] at hplaces
        simp [← hplaces, StmtKind.isWhile]
      | _ => simp [hk, StmtKind.children] at hplaces
  · exact (Costs.refl scene).mono (Nat.zero_le _)

/-- The declaration of a temporary and the reference to it make nothing due. -/
theorem load_hoistInto (p : Program) (s : StmtId) (list : StmtList) (cond : ExprId)
    (line : UInt32) (name : String) (t : StmtId) :
    (hoistInto p s list cond line name).load t = p.load t := by
  unfold hoistInto
  dsimp only
  set p₁ := (p.addSymbol name (.var none) line).2
  set p₂ := (p₁.addStmt _ line).2 with hp₂
  set p₃ := (p₂.insertBefore? list s _).getD p₂ with hp₃
  calc
    _ = (p₃.addExpr _ line).2.load t := Program.load_getD (fun q => Program.load_setExprAt?) t
    _ = p₃.load t := rfl
    _ = p₂.load t := Program.load_getD (fun q => Program.load_insertBefore?) t
    _ = p₁.load t := Program.load_addStmt rfl line t
    _ = p.load t := rfl

/-- A temporary takes three nodes. -/
theorem costs_hoistCondition (s : StmtId) (place : StmtPlace) (scene : Scene Normalizer) :
    Costs (scene.program.load s - 2) scene (hoistCondition s place scene) := by
  rcases hoistCondition_cases s place scene with hself | ⟨list, cond, line, _, hcan, heq⟩
  · rw [hself]
    exact (Costs.refl scene).mono (Nat.zero_le _)
  · have hload : scene.program.load s = 5 := by
      obtain ⟨x, hx, hcond⟩ := Option.bind_eq_some_iff.mp hcan
      cases hk : x.kind <;> simp [hk] at hcond
      simp [Program.load, StmtKind.load, hx, hk, StmtKind.isIf, StmtKind.isWhile]
    obtain ⟨_, hs, ht, he⟩ := size_hoistInto scene.program s list cond line
      ("_t" ++ scene.own.nextTemp.repr)
    rw [heq]
    refine ⟨?_, fun t => ?_⟩
    · simp only [Program.weight, hs, ht, he, hload]
      omega
    · exact load_hoistInto scene.program s list cond line _ t

/-- A rule that is not asked for costs nothing. -/
theorem costs_applyIf {rewrite : Rewrite} {n : Nat} {scene : Scene Normalizer}
    (h : Costs n scene (rewrite scene)) (rule : Bool) :
    Costs n scene (applyIf rule rewrite scene) := by
  cases rule
  · exact (Costs.refl scene).mono (Nat.zero_le n)
  · exact h

/-- What is made where a statement is entered is what is due for it. -/
theorem costs_rewriteStmt (s : StmtId) (place : StmtPlace) (isNop : Bool)
    (scene : Scene Normalizer) :
    Costs (scene.program.load s) scene (rewriteStmt s place isNop scene) := by
  have hmark : Costs 0 scene { scene with program := scene.program.updateStmt s fun x => { x with
      parentStmt := scene.own.context.enclosingStmt
      parentSymbol := scene.own.context.enclosingSymbol } } :=
    .of_sameSize (Program.sameSize_updateStmt _ _) (Program.load_updateStmt fun _ _ => rfl)
  have hdrop := hmark.trans
    (costs_applyIf (costs_dropNop s place _) (scene.own.rules.dropNops && isNop))
  have hwrap := hdrop.trans (costs_applyIf (costs_wrapBranches s _) scene.own.rules.wrapBranches)
  have hhoist := hwrap.trans
    (costs_applyIf (costs_hoistCondition s place _) scene.own.rules.hoistCallConditions)
  refine hhoist.mono ?_
  rw [hwrap.load, hdrop.load]
  omega

theorem costs_move (step : ContextM Unit) (scene : Scene Normalizer) :
    Costs 0 scene (exec (move step) scene).2 := by
  rw [exec_move]
  generalize exec step scene.own.context = result
  obtain ⟨_ | _, _⟩ := result <;> exact .of_sameSize (.refl _) fun _ => rfl

/-- Nothing is made where a symbol is entered. -/
theorem costs_preSymbol (y : SymbolId) (scene : Scene Normalizer) :
    Costs 0 scene (exec (preSymbol y) scene).2 := by
  rw [exec_preSymbol]
  cases scene.program.symbol y with
  | error fault => exact .refl scene
  | ok x => exact .of_sameSize (Program.sameSize_updateSymbol _ _) fun _ => rfl

/-- Where a statement is entered no more is made than is due for it. -/
theorem costs_preStmt (s : StmtId) (place : StmtPlace) (scene : Scene Normalizer) :
    Costs (scene.program.load s) scene (exec (preStmt s place) scene).2 := by
  rw [exec_preStmt]
  cases scene.program.stmt s with
  | error fault => exact (Costs.refl scene).mono (Nat.zero_le _)
  | ok x =>
    have hcosts := costs_rewriteStmt s place (x.kind = .nop) scene
    exact ⟨hcosts.weight, hcosts.load⟩

/-- Nothing is made where an expression is entered. -/
theorem costs_preExpr (e : ExprId) (place : ExprPlace) (scene : Scene Normalizer) :
    Costs 0 scene (exec (preExpr e place) scene).2 := by
  rw [exec_preExpr]
  split
  · exact .refl scene
  · split
    · exact .refl scene
    · next expr _ =>
      cases hset : (flattened? scene.own.rules expr).bind (scene.program.setExprAt? place) with
      | none => exact .of_sameSize (Program.sameSize_updateExpr _ _) fun _ => rfl
      | some q =>
        obtain ⟨inner, _, hq⟩ := Option.bind_eq_some_iff.mp hset
        exact .of_sameSize (Program.sameSize_setExprAt? _ hq) (Program.load_setExprAt? hq)

/-- What is made where a node is entered is what is due for it. -/
theorem costs_pre {call : Call} (h : call.isPre = true) (scene : Scene Normalizer) :
    Costs (scene.program.due call.node) scene (exec (hooks.hook call) scene).2 := by
  cases call with
  | preSymbol y => exact costs_preSymbol y scene
  | preStmt s place => exact costs_preStmt s place scene
  | preExpr e place => exact costs_preExpr e place scene
  | _ => cases h

/-- Nothing is made where a node is left. -/
theorem costs_post {call : Call} (h : call.isPre = false) (scene : Scene Normalizer) :
    Costs 0 scene (exec (hooks.hook call) scene).2 := by
  cases call with
  | postSymbol y =>
    rw [Hooks.hook, hooks_postSymbol]
    exact costs_move _ scene
  | postStmt s =>
    rw [Hooks.hook, hooks_postStmt]
    exact costs_move _ scene
  | postExpr e => exact .refl scene
  | _ => cases h

end

/-! ## What a run enters -/

/-- A run may enter the modules that it is asked for, and what exists of the other categories. -/
def Admits (modules : List ModuleId) (p : Program) : NodeId → Prop
  | .module m => m ∈ modules
  | n => p.has n = true

/-- What a run over modules of `p` has entered and made so far. -/
structure Counted (modules : List ModuleId) (p : Program) (st : WalkState Normalizer) : Prop where
  load : ∀ s, st.scene.program.load s = p.load s
  made : st.scene.program.weight + p.owed st.trail.seen ≤ p.weight + p.owed .empty
  entered : ∃ ns : List NodeId, ns.Nodup ∧ ns.length = st.trail.tally.total ∧
    ∀ n ∈ ns, st.trail.seen.contains n = true ∧ Admits modules st.scene.program n

section

variable {r : Rules} {modules ms : List ModuleId} {p : Program} {st : WalkState Normalizer}
  {n : NodeId}

/-- A run begins with nothing entered and nothing made. -/
theorem counted_begun (r : Rules) (modules : List ModuleId) (p : Program) :
    Counted modules p (begun r p) :=
  ⟨fun _ => rfl, Nat.le_refl _, [], .nil, rfl, nofun⟩

theorem Counted.leaving (h : Counted modules p st) (n : NodeId) :
    Counted modules p (Walk.leaving n st) := ⟨h.load, h.made, h.entered⟩

/-- What a run may enter it may enter of a larger program. -/
theorem Admits.mono {a b : Scene Normalizer} (h : Larger a b) (hn : Admits modules a.program n) :
    Admits modules b.program n := by
  cases n with
  | module m => exact hn
  | _ => exact h.has _ hn

/-- A hook makes nothing. -/
theorem Counted.after (h : Counted modules p st) {scene : Scene Normalizer}
    (hlarger : Larger st.scene scene) (hcosts : Costs 0 st.scene scene) :
    Counted modules p ⟨st.trail, scene⟩ where
  load s := (hcosts.load s).trans (h.load s)
  made := Nat.le_trans (Nat.add_le_add_right hcosts.weight _) h.made
  entered := by
    obtain ⟨ns, hnodup, hlength, hns⟩ := h.entered
    exact ⟨ns, hnodup, hlength, fun n hn => ⟨(hns n hn).1, (hns n hn).2.mono hlarger⟩⟩

/-- A node is entered, and a hook makes there what is due for it. -/
theorem Counted.entering (h : Counted modules p st) (hn : st.trail.seen.contains n = false)
    (hadmits : Admits modules st.scene.program n) {scene : Scene Normalizer}
    (hlarger : Larger st.scene scene) (hcosts : Costs (st.scene.program.due n) st.scene scene) :
    Counted modules p ⟨(Walk.entering n st).trail, scene⟩ where
  load s := (hcosts.load s).trans (h.load s)
  made := by
    have hmade := h.made
    have howed := Program.owed_insert (p := p) hn
    have hweight := hcosts.weight
    rw [Program.due_congr h.load] at hweight
    change scene.program.weight + p.owed (st.trail.seen.insert n) ≤ _
    omega
  entered := by
    obtain ⟨ns, hnodup, hlength, hns⟩ := h.entered
    refine ⟨n :: ns, List.nodup_cons.mpr ⟨fun hmem => ?_, hnodup⟩, ?_, fun k hk => ?_⟩
    · rw [(hns n hmem).1] at hn
      cases hn
    · rw [List.length_cons, hlength]
      cases n <;> simp [Walk.entering, Tally.total, Tally.count, NodeId.step] <;> omega
    · rcases List.mem_cons.mp hk with rfl | hk
      · exact ⟨seen_entering k st, hadmits.mono hlarger⟩
      · exact ⟨grown_entering n st k (hns k hk).1, (hns k hk).2.mono hlarger⟩

/-- No node is entered twice. -/
theorem Counted.total_le (h : Counted modules p st) :
    st.trail.tally.total ≤ modules.length + st.scene.program.weight := by
  obtain ⟨ns, hnodup, hlength, hns⟩ := h.entered
  set q := st.scene.program
  have hsub : ns ⊆ modules.map .module ++
      ((List.range q.symbols.size).map (fun i => .symbol (.ofIndex i)) ++
        ((List.range q.stmts.size).map (fun i => .stmt (.ofIndex i)) ++
          (List.range q.exprs.size).map fun i => .expr (.ofIndex i))) := fun n hn => by
    have hadmits := (hns n hn).2
    simp only [List.mem_append, List.mem_map, List.mem_range]
    cases n with
    | module m => exact .inl ⟨m, hadmits, rfl⟩
    | symbol s =>
      have hlt := of_decide_eq_true ((q.has_symbol s).symm.trans hadmits)
      exact .inr (.inl ⟨s.index, hlt, by simp [SymbolId.ofIndex, SymbolId.index]⟩)
    | stmt s =>
      have hlt := of_decide_eq_true ((q.has_stmt s).symm.trans hadmits)
      exact .inr (.inr (.inl ⟨s.index, hlt, by simp [StmtId.ofIndex, StmtId.index]⟩))
    | expr e =>
      have hlt := of_decide_eq_true ((q.has_expr e).symm.trans hadmits)
      exact .inr (.inr (.inr ⟨e.index, hlt, by simp [ExprId.ofIndex, ExprId.index]⟩))
  have hle := (hnodup.subperm hsub).length_le
  simp only [List.length_append, List.length_map, List.length_range] at hle
  rw [← hlength, Program.weight]
  omega

/-- Every step of a run keeps the count. -/
theorem counted_steps (modules : List ModuleId) (p : Program) :
    Scoped hooks modules (fun _ => Counted modules p) fun _ => Counted modules p where
  refuse _ _ hst _ := hst
  enter hst hm _ hunseen :=
    hst.entering hunseen hm (Larger.composes.refl _) ((Costs.refl _).mono (Nat.zero_le _))
  leave hst := hst.leaving _
  opens {stack st c} hst hpre _ hhas hunseen := by
    have hadmits : Admits modules st.scene.program c.node := by
      cases c <;> exact hhas
    have hdoes : Does (call hooks c.node (hooks.hook c)) (entering c.node st)
        (fun _ => Counted modules p) fun _ => Counted modules p := by
      refine does_of_state ?_
      rw [exec_call_state]
      exact hst.entering hunseen hadmits (keeps_hook (hookAt_hook hooks c) st.scene)
        (costs_pre hpre st.scene)
    exact hdoes.mono (fun _ _ hst' => ⟨fun _ => hst', fun _ => hst'.leaving _⟩) fun _ _ hst' => hst'
  closes {stack st c} hst hpost := by
    have hdoes : Does (call hooks c.node (hooks.hook c)) st (fun _ => Counted modules p)
        fun _ => Counted modules p := by
      refine does_of_state ?_
      rw [exec_call_state]
      exact hst.after (keeps_hook (hookAt_hook hooks c) st.scene) (costs_post hpost st.scene)
    exact hdoes.mono (fun _ _ hst' => hst'.leaving _) fun _ _ hst' => hst'

/-- One module after another is walked, and nothing but the context changes between them. -/
theorem counted_runModules : ∀ {ms : List ModuleId} {st : WalkState Normalizer}, ms ⊆ modules →
    Counted modules p st →
    Does (pass.runModules ms) st (fun _ => Counted modules p) fun _ => Counted modules p
  | [], _, _, hst => .pure hst
  | m :: ms, st, hms, hst => by
    have hmove : ∀ (step : ContextM Unit) {st : WalkState Normalizer}, Counted modules p st →
        Does (pass.move m step) st (fun _ => Counted modules p) fun _ => Counted modules p :=
      fun step st hst => does_of_state (by
        obtain ⟨htrail, hprogram⟩ := pass.exec_move_state m step st
        exact ⟨hprogram ▸ hst.load, hprogram ▸ htrail ▸ hst.made, hprogram ▸ htrail ▸ hst.entered⟩)
    have hwalk : ∀ {st : WalkState Normalizer}, Counted modules p st →
        Does (Walk.run pass.hooks (.module m)) st (fun _ => Counted modules p)
          fun _ => Counted modules p :=
      fun {st} hst => @Scoped.run _ _ _ _ _ (counted_steps modules p) (.module m) st [] hst
        (hms List.mem_cons_self)
    refine Does.bind ((hmove _ hst).bind fun _ _ hst => (hwalk hst).bind fun _ _ hst =>
      hmove _ hst) fun _ _ hst => ?_
    exact counted_runModules (fun k hk => hms (List.mem_cons_of_mem m hk)) hst

end

/-! ## Every run ends -/

/-- A walk that is unfolded deeper than `run` unfolds it does nothing else. -/
theorem walk_of_depthLimit_le {depth : Nat} (hle : depthLimit ≤ depth) :
    Walk.walk hooks depth = Walk.run hooks := by
  induction depth, hle using Nat.le_induction with
  | base => rfl
  | succ depth hle ih =>
    rw [← ih]
    funext task
    refine Walk.exec_ext fun st => walk_succ depth task st (Nat.le_trans ?_ hle)
    have hroom := st.trail.seen.room_le
    have hweight : task.weight ≤ 3 := by cases task <;> simp [Task.weight]
    simp only [depthOf, depthLimit, UInt32.size] at hroom ⊢
    omega

/-- Whatever the program, the modules and the rules, a run ends: the depth that bounds its walks is
never reached, and more of it would change nothing.  Whether it ends well or halts, it has entered
no more nodes than the modules it was asked for, the symbols, statements and expressions of the
program that it was given, and 5 nodes per `if` and 1 per `while` of that program.  The search
under parentheses ends as well: as many steps as there are expressions find what a loop without a
bound finds. -/
theorem run_ends (r : Rules) (modules : List ModuleId) (p : Program) :
    (exec (pass.runModules modules) (begun r p)).2.trail.tally.total ≤
      modules.length + (p.symbols.size + p.stmts.size + p.exprs.size) +
        5 * p.stmts.toList.countP (·.kind.isIf) + p.stmts.toList.countP (·.kind.isWhile) ∧
    (∀ report, (Normalize.run r modules p).1 = .ok report →
      report.tally = (exec (pass.runModules modules) (begun r p)).2.trail.tally) ∧
    (Normalize.run r modules p).1 ≠ .error .tooDeep ∧
    (∀ depth, depthLimit ≤ depth → Walk.walk hooks depth = Walk.run hooks) ∧
    ∀ (q : Program) (e : ExprId), underParens? q q.exprs.size e =
      (stripParens? q [] e).bind fun inner => (q.expr? inner).map (·.kind) := by
  have hcounted : Counted modules p (exec (pass.runModules modules) (begun r p)).2 := by
    have hdoes := counted_runModules (List.Subset.refl modules) (counted_begun r modules p)
    rcases hexec : exec (pass.runModules modules) (begun r p) with ⟨e | ⟨⟩, st⟩
    · exact hdoes.of_error hexec
    · exact hdoes.of_ok hexec
  refine ⟨?_, fun report hreport => ?_, fun hdeep => ?_, fun _ => walk_of_depthLimit_le,
    fun q e => ?_⟩
  · have htotal := hcounted.total_le
    have hmade := hcounted.made
    have hempty := p.owed_empty_le
    simp only [Program.weight] at htotal hmade hempty
    omega
  · rcases hexec : exec (pass.runModules modules) (begun r p) with ⟨e | ⟨⟩, st⟩ <;>
      rw [run_of_exec hexec] at hreport <;> cases hreport
    rfl
  · obtain ⟨_, _, he, _⟩ := ofShape_of_run hdeep
    cases he
  · rcases underParens?_of_strip q e with ⟨hstrip, hunder⟩ | ⟨inner, x, hstrip, hx, hunder⟩
    · rw [hstrip, hunder]
      rfl
    · rw [hstrip, hunder, Option.bind_some, hx]
      rfl

end Normalize

end MiddleEnd
