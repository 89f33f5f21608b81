import MiddleEnd.Proofs.Normalize.Moved

/-!
# MiddleEnd.Proofs.Normalize.Made

The nodes that the rewrites make.  Between two programs the *fresh* nodes are those that the second
has and the first has not; which they are follows from how many of each category were taken from
the supply.  `Made` says that trees consist of the nodes of other trees and of the fresh ones.
-/

namespace MiddleEnd

open MiddleEnd.Tree

/-- The ids that the next nodes get, so many of each category. -/
def Program.fresh (p : Program) (symbols stmts exprs : Nat) : List NodeId :=
  (List.range' p.symbols.size symbols).map (fun i => .symbol (.ofIndex i)) ++
    (List.range' p.stmts.size stmts).map (fun i => .stmt (.ofIndex i)) ++
    (List.range' p.exprs.size exprs).map (fun i => .expr (.ofIndex i))

namespace Program

variable {p q : Program} {symbols stmts exprs : Nat}

theorem has_symbol (p : Program) (s : SymbolId) :
    p.has (.symbol s) = decide (s.index < p.symbols.size) := by
  rw [has, symbol?, Bool.eq_iff_iff]
  simp

/-- A statement is there if the arena reaches it. -/
theorem has_stmt (p : Program) (s : StmtId) :
    p.has (.stmt s) = decide (s.index < p.stmts.size) := by
  rw [has, stmt?, Bool.eq_iff_iff]
  simp

theorem has_expr (p : Program) (e : ExprId) :
    p.has (.expr e) = decide (e.index < p.exprs.size) := by
  rw [has, expr?, Bool.eq_iff_iff]
  simp

/-- `q` has so many nodes of each category more than `p`. -/
structure More (p q : Program) (symbols stmts exprs : Nat) : Prop where
  modules : q.modules = p.modules
  symbols : q.symbols.size = p.symbols.size + symbols
  stmts : q.stmts.size = p.stmts.size + stmts
  exprs : q.exprs.size = p.exprs.size + exprs

/-- Where nothing was made, the same nodes are there. -/
theorem More.has_eq (h : More p q 0 0 0) (n : NodeId) : q.has n = p.has n := by
  cases n with
  | module m => simp only [has, module?, h.modules]
  | symbol s => rw [has_symbol, has_symbol, h.symbols, Nat.add_zero]
  | stmt s => rw [has_stmt, has_stmt, h.stmts, Nat.add_zero]
  | expr e => rw [has_expr, has_expr, h.exprs, Nat.add_zero]

/-- The nodes that one program has more than the other are the fresh ones. -/
theorem mem_fresh (h : More p q symbols stmts exprs) (hq : q.Addressable) (n : NodeId) :
    n ∈ p.fresh symbols stmts exprs ↔ p.has n = false ∧ q.has n = true := by
  have hsymbols := hq.symbols
  have hstmts := hq.stmts
  have hexprs := hq.exprs
  rw [h.symbols] at hsymbols
  rw [h.stmts] at hstmts
  rw [h.exprs] at hexprs
  cases n with
  | module m => simp [fresh, has, module?, h.modules]
  | symbol s =>
    simp only [fresh, List.mem_append, List.mem_map, List.mem_range'_1, has_symbol, h.symbols,
      decide_eq_false_iff_not, decide_eq_true_iff, NodeId.symbol.injEq, reduceCtorEq, and_false,
      exists_false, or_false]
    constructor
    · rintro ⟨i, hi, rfl⟩
      rw [SymbolId.index_ofIndex (by omega)]
      omega
    · intro hs
      exact ⟨s.index, by omega, SymbolId.index_inj.mp (SymbolId.index_ofIndex (by omega))⟩
  | stmt s =>
    simp only [fresh, List.mem_append, List.mem_map, List.mem_range'_1, has_stmt, h.stmts,
      decide_eq_false_iff_not, decide_eq_true_iff, NodeId.stmt.injEq, reduceCtorEq, and_false,
      exists_false, or_false, false_or]
    constructor
    · rintro ⟨i, hi, rfl⟩
      rw [StmtId.index_ofIndex (by omega)]
      omega
    · intro hs
      exact ⟨s.index, by omega, StmtId.index_inj.mp (StmtId.index_ofIndex (by omega))⟩
  | expr e =>
    simp only [fresh, List.mem_append, List.mem_map, List.mem_range'_1, has_expr, h.exprs,
      decide_eq_false_iff_not, decide_eq_true_iff, NodeId.expr.injEq, reduceCtorEq, and_false,
      exists_false, false_or]
    constructor
    · rintro ⟨i, hi, rfl⟩
      rw [ExprId.index_ofIndex (by omega)]
      omega
    · intro he
      exact ⟨e.index, by omega, ExprId.index_inj.mp (ExprId.index_ofIndex (by omega))⟩

/-- The next nodes differ, as long as they have ids. -/
theorem nodup_fresh (hsymbols : p.symbols.size + symbols ≤ UInt32.size)
    (hstmts : p.stmts.size + stmts ≤ UInt32.size) (hexprs : p.exprs.size + exprs ≤ UInt32.size) :
    (p.fresh symbols stmts exprs).Nodup := by
  have hinj : ∀ {α : Type} {f : Nat → α} {k n : Nat},
      (∀ i < k + n, ∀ j < k + n, f i = f j → i = j) → ((List.range' k n).map f).Nodup := by
    intro α f k n hf
    refine (@List.nodup_range' k n 1 Nat.one_pos).map_on fun i hi j hj he => ?_
    rw [List.mem_range'_1] at hi hj
    exact hf i hi.2 j hj.2 he
  have happend : ∀ {xs ys : List NodeId}, xs.Nodup → ys.Nodup → (∀ n ∈ xs, n ∉ ys) →
      (xs ++ ys).Nodup := fun hxs hys h =>
    List.nodup_append.mpr ⟨hxs, hys, fun n hn m hm he => h n hn (he ▸ hm)⟩
  refine happend (happend (hinj fun i hi j hj he => ?_) (hinj fun i hi j hj he => ?_) ?_)
    (hinj fun i hi j hj he => ?_) ?_
  · have := congrArg SymbolId.index (NodeId.symbol.inj he)
    rwa [SymbolId.index_ofIndex (by omega), SymbolId.index_ofIndex (by omega)] at this
  · have := congrArg StmtId.index (NodeId.stmt.inj he)
    rwa [StmtId.index_ofIndex (by omega), StmtId.index_ofIndex (by omega)] at this
  · intro n hn hm
    obtain ⟨_, _, rfl⟩ := List.mem_map.mp hn
    simp at hm
  · have := congrArg ExprId.index (NodeId.expr.inj he)
    rwa [ExprId.index_ofIndex (by omega), ExprId.index_ofIndex (by omega)] at this
  · intro n hn hm
    obtain ⟨_, _, rfl⟩ := List.mem_map.mp hm
    simp at hn

theorem More.nodup_fresh (h : More p q symbols stmts exprs) (hq : q.Addressable) :
    (p.fresh symbols stmts exprs).Nodup :=
  Program.nodup_fresh (h.symbols ▸ hq.symbols) (h.stmts ▸ hq.stmts) (h.exprs ▸ hq.exprs)

/-- The trees `us` consist of the nodes of `ts` and those that `q` has more than `p`. -/
structure Made (p q : Program) (ts us : List Tree) : Prop where
  nodup : (nodesOf us).Nodup
  mem : ∀ n, n ∈ nodesOf us ↔ n ∈ nodesOf ts ∨ (p.has n = false ∧ q.has n = true)

/-- Trees that consist of the next nodes and of those of other trees are made of these. -/
theorem More.made {ts us : List Tree} (h : More p q symbols stmts exprs) (hq : q.Addressable)
    (hts : (nodesOf ts).Nodup) (hhas : ∀ n ∈ nodesOf ts, p.has n = true)
    (hperm : (nodesOf us).Perm (p.fresh symbols stmts exprs ++ nodesOf ts)) : Made p q ts us where
  nodup := by
    refine hperm.nodup_iff.mpr (List.nodup_append.mpr
      ⟨h.nodup_fresh hq, hts, fun n hn m hm => (ne_of_has (hhas m hm) ?_).symm⟩)
    exact ((mem_fresh h hq n).mp hn).1
  mem n := by
    rw [hperm.mem_iff, List.mem_append, mem_fresh h hq n, or_comm]

end Program

namespace Normalize

open Walk

/-- No node goes away. -/
theorem Larger.has {a b : Scene Normalizer} (h : Larger a b) (n : NodeId)
    (hn : a.program.has n = true) : b.program.has n = true := by
  cases n with
  | module m => simpa only [Program.has, Program.module?, h.modules] using hn
  | symbol s =>
    rw [Program.has_symbol, decide_eq_true_iff] at hn ⊢
    exact Nat.lt_of_lt_of_le hn h.symbols
  | stmt s =>
    rw [Program.has_stmt, decide_eq_true_iff] at hn ⊢
    exact Nat.lt_of_lt_of_le hn h.stmts
  | expr e =>
    rw [Program.has_expr, decide_eq_true_iff] at hn ⊢
    exact Nat.lt_of_lt_of_le hn h.exprs

/-! ## What the rewrites of a statement make -/

/-- Wrapping branches adds the new blocks to the nodes. -/
theorem nodesOf_wrapAll (r : Rules) (ts : List Tree) : ∀ block,
    (nodesOf (wrapAll r block ts)).Perm
      ((List.range' block (ts.countP (wrapped r))).map (fun i => .stmt (.ofIndex i)) ++
        nodesOf ts) := by
  induction ts with
  | nil => exact fun _ => .refl _
  | cons t ts ih =>
    intro block
    by_cases hw : wrapped r t = true
    · rw [wrapAll, if_pos hw, List.countP_cons_of_pos hw, List.range'_succ, List.map_cons,
        List.cons_append, blockTree, nodesOf_node, nodesOf_nil, List.nil_append, List.nil_append]
      refine .cons _ ?_
      rw [nodesOf_cons t ts]
      calc (nodesOf [t] ++ nodesOf (wrapAll r (block + 1) ts)).Perm (nodesOf [t] ++ _) :=
            (ih (block + 1)).append_left _
        List.Perm _ _ := List.perm_append_comm_assoc _ _ _
    · rw [wrapAll, if_neg hw, List.countP_cons_of_neg hw, nodesOf_cons t (wrapAll r block ts),
        nodesOf_cons t ts]
      calc (nodesOf [t] ++ nodesOf (wrapAll r block ts)).Perm (nodesOf [t] ++ _) :=
            (ih block).append_left _
        List.Perm _ _ := List.perm_append_comm_assoc _ _ _

/-- The statements below a statement when it is entered. -/
theorem nodesOf_entered_stmts (r : Rules) (block : Nat) (t : Tree) :
    (nodesOf (entered r block none t).stmts).Perm
      ((List.range' block (blocksFor r t)).map (fun i => .stmt (.ofIndex i)) ++
        nodesOf t.stmts) := by
  obtain ⟨n, l, es, ss, ts⟩ := t
  by_cases hl : l.hasBranches = true
  · simpa [entered, blocksFor, hl] using nodesOf_wrapAll r ts block
  · simp [entered, blocksFor, hl]

variable {p q : Program} {r : Rules} {n : NodeId} {l : Label} {es ss ts : List Tree}

/-- Opening a statement makes the blocks around its branches. -/
theorem made_of_blocks (h : Program.More p q 0 (blocksFor r (.node n l es ss ts)) 0)
    (hq : q.Addressable) (ht : p.Bears [.node n l es ss ts])
    (hnodup : (nodesOf (es ++ ss ++ ts)).Nodup) :
    Program.Made p q (es ++ ss ++ ts) (underEntered r p.stmts.size (.node n l es ss ts)) := by
  obtain ⟨_, hes, hss, hts⟩ := Program.bears_node.mp ht
  have hbears : p.Bears (es ++ ss ++ ts) :=
    Program.bears_append.mpr ⟨Program.bears_append.mpr ⟨hes, hss⟩, hts⟩
  refine h.made hq hnodup (fun m hm => hbears.has hm) ?_
  have hstmts := nodesOf_entered_stmts r p.stmts.size (.node n l es ss ts)
  simp only [Program.fresh, underEntered, nodesOf_append, entered_exprs, exprs_node,
    List.range'_zero, List.map_nil, List.nil_append, List.append_nil]
  calc
    List.Perm (nodesOf es ++ nodesOf ss ++
        nodesOf (entered r p.stmts.size none (.node n l es ss ts)).stmts)
        (nodesOf es ++ nodesOf ss ++ _) := hstmts.append_left _
    List.Perm _ _ := List.perm_append_comm_assoc _ _ _

/-- Hoisting a condition makes a temporary besides. -/
theorem made_of_temp {cond : Tree} (line : UInt32) {s : Supply}
    (h : Program.More p q 1 (blocksFor r (.node n l [cond] ss ts) + 1) 1) (hq : q.Addressable)
    (ht : p.Bears [.node n l [cond] ss ts]) (hnodup : (nodesOf ([cond] ++ ss ++ ts)).Nodup)
    (hsymbols : s.symbols = p.symbols.size)
    (hstmts : s.stmts = p.stmts.size + blocksFor r (.node n l [cond] ss ts))
    (hexprs : s.exprs = p.exprs.size) :
    Program.Made p q ([cond] ++ ss ++ ts) ([(newTemp.run s).1.refTree line] ++ ss ++
      (entered r p.stmts.size none (.node n l [cond] ss ts)).stmts ++
      [(newTemp.run s).1.declTree line [cond]]) := by
  obtain ⟨_, hes, hss, hts⟩ := Program.bears_node.mp ht
  have hbears : p.Bears ([cond] ++ ss ++ ts) :=
    Program.bears_append.mpr ⟨Program.bears_append.mpr ⟨hes, hss⟩, hts⟩
  refine h.made hq hnodup (fun m hm => hbears.has hm) ?_
  have hheld := nodesOf_entered_stmts r p.stmts.size (.node n l [cond] ss ts)
  refine List.perm_iff_count.mpr fun m => ?_
  have hcount := hheld.count_eq m
  simp only [run_newTemp, Temp.refTree, Temp.declTree, Temp.varTree, Program.fresh, nodesOf_append,
    nodesOf_node, nodesOf_nil, hsymbols, hstmts, hexprs, List.range'_1_concat, List.range'_zero,
    Nat.add_zero, stmts_node, List.map_append, List.map_cons, List.map_nil, List.count_append,
    List.count_cons, List.count_nil] at hcount ⊢
  omega

/-! ## Walking on -/

section

variable {st st₁ st₂ : WalkState Normalizer} {H K : NodeId → Prop} {us : List Tree}

/-- What was made below a node is not that node, and was not entered before. -/
theorem apart_of_made {q : Program} (hready : Ready H st [.node n l es ss ts])
    (hmade : Program.Made st.scene.program q (es ++ ss ++ ts) us) {m : NodeId}
    (hm : m ∈ nodesOf us) : m ≠ n ∧ st.trail.seen.contains m = false := by
  rcases (hmade.mem m).mp hm with hts | ⟨hnew, _⟩
  · refine ⟨fun he => (nodup_node.mp hready.nodup).1 (he ▸ hts), hready.unseen m ?_⟩
    rw [nodesOf_node, nodesOf_nil, List.append_nil, ← nodesOf_append, ← nodesOf_append]
    exact List.mem_cons_of_mem _ hts
  · refine ⟨(Program.ne_of_has (hready.bears.has (by simp)) hnew).symm, ?_⟩
    by_contra hseen
    exact Program.ne_of_has (hready.sound m (by simpa using hseen)) hnew rfl

/-- What was made below a node when it was entered is still to be visited. -/
theorem ready_of_made (hready : Ready H st [.node n l es ss ts]) (henter : Moved (· = n) K st st₁)
    (hmade : Program.Made st.scene.program st₁.scene.program (es ++ ss ++ ts) us)
    (hbears : st₁.scene.program.Bears us) : Ready (· = n) st₁ us where
  bears := hbears
  nodup := hmade.nodup
  unseen m hm := by
    obtain ⟨hne, hunseen⟩ := apart_of_made hready hmade hm
    by_contra hs
    rcases (henter.seen m).mp (by simpa using hs) with hseen | he
    · exact NodeSet.ne_of_contains hseen hunseen rfl
    · exact hne he
  sound := henter.sound hready.sound
  held m hm := (henter.seen m).mpr (.inr hm)

/-- What is entered with a node is the node, what is below it, and what was made there. -/
theorem entered_of_made
    (hmade : Program.Made st.scene.program st₁.scene.program (es ++ ss ++ ts) us)
    (hold : ∀ m, st.scene.program.has m = true → st₁.scene.program.has m = true)
    (hmono : ∀ m, st₁.scene.program.has m = true → st₂.scene.program.has m = true) (m : NodeId) :
    m = n ∨ Entered st₁ st₂ us m ↔ Entered st st₂ [.node n l es ss ts] m := by
  have hm := hold m
  have hm' := hmono m
  simp only [Entered, hmade.mem, nodesOf_node, nodesOf_nil, List.append_nil, List.mem_cons,
    nodesOf_append]
  revert hm hm'
  cases st.scene.program.has m <;> cases st₁.scene.program.has m <;>
    cases st₂.scene.program.has m <;> simp

end

end Normalize

end MiddleEnd
