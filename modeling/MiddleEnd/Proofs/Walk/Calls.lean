import Mathlib.Data.Set.Card
import MiddleEnd.Proofs.Walk.Log
import MiddleEnd.Proofs.Tree.Position

/-!
# MiddleEnd.Proofs.Walk.Calls

The hook calls at trees, without a walk.  `callsOf` lists them by recursion: at each node the first
hook, then what the node owns (expressions, symbols, statements), then the last hook.  Where modules
unfold to trees, these are two calls at each node that is reached, and each place that a hook is
told holds the node that it is called at (`meetsEach_of_unfolds`).
-/

namespace MiddleEnd

open MiddleEnd.Tree

/-- The first hook call at a node that is held in a position. -/
def NodeId.opening : NodeId → Position → List Call
  | .symbol s, _ => [.preSymbol s]
  | .stmt s, .stmt place => [.preStmt s place]
  | .expr e, .expr place => [.preExpr e place]
  | _, _ => []

/-- The last hook call at a node. -/
def NodeId.closing : NodeId → List Call
  | .module _ => []
  | .symbol s => [.postSymbol s]
  | .stmt s => [.postStmt s]
  | .expr e => [.postExpr e]

namespace Tree

mutual

/-- The hook calls at a tree that is held in a position. -/
def calls : Tree → Position → List Call
  | node n l es ss ts, pos => n.opening pos ++
      (callsFrom (fun i => .expr (n.exprPlace i)) 0 es ++ callsFrom n.symbolPosition 0 ss ++
        callsFrom (fun i => .stmt (n.stmtPlace l i)) 0 ts) ++ n.closing

/-- The hook calls at trees that are held in positions, counted from an index on. -/
def callsFrom : (Nat → Position) → Nat → List Tree → List Call
  | _, _, [] => []
  | pos, i, t :: ts => calls t (pos i) ++ callsFrom pos (i + 1) ts

end

/-- The hook calls at modules.  A module has no hooks of its own. -/
def callsOf (modules : List Tree) : List Call :=
  modules.flatMap fun t => callsFrom t.id.symbolPosition 0 t.symbols

/-- The calls at one tree in a row are those at the tree. -/
theorem callsFrom_singleton (pos : Nat → Position) (i : Nat) (t : Tree) :
    callsFrom pos i [t] = calls t (pos i) := by
  simp [callsFrom]

end Tree

/-! ## Every node once -/

/-- Calls of the first and of the last hook of each node, told of places that hold them. -/
structure Program.Covered (p : Program) (ns : List NodeId) (cs : List Call) : Prop where
  pre : ((cs.filter Call.isPre).map Call.node).Perm ns
  post : ((cs.filter fun c => !c.isPre).map Call.node).Perm ns
  held : ∀ c ∈ cs, ∀ pos, c.place? = some pos → p.heldAt? pos = some c.node

/-- The calls are at the nodes reached from modules, each with its first and its last hook called
once, and told of places that hold them. -/
structure Program.MeetsEach (p : Program) (modules : List ModuleId) (cs : List Call) : Prop where
  pre : ∀ n, p.Reaches modules n → (∀ m, n ≠ .module m) →
    cs.countP (fun c => c.isPre && c.node = n) = 1
  post : ∀ n, p.Reaches modules n → (∀ m, n ≠ .module m) →
    cs.countP (fun c => !c.isPre && c.node = n) = 1
  reached : ∀ c ∈ cs, p.Reaches modules c.node
  held : ∀ c ∈ cs, ∀ pos, c.place? = some pos → p.heldAt? pos = some c.node

namespace Program

variable {p : Program} {ns ms : List NodeId} {cs ds : List Call} {pos : Position} {n : NodeId}
  {modules : List ModuleId}

theorem Covered.nil : p.Covered [] [] := ⟨.nil, .nil, nofun⟩

/-- Calls at nodes that are told apart cover them one after the other. -/
theorem Covered.append (h : p.Covered ns cs) (h' : p.Covered ms ds) :
    p.Covered (ns ++ ms) (cs ++ ds) where
  pre := by
    rw [List.filter_append, List.map_append]
    exact h.pre.append h'.pre
  post := by
    rw [List.filter_append, List.map_append]
    exact h.post.append h'.post
  held c hc := (List.mem_append.mp hc).elim (h.held c) (h'.held c)

/-- A node that is held has a first and a last hook, and the first is told where. -/
theorem opening_closing (h : p.heldAt? pos = some n) : ∃ c d : Call, n.opening pos = [c] ∧
    n.closing = [d] ∧ c.node = n ∧ d.node = n ∧ c.isPre = true ∧ d.isPre = false ∧
      (∀ pos', c.place? = some pos' → pos' = pos) ∧ d.place? = none := by
  cases pos with
  | symbol list i =>
    obtain ⟨x, _, rfl⟩ := Option.map_eq_some_iff.mp h
    exact ⟨.preSymbol x, .postSymbol x, rfl, rfl, rfl, rfl, rfl, rfl, nofun, rfl⟩
  | declared s =>
    obtain ⟨x, _, rfl⟩ := Option.map_eq_some_iff.mp h
    exact ⟨.preSymbol x, .postSymbol x, rfl, rfl, rfl, rfl, rfl, rfl, nofun, rfl⟩
  | stmt place =>
    obtain ⟨x, _, rfl⟩ := Option.map_eq_some_iff.mp h
    exact ⟨.preStmt x place, .postStmt x, rfl, rfl, rfl, rfl, rfl, rfl,
      fun _ h => (Option.some.inj h).symm, rfl⟩
  | expr place =>
    obtain ⟨x, _, rfl⟩ := Option.map_eq_some_iff.mp h
    exact ⟨.preExpr x place, .postExpr x, rfl, rfl, rfl, rfl, rfl, rfl,
      fun _ h => (Option.some.inj h).symm, rfl⟩

/-- Calls at a node around calls at the nodes below it. -/
theorem Covered.node (h : p.Covered ns cs) (hheld : p.heldAt? pos = some n) :
    p.Covered (n :: ns) (n.opening pos ++ cs ++ n.closing) := by
  obtain ⟨c, d, hopening, hclosing, rfl, hd, hpre, hpost, hplace, hno⟩ := opening_closing hheld
  rw [hopening, hclosing]
  refine ⟨?_, ?_, fun e he pos' hpos' => ?_⟩
  · simpa [List.filter_append, hpre, hpost] using h.pre
  · have hperm := (List.perm_append_singleton c.node _).trans (h.post.cons c.node)
    simpa [List.filter_append, hpre, hpost, hd] using hperm
  · simp only [List.mem_append, List.mem_singleton] at he
    rcases he with (rfl | he) | rfl
    · rw [hplace pos' hpos', hheld]
    · exact h.held e he pos' hpos'
    · rw [hno] at hpos'
      cases hpos'

/-- Calls at trees that stand in positions. -/
theorem covered_callsFrom {at? : Nat → Position} : ∀ {us : List Tree} {i : Nat},
    (∀ u ∈ us, ∀ pos, p.heldAt? pos = some u.id → p.Covered (nodesOf [u]) (calls u pos)) →
    (∀ k m, (us.map Tree.id)[k]? = some m → p.heldAt? (at? (i + k)) = some m) →
    p.Covered (nodesOf us) (callsFrom at? i us)
  | [], _, _, _ => .nil
  | u :: us, i, hus, hheld => by
    rw [nodesOf_cons, callsFrom]
    refine (hus u List.mem_cons_self _ (hheld 0 u.id rfl)).append
      (covered_callsFrom (fun v hv => hus v (List.mem_cons_of_mem u hv)) fun k m hk => ?_)
    rw [Nat.add_assoc, Nat.add_comm 1]
    exact hheld (k + 1) m hk

/-- The calls at a tree cover its nodes. -/
theorem covered_calls (t : Tree) : ∀ pos, p.Bears [t] → p.heldAt? pos = some t.id →
    p.Covered (nodesOf [t]) (calls t pos) := by
  induction t using Tree.induction with
  | step n l es ss us he hs hu =>
    intro pos hbears hheld
    obtain ⟨hc, hes, hss, hus⟩ := bears_node.mp hbears
    have hnodes : nodesOf [.node n l es ss us] = n :: (nodesOf es ++ nodesOf ss ++ nodesOf us) := by
      simp
    rw [hnodes, calls]
    refine Covered.node ((Covered.append ?_ ?_).append ?_) hheld
    · exact covered_callsFrom (fun u hu pos => he u hu pos (hes.mem hu)) fun k m hk => by
        rw [Nat.zero_add]
        exact (held_exprPlace hc hk).2
    · exact covered_callsFrom (fun u hu pos => hs u hu pos (hss.mem hu)) fun k m hk => by
        rw [Nat.zero_add]
        exact (held_symbolPosition hc hk).2
    · exact covered_callsFrom (fun u hu' pos => hu u hu' pos (hus.mem hu')) fun k m hk => by
        rw [Nat.zero_add]
        exact (held_stmtPlace hc hk).2

/-- The calls at modules cover all nodes below them. -/
theorem covered_callsOf {ts : List Tree} (h : p.Bears ts)
    (hroots : ∀ t ∈ ts, ∃ m, t.id = .module m) :
    p.Covered (ts.flatMap fun t => nodesOf t.symbols) (callsOf ts) := by
  induction ts with
  | nil => exact .nil
  | cons t ts ih =>
    have hcalls : callsOf (t :: ts) = callsFrom t.id.symbolPosition 0 t.symbols ++ callsOf ts := rfl
    rw [List.flatMap_cons, hcalls]
    refine Covered.append ?_
      (ih (bears_cons.mp h).2 fun u hu => hroots u (List.mem_cons_of_mem t hu))
    obtain ⟨n, l, es, ss, us⟩ := t
    obtain ⟨hc, _, hss, _⟩ := bears_node.mp (bears_cons.mp h).1
    refine covered_callsFrom (fun u hu pos => covered_calls u pos (hss.mem hu)) fun k m hk => ?_
    rw [Nat.zero_add]
    exact (held_symbolPosition hc hk).2

/-- The nodes of modules are the modules and what is below their symbols. -/
theorem nodesOf_modules {ts : List Tree} (h : p.Bears ts)
    (hroots : ∀ t ∈ ts, ∃ m, t.id = .module m) :
    (nodesOf ts).Perm (ts.map Tree.id ++ ts.flatMap fun t => nodesOf t.symbols) := by
  induction ts with
  | nil => exact .nil
  | cons t ts ih =>
    have hts := ih (bears_cons.mp h).2 fun u hu => hroots u (List.mem_cons_of_mem t hu)
    obtain ⟨m, hm⟩ := hroots t List.mem_cons_self
    obtain ⟨n, l, es, ss, us⟩ := t
    obtain rfl : n = .module m := hm
    obtain ⟨x, _, hxcell⟩ := cell?_module (bears_node.mp (bears_cons.mp h).1).1
    obtain rfl : es = [] := by simpa [Node.cell] using congrArg Cell.exprs hxcell
    obtain rfl : us = [] := by simpa [Node.cell] using congrArg Cell.stmts hxcell
    have hnodes : nodesOf [.node (.module m) l [] ss []] = .module m :: nodesOf ss := by simp
    rw [nodesOf_cons, hnodes]
    change (NodeId.module m :: (nodesOf ss ++ nodesOf ts)).Perm (NodeId.module m ::
      (ts.map Tree.id ++ (nodesOf ss ++ ts.flatMap fun t => nodesOf t.symbols)))
    refine List.Perm.cons _ ((hts.append_left _).trans ?_)
    rw [← List.append_assoc, ← List.append_assoc]
    exact List.perm_append_comm.append_right _

/-- The calls at modules that are trees meet each node that is reached from them. -/
theorem meetsEach_of_unfolds {ts : List Tree} (hts : p.Unfolds modules ts) :
    p.MeetsEach modules (callsOf ts) := by
  have hroots : ∀ t ∈ ts, ∃ m, t.id = .module m := fun t ht => by
    obtain ⟨m, _, hm⟩ := List.mem_map.mp (hts.roots ▸ List.mem_map_of_mem ht)
    exact ⟨m, hm.symm⟩
  have hcovered := covered_callsOf hts.bears hroots
  have hperm := nodesOf_modules hts.bears hroots
  have hnodup := (List.nodup_append.mp (hperm.nodup_iff.mp hts.nodup)).2.1
  have hmem : ∀ n, p.Reaches modules n → (∀ m, n ≠ .module m) →
      n ∈ ts.flatMap fun t => nodesOf t.symbols := fun n hn hmodule => by
    rcases List.mem_append.mp (hperm.mem_iff.mp ((reaches_iff hts).mp hn)) with h | h
    · obtain ⟨t, ht, rfl⟩ := List.mem_map.mp h
      obtain ⟨m, hm⟩ := hroots t ht
      exact absurd hm (hmodule m)
    · exact h
  -- as many calls at a node as the list of nodes has it
  have hcount : ∀ (q : Call → Bool) (n : NodeId),
      (((callsOf ts).filter q).map Call.node).Perm (ts.flatMap fun t => nodesOf t.symbols) →
      n ∈ (ts.flatMap fun t => nodesOf t.symbols) →
      (callsOf ts).countP (fun c => q c && c.node = n) = 1 := fun q n hq hn => by
    rw [← List.count_eq_one_of_mem hnodup hn, ← hq.count_eq, List.count_eq_countP, List.countP_map,
      List.countP_filter]
    refine List.countP_congr fun c _ => ?_
    simp [and_comm]
  refine ⟨fun n hn hmodule => hcount _ n hcovered.pre (hmem n hn hmodule),
    fun n hn hmodule => hcount _ n hcovered.post (hmem n hn hmodule), fun c hc => ?_, hcovered.held⟩
  rw [reaches_iff hts, hperm.mem_iff]
  refine List.mem_append_right _ ?_
  have hmem' : ∀ {q : Call → Bool}, q c = true → c.node ∈ ((callsOf ts).filter q).map Call.node :=
    fun hq => List.mem_map_of_mem (List.mem_filter.mpr ⟨hc, hq⟩)
  cases hpre : c.isPre with
  | true => exact hcovered.pre.mem_iff.mp (hmem' hpre)
  | false => exact hcovered.post.mem_iff.mp (hmem' (by simp [hpre]))

/-- Where modules unfold to trees, the nodes reached in a part of a walk are counted on the
trees. -/
theorem ncard_reaches {ts : List Tree} (hts : p.Unfolds modules ts) (step : Step) :
    {n | p.Reaches modules n ∧ n.step = step}.ncard = (nodesOf ts).countP (·.step = step) := by
  have hset : {n | p.Reaches modules n ∧ n.step = step} =
      ((nodesOf ts).filter (·.step = step)).toFinset := by
    ext n
    simp [reaches_iff hts]
  rw [hset, Set.ncard_coe_finset, List.toFinset_card_of_nodup (hts.nodup.filter _),
    List.countP_eq_length_filter]

end Program

end MiddleEnd
