import MiddleEnd.Proofs.Tree.Unfold
import MiddleEnd.Proofs.Walk.Visit

/-!
# MiddleEnd.Proofs.Walk.Forest

A walk that only looks, and that ends well, went through trees.  `Due` names the nodes that a task
is about, and `forest_of_ok` finds, by induction on the walk, the trees at those nodes: the program
bears them, no node occurs in them twice, and the nodes entered by the walk are theirs.
-/

namespace MiddleEnd

open MiddleEnd.Tree

/-- The nodes that a task is about, each of which the walk has yet to enter. -/
def Program.Due (p : Program) : Task → List NodeId → Prop
  | .module m, ns => ns = [.module m]
  | .symbol s, ns => ns = [.symbol s]
  | .stmt place, ns => ns = (p.stmtAt? place).toList.map .stmt
  | .expr place, ns => ns = (p.exprAt? place).toList.map .expr
  | .symbols list, ns => ns = (p.symbolsIn list).map .symbol
  | .symbolsFrom list c, ns => ∃ done todo, p.symbolsIn list = done ++ todo ∧
      (done ++ todo).Nodup ∧ c.Splits done todo ∧ ns = todo.map .symbol
  | .stmts list, ns => ns = (p.stmtsIn list).map .stmt
  | .stmtsFrom list c, ns => ∃ done todo, p.stmtsIn list = done ++ todo ∧
      (done ++ todo).Nodup ∧ c.Splits done todo ∧ ns = todo.map .stmt
  | .operandsFrom owner i, ns => ns = ((p.operands owner).drop i).map .expr

namespace Walk

variable {σ : Type}

/-! ## Hooks that look -/

/-- A hook that looks leaves the program. -/
theorem exec_looking (look : Program → ObserverM σ Unit) (scene : Scene σ) :
    exec (HookM.looking look) scene = ((exec (look scene.program) scene.own).1,
      ⟨scene.program, (exec (look scene.program) scene.own).2⟩) := rfl

/-- A look that accepts moves the own state of the pass. -/
theorem exec_looking_ok (look : Program → ObserverM σ Unit) {p : Program} {own own' : σ}
    (h : exec (look p) own = (.ok (), own')) :
    exec (HookM.looking look) ⟨p, own⟩ = (.ok (), ⟨p, own'⟩) := by
  rw [exec_looking, h]

/-- A node that was entered has a cell. -/
theorem cell?_of_enter {h : Hooks σ} {n : NodeId} {st st' : WalkState σ}
    (he : exec (enter h n) st = (.ok (), st')) : ∃ c, st.scene.program.cell? n = some c :=
  Program.exists_cell? (of_exec_enter_ok he).1

/-- Entering a node does not touch the scene. -/
theorem scene_of_enter {h : Hooks σ} {n : NodeId} {st st' : WalkState σ}
    (he : exec (enter h n) st = (.ok (), st')) : st'.scene = st.scene := by
  obtain ⟨_, _, rfl⟩ := of_exec_enter_ok he
  rfl

/-- A hook that looks leaves the trail and the program. -/
theorem exec_call_looking {o : Observer σ} {n : NodeId} {hook : HookM σ Unit}
    (hh : HookAt o.toHooks n hook) {st st' : WalkState σ} {r : Except Halt Unit}
    (hx : exec (call o.toHooks n hook) st = (r, st')) :
    st'.trail = st.trail ∧ st'.scene.program = st.scene.program := by
  have hlook : ∃ look, hook = HookM.looking look := by
    cases hh with
    | preSymbol s => exact ⟨(o.preSymbol · s), rfl⟩
    | postSymbol s => exact ⟨(o.postSymbol · s), rfl⟩
    | preStmt s place => exact ⟨(o.preStmt · s place), rfl⟩
    | postStmt s => exact ⟨(o.postStmt · s), rfl⟩
    | preExpr e place => exact ⟨(o.preExpr · e place), rfl⟩
    | postExpr e => exact ⟨(o.postExpr · e), rfl⟩
  obtain ⟨look, rfl⟩ := hlook
  rw [exec_call, exec_looking] at hx
  generalize exec (look st.scene.program) st.scene.own = r at hx
  obtain ⟨(_ | _) | _, own⟩ := r <;> cases hx <;> exact ⟨rfl, rfl⟩

/-! ## Trees that a walk went through -/

/-- From `st` to `st'` a walk entered the nodes of trees that the program bears, and changed
nothing. -/
structure Through (st st' : WalkState σ) (ts : List Tree) : Prop where
  program : st'.scene.program = st.scene.program
  bears : st.scene.program.Bears ts
  nodup : (nodesOf ts).Nodup
  unseen : ∀ n ∈ nodesOf ts, st.trail.seen.contains n = false
  seen : ∀ n, st'.trail.seen.contains n = (decide (n ∈ nodesOf ts) || st.trail.seen.contains n)

namespace Through

variable {st st₁ st₂ : WalkState σ} {ts us : List Tree}

theorem refl (st : WalkState σ) : Through st st [] :=
  ⟨rfl, Program.bears_nil, List.nodup_nil, by simp, by simp⟩

/-- A walk goes through trees one after the other. -/
theorem trans (h : Through st st₁ ts) (h' : Through st₁ st₂ us) : Through st st₂ (ts ++ us) := by
  -- what the second walk enters was not entered by the first
  have hus : ∀ n ∈ nodesOf us, n ∉ nodesOf ts ∧ st.trail.seen.contains n = false := by
    intro n hn
    have := h'.unseen n hn
    rw [h.seen] at this
    simpa using this
  refine ⟨h'.program.trans h.program, ?_, ?_, ?_, ?_⟩
  · exact Program.bears_append.mpr ⟨h.bears, h.program ▸ h'.bears⟩
  · rw [nodesOf_append, List.nodup_append]
    refine ⟨h.nodup, h'.nodup, fun n hn m hm he => ?_⟩
    exact (hus m hm).1 (he ▸ hn)
  · intro n hn
    rw [nodesOf_append, List.mem_append] at hn
    exact hn.elim (h.unseen n) fun hn => (hus n hn).2
  · intro n
    rw [h'.seen, h.seen, nodesOf_append, ← Bool.or_assoc]
    congr 1
    rw [← Bool.decide_or]
    simp only [List.mem_append, or_comm]

/-- Going through trees leaves no more room. -/
theorem room_le (h : Through st st₁ ts) : st₁.trail.seen.room ≤ st.trail.seen.room :=
  NodeSet.room_anti fun n hn => by rw [h.seen, hn, Bool.or_true]

/-- What is entered and what stands is all that counts. -/
theorem congr {st' st₂' : WalkState σ} (h : Through st st₂ ts)
    (hseen : st'.trail.seen = st.trail.seen) (hprogram : st'.scene.program = st.scene.program)
    (hseen₂ : st₂'.trail.seen = st₂.trail.seen)
    (hprogram₂ : st₂'.scene.program = st₂.scene.program) : Through st' st₂' ts where
  program := by rw [hprogram₂, h.program, hprogram]
  bears := hprogram ▸ h.bears
  nodup := h.nodup
  unseen := hseen ▸ h.unseen
  seen := by rw [hseen₂, hseen]; exact h.seen

/-- Hooks that look and leaving a node count for nothing. -/
theorem call {o : Observer σ} {n : NodeId} {hook : HookM σ Unit} {r : Except Halt Unit}
    (h : Through st st₁ ts) (hh : HookAt o.toHooks n hook)
    (hx : exec (Walk.call o.toHooks n hook) st₁ = (r, st₂)) : Through st st₂ ts := by
  obtain ⟨ht, hp⟩ := exec_call_looking hh hx
  exact ⟨hp.trans h.program, h.bears, h.nodup, h.unseen, ht ▸ h.seen⟩

/-- A hook that is called before changes nothing about the trees. -/
theorem after_call {o : Observer σ} {n : NodeId} {hook : HookM σ Unit} {r : Except Halt Unit}
    (h : Through st₁ st₂ ts) (hh : HookAt o.toHooks n hook)
    (hx : exec (Walk.call o.toHooks n hook) st = (r, st₁)) : Through st st₂ ts := by
  obtain ⟨ht, hp⟩ := exec_call_looking hh hx
  exact ⟨h.program.trans hp, hp ▸ h.bears, h.nodup, ht ▸ h.unseen, ht ▸ h.seen⟩

theorem leave {n : NodeId} (h : Through st st₁ ts)
    (hx : exec (Walk.leave n) st₁ = (.ok (), st₂)) : Through st st₂ ts := by
  cases hx
  exact ⟨h.program, h.bears, h.nodup, h.unseen, h.seen⟩

/-- A node entered with everything it owns is a tree. -/
theorem node {h : Hooks σ} {n : NodeId} {c : Cell} {es ss ts : List Tree}
    (henter : exec (enter h n) st = (.ok (), st₁)) (hc : st.scene.program.cell? n = some c)
    (hin : Through st₁ st₂ (es ++ ss ++ ts)) (he : c.exprs = es.map Tree.id)
    (hs : c.symbols = ss.map Tree.id) (ht : c.stmts = ts.map Tree.id) :
    Through st st₂ [.node n c.label es ss ts] := by
  obtain ⟨_, hn, rfl⟩ := of_exec_enter_ok henter
  have hbelow : ∀ m ∈ nodesOf (es ++ ss ++ ts), m ≠ n ∧ st.trail.seen.contains m = false := by
    intro m hm
    have := hin.unseen m hm
    rw [NodeSet.contains_insert] at this
    simpa using this
  have hnodes : nodesOf [.node n c.label es ss ts] = n :: nodesOf (es ++ ss ++ ts) := by
    simp [nodesOf_append]
  have hbears := hin.bears
  rw [Program.bears_append, Program.bears_append] at hbears
  refine ⟨hin.program, ?_, ?_, ?_, ?_⟩
  · rw [Program.bears_node, ← he, ← hs, ← ht]
    exact ⟨hc, hbears.1.1, hbears.1.2, hbears.2⟩
  · rw [hnodes, List.nodup_cons]
    exact ⟨fun hm => (hbelow n hm).1 rfl, hin.nodup⟩
  · intro m hm
    rw [hnodes, List.mem_cons] at hm
    exact hm.elim (fun he => he ▸ hn) fun hm => (hbelow m hm).2
  · intro m
    rw [hin.seen, NodeSet.contains_insert, hnodes, ← Bool.or_assoc]
    congr 1
    rw [← Bool.decide_or]
    simp only [List.mem_cons, or_comm]

end Through

/-! ## A walk that ends well -/

/-- Statements held in places are walked through as trees if each of them is. -/
theorem through_places {rest : Task → WalkM σ Unit} :
    ∀ {places : List StmtPlace} {st st' : WalkState σ},
      (∀ place (st₁ st₂ : WalkState σ), st₁.trail.seen.room ≤ st.trail.seen.room →
        exec (rest (.stmt place)) st₁ = (.ok (), st₂) →
        ∃ ts, ts.map Tree.id = (st₁.scene.program.stmtAt? place).toList.map .stmt ∧
          Through st₁ st₂ ts) →
      exec (places.forM fun place => rest (.stmt place)) st = (.ok (), st') →
      ∃ ts, ts.map Tree.id = (places.filterMap st.scene.program.stmtAt?).map .stmt ∧
        Through st st' ts
  | [], st, st', _, hok => by
    cases hok
    exact ⟨[], rfl, .refl st⟩
  | place :: places, st, st', hrest, hok => by
    obtain ⟨_, st₁, h₁, hok⟩ := ok_of_exec_bind hok
    obtain ⟨ts, hts, ht⟩ := hrest place st st₁ (Nat.le_refl _) h₁
    obtain ⟨us, hus, hu⟩ := through_places (fun place st₂ st₃ hle =>
      hrest place st₂ st₃ (Nat.le_trans hle ht.room_le)) hok
    refine ⟨ts ++ us, ?_, ht.trans hu⟩
    rw [List.map_append, hts, hus, ht.program]
    cases hs : st.scene.program.stmtAt? place <;> simp [hs]

/-- What a statement owns is walked through as trees if every task is. -/
theorem through_inside {rest : Task → WalkM σ Unit} {s : StmtId} {st st' : WalkState σ}
    (hrest : ∀ task (st₁ st₂ : WalkState σ) ns, st₁.trail.seen.room ≤ st.trail.seen.room →
      st₁.scene.program.Due task ns → exec (rest task) st₁ = (.ok (), st₂) →
      ∃ ts, ts.map Tree.id = ns ∧ Through st₁ st₂ ts)
    (hok : exec (inside rest s) st = (.ok (), st')) :
    ∃ es ss ts, es.map Tree.id = (st.scene.program.operands (.stmt s)).map .expr ∧
      ss.map Tree.id = (st.scene.program.declared? s).toList.map .symbol ∧
      ts.map Tree.id = (st.scene.program.heldStmts s).map .stmt ∧
      Through st st' (es ++ ss ++ ts) := by
  obtain ⟨_, st₁, h₁, hok⟩ := ok_of_exec_bind hok
  obtain ⟨_, st₂, h₂, h₃⟩ := ok_of_exec_bind hok
  obtain ⟨es, hes, he⟩ := hrest _ _ _ _ (Nat.le_refl _) (by simp only [Program.Due]; rfl) h₁
  have hdeclared : ∃ ss : List Tree,
      ss.map Tree.id = (st.scene.program.declared? s).toList.map .symbol ∧ Through st₁ st₂ ss := by
    rw [throughDeclared, exec_bind_ok (exec_program st₁), he.program] at h₂
    cases hd : st.scene.program.declared? s with
    | none =>
      rw [hd] at h₂
      cases h₂
      exact ⟨[], rfl, .refl st₁⟩
    | some y =>
      rw [hd] at h₂
      exact hrest (.symbol y) _ _ _ he.room_le rfl h₂
  obtain ⟨ss, hss, hs⟩ := hdeclared
  have hroom := Nat.le_trans hs.room_le he.room_le
  have hp₂ : st₂.scene.program = st.scene.program := hs.program.trans he.program
  have hchildren : ∃ ts : List Tree,
      ts.map Tree.id = (st.scene.program.heldStmts s).map .stmt ∧ Through st₂ st' ts := by
    rw [throughChildren, exec_bind_ok (exec_program st₂), hp₂] at h₃
    rw [Program.heldStmts]
    cases hc : st.scene.program.children s with
    | none =>
      rw [hc] at h₃
      cases h₃
      exact ⟨[], rfl, .refl _⟩
    | list list =>
      rw [hc] at h₃
      exact hrest (.stmts list) _ _ _ hroom (hp₂ ▸ rfl) h₃
    | places places =>
      rw [hc] at h₃
      rw [← hp₂]
      exact through_places (fun place st₃ st₄ hle h₄ =>
        hrest (.stmt place) _ _ _ (Nat.le_trans hle hroom) rfl h₄) h₃
  obtain ⟨ts, hts, ht⟩ := hchildren
  refine ⟨es, ss, ts, ?_, hss, hts, (he.trans hs).trans ht⟩
  simpa using hes

/-- A task that ends well from a state went through trees at the nodes it was about. -/
def Forested (o : Observer σ) (task : Task) (st : WalkState σ) : Prop :=
  ∀ st' ns, st.scene.program.Due task ns → exec (run o.toHooks task) st = (.ok (), st') →
    ∃ ts, ts.map Tree.id = ns ∧ Through st st' ts

section

variable {o : Observer σ} {st : WalkState σ}

/-- A module is gone through with what it lists. -/
theorem forested_module {m : ModuleId} (ih : Below (Forested o) (.module m) st) :
    Forested o (.module m) st := by
  rintro st' _ rfl hok
  rw [run_eq] at hok
  obtain ⟨_, st₁, henter, hok⟩ := ok_of_exec_bind hok
  obtain ⟨_, st₂, h₂, hleave⟩ := ok_of_exec_bind hok
  obtain ⟨c, hc⟩ := cell?_of_enter henter
  obtain ⟨ss, hss, hs⟩ : ∃ ts, _ ∧ Through st₁ st₂ ts :=
    ih.later (t := .symbols (.module m)) (room_lt_of_exec_enter henter) _ _ rfl h₂
  rw [scene_of_enter henter, ← Program.symbols_of_cell? (.module m) hc] at hss
  obtain ⟨x, hx, rfl⟩ := Program.cell?_module hc
  have hbelow : Through st₁ st₂ ([] ++ ss ++ []) := by simpa using hs
  have htree := Through.node henter hc hbelow rfl hss.symm rfl
  exact ⟨_, rfl, htree.leave hleave⟩

/-- A symbol is gone through with what it lists and with its body. -/
theorem forested_symbol {s : SymbolId} (ih : Below (Forested o) (.symbol s) st) :
    Forested o (.symbol s) st := by
  rintro st' _ rfl hok
  rw [run_eq] at hok
  obtain ⟨_, st₁, henter, hok⟩ := ok_of_exec_bind hok
  obtain ⟨_, st₂, h₂, hok⟩ := ok_of_exec_bind hok
  obtain ⟨_, st₃, h₃, hok⟩ := ok_of_exec_bind hok
  obtain ⟨_, st₄, h₄, hok⟩ := ok_of_exec_bind hok
  obtain ⟨_, st₅, h₅, hleave⟩ := ok_of_exec_bind hok
  obtain ⟨c, hc⟩ := cell?_of_enter henter
  obtain ⟨ht₂, hp₂⟩ := exec_call_looking (.preSymbol s) h₂
  rw [scene_of_enter henter] at hp₂
  have hroom : st₂.trail.seen.room < st.trail.seen.room := ht₂ ▸ room_lt_of_exec_enter henter
  obtain ⟨ss, hss, hs⟩ : ∃ ts, _ ∧ Through st₂ st₃ ts :=
    ih.later (t := .symbols (.symbol s)) hroom _ _ rfl h₃
  obtain ⟨ts, hts, ht⟩ : ∃ ts, _ ∧ Through st₃ st₄ ts :=
    ih.later (t := .stmts (.body s)) (Nat.lt_of_le_of_lt hs.room_le hroom) _ _ rfl h₄
  rw [hp₂, ← Program.symbols_of_cell? (.symbol s) hc] at hss
  obtain ⟨x, hx, rfl⟩ := Program.cell?_symbol hc
  rw [hs.program, hp₂, ← Program.stmts_of_cell? (.body s) hc trivial] at hts
  have hbelow : Through st₁ st₄ ([] ++ ss ++ ts) := by
    simpa using (hs.trans ht).after_call (.preSymbol s) h₂
  have htree := Through.node henter hc hbelow rfl hss.symm hts.symm
  exact ⟨_, rfl, (htree.call (.postSymbol s) h₅).leave hleave⟩

/-- A statement is gone through with all that it owns. -/
theorem forested_stmt {place : StmtPlace} (ih : Below (Forested o) (.stmt place) st) :
    Forested o (.stmt place) st := by
  rintro st' _ rfl hok
  rw [run_eq, visit_stmt, exec_bind_ok (exec_program st)] at hok
  cases hs : st.scene.program.stmtAt? place with
  | none =>
    rw [hs] at hok
    cases hok
    exact ⟨[], rfl, .refl st⟩
  | some s =>
    rw [hs] at hok
    obtain ⟨_, st₁, henter, hok⟩ := ok_of_exec_bind hok
    obtain ⟨_, st₂, h₂, hok⟩ := ok_of_exec_bind hok
    obtain ⟨_, st₃, h₃, hok⟩ := ok_of_exec_bind hok
    obtain ⟨_, st₄, h₄, hleave⟩ := ok_of_exec_bind hok
    obtain ⟨c, hc⟩ := cell?_of_enter henter
    obtain ⟨ht₂, hp₂⟩ := exec_call_looking (.preStmt s place) h₂
    rw [scene_of_enter henter] at hp₂
    have hroom : st₂.trail.seen.room < st.trail.seen.room := ht₂ ▸ room_lt_of_exec_enter henter
    obtain ⟨es, ss, ts, hes, hss, hts, hin⟩ := through_inside (fun task _ _ _ hle hd hx =>
      ih.later (Nat.lt_of_le_of_lt hle hroom) _ _ hd hx) h₃
    rw [hp₂] at hes hss hts
    have htree := Through.node henter hc (hin.after_call (.preStmt s place) h₂)
      ((Program.exprs_of_cell? (.stmt s) hc).trans hes.symm)
      ((Program.declared_of_cell? hc).trans hss.symm) ((Program.held_of_cell? hc).trans hts.symm)
    exact ⟨_, rfl, (htree.call (.postStmt s) h₄).leave hleave⟩

/-- An expression is gone through with its operands. -/
theorem forested_expr {place : ExprPlace} (ih : Below (Forested o) (.expr place) st) :
    Forested o (.expr place) st := by
  rintro st' _ rfl hok
  rw [run_eq, visit, exec_bind_ok (exec_program st)] at hok
  cases he : st.scene.program.exprAt? place with
  | none =>
    rw [he] at hok
    cases hok
    exact ⟨[], rfl, .refl st⟩
  | some e =>
    rw [he] at hok
    obtain ⟨_, st₁, henter, hok⟩ := ok_of_exec_bind hok
    obtain ⟨_, st₂, h₂, hok⟩ := ok_of_exec_bind hok
    obtain ⟨c, hc⟩ := cell?_of_enter henter
    obtain ⟨ht₂, hp₂⟩ := exec_call_looking (.preExpr e place) h₂
    rw [scene_of_enter henter] at hp₂
    rw [exec_bind_ok (exec_program st₂), hp₂, he] at hok
    simp only [if_true] at hok
    obtain ⟨_, st₃, h₃, hok⟩ := ok_of_exec_bind hok
    obtain ⟨_, st₄, h₄, hleave⟩ := ok_of_exec_bind hok
    have hroom : st₂.trail.seen.room < st.trail.seen.room := ht₂ ▸ room_lt_of_exec_enter henter
    obtain ⟨es, hes, hin⟩ : ∃ ts, _ ∧ Through st₂ st₃ ts :=
      ih.later (t := .operandsFrom (.expr e) 0) hroom _ _ rfl h₃
    rw [hp₂, List.drop_zero, ← Program.exprs_of_cell? (.expr e) hc] at hes
    obtain ⟨x, hx, rfl⟩ := Program.cell?_expr hc
    have hbelow : Through st₁ st₃ (es ++ [] ++ []) := by
      simpa using hin.after_call (.preExpr e place) h₂
    have htree := Through.node henter hc hbelow hes.symm rfl rfl
    exact ⟨_, rfl, (htree.call (.postExpr e) h₄).leave hleave⟩

theorem forested_symbols {list : SymbolList} (ih : Below (Forested o) (.symbols list) st) :
    Forested o (.symbols list) st := by
  rintro st' _ rfl hok
  by_cases hnodup : (st.scene.program.symbolsIn list).Nodup
  · rw [exec_symbols hnodup] at hok
    exact ih.lighter (t := .symbolsFrom list .start) (by simp [Task.weight]) _ _
      ⟨[], _, rfl, hnodup, Cursor.splits_start _, rfl⟩ hok
  · obtain ⟨s, _, hfail⟩ := exec_symbols_repeat o.toHooks hnodup
    rw [hfail] at hok
    cases hok

/-- Symbols are gone through from where the cursor stands. -/
theorem forested_symbolsFrom {list : SymbolList} {cursor : Cursor SymbolId}
    (ih : Below (Forested o) (.symbolsFrom list cursor) st) :
    Forested o (.symbolsFrom list cursor) st := by
  rintro st' _ ⟨done, todo, hlist, hnodup, hsplits, rfl⟩ hok
  cases todo with
  | nil =>
    rw [exec_symbolsFrom_nil hlist hsplits] at hok
    cases hok
    exact ⟨[], rfl, .refl st⟩
  | cons s rest =>
    rw [exec_symbolsFrom_cons hlist hsplits.next] at hok
    obtain ⟨_, st₁, h₁, h₂⟩ := ok_of_exec_bind hok
    obtain ⟨ts, hts, ht⟩ : ∃ ts, _ ∧ Through st st₁ ts :=
      ih.lighter (t := .symbol s) (by simp [Task.weight]) _ _ rfl h₁
    have hs : s ∉ rest := (List.nodup_cons.mp (List.nodup_append.mp hnodup).2.1).1
    obtain ⟨us, hus, hu⟩ : ∃ us, _ ∧ Through st₁ st' us :=
      ih.later (t := .symbolsFrom list _) (room_lt_of_walk (.symbol s) trivial h₁) _ _
        ⟨done ++ [s], rest, by rw [ht.program, hlist, List.append_assoc]; rfl,
          by simpa using hnodup, hsplits.keep hs, rfl⟩ h₂
    exact ⟨ts ++ us, by rw [List.map_append, hts, hus]; rfl, ht.trans hu⟩

theorem forested_stmts {list : StmtList} (ih : Below (Forested o) (.stmts list) st) :
    Forested o (.stmts list) st := by
  rintro st' _ rfl hok
  by_cases hnodup : (st.scene.program.stmtsIn list).Nodup
  · rw [exec_stmts hnodup] at hok
    exact ih.lighter (t := .stmtsFrom list .start) (by simp [Task.weight]) _ _
      ⟨[], _, rfl, hnodup, Cursor.splits_start _, rfl⟩ hok
  · obtain ⟨s, _, hfail⟩ := exec_stmts_repeat o.toHooks hnodup
    rw [hfail] at hok
    cases hok

/-- Statements are gone through from where the cursor stands. -/
theorem forested_stmtsFrom {list : StmtList} {cursor : Cursor StmtId}
    (ih : Below (Forested o) (.stmtsFrom list cursor) st) :
    Forested o (.stmtsFrom list cursor) st := by
  rintro st' _ ⟨done, todo, hlist, hnodup, hsplits, rfl⟩ hok
  cases todo with
  | nil =>
    rw [exec_stmtsFrom_nil hlist hsplits] at hok
    cases hok
    exact ⟨[], rfl, .refl st⟩
  | cons s rest =>
    rw [exec_stmtsFrom_cons hlist hsplits.next] at hok
    have hat := stmtAt?_of_stmtsIn hlist
    obtain ⟨_, st₁, h₁, h₂⟩ := ok_of_exec_bind hok
    obtain ⟨ts, hts, ht⟩ : ∃ ts, _ ∧ Through st st₁ ts :=
      ih.lighter (t := .stmt (.entry list done.length)) (by simp [Task.weight]) _ _ rfl h₁
    have hs : s ∉ rest := (List.nodup_cons.mp (List.nodup_append.mp hnodup).2.1).1
    obtain ⟨us, hus, hu⟩ : ∃ us, _ ∧ Through st₁ st' us :=
      ih.later (t := .stmtsFrom list _) (room_lt_of_entry hat h₁) _ _
        ⟨done ++ [s], rest, by rw [ht.program, hlist, List.append_assoc]; rfl,
          by simpa using hnodup, hsplits.keep hs, rfl⟩ h₂
    exact ⟨ts ++ us, by rw [List.map_append, hts, hus, hat]; rfl, ht.trans hu⟩

/-- Operands are gone through from an index on. -/
theorem forested_operandsFrom {owner : ExprOwner} {i : Nat}
    (ih : Below (Forested o) (.operandsFrom owner i) st) :
    Forested o (.operandsFrom owner i) st := by
  rintro st' _ rfl hok
  by_cases hi : i < (st.scene.program.operands owner).length
  · rw [exec_operandsFrom_lt hi] at hok
    have hat : st.scene.program.exprAt? ⟨owner, i⟩ = some (st.scene.program.operands owner)[i] :=
      List.getElem?_eq_getElem hi
    obtain ⟨_, st₁, h₁, h₂⟩ := ok_of_exec_bind hok
    obtain ⟨ts, hts, ht⟩ : ∃ ts, _ ∧ Through st st₁ ts :=
      ih.lighter (t := .expr ⟨owner, i⟩) (by simp [Task.weight]) _ _ rfl h₁
    obtain ⟨us, hus, hu⟩ : ∃ us, _ ∧ Through st₁ st' us :=
      ih.later (t := .operandsFrom owner (i + 1)) (room_lt_of_operand hat h₁) _ _ rfl h₂
    refine ⟨ts ++ us, ?_, ht.trans hu⟩
    rw [List.map_append, hts, hus, ht.program, List.drop_eq_getElem_cons hi, hat]
    rfl
  · rw [exec_operandsFrom_ge hi] at hok
    cases hok
    refine ⟨[], ?_, .refl st⟩
    rw [List.drop_eq_nil_of_le (by omega)]
    rfl

end

/-- A walk that looks and ends well went through the trees at the nodes it was about. -/
theorem forest_of_ok (o : Observer σ) (task : Task) (st : WalkState σ) : Forested o task st := by
  induction task, st using task_induction with
  | step task st ih =>
  cases task with
  | module m => exact forested_module ih
  | symbol s => exact forested_symbol ih
  | stmt place => exact forested_stmt ih
  | expr place => exact forested_expr ih
  | symbols list => exact forested_symbols ih
  | symbolsFrom list cursor => exact forested_symbolsFrom ih
  | stmts list => exact forested_stmts ih
  | stmtsFrom list cursor => exact forested_stmtsFrom ih
  | operandsFrom owner i => exact forested_operandsFrom ih

end Walk

end MiddleEnd
