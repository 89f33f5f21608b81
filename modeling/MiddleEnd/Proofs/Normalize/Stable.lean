import MiddleEnd.Proofs.Normalize.Result
import MiddleEnd.Proofs.Normalize.Settled
import MiddleEnd.Proofs.Pass

/-!
# MiddleEnd.Proofs.Normalize.Stable

Normalising what was normalised changes nothing.  Where trees are settled, and every node records
what encloses it, each hook of the pass leaves the program as it is, so that a run only walks
(`run_of_stable`); and that is what a run leaves.
-/

namespace MiddleEnd

open MiddleEnd.Tree Walk

/-! ## Edits that change nothing -/

private theorem modify_same {α : Type} {xs : Array α} {i : Nat} {f : α → α}
    (h : ∀ x, xs[i]? = some x → f x = x) : xs.modify i f = xs := by
  refine Array.ext (by simp) fun j hj hj' => ?_
  rw [Array.getElem_modify]
  split
  · next he =>
    subst he
    exact h _ (Array.getElem?_eq_getElem hj')
  · rfl

namespace Program

variable {p : Program}

/-- A change that changes no symbol changes nothing. -/
theorem updateSymbol_same {s : SymbolId} {f : Symbol → Symbol}
    (h : ∀ x, p.symbol? s = some x → f x = x) : p.updateSymbol s f = p := by
  rw [updateSymbol, modify_same h]

/-- A change that changes no statement changes nothing. -/
theorem updateStmt_same {s : StmtId} {f : Stmt → Stmt}
    (h : ∀ x, p.stmt? s = some x → f x = x) : p.updateStmt s f = p := by
  rw [updateStmt, modify_same h]

theorem updateExpr_same {e : ExprId} {f : Expr → Expr}
    (h : ∀ x, p.expr? e = some x → f x = x) : p.updateExpr e f = p := by
  rw [updateExpr, modify_same h]

end Program

namespace Normalize

section

variable {scene : Scene Normalizer} {s : StmtId} {place : StmtPlace}

/-- A branch that is a block stays as it is. -/
theorem wrapBranch_of_block (h : ∀ b, scene.program.stmtAt? place = some b →
    ∀ x, scene.program.stmt? b = some x → x.kind.isBlock = true) :
    wrapBranch place scene = scene := by
  unfold wrapBranch
  split
  · rfl
  · next b x hx =>
    obtain ⟨b', hb, hmap⟩ := Option.bind_eq_some_iff.mp hx
    obtain ⟨x', hx', heq⟩ := Option.map_eq_some_iff.mp hmap
    cases heq
    rw [if_pos (h b hb x hx')]

/-- Where all branches are blocks there is nothing to wrap. -/
theorem wrapBranches_of_blocks (h : ∀ b ∈ scene.program.heldStmts s,
    ∀ x, scene.program.stmt? b = some x → x.kind.isBlock = true) :
    wrapBranches s scene = scene := by
  unfold wrapBranches
  split
  · next places hplaces =>
    rw [Program.heldStmts, hplaces] at h
    have hfold : ∀ places' : List StmtPlace, (∀ place ∈ places', place ∈ places) →
        places'.foldl (fun scene place => wrapBranch place scene) scene = scene := by
      intro places' hsub
      induction places' with
      | nil => rfl
      | cons place places' ih =>
        rw [List.foldl_cons, wrapBranch_of_block fun b hb =>
          h b (List.mem_filterMap.mpr ⟨place, hsub place List.mem_cons_self, hb⟩)]
        exact ih fun place' hmem => hsub place' (List.mem_cons_of_mem _ hmem)
    exact hfold places fun _ hmem => hmem
  · rfl

end

/-! ## Trees that stay -/

/-- Trees in canonical shape, where every node records what encloses it. -/
structure Stable (r : Rules) (p : Program) (ts : List Tree) : Prop where
  bears : p.Bears ts
  nodup : (nodesOf ts).Nodup
  records : p.Records .outside ts
  settled : Settled r ts

/-- What has a list owns no branches. -/
theorem lists_of_mem {p : Program} {list : StmtList} {s : StmtId} {c : Cell}
    (hc : p.cell? list.node = some c) (hs : s ∈ p.stmtsIn list) :
    list.Fits c.label ∧ c.label.hasBranches = false := by
  cases list with
  | body y =>
    obtain ⟨x, _, rfl⟩ := Program.cell?_symbol hc
    exact ⟨trivial, rfl⟩
  | block b =>
    obtain ⟨x, hx, rfl⟩ := Program.cell?_stmt hc
    obtain ⟨k, _, _, _⟩ := x
    cases k with
    | block => exact ⟨trivial, rfl⟩
    | _ => simp [Program.stmtsIn, Program.stmtList?, hx, StmtKind.entries?] at hs

namespace Stable

variable {r : Rules} {p : Program} {us : List Tree}

/-- Nothing has to be done in its list for a statement of the trees. -/
theorem entry (h : Stable r p us) {place : StmtPlace} {list : StmtList} {s : StmtId} {t : Tree}
    (ht : t ∈ subtreesOf us) (hid : t.id = .stmt s) (hat : p.stmtAt? place = some s)
    (hown : place.holder ∈ nodesOf us) (hlist : place.list? = some list) :
    s ∈ p.stmtsIn list ∧ dropped r t = false ∧ hoisted r t = false := by
  obtain ⟨list', i⟩ | ⟨_, _⟩ := place
  · obtain rfl : list' = list := by simpa [StmtPlace.list?] using hlist
    rw [Program.stmtAt?_entry] at hat
    have hmem := List.mem_of_getElem? hat
    obtain ⟨v, hv, hvid⟩ := List.mem_map.mp hown
    have hcell := h.bears v hv
    rw [show v.id = list'.node from hvid] at hcell
    obtain ⟨hfits, hlabel⟩ := lists_of_mem hcell hmem
    have hstmts : v.stmts.map Tree.id = (p.stmtsIn list').map .stmt :=
      Program.stmts_of_cell? _ hcell hfits
    obtain ⟨u, hu, huid⟩ := List.mem_map.mp (hstmts ▸ List.mem_map_of_mem hmem)
    -- the trees have one tree at the statement
    obtain rfl : u = t := by
      have hbelow : p.Bears [u] := by
        have := h.bears.sub v hv
        obtain ⟨n, l, es, ss, ts⟩ := v
        exact (Program.bears_node.mp this).2.2.2.mem hu
      exact Program.bears_unique (h.bears.sub t ht) hbelow (huid.trans hid.symm)
    exact ⟨hmem, (h.settled v hv).entries hlabel u hu⟩
  · simp [StmtPlace.list?] at hlist

/-- What a node records, where it stands. -/
theorem backs (h : Stable r p us) {a : Around} {t : Tree} (ht : (a, t) ∈ placedOf .outside us) :
    p.backs? t.id = some (a.backs t.id) := h.records (a, t) ht

variable {a : Around} {t : Tree} {scene : Scene Normalizer}

/-- The scope that a symbol records is where it is declared. -/
theorem symbol (h : Stable r p us) (ht : (a, t) ∈ placedOf .outside us) {s : SymbolId}
    (hid : t.id = .symbol s) :
    p.updateSymbol s (fun x => { x with scope := a.scope }) = p := by
  refine Program.updateSymbol_same fun x hx => ?_
  have hbacks := h.backs ht
  rw [hid] at hbacks
  have hscope : x.scope = a.scope := by
    simpa [Program.backs?, Program.node?, hx, Node.backs, Around.backs] using hbacks
  rw [← hscope]

/-- The surroundings that a statement records are those where it stands. -/
theorem marked (h : Stable r p us) (ht : (a, t) ∈ placedOf .outside us) {s : StmtId}
    (hid : t.id = .stmt s) (hprogram : scene.program = p)
    (haround : scene.own.context.around = a) : Normalize.marked s scene = scene := by
  have hsame : scene.program.updateStmt s (fun x => { x with
      parentStmt := scene.own.context.enclosingStmt
      parentSymbol := scene.own.context.enclosingSymbol }) = scene.program := by
    refine Program.updateStmt_same fun x hx => ?_
    rw [hprogram] at hx
    have hbacks := h.backs ht
    rw [hid, ← haround] at hbacks
    obtain ⟨hs, hy⟩ : x.parentStmt = scene.own.context.enclosingStmt ∧
        x.parentSymbol = scene.own.context.enclosingSymbol := by
      simpa [Program.backs?, Program.node?, hx, Node.backs, Around.backs, Context.around]
        using hbacks
    rw [← hs, ← hy]
  rw [Normalize.marked, hsame]

/-- There is no branch left to wrap. -/
theorem wrapBranches (h : Stable r p us) (ht : t ∈ subtreesOf us) {s : StmtId}
    (hid : t.id = .stmt s) (hprogram : scene.program = p) (hr : r.wrapBranches = true) :
    Normalize.wrapBranches s scene = scene := by
  subst hprogram
  have hcell : scene.program.cell? (.stmt s) = some t.cell := hid ▸ h.bears t ht
  by_cases hl : t.label.hasBranches = true
  · refine wrapBranches_of_blocks fun b hb x hx => ?_
    have hstmts : t.stmts.map Tree.id = (scene.program.heldStmts s).map .stmt :=
      Program.held_of_cell? hcell
    obtain ⟨u, hu, huid⟩ := List.mem_map.mp (hstmts ▸ List.mem_map_of_mem hb)
    have hblock := (h.settled t ht).branches hl u hu
    have hucell : scene.program.cell? u.id = some u.cell := by
      have hbears := h.bears.sub t ht
      obtain ⟨n, l, es, ss, ts⟩ := t
      exact (Program.bears_node.mp hbears).2.2.2.cell hu
    have hlabel : u.label = .stmt x.kind.head x.line := by
      rw [huid] at hucell
      obtain ⟨x', hx', hxcell⟩ := Program.cell?_stmt hucell
      obtain rfl : x' = x := Option.some.inj (hx'.symm.trans hx)
      exact congrArg Cell.label hxcell
    rw [wrapped, hr, hlabel, Bool.true_and, Bool.not_eq_false'] at hblock
    revert hblock
    cases x.kind <;> simp [StmtKind.head, Label.isBlock, StmtKind.isBlock]
  · exact wrapBranches_of_none hcell (Bool.eq_false_iff.mpr hl)

/-- The rules leave a statement as it is, and its back-references are written already. -/
theorem rewriteStmt (h : Stable r p us) (scene : Scene Normalizer)
    (ht : (a, t) ∈ placedOf .outside us) {s : StmtId}
    {place : StmtPlace} (hid : t.id = .stmt s) (hat : p.stmtAt? place = some s)
    (hown : place.holder ∈ nodesOf us) (hprogram : scene.program = p)
    (hrules : scene.own.rules = r) (haround : scene.own.context.around = a) :
    Normalize.rewriteStmt s place t.label.isNop scene = scene := by
  have hsub : t ∈ subtreesOf us := mem_subtreesOf_of_placed ht
  have hcell : p.cell? (.stmt s) = some t.cell := hid ▸ h.bears t hsub
  have hdrop : applyIf (r.dropNops && t.label.isNop) (dropNop s place) scene = scene := by
    cases hlist : place.list? with
    | none => cases r.dropNops && t.label.isNop <;> simp [dropNop_of_branch hlist]
    | some list =>
      have hnot : (r.dropNops && t.label.isNop) = false :=
        (h.entry hsub hid hat hown hlist).2.1
      rw [hnot, applyIf_false]
  have hwrap : applyIf r.wrapBranches (Normalize.wrapBranches s) scene = scene := by
    cases hr : r.wrapBranches with
    | false => rfl
    | true => exact h.wrapBranches hsub hid hprogram hr
  have hhoist : applyIf r.hoistCallConditions (hoistCondition s place) scene = scene := by
    cases hr : r.hoistCallConditions with
    | false => rfl
    | true =>
      refine hoistCondition_of_none fun list hlist => ?_
      obtain ⟨hmem, _, hnot⟩ := h.entry hsub hid hat hown hlist
      obtain ⟨head, line, hl⟩ := Program.exists_stmt_label hcell
      have hbears : p.Bears t.exprs := by
        have hbears := h.bears.sub t hsub
        obtain ⟨n, l, es, ss, ts⟩ := t
        exact (Program.bears_node.mp hbears).2.1
      have hnodup : (nodesOf t.exprs).Nodup := by
        have hnodup := nodup_of_mem_subtreesOf h.nodup t hsub
        obtain ⟨n, l, es, ss, ts⟩ := t
        exact nodup_exprs hnodup
      have hcall := hoistable?_eq _ t.exprs hcell hl rfl hbears hnodup hmem
      rw [hoisted, hr, Bool.true_and] at hnot
      rw [hprogram]
      rwa [if_neg (by rw [show t.cell.label = t.label from rfl, hnot]; simp)] at hcall
  rw [rewriteStmt_eq, h.marked ht hid hprogram haround, hrules, hdrop, hwrap, hhoist]

/-- The surroundings that an expression records are those where it stands. -/
theorem markedExpr (h : Stable r p us) (scene : Scene Normalizer)
    (ht : (a, t) ∈ placedOf .outside us) {e : ExprId}
    (hid : t.id = .expr e) (hprogram : scene.program = p)
    (haround : scene.own.context.around = a) : Normalize.markedExpr e scene = scene := by
  have hsame : scene.program.updateExpr e (fun x => { x with
      parentStmt := scene.own.context.enclosingStmt
      parentSymbol := scene.own.context.enclosingSymbol }) = scene.program := by
    refine Program.updateExpr_same fun x hx => ?_
    rw [hprogram] at hx
    have hbacks := h.backs ht
    rw [hid, ← haround] at hbacks
    obtain ⟨hs, hy⟩ : x.parentStmt = scene.own.context.enclosingStmt ∧
        x.parentSymbol = scene.own.context.enclosingSymbol := by
      simpa [Program.backs?, Program.node?, hx, Node.backs, Around.backs, Context.around]
        using hbacks
    rw [← hs, ← hy]
  rw [Normalize.markedExpr, hsame]

end Stable

/-! ## Runs -/

/-- From `x` to `y` nothing was rewritten, and what was opened was closed again. -/
structure Rests (x y : Normalizer) : Prop where
  level : Context.Level x.context y.context
  rules : y.rules = x.rules
  counts : y.counts = x.counts

/-- The pass on its way through trees that stay. -/
def tour (r : Rules) : Tour Normalizer where
  At a own := own.rules = r ∧ own.context.around = a
  Leads _ _ := Rests

/-- The pass keeps track of its way. -/
theorem tour_lawful (r : Rules) : (tour r).Lawful where
  nil _ _ := ⟨.refl _, rfl, rfl⟩
  append h h' := ⟨h.level.trans h'.level, h'.rules.trans h.rules, h'.counts.trans h.counts⟩
  stays hat h := ⟨h.rules.trans hat.1, h.level.around_eq.trans hat.2⟩

/-- The normalizer where it stands now. -/
def Normalizer.at (own : Normalizer) (c : Context) : Normalizer := { own with context := c }

/-- A move that is accepted changes where the normalizer stands. -/
theorem exec_move_ok {m : ContextM Unit} {p : Program} {own : Normalizer} {c : Context}
    (h : exec m own.context = (.ok (), c)) : exec (move m) ⟨p, own⟩ = (.ok (), ⟨p, own.at c⟩) := by
  rw [exec_move, h]
  rfl

section

variable {p : Program} {own own' : Normalizer}

theorem exec_postSymbol_ok {s : SymbolId} {c : Context}
    (h : exec (Context.leaveSymbol s) own.context = (.ok (), c)) :
    exec (hooks.postSymbol s) ⟨p, own⟩ = (.ok (), ⟨p, own.at c⟩) := by
  rw [hooks_postSymbol, exec_move_ok h]

theorem exec_postStmt_ok {s : StmtId} {c : Context}
    (h : exec (Context.leaveStmt s) own.context = (.ok (), c)) :
    exec (hooks.postStmt s) ⟨p, own⟩ = (.ok (), ⟨p, own.at c⟩) := by
  rw [hooks_postStmt, exec_move_ok h]

end

/-- The pass has nothing to do at any node of trees that stay. -/
theorem Stable.welcomes {r : Rules} {p : Program} {us : List Tree} (h : Stable r p us)
    {a : Around} {t : Tree} (ht : (a, t) ∈ placedOf .outside us) (hmodule : ∀ m, t.id ≠ .module m)
    (hexpr : ∀ e, t.id = .expr e → a.stmt.isSome) :
    (tour r).Welcomes pass.hooks p (· ∈ nodesOf us) a t := by
  have hcell := h.bears t (mem_subtreesOf_of_placed ht)
  rintro pre post hcalls own ⟨hrules, rfl⟩
  generalize hid : t.id = n at hcalls hcell
  cases hcalls with
  | module m => exact absurd hid (hmodule m)
  | symbol s =>
    obtain ⟨x, hx, _⟩ := Program.cell?_symbol hcell
    have hpre : exec (hooks.preSymbol s) ⟨p, own⟩ =
        (.ok (), ⟨p, own.at (own.context.inSymbol s)⟩) := by
      have hsame : p.updateSymbol s (fun x => { x with scope := own.context.ownerScope }) = p :=
        h.symbol ht hid
      rw [hooks_preSymbol, exec_preSymbol, show p.symbol s = .ok x by rw [Program.symbol, hx]]
      simp only [hsame]
      rfl
    refine ⟨_, hpre, ⟨hrules, rfl⟩, fun own₂ hrests => ?_⟩
    obtain ⟨d, hleave, hlevel⟩ := Context.Level.leaveSymbol hrests.level
    exact ⟨own₂.at d, exec_postSymbol_ok hleave, hlevel, hrests.rules, hrests.counts⟩
  | @stmt s place hat hown =>
    have hpre : exec (hooks.preStmt s place) ⟨p, own⟩ =
        (.ok (), ⟨p, own.at (own.context.inStmt s)⟩) := by
      have hsame := h.rewriteStmt ⟨p, own⟩ ht hid hat hown rfl hrules rfl
      rw [hooks_preStmt, exec_preStmt_of_cell? ⟨p, own⟩ hcell,
        show t.cell.label = t.label from rfl, hsame]
      rfl
    refine ⟨_, hpre, ⟨hrules, rfl⟩, fun own₂ hrests => ?_⟩
    obtain ⟨d, hleave, hlevel⟩ := Context.Level.leaveStmt hrests.level
    exact ⟨own₂.at d, exec_postStmt_ok hleave, hlevel, hrests.rules, hrests.counts⟩
  | @expr e place hat =>
    obtain ⟨x, hx, hxcell⟩ := Program.cell?_expr hcell
    have hflat : flattened? own.rules x = none := by
      refine flattened?_eq_none ?_
      rw [← hxcell, hrules]
      exact (h.settled t (mem_subtreesOf_of_placed ht)).parens
    have hpre : exec (hooks.preExpr e place) ⟨p, own⟩ = (.ok (), ⟨p, own⟩) := by
      rw [hooks_preExpr, exec_preExpr_mark ⟨p, own⟩ (hexpr e hid) hx hflat,
        h.markedExpr ⟨p, own⟩ ht hid rfl rfl]
    exact ⟨own, hpre, ⟨hrules, rfl⟩, fun own₂ hrests =>
      ⟨own₂, rfl, hrests.level, hrests.rules, hrests.counts⟩⟩

/-- The hooks of the pass do what the tour says. -/
theorem toured (r : Rules) : pass.Toured (tour r) where
  lawful := tour_lawful r
  context _ _ := rfl
  level h := h.level
  enters m hat hout := ⟨hat.1, hout.around_inModule m⟩
  root h := h
  leaves h hlevel := ⟨hlevel, h.rules, h.counts⟩

/-- A run over modules that are trees which stay changes nothing. -/
theorem run_of_stable {r : Rules} {modules : List ModuleId} {p : Program} {us : List Tree}
    (h : Stable r p us) (hroots : us.map Tree.id = modules.map .module) :
    ∃ tally, Normalize.run r modules p = (.ok ⟨.zero, tally⟩, p) := by
  have hempty : ∀ n ∈ nodesOf us, (begun r p).trail.seen.contains n = false := fun n _ => by
    simp [begun, Trail.start]
  have hexprs : ∀ x ∈ placedOf .outside us, ∀ e, x.2.id = .expr e → x.1.stmt.isSome := by
    refine h.bears.expr_in_stmt fun t ht e he => ?_
    have hroot : t.id ∈ modules.map NodeId.module := hroots ▸ List.mem_map_of_mem ht
    simp [he] at hroot
  obtain ⟨st, hexec, hvisits⟩ := (toured r).ends
    (show (begun r p).scene.program = p from rfl)
    ⟨hroots, h.bears, h.nodup⟩ hempty (fun _ hn => hn)
    (fun x hx hm => h.welcomes hx hm (hexprs x hx)) ⟨rfl, rfl⟩ Context.outside_start
  refine ⟨st.trail.tally, ?_⟩
  rw [run_of_exec hexec, hvisits.leads.counts, hvisits.through.program]
  rfl

/-- What a run leaves of modules that are trees are trees that stay. -/
theorem stable_of_run {r : Rules} {modules : List ModuleId} {p : Program} {ts : List Tree}
    (hts : p.Unfolds modules ts) (haddr : (Normalize.run r modules p).2.Addressable) :
    Stable r (Normalize.run r modules p).2 (rebuilt r p ts) := by
  obtain ⟨_, hunfolds, hrecords⟩ := rebuilt_of_run hts haddr
  refine ⟨hunfolds.bears, hunfolds.nodup, hrecords, ?_⟩
  refine settled_rebuildAll (fun t ht => settles t (hts.bears.mem ht) fun e he => ?_) _
  have hroot : t.id ∈ modules.map NodeId.module := hts.roots ▸ List.mem_map_of_mem ht
  simp [he] at hroot

/-- Normalising a second time changes nothing, and counts nothing. -/
theorem run_idempotent {r : Rules} {modules : List ModuleId} {p : Program}
    (hok : survey modules p = .ok ()) (haddr : (Normalize.run r modules p).2.Addressable) :
    ∃ report, Normalize.run r modules (Normalize.run r modules p).2 =
        (.ok report, (Normalize.run r modules p).2) ∧ report.counts.total = 0 := by
  obtain ⟨ts, hts⟩ := trees_of_survey hok
  obtain ⟨_, hunfolds, _⟩ := rebuilt_of_run hts haddr
  obtain ⟨tally, hrun⟩ := run_of_stable (stable_of_run hts haddr) hunfolds.roots
  exact ⟨⟨.zero, tally⟩, hrun, rfl⟩

theorem run_idempotent_sample : survey [⟨0⟩] sample = .ok () ∧
    ∃ report, Normalize.run .all [⟨0⟩] (Normalize.run .all [⟨0⟩] sample).2 =
        (.ok report, (Normalize.run .all [⟨0⟩] sample).2) ∧ report.counts.total = 0 :=
  ⟨by decide +kernel, run_idempotent (by decide +kernel) (by decide +kernel)⟩

end Normalize

end MiddleEnd
