import MiddleEnd.Proofs.Normalize.Boxed
import MiddleEnd.Proofs.Normalize.Stmts

/-!
# MiddleEnd.Proofs.Normalize.Started

What is due in a statement of any program once it was entered and rewritten.  It is what the
statement owns by then, where new blocks stand for the branches that they hold; and if its
condition moved into a temporary, the declaration in the list is due besides (`StartsAt`).
-/

namespace MiddleEnd

namespace Normalize

open Walk

variable {st st₁ : WalkState Normalizer} {s : StmtId} {place : StmtPlace} {c : Cell}
  {H : NodeId → Prop}

/-- What is due in the statement `s` from `st₁` on, where it was entered in `st` and had the cell
`c`: it stays in its place, or it is taken out of its list, or the declaration `decl` is put before
it. -/
inductive StartsAt (place : StmtPlace) (s : StmtId) (c : Cell) (st st₁ : WalkState Normalizer) :
    Prop where
  | kept {news : List NodeId}
      (h : Starts nowhere st st₁ (.stmt s) (st₁.scene.program.childrenOf (.stmt s)) news)
  | dropped {list : StmtList} {news : List NodeId} (hlist : place.list? = some list)
      (hnop : c.label.isNop = true)
      (h : Starts (· = list.node) st st₁ (.stmt s) (st₁.scene.program.childrenOf (.stmt s)) news)
      (hentries : st₁.scene.program.stmtsIn list =
        (st.scene.program.stmtsIn list).filter (· ≠ s))
  | hoisted {list : StmtList} {decl : StmtId} {line : UInt32} {news : List NodeId}
      (hlist : place.list? = some list) (hif : c.label.isIf = true)
      (h : Starts (· = list.node) st st₁ (.stmt s)
        (st₁.scene.program.childrenOf (.stmt s) ++ [.stmt decl]) news)
      (hnew : st.scene.program.has (.stmt decl) = false)
      (hdecl : ∃ d, st₁.scene.program.cell? (.stmt decl) = some d ∧ d.label = .stmt .decl line)
      (hentries : ∀ front back, st.scene.program.stmtsIn list = front ++ s :: back → s ∉ front →
        st₁.scene.program.stmtsIn list = front ++ decl :: s :: back)

/-- The blocks that a statement was given are new. -/
theorem Prepared.of_mem_news {scene scene' : Scene Normalizer} {ys news : List NodeId}
    (h : Prepared H s c scene scene' ys news) {m : NodeId} (hm : m ∈ news) :
    scene.program.has m = false ∧ scene'.program.has m = true := by
  obtain ⟨hfresh, _, _, _, _, hcell⟩ := h.boxing.of_mem_news hm
  exact ⟨hfresh, Program.has_of_cell? hcell⟩

/-- A statement that was prepared, and no more than that, starts with what it owns. -/
theorem Prepared.starts {ys news : List NodeId} {scene : Scene Normalizer}
    (h : Prepared H s c st.scene scene ys news) (hc : st.scene.program.cell? (.stmt s) = some c)
    (hunseen : st.trail.seen.contains (.stmt s) = false)
    (hseen : st₁.trail.seen = st.trail.seen.insert (.stmt s))
    (hprogram : st₁.scene.program = scene.program)
    (hrules : st₁.scene.own.rules = st.scene.own.rules) :
    Starts H st st₁ (.stmt s) (st₁.scene.program.childrenOf (.stmt s)) news := by
  have hhas : st.scene.program.has (.stmt s) = true := Program.has_of_cell? hc
  have hchildren := Program.childrenOf_of_cell? h.cell
  refine ⟨moved_enter hunseen hseen hrules (hprogram ▸ h.frame) hhas, h.nodup, fun m => ?_,
    fun m hm => ?_, ?_⟩
  · rw [hprogram]
    exact ⟨h.of_mem_news, fun ⟨hold, hnew⟩ => h.new m hold hnew⟩
  · rw [hprogram, hchildren]
    exact .inl (List.mem_append_right _ (h.boxing.subset m hm))
  · rw [hprogram, hchildren, Program.childrenOf_of_cell? hc]
    simp only [Cell.children, List.append_assoc]
    exact ((h.boxing.perm).append_left _).append_left _

/-- A statement of which the condition was hoisted, after it was prepared. -/
theorem Prepared.starts_hoisted {ys news : List NodeId} {scene : Scene Normalizer}
    (h : Prepared nowhere s c st.scene scene ys news)
    (hc : st.scene.program.cell? (.stmt s) = some c)
    (hunseen : st.trail.seen.contains (.stmt s) = false)
    (hseen : st₁.trail.seen = st.trail.seen.insert (.stmt s))
    (hrules : st₁.scene.own.rules = st.scene.own.rules)
    {list : StmtList} {ch : Cell} {front back : List StmtId} {cond : ExprId} {line : UInt32}
    {temp : Temp} (hexprs : c.exprs = [.expr cond])
    (hlist : st.scene.program.has list.node = true)
    (hhoists : Hoists scene.program st₁.scene.program s { c with stmts := ys } list ch front back
      (.expr cond) line temp)
    (hnew : ∀ m, scene.program.has m = false → st₁.scene.program.has m = true →
      m = .symbol temp.symbol ∨ m = .stmt temp.decl ∨ m = .expr temp.ref) :
    Starts (· = list.node) st st₁ (.stmt s)
      (st₁.scene.program.childrenOf (.stmt s) ++ [.stmt temp.decl])
      (.symbol temp.symbol :: .stmt temp.decl :: .expr temp.ref :: news) := by
  have hhas : st.scene.program.has (.stmt s) = true := Program.has_of_cell? hc
  have hvar := hhoists.var.cell List.mem_cons_self
  have href := hhoists.ref.cell List.mem_cons_self
  rw [Temp.varTree, Tree.id_node] at hvar
  rw [Temp.refTree, Tree.id_node] at href
  have hapart : ∀ m ∈ news, m ≠ .symbol temp.symbol ∧ m ≠ .stmt temp.decl ∧ m ≠ .expr temp.ref := by
    intro m hm
    have hold := (h.of_mem_news hm).2
    exact ⟨Program.ne_of_has hold hhoists.freshVar, Program.ne_of_has hold hhoists.freshDecl,
      Program.ne_of_has hold hhoists.freshRef⟩
  have hsame : news.flatMap st₁.scene.program.childrenOf =
      news.flatMap scene.program.childrenOf := by
    refine List.flatMap_congr fun m hm => hhoists.frame.childrenOf (h.of_mem_news hm).2 ?_
    rintro (rfl | rfl)
    · exact Program.ne_of_has hhas (h.of_mem_news hm).1 rfl
    · exact Program.ne_of_has hlist (h.of_mem_news hm).1 rfl
  have hs := Program.childrenOf_of_cell? hhoists.cell
  have hd := Program.childrenOf_of_cell? hhoists.declCell
  have hv := Program.childrenOf_of_cell? hvar
  have hr := Program.childrenOf_of_cell? href
  refine ⟨moved_enter hunseen hseen hrules ((h.frame.mono fun m hm => ?_).trans hhoists.frame) hhas,
    ?_, fun m => ?_, fun m hm => ?_, List.perm_iff_count.mpr fun m => ?_⟩
  · exact hm.imp_right False.elim
  · simp only [List.nodup_cons, List.mem_cons, reduceCtorEq, false_or]
    exact ⟨fun hm => (hapart _ hm).1 rfl, fun hm => (hapart _ hm).2.1 rfl,
      fun hm => (hapart _ hm).2.2 rfl, h.nodup⟩
  · simp only [List.mem_cons]
    constructor
    · rintro (rfl | rfl | rfl | hm)
      · exact ⟨h.frame.missing hhoists.freshVar, Program.has_of_cell? hvar⟩
      · exact ⟨h.frame.missing hhoists.freshDecl, Program.has_of_cell? hhoists.declCell⟩
      · exact ⟨h.frame.missing hhoists.freshRef, Program.has_of_cell? href⟩
      · exact ⟨(h.of_mem_news hm).1, hhoists.frame.has m (h.of_mem_news hm).2⟩
    · rintro ⟨hold, hhas'⟩
      cases hmid : scene.program.has m with
      | true => exact .inr (.inr (.inr (h.new m hold hmid)))
      | false => rcases hnew m hmid hhas' with rfl | rfl | rfl <;> simp
  · simp only [List.mem_cons] at hm
    rcases hm with rfl | rfl | rfl | hm
    · exact .inr ⟨.stmt temp.decl, by simp, by simp [hd, Cell.children]⟩
    · exact .inl (by simp)
    · exact .inl (by simp [hs, Cell.children])
    · exact .inl (by simp [hs, Cell.children, h.boxing.subset m hm])
  · have hcount := h.boxing.perm.count_eq m
    rw [Program.childrenOf_of_cell? hc, hs]
    simp only [List.flatMap_cons, hsame, hd, hv, hr, Cell.children, hexprs, List.count_append,
      List.count_cons, List.count_nil, Tree.cell_node, List.map_nil, List.append_nil] at hcount ⊢
    omega

/-- What is due in a prepared statement of which the condition is hoisted. -/
theorem Prepared.startsAt_hoisted {ys news : List NodeId} {scene : Scene Normalizer}
    (h : Prepared nowhere s c st.scene scene ys news)
    (hc : st.scene.program.cell? (.stmt s) = some c)
    (hunseen : st.trail.seen.contains (.stmt s) = false)
    (hseen : st₁.trail.seen = st.trail.seen.insert (.stmt s))
    (hrules : st₁.scene.own.rules = st.scene.own.rules)
    {list : StmtList} {cond : ExprId} {line : UInt32} {name : String}
    (hlist : place.list? = some list) (hnode : list.node ≠ .stmt s)
    (hold : st.scene.program.has list.node = true)
    (hcan : hoistable? scene.program s list = some (cond, line))
    (hprogram : st₁.scene.program = hoistInto scene.program s list cond line name)
    (haddr : st₁.scene.program.Addressable) :
    (∃ exprs stmts, st₁.scene.program.cell? (.stmt s) = some { c with exprs, stmts }) ∧
      StartsAt place s c st st₁ := by
  obtain ⟨hmem, c₁, hc₁, hexprs, hl⟩ := of_hoistable? hcan
  rw [h.cell, Option.some.injEq] at hc₁
  subst hc₁
  have hif : c.label.isIf = true := by
    have hl' : c.label = .stmt .ifElse line := hl
    rw [hl']
    rfl
  obtain ⟨ch, hch, hfits⟩ := Program.cell?_of_mem_stmtsIn hmem
  have hlisted : scene.program.stmtsIn list = st.scene.program.stmtsIn list :=
    Program.stmtsIn_congr (h.frame.kept _ hold fun he => he.elim hnode False.elim)
  rw [hprogram] at haddr
  have hhoists : ∀ {front back}, st.scene.program.stmtsIn list = front ++ s :: back → s ∉ front →
      Hoists scene.program st₁.scene.program s { c with stmts := ys } list ch front back
        (.expr cond) line _ := fun hentries hfront =>
    hprogram ▸ hoists_hoistInto h.cell hexprs hch hfits (hlisted.trans hentries) hfront hnode haddr
  obtain ⟨front, back, hentries, hfront⟩ := List.eq_append_cons_of_mem (hlisted ▸ hmem)
  have hhoisted := hhoists hentries hfront
  have hstarts := h.starts_hoisted hc hunseen hseen hrules hexprs hold hhoisted fun m hm hm' =>
    new_hoistInto haddr hm (hprogram ▸ hm')
  refine ⟨⟨_, ys, hhoisted.cell⟩, .hoisted hlist hif hstarts (h.frame.missing hhoisted.freshDecl)
    ⟨_, hhoisted.declCell, rfl⟩ fun front' back' hentries' hfront' => ?_⟩
  -- the list holds the declaration wherever it is split at the statement
  have hhoisted' := hhoists hentries' hfront'
  rw [← map_stmt_inj, ← Program.stmts_of_cell? _ hhoisted'.listCell hfits]

/-- What is due in a statement once it was entered and rewritten, on any program. -/
theorem startsAt (hc : st.scene.program.cell? (.stmt s) = some c)
    (hunseen : st.trail.seen.contains (.stmt s) = false) (hne : place.holder ≠ .stmt s)
    (hholder : st.scene.program.has place.holder = true)
    (haddr : (rewriteStmt s place c.label.isNop st.scene).program.Addressable) :
    (∃ exprs stmts, (atStmt s place c.label.isNop st).scene.program.cell? (.stmt s) =
        some { c with exprs, stmts }) ∧
      StartsAt place s c st (atStmt s place c.label.isNop st) := by
  have hrules : (atStmt s place c.label.isNop st).scene.own.rules = st.scene.own.rules :=
    (larger_rewriteStmt s place c.label.isNop st.scene).rules
  generalize hst₁ : atStmt s place c.label.isNop st = st₁ at hrules ⊢
  have hseen : st₁.trail.seen = st.trail.seen.insert (.stmt s) := by rw [← hst₁]; rfl
  have hprogram : st₁.scene.program = (rewriteStmt s place c.label.isNop st.scene).program := by
    rw [← hst₁]
    rfl
  rw [← hprogram] at haddr
  rw [rewriteStmt_prepare] at hprogram
  have haddr' := (larger_applyIf (larger_hoistCondition s place) _ _).addressable
    (hprogram ▸ haddr)
  obtain ⟨ys, news, hprepared⟩ := prepared hc hne haddr'
  generalize prepare s place c.label.isNop st.scene = scene at hprogram hprepared
  have hself : st₁.scene.program = scene.program →
      (∃ exprs stmts, st₁.scene.program.cell? (.stmt s) = some { c with exprs, stmts }) ∧
      StartsAt place s c st st₁ := by
    intro hsame
    rw [hsame]
    rcases hprepared with h | ⟨list, hlist, hnop, h, hentries⟩
    · exact ⟨⟨c.exprs, ys, h.cell⟩, .kept (h.starts hc hunseen hseen hsame hrules)⟩
    · exact ⟨⟨c.exprs, ys, h.cell⟩,
        .dropped hlist hnop (h.starts hc hunseen hseen hsame hrules) (hsame ▸ hentries)⟩
  cases hr : st.scene.own.rules.hoistCallConditions with
  | false => exact hself (by rw [hprogram, hr]; rfl)
  | true =>
    rw [hr, applyIf_true] at hprogram
    rcases hoistCondition_cases s place scene with hnone | ⟨list, cond, line, hlist, hcan, heq⟩
    · exact hself (by rw [hprogram, hnone])
    rw [heq] at hprogram
    have hnode : list.node ≠ .stmt s := StmtPlace.holder_of_list? hlist ▸ hne
    have hold : st.scene.program.has list.node = true := StmtPlace.holder_of_list? hlist ▸ hholder
    rcases hprepared with h | ⟨_, _, hnop, h, _⟩
    · exact h.startsAt_hoisted hc hunseen hseen hrules hlist hnode hold hcan hprogram haddr
    · -- a statement that does nothing has no condition
      obtain ⟨_, c₁, hc₁, _, hl⟩ := of_hoistable? hcan
      rw [h.cell, Option.some.injEq] at hc₁
      subst hc₁
      have hl' : c.label = .stmt .ifElse line := hl
      rw [hl'] at hnop
      cases hnop

end Normalize

end MiddleEnd
