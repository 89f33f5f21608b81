import MiddleEnd.Proofs.Normalize.Boxed
import MiddleEnd.Proofs.Walk.Invariant

/-!
# MiddleEnd.Proofs.Normalize.Origin

Where the nodes come from that a run meets, on any program whatsoever.  The pass takes entries out
of lists, puts branches into blocks, moves conditions into temporaries and expressions out of
parentheses while the walk goes on.  Through all of that, whatever it enters *stems* from the
program `p` that the run started on: a position of `p` that is reached in `p` and was reached by the
run holds it there, or the run made it (`Follows`).

`follows` shows this of every operation of the walk, so `Invariant.run` has it for whole runs,
together with what they may halt for: the pass finds defects, and never misuses the tree.
-/

namespace MiddleEnd

open Walk

namespace Normalize

variable {p q q' : Program} {modules : List ModuleId} {seen : NodeSet} {n : NodeId}

/-! ## Following a program -/

/-- A position of `p` holds the node, and the walk has entered the owner of the position. -/
def Stems (p : Program) (modules : List ModuleId) (seen : NodeSet) (n : NodeId) : Prop :=
  ∃ pos : Position, p.Reaches modules pos.owner ∧ seen.contains pos.owner = true ∧
    p.heldAt? pos = some n

/-- `q` is what the pass has made of `p` so far, where it has entered the nodes of `seen`. -/
structure Follows (p : Program) (modules : List ModuleId) (seen : NodeSet) (q : Program) :
    Prop where
  has : ∀ n, p.has n = true → q.has n = true
  /-- What was not entered owns what it did. -/
  kept : ∀ n, p.has n = true → seen.contains n = false → q.cell? n = p.cell? n
  /-- What was entered or made owns nothing but what stems from `p` or was made. -/
  owned : ∀ {k c}, q.cell? k = some c → seen.contains k = true ∨ p.has k = false →
    ∀ m ∈ c.children, p.has m = true ∨ q.has m = false → Stems p modules seen m
  entered : ∀ n, seen.contains n = true → p.has n = true →
    (∃ m ∈ modules, n = .module m) ∨ Stems p modules seen n
  /-- What was made and not entered is no parenthesis. -/
  made : ∀ {n c}, p.has n = false → seen.contains n = false → q.cell? n = some c →
    c.label.isParen = false

theorem Stems.reaches (h : Stems p modules seen n) : p.Reaches modules n :=
  let ⟨_, howner, _, hheld⟩ := h
  .held howner hheld

theorem Stems.insert (h : Stems p modules seen n) (k : NodeId) :
    Stems p modules (seen.insert k) n :=
  let ⟨pos, howner, hseen, hheld⟩ := h
  ⟨pos, howner, by simp [hseen], hheld⟩

namespace Follows

theorem start (p : Program) (modules : List ModuleId) : Follows p modules .empty p where
  has _ h := h
  kept _ _ _ := rfl
  owned hc hk := by
    rcases hk with hk | hk
    · simp at hk
    · rw [Program.has_eq_cell?, hc] at hk
      cases hk
  entered n hn := by simp at hn
  made hn _ hc := by
    rw [Program.has_eq_cell?, hc] at hn
    cases hn

/-- What the walk meets stems from `p` if it was there, or is not there now. -/
theorem stems_of_held (h : Follows p modules seen q) {pos : Position}
    (howner : seen.contains pos.owner = true) (hheld : q.heldAt? pos = some n)
    (hn : p.has n = true ∨ q.has n = false) : Stems p modules seen n := by
  have hhas := Program.has_of_heldAt? hheld
  obtain ⟨c, hc⟩ := Program.exists_cell? hhas
  exact h.owned hc (.inl howner) n (List.mem_of_getElem? (Program.child_of_heldAt? hc hheld)) hn

/-- A node is entered. -/
theorem enter (h : Follows p modules seen q) (hunseen : seen.contains n = false)
    (hmet : p.has n = true → (∃ m ∈ modules, n = .module m) ∨ Stems p modules seen n) :
    Follows p modules (seen.insert n) q where
  has := h.has
  kept m hm hs := by
    rw [NodeSet.contains_insert, Bool.or_eq_false_iff] at hs
    exact h.kept m hm hs.2
  owned {k c} hc hk m hm hhas := by
    by_cases hnew : p.has k = false
    · exact (h.owned hc (.inr hnew) m hm hhas).insert n
    by_cases hkn : k = n
    · subst hkn
      have hk' : p.has k = true := by simpa using hnew
      rw [h.kept k hk' hunseen] at hc
      obtain ⟨pos, rfl, hheld⟩ := Program.owns_of_cell? hc hm
      refine ⟨pos, ?_, by simp, hheld⟩
      rcases hmet hk' with ⟨m, hm, he⟩ | hstems
      · exact he ▸ .root hm
      · exact hstems.reaches
    · refine (h.owned hc (.inl ?_) m hm hhas).insert n
      simpa [hkn, hnew] using hk
  entered m hm hhas := by
    rw [NodeSet.contains_insert, Bool.or_eq_true, decide_eq_true_iff] at hm
    rcases hm with rfl | hm
    · exact (hmet hhas).imp_right (·.insert m)
    · exact (h.entered m hm hhas).imp_right (·.insert n)
  made hm hs := by
    rw [NodeSet.contains_insert, Bool.or_eq_false_iff] at hs
    exact h.made hm hs.2

/-- Nodes that were entered change, and nodes are made, if what these own stems from `p` or was
made. -/
theorem edit {H : NodeId → Prop} (h : Follows p modules seen q) (hext : Program.Extends H q q')
    (hH : ∀ n, H n → seen.contains n = true)
    (howned : ∀ {n c}, q'.cell? n = some c → H n ∨ q.has n = false →
      ∀ m ∈ c.children, p.has m = true ∨ q'.has m = false → Stems p modules seen m)
    (hmade : ∀ {n c}, q'.cell? n = some c → q.has n = false → c.label.isParen = false) :
    Follows p modules seen q' where
  has n hn := hext.has n (h.has n hn)
  kept n hn hs := by
    rw [← h.kept n hn hs]
    refine hext.cell (h.has n hn) fun hHn => ?_
    rw [hH n hHn] at hs
    cases hs
  owned {k c} hc hk m hm hhas := by
    by_cases hedited : H k ∨ q.has k = false
    · exact howned hc hedited m hm hhas
    · rw [not_or, Bool.not_eq_false] at hedited
      exact h.owned (hext.cell hedited.2 hedited.1 ▸ hc) hk m hm
        (hhas.imp_right fun hnew => hext.missing hnew)
  entered := h.entered
  made {n c} hn hs hc := by
    cases hold : q.has n with
    | false => exact hmade hc hold
    | true =>
      rw [hext.cell hold fun hHn => by rw [hH n hHn] at hs; cases hs] at hc
      exact h.made hn hs hc

/-- What an edit has just made was not there at the start, and is there now. -/
theorem not_new {m : NodeId} {c : Cell} (h : Follows p modules seen q) (hold : q.has m = false)
    (hnew : q'.cell? m = some c) (hhas : p.has m = true ∨ q'.has m = false) : False := by
  rcases hhas with hhas | hhas
  · rw [h.has m hhas] at hold
    cases hold
  · rw [Program.has_of_cell? hnew] at hhas
    cases hhas

/-- An entered node is overwritten. -/
theorem put {c₀ c : Cell} {b : Backs} (h : Follows p modules seen q)
    (hput : Program.Put q q' n c b) (hn : seen.contains n = true) (hc₀ : q.cell? n = some c₀)
    (hc : ∀ m ∈ c.children,
      m ∈ c₀.children ∨ (p.has m = true ∨ q.has m = false → Stems p modules seen m)) :
    Follows p modules seen q' := by
  have hhas := hput.has_eq (by rw [hc₀]; rfl)
  refine h.edit (hput.frame (H := (· = n)) fun _ => rfl) (fun m hm => hm ▸ hn) ?_ ?_
  · rintro k c' hk hedited m hm hhas'
    obtain rfl : k = n := hedited.elim id fun hnew => by
      rw [← hhas, Program.has_eq_cell?, hk] at hnew
      cases hnew
    rw [hput.cell_self, Option.some.injEq] at hk
    subst hk
    rw [hhas] at hhas'
    rcases hc m hm with hold | hstems
    · exact h.owned hc₀ (.inl hn) m hold hhas'
    · exact hstems hhas'
  · intro k c' hk hnew
    rw [← hhas, Program.has_eq_cell?, hk] at hnew
    cases hnew

/-- Recording back-references leaves every cell as it is. -/
theorem congr (h : Follows p modules seen q) (hcell : ∀ n, q'.cell? n = q.cell? n) :
    Follows p modules seen q' where
  has n hn := by
    rw [Program.has_eq_cell?, hcell, ← Program.has_eq_cell?]
    exact h.has n hn
  kept n hn hs := (hcell n).trans (h.kept n hn hs)
  owned {k _} hc hk m hm hhas := by
    rw [Program.has_eq_cell? q', hcell, ← Program.has_eq_cell?] at hhas
    exact h.owned (hcell k ▸ hc) hk m hm hhas
  entered := h.entered
  made {n _} hn hs hc := h.made hn hs (hcell n ▸ hc)

end Follows

/-- Overwriting a node with what it was leaves every cell as it is. -/
theorem cell?_of_put {c : Cell} {b : Backs} (hput : Program.Put q q' n c b)
    (hc : q.cell? n = some c) (m : NodeId) : q'.cell? m = q.cell? m := by
  by_cases hm : m = n
  · rw [hm, hput.cell_self, hc]
  · exact hput.cell_ne hm

/-! ## The rewrites -/

section

variable {s : StmtId} {place : StmtPlace} {scene : Scene Normalizer}

theorem Follows.dropNop (h : Follows p modules seen scene.program)
    (hholder : seen.contains place.holder = true) :
    Follows p modules seen (dropNop s place scene).program := by
  rcases dropNop_cases s place scene with hself | ⟨list, ch, b, q, hlist, hch, hfits, hput, heq⟩
  · rw [hself]
    exact h
  · rw [heq]
    refine h.put hput (StmtPlace.holder_of_list? hlist ▸ hholder) hch fun m hm => .inl ?_
    rw [Cell.children, Program.stmts_of_cell? _ hch hfits]
    simp only [Cell.children, List.mem_append, List.mem_map, List.mem_filter] at hm ⊢
    rcases hm with hm | ⟨x, hx, he⟩
    · exact .inl hm
    · exact .inr ⟨x, hx.1, he⟩

theorem Follows.wrapBranches (h : Follows p modules seen scene.program)
    (hs : seen.contains (.stmt s) = true) (hhas : scene.program.has (.stmt s) = true)
    (haddr : (applyIf scene.own.rules.wrapBranches (wrapBranches s) scene).program.Addressable) :
    Follows p modules seen
      (applyIf scene.own.rules.wrapBranches (Normalize.wrapBranches s) scene).program := by
  obtain ⟨c, hc⟩ := Program.exists_cell? hhas
  obtain ⟨ys, news, hboxed⟩ := boxed_wrapBranches hc haddr
  have hchild : ∀ m ∈ c.stmts, p.has m = true ∨ scene.program.has m = false →
      Stems p modules seen m := fun m hm => h.owned hc (.inl hs) m (List.mem_append_right _ hm)
  refine h.edit hboxed.frame (fun n hn => hn ▸ hs) ?_ ?_
  · rintro n c' hc' (rfl | hnew) m hm hhas
    · rw [hboxed.cell, Option.some.injEq] at hc'
      subst hc'
      rw [Cell.children, List.mem_append] at hm
      rcases hm with hm | hm
      · exact h.owned hc (.inl hs) m (List.mem_append_left _ hm)
          (hhas.imp_right hboxed.frame.missing)
      · rcases hboxed.boxing.of_mem hm with hold | hnew
        · exact hchild m hold (hhas.imp_right hboxed.frame.missing)
        · obtain ⟨hfresh, _, _, _, _, hcell⟩ := hboxed.boxing.of_mem_news hnew
          exact (h.not_new hfresh hcell hhas).elim
    · have hmem := hboxed.new n hnew (Program.has_of_cell? hc')
      obtain ⟨_, line, x, hx, _, hcell⟩ := hboxed.boxing.of_mem_news hmem
      rw [hcell, Option.some.injEq] at hc'
      subst hc'
      obtain rfl : m = x := by simpa [Cell.children] using hm
      exact hchild m hx (hhas.imp_right hboxed.frame.missing)
  · intro n c' hc' hnew
    have hmem := hboxed.new n hnew (Program.has_of_cell? hc')
    obtain ⟨_, line, x, _, _, hcell⟩ := hboxed.boxing.of_mem_news hmem
    rw [hcell, Option.some.injEq] at hc'
    subst hc'
    rfl

/-- A condition moves into a temporary. -/
theorem Follows.hoistCondition (h : Follows p modules seen scene.program)
    (hs : seen.contains (.stmt s) = true) (hholder : seen.contains place.holder = true)
    (haddr : (hoistCondition s place scene).program.Addressable) :
    Follows p modules seen (hoistCondition s place scene).program := by
  rcases hoistedFrom_hoistCondition haddr with
    hself | ⟨c, list, ch, front, back, cond, line, temp, hplace, hfrom⟩
  · rw [hself]
    exact h
  have hhoists := hfrom.hoists
  have hlist : seen.contains list.node = true := StmtPlace.holder_of_list? hplace ▸ hholder
  have hcond : ∀ m ∈ c.children, p.has m = true ∨
      (Normalize.hoistCondition s place scene).program.has m = false → Stems p modules seen m :=
    fun m hm hhas =>
      h.owned hfrom.cell (.inl hs) m hm (hhas.imp_right hhoists.frame.missing)
  have hvar := hhoists.var.cell List.mem_cons_self
  have href := hhoists.ref.cell List.mem_cons_self
  have hdecl := hhoists.declCell
  have hnew : ∀ {n c'}, (Normalize.hoistCondition s place scene).program.cell? n = some c' →
      scene.program.has n = false → c'.label.isParen = false ∧
        (n = .stmt temp.decl ∧ c'.children = [.expr cond, .symbol temp.symbol] ∨
          c'.children = []) := by
    intro n c' hc' hn
    rcases hfrom.new hn (Program.has_of_cell? hc') with rfl | rfl | rfl
    · rw [Temp.varTree, Tree.id_node, hc', Option.some.injEq] at hvar
      subst hvar
      exact ⟨rfl, .inr rfl⟩
    · rw [hc', Option.some.injEq] at hdecl
      subst hdecl
      exact ⟨rfl, .inl ⟨rfl, rfl⟩⟩
    · rw [Temp.refTree, Tree.id_node, hc', Option.some.injEq] at href
      subst href
      exact ⟨rfl, .inr rfl⟩
  refine h.edit hhoists.frame ?_ ?_ fun hc' hn => (hnew hc' hn).1
  · rintro n (rfl | rfl)
    · exact hs
    · exact hlist
  rintro n c' hc' ((rfl | rfl) | hn) m hm hhas
  · rw [hhoists.cell, Option.some.injEq] at hc'
    subst hc'
    simp only [Cell.children, List.mem_append, List.mem_singleton] at hm
    rcases hm with (rfl | hm) | hm
    · exact (h.not_new hhoists.freshRef href hhas).elim
    · exact hcond m (by simp [Cell.children, hm]) hhas
    · exact hcond m (by simp [Cell.children, hm]) hhas
  · rw [hhoists.listCell, Option.some.injEq] at hc'
    subst hc'
    have hold : m ∈ ch.children ∨ m = .stmt temp.decl := by
      rw [Cell.children, Program.stmts_of_cell? _ hfrom.owner hfrom.fits, hfrom.entries]
      simp only [Cell.children, List.map_append, List.map_cons, List.mem_append,
        List.mem_cons] at hm ⊢
      tauto
    rcases hold with hold | rfl
    · exact h.owned hfrom.owner (.inl hlist) m hold (hhas.imp_right hhoists.frame.missing)
    · exact (h.not_new hhoists.freshDecl hdecl hhas).elim
  · rcases (hnew hc' hn).2 with ⟨rfl, hchildren⟩ | hnone
    · rw [hchildren] at hm
      rcases List.mem_cons.mp hm with rfl | hm
      · exact hcond _ (by simp [Cell.children, hfrom.exprs]) hhas
      · obtain rfl := List.mem_singleton.mp hm
        exact (h.not_new hhoists.freshVar hvar hhas).elim
    · rw [hnone] at hm
      cases hm

/-- Any expression can take the place of another one. -/
theorem put_at {owner : ExprOwner} {i : Nat} {e : ExprId} (hat : q.exprAt? ⟨owner, i⟩ = some e)
    (inner : ExprId) : ∃ q' c b, q.setExprAt? ⟨owner, i⟩ inner = some q' ∧
      q.cell? owner.node = some c ∧ c.exprs[i]? = some (.expr e) ∧
      Program.Put q q' owner.node { c with exprs := c.exprs.set i (.expr inner) } b := by
  have hheld : q.heldAt? (.expr ⟨owner, i⟩) = some (.expr e) := by
    rw [Program.heldAt?, hat]
    rfl
  obtain ⟨c, hc⟩ := Program.exists_cell? (show q.has owner.node = true from
    Program.has_of_heldAt? hheld)
  obtain ⟨b, hb⟩ := Program.backs?_of_cell? hc
  have hi : c.exprs[i]? = some (.expr e) := by
    rw [Program.exprs_of_cell? owner hc, List.getElem?_map]
    exact congrArg (Option.map NodeId.expr) hat
  obtain ⟨q', hset, _, hput⟩ :=
    Program.put_setExprAt? hc hb (List.getElem?_eq_some_iff.mp hi).1 inner
  exact ⟨q', c, b, hset, hc, hi, hput⟩

/-- What an entered expression owns takes its place. -/
theorem Follows.setExprAt? {e inner : ExprId} {place : ExprPlace} {c : Cell}
    (h : Follows p modules seen q) (he : seen.contains (.expr e) = true)
    (hc : q.cell? (.expr e) = some c) (hinner : .expr inner ∈ c.children)
    (howner : seen.contains place.owner.node = true) (hat : q.exprAt? place = some e)
    (hset : q.setExprAt? place inner = some q') : Follows p modules seen q' := by
  obtain ⟨owner, i⟩ := place
  obtain ⟨q₁, ch, b, hset₁, hch, _, hput⟩ := put_at hat inner
  obtain rfl : q₁ = q' := Option.some.inj (hset₁.symm.trans hset)
  refine h.put hput howner hch fun m hm => ?_
  simp only [Cell.children, List.mem_append] at hm ⊢
  rcases hm with (hm | hm) | hm
  · rcases List.mem_or_eq_of_mem_set hm with hm | rfl
    · exact .inl (.inl (.inl hm))
    · exact .inr (h.owned hc (.inl he) _ hinner)
  · exact .inl (.inl (.inr hm))
  · exact .inl (.inr hm)

/-- What each rewrite of a statement keeps is kept where the statement is rewritten. -/
theorem rewriteStmt_steps {P : Program → Prop} {isNop : Bool}
    (haddr : (rewriteStmt s place isNop scene).program.Addressable)
    (hmark : P (marked s scene).program)
    (hdrop : scene.own.rules.dropNops = true → isNop = true → ∀ scene', Larger scene scene' →
      P scene'.program → P (dropNop s place scene').program)
    (hwrap : ∀ scene', Larger scene scene' → P scene'.program →
      (applyIf scene'.own.rules.wrapBranches (wrapBranches s) scene').program.Addressable →
      P (applyIf scene'.own.rules.wrapBranches (wrapBranches s) scene').program)
    (hhoist : scene.own.rules.hoistCallConditions = true → ∀ scene', Larger scene scene' →
      P scene'.program → (hoistCondition s place scene').program.Addressable →
      P (hoistCondition s place scene').program) :
    P (rewriteStmt s place isNop scene).program := by
  rw [rewriteStmt_eq] at haddr ⊢
  have hmarked : Larger scene (marked s scene) := .of_sameSize (Program.sameSize_updateStmt s _) rfl
  obtain ⟨scene₁, heq, hlarger₁, h₁⟩ : ∃ scene₁,
      applyIf (scene.own.rules.dropNops && isNop) (dropNop s place) (marked s scene) = scene₁ ∧
        Larger (marked s scene) scene₁ ∧ P scene₁.program := by
    refine ⟨_, rfl, larger_applyIf (larger_dropNop s place) _ _, ?_⟩
    cases hb : scene.own.rules.dropNops && isNop with
    | false => exact hmark
    | true =>
      obtain ⟨hr, hnop⟩ := Bool.and_eq_true_iff.mp hb
      exact hdrop hr hnop _ hmarked hmark
  have hold₁ := Larger.composes.trans hmarked hlarger₁
  rw [heq, ← hold₁.rules] at haddr ⊢
  have hlarger₂ := larger_applyIf (larger_wrapBranches s) scene₁.own.rules.wrapBranches scene₁
  have hlarger₃ := larger_applyIf (larger_hoistCondition s place)
    scene₁.own.rules.hoistCallConditions
    (applyIf scene₁.own.rules.wrapBranches (wrapBranches s) scene₁)
  have h₂ := hwrap scene₁ hold₁ h₁ (hlarger₃.addressable haddr)
  cases hr : scene₁.own.rules.hoistCallConditions with
  | false => exact h₂
  | true =>
    rw [hr, applyIf_true] at haddr
    exact hhoist (hold₁.rules ▸ hr) _ (Larger.composes.trans hold₁ hlarger₂) h₂ haddr

/-- A statement is rewritten. -/
theorem Follows.rewriteStmt {isNop : Bool} (h : Follows p modules seen scene.program)
    (hs : seen.contains (.stmt s) = true) (hholder : seen.contains place.holder = true)
    (hhas : scene.program.has (.stmt s) = true)
    (haddr : (rewriteStmt s place isNop scene).program.Addressable) :
    Follows p modules seen (rewriteStmt s place isNop scene).program := by
  obtain ⟨c, hc⟩ := Program.exists_cell? hhas
  refine rewriteStmt_steps haddr (h.congr (cell?_of_put (Program.put_stmtParents hc _ _) hc))
    (fun _ _ _ _ h₁ => h₁.dropNop hholder)
    (fun _ hlarger h₁ => h₁.wrapBranches hs (hlarger.has _ hhas))
    fun _ _ _ h₂ => h₂.hoistCondition hs hholder

end

/-! ## The hooks -/

/-- What a run keeps: nodes that were entered exist, and the walk follows `p` as long as nodes have
ids. -/
def Following (p : Program) (modules : List ModuleId) (st : WalkState Normalizer) : Prop :=
  Sound st ∧ (st.scene.program.Addressable → Follows p modules st.trail.seen st.scene.program)

section

variable {st : WalkState Normalizer} {hook : NormalizeM Unit}

/-- A hook that accepts or finds a defect, and follows `p` where it accepts. -/
theorem Following.call (hst : Following p modules st) (hat : HookAt hooks n hook)
    (hfault : ∀ fault scene, exec hook st.scene ≠ (.error (.fault fault), scene))
    (hok : ∀ scene, exec hook st.scene = (.ok (), scene) → scene.program.Addressable →
      Follows p modules st.trail.seen st.scene.program →
      Follows p modules st.trail.seen scene.program) :
    Does (Walk.call hooks n hook) st (fun _ => Following p modules)
      fun e _ => ∃ d, e = .defect d := by
  have hlarger := keeps_hook hat st.scene
  rcases hexec : exec hook st.scene with ⟨(cause | fault) | ⟨⟩, scene⟩
  · exact does_of_error (by rw [exec_call, hexec]) ⟨_, rfl⟩
  · exact (hfault fault scene hexec).elim
  · rw [hexec] at hlarger
    refine does_of_ok (exec_call_ok hexec) ⟨fun m hm => hlarger.has m (hst.1 m hm), fun haddr => ?_⟩
    exact hok scene hexec haddr (hst.2 (hlarger.addressable haddr))

/-- A hook that only moves the context follows `p`. -/
theorem Following.move (hst : Following p modules st) (m : ContextM Unit)
    (hat : HookAt hooks n (Normalize.move m)) :
    Does (Walk.call hooks n (Normalize.move m)) st (fun _ => Following p modules)
      fun e _ => ∃ d, e = .defect d := by
  refine hst.call hat (fun fault scene hexec => ?_) fun scene hexec _ h => ?_
  all_goals
    rw [exec_move] at hexec
    split at hexec <;> cases hexec
  exact h

end

/-- Every operation of a run follows the program that the run started on, and halts with a defect if
it halts. -/
theorem following (p : Program) (modules : List ModuleId) :
    Invariant hooks modules (Following p modules) fun e => ∃ d, e = .defect d where
  defect _ _ := ⟨_, rfl⟩
  enter {st n} hst hmet hhas hunseen := by
    refine ⟨fun m hm => ?_, fun haddr => (hst.2 haddr).enter hunseen fun hn => ?_⟩
    · rw [entering, NodeSet.contains_insert, Bool.or_eq_true, decide_eq_true_iff] at hm
      exact hm.elim (fun he => he ▸ hhas) (hst.1 m)
    · cases hmet with
      | root hm => exact .inl ⟨_, hm, rfl⟩
      | held howner hheld => exact .inr ((hst.2 haddr).stems_of_held howner hheld (.inl hn))
  leave _ hst := hst
  call {st n hook} hst hn hsite := by
    have hat := hsite.hookAt
    have hhas := hst.1 n hn
    cases hsite with
    | preSymbol s =>
      obtain ⟨c, hc⟩ := Program.exists_cell? hhas
      obtain ⟨x, hx, _⟩ := Program.cell?_symbol hc
      have hsymbol : st.scene.program.symbol s = .ok x := by rw [Program.symbol, hx]
      rw [hooks_preSymbol] at hat ⊢
      refine hst.call hat (fun fault scene hexec => ?_) fun scene hexec _ h => ?_
      all_goals
        rw [exec_preSymbol, hsymbol] at hexec
        cases hexec
      exact h.congr (cell?_of_put (Program.put_scope hc _) hc)
    | postSymbol s =>
      rw [hooks_postSymbol] at hat ⊢
      exact hst.move _ hat
    | @preStmt s place hplace hholder hne =>
      obtain ⟨c, hc⟩ := Program.exists_cell? hhas
      obtain ⟨x, hx, _⟩ := Program.cell?_stmt hc
      have hstmt : st.scene.program.stmt s = .ok x := by rw [Program.stmt, hx]
      rw [hooks_preStmt] at hat ⊢
      refine hst.call hat (fun fault scene hexec => ?_) fun scene hexec haddr h => ?_
      all_goals
        rw [exec_preStmt, hstmt] at hexec
        obtain ⟨hresult, hscene⟩ := Prod.mk.inj hexec
      · cases hresult
      · subst hscene
        exact h.rewriteStmt hn hholder (hst.1 _ hn) haddr
    | postStmt s =>
      rw [hooks_postStmt] at hat ⊢
      exact hst.move _ hat
    | @preExpr e place hplace howner hne =>
      obtain ⟨c, hc⟩ := Program.exists_cell? hhas
      obtain ⟨x, hx, hxcell⟩ := Program.cell?_expr hc
      rw [hooks_preExpr] at hat ⊢
      refine hst.call hat (fun fault scene hexec => ?_) fun scene hexec _ h => ?_
      · rcases of_exec_preExpr hx hexec with ⟨cause, hresult⟩ | ⟨hresult, _⟩ <;> cases hresult
      rcases of_exec_preExpr hx hexec with ⟨cause, hresult⟩ | ⟨_, _, hscene⟩
      · cases hresult
      rcases hscene with ⟨inner, q, hk, _, hset, rfl⟩ | ⟨rfl, _⟩
      · exact h.setExprAt? hn hc (by simp [Cell.children, hxcell, Node.cell, hk, ExprKind.operands])
          howner hplace hset
      · exact h.congr (cell?_of_put (Program.put_exprParents hc _ _) hc)
    | postExpr e =>
      rw [hooks_postExpr] at hat ⊢
      refine hst.call hat (fun fault scene hexec => ?_) fun scene hexec _ h => ?_
      all_goals cases hexec
      exact h

end Normalize

end MiddleEnd
