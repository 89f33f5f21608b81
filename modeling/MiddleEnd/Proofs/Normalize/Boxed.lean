import MiddleEnd.Proofs.Normalize.Balance
import MiddleEnd.Proofs.Normalize.Lists
import MiddleEnd.Proofs.Normalize.Made

/-!
# MiddleEnd.Proofs.Normalize.Boxed

What the pass does to a statement of any program whatsoever.  `MiddleEnd.Proofs.Normalize.Rewrite`
goes from trees to what becomes of them; here nothing is known but the statement itself, and what
it holds may be missing or held elsewhere too.

A statement is prepared first: it may be dropped from its list, and its branches may be put into new
blocks (`Prepared`).  Then its condition may be hoisted (`HoistedFrom`).
-/

namespace MiddleEnd

/-- A list that holds something belongs to a node that owns its statements as a list. -/
theorem Program.fits_of_mem {p : Program} {list : StmtList} {c : Cell} {s : StmtId}
    (hc : p.cell? list.node = some c) (hs : s ∈ p.stmtsIn list) : list.Fits c.label := by
  cases list with
  | body x =>
    obtain ⟨y, _, rfl⟩ := Program.cell?_symbol hc
    trivial
  | block b =>
    obtain ⟨⟨k, _, _, _⟩, hx, rfl⟩ := Program.cell?_stmt hc
    cases k with
    | block stmts => trivial
    | _ => simp [Program.stmtsIn, Program.stmtList?, hx, StmtKind.entries?] at hs

/-- The owner of a list that holds something. -/
theorem Program.cell?_of_mem_stmtsIn {p : Program} {list : StmtList} {s : StmtId}
    (hs : s ∈ p.stmtsIn list) : ∃ c, p.cell? list.node = some c ∧ list.Fits c.label := by
  obtain ⟨i, hi⟩ := List.getElem?_of_mem hs
  have hheld : p.heldAt? (.stmt (.entry list i)) = some (.stmt s) := by
    rw [heldAt?_entry, hi]
    rfl
  have hhas := has_of_heldAt? hheld
  obtain ⟨c, hc⟩ := exists_cell? hhas
  exact ⟨c, hc, fits_of_mem hc hs⟩

/-- The entries of a list are held by the owner of the list. -/
theorem StmtPlace.holder_of_list? {place : StmtPlace} {list : StmtList}
    (h : place.list? = some list) : place.holder = list.node := by
  cases place with
  | entry list' i =>
    cases h
    rfl
  | branch owner which => cases h

namespace Normalize

open MiddleEnd.Tree Walk

/-! ## Branches in blocks -/

/-- From `p` to `q` the statements `xs` have become `ys`: each of them is still there, or it exists
and is in a block of `news` that was not there before. -/
inductive Boxing (p q : Program) : List NodeId → List NodeId → List NodeId → Prop where
  | nil : Boxing p q [] [] []
  | keep {xs ys news : List NodeId} (x : NodeId) (h : Boxing p q xs ys news) :
      Boxing p q (x :: xs) (x :: ys) news
  | box {xs ys news : List NodeId} {x y : NodeId} {line : UInt32} (hx : q.has x = true)
      (hfresh : p.has y = false) (hcell : q.cell? y = some ⟨.stmt .block line, [], [], [x]⟩)
      (h : Boxing p q xs ys news) :
      Boxing p q (x :: xs) (y :: ys) (y :: news)

namespace Boxing

variable {p q r : Program} {xs ys news xs' ys' news' : List NodeId}

theorem refl (p q : Program) : ∀ xs, Boxing p q xs xs []
  | [] => .nil
  | x :: xs => .keep x (refl p q xs)

/-- Statements in a row are put into blocks one behind the other. -/
theorem append (h : Boxing p q xs ys news) (h' : Boxing p q xs' ys' news') :
    Boxing p q (xs ++ xs') (ys ++ ys') (news ++ news') := by
  induction h with
  | nil => exact h'
  | keep x _ ih => exact .keep x ih
  | box hx hfresh hcell _ ih => exact .box hx hfresh hcell ih

/-- Every new block holds one of the statements, which exists. -/
theorem of_mem_news (h : Boxing p q xs ys news) {n : NodeId} (hn : n ∈ news) :
    p.has n = false ∧ ∃ line, ∃ x ∈ xs, q.has x = true ∧
      q.cell? n = some ⟨.stmt .block line, [], [], [x]⟩ := by
  induction h with
  | nil => cases hn
  | keep x _ ih =>
    obtain ⟨hfresh, line, x', hx', hcell⟩ := ih hn
    exact ⟨hfresh, line, x', List.mem_cons_of_mem x hx', hcell⟩
  | @box xs ys news x y line hx hfresh hcell _ ih =>
    rcases List.mem_cons.mp hn with rfl | hn
    · exact ⟨hfresh, line, x, List.mem_cons_self, hx, hcell⟩
    · obtain ⟨hfresh, line, x', hx', hcell⟩ := ih hn
      exact ⟨hfresh, line, x', List.mem_cons_of_mem x hx', hcell⟩

/-- What stands there now is what stood there before, or one of the new blocks. -/
theorem of_mem (h : Boxing p q xs ys news) {n : NodeId} (hn : n ∈ ys) : n ∈ xs ∨ n ∈ news := by
  induction h with
  | nil => exact .inl hn
  | keep x _ ih =>
    rcases List.mem_cons.mp hn with rfl | hn
    · exact .inl List.mem_cons_self
    · exact (ih hn).imp_left (List.mem_cons_of_mem x)
  | box _ _ _ _ ih =>
    rcases List.mem_cons.mp hn with rfl | hn
    · exact .inr List.mem_cons_self
    · exact (ih hn).imp (List.mem_cons_of_mem _) (List.mem_cons_of_mem _)

/-- The blocks stay as they are when other nodes change. -/
theorem frame {H : NodeId → Prop} (h : Boxing p q xs ys news) (hqr : Program.Extends H q r)
    (hH : ∀ n, H n → p.has n = true) : Boxing p r xs ys news := by
  induction h with
  | nil => exact .nil
  | keep x _ ih => exact .keep x ih
  | @box xs ys news x y line hx hfresh hcell _ ih =>
    have hy : ¬ H y := fun hHy => by
      rw [hH y hHy] at hfresh
      cases hfresh
    have hcell' := (hqr.cell (Program.has_of_cell? hcell) hy).trans hcell
    exact .box (hqr.has x hx) hfresh hcell' ih

theorem mono (h : Boxing q r xs ys news) (hpq : ∀ n, p.has n = true → q.has n = true) :
    Boxing p r xs ys news := by
  induction h with
  | nil => exact .nil
  | keep x _ ih => exact .keep x ih
  | @box xs ys news x y line hx hfresh hcell _ ih =>
    refine .box hx ?_ hcell ih
    by_contra hhas
    rw [hpq y (by simpa using hhas)] at hfresh
    cases hfresh

theorem subset (h : Boxing p q xs ys news) : ∀ n ∈ news, n ∈ ys := by
  induction h with
  | nil => exact fun _ hn => hn
  | keep x _ ih => exact fun n hn => List.mem_cons_of_mem x (ih n hn)
  | box _ _ _ _ ih =>
    intro n hn
    rcases List.mem_cons.mp hn with rfl | hn
    · exact List.mem_cons_self
    · exact List.mem_cons_of_mem _ (ih n hn)

/-- What stands there, with what the new blocks hold, is what stood there and the blocks. -/
theorem perm (h : Boxing p q xs ys news) :
    (ys ++ news.flatMap q.childrenOf).Perm (xs ++ news) := by
  induction h with
  | nil => exact .refl _
  | keep x _ ih => exact ih.cons x
  | @box xs ys news x y line _ _ hcell _ ih =>
    have hx : q.childrenOf y = [x] := Program.childrenOf_of_cell? hcell
    rw [List.flatMap_cons, hx]
    calc (y :: ys ++ ([x] ++ news.flatMap q.childrenOf)).Perm
          (y :: x :: (ys ++ news.flatMap q.childrenOf)) := List.perm_middle.cons y
      List.Perm _ (x :: y :: (ys ++ news.flatMap q.childrenOf)) := .swap x y _
      List.Perm _ (x :: y :: (xs ++ news)) := (ih.cons y).cons x
      List.Perm _ _ := List.perm_middle.symm.cons x

end Boxing

/-- `scene'` is `scene` with some statements `xs` that `s` holds in new blocks; now it holds `stmts`
in all, and `ys` for `xs`. -/
structure Boxed (s : StmtId) (c : Cell) (scene scene' : Scene Normalizer)
    (stmts xs ys news : List NodeId) : Prop where
  place : SamePlace scene.own scene'.own
  frame : Program.Extends (· = .stmt s) scene.program scene'.program
  cell : scene'.program.cell? (.stmt s) = some { c with stmts }
  boxing : Boxing scene.program scene'.program xs ys news
  nodup : news.Nodup
  new : ∀ n, scene.program.has n = false → scene'.program.has n = true → n ∈ news

section

variable {s : StmtId} {head : StmtHead} {line : UInt32} {c : Cell}
  {scene scene₁ scene₂ : Scene Normalizer} {stmts stmts' xs ys news xs' ys' news' : List NodeId}

theorem Boxed.refl (hc : scene.program.cell? (.stmt s) = some c) (xs : List NodeId) :
    Boxed s c scene scene c.stmts xs xs [] where
  place := .refl _
  frame := .refl _ _
  cell := hc
  boxing := .refl _ _ xs
  nodup := List.nodup_nil
  new n hn hn' := by
    rw [hn] at hn'
    cases hn'

/-- Some statements after others are put into blocks. -/
theorem Boxed.trans (h : Boxed s c scene scene₁ stmts xs ys news)
    (h' : Boxed s { c with stmts } scene₁ scene₂ stmts' xs' ys' news')
    (hs : scene.program.has (.stmt s) = true) :
    Boxed s c scene scene₂ stmts' (xs ++ xs') (ys ++ ys') (news ++ news') where
  place := h.place.trans h'.place
  frame := h.frame.trans h'.frame
  cell := h'.cell
  boxing := (h.boxing.frame h'.frame fun _ he => he ▸ hs).append (h'.boxing.mono h.frame.has)
  nodup := by
    refine List.nodup_append.mpr ⟨h.nodup, h'.nodup, fun n hn m hm he => ?_⟩
    obtain ⟨_, line, x, _, _, hcell⟩ := h.boxing.of_mem_news hn
    have hfresh := (h'.boxing.of_mem_news hm).1
    rw [← he, Program.has_eq_cell?, hcell] at hfresh
    cases hfresh
  new n hn hn' := by
    cases hmid : scene₁.program.has n with
    | true => exact List.mem_append_left _ (h.new n hn hmid)
    | false => exact List.mem_append_right _ (h'.new n hmid hn')

/-- One branch is put into a block, unless it is a block or missing. -/
theorem boxed_wrapBranch {which : Branch} {x : NodeId} {front back : List NodeId}
    (hc : scene.program.cell? (.stmt s) = some c) (hl : c.label = .stmt head line)
    (hw : which ∈ head.branches) (hstmts : c.stmts = front ++ x :: back)
    (hindex : which.index = front.length)
    (haddr : (wrapBranch (.branch s which) scene).program.Addressable) :
    ∃ y news, Boxed s c scene (wrapBranch (.branch s which) scene) (front ++ y :: back) [x] [y]
      news := by
  have hat := Program.branch_of_cell? hc hl hw
  rw [hstmts, hindex, List.getElem?_append_right (Nat.le_refl _), Nat.sub_self,
    List.getElem?_cons_zero, Option.map_eq_some_iff] at hat
  obtain ⟨x, hat, rfl⟩ := hat
  have hkeep : Boxed s c scene scene (front ++ .stmt x :: back) [.stmt x] [.stmt x] [] :=
    hstmts ▸ .refl hc _
  cases hx : scene.program.stmt? x with
  | none =>
    have hself : wrapBranch (.branch s which) scene = scene := by
      rewrite [wrapBranch, hat, Option.bind_some, hx]
      rfl
    rw [hself]
    exact ⟨_, _, hkeep⟩
  | some z =>
    by_cases hb : z.kind.isBlock = true
    · have hself : wrapBranch (.branch s which) scene = scene := by
        rw [wrapBranch_eq hat hx, if_pos hb]
      rw [hself]
      exact ⟨_, _, hkeep⟩
    · have hboxes := boxes_wrapBranch hc hl hw hat hx (by simpa using hb) haddr.stmts
      have hmore : Program.More scene.program (wrapBranch (.branch s which) scene).program 0 1 0 :=
        ⟨(larger_wrapBranch _ scene).modules, congrArg Supply.symbols hboxes.supply,
          congrArg Supply.stmts hboxes.supply, congrArg Supply.exprs hboxes.supply⟩
      have hhas : scene.program.has (.stmt x) = true := by
        rw [Program.has, hx]
        rfl
      refine ⟨_, _, hboxes.place, hboxes.frame, ?_,
        .box (hboxes.frame.has _ hhas) hboxes.fresh hboxes.block .nil, List.nodup_singleton _, ?_⟩
      · rw [hboxes.cell, hstmts, hindex]
        simp
      · intro n hn hn'
        have hfresh := (Program.mem_fresh hmore haddr n).mpr ⟨hn, hn'⟩
        simpa [Program.fresh] using hfresh

/-- The branches from some position on are put into blocks, one after another. -/
theorem boxed_foldl : ∀ {whichs : List Branch} (front xs : List NodeId) {c : Cell}
    {scene : Scene Normalizer}, scene.program.cell? (.stmt s) = some c →
    c.label = .stmt head line → (∀ which ∈ whichs, which ∈ head.branches) →
    whichs.map Branch.index = List.range' front.length whichs.length →
    c.stmts = front ++ xs → xs.length ≤ whichs.length →
    ((whichs.map (StmtPlace.branch s)).foldl (fun scene place => wrapBranch place scene)
      scene).program.Addressable →
    ∃ ys news, Boxed s c scene
      ((whichs.map (StmtPlace.branch s)).foldl (fun scene place => wrapBranch place scene) scene)
      (front ++ ys) xs ys news
  | whichs, front, [], c, scene, hc, hl, hw, hindex, hstmts, _, _ => by
    rw [foldl_wrapBranch_of_none
      (Program.stmtAt?_eq_none_of_branches hc hl hw (by simp [hstmts]) hindex)]
    exact ⟨[], [], hstmts ▸ .refl hc []⟩
  | [], front, x :: xs, c, scene, _, _, _, _, _, hlen, _ => by
    simp at hlen
  | which :: whichs, front, x :: xs, c, scene, hc, hl, hw, hindex, hstmts, hlen, haddr => by
    rw [List.map_cons, List.length_cons, List.range'_succ, List.cons.injEq] at hindex
    rw [List.map_cons, List.foldl_cons] at haddr ⊢
    have hlarger := larger_foldl_wrapBranch (whichs.map (StmtPlace.branch s))
      (wrapBranch (.branch s which) scene)
    obtain ⟨y, news, hfirst⟩ := boxed_wrapBranch hc hl (hw which List.mem_cons_self) hstmts
      hindex.1 (hlarger.addressable haddr)
    obtain ⟨ys, news', hrest⟩ := boxed_foldl (front ++ [y]) xs hfirst.cell hl
      (fun w hw' => hw w (List.mem_cons_of_mem which hw')) (by simpa using hindex.2) (by simp)
      (by simpa using hlen) haddr
    have hhas : scene.program.has (.stmt s) = true := Program.has_of_cell? hc
    exact ⟨y :: ys, news ++ news', by simpa using hfirst.trans hrest hhas⟩

/-- The branches of a statement are put into blocks if the rule is on. -/
theorem boxed_wrapBranches (hc : scene.program.cell? (.stmt s) = some c)
    (haddr : (applyIf scene.own.rules.wrapBranches (wrapBranches s) scene).program.Addressable) :
    ∃ ys news, Boxed s c scene (applyIf scene.own.rules.wrapBranches (wrapBranches s) scene) ys
      c.stmts ys news := by
  cases hr : scene.own.rules.wrapBranches with
  | false => exact ⟨_, _, .refl hc _⟩
  | true =>
    rw [hr, applyIf_true] at haddr
    rw [applyIf_true]
    obtain ⟨head, line, hl⟩ := Program.exists_stmt_label hc
    by_cases hb : head.branches = []
    · have hnot : c.label.hasBranches = false := by rw [hl]; exact branches_eq_nil.mp hb
      rw [wrapBranches_of_none hc hnot]
      exact ⟨_, _, .refl hc _⟩
    · rw [wrapBranches_eq_foldl hc hl hb] at haddr ⊢
      exact boxed_foldl [] c.stmts hc hl (fun _ hw => hw) head.index_branches rfl
        (Program.length_branches hc hl hb) haddr

end

/-! ## What is done before a condition is hoisted -/

/-- What the pass makes of a statement before its condition is looked at. -/
def prepare (s : StmtId) (place : StmtPlace) (isNop : Bool) : Rewrite := fun scene =>
  applyIf scene.own.rules.wrapBranches (wrapBranches s)
    (applyIf (scene.own.rules.dropNops && isNop) (dropNop s place) (marked s scene))

/-- The pass prepares a statement, and then looks at its condition. -/
theorem rewriteStmt_prepare (s : StmtId) (place : StmtPlace) (isNop : Bool)
    (scene : Scene Normalizer) : rewriteStmt s place isNop scene =
      applyIf scene.own.rules.hoistCallConditions (hoistCondition s place)
        (prepare s place isNop scene) := rfl

/-- A statement is taken out of the list that holds it, or nothing is done. -/
theorem dropNop_cases (s : StmtId) (place : StmtPlace) (scene : Scene Normalizer) :
    dropNop s place scene = scene ∨
      ∃ list ch b q, place.list? = some list ∧ scene.program.cell? list.node = some ch ∧
        list.Fits ch.label ∧ Program.Put scene.program q list.node
          { ch with stmts := ((scene.program.stmtsIn list).filter (· ≠ s)).map .stmt } b ∧
        dropNop s place scene = { scene with
          program := q
          own.counts.droppedNops := scene.own.counts.droppedNops + 1 } := by
  cases place with
  | branch owner which => exact .inl (dropNop_of_branch rfl s scene)
  | entry list i =>
    by_cases hmem : s ∈ scene.program.stmtsIn list
    · obtain ⟨ch, hch, hfits⟩ := Program.cell?_of_mem_stmtsIn hmem
      obtain ⟨b, hb⟩ := Program.backs?_of_cell? hch
      obtain ⟨q, hremove, _, hput⟩ := Program.put_removeStmt? hch hb hmem
      refine .inr ⟨list, ch, b, q, rfl, hch, hfits, hput, ?_⟩
      rw [dropNop]
      simp only [StmtPlace.list?, hremove]
    · left
      have hnone : scene.program.removeStmt? list s = none := by
        simp only [Program.stmtsIn] at hmem
        cases hlist : scene.program.stmtList? list <;> simp_all [Program.removeStmt?]
      rw [dropNop]
      simp only [StmtPlace.list?, hnone]

/-- `scene'` is `scene` with the statement `s` prepared, of which the cell was `c`: now it holds
`ys`, and the new nodes are the blocks `news` among them. -/
structure Prepared (H : NodeId → Prop) (s : StmtId) (c : Cell) (scene scene' : Scene Normalizer)
    (ys news : List NodeId) : Prop where
  place : SamePlace scene.own scene'.own
  frame : Program.Extends (fun n => n = .stmt s ∨ H n) scene.program scene'.program
  cell : scene'.program.cell? (.stmt s) = some { c with stmts := ys }
  boxing : Boxing scene.program scene'.program c.stmts ys news
  nodup : news.Nodup
  new : ∀ n, scene.program.has n = false → scene'.program.has n = true → n ∈ news

section

variable {s : StmtId} {place : StmtPlace} {isNop : Bool} {c : Cell}
  {scene scene₁ : Scene Normalizer}

/-- Branches are put into blocks after other things were done that made no nodes. -/
theorem Boxed.prepared {H : NodeId → Prop} {scene₂ : Scene Normalizer} {ys news : List NodeId}
    (hplace : SamePlace scene.own scene₁.own)
    (hframe : Program.Extends (fun n => n = .stmt s ∨ H n) scene.program scene₁.program)
    (hhas : ∀ n, scene₁.program.has n = scene.program.has n)
    (h : Boxed s c scene₁ scene₂ ys c.stmts ys news) : Prepared H s c scene scene₂ ys news where
  place := hplace.trans h.place
  frame := hframe.trans (h.frame.mono fun _ => .inl)
  cell := h.cell
  boxing := h.boxing.mono hframe.has
  nodup := h.nodup
  new n hn := h.new n (by rw [hhas, hn])

/-- A statement is prepared where it stands, or it is a statement that does nothing and is taken out
of its list. -/
theorem prepared (hc : scene.program.cell? (.stmt s) = some c) (hne : place.holder ≠ .stmt s)
    (haddr : (prepare s place isNop scene).program.Addressable) :
    ∃ ys news, Prepared nowhere s c scene (prepare s place isNop scene) ys news ∨
      ∃ list, place.list? = some list ∧ isNop = true ∧
        Prepared (· = list.node) s c scene (prepare s place isNop scene) ys news ∧
        (prepare s place isNop scene).program.stmtsIn list =
          (scene.program.stmtsIn list).filter (· ≠ s) := by
  have hput : Program.Put scene.program (marked s scene).program (.stmt s) c _ :=
    Program.put_stmtParents hc _ _
  have hhas : ∀ n, (marked s scene).program.has n = scene.program.has n :=
    hput.has_eq (by rw [hc]; rfl)
  have hframe : ∀ H : NodeId → Prop, Program.Extends (fun n => n = .stmt s ∨ H n) scene.program
      (marked s scene).program := fun H => hput.frame fun _ => .inl rfl
  have hwrap : ∀ scene₁, applyIf (scene.own.rules.dropNops && isNop) (dropNop s place)
      (marked s scene) = scene₁ → scene₁.own.rules = scene.own.rules →
      prepare s place isNop scene =
        applyIf scene₁.own.rules.wrapBranches (wrapBranches s) scene₁ := by
    rintro scene₁ rfl hrules
    rw [prepare, hrules]
  have hkept : applyIf (scene.own.rules.dropNops && isNop) (dropNop s place) (marked s scene) =
      marked s scene →
        ∃ ys news, Prepared nowhere s c scene (prepare s place isNop scene) ys news := by
    intro hself
    have heq := hwrap _ hself rfl
    rw [heq] at haddr ⊢
    obtain ⟨ys, news, hboxed⟩ := boxed_wrapBranches hput.cell_self haddr
    have hplace : SamePlace scene.own (marked s scene).own := ⟨rfl, rfl⟩
    exact ⟨ys, news, hboxed.prepared hplace (hframe _) hhas⟩
  cases hb : scene.own.rules.dropNops && isNop with
  | false =>
    obtain ⟨ys, news, h⟩ := hkept (by rw [hb]; rfl)
    exact ⟨ys, news, .inl h⟩
  | true =>
    rcases dropNop_cases s place (marked s scene) with
      hself | ⟨list, ch, b, q, hlist, hch, hfits, hdrop, heq⟩
    · obtain ⟨ys, news, h⟩ := hkept (by rw [hb, applyIf_true, hself])
      exact ⟨ys, news, .inl h⟩
    · have hnode : list.node ≠ .stmt s := StmtPlace.holder_of_list? hlist ▸ hne
      have hentries : (marked s scene).program.stmtsIn list = scene.program.stmtsIn list := by
        have hch' := hch
        rw [hput.cell_ne hnode] at hch'
        rw [← map_stmt_inj, ← Program.stmts_of_cell? _ hch hfits,
          Program.stmts_of_cell? _ hch' hfits]
      generalize hscene : ({ marked s scene with
        program := q
        own.counts.droppedNops := _ } : Scene Normalizer) = scene₁ at heq
      have hprogram : scene₁.program = q := by rw [← hscene]
      have hrest := hwrap scene₁ (by rw [hb, applyIf_true, heq]) (by rw [← hscene]; rfl)
      rw [hrest] at haddr ⊢
      have hc₁ : scene₁.program.cell? (.stmt s) = some c := by
        rw [hprogram, hdrop.cell_ne hnode.symm, hput.cell_self]
      have hch₁ : scene₁.program.cell? list.node = some _ := hprogram ▸ hdrop.cell_self
      obtain ⟨ys, news, hboxed⟩ := boxed_wrapBranches hc₁ haddr
      refine ⟨ys, news, .inr ⟨list, hlist, by simpa using (Bool.and_eq_true_iff.mp hb).2,
        hboxed.prepared ?_ ?_ ?_, ?_⟩⟩
      · rw [← hscene]
        exact ⟨rfl, rfl⟩
      · rw [hprogram]
        exact (hframe _).trans (hdrop.frame fun _ => .inr rfl)
      · intro n
        rw [hprogram, hdrop.has_eq (by rw [hch]; rfl), hhas]
      · have hch₂ := hch₁
        rw [← hboxed.frame.cell (Program.has_of_cell? hch₁) hnode] at hch₂
        rw [← map_stmt_inj, ← Program.stmts_of_cell? _ hch₂ hfits, hentries]

end

/-! ## Hoisting, whatever the condition is -/

/-- What is hoisted is the condition of an `if` that stands in the list. -/
theorem of_hoistable? {p : Program} {s : StmtId} {list : StmtList} {cond : ExprId} {line : UInt32}
    (hcan : hoistable? p s list = some (cond, line)) :
    s ∈ p.stmtsIn list ∧ ∃ c, p.cell? (.stmt s) = some c ∧ c.exprs = [.expr cond] ∧
      c.label = .stmt .ifElse line := by
  obtain ⟨⟨k, line', stmt, symbol⟩, hx, hcan⟩ := Option.bind_eq_some_iff.mp hcan
  cases k with
  | ifElse cond' t f =>
    simp only [Option.ite_none_right_eq_some, Bool.and_eq_true, decide_eq_true_iff,
      Option.some.injEq, Prod.mk.injEq] at hcan
    obtain ⟨⟨_, hmem⟩, rfl, rfl⟩ := hcan
    exact ⟨hmem, _, Program.cell?_of_node? (Program.node?_stmt hx), rfl, rfl⟩
  | _ => cases hcan

/-- An `if` does not stand in a list of its own. -/
theorem node_ne_of_fits {p : Program} {s : StmtId} {list : StmtList} {c ch : Cell} {line : UInt32}
    (hc : p.cell? (.stmt s) = some c) (hl : c.label = .stmt .ifElse line)
    (hch : p.cell? list.node = some ch) (hfits : list.Fits ch.label) : list.node ≠ .stmt s := by
  intro he
  rw [he, hc, Option.some.injEq] at hch
  subst hch
  cases list with
  | body y => cases he
  | block b =>
    rw [hl] at hfits
    exact hfits

/-- Hoisting makes a temporary, its declaration, and the reference to it. -/
theorem new_hoistInto {p : Program} {s : StmtId} {list : StmtList} {cond : ExprId} {line : UInt32}
    {name : String} (haddr : (hoistInto p s list cond line name).Addressable) {n : NodeId}
    (hn : p.has n = false) (hn' : (hoistInto p s list cond line name).has n = true) :
    n = .symbol (.ofIndex p.symbols.size) ∨ n = .stmt (.ofIndex p.stmts.size) ∨
      n = .expr (.ofIndex p.exprs.size) := by
  obtain ⟨hmodules, hsymbols, hstmts, hexprs⟩ := size_hoistInto p s list cond line name
  have hfresh := (Program.mem_fresh ⟨hmodules, hsymbols, hstmts, hexprs⟩ haddr n).mpr ⟨hn, hn'⟩
  simpa [Program.fresh] using hfresh

/-- `q` is `p` with the condition of `s`, an `if` in a list, in a temporary: `c` was the cell of the
`if`, and `ch` that of the owner of the list. -/
structure HoistedFrom (p q : Program) (s : StmtId) (c : Cell) (list : StmtList) (ch : Cell)
    (front back : List StmtId) (cond : ExprId) (line : UInt32) (temp : Temp) : Prop where
  cell : p.cell? (.stmt s) = some c
  exprs : c.exprs = [.expr cond]
  owner : p.cell? list.node = some ch
  fits : list.Fits ch.label
  entries : p.stmtsIn list = front ++ s :: back
  hoists : Hoists p q s c list ch front back (.expr cond) line temp
  new : ∀ {n}, p.has n = false → q.has n = true →
    n = .symbol temp.symbol ∨ n = .stmt temp.decl ∨ n = .expr temp.ref

/-- A condition moves into a temporary, or nothing is done. -/
theorem hoistedFrom_hoistCondition {s : StmtId} {place : StmtPlace} {scene : Scene Normalizer}
    (haddr : (hoistCondition s place scene).program.Addressable) :
    hoistCondition s place scene = scene ∨ ∃ c list ch front back cond line temp,
      place.list? = some list ∧ HoistedFrom scene.program (hoistCondition s place scene).program s c
        list ch front back cond line temp := by
  rcases hoistCondition_cases s place scene with hself | ⟨list, cond, line, hplace, hcan, heq⟩
  · exact .inl hself
  rw [heq] at haddr ⊢
  obtain ⟨hmem, c, hc, hexprs, hl⟩ := of_hoistable? hcan
  obtain ⟨ch, hch, hfits⟩ := Program.cell?_of_mem_stmtsIn hmem
  obtain ⟨front, back, hentries, hfront⟩ := List.eq_append_cons_of_mem hmem
  exact .inr ⟨c, list, ch, front, back, cond, line, _, hplace, hc, hexprs, hch, hfits, hentries,
    hoists_hoistInto hc hexprs hch hfits hentries hfront (node_ne_of_fits hc hl hch hfits) haddr,
    new_hoistInto haddr⟩

end Normalize

end MiddleEnd
