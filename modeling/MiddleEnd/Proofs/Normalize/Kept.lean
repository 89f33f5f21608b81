import MiddleEnd.Proofs.Normalize.Origin

/-!
# MiddleEnd.Proofs.Normalize.Kept

What no rewrite touches.  Whatever the program looks like, a node that was there keeps its label,
the symbols that it owns and the number of its operands and branches, and a list of statements
loses entries only to the rule that drops empty statements, and gets entries only from the one
that hoists conditions (`Cell.Kept`, `Relisted`).

The pass makes no empty statement, so what it inserts it never drops; that is why such changes
compose (`Keeping.trans`), and why it is enough to look at the rewrites one by one.
-/

namespace MiddleEnd

/-! ## Lists -/

/-- The entries `ys` are `xs` without some that are gone, and with others in between that are new;
the rest stays in its order. -/
inductive Relisted {α : Type} (Gone New : α → Prop) : List α → List α → Prop where
  | nil : Relisted Gone New [] []
  | keep (x : α) {xs ys : List α} (h : Relisted Gone New xs ys) :
      Relisted Gone New (x :: xs) (x :: ys)
  | delete {x : α} {xs ys : List α} (hx : Gone x) (h : Relisted Gone New xs ys) :
      Relisted Gone New (x :: xs) ys
  | insert {y : α} {xs ys : List α} (hy : New y) (h : Relisted Gone New xs ys) :
      Relisted Gone New xs (y :: ys)

namespace Relisted

variable {α β : Type} {Gone New Gone' New' : α → Prop} {xs ys zs : List α}

theorem refl : ∀ xs : List α, Relisted Gone New xs xs
  | [] => .nil
  | x :: xs => .keep x (refl xs)

/-- Entries that are gone or new stay so where more may be. -/
theorem mono (h : Relisted Gone New xs ys) (hgone : ∀ x, Gone x → Gone' x)
    (hnew : ∀ x, New x → New' x) : Relisted Gone' New' xs ys := by
  induction h with
  | nil => exact .nil
  | keep x _ ih => exact .keep x ih
  | delete hx _ ih => exact .delete (hgone _ hx) ih
  | insert hy _ ih => exact .insert (hnew _ hy) ih

/-- Changes compose where nothing new is ever gone. -/
theorem trans (h : Relisted Gone New xs ys) (h' : Relisted Gone New ys zs)
    (hapart : ∀ x, New x → ¬ Gone x) : Relisted Gone New xs zs := by
  induction h generalizing zs with
  | nil => exact h'
  | @keep x xs ys _ ih =>
    generalize hl : x :: ys = l at h'
    induction h' with
    | nil => cases hl
    | keep _ h' _ =>
      cases hl
      exact .keep x (ih h')
    | delete hx h' _ =>
      cases hl
      exact .delete hx (ih h')
    | insert hy _ ih' => exact .insert hy (ih' hl)
  | delete hx _ ih => exact .delete hx (ih h')
  | @insert y xs ys hy _ ih =>
    generalize hl : y :: ys = l at h'
    induction h' with
    | nil => cases hl
    | keep _ h' _ =>
      cases hl
      exact .insert hy (ih h')
    | delete hx _ _ =>
      cases hl
      exact absurd hx (hapart _ hy)
    | insert hz _ ih' => exact .insert hz (ih' hl)

/-- Entries are gone that do not pass a test. -/
theorem filter {p : α → Bool} (hgone : ∀ x ∈ xs, p x = false → Gone x) :
    Relisted Gone New xs (xs.filter p) := by
  induction xs with
  | nil => exact .nil
  | cons x xs ih =>
    have ih := ih fun y hy => hgone y (List.mem_cons_of_mem x hy)
    rw [List.filter_cons]
    cases hx : p x with
    | false => exact .delete (hgone x List.mem_cons_self hx) ih
    | true => exact .keep x ih

/-- One entry is new. -/
theorem insertion {y : α} (hy : New y) (back : List α) :
    ∀ front : List α, Relisted Gone New (front ++ back) (front ++ y :: back)
  | [] => .insert hy (refl back)
  | x :: front => .keep x (insertion hy back front)

/-- Under other names, the changes are the same. -/
theorem of_map {f : α → β} (hf : Function.Injective f) {G N : β → Prop}
    (hgone : ∀ x, G (f x) → Gone x) (hnew : ∀ x, N (f x) → New x) :
    ∀ {xs ys : List α}, Relisted G N (xs.map f) (ys.map f) → Relisted Gone New xs ys := by
  intro xs ys h
  generalize hl : xs.map f = l at h
  generalize hl' : ys.map f = l' at h
  induction h generalizing xs ys with
  | nil =>
    obtain rfl := List.map_eq_nil_iff.mp hl
    obtain rfl := List.map_eq_nil_iff.mp hl'
    exact .nil
  | keep z _ ih =>
    obtain ⟨x, xs, rfl, hx, hxs⟩ := List.map_eq_cons_iff.mp hl
    obtain ⟨y, ys, rfl, hy, hys⟩ := List.map_eq_cons_iff.mp hl'
    obtain rfl := hf (hx.trans hy.symm)
    exact .keep x (ih hxs hys)
  | delete hz _ ih =>
    obtain ⟨x, xs, rfl, rfl, hxs⟩ := List.map_eq_cons_iff.mp hl
    exact .delete (hgone x hz) (ih hxs hl')
  | insert hz _ ih =>
    obtain ⟨y, ys, rfl, rfl, hys⟩ := List.map_eq_cons_iff.mp hl'
    exact .insert (hnew y hz) (ih hl hys)

end Relisted

/-- From `c` to `d` a node keeps its label, the symbols that it owns, the number of its operands and
branches, and the entries of its list that are not gone. -/
structure Cell.Kept (Gone New : NodeId → Prop) (c d : Cell) : Prop where
  label : d.label = c.label
  exprs : d.exprs.length = c.exprs.length
  symbols : d.symbols = c.symbols
  branches : c.label.hasBranches = true → d.stmts.length = c.stmts.length
  stmts : c.label.hasBranches = false → Relisted Gone New c.stmts d.stmts

theorem Cell.Kept.refl (Gone New : NodeId → Prop) (c : Cell) : c.Kept Gone New c :=
  ⟨rfl, rfl, rfl, fun _ => rfl, fun _ => .refl _⟩

namespace Normalize

open Walk

/-! ## Changes of a program -/

/-- An empty statement of `p` that may be dropped. -/
def Droppable (r : Rules) (p : Program) (n : NodeId) : Prop :=
  r.dropNops = true ∧ ∃ c line, p.cell? n = some c ∧ c.label = .stmt .nop line

/-- A declaration of `q` that was hoisted, and was not there in `p`. -/
def Insertable (r : Rules) (p q : Program) (n : NodeId) : Prop :=
  r.hoistCallConditions = true ∧ p.has n = false ∧
    ∃ c line, q.cell? n = some c ∧ c.label = .stmt .decl line

/-- From `p` to `q` all nodes are kept, and no empty statement is made. -/
structure Keeping (r : Rules) (p q : Program) : Prop where
  kept : ∀ {n c}, p.cell? n = some c → ∃ d, q.cell? n = some d ∧
    c.Kept (Droppable r p) (Insertable r p q) d
  made : ∀ {n c}, p.has n = false → q.cell? n = some c → ∀ line, c.label ≠ .stmt .nop line

section

variable {r : Rules} {p q q' : Program} {n : NodeId} {c d : Cell}

/-- What is inserted was not there, so it is not what is dropped. -/
theorem Droppable.not_insertable (h : Insertable r p q n) : ¬ Droppable r p n := by
  rintro ⟨_, c, _, hc, _⟩
  have hmissing := h.2.1
  rw [Program.has_of_cell? hc] at hmissing
  cases hmissing

namespace Keeping

theorem refl (r : Rules) (p : Program) : Keeping r p p where
  kept hc := ⟨_, hc, .refl _ _ _⟩
  made hn hc := by
    rw [Program.has_of_cell? hc] at hn
    cases hn

/-- A node that is there stays. -/
theorem has (h : Keeping r p q) (hn : p.has n = true) : q.has n = true := by
  obtain ⟨c, hc⟩ := Program.exists_cell? hn
  obtain ⟨d, hd, _⟩ := h.kept hc
  exact Program.has_of_cell? hd

/-- An empty statement was one before. -/
theorem droppable (h : Keeping r p q) (hn : Droppable r q n) : Droppable r p n := by
  obtain ⟨hr, d, line, hd, hlabel⟩ := hn
  cases hhas : p.has n with
  | false => exact absurd hlabel (h.made hhas hd line)
  | true =>
    obtain ⟨c, hc⟩ := Program.exists_cell? hhas
    obtain ⟨d', hd', hkept⟩ := h.kept hc
    obtain rfl := Option.some.inj (hd.symm.trans hd')
    exact ⟨hr, c, line, hc, hkept.label ▸ hlabel⟩

theorem missing (h : Keeping r p q) (hn : q.has n = false) : p.has n = false := by
  by_contra hhas
  rw [h.has (by simpa using hhas)] at hn
  cases hn

/-- Changes compose. -/
theorem trans (h : Keeping r p q) (h' : Keeping r q q') : Keeping r p q' where
  kept {n c} hc := by
    obtain ⟨d, hd, hcd⟩ := h.kept hc
    obtain ⟨e, he, hde⟩ := h'.kept hd
    refine ⟨e, he, hde.label.trans hcd.label, hde.exprs.trans hcd.exprs,
      hde.symbols.trans hcd.symbols, fun hb => ?_, fun hb => ?_⟩
    · exact (hde.branches (hcd.label ▸ hb)).trans (hcd.branches hb)
    · have hfirst : Relisted (Droppable r p) (Insertable r p q') c.stmts d.stmts :=
        (hcd.stmts hb).mono (fun _ hx => hx) fun m hm => by
          obtain ⟨hr, hfresh, c, line, hc, hlabel⟩ := hm
          obtain ⟨d, hd, hkept⟩ := h'.kept hc
          exact ⟨hr, hfresh, d, line, hd, hkept.label.trans hlabel⟩
      have hthen : Relisted (Droppable r p) (Insertable r p q') d.stmts e.stmts :=
        (hde.stmts (hcd.label ▸ hb)).mono (fun _ hx => h.droppable hx) fun m hm =>
          ⟨hm.1, h.missing hm.2.1, hm.2.2⟩
      exact hfirst.trans hthen fun _ hm => Droppable.not_insertable hm
  made {n c} hn hc line hlabel := by
    cases hhas : q.has n with
    | false => exact h'.made hhas hc line hlabel
    | true =>
      obtain ⟨d, hd⟩ := Program.exists_cell? hhas
      obtain ⟨e, he, hkept⟩ := h'.kept hd
      obtain rfl := Option.some.inj (hc.symm.trans he)
      exact h.made hn hd line (hkept.label ▸ hlabel)

/-- Some nodes change, and others are made. -/
theorem of_extends {H : NodeId → Prop} (hext : Program.Extends H p q)
    (hkept : ∀ {n c}, H n → p.cell? n = some c → ∃ d, q.cell? n = some d ∧
      c.Kept (Droppable r p) (Insertable r p q) d)
    (hmade : ∀ {n c}, p.has n = false → q.cell? n = some c → ∀ line, c.label ≠ .stmt .nop line) :
    Keeping r p q where
  kept {n c} hc := by
    by_cases hn : H n
    · exact hkept hn hc
    · exact ⟨c, (hext.cell (Program.has_of_cell? hc) hn).trans hc, .refl _ _ _⟩
  made := hmade

/-- One node is overwritten. -/
theorem of_put {b : Backs} (hput : Program.Put p q n d b) (hc : p.cell? n = some c)
    (hkept : c.Kept (Droppable r p) (Insertable r p q) d) : Keeping r p q := by
  refine of_extends (hput.frame (H := (· = n)) fun _ => rfl) ?_ ?_
  · rintro m c' rfl hc'
    obtain rfl := Option.some.inj (hc.symm.trans hc')
    exact ⟨d, hput.cell_self, hkept⟩
  · intro m c' hm hc'
    rw [← hput.has_eq (by rw [hc]; rfl), Program.has_of_cell? hc'] at hm
    cases hm

/-- Recording back-references changes no cell. -/
theorem of_cells (hcells : ∀ m, q.cell? m = p.cell? m) : Keeping r p q where
  kept hc := ⟨_, (hcells _).trans hc, .refl _ _ _⟩
  made {n _} hn hc := by
    rw [hcells n] at hc
    rw [Program.has_of_cell? hc] at hn
    cases hn

end Keeping

end

/-! ## The rewrites -/

section

variable {r : Rules} {s : StmtId} {place : StmtPlace} {scene : Scene Normalizer}

/-- The owner of a list has no branches. -/
theorem hasBranches_of_fits {list : StmtList} {l : Label} (h : list.Fits l) :
    l.hasBranches = false := by
  cases list <;> unfold StmtList.Fits at h <;> split at h <;> first | rfl | exact h.elim

/-- An empty statement is dropped. -/
theorem keeping_dropNop (hr : r.dropNops = true) {c : Cell} {line : UInt32}
    (hc : scene.program.cell? (.stmt s) = some c) (hl : c.label = .stmt .nop line) :
    Keeping r scene.program (dropNop s place scene).program := by
  rcases dropNop_cases s place scene with hself | ⟨list, ch, b, q, _, hch, hfits, hput, heq⟩
  · rw [hself]
    exact .refl _ _
  rw [heq]
  have hplain := hasBranches_of_fits hfits
  refine .of_put hput hch ⟨rfl, rfl, rfl, fun hb => ?_, fun _ => ?_⟩
  · rw [hplain] at hb
    cases hb
  · rw [map_stmt_filter, ← Program.stmts_of_cell? _ hch hfits]
    refine .filter fun x _ hx => ?_
    obtain rfl : x = .stmt s := by simpa using hx
    exact ⟨hr, c, line, hc, hl⟩

/-- Statements that are put into blocks stay as many. -/
theorem Boxing.length_eq {p q : Program} {xs ys news : List NodeId} (h : Boxing p q xs ys news) :
    ys.length = xs.length := by
  induction h with
  | nil => rfl
  | keep _ _ ih => simp [ih]
  | box _ _ _ _ ih => simp [ih]

/-- Branches are put into new blocks. -/
theorem keeping_wrapBranches (hhas : scene.program.has (.stmt s) = true)
    (haddr : (applyIf scene.own.rules.wrapBranches (wrapBranches s) scene).program.Addressable) :
    Keeping r scene.program
      (applyIf scene.own.rules.wrapBranches (wrapBranches s) scene).program := by
  obtain ⟨c, hc⟩ := Program.exists_cell? hhas
  by_cases hb : c.label.hasBranches = true
  · obtain ⟨ys, news, hboxed⟩ := boxed_wrapBranches hc haddr
    refine .of_extends hboxed.frame ?_ fun {n d} hn hd line => ?_
    · rintro n d rfl hd
      obtain rfl := Option.some.inj (hc.symm.trans hd)
      refine ⟨_, hboxed.cell, rfl, rfl, rfl, fun _ => hboxed.boxing.length_eq, fun hnot => ?_⟩
      rw [hb] at hnot
      cases hnot
    · have hmem := hboxed.new n hn (Program.has_of_cell? hd)
      obtain ⟨_, _, _, _, _, hcell⟩ := hboxed.boxing.of_mem_news hmem
      rw [Option.some.inj (hd.symm.trans hcell)]
      simp
  · have hself : applyIf scene.own.rules.wrapBranches (wrapBranches s) scene = scene := by
      cases scene.own.rules.wrapBranches with
      | false => rfl
      | true => exact wrapBranches_of_none hc (by simpa using hb)
    rw [hself]
    exact .refl _ _

/-- A condition moves into a temporary. -/
theorem keeping_hoistCondition (hr : r.hoistCallConditions = true)
    (haddr : (hoistCondition s place scene).program.Addressable) :
    Keeping r scene.program (hoistCondition s place scene).program := by
  rcases hoistedFrom_hoistCondition haddr with
    hself | ⟨c, list, ch, front, back, cond, line, temp, _, h⟩
  · rw [hself]
    exact .refl _ _
  have hdecl : Insertable r scene.program (hoistCondition s place scene).program
      (.stmt temp.decl) := ⟨hr, h.hoists.freshDecl, _, line, h.hoists.declCell, rfl⟩
  refine .of_extends h.hoists.frame ?_ fun {n d} hn hd line' => ?_
  · rintro n d (rfl | rfl) hd
    · obtain rfl := Option.some.inj (h.cell.symm.trans hd)
      refine ⟨_, h.hoists.cell, rfl, ?_, rfl, fun _ => rfl, fun _ => .refl _⟩
      rw [h.exprs]
      rfl
    · obtain rfl := Option.some.inj (h.owner.symm.trans hd)
      refine ⟨_, h.hoists.listCell, rfl, rfl, rfl, fun hb => ?_, fun _ => ?_⟩
      · rw [hasBranches_of_fits h.fits] at hb
        cases hb
      · rw [Program.stmts_of_cell? _ h.owner h.fits, h.entries, List.map_append, List.map_append]
        exact .insertion hdecl _ _
  · rcases h.new hn (Program.has_of_cell? hd) with rfl | rfl | rfl
    · obtain ⟨x, _, rfl⟩ := Program.cell?_symbol hd
      simp [Node.cell]
    · rw [Option.some.inj (hd.symm.trans h.hoists.declCell)]
      simp
    · obtain ⟨x, _, rfl⟩ := Program.cell?_expr hd
      simp [Node.cell]

/-- A statement is rewritten. -/
theorem keeping_rewriteStmt {isNop : Bool} {c : Cell} (hr : scene.own.rules = r)
    (hc : scene.program.cell? (.stmt s) = some c)
    (hnop : isNop = true → ∃ line, c.label = .stmt .nop line)
    (haddr : (rewriteStmt s place isNop scene).program.Addressable) :
    Keeping r scene.program (rewriteStmt s place isNop scene).program := by
  subst hr
  have hput : Program.Put scene.program (marked s scene).program (.stmt s) c _ :=
    Program.put_stmtParents hc _ _
  refine rewriteStmt_steps haddr (.of_cells (cell?_of_put hput hc))
    (fun hdrop hisNop scene' _ h => ?_) (fun scene' hlarger h haddr' => ?_)
    fun hhoist scene' _ h haddr' => h.trans (keeping_hoistCondition hhoist haddr')
  · obtain ⟨d, hd, hkept⟩ := h.kept hc
    obtain ⟨line, hl⟩ := hnop hisNop
    exact h.trans (keeping_dropNop hdrop hd (hkept.label.trans hl))
  · exact h.trans (keeping_wrapBranches (h.has (Program.has_of_cell? hc)) haddr')

/-- An expression takes the place of another one. -/
theorem keeping_setExprAt? {p q : Program} {place : ExprPlace} {e inner : ExprId}
    (hat : p.exprAt? place = some e) (hset : p.setExprAt? place inner = some q) :
    Keeping r p q := by
  obtain ⟨owner, i⟩ := place
  obtain ⟨q', c, b, hset', hc, _, hput⟩ := put_at hat inner
  obtain rfl : q' = q := Option.some.inj (hset'.symm.trans hset)
  exact .of_put hput hc ⟨rfl, by simp, rfl, fun _ => rfl, fun _ => .refl _⟩

end

end Normalize

end MiddleEnd
