import MiddleEnd.Proofs.Tree.Position

/-!
# MiddleEnd.Proofs.Tree.Removal

What the deletion of a symbol leaves of a program.  Every node but the symbol itself keeps its
back-references and what it says and owns, except that it does not own the symbol any more, and that
a declaration of it owns nothing and is empty (`cell?_removeSymbol`).

So where a program bears trees, it bears afterwards what is left of them when the symbol is cut off
with all that hangs on it (`Tree.withoutAll`, `Bears.removeSymbol`): of the nodes and of their
surroundings none is new, and the order is the same (`placedOf_withoutAll`).
-/

namespace MiddleEnd

/-! ## Nodes -/

namespace Label

/-- Whether the node is a declaration statement. -/
def isDecl : Label → Bool
  | .stmt .decl _ => true
  | _ => false

/-- The label of the empty statement on the same line. -/
def emptied : Label → Label
  | .stmt _ line => .stmt .nop line
  | l => l

end Label

/-- The node without the symbol among what it owns. -/
def Node.without (x : SymbolId) : Node → Node
  | .module m => .module { m with symbols := m.symbols.filter (· ≠ x) }
  | .symbol s => .symbol { s with kind := s.kind.withoutNested x }
  | .stmt s => .stmt { s with kind := s.kind.withoutDecl x }
  | .expr e => .expr e

/-- The cell without the symbol among what it owns; a declaration of it is empty. -/
def Cell.without (x : SymbolId) (c : Cell) : Cell :=
  if c.label.isDecl = true ∧ .symbol x ∈ c.symbols then ⟨c.label.emptied, [], [], []⟩
  else { c with symbols := c.symbols.filter (· ≠ .symbol x) }

theorem map_symbol_filter (x : SymbolId) (ss : List SymbolId) :
    (ss.filter (· ≠ x)).map NodeId.symbol =
      (ss.map NodeId.symbol).filter (· ≠ .symbol x) := by
  rw [List.filter_map]
  congr 2
  funext s
  simp

namespace Node

variable (x : SymbolId)

/-- Back-references stay where a symbol is taken out. -/
theorem backs_without (y : Node) : (y.without x).backs = y.backs := by cases y <;> rfl

theorem cell_without (y : Node) : (y.without x).cell = y.cell.without x := by
  cases y with
  | module m => simp only [without, cell, map_symbol_filter]; rfl
  | symbol s =>
    obtain ⟨_, _, k, _, _⟩ := s
    cases k <;> simp only [without, cell, SymbolKind.withoutNested, SymbolKind.nested?,
      Option.getD_some, map_symbol_filter] <;> rfl
  | stmt s =>
    obtain ⟨k, _, _, _⟩ := s
    cases k with
    | decl y init =>
      by_cases hy : y = x
      · simp [without, cell, Cell.without, Label.isDecl, Label.emptied, StmtKind.withoutDecl,
          StmtKind.head, StmtKind.declared?, StmtKind.operands, StmtKind.held, hy]
      · simp [without, cell, Cell.without, Label.isDecl, StmtKind.withoutDecl, StmtKind.head,
          StmtKind.declared?, StmtKind.operands, StmtKind.held, hy, Ne.symm hy]
    | _ => simp [without, cell, Cell.without, Label.isDecl, StmtKind.withoutDecl, StmtKind.head,
        StmtKind.declared?, StmtKind.operands, StmtKind.held]
  | expr e => simp [without, cell, Cell.without, Label.isDecl]

end Node

namespace Program

variable {p : Program} {x : SymbolId}

/-- To delete a symbol that exists takes it out of every node and marks it. -/
theorem removeSymbol_eq (hx : p.has (.symbol x) = true) : p.removeSymbol x =
    { modules := p.modules.map fun m => { m with symbols := m.symbols.filter (· ≠ x) }
      symbols := (p.symbols.modify x.index ({ · with removed := true })).map
        fun s => { s with kind := s.kind.withoutNested x }
      stmts := p.stmts.map fun s => { s with kind := s.kind.withoutDecl x }
      exprs := p.exprs } := by
  have hsome : (p.symbol? x).isSome = true := hx
  rw [removeSymbol, if_pos hsome]
  rfl

/-- What is left of a symbol. -/
theorem symbol?_removeSymbol (hx : p.has (.symbol x) = true) (s : SymbolId) :
    (p.removeSymbol x).symbol? s = (p.symbol? s).map fun y =>
      { y with kind := y.kind.withoutNested x, removed := y.removed || s = x } := by
  simp only [removeSymbol_eq hx, symbol?, Array.getElem?_map, Array.getElem?_modify,
    SymbolId.index_inj]
  by_cases hs : s = x
  · simp [hs, Function.comp_def]
  · simp [hs, Ne.symm hs]

/-- Expressions stay, those that refer to the symbol too. -/
theorem expr?_removeSymbol (hx : p.has (.symbol x) = true) (e : ExprId) :
    (p.removeSymbol x).expr? e = p.expr? e := by
  rw [removeSymbol_eq hx]
  rfl

/-- Every node but the symbol itself stays, without the symbol. -/
theorem node?_removeSymbol (hx : p.has (.symbol x) = true) {n : NodeId} (hn : n ≠ .symbol x) :
    (p.removeSymbol x).node? n = (p.node? n).map (·.without x) := by
  cases n with
  | module m =>
    simp only [removeSymbol_eq hx, node?, module?, Array.getElem?_map, Option.map_map]
    rfl
  | symbol s =>
    have hs : s ≠ x := fun he => hn (he ▸ rfl)
    simp only [node?, symbol?_removeSymbol hx, Option.map_map]
    congr 1
    funext y
    simp [Node.without, hs]
  | stmt s =>
    simp only [removeSymbol_eq hx, node?, stmt?, Array.getElem?_map, Option.map_map]
    rfl
  | expr e =>
    simp only [removeSymbol_eq hx, node?, expr?, Option.map_map]
    rfl

/-- Every other node loses the symbol from its cell. -/
theorem cell?_removeSymbol (hx : p.has (.symbol x) = true) {n : NodeId} (hn : n ≠ .symbol x) :
    (p.removeSymbol x).cell? n = (p.cell? n).map (·.without x) := by
  rw [cell?, node?_removeSymbol hx hn, cell?, Option.map_map, Option.map_map]
  congr 1
  exact funext (Node.cell_without x)

/-- All nodes keep their back-references. -/
theorem backs?_removeSymbol (hx : p.has (.symbol x) = true) (n : NodeId) :
    (p.removeSymbol x).backs? n = p.backs? n := by
  by_cases hn : n = .symbol x
  · subst hn
    simp only [backs?, node?, symbol?_removeSymbol hx, Option.map_map]
    rfl
  · rw [backs?, node?_removeSymbol hx hn, backs?, Option.map_map]
    congr 1
    exact funext (Node.backs_without x)

/-- No node is lost where a symbol is deleted. -/
theorem has_removeSymbol (hx : p.has (.symbol x) = true) (n : NodeId) :
    (p.removeSymbol x).has n = p.has n := by
  by_cases hn : n = .symbol x
  · subst hn
    simp [has, symbol?_removeSymbol hx]
  · rw [has_eq_cell?, cell?_removeSymbol hx hn, Option.isSome_map, has_eq_cell?]

/-- The symbols and statements that a node owns, without the symbol. -/
theorem owned_without {n : NodeId} {c : Cell} (hc : p.cell? n = some c) :
    (c.without x).symbols ++ (c.without x).stmts =
      (c.symbols ++ c.stmts).filter (· ≠ .symbol x) := by
  have hstmts : c.stmts.filter (· ≠ .symbol x) = c.stmts := List.filter_eq_self.mpr fun m hm => by
    obtain ⟨s, rfl⟩ := (kinds_of_cell? hc).2.2 m hm
    rfl
  rw [List.filter_append, hstmts, Cell.without]
  split
  · next hdecl =>
    -- a declaration owns one symbol and no statements
    obtain ⟨y, _, rfl⟩ := Option.map_eq_some_iff.mp hc
    cases y with
    | stmt y =>
      obtain ⟨k, _, _, _⟩ := y
      cases k <;> simp_all [Node.cell, Label.isDecl, StmtKind.head, StmtKind.declared?,
        StmtKind.held]
    | _ => simp [Node.cell, Label.isDecl] at hdecl
  · rfl

theorem moduleIds_removeSymbol (hx : p.has (.symbol x) = true) :
    (p.removeSymbol x).moduleIds = p.moduleIds := by
  simp [removeSymbol_eq hx, moduleIds]

/-- A module keeps its file. -/
theorem file_removeSymbol (hx : p.has (.symbol x) = true) (m : ModuleId) :
    ((p.removeSymbol x).module? m).map (·.file) = (p.module? m).map (·.file) := by
  simp only [removeSymbol_eq hx, module?, Array.getElem?_map, Option.map_map]
  rfl

end Program

/-! ## Trees -/

namespace Tree

mutual

/-- The tree without what hangs on the symbol below its root. -/
def without (x : SymbolId) : Tree → Tree
  | node n l es ss ts =>
    if l.isDecl = true ∧ .symbol x ∈ ss.map id then node n l.emptied [] [] []
    else node n l (withoutAll x es) (withoutAll x ss) (withoutAll x ts)

/-- The trees without what hangs on the symbol. -/
def withoutAll (x : SymbolId) : List Tree → List Tree
  | [] => []
  | t :: ts => if t.id = .symbol x then withoutAll x ts else without x t :: withoutAll x ts

end

variable {x : SymbolId}

theorem id_without (t : Tree) : (t.without x).id = t.id := by
  obtain ⟨n, l, es, ss, ts⟩ := t
  rw [without]
  split <;> rfl

/-- The roots without the symbol are the nodes without it. -/
theorem map_id_withoutAll (ts : List Tree) :
    (withoutAll x ts).map id = (ts.map id).filter (· ≠ .symbol x) := by
  induction ts with
  | nil => rfl
  | cons t ts ih =>
    rw [withoutAll]
    by_cases ht : t.id = .symbol x
    · simp [ht, ih]
    · simp [ht, ih, id_without]

/-- Trees with other roots all keep them. -/
theorem map_id_withoutAll_of_ne {ts : List Tree} (h : ∀ t ∈ ts, t.id ≠ .symbol x) :
    (withoutAll x ts).map id = ts.map id := by
  rw [map_id_withoutAll]
  refine List.filter_eq_self.mpr fun n hn => ?_
  obtain ⟨t, ht, rfl⟩ := List.mem_map.mp hn
  exact decide_eq_true (h t ht)

/-- Nodes and what encloses them are left in their order. -/
theorem placedOf_withoutAll (a : Around) (ts : List Tree) :
    ((placedOf a (withoutAll x ts)).map fun y => (y.1, y.2.id)).Sublist
      ((placedOf a ts).map fun y => (y.1, y.2.id)) := by
  -- trees below the same node, one after another
  have hall : ∀ (us : List Tree), (∀ t ∈ us, ∀ a,
      ((placedOf a [t.without x]).map fun y => (y.1, y.2.id)).Sublist
        ((placedOf a [t]).map fun y => (y.1, y.2.id))) → ∀ a,
      ((placedOf a (withoutAll x us)).map fun y => (y.1, y.2.id)).Sublist
        ((placedOf a us).map fun y => (y.1, y.2.id)) := by
    intro us hus a
    induction us with
    | nil => exact .slnil
    | cons t us ih =>
      have ih := ih fun u hu => hus u (List.mem_cons_of_mem t hu)
      rw [withoutAll, ← List.singleton_append (x := t), placedOf_append, List.map_append]
      split
      · exact ih.trans (List.sublist_append_right _ _)
      · rw [← List.singleton_append (x := t.without x), placedOf_append, List.map_append]
        exact (hus t List.mem_cons_self a).append ih
  refine hall ts (fun t ht => ?_) a
  clear ht
  induction t using Tree.induction with
  | step n l es ss us he hs hu =>
    intro a
    rw [without]
    split
    · simp
    · simp only [placedOf_node, placedOf_nil, List.append_nil, List.map_cons, List.map_append,
        id_node]
      exact (((hall es he _).append (hall ss hs _)).append (hall us hu _)).cons_cons _

/-- What is left of trees are nodes of them, in their order. -/
theorem nodesOf_withoutAll (ts : List Tree) :
    (nodesOf (withoutAll x ts)).Sublist (nodesOf ts) := by
  have hnodes : ∀ us : List Tree, nodesOf us =
      ((placedOf .outside us).map fun y => (y.1, y.2.id)).map Prod.snd := fun us => by
    rw [List.map_map, nodesOf, ← placedOf_map_snd .outside, List.map_map]
    rfl
  rw [hnodes, hnodes ts]
  exact (placedOf_withoutAll .outside ts).map Prod.snd

end Tree

namespace Program

open MiddleEnd.Tree

variable {p : Program} {x : SymbolId} {ts : List Tree}

/-- The cell of a node in what is left of its tree. -/
theorem Bears.cell_without {t : Tree} (h : p.Bears [t]) :
    (t.without x).cell = t.cell.without x := by
  obtain ⟨n, l, es, ss, us⟩ := t
  obtain ⟨hes, _, hus⟩ := h.kinds
  have hexprs : ∀ t ∈ es, t.id ≠ .symbol x := fun t ht he => by
    obtain ⟨e, hid⟩ := hes t ht
    cases hid.symm.trans he
  have hstmts : ∀ t ∈ us, t.id ≠ .symbol x := fun t ht he => by
    obtain ⟨s, hid⟩ := hus t ht
    cases hid.symm.trans he
  rw [Tree.without, Cell.without, cell_node]
  by_cases hdecl : l.isDecl = true ∧ .symbol x ∈ ss.map Tree.id
  · rw [if_pos hdecl, if_pos hdecl]
    rfl
  · rw [if_neg hdecl, if_neg hdecl, cell_node, map_id_withoutAll_of_ne hexprs, map_id_withoutAll,
      map_id_withoutAll_of_ne hstmts]

/-- A program bears what is left of its trees. -/
theorem Bears.removeSymbol (h : p.Bears ts) (hx : p.has (.symbol x) = true) :
    (p.removeSymbol x).Bears (withoutAll x ts) := by
  have hall : ∀ us : List Tree, p.Bears us → (∀ t ∈ us, p.Bears [t] → t.id ≠ .symbol x →
      (p.removeSymbol x).Bears [t.without x]) → (p.removeSymbol x).Bears (withoutAll x us) := by
    intro us hus htree
    induction us with
    | nil => exact bears_nil
    | cons t us ih =>
      rw [bears_cons] at hus
      have ih := ih hus.2 fun u hu => htree u (List.mem_cons_of_mem t hu)
      rw [withoutAll]
      split
      · exact ih
      · exact bears_cons.mpr ⟨htree t List.mem_cons_self hus.1 ‹_›, ih⟩
  refine hall ts h fun t ht => ?_
  clear ht
  induction t using Tree.induction with
  | step n l es ss us he hs hu =>
    intro hbears (hn : n ≠ .symbol x)
    have hcell : (p.removeSymbol x).cell? n =
        some ((node n l es ss us).without x).cell := by
      rw [hbears.cell_without, cell?_removeSymbol hx hn, (bears_node.mp hbears).1]
      rfl
    obtain ⟨_, hes, hss, hus⟩ := bears_node.mp hbears
    rw [Tree.without] at hcell ⊢
    split at hcell
    · next hdecl =>
      rw [if_pos hdecl]
      exact bears_node.mpr ⟨hcell, bears_nil, bears_nil, bears_nil⟩
    · next hdecl =>
      rw [if_neg hdecl]
      exact bears_node.mpr ⟨hcell, hall es hes he, hall ss hss hs, hall us hus hu⟩

/-- What is left of trees is recorded as it was. -/
theorem Records.removeSymbol {a : Around} (h : p.Records a ts) (hx : p.has (.symbol x) = true) :
    (p.removeSymbol x).Records a (withoutAll x ts) := by
  intro y hy
  obtain ⟨z, hz, heq⟩ := List.mem_map.mp
    ((placedOf_withoutAll a ts).subset (List.mem_map_of_mem (f := fun y => (y.1, y.2.id)) hy))
  obtain ⟨haround, hid⟩ := Prod.mk.inj heq
  rw [backs?_removeSymbol hx, ← haround, ← hid, h z hz]

end Program

end MiddleEnd
