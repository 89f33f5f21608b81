import Mathlib.Data.List.Nodup
import Mathlib.Data.List.Pairwise
import Mathlib.Logic.Relation
import MiddleEnd.Defect
import MiddleEnd.Proofs.Tree.Unfold

/-!
# MiddleEnd.Proofs.Tree.Position

Ownership without trees, over programs of any shape.  A `Position` is one of the places in which a
node can hold another one, whatever the categories of the two; `Program.heldAt?` reads it.  From
that come the questions that make sense even where ids point in circles or to nowhere: which nodes
are reached from modules (`Reaches`), and whether what is reached is a forest (`IsForest`).

Every child in the cell of a node stands in exactly one position of that node (`exists_position`,
`position_unique`).  So where modules unfold to trees, the nodes reached are the nodes of the trees
(`reaches_iff`), and they are a forest (`isForest_of_unfolds`).
-/

namespace MiddleEnd

open MiddleEnd.Tree

/-- Where a node can be held by another one. -/
inductive Position where
  /-- An entry of a list of symbols. -/
  | symbol (list : SymbolList) (index : Nat)
  /-- The symbol that a statement declares. -/
  | declared (s : StmtId)
  | stmt (place : StmtPlace)
  | expr (place : ExprPlace)
deriving DecidableEq, Repr

/-- The node that the position belongs to. -/
def Position.owner : Position → NodeId
  | .symbol list _ => list.node
  | .declared s => .stmt s
  | .stmt place => place.holder
  | .expr place => place.owner.node

/-- The part of a walk in which the node held in the position is entered. -/
def Position.step : Position → Step
  | .symbol _ _ | .declared _ => .symbol
  | .stmt _ => .stmt
  | .expr _ => .expr

namespace Program

/-- The node held in a position. -/
def heldAt? (p : Program) : Position → Option NodeId
  | .symbol list i => ((p.symbolList? list).bind (·[i]?)).map .symbol
  | .declared s => (p.declared? s).map .symbol
  | .stmt place => (p.stmtAt? place).map .stmt
  | .expr place => (p.exprAt? place).map .expr

/-- One node holds the other in some position. -/
def Owns (p : Program) (n m : NodeId) : Prop := ∃ pos, pos.owner = n ∧ p.heldAt? pos = some m

/-- The nodes reached from modules through positions, the modules included.  Nothing says that they
exist. -/
inductive Reaches (p : Program) (modules : List ModuleId) : NodeId → Prop where
  | root {m : ModuleId} (hm : m ∈ modules) : Reaches p modules (.module m)
  | held {pos : Position} {n : NodeId} (howner : Reaches p modules pos.owner)
      (hheld : p.heldAt? pos = some n) : Reaches p modules n

/-- What is reached from modules exists, and no two positions hold the same node. -/
structure IsForest (p : Program) (modules : List ModuleId) : Prop where
  exist : ∀ {pos n}, p.Reaches modules pos.owner → p.heldAt? pos = some n → p.has n = true
  alone : ∀ {pos pos' n}, p.Reaches modules pos.owner → p.Reaches modules pos'.owner →
    p.heldAt? pos = some n → p.heldAt? pos' = some n → pos = pos'

variable {p : Program}

/-- A position holds nodes of its own category only. -/
theorem step_of_heldAt? {pos : Position} {n : NodeId} (h : p.heldAt? pos = some n) :
    n.step = pos.step := by
  cases pos <;> obtain ⟨_, _, rfl⟩ := Option.map_eq_some_iff.mp h <;> rfl

/-- What stands below a node that is reached is reached. -/
theorem Reaches.owned {modules : List ModuleId} {n m : NodeId} (h : p.Reaches modules n)
    (hbelow : Relation.ReflTransGen p.Owns n m) : p.Reaches modules m := by
  induction hbelow with
  | refl => exact h
  | tail _ hstep ih =>
    obtain ⟨pos, rfl, hheld⟩ := hstep
    exact .held ih hheld

/-- What is held is no module. -/
theorem ne_module_of_heldAt? {pos : Position} {n : NodeId} (h : p.heldAt? pos = some n)
    (m : ModuleId) : n ≠ .module m := by
  rintro rfl
  have hstep := step_of_heldAt? h
  cases pos <;> simp [NodeId.step, Position.step] at hstep

/-- Statements held as a list are the entries of a block. -/
theorem children_list {s : StmtId} {list : StmtList} (h : p.children s = .list list) :
    list = .block s := by
  cases hx : p.stmt? s with
  | none => simp [children, hx] at h
  | some x => cases hk : x.kind <;> simp_all [children, StmtKind.children]

/-- The places below a statement are its own and differ. -/
theorem children_places {s : StmtId} {places : List StmtPlace} (h : p.children s = .places places) :
    places.Nodup ∧ ∀ place ∈ places, place.holder = .stmt s := by
  cases hx : p.stmt? s with
  | none => simp [children, hx] at h
  | some x =>
    cases hk : x.kind <;> simp_all [children, StmtKind.children] <;> subst h <;>
      simp [StmtPlace.holder]

end Program

/-! ## Positions and cells -/

/-- The nodes that a node owns, in the order in which a walk meets them. -/
def Cell.children (c : Cell) : List NodeId := c.exprs ++ c.symbols ++ c.stmts

/-- The trees below the root. -/
def Tree.children (t : Tree) : List Tree := t.exprs ++ t.symbols ++ t.stmts

/-- The roots of the trees below are the nodes that the root owns. -/
theorem Tree.map_id_children (t : Tree) : t.children.map Tree.id = t.cell.children := by
  simp [Tree.children, Cell.children, Tree.cell]

/-- Where among the statements that its holder holds a place stands. -/
def StmtPlace.index : StmtPlace → Nat
  | .entry _ i => i
  | .branch _ which => which.index

/-- Where among the children of its owner a position stands. -/
def Position.index (c : Cell) : Position → Nat
  | .expr place => place.index
  | .symbol _ i => c.exprs.length + i
  | .declared _ => c.exprs.length
  | .stmt place => c.exprs.length + c.symbols.length + place.index

/-- A statement has a branch only where it may. -/
theorem StmtKind.mem_branches_of_branch? {k : StmtKind} {which : Branch} {s : StmtId}
    (h : k.branch? which = some s) : which ∈ k.head.branches := by
  cases k <;> cases which <;> simp_all [branch?, head, StmtHead.branches]

/-- A branch is known by its position among the statements that are held. -/
theorem StmtKind.branch_unique {k : StmtKind} {which which' : Branch} {s s' : StmtId}
    (h : k.branch? which = some s) (h' : k.branch? which' = some s')
    (hindex : which.index = which'.index) : which = which' := by
  cases k <;> cases which <;> cases which' <;> simp_all [branch?, Branch.index]

namespace Program

variable {p : Program} {pos pos' : Position} {n : NodeId} {c : Cell}

/-- A symbol is held by the list that it is in. -/
theorem heldAt?_symbol (list : SymbolList) (i : Nat) :
    p.heldAt? (.symbol list i) = ((p.symbolsIn list)[i]?).map .symbol := by
  rw [heldAt?, symbolList?_bind list rfl]

/-- A statement is held by the list that it is in. -/
theorem heldAt?_entry (list : StmtList) (i : Nat) :
    p.heldAt? (.stmt (.entry list i)) = ((p.stmtsIn list)[i]?).map .stmt := by
  rw [heldAt?, stmtAt?_entry]

/-- What is in a list is held at some position of it. -/
theorem held_of_mem_stmtsIn {list : StmtList} {s : StmtId} (h : s ∈ p.stmtsIn list) :
    ∃ i, p.heldAt? (.stmt (.entry list i)) = some (.stmt s) := by
  obtain ⟨i, hi⟩ := List.getElem?_of_mem h
  exact ⟨i, by rw [heldAt?_entry, hi]; rfl⟩

/-- Only a place for statements holds a statement. -/
theorem stmt_of_heldAt? {pos : Position} {s : StmtId} (h : p.heldAt? pos = some (.stmt s)) :
    ∃ place, pos = .stmt place ∧ p.stmtAt? place = some s := by
  cases pos with
  | stmt place => exact ⟨place, rfl, by simpa [heldAt?] using h⟩
  | symbol list i =>
    rw [heldAt?_symbol] at h
    simp at h
  | _ => simp [heldAt?] at h

/-- An expression is held by what it is an operand of. -/
theorem heldAt?_expr (owner : ExprOwner) (i : Nat) :
    p.heldAt? (.expr ⟨owner, i⟩) = ((p.operands owner)[i]?).map .expr := rfl

/-- A position that holds a node belongs to one that exists. -/
theorem has_of_heldAt? (h : p.heldAt? pos = some n) : p.has pos.owner = true := by
  cases pos with
  | symbol list i =>
    cases list with
    | module m =>
      cases hx : p.module? m <;>
        simp_all [heldAt?, symbolList?, has, Position.owner, SymbolList.node]
    | symbol s =>
      cases hx : p.symbol? s <;>
        simp_all [heldAt?, symbolList?, has, Position.owner, SymbolList.node]
  | declared s => cases hx : p.stmt? s <;> simp_all [heldAt?, declared?, has, Position.owner]
  | stmt place =>
    cases place with
    | entry list i =>
      cases list with
      | body s =>
        cases hx : p.symbol? s <;> simp_all [heldAt?, stmtAt?, stmtList?, has, Position.owner,
          StmtPlace.holder, StmtList.node]
      | block b =>
        cases hx : p.stmt? b <;> simp_all [heldAt?, stmtAt?, stmtList?, has, Position.owner,
          StmtPlace.holder, StmtList.node]
    | branch s which =>
      cases hx : p.stmt? s <;> simp_all [heldAt?, stmtAt?, has, Position.owner, StmtPlace.holder]
  | expr place =>
    obtain ⟨owner, i⟩ := place
    cases owner with
    | stmt s => cases hx : p.stmt? s <;> simp_all [heldAt?, exprAt?, operands, has, Position.owner,
        ExprOwner.node]
    | expr e => cases hx : p.expr? e <;> simp_all [heldAt?, exprAt?, operands, has, Position.owner,
        ExprOwner.node]

private theorem getElem?_append_mid {α : Type} {xs ys zs : List α} {i : Nat} {x : α}
    (h : ys[i]? = some x) : (xs ++ ys ++ zs)[xs.length + i]? = some x := by
  have hi := (List.getElem?_eq_some_iff.mp h).1
  rw [List.append_assoc, List.getElem?_append_right (Nat.le_add_right _ _), Nat.add_sub_cancel_left,
    List.getElem?_append_left hi, h]

private theorem getElem?_append_last {α : Type} {xs ys zs : List α} {i : Nat} {x : α}
    (h : zs[i]? = some x) : (xs ++ ys ++ zs)[xs.length + ys.length + i]? = some x := by
  rw [← List.length_append, List.getElem?_append_right (Nat.le_add_right _ _),
    Nat.add_sub_cancel_left, h]

private theorem stmtAt?_held {place : StmtPlace} {s : StmtId} (h : p.stmtAt? place = some s)
    (hc : p.cell? place.holder = some c) : c.stmts[place.index]? = some (.stmt s) := by
  cases place with
  | entry list i =>
    rw [stmtAt?_entry] at h
    have hfits : list.Fits c.label := by
      cases list with
      | body y =>
        obtain ⟨x, _, rfl⟩ := cell?_symbol hc
        trivial
      | block b =>
        obtain ⟨x, hx, rfl⟩ := cell?_stmt hc
        obtain ⟨k, line, _, _⟩ := x
        cases k <;>
          simp_all [stmtsIn, stmtList?, StmtKind.entries?, StmtList.Fits, Node.cell, StmtKind.head]
    rw [stmts_of_cell? list hc hfits, List.getElem?_map, StmtPlace.index, h]
    rfl
  | branch b which =>
    obtain ⟨x, hx, rfl⟩ := cell?_stmt hc
    have hwhich : which ∈ x.kind.head.branches := by
      rw [stmtAt?, hx] at h
      exact StmtKind.mem_branches_of_branch? h
    rw [StmtPlace.index, ← branch_of_cell? hc rfl hwhich, h]
    rfl

/-- What a position holds stands among the children of its owner. -/
theorem child_of_heldAt? (hc : p.cell? pos.owner = some c) (h : p.heldAt? pos = some n) :
    c.children[pos.index c]? = some n := by
  cases pos with
  | symbol list i =>
    rw [heldAt?_symbol, ← List.getElem?_map, ← symbols_of_cell? list hc] at h
    exact getElem?_append_mid h
  | declared s =>
    have hs : c.symbols = [n] := by
      rw [declared_of_cell? hc]
      obtain ⟨y, hy, rfl⟩ := Option.map_eq_some_iff.mp h
      simp [hy]
    exact getElem?_append_mid (i := 0) (by rw [hs]; rfl)
  | stmt place =>
    obtain ⟨s, hs, rfl⟩ := Option.map_eq_some_iff.mp h
    exact getElem?_append_last (stmtAt?_held hs hc)
  | expr place =>
    obtain ⟨owner, i⟩ := place
    rw [heldAt?_expr, ← List.getElem?_map, ← exprs_of_cell? owner hc] at h
    have hi := (List.getElem?_eq_some_iff.mp h).1
    rw [Cell.children, List.append_assoc]
    exact (List.getElem?_append_left hi).trans h

/-- A statement with branches is no block. -/
private theorem stmtAt?_block_of_branch {b s s' : StmtId} {which : Branch}
    (h : p.stmtAt? (.branch b which) = some s) (i : Nat) :
    p.stmtAt? (.entry (.block b) i) ≠ some s' := by
  intro h'
  simp only [stmtAt?, stmtList?, Option.bind_eq_some_iff] at h h'
  obtain ⟨_, ⟨x, hx, hblock⟩, _⟩ := h'
  obtain ⟨y, hy, hbranch⟩ := h
  obtain rfl := Option.some.inj (hx.symm.trans hy)
  cases hk : x.kind <;> simp_all [StmtKind.entries?, StmtKind.branch?]

private theorem place_unique {place place' : StmtPlace} {s s' : StmtId}
    (h : p.stmtAt? place = some s) (h' : p.stmtAt? place' = some s')
    (hholder : place.holder = place'.holder) (hindex : place.index = place'.index) :
    place = place' := by
  cases place with
  | entry list i =>
    cases place' with
    | entry list' j =>
      obtain rfl : i = j := hindex
      cases list <;> cases list' <;> simp_all [StmtPlace.holder, StmtList.node]
    | branch b which =>
      cases list with
      | body y => simp [StmtPlace.holder, StmtList.node] at hholder
      | block b' =>
        obtain rfl : b' = b := by simpa [StmtPlace.holder, StmtList.node] using hholder
        exact absurd h (stmtAt?_block_of_branch h' i)
  | branch b which =>
    cases place' with
    | entry list i =>
      cases list with
      | body y => simp [StmtPlace.holder, StmtList.node] at hholder
      | block b' =>
        obtain rfl : b = b' := by simpa [StmtPlace.holder, StmtList.node] using hholder
        exact absurd h' (stmtAt?_block_of_branch h i)
    | branch b' which' =>
      obtain rfl : b = b' := by simpa [StmtPlace.holder] using hholder
      simp only [stmtAt?, Option.bind_eq_some_iff] at h h'
      obtain ⟨x, hx, hbranch⟩ := h
      obtain ⟨y, hy, hbranch'⟩ := h'
      obtain rfl := Option.some.inj (hx.symm.trans hy)
      rw [StmtKind.branch_unique hbranch hbranch' hindex]

/-- No two positions of a node have the same child of it. -/
theorem position_unique {n' : NodeId} (hc : p.cell? pos.owner = some c)
    (h : p.heldAt? pos = some n) (h' : p.heldAt? pos' = some n')
    (howner : pos.owner = pos'.owner) (hindex : pos.index c = pos'.index c) : pos = pos' := by
  -- the child tells the category of both positions
  obtain rfl : n = n' := Option.some.inj ((child_of_heldAt? hc h).symm.trans
    (hindex ▸ child_of_heldAt? (howner ▸ hc) h'))
  have hstep : pos.step = pos'.step := (step_of_heldAt? h).symm.trans (step_of_heldAt? h')
  cases pos <;> cases pos' <;> simp only [Position.step, reduceCtorEq] at hstep
  case symbol.symbol list i list' i' =>
    obtain rfl : i = i' := by simpa [Position.index] using hindex
    cases list <;> cases list' <;> simp_all [Position.owner, SymbolList.node]
  case symbol.declared list i s => cases list <;> simp [Position.owner, SymbolList.node] at howner
  case declared.symbol s list i => cases list <;> simp [Position.owner, SymbolList.node] at howner
  case declared.declared s s' => simpa [Position.owner] using howner
  case stmt.stmt place place' =>
    obtain ⟨s, hs, _⟩ := Option.map_eq_some_iff.mp h
    obtain ⟨s', hs', _⟩ := Option.map_eq_some_iff.mp h'
    rw [place_unique hs hs' howner (by simpa [Position.index] using hindex)]
  case expr.expr place place' =>
    obtain ⟨owner, i⟩ := place
    obtain ⟨owner', i'⟩ := place'
    obtain rfl : i = i' := hindex
    cases owner <;> cases owner' <;> simp_all [Position.owner, ExprOwner.node]

end Program

/-! ## The position of each child -/

/-- The place of an expression below a node. -/
def NodeId.exprPlace : NodeId → Nat → ExprPlace
  | .stmt s, i => ⟨.stmt s, i⟩
  | .expr e, i => ⟨.expr e, i⟩
  -- modules and symbols hold no expressions
  | .module _, i | .symbol _, i => ⟨.stmt ⟨0⟩, i⟩

/-- The position of a symbol below a node. -/
def NodeId.symbolPosition : NodeId → Nat → Position
  | .module m, i => .symbol (.module m) i
  | .symbol s, i => .symbol (.symbol s) i
  | .stmt s, _ => .declared s
  -- expressions hold no symbols
  | .expr _, i => .symbol (.module ⟨0⟩) i

/-- The place of a statement below a node with this label: an entry of a list, or a branch. -/
def NodeId.stmtPlace : NodeId → Label → Nat → StmtPlace
  | .symbol s, _, i => .entry (.body s) i
  | .stmt s, .stmt .ifElse _, 0 => .branch s .thenBranch
  | .stmt s, .stmt .ifElse _, _ + 1 => .branch s .elseBranch
  | .stmt s, .stmt .whileDo _, _ => .branch s .loopBody
  | .stmt s, _, i => .entry (.block s) i
  -- modules and expressions hold no statements
  | .module _, _, i | .expr _, _, i => .entry (.body ⟨0⟩) i

namespace Program

variable {p : Program} {n m : NodeId} {c : Cell}

/-- The expressions of a cell are held at the places below its node. -/
theorem held_exprPlace (hc : p.cell? n = some c) {i : Nat} (h : c.exprs[i]? = some m) :
    (Position.expr (n.exprPlace i)).owner = n ∧ p.heldAt? (.expr (n.exprPlace i)) = some m := by
  have howner : ∀ owner : ExprOwner, p.cell? owner.node = some c →
      p.heldAt? (.expr ⟨owner, i⟩) = some m := fun owner hc => by
    rw [heldAt?_expr, ← List.getElem?_map, ← exprs_of_cell? owner hc, h]
  cases n with
  | stmt s => exact ⟨rfl, howner (.stmt s) hc⟩
  | expr e => exact ⟨rfl, howner (.expr e) hc⟩
  | module k =>
    obtain ⟨x, _, rfl⟩ := cell?_module hc
    simp [Node.cell] at h
  | symbol s =>
    obtain ⟨x, _, rfl⟩ := cell?_symbol hc
    simp [Node.cell] at h

/-- The symbols of a cell are held at the positions below its node. -/
theorem held_symbolPosition (hc : p.cell? n = some c) {i : Nat} (h : c.symbols[i]? = some m) :
    (n.symbolPosition i).owner = n ∧ p.heldAt? (n.symbolPosition i) = some m := by
  have hlist : ∀ list : SymbolList, p.cell? list.node = some c →
      p.heldAt? (.symbol list i) = some m := fun list hc => by
    rw [heldAt?_symbol, ← List.getElem?_map, ← symbols_of_cell? list hc, h]
  cases n with
  | module k => exact ⟨rfl, hlist (.module k) hc⟩
  | symbol s => exact ⟨rfl, hlist (.symbol s) hc⟩
  | stmt s =>
    refine ⟨rfl, ?_⟩
    rw [declared_of_cell? hc] at h
    cases hd : p.declared? s with
    | none => simp [hd] at h
    | some y =>
      obtain rfl : i = 0 := by
        have hi := (List.getElem?_eq_some_iff.mp h).1
        simpa [hd] using hi
      simpa [hd, NodeId.symbolPosition, heldAt?] using h
  | expr e =>
    obtain ⟨x, _, rfl⟩ := cell?_expr hc
    simp [Node.cell] at h

/-- The statements of a cell are held at the places below its node. -/
theorem held_stmtPlace (hc : p.cell? n = some c) {i : Nat} (h : c.stmts[i]? = some m) :
    (Position.stmt (n.stmtPlace c.label i)).owner = n ∧
      p.heldAt? (.stmt (n.stmtPlace c.label i)) = some m := by
  cases n with
  | symbol s =>
    refine ⟨rfl, ?_⟩
    have hfits : (StmtList.body s).Fits c.label := by
      obtain ⟨x, _, rfl⟩ := cell?_symbol hc
      trivial
    rw [NodeId.stmtPlace, heldAt?_entry, ← List.getElem?_map, ← stmts_of_cell? _ hc hfits, h]
  | stmt s =>
    obtain ⟨x, hx, rfl⟩ := cell?_stmt hc
    obtain ⟨k, line, _, _⟩ := x
    cases k with
    | block stmts =>
      refine ⟨rfl, ?_⟩
      simpa [NodeId.stmtPlace, Node.cell, StmtKind.head, heldAt?, stmtAt?, stmtList?, hx,
        StmtKind.entries?, StmtKind.held] using h
    | ifElse cond t f =>
      rcases i with _ | i
      · refine ⟨rfl, ?_⟩
        simpa [NodeId.stmtPlace, Node.cell, StmtKind.head, heldAt?, stmtAt?, hx, StmtKind.branch?,
          StmtKind.held] using h
      · refine ⟨rfl, ?_⟩
        cases f with
        | none => simp [Node.cell, StmtKind.held] at h
        | some f =>
          obtain ⟨rfl, rfl⟩ : i = 0 ∧ .stmt f = m := by
            rcases i with _ | i <;> simp_all [Node.cell, StmtKind.held]
          simp [NodeId.stmtPlace, Node.cell, StmtKind.head, heldAt?, stmtAt?, hx, StmtKind.branch?]
    | whileDo cond body =>
      obtain ⟨rfl, rfl⟩ : i = 0 ∧ .stmt body = m := by
        rcases i with _ | i <;> simp_all [Node.cell, StmtKind.held]
      refine ⟨rfl, ?_⟩
      simp [NodeId.stmtPlace, Node.cell, StmtKind.head, heldAt?, stmtAt?, hx, StmtKind.branch?]
    | _ => simp [Node.cell, StmtKind.held] at h
  | module k =>
    obtain ⟨x, _, rfl⟩ := cell?_module hc
    simp [Node.cell] at h
  | expr e =>
    obtain ⟨x, _, rfl⟩ := cell?_expr hc
    simp [Node.cell] at h

/-- Every child of a node is held in a position of it. -/
theorem owns_of_cell? (hc : p.cell? n = some c) (hm : m ∈ c.children) : p.Owns n m := by
  rw [Cell.children, List.mem_append, List.mem_append] at hm
  rcases hm with (hm | hm) | hm <;> obtain ⟨i, hi⟩ := List.getElem?_of_mem hm
  · exact ⟨_, held_exprPlace hc hi⟩
  · exact ⟨_, held_symbolPosition hc hi⟩
  · exact ⟨_, held_stmtPlace hc hi⟩

end Program

/-- The nodes that a node owns. -/
def Program.childrenOf (p : Program) (n : NodeId) : List NodeId :=
  ((p.cell? n).map Cell.children).getD []

namespace Program

variable {p : Program} {n : NodeId}

theorem childrenOf_of_cell? {c : Cell} (h : p.cell? n = some c) : p.childrenOf n = c.children := by
  rw [childrenOf, h]
  rfl

/-- A node that is not there owns nothing. -/
theorem childrenOf_of_missing (h : p.has n = false) : p.childrenOf n = [] := by
  rw [has_eq_cell?, Option.isSome_eq_false_iff, Option.isNone_iff_eq_none] at h
  rw [childrenOf, h]
  rfl

/-- A node owns what is held at its positions. -/
theorem mem_childrenOf {pos : Position} (h : p.heldAt? pos = some n) :
    n ∈ p.childrenOf pos.owner := by
  obtain ⟨c, hc⟩ := exists_cell? (has_of_heldAt? h)
  rw [childrenOf_of_cell? hc]
  exact List.mem_of_getElem? (child_of_heldAt? hc h)

/-- If no child of some nodes is a child of them twice, no two positions of them hold the same. -/
theorem alone_of_nodup {ns : List NodeId} {pos pos' : Position}
    (hnodup : (ns.flatMap p.childrenOf).Nodup) (howner : pos.owner ∈ ns)
    (howner' : pos'.owner ∈ ns) (hheld : p.heldAt? pos = some n)
    (hheld' : p.heldAt? pos' = some n) : pos = pos' := by
  rw [List.nodup_flatMap] at hnodup
  have hsame : pos.owner = pos'.owner := by
    by_contra hne
    have : Std.Symm (Function.onFun List.Disjoint p.childrenOf) :=
      ⟨fun _ _ h _ hm hm' => h hm' hm⟩
    exact hnodup.2.forall howner howner' hne (mem_childrenOf hheld) (mem_childrenOf hheld')
  obtain ⟨c, hc⟩ := exists_cell? (has_of_heldAt? hheld)
  have hchild := child_of_heldAt? hc hheld
  have hchild' := child_of_heldAt? (hsame ▸ hc) hheld'
  have hchildren := hnodup.1 _ howner
  rw [childrenOf_of_cell? hc] at hchildren
  refine position_unique hc hheld hheld' hsame ?_
  exact (List.getElem?_inj (List.getElem?_eq_some_iff.mp hchild).1 hchildren).mp
    (hchild.trans hchild'.symm)

end Program

/-! ## Trees -/

namespace Tree

theorem children_node (n : NodeId) (l : Label) (es ss ts : List Tree) :
    (node n l es ss ts).children = es ++ ss ++ ts := rfl

/-- The nodes of trees are the roots and the children of all nodes. -/
theorem nodesOf_perm (ts : List Tree) :
    (nodesOf ts).Perm (ts.map id ++ (subtreesOf ts).flatMap fun t => t.children.map id) := by
  have hlist : ∀ us : List Tree, (∀ t ∈ us, (nodesOf [t]).Perm
      (t.id :: (subtreesOf [t]).flatMap fun t => t.children.map id)) →
      (nodesOf us).Perm (us.map id ++ (subtreesOf us).flatMap fun t => t.children.map id) := by
    intro us hus
    induction us with
    | nil => exact .nil
    | cons u us ih =>
      rw [nodesOf_cons, subtreesOf_cons, List.flatMap_append, List.map_cons]
      have hu := hus u List.mem_cons_self
      have hus := ih fun t ht => hus t (List.mem_cons_of_mem u ht)
      refine (hu.append hus).trans ?_
      rw [List.cons_append, List.cons_append]
      refine List.Perm.cons _ ?_
      rw [← List.append_assoc, ← List.append_assoc]
      exact List.perm_append_comm.append_right _
  refine hlist ts fun t ht => ?_
  clear ht
  induction t using Tree.induction with
  | step n l es ss us he hs hu =>
    have hbelow := hlist (es ++ ss ++ us) fun t ht => by
      rw [List.mem_append, List.mem_append] at ht
      exact ht.elim (·.elim (he t) (hs t)) (hu t)
    have hnodes : nodesOf [node n l es ss us] = n :: nodesOf (es ++ ss ++ us) := by
      simp [nodesOf_append]
    have hsub : subtreesOf [node n l es ss us] =
        node n l es ss us :: subtreesOf (es ++ ss ++ us) := by
      simp [subtreesOf_append]
    rw [hnodes, hsub, List.flatMap_cons, children_node]
    exact hbelow.cons n

end Tree

namespace Program

variable {p : Program} {modules : List ModuleId} {ts : List Tree} {n : NodeId}

/-- What a node of trees holds is a child of it in the trees. -/
theorem Bears.child_of_heldAt? (h : p.Bears ts) {u : Tree} (hu : u ∈ subtreesOf ts)
    {pos : Position} (howner : pos.owner = u.id) (hheld : p.heldAt? pos = some n) :
    (u.children.map Tree.id)[pos.index u.cell]? = some n := by
  rw [Tree.map_id_children]
  exact Program.child_of_heldAt? (howner ▸ h u hu) hheld

/-- Where modules unfold to trees, what is reached from them are the nodes of the trees. -/
theorem reaches_iff (hts : p.Unfolds modules ts) : p.Reaches modules n ↔ n ∈ nodesOf ts := by
  constructor
  · intro h
    induction h with
    | @root m hm =>
      have hroot : NodeId.module m ∈ ts.map Tree.id := hts.roots ▸ List.mem_map_of_mem hm
      obtain ⟨t, ht, hid⟩ := List.mem_map.mp hroot
      exact hid ▸ id_mem_nodesOf ht
    | @held pos n _ hheld ih =>
      obtain ⟨u, hu, hid⟩ := List.mem_map.mp ih
      have hchild := List.mem_of_getElem? (hts.bears.child_of_heldAt? hu hid.symm hheld)
      exact (nodesOf_perm ts).mem_iff.mpr
        (List.mem_append_right _ (List.mem_flatMap.mpr ⟨u, hu, hchild⟩))
  · intro h
    obtain ⟨u, hu, rfl⟩ := List.mem_map.mp h
    refine (forall_subtreesOf (P := fun t => p.Bears [t] ∧ p.Reaches modules t.id) ?_
      (fun t ht => ⟨hts.bears.mem ht, ?_⟩) u hu).2
    · rintro n l es ss us ⟨hbears, hreach⟩ t ht
      refine ⟨hbears.below.mem ht, ?_⟩
      obtain ⟨pos, howner, hheld⟩ := owns_of_cell? (bears_node.mp hbears).1 (id_mem_cell ht)
      exact .held (howner ▸ hreach) hheld
    · obtain ⟨m, hm, hid⟩ := List.mem_map.mp (hts.roots ▸ List.mem_map_of_mem ht)
      exact hid ▸ .root hm

/-- Trees are a forest. -/
theorem isForest_of_unfolds (hts : p.Unfolds modules ts) : p.IsForest modules where
  exist hreach hheld := hts.bears.has ((reaches_iff hts).mp (.held hreach hheld))
  alone hreach hreach' := by
    have hsame : (nodesOf ts).flatMap p.childrenOf =
        (subtreesOf ts).flatMap fun t => t.children.map Tree.id := by
      rw [nodesOf, List.flatMap_map]
      refine List.flatMap_congr fun t ht => ?_
      rw [Tree.map_id_children, childrenOf_of_cell? (hts.bears t ht)]
    have hnodup := (List.nodup_append.mp ((nodesOf_perm ts).nodup_iff.mp hts.nodup)).2.1
    exact alone_of_nodup (hsame ▸ hnodup) ((reaches_iff hts).mp hreach)
      ((reaches_iff hts).mp hreach')

end Program

end MiddleEnd
