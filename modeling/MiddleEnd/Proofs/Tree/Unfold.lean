import MiddleEnd.Proofs.Tree.Change

/-!
# MiddleEnd.Proofs.Tree.Unfold

The trees that a program draws with its ids.  A `Tree` is a node with everything it owns, as
values; a program *bears* trees if it has their nodes, each with the cell that the tree says
(`Program.Bears`), and *records* them if the back-references of all nodes are those that the tree
says (`Program.Records`).

Both look at the nodes of the trees only, so what changes elsewhere in the program does not concern
them (`Bears.congr`, `Records.congr`), and a program bears at most one tree at a node
(`bears_unique`).
-/

namespace MiddleEnd

/-- A node with everything it owns. -/
inductive Tree where
  | node (id : NodeId) (label : Label) (exprs symbols stmts : List Tree)
deriving Repr

namespace Tree

def id : Tree → NodeId
  | node n _ _ _ _ => n

def label : Tree → Label
  | node _ l _ _ _ => l

def exprs : Tree → List Tree
  | node _ _ es _ _ => es

def symbols : Tree → List Tree
  | node _ _ _ ss _ => ss

def stmts : Tree → List Tree
  | node _ _ _ _ ts => ts

@[simp] theorem id_node (n : NodeId) (l : Label) (es ss ts : List Tree) :
    (node n l es ss ts).id = n := rfl

@[simp] theorem label_node (n : NodeId) (l : Label) (es ss ts : List Tree) :
    (node n l es ss ts).label = l := rfl

@[simp] theorem exprs_node (n : NodeId) (l : Label) (es ss ts : List Tree) :
    (node n l es ss ts).exprs = es := rfl

@[simp] theorem symbols_node (n : NodeId) (l : Label) (es ss ts : List Tree) :
    (node n l es ss ts).symbols = ss := rfl

@[simp] theorem stmts_node (n : NodeId) (l : Label) (es ss ts : List Tree) :
    (node n l es ss ts).stmts = ts := rfl

/-- The root, with the nodes it owns. -/
def cell (t : Tree) : Cell := ⟨t.label, t.exprs.map id, t.symbols.map id, t.stmts.map id⟩

@[simp] theorem cell_node (n : NodeId) (l : Label) (es ss ts : List Tree) :
    (node n l es ss ts).cell = ⟨l, es.map id, ss.map id, ts.map id⟩ := rfl

/-- Induction on trees: what holds of a node whenever it holds of everything it owns. -/
theorem induction {P : Tree → Prop}
    (step : ∀ n l es ss ts, (∀ t ∈ es, P t) → (∀ t ∈ ss, P t) → (∀ t ∈ ts, P t) →
      P (node n l es ss ts)) (t : Tree) : P t :=
  Tree.rec (motive_1 := P) (motive_2 := fun ts => ∀ t ∈ ts, P t)
    (fun n l es ss ts he hs ht => step n l es ss ts he hs ht)
    (fun _ h => absurd h List.not_mem_nil)
    (fun _ _ ht hts _ h => (List.mem_cons.mp h).elim (fun he => he ▸ ht) (hts _)) t

/-! ## Subtrees and nodes -/

mutual

/-- The tree and all trees below it, in the order in which a walk enters their roots. -/
def subtrees : Tree → List Tree
  | node n l es ss ts =>
    node n l es ss ts :: (subtreesOf es ++ subtreesOf ss ++ subtreesOf ts)

def subtreesOf : List Tree → List Tree
  | [] => []
  | t :: ts => t.subtrees ++ subtreesOf ts

end

/-- The nodes of trees, in the order in which a walk enters them. -/
def nodesOf (ts : List Tree) : List NodeId := (subtreesOf ts).map id

@[simp] theorem subtreesOf_nil : subtreesOf [] = [] := rfl

/-- The subtrees start with the tree, and go on with those of its expressions, symbols and
statements. -/
@[simp] theorem subtreesOf_node (n : NodeId) (l : Label) (es ss ts us : List Tree) :
    subtreesOf (node n l es ss ts :: us) = node n l es ss ts ::
      (subtreesOf es ++ subtreesOf ss ++ subtreesOf ts ++ subtreesOf us) := by
  simp [subtreesOf, subtrees]

/-- The subtrees of trees in a row come one after the other. -/
theorem subtreesOf_append (ts us : List Tree) :
    subtreesOf (ts ++ us) = subtreesOf ts ++ subtreesOf us := by
  induction ts with
  | nil => rfl
  | cons t ts ih => simp [subtreesOf, ih]

/-- The subtrees of the first tree come first. -/
theorem subtreesOf_cons (t : Tree) (ts : List Tree) :
    subtreesOf (t :: ts) = subtreesOf [t] ++ subtreesOf ts := by
  simp [subtreesOf]

@[simp] theorem nodesOf_nil : nodesOf [] = [] := rfl

@[simp] theorem nodesOf_node (n : NodeId) (l : Label) (es ss ts us : List Tree) :
    nodesOf (node n l es ss ts :: us) =
      n :: (nodesOf es ++ nodesOf ss ++ nodesOf ts ++ nodesOf us) := by
  simp [nodesOf]

/-- The nodes of trees in a row come one after the other. -/
theorem nodesOf_append (ts us : List Tree) : nodesOf (ts ++ us) = nodesOf ts ++ nodesOf us := by
  simp [nodesOf, subtreesOf_append]

/-- The nodes of the first tree come first. -/
theorem nodesOf_cons (t : Tree) (ts : List Tree) : nodesOf (t :: ts) = nodesOf [t] ++ nodesOf ts :=
  nodesOf_append [t] ts

/-- A tree is a subtree of its own. -/
theorem mem_subtreesOf_self {t : Tree} {ts : List Tree} (h : t ∈ ts) : t ∈ subtreesOf ts := by
  induction ts with
  | nil => cases h
  | cons u ts ih =>
    rw [subtreesOf_cons, List.mem_append]
    rcases List.mem_cons.mp h with rfl | h
    · cases t
      simp
    · exact .inr (ih h)

/-- The root of a tree is one of its nodes. -/
theorem id_mem_nodesOf {t : Tree} {ts : List Tree} (h : t ∈ ts) : t.id ∈ nodesOf ts :=
  List.mem_map_of_mem (mem_subtreesOf_self h)

/-- Without repetition, a node does not occur below itself. -/
theorem nodup_node {n : NodeId} {l : Label} {es ss ts : List Tree} :
    (nodesOf [node n l es ss ts]).Nodup ↔
      n ∉ nodesOf (es ++ ss ++ ts) ∧ (nodesOf (es ++ ss ++ ts)).Nodup := by
  simp [nodesOf_append]

theorem nodup_exprs {n : NodeId} {l : Label} {es ss ts : List Tree}
    (h : (nodesOf [node n l es ss ts]).Nodup) : (nodesOf es).Nodup := by
  rw [nodup_node, nodesOf_append, nodesOf_append, List.nodup_append, List.nodup_append] at h
  exact h.2.1.1

/-- Trees in a row repeat no node if neither part does and none is in both. -/
theorem nodup_append {ts us : List Tree} : (nodesOf (ts ++ us)).Nodup ↔ (nodesOf ts).Nodup ∧
    (nodesOf us).Nodup ∧ ∀ n ∈ nodesOf ts, n ∉ nodesOf us := by
  rw [nodesOf_append, List.nodup_append]
  exact and_congr_right fun _ => and_congr_right fun _ =>
    ⟨fun h n hn hm => h n hn n hm rfl, fun h n hn m hm he => h n hn (he ▸ hm)⟩

/-- The roots of trees without repetition do not repeat. -/
theorem nodup_roots : ∀ {ts : List Tree}, (nodesOf ts).Nodup → (ts.map id).Nodup
  | [], _ => List.nodup_nil
  | t :: ts, h => by
    rw [nodesOf_cons, List.nodup_append] at h
    refine List.nodup_cons.mpr ⟨fun hm => ?_, nodup_roots h.2.1⟩
    obtain ⟨u, hu, hid⟩ := List.mem_map.mp hm
    exact h.2.2 t.id (id_mem_nodesOf List.mem_cons_self) u.id (id_mem_nodesOf hu) hid.symm

/-- No node is the root of two trees. -/
theorem nodup_of_roots {α : Type} {f : α → NodeId} {ts : List Tree} {ids : List α}
    (h : (nodesOf ts).Nodup) (hids : ts.map id = ids.map f) : ids.Nodup :=
  (List.pairwise_map.mp (hids ▸ nodup_roots h)).imp fun hne he => hne (congrArg f he)

end Tree

/-! ## Surroundings -/

/-- What encloses a node: the module, the nearest statement, the nearest symbol, and what declares
a symbol that stands here. -/
structure Around where
  module : Option ModuleId
  stmt : Option StmtId
  symbol : Option SymbolId
  scope : Option Scope
deriving DecidableEq, Repr

namespace Around

/-- Around a module there is nothing. -/
def outside : Around := ⟨none, none, none, none⟩

/-- What encloses the nodes that a node owns. -/
def under (a : Around) : NodeId → Around
  | .module m => ⟨some m, none, none, some (.module m)⟩
  | .symbol s => { a with symbol := some s, scope := some (.symbol s) }
  | .stmt s => { a with stmt := some s, scope := some (.stmt s) }
  | .expr _ => a

/-- What a node has to record that stands here. -/
def backs (a : Around) : NodeId → Backs
  | .module _ => .none
  | .symbol _ => .scope a.scope
  | .stmt _ | .expr _ => .parents a.stmt a.symbol

end Around

namespace Tree

mutual

/-- The subtrees, each with what encloses it. -/
def placed (a : Around) : Tree → List (Around × Tree)
  | node n l es ss ts => (a, node n l es ss ts) ::
    (placedOf (a.under n) es ++ placedOf (a.under n) ss ++ placedOf (a.under n) ts)

def placedOf (a : Around) : List Tree → List (Around × Tree)
  | [] => []
  | t :: ts => t.placed a ++ placedOf a ts

end

@[simp] theorem placedOf_nil (a : Around) : placedOf a [] = [] := rfl

@[simp] theorem placedOf_node (a : Around) (n : NodeId) (l : Label) (es ss ts us : List Tree) :
    placedOf a (node n l es ss ts :: us) = (a, node n l es ss ts) :: (placedOf (a.under n) es ++
      placedOf (a.under n) ss ++ placedOf (a.under n) ts ++ placedOf a us) := by
  simp [placedOf, placed]

/-- Trees in a row stand in the same surroundings. -/
theorem placedOf_append (a : Around) (ts us : List Tree) :
    placedOf a (ts ++ us) = placedOf a ts ++ placedOf a us := by
  induction ts with
  | nil => rfl
  | cons t ts ih => simp [placedOf, ih]

/-- The subtrees with their surroundings are the subtrees. -/
private theorem placed_map_snd (t : Tree) : ∀ a, (placed a t).map Prod.snd = subtrees t := by
  induction t using Tree.induction with
  | step n l es ss ts he hs ht =>
    have hall : ∀ us : List Tree, (∀ t ∈ us, ∀ a, (placed a t).map Prod.snd = subtrees t) →
        ∀ a, (placedOf a us).map Prod.snd = subtreesOf us := by
      intro us hus a
      induction us with
      | nil => rfl
      | cons u us ih =>
        rw [placedOf, subtreesOf, List.map_append, hus u List.mem_cons_self,
          ih fun t ht => hus t (List.mem_cons_of_mem u ht)]
    intro a
    rw [placed, subtrees, List.map_cons, List.map_append, List.map_append, hall es he, hall ss hs,
      hall ts ht]

/-- With their surroundings or without, the subtrees are the same. -/
theorem placedOf_map_snd (a : Around) (ts : List Tree) :
    (placedOf a ts).map Prod.snd = subtreesOf ts := by
  induction ts with
  | nil => rfl
  | cons t ts ih => rw [placedOf, subtreesOf, List.map_append, placed_map_snd, ih]

/-- What stands below trees stands below one of them. -/
theorem mem_placedOf {a : Around} {ts : List Tree} {x : Around × Tree} :
    x ∈ placedOf a ts ↔ ∃ t ∈ ts, x ∈ t.placed a := by
  induction ts with
  | nil => simp
  | cons t ts ih => simp [placedOf, ih]

/-- What passes from each node to the nodes it owns holds in all of the trees if it holds at their
roots. -/
theorem forall_placedOf {P : Around → Tree → Prop}
    (step : ∀ a n l es ss ts, P a (node n l es ss ts) → ∀ t ∈ es ++ ss ++ ts, P (a.under n) t)
    {a : Around} {ts : List Tree} (h : ∀ t ∈ ts, P a t) : ∀ x ∈ placedOf a ts, P x.1 x.2 := by
  have htree : ∀ (t : Tree) (a : Around), P a t → ∀ x ∈ t.placed a, P x.1 x.2 := by
    intro t
    induction t using Tree.induction with
    | step n l es ss ts he hs ht =>
      intro a hroot x hx
      rw [placed, List.mem_cons, ← placedOf_append, ← placedOf_append, mem_placedOf] at hx
      rcases hx with rfl | ⟨t, hmem, hx⟩
      · exact hroot
      · have hP := step a n l es ss ts hroot t hmem
        rw [List.mem_append, List.mem_append] at hmem
        exact hmem.elim (·.elim (he t · _ hP x hx) (hs t · _ hP x hx)) (ht t · _ hP x hx)
  intro x hx
  obtain ⟨t, hmem, hx⟩ := mem_placedOf.mp hx
  exact htree t a (h t hmem) x hx

/-- What passes from a root to the trees below it holds of all subtrees. -/
theorem forall_subtreesOf {P : Tree → Prop}
    (step : ∀ n l es ss ts, P (node n l es ss ts) → ∀ t ∈ es ++ ss ++ ts, P t)
    {ts : List Tree} (h : ∀ t ∈ ts, P t) : ∀ u ∈ subtreesOf ts, P u := by
  intro u hu
  rw [← placedOf_map_snd .outside] at hu
  obtain ⟨x, hx, rfl⟩ := List.mem_map.mp hu
  exact forall_placedOf (P := fun _ t => P t) (fun _ => step) h x hx

/-- One of several trees that repeat no node repeats none. -/
theorem nodup_of_mem {t : Tree} {ts : List Tree} (h : (nodesOf ts).Nodup) (ht : t ∈ ts) :
    (nodesOf [t]).Nodup := by
  obtain ⟨us, vs, rfl⟩ := List.append_of_mem ht
  exact ((@nodup_append [t] vs).mp (nodup_append.mp h).2.1).1

/-- Nothing repeats in a part of trees without repetition. -/
theorem nodup_of_mem_subtreesOf {ts : List Tree} (h : (nodesOf ts).Nodup) :
    ∀ u ∈ subtreesOf ts, (nodesOf [u]).Nodup :=
  forall_subtreesOf (P := fun t => (nodesOf [t]).Nodup)
    (fun _ _ _ _ _ hn _ ht => nodup_of_mem (nodup_node.mp hn).2 ht) fun _ ht => nodup_of_mem h ht

/-- What stands below trees is one of their subtrees. -/
theorem mem_subtreesOf_of_placed {a : Around} {ts : List Tree} {x : Around × Tree}
    (h : x ∈ placedOf a ts) : x.2 ∈ subtreesOf ts := by
  rw [← placedOf_map_snd a]
  exact List.mem_map_of_mem h

theorem id_mem_of_placed {a : Around} {ts : List Tree} {x : Around × Tree}
    (h : x ∈ placedOf a ts) : x.2.id ∈ nodesOf ts :=
  List.mem_map_of_mem (mem_subtreesOf_of_placed h)

end Tree

/-! ## The trees of a program -/

namespace Program

open MiddleEnd.Tree

/-- Every node of the trees is a node of the program, and owns there what it owns in the tree. -/
def Bears (p : Program) (ts : List Tree) : Prop := ∀ u ∈ subtreesOf ts, p.cell? u.id = some u.cell

/-- Every node of the trees records what encloses it in the tree. -/
def Records (p : Program) (a : Around) (ts : List Tree) : Prop :=
  ∀ x ∈ placedOf a ts, p.backs? x.2.id = some (x.1.backs x.2.id)

section

variable {p q : Program} {ts us : List Tree} {a : Around}

@[simp] theorem bears_nil : p.Bears [] := fun _ h => absurd h List.not_mem_nil

@[simp] theorem records_nil : p.Records a [] := fun _ h => absurd h List.not_mem_nil

/-- Trees in a row stand in the program if each row does. -/
theorem bears_append : p.Bears (ts ++ us) ↔ p.Bears ts ∧ p.Bears us := by
  simp only [Bears, subtreesOf_append, List.mem_append, or_imp, forall_and]

/-- Trees in a row are recorded if each row is. -/
theorem records_append : p.Records a (ts ++ us) ↔ p.Records a ts ∧ p.Records a us := by
  simp only [Records, placedOf_append, List.mem_append, or_imp, forall_and]

/-- A tree and others stand in the program if it and they do. -/
theorem bears_cons {t : Tree} : p.Bears (t :: ts) ↔ p.Bears [t] ∧ p.Bears ts :=
  @bears_append p [t] ts

/-- A tree stands in the program if its root does, with the trees below it. -/
theorem bears_node {n : NodeId} {l : Label} {es ss ts : List Tree} :
    p.Bears [.node n l es ss ts] ↔
      p.cell? n = some ⟨l, es.map Tree.id, ss.map Tree.id, ts.map Tree.id⟩ ∧
        p.Bears es ∧ p.Bears ss ∧ p.Bears ts := by
  simp only [Bears, subtreesOf_node, subtreesOf_nil, List.append_nil, List.mem_cons,
    List.mem_append, or_imp, forall_and, forall_eq, id_node, cell_node, and_assoc]

/-- A tree is recorded at its root and below it. -/
theorem records_node {n : NodeId} {l : Label} {es ss ts : List Tree} :
    p.Records a [.node n l es ss ts] ↔ p.backs? n = some (a.backs n) ∧
      p.Records (a.under n) es ∧ p.Records (a.under n) ss ∧ p.Records (a.under n) ts := by
  simp only [Records, placedOf_node, placedOf_nil, List.append_nil, List.mem_cons,
    List.mem_append, or_imp, forall_and, forall_eq, id_node, and_assoc]

/-- The root of a tree has the cell that the tree says. -/
theorem Bears.cell (h : p.Bears ts) {t : Tree} (ht : t ∈ ts) : p.cell? t.id = some t.cell :=
  h t (mem_subtreesOf_self ht)

/-- The nodes of trees that a program bears exist. -/
theorem Bears.has (h : p.Bears ts) {n : NodeId} (hn : n ∈ nodesOf ts) : p.has n = true := by
  obtain ⟨u, hu, rfl⟩ := List.mem_map.mp hn
  rw [has_eq_cell?, h u hu]
  rfl

/-- Trees stand as long as the cells of their nodes do. -/
theorem Bears.congr (h : p.Bears ts) (hn : ∀ n ∈ nodesOf ts, q.cell? n = p.cell? n) :
    q.Bears ts := fun u hu => (hn u.id (List.mem_map_of_mem hu)).trans (h u hu)

/-- What trees record stands as long as the back-references of their nodes do. -/
theorem Records.congr (h : p.Records a ts) (hn : ∀ n ∈ nodesOf ts, q.backs? n = p.backs? n) :
    q.Records a ts := fun x hx => (hn x.2.id (id_mem_of_placed hx)).trans (h x hx)

/-- Trees stay where no node of theirs is changed. -/
theorem Bears.frame {H : NodeId → Prop} (h : p.Bears ts) (hpq : Extends H p q)
    (hH : ∀ n ∈ nodesOf ts, ¬ H n) : q.Bears ts :=
  h.congr fun n hn => hpq.cell (h.has hn) (hH n hn)

/-- Trees stay recorded where no node of theirs is changed. -/
theorem Records.frame {H : NodeId → Prop} (h : p.Records a ts) (hb : p.Bears ts)
    (hpq : Extends H p q) (hH : ∀ n ∈ nodesOf ts, ¬ H n) : q.Records a ts :=
  h.congr fun n hn => hpq.backs (hb.has hn) (hH n hn)

end

theorem Bears.mem {p : Program} {ts : List Tree} (h : p.Bears ts) {t : Tree} (ht : t ∈ ts) :
    p.Bears [t] := by
  obtain ⟨us, vs, rfl⟩ := List.append_of_mem ht
  exact (bears_cons.mp (bears_append.mp h).2).1

/-- The trees right below a tree. -/
theorem Bears.below {p : Program} {n : NodeId} {l : Label} {es ss ts : List Tree}
    (h : p.Bears [.node n l es ss ts]) : p.Bears (es ++ ss ++ ts) := by
  obtain ⟨_, hes, hss, hts⟩ := bears_node.mp h
  exact bears_append.mpr ⟨bears_append.mpr ⟨hes, hss⟩, hts⟩

/-- Every subtree stands in the program. -/
theorem Bears.sub {p : Program} {ts : List Tree} (h : p.Bears ts) :
    ∀ u ∈ subtreesOf ts, p.Bears [u] :=
  forall_subtreesOf (P := fun t => p.Bears [t]) (fun _ _ _ _ _ hb _ ht => hb.below.mem ht)
    fun _ ht => h.mem ht

/-- What a node owns, by category. -/
theorem kinds_of_cell? {p : Program} {n : NodeId} {c : Cell} (h : p.cell? n = some c) :
    (∀ m ∈ c.exprs, ∃ e, m = .expr e) ∧ (∀ m ∈ c.symbols, ∃ s, m = .symbol s) ∧
      ∀ m ∈ c.stmts, ∃ s, m = .stmt s := by
  obtain ⟨x, _, rfl⟩ := Option.map_eq_some_iff.mp h
  have hmap : ∀ {α : Type} (f : α → NodeId) (xs : List α), ∀ m ∈ xs.map f, ∃ a, m = f a :=
    fun f xs m hm => (List.mem_map.mp hm).imp fun _ ha => ha.2.symm
  cases x <;> refine ⟨?_, ?_, ?_⟩ <;> first
    | exact hmap _ _
    | exact fun _ hm => absurd hm List.not_mem_nil

/-- The roots of the trees below a node, by category. -/
theorem Bears.kinds {p : Program} {n : NodeId} {l : Label} {es ss ts : List Tree}
    (h : p.Bears [.node n l es ss ts]) : (∀ t ∈ es, ∃ e, t.id = .expr e) ∧
      (∀ t ∈ ss, ∃ s, t.id = .symbol s) ∧ ∀ t ∈ ts, ∃ s, t.id = .stmt s := by
  obtain ⟨hes, hss, hts⟩ := kinds_of_cell? (bears_node.mp h).1
  exact ⟨fun t ht => hes t.id (List.mem_map_of_mem ht),
    fun t ht => hss t.id (List.mem_map_of_mem ht), fun t ht => hts t.id (List.mem_map_of_mem ht)⟩

/-- The tree at a node. -/
theorem Bears.root {p : Program} {ts : List Tree} {n : NodeId} (h : p.Bears ts)
    (hroots : ts.map Tree.id = [n]) : ∃ l es ss us, ts = [.node n l es ss us] ∧
      p.cell? n = some (Tree.node n l es ss us).cell := by
  obtain ⟨⟨_, l, es, ss, us⟩, rfl, rfl⟩ := List.map_eq_singleton_iff.mp hroots
  exact ⟨l, es, ss, us, rfl, h.cell List.mem_cons_self⟩

/-- Below a module there are symbols only. -/
theorem Bears.module_root {p : Program} {ts : List Tree} {m : ModuleId} (h : p.Bears ts)
    (hroots : ts.map Tree.id = [.module m]) : ∃ l ss, ts = [.node (.module m) l [] ss []] ∧
      p.cell? (.module m) = some (Tree.node (.module m) l [] ss []).cell := by
  obtain ⟨l, es, ss, us, rfl, hc⟩ := h.root hroots
  obtain ⟨x, _, hx⟩ := cell?_module hc
  obtain rfl : es = [] := by simpa [Node.cell] using congrArg Cell.exprs hx
  obtain rfl : us = [] := by simpa [Node.cell] using congrArg Cell.stmts hx
  exact ⟨l, ss, rfl, hc⟩

/-- Below a symbol there are symbols and the statements of its body. -/
theorem Bears.symbol_root {p : Program} {ts : List Tree} {s : SymbolId} (h : p.Bears ts)
    (hroots : ts.map Tree.id = [.symbol s]) : ∃ l ss us, ts = [.node (.symbol s) l [] ss us] ∧
      p.cell? (.symbol s) = some (Tree.node (.symbol s) l [] ss us).cell ∧
      (StmtList.body s).Fits l := by
  obtain ⟨l, es, ss, us, rfl, hc⟩ := h.root hroots
  obtain ⟨x, _, hx⟩ := cell?_symbol hc
  obtain rfl : es = [] := by simpa [Node.cell] using congrArg Cell.exprs hx
  obtain rfl : l = .symbol x.name x.line x.removed x.kind.head := congrArg Cell.label hx
  exact ⟨_, ss, us, rfl, hc, trivial⟩

/-- Below an expression there are expressions only. -/
theorem Bears.expr_root {p : Program} {ts : List Tree} {e : ExprId} (h : p.Bears ts)
    (hroots : ts.map Tree.id = [.expr e]) : ∃ l es, ts = [.node (.expr e) l es [] []] ∧
      p.cell? (.expr e) = some (Tree.node (.expr e) l es [] []).cell := by
  obtain ⟨l, es, ss, us, rfl, hc⟩ := h.root hroots
  obtain ⟨x, _, hx⟩ := cell?_expr hc
  obtain rfl : ss = [] := by simpa [Node.cell] using congrArg Cell.symbols hx
  obtain rfl : us = [] := by simpa [Node.cell] using congrArg Cell.stmts hx
  exact ⟨l, es, rfl, hc⟩

/-- No node owns a module. -/
theorem ne_module_of_cell? {p : Program} {n m : NodeId} {c : Cell} (h : p.cell? n = some c)
    (hm : m ∈ c.exprs ++ c.symbols ++ c.stmts) (k : ModuleId) : m ≠ .module k := by
  obtain ⟨x, _, rfl⟩ := Option.map_eq_some_iff.mp h
  rintro rfl
  cases x <;> simp [Node.cell] at hm

/-- An expression is owned by a statement or by an expression. -/
theorem owner_of_cell? {p : Program} {n : NodeId} {e : ExprId} {c : Cell} (h : p.cell? n = some c)
    (he : .expr e ∈ c.exprs ++ c.symbols ++ c.stmts) : (∃ s, n = .stmt s) ∨ ∃ f, n = .expr f := by
  cases n with
  | stmt s => exact .inl ⟨s, rfl⟩
  | expr f => exact .inr ⟨f, rfl⟩
  | module m =>
    obtain ⟨x, _, rfl⟩ := cell?_module h
    simp [Node.cell] at he
  | symbol s =>
    obtain ⟨x, _, rfl⟩ := cell?_symbol h
    simp [Node.cell] at he

theorem id_mem_cell {es ss ts : List Tree} {t : Tree}
    (ht : t ∈ es ++ ss ++ ts) : t.id ∈ es.map Tree.id ++ ss.map Tree.id ++ ts.map Tree.id := by
  simp only [← List.map_append]
  exact List.mem_map_of_mem ht

/-- Below the modules there is no module. -/
theorem Bears.ne_module {p : Program} {a : Around} {ts : List Tree} (h : p.Bears ts)
    (hroots : ∀ t ∈ ts, ∀ k, t.id ≠ .module k) : ∀ x ∈ placedOf a ts, ∀ k, x.2.id ≠ .module k := by
  refine fun x hx => (forall_placedOf (P := fun _ t => p.Bears [t] ∧ ∀ k, t.id ≠ .module k) ?_
    (fun t ht => ⟨h.mem ht, hroots t ht⟩) x hx).2
  rintro a n l es ss ts ⟨hbears, _⟩ t ht
  exact ⟨hbears.below.mem ht, ne_module_of_cell? (bears_node.mp hbears).1 (id_mem_cell ht)⟩

/-- Every expression stands in a statement. -/
theorem Bears.expr_in_stmt {p : Program} {a : Around} {ts : List Tree} (h : p.Bears ts)
    (hroots : ∀ t ∈ ts, ∀ e, t.id = .expr e → a.stmt.isSome) :
    ∀ x ∈ placedOf a ts, ∀ e, x.2.id = .expr e → x.1.stmt.isSome := by
  refine fun x hx => (forall_placedOf
    (P := fun a t => p.Bears [t] ∧ ∀ e, t.id = .expr e → a.stmt.isSome) ?_
    (fun t ht => ⟨h.mem ht, hroots t ht⟩) x hx).2
  rintro a n l es ss ts ⟨hbears, hstmt⟩ t ht
  refine ⟨hbears.below.mem ht, fun e he => ?_⟩
  obtain ⟨s, rfl⟩ | ⟨f, rfl⟩ :=
    owner_of_cell? (bears_node.mp hbears).1 (he ▸ id_mem_cell ht)
  · rfl
  · exact hstmt f rfl

/-- A program bears at most one tree at a node. -/
theorem bears_unique {p : Program} {t : Tree} (ht : p.Bears [t]) :
    ∀ {u : Tree}, p.Bears [u] → u.id = t.id → u = t := by
  induction t using Tree.induction with
  | step n l es ss ts he hs hts =>
    -- lists of trees with the same roots are the same, entry by entry
    have hall : ∀ (xs : List Tree), (∀ t ∈ xs, p.Bears [t] → ∀ {u : Tree}, p.Bears [u] →
        u.id = t.id → u = t) → p.Bears xs → ∀ ys : List Tree, p.Bears ys →
        ys.map Tree.id = xs.map Tree.id → ys = xs := by
      intro xs
      induction xs with
      | nil => intro _ _ ys _ hroots; simpa using hroots
      | cons x xs ih =>
        intro hxs hx ys hy hroots
        cases ys with
        | nil => simp at hroots
        | cons y ys =>
          rw [bears_cons] at hx hy
          rw [List.map_cons, List.map_cons, List.cons.injEq] at hroots
          rw [hxs x List.mem_cons_self hx.1 hy.1 hroots.1,
            ih (fun t ht => hxs t (List.mem_cons_of_mem x ht)) hx.2 ys hy.2 hroots.2]
    intro u hu hid
    obtain ⟨n', l', es', ss', ts'⟩ := u
    obtain rfl : n' = n := hid
    rw [bears_node] at ht hu
    obtain ⟨hc, hbe, hbs, hbt⟩ := ht
    obtain ⟨hc', hbe', hbs', hbt'⟩ := hu
    have hcell := Option.some.inj (hc.symm.trans hc')
    simp only [Cell.mk.injEq] at hcell
    obtain ⟨rfl, hre, hrs, hrt⟩ := hcell
    rw [hall es he hbe es' hbe' hre.symm, hall ss hs hbs ss' hbs' hrs.symm,
      hall ts hts hbt ts' hbt' hrt.symm]

/-- The trees of modules: what the program unfolds to from there. -/
structure Unfolds (p : Program) (modules : List ModuleId) (ts : List Tree) : Prop where
  roots : ts.map Tree.id = modules.map .module
  bears : p.Bears ts
  nodup : (nodesOf ts).Nodup

/-- A program unfolds to the same trees always. -/
theorem unfolds_unique {p : Program} {modules : List ModuleId} {ts us : List Tree}
    (ht : p.Unfolds modules ts) (hu : p.Unfolds modules us) : us = ts := by
  have hroots := hu.roots.trans ht.roots.symm
  have hbt := ht.bears
  have hbu := hu.bears
  clear ht hu
  induction ts generalizing us with
  | nil => simpa using hroots
  | cons t ts ih =>
    obtain ⟨u, us, rfl, hid, htail⟩ := List.map_eq_cons_iff.mp hroots
    rw [bears_cons] at hbt hbu
    rw [bears_unique hbt.1 hbu.1 hid, ih htail hbt.2 hbu.2]

end Program

end MiddleEnd
