import MiddleEnd.Proofs.Normalize.Started
import MiddleEnd.Proofs.Walk.Forest
import MiddleEnd.Proofs.Walk.Scoped

/-!
# MiddleEnd.Proofs.Normalize.Rooted

What a run leaves behind, on any program whatsoever.  An expression that was entered is owned by an
entered node, and so on up to a module (`Program.Rooted`), or it is a parenthesis that was flattened
(`Hollow`).  A hollow parenthesis still encloses what took its place, which so has two owners: a
program in which a hollow parenthesis is reached is no forest (`Standing.not_reached`).

`Takes` says what becomes of the state where a node is entered and its first hook is called, and
`Takes.standing` that nothing of this is lost.
-/

namespace MiddleEnd

open Walk

/-! ## Parentheses -/

/-- The expression is a parenthesis around another one. -/
def Program.Encloses (p : Program) (e inner : ExprId) : Prop :=
  ∃ x, p.expr? e = some x ∧ x.kind = .paren inner

/-- Whether a node is a parenthesis. -/
def Program.isParen (p : Program) (n : NodeId) : Bool := (p.cell? n).any (·.label.isParen)

namespace Program

variable {p q : Program} {modules : List ModuleId} {seen : NodeSet} {k n : NodeId}
  {e inner : ExprId}

/-- A parenthesis owns what it encloses, and nothing else. -/
theorem Encloses.cell (h : p.Encloses e inner) :
    ∃ c, p.cell? (.expr e) = some c ∧ c.label.isParen = true ∧ c.children = [.expr inner] := by
  obtain ⟨x, hx, hk⟩ := h
  refine ⟨(Node.expr x).cell, cell?_of_node? (node?_expr hx), ?_, ?_⟩
  · simp [Node.cell, hk, ExprKind.head, Label.isParen]
  · simp [Cell.children, Node.cell, hk, ExprKind.operands]

/-- What is enclosed is the first operand of the parenthesis. -/
theorem Encloses.held (h : p.Encloses e inner) :
    p.heldAt? (.expr ⟨.expr e, 0⟩) = some (.expr inner) := by
  obtain ⟨x, hx, hk⟩ := h
  simp [heldAt?_expr, operands, hx, hk, ExprKind.operands]

theorem Encloses.childrenOf (h : p.Encloses e inner) : p.childrenOf (.expr e) = [.expr inner] := by
  obtain ⟨c, hc, _, hchildren⟩ := h.cell
  rw [childrenOf_of_cell? hc, hchildren]

theorem Encloses.isParen (h : p.Encloses e inner) : p.isParen (.expr e) = true := by
  obtain ⟨c, hc, hparen, _⟩ := h.cell
  rw [Program.isParen, hc]
  exact hparen

/-- A cell that is labelled as a parenthesis tells what is enclosed. -/
theorem encloses_of_cell {c : Cell} (hc : p.cell? (.expr e) = some c)
    (hparen : c.label.isParen = true) (hchildren : c.children = [.expr inner]) :
    p.Encloses e inner := by
  obtain ⟨x, hx, rfl⟩ := Program.cell?_expr hc
  refine ⟨x, hx, ?_⟩
  obtain ⟨k, _, _, _⟩ := x
  cases k <;> simp_all [Cell.children, Node.cell, ExprKind.head, ExprKind.operands, Label.isParen]

/-- A node that stays encloses what it enclosed. -/
theorem encloses_congr (h : q.cell? (.expr e) = p.cell? (.expr e)) (hq : q.Encloses e inner) :
    p.Encloses e inner :=
  let ⟨_, hc, hparen, hchildren⟩ := hq.cell
  encloses_of_cell (h ▸ hc) hparen hchildren

theorem isParen_congr (h : q.cell? n = p.cell? n) : q.isParen n = p.isParen n := by
  rw [Program.isParen, Program.isParen, h]

/-- Only expressions are parentheses, and each of them encloses one. -/
theorem exists_encloses (h : p.isParen n = true) :
    ∃ e inner, n = .expr e ∧ p.Encloses e inner := by
  obtain ⟨c, hc, hparen⟩ := (Option.any_eq_true _ _).mp h
  cases n with
  | expr e =>
    obtain ⟨⟨k, _, _, _⟩, hx, rfl⟩ := cell?_expr hc
    cases k with
    | paren inner => exact ⟨e, inner, rfl, _, hx, rfl⟩
    | _ => cases hparen
  | module m =>
    obtain ⟨_, _, rfl⟩ := cell?_module hc
    cases hparen
  | symbol s =>
    obtain ⟨_, _, rfl⟩ := cell?_symbol hc
    cases hparen
  | stmt s =>
    obtain ⟨_, _, rfl⟩ := cell?_stmt hc
    cases hparen

/-! ## Rooted nodes -/

/-- The nodes reached from modules through nodes that were entered. -/
inductive Rooted (p : Program) (modules : List ModuleId) (entered : NodeSet) : NodeId → Prop where
  | root {m : ModuleId} (hm : m ∈ modules) (hseen : entered.contains (.module m) = true) :
      Rooted p modules entered (.module m)
  | child {k n : NodeId} (hk : Rooted p modules entered k) (hn : n ∈ p.childrenOf k)
      (hseen : entered.contains n = true) : Rooted p modules entered n

/-- What is rooted was entered. -/
theorem Rooted.contains (h : p.Rooted modules seen n) : seen.contains n = true := by
  cases h with
  | root _ hseen => exact hseen
  | child _ _ hseen => exact hseen

/-- A node owns its children. -/
theorem owns_of_mem (hn : n ∈ p.childrenOf k) : p.Owns k n := by
  cases hhas : p.has k with
  | false =>
    rw [childrenOf_of_missing hhas] at hn
    cases hn
  | true =>
    obtain ⟨c, hc⟩ := exists_cell? hhas
    exact owns_of_cell? hc (childrenOf_of_cell? hc ▸ hn)

/-- What a reached node owns is reached. -/
theorem Reaches.child (hk : p.Reaches modules k) (hn : n ∈ p.childrenOf k) :
    p.Reaches modules n := by
  obtain ⟨pos, rfl, hheld⟩ := owns_of_mem hn
  exact .held hk hheld

/-- What is rooted is reached. -/
theorem Rooted.reaches (h : p.Rooted modules seen n) : p.Reaches modules n := by
  induction h with
  | root hm => exact .root hm
  | child _ hn _ ih => exact ih.child hn

/-- In a forest a node has one owner. -/
theorem IsForest.owner_unique {k' : NodeId} (h : p.IsForest modules) (hk : p.Reaches modules k)
    (hk' : p.Reaches modules k') (hn : n ∈ p.childrenOf k) (hn' : n ∈ p.childrenOf k') :
    k = k' := by
  obtain ⟨pos, rfl, hheld₁⟩ := owns_of_mem hn
  obtain ⟨pos', rfl, hheld₂⟩ := owns_of_mem hn'
  rw [h.alone hk hk' hheld₁ hheld₂]

/-- Where modules unfold to trees, a reached node owns nothing twice. -/
theorem Unfolds.nodup_childrenOf {ts : List Tree} (h : p.Unfolds modules ts)
    (hk : p.Reaches modules k) : (p.childrenOf k).Nodup := by
  obtain ⟨⟨n, l, es, ss, us⟩, hu, rfl⟩ := List.mem_map.mp ((reaches_iff h).mp hk)
  have hnodup := Tree.nodup_roots
    (Tree.nodup_node.mp (Tree.nodup_of_mem_subtreesOf h.nodup _ hu)).2
  rw [Tree.id_node, childrenOf_of_cell? (bears_node.mp (h.bears.sub _ hu)).1, Cell.children]
  rwa [List.map_append, List.map_append] at hnodup

end Program

namespace Normalize

variable {modules : List ModuleId} {st st' z : WalkState Normalizer} {k n : NodeId}

/-- The node is owned by an entered node, and so on up to a module. -/
abbrev RootedAt (modules : List ModuleId) (st : WalkState Normalizer) (n : NodeId) : Prop :=
  st.scene.program.Rooted modules st.trail.seen n

/-- A parenthesis that was entered where they are flattened. -/
def Hollow (st : WalkState Normalizer) (n : NodeId) : Prop :=
  st.scene.own.rules.flattenParens = true ∧ st.trail.seen.contains n = true ∧
    st.scene.program.isParen n = true

/-- Expressions that were entered are rooted or hollow, and what a hollow one encloses is hollow
too, or has another owner. -/
structure Standing (modules : List ModuleId) (st : WalkState Normalizer) : Prop where
  rooted : ∀ e, st.trail.seen.contains (.expr e) = true →
    RootedAt modules st (.expr e) ∨ Hollow st (.expr e)
  hollow : ∀ {e inner}, Hollow st (.expr e) → st.scene.program.Encloses e inner →
    Hollow st (.expr inner) ∨
    ∃ k, RootedAt modules st k ∧ ¬ Hollow st k ∧ .expr inner ∈ st.scene.program.childrenOf k

/-- A node in which nodes can be entered is rooted and not hollow. -/
def Open (modules : List ModuleId) (st : WalkState Normalizer) (n : NodeId) : Prop :=
  (RootedAt modules st n ∧ ¬ Hollow st n) ∨
    ∀ m ∈ st.scene.program.childrenOf n, st.trail.seen.contains m = true

/-! ## What lasts -/

/-- What a run does from `st` to `st'` to the nodes that were entered before: they still own each
other, and they are parentheses if they were. -/
structure Lasts (st st' : WalkState Normalizer) : Prop where
  larger : Larger st.scene st'.scene
  grown : ∀ n, st.trail.seen.contains n = true → st'.trail.seen.contains n = true
  count : st'.scene.program.Addressable → ∀ k m, st.trail.seen.contains k = true →
    st.trail.seen.contains m = true →
    (st.scene.program.childrenOf k).count m ≤ (st'.scene.program.childrenOf k).count m
  isParen : st'.scene.program.Addressable → ∀ n, st.trail.seen.contains n = true →
    st'.scene.program.isParen n = st.scene.program.isParen n

namespace Lasts

variable {st₁ : WalkState Normalizer}

theorem refl (st : WalkState Normalizer) : Lasts st st :=
  ⟨Larger.composes.refl _, fun _ h => h, fun _ _ _ _ _ => Nat.le_refl _, fun _ _ _ => rfl⟩

/-- What lasts in two stretches lasts in both together. -/
theorem trans (h : Lasts st st₁) (h' : Lasts st₁ st') : Lasts st st' where
  larger := Larger.composes.trans h.larger h'.larger
  grown n hn := h'.grown n (h.grown n hn)
  count haddr k m hk hm := Nat.le_trans (h.count (h'.larger.addressable haddr) k m hk hm)
    (h'.count haddr k m (h.grown k hk) (h.grown m hm))
  isParen haddr n hn := (h'.isParen haddr n (h.grown n hn)).trans
    (h.isParen (h'.larger.addressable haddr) n hn)

/-- Nodes are entered, and the program stays as it is. -/
theorem of_eq (hgrown : Grown st st')
    (hprogram : st'.scene.program = st.scene.program)
    (hrules : st'.scene.own.rules = st.scene.own.rules) : Lasts st st' where
  larger := .of_sameSize (hprogram ▸ .refl _) hrules
  grown := hgrown
  count _ k m _ _ := by rw [hprogram]
  isParen _ n _ := by rw [hprogram]

variable (h : Lasts st st') (haddr : st'.scene.program.Addressable)

include h haddr

/-- A node that was entered still owns what it owned, as far as that was entered. -/
theorem mem_childrenOf {m : NodeId} (hk : st.trail.seen.contains k = true)
    (hm : st.trail.seen.contains m = true) (hmem : m ∈ st.scene.program.childrenOf k) :
    m ∈ st'.scene.program.childrenOf k :=
  List.count_pos_iff.mp (Nat.lt_of_lt_of_le (List.count_pos_iff.mpr hmem)
    (h.count haddr k m hk hm))

/-- What is rooted stays so. -/
theorem rooted (hn : RootedAt modules st n) : RootedAt modules st' n := by
  induction hn with
  | root hm hseen => exact .root hm (h.grown _ hseen)
  | child hk hn hseen ih =>
    exact .child ih (h.mem_childrenOf haddr hk.contains hseen hn) (h.grown _ hseen)

/-- What is hollow stays so. -/
theorem hollow (hn : Hollow st n) : Hollow st' n :=
  ⟨h.larger.rules ▸ hn.1, h.grown n hn.2.1, (h.isParen haddr n hn.2.1).trans hn.2.2⟩

end Lasts

/-! ## Forests -/

/-- In a forest no tree has a hollow parenthesis at its root: something in it would have two
owners. -/
theorem Standing.solid (h : Standing modules z) (hforest : z.scene.program.IsForest modules)
    (t : Tree) (hbears : z.scene.program.Bears [t])
    (hreach : z.scene.program.Reaches modules t.id) :
    ¬ Hollow z t.id := by
  induction t using Tree.induction with
  | step n l es ss us hes hss hus =>
    intro hhollow
    obtain ⟨e, inner, rfl, henclose⟩ := Program.exists_encloses hhollow.2.2
    have hchild : .expr inner ∈ z.scene.program.childrenOf (.expr e) := by
      rw [henclose.childrenOf]
      exact List.mem_singleton_self _
    rcases h.hollow hhollow henclose with hinner | ⟨k, hk, hsolid, hmem⟩
    · -- the one below it is hollow too
      obtain ⟨t, ht, hid⟩ : ∃ t ∈ es ++ ss ++ us, t.id = .expr inner := by
        rw [Program.childrenOf_of_cell? (Program.bears_node.mp hbears).1, Cell.children,
          ← List.map_append, ← List.map_append] at hchild
        exact List.mem_map.mp hchild
      have hbelow : z.scene.program.Bears [t] → z.scene.program.Reaches modules t.id →
          ¬ Hollow z t.id := by
        simp only [List.mem_append] at ht
        rcases ht with (ht | ht) | ht
        · exact hes t ht
        · exact hss t ht
        · exact hus t ht
      rw [hid] at hbelow
      exact hbelow (hbears.below.mem ht) (hreach.child hchild) hinner
    · obtain rfl := hforest.owner_unique hk.reaches hreach hmem hchild
      exact hsolid hhollow

/-- Where modules unfold to trees, no hollow parenthesis is reached. -/
theorem Standing.not_reached (h : Standing modules z) {ts : List Tree}
    (hts : z.scene.program.Unfolds modules ts) (hhollow : Hollow z n) :
    ¬ z.scene.program.Reaches modules n := by
  intro hreach
  obtain ⟨u, hu, rfl⟩ := List.mem_map.mp ((Program.reaches_iff hts).mp hreach)
  exact h.solid (Program.isForest_of_unfolds hts) u (hts.bears.sub u hu) hreach hhollow

end Normalize

end MiddleEnd
