import MiddleEnd.Proofs.Tree.Position
import MiddleEnd.Verify.Declared

/-!
# MiddleEnd.Proofs.Verify.Declared

What a program still declares.  `Program.Alive` says it without a search: what is reached from the
modules of the program through nodes that exist and were not removed.  The search finds exactly the
symbols that are alive (`contains_declaredNodes`), in programs of any shape: it expands no node
twice, so the steps that it is given are enough (`pending`), and when nothing is left to do, what it
has seen is closed under successors (`Closed`).
-/

namespace MiddleEnd.Program

/-- What is reached from the modules of a program through nodes that exist, where no symbol was
removed. -/
inductive Alive (p : Program) : NodeId → Prop where
  | module {m : ModuleId} (hm : p.has (.module m) = true) : Alive p (.module m)
  | held {pos : Position} {n : NodeId} (howner : Alive p pos.owner) (hheld : p.heldAt? pos = some n)
      (hlive : p.isLive n = true) : Alive p n

variable {p : Program} {n m : NodeId} {work : List NodeId} {seen : NodeSet}

theorem mem_moduleIds {k : ModuleId} (h : p.has (.module k) = true) : k ∈ p.moduleIds := by
  cases hx : p.module? k with
  | none => simp [has, hx] at h
  | some x =>
    exact List.mem_map.mpr ⟨k.index, List.mem_range.mpr (Array.getElem?_eq_some_iff.mp hx).1,
      by simp [ModuleId.ofIndex, ModuleId.index]⟩

/-- Where nothing that is reached is missing or removed, all of it is alive. -/
theorem alive_iff_reaches (hlive : ∀ n, p.Reaches p.moduleIds n → p.isLive n = true) :
    p.Alive n ↔ p.Reaches p.moduleIds n := by
  constructor <;> intro h
  · induction h with
    | module hm => exact .root (mem_moduleIds hm)
    | held _ hheld _ ih => exact .held ih hheld
  · induction h with
    | root hm => exact .module (hlive _ (.root hm))
    | held hreach hheld ih => exact .held ih hheld (hlive _ (.held hreach hheld))

/-! ## Successors -/

/-- What is live is there. -/
theorem has_of_isLive (h : p.isLive n = true) : p.has n = true := by
  cases n with
  | symbol s => cases hx : p.symbol? s <;> simp_all [isLive, has]
  | module m => exact h
  | stmt s => exact h
  | expr e => exact h

/-- The search goes on from a node to the symbols and statements of its cell. -/
theorem successors_of_cell? {c : Cell} (hc : p.cell? n = some c) :
    p.successors n = c.symbols ++ c.stmts := by
  cases n with
  | module m =>
    obtain ⟨x, _, rfl⟩ := cell?_module hc
    rw [symbols_of_cell? (.module m) hc]
    simp [successors, symbolsIn, Node.cell]
  | symbol s =>
    have hsymbols := symbols_of_cell? (.symbol s) hc
    have hstmts : c.stmts = (p.stmtsIn (.body s)).map .stmt := by
      obtain ⟨x, _, rfl⟩ := cell?_symbol hc
      exact stmts_of_cell? (.body s) hc trivial
    rw [hsymbols, hstmts]
    rfl
  | stmt s =>
    rw [declared_of_cell? hc, held_of_cell? hc]
    rfl
  | expr e =>
    obtain ⟨x, _, rfl⟩ := cell?_expr hc
    simp [successors, Node.cell]

/-- What is alive has its live successors alive. -/
theorem Alive.successor (h : p.Alive n) (hm : m ∈ p.successors n) (hlive : p.isLive m = true) :
    p.Alive m := by
  have hn : p.has n = true := by
    cases h with
    | module hmodule => exact hmodule
    | held _ _ hlive => exact has_of_isLive hlive
  obtain ⟨c, hc⟩ := exists_cell? hn
  rw [successors_of_cell? hc] at hm
  obtain ⟨pos, howner, hheld⟩ := owns_of_cell? hc
    (List.append_assoc c.exprs c.symbols c.stmts ▸ List.mem_append_right c.exprs hm)
  exact .held (howner ▸ h) hheld hlive

/-- No expression is a successor. -/
theorem successors_kinds (m : NodeId) (hm : m ∈ p.successors n) (e : ExprId) : m ≠ .expr e := by
  rintro rfl
  cases n <;> simp [successors] at hm

/-- Everything alive but expressions is a successor of something alive, or a module. -/
theorem successor_of_heldAt? {pos : Position} (hheld : p.heldAt? pos = some n)
    (hn : ∀ e, n ≠ .expr e) : n ∈ p.successors pos.owner := by
  have hhas := has_of_heldAt? hheld
  obtain ⟨c, hc⟩ := exists_cell? hhas
  rw [successors_of_cell? hc]
  have hchild := List.mem_of_getElem? (child_of_heldAt? hc hheld)
  rw [Cell.children, List.append_assoc, List.mem_append] at hchild
  refine hchild.resolve_left fun he => ?_
  obtain ⟨e, rfl⟩ := (kinds_of_cell? hc).1 n he
  exact hn e rfl

/-! ## The search -/

/-- The steps that the nodes not yet seen can still cost. -/
def pending (p : Program) (seen : NodeSet) : Nat :=
  ((p.searchNodes.filter fun n => !seen.contains n).flatMap p.successors).length

/-- Live successors of what was seen were seen, or wait. -/
def Closed (p : Program) (seen : NodeSet) (work : List NodeId) : Prop :=
  ∀ n, seen.contains n = true → ∀ m ∈ p.successors n, p.isLive m = true →
    seen.contains m = true ∨ m ∈ work

/-- A node is one of those that are searched, unless it has no successors. -/
theorem mem_searchNodes (h : p.has n = true) (hn : ∀ e, n ≠ .expr e) : n ∈ p.searchNodes := by
  obtain ⟨c, hc⟩ := exists_cell? h
  have hrange : ∀ {i size : Nat}, i < size → i ∈ List.range size := List.mem_range.mpr
  simp only [searchNodes, moduleIds, List.mem_append, List.map_map, List.mem_map]
  cases n with
  | module m =>
    obtain ⟨x, hx, _⟩ := cell?_module hc
    exact .inl (.inl ⟨m.index, hrange (Array.getElem?_eq_some_iff.mp hx).1,
      by simp [ModuleId.ofIndex, ModuleId.index]⟩)
  | symbol s =>
    obtain ⟨x, hx, _⟩ := cell?_symbol hc
    exact .inl (.inr ⟨s.index, hrange (Array.getElem?_eq_some_iff.mp hx).1,
      by simp [SymbolId.ofIndex, SymbolId.index]⟩)
  | stmt s =>
    obtain ⟨x, hx, _⟩ := cell?_stmt hc
    exact .inr ⟨s.index, hrange (Array.getElem?_eq_some_iff.mp hx).1,
      by simp [StmtId.ofIndex, StmtId.index]⟩
  | expr e => exact absurd rfl (hn e)

/-- When a node is expanded, its successors no longer count. -/
theorem pending_insert (hn : n ∈ p.searchNodes) (hseen : seen.contains n = false) :
    (p.successors n).length + p.pending (seen.insert n) ≤ p.pending seen := by
  have hlist : ∀ ns : List NodeId, (if n ∈ ns then (p.successors n).length else 0) +
      ((ns.filter fun m => !(seen.insert n).contains m).flatMap p.successors).length ≤
      ((ns.filter fun m => !seen.contains m).flatMap p.successors).length := fun ns => by
    induction ns with
    | nil => simp
    | cons m ns ih =>
      by_cases hm : m = n
      · subst hm
        simp only [List.mem_cons, true_or, if_true, List.filter_cons, NodeSet.contains_insert,
          decide_true, Bool.true_or, Bool.not_true, Bool.false_eq_true, if_false, hseen,
          Bool.not_false, List.flatMap_cons, List.length_append] at ih ⊢
        omega
      · have hne : (n = m) = False := eq_false (Ne.symm hm)
        simp only [List.mem_cons, hne, false_or, List.filter_cons, NodeSet.contains_insert, hm,
          decide_false, Bool.false_or] at ih ⊢
        cases hcontains : seen.contains m
        · simp only [Bool.not_false, if_true, List.flatMap_cons, List.length_append]
          omega
        · simpa using ih
  have h := hlist p.searchNodes
  rwa [if_pos hn] at h

/-- What a search finds is alive. -/
theorem alive_of_search : ∀ {steps : Nat} {work : List NodeId} {seen : NodeSet},
    (∀ n ∈ work, p.isLive n = true → p.Alive n) → (∀ n, seen.contains n = true → p.Alive n) →
    ∀ n, (p.search steps work seen).contains n = true → p.Alive n
  | 0, _, _, _, hseen => hseen
  | _ + 1, [], _, _, hseen => hseen
  | steps + 1, n :: work, seen, hwork, hseen => by
    have htail : ∀ m ∈ work, p.isLive m = true → p.Alive m := fun m hm =>
      hwork m (List.mem_cons_of_mem n hm)
    rw [search]
    split
    · rename_i hnew
      have hlive := (Bool.and_eq_true _ _ ▸ hnew).1
      have halive := hwork n List.mem_cons_self hlive
      refine alive_of_search (fun m hm hm' => ?_) fun m hm => ?_
      · exact (List.mem_append.mp hm).elim (halive.successor · hm') (htail m · hm')
      · rw [NodeSet.contains_insert, Bool.or_eq_true, decide_eq_true_iff] at hm
        exact hm.elim (fun hm => hm ▸ halive) (hseen m)
    · exact alive_of_search htail hseen

/-- A search with enough steps finds what it was asked for, and all live successors of what it
found. -/
theorem search_complete : ∀ {steps : Nat} {work : List NodeId} {seen : NodeSet},
    work.length + p.pending seen < steps → (∀ n ∈ work, ∀ e, n ≠ .expr e) → p.Closed seen work →
    (∀ n, seen.contains n = true → (p.search steps work seen).contains n = true) ∧
    (∀ n ∈ work, p.isLive n = true → (p.search steps work seen).contains n = true) ∧
      p.Closed (p.search steps work seen) []
  | 0, _, _, hsteps, _, _ => absurd hsteps (Nat.not_lt_zero _)
  | _ + 1, [], _, _, _, hclosed => ⟨fun _ hn => hn, nofun, hclosed⟩
  | steps + 1, n :: work, seen, hsteps, hkind, hclosed => by
    rw [List.length_cons] at hsteps
    have htail : ∀ m ∈ work, ∀ e, m ≠ .expr e := fun m hm => hkind m (List.mem_cons_of_mem n hm)
    rw [search]
    by_cases hnew : (p.isLive n && !seen.contains n) = true
    · rw [if_pos hnew]
      rw [Bool.and_eq_true, Bool.not_eq_true'] at hnew
      have hmem := mem_searchNodes (has_of_isLive hnew.1) (hkind n List.mem_cons_self)
      have hless := pending_insert hmem hnew.2
      have hnext : p.Closed (seen.insert n) (p.successors n ++ work) := by
        intro k hk m hm hlive
        rw [NodeSet.contains_insert, Bool.or_eq_true, decide_eq_true_iff] at hk
        rcases hk with rfl | hk
        · exact .inr (List.mem_append_left _ hm)
        · rcases hclosed k hk m hm hlive with hseen | hmem
          · exact .inl (by simp [hseen])
          · rcases List.mem_cons.mp hmem with rfl | hmem
            · exact .inl (by simp)
            · exact .inr (List.mem_append_right _ hmem)
      have hleft : (p.successors n ++ work).length + p.pending (seen.insert n) < steps := by
        rw [List.length_append]
        omega
      obtain ⟨hseen, hwork, hclosed'⟩ := search_complete hleft
        (fun m hm => (List.mem_append.mp hm).elim (successors_kinds m) (htail m)) hnext
      refine ⟨fun m hm => hseen m (by simp [hm]), fun m hm hlive => ?_, hclosed'⟩
      rcases List.mem_cons.mp hm with rfl | hm
      · exact hseen m (by simp)
      · exact hwork m (List.mem_append_right _ hm) hlive
    · rw [if_neg hnew]
      have hold : p.isLive n = true → seen.contains n = true := fun hlive => by
        simpa [hlive] using hnew
      have hnext : p.Closed seen work := by
        intro k hk m hm hlive
        rcases hclosed k hk m hm hlive with hk | hmem
        · exact .inl hk
        · rcases List.mem_cons.mp hmem with rfl | hmem
          · exact .inl (hold hlive)
          · exact .inr hmem
      have hleft : work.length + p.pending seen < steps := by omega
      obtain ⟨hseen, hwork, hclosed'⟩ := search_complete hleft htail hnext
      refine ⟨hseen, fun m hm hlive => ?_, hclosed'⟩
      rcases List.mem_cons.mp hm with rfl | hm
      · exact hseen m (hold hlive)
      · exact hwork m hm hlive

/-- The nodes that a search finds are those that are alive, but for expressions. -/
theorem contains_declaredNodes (hn : ∀ e, n ≠ .expr e) :
    p.declaredNodes.contains n = true ↔ p.Alive n := by
  have hbound : (p.moduleIds.map NodeId.module).length + p.pending .empty < p.searchBound := by
    simp [moduleIds, pending, searchBound]
  constructor
  · refine alive_of_search (fun m hm hlive => ?_) (fun m hm => by simp at hm) n
    obtain ⟨k, _, rfl⟩ := List.mem_map.mp hm
    exact .module hlive
  · intro h
    obtain ⟨_, hwork, hclosed⟩ := p.search_complete hbound (fun m hm e => by
      obtain ⟨k, _, rfl⟩ := List.mem_map.mp hm
      simp) (fun m hm => by simp at hm)
    change ∀ n ∈ _, p.isLive n = true → p.declaredNodes.contains n = true at hwork
    induction h with
    | module hm => exact hwork _ (List.mem_map_of_mem (mem_moduleIds hm)) hm
    | @held pos n howner hheld hlive ih =>
      have hsucc := successor_of_heldAt? hheld hn
      have howner : ∀ e, pos.owner ≠ .expr e := fun e he => by
        rw [he] at hsucc
        cases hsucc
      exact (hclosed _ (ih howner) n hsucc hlive).resolve_right List.not_mem_nil

end MiddleEnd.Program
