import Mathlib.Data.List.Forall2
import Mathlib.Logic.Relation
import MiddleEnd.Proofs.Tree.Removal
import MiddleEnd.Proofs.Verify.References

/-!
# MiddleEnd.Proofs.Verify.Removal

What the verifier reports when a symbol is deleted from a program in which nothing is wrong.  The
trees lose what hangs on the symbol, and no back-reference goes wrong with that.  A symbol is still
alive exactly if it is reached past the deleted one (`alive_removeSymbol`), so the references that
are left to the deleted symbol, or to what was declared inside it, are reported, each of them once
and in the order of a walk, and nothing else is (`run_removeSymbol`).
-/

namespace MiddleEnd

open MiddleEnd.Tree Relation

/-! ## Around a symbol -/

namespace Program

/-- The nodes reached from modules without a step into the symbol. -/
inductive ReachesPast (p : Program) (modules : List ModuleId) (x : SymbolId) : NodeId → Prop where
  | root {m : ModuleId} (hm : m ∈ modules) : ReachesPast p modules x (.module m)
  | held {pos : Position} {n : NodeId} (howner : ReachesPast p modules x pos.owner)
      (hheld : p.heldAt? pos = some n) (hn : n ≠ .symbol x) : ReachesPast p modules x n

/-- A symbol that stands below another one, and is reached from the modules of the program only
through it: its parameters and members, the symbols declared in its body, and so on. -/
def DeclaredInside (p : Program) (x s : SymbolId) : Prop :=
  TransGen p.Owns (.symbol x) (.symbol s) ∧ ¬ p.ReachesPast p.moduleIds x (.symbol s)

variable {p : Program} {modules : List ModuleId} {x s : SymbolId} {n m : NodeId}

/-- What is reached past a symbol is reached. -/
theorem ReachesPast.reaches (h : p.ReachesPast modules x n) : p.Reaches modules n := by
  induction h with
  | root hm => exact .root hm
  | held _ hheld _ ih => exact .held ih hheld

/-- The symbol itself is not reached past it. -/
theorem ReachesPast.ne (h : p.ReachesPast modules x n) : n ≠ .symbol x := by
  cases h with
  | root _ => exact NodeId.noConfusion
  | held _ _ hn => exact hn

/-- What is reached is reached past the symbol, or it is the symbol, or it stands below it. -/
theorem Reaches.past_or_below (h : p.Reaches modules n) :
    p.ReachesPast modules x n ∨ n = .symbol x ∨ TransGen p.Owns (.symbol x) n := by
  induction h with
  | root hm => exact .inl (.root hm)
  | @held pos n _ hheld ih =>
    have howns : p.Owns pos.owner n := ⟨pos, rfl, hheld⟩
    rcases ih with hpast | hself | hbelow
    · by_cases hn : n = .symbol x
      · exact .inr (.inl hn)
      · exact .inl (.held hpast hheld hn)
    · exact .inr (.inr (.single (hself ▸ howns)))
    · exact .inr (.inr (hbelow.tail howns))

/-- A symbol that is reached is reached past another one unless it is that one or declared inside
it. -/
theorem reachesPast_iff (h : p.Reaches p.moduleIds (.symbol s)) :
    p.ReachesPast p.moduleIds x (.symbol s) ↔ ¬ (s = x ∨ p.DeclaredInside x s) := by
  constructor
  · rintro hpast (rfl | hinside)
    · exact hpast.ne rfl
    · exact hinside.2 hpast
  · intro hoff
    by_contra hpast
    refine hoff ?_
    rcases h.past_or_below (x := x) with hpast' | hself | hbelow
    · exact absurd hpast' hpast
    · exact .inl (NodeId.symbol.inj hself)
    · exact .inr ⟨hbelow, hpast⟩

/-! ## What is alive without a symbol -/

/-- What is alive is reached. -/
theorem Alive.reaches (h : p.Alive n) : p.Reaches p.moduleIds n := by
  induction h with
  | module hm => exact .root (mem_moduleIds hm)
  | held _ hheld _ ih => exact .held ih hheld

/-- Without a symbol the search goes on to everything but it. -/
theorem successors_removeSymbol (hx : p.has (.symbol x) = true) (hn : n ≠ .symbol x)
    (hhas : p.has n = true) :
    (p.removeSymbol x).successors n = (p.successors n).filter (· ≠ .symbol x) := by
  obtain ⟨c, hc⟩ := exists_cell? hhas
  have hc' : (p.removeSymbol x).cell? n = some (c.without x) := by
    rw [cell?_removeSymbol hx hn, hc]
    rfl
  rw [successors_of_cell? hc', successors_of_cell? hc, owned_without hc]

/-- Only the symbol stops being live where it is removed. -/
theorem isLive_removeSymbol (hx : p.has (.symbol x) = true) :
    (p.removeSymbol x).isLive n = true ↔ p.isLive n = true ∧ n ≠ .symbol x := by
  cases n with
  | symbol s =>
    cases hs : p.symbol? s <;> simp [isLive, symbol?_removeSymbol hx, hs]
  | _ => simp [isLive, has_removeSymbol hx]

/-- A node holds each of its successors. -/
theorem owns_of_successor (hhas : p.has n = true) (hm : m ∈ p.successors n) : p.Owns n m := by
  obtain ⟨c, hc⟩ := exists_cell? hhas
  rw [successors_of_cell? hc] at hm
  refine owns_of_cell? hc ?_
  rw [Cell.children, List.append_assoc]
  exact List.mem_append_right c.exprs hm

/-- Only nodes that exist and are no expressions have successors. -/
theorem Alive.has (h : p.Alive n) : p.has n = true := by
  cases h with
  | module hm => exact hm
  | held _ _ hlive => exact has_of_isLive hlive

/-- The search does not go on from expressions. -/
theorem not_expr_of_successor (h : m ∈ p.successors n) (e : ExprId) : n ≠ .expr e := by
  rintro rfl
  cases h

/-- In a forest, what stays alive without a symbol is what was alive and is reached past it. -/
theorem alive_removeSymbol (hforest : p.IsForest p.moduleIds) (hx : p.has (.symbol x) = true)
    (hn : ∀ e, n ≠ .expr e) :
    (p.removeSymbol x).Alive n ↔ p.Alive n ∧ p.ReachesPast p.moduleIds x n := by
  constructor
  · intro h
    induction h with
    | module hm =>
      rw [has_removeSymbol hx] at hm
      exact ⟨.module hm, .root (mem_moduleIds hm)⟩
    | @held pos n _ hheld hlive ih =>
      have hsucc := successor_of_heldAt? hheld hn
      obtain ⟨halive, hpast⟩ := ih (not_expr_of_successor hsucc)
      rw [successors_removeSymbol hx hpast.ne halive.has, List.mem_filter] at hsucc
      obtain ⟨hlive, hne⟩ := (isLive_removeSymbol hx).mp hlive
      obtain ⟨pos', howner, hheld'⟩ := owns_of_successor halive.has hsucc.1
      exact ⟨halive.successor hsucc.1 hlive, .held (howner ▸ hpast) hheld' hne⟩
  · rintro ⟨halive, hpast⟩
    induction hpast with
    | root hm => exact .module (has_removeSymbol hx _ ▸ halive.has)
    | @held pos n howner hheld hne ih =>
      cases halive with
      | module _ => exact absurd rfl (ne_module_of_heldAt? hheld _)
      | @held pos' _ howner' hheld' hlive =>
        -- in a forest the two ways to the node are one
        obtain rfl := hforest.alone howner.reaches howner'.reaches hheld hheld'
        have hsucc := successor_of_heldAt? hheld hn
        refine (ih (not_expr_of_successor hsucc) howner').successor ?_
          ((isLive_removeSymbol hx).mpr ⟨hlive, hne⟩)
        rw [successors_removeSymbol hx howner.ne howner'.has, List.mem_filter]
        exact ⟨hsucc, decide_eq_true hne⟩

end Program

namespace Verify

/-- The report about a reference to a symbol that is gone. -/
def Blames (p : Program) (x : Reference) (v : Violation) : Prop :=
  ∃ m y, x.module = some m ∧ p.symbol? x.target = some y ∧
    v = ⟨.removedSymbol y.name, m, ((p.module? m).map (·.file)).getD "", x.line, x.expr⟩

section

variable {p : Program} {x : SymbolId} {ts : List Tree}

/-- Modules that are trees are what is left of the trees after a deletion. -/
theorem unfolds_removeSymbol (hts : p.Unfolds p.moduleIds ts) (hx : p.has (.symbol x) = true) :
    (p.removeSymbol x).Unfolds (p.removeSymbol x).moduleIds (withoutAll x ts) where
  roots := by
    rw [Program.moduleIds_removeSymbol hx, ← hts.roots]
    refine map_id_withoutAll_of_ne fun t ht he => ?_
    have hroot := hts.roots ▸ List.mem_map_of_mem (f := Tree.id) ht
    simp [he] at hroot
  bears := hts.bears.removeSymbol hx
  nodup := hts.nodup.sublist (nodesOf_withoutAll ts)

/-! ## Programs in which nothing is wrong -/

/-- Where nothing is misplaced, the nearest statement and symbol are recorded. -/
theorem eq_of_misplaced {a : Around} {stmt : Option StmtId} {symbol : Option SymbolId}
    (h : misplaced .all a stmt symbol = []) : stmt = a.stmt ∧ symbol = a.symbol := by
  simpa [misplaced, Checks.all] using h

/-- Where nothing is wrong with a node, it records what encloses it. -/
theorem backs_of_wrongWith {declared : NodeSet} {a : Around} {n : NodeId} {y : Node}
    (hy : p.node? n = some y) (h : wrongWith .all p declared a y = []) : y.backs = a.backs n := by
  cases n <;> obtain ⟨z, _, rfl⟩ := Option.map_eq_some_iff.mp hy
  · rfl
  · have hscope : z.scope = a.scope := by simpa [wrongWith, Checks.all] using h
    rw [Node.backs, hscope, Around.backs]
  · obtain ⟨hstmt, hsymbol⟩ := eq_of_misplaced h
    rw [Node.backs, hstmt, hsymbol, Around.backs]
  · obtain ⟨hstmt, hsymbol⟩ := eq_of_misplaced (List.append_eq_nil_iff.mp h).1
    rw [Node.backs, hstmt, hsymbol, Around.backs]

/-- Where nothing is found in modules, every node records what encloses it. -/
theorem records_of_found {declared : NodeSet} (h : p.Bears ts)
    (hroots : ∀ t ∈ ts, ∃ m, t.id = .module m)
    (hfound : found .all p declared .outside ts = []) : p.Records .outside ts := by
  intro y hy
  obtain ⟨z, hz, _⟩ := Option.map_eq_some_iff.mp (h y.2 (mem_subtreesOf_of_placed hy))
  have hwrong : wrongAt .all p declared y.1 y.2.id = [] := by
    rw [found, List.flatMap_eq_nil_iff] at hfound
    exact hfound y hy
  rw [Program.backs?, hz, Option.map_some]
  congr 1
  by_cases hmodule : ∃ m, y.2.id = .module m
  · obtain ⟨m, hm⟩ := hmodule
    rw [hm] at hz ⊢
    obtain ⟨w, _, rfl⟩ := Option.map_eq_some_iff.mp hz
    rfl
  · obtain ⟨m, hm⟩ := module_of_placed hroots y hy fun m hm => hmodule ⟨m, hm⟩
    have hnone : wrongWith .all p declared y.1 z = [] := by
      rw [wrongAt_of_node hz, hm] at hwrong
      simpa [reported] using hwrong
    exact backs_of_wrongWith hz hnone

/-- Where nothing is due about a reference, what it names is alive. -/
theorem alive_of_refDue {s : SymbolId} (h : refDue p s = []) : p.Alive (.symbol s) := by
  by_contra hdead
  cases hy : p.symbol? s with
  | none => simp [refDue, hy] at h
  | some y => simp [refDue_of_not_alive hy hdead] at h

/-- Where nothing is found in modules, every reference names something alive. -/
theorem alive_of_found (h : p.Bears ts) (hroots : ∀ t ∈ ts, ∃ m, t.id = .module m)
    (hfound : found .all p (declaredFor .all p) .outside ts = []) {r : Reference}
    (hr : r ∈ references .outside ts) : p.Alive (.symbol r.target) := by
  have hbroken : brokenAt p r = [] := by
    have hall : (found .all p (declaredFor .all p) .outside ts).filter (·.kind.isReference) =
        (references .outside ts).flatMap (brokenAt p) := filter_found rfl h
    rw [hfound, List.filter_nil, eq_comm, List.flatMap_eq_nil_iff] at hall
    exact hall r hr
  obtain ⟨m, hm⟩ := module_of_reference h hroots hr
  refine alive_of_refDue ?_
  simpa [brokenAt, reported, hm] using hbroken

/-- After a deletion nothing is due about what is reached past the deleted symbol. -/
theorem refDue_of_past (hforest : p.IsForest p.moduleIds) (hx : p.has (.symbol x) = true)
    {s : SymbolId} (halive : p.Alive (.symbol s))
    (hpast : p.ReachesPast p.moduleIds x (.symbol s)) : refDue (p.removeSymbol x) s = [] :=
  refDue_of_alive
    ((Program.alive_removeSymbol hforest hx fun _ => NodeId.noConfusion).mpr ⟨halive, hpast⟩)

/-- What is not reached past the deleted symbol is gone with it. -/
theorem refDue_of_not_past (hforest : p.IsForest p.moduleIds) (hx : p.has (.symbol x) = true)
    {s : SymbolId} {y : Symbol} (hy : p.symbol? s = some y)
    (hpast : ¬ p.ReachesPast p.moduleIds x (.symbol s)) :
    refDue (p.removeSymbol x) s = [.removedSymbol y.name] := by
  have hdead : ¬ (p.removeSymbol x).Alive (.symbol s) := fun h =>
    hpast ((Program.alive_removeSymbol hforest hx fun _ => NodeId.noConfusion).mp h).2
  have hy' := Program.symbol?_removeSymbol hx s
  rw [hy, Option.map_some] at hy'
  rw [refDue_of_not_alive hy' hdead]

/-- A reference that is left to what is gone is reported once. -/
theorem blames_of_refDue (hx : p.has (.symbol x) = true) {r : Reference} {m : ModuleId} {y : Symbol}
    (hm : r.module = some m) (hy : p.symbol? r.target = some y)
    (hdue : refDue (p.removeSymbol x) r.target = [.removedSymbol y.name]) :
    ∃ v, brokenAt (p.removeSymbol x) r = [v] ∧ Blames p r v := by
  refine ⟨⟨.removedSymbol y.name, m, ((p.module? m).map (·.file)).getD "", r.line, r.expr⟩, ?_,
    m, y, hm, hy, rfl⟩
  simp [brokenAt, hdue, hm, reported, Program.file_removeSymbol hx]

end

/-- Entries about which one thing is said, and others about which nothing is. -/
theorem forall₂_filter_flatMap {α β : Type} {P : α → Prop} [DecidablePred P] {R : α → β → Prop}
    {f : α → List β} {xs : List α} (hone : ∀ a ∈ xs, P a → ∃ b, f a = [b] ∧ R a b)
    (hnone : ∀ a ∈ xs, ¬ P a → f a = []) :
    List.Forall₂ R (xs.filter P) (xs.flatMap f) := by
  induction xs with
  | nil => exact .nil
  | cons a xs ih =>
    have ih := ih (fun b hb => hone b (List.mem_cons_of_mem a hb))
      fun b hb => hnone b (List.mem_cons_of_mem a hb)
    rw [List.flatMap_cons]
    by_cases ha : P a
    · obtain ⟨b, hfa, hb⟩ := hone a List.mem_cons_self ha
      rw [List.filter_cons_of_pos (by simpa using ha), hfa]
      exact .cons hb ih
    · rw [List.filter_cons_of_neg (by simpa using ha), hnone a List.mem_cons_self ha]
      exact ih

/-! ## Runs -/

open Classical in
/-- After the deletion of a symbol from a program in which nothing is wrong, a run over all modules
ends well and reports, in the order of a walk, each reference that is left to the symbol or to what
is declared inside it, and nothing else. -/
theorem run_removeSymbol {p : Program} {x : SymbolId} {report : Report}
    (hrun : Verify.run .all p.moduleIds p = .ok report) (hclean : report.isClean = true)
    (hx : p.has (.symbol x) = true) :
    ∃ us after, (p.removeSymbol x).Unfolds (p.removeSymbol x).moduleIds us ∧
      Verify.run .all (p.removeSymbol x).moduleIds (p.removeSymbol x) = .ok after ∧
      List.Forall₂ (Blames p)
        ((references .outside us).filter fun r => r.target = x ∨ p.DeclaredInside x r.target)
        after.violations := by
  obtain ⟨ts, hts⟩ := unfolds_of_run hrun
  obtain ⟨before, hbefore, hfound⟩ := run_of_unfolds .all hts
  obtain rfl : report = before := Except.ok.inj (hrun.symm.trans hbefore)
  rw [List.isEmpty_iff.mp hclean] at hfound
  have hroots : ∀ t ∈ ts, ∃ m, t.id = .module m := fun t ht => by
    obtain ⟨m, _, hm⟩ := List.mem_map.mp (hts.roots ▸ List.mem_map_of_mem ht)
    exact ⟨m, hm.symm⟩
  have hrecords := records_of_found hts.bears hroots hfound.symm
  have hus := unfolds_removeSymbol hts hx
  have hroots' : ∀ u ∈ withoutAll x ts, ∃ m, u.id = .module m := fun u hu => by
    obtain ⟨m, _, hm⟩ := List.mem_map.mp (hus.roots ▸ List.mem_map_of_mem hu)
    exact ⟨m, hm.symm⟩
  obtain ⟨after, hafter, hfound'⟩ := run_of_unfolds .all hus
  refine ⟨_, after, hus, hafter, ?_⟩
  rw [hfound', found_of_records rfl hus.bears (hrecords.removeSymbol hx)]
  -- every reference that is left was there before, and named something alive
  have hleft : ∀ r ∈ references .outside (withoutAll x ts),
      (∃ m, r.module = some m) ∧ p.Alive (.symbol r.target) := fun r hr => by
    refine ⟨module_of_reference hus.bears hroots' hr, ?_⟩
    obtain ⟨e, y, _, he, hy, hk⟩ := exists_symRef hus.bears hr
    rw [Program.expr?_removeSymbol hx] at hy
    obtain ⟨m, line, hr'⟩ :=
      exists_reference hts.bears hroots ((nodesOf_withoutAll ts).subset he) hy hk
    have halive := alive_of_found hts.bears hroots hfound.symm hr'
    exact halive
  have hforest := Program.isForest_of_unfolds hts
  refine forall₂_filter_flatMap (fun r hr hinside => ?_) fun r hr hoff => ?_
  all_goals obtain ⟨⟨m, hm⟩, halive⟩ := hleft r hr
  · obtain ⟨y, hy⟩ := Option.isSome_iff_exists.mp (show (p.symbol? r.target).isSome = true from
      halive.has)
    have hpast : ¬ p.ReachesPast p.moduleIds x (.symbol r.target) := fun hpast =>
      (Program.reachesPast_iff halive.reaches).mp hpast hinside
    exact blames_of_refDue hx hm hy (refDue_of_not_past hforest hx hy hpast)
  · have hpast := (Program.reachesPast_iff halive.reaches).mpr hoff
    rw [brokenAt, refDue_of_past hforest hx halive hpast, reported_nil]

/-- Two functions, of which the second refers to the first and to its parameter. -/
def linked : Program where
  modules := #[⟨"m", "m.w", none, [⟨0⟩, ⟨1⟩]⟩]
  symbols := #[⟨"f", 1, .func [⟨2⟩] none [⟨0⟩], some (.module ⟨0⟩), false⟩,
    ⟨"g", 3, .func [] none [⟨1⟩], some (.module ⟨0⟩), false⟩,
    ⟨"a", 1, .param none, some (.symbol ⟨0⟩), false⟩]
  stmts := #[⟨.expr ⟨0⟩, 2, none, some ⟨0⟩⟩, ⟨.expr ⟨1⟩, 4, none, some ⟨1⟩⟩]
  exprs := #[⟨.symRef ⟨2⟩, 2, some ⟨0⟩, some ⟨0⟩⟩, ⟨.binary .add ⟨2⟩ ⟨3⟩, 4, some ⟨1⟩, some ⟨1⟩⟩,
    ⟨.symRef ⟨0⟩, 4, some ⟨1⟩, some ⟨1⟩⟩, ⟨.symRef ⟨2⟩, 4, some ⟨1⟩, some ⟨1⟩⟩]

/-- When the first function is deleted, both references in the second one are reported. -/
example : (Verify.run .all [⟨0⟩] (linked.removeSymbol ⟨0⟩)).map (·.violations) =
    .ok [⟨.removedSymbol "f", ⟨0⟩, "m.w", 4, .expr ⟨2⟩⟩,
      ⟨.removedSymbol "a", ⟨0⟩, "m.w", 4, .expr ⟨3⟩⟩] := by
  decide +kernel

open Classical in
theorem run_removeSymbol_linked :
    Verify.run .all linked.moduleIds linked = .ok ⟨[], ⟨1, 3, 2, 4⟩⟩ ∧
    ∃ us after, (linked.removeSymbol ⟨0⟩).Unfolds (linked.removeSymbol ⟨0⟩).moduleIds us ∧
      Verify.run .all (linked.removeSymbol ⟨0⟩).moduleIds (linked.removeSymbol ⟨0⟩) = .ok after ∧
      List.Forall₂ (Blames linked)
        ((references .outside us).filter fun r =>
          r.target = ⟨0⟩ ∨ linked.DeclaredInside ⟨0⟩ r.target) after.violations :=
  have hrun : Verify.run .all linked.moduleIds linked = .ok ⟨[], ⟨1, 3, 2, 4⟩⟩ := by
    decide +kernel
  ⟨hrun, run_removeSymbol hrun rfl (by decide)⟩

end Verify

end MiddleEnd
