import MiddleEnd.Proofs.Verify.Declared
import MiddleEnd.Proofs.Verify.Found

/-!
# MiddleEnd.Proofs.Verify.Reports

What the verifier reports, said of the tree alone.  `lineageOf` lists the nodes of trees in the
order of a walk, each with its ancestors, and `dueAt` says what has to be reported about a node with
these ancestors: the nearest statement and the nearest symbol among them, the first of them, and
whether a reference names something that is alive.  No frame, no stack and no search occurs in it.

A run that ends well reports this, all of it, in this order and nothing else (`run_reports`).
-/

namespace MiddleEnd

open MiddleEnd.Tree Walk

namespace NodeId

/-- The node, if it is a module. -/
def module? : NodeId → Option ModuleId
  | .module m => some m
  | _ => none

/-- The node, if it is a symbol. -/
def symbol? : NodeId → Option SymbolId
  | .symbol s => some s
  | _ => none

/-- The node, if it is a statement. -/
def stmt? : NodeId → Option StmtId
  | .stmt s => some s
  | _ => none

/-- The node as what declares a symbol, if it can. -/
def scope? : NodeId → Option Scope
  | .module m => some (.module m)
  | .symbol s => some (.symbol s)
  | .stmt s => some (.stmt s)
  | .expr _ => none

end NodeId

namespace Tree

mutual

/-- The nodes of a tree in the order of a walk, each with its ancestors, innermost first. -/
def lineage (above : List NodeId) : Tree → List (List NodeId × NodeId)
  | node n _ es ss ts => (above, n) ::
    (lineageOf (n :: above) es ++ lineageOf (n :: above) ss ++ lineageOf (n :: above) ts)

/-- The nodes of trees below the same ancestors. -/
def lineageOf (above : List NodeId) : List Tree → List (List NodeId × NodeId)
  | [] => []
  | t :: ts => lineage above t ++ lineageOf above ts

end

end Tree

namespace Verify

/-! ## What has to be reported -/

instance (p : Program) (s : SymbolId) : Decidable (p.Alive (.symbol s)) :=
  decidable_of_iff (p.declaredNodes.contains (.symbol s) = true)
    (Program.contains_declaredNodes nofun)

/-- A reference has to name a symbol that exists, that was not removed, and that is alive. -/
def refDue (p : Program) (sym : SymbolId) : List Violation.Kind :=
  match p.symbol? sym with
  | none => [.unknownSymbol sym]
  | some x => if x.removed = true ∨ ¬ p.Alive (.symbol sym) then [.removedSymbol x.name] else []

/-- A statement or an expression has to record the nearest statement and the nearest symbol among
its ancestors. -/
def parentsDue (checks : Checks) (above : List NodeId) (stmt : Option StmtId)
    (symbol : Option SymbolId) : List Violation.Kind :=
  let nearestStmt := above.findSome? NodeId.stmt?
  let nearestSymbol := above.findSome? NodeId.symbol?
  (if checks.enclosingStmt = true ∧ stmt ≠ nearestStmt then [.enclosingStmt nearestStmt stmt]
    else []) ++
  if checks.parentSymbol = true ∧ symbol ≠ nearestSymbol then [.parentSymbol nearestSymbol symbol]
  else []

/-- What has to be reported about a node with these ancestors.  A symbol has to record the one that
owns it. -/
def due (checks : Checks) (p : Program) (above : List NodeId) : Node → List Violation.Kind
  | .module _ => []
  | .symbol x =>
    let owner := above.head?.bind NodeId.scope?
    if checks.symbolScope = true ∧ x.scope ≠ owner then [.scope x.name owner x.scope] else []
  | .stmt x => parentsDue checks above x.parentStmt x.parentSymbol
  | .expr x => parentsDue checks above x.parentStmt x.parentSymbol ++
    match x.kind with
    | .symRef sym => if checks.symbolRefs = true then refDue p sym else []
    | _ => []

/-- What has to be reported about a node, with the module among its ancestors and the file of that
module, and with the line of the node. -/
def dueAt (checks : Checks) (p : Program) (above : List NodeId) (n : NodeId) : List Violation :=
  (p.node? n).toList.flatMap fun x =>
    reported p (above.findSome? NodeId.module?) (due checks p above x) (lineOf x) n

/-! ## What is found -/

/-- What encloses a node, taken from its ancestors. -/
structure Stands (a : Around) (above : List NodeId) (n : NodeId) : Prop where
  module : a.module = above.findSome? NodeId.module?
  stmt : a.stmt = above.findSome? NodeId.stmt?
  symbol : a.symbol = above.findSome? NodeId.symbol?
  /-- Expressions own no symbols. -/
  scope : ∀ s, n = .symbol s → a.scope = above.head?.bind NodeId.scope?
  /-- Modules are owned by nothing. -/
  root : ∀ m, n = .module m → above = []

section

variable {checks : Checks} {p : Program} {a : Around} {above : List NodeId} {n : NodeId}

/-- What encloses the nodes that a node owns. -/
theorem Stands.under (h : Stands a above n) {m : NodeId} (hmodule : ∀ k, m ≠ .module k)
    (hsymbol : ∀ e, n = .expr e → ∀ s, m ≠ .symbol s) : Stands (a.under n) (n :: above) m := by
  cases n with
  | module k =>
    obtain rfl := h.root k rfl
    exact ⟨rfl, rfl, rfl, fun _ _ => rfl, fun k hk => absurd hk (hmodule k)⟩
  | symbol s =>
    exact ⟨h.module, h.stmt, rfl, fun _ _ => rfl, fun k hk => absurd hk (hmodule k)⟩
  | stmt s =>
    exact ⟨h.module, rfl, h.symbol, fun _ _ => rfl, fun k hk => absurd hk (hmodule k)⟩
  | expr e =>
    exact ⟨h.module, h.stmt, h.symbol, fun s hs => absurd hs (hsymbol e rfl s),
      fun k hk => absurd hk (hmodule k)⟩

/-- What is misplaced is what is due for the ancestors. -/
theorem misplaced_eq (h : Stands a above n) (stmt : Option StmtId) (symbol : Option SymbolId) :
    misplaced checks a stmt symbol = parentsDue checks above stmt symbol := by
  simp [misplaced, parentsDue, h.stmt, h.symbol]

/-- A reference is broken as it is due. -/
theorem brokenExpr?_eq (hrefs : checks.symbolRefs = true) (kind : ExprKind) :
    (brokenExpr? p (declaredFor checks p) kind).toList = match kind with
      | .symRef sym => if checks.symbolRefs = true then refDue p sym else []
      | _ => [] := by
  cases kind with
  | symRef sym =>
    have halive : (declaredFor checks p).contains (.symbol sym) = true ↔ p.Alive (.symbol sym) := by
      rw [declaredFor, if_pos hrefs]
      exact Program.contains_declaredNodes nofun
    simp only [brokenExpr?, brokenRef?, refDue, hrefs, if_true]
    cases p.symbol? sym with
    | none => rfl
    | some x =>
      by_cases hbroken : x.removed = true ∨ ¬ p.Alive (.symbol sym)
      · have : (x.removed || !(declaredFor checks p).contains (.symbol sym)) = true := by
          rw [Bool.or_eq_true, Bool.not_eq_true', ← Bool.not_eq_true, halive]
          exact hbroken
        simp [hbroken, this]
      · have : ¬ (x.removed || !(declaredFor checks p).contains (.symbol sym)) = true := by
          rw [Bool.or_eq_true, Bool.not_eq_true', ← Bool.not_eq_true, halive]
          exact hbroken
        simp [hbroken, this]
  | _ => rfl

/-- What is wrong with a node that stands here is what has to be reported about it. -/
theorem wrongAt_eq (h : Stands a above n) :
    wrongAt checks p (declaredFor checks p) a n = dueAt checks p above n := by
  rw [wrongAt, dueAt]
  cases hx : p.node? n with
  | none => rfl
  | some x =>
    have hkinds : wrongWith checks p (declaredFor checks p) a x = due checks p above x := by
      cases x with
      | module x => rfl
      | symbol x =>
        obtain ⟨s, rfl⟩ : ∃ s, n = .symbol s := by
          cases n <;> simp [Program.node?] at hx
          exact ⟨_, rfl⟩
        simp [wrongWith, due, h.scope s rfl]
      | stmt x => exact misplaced_eq h _ _
      | expr x =>
        rw [wrongWith, due, misplaced_eq h]
        congr 1
        by_cases hrefs : checks.symbolRefs = true
        · rw [if_pos hrefs]
          exact brokenExpr?_eq hrefs x.kind
        · rw [if_neg hrefs]
          cases x.kind <;> simp [hrefs]
    simp only [Option.toList_some, List.flatMap_cons, List.flatMap_nil, List.append_nil, hkinds,
      h.module]

/-- What is found in a tree is what has to be reported about its nodes. -/
theorem found_eq (t : Tree) : ∀ a above, p.Bears [t] → Stands a above t.id →
    found checks p (declaredFor checks p) a [t] =
      (lineage above t).flatMap fun x => dueAt checks p x.1 x.2 := by
  induction t using Tree.induction with
  | step n l es ss us he hs hu =>
    intro a above hbears (hstands : Stands a above n)
    obtain ⟨hc, hes, hss, hus⟩ := Program.bears_node.mp hbears
    -- trees of one kind below the node
    have hlist : ∀ ts : List Tree, (∀ t ∈ ts, p.Bears [t] ∧ Stands (a.under n) (n :: above) t.id ∧
        ∀ a above, p.Bears [t] → Stands a above t.id → found checks p (declaredFor checks p) a [t] =
          (lineage above t).flatMap fun x => dueAt checks p x.1 x.2) →
        found checks p (declaredFor checks p) (a.under n) ts =
          (lineageOf (n :: above) ts).flatMap fun x => dueAt checks p x.1 x.2 := fun ts hts => by
      induction ts with
      | nil => rfl
      | cons t ts ih =>
        obtain ⟨hb, hst, ht⟩ := hts t List.mem_cons_self
        rw [← List.singleton_append, found_append, ht _ _ hb hst,
          ih fun u hu => hts u (List.mem_cons_of_mem t hu), List.singleton_append, lineageOf,
          List.flatMap_append]
    obtain ⟨hexprs, hsymbols, hstmts⟩ := hbears.kinds
    have hbelow : ∀ t ∈ es ++ ss ++ us, Stands (a.under n) (n :: above) t.id := fun t ht => by
      refine hstands.under (Program.ne_module_of_cell? hc (Program.id_mem_cell ht)) ?_
      rintro e rfl s hid
      obtain ⟨x, _, hcell⟩ := Program.cell?_expr hc
      obtain rfl : ss = [] := by simpa [Node.cell] using congrArg Cell.symbols hcell
      obtain rfl : us = [] := by simpa [Node.cell] using congrArg Cell.stmts hcell
      obtain ⟨e', he'⟩ := hexprs t (by simpa using ht)
      rw [he'] at hid
      cases hid
    rw [found_node, found_append, found_append, lineage, List.flatMap_cons, wrongAt_eq hstands,
      hlist es fun t ht => ⟨hes.mem ht, hbelow t (by simp [ht]), he t ht⟩,
      hlist ss fun t ht => ⟨hss.mem ht, hbelow t (by simp [ht]), hs t ht⟩,
      hlist us fun t ht => ⟨hus.mem ht, hbelow t (by simp [ht]), hu t ht⟩, List.flatMap_append,
      List.flatMap_append]

/-- What is found in modules is what is due for their nodes. -/
theorem found_modules : ∀ {ts : List Tree}, p.Bears ts → (∀ t ∈ ts, ∃ m, t.id = .module m) →
    found checks p (declaredFor checks p) .outside ts =
      (lineageOf [] ts).flatMap fun x => dueAt checks p x.1 x.2
  | [], _, _ => rfl
  | t :: ts, hbears, hroots => by
    obtain ⟨m, hm⟩ := hroots t List.mem_cons_self
    obtain ⟨hb, hbs⟩ := Program.bears_cons.mp hbears
    have hstands : Stands .outside [] t.id :=
      ⟨rfl, rfl, rfl, fun s hs => (by rw [hm] at hs; cases hs), fun _ _ => rfl⟩
    rw [← List.singleton_append, found_append, found_eq t _ _ hb hstands,
      found_modules hbs fun u hu => hroots u (List.mem_cons_of_mem t hu), List.singleton_append,
      lineageOf, List.flatMap_append]

end

/-! ## Runs -/

/-- Modules that were verified are trees. -/
theorem unfolds_of_run {checks : Checks} {modules : List ModuleId} {p : Program} {report : Report}
    (h : Verify.run checks modules p = .ok report) : ∃ ts, p.Unfolds modules ts := by
  rw [Verify.run, Pass.run] at h
  rcases hx : exec (pass.runModules modules)
    ⟨.start, ⟨p, .start checks (declaredFor checks p)⟩⟩ with ⟨halt | ⟨⟩, st⟩
  · simp only [declaredFor, ← run_eq_exec] at hx
    rw [hx] at h
    cases h
  · obtain ⟨ts, hroots, hthrough⟩ := Pass.through_of_runModules rfl hx
    exact ⟨ts, hroots, hthrough.bears, hthrough.nodup⟩

/-- A run that ends well went over trees, and reports what has to be reported about their nodes, in
the order of the nodes and nothing else. -/
theorem run_reports {checks : Checks} {modules : List ModuleId} {p : Program} {report : Report}
    (h : Verify.run checks modules p = .ok report) : ∃ ts, p.Unfolds modules ts ∧
      report.violations = (lineageOf [] ts).flatMap fun x => dueAt checks p x.1 x.2 := by
  obtain ⟨ts, hts⟩ := unfolds_of_run h
  obtain ⟨report', hrun, hfound⟩ := run_of_unfolds checks hts
  obtain rfl : report = report' := Except.ok.inj (h.symm.trans hrun)
  refine ⟨ts, hts, hfound.trans (found_modules hts.bears fun t ht => ?_)⟩
  obtain ⟨m, _, hm⟩ := List.mem_map.mp (hts.roots ▸ List.mem_map_of_mem ht)
  exact ⟨m, hm.symm⟩

/-- A function without its scope, in which one reference names a removed symbol and one nothing. -/
def untidy : Program where
  modules := #[⟨"m", "m.w", none, [⟨0⟩]⟩]
  symbols := #[.new "f" (.func [] none [⟨0⟩]) 1,
    { Symbol.new "v" (.var none) 2 with removed := true }]
  stmts := #[.new (.expr ⟨0⟩) 3]
  exprs := #[.new (.binary .add ⟨1⟩ ⟨2⟩) 3, .new (.symRef ⟨1⟩) 3, .new (.symRef ⟨7⟩) 3]

/-- What is reported about it, where the parents of statements and expressions are not looked at. -/
def untidyReport : Report where
  violations := [⟨.scope "f" (some (.module ⟨0⟩)) none, ⟨0⟩, "m.w", 1, .symbol ⟨0⟩⟩,
    ⟨.removedSymbol "v", ⟨0⟩, "m.w", 3, .expr ⟨1⟩⟩, ⟨.unknownSymbol ⟨7⟩, ⟨0⟩, "m.w", 3, .expr ⟨2⟩⟩]
  tally := ⟨1, 1, 1, 3⟩

theorem run_reports_untidy :
    Verify.run ⟨true, false, false, true⟩ [⟨0⟩] untidy = .ok untidyReport ∧
    ∃ ts, untidy.Unfolds [⟨0⟩] ts ∧ untidyReport.violations =
      (lineageOf [] ts).flatMap fun x => dueAt ⟨true, false, false, true⟩ untidy x.1 x.2 :=
  have hrun : Verify.run ⟨true, false, false, true⟩ [⟨0⟩] untidy = .ok untidyReport := by
    decide +kernel
  ⟨hrun, run_reports hrun⟩

end Verify

end MiddleEnd
