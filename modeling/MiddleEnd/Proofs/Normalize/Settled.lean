import MiddleEnd.Proofs.Normalize.Exprs

/-!
# MiddleEnd.Proofs.Normalize.Settled

Trees in canonical shape.  A tree is settled if no rule has anything to do in it (`Settled`), and
what the recursion makes of any tree is settled (`settled_rebuildAll`): the rules do not make work
for each other.
-/

namespace MiddleEnd.Normalize

open MiddleEnd.Tree

/-- No rule has anything to do at the node. -/
structure SettledAt (r : Rules) (u : Tree) : Prop where
  parens : (r.flattenParens && u.label.isParen) = false
  branches : u.label.hasBranches = true → ∀ t ∈ u.stmts, wrapped r t = false
  entries : u.label.hasBranches = false → ∀ t ∈ u.stmts, dropped r t = false ∧ hoisted r t = false

/-- No rule has anything to do in the trees. -/
def Settled (r : Rules) (ts : List Tree) : Prop := ∀ u ∈ subtreesOf ts, SettledAt r u

section

variable {r : Rules} {ts us : List Tree}

@[simp] theorem settled_nil : Settled r [] := fun _ h => absurd h List.not_mem_nil

/-- Trees in a row are settled if each row is. -/
theorem settled_append : Settled r (ts ++ us) ↔ Settled r ts ∧ Settled r us := by
  simp only [Settled, subtreesOf_append, List.mem_append, or_imp, forall_and]

/-- A tree and others are settled if it is and they are. -/
theorem settled_cons {t : Tree} : Settled r (t :: ts) ↔ Settled r [t] ∧ Settled r ts :=
  @settled_append r [t] ts

/-- Trees are settled one by one. -/
theorem settled_iff : Settled r ts ↔ ∀ t ∈ ts, Settled r [t] := by
  induction ts with
  | nil => simp
  | cons t ts ih => rw [settled_cons, ih, List.forall_mem_cons]

/-- A tree is settled at its root and in the trees below it. -/
theorem settled_node {n : NodeId} {l : Label} {es ss ts : List Tree} :
    Settled r [.node n l es ss ts] ↔ SettledAt r (.node n l es ss ts) ∧
      Settled r es ∧ Settled r ss ∧ Settled r ts := by
  simp only [Settled, subtreesOf_node, subtreesOf_nil, List.append_nil, List.mem_cons,
    List.mem_append, or_imp, forall_and, forall_eq, and_assoc]

end

/-! ## Expressions -/

section

variable {p : Program} {r : Rules} {t : Tree} {es : List Tree}

/-- An expression owns neither symbols nor statements. -/
theorem leaf_of_expr {e : ExprId} (hbears : p.Bears [t]) (hid : t.id = .expr e) :
    t.symbols = [] ∧ t.stmts = [] := by
  have hcell := hbears.cell List.mem_cons_self
  rw [hid] at hcell
  obtain ⟨x, _, hxcell⟩ := Program.cell?_expr hcell
  exact ⟨List.map_eq_nil_iff.mp (congrArg Cell.symbols hxcell),
    List.map_eq_nil_iff.mp (congrArg Cell.stmts hxcell)⟩

/-- Below expressions there are nothing but expressions. -/
theorem exprs_of_bears (hbears : p.Bears es) (hroots : ∀ t ∈ es, ∃ e, t.id = .expr e) :
    ∀ u ∈ subtreesOf es, ∃ e, u.id = .expr e := by
  refine fun u hu => (forall_subtreesOf (P := fun t => p.Bears [t] ∧ ∃ e, t.id = .expr e) ?_
    (fun t ht => ⟨hbears.mem ht, hroots t ht⟩) u hu).2
  rintro n l es ss ts ⟨hb, e, rfl⟩ t ht
  refine ⟨hb.below.mem ht, ?_⟩
  obtain ⟨hss, hts⟩ := leaf_of_expr hb rfl
  obtain rfl : ss = [] := hss
  obtain rfl : ts = [] := hts
  exact hb.kinds.1 t (by simpa using ht)

/-- A node that holds no statements is settled unless it is a parenthesis that should go. -/
theorem settledAt_of_no_stmts (hparen : (r.flattenParens && t.label.isParen) = false)
    (hstmts : t.stmts = []) : SettledAt r t :=
  ⟨hparen, fun _ u hu => by simp [hstmts] at hu, fun _ u hu => by simp [hstmts] at hu⟩

/-- Flattened expressions hold no parentheses. -/
theorem settled_flat (t : Tree) : p.Bears [t] → (∃ e, t.id = .expr e) → Settled r [flat t] := by
  induction t using Tree.induction with
  | step n l es ss ts he hs ht =>
    rintro hbears ⟨e, hid⟩
    obtain rfl : n = .expr e := hid
    obtain ⟨n, line, inner, hnode⟩ | ⟨hl, _, _⟩ := paren_cases hbears
    · cases hnode
      rw [flat_paren]
      exact he inner List.mem_cons_self (Program.bears_node.mp hbears).2.1 (exists_inner hbears)
    · obtain ⟨_, hbe, _, _⟩ := Program.bears_node.mp hbears
      obtain ⟨hss, hts⟩ := leaf_of_expr hbears rfl
      obtain rfl : ss = [] := hss
      obtain rfl : ts = [] := hts
      have hlabel : l.isParen = false := hl
      rw [flat_of_not_paren hlabel, settled_node]
      refine ⟨settledAt_of_no_stmts (by simp [hlabel]) rfl, ?_, settled_nil, settled_nil⟩
      rw [flatAll_eq, settled_iff, List.forall_mem_map]
      exact fun t ht => he t ht (hbe.mem ht) (hbears.kinds.1 t ht)

/-- Expressions as the rules leave them are settled. -/
theorem settled_flatten (hbears : p.Bears es) (hroots : ∀ t ∈ es, ∃ e, t.id = .expr e)
    (s : Supply) : Settled r ((flatten r es).run s).1 := by
  rw [run_flatten]
  split
  · rw [flatAll_eq, settled_iff, List.forall_mem_map]
    exact fun t ht => settled_flat t (hbears.mem ht) (hroots t ht)
  · next hr =>
    intro u hu
    obtain ⟨e, he⟩ := exprs_of_bears hbears hroots u hu
    exact settledAt_of_no_stmts (by simp [hr]) (leaf_of_expr (hbears.sub u hu) he).2

/-- Flattening exposes no call that the rules would not have found before. -/
theorem isCall_flat (t : Tree) : p.Bears [t] →
    (underParens (flat t)).label.isCall = (underParens t).label.isCall := by
  induction t using Tree.induction with
  | step n l es ss ts he hs ht =>
    intro hbears
    obtain ⟨n, line, inner, hnode⟩ | ⟨hl, hunder, _⟩ := paren_cases hbears
    · cases hnode
      rw [flat_paren, he inner List.mem_cons_self (Program.bears_node.mp hbears).2.1]
      rfl
    · have hlabel : l.isParen = false := hl
      have hflat : (Tree.node n l (flatAll es) ss ts).label.isParen = false := hl
      rw [hunder, flat_of_not_paren hlabel, underParens_of_not_paren hflat]
      rfl

/-- Flattening does not change whether there is a call under parentheses. -/
theorem any_isCall_flatten (hbears : p.Bears es) (s : Supply) :
    (((flatten r es).run s).1.any fun e => (underParens e).label.isCall) =
      es.any fun e => (underParens e).label.isCall := by
  rw [run_flatten]
  split
  · rw [flatAll_eq, List.any_map, Bool.eq_iff_iff, List.any_eq_true, List.any_eq_true]
    exact exists_congr fun e => and_congr_right fun he => by
      rw [Function.comp, isCall_flat e (hbears.mem he)]
  · rfl

end

/-! ## Statements and symbols -/

section

variable {r : Rules} {t : Tree} {ts : List Tree}

/-- A node that is rewritten keeps its label. -/
theorem label_rebuild (r : Rules) (block : Nat) (temp? : Option Temp) (t : Tree) (s : Supply) :
    ((rebuild r block temp? t).run s).1.label = t.label := by
  rw [rebuild_eq]
  cases t
  rfl

/-- Without a temporary the expressions of a node are flattened. -/
theorem exprs_rebuild_none (r : Rules) (block : Nat) (t : Tree) (s : Supply) :
    ((rebuild r block none t).run s).1.exprs = ((flatten r t.exprs).run s).1 := by
  rw [rebuild_eq]
  cases t
  rfl

/-- With a temporary a reference to it is the only expression of a node. -/
theorem exprs_rebuild_some (r : Rules) (block : Nat) (temp : Temp) (t : Tree) (s : Supply) :
    ((rebuild r block (some temp) t).run s).1.exprs = [temp.refTree t.label.line] := by
  obtain ⟨n, l, es, ss, ts⟩ := t
  simp only [rebuild_eq, entered, below, run_bind, run_pure, Option.map_some, Option.getD_some,
    flatten_ref, exprs_node, label_node]

/-- The expressions of a node, and everything below it, are settled when it is rewritten. -/
structure Settles (r : Rules) (t : Tree) : Prop where
  rebuilt : ∀ block temp? s, Settled r [((rebuild r block temp? t).run s).1]
  exprs : ∀ s, Settled r ((flatten r t.exprs).run s).1
  calls : ∀ s, (((flatten r t.exprs).run s).1.any fun e => (underParens e).label.isCall) =
    t.exprs.any fun e => (underParens e).label.isCall

/-- The declaration of a temporary is settled with the value it holds. -/
theorem settled_declTree {temp : Temp} {line : UInt32} {init : List Tree} (h : Settled r init) :
    Settled r [temp.declTree line init] := by
  rw [Temp.declTree, settled_node, Temp.varTree, settled_node]
  exact ⟨settledAt_of_no_stmts (by simp [Label.isParen]) rfl, h,
    ⟨settledAt_of_no_stmts (by simp [Label.isParen]) rfl, settled_nil, settled_nil, settled_nil⟩,
    settled_nil⟩

/-- A list has nothing more to do for what came in the place of an entry. -/
theorem settled_entryOf (h : Settles r t) (s : Supply) :
    Settled r ((entryOf r t fun block temp? => rebuild r block temp? t).run s).1 ∧
      ∀ u ∈ ((entryOf r t fun block temp? => rebuild r block temp? t).run s).1,
        dropped r u = false ∧ hoisted r u = false := by
  by_cases hd : dropped r t = true
  · rw [entryOf_of_dropped hd, run_bind, run_pure]
    exact ⟨settled_nil, fun _ hu => absurd hu List.not_mem_nil⟩
  have hd : dropped r t = false := by simpa using hd
  by_cases hh : hoisted r t = true
  · rw [entryOf_of_hoisted hd hh]
    simp only [hoistOf, run_bind, run_pure]
    generalize (newTemp.run _).1 = temp
    generalize (newTemp.run _).2 = s₁
    rw [settled_cons]
    refine ⟨⟨settled_declTree (h.exprs _), h.rebuilt _ _ _⟩, ?_⟩
    rw [List.forall_mem_cons, List.forall_mem_singleton]
    refine ⟨⟨?_, ?_⟩, ?_, ?_⟩
    · simp [dropped, Temp.declTree, Label.isNop]
    · simp [hoisted, Temp.declTree, Label.isIf]
    · rw [dropped, label_rebuild]
      exact hd
    · rw [hoisted, exprs_rebuild_some]
      simp [Temp.refTree, underParens, Label.isCall]
  · have hh : hoisted r t = false := by simpa using hh
    rw [entryOf_of_plain hd hh]
    simp only [run_bind, run_pure, List.forall_mem_singleton]
    refine ⟨h.rebuilt _ _ _, ?_, ?_⟩
    · rw [dropped, label_rebuild]
      exact hd
    · rw [hoisted, label_rebuild, exprs_rebuild_none, h.calls]
      exact hh

/-- Entries are rewritten into settled ones, of which none is to be dropped or hoisted. -/
theorem settled_rebuildEntries (h : ∀ t ∈ ts, Settles r t) : ∀ s,
    Settled r ((rebuildEntries r ts).run s).1 ∧
      ∀ u ∈ ((rebuildEntries r ts).run s).1, dropped r u = false ∧ hoisted r u = false := by
  induction ts with
  | nil =>
    intro s
    rw [rebuildEntries, run_pure]
    exact ⟨settled_nil, fun _ hu => absurd hu List.not_mem_nil⟩
  | cons t ts ih =>
    intro s
    have hentry := settled_entryOf (h t List.mem_cons_self) s
    have hrest := ih fun t ht => h t (List.mem_cons_of_mem _ ht)
    simp only [rebuildEntries, run_bind, run_pure, settled_append, List.forall_mem_append]
    exact ⟨⟨hentry.1, (hrest _).1⟩, hentry.2, (hrest _).2⟩

/-- Branches are rewritten into settled ones, of which none is to be wrapped. -/
theorem settled_rebuildBranches (h : ∀ t ∈ ts, Settles r t) : ∀ block s,
    Settled r ((rebuildBranches r block ts).run s).1 ∧
      ∀ u ∈ ((rebuildBranches r block ts).run s).1, wrapped r u = false := by
  induction ts with
  | nil =>
    intro block s
    rw [rebuildBranches, run_pure]
    exact ⟨settled_nil, fun _ hu => absurd hu List.not_mem_nil⟩
  | cons t ts ih =>
    intro block s
    have hrest := ih fun t ht => h t (List.mem_cons_of_mem _ ht)
    by_cases hw : wrapped r t = true
    · have hentry := settled_entryOf (h t List.mem_cons_self) s
      simp only [rebuildBranches, if_pos hw, run_bind, run_pure, List.forall_mem_cons]
      rw [settled_cons, blockTree, settled_node]
      refine ⟨⟨⟨?_, settled_nil, settled_nil, hentry.1⟩, (hrest _ _).1⟩,
        not_wrapped_blockTree r _ _ _, (hrest _ _).2⟩
      exact ⟨by simp [Label.isParen], by simp [Label.hasBranches], fun _ => hentry.2⟩
    · simp only [rebuildBranches, if_neg hw, run_bind, run_pure, List.forall_mem_cons]
      rw [settled_cons]
      refine ⟨⟨(h t List.mem_cons_self).rebuilt _ _ _, (hrest _ _).1⟩, ?_, (hrest _ _).2⟩
      rw [wrapped, label_rebuild]
      simpa [wrapped] using hw

theorem settled_rebuildAll (h : ∀ t ∈ ts, Settles r t) : ∀ s,
    Settled r ((rebuildAll r ts).run s).1 := by
  induction ts with
  | nil =>
    intro s
    rw [rebuildAll, run_pure]
    exact settled_nil
  | cons t ts ih =>
    intro s
    simp only [rebuildAll, run_bind, run_pure]
    rw [settled_cons]
    exact ⟨(h t List.mem_cons_self).rebuilt _ _ _,
      ih (fun t ht => h t (List.mem_cons_of_mem _ ht)) _⟩

/-- Nothing but an expression is a parenthesis. -/
theorem not_paren_of_cell? {p : Program} {n : NodeId} {c : Cell} (h : p.cell? n = some c)
    (hn : ∀ e, n ≠ .expr e) : c.label.isParen = false := by
  cases n with
  | module m => obtain ⟨x, _, rfl⟩ := Program.cell?_module h; rfl
  | symbol s => obtain ⟨x, _, rfl⟩ := Program.cell?_symbol h; rfl
  | stmt s => obtain ⟨x, _, rfl⟩ := Program.cell?_stmt h; rfl
  | expr e => exact absurd rfl (hn e)

/-- What the rules make of a symbol or a statement is settled. -/
theorem settles {p : Program} (t : Tree) :
    p.Bears [t] → (∀ e, t.id ≠ .expr e) → Settles r t := by
  induction t using Tree.induction with
  | step n l es ss ts he hs ht =>
    intro hbears hid
    obtain ⟨hcell, hbe, hbs, hbt⟩ := Program.bears_node.mp hbears
    obtain ⟨hes, hss, hts⟩ := hbears.kinds
    have hparen : l.isParen = false := not_paren_of_cell? hcell hid
    have hsymbols : ∀ t ∈ ss, Settles r t := fun t hmem => hs t hmem (hbs.mem hmem) fun e => by
      obtain ⟨s, hs⟩ := hss t hmem
      simp [hs]
    have hstmts : ∀ t ∈ ts, Settles r t := fun t hmem => ht t hmem (hbt.mem hmem) fun e => by
      obtain ⟨s, hs⟩ := hts t hmem
      simp [hs]
    have hflatten : ∀ s, Settled r ((flatten r es).run s).1 := settled_flatten hbe hes
    have href : ∀ (temp : Temp) (line : UInt32), Settled r [temp.refTree line] := by
      intro temp line
      rw [Temp.refTree, settled_node]
      exact ⟨settledAt_of_no_stmts (by simp [Label.isParen]) rfl, settled_nil, settled_nil,
        settled_nil⟩
    refine ⟨fun block temp? s => ?_, hflatten, any_isCall_flatten hbe⟩
    have hexprs : ∀ s, Settled r ((flatten r
        ((temp?.map fun temp => [temp.refTree l.line]).getD es)).run s).1 := fun s => by
      cases temp? with
      | some temp =>
        rw [Option.map_some, Option.getD_some, flatten_ref]
        exact href temp l.line
      | none => exact hflatten s
    rw [rebuild_eq]
    simp only [entered, below, rebuildHeld, run_bind, run_pure]
    rw [settled_node]
    by_cases hl : l.hasBranches = true
    · rw [if_pos hl, if_pos hl, ← rebuildBranches_eq]
      have hbranches := settled_rebuildBranches hstmts block
      exact ⟨⟨by simp [hparen], fun _ => (hbranches _).2, fun h => by simp [hl] at h⟩, hexprs _,
        settled_rebuildAll hsymbols _, (hbranches _).1⟩
    · rw [if_neg hl, if_neg hl]
      have hentries := settled_rebuildEntries hstmts
      exact ⟨⟨by simp [hparen], fun h => absurd h hl, fun _ => (hentries _).2⟩, hexprs _,
        settled_rebuildAll hsymbols _, (hentries _).1⟩

end

end MiddleEnd.Normalize
