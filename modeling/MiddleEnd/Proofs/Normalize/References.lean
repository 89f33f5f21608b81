import MiddleEnd.Proofs.Normalize.Result
import MiddleEnd.Proofs.Normalize.Settled
import MiddleEnd.Proofs.Normalize.Taken
import MiddleEnd.Proofs.Tree.Reference

/-!
# MiddleEnd.Proofs.Normalize.References

What the recursion makes of the nodes that name symbols.  It leaves every declaration and every
reference in place and in order, whatever it moves, drops or wraps, and adds none but temporaries
and references to them; and every temporary that it draws from the supply it also declares
(`Carries`, `carries_rebuildAll`).  `leaves_of_run` says so of a whole run.
-/

namespace MiddleEnd

namespace Normalize

open MiddleEnd.Tree

/-! ## Temporaries -/

/-- So many temporaries were drawn from a supply that started at the position `b` for symbols. -/
structure Supply.Even (b : Nat) (s : Supply) : Prop where
  symbols : s.symbols = b + s.temps
  counts : s.counts.hoistedTemps = s.temps

/-- The trees declare the temporary with a number. -/
def HasTemp (b : Nat) (us : List Tree) (k : Nat) : Prop :=
  ∃ u ∈ subtreesOf us, ∃ line, u.id = .symbol (.ofIndex (b + k)) ∧
    u.label = .symbol ("_t" ++ k.repr) line false (.var none)

/-- A temporary that some trees declare is declared in all that hold them. -/
theorem HasTemp.mono {b k : Nat} {us vs : List Tree} (h : HasTemp b us k)
    (hsub : ∀ u ∈ subtreesOf us, u ∈ subtreesOf vs) : HasTemp b vs k := by
  obtain ⟨u, hu, htemp⟩ := h
  exact ⟨u, hsub u hu, htemp⟩

/-- A site that the rewrites make: a temporary, or a reference to one. -/
inductive OfTemp (b : Nat) (us : List Tree) : Site → Prop where
  | ref {k : Nat} (h : HasTemp b us k) (module : Option ModuleId) (n : NodeId) (line : UInt32) :
      OfTemp b us ⟨module, n, .expr (.symRef (.ofIndex (b + k))) line⟩
  | decl {k : Nat} (h : HasTemp b us k) (module : Option ModuleId) (line : UInt32) :
      OfTemp b us ⟨module, .symbol (.ofIndex (b + k)),
        .symbol ("_t" ++ k.repr) line false (.var none)⟩

/-- A site of a temporary that some trees declare is one in all that hold them. -/
theorem OfTemp.mono {b : Nat} {us vs : List Tree} {x : Site} (h : OfTemp b us x)
    (hsub : ∀ u ∈ subtreesOf us, u ∈ subtreesOf vs) : OfTemp b vs x := by
  cases h with
  | ref h m n line => exact .ref (h.mono hsub) m n line
  | decl h m line => exact .decl (h.mono hsub) m line

/-- The trees `us`, made of `ts` between two supplies, have the sites of `ts` and besides them only
temporaries and references to these, and declare every temporary drawn. -/
structure Carries (b : Nat) (s s' : Supply) (ts us : List Tree) : Prop where
  even : s'.Even b
  enriched : ∀ a, Enriched (OfTemp b us) (sites a ts) (sites a us)
  temps : ∀ k, s.temps ≤ k → k < s'.temps → HasTemp b us k

namespace Carries

variable {b : Nat} {s s₁ s₂ : Supply} {ts us ts' us' : List Tree}

/-- Nothing was drawn, and no site has changed. -/
theorem of_eq (heven : s₁.Even b) (htemps : s₁.temps = s.temps)
    (h : ∀ a, sites a us = sites a ts) : Carries b s s₁ ts us where
  even := heven
  enriched a := h a ▸ .refl _
  temps _ hk hk' := absurd (htemps ▸ hk') (Nat.not_lt.mpr hk)

/-- Before a rewrite no temporary was drawn. -/
theorem after (h : Carries b s₁ s₂ ts us) (htemps : s₁.temps = s.temps) : Carries b s s₂ ts us :=
  ⟨h.even, h.enriched, fun k hk => h.temps k (htemps ▸ hk)⟩

/-- Trees in a row carry their sites one after the other. -/
theorem trans (h : Carries b s s₁ ts us) (h' : Carries b s₁ s₂ ts' us') :
    Carries b s s₂ (ts ++ ts') (us ++ us') := by
  have hleft : ∀ u ∈ subtreesOf us, u ∈ subtreesOf (us ++ us') := fun u hu => by
    rw [subtreesOf_append]
    exact List.mem_append_left _ hu
  have hright : ∀ u ∈ subtreesOf us', u ∈ subtreesOf (us ++ us') := fun u hu => by
    rw [subtreesOf_append]
    exact List.mem_append_right _ hu
  refine ⟨h'.even, fun a => ?_, fun k hk hk' => ?_⟩
  · rw [sites_append, sites_append]
    exact ((h.enriched a).mono fun _ hx => hx.mono hleft).append
      ((h'.enriched a).mono fun _ hx => hx.mono hright)
  · rcases Nat.lt_or_ge k s₁.temps with hlt | hge
    · exact (h.temps k hk hlt).mono hleft
    · exact (h'.temps k hge hk').mono hright

end Carries

/-! ## Expressions -/

section

variable {p : Program} {r : Rules} {es : List Tree}

/-- A parenthesis is no reference, so flattening keeps all of them. -/
theorem sites_flat (t : Tree) : p.Bears [t] → (∃ e, t.id = .expr e) →
    ∀ a, sites a [flat t] = sites a [t] := by
  induction t using Tree.induction with
  | step n l es ss ts he hs ht =>
    rintro hbears ⟨e, hid⟩ a
    obtain rfl : n = .expr e := hid
    obtain ⟨n, line, inner, hnode⟩ | ⟨hl, _, _⟩ := paren_cases hbears
    · cases hnode
      rw [flat_paren, he inner List.mem_cons_self (Program.bears_node.mp hbears).2.1
        (exists_inner hbears), sites_node]
      simp [Label.site?, Label.isSite, Around.under]
    · obtain ⟨_, hbe, _, _⟩ := Program.bears_node.mp hbears
      rw [flat_of_not_paren (show l.isParen = false from hl), sites_node, sites_node, flatAll_eq]
      congr 2
      -- the operands, one by one
      have hall : ∀ fs : List Tree, (∀ f ∈ fs, f ∈ es) →
          sites (a.under (.expr e)) (fs.map flat) = sites (a.under (.expr e)) fs := by
        intro fs hfs
        induction fs with
        | nil => rfl
        | cons f fs ih =>
          have hf := hfs f List.mem_cons_self
          rw [List.map_cons, sites_cons, he f hf (hbe.mem hf) (hbears.kinds.1 f hf),
            ih fun g hg => hfs g (List.mem_cons_of_mem f hg), ← sites_cons]
      exact hall es fun _ h => h

/-- Flattening leaves all sites, since no parenthesis is one. -/
theorem sites_flatten (hbears : p.Bears es) (hroots : ∀ t ∈ es, ∃ e, t.id = .expr e)
    (a : Around) (s : Supply) : sites a ((flatten r es).run s).1 = sites a es := by
  rw [run_flatten]
  split
  · rw [flatAll_eq]
    induction es with
    | nil => rfl
    | cons e es ih =>
      rw [Program.bears_cons] at hbears
      rw [List.map_cons, sites_cons, sites_flat e hbears.1 (hroots e List.mem_cons_self) a,
        ih hbears.2 fun t ht => hroots t (List.mem_cons_of_mem e ht), ← sites_cons]
  · rfl

end

/-! ## Statements and symbols -/

section

variable {b : Nat} {r : Rules} {t : Tree} {ts us : List Tree} {s s' : Supply}

/-- Flattening draws no temporary. -/
theorem Supply.Even.flatten (h : s.Even b) (r : Rules) (es : List Tree) :
    ((Normalize.flatten r es).run s).2.Even b ∧
      ((Normalize.flatten r es).run s).2.temps = s.temps := by
  rw [run_flatten]
  split
  · exact ⟨⟨h.symbols, h.counts⟩, rfl⟩
  · exact ⟨h, rfl⟩

/-- Setting blocks aside draws no temporary. -/
theorem Supply.Even.newBlocks (h : s.Even b) (n : Nat) : ((Normalize.newBlocks n).run s).2.Even b :=
  ⟨h.symbols, h.counts⟩

theorem Supply.Even.newTemp (h : s.Even b) : (Normalize.newTemp.run s).2.Even b := by
  rw [run_newTemp]
  exact ⟨by simp [h.symbols, Nat.add_assoc], by simp [h.counts]⟩

/-- The sites of a tree are its root's, those of its expressions, and those of the rest. -/
theorem sites_tree (a : Around) (t : Tree) : sites a [t] =
    (t.label.site? a.module t.id).toList ++ (sites (a.under t.id) t.exprs ++
      sites (a.under t.id) (t.symbols ++ t.stmts)) := by
  obtain ⟨n, l, es, ss, ts⟩ := t
  rw [sites_node, ← sites_append]
  rfl

/-- What stands below a node was made of what stood there, and its expressions have the same
sites. -/
theorem Carries.node {u : Tree} (hid : u.id = t.id) (hlabel : u.label = t.label)
    (hexprs : ∀ a, sites a u.exprs = sites a t.exprs)
    (h : Carries b s s' (t.symbols ++ t.stmts) (u.symbols ++ u.stmts)) :
    Carries b s s' [t] [u] := by
  have hsub : ∀ v ∈ subtreesOf (u.symbols ++ u.stmts), v ∈ subtreesOf [u] := by
    obtain ⟨n, l, es, ss, us⟩ := u
    intro v hv
    rw [subtreesOf_append, List.mem_append] at hv
    simp only [subtreesOf_node, subtreesOf_nil, List.append_nil, List.mem_cons, List.mem_append]
    exact .inr (hv.elim (fun hv => .inl (.inr hv)) .inr)
  refine ⟨h.even, fun a => ?_, fun k hk hk' => (h.temps k hk hk').mono hsub⟩
  rw [sites_tree, sites_tree a u, hid, hlabel, hexprs]
  exact (Enriched.refl _).append ((Enriched.refl _).append
    ((h.enriched _).mono fun _ hx => hx.mono hsub))

/-- A new block around statements adds no site. -/
theorem Carries.block (h : Carries b s s' ts us) (position : Nat) (line : UInt32) :
    Carries b s s' ts [blockTree position line us] := by
  have hsub : ∀ v ∈ subtreesOf us, v ∈ subtreesOf [blockTree position line us] := fun v hv => by
    simp [blockTree, hv]
  refine ⟨h.even, fun a => ?_, fun k hk hk' => (h.temps k hk hk').mono hsub⟩
  have hblock : sites a [blockTree position line us] = sites a us := by
    rw [blockTree, sites_node, sites_nil, sites_under (by simp)]
    rfl
  rw [hblock]
  exact (h.enriched a).mono fun _ hx => hx.mono hsub

/-- Where the recursion gets to a node, what is below it carries its sites, and so do its
expressions. -/
structure Kept (r : Rules) (b : Nat) (t : Tree) : Prop where
  held : ∀ block temp? s, s.Even b → Carries b s ((rebuild r block temp? t).run s).2
    (t.symbols ++ t.stmts) (((rebuild r block temp? t).run s).1.symbols ++
      ((rebuild r block temp? t).run s).1.stmts)
  exprs : ∀ a s, sites a ((flatten r t.exprs).run s).1 = sites a t.exprs
  /-- A statement that does nothing owns nothing. -/
  nop : t.label.isNop = true → ∀ a, sites a [t] = []
  /-- No condition stands outside of statements. -/
  stmt : t.label.isIf = true → ∃ s, t.id = .stmt s

/-- A statement that keeps its condition carries its sites. -/
theorem Kept.plain (h : Kept r b t) (block : Nat) (hs : s.Even b) :
    Carries b s ((rebuild r block none t).run s).2 [t] [((rebuild r block none t).run s).1] :=
  (h.held block none s hs).node (id_rebuild r block none t s) (label_rebuild r block none t s)
    fun a => by rw [exprs_rebuild_none, h.exprs]

theorem sites_refTree (a : Around) (temp : Temp) (line : UInt32) :
    sites a [temp.refTree line] = [⟨a.module, .expr temp.ref, .expr (.symRef temp.symbol) line⟩] :=
  rfl

/-- A declaration of a temporary adds its symbol behind the sites of its value. -/
theorem sites_declTree (a : Around) (temp : Temp) (line : UInt32) (init : List Tree) :
    sites a [temp.declTree line init] = sites a init ++
      [⟨a.module, .symbol temp.symbol, .symbol temp.name line false (.var none)⟩] := by
  rw [Temp.declTree, sites_node, sites_under (by simp), sites_under (by simp)]
  rfl

/-- The condition moves in front of the statement, and a reference to the temporary takes its
place. -/
theorem Kept.hoisted (h : Kept r b t) (hif : t.label.isIf = true) (hs : s.Even b) (block : Nat) :
    let temp := (newTemp.run s).1
    let rest : Tree × Supply := (rebuild r block (some temp) t).run (newTemp.run s).2
    let init : List Tree × Supply := (flatten r t.exprs).run rest.2
    Carries b s init.2 [t] [temp.declTree t.label.line init.1, rest.1] := by
  intro temp rest init
  obtain ⟨x, hid⟩ := h.stmt hif
  have hheld : Carries b (newTemp.run s).2 rest.2 (t.symbols ++ t.stmts)
      (rest.1.symbols ++ rest.1.stmts) := h.held block (some temp) _ hs.newTemp
  obtain ⟨heven, htemps⟩ := hheld.even.flatten r t.exprs
  have hrest : rest.1.id = t.id ∧ rest.1.label = t.label ∧
      rest.1.exprs = [temp.refTree t.label.line] :=
    ⟨id_rebuild r block _ t _, label_rebuild r block _ t _, exprs_rebuild_some r block temp t _⟩
  have hsub : ∀ v ∈ subtreesOf (rest.1.symbols ++ rest.1.stmts),
      v ∈ subtreesOf [temp.declTree t.label.line init.1, rest.1] := fun v hv => by
    generalize rest.1 = u at hv
    obtain ⟨n, l, es, ss, us⟩ := u
    rw [subtreesOf_append, List.mem_append] at hv
    simp only [Temp.declTree, subtreesOf_node, subtreesOf_nil, List.append_nil, List.mem_cons,
      List.mem_append, symbols_node, stmts_node] at hv ⊢
    tauto
  have hsymbol : temp.symbol = .ofIndex (b + s.temps) := congrArg SymbolId.ofIndex hs.symbols
  have hnew : HasTemp b [temp.declTree t.label.line init.1, rest.1] s.temps := by
    refine ⟨temp.varTree t.label.line, ?_, t.label.line, ?_, rfl⟩
    · simp [Temp.declTree, Temp.varTree]
    · rw [← hsymbol]
      rfl
  refine ⟨heven, fun a => ?_, fun k hk hk' => ?_⟩
  · have hsite : ∀ m, t.label.site? m t.id = none := by
      obtain ⟨line, hl⟩ := Label.exists_of_isIf hif
      simp [hl, Label.site?, Label.isSite]
    have hunder : ∀ us, sites (a.under t.id) us = sites a us := fun us =>
      sites_under (by simp [hid])
    have hafter : sites a [temp.declTree t.label.line init.1, rest.1] = sites a t.exprs ++
        (⟨a.module, .symbol temp.symbol, .symbol temp.name t.label.line false (.var none)⟩ ::
          ⟨a.module, .expr temp.ref, .expr (.symRef temp.symbol) t.label.line⟩ ::
          sites a (rest.1.symbols ++ rest.1.stmts)) := by
      rw [sites_cons, sites_declTree, h.exprs, sites_tree a rest.1, hrest.1, hrest.2.1, hrest.2.2,
        hsite, hunder, hunder, sites_refTree, List.append_assoc]
      rfl
    rw [hafter, sites_tree a t, hsite, hunder, hunder, Option.toList_none, List.nil_append, hsymbol]
    exact (Enriched.refl _).append (.add (.decl hnew _ _) (.add (.ref hnew _ _ _)
      ((hheld.enriched a).mono fun _ hx => hx.mono hsub)))
  · rcases Nat.eq_or_lt_of_le hk with rfl | hlt
    · exact hnew
    · exact (hheld.temps k hlt (htemps ▸ hk')).mono hsub

/-- What comes in the place of an entry of a list carries its sites. -/
theorem carries_entryOf (h : Kept r b t) (hs : s.Even b) :
    Carries b s ((entryOf r t fun block temp? => rebuild r block temp? t).run s).2 [t]
      ((entryOf r t fun block temp? => rebuild r block temp? t).run s).1 := by
  by_cases hd : dropped r t = true
  · rw [entryOf_of_dropped hd]
    have hnop : t.label.isNop = true := (Bool.and_eq_true _ _ ▸ hd).2
    exact .of_eq ⟨hs.symbols, hs.counts⟩ rfl fun a => (h.nop hnop a).symm
  have hd : dropped r t = false := by simpa using hd
  have hblocks := hs.newBlocks (blocksFor r t)
  by_cases hh : hoisted r t = true
  · have hif : t.label.isIf = true := by
      simp only [hoisted, Bool.and_eq_true] at hh
      exact hh.1.2
    rw [entryOf_of_hoisted hd hh]
    exact (h.hoisted hif hblocks _).after rfl
  · rw [entryOf_of_plain hd (by simpa using hh)]
    exact (h.plain _ hblocks).after rfl

/-- Entries carry their sites if each of them does. -/
theorem carries_rebuildEntries (h : ∀ t ∈ ts, Kept r b t) : ∀ s, s.Even b →
    Carries b s ((rebuildEntries r ts).run s).2 ts ((rebuildEntries r ts).run s).1 := by
  induction ts with
  | nil => exact fun s hs => .of_eq hs rfl fun _ => rfl
  | cons t ts ih =>
    intro s hs
    have hentry := carries_entryOf (h t List.mem_cons_self) hs
    exact hentry.trans (ih (fun t ht => h t (List.mem_cons_of_mem _ ht)) _ hentry.even)

/-- Branches carry their sites into the blocks around them. -/
theorem carries_rebuildBranches (h : ∀ t ∈ ts, Kept r b t) : ∀ block s, s.Even b →
    Carries b s ((rebuildBranches r block ts).run s).2 ts
      ((rebuildBranches r block ts).run s).1 := by
  induction ts with
  | nil => exact fun _ s hs => .of_eq hs rfl fun _ => rfl
  | cons t ts ih =>
    intro block s hs
    have hrest := ih fun t ht => h t (List.mem_cons_of_mem _ ht)
    by_cases hw : wrapped r t = true
    · have hentry := carries_entryOf (h t List.mem_cons_self) hs
      simp only [rebuildBranches, if_pos hw, run_bind, run_pure]
      exact (hentry.block block t.label.line).trans (hrest _ _ hentry.even)
    · have htree := (h t List.mem_cons_self).plain 0 hs
      simp only [rebuildBranches, if_neg hw, run_bind, run_pure]
      exact htree.trans (hrest _ _ htree.even)

/-- Symbols carry their sites if each of them does. -/
theorem carries_rebuildAll (h : ∀ t ∈ ts, Kept r b t) : ∀ s, s.Even b →
    Carries b s ((rebuildAll r ts).run s).2 ts ((rebuildAll r ts).run s).1 := by
  induction ts with
  | nil => exact fun s hs => .of_eq hs rfl fun _ => rfl
  | cons t ts ih =>
    intro s hs
    have htree := (h t List.mem_cons_self).plain 0 hs
    simp only [rebuildAll, run_bind, run_pure]
    exact htree.trans (ih (fun t ht => h t (List.mem_cons_of_mem _ ht)) _ htree.even)

/-- The recursion keeps the sites of every tree that a program bears. -/
theorem kept {p : Program} (t : Tree) : p.Bears [t] → (∀ e, t.id ≠ .expr e) → Kept r b t := by
  induction t using Tree.induction with
  | step n l es ss ts he hs ht =>
    intro hbears hid
    obtain ⟨hcell, hbe, hbs, hbt⟩ := Program.bears_node.mp hbears
    obtain ⟨hes, hss, hts⟩ := hbears.kinds
    have hsymbols : ∀ t ∈ ss, Kept r b t := fun t hmem => hs t hmem (hbs.mem hmem) fun e => by
      obtain ⟨s, hs⟩ := hss t hmem
      simp [hs]
    have hstmts : ∀ t ∈ ts, Kept r b t := fun t hmem => ht t hmem (hbt.mem hmem) fun e => by
      obtain ⟨s, hs⟩ := hts t hmem
      simp [hs]
    refine ⟨fun block temp? s heven => ?_, sites_flatten hbe hes, fun hnop a => ?_,
      fun hif => ?_⟩
    · rw [rebuild_eq]
      simp only [entered, below, rebuildHeld, run_bind, run_pure, symbols_node, stmts_node]
      set es' := (temp?.map fun temp => [temp.refTree l.line]).getD es
      obtain ⟨heven₁, htemps⟩ := heven.flatten r es'
      have hexprs : Carries b s ((flatten r es').run s).2 [] [] := .of_eq heven₁ htemps fun _ => rfl
      have hboth := hexprs.trans (carries_rebuildAll hsymbols _ heven₁)
      by_cases hl : l.hasBranches = true
      · rw [if_pos hl, if_pos hl, ← rebuildBranches_eq]
        exact hboth.trans (carries_rebuildBranches hstmts block _ hboth.even)
      · rw [if_neg hl, if_neg hl]
        exact hboth.trans (carries_rebuildEntries hstmts _ hboth.even)
    · obtain ⟨s, line, hleaf⟩ := leaf_of_nop hcell hnop
      cases hleaf
      rfl
    · obtain ⟨line, hl⟩ := Label.exists_of_isIf hif
      obtain rfl : l = .stmt .ifElse line := hl
      exact Program.category_of_label hcell

end

/-! ## Runs -/

/-- What a run leaves of a program `p`, in which it went through the trees `ts`: a program `q` with
so many temporaries more, in which the trees have become `us`. -/
structure Leaves (p q : Program) (ts us : List Tree) (temps : Nat) : Prop where
  modules : q.modules = p.modules
  symbols : q.symbols.size = p.symbols.size + temps
  enriched : ∀ a, Enriched (OfTemp p.symbols.size us) (sites a ts) (sites a us)
  declares : ∀ k < temps, HasTemp p.symbols.size us k
  /-- What the run did not go through is as it was. -/
  elsewhere : ∀ n, p.has n = true → n ∉ nodesOf ts → q.node? n = p.node? n
  /-- The trees consist of what they consisted of, and of new nodes. -/
  nodes : ∀ n ∈ nodesOf us, n ∈ nodesOf ts ∨ p.has n = false

/-- New references refer to temporaries. -/
theorem Leaves.enriched_references {p q : Program} {ts us : List Tree} {temps : Nat}
    (h : Leaves p q ts us temps) (a : Around) :
    Enriched (fun x => ∃ k, x.target = .ofIndex (p.symbols.size + k) ∧
      HasTemp p.symbols.size us k) (references a ts) (references a us) := by
  refine (h.enriched a).filterMap fun y z hy hz => ?_
  cases hy with
  | @ref k htemp m n line => exact ⟨k, by rw [← Option.some.inj hz], htemp⟩
  | decl htemp m line => cases hz

theorem leaves_of_run {r : Rules} {modules : List ModuleId} {p : Program} {ts : List Tree}
    (hts : p.Unfolds modules ts) (haddr : (Normalize.run r modules p).2.Addressable) :
    ∃ report, (Normalize.run r modules p).1 = .ok report ∧
      Leaves p (Normalize.run r modules p).2 ts (rebuilt r p ts) report.counts.hoistedTemps := by
  obtain ⟨st, hexec, hrebuilt, hbecomes⟩ := exec_runModules hts haddr
  have hlarger : Larger (begun r p).scene st.scene :=
    .of_exec (larger_local.forM grows_runModule modules) hexec
  have hroots : ∀ t ∈ ts, ∀ e, t.id ≠ .expr e := fun t ht e he => by
    obtain ⟨m, _, hm⟩ := List.mem_map.mp (hts.roots ▸ List.mem_map_of_mem ht)
    rw [he] at hm
    cases hm
  have hcarries := carries_rebuildAll (b := p.symbols.size)
    (fun t ht => kept (r := r) t (hts.bears.mem ht) (hroots t ht)) (supplyAt p) ⟨rfl, rfl⟩
  rw [hrebuilt] at hcarries
  rw [run_of_exec hexec]
  refine ⟨_, rfl, hlarger.modules, ?_, hcarries.enriched, fun k hk => ?_, fun n hn hnot => ?_,
    fun n hn => ?_⟩
  · exact hcarries.even.symbols.trans (congrArg _ hcarries.even.counts.symm)
  · exact hcarries.temps k (Nat.zero_le k) (hcarries.even.counts ▸ hk)
  · refine hbecomes.moved.frame.kept n hn ?_
    rintro ((hmem | ⟨hnew, _⟩) | hfalse)
    · exact hnot hmem
    · rw [show (begun r p).scene.program = p from rfl, hn] at hnew
      cases hnew
    · exact hfalse
  · exact (hbecomes.nodes n hn).imp_right And.left

end Normalize

end MiddleEnd
