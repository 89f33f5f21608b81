import Mathlib.Data.List.Chain
import MiddleEnd.Proofs.Verify.Removal
import MiddleEnd.Proofs.Walk.Survey

/-!
# MiddleEnd.Proofs.Verify.Chains

What a program still declares, said in three ways that agree in every program (`declared_chains`):

* by the search, which comes to its end by itself, as no step bound is in its way (`Searches`);
* by chains of nodes that lead from a module to a symbol, one link for each way in which a symbol or
  a statement brings along another one (`Link`, `Declares`);
* by a walk that only looks, where one ends well: what it met, without what was removed and what
  stands below something that was.

`Alive` is in the middle.  A chain is followed from its front, where the module is, and found from
its end, as `Alive` is an induction on the last link.
-/

namespace MiddleEnd

open Relation

namespace Program

variable {p : Program} {n m : NodeId} {work : List NodeId} {seen found : NodeSet} {s : SymbolId}

/-! ## The end of the search -/

/-- A search that has nothing left to do finds what it has seen. -/
inductive Searches (p : Program) : List NodeId → NodeSet → NodeSet → Prop where
  | done (seen : NodeSet) : Searches p [] seen seen
  | expand {n : NodeId} {work : List NodeId} {seen found : NodeSet}
      (hnew : (p.isLive n && !seen.contains n) = true)
      (hrest : Searches p (p.successors n ++ work) (seen.insert n) found) :
      Searches p (n :: work) seen found
  | skip {n : NodeId} {work : List NodeId} {seen found : NodeSet}
      (hold : (p.isLive n && !seen.contains n) = false) (hrest : Searches p work seen found) :
      Searches p (n :: work) seen found

/-- A search comes to its end if it has steps for what waits and for what was not seen. -/
theorem searches_search : ∀ {steps : Nat} {work : List NodeId} {seen : NodeSet},
    work.length + p.pending seen < steps → (∀ n ∈ work, ∀ e, n ≠ .expr e) →
    p.Searches work seen (p.search steps work seen)
  | 0, _, _, hsteps, _ => absurd hsteps (Nat.not_lt_zero _)
  | _ + 1, [], _, _, _ => .done _
  | steps + 1, n :: work, seen, hsteps, hkind => by
    rw [List.length_cons] at hsteps
    have htail : ∀ m ∈ work, ∀ e, m ≠ .expr e := fun m hm => hkind m (List.mem_cons_of_mem n hm)
    rw [search]
    cases hnew : p.isLive n && !seen.contains n with
    | false => exact .skip hnew (searches_search (by omega) htail)
    | true =>
      obtain ⟨hlive, hunseen⟩ := Bool.and_eq_true _ _ ▸ hnew
      have hless := pending_insert (mem_searchNodes (has_of_isLive hlive)
        (hkind n List.mem_cons_self)) (by simpa using hunseen)
      refine .expand hnew (searches_search ?_ fun m hm => ?_)
      · rw [List.length_append]
        omega
      · exact (List.mem_append.mp hm).elim (successors_kinds m) (htail m)

/-- A search comes to one end. -/
theorem Searches.unique {found' : NodeSet} (h : p.Searches work seen found)
    (h' : p.Searches work seen found') : found' = found := by
  induction h with
  | done _ =>
    cases h'
    rfl
  | expand hnew _ ih =>
    cases h' with
    | expand _ h' => exact ih h'
    | skip hold _ => exact nomatch hnew.symm.trans hold
  | skip hold _ ih =>
    cases h' with
    | expand hnew _ => exact nomatch hnew.symm.trans hold
    | skip _ h' => exact ih h'

/-- The search from the modules comes to its end. -/
theorem searches_iff {p : Program} :
    p.Searches (p.moduleIds.map .module) .empty found ↔ found = p.declaredNodes := by
  have hsearch : p.Searches (p.moduleIds.map .module) .empty p.declaredNodes := by
    refine searches_search ?_ fun m hm e => ?_
    · simp [moduleIds, pending, searchBound]
    · obtain ⟨k, _, rfl⟩ := List.mem_map.mp hm
      simp
  exact ⟨hsearch.unique, fun h => h ▸ hsearch⟩

/-! ## Chains -/

/-- A symbol or a statement brings along another one. -/
inductive Link (p : Program) : NodeId → NodeId → Prop where
  | param {s t : SymbolId} {x : Symbol} {params ret body} (hx : p.symbol? s = some x)
      (hkind : x.kind = .func params ret body) (ht : t ∈ params) : Link p (.symbol s) (.symbol t)
  | member {s t : SymbolId} {x : Symbol} {members} (hx : p.symbol? s = some x)
      (hkind : x.kind = .type members) (ht : t ∈ members) : Link p (.symbol s) (.symbol t)
  | body {s : SymbolId} {t : StmtId} {x : Symbol} {params ret body} (hx : p.symbol? s = some x)
      (hkind : x.kind = .func params ret body) (ht : t ∈ body) : Link p (.symbol s) (.stmt t)
  | declared {s : StmtId} {t : SymbolId} {x : Stmt} {init} (hx : p.stmt? s = some x)
      (hkind : x.kind = .decl t init) : Link p (.stmt s) (.symbol t)
  | entry {s t : StmtId} {x : Stmt} {entries} (hx : p.stmt? s = some x)
      (hkind : x.kind = .block entries) (ht : t ∈ entries) : Link p (.stmt s) (.stmt t)
  | thenBranch {s t : StmtId} {x : Stmt} {cond other} (hx : p.stmt? s = some x)
      (hkind : x.kind = .ifElse cond t other) : Link p (.stmt s) (.stmt t)
  | elseBranch {s t : StmtId} {x : Stmt} {cond other} (hx : p.stmt? s = some x)
      (hkind : x.kind = .ifElse cond other (some t)) : Link p (.stmt s) (.stmt t)
  | loopBody {s t : StmtId} {x : Stmt} {cond} (hx : p.stmt? s = some x)
      (hkind : x.kind = .whileDo cond t) : Link p (.stmt s) (.stmt t)

/-- A symbol exists and was not removed. -/
def Stands (p : Program) (s : SymbolId) : Prop := ∃ x, p.symbol? s = some x ∧ x.removed = false

/-- A chain leads from a module to the symbol, and all symbols on it stand. -/
def Declares (p : Program) (s : SymbolId) : Prop :=
  ∃ ns : List NodeId, ns.IsChain p.Link ∧
    (∃ m x t, p.module? m = some x ∧ t ∈ x.symbols ∧ ns.head? = some (.symbol t)) ∧
    ns.getLast? = some (.symbol s) ∧ ∀ t, .symbol t ∈ ns → p.Stands t

/-- A symbol is live if it stands. -/
theorem isLive_symbol : p.isLive (.symbol s) = true ↔ p.Stands s := by
  cases h : p.symbol? s <;> simp [isLive, Stands, h]

/-- What brings something along is a symbol or a statement, and exists. -/
theorem Link.source (h : p.Link n m) : p.has n = true ∧ ∀ k, n ≠ .module k := by
  cases h <;> simp_all [has]

/-- What a symbol of this kind brings along. -/
def linksOfSymbol : SymbolKind → List NodeId
  | .func params _ body => params.map .symbol ++ body.map .stmt
  | .type members => members.map .symbol
  | .var _ | .param _ => []

/-- What a statement of this kind brings along. -/
def linksOfStmt : StmtKind → List NodeId
  | .decl t _ => [.symbol t]
  | .block entries => entries.map .stmt
  | .ifElse _ t f => .stmt t :: f.toList.map .stmt
  | .whileDo _ t => [.stmt t]
  | .expr _ | .ret _ | .nop => []

/-- The search goes on from a symbol to what its kind links to. -/
theorem successors_symbol {x : Symbol} (hx : p.symbol? s = some x) :
    p.successors (.symbol s) = linksOfSymbol x.kind := by
  rw [successors, symbolList?, stmtList?, hx]
  cases hk : x.kind <;> simp [hk, linksOfSymbol, SymbolKind.nested?, SymbolKind.body?]

/-- The search goes on from a statement to what its kind links to. -/
theorem successors_stmt {s : StmtId} {x : Stmt} (hx : p.stmt? s = some x) :
    p.successors (.stmt s) = linksOfStmt x.kind := by
  rw [successors, declared?, heldStmts, children, hx]
  cases hk : x.kind with
  | ifElse cond t f =>
    cases f <;>
      simp [hk, linksOfStmt, StmtKind.declared?, StmtKind.children, StmtKind.branch?, stmtAt?, hx]
  | block entries =>
    simp [hk, linksOfStmt, StmtKind.declared?, StmtKind.children, StmtKind.entries?, stmtList?, hx]
  | whileDo cond t =>
    simp [hk, linksOfStmt, StmtKind.declared?, StmtKind.children, StmtKind.branch?, stmtAt?, hx]
  | _ => simp [hk, linksOfStmt, StmtKind.declared?, StmtKind.children]

/-- The search steps from a symbol along links only. -/
theorem link_of_successor_symbol (h : m ∈ p.successors (.symbol s)) : p.Link (.symbol s) m := by
  cases hx : p.symbol? s with
  | none => simp [successors, symbolList?, stmtList?, hx] at h
  | some x =>
    rw [successors_symbol hx] at h
    cases hk : x.kind with
    | func params ret body =>
      rw [hk, linksOfSymbol, List.mem_append, List.mem_map, List.mem_map] at h
      obtain ⟨t, ht, rfl⟩ | ⟨t, ht, rfl⟩ := h
      · exact .param hx hk ht
      · exact .body hx hk ht
    | type members =>
      rw [hk, linksOfSymbol, List.mem_map] at h
      obtain ⟨t, ht, rfl⟩ := h
      exact .member hx hk ht
    | _ =>
      rw [hk] at h
      cases h

/-- The search steps from a statement along links only. -/
theorem link_of_successor_stmt {s : StmtId} (h : m ∈ p.successors (.stmt s)) :
    p.Link (.stmt s) m := by
  cases hx : p.stmt? s with
  | none => simp [successors, declared?, heldStmts, children, hx] at h
  | some x =>
    rw [successors_stmt hx] at h
    cases hk : x.kind with
    | decl t init =>
      rw [hk, linksOfStmt, List.mem_singleton] at h
      exact h ▸ .declared hx hk
    | block entries =>
      rw [hk, linksOfStmt, List.mem_map] at h
      obtain ⟨t, ht, rfl⟩ := h
      exact .entry hx hk ht
    | ifElse cond t f =>
      rw [hk, linksOfStmt, List.mem_cons, List.mem_map] at h
      obtain rfl | ⟨u, hu, rfl⟩ := h
      · exact .thenBranch hx hk
      · exact .elseBranch hx (Option.mem_toList.mp hu ▸ hk)
    | whileDo cond t =>
      rw [hk, linksOfStmt, List.mem_singleton] at h
      exact h ▸ .loopBody hx hk
    | _ =>
      rw [hk] at h
      cases h

/-- The successors of a symbol or a statement are what it brings along. -/
theorem mem_successors (hn : ∀ k, n ≠ .module k) : m ∈ p.successors n ↔ p.Link n m := by
  constructor
  · intro h
    cases n with
    | module k => exact absurd rfl (hn k)
    | symbol s => exact link_of_successor_symbol h
    | stmt s => exact link_of_successor_stmt h
    | expr e => cases h
  · intro h
    cases h with
    | param hx hkind ht | member hx hkind ht | body hx hkind ht =>
      simp [successors_symbol hx, hkind, linksOfSymbol, ht]
    | entry hx hkind ht => simp [successors_stmt hx, hkind, linksOfStmt, ht]
    | declared hx hkind | thenBranch hx hkind | elseBranch hx hkind | loopBody hx hkind =>
      simp [successors_stmt hx, hkind, linksOfStmt]

/-- The successors of a module are its symbols. -/
theorem mem_successors_module {k : ModuleId} : m ∈ p.successors (.module k) ↔
    ∃ x t, p.module? k = some x ∧ t ∈ x.symbols ∧ m = .symbol t := by
  cases hx : p.module? k <;> simp [successors, symbolList?, hx, eq_comm]

/-- What is at the end of a chain is alive if its front is.  By induction on the chain: all symbols
on it stand, and a statement on it exists because it brings along what comes next. -/
theorem alive_of_chain : ∀ {ns : List NodeId} {n : NodeId}, p.Alive n → (n :: ns).IsChain p.Link →
    (∀ t, .symbol t ∈ n :: ns → p.Stands t) → (n :: ns).getLast? = some (.symbol s) →
    p.Alive (.symbol s)
  | [], n, halive, _, _, hlast => by
    obtain rfl : n = .symbol s := by simpa using hlast
    exact halive
  | m :: ns, n, halive, hchain, hstands, hlast => by
    obtain ⟨hlink, hrest⟩ := List.isChain_cons_cons.mp hchain
    have hlive : p.isLive m = true := by
      cases m with
      | symbol t => exact isLive_symbol.mpr (hstands t (by simp))
      | stmt t =>
        cases hrest with
        | singleton => simp at hlast
        | cons_cons hlink _ => exact hlink.source.1
      | _ => cases hlink
    refine alive_of_chain (halive.successor ((mem_successors hlink.source.2).mpr hlink) hlive) hrest
      (fun t ht => hstands t (List.mem_cons_of_mem n ht)) ?_
    rwa [List.getLast?_cons_cons] at hlast

/-- What is alive is at the end of a chain.  By induction on what keeps it alive, which is the last
link. -/
theorem chain_of_alive (h : p.Alive n) (hmodule : ∀ k, n ≠ .module k) (hexpr : ∀ e, n ≠ .expr e) :
    ∃ ns : List NodeId, ns.IsChain p.Link ∧
      (∃ m x t, p.module? m = some x ∧ t ∈ x.symbols ∧ ns.head? = some (.symbol t)) ∧
      ns.getLast? = some n ∧ ∀ t, .symbol t ∈ ns → p.Stands t := by
  induction h with
  | module _ => exact absurd rfl (hmodule _)
  | @held pos n howner hheld hlive ih =>
    have hsucc := successor_of_heldAt? hheld hexpr
    have hstands : ∀ t, n = .symbol t → p.Stands t := by
      rintro t rfl
      exact isLive_symbol.mp hlive
    by_cases hpos : ∃ k, pos.owner = .module k
    · obtain ⟨k, hk⟩ := hpos
      obtain ⟨x, t, hx, ht, rfl⟩ := mem_successors_module.mp (hk ▸ hsucc)
      exact ⟨[.symbol t], .singleton _, ⟨k, x, t, hx, ht, rfl⟩, rfl, fun u hu =>
        hstands u (List.mem_singleton.mp hu).symm⟩
    · have hpos' : ∀ k, pos.owner ≠ .module k := fun k hk => hpos ⟨k, hk⟩
      obtain ⟨ns, hchain, ⟨m, x, t, hx, ht, hhead⟩, hlast, hall⟩ :=
        ih hpos' (not_expr_of_successor hsucc)
      have hlink := (mem_successors hpos').mp hsucc
      refine ⟨ns ++ [n], List.isChain_append.mpr ⟨hchain, .singleton _, ?_⟩,
        ⟨m, x, t, hx, ht, ?_⟩, by simp, fun u hu => ?_⟩
      · rintro k hk l hl
        obtain rfl := Option.some.inj (hlast.symm.trans hk)
        obtain rfl := Option.some.inj hl
        exact hlink
      · rw [List.head?_append, hhead]
        rfl
      · rcases List.mem_append.mp hu with hu | hu
        · exact hall u hu
        · exact hstands u (List.mem_singleton.mp hu).symm

/-- The symbols that are alive are those at the end of a chain. -/
theorem alive_iff_declares : p.Alive (.symbol s) ↔ p.Declares s := by
  refine ⟨fun h => chain_of_alive h (by simp) (by simp), ?_⟩
  rintro ⟨ns, hchain, ⟨m, x, t, hx, ht, hhead⟩, hlast, hstands⟩
  obtain ⟨ns, rfl⟩ := List.head?_eq_some_iff.mp hhead
  have hmodule : p.Alive (.module m) := .module (by simp [has, hx])
  have hlive : p.isLive (.symbol t) = true := isLive_symbol.mpr (hstands t List.mem_cons_self)
  exact alive_of_chain (hmodule.successor (mem_successors_module.mpr ⟨x, t, hx, ht, rfl⟩) hlive)
    hchain hstands hlast

/-! ## What a walk met -/

section

variable {modules : List ModuleId} {ts : List Tree}

/-- A symbol was removed. -/
def Removed (p : Program) (s : SymbolId) : Prop := ∃ x, p.symbol? s = some x ∧ x.removed = true

/-- A symbol that was removed is not live. -/
theorem Removed.not_isLive (h : p.Removed s) : p.isLive (.symbol s) = false := by
  obtain ⟨x, hx, hremoved⟩ := h
  simp [isLive, hx, hremoved]

/-- Where modules unfold to trees, and all modules are among them, what is alive is what is reached
and does not stand below a removed symbol, or is one. -/
theorem alive_iff_reaches_past_removed (hts : p.Unfolds modules ts)
    (hall : ∀ m ∈ p.moduleIds, m ∈ modules) : p.Alive n ↔ p.Reaches modules n ∧
      ∀ t, p.Reaches modules (.symbol t) → p.Removed t → ¬ ReflTransGen p.Owns (.symbol t) n := by
  have hforest := isForest_of_unfolds hts
  constructor
  · intro h
    induction h with
    | module hm =>
      refine ⟨.root (hall _ (mem_moduleIds hm)), fun t _ _ hbelow => ?_⟩
      obtain hself | ⟨_, _, pos, _, hheld⟩ := hbelow.cases_tail
      · cases hself
      · exact ne_module_of_heldAt? hheld _ rfl
    | @held pos n howner hheld hlive ih =>
      refine ⟨.held ih.1 hheld, fun t ht hremoved hbelow => ?_⟩
      obtain rfl | ⟨k, hk, pos', rfl, hheld'⟩ := hbelow.cases_tail
      · rw [hremoved.not_isLive] at hlive
        cases hlive
      · -- in a forest, what holds it is what it is alive through
        obtain rfl := hforest.alone ih.1 (ht.owned hk) hheld hheld'
        exact ih.2 t ht hremoved hk
  · rintro ⟨hreach, hpast⟩
    induction hreach with
    | root hm => exact .module (hts.bears.has ((reaches_iff hts).mp (.root hm)))
    | @held pos n howner hheld ih =>
      have hhas : p.has n = true := hforest.exist howner hheld
      refine .held (ih fun t ht hremoved hbelow =>
        hpast t ht hremoved (hbelow.tail ⟨pos, rfl, hheld⟩)) hheld ?_
      cases n with
      | symbol s =>
        by_contra hdead
        obtain ⟨x, hx⟩ : ∃ x, p.symbol? s = some x := Option.isSome_iff_exists.mp hhas
        exact hpast s (.held howner hheld) ⟨x, hx, by simpa [isLive, hx] using hdead⟩ .refl
      | _ => exact hhas

end

open Walk in
/-- What the search finds, in a program of any shape.  The search comes to one end, and the symbols
in what it finds are those that a chain leads to from a module.  And where a walk that only looks
goes through all modules and ends well, they are the symbols it met but those that were removed or
stand below one that was. -/
theorem declared_chains (p : Program) :
    (∀ found, p.Searches (p.moduleIds.map .module) .empty found ↔ found = p.declaredNodes) ∧
    (∀ s, p.declaredNodes.contains (.symbol s) = true ↔ p.Declares s) ∧
    ∀ {σ : Type} (o : Observer σ) (modules : List ModuleId) (own : σ) (st : WalkState σ),
      p.moduleIds ⊆ modules →
      exec (modules.forM fun m => run o.toHooks (.module m)) ⟨.start, ⟨p, own⟩⟩ = (.ok (), st) →
      ∀ s, p.declaredNodes.contains (.symbol s) = true ↔
        st.trail.seen.contains (.symbol s) = true ∧ ¬ p.Removed s ∧
          ∀ t, st.trail.seen.contains (.symbol t) = true → p.Removed t →
            ¬ TransGen p.Owns (.symbol t) (.symbol s) := by
  refine ⟨fun _ => searches_iff, fun s => ?_, fun o modules own st hall hwalk s => ?_⟩
  · rw [contains_declaredNodes (by simp), alive_iff_declares]
  · obtain ⟨ts, hroots, hthrough⟩ := through_of_modules hwalk
    have hts : p.Unfolds modules ts := ⟨hroots, hthrough.bears, hthrough.nodup⟩
    have hseen : ∀ n, st.trail.seen.contains n = true ↔ p.Reaches modules n := fun n => by
      rw [hthrough.seen, reaches_iff hts]
      simp [Trail.start]
    rw [contains_declaredNodes (by simp), alive_iff_reaches_past_removed hts fun _ hm => hall hm]
    simp only [hseen]
    refine and_congr_right fun hreach => ⟨fun hpast => ⟨fun hs => hpast s hreach hs .refl,
      fun t ht hremoved hbelow => hpast t ht hremoved hbelow.to_reflTransGen⟩, ?_⟩
    rintro ⟨hs, hpast⟩ t ht hremoved hbelow
    obtain hself | hbelow := reflTransGen_iff_eq_or_transGen.mp hbelow
    · cases hself
      exact hs hremoved
    · exact hpast t ht hremoved hbelow

/-- A function with a local variable, and a removed type with a member. -/
def retired : Program where
  modules := #[⟨"m", "m.w", none, [⟨0⟩, ⟨2⟩]⟩]
  symbols := #[.new "f" (.func [] none [⟨0⟩]) 1, .new "v" (.var none) 2,
    { Symbol.new "T" (.type [⟨3⟩]) 3 with removed := true }, .new "x" (.var none) 3]
  stmts := #[.new (.decl ⟨1⟩ none) 2]
  exprs := #[]

open Walk in
/-- The variable is still declared.  The member was met and is not, as the type is removed. -/
theorem declared_chains_retired :
    retired.Declares ⟨1⟩ ∧ ¬ retired.Declares ⟨3⟩ ∧
    ∃ st, exec (retired.moduleIds.forM fun m => run silent.toHooks (.module m))
        ⟨.start, ⟨retired, ()⟩⟩ = (.ok (), st) ∧
      st.trail.seen.contains (.symbol ⟨3⟩) = true ∧
      ∀ t, st.trail.seen.contains (.symbol t) = true → retired.Removed t →
        ¬ TransGen retired.Owns (.symbol t) (.symbol ⟨1⟩) := by
  obtain ⟨_, hchains, hwalks⟩ := declared_chains retired
  have hv : retired.declaredNodes.contains (.symbol ⟨1⟩) = true := by decide +kernel
  have hx : retired.declaredNodes.contains (.symbol ⟨3⟩) = false := by decide +kernel
  have hok : survey retired.moduleIds retired = .ok () := by decide +kernel
  have hmet : (exec (retired.moduleIds.forM fun m => run silent.toHooks (.module m))
      ⟨.start, ⟨retired, ()⟩⟩).2.trail.seen.contains (.symbol ⟨3⟩) = true := by decide +kernel
  refine ⟨(hchains _).mp hv, fun h => ?_, ?_⟩
  · rw [(hchains _).mpr h] at hx
    cases hx
  · rw [survey] at hok
    rcases hwalk : exec (retired.moduleIds.forM fun m => run silent.toHooks (.module m))
      ⟨.start, ⟨retired, ()⟩⟩ with ⟨_ | ⟨⟩, st⟩
    · rw [hwalk] at hok
      cases hok
    · rw [hwalk] at hmet
      exact ⟨st, rfl, hmet, ((hwalks silent _ () st (fun _ h => h) hwalk ⟨1⟩).mp hv).2.2⟩

end Program

end MiddleEnd
