import MiddleEnd.Proofs.Normalize.Exprs

/-!
# MiddleEnd.Proofs.Normalize.Lists

The pass on lists: if visiting one symbol or statement makes of it what its tree is rewritten to,
then so does visiting a list of them.  The rewriting of single trees is in
`MiddleEnd.Proofs.Normalize.Stmts`.

Symbols and branches keep their place, so nothing but the nodes below them changes.  An entry of a
list of statements may leave the list or be preceded by a declaration: what is said of it is what
the walk of the list goes on from.
-/

namespace MiddleEnd.Normalize

open MiddleEnd.Tree Walk

/-- Where nothing outside the trees that are visited changes. -/
def nowhere : NodeId → Prop := fun _ => False

/-- What changes outside the trees may be said of more nodes. -/
theorem Yields.mono {E H K : NodeId → Prop} {st st' : WalkState Normalizer} {us : List Tree}
    (h : Yields E H st st' us) (hHK : ∀ n, H n → K n) : Yields E K st st' us :=
  ⟨⟨h.moved.rules, h.moved.frame.mono fun n hn => hn.imp_right (hHK n), h.moved.unseen,
    h.moved.seen, h.moved.exist⟩, h.level, h.bears, h.records, h.nodup, h.nodes⟩

theorem Yields.widen {E H : NodeId → Prop} {st st' : WalkState Normalizer} {us : List Tree}
    (h : Yields E nowhere st st' us) : Yields E H st st' us := h.mono fun _ => False.elim

/-- Trees that are not visited yet are ready with no node at work. -/
theorem Ready.alone {H : NodeId → Prop} {st : WalkState Normalizer} {ts : List Tree}
    (h : Ready H st ts) : Ready nowhere st ts := h.held_mono fun _ => False.elim

/-- Trees are rebuilt one after another. -/
theorem rebuilt_cons {st st₁ st₂ : WalkState Normalizer} {t u : Tree} {ts : List Tree}
    (hu : (rebuild st.scene.own.rules 0 none t).run (supplyOf st.scene) = (u, supplyOf st₁.scene))
    (hbecomes : Becomes nowhere st st₁ [t] [u])
    (hrest : ∃ us, (rebuildAll st₁.scene.own.rules ts).run (supplyOf st₁.scene) =
      (us, supplyOf st₂.scene) ∧ Becomes nowhere st₁ st₂ ts us) :
    ∃ us, (rebuildAll st.scene.own.rules (t :: ts)).run (supplyOf st.scene) =
      (us, supplyOf st₂.scene) ∧ Becomes nowhere st st₂ (t :: ts) us := by
  obtain ⟨us, hus, hbecomes₂⟩ := hrest
  refine ⟨u :: us, ?_, hbecomes.trans hbecomes₂ fun _ => False.elim⟩
  rw [hbecomes.moved.rules] at hus
  simp only [rebuildAll, run_bind, run_pure, hu, hus]

/-! ## Symbols -/

/-- Visiting the symbol makes of it what its tree is rewritten to. -/
def SymbolGoes (t : Tree) : Prop :=
  ∀ (st : WalkState Normalizer) (s : SymbolId), t.id = .symbol s → Ready nowhere st [t] →
    Ends (Walk.run hooks (.symbol s)) st fun st' => ∃ u,
      (rebuild st.scene.own.rules 0 none t).run (supplyOf st.scene) = (u, supplyOf st'.scene) ∧
        Becomes nowhere st st' [t] [u]

section

variable {list : SymbolList} {ts : List Tree}

/-- The symbols of a list are visited one after another. -/
theorem symbolsFrom_go (hts : ∀ t ∈ ts, SymbolGoes t) :
    ∀ (st : WalkState Normalizer) (c : Cell) (front back : List SymbolId)
      (cursor : Cursor SymbolId), Ready (· = list.node) st ts →
      st.scene.program.cell? list.node = some c → c.symbols = (front ++ back).map .symbol →
      ts.map Tree.id = back.map .symbol → cursor.Splits front back →
      Ends (Walk.run hooks (.symbolsFrom list cursor)) st fun st' => ∃ us,
        (rebuildAll st.scene.own.rules ts).run (supplyOf st.scene) = (us, supplyOf st'.scene) ∧
          Becomes nowhere st st' ts us := by
  induction ts with
  | nil =>
    intro st c front back cursor _ hc hsymbols hback hsplits
    obtain rfl : back = [] := by simpa using hback.symm
    have hlist : st.scene.program.symbolsIn list = front ++ [] := by
      rw [← map_symbol_inj, ← Program.symbols_of_cell? _ hc, hsymbols]
    exact .of_exec (exec_symbolsFrom_nil hlist hsplits)
      ⟨[], by rw [rebuildAll, run_pure], .refl _ st⟩
  | cons t ts ih =>
    intro st c front back cursor hready hc hsymbols hback hsplits
    have hnodup := nodup_of_roots hready.nodup hback
    obtain ⟨s, back, rfl, hs, hback⟩ : ∃ s rest, back = s :: rest ∧ t.id = .symbol s ∧
        ts.map Tree.id = rest.map .symbol := by
      obtain ⟨s, rest, rfl, hs, hrest⟩ := List.map_eq_cons_iff.mp hback.symm
      exact ⟨s, rest, rfl, hs.symm, hrest.symm⟩
    have hlist : st.scene.program.symbolsIn list = front ++ s :: back := by
      rw [← map_symbol_inj, ← Program.symbols_of_cell? _ hc, hsymbols]
    have hnew : s ∉ back := (List.nodup_cons.mp hnodup).1
    refine .congr ?_ (exec_symbolsFrom_cons hlist hsplits.next)
    have hfirst := hts t List.mem_cons_self st s hs hready.head.alone
    refine hfirst.bind (larger_local.run _) ?_
    rintro st₁ ⟨u, hu, hbecomes⟩
    have hc₁ := (hbecomes.moved.held_cell hready.sound (hready.held _ rfl) id).trans hc
    refine (ih (fun t ht => hts t (List.mem_cons_of_mem _ ht)) st₁ c (front ++ [s]) back _
      (Becomes.ready hbecomes.widen hready) hc₁ (by simpa using hsymbols) hback
      (hsplits.keep hnew)).mono ?_
    exact fun st₂ => rebuilt_cons hu hbecomes

/-- A list of symbols is visited. -/
theorem symbols_go (list : SymbolList) (hts : ∀ t ∈ ts, SymbolGoes t) {st : WalkState Normalizer}
    {c : Cell}
    (hready : Ready (· = list.node) st ts) (hc : st.scene.program.cell? list.node = some c)
    (hsymbols : c.symbols = ts.map Tree.id) :
    Ends (Walk.run hooks (.symbols list)) st fun st' => ∃ us,
      (rebuildAll st.scene.own.rules ts).run (supplyOf st.scene) = (us, supplyOf st'.scene) ∧
        Becomes nowhere st st' ts us := by
  have hlist : ts.map Tree.id = (st.scene.program.symbolsIn list).map .symbol := by
    rw [← hsymbols, Program.symbols_of_cell? _ hc]
  have hnodup : (st.scene.program.symbolsIn list).Nodup :=
    List.Nodup.of_map _ (hlist ▸ nodup_roots hready.nodup)
  refine .congr ?_ (exec_symbols hnodup)
  exact symbolsFrom_go hts st c [] _ _ hready hc (by rw [hsymbols, hlist]; rfl) hlist
    (Cursor.splits_start _)

end

/-! ## Branches -/

/-- Visiting a branch that is not to be wrapped makes of it what its tree is rewritten to. -/
def BranchGoes (t : Tree) : Prop :=
  ∀ (st : WalkState Normalizer) (owner : StmtId) (which : Branch) (s : StmtId),
    st.scene.program.stmtAt? (.branch owner which) = some s → t.id = .stmt s →
    wrapped st.scene.own.rules t = false → Ready nowhere st [t] →
    Ends (Walk.run hooks (.stmt (.branch owner which))) st fun st' => ∃ u,
      (rebuild st.scene.own.rules 0 none t).run (supplyOf st.scene) = (u, supplyOf st'.scene) ∧
        Becomes nowhere st st' [t] [u]

/-- Visiting places that hold nothing does nothing. -/
theorem exec_places_none {st : WalkState Normalizer} {places : List StmtPlace}
    (h : ∀ place ∈ places, st.scene.program.stmtAt? place = none) :
    exec (places.forM fun place => Walk.run hooks (.stmt place)) st = (.ok (), st) := by
  induction places with
  | nil => rfl
  | cons place places ih =>
    have hfirst : exec (Walk.run hooks (.stmt place)) st = (.ok (), st) := by
      rw [run_eq, visit_stmt, exec_bind_ok (exec_program st), h place List.mem_cons_self]
      rfl
    exact (exec_bind_ok hfirst).trans (ih fun p hp => h p (List.mem_cons_of_mem place hp))

/-- The branches of a statement from some position on are visited one after another. -/
theorem branches_go {s : StmtId} {head : StmtHead} {line : UInt32} {ts : List Tree}
    (hts : ∀ t ∈ ts, BranchGoes t) :
    ∀ (whichs : List Branch) (front : List NodeId) (c : Cell) (st : WalkState Normalizer),
      (∀ t ∈ ts, wrapped st.scene.own.rules t = false) → Ready (· = .stmt s) st ts →
      st.scene.program.cell? (.stmt s) = some c → c.label = .stmt head line →
      (∀ which ∈ whichs, which ∈ head.branches) →
      whichs.map Branch.index = List.range' front.length whichs.length →
      c.stmts = front ++ ts.map Tree.id → ts.length ≤ whichs.length →
      Ends ((whichs.map (StmtPlace.branch s)).forM fun place => Walk.run hooks (.stmt place)) st
        fun st' => ∃ us,
          (rebuildAll st.scene.own.rules ts).run (supplyOf st.scene) = (us, supplyOf st'.scene) ∧
            Becomes nowhere st st' ts us := by
  induction ts with
  | nil =>
    intro whichs front c st _ _ hc hl hw hindex hstmts _
    refine .of_exec (exec_places_none ?_) ⟨[], by rw [rebuildAll, run_pure], .refl _ st⟩
    exact Program.stmtAt?_eq_none_of_branches hc hl hw (by simp [hstmts]) hindex
  | cons t ts ih =>
    intro whichs front c st hwrapped hready hc hl hw hindex hstmts hlen
    cases whichs with
    | nil => simp at hlen
    | cons which whichs =>
      rw [List.map_cons, List.length_cons, List.range'_succ, List.cons.injEq] at hindex
      obtain ⟨s', hat, hs'⟩ : ∃ s', st.scene.program.stmtAt? (.branch s which) = some s' ∧
          t.id = .stmt s' := by
        have hat := Program.branch_of_cell? hc hl (hw which List.mem_cons_self)
        rw [hstmts, hindex.1] at hat
        obtain ⟨s', hs', hid⟩ := Option.map_eq_some_iff.mp (hat.trans (by simp : _ = some t.id))
        exact ⟨s', hs', hid.symm⟩
      have hfirst := hts t List.mem_cons_self st s which s' hat hs'
        (hwrapped t List.mem_cons_self) hready.head.alone
      refine hfirst.bind (larger_local.forM (fun place => larger_local.run (.stmt place)) _) ?_
      rintro st₁ ⟨u, hu, hbecomes⟩
      have hc₁ := (hbecomes.moved.held_cell hready.sound (hready.held _ rfl) id).trans hc
      have hrest := ih (fun t ht => hts t (List.mem_cons_of_mem _ ht)) whichs (front ++ [t.id]) c
        st₁ (fun u hu => hbecomes.moved.rules ▸ hwrapped u (List.mem_cons_of_mem t hu))
        (Becomes.ready hbecomes.widen hready) hc₁ hl
        (fun w hw' => hw w (List.mem_cons_of_mem which hw')) (by simpa using hindex.2)
        (by simpa using hstmts) (by simpa using hlen)
      refine hrest.mono ?_
      exact fun st₂ => rebuilt_cons hu hbecomes

/-! ## Entries -/

/-- The walk of a list stands in `st` between the entries `front` and `back`: the first were
visited or inserted by now, the others are next. -/
structure Stands (st : WalkState Normalizer) (list : StmtList) (c : Cell) (cursor : Cursor StmtId)
    (front back : List StmtId) : Prop where
  cell : st.scene.program.cell? list.node = some c
  fits : list.Fits c.label
  entries : c.stmts = (front ++ back).map .stmt
  splits : cursor.Splits front back
  seen : ∀ x ∈ front ++ cursor.handed, st.trail.seen.contains (.stmt x) = true

/-- A list holds what was visited and what is next. -/
theorem Stands.stmtsIn {st : WalkState Normalizer} {list : StmtList} {c : Cell}
    {cursor : Cursor StmtId} {front back : List StmtId} (h : Stands st list c cursor front back) :
    st.scene.program.stmtsIn list = front ++ back := by
  rw [← map_stmt_inj, ← Program.stmts_of_cell? _ h.cell h.fits, h.entries]

/-- The walk of a list goes on from the entry `t` to what comes after what it was rewritten to, if
the program that all of it leaves is addressable. -/
def EntryGoes (t : Tree) : Prop :=
  ∀ (st : WalkState Normalizer) (list : StmtList) (c : Cell) (cursor : Cursor StmtId)
    (front back : List StmtId) (s : StmtId), t.id = .stmt s → Ready (· = list.node) st [t] →
    Stands st list c cursor front (s :: back) → s ∉ back →
    (∀ x ∈ back, st.scene.program.has (.stmt x) = true) →
    (exec (Walk.run hooks (.stmtsFrom list cursor)) st).2.scene.program.Addressable →
    ∃ st' us ids cursor',
      exec (Walk.run hooks (.stmtsFrom list cursor)) st =
          exec (Walk.run hooks (.stmtsFrom list cursor')) st' ∧
        (entryOf st.scene.own.rules t fun block temp? =>
          rebuild st.scene.own.rules block temp? t).run (supplyOf st.scene) =
            (us, supplyOf st'.scene) ∧
        us.map Tree.id = ids.map .stmt ∧ Becomes (· = list.node) st st' [t] us ∧
        st'.scene.program.backs? list.node = st.scene.program.backs? list.node ∧
        Stands st' list { c with stmts := (front ++ ids ++ back).map .stmt } cursor' (front ++ ids)
          back

section

variable {list : StmtList} {ts : List Tree}

/-- The entries of a list are visited one after another. -/
theorem stmtsFrom_go (hts : ∀ t ∈ ts, EntryGoes t) :
    ∀ (st : WalkState Normalizer) (c : Cell) (front back : List StmtId) (cursor : Cursor StmtId),
      Ready (· = list.node) st ts → ts.map Tree.id = back.map .stmt →
      Stands st list c cursor front back →
      Ends (Walk.run hooks (.stmtsFrom list cursor)) st fun st' => ∃ us,
        (rebuildEntries st.scene.own.rules ts).run (supplyOf st.scene) =
            (us, supplyOf st'.scene) ∧
          Becomes (· = list.node) st st' ts us ∧
          Owns list.node { c with stmts := front.map .stmt ++ us.map Tree.id } st st' := by
  induction ts with
  | nil =>
    intro st c front back cursor _ hback hstands
    obtain rfl : back = [] := by simpa using hback.symm
    refine .of_exec (exec_stmtsFrom_nil hstands.stmtsIn hstands.splits)
      ⟨[], by rw [rebuildEntries, run_pure], .refl _ st, ?_, rfl⟩
    have hentries := hstands.entries
    rw [List.append_nil] at hentries
    rw [hstands.cell, List.map_nil, List.append_nil, ← hentries]
  | cons t ts ih =>
    intro st c front back cursor hready hback hstands
    have hnodup := nodup_of_roots hready.nodup hback
    obtain ⟨s, back, rfl, hs, hback⟩ : ∃ s rest, back = s :: rest ∧ t.id = .stmt s ∧
        ts.map Tree.id = rest.map .stmt := by
      obtain ⟨s, rest, rfl, hs, hrest⟩ := List.map_eq_cons_iff.mp hback.symm
      exact ⟨s, rest, rfl, hs.symm, hrest.symm⟩
    have hnew : s ∉ back := (List.nodup_cons.mp hnodup).1
    have hhas : ∀ x ∈ back, st.scene.program.has (.stmt x) = true := by
      intro x hx
      obtain ⟨u, hu, hid⟩ := List.mem_map.mp (hback ▸ List.mem_map_of_mem hx)
      exact hready.bears.has (hid ▸ id_mem_nodesOf (List.mem_cons_of_mem t hu))
    intro haddr
    obtain ⟨st₁, us, ids, cursor', hexec, hus, hids, hbecomes, hbacks, hstands₁⟩ :=
      hts t List.mem_cons_self st list c cursor front back s hs hready.head
        hstands hnew hhas haddr
    rw [hexec] at haddr ⊢
    obtain ⟨st₂, h₂, vs, hvs, hbecomes₂, howns⟩ :=
      ih (fun t ht => hts t (List.mem_cons_of_mem _ ht)) st₁ _ _ back cursor'
        (hbecomes.ready hready) hback hstands₁ haddr
    refine ⟨st₂, h₂, us ++ vs, ?_, hbecomes.trans hbecomes₂ hready.held, ?_, ?_⟩
    · rw [hbecomes.moved.rules] at hvs
      simp only [rebuildEntries, run_bind, run_pure, hus, hvs]
    · rw [howns.cell]
      simp [hids]
    · rw [howns.backs, hbacks]

/-- A list of statements is visited. -/
theorem stmts_go (list : StmtList) (hts : ∀ t ∈ ts, EntryGoes t) {st : WalkState Normalizer}
    {c : Cell}
    (hready : Ready (· = list.node) st ts) (hc : st.scene.program.cell? list.node = some c)
    (hfits : list.Fits c.label) (hstmts : c.stmts = ts.map Tree.id) :
    Ends (Walk.run hooks (.stmts list)) st fun st' => ∃ us,
      (rebuildEntries st.scene.own.rules ts).run (supplyOf st.scene) = (us, supplyOf st'.scene) ∧
        Becomes (· = list.node) st st' ts us ∧
        Owns list.node { c with stmts := us.map Tree.id } st st' := by
  have hlist : ts.map Tree.id = (st.scene.program.stmtsIn list).map .stmt := by
    rw [← hstmts, Program.stmts_of_cell? _ hc hfits]
  have hnodup : (st.scene.program.stmtsIn list).Nodup :=
    List.Nodup.of_map _ (hlist ▸ nodup_roots hready.nodup)
  refine .congr ?_ (exec_stmts hnodup)
  exact stmtsFrom_go hts st c [] _ _ hready hlist
    ⟨hc, hfits, hstmts.trans hlist, Cursor.splits_start _, by simp [Cursor.start]⟩

end

end MiddleEnd.Normalize
