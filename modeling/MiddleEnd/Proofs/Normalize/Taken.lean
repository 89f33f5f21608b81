import MiddleEnd.Proofs.Normalize.Origin
import MiddleEnd.Proofs.Normalize.Rooted

/-!
# MiddleEnd.Proofs.Normalize.Taken

What becomes of a node where it is entered and its first hook is called, on any program whatsoever.
The pass edits the node and the one that owns it, and takes nothing else out of the owner
(`Spares`).  So whatever was rooted stays rooted, and the node is rooted or hollow or owns nothing
(`Takes`).  `standing_scoped` concludes that a whole run keeps the nodes that were entered as
`Standing` says, and that what they own they keep (`Lasts`).
-/

namespace MiddleEnd

open Walk

namespace Normalize

/-! ## Edits of a node and its owner -/

/-- From `p` to `q` nothing changed but `n` and its owner `k`, and this lost nothing but `n`. -/
structure Spares (n k : NodeId) (p q : Program) : Prop where
  frame : Program.Extends (fun m => m = n ∨ m = k) p q
  count : ∀ m, m ≠ n → (p.childrenOf k).count m ≤ (q.childrenOf k).count m
  isParen : ∀ m, m = n ∨ m = k → q.isParen m = p.isParen m

namespace Spares

variable {p q q' : Program} {n k : NodeId}

theorem refl (n k : NodeId) (p : Program) : Spares n k p p :=
  ⟨.refl _ _, fun _ _ => Nat.le_refl _, fun _ _ => rfl⟩

/-- What is spared in two stretches is spared in both together. -/
theorem trans (h : Spares n k p q) (h' : Spares n k q q') : Spares n k p q' where
  frame := h.frame.trans h'.frame
  count m hm := Nat.le_trans (h.count m hm) (h'.count m hm)
  isParen m hm := (h'.isParen m hm).trans (h.isParen m hm)

/-- No node becomes a parenthesis or stops to be one. -/
theorem isParen_eq {m : NodeId} (h : Spares n k p q) (hm : p.has m = true) :
    q.isParen m = p.isParen m := by
  by_cases hchanged : m = n ∨ m = k
  · exact h.isParen m hchanged
  · exact Program.isParen_congr (h.frame.cell hm hchanged)

/-- Recording back-references spares everything. -/
theorem of_cells (hcells : ∀ m, q.cell? m = p.cell? m)
    (hframe : Program.Extends (fun m => m = n ∨ m = k) p q) : Spares n k p q where
  frame := hframe
  count m _ := by rw [Program.childrenOf, Program.childrenOf, hcells]
  isParen m _ := Program.isParen_congr (hcells m)

/-- The owner is overwritten with what it was but for some of what it owns. -/
theorem of_put {c c' : Cell} {b : Backs} (hput : Program.Put p q k c' b) (hc : p.cell? k = some c)
    (hlabel : c'.label = c.label) (hcount : ∀ m, m ≠ n → c.children.count m ≤ c'.children.count m) :
    Spares n k p q where
  frame := hput.frame fun _ => .inr rfl
  count m hm := by
    rw [Program.childrenOf_of_cell? hc, Program.childrenOf_of_cell? hput.cell_self]
    exact hcount m hm
  isParen m _ := by
    by_cases hm : m = k
    · rw [hm, Program.isParen, Program.isParen, hput.cell_self, hc, Option.any_some,
        Option.any_some, hlabel]
    · exact Program.isParen_congr (hput.cell_ne hm)

end Spares

theorem isParen_stmt (p : Program) (s : StmtId) : p.isParen (.stmt s) = false := by
  by_contra h
  obtain ⟨_, _, he, _⟩ := Program.exists_encloses (by simpa using h)
  cases he

/-- What holds a statement is no parenthesis. -/
theorem isParen_holder (p : Program) (place : StmtPlace) : p.isParen place.holder = false := by
  by_contra h
  obtain ⟨_, _, he, _⟩ := Program.exists_encloses (by simpa using h)
  rcases place with ⟨_ | _, _⟩ | _ <;> cases he

section

variable {s : StmtId} {place : StmtPlace} {scene : Scene Normalizer}

/-- To drop a statement takes it from its owner. -/
theorem spares_dropNop (s : StmtId) (place : StmtPlace) (scene : Scene Normalizer) :
    Spares (.stmt s) place.holder scene.program (dropNop s place scene).program := by
  rcases dropNop_cases s place scene with hself | ⟨list, ch, b, q, hlist, hch, hfits, hput, heq⟩
  · rw [hself]
    exact .refl _ _ _
  · rw [heq, StmtPlace.holder_of_list? hlist]
    refine .of_put hput hch rfl fun m hm => ?_
    simp only [Cell.children, List.count_append]
    rw [map_stmt_filter, ← Program.stmts_of_cell? _ hch hfits,
      List.count_filter (by simpa using hm)]

/-- To wrap branches touches nothing but the statement. -/
theorem spares_wrapBranches (hhas : scene.program.has (.stmt s) = true)
    (hne : place.holder ≠ .stmt s) (hholder : scene.program.has place.holder = true)
    (haddr : (applyIf scene.own.rules.wrapBranches (wrapBranches s) scene).program.Addressable) :
    Spares (.stmt s) place.holder scene.program
      (applyIf scene.own.rules.wrapBranches (wrapBranches s) scene).program := by
  obtain ⟨c, hc⟩ := Program.exists_cell? hhas
  obtain ⟨ys, news, hboxed⟩ := boxed_wrapBranches hc haddr
  refine ⟨hboxed.frame.mono fun m hm => .inl hm, fun m _ => ?_, fun m hm => ?_⟩
  · rw [hboxed.frame.childrenOf hholder hne]
  · rcases hm with rfl | rfl
    · rw [isParen_stmt, isParen_stmt]
    · rw [isParen_holder, isParen_holder]

/-- To move a condition adds to the owner's list and takes nothing from it. -/
theorem spares_hoistCondition (haddr : (hoistCondition s place scene).program.Addressable) :
    Spares (.stmt s) place.holder scene.program (hoistCondition s place scene).program := by
  rcases hoistedFrom_hoistCondition haddr with
    hself | ⟨c, list, ch, front, back, cond, line, temp, hplace, h⟩
  · rw [hself]
    exact .refl _ _ _
  refine ⟨?_, fun m hm => ?_, fun m hm => ?_⟩
  · rw [StmtPlace.holder_of_list? hplace]
    exact h.hoists.frame
  · rw [StmtPlace.holder_of_list? hplace, Program.childrenOf_of_cell? h.owner,
      Program.childrenOf_of_cell? h.hoists.listCell]
    simp only [Cell.children, Program.stmts_of_cell? _ h.owner h.fits, h.entries, List.map_append,
      List.map_cons, List.count_append, List.count_cons]
    omega
  · rcases hm with rfl | rfl
    · rw [isParen_stmt, isParen_stmt]
    · rw [isParen_holder, isParen_holder]

/-- All rules together take nothing from the owner but the statement. -/
theorem spares_rewriteStmt {isNop : Bool} (hhas : scene.program.has (.stmt s) = true)
    (hne : place.holder ≠ .stmt s) (hholder : scene.program.has place.holder = true)
    (haddr : (rewriteStmt s place isNop scene).program.Addressable) :
    Spares (.stmt s) place.holder scene.program (rewriteStmt s place isNop scene).program := by
  obtain ⟨c, hc⟩ := Program.exists_cell? hhas
  have hput : Program.Put scene.program (marked s scene).program (.stmt s) c _ :=
    Program.put_stmtParents hc _ _
  exact rewriteStmt_steps haddr (.of_cells (cell?_of_put hput hc) (hput.frame fun _ => .inl rfl))
    (fun _ _ scene' _ h => h.trans (spares_dropNop s place scene'))
    (fun _ hlarger h haddr' => h.trans
      (spares_wrapBranches (hlarger.has _ hhas) hne (hlarger.has _ hholder) haddr'))
    fun _ _ _ h haddr' => h.trans (spares_hoistCondition haddr')

end

/-! ## Entering a node -/

variable {modules : List ModuleId} {st st' : WalkState Normalizer} {k : NodeId}

/-- What became of a node where its first hook was called: its owner `k` holds it, or it owns
nothing, or it is hollow, and the owner holds what it encloses. -/
inductive Fate (c : Call) (k : NodeId) (st : WalkState Normalizer) : Prop where
  | stays (hheld : c.node ∈ st.scene.program.childrenOf k) (hsolid : ¬ Hollow st c.node)
  | dropped {s : StmtId} (hstmt : c.node = .stmt s)
      (hnone : st.scene.program.childrenOf c.node = [])
  | flattened {e inner : ExprId} {place : ExprPlace} (hcall : c = .preExpr e place)
      (hhollow : Hollow st c.node) (henclose : st.scene.program.Encloses e inner)
      (hheld : .expr inner ∈ st.scene.program.childrenOf k)
      (hat : st.scene.program.exprAt? place = some inner)

/-- From `st` to `st'` a node was entered, which `k` owned, and its first hook was called. -/
structure Takes (c : Call) (k : NodeId) (st st' : WalkState Normalizer) : Prop where
  seen : st'.trail.seen = st.trail.seen.insert c.node
  larger : Larger st.scene st'.scene
  spares : Spares c.node k st.scene.program st'.scene.program
  fate : Fate c k st'

namespace Takes

variable {c : Call} {j m : NodeId}

section

variable (h : Takes c k st st')

include h

/-- What was entered stays so. -/
theorem grown (hj : st.trail.seen.contains j = true) : st'.trail.seen.contains j = true := by
  simp [h.seen, hj]

variable (hst : Sound st) (hn : st.trail.seen.contains c.node = false)

include hst hn

/-- Nothing changed in the nodes that were entered, but for the owner. -/
theorem cell_eq (hj : st.trail.seen.contains j = true) (hjk : j ≠ k) :
    st'.scene.program.cell? j = st.scene.program.cell? j := by
  refine h.spares.frame.cell (hst j hj) fun hchanged => ?_
  rcases hchanged with rfl | hjk'
  · rw [hn] at hj
    cases hj
  · exact hjk hjk'

theorem childrenOf_eq (hj : st.trail.seen.contains j = true) (hjk : j ≠ k) :
    st'.scene.program.childrenOf j = st.scene.program.childrenOf j := by
  rw [Program.childrenOf, Program.childrenOf, h.cell_eq hst hn hj hjk]

/-- An entered node keeps all that it owned but the node that is entered. -/
theorem count_le (hj : st.trail.seen.contains j = true) (hm : m ≠ c.node) :
    (st.scene.program.childrenOf j).count m ≤ (st'.scene.program.childrenOf j).count m := by
  by_cases hjk : j = k
  · exact hjk ▸ h.spares.count m hm
  · rw [h.childrenOf_eq hst hn hj hjk]

/-- An entered node keeps the others that it owned. -/
theorem mem_childrenOf (hj : st.trail.seen.contains j = true) (hm : m ≠ c.node)
    (hmem : m ∈ st.scene.program.childrenOf j) : m ∈ st'.scene.program.childrenOf j :=
  List.count_pos_iff.mp (Nat.lt_of_lt_of_le (List.count_pos_iff.mpr hmem)
    (h.count_le hst hn hj hm))

/-- What is rooted stays so. -/
theorem rooted (hj : RootedAt modules st j) : RootedAt modules st' j := by
  induction hj with
  | root hm hseen => exact .root hm (h.grown hseen)
  | @child j m hj hmem hseen ih =>
    refine .child ih (h.mem_childrenOf hst hn hj.contains (fun hmn => ?_) hmem) (h.grown hseen)
    rw [hmn, hn] at hseen
    cases hseen

omit hn in
/-- What is hollow stays so, and nothing that was entered becomes so. -/
theorem hollow_iff (hj : st.trail.seen.contains j = true) : Hollow st' j ↔ Hollow st j := by
  rw [Hollow, Hollow, h.larger.rules, h.spares.isParen_eq (hst j hj)]
  simp [h.grown hj, hj]

/-- The other nodes stay open. -/
theorem isOpen (hj : st.trail.seen.contains j = true) (hjk : j ≠ k) (hopen : Open modules st j) :
    Open modules st' j := by
  rcases hopen with ⟨hrooted, hsolid⟩ | hspent
  · exact .inl ⟨h.rooted hst hn hrooted, fun hhollow => hsolid ((h.hollow_iff hst hj).mp hhollow)⟩
  · rw [Open, h.childrenOf_eq hst hn hj hjk]
    exact .inr fun m hm => h.grown (hspent m hm)

variable (hk : RootedAt modules st k) (hsolid : ¬ Hollow st k)

include hk hsolid

/-- The owner stays open. -/
theorem isOpen_owner : Open modules st' k :=
  .inl ⟨h.rooted hst hn hk, fun hhollow => hsolid ((h.hollow_iff hst hk.contains).mp hhollow)⟩

/-- What was entered and what it is taken from are as they should be. -/
theorem standing (hstanding : Standing modules st) : Standing modules st' where
  rooted e he := by
    rw [h.seen, NodeSet.contains_insert, Bool.or_eq_true, decide_eq_true_iff] at he
    rcases he with he | he
    · rw [he]
      cases h.fate with
      | stays hheld _ => exact .inl (.child (h.rooted hst hn hk) hheld (by simp [h.seen]))
      | dropped hstmt =>
        rw [hstmt] at he
        cases he
      | flattened _ hhollow => exact .inr hhollow
    · exact (hstanding.rooted e he).imp (h.rooted hst hn) (h.hollow_iff hst he).mpr
  hollow {e inner} hhollow henclose := by
    -- what an owner held it still holds, unless it is the node that was just flattened
    have hkept : ∀ j, RootedAt modules st j → .expr inner ∈ st.scene.program.childrenOf j →
        ¬ Hollow st' (.expr inner) → .expr inner ∈ st'.scene.program.childrenOf j :=
      fun j hj hmem hinner => by
        by_cases hne : NodeId.expr inner = c.node
        · by_cases hjk : j = k
          · cases h.fate with
            | stays hheld => exact hjk ▸ hne ▸ hheld
            | dropped hstmt =>
              rw [hstmt] at hne
              cases hne
            | flattened _ hhollow => exact (hinner (hne ▸ hhollow)).elim
          · rwa [h.childrenOf_eq hst hn hj.contains hjk]
        · exact h.mem_childrenOf hst hn hj.contains hne hmem
    have hthrough : (∃ j, RootedAt modules st j ∧ ¬ Hollow st j ∧
        .expr inner ∈ st.scene.program.childrenOf j) →
        Hollow st' (.expr inner) ∨ ∃ j, RootedAt modules st' j ∧ ¬ Hollow st' j ∧
          .expr inner ∈ st'.scene.program.childrenOf j := fun ⟨j, hj, hsolid, hmem⟩ => by
      by_cases hinner : Hollow st' (.expr inner)
      · exact .inl hinner
      · exact .inr ⟨j, h.rooted hst hn hj,
          fun hhollow => hsolid ((h.hollow_iff hst hj.contains).mp hhollow),
          hkept j hj hmem hinner⟩
    by_cases hen : NodeId.expr e = c.node
    · cases h.fate with
      | stays _ hsolid => exact (hsolid (hen ▸ hhollow)).elim
      | dropped hstmt =>
        rw [hstmt] at hen
        cases hen
      | @flattened e' inner' _ hcall _ henclose' hheld =>
        obtain rfl : e = e' := NodeId.expr.inj (hen.trans (hcall ▸ rfl))
        obtain rfl : inner = inner' := by
          simpa using henclose.childrenOf.symm.trans henclose'.childrenOf
        exact .inr ⟨k, h.rooted hst hn hk,
          fun hhollow => hsolid ((h.hollow_iff hst hk.contains).mp hhollow), hheld⟩
    · have he : st.trail.seen.contains (.expr e) = true := by
        have hseen := hhollow.2.1
        rw [h.seen, NodeSet.contains_insert, Bool.or_eq_true, decide_eq_true_iff] at hseen
        exact hseen.resolve_left hen
      have hhollow' := (h.hollow_iff hst he).mp hhollow
      have hek : NodeId.expr e ≠ k := fun hek => hsolid (hek ▸ hhollow')
      rcases hstanding.hollow hhollow' (Program.encloses_congr (h.cell_eq hst hn he hek) henclose)
        with hinner | hheld
      · exact .inl ((h.hollow_iff hst hinner.2.1).mpr hinner)
      · exact hthrough hheld

omit hsolid in
/-- What was entered is open, if it is still held where it was. -/
theorem isOpen_self (hkept : ¬ c.Replaced st'.scene.program) : Open modules st' c.node := by
  cases h.fate with
  | stays hheld hsolid => exact .inl ⟨.child (h.rooted hst hn hk) hheld (by simp [h.seen]), hsolid⟩
  | dropped _ hnone => exact .inr (by simp [hnone])
  | @flattened e inner place hcall _ henclose _ hat =>
    -- a parenthesis around itself took its own place
    subst hcall
    obtain rfl : inner = e := by
      by_contra hne
      exact hkept (by simp [Call.Replaced, hat, hne])
    refine .inr fun m hm => ?_
    rw [show (Call.preExpr inner place).node = .expr inner from rfl, henclose.childrenOf,
      List.mem_singleton] at hm
    rw [hm, h.seen, NodeSet.contains_insert]
    exact Bool.or_eq_true_iff.mpr (.inl (decide_eq_true rfl))

end

end Takes

theorem Lasts.of_takes {c : Call} (hlarger : Larger st.scene st'.scene)
    (hseen : st'.trail.seen = st.trail.seen.insert c.node)
    (h : st'.scene.program.Addressable → Takes c k st st') (hst : Sound st)
    (hn : st.trail.seen.contains c.node = false) : Lasts st st' where
  larger := hlarger
  grown n hn := by simp [hseen, hn]
  count haddr j m hj hm := (h haddr).count_le hst hn hj fun hmn => by
    rw [hmn, hn] at hm
    cases hm
  isParen haddr j hj := (h haddr).spares.isParen_eq (hst j hj)

/-! ## First hooks -/

section

variable {c : Call} {scene : Scene Normalizer}

/-- Where a hook leaves the cells as they are, the node stays where it was. -/
theorem Takes.of_cells {pos : Position} (hheld : st.scene.program.heldAt? pos = some c.node)
    (hseen : st'.trail.seen = st.trail.seen.insert c.node) (hlarger : Larger st.scene st'.scene)
    (hcells : ∀ m, st'.scene.program.cell? m = st.scene.program.cell? m)
    (hframe : Program.Extends (· = c.node) st.scene.program st'.scene.program)
    (hsolid : st.scene.own.rules.flattenParens = true → st.scene.program.isParen c.node = false) :
    Takes c pos.owner st st' where
  seen := hseen
  larger := hlarger
  spares := .of_cells hcells (hframe.mono fun _ => .inl)
  fate := by
    refine .stays ?_ fun ⟨hr, _, hparen⟩ => ?_
    · rw [Program.childrenOf, hcells, ← Program.childrenOf]
      exact Program.mem_childrenOf hheld
    · rw [Program.isParen_congr (hcells _), hsolid (hlarger.rules ▸ hr)] at hparen
      cases hparen

/-- A symbol is taken where it is entered. -/
theorem takes_preSymbol {s : SymbolId} {pos : Position}
    (hheld : st.scene.program.heldAt? pos = some (.symbol s))
    (hhas : st.scene.program.has (.symbol s) = true)
    (hexec : exec (hooks.preSymbol s) st.scene = (.ok (), scene)) :
    Takes (.preSymbol s) pos.owner st ⟨(entering (.symbol s) st).trail, scene⟩ := by
  obtain ⟨c, hc⟩ := Program.exists_cell? hhas
  obtain ⟨x, hx, _⟩ := Program.cell?_symbol hc
  have hsymbol : st.scene.program.symbol s = .ok x := by rw [Program.symbol, hx]
  have hlarger := keeps_hook (.preSymbol s) st.scene
  rw [hexec] at hlarger
  rw [hooks_preSymbol, exec_preSymbol, hsymbol] at hexec
  obtain rfl := (Prod.mk.inj hexec).2
  have hput := Program.put_scope hc st.scene.own.context.ownerScope
  refine .of_cells hheld rfl hlarger (cell?_of_put hput hc) (hput.frame fun _ => rfl) fun _ => ?_
  by_contra hparen
  obtain ⟨_, _, he, _⟩ := Program.exists_encloses (by simpa using hparen)
  cases he

/-- A statement that does nothing owns nothing. -/
theorem children_of_nop {p : Program} {s : StmtId} {c : Cell} (hc : p.cell? (.stmt s) = some c)
    (hnop : c.label.isNop = true) : c.children = [] := by
  obtain ⟨x, _, rfl⟩ := Program.cell?_stmt hc
  obtain ⟨k, _, _, _⟩ := x
  cases k <;> simp_all [Node.cell, Cell.children, StmtKind.head, Label.isNop, StmtKind.operands,
    StmtKind.declared?, StmtKind.held]

theorem mem_stmtsIn_of_held {p : Program} {list : StmtList} {i : Nat} {s : StmtId}
    (h : p.heldAt? (.stmt (.entry list i)) = some (.stmt s)) : s ∈ p.stmtsIn list := by
  rw [Program.heldAt?_entry, Option.map_eq_some_iff] at h
  obtain ⟨x, hx, he⟩ := h
  cases he
  exact List.mem_of_getElem? hx

/-- A statement is taken where it is entered. -/
theorem takes_preStmt {s : StmtId} {place : StmtPlace}
    (hheld : st.scene.program.heldAt? (.stmt place) = some (.stmt s))
    (hhas : st.scene.program.has (.stmt s) = true)
    (howner : st.scene.program.has place.holder = true) (hne : place.holder ≠ .stmt s)
    (hunseen : st.trail.seen.contains (.stmt s) = false)
    (hexec : exec (hooks.preStmt s place) st.scene = (.ok (), scene))
    (haddr : scene.program.Addressable) :
    Takes (.preStmt s place) place.holder st ⟨(entering (.stmt s) st).trail, scene⟩ := by
  obtain ⟨c, hc⟩ := Program.exists_cell? hhas
  have hlarger := keeps_hook (.preStmt s place) st.scene
  rw [hexec] at hlarger
  rw [hooks_preStmt, exec_preStmt_of_cell? _ hc] at hexec
  obtain rfl := (Prod.mk.inj hexec).2
  obtain ⟨⟨exprs, stmts, hcell⟩, hstarts⟩ := startsAt hc hunseen hne howner haddr
  have hchild : NodeId.stmt s ∈ st.scene.program.childrenOf place.holder :=
    Program.mem_childrenOf hheld
  have hsolid : ∀ {z : WalkState Normalizer}, ¬ Hollow z (.stmt s) := fun ⟨_, _, hparen⟩ => by
    rw [isParen_stmt] at hparen
    cases hparen
  refine ⟨rfl, hlarger, spares_rewriteStmt hhas hne howner haddr, ?_⟩
  change Fate _ _ (atStmt s place c.label.isNop st)
  cases hstarts with
  | kept h =>
    refine .stays ?_ hsolid
    rw [h.moved.frame.childrenOf howner fun he => he.elim hne id]
    exact hchild
  | dropped hlist hnop h _ =>
    refine .dropped rfl ?_
    exact (Program.childrenOf_of_cell? hcell).trans (children_of_nop hcell hnop)
  | @hoisted list decl line news hlist hif h hnew hdecl hentries =>
    obtain ⟨i, rfl⟩ : ∃ i, place = .entry list i := by
      cases place <;> cases hlist
      exact ⟨_, rfl⟩
    obtain ⟨front, back, hlisted, hfront⟩ :=
      List.eq_append_cons_of_mem (mem_stmtsIn_of_held hheld)
    have hmem : s ∈ (atStmt s (.entry list i) c.label.isNop st).scene.program.stmtsIn list := by
      rw [hentries front back hlisted hfront]
      simp
    obtain ⟨_, hheld'⟩ := Program.held_of_mem_stmtsIn hmem
    exact .stays (Program.mem_childrenOf hheld') hsolid

/-- The hook of an expression marks it, or puts what it encloses in its place. -/
theorem takes_preExpr {e : ExprId} {place : ExprPlace}
    (hheld : st.scene.program.heldAt? (.expr place) = some (.expr e))
    (hhas : st.scene.program.has (.expr e) = true) (hne : place.owner.node ≠ .expr e)
    (hexec : exec (hooks.preExpr e place) st.scene = (.ok (), scene)) :
    Takes (.preExpr e place) place.owner.node st ⟨(entering (.expr e) st).trail, scene⟩ := by
  obtain ⟨owner, i⟩ := place
  obtain ⟨c, hc⟩ := Program.exists_cell? hhas
  obtain ⟨x, hx, rfl⟩ := Program.cell?_expr hc
  have hat : st.scene.program.exprAt? ⟨owner, i⟩ = some e := by
    simpa [Program.heldAt?] using hheld
  have hlarger := keeps_hook (.preExpr e ⟨owner, i⟩) st.scene
  rw [hexec] at hlarger
  rcases of_exec_preExpr hx hexec with ⟨cause, hresult⟩ | ⟨_, _, hscene⟩
  · cases hresult
  rcases hscene with ⟨inner, q, hk, hr, hset, rfl⟩ | ⟨rfl, hnone⟩
  · obtain ⟨q', co, b, hset', hco, hi, hput⟩ := put_at hat inner
    obtain rfl : q' = q := Option.some.inj (hset'.symm.trans hset)
    have hlt := (List.getElem?_eq_some_iff.mp hi).1
    have henclose : q'.Encloses e inner :=
      Program.encloses_congr (hput.cell_ne hne.symm).symm ⟨x, hx, hk⟩
    refine ⟨rfl, hlarger, .of_put hput hco rfl fun m hm => ?_, ?_⟩
    · have hcount := List.count_set (a := NodeId.expr inner) (b := m) hlt
      have he : (co.exprs[i] == m) = false := by
        rw [(List.getElem?_eq_some_iff.mp hi).2, beq_eq_false_iff_ne]
        exact hm.symm
      simp only [he, Bool.false_eq_true, if_false, Nat.sub_zero] at hcount
      simp only [Cell.children, List.count_append]
      omega
    · refine .flattened rfl ⟨hr, by simp [entering, Call.node], henclose.isParen⟩ henclose ?_
        (exprAt?_of_cell hput.cell_self (by simp [hlt]))
      rw [Program.childrenOf_of_cell? hput.cell_self]
      exact List.mem_append_left _ (List.mem_append_left _ (List.mem_set hlt _))
  · have hput := Program.put_exprParents hc st.scene.own.context.enclosingStmt
      st.scene.own.context.enclosingSymbol
    refine Takes.of_cells (c := .preExpr e ⟨owner, i⟩) hheld rfl hlarger (cell?_of_put hput hc)
      (hput.frame fun _ => rfl) fun hr => ?_
    -- where they are flattened, a parenthesis does not stay in its place
    by_contra hparen
    obtain ⟨_, inner, he, y, hy, hk⟩ := Program.exists_encloses (by simpa using hparen)
    cases he
    rw [hx, Option.some.injEq] at hy
    subst hy
    obtain ⟨q', _, _, hset, _⟩ := put_at hat inner
    rw [flattened?, hk] at hnone
    simp [hr, hset] at hnone

end

/-- The last hook of a node leaves the program as it is. -/
theorem post_program {c : Call} {result : Except Refusal Unit} {scene scene' : Scene Normalizer}
    (h : c.isPre = false) (hexec : exec (hooks.hook c) scene = (result, scene')) :
    scene'.program = scene.program ∧ scene'.own.rules = scene.own.rules := by
  have hmove : ∀ m : ContextM Unit, exec (move m) scene = (result, scene') →
      scene'.program = scene.program ∧ scene'.own.rules = scene.own.rules := fun m hexec => by
    rw [exec_move] at hexec
    split at hexec <;> cases hexec <;> exact ⟨rfl, rfl⟩
  cases c with
  | postSymbol s =>
    rw [Hooks.hook, hooks_postSymbol] at hexec
    exact hmove _ hexec
  | postStmt s =>
    rw [Hooks.hook, hooks_postStmt] at hexec
    exact hmove _ hexec
  | postExpr e =>
    rw [Hooks.hook, hooks_postExpr] at hexec
    cases hexec
    exact ⟨rfl, rfl⟩
  | _ => cases h

/-! ## A run and its visits -/

/-- The nodes that were entered are as they should be while the visits of `stack` go on. -/
structure Visiting (modules : List ModuleId) (stack : List NodeId) (st : WalkState Normalizer) :
    Prop where
  sound : Sound st
  seen : ∀ k ∈ stack, st.trail.seen.contains k = true
  standing : st.scene.program.Addressable → Standing modules st
  isOpen : st.scene.program.Addressable → ∀ k ∈ stack, Open modules st k

namespace Visiting

variable {stack : List NodeId}

/-- The context and the path do not matter. -/
theorem congr (h : Visiting modules stack st) (hseen : st'.trail.seen = st.trail.seen)
    (hprogram : st'.scene.program = st.scene.program)
    (hrules : st'.scene.own.rules = st.scene.own.rules) : Visiting modules stack st' := by
  have hhollow : ∀ {n}, Hollow st' n ↔ Hollow st n := by simp [Hollow, hseen, hprogram, hrules]
  have hrooted : ∀ {n}, RootedAt modules st' n ↔ RootedAt modules st n := by
    simp [RootedAt, hseen, hprogram]
  refine ⟨fun n hn => ?_, fun k hk => ?_, fun haddr => ⟨fun e he => ?_, fun {e inner} he hin => ?_⟩,
    fun haddr k hk => ?_⟩
  · rw [hprogram]
    exact h.sound n (hseen ▸ hn)
  · rw [hseen]
    exact h.seen k hk
  · rw [hrooted, hhollow]
    exact (h.standing (hprogram ▸ haddr)).rooted e (hseen ▸ he)
  · rw [hhollow, hprogram]
    simp only [hrooted, hhollow]
    exact (h.standing (hprogram ▸ haddr)).hollow (hhollow.mp he) (hprogram ▸ hin)
  · rw [Open, hrooted, hhollow, hprogram, hseen]
    exact h.isOpen (hprogram ▸ haddr) k hk

/-- The visits around the innermost one are as they should be. -/
theorem tail {k : NodeId} (h : Visiting modules (k :: stack) st) : Visiting modules stack st :=
  ⟨h.sound, fun j hj => h.seen j (List.mem_cons_of_mem k hj), h.standing,
    fun haddr j hj => h.isOpen haddr j (List.mem_cons_of_mem k hj)⟩

/-- A module is entered. -/
theorem enter {m : ModuleId} (h : Visiting modules stack st) (hm : m ∈ modules)
    (hhas : st.scene.program.has (.module m) = true) :
    Visiting modules (.module m :: stack) (entering (.module m) st) := by
  have hgrown := grown_entering (.module m) st
  have hrooted : ∀ {n}, RootedAt modules st n → RootedAt modules (entering (.module m) st) n :=
    fun hn => by
      induction hn with
      | root hm hseen => exact .root hm (hgrown _ hseen)
      | child _ hn hseen ih => exact .child ih hn (hgrown _ hseen)
  have hsolid : ¬ Hollow (entering (.module m) st) (.module m) := fun ⟨_, _, hparen⟩ => by
    obtain ⟨_, _, he, _⟩ := Program.exists_encloses hparen
    cases he
  have hseen : ∀ {n}, (entering (.module m) st).trail.seen.contains n = true →
      n = .module m ∨ st.trail.seen.contains n = true := fun hn => by
    rwa [entering, NodeSet.contains_insert, Bool.or_eq_true, decide_eq_true_iff] at hn
  have hhollow : ∀ {n}, Hollow (entering (.module m) st) n ↔ Hollow st n := fun {n} =>
    ⟨fun hn => ⟨hn.1, (hseen hn.2.1).resolve_left fun he => hsolid (he ▸ hn), hn.2.2⟩,
      fun hn => ⟨hn.1, hgrown _ hn.2.1, hn.2.2⟩⟩
  refine ⟨fun n hn => ?_, fun k hk => ?_, fun haddr => ⟨fun e he => ?_, fun {e inner} he hin => ?_⟩,
    fun haddr k hk => ?_⟩
  · exact (hseen hn).elim (fun he => he ▸ hhas) (h.sound n)
  · rcases List.mem_cons.mp hk with rfl | hk
    · exact seen_entering _ st
    · exact hgrown _ (h.seen k hk)
  · rw [hhollow]
    exact ((h.standing haddr).rooted e ((hseen he).resolve_left (by simp))).imp_left hrooted
  · simp only [hhollow] at he ⊢
    exact ((h.standing haddr).hollow he hin).imp_right <| .imp fun k hk => ⟨hrooted hk.1, hk.2⟩
  · rcases List.mem_cons.mp hk with rfl | hk
    · exact .inl ⟨.root hm (seen_entering _ st), hsolid⟩
    · refine (h.isOpen haddr k hk).imp (fun hopen => ⟨hrooted hopen.1, ?_⟩) fun hspent n hn => ?_
      · rw [hhollow]
        exact hopen.2
      · exact hgrown _ (hspent n hn)

/-- The owner of a node that was not entered is rooted and not hollow. -/
theorem owner (h : Visiting modules stack st) (haddr : st.scene.program.Addressable)
    {pos : Position}
    {n : NodeId} (hpos : pos.owner ∈ stack) (hheld : st.scene.program.heldAt? pos = some n)
    (hunseen : st.trail.seen.contains n = false) :
    RootedAt modules st pos.owner ∧ ¬ Hollow st pos.owner := by
  refine (h.isOpen haddr _ hpos).resolve_right fun hspent => ?_
  rw [hspent n (Program.mem_childrenOf hheld)] at hunseen
  cases hunseen

/-- One more visit goes on. -/
theorem cons (h : Visiting modules stack st) (hk : st.trail.seen.contains k = true)
    (hopen : st.scene.program.Addressable → Open modules st k) :
    Visiting modules (k :: stack) st where
  sound := h.sound
  seen j hj := (List.mem_cons.mp hj).elim (fun he => he ▸ hk) (h.seen j)
  standing := h.standing
  isOpen haddr j hj := (List.mem_cons.mp hj).elim (fun he => he ▸ hopen haddr) (h.isOpen haddr j)

/-- A node is entered, and its first hook is called. -/
theorem taken {c : Call} {pos : Position} (h : Visiting modules stack st) (hpos : pos.owner ∈ stack)
    (hheld : st.scene.program.heldAt? pos = some c.node)
    (hhas : st.scene.program.has c.node = true) (hunseen : st.trail.seen.contains c.node = false)
    (hlarger : Larger st.scene st'.scene) (hseen : st'.trail.seen = st.trail.seen.insert c.node)
    (htakes : st'.scene.program.Addressable → Takes c pos.owner st st') :
    Visiting modules stack st' ∧
      (¬ c.Replaced st'.scene.program → Visiting modules (c.node :: stack) st') := by
  have howner := fun haddr => h.owner (hlarger.addressable haddr) hpos hheld hunseen
  have hst' : Visiting modules stack st' := by
    refine ⟨fun n hn => ?_, fun j hj => ?_, fun haddr => ?_, fun haddr j hj => ?_⟩
    · rw [hseen, NodeSet.contains_insert, Bool.or_eq_true, decide_eq_true_iff] at hn
      exact hlarger.has n (hn.elim (fun he => he ▸ hhas) (h.sound n))
    · simp [hseen, h.seen j hj]
    · obtain ⟨hrooted, hsolid⟩ := howner haddr
      exact (htakes haddr).standing h.sound hunseen hrooted hsolid
        (h.standing (hlarger.addressable haddr))
    · obtain ⟨hrooted, hsolid⟩ := howner haddr
      by_cases hjk : j = pos.owner
      · exact hjk ▸ (htakes haddr).isOpen_owner h.sound hunseen hrooted hsolid
      · exact (htakes haddr).isOpen h.sound hunseen (h.seen j hj) hjk
          (h.isOpen (hlarger.addressable haddr) j hj)
  exact ⟨hst', fun hkept => hst'.cons (by simp [hseen]) fun haddr =>
    (htakes haddr).isOpen_self h.sound hunseen (howner haddr).1 hkept⟩

end Visiting

/-- The node that a hook is told is taken from the innermost visit. -/
theorem takes_of_call {c : Call} {pos : Position} (hst : Sound st)
    (hpre : c.isPre = true) (howner : st.trail.seen.contains pos.owner = true)
    (hheld : st.scene.program.heldAt? pos = some c.node)
    (htold : ∀ told, c.place? = some told → told = pos)
    (hhas : st.scene.program.has c.node = true)
    (hunseen : st.trail.seen.contains c.node = false)
    (hexec : exec (call hooks c.node (hooks.hook c)) (entering c.node st) = (.ok (), st'))
    (haddr : st'.scene.program.Addressable) : Takes c pos.owner st st' := by
  obtain ⟨scene, hhook, rfl⟩ := of_exec_call_ok hexec
  have hne : pos.owner ≠ c.node := NodeSet.ne_of_contains howner hunseen
  cases c with
  | preSymbol s => exact takes_preSymbol hheld hhas hhook
  | preStmt s place =>
    obtain rfl := htold _ rfl
    exact takes_preStmt hheld hhas (hst _ howner) hne hunseen hhook haddr
  | preExpr e place =>
    obtain rfl := htold _ rfl
    exact takes_preExpr hheld hhas hne hhook
  | _ => cases hpre

/-- A run keeps the nodes as they should be, and what they own lasts. -/
theorem visiting_scoped (modules : List ModuleId) (st₀ : WalkState Normalizer) :
    Scoped hooks modules (fun stack st => Visiting modules stack st ∧ Lasts st₀ st)
      fun _ _ => True where
  refuse _ _ _ _ := trivial
  enter := fun ⟨hst, hlasts⟩ hm hhas _ =>
    ⟨hst.enter hm hhas, hlasts.trans (.of_eq (grown_entering _ _) rfl rfl)⟩
  leave := fun ⟨hst, hlasts⟩ =>
    ⟨hst.tail.congr rfl rfl rfl, hlasts.trans (.of_eq (fun _ hn => hn) rfl rfl)⟩
  opens {stack st c} hst hpre hsited hhas hunseen := by
    obtain ⟨hst, hlasts⟩ := hst
    obtain ⟨pos, htop, hheld, htold⟩ := hsited
    have hmem := List.mem_of_mem_head? htop
    rcases hexec : exec (call hooks c.node (hooks.hook c)) (entering c.node st) with
      ⟨e | ⟨⟩, st'⟩
    · exact does_of_error hexec trivial
    refine does_of_ok hexec ?_
    have hlarger : Larger (entering c.node st).scene st'.scene :=
      .of_exec (larger_local.call (hookAt_hook hooks c)) hexec
    have hseen : st'.trail.seen = st.trail.seen.insert c.node := by
      obtain ⟨_, _, rfl⟩ := of_exec_call_ok hexec
      rfl
    have htakes := takes_of_call hst.sound hpre (hst.seen _ hmem) hheld htold hhas hunseen hexec
    obtain ⟨hst', hself⟩ := hst.taken hmem hheld hhas hunseen hlarger hseen htakes
    have hlasts' := hlasts.trans (.of_takes hlarger hseen htakes hst.sound hunseen)
    exact ⟨fun hkept => ⟨hself hkept, hlasts'⟩, fun _ => ⟨hst'.congr rfl rfl rfl,
      hlasts'.trans (.of_eq (fun _ hn => hn) rfl rfl)⟩⟩
  closes {stack st c} hst hpost := by
    obtain ⟨hst, hlasts⟩ := hst
    rcases hexec : exec (call hooks c.node (hooks.hook c)) st with ⟨e | ⟨⟩, st'⟩
    · exact does_of_error hexec trivial
    refine does_of_ok hexec ?_
    obtain ⟨scene, hpost', rfl⟩ := of_exec_call_ok hexec
    obtain ⟨hprogram, hrules⟩ := post_program hpost hpost'
    exact ⟨hst.tail.congr rfl hprogram hrules,
      hlasts.trans (.of_eq (fun _ hn => hn) hprogram hrules)⟩

end Normalize

end MiddleEnd
