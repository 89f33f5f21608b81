import MiddleEnd.Proofs.Normalize.Started
import MiddleEnd.Proofs.Normalize.Underway

/-!
# MiddleEnd.Proofs.Normalize.Account

What the visit of a node leaves.  If the tasks that come up in a visit are accounted for, the visit
is (`Accounted`): the nodes it entered are those that were due, what these owned when the task
began, and what was made, each just once.
-/

namespace MiddleEnd

namespace Normalize

open Walk

variable {p : Program} {modules : List ModuleId} {z : WalkState Normalizer}

/-! ## What a task leaves -/

/-- What the visit of a place for a statement leaves. -/
inductive StmtLeft (st st' : WalkState Normalizer) (place : StmtPlace) : List NodeId → Prop where
  | kept {ns es : List NodeId} (h : Balanced nowhere st st' ns es) : StmtLeft st st' place ns
  | dropped {list : StmtList} {s : StmtId} {c : Cell} {es : List NodeId}
      (hlist : place.list? = some list) (hc : st.scene.program.cell? (.stmt s) = some c)
      (hnop : c.label.isNop = true) (h : Balanced (· = list.node) st st' [.stmt s] es)
      (hentries : st'.scene.program.stmtsIn list =
        (st.scene.program.stmtsIn list).filter (· ≠ s)) : StmtLeft st st' place [.stmt s]
  | hoisted {list : StmtList} {s decl : StmtId} {line : UInt32} {c : Cell}
      {st₁ : WalkState Normalizer} {ns news es : List NodeId} (hlist : place.list? = some list)
      (hc : st.scene.program.cell? (.stmt s) = some c) (hif : c.label.isIf = true)
      (hstarts : Starts (· = list.node) st st₁ (.stmt s) (ns ++ [.stmt decl]) news)
      (h : Balanced (· = .stmt s) st₁ st' ns es)
      (hnew : st.scene.program.has (.stmt decl) = false)
      (hdecl : ∃ d, st₁.scene.program.cell? (.stmt decl) = some d ∧ d.label = .stmt .decl line)
      (hentries : ∀ front back, st.scene.program.stmtsIn list = front ++ s :: back → s ∉ front →
        st'.scene.program.stmtsIn list = front ++ decl :: s :: back) :
      StmtLeft st st' place [.stmt s]

/-- What a task leaves that was to visit the nodes `ns`. -/
def Outcome (st st' : WalkState Normalizer) (ns : List NodeId) : Task → Prop
  | .expr place => (∃ es, Balanced (· = place.owner.node) st st' ns es) ∧
      ∀ c, st.scene.program.cell? place.owner.node = some c → ∃ exprs,
        st'.scene.program.cell? place.owner.node = some { c with exprs } ∧
          exprs.drop (place.index + 1) = c.exprs.drop (place.index + 1)
  | .operandsFrom owner _ => (∃ es, Balanced (· = owner.node) st st' ns es) ∧
      ∀ c, st.scene.program.cell? owner.node = some c → ∃ exprs,
        st'.scene.program.cell? owner.node = some { c with exprs }
  | .stmt place => StmtLeft st st' place ns
  | .stmts list | .stmtsFrom list _ => ∃ es, Balanced (· = list.node) st st' ns es
  | .module _ | .symbol _ | .symbols _ | .symbolsFrom _ _ => ∃ es, Balanced nowhere st st' ns es

/-- What a cursor has handed out exists. -/
def Handed (p : Program) : Task → Prop
  | .stmtsFrom _ cursor => ∀ s ∈ cursor.handed, p.has (.stmt s) = true
  | _ => True

/-- Wherever a run does the task, and gets on to `z`, the task is accounted for. -/
def Accounted (p : Program) (modules : List ModuleId) (z : WalkState Normalizer) (task : Task)
    (st : WalkState Normalizer) : Prop :=
  ∀ stack st' ns, Underway p modules stack st → task.AtTop modules stack st.scene.program →
    st.scene.program.Due task ns → Handed st.scene.program task →
    exec (Walk.run hooks task) st = (.ok (), st') → Lasts st' z → Outcome st st' ns task

/-! ## Parts of a visit -/

section

variable {st st₁ st' : WalkState Normalizer} {H : NodeId → Prop} {n : NodeId} {ns es : List NodeId}
  {s : StmtId} {stack : List NodeId}

/-- Leaving a node does not count. -/
theorem Balanced.leave (h : Balanced H st st₁ ns es) (n : NodeId) :
    Balanced H st { st₁ with trail := st₁.trail.leave n } ns es :=
  h.congr rfl rfl rfl rfl rfl rfl

/-- Moving the context does not count. -/
theorem Balanced.move (h : Balanced H st st₁ ns es) {m : ContextM Unit}
    (hexec : exec (Walk.call hooks n (Normalize.move m)) st₁ = (.ok (), st')) :
    Balanced H st st' ns es := by
  rw [exec_call, exec_move] at hexec
  generalize exec m st₁.scene.own.context = result at hexec
  obtain ⟨_ | _, context⟩ := result <;> cases hexec
  exact h.congr rfl rfl rfl rfl rfl rfl

/-- Nothing that may be dropped or hoisted stands in a branch. -/
theorem StmtLeft.of_branch {which : Branch} (h : StmtLeft st st' (.branch s which) ns) :
    ∃ es, Balanced nowhere st st' ns es := by
  cases h with
  | kept h => exact ⟨_, h⟩
  | dropped hlist => cases hlist
  | hoisted hlist => cases hlist

/-- The statement that was visited exists. -/
theorem StmtLeft.has {place : StmtPlace} (h : StmtLeft st st' place [.stmt s]) :
    st'.scene.program.has (.stmt s) = true := by
  cases h with
  | kept h => exact h.moved.exist _ (h.mem_of_due List.mem_cons_self)
  | dropped _ _ _ h _ => exact h.moved.exist _ (h.mem_of_due List.mem_cons_self)
  | hoisted _ _ _ hstarts h _ _ _ => exact h.moved.frame.has _ (hstarts.moved.exist _ rfl)

/-- A statement that the visit of its place left behind had not been met before. -/
theorem StmtLeft.unseen {place : StmtPlace} (h : StmtLeft st st' place [.stmt s]) :
    st.trail.seen.contains (.stmt s) = false := by
  cases h with
  | kept h => exact h.moved.unseen _ (h.mem_of_due List.mem_cons_self)
  | dropped _ _ _ h _ => exact h.moved.unseen _ (h.mem_of_due List.mem_cons_self)
  | hoisted _ _ _ hstarts _ _ _ _ => exact hstarts.moved.unseen _ rfl

/-- The branches of a statement are accounted for if every task is. -/
theorem branches_accounted : ∀ {whichs : List Branch} {st st' : WalkState Normalizer},
    (∀ (task : Task) (st₁ : WalkState Normalizer),
      st₁.trail.seen.room ≤ st.trail.seen.room → Accounted p modules z task st₁) →
    Underway p modules (.stmt s :: stack) st →
    exec ((whichs.map (StmtPlace.branch s)).forM fun place => Walk.run hooks (.stmt place)) st =
      (.ok (), st') → Lasts st' z →
    ∃ es, Balanced nowhere st st'
      (((whichs.map (StmtPlace.branch s)).filterMap st.scene.program.stmtAt?).map .stmt) es
  | [], st, st', _, _, hexec, _ => by
    cases hexec
    exact ⟨[], .refl _ _⟩
  | which :: whichs, st, st', hrest, h, hexec, hz => by
    obtain ⟨_, st₁, h₁, hexec⟩ := ok_of_exec_bind hexec
    have htop : (Task.stmt (.branch s which)).AtTop modules (.stmt s :: stack) st.scene.program :=
      rfl
    have hgrown := grown_of_exec ((grown_local hooks).run _) h₁
    obtain ⟨hu₁, _⟩ := h.run htop h₁
    obtain ⟨es, hes⟩ := StmtLeft.of_branch
      (hrest _ st (Nat.le_refl _) _ st₁ _ h htop rfl trivial h₁ ((hu₁.branches hexec).2.trans hz))
    obtain ⟨fs, hfs⟩ := branches_accounted
      (fun task st₂ hle => hrest task st₂ (Nat.le_trans hle hgrown.room_le)) hu₁ hexec hz
    have hsame : ∀ place ∈ whichs.map (StmtPlace.branch s),
        st₁.scene.program.stmtAt? place = st.scene.program.stmtAt? place := by
      intro place hplace
      obtain ⟨w, _, rfl⟩ := List.mem_map.mp hplace
      exact Program.stmtAt?_branch_congr (hes.moved.held_eq h.sound (h.top rfl) id) w
    refine ⟨es ++ fs, ?_⟩
    have hboth := hes.trans hfs fun _ => False.elim
    rw [List.filterMap_congr hsame] at hboth
    rw [List.map_cons]
    cases hat : st.scene.program.stmtAt? (.branch s which) with
    | none => simpa [hat] using hboth
    | some x => simpa [hat] using hboth

/-- What a statement owns is accounted for if every task is. -/
theorem inside_accounted {c : Cell} (hrest : ∀ (task : Task) (st₁ : WalkState Normalizer),
      st₁.trail.seen.room ≤ st.trail.seen.room → Accounted p modules z task st₁)
    (h : Underway p modules (.stmt s :: stack) st) (hc : st.scene.program.cell? (.stmt s) = some c)
    (hexec : exec (inside (Walk.run hooks) s) st = (.ok (), st')) (hz : Lasts st' z) :
    ∃ es, Balanced (· = .stmt s) st st' c.children es := by
  have hgrown : ∀ task, Keeps Grown (Walk.run hooks task) := (grown_local hooks).run
  obtain ⟨_, st₁, h₁, hexec⟩ := ok_of_exec_bind hexec
  obtain ⟨_, st₂, h₂, h₃⟩ := ok_of_exec_bind hexec
  have htop : (Task.operandsFrom (.stmt s) 0).AtTop modules (.stmt s :: stack) st.scene.program :=
    rfl
  obtain ⟨hu₁, _⟩ := h.run htop h₁
  obtain ⟨hu₂, hl₂⟩ := hu₁.throughDeclared h₂
  have hz₂ := (hu₂.throughChildren h₃).2.trans hz
  have hg₁ := grown_of_exec (hgrown _) h₁
  have hg₂ := grown_of_exec ((grown_local hooks).throughDeclared hgrown s) h₂
  -- the operands
  obtain ⟨⟨es, hes⟩, hoperands⟩ := hrest (.operandsFrom (.stmt s) 0) st (Nat.le_refl _) _ st₁ _ h
    htop rfl trivial h₁ (hl₂.trans hz₂)
  rw [List.drop_zero, ← Program.exprs_of_cell? (.stmt s) hc] at hes
  obtain ⟨exprs, hc₁⟩ := hoperands c hc
  -- the symbol that it declares
  have hdeclared : ∃ ss, Balanced nowhere st₁ st₂ c.symbols ss := by
    have hsymbols := Program.declared_of_cell? hc₁
    change c.symbols = _ at hsymbols
    rw [throughDeclared, exec_bind_ok (exec_program st₁)] at h₂
    cases hd : st₁.scene.program.declared? s with
    | none =>
      rw [hd] at h₂ hsymbols
      cases h₂
      exact ⟨[], hsymbols ▸ .refl _ _⟩
    | some y =>
      rw [hd] at h₂ hsymbols
      have hsited : (Call.preSymbol y).Sited (.stmt s :: stack) st₁.scene.program :=
        ⟨.declared s, rfl, by simp [Program.heldAt?, hd, Call.node], by simp [Call.place?]⟩
      obtain ⟨ss, hss⟩ := hrest (.symbol y) st₁ hg₁.room_le _ st₂ _ hu₁ hsited rfl trivial h₂ hz₂
      exact ⟨ss, hsymbols ▸ hss⟩
  obtain ⟨ss, hss⟩ := hdeclared
  have hroom := Nat.le_trans hg₂.room_le hg₁.room_le
  have hc₂ := (hss.moved.held_cell hu₁.sound (hu₁.top rfl) id).trans hc₁
  -- the statements that it holds
  have hchildren : ∃ ts, Balanced (· = .stmt s) st₂ st' c.stmts ts := by
    obtain ⟨head, line, hl⟩ := Program.exists_stmt_label hc
    have hkind := Program.children_of_cell? hc₂ hl
    have hheld := Program.held_of_cell? hc₂
    change c.stmts = _ at hheld
    rw [throughChildren, exec_bind_ok (exec_program st₂), hkind] at h₃
    rw [Program.heldStmts, hkind] at hheld
    by_cases hblock : head = .block
    · rw [if_pos hblock] at h₃ hheld
      exact hrest (.stmts (.block s)) st₂ hroom _ st' _ hu₂ rfl hheld trivial h₃ hz
    · rw [if_neg hblock] at h₃ hheld
      by_cases hb : head.branches = []
      · rw [if_pos hb] at h₃ hheld
        cases h₃
        exact ⟨[], hheld ▸ .refl _ _⟩
      · rw [if_neg hb] at h₃ hheld
        obtain ⟨ts, hts⟩ := branches_accounted (fun task st₃ hle =>
          hrest task st₃ (Nat.le_trans hle hroom)) hu₂ h₃ hz
        exact ⟨ts, hheld ▸ hts.mono fun _ => False.elim⟩
  obtain ⟨ts, hts⟩ := hchildren
  have hheld : ∀ m, m = NodeId.stmt s → st.trail.seen.contains m = true := fun m hm =>
    hm ▸ h.top rfl
  exact ⟨es ++ ss ++ ts, (hes.trans (hss.mono fun _ => False.elim) hheld).trans hts hheld⟩

end

/-! ## Single nodes -/

section

variable {st : WalkState Normalizer}

/-- The visit of a module is accounted for if those of its list and of its symbols are. -/
theorem module_accounted {m : ModuleId} (hrest : ∀ (task : Task) (st₁ : WalkState Normalizer),
    st₁.trail.seen.room < st.trail.seen.room → Accounted p modules z task st₁) :
    Accounted p modules z (.module m) st := by
  intro stack st' ns h hm hdue _ hexec hz
  obtain rfl : ns = [.module m] := hdue
  rw [run_eq] at hexec
  obtain ⟨_, st₁, henter, hexec⟩ := ok_of_exec_bind hexec
  obtain ⟨_, st₂, h₂, hleave⟩ := ok_of_exec_bind hexec
  have hroom := room_lt_of_exec_enter henter
  obtain ⟨c, hc⟩ := cell?_of_enter henter
  obtain ⟨hhas, hunseen, rfl⟩ := of_exec_enter_ok henter
  cases hleave
  obtain ⟨hu₁, _⟩ := h.enter hm hhas hunseen
  have htop : (Task.symbols (.module m)).AtTop modules (.module m :: stack)
      (entering (.module m) st).scene.program := rfl
  obtain ⟨hu₂, _⟩ := hu₁.run htop h₂
  obtain ⟨es, hes⟩ := hrest _ _ hroom _ st₂ _ hu₁ htop rfl trivial h₂ (hu₂.leave.2.trans hz)
  have hstarts : Starts nowhere st (entering (.module m) st) (.module m)
      (st.scene.program.childrenOf (.module m)) [] :=
    .plain (moved_enter hunseen rfl rfl (.refl _ _) hhas) fun _ => rfl
  have hchildren : st.scene.program.childrenOf (.module m) = c.symbols := by
    obtain ⟨x, _, rfl⟩ := Program.cell?_module hc
    rw [Program.childrenOf_of_cell? hc]
    simp [Cell.children, Node.cell]
  rw [hchildren] at hstarts
  rw [← Program.symbols_of_cell? (.module m) hc] at hes
  exact ⟨_, (hstarts.balanced hes (fun _ => .inr) fun _ => False.elim).leave _⟩

/-- The visit of a symbol is accounted for if those of what it declares are. -/
theorem symbol_accounted {s : SymbolId} (hrest : ∀ (task : Task) (st₁ : WalkState Normalizer),
      st₁.trail.seen.room < st.trail.seen.room → Accounted p modules z task st₁) :
    Accounted p modules z (.symbol s) st := by
  intro stack st' ns h hsited hdue _ hexec hz
  obtain rfl : ns = [.symbol s] := hdue
  rw [run_eq] at hexec
  obtain ⟨_, st₁, henter, hexec⟩ := ok_of_exec_bind hexec
  obtain ⟨_, st₂, h₂, hexec⟩ := ok_of_exec_bind hexec
  obtain ⟨_, st₃, h₃, hexec⟩ := ok_of_exec_bind hexec
  obtain ⟨_, st₄, h₄, hexec⟩ := ok_of_exec_bind hexec
  obtain ⟨_, st₅, h₅, hleave⟩ := ok_of_exec_bind hexec
  have hroom := room_lt_of_exec_enter henter
  obtain ⟨c, hc⟩ := cell?_of_enter henter
  obtain ⟨hhas, hunseen, rfl⟩ := of_exec_enter_ok henter
  cases hleave
  -- how the run gets on
  have hopens := h.opens (c := .preSymbol s) rfl hsited hhas hunseen h₂
  obtain ⟨hu₂, _⟩ := hopens.1 id
  have hnested : (Task.symbols (.symbol s)).AtTop modules (.symbol s :: stack)
      st₂.scene.program := rfl
  obtain ⟨hu₃, _⟩ := hu₂.run hnested h₃
  have hbody : (Task.stmts (.body s)).AtTop modules (.symbol s :: stack) st₃.scene.program := rfl
  obtain ⟨hu₄, hl₄⟩ := hu₃.run hbody h₄
  have hz₄ := (hu₄.closes (c := .postSymbol s) rfl h₅).2.trans hz
  -- what its first hook did
  obtain ⟨x, hx, hxcell⟩ := Program.cell?_symbol hc
  have hput : Program.Put st.scene.program (atSymbol s st).scene.program (.symbol s) c _ :=
    Program.put_scope hc st.scene.own.context.ownerScope
  have hpre : exec (hooks.preSymbol s) st.scene = (.ok (), (atSymbol s st).scene) := by
    rw [hooks_preSymbol, exec_preSymbol, Program.symbol, hx]
    rfl
  rw [exec_call, show exec (hooks.preSymbol s) _ = _ from hpre] at h₂
  obtain rfl : atSymbol s st = st₂ := (Prod.mk.inj h₂).2
  have hstarts : Starts nowhere st (atSymbol s st) (.symbol s)
      (st.scene.program.childrenOf (.symbol s)) [] :=
    .plain (moved_enter hunseen rfl rfl (hput.frame fun _ => .inl rfl) hhas)
      (hput.has_eq (by rw [hc]; rfl))
  rw [Program.childrenOf_of_cell? hc] at hstarts
  -- what it nests, and its body
  obtain ⟨es, hes⟩ :=
    hrest _ (atSymbol s st) hroom _ st₃ _ hu₂ hnested rfl trivial h₃ (hl₄.trans hz₄)
  rw [← Program.symbols_of_cell? (.symbol s) hput.cell_self] at hes
  have hc₃ := (hes.moved.held_cell hu₂.sound (hu₂.top rfl) id).trans hput.cell_self
  obtain ⟨fs, hfs⟩ := hrest _ st₃ (Nat.lt_of_le_of_lt
    (grown_of_exec ((grown_local hooks).run _) h₃).room_le hroom)
    _ st₄ _ hu₃ hbody rfl trivial h₄ hz₄
  have hfits : (StmtList.body s).Fits c.label := by
    rw [hxcell]
    trivial
  rw [← Program.stmts_of_cell? (.body s) hc₃ hfits] at hfs
  have hin : Balanced (· = .symbol s) (atSymbol s st) st₄ c.children (es ++ fs) := by
    have hbody : Balanced (· = .symbol s) st₃ st₄ c.stmts fs := hfs
    have hboth := (hes.mono fun _ => False.elim).trans hbody fun m hm => hm ▸ hu₂.top rfl
    rw [hxcell] at hboth ⊢
    simpa [Cell.children, Node.cell] using hboth
  rw [hooks_postSymbol] at h₅
  exact ⟨_, ((hstarts.balanced hin (fun _ => .inl) fun _ => False.elim).move h₅).leave _⟩

/-- The visit of a statement is accounted for if those of what it holds after its rewriting are. -/
theorem stmt_accounted (haddr : z.scene.program.Addressable) {place : StmtPlace}
    (hrest : ∀ (task : Task) (st₁ : WalkState Normalizer),
      st₁.trail.seen.room < st.trail.seen.room → Accounted p modules z task st₁) :
    Accounted p modules z (.stmt place) st := by
  intro stack st' ns h htop hdue _ hexec hz
  rw [run_eq, visit_stmt, exec_bind_ok (exec_program st)] at hexec
  cases hat : st.scene.program.stmtAt? place with
  | none =>
    obtain rfl : ns = [] := by simp [show ns = _ from hdue, hat]
    rw [hat] at hexec
    cases hexec
    exact .kept (.refl _ _)
  | some s =>
    obtain rfl : ns = [.stmt s] := by simp [show ns = _ from hdue, hat]
    rw [hat] at hexec
    obtain ⟨_, st₁, henter, hexec⟩ := ok_of_exec_bind hexec
    obtain ⟨_, st₂, h₂, hexec⟩ := ok_of_exec_bind hexec
    obtain ⟨_, st₃, h₃, hexec⟩ := ok_of_exec_bind hexec
    obtain ⟨_, st₄, h₄, hleave⟩ := ok_of_exec_bind hexec
    have hroom := room_lt_of_exec_enter henter
    obtain ⟨c, hc⟩ := cell?_of_enter henter
    obtain ⟨hhas, hunseen, rfl⟩ := of_exec_enter_ok henter
    cases hleave
    have hsited : (Call.preStmt s place).Sited stack st.scene.program :=
      ⟨.stmt place, htop, by simp [Program.heldAt?, hat, Call.node], by simp [Call.place?]⟩
    have hholder : st.trail.seen.contains place.holder = true := h.top htop
    have hne : place.holder ≠ .stmt s := NodeSet.ne_of_contains hholder hunseen
    -- how the run gets on
    have hopens := h.opens (c := .preStmt s place) rfl hsited hhas hunseen h₂
    obtain ⟨hu₂, _⟩ := hopens.1 id
    obtain ⟨hu₃, hl₃⟩ := hu₂.inside h₃
    have hz₃ := (hu₃.closes (c := .postStmt s) rfl h₄).2.trans hz
    -- what its first hook did
    have hpre : exec (hooks.preStmt s place) st.scene =
        (.ok (), (atStmt s place c.label.isNop st).scene) := exec_preStmt_of_cell? _ hc
    rw [exec_call, show exec (hooks.preStmt s place) _ = _ from hpre] at h₂
    obtain rfl : atStmt s place c.label.isNop st = st₂ := (Prod.mk.inj h₂).2
    obtain ⟨⟨exprs, stmts, hc₂⟩, hstarts⟩ := startsAt hc hunseen hne (h.sound _ hholder)
      ((hl₃.trans hz₃).larger.addressable haddr)
    -- what stands in it
    have hlater : ∀ (task : Task) (st₅ : WalkState Normalizer),
        st₅.trail.seen.room ≤ (atStmt s place c.label.isNop st).trail.seen.room →
        Accounted p modules z task st₅ := fun task st₅ hle =>
      hrest task st₅ (Nat.lt_of_le_of_lt hle hroom)
    obtain ⟨es, hes⟩ := inside_accounted hlater hu₂ hc₂ h₃ hz₃
    rw [← Program.childrenOf_of_cell? hc₂] at hes
    rw [hooks_postStmt] at h₄
    have hin := (hes.move h₄).leave (.stmt s)
    have hlist : ∀ {list : StmtList}, place.list? = some list →
        st.trail.seen.contains list.node = true := fun hlist =>
      StmtPlace.holder_of_list? hlist ▸ hholder
    have hentries : ∀ {list : StmtList}, place.list? = some list →
        st₄.scene.program.stmtsIn list =
          (atStmt s place c.label.isNop st).scene.program.stmtsIn list := fun hplace =>
      Program.stmtsIn_congr (hin.moved.held_eq hu₂.sound
        (grown_entering _ st _ (hlist hplace)) (StmtPlace.holder_of_list? hplace ▸ hne))
    cases hstarts with
    | kept hstarts => exact .kept (hstarts.balanced hin (fun _ => .inl) fun _ => False.elim)
    | dropped hplace hnop hstarts hdropped =>
      exact .dropped hplace hc hnop (hstarts.balanced hin (fun _ => .inl) fun m hm =>
        hm ▸ hlist hplace) ((hentries hplace).trans hdropped)
    | hoisted hplace hif hstarts hnew hdecl hhoisted =>
      exact .hoisted hplace hc hif hstarts hin hnew hdecl fun front back hfront hs =>
        (hentries hplace).trans (hhoisted front back hfront hs)

/-- The operands of an expression that keeps its place are accounted for if every task is. -/
theorem operands_accounted {e : ExprId} {c : Cell} {stack : List NodeId}
    {st₁ st₂ : WalkState Normalizer} (hrest : Accounted p modules z (.operandsFrom (.expr e) 0) st)
    (h : Underway p modules (.expr e :: stack) st) (hc : st.scene.program.cell? (.expr e) = some c)
    (h₁ : exec (Walk.run hooks (.operandsFrom (.expr e) 0)) st = (.ok (), st₁))
    (h₂ : exec (Walk.call hooks (.expr e) (hooks.postExpr e)) st₁ = (.ok (), st₂))
    (hz : Lasts (leaving (.expr e) st₂) z) :
    ∃ es, Balanced (· = .expr e) st (leaving (.expr e) st₂) c.children es := by
  have htop : (Task.operandsFrom (.expr e) 0).AtTop modules (.expr e :: stack) st.scene.program :=
    rfl
  obtain ⟨hu₁, _⟩ := h.run htop h₁
  obtain ⟨⟨es, hes⟩, _⟩ := hrest _ st₁ _ h htop rfl trivial h₁
    ((hu₁.closes (c := .postExpr e) rfl h₂).2.trans hz)
  rw [List.drop_zero, ← Program.exprs_of_cell? (.expr e) hc] at hes
  obtain ⟨x, _, rfl⟩ := Program.cell?_expr hc
  have hchildren : (Node.expr x).cell.children = (Node.expr x).cell.exprs := by
    simp [Cell.children, Node.cell]
  obtain ⟨_, hpost, rfl⟩ := of_exec_call_ok h₂
  rw [hooks_postExpr] at hpost
  cases hpost
  exact ⟨es, hchildren ▸ hes.leave _⟩

/-- A parenthesis is accounted for that was replaced by what it encloses, if that is. -/
theorem paren_accounted {owner : ExprOwner} {i : Nat} {e inner : ExprId} {co : Cell} {b : Backs}
    {stack : List NodeId} {st₁ st' : WalkState Normalizer}
    (hrest : Accounted p modules z (.expr ⟨owner, i⟩) st₁) (hu₁ : Underway p modules stack st₁)
    (htop : stack.head? = some owner.node) (howner : st.trail.seen.contains owner.node = true)
    (hmoved : Moved (· = .expr e) (· = owner.node) st st₁)
    (hchildren : st.scene.program.childrenOf (.expr e) = [.expr inner])
    (hco : st.scene.program.cell? owner.node = some co)
    (hput : Program.Put st.scene.program st₁.scene.program owner.node
      { co with exprs := co.exprs.set i (.expr inner) } b)
    (hat : st₁.scene.program.exprAt? ⟨owner, i⟩ = some inner)
    (hexec : exec (Walk.run hooks (.expr ⟨owner, i⟩)) st₁ = (.ok (), st')) (hz : Lasts st' z) :
    Outcome st st' [.expr e] (.expr ⟨owner, i⟩) := by
  have hdue : st₁.scene.program.Due (.expr ⟨owner, i⟩) [.expr inner] := by
    rw [Program.Due, hat]
    rfl
  obtain ⟨⟨es, hes⟩, hcell⟩ := hrest _ st' _ hu₁ htop hdue trivial hexec hz
  have hstarts := Starts.plain hmoved (hput.has_eq (by rw [hco]; rfl))
  rw [hchildren] at hstarts
  refine ⟨⟨_, hstarts.balanced hes (fun _ => .inr) fun m hm => hm ▸ howner⟩, fun c hc => ?_⟩
  rw [hco, Option.some.injEq] at hc
  subst hc
  obtain ⟨exprs, hafter, hdrop⟩ := hcell _ hput.cell_self
  exact ⟨exprs, hafter, hdrop.trans (List.drop_set_of_lt (Nat.lt_succ_self i))⟩

/-- An expression that keeps its place is accounted for if what it owns is. -/
theorem kept_accounted {owner : ExprOwner} {i : Nat} {e : ExprId} {c : Cell} {b : Backs}
    {stack : List NodeId} {st₁ st₂ st₃ : WalkState Normalizer}
    (hrest : Accounted p modules z (.operandsFrom (.expr e) 0) st₁) (hsound : Sound st)
    (hu₁ : Underway p modules (.expr e :: stack) st₁)
    (howner : st.trail.seen.contains owner.node = true)
    (hmoved : Moved (· = .expr e) nowhere st st₁) (hc : st.scene.program.cell? (.expr e) = some c)
    (hput : Program.Put st.scene.program st₁.scene.program (.expr e) c b)
    (h₂ : exec (Walk.run hooks (.operandsFrom (.expr e) 0)) st₁ = (.ok (), st₂))
    (h₃ : exec (Walk.call hooks (.expr e) (hooks.postExpr e)) st₂ = (.ok (), st₃))
    (hz : Lasts (leaving (.expr e) st₃) z) :
    Outcome st (leaving (.expr e) st₃) [.expr e] (.expr ⟨owner, i⟩) := by
  obtain ⟨es, hes⟩ := operands_accounted hrest hu₁ hput.cell_self h₂ h₃ hz
  rw [← Program.childrenOf_of_cell? hc] at hes
  have hall := (Starts.plain hmoved (hput.has_eq (by rw [hc]; rfl))).balanced hes
    (fun _ => .inl) fun _ => False.elim
  refine ⟨⟨_, hall.mono fun _ => False.elim⟩, fun c' hc' => ⟨c'.exprs, ?_, rfl⟩⟩
  exact (hall.moved.held_cell hsound howner id).trans hc'

/-- The operands of a parenthesis around itself are not visited to the end: it would be entered
twice. -/
theorem false_of_paren_self {e : ExprId} {c : Cell} {stack : List NodeId}
    {st₁ st₂ : WalkState Normalizer} (hrest : Accounted p modules z (.operandsFrom (.expr e) 0) st)
    (h : Underway p modules (.expr e :: stack) st) (hc : st.scene.program.cell? (.expr e) = some c)
    (hself : c.children = [.expr e])
    (h₁ : exec (Walk.run hooks (.operandsFrom (.expr e) 0)) st = (.ok (), st₁))
    (h₂ : exec (Walk.call hooks (.expr e) (hooks.postExpr e)) st₁ = (.ok (), st₂))
    (hz : Lasts (leaving (.expr e) st₂) z) : False := by
  obtain ⟨es, hes⟩ := operands_accounted hrest h hc h₁ h₂ hz
  have hmem := hes.mem_of_due (n := .expr e) (by rw [hself]; exact List.mem_cons_self)
  exact NodeSet.ne_of_contains (h.top rfl) (hes.moved.unseen _ hmem) rfl

/-- The visit of an expression is accounted for if those of its operands are. -/
theorem expr_accounted (hsure : Sure modules p z) (haddr : z.scene.program.Addressable)
    {place : ExprPlace} (hrest : ∀ (task : Task) (st₁ : WalkState Normalizer),
      st₁.trail.seen.room < st.trail.seen.room → Accounted p modules z task st₁) :
    Accounted p modules z (.expr place) st := by
  intro stack st' ns h htop hdue _ hexec hz
  obtain ⟨owner, i⟩ := place
  rw [run_eq, visit, exec_bind_ok (exec_program st)] at hexec
  cases hat : st.scene.program.exprAt? ⟨owner, i⟩ with
  | none =>
    obtain rfl : ns = [] := by simp [show ns = _ from hdue, hat]
    rw [hat] at hexec
    cases hexec
    exact ⟨⟨[], .refl _ _⟩, fun c hc => ⟨c.exprs, hc, rfl⟩⟩
  | some e =>
    obtain rfl : ns = [.expr e] := by simp [show ns = _ from hdue, hat]
    rw [hat] at hexec
    obtain ⟨_, st₁, henter, hexec₁⟩ := ok_of_exec_bind hexec
    obtain ⟨_, st₂, h₂, hexec₂⟩ := ok_of_exec_bind hexec₁
    rw [exec_bind_ok (exec_program st₂)] at hexec₂
    have hroom := room_lt_of_exec_enter henter
    obtain ⟨c, hc⟩ := cell?_of_enter henter
    obtain ⟨hhas, hunseen, rfl⟩ := of_exec_enter_ok henter
    have howner : st.trail.seen.contains owner.node = true := h.top htop
    have hne : owner.node ≠ .expr e := NodeSet.ne_of_contains howner hunseen
    have hsited : (Call.preExpr e ⟨owner, i⟩).Sited stack st.scene.program :=
      ⟨.expr ⟨owner, i⟩, htop, by simp [Program.heldAt?, hat, Call.node], by simp [Call.place?]⟩
    obtain ⟨hkept, hreplaced⟩ := h.opens (c := .preExpr e ⟨owner, i⟩) rfl hsited hhas hunseen h₂
    have hlarger₂ : Larger (entering (.expr e) st).scene st₂.scene :=
      .of_exec (larger_local.call (.preExpr e ⟨owner, i⟩)) h₂
    obtain ⟨scene, hpre, hst₂⟩ := of_exec_call_ok h₂
    have hseen₂ : st₂.trail.seen = st.trail.seen.insert (.expr e) := by rw [hst₂]
    have hscene₂ : st₂.scene = scene := by rw [hst₂]
    have hroom₂ : st₂.trail.seen.room < st.trail.seen.room := hseen₂ ▸ hroom
    obtain ⟨x, hx, rfl⟩ := Program.cell?_expr hc
    rcases of_exec_preExpr hx hpre with ⟨cause, hresult⟩ | ⟨_, _, hscene⟩
    · cases hresult
    rcases hscene with ⟨inner, q, hk, hr, hset, hflat⟩ | ⟨hmark, _⟩
    · -- the parenthesis is replaced by what it encloses
      obtain ⟨q', co, b, hq', hco, hi, hput⟩ := put_at hat inner
      obtain rfl : q' = q := Option.some.inj (hq'.symm.trans hset)
      obtain rfl : st₂.scene.program = q' := by rw [hscene₂, hflat]
      have hat₂ : st₂.scene.program.exprAt? ⟨owner, i⟩ = some inner :=
        exprAt?_of_cell hput.cell_self (by simp [(List.getElem?_eq_some_iff.mp hi).1])
      have hchildren : (Node.expr x).cell.children = [.expr inner] := by
        simp [Cell.children, Node.cell, hk, ExprKind.operands]
      simp only [hat₂] at hexec₂
      by_cases hsame : inner = e
      · subst hsame
        simp only [if_true] at hexec₂
        obtain ⟨_, st₃, h₃, hexec₃⟩ := ok_of_exec_bind hexec₂
        obtain ⟨_, st₄, h₄, hleave⟩ := ok_of_exec_bind hexec₃
        cases hleave
        obtain ⟨hu₂, _⟩ := hkept (by simp [Call.Replaced, hat₂])
        exact (false_of_paren_self (hrest _ st₂ hroom₂) hu₂ ((hput.cell_ne hne.symm).trans hc)
          hchildren h₃ h₄ hz).elim
      · simp only [hsame, if_false] at hexec₂
        rw [exec_bind_ok (exec_leave _ _), exec_bind_ok (exec_get _)] at hexec₂
        obtain ⟨hu₃, hl₃⟩ := hreplaced (by simp [Call.Replaced, hat₂, hsame])
        split at hexec₂
        · next hseen =>
          -- what it encloses was entered before, which would have been noticed
          cases hexec₂
          have hput₃ : Program.Put st.scene.program (leaving (.expr e) st₂).scene.program owner.node
            { co with exprs := co.exprs.set i (.expr inner) } b := hput
          have hinner :=
            h.unseen_of_encloses hsure haddr htop hat hunseen ⟨x, hx, hk⟩ hsame hr hco hi
            hput₃ hl₃ hz
          simp [Trail.leave, hseen₂, hsame, hinner] at hseen
        · exact paren_accounted (hrest (.expr ⟨owner, i⟩) (leaving (.expr e) st₂) hroom₂) hu₃ htop
            howner (moved_enter hunseen hseen₂ hlarger₂.rules (hput.frame fun _ => .inr rfl) hhas)
            ((Program.childrenOf_of_cell? hc).trans hchildren) hco hput hat₂ hexec₂ hz
    · -- any other expression keeps its place
      obtain ⟨b, hput⟩ : ∃ b, Program.Put st.scene.program st₂.scene.program (.expr e)
          (Node.expr x).cell b := by
        rw [hscene₂, hmark]
        exact ⟨_, Program.put_exprParents hc _ _⟩
      have hat₂ : st₂.scene.program.exprAt? ⟨owner, i⟩ = some e := by
        obtain ⟨_, co, _, _, hco, hi, _⟩ := put_at hat e
        exact exprAt?_of_cell ((hput.cell_ne hne).trans hco) hi
      simp only [hat₂, if_true] at hexec₂
      obtain ⟨_, st₃, h₃, hexec₃⟩ := ok_of_exec_bind hexec₂
      obtain ⟨_, st₄, h₄, hleave⟩ := ok_of_exec_bind hexec₃
      cases hleave
      obtain ⟨hu₂, _⟩ := hkept (by simp [Call.Replaced, hat₂])
      exact kept_accounted (hrest _ st₂ hroom₂) h.sound hu₂ howner
        (moved_enter hunseen hseen₂ hlarger₂.rules (hput.frame fun _ => .inl rfl) hhas)
        hc hput h₃ h₄ hz

end

end Normalize

end MiddleEnd
