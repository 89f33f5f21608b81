import MiddleEnd.Proofs.Normalize.Account

/-!
# MiddleEnd.Proofs.Normalize.Tasks

Every task of a run that ends well is accounted for (`accounted`), by induction on how deep it can
go.  The entries of a list are accounted for one after another; where the condition of an `if` was
hoisted, the declaration that was put before it is what the cursor hands out next.
-/

namespace MiddleEnd

namespace Normalize

open Walk

variable {p : Program} {modules : List ModuleId} {z : WalkState Normalizer}
  {st : WalkState Normalizer}

/-- The rest of a list of symbols is accounted for if the visits of its symbols are. -/
theorem symbolsFrom_accounted {list : SymbolList} {cursor : Cursor SymbolId}
    (hrest : ∀ (task : Task) (st₁ : WalkState Normalizer),
      st₁.trail.seen.room < st.trail.seen.room → Accounted p modules z task st₁) :
    Accounted p modules z (.symbolsFrom list cursor) st := by
  intro stack st' ns h htop hdue _ hexec hz
  obtain ⟨front, back, hlist, hnodup, hsplits, rfl⟩ := hdue
  cases back with
  | nil =>
    rw [exec_symbolsFrom_nil hlist hsplits] at hexec
    cases hexec
    exact ⟨[], .refl _ _⟩
  | cons s back =>
    rw [exec_symbolsFrom_cons hlist hsplits.next] at hexec
    obtain ⟨_, st₁, h₁, h₂⟩ := ok_of_exec_bind hexec
    have hsited : (Task.symbol s).AtTop modules stack st.scene.program := by
      refine ⟨.symbol list front.length, htop, ?_, by simp [Call.place?]⟩
      rw [Program.heldAt?_symbol, hlist]
      simp [Call.node]
    have hroom := room_lt_of_walk (.symbol s) trivial h₁
    have hnew : s ∉ back := (List.nodup_cons.mp (List.nodup_append.mp hnodup).2.1).1
    obtain ⟨hu₁, _⟩ := h.run hsited h₁
    have htop₁ : ∀ cursor, (Task.symbolsFrom list cursor).AtTop modules stack st₁.scene.program :=
      fun _ => htop
    obtain ⟨es, hes⟩ := symbol_accounted hrest _ st₁ _ h hsited rfl trivial h₁
      ((hu₁.run (htop₁ _) h₂).2.trans hz)
    have hlist₁ : st₁.scene.program.symbolsIn list = front ++ [s] ++ back := by
      obtain ⟨c, hc⟩ := Program.exists_cell? (h.sound _ (h.top htop))
      have hc₁ := (hes.moved.held_cell h.sound (h.top htop) id).trans hc
      rw [List.append_assoc, List.singleton_append, ← hlist, ← map_symbol_inj,
        ← Program.symbols_of_cell? list hc, ← Program.symbols_of_cell? list hc₁]
    obtain ⟨fs, hfs⟩ := hrest (.symbolsFrom list _) st₁ hroom _ st' _ hu₁ (htop₁ _)
      ⟨front ++ [s], back, hlist₁, by simpa using hnodup, hsplits.keep hnew, rfl⟩ trivial h₂ hz
    exact ⟨es ++ fs, hes.trans hfs fun _ => False.elim⟩

/-- The declaration of a temporary is visited like any other statement. -/
theorem decl_accounted (haddr : z.scene.program.Addressable) {place : StmtPlace} {decl : StmtId}
    {stack : List NodeId} {st₁ : WalkState Normalizer}
    (hrest : ∀ (task : Task) (st₁ : WalkState Normalizer),
      st₁.trail.seen.room < st.trail.seen.room → Accounted p modules z task st₁)
    (h : Underway p modules stack st)
    (htop : (Task.stmt place).AtTop modules stack st.scene.program)
    (hat : st.scene.program.stmtAt? place = some decl)
    (hdecl : st.trail.seen.contains (.stmt decl) = false →
      ∃ d line, st.scene.program.cell? (.stmt decl) = some d ∧ d.label = .stmt .decl line)
    (hexec : exec (Walk.run hooks (.stmt place)) st = (.ok (), st₁)) (hz : Lasts st₁ z) :
    ∃ es, Balanced nowhere st st₁ [.stmt decl] es := by
  have hdue : st.scene.program.Due (.stmt place) [.stmt decl] := by
    rw [Program.Due, hat]
    rfl
  have hleft : StmtLeft st st₁ place [.stmt decl] :=
    stmt_accounted haddr hrest _ st₁ _ h htop hdue trivial hexec hz
  obtain ⟨d, line, hd, hl⟩ := hdecl hleft.unseen
  cases hleft with
  | kept hes => exact ⟨_, hes⟩
  | dropped _ hc hnop _ _ =>
    rw [hd, Option.some.injEq] at hc
    rw [← hc, hl] at hnop
    cases hnop
  | hoisted _ hc hif _ _ _ _ _ =>
    rw [hd, Option.some.injEq] at hc
    rw [← hc, hl] at hif
    cases hif

/-- What comes after an entry is accounted for that a declaration was put before: the declaration is
visited next. -/
theorem hoisted_accounted (hsure : Sure modules p z) (haddr : z.scene.program.Addressable)
    {list : StmtList} {stack : List NodeId} {front back handed : List StmtId} {s decl : StmtId}
    {st₁ st' : WalkState Normalizer}
    (hrest : ∀ (task : Task) (st₂ : WalkState Normalizer),
      st₂.trail.seen.room ≤ st₁.trail.seen.room → Accounted p modules z task st₂)
    (h : Underway p modules stack st) (hu₁ : Underway p modules stack st₁) (hlasts : Lasts st st₁)
    (htop : stack.head? = some list.node)
    (hlist : st.scene.program.stmtsIn list = front ++ s :: back)
    (hlist₁ : st₁.scene.program.stmtsIn list = front ++ decl :: s :: back)
    (hnodup : (front ++ s :: back).Nodup) (hback : ∀ x ∈ back, x ∉ handed)
    (hold : ∀ x ∈ s :: handed, st.scene.program.has (.stmt x) = true)
    (hfresh : st.scene.program.has (.stmt decl) = false)
    (hhas : st₁.scene.program.has (.stmt decl) = true)
    (hdecl : st₁.trail.seen.contains (.stmt decl) = false →
      ∃ d line, st₁.scene.program.cell? (.stmt decl) = some d ∧ d.label = .stmt .decl line)
    (hexec : exec (Walk.run hooks (.stmtsFrom list ⟨front.length, s :: handed⟩)) st₁ =
      (.ok (), st')) (hz : Lasts st' z) :
    ∃ st₂ es fs, Balanced nowhere st₁ st₂ [.stmt decl] es ∧
      Balanced (· = list.node) st₂ st' (back.map .stmt) fs := by
  have hnone : decl ∉ s :: handed := fun hmem =>
    Program.ne_of_has (hold decl hmem) hfresh rfl
  -- the declaration is handed out next
  have hfirst : Cursor.Splits ⟨front.length, s :: handed⟩ front [decl] :=
    ⟨Nat.le_refl _, by simp, fun x hx => List.mem_singleton.mp hx ▸ hnone⟩
  rw [exec_stmtsFrom_cons hlist₁ hfirst] at hexec
  obtain ⟨_, st₂, h₂, h₃⟩ := ok_of_exec_bind hexec
  have hplace : (Task.stmt (.entry list front.length)).AtTop modules stack st₁.scene.program := htop
  have hafter : ∀ cursor, (Task.stmtsFrom list cursor).AtTop modules stack st₂.scene.program :=
    fun _ => htop
  obtain ⟨hu₂, hl₂⟩ := hu₁.run hplace h₂
  have hz₂ := (hu₂.run (hafter _) h₃).2.trans hz
  have hgrown := grown_of_exec ((grown_local hooks).run _) h₂
  obtain ⟨es, hes⟩ := decl_accounted haddr (fun task st₃ hlt => hrest task st₃ hlt.le) hu₁ hplace
    (stmtAt?_of_stmtsIn hlist₁) hdecl h₂ hz₂
  have hmem := hes.mem_of_due (n := .stmt decl) List.mem_cons_self
  have hlist₂ : st₂.scene.program.stmtsIn list = front ++ decl :: s :: back := by
    rw [Program.stmtsIn_congr (hes.moved.held_eq hu₁.sound (hu₁.top htop) id), hlist₁]
  have hunlisted : decl ∉ front ++ s :: back :=
    h.unlisted hu₁ hsure haddr htop hlist hlist₁ hlist₂ hfresh (hes.moved.unseen _ hmem)
      ((hes.moved.seen _).mpr (.inr hmem)) hlasts hl₂ hz₂ ((hl₂.trans hz₂).larger.has _ hhas)
  -- then come the entries after `s`
  have hnodup₂ : (front ++ [decl, s] ++ back).Nodup := by
    have hperm : (front ++ [decl, s] ++ back).Perm (decl :: (front ++ s :: back)) := by simp
    exact hperm.nodup_iff.mpr (List.nodup_cons.mpr ⟨hunlisted, hnodup⟩)
  have hsplits : Cursor.Splits ⟨front.length, decl :: s :: handed⟩ (front ++ [decl, s]) back := by
    refine ⟨by simp, by simp, fun x hx => ?_⟩
    have hne : x ≠ s := fun he =>
      (List.nodup_cons.mp (List.nodup_append.mp hnodup).2.1).1 (he ▸ hx)
    simp only [List.mem_cons, not_or]
    exact ⟨fun he => hunlisted (by simp [← he, hx]), hne, hback x hx⟩
  have hhanded : ∀ x ∈ decl :: s :: handed, st₂.scene.program.has (.stmt x) = true := by
    intro x hx
    rcases List.mem_cons.mp hx with rfl | hx
    · exact hl₂.larger.has _ hhas
    · exact (hlasts.trans hl₂).larger.has _ (hold x hx)
  obtain ⟨fs, hfs⟩ := hrest _ st₂ hgrown.room_le _ st' _ hu₂ (hafter _)
    ⟨front ++ [decl, s], back, by simpa using hlist₂, hnodup₂, hsplits, rfl⟩ hhanded h₃ hz
  exact ⟨st₂, es, fs, hes, hfs⟩

/-- An entry is accounted for if it is, and what comes after it. -/
theorem stmtsFrom_accounted (hsure : Sure modules p z) (haddr : z.scene.program.Addressable)
    {list : StmtList} {cursor : Cursor StmtId}
    (hrest : ∀ (task : Task) (st₁ : WalkState Normalizer),
      st₁.trail.seen.room < st.trail.seen.room → Accounted p modules z task st₁) :
    Accounted p modules z (.stmtsFrom list cursor) st := by
  intro stack st' ns h htop hdue hhanded hexec hz
  obtain ⟨front, back, hlist, hnodup, hsplits, rfl⟩ := hdue
  have hnode : st.trail.seen.contains list.node = true := h.top htop
  cases back with
  | nil =>
    rw [exec_stmtsFrom_nil hlist hsplits] at hexec
    cases hexec
    exact ⟨[], .refl _ _⟩
  | cons s back =>
    obtain ⟨hnodupFront, hnodupBack, hapart⟩ := List.nodup_append.mp hnodup
    obtain ⟨hnew, hnodupRest⟩ := List.nodup_cons.mp hnodupBack
    have hfront : s ∉ front := fun hmem => hapart s hmem s List.mem_cons_self rfl
    rw [exec_stmtsFrom_cons hlist hsplits.next] at hexec
    obtain ⟨_, st₁, h₁, h₂⟩ := ok_of_exec_bind hexec
    have hat := stmtAt?_of_stmtsIn hlist
    have hroom := room_lt_of_entry hat h₁
    have hplace :
        (Task.stmt (.entry list front.length)).AtTop modules stack st.scene.program := htop
    have hafter : ∀ cursor, (Task.stmtsFrom list cursor).AtTop modules stack st₁.scene.program :=
      fun _ => htop
    obtain ⟨hu₁, hl₁⟩ := h.run hplace h₁
    have hdue : st.scene.program.Due (.stmt (.entry list front.length)) [.stmt s] := by
      rw [Program.Due, hat]
      rfl
    have hleft : StmtLeft st st₁ (.entry list front.length) [.stmt s] :=
      stmt_accounted haddr hrest _ st₁ _ h hplace hdue trivial h₁
        ((hu₁.run (hafter _) h₂).2.trans hz)
    have hhanded₁ : ∀ x ∈ s :: cursor.handed, st₁.scene.program.has (.stmt x) = true := by
      intro x hx
      rcases List.mem_cons.mp hx with rfl | hx
      · exact hleft.has
      · exact hl₁.larger.has _ (hhanded x hx)
    have hheld : ∀ n, n = list.node → st.trail.seen.contains n = true := fun n hn => hn ▸ hnode
    -- what comes after the entries that the cursor is through with
    have hrest₁ : ∀ {done : List StmtId}, st₁.scene.program.stmtsIn list = done ++ back →
        (done ++ back).Nodup → Cursor.Splits ⟨front.length, s :: cursor.handed⟩ done back →
        ∃ fs, Balanced (· = list.node) st₁ st' (back.map .stmt) fs := fun hlist₁ hnodup hsplits =>
      hrest _ st₁ hroom _ st' _ hu₁ (hafter _) ⟨_, back, hlist₁, hnodup, hsplits, rfl⟩
        hhanded₁ h₂ hz
    cases hleft with
    | kept hes =>
      have hlist₁ : st₁.scene.program.stmtsIn list = front ++ [s] ++ back := by
        rw [Program.stmtsIn_congr (hes.moved.held_eq h.sound hnode id), hlist]
        simp
      obtain ⟨fs, hfs⟩ := hrest₁ hlist₁ (by simpa using hnodup) (hsplits.keep hnew)
      exact ⟨_, (hes.mono fun _ => False.elim).trans hfs hheld⟩
    | dropped hentry hc hnop hes hentries =>
      cases hentry
      have hlist₁ : st₁.scene.program.stmtsIn list = front ++ back := by
        rw [hentries, hlist, filter_ne_append_cons hfront hnew]
      obtain ⟨fs, hfs⟩ := hrest₁ hlist₁
        (hnodup.sublist ((List.sublist_cons_self s back).append_left front)) (hsplits.drop hnew)
      exact ⟨_, hes.trans hfs hheld⟩
    | @hoisted _ _ decl line _ st₀ _ news es hentry hc hif hstarts hes hfresh hdecl hentries =>
      cases hentry
      have hlist₁ := hentries front back hlist hfront
      obtain ⟨d, hd, hl⟩ := hdecl
      have hhas₀ : st₀.scene.program.has (.stmt decl) = true := Program.has_of_cell? hd
      have hother : decl ≠ s := fun he =>
        Program.ne_of_cell? hc hfresh (congrArg _ he.symm)
      have hdecl₁ : st₁.trail.seen.contains (.stmt decl) = false →
          ∃ d line, st₁.scene.program.cell? (.stmt decl) = some d ∧ d.label = .stmt .decl line :=
        fun hwaits => ⟨d, line, (hes.moved.waiting_cell hhas₀ hwaits fun he =>
          hother (NodeId.stmt.inj he)).trans hd, hl⟩
      obtain ⟨st₂, fs, gs, hfs, hgs⟩ := hoisted_accounted hsure haddr
        (fun task st₂ hle => hrest task st₂ (Nat.lt_of_le_of_lt hle hroom))
        h hu₁ hl₁ htop hlist hlist₁
        hnodup (fun x hx => hsplits.todo x (List.mem_cons_of_mem s hx))
        (List.forall_mem_cons.mpr ⟨Program.has_of_cell? hc, hhanded⟩) hfresh
        (hes.moved.frame.has _ hhas₀) hdecl₁ h₂ hz
      have hentry := hstarts.balanced (hes.trans (hfs.mono fun _ => False.elim)
        fun m hm => hm ▸ (hstarts.moved.seen _).mpr (.inr rfl)) (fun _ => .inl) hheld
      exact ⟨_, hentry.trans hgs hheld⟩

/-- Operands are accounted for if each of them is. -/
theorem operandsFrom_accounted (hsure : Sure modules p z) (haddr : z.scene.program.Addressable)
    {owner : ExprOwner} {i : Nat} (hrest : ∀ (task : Task) (st₁ : WalkState Normalizer),
      st₁.trail.seen.room < st.trail.seen.room → Accounted p modules z task st₁) :
    Accounted p modules z (.operandsFrom owner i) st := by
  intro stack st' ns h htop hdue _ hexec hz
  obtain rfl : ns = ((st.scene.program.operands owner).drop i).map .expr := hdue
  by_cases hi : i < (st.scene.program.operands owner).length
  · rw [exec_operandsFrom_lt hi] at hexec
    obtain ⟨_, st₁, h₁, h₂⟩ := ok_of_exec_bind hexec
    have hat : st.scene.program.exprAt? ⟨owner, i⟩ = some (st.scene.program.operands owner)[i] :=
      List.getElem?_eq_getElem hi
    have hroom := room_lt_of_operand hat h₁
    have howner : st.trail.seen.contains owner.node = true := h.top htop
    have hplace : (Task.expr ⟨owner, i⟩).AtTop modules stack st.scene.program := htop
    have hafter : (Task.operandsFrom owner (i + 1)).AtTop modules stack st₁.scene.program := htop
    obtain ⟨hu₁, _⟩ := h.run hplace h₁
    have hdue : st.scene.program.Due (.expr ⟨owner, i⟩)
        [.expr (st.scene.program.operands owner)[i]] := by
      rw [Program.Due, hat]
      rfl
    obtain ⟨⟨es, hes⟩, hcell⟩ : Outcome st st₁ _ (.expr ⟨owner, i⟩) :=
      expr_accounted hsure haddr hrest _
      st₁ _ h hplace hdue trivial h₁ ((hu₁.run hafter h₂).2.trans hz)
    obtain ⟨c, hc⟩ := Program.exists_cell? (h.sound _ howner)
    obtain ⟨exprs, hc₁, hdrop⟩ := hcell c hc
    have hsame : ((st₁.scene.program.operands owner).drop (i + 1)).map NodeId.expr =
        ((st.scene.program.operands owner).drop (i + 1)).map .expr := by
      rw [List.map_drop, List.map_drop, ← Program.exprs_of_cell? owner hc₁,
        ← Program.exprs_of_cell? owner hc]
      exact hdrop
    obtain ⟨⟨fs, hfs⟩, hcell₁⟩ : Outcome st₁ st' _ (.operandsFrom owner (i + 1)) :=
      hrest _ st₁ hroom _ st' _ hu₁ hafter rfl trivial h₂ hz
    rw [hsame] at hfs
    rw [List.drop_eq_getElem_cons hi]
    refine ⟨⟨_, hes.trans hfs fun n hn => hn ▸ howner⟩, fun c' hc' => ?_⟩
    rw [hc, Option.some.injEq] at hc'
    subst hc'
    exact hcell₁ { c with exprs } hc₁
  · rw [exec_operandsFrom_ge hi] at hexec
    cases hexec
    rw [List.drop_eq_nil_of_le (by omega)]
    exact ⟨⟨[], .refl _ _⟩, fun c hc => ⟨c.exprs, hc⟩⟩

/-- A list of symbols is accounted for if what its cursor hands out is. -/
theorem symbols_accounted {list : SymbolList} (hrest : ∀ cursor : Cursor SymbolId,
      Accounted p modules z (.symbolsFrom list cursor) st) :
    Accounted p modules z (.symbols list) st := by
  intro stack st' ns h htop hdue _ hexec hz
  by_cases hnodup : (st.scene.program.symbolsIn list).Nodup
  · rw [exec_symbols hnodup] at hexec
    exact hrest .start _ st' ns h htop ⟨[], _, rfl, hnodup, Cursor.splits_start _, hdue⟩
      trivial hexec
      hz
  · obtain ⟨s, _, hfail⟩ := exec_symbols_repeat hooks hnodup
    rw [hfail] at hexec
    cases hexec

theorem stmts_accounted {list : StmtList} (hrest : ∀ cursor : Cursor StmtId,
      Accounted p modules z (.stmtsFrom list cursor) st) :
    Accounted p modules z (.stmts list) st := by
  intro stack st' ns h htop hdue _ hexec hz
  by_cases hnodup : (st.scene.program.stmtsIn list).Nodup
  · rw [exec_stmts hnodup] at hexec
    exact hrest .start _ st' ns h htop ⟨[], _, rfl, hnodup, Cursor.splits_start _, hdue⟩
      (by simp [Handed, Cursor.start]) hexec hz
  · obtain ⟨s, _, hfail⟩ := exec_stmts_repeat hooks hnodup
    rw [hfail] at hexec
    cases hexec

/-- Every task of a run is accounted for. -/
theorem accounted (hsure : Sure modules p z) (haddr : z.scene.program.Addressable)
    (task : Task) (st : WalkState Normalizer) : Accounted p modules z task st := by
  induction task, st using task_induction with
  | step task st ih =>
  have hlater : ∀ (t : Task) (st₁ : WalkState Normalizer),
      st₁.trail.seen.room < st.trail.seen.room → Accounted p modules z t st₁ :=
    fun _ _ hroom => ih.later hroom
  cases task with
  | module m => exact module_accounted hlater
  | symbol s => exact symbol_accounted hlater
  | stmt place => exact stmt_accounted haddr hlater
  | expr place => exact expr_accounted hsure haddr hlater
  | symbols list => exact symbols_accounted fun _ => symbolsFrom_accounted hlater
  | symbolsFrom list cursor => exact symbolsFrom_accounted hlater
  | stmts list => exact stmts_accounted fun _ => stmtsFrom_accounted hsure haddr hlater
  | stmtsFrom list cursor => exact stmtsFrom_accounted hsure haddr hlater
  | operandsFrom owner i => exact operandsFrom_accounted hsure haddr hlater

end Normalize

end MiddleEnd
