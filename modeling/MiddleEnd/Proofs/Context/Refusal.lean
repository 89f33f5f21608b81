import MiddleEnd.Proofs.Context.Brackets

/-!
# MiddleEnd.Proofs.Context.Refusal

What is left of a move that a context refused.  A move is checked before anything is changed, with
one exception: a statement is first taken off the open statements and then looked for among the
frames.  Where it is the innermost of the former only (`Overtaken`), leaving it is refused and all
the same it is not open any more; every other refusal leaves the context as it was
(`refused_unchanged`).

Contexts are those that any requests lead to, of which some may have been refused before.  As long
as no statement was overtaken, open statements and frames go together (`Aligned`): the first
statement that is overtaken has a symbol in it that was entered and not left.
-/

namespace MiddleEnd.Context

open Walk

/-! ## Requests -/

/-- What a context can be asked for. -/
inductive Request where
  | beginModule (m : ModuleId)
  | endModule
  | bracket (b : Bracket)
deriving DecidableEq, Repr

/-- The move that goes with a request. -/
def Request.move : Request → ContextM Unit
  | beginModule m => Context.beginModule m
  | endModule => Context.endModule
  | bracket b => b.move

/-- The request to leave a statement. -/
def Request.leaveStmt (s : StmtId) : Request := .bracket (.leave (.stmt s))

/-- The request is refused here. -/
def Refuses (c : Context) (r : Request) : Prop := ∃ cause, (exec r.move c).1 = .error cause

/-- The context after a request, whether it was accepted or refused. -/
def respond (c : Context) (r : Request) : Context := (exec r.move c).2

/-- The context after requests, of which any may have been refused. -/
def after (rs : List Request) : Context := rs.foldl respond start

/-- The last request meets the context that those before it left. -/
theorem after_append_singleton (rs : List Request) (r : Request) :
    after (rs ++ [r]) = (after rs).respond r := by
  rw [after, List.foldl_append]
  rfl

/-- The statement to leave is the innermost open one, and not the innermost frame. -/
def Overtaken (c : Context) (r : Request) : Prop :=
  ∃ s, r = .leaveStmt s ∧ c.enclosingStmt = some s ∧ c.frames.head? ≠ some (.stmt s)

/-- Without the innermost open statement, which its frame outlasts. -/
def popped (c : Context) : Context :=
  { c with stmts := { c.stmts with stack := c.stmts.stack.tail, pops := c.stmts.pops + 1 } }

/-! ## Refusals -/

section

variable {c : Context} {r : Request}

/-- A request is accepted or refused. -/
theorem exec_eq_of_not_refuses (h : ¬ c.Refuses r) : exec r.move c = (.ok (), c.respond r) := by
  rw [respond]
  rcases hexec : exec r.move c with ⟨cause | ⟨⟩, d⟩
  · exact absurd ⟨cause, congrArg Prod.fst hexec⟩ h
  · rfl

theorem popped_ne (c : Context) : c.popped ≠ c := fun h => by
  have hpops : c.stmts.pops + 1 = c.stmts.pops := congrArg (·.stmts.pops) h
  omega

/-- A statement that is overtaken is refused, and taken off the open statements. -/
theorem Overtaken.respond (h : c.Overtaken r) : c.Refuses r ∧ c.respond r = c.popped := by
  obtain ⟨s, rfl, hstmt, hframes⟩ := h
  obtain ⟨rest, hstack⟩ := List.head?_eq_some_iff.mp hstmt
  have hexec : exec (Request.leaveStmt s).move c =
      (.error (notInnermost "post_stmt" s.text c.frames), c.popped) := by
    simp only [Request.move, Request.leaveStmt, Bracket.move, Context.leaveStmt, popped, exec_bind,
      exec_get, OpenStmts.pop, hstack, if_true, exec_set, List.tail_cons]
    split
    · next t _ hc =>
      rw [if_neg fun ht : t = s => hframes (by rw [hc, ht]; rfl)]
      rfl
    · rfl
  rw [Refuses, Context.respond, hexec]
  exact ⟨⟨_, rfl⟩, rfl⟩

/-- Any other request is looked at before anything is changed. -/
theorem respond_of_refuses (h : c.Refuses r) (hr : ¬ c.Overtaken r) : c.respond r = c := by
  obtain ⟨cause, h⟩ := h
  rw [respond]
  match r with
  | .beginModule m =>
    simp only [Request.move, beginModule, exec_bind, exec_get] at h ⊢
    cases hclear : c.isClear <;> rw [hclear] at h
    · rfl
    · cases h
  | .endModule =>
    simp only [Request.move, endModule, exec_bind, exec_get] at h ⊢
    cases hclear : c.isClear <;> rw [hclear] at h
    · rfl
    · cases h
  | .bracket (.enter f) =>
    rw [Request.move, exec_enter] at h
    cases h
  | .bracket (.leave (.symbol s)) =>
    simp only [Request.move, Bracket.move, leaveSymbol, exec_bind, exec_get] at h ⊢
    split
    · split
      · simp_all
      · rfl
    · rfl
  | .bracket (.leave (.stmt s)) =>
    by_cases hstmt : c.enclosingStmt = some s
    · -- the innermost in both ways, the statement is left
      have hframes : c.frames.head? = some (.stmt s) := by
        by_contra hframes
        exact hr ⟨s, rfl, hstmt, hframes⟩
      obtain ⟨stmts, hstack⟩ := List.head?_eq_some_iff.mp hstmt
      obtain ⟨frames, hframes⟩ := List.head?_eq_some_iff.mp hframes
      simp [Request.move, Bracket.move, leaveStmt, exec_bind, OpenStmts.pop, hstack, hframes] at h
    · simp only [Request.move, Bracket.move, leaveStmt, exec_bind, exec_get, OpenStmts.pop]
      rcases hstack : c.stmts.stack with _ | ⟨top, rest⟩
      · rfl
      · have hne : top ≠ s := fun he =>
          hstmt (by rw [enclosingStmt, OpenStmts.top?, hstack, he]; rfl)
        simp only [if_neg hne, exec_throw]

/-- A request that is refused changes nothing exactly if no statement is overtaken. -/
theorem respond_eq_iff (h : c.Refuses r) : c.respond r = c ↔ ¬ c.Overtaken r :=
  ⟨fun hc hr => popped_ne c (hr.respond.2.symm.trans hc), respond_of_refuses h⟩

end

/-! ## Open statements and frames -/

/-- The open statements are the frames that are statements. -/
def Aligned (c : Context) : Prop :=
  ∃ fs : List Frame, c.frames = fs.map Frame.scope ∧ c.stmts.stack = fs.filterMap Frame.stmt?

section

variable {c d : Context} {r : Request}

/-- Open statements and frames are moved together. -/
theorem Aligned.of_accepted (h : c.Aligned) (hexec : exec r.move c = (.ok (), d)) : d.Aligned := by
  obtain ⟨fs, hframes, hstack⟩ := h
  match r with
  | .beginModule m =>
    simp only [Request.move, beginModule, exec_bind, exec_get] at hexec
    cases hclear : c.isClear <;> rw [hclear] at hexec <;> cases hexec
    have hempty : c.frames = [] := List.isEmpty_iff.mp (Bool.and_eq_true _ _ ▸ hclear).2
    exact ⟨[], hempty, rfl⟩
  | .endModule =>
    simp only [Request.move, endModule, exec_bind, exec_get] at hexec
    cases hclear : c.isClear <;> rw [hclear] at hexec <;> cases hexec
    exact ⟨fs, hframes, hstack⟩
  | .bracket (.enter f) =>
    rw [Request.move, exec_enter] at hexec
    cases hexec
    refine ⟨f :: fs, ?_, ?_⟩
    · cases f <;> exact congrArg (_ :: ·) hframes
    · cases f with
      | symbol s => exact hstack
      | stmt s => exact congrArg (s :: ·) hstack
  | .bracket (.leave f) =>
    have hlevel : Level (d.inFrame f) c := level_of_leave hexec
    have hinner : fs.map Frame.scope = f.scope :: d.frames := by
      rw [← hframes, hlevel.frames]
      cases f <;> rfl
    obtain ⟨g, gs, rfl, hscope, hrest⟩ := List.map_eq_cons_iff.mp hinner
    obtain rfl := Frame.scope_injective hscope
    refine ⟨gs, hrest.symm, ?_⟩
    have hstack' := hlevel.stack.symm.trans hstack
    cases g with
    | symbol s => exact hstack'
    | stmt s => exact (List.cons.inj hstack').2

/-- Where open statements and frames go together, a statement is overtaken by a symbol. -/
theorem Aligned.symbol_of_overtaken (h : c.Aligned) (hr : c.Overtaken r) :
    ∃ t, c.frames.head? = some (.symbol t) := by
  obtain ⟨fs, hframes, hstack⟩ := h
  obtain ⟨s, rfl, hstmt, hne⟩ := hr
  rw [enclosingStmt, OpenStmts.top?, hstack] at hstmt
  rw [hframes] at hne ⊢
  cases fs with
  | nil => cases hstmt
  | cons f fs =>
    cases f with
    | symbol t => exact ⟨t, rfl⟩
    | stmt t =>
      obtain rfl := Option.some.inj hstmt
      exact absurd rfl hne

end

/-- Requests among which a statement was overtaken. -/
def Spoiled (rs : List Request) : Prop :=
  ∃ front r back, rs = front ++ r :: back ∧ (after front).Overtaken r

/-- By induction on the last request: a refusal, too, keeps open statements and frames together as
long as it changes nothing. -/
theorem aligned_or_spoiled (rs : List Request) : (after rs).Aligned ∨ Spoiled rs := by
  induction rs using List.reverseRecOn with
  | nil => exact .inl ⟨[], rfl, rfl⟩
  | append_singleton rs r ih =>
    rcases ih with h | ⟨front, r', back, rfl, hr⟩
    · by_cases hr : (after rs).Overtaken r
      · exact .inr ⟨rs, r, [], rfl, hr⟩
      · rw [after_append_singleton]
        by_cases href : (after rs).Refuses r
        · rw [respond_of_refuses href hr]
          exact .inl h
        · exact .inl (h.of_accepted (exec_eq_of_not_refuses href))
    · exact .inr ⟨front, r', back ++ [r], by simp, hr⟩

/-- A request that is refused leaves the context as it was, whatever was asked for before: unless a
statement is overtaken.  This one is taken off the open statements, while the module and the frames
stay; and the first one of all is overtaken by a symbol that was entered in it. -/
theorem refused_unchanged (rs : List Request) (r : Request) (h : (after rs).Refuses r) :
    ((after rs).respond r = after rs ↔ ¬ (after rs).Overtaken r) ∧
    ((after rs).Overtaken r → (after rs).respond r = (after rs).popped ∧
      ((∃ t, (after rs).frames.head? = some (.symbol t)) ∨ Spoiled rs)) :=
  ⟨respond_eq_iff h, fun hr => ⟨hr.respond.2,
    (aligned_or_spoiled rs).imp_left fun haligned => haligned.symbol_of_overtaken hr⟩⟩

/-- A statement in which a symbol was entered. -/
def declaring : List Request :=
  [.beginModule ⟨0⟩, .bracket (.enter (.stmt ⟨1⟩)), .bracket (.enter (.symbol ⟨0⟩))]

/-- To leave the symbol by another id, or to end the module, changes nothing. -/
theorem refused_unchanged_declaring :
    (after declaring).respond (.bracket (.leave (.symbol ⟨2⟩))) = after declaring ∧
    (after declaring).respond .endModule = after declaring := by
  have hother : ∀ r, r ≠ .leaveStmt ⟨1⟩ → ¬ (after declaring).Overtaken r := by
    rintro r hr ⟨s, rfl, hstmt, _⟩
    obtain rfl : ⟨1⟩ = s := Option.some.inj hstmt
    exact hr rfl
  exact ⟨(refused_unchanged declaring _ ⟨_, rfl⟩).1.mpr (hother _ (by decide)),
    (refused_unchanged declaring _ ⟨_, rfl⟩).1.mpr (hother _ (by decide))⟩

/-- To leave the statement is refused and changes what is open: its frame stays, and can not be left
any more after the symbol was. -/
theorem refused_changes_declaring :
    (after declaring).Refuses (.leaveStmt ⟨1⟩) ∧
    (after declaring).stmts = ⟨[⟨1⟩], 1, 0⟩ ∧
    ((after declaring).respond (.leaveStmt ⟨1⟩)).stmts = ⟨[], 1, 1⟩ ∧
    (after declaring).respond (.leaveStmt ⟨1⟩) ≠ after declaring ∧
    (after (declaring ++ [.leaveStmt ⟨1⟩, .bracket (.leave (.symbol ⟨0⟩))])).frames =
      [.stmt ⟨1⟩] ∧
    (after (declaring ++ [.leaveStmt ⟨1⟩, .bracket (.leave (.symbol ⟨0⟩))])).Refuses
      (.leaveStmt ⟨1⟩) :=
  ⟨⟨_, rfl⟩, rfl, rfl, by decide, rfl, ⟨_, rfl⟩⟩

end MiddleEnd.Context
