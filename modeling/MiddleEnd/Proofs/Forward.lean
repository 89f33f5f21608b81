import MiddleEnd.Proofs.Normalize.Result
import MiddleEnd.Proofs.Tracks
import MiddleEnd.Proofs.Walk.Trace

/-!
# MiddleEnd.Proofs.Forward

A pass at the hands of another visitor.  A `Forwarder` hands each hook call that it gets on to a
pass, once, and is free in what it does before and after: it may change the program at will, as long
as no node goes away, and it may refuse.  Wherever it leads the walk, the context of the pass keeps
step with it: after each forwarded call its frames are the symbols and statements whose first hook
was accepted and whose last hook was not, in the order in which they were met (`forwards_in_step`).

The invariant is that the context shows the visits which are going on, and that the calls so far
leave open the same ones (`Forwarder.Going`).
-/

namespace MiddleEnd

open Walk

variable {σ τ : Type}

/-! ## Visitors that forward -/

/-- The state of a visitor that forwards its hooks. -/
structure Forwarding (σ τ : Type) where
  /-- The state of the pass that is forwarded to. -/
  pass : σ
  /-- What the visitor keeps for itself. -/
  own : τ
  /-- The forwarded calls with what came of them, written down and never read. -/
  calls : List (Event σ)

/-- A visitor that forwards its hooks to a pass.  What it does depends on the call, on the program
and on both states. -/
structure Forwarder (σ τ : Type) where
  name : String
  before : Call → Program → σ → τ → Program × τ
  /-- The visitor is told what the pass answered, and may answer something else. -/
  after : Call → Except Refusal Unit → Program → σ → τ → Except Refusal Unit × Program × τ

namespace Forwarder

/-- The hook that is called, with the call forwarded to other hooks. -/
def hook (f : Forwarder σ τ) (h : Hooks σ) (c : Call) : HookM (Forwarding σ τ) Unit :=
  ExceptT.mk fun scene =>
    let (program, own) := f.before c scene.program scene.own.pass scene.own.own
    let (result, left) := (h.hook c).run.run ⟨program, scene.own.pass⟩
    let (answer, program, own) := f.after c result left.program left.own own
    (answer, ⟨program, ⟨left.own, own, scene.own.calls ++ [⟨c, result.isOk, left⟩]⟩⟩)

/-- The hooks of the visitor. -/
def hooks (f : Forwarder σ τ) (h : Hooks σ) : Hooks (Forwarding σ τ) where
  pass := f.name
  preSymbol s := f.hook h (.preSymbol s)
  postSymbol s := f.hook h (.postSymbol s)
  preStmt s place := f.hook h (.preStmt s place)
  postStmt s := f.hook h (.postStmt s)
  preExpr e place := f.hook h (.preExpr e place)
  postExpr e := f.hook h (.postExpr e)

/-- No node goes away before a call is forwarded. -/
def KeepsNodes (f : Forwarder σ τ) : Prop :=
  ∀ c p pass own n, p.has n = true → (f.before c p pass own).1.has n = true

/-- Each of the forwarder's hooks does its own work around the call of the pass. -/
theorem hook_hooks (f : Forwarder σ τ) (h : Hooks σ) (c : Call) :
    (f.hooks h).hook c = f.hook h c := by
  cases c <;> rfl

/-- A forwarded call runs what comes before it, the pass, and what comes after it, and is noted with
what the pass answered. -/
theorem exec_hook (f : Forwarder σ τ) (h : Hooks σ) (c : Call) (scene : Scene (Forwarding σ τ)) :
    exec (f.hook h c) scene =
      let ready := f.before c scene.program scene.own.pass scene.own.own
      let did := exec (h.hook c) ⟨ready.1, scene.own.pass⟩
      let done := f.after c did.1 did.2.program did.2.own ready.2
      (done.1, ⟨done.2.1, ⟨did.2.own, done.2.2, scene.own.calls ++ [⟨c, did.1.isOk, did.2⟩]⟩⟩) :=
  rfl

/-- A call that the pass accepts. -/
theorem exec_hook_ok (f : Forwarder σ τ) {h : Hooks σ} {c : Call} (scene : Scene (Forwarding σ τ))
    {left : Scene σ} (hleft : exec (h.hook c)
      ⟨(f.before c scene.program scene.own.pass scene.own.own).1, scene.own.pass⟩ =
        (.ok (), left)) :
    ∃ answer program own, exec (f.hook h c) scene =
      (answer, ⟨program, ⟨left.own, own, scene.own.calls ++ [⟨c, true, left⟩]⟩⟩) := by
  rw [exec_hook]
  dsimp only
  rw [hleft]
  exact ⟨_, _, _, rfl⟩

end Forwarder

/-! ## What is open -/

/-- The last hook of a node was called and accepted. -/
def Ended (es : List (Event σ)) (n : NodeId) : Prop :=
  ∃ e ∈ es, e.Ends ∧ e.accepted = true ∧ e.node = n

instance (es : List (Event σ)) (n : NodeId) : Decidable (Ended es n) :=
  inferInstanceAs (Decidable (∃ e ∈ es, _))

/-- The symbols and statements whose first hook was accepted and whose last hook was not, in the
order in which they were met. -/
def openFrames (es : List (Event σ)) : List Scope :=
  es.filterMap fun e =>
    if e.Begins ∧ e.accepted = true ∧ ¬ Ended es e.node then e.node.frame? else none

/-- The statement, if the scope is one. -/
def Scope.stmt? : Scope → Option StmtId
  | .stmt s => some s
  | _ => none

/-- A context says of a walk what its calls say. -/
structure Context.AgreesWith (c : Context) (es : List (Event σ)) : Prop where
  frames : c.frames.reverse = openFrames es
  stack : c.stmts.stack.reverse = (openFrames es).filterMap Scope.stmt?

/-- After each call, which was accepted, the context of the pass agrees with the calls so far. -/
def Pass.InStep (pass : Pass σ) (es : List (Event σ)) : Prop :=
  ∀ before e after, es = before ++ e :: after → e.accepted = true ∧
    (pass.context e.scene.own).AgreesWith (before ++ [e])

section

variable {es : List (Event σ)} {e : Event σ} {n : NodeId} {pass : Pass σ} {stack : List NodeId}

/-- Calls keep step with one more that was accepted, if the context then agrees with all of them. -/
theorem Pass.InStep.snoc (h : pass.InStep es) (haccepted : e.accepted = true)
    (hagrees : (pass.context e.scene.own).AgreesWith (es ++ [e])) : pass.InStep (es ++ [e]) := by
  intro before f after heq
  rcases List.append_eq_append_iff.mp heq with ⟨mid, rfl, hmid⟩ | ⟨mid, rfl, hmid⟩
  · obtain rfl : mid = [] := by
      cases mid with
      | nil => rfl
      | cons x mid => simp at hmid
    obtain ⟨rfl, rfl⟩ : f = e ∧ after = [] := by simpa [eq_comm] using hmid
    rw [List.append_nil]
    exact ⟨haccepted, hagrees⟩
  · cases mid with
    | nil =>
      obtain ⟨rfl, rfl⟩ : f = e ∧ after = [] := by simpa [eq_comm] using hmid
      rw [List.append_nil] at hagrees
      exact ⟨haccepted, hagrees⟩
    | cons x mid =>
      obtain ⟨rfl, rfl⟩ := List.cons.inj hmid
      exact h before f mid rfl

/-- A first hook opens its node, if that was not met before. -/
theorem openFrames_begins (hbegins : e.Begins) (haccepted : e.accepted = true)
    (hnew : ∀ f ∈ es, f.node ≠ e.node) :
    openFrames (es ++ [e]) = openFrames es ++ e.node.frame?.toList := by
  have hended : ∀ n, Ended (es ++ [e]) n ↔ Ended es n := fun n => by
    have := hbegins.not_ends
    simp [Ended, this]
  have hnot : ¬ Ended es e.node := fun ⟨f, hf, _, _, hnode⟩ => hnew f hf hnode
  have hlast : [e].filterMap (fun f => if f.Begins ∧ f.accepted = true ∧ ¬ Ended es f.node then
      f.node.frame? else none) = e.node.frame?.toList := by
    cases hframe : e.node.frame? <;> simp [hbegins, haccepted, hnot, hframe]
  simp only [openFrames, hended, List.filterMap_append, hlast]

/-- A node is known by its frame. -/
theorem NodeId.frame?_inj {n m : NodeId} {x : Scope} (hn : n.frame? = some x)
    (hm : m.frame? = some x) : n = m := by
  cases n <;> cases hn <;> cases m <;> cases hm <;> rfl

/-- A last hook closes its node, and no other. -/
theorem openFrames_ends (hends : e.Ends) (haccepted : e.accepted = true) :
    openFrames (es ++ [e]) = (openFrames es).filter fun x => some x ≠ e.node.frame? := by
  have hended : ∀ n, Ended (es ++ [e]) n ↔ Ended es n ∨ e.node = n := fun n => by
    simp [Ended, or_and_right, exists_or, hends, haccepted]
  have hlast : openFrames (es ++ [e]) = es.filterMap fun f =>
      if f.Begins ∧ f.accepted = true ∧ ¬ Ended (es ++ [e]) f.node then f.node.frame?
      else none := by
    have := hends.not_begins
    rw [openFrames, List.filterMap_append]
    simp [this]
  rw [hlast, openFrames, List.filter_filterMap]
  refine List.filterMap_congr fun f _ => ?_
  by_cases hopen : f.Begins ∧ f.accepted = true ∧ ¬ Ended es f.node
  · cases hframe : f.node.frame? with
    | none => simp [hopen]
    | some x =>
      by_cases hnode : e.node = f.node
      · simp [hopen, hended, hframe, hnode, Option.filter_some]
      · have hne : some x ≠ e.node.frame? := fun heq =>
          hnode (NodeId.frame?_inj heq.symm hframe)
        simp [hopen, hended, hnode, hne, Option.filter_some]
  · have hclosed : ¬ (f.Begins ∧ f.accepted = true ∧ ¬ Ended (es ++ [e]) f.node) := fun h =>
      hopen ⟨h.1, h.2.1, fun hend => h.2.2 ((hended _).mpr (.inl hend))⟩
    simp [hopen, hclosed]

theorem filterMap_stmt?_frames (stack : List NodeId) :
    (stack.filterMap NodeId.frame?).filterMap Scope.stmt? = stack.filterMap NodeId.stmt? := by
  rw [List.filterMap_filterMap]
  refine List.filterMap_congr fun n _ => ?_
  cases n <;> rfl

/-- A context that shows the visits which the calls leave open. -/
theorem Context.Shows.agreesWith {c : Context} (h : c.Shows stack)
    (hes : openFrames es = (stack.filterMap NodeId.frame?).reverse) : c.AgreesWith es where
  frames := by rw [h.frames, hes]
  stack := by
    rw [h.stack, hes, List.filterMap_reverse, filterMap_stmt?_frames]

end

/-! ## Keeping step -/

/-- The calls that were forwarded since a state keep step. -/
def Pass.Followed (pass : Pass σ) (start st : WalkState (Forwarding σ τ)) : Prop :=
  ∃ es, st.scene.own.calls = start.scene.own.calls ++ es ∧ pass.InStep es

/-- The walk of a visitor that forwards to a pass, since a state, while these visits are going
on. -/
structure Forwarder.Going (pass : Pass σ) (start : WalkState (Forwarding σ τ)) (stack : List NodeId)
    (st : WalkState (Forwarding σ τ)) : Prop where
  shows : (pass.context st.scene.own.pass).Shows stack
  grounded : Grounded stack
  nodup : stack.Nodup
  seen : ∀ n ∈ stack, st.trail.seen.contains n = true
  calls : ∃ es, st.scene.own.calls = start.scene.own.calls ++ es ∧ pass.InStep es ∧
    openFrames es = (stack.filterMap NodeId.frame?).reverse ∧
    ∀ e ∈ es, st.trail.seen.contains e.node = true
  count : st.trail.tally.stmts =
    start.trail.tally.stmts + (pass.context st.scene.own.pass).stmts.pushes

/-- The count of statements grows by one with each statement, and with nothing else. -/
theorem Tally.stmts_count (t : Tally) (step : Step) :
    (t.count step).stmts = t.stmts + if step = .stmt then 1 else 0 := by
  cases step <;> rfl

/-- A hook is called, and the walk goes on or halts there. -/
theorem Walk.does_call {h : Hooks σ} {n : NodeId} {hook : HookM σ Unit} {st : WalkState σ}
    {answer : Except Refusal Unit} {scene : Scene σ} {ok : Unit → WalkState σ → Prop}
    {halt : Halt → WalkState σ → Prop} (hhook : exec hook st.scene = (answer, scene))
    (hok : ok () { st with scene }) (hhalt : ∀ e, halt e { st with scene }) :
    Does (call h n hook) st ok halt := by
  have hcall := exec_call h n hook st
  rw [hhook] at hcall
  match answer with
  | .ok () => exact does_of_ok hcall hok
  | .error (.defect cause) => exact does_of_error hcall (hhalt _)
  | .error (.fault fault) => exact does_of_error hcall (hhalt _)

namespace Forwarder.Going

variable {pass : Pass σ} {f : Forwarder σ τ} {start st : WalkState (Forwarding σ τ)}
  {stack : List NodeId} {m : ModuleId} {c : Call}

/-- A visitor that is underway has kept step so far. -/
theorem followed (h : Going pass start stack st) : pass.Followed start st := by
  obtain ⟨es, hcalls, hstep, _⟩ := h.calls
  exact ⟨es, hcalls, hstep⟩

/-- A node that was not met is not being visited. -/
theorem not_mem {n : NodeId} (h : Going pass start stack st)
    (hunseen : st.trail.seen.contains n = false) : n ∉ stack :=
  fun hn => NodeSet.ne_of_contains (h.seen n hn) hunseen rfl

theorem enter (h : Going pass start stack st)
    (hunseen : st.trail.seen.contains (.module m) = false) :
    Going pass start (.module m :: stack) (entering (.module m) st) where
  shows := (Context.Shows.congr rfl rfl).mpr h.shows
  grounded := h.grounded.module m
  nodup := List.nodup_cons.mpr ⟨h.not_mem hunseen, h.nodup⟩
  seen n hn := by
    rcases List.mem_cons.mp hn with rfl | hn
    · exact seen_entering _ st
    · exact grown_entering _ st n (h.seen n hn)
  calls := by
    obtain ⟨es, hcalls, hstep, hopen, hes⟩ := h.calls
    exact ⟨es, hcalls, hstep, hopen, fun e he => grown_entering _ st _ (hes e he)⟩
  count := h.count

/-- A visit without a frame goes away. -/
theorem forget {n : NodeId} (h : Going pass start (n :: stack) st) (hframe : n.frame? = none)
    (hstmt : n.stmt? = none) : Going pass start stack (leaving n st) where
  shows := (Context.Shows.congr hframe hstmt).mp h.shows
  grounded := h.grounded.tail
  nodup := (List.nodup_cons.mp h.nodup).2
  seen k hk := h.seen k (List.mem_cons_of_mem n hk)
  calls := by
    obtain ⟨es, hcalls, hstep, hopen, hes⟩ := h.calls
    have hframes : (n :: stack).filterMap NodeId.frame? = stack.filterMap NodeId.frame? := by
      simp [hframe]
    exact ⟨es, hcalls, hstep, by rw [hopen, hframes], hes⟩
  count := h.count

/-- A node is entered and its first hook forwarded, which the pass accepts. -/
theorem opens (hpass : pass.Tracks) (hkeeps : f.KeepsNodes) (h : Going pass start stack st)
    (hpre : c.isPre = true) (hsited : c.Sited stack st.scene.program)
    (hhas : st.scene.program.has c.node = true) (hunseen : st.trail.seen.contains c.node = false) :
    Does (call (f.hooks pass.hooks) c.node ((f.hooks pass.hooks).hook c)) (entering c.node st)
      (fun _ => Going pass start (c.node :: stack)) fun _ => pass.Followed start := by
  obtain ⟨d, hmove, hshows, hpushes⟩ := h.shows.opens hpre
  have hstmt : ∀ e place, c = .preExpr e place →
      (pass.context st.scene.own.pass).enclosingStmt.isSome = true := by
    rintro e place rfl
    exact h.shows.enclosingStmt (h.grounded.stmt_of_sited hsited)
  obtain ⟨left, hleft, hcontext, _⟩ := hpass.moves
    ⟨(f.before c st.scene.program st.scene.own.pass st.scene.own.own).1, _⟩
    (fun _ => hkeeps _ _ _ _ _ hhas) hstmt hmove
  obtain ⟨answer, program, own, hexec⟩ := f.exec_hook_ok st.scene hleft
  obtain ⟨es, hcalls, hstep, hopen, hes⟩ := h.calls
  have hnew : ∀ e ∈ es, e.node ≠ c.node := fun e he =>
    NodeSet.ne_of_contains (hes e he) hunseen
  -- the calls, with this one, leave this node open as well
  have hopen' : openFrames (es ++ [⟨c, true, left⟩]) =
      ((c.node :: stack).filterMap NodeId.frame?).reverse := by
    have hbegins : (⟨c, true, left⟩ : Event σ).Begins := hpre
    rw [openFrames_begins hbegins rfl hnew, hopen]
    cases hframe : c.node.frame? <;> simp [Event.node, hframe]
  have hstep' : pass.InStep (es ++ [⟨c, true, left⟩]) :=
    hstep.snoc rfl ((hcontext ▸ hshows).agreesWith hopen')
  have hcalls' : st.scene.own.calls ++ [⟨c, true, left⟩] =
      start.scene.own.calls ++ (es ++ [⟨c, true, left⟩]) := by
    rw [hcalls, List.append_assoc]
  rw [hook_hooks]
  refine does_call hexec ⟨hcontext ▸ hshows, h.grounded.opens hpre hsited,
    List.nodup_cons.mpr ⟨h.not_mem hunseen, h.nodup⟩, fun n hn => ?_,
    ⟨_, hcalls', hstep', hopen', fun e he => ?_⟩, ?_⟩ fun _ => ⟨_, hcalls', hstep'⟩
  · rcases List.mem_cons.mp hn with rfl | hn
    · exact seen_entering _ st
    · exact grown_entering _ st n (h.seen n hn)
  · rcases List.mem_append.mp he with he | he
    · exact grown_entering _ st _ (hes e he)
    · rw [List.mem_singleton.mp he]
      exact seen_entering _ st
  · have hcount := h.count
    simp only [entering, Tally.stmts_count, hcontext, hpushes]
    omega

/-- The last hook of the innermost visit is forwarded, which the pass accepts. -/
theorem closes (hpass : pass.Tracks) (h : Going pass start (c.node :: stack) st)
    (hpost : c.isPre = false) :
    Does (call (f.hooks pass.hooks) c.node ((f.hooks pass.hooks).hook c)) st
      (fun _ st' => Going pass start stack (leaving c.node st')) fun _ => pass.Followed start := by
  obtain ⟨d, hmove, hshows, hpushes⟩ := h.shows.closes hpost
  obtain ⟨left, hleft, hcontext, _⟩ := hpass.moves
    ⟨(f.before c st.scene.program st.scene.own.pass st.scene.own.own).1, _⟩
    (fun hpre => absurd hpre (by simp [hpost])) (fun e place hc => by
      rw [hc] at hpost
      cases hpost) hmove
  obtain ⟨answer, program, own, hexec⟩ := f.exec_hook_ok st.scene hleft
  obtain ⟨es, hcalls, hstep, hopen, hes⟩ := h.calls
  have hnot : ∀ x ∈ stack.filterMap NodeId.frame?, some x ≠ c.node.frame? := fun x hx heq => by
    obtain ⟨n, hn, hframe⟩ := List.mem_filterMap.mp hx
    obtain rfl := NodeId.frame?_inj heq.symm hframe
    exact (List.nodup_cons.mp h.nodup).1 hn
  -- the calls, with this one, leave open what was open besides this node
  have hopen' : openFrames (es ++ [⟨c, true, left⟩]) =
      (stack.filterMap NodeId.frame?).reverse := by
    have hends : (⟨c, true, left⟩ : Event σ).Ends := hpost
    have hrest : (stack.filterMap NodeId.frame?).filter (fun x => some x ≠ c.node.frame?) =
        stack.filterMap NodeId.frame? := List.filter_eq_self.mpr fun x hx => by
      simpa using hnot x hx
    have hclosed : ((c.node :: stack).filterMap NodeId.frame?).filter
        (fun x => some x ≠ c.node.frame?) = stack.filterMap NodeId.frame? := by
      cases hframe : c.node.frame? with
      | none =>
        rw [hframe] at hrest
        rw [List.filterMap_cons_none hframe]
        exact hrest
      | some x =>
        rw [hframe] at hrest
        rw [List.filterMap_cons_some hframe, List.filter_cons_of_neg (by simp)]
        exact hrest
    rw [openFrames_ends hends rfl, hopen, List.filter_reverse]
    exact congrArg List.reverse hclosed
  have hstep' : pass.InStep (es ++ [⟨c, true, left⟩]) :=
    hstep.snoc rfl ((hcontext ▸ hshows).agreesWith hopen')
  have hcalls' : st.scene.own.calls ++ [⟨c, true, left⟩] =
      start.scene.own.calls ++ (es ++ [⟨c, true, left⟩]) := by
    rw [hcalls, List.append_assoc]
  rw [hook_hooks]
  refine does_call hexec ⟨hcontext ▸ hshows, h.grounded.tail, (List.nodup_cons.mp h.nodup).2,
    fun n hn => h.seen n (List.mem_cons_of_mem _ hn),
    ⟨_, hcalls', hstep', hopen', fun e he => ?_⟩, ?_⟩ fun _ => ⟨_, hcalls', hstep'⟩
  · rcases List.mem_append.mp he with he | he
    · exact hes e he
    · rw [List.mem_singleton.mp he]
      exact h.seen _ List.mem_cons_self
  · have hcount := h.count
    simp only [leaving, hcontext, hpushes]
    exact hcount

/-- Every operation of the walk keeps the context in step. -/
theorem keeps_step (hpass : pass.Tracks) (hkeeps : f.KeepsNodes)
    (start : WalkState (Forwarding σ τ)) (modules : List ModuleId) :
    Scoped (f.hooks pass.hooks) modules (Going pass start) fun _ => pass.Followed start where
  refuse _ _ h _ := h.followed
  enter h _ _ hunseen := h.enter hunseen
  leave h := h.forget rfl rfl
  opens {_ _ c} h hpre hsited hhas hunseen :=
    (h.opens hpass hkeeps hpre hsited hhas hunseen).mono (fun _ _ h' => ⟨fun _ => h',
      fun hreplaced => by
        cases c with
        | preExpr e place => exact h'.forget rfl rfl
        | _ => exact hreplaced.elim⟩) fun _ _ hfollowed => hfollowed
  closes h hpost := h.closes hpass hpost

/-- What is known where a module was just begun. -/
theorem of_begun {c : Context} {m : ModuleId}
    (h : exec (Context.beginModule m) c = (.ok (), pass.context st.scene.own.pass)) :
    Going pass st [] st := by
  obtain ⟨hshows, hpushes⟩ := Context.of_beginModule h
  refine ⟨hshows, grounded_nil, .nil, nofun, ⟨[], by simp, ?_, rfl, nofun⟩, by rw [hpushes]; rfl⟩
  intro before e after heq
  simp at heq

end Forwarder.Going

/-! ## Whole walks -/

/-- Every hook call of a walk is forwarded, in the same order. -/
theorem Forwarder.calls_local (f : Forwarder σ τ) (h : Hooks σ) :
    Local (f.hooks h).logged fun st st' => ∃ fs gs, st'.scene.own.2 = st.scene.own.2 ++ fs ∧
      st'.scene.own.1.calls = st.scene.own.1.calls ++ gs ∧
      fs.map Event.call = gs.map Event.call where
  refl st := ⟨[], [], by simp, by simp, rfl⟩
  trans {a b c} hab hbc := by
    obtain ⟨fs, gs, hlog, hcalls, hsame⟩ := hab
    obtain ⟨fs', gs', hlog', hcalls', hsame'⟩ := hbc
    exact ⟨fs ++ fs', gs ++ gs', by rw [hlog', hlog, List.append_assoc],
      by rw [hcalls', hcalls, List.append_assoc], by simp [hsame, hsame']⟩
  enter n st := by
    refine ⟨[], [], ?_, ?_, rfl⟩ <;>
    · rw [exec_enter]
      split
      · split <;> simp
      · simp
  leave n st := ⟨[], [], by simp, by simp, rfl⟩
  call {n hook} hh st := by
    obtain ⟨c, _, rfl⟩ := hh.of_logged
    rw [exec_call_state, exec_logging, Forwarder.hook_hooks, Forwarder.exec_hook]
    exact ⟨[_], [_], rfl, rfl, rfl⟩

/-- The passes that keep a context. -/
inductive Pass.IsFixup : {σ : Type} → Pass σ → Prop where
  | normalize : IsFixup Normalize.pass
  | verify : IsFixup Verify.pass

theorem Pass.IsFixup.tracks {pass : Pass σ} (h : pass.IsFixup) : pass.Tracks := by
  cases h
  · exact Normalize.tracks
  · exact Verify.tracks

/-- A visitor forwards its hooks to a normaliser or a verifier and does what it likes besides, and a
module is walked right after one was begun.  However the walk ends, every hook call of it was
forwarded and accepted, and after each of them the context agrees with the calls so far.  If the
walk ends well, nothing is open, as many statements were pushed as popped, which are those that were
entered, and the module can be ended. -/
theorem forwards_in_step {pass : Pass σ} (hpass : pass.IsFixup) (f : Forwarder σ τ)
    (hkeeps : f.KeepsNodes) {m begun : ModuleId} {start : Context}
    {st st' : WalkState (Forwarding σ τ)} {result : Except Halt Unit}
    (hbegin : exec (Context.beginModule begun) start =
      (.ok (), pass.context st.scene.own.pass))
    (hwalk : exec (run (f.hooks pass.hooks) (.module m)) st = (result, st')) :
    (∃ es, st'.scene.own.calls = st.scene.own.calls ++ es ∧
      es.map Event.call = (eventsOf (f.hooks pass.hooks) (.module m) st).map Event.call ∧
      pass.InStep es) ∧
    (result = .ok () →
      let c := pass.context st'.scene.own.pass
      c.stmts.stack = [] ∧ c.frames = [] ∧ c.stmts.pushes = c.stmts.pops ∧
      st'.trail.tally.stmts = st.trail.tally.stmts + c.stmts.pushes ∧
      ∃ d, exec Context.endModule c = (.ok (), d)) := by
  have hdoes := (Forwarder.Going.keeps_step hpass.tracks hkeeps st [m]).run (.module m) st
    (Forwarder.Going.of_begun hbegin) List.mem_cons_self
  obtain ⟨fs, gs, hlog, hcalls, hsame⟩ := (f.calls_local pass.hooks).run (.module m)
    ⟨st.trail, st.scene.program, st.scene.own, []⟩
  have hmirror := exec_run_logged (f.hooks pass.hooks) (.module m)
    ⟨st.trail, st.scene.program, st.scene.own, []⟩
  have hst' : st' = WalkState.unlogged _ := congrArg Prod.snd (hwalk.symm.trans hmirror)
  have hevents : eventsOf (f.hooks pass.hooks) (.module m) st = fs := hlog
  have hgs : st'.scene.own.calls = st.scene.own.calls ++ gs := by
    rw [hst']
    exact hcalls
  have hfollowed : pass.Followed st st' → ∃ es, st'.scene.own.calls = st.scene.own.calls ++ es ∧
      es.map Event.call = (eventsOf (f.hooks pass.hooks) (.module m) st).map Event.call ∧
      pass.InStep es := fun ⟨es, hes, hstep⟩ => by
    obtain rfl : es = gs := List.append_cancel_left (hes.symm.trans hgs)
    exact ⟨es, hes, by rw [hevents, hsame], hstep⟩
  rcases result with e | ⟨⟩
  · exact ⟨hfollowed (hdoes.of_error hwalk), nofun⟩
  · have hgoing := hdoes.of_ok hwalk
    have hbalance := hgoing.shows.balance
    have hstack : _ = [] := hgoing.shows.stack
    rw [OpenStmts.depth, hstack] at hbalance
    exact ⟨hfollowed hgoing.followed, fun _ => ⟨hstack, hgoing.shows.frames, hbalance, hgoing.count,
      _, hgoing.shows.endModule.1⟩⟩

/-- A visitor that empties each statement before it is left. -/
def meddler : Forwarder Normalize.Normalizer Unit where
  name := "meddler"
  before
    | .postStmt s, p, _, own => (p.updateStmt s ({ · with kind := .nop }), own)
    | _, p, _, own => (p, own)
  after _ answer p _ own := (answer, p, own)

/-- The state in which the visitor has begun a module. -/
def meddling : WalkState (Forwarding Normalize.Normalizer Unit) :=
  ⟨.start, Normalize.sample,
    ⟨{ Normalize.Normalizer.start .all with context := Context.start.inModule ⟨0⟩ }, (), []⟩⟩

/-- What comes of it when the visitor walks the module. -/
def meddled : Except Halt Unit × WalkState (Forwarding Normalize.Normalizer Unit) :=
  exec (run (meddler.hooks Normalize.pass.hooks) (.module ⟨0⟩)) meddling

theorem keepsNodes_meddler : meddler.KeepsNodes := fun c p _ _ n hn => by
  cases c with
  | postStmt s =>
    cases n <;> simpa [meddler, Program.has, Program.module?, Program.symbol?, Program.stmt?,
      Program.expr?, Program.updateStmt] using hn
  | preSymbol _ | postSymbol _ | preStmt _ _ | preExpr _ _ | postExpr _ => exact hn

theorem forwards_in_step_meddler : Normalize.pass.IsFixup ∧ meddler.KeepsNodes ∧
    exec (Context.beginModule ⟨0⟩) Context.start =
      (.ok (), Normalize.pass.context meddling.scene.own.pass) ∧
    exec (run (meddler.hooks Normalize.pass.hooks) (.module ⟨0⟩)) meddling =
      (meddled.1, meddled.2) ∧
    meddled.1 = .ok () ∧ meddled.2.trail.tally.stmts = 5 ∧
    (∃ es, meddled.2.scene.own.calls = meddling.scene.own.calls ++ es ∧
      es.map Event.call = (eventsOf (meddler.hooks Normalize.pass.hooks) (.module ⟨0⟩) meddling).map
        Event.call ∧ Normalize.pass.InStep es) ∧
    let c := Normalize.pass.context meddled.2.scene.own.pass
    c.stmts.stack = [] ∧ c.frames = [] ∧ c.stmts.pushes = c.stmts.pops ∧
      meddled.2.trail.tally.stmts = 0 + c.stmts.pushes ∧
      ∃ d, exec Context.endModule c = (.ok (), d) := by
  have hok : meddled.1 = .ok () := by decide +kernel
  have hcount : meddled.2.trail.tally.stmts = 5 := by decide +kernel
  rcases hexec : meddled with ⟨result, st'⟩
  rw [hexec] at hok hcount
  have hbegin : exec (Context.beginModule ⟨0⟩) Context.start =
      (.ok (), Normalize.pass.context meddling.scene.own.pass) := rfl
  have hstep := forwards_in_step .normalize meddler keepsNodes_meddler hbegin hexec
  exact ⟨.normalize, keepsNodes_meddler, rfl, hexec, hok, hcount, hstep.1, hstep.2 hok⟩

end MiddleEnd
