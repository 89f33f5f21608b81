import MiddleEnd.Proofs.Walk.Scoped
import MiddleEnd.Proofs.Walk.Trace

/-!
# MiddleEnd.Proofs.Walk.Turns

The walk of a list of statements, seen through the calls that are made in it.  It is a sequence of
turns: the cursor hands out an entry of the list as the calls before have left it, the first hook of
that entry is called, and until the visit has ended no other entry of the list is visited
(`turns_of_run`).  In every walk, a first hook is told of a place that holds its node at that moment
(`placed_of_run`).
-/

namespace MiddleEnd

variable {σ : Type}

/-- The entry of a list that is visited, and its index. -/
def Call.inList? (list : StmtList) : Call → Option (StmtId × Nat)
  | .preStmt s (.entry l i) => if l = list then some (s, i) else none
  | _ => none

/-- Only the first hook of an entry is called for the list. -/
theorem Call.inList?_eq_some {list : StmtList} {c : Call} {s : StmtId} {i : Nat} :
    c.inList? list = some (s, i) ↔ c = .preStmt s (.entry list i) := by
  cases c with
  | preStmt s' place => cases place <;> simp [inList?]; tauto
  | _ => simp [inList?]

namespace Walk

/-- The program that calls leave. -/
def after (p : Program) (es : List (Event σ)) : Program := es.foldl (fun _ e => e.scene.program) p

@[simp] theorem after_nil (p : Program) : after p ([] : List (Event σ)) = p := rfl

@[simp] theorem after_cons (p : Program) (e : Event σ) (es : List (Event σ)) :
    after p (e :: es) = after e.scene.program es := rfl

@[simp] theorem after_append (p : Program) (es fs : List (Event σ)) :
    after p (es ++ fs) = after (after p es) fs := List.foldl_append

/-- Each first hook is told of a place that holds its node. -/
def Placed (p : Program) (es : List (Event σ)) : Prop :=
  ∀ us e ws, es = us ++ e :: ws → ∀ pos, e.call.place? = some pos →
    (after p us).heldAt? pos = some e.node

/-- The calls of a walk of a list from where a cursor stands, turn by turn. -/
inductive Turns (list : StmtList) : Cursor StmtId → Program → List (Event σ) → Prop where
  | done {cursor : Cursor StmtId} {p : Program} (hnext : cursor.next? (p.stmtsIn list) = none) :
      Turns list cursor p []
  | turn {cursor next : Cursor StmtId} {p : Program} {i : Nat} {s : StmtId} {e : Event σ}
      {inner rest : List (Event σ)} (hnext : cursor.next? (p.stmtsIn list) = some (i, s, next))
      (hcall : e.call = .preStmt s (.entry list i))
      (hinner : ∀ f ∈ inner, f.call.inList? list = none)
      (hrest : Turns list next (after e.scene.program inner) rest) :
      Turns list cursor p (e :: inner ++ rest)

section

variable {p : Program} {es : List (Event σ)} {e : Event σ}

theorem Placed.nil : Placed p ([] : List (Event σ)) := fun us e ws hes => by simp at hes

/-- One more call is placed if it is told of a place that holds its node by then. -/
theorem Placed.concat (h : Placed p es)
    (he : ∀ pos, e.call.place? = some pos → (after p es).heldAt? pos = some e.node) :
    Placed p (es ++ [e]) := by
  intro us f ws hes pos hpos
  rcases List.eq_nil_or_concat ws with rfl | ⟨ws, g, rfl⟩
  · obtain ⟨rfl, hef⟩ := List.append_inj' hes rfl
    obtain rfl := List.singleton_inj.mp hef
    exact he pos hpos
  · rw [List.concat_eq_append, ← List.cons_append, ← List.append_assoc] at hes
    exact h us f ws (List.append_inj' hes rfl).1 pos hpos

end

/-! ## From the walk to its calls -/

/-- Calls were written down, and the program is the one that they left. -/
structure Logs (scene scene' : Scene (σ × List (Event σ))) (es : List (Event σ)) : Prop where
  log : scene'.own.2 = scene.own.2 ++ es
  program : scene'.program = after scene.program es

section

variable {h : Hooks σ} {list : StmtList} {modules : List ModuleId}
  {scene scene₁ scene₂ : Scene (σ × List (Event σ))} {st st' : WalkState (σ × List (Event σ))}
  {es fs : List (Event σ)}

theorem Logs.nil (scene : Scene (σ × List (Event σ))) : Logs scene scene [] :=
  ⟨(List.append_nil _).symm, rfl⟩

/-- Calls are written down one after the other. -/
theorem Logs.trans (h : Logs scene scene₁ es) (h' : Logs scene₁ scene₂ fs) :
    Logs scene scene₂ (es ++ fs) :=
  ⟨by rw [h'.log, h.log, List.append_assoc], by rw [h'.program, h.program, after_append]⟩

/-- A call is written down. -/
theorem logs_call {c : Call} {r : Except Halt Unit × WalkState (σ × List (Event σ))}
    (hexec : exec (call h.logged c.node (h.logged.hook c)) st = r) :
    ∃ e : Event σ, e.call = c ∧ Logs st.scene r.2.scene [e] := by
  obtain ⟨e, hcall, _, hprogram, hlog, _⟩ := exec_call_logged h c st
  rw [hexec] at hprogram hlog
  exact ⟨e, hcall, hlog, hprogram.symm⟩

/-- What is asked of the state after a call holds if it follows from the call being written down. -/
theorem does_call_logged {c : Call} {I : Scene (σ × List (Event σ)) → Prop}
    (hI : ∀ (e : Event σ) scene, e.call = c → Logs st.scene scene [e] → I scene) :
    Does (call h.logged c.node (h.logged.hook c)) st (fun _ st' => I st'.scene)
      fun _ st' => I st'.scene := by
  obtain ⟨e, hcall, hlogs⟩ := logs_call (h := h) (c := c) rfl
  exact does_of_state (hI e _ hcall hlogs)

/-- In a walk, first hooks are told of places that hold their nodes. -/
theorem scoped_placed (h : Hooks σ) (modules : List ModuleId)
    (scene : Scene (σ × List (Event σ))) :
    Scoped h.logged modules
      (fun _ st => ∃ es, Logs scene st.scene es ∧ Placed scene.program es)
      fun _ st => ∃ es, Logs scene st.scene es ∧ Placed scene.program es where
  refuse _ _ hst _ := hst
  enter hst _ _ _ := hst
  leave hst := hst
  opens {stack st c} hst hpre hsited _ _ := by
    obtain ⟨es, hlogs, hplaced⟩ := hst
    obtain ⟨pos, _, hheld, htold⟩ := hsited
    refine (does_call_logged (I := fun scene' => ∃ es, Logs scene scene' es ∧
      Placed scene.program es) fun e scene' hcall hlogs' => ?_).mono
        (fun _ _ h => ⟨fun _ => h, fun _ => h⟩) fun _ _ h => h
    refine ⟨es ++ [e], hlogs.trans hlogs', hplaced.concat fun pos' hpos' => ?_⟩
    rw [hcall] at hpos'
    rw [htold pos' hpos', ← hlogs.program, hheld, Event.node, hcall]
  closes {stack st c} hst hpost := by
    obtain ⟨es, hlogs, hplaced⟩ := hst
    refine does_call_logged (I := fun scene' => ∃ es, Logs scene scene' es ∧
      Placed scene.program es) fun e scene' hcall hlogs' =>
        ⟨es ++ [e], hlogs.trans hlogs', hplaced.concat fun pos hpos => ?_⟩
    rw [hcall] at hpos
    cases c <;> simp_all [Call.isPre, Call.place?]

/-- Calls were written down, none of them at an entry of a list whose owner had been entered. -/
def Aside (list : StmtList) (scene : Scene (σ × List (Event σ)))
    (st : WalkState (σ × List (Event σ))) : Prop :=
  st.trail.seen.contains list.node = true ∧
    ∃ es, Logs scene st.scene es ∧ ∀ f ∈ es, f.call.inList? list = none

/-- A call that is not at an entry stays aside. -/
theorem Aside.does_call {c : Call} (hst : Aside list scene st) (hc : c.inList? list = none) :
    Does (call h.logged c.node (h.logged.hook c)) st (fun _ => Aside list scene)
      fun _ => Aside list scene := by
  obtain ⟨hseen, es, hlogs, hes⟩ := hst
  obtain ⟨e, rfl, hlogs'⟩ := logs_call (h := h) (c := c) rfl
  refine does_of_state ⟨(grown_local h.logged).call (hookAt_hook h.logged _) st _ hseen, es ++ [e],
    hlogs.trans hlogs', fun f hf => ?_⟩
  rcases List.mem_append.mp hf with hf | hf
  · exact hes f hf
  · exact List.mem_singleton.mp hf ▸ hc

/-- Where the owner of a list was entered before, and the visits that go on are below it, no entry
of the list is visited. -/
theorem scoped_aside (h : Hooks σ) (list : StmtList) (scene : Scene (σ × List (Event σ))) :
    Scoped h.logged [] (fun stack st => list.node ∉ stack ∧ Aside list scene st)
      fun _ _ => True where
  refuse _ _ _ _ := trivial
  enter _ hm _ _ := nomatch hm
  leave hst := ⟨fun hmem => hst.1 (List.mem_cons_of_mem _ hmem), hst.2⟩
  opens {stack st c} hst hpre hsited _ hunseen := by
    obtain ⟨hstack, hst⟩ := hst
    have hne : list.node ≠ c.node := NodeSet.ne_of_contains hst.1 hunseen
    have haside : c.inList? list = none := by
      by_contra hentry
      obtain ⟨⟨s, i⟩, hentry⟩ := Option.ne_none_iff_exists'.mp hentry
      obtain rfl := Call.inList?_eq_some.mp hentry
      obtain ⟨pos, hhead, _, htold⟩ := hsited
      obtain rfl := htold (.stmt (.entry list i)) rfl
      exact hstack (List.mem_of_mem_head? hhead)
    have hst' : Aside list scene (entering c.node st) := ⟨grown_entering c.node st _ hst.1, hst.2⟩
    exact (hst'.does_call haside).mono
      (fun _ _ h => ⟨fun _ => ⟨List.not_mem_cons_of_ne_of_not_mem hne hstack, h⟩,
        fun _ => ⟨hstack, h⟩⟩) fun _ _ _ => trivial
  closes {stack st c} hst hpost := by
    have haside : c.inList? list = none := by cases c <;> simp_all [Call.isPre, Call.inList?]
    exact (hst.2.does_call haside).mono
      (fun _ _ h => ⟨fun hmem => hst.1 (List.mem_cons_of_mem _ hmem), h⟩) fun _ _ _ => trivial

/-- In the turn of an entry, its first hook is called, and then no entry is visited until it has
ended. -/
theorem turn_of_exec {s : StmtId} {i : Nat} (hseen : st.trail.seen.contains list.node = true)
    (hat : st.scene.program.stmtAt? (.entry list i) = some s)
    (hok : exec (run h.logged (.stmt (.entry list i))) st = (.ok (), st')) :
    ∃ e inner, e.call = .preStmt s (.entry list i) ∧ (∀ f ∈ inner, f.call.inList? list = none) ∧
      Logs st.scene st'.scene (e :: inner) := by
  rw [run_eq, visit_stmt, exec_bind_ok (exec_program st)] at hok
  simp only [hat] at hok
  obtain ⟨_, st₁, henter, hok⟩ := ok_of_exec_bind hok
  obtain ⟨_, hunseen, rfl⟩ := of_exec_enter_ok henter
  obtain ⟨_, st₂, hpre, hok⟩ := ok_of_exec_bind hok
  obtain ⟨_, st₃, hinside, hok⟩ := ok_of_exec_bind hok
  obtain ⟨_, st₄, hpost, hok⟩ := ok_of_exec_bind hok
  cases hok
  have hne : list.node ≠ .stmt s := NodeSet.ne_of_contains hseen hunseen
  obtain ⟨e, hcall, hfirst⟩ := logs_call (c := .preStmt s (.entry list i)) hpre
  have hseen₂ : st₂.trail.seen.contains list.node = true :=
    grown_of_exec ((grown_local h.logged).call (.preStmt s _)) hpre _
      (grown_entering (.stmt s) st _ hseen)
  -- while the entry is visited, no other entry is
  have haside : Aside list st₂.scene st₃ := by
    have hI := scoped_aside h list st₂.scene
    have hdoes : Does (inside (run h.logged) s) st₂
        (fun _ st => list.node ∉ [NodeId.stmt s] ∧ Aside list st₂.scene st) fun _ _ => True :=
      Scoped.inside (I := fun stack st => list.node ∉ stack ∧ Aside list st₂.scene st) h.logged
        (grown_local h.logged).run (fun task st _ hst htop => hI.run task st hst htop)
        ⟨by simpa using hne, hseen₂, [], .nil _, nofun⟩
    exact (hdoes.of_ok hinside).2
  obtain ⟨_, inner, hlogs, hinner⟩ := (haside.does_call (c := .postStmt s) (h := h) rfl).of_ok hpost
  exact ⟨e, inner, hcall, hinner, hfirst.trans hlogs⟩

/-- What is left of a list is walked in turns. -/
theorem turns_of_stmtsFrom (hseen : st.trail.seen.contains list.node = true)
    {cursor : Cursor StmtId}
    (hok : exec (run h.logged (.stmtsFrom list cursor)) st = (.ok (), st')) :
    ∃ es, Logs st.scene st'.scene es ∧ Turns list cursor st.scene.program es := by
  induction hroom : st.trail.seen.room using Nat.strong_induction_on generalizing st cursor with
  | _ room ih =>
  rw [run_eq, visit, exec_bind_ok (exec_program st),
    Program.stmtList?_bind list (Cursor.next?_empty cursor)] at hok
  rcases hnext : cursor.next? (st.scene.program.stmtsIn list) with _ | ⟨i, s, next⟩
  · rw [hnext] at hok
    cases hok
    exact ⟨[], .nil _, .done hnext⟩
  · rw [hnext] at hok
    obtain ⟨_, st₁, hturn, hok⟩ := ok_of_exec_bind hok
    have hat : st.scene.program.stmtAt? (.entry list i) = some s := by
      rw [Program.stmtAt?_entry, Cursor.getElem?_of_next? hnext]
    obtain ⟨e, inner, hcall, hinner, hlogs⟩ := turn_of_exec hseen hat hturn
    have hseen₁ := grown_of_exec ((grown_local h.logged).run _) hturn _ hseen
    obtain ⟨rest, hlogs', hrest⟩ := ih _ (hroom ▸ room_lt_of_entry hat hturn) hseen₁ hok rfl
    rw [hlogs.program, after_cons] at hrest
    exact ⟨_, hlogs.trans hlogs', .turn hnext hcall hinner hrest⟩

/-- A list whose walk ends well repeats nothing, and is walked in turns. -/
theorem turns_of_stmts (hseen : st.trail.seen.contains list.node = true)
    (hok : exec (run h.logged (.stmts list)) st = (.ok (), st')) :
    (st.scene.program.stmtsIn list).Nodup ∧
      ∃ es, Logs st.scene st'.scene es ∧ Turns list .start st.scene.program es := by
  by_cases hnodup : (st.scene.program.stmtsIn list).Nodup
  · rw [exec_stmts hnodup] at hok
    exact ⟨hnodup, turns_of_stmtsFrom hseen hok⟩
  · obtain ⟨s, _, hfail⟩ := exec_stmts_repeat h.logged hnodup
    rw [hfail] at hok
    cases hok

end

/-! ## Whole walks -/

section

variable {h : Hooks σ} {list : StmtList} {modules : List ModuleId} {task : Task} {st : WalkState σ}

/-- A log that started empty has the calls. -/
theorem Logs.eq_own {scene : Scene (σ × List (Event σ))} {es : List (Event σ)}
    (h : Logs ⟨st.scene.program, st.scene.own, []⟩ scene es) : scene.own.2 = es := h.log

/-- In a walk from where its task is about the innermost visit, first hooks are told of places that
hold their nodes. -/
theorem placed_of_run {stack : List NodeId} (htop : task.AtTop modules stack st.scene.program) :
    Placed st.scene.program (eventsOf h task st) := by
  have hdoes := (scoped_placed h modules ⟨st.scene.program, st.scene.own, []⟩).run task
    ⟨st.trail, st.scene.program, st.scene.own, []⟩ ⟨[], .nil _, .nil⟩ htop
  unfold eventsOf
  rcases hexec : exec (run h.logged task) ⟨st.trail, st.scene.program, st.scene.own, []⟩ with
    ⟨_ | ⟨⟩, st'⟩
  · obtain ⟨es, hlogs, hplaced⟩ := hdoes.of_error hexec
    exact hlogs.eq_own ▸ hplaced
  · obtain ⟨es, hlogs, hplaced⟩ := hdoes.of_ok hexec
    exact hlogs.eq_own ▸ hplaced

/-- A list whose owner was entered repeats nothing if its walk ends well, and is walked in turns. -/
theorem turns_of_run (hseen : st.trail.seen.contains list.node = true)
    (hok : (exec (run h (.stmts list)) st).1 = .ok ()) :
    (st.scene.program.stmtsIn list).Nodup ∧
      Turns list .start st.scene.program (eventsOf h (.stmts list) st) := by
  have hlogged := exec_run_logged h (.stmts list) ⟨st.trail, st.scene.program, st.scene.own, []⟩
  change exec (run h (.stmts list)) st = _ at hlogged
  rw [hlogged] at hok
  unfold eventsOf
  rcases hexec : exec (run h.logged (.stmts list)) ⟨st.trail, st.scene.program, st.scene.own, []⟩
    with ⟨_ | ⟨⟩, st'⟩
  · rw [hexec] at hok
    cases hok
  · obtain ⟨hnodup, es, hlogs, hturns⟩ := turns_of_stmts hseen hexec
    exact ⟨hnodup, hlogs.eq_own ▸ hturns⟩

end

end Walk

end MiddleEnd
