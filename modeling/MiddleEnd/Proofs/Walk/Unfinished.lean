import MiddleEnd.Proofs.Walk.Census
import MiddleEnd.Proofs.Walk.Rules
import MiddleEnd.Proofs.Walk.Trace

/-!
# MiddleEnd.Proofs.Walk.Unfinished

What walks leave on a trail, however they end and whatever their hooks do.  The path is part of what
was seen, what was seen stays so, and the tally is its census (`Trail.Sound`).  A walk that ends
well leaves the path as it found it.  One that halts puts on it the nodes that it entered and did
not finish (`Unfinished`), so that those are circular for all walks to come and all other nodes seen
are shared (`walks_leave_unfinished`).  Hooks may refuse anywhere, so what is said of a trail where
a walk ends is said of it wherever hooks are called.

A visit is finished when the last hook of the node accepts, or when its first hook took it from its
place and accepts; both can be read off the calls.  `Gains` says which nodes a part of a walk
entered and which of them it has not finished.  It composes, and the rules of walks carry it to a
whole walk (`rules_unwinds`).
-/

namespace MiddleEnd

/-- What holds of a trail at any time: all of its path was seen, no node is on it twice, and the
tally counts what was seen. -/
structure Trail.Sound (t : Trail) : Prop where
  seen : ∀ n ∈ t.path, t.seen.contains n = true
  nodup : t.path.Nodup
  census : t.Census

variable {σ : Type}

/-- The visit of the node is over: its last hook accepted, or its first hook took it from its
place. -/
def Event.Completes (e : Event σ) : Prop := e.accepted = true ∧ (e.Ends ∨ e.Dropped)

instance (e : Event σ) : Decidable e.Completes := inferInstanceAs (Decidable (_ ∧ _))

/-- The nodes whose visit is over. -/
def completed (es : List (Event σ)) : List NodeId := (es.filter (·.Completes)).map Event.node

section

variable {es fs : List (Event σ)} {e : Event σ} {n : NodeId}

/-- Visits are over in the order of their events. -/
theorem completed_append : completed (es ++ fs) = completed es ++ completed fs := by
  simp [completed, List.filter_append]

/-- The visit of a node is over if an event says so. -/
theorem mem_completed : n ∈ completed es ↔ ∃ e ∈ es, e.Completes ∧ e.node = n := by
  simp [completed, and_assoc]

theorem completed_of_completes (h : e.Completes) : completed [e] = [e.node] := by
  simp [completed, h]

theorem completed_of_not (h : ¬ e.Completes) : completed [e] = [] := by
  simp [completed, h]

end

namespace Walk

/-! ## Trails -/

/-- At the start nothing was seen. -/
theorem sound_start : Trail.start.Sound := ⟨nofun, .nil, .start⟩

/-- Whatever a walk does, its trail stays sound. -/
theorem sound_local (h : Hooks σ) : Local h fun st st' => st.trail.Sound → st'.trail.Sound where
  refl _ hst := hst
  trans h h' hst := h' (h hst)
  enter n st hst := by
    rcases henter : exec (enter h n) st with ⟨e | ⟨⟩, st₁⟩
    · exact of_exec_enter_error henter ▸ hst
    · have hcensus := (census_local h).enter n st hst.census
      rw [henter] at hcensus
      obtain ⟨_, hunseen, rfl⟩ := of_exec_enter_ok henter
      refine ⟨fun m hm => ?_, List.nodup_cons.mpr ⟨fun hn => ?_, hst.nodup⟩, hcensus⟩
      · rcases List.mem_cons.mp hm with rfl | hm
        · simp
        · simp [hst.seen m hm]
      · rw [hst.seen n hn] at hunseen
        cases hunseen
  leave n st hst :=
    ⟨fun m hm => hst.seen m (List.mem_of_mem_erase hm), hst.nodup.erase n, hst.census⟩
  call {_ hook} _ st hst := by
    rw [exec_call_state]
    exact hst

/-! ## What a part of a walk gains -/

/-- From `st` to `st'`, with events `es`, the nodes `new` were entered, and all of them but `top`
were finished. -/
structure Gains (st st' : WalkState (σ × List (Event σ))) (es : List (Event σ))
    (top new : List NodeId) : Prop where
  log : st'.scene.own.2 = st.scene.own.2 ++ es
  path : st'.trail.path = top ++ st.trail.path
  seen : ∀ n, st'.trail.seen.contains n = true ↔ n ∈ new ∨ st.trail.seen.contains n = true
  fresh : ∀ n ∈ new, st.trail.seen.contains n = false
  nodup : new.Nodup
  perm : (completed es ++ top).Perm new

/-- Why a walk halts where it is: a node is missing, or the trail refuses it, or a list repeats one,
or a hook refused. -/
inductive HaltsAt (h : Hooks σ) (st : WalkState σ) (es : List (Event σ)) : Halt → Prop where
  | missing {n : NodeId} (hn : st.scene.program.has n = false) :
      HaltsAt h st es (.defect (.during h.pass n .missingNode))
  | refused {n : NodeId} {cause : Cause} (hn : st.scene.program.has n = true)
      (hcause : st.trail.enter n = .error cause) :
      HaltsAt h st es (.defect (.during h.pass n cause))
  | repeated {n : NodeId} (hn : st.scene.program.Repeats n) :
      HaltsAt h st es (.defect (.during h.pass n .sharedNode))
  | hook {front : List (Event σ)} {last : Event σ} {e : Halt} (hes : es = front ++ [last])
      (hlast : last.accepted = false) : HaltsAt h st es e

/-- After what was gained since `st`, a part of a walk goes on from `st₁`: all is finished if it
ends well. -/
def UnwindsFrom (h : Hooks σ) (st : WalkState (σ × List (Event σ)))
    (x : WalkM (σ × List (Event σ)) Unit) (st₁ : WalkState (σ × List (Event σ))) : Prop :=
  ∃ es top new, Gains st (exec x st₁).2 es top new ∧ ((exec x st₁).1 = .ok () → top = []) ∧
    ∀ e, (exec x st₁).1 = .error e → HaltsAt h (exec x st₁).2.unlogged es e

/-- All that a part of a walk gains is finished if it ends well. -/
def Unwinds (h : Hooks σ) (x : WalkM (σ × List (Event σ)) Unit)
    (st : WalkState (σ × List (Event σ))) : Prop := UnwindsFrom h st x st

section

variable {h : Hooks σ} {x : WalkM (σ × List (Event σ)) Unit}
  {st st₁ st₂ : WalkState (σ × List (Event σ))} {es fs : List (Event σ)}
  {top top' new new' : List NodeId} {n : NodeId} {e : Event σ}

theorem Gains.refl (st : WalkState (σ × List (Event σ))) : Gains st st [] [] [] :=
  ⟨(List.append_nil _).symm, rfl, by simp, nofun, .nil, .refl _⟩

/-- What is gained in two parts is gained in both together. -/
theorem Gains.trans (h : Gains st st₁ es top new) (h' : Gains st₁ st₂ fs top' new') :
    Gains st st₂ (es ++ fs) (top' ++ top) (new' ++ new) where
  log := by rw [h'.log, h.log, List.append_assoc]
  path := by rw [h'.path, h.path, List.append_assoc]
  seen n := by rw [h'.seen, h.seen, List.mem_append, or_assoc]
  fresh n hn := by
    rcases List.mem_append.mp hn with hn | hn
    · by_contra hseen
      have hnew := h'.fresh n hn
      rw [(h.seen n).mpr (.inr (by simpa using hseen))] at hnew
      cases hnew
    · exact h.fresh n hn
  nodup := by
    refine List.nodup_append.mpr ⟨h'.nodup, h.nodup, fun n hn m hm hnm => ?_⟩
    have hnew := h'.fresh n hn
    rw [hnm, (h.seen m).mpr (.inl hm)] at hnew
    cases hnew
  perm := by
    refine List.Perm.trans ?_ (h'.perm.append h.perm)
    rw [completed_append, List.append_assoc, List.append_assoc]
    refine List.perm_append_comm_assoc _ _ _ |>.trans (List.Perm.append_left _ ?_)
    exact List.perm_append_comm_assoc _ _ _

/-- What is not finished is what was entered and did not complete. -/
theorem Gains.mem_top (h : Gains st st₁ es top new) :
    top.Nodup ∧ (n ∈ top ↔ n ∈ new ∧ ∀ e ∈ es, e.node = n → ¬ e.Completes) := by
  have hnodup := List.nodup_append.mp (h.perm.nodup_iff.mpr h.nodup)
  refine ⟨hnodup.2.1, ?_⟩
  have hmem : n ∈ new ↔ n ∈ completed es ∨ n ∈ top := by
    rw [← h.perm.mem_iff, List.mem_append]
  rw [hmem]
  constructor
  · refine fun hn => ⟨.inr hn, fun e he hnode hcompletes => ?_⟩
    exact hnodup.2.2 n (mem_completed.mpr ⟨e, he, hcompletes, hnode⟩) n hn rfl
  · rintro ⟨hn | hn, hnot⟩
    · obtain ⟨e, he, hcompletes, hnode⟩ := mem_completed.mp hn
      exact absurd hcompletes (hnot e he hnode)
    · exact hn

/-- A node that is entered is gained, and not finished. -/
theorem gains_entering (hunseen : st.trail.seen.contains n = false) :
    Gains st (entering n st) [] [n] [n] where
  log := (List.append_nil _).symm
  path := rfl
  seen m := by simp [entering]
  fresh m hm := by rwa [List.mem_singleton.mp hm]
  nodup := List.nodup_singleton n
  perm := .refl _

/-- A call by which nothing is finished gains nothing. -/
theorem gains_call (hlog : st₁.scene.own.2 = st.scene.own.2 ++ [e])
    (htrail : st₁.trail = st.trail) (hnot : ¬ e.Completes) : Gains st st₁ [e] [] [] where
  log := hlog
  path := by rw [htrail]; rfl
  seen m := by rw [htrail]; simp
  fresh := nofun
  nodup := .nil
  perm := by rw [completed_of_not hnot]; exact .refl _

/-- The node that was entered first is finished and left. -/
theorem Gains.close (hgains : Gains st st₁ es [n] new) (hnode : e.node = n) (he : e.Completes)
    (htrail : st₂.trail = st₁.trail) (hlog : st₂.scene.own.2 = st₁.scene.own.2 ++ [e]) :
    Gains st (leaving n st₂) (es ++ [e]) [] new where
  log := by rw [leaving, hlog, hgains.log, List.append_assoc]
  path := by simp [leaving, Trail.leave, htrail, hgains.path]
  seen m := by rw [leaving, Trail.leave, htrail]; exact hgains.seen m
  fresh := hgains.fresh
  nodup := hgains.nodup
  perm := by
    rw [completed_append, completed_of_completes he, hnode, List.append_nil]
    exact hgains.perm

/-- A walk that cannot enter a node halts there. -/
theorem haltsAt_of_enter {st st' : WalkState σ} {halt : Halt}
    (henter : exec (enter h n) st = (.error halt, st')) : HaltsAt h st es halt := by
  rw [exec_enter] at henter
  by_cases hn : st.scene.program.has n = true
  · rw [if_pos hn] at henter
    cases hcause : st.trail.enter n with
    | ok trail => rw [hcause] at henter; cases henter
    | error cause => rw [hcause] at henter; cases henter; exact .refused hn hcause
  · rw [if_neg hn] at henter
    cases henter
    exact .missing (by simpa using hn)

/-- Why a walk halts does not depend on the calls before the last. -/
theorem HaltsAt.append {st : WalkState σ} {e : Halt} (hhalt : HaltsAt h st fs e)
    (es : List (Event σ)) : HaltsAt h st (es ++ fs) e := by
  cases hhalt with
  | missing hn => exact .missing hn
  | refused hn hcause => exact .refused hn hcause
  | repeated hn => exact .repeated hn
  | hook hes hlast => exact .hook (by rw [hes, List.append_assoc]) hlast

/-- What does the same unwinds alike. -/
theorem UnwindsFrom.same {y : WalkM (σ × List (Event σ)) Unit} (hexec : exec x st₁ = exec y st₂)
    (hy : UnwindsFrom h st y st₂) : UnwindsFrom h st x st₁ := by
  rwa [UnwindsFrom, hexec]

/-- A part that halts unwinds if it says why. -/
theorem unwindsFrom_of_error {e : Halt} (hexec : exec x st₁ = (.error e, st₂))
    (hgains : Gains st st₂ es top new) (hhalt : HaltsAt h st₂.unlogged es e) :
    UnwindsFrom h st x st₁ := by
  rw [UnwindsFrom, hexec]
  exact ⟨es, top, new, hgains, nofun, fun _ he => by cases he; exact hhalt⟩

/-- A part that ends well and has finished all unwinds. -/
theorem unwindsFrom_of_ok (hexec : exec x st₁ = (.ok (), st₂)) (hgains : Gains st st₂ es [] new) :
    UnwindsFrom h st x st₁ := by
  rw [UnwindsFrom, hexec]
  exact ⟨es, [], new, hgains, fun _ => rfl, nofun⟩

/-- A part of a walk follows another one that is finished. -/
theorem Gains.unwinds (hgains : Gains st st₁ es [] new) (hx : Unwinds h x st₁) :
    UnwindsFrom h st x st₁ := by
  obtain ⟨fs, top, new', hgains', hok, hhalt⟩ := hx
  refine ⟨es ++ fs, top ++ [], new' ++ new, hgains.trans hgains', ?_, fun e he =>
    (hhalt e he).append es⟩
  rwa [List.append_nil]

/-- A visit is not over where a hook refused. -/
theorem not_completes_of_refused (he : e.accepted = false) : ¬ e.Completes := fun h => by
  rw [h.1] at he
  cases he

/-- The last hook of the node that was entered first is called, and the node is left. -/
theorem Gains.unwinds_last {c d : Call} (hgains : Gains st st₁ es [c.node] new)
    (hd : d.isPre = false) (hnode : d.node = c.node) :
    UnwindsFrom h st (do call h.logged c.node (h.logged.hook d); leave c.node) st₁ := by
  rw [← hnode] at hgains ⊢
  obtain ⟨e, rfl, haccepted, _, hlog, htrail⟩ := exec_call_logged h d st₁
  rcases hcall : exec (call h.logged e.call.node (h.logged.hook e.call)) st₁
    with ⟨halt | ⟨⟩, st₂⟩ <;>
    rw [hcall] at haccepted hlog htrail
  · have hrefused := gains_call hlog htrail (not_completes_of_refused haccepted)
    exact unwindsFrom_of_error (exec_bind_error hcall) (hgains.trans hrefused)
      (.hook rfl haccepted)
  · refine .same (exec_bind_ok hcall) (unwindsFrom_of_ok (exec_leave _ _)
      (hgains.close rfl ⟨haccepted, .inl hd⟩ htrail hlog))

end

/-- Walks finish what they enter, unless they halt. -/
theorem rules_unwinds (h : Hooks σ) : Rules h.logged (Unwinds h) where
  nothing st := unwindsFrom_of_ok rfl (.refl st)
  same hexec hx := .same hexec hx
  repeated hn := unwindsFrom_of_error (exec_fail _ _ _ _) (.refl _) (.repeated hn)
  andThen {x y st} hx hy := by
    rcases hexec : exec x st with ⟨e | ⟨⟩, st₁⟩
    · exact .same ((exec_bind_error hexec).trans hexec.symm) hx
    · obtain ⟨es, top, new, hgains, hok, _⟩ := hx
      rw [hexec] at hgains hok
      obtain rfl := hok rfl
      exact .same (exec_bind_ok hexec) (hgains.unwinds (hy st₁ hexec))
  node {c d k st} hc hd hnode hrest := by
    rcases henter : exec (enter h.logged c.node) st with ⟨halt | ⟨⟩, st₁⟩
    · obtain rfl := of_exec_enter_error henter
      have hrefused := mirrors_enter (h := h) c.node st₁
      rw [henter] at hrefused
      exact unwindsFrom_of_error (exec_bind_error henter) (.refl _)
        (haltsAt_of_enter hrefused)
    obtain ⟨_, hunseen, rfl⟩ := of_exec_enter_ok henter
    have hentered := gains_entering hunseen
    obtain ⟨e, rfl, haccepted, hprogram, hlog, htrail⟩ := exec_call_logged h c (entering c.node st)
    rcases hcall : exec (call h.logged e.call.node (h.logged.hook e.call))
      (entering e.call.node st) with ⟨halt | ⟨⟩, st₂⟩ <;>
      rw [hcall] at haccepted hprogram hlog htrail
    · have hrefused := gains_call hlog htrail (not_completes_of_refused haccepted)
      exact unwindsFrom_of_error ((exec_bind_ok henter).trans (exec_bind_error hcall))
        (hentered.trans hrefused) (.hook (List.nil_append _).symm haccepted)
    have hrest := hrest _ st₂ henter hcall
    refine .same ((exec_bind_ok henter).trans (exec_bind_ok hcall)) ?_
    have hends : ¬ e.Ends := fun hends => hends.not_begins hc
    by_cases hdropped : e.Dropped
    · obtain ⟨x, hx, hexec⟩ := hrest.dropped (hprogram ▸ hdropped)
      exact .same (hexec.trans (exec_bind_ok (exec_leave _ _)))
        ((hentered.close rfl ⟨haccepted, .inr hdropped⟩ htrail hlog).unwinds hx)
    · obtain ⟨x, hx, hexec⟩ := hrest.goes_on (hprogram ▸ hdropped)
      have hgains := hentered.trans (gains_call hlog htrail fun hcompletes =>
        hcompletes.2.elim hends hdropped)
      obtain ⟨fs, top, new, hinside, hok, hhalt⟩ := hx
      refine .same hexec ?_
      rcases hexec₃ : exec x st₂ with ⟨halt | ⟨⟩, st₃⟩ <;> rw [hexec₃] at hinside hok hhalt
      · exact unwindsFrom_of_error (exec_bind_error hexec₃) (hgains.trans hinside)
          ((hhalt halt rfl).append _)
      · obtain rfl := hok rfl
        exact .same (exec_bind_ok hexec₃) ((hgains.trans hinside).unwinds_last hd hnode)

/-! ## Walks on one trail -/

/-- A walk came to its end: it leaves the path as it was, or what it has not finished on it. -/
def Settles (h : Hooks σ) (st : WalkState (σ × List (Event σ)))
    (r : Except Halt Unit × WalkState (σ × List (Event σ))) : Prop :=
  (r.1 = .ok () → r.2.trail.path = st.trail.path) ∧
  ∀ e, r.1 = .error e → ∃ es top new, Gains st r.2 es top new ∧ HaltsAt h r.2.unlogged es e

theorem settles_of_ok {h : Hooks σ} {st : WalkState (σ × List (Event σ))}
    {r : Except Halt Unit × WalkState (σ × List (Event σ))} (hr : r.1 = .ok ())
    (hpath : r.2.trail.path = st.trail.path) : Settles h st r := by
  refine ⟨fun _ => hpath, fun e he => ?_⟩
  cases hr.symm.trans he

theorem settles_of_error {h : Hooks σ} {st : WalkState (σ × List (Event σ))} {e : Halt}
    {r : Except Halt Unit × WalkState (σ × List (Event σ))} {es : List (Event σ)}
    {top new : List NodeId} (hr : r.1 = .error e) (hgains : Gains st r.2 es top new)
    (hhalt : HaltsAt h r.2.unlogged es e) : Settles h st r := by
  refine ⟨fun hok => ?_, fun e' he' => ?_⟩
  · cases hok.symm.trans hr
  · cases hr.symm.trans he'
    exact ⟨es, top, new, hgains, hhalt⟩

/-- The walk of a module settles. -/
theorem settles_module (h : Hooks σ) (m : ModuleId) (st : WalkState (σ × List (Event σ))) :
    Settles h st (exec (run h.logged (.module m)) st) := by
  rw [run_eq, visit]
  rcases henter : exec (enter h.logged (.module m)) st with ⟨halt | ⟨⟩, st₁⟩
  · obtain rfl := of_exec_enter_error henter
    have hrefused := mirrors_enter (h := h) (.module m) st₁
    rw [henter] at hrefused
    rw [exec_bind_error henter]
    exact settles_of_error rfl (.refl _) (haltsAt_of_enter hrefused)
  obtain ⟨_, hunseen, rfl⟩ := of_exec_enter_ok henter
  have hrest : ∀ k : WalkM (σ × List (Event σ)) Unit,
      exec (do enter h.logged (.module m); k) st = exec k (entering (.module m) st) :=
    fun _ => exec_bind_ok henter
  rw [hrest]
  obtain ⟨es, top, new, hgains, hok, hhalt⟩ :=
    (rules_unwinds h).run (.symbols (.module m)) (entering (.module m) st) trivial
  rcases hexec : exec (run h.logged (.symbols (.module m))) (entering (.module m) st) with
    ⟨halt | ⟨⟩, st₁⟩ <;> rw [hexec] at hgains hok hhalt
  · rw [exec_bind_error hexec]
    exact settles_of_error rfl ((gains_entering hunseen).trans hgains) (hhalt halt rfl)
  · rw [exec_bind_ok hexec]
    refine settles_of_ok rfl ?_
    obtain rfl := hok rfl
    have hpath : st₁.trail.path = .module m :: st.trail.path := hgains.path
    simp [Trail.leave, hpath]

/-- Every walk settles. -/
theorem settles (h : Hooks σ) (task : Task) (st : WalkState (σ × List (Event σ))) :
    Settles h st (exec (run h.logged task) st) := by
  by_cases hinner : task.IsInner
  · obtain ⟨es, top, new, hgains, hok, hhalt⟩ := (rules_unwinds h).run task st hinner
    refine ⟨fun h => ?_, fun e he => ⟨es, top, new, hgains, hhalt e he⟩⟩
    rw [hgains.path, hok h]
    rfl
  · cases task with
    | module m => exact settles_module h m st
    | _ => exact absurd trivial hinner

/-- A walk did not end well. -/
def Failed (h : Hooks σ) (w : Task × WalkState σ) : Prop := ∃ e, (exec (run h w.1) w.2).1 = .error e

/-- A walk entered the node, and did not finish its visit. -/
def Unfinished (h : Hooks σ) (w : Task × WalkState σ) (n : NodeId) : Prop :=
  (exec (run h w.1) w.2).2.trail.seen.contains n = true ∧ w.2.trail.seen.contains n = false ∧
    ∀ e ∈ eventsOf h w.1 w.2, e.node = n → ¬ e.Completes

instance (h : Hooks σ) (w : Task × WalkState σ) (n : NodeId) : Decidable (Unfinished h w n) :=
  inferInstanceAs (Decidable (_ ∧ _ ∧ _))

/-- What one walk leaves on the trail. -/
theorem leaves_unfinished (h : Hooks σ) (w : Task × WalkState σ) :
    ((exec (run h w.1) w.2).1 = .ok () →
      (exec (run h w.1) w.2).2.trail.path = w.2.trail.path) ∧
    ∀ e, (exec (run h w.1) w.2).1 = .error e →
      HaltsAt h (exec (run h w.1) w.2).2 (eventsOf h w.1 w.2) e ∧
      ∃ top, (exec (run h w.1) w.2).2.trail.path = top ++ w.2.trail.path ∧
        ∀ n, n ∈ top ↔ Unfinished h w n := by
  have hsame := exec_run_logged h w.1 ⟨w.2.trail, w.2.scene.program, w.2.scene.own, []⟩
  have hsettles := settles h w.1 ⟨w.2.trail, w.2.scene.program, w.2.scene.own, []⟩
  change exec (run h w.1) w.2 = _ at hsame
  simp only [Unfinished, eventsOf, hsame]
  refine ⟨hsettles.1, fun e he => ?_⟩
  obtain ⟨es, top, new, hgains, hhalt⟩ := hsettles.2 e he
  have hlog := hgains.log
  rw [List.nil_append] at hlog
  rw [hlog]
  refine ⟨hhalt, top, hgains.path, fun n => ?_⟩
  have hnew : n ∈ new ↔ (exec (run h.logged w.1)
      ⟨w.2.trail, w.2.scene.program, w.2.scene.own, []⟩).2.trail.seen.contains n = true ∧
      w.2.trail.seen.contains n = false := by
    rw [hgains.seen]
    refine ⟨fun hn => ⟨.inl hn, hgains.fresh n hn⟩, fun ⟨hseen, hunseen⟩ => ?_⟩
    exact hseen.resolve_right (by simp [hunseen])
  rw [hgains.mem_top.2, hnew, and_assoc]
  rfl

/-- On the path of a walk stand the nodes that were on it, and those that a failed walk has not
finished. -/
theorem mem_path_of_run (h : Hooks σ) (w : Task × WalkState σ) (n : NodeId) :
    n ∈ (exec (run h w.1) w.2).2.trail.path ↔
      n ∈ w.2.trail.path ∨ (Failed h w ∧ Unfinished h w n) := by
  obtain ⟨hok, herror⟩ := leaves_unfinished h w
  rcases hr : (exec (run h w.1) w.2).1 with e | ⟨⟩
  · obtain ⟨_, top, hpath, htop⟩ := herror e hr
    have hfailed : Failed h w := ⟨e, hr⟩
    rw [hpath, List.mem_append, htop, or_comm]
    simp only [hfailed, true_and]
  · have hfailed : ¬ Failed h w := by
      rintro ⟨e, he⟩
      cases hr.symm.trans he
    rw [hok hr]
    simp only [hfailed, false_and, or_false]

/-- On one trail, each walk starts from what all those before it left, and the trail stays sound. -/
theorem start_of_rounds (h : Hooks σ) : ∀ {plan : List ((Scene σ → Scene σ) × Task)}
    {st : WalkState σ} {before after : List (Task × WalkState σ)} {w : Task × WalkState σ},
    st.trail.Sound → rounds h plan st = before ++ w :: after →
    w.2.trail.Sound ∧
    (∀ n, st.trail.seen.contains n = true → w.2.trail.seen.contains n = true) ∧
    (∀ v ∈ before, ∀ n, (exec (run h v.1) v.2).2.trail.seen.contains n = true →
      w.2.trail.seen.contains n = true) ∧
    ∀ n, n ∈ w.2.trail.path ↔ n ∈ st.trail.path ∨ ∃ v ∈ before, Failed h v ∧ Unfinished h v n
  | [], _, before, _, _, _, hrounds => by simp [rounds] at hrounds
  | (change, task) :: plan, st, before, after, w, hsound, hrounds => by
    rw [rounds] at hrounds
    cases before with
    | nil =>
      obtain ⟨rfl, _⟩ := List.cons.inj hrounds
      exact ⟨hsound, fun _ hn => hn, by simp, fun n => by simp⟩
    | cons v before =>
      obtain ⟨rfl, hlater⟩ := List.cons.inj hrounds
      have hsound' := (sound_local h).run task { st with scene := change st.scene } hsound
      have hgrown := (grown_local h).run task { st with scene := change st.scene }
      obtain ⟨hw, hseen, hbefore, hpath⟩ := start_of_rounds h hsound' hlater
      refine ⟨hw, fun n hn => hseen n (hgrown n hn), fun v hv n hn => ?_, fun n => ?_⟩
      · rcases List.mem_cons.mp hv with rfl | hv
        · exact hseen n hn
        · exact hbefore v hv n hn
      · rw [hpath, mem_path_of_run h (task, { st with scene := change st.scene })]
        simp only [List.mem_cons, exists_eq_or_imp, or_assoc]

/-- Walks one after another on one trail, whatever is walked, whatever the hooks do and however each
walk ends.  Before and after each of them, all of the path was seen, no node is on it twice, and the
tally is a census of the seen; what was seen stays so.  On the path are the nodes that the walks
before it entered and did not finish before they halted.  If it ends well, it leaves the path as it
was; if it halts, it adds the nodes that it entered and did not finish itself.  A node that was seen
is refused from then on, as circular if it is one of these, and as shared if it is any other; one
that a walk tried to enter in vain is refused for the same cause on the trail that it leaves
(`HaltsAt.refused`). -/
theorem walks_leave_unfinished (h : Hooks σ) (plan : List ((Scene σ → Scene σ) × Task))
    (scene : Scene σ) (before after : List (Task × WalkState σ)) (w : Task × WalkState σ)
    (hwalks : rounds h plan ⟨.start, scene⟩ = before ++ w :: after) :
    let start := w.2
    let result := (exec (run h w.1) w.2).1
    let final := (exec (run h w.1) w.2).2
    (start.trail.Sound ∧ final.trail.Sound) ∧
    (Grown start final ∧ ∀ v ∈ before, Grown (exec (run h v.1) v.2).2 start) ∧
    (∀ n, n ∈ start.trail.path ↔ ∃ v ∈ before, Failed h v ∧ Unfinished h v n) ∧
    (result = .ok () → final.trail.path = start.trail.path) ∧
    (∀ e, result = .error e → HaltsAt h final (eventsOf h w.1 w.2) e ∧
      ∃ top, final.trail.path = top ++ start.trail.path ∧ ∀ n, n ∈ top ↔ Unfinished h w n) ∧
    ∀ n, final.trail.seen.contains n = true →
      ((∃ v ∈ before ++ [w], Failed h v ∧ Unfinished h v n) →
        final.trail.enter n = .error .cycle) ∧
      (¬ (∃ v ∈ before ++ [w], Failed h v ∧ Unfinished h v n) →
        final.trail.enter n = .error .sharedNode) := by
  obtain ⟨hsound, _, hbefore, hpath⟩ := start_of_rounds h sound_start hwalks
  obtain ⟨hok, herror⟩ := leaves_unfinished h w
  have hpath : ∀ n, n ∈ w.2.trail.path ↔ ∃ v ∈ before, Failed h v ∧ Unfinished h v n := fun n => by
    rw [hpath]
    simp [Trail.start]
  have hlast : ∀ n, n ∈ (exec (run h w.1) w.2).2.trail.path ↔
      ∃ v ∈ before ++ [w], Failed h v ∧ Unfinished h v n := fun n => by
    rw [mem_path_of_run, hpath]
    simp [or_and_right, exists_or]
  refine ⟨⟨hsound, (sound_local h).run w.1 w.2 hsound⟩, ⟨(grown_local h).run w.1 w.2, hbefore⟩,
    hpath, hok, herror, fun n hseen => ?_⟩
  rw [Trail.enter, if_pos hseen]
  exact ⟨fun hn => by rw [if_pos ((hlast n).mpr hn)],
    fun hn => by rw [if_neg fun hmem => hn ((hlast n).mp hmem)]⟩

/-- Hooks that do not accept a statement when its visit is nearly over. -/
def unaccepting : Hooks Unit where
  pass := "unaccepting"
  postStmt s := throw (.defect (.unexpectedLeave "post_stmt" s none))

/-- A function that returns a number. -/
def returning : Program where
  modules := #[⟨"m", "m.w", none, [⟨0⟩]⟩]
  symbols := #[.new "f" (.func [] none [⟨0⟩]) 1]
  stmts := #[.new (.ret (some ⟨0⟩)) 2]
  exprs := #[.new (.int 1) 2]

/-- The walk of the module, and after it the walk of the number. -/
def moduleThenNumber : List (Task × WalkState Unit) :=
  rounds unaccepting [(id, .module ⟨0⟩), (id, .expr ⟨.stmt ⟨0⟩, 0⟩)] ⟨.start, returning, ()⟩

/-- Both walks halt.  The first one leaves the function unfinished, but not the number. -/
theorem walks_leave_unfinished_returning :
    ∃ v w, moduleThenNumber = [v] ++ w :: [] ∧ Failed unaccepting v ∧ Failed unaccepting w ∧
      (exec (run unaccepting w.1) w.2).2.trail.enter (.symbol ⟨0⟩) = .error .cycle ∧
      (exec (run unaccepting w.1) w.2).2.trail.enter (.expr ⟨0⟩) = .error .sharedNode := by
  let v : Task × WalkState Unit := (.module ⟨0⟩, ⟨.start, returning, ()⟩)
  let w : Task × WalkState Unit := (.expr ⟨.stmt ⟨0⟩, 0⟩, (exec (run unaccepting v.1) v.2).2)
  have hwalks : moduleThenNumber = [v] ++ w :: [] := by simp [moduleThenNumber, rounds, v, w]
  have hfailed : Failed unaccepting v :=
    ⟨.defect ⟨"unaccepting", .stmt, .stmt ⟨0⟩, .unexpectedLeave "post_stmt" ⟨0⟩ none⟩,
      by decide +kernel⟩
  have hshared : Failed unaccepting w :=
    ⟨.defect ⟨"unaccepting", .expr, .expr ⟨0⟩, .sharedNode⟩, by decide +kernel⟩
  have hfunction : Unfinished unaccepting v (.symbol ⟨0⟩) := by decide +kernel
  have hnumber : ∀ u ∈ [v] ++ [w], ¬ Unfinished unaccepting u (.expr ⟨0⟩) := by decide +kernel
  obtain ⟨_, _, _, _, _, hattempts⟩ := walks_leave_unfinished unaccepting _ _ [v] [] w hwalks
  refine ⟨v, w, hwalks, hfailed, hshared, ?_, ?_⟩
  · exact (hattempts (.symbol ⟨0⟩) (by decide +kernel)).1 ⟨v, by simp, hfailed, hfunction⟩
  · refine (hattempts (.expr ⟨0⟩) (by decide +kernel)).2 ?_
    rintro ⟨u, hu, _, hunfinished⟩
    exact hnumber u hu hunfinished

end Walk

end MiddleEnd
