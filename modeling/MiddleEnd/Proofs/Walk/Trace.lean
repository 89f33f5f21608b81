import MiddleEnd.Proofs.Walk.Rules

/-!
# MiddleEnd.Proofs.Walk.Trace

What the walk promises to hooks that may do anything: change the program at will, and refuse.  On
one trail, whatever is walked and however the walks end, no node has its first or its last hook
called twice; a last hook is called only where the first one accepted; and visits nest, where an
expression that its own first hook took from its place counts as not visited (`calls_nest`).

None of this depends on the program.  A node is entered before its first hook is called, which no
trail allows twice (`Adds`), and what comes between its two hooks leaves the stack of visits as it
was or does not end well (`Traces`).  Both are kept in whatever way a walk is put together
(`rules_traced`).
-/

namespace MiddleEnd.Walk

variable {σ : Type}

/-- Events that were added in a walk: their nodes were new, and are no longer. -/
structure Adds (st st' : WalkState (σ × List (Event σ))) (es : List (Event σ)) : Prop where
  log : st'.scene.own.2 = st.scene.own.2 ++ es
  grown : Grown st st'
  entered : ∀ n, st'.trail.seen.contains n = true →
    st.trail.seen.contains n = true ∨ (∃ m, n = .module m) ∨ n ∈ begun es
  fresh : ∀ n ∈ begun es, st.trail.seen.contains n = false ∧ st'.trail.seen.contains n = true
  nodup : (begun es).Nodup

/-- Events that were added in a walk that ended as it did, whatever visits were going on around
it. -/
structure Traces (r : Except Halt Unit) (st st' : WalkState (σ × List (Event σ)))
    (es : List (Event σ)) : Prop where
  adds : Adds st st' es
  nest : ∃ top, (∀ stack, nest stack es = some (top ++ stack)) ∧ (r = .ok () → top = [])
  /-- Only the last event may be a refusal, and only if the walk does not end well. -/
  accepted : ∀ e ∈ es.dropLast, e.accepted = true
  all : r = .ok () → ∀ e ∈ es, e.accepted = true

/-- A walk that starts from the state adds events that nest. -/
def Traced (x : WalkM (σ × List (Event σ)) Unit) (st : WalkState (σ × List (Event σ))) : Prop :=
  ∃ es, Traces (exec x st).1 st (exec x st).2 es

section

variable {h : Hooks σ} {x y k : WalkM (σ × List (Event σ)) Unit} {r : Except Halt Unit}
  {st st₁ st₂ : WalkState (σ × List (Event σ))} {es fs : List (Event σ)}

/-- Where no node is entered, none is begun. -/
theorem Adds.aside (hes : begun es = []) (hlog : st₁.scene.own.2 = st.scene.own.2 ++ es)
    (hseen : st₁.trail.seen = st.trail.seen) : Adds st st₁ es where
  log := hlog
  grown n hn := by rwa [hseen]
  entered n hn := .inl (by rwa [← hseen])
  fresh n hn := by
    rw [hes] at hn
    cases hn
  nodup := hes ▸ .nil

/-- Events are added one after the other. -/
theorem Adds.trans (h : Adds st st₁ es) (h' : Adds st₁ st₂ fs) : Adds st st₂ (es ++ fs) where
  log := by rw [h'.log, h.log, List.append_assoc]
  grown n hn := h'.grown n (h.grown n hn)
  entered n hn := by
    rw [begun_append, List.mem_append]
    rcases h'.entered n hn with hn | hn | hn
    · exact (h.entered n hn).imp_right (·.imp_right .inl)
    · exact .inr (.inl hn)
    · exact .inr (.inr (.inr hn))
  fresh n hn := by
    rw [begun_append, List.mem_append] at hn
    rcases hn with hn | hn
    · exact ⟨(h.fresh n hn).1, h'.grown n (h.fresh n hn).2⟩
    · refine ⟨?_, (h'.fresh n hn).2⟩
      by_contra hseen
      have := (h'.fresh n hn).1
      rw [h.grown n (by simpa using hseen)] at this
      cases this
  nodup := by
    rw [begun_append, List.nodup_append]
    refine ⟨h.nodup, h'.nodup, fun n hn m hm hnm => ?_⟩
    have hold := (h.fresh n hn).2
    rw [hnm, (h'.fresh m hm).1] at hold
    cases hold

theorem Traces.nil (r : Except Halt Unit) (hlog : st₁.scene.own.2 = st.scene.own.2)
    (hseen : st₁.trail.seen = st.trail.seen) : Traces r st st₁ [] :=
  ⟨.aside rfl (by rw [hlog, List.append_nil]) hseen, ⟨[], fun _ => rfl, fun _ => rfl⟩, nofun,
    fun _ => nofun⟩

/-- Only the last event may have been refused, also of two parts. -/
theorem accepted_append (hes : ∀ e ∈ es, e.accepted = true)
    (hfs : ∀ e ∈ fs.dropLast, e.accepted = true) :
    ∀ e ∈ (es ++ fs).dropLast, e.accepted = true := by
  intro e he
  by_cases hnil : fs = []
  · rw [hnil, List.append_nil] at he
    exact hes e (List.mem_of_mem_dropLast he)
  · rw [List.dropLast_append_of_ne_nil hnil, List.mem_append] at he
    exact he.elim (hes e) (hfs e)

/-- What is traced in two parts is traced in both together, if the first ended well. -/
theorem Traces.trans (h : Traces (.ok ()) st st₁ es) (h' : Traces r st₁ st₂ fs) :
    Traces r st st₂ (es ++ fs) where
  adds := h.adds.trans h'.adds
  nest := by
    obtain ⟨top, hnest, htop⟩ := h.nest
    obtain ⟨top', hnest', htop'⟩ := h'.nest
    refine ⟨top', fun stack => ?_, htop'⟩
    rw [nest_append, hnest, htop rfl]
    exact hnest' stack
  accepted := accepted_append (h.all rfl) h'.accepted
  all hr e he := (List.mem_append.mp he).elim (h.all rfl e) (h'.all hr e)

/-- Two parts that are traced are so one after the other. -/
theorem Traced.bind (hx : Traced x st)
    (hy : ∀ st₁, exec x st = (.ok (), st₁) → Traced y st₁) : Traced (x >>= fun _ => y) st := by
  obtain ⟨es, hes⟩ := hx
  rw [Traced, exec_bind]
  match hexec : exec x st with
  | (.error e, st₁) =>
    rw [hexec] at hes
    exact ⟨es, hes.adds, hes.nest, hes.accepted, nofun⟩
  | (.ok (), st₁) =>
    rw [hexec] at hes
    obtain ⟨fs, hfs⟩ := hy st₁ hexec
    exact ⟨es ++ fs, hes.trans hfs⟩

/-- A node that was entered is new, and is no longer. -/
theorem adds_enter {n : NodeId} (henter : exec (enter h.logged n) st = (.ok (), st₁))
    (hes : begun es = [n]) (hlog : st₂.scene.own.2 = st₁.scene.own.2 ++ es)
    (hseen : st₂.trail.seen = st₁.trail.seen) : Adds st st₂ es := by
  obtain ⟨_, hn, rfl⟩ := of_exec_enter_ok henter
  refine ⟨hlog, fun m hm => ?_, fun m hm => ?_, ?_, ?_⟩
  · rw [hseen]
    simp [hm]
  · rw [hseen, NodeSet.contains_insert, Bool.or_eq_true, decide_eq_true_iff] at hm
    rw [hes, List.mem_singleton]
    exact hm.elim (fun hm => .inr (.inr hm)) .inl
  · rw [hes, hseen]
    rintro m hm
    obtain rfl := List.mem_singleton.mp hm
    simpa using hn
  · rw [hes]
    exact List.nodup_singleton n

/-- A module has no hooks. -/
theorem traced_enter_module (m : ModuleId) (st : WalkState (σ × List (Event σ))) :
    Traced (enter h.logged (.module m)) st := by
  rw [Traced]
  match henter : exec (enter h.logged (.module m)) st with
  | (.ok (), st₁) =>
    obtain ⟨_, _, rfl⟩ := of_exec_enter_ok henter
    refine ⟨[], ⟨(List.append_nil _).symm, fun n hn => by simp [hn], fun n hn => ?_, nofun, .nil⟩,
      ⟨[], fun _ => rfl, fun _ => rfl⟩, nofun, fun _ => nofun⟩
    rw [NodeSet.contains_insert, Bool.or_eq_true, decide_eq_true_iff] at hn
    exact hn.elim (fun hn => .inr (.inl ⟨m, hn⟩)) .inl
  | (.error e, st₁) =>
    have hst := of_exec_enter_error henter
    exact hst ▸ ⟨[], .nil _ rfl rfl⟩

/-- After what a node owns was walked through, its last hook is called, and the node is left. -/
theorem traced_last (h : Hooks σ) {e : Event σ} {d : Call} (hnode : d.node = e.call.node)
    (hd : d.isPre = false) (hopens : e.Opens) (hadds : Adds st st₁ [e])
    (hes : Traces (.ok ()) st₁ st₂ es) :
    ∃ fs, Traces (exec (do call h.logged e.call.node (h.logged.hook d); leave e.call.node) st₂).1 st
      (exec (do call h.logged e.call.node (h.logged.hook d); leave e.call.node) st₂).2 fs := by
  obtain ⟨f, rfl, haccepted, _, hlog, htrail⟩ := exec_call_logged h d st₂
  rw [hnode] at haccepted hlog htrail
  have hends : f.Ends := hd
  have hlast := (hadds.trans hes.adds).trans
    (.aside (by have := hends.not_begins; simp [begun, this]) hlog (congrArg Trail.seen htrail))
  have hnest : ∀ stack, nest stack ([e] ++ es ++ [f]) = some ([] ++ stack) := fun stack => by
    obtain ⟨top, hnest, htop⟩ := hes.nest
    have hstack : f.node :: stack = e.node :: stack := congrArg (· :: stack) hnode
    rw [List.append_assoc, List.singleton_append, nest_opens hopens, nest_append, hnest, htop rfl,
      Option.bind_some, List.nil_append, ← hstack, nest_ends hends]
    rfl
  have haccepted' : ∀ e' ∈ ([e] ++ es), e'.accepted = true := fun e' he' =>
    (List.mem_append.mp he').elim (fun he' => List.mem_singleton.mp he' ▸ hopens.2.1)
      (hes.all rfl e')
  refine ⟨[e] ++ es ++ [f], ?_⟩
  rw [exec_bind]
  rcases hcall : exec (call h.logged e.call.node (h.logged.hook f.call)) st₂ with
    ⟨_ | ⟨⟩, st₃⟩
  · rw [hcall] at hlast
    exact ⟨hlast, ⟨[], hnest, fun _ => rfl⟩, accepted_append haccepted' (by simp), by simp⟩
  · rw [hcall] at hlast haccepted
    refine ⟨⟨hlast.log, hlast.grown, hlast.entered, hlast.fresh, hlast.nodup⟩,
      ⟨[], hnest, fun _ => rfl⟩, accepted_append haccepted' (by simp), fun _ e' he' => ?_⟩
    exact (List.mem_append.mp he').elim (haccepted' e')
      fun he' => List.mem_singleton.mp he' ▸ haccepted

/-- A node is entered and its first hook called. -/
theorem traced_node {c d : Call} (hc : c.isPre = true) (hd : d.isPre = false)
    (hnode : d.node = c.node)
    (hrest : ∀ st₁ st₂, exec (enter h.logged c.node) st = (.ok (), st₁) →
      exec (call h.logged c.node (h.logged.hook c)) st₁ = (.ok (), st₂) →
      Rest h.logged Traced c d k st₂) :
    Traced (do enter h.logged c.node; call h.logged c.node (h.logged.hook c); k) st := by
  rw [Traced]
  rcases henter : exec (enter h.logged c.node) st with ⟨_ | ⟨⟩, st₁⟩
  · rw [exec_bind_error henter]
    exact of_exec_enter_error henter ▸ ⟨[], .nil _ rfl rfl⟩
  rw [exec_bind_ok henter]
  obtain ⟨e, rfl, haccepted, hprogram, hlog, htrail⟩ := exec_call_logged h c st₁
  have hbegins : e.Begins := hc
  have hadds : ∀ st₃, st₃.scene.own.2 = st₁.scene.own.2 ++ [e] → st₃.trail.seen = st₁.trail.seen →
      Adds st st₃ [e] := fun _ =>
    adds_enter henter (by simp [begun, hbegins, Event.node])
  rcases hcall : exec (call h.logged e.call.node (h.logged.hook e.call)) st₁ with ⟨_ | ⟨⟩, st₂⟩ <;>
    rw [hcall] at haccepted hprogram hlog htrail <;>
    have hseen : st₂.trail.seen = st₁.trail.seen := congrArg Trail.seen htrail
  · have hopens : ¬ e.Opens := fun ho => by
      rw [ho.2.1] at haccepted
      cases haccepted
    rw [exec_bind_error hcall]
    exact ⟨[e], hadds _ hlog hseen,
      ⟨[], fun stack => nest_begins hbegins hopens, fun _ => rfl⟩, by simp, by simp⟩
  rw [exec_bind_ok hcall]
  have hrest := hrest st₁ st₂ henter hcall
  have hall : ∀ f ∈ [e], f.accepted = true := fun f hf => List.mem_singleton.mp hf ▸ haccepted
  by_cases hdropped : e.Dropped
  · obtain ⟨x, ⟨es, hes⟩, hexec⟩ := hrest.dropped (hprogram ▸ hdropped)
    have hopens : ¬ e.Opens := fun ho => ho.2.2 hdropped
    have hfirst : Traces (.ok ()) st (leaving e.call.node st₂) [e] :=
      ⟨hadds _ hlog hseen, ⟨[], fun stack => nest_begins hbegins hopens, fun _ => rfl⟩, by simp,
        fun _ => hall⟩
    rw [hexec, exec_bind_ok (exec_leave _ _)]
    exact ⟨[e] ++ es, hfirst.trans hes⟩
  · have hopens : e.Opens := ⟨hbegins, haccepted, hdropped⟩
    have hfirst := hadds st₂ hlog hseen
    obtain ⟨x, ⟨es, hes⟩, hexec⟩ := hrest.goes_on (hprogram ▸ hdropped)
    rw [hexec, exec_bind]
    rcases hinside : exec x st₂ with ⟨_ | ⟨⟩, st₃⟩ <;> rw [hinside] at hes
    · obtain ⟨top, hnest, _⟩ := hes.nest
      refine ⟨[e] ++ es, hfirst.trans hes.adds, ⟨top ++ [e.node], fun stack => ?_, by simp⟩,
        accepted_append hall hes.accepted, by simp⟩
      rw [List.singleton_append, nest_opens hopens, hnest, List.append_assoc,
        List.singleton_append]
    · exact traced_last h hnode hd hopens hfirst hes

/-- Walks are traced, however they are put together. -/
theorem rules_traced (h : Hooks σ) : Rules h.logged Traced where
  nothing _ := ⟨[], .nil _ rfl rfl⟩
  same hexec hy := by rwa [Traced, hexec]
  andThen := .bind
  repeated _ := ⟨[], .nil _ rfl rfl⟩
  node := traced_node

/-- Whatever is walked, from whatever state, adds events that nest. -/
theorem traced_run (h : Hooks σ) (task : Task) (st : WalkState (σ × List (Event σ))) :
    Traced (run h.logged task) st := by
  by_cases hinner : task.IsInner
  · exact (rules_traced h).run task st hinner
  · cases task with
    | module m =>
      rw [run_eq]
      refine (traced_enter_module m st).bind fun st₁ _ => ?_
      exact .bind ((rules_traced h).run (.symbols (.module m)) st₁ trivial) fun st₂ _ =>
        ⟨[], .nil _ rfl rfl⟩
    | _ => exact absurd trivial hinner

end

/-! ## Walks on one trail -/

/-- The calls that are made for a task, with what came of them. -/
def eventsOf (h : Hooks σ) (task : Task) (st : WalkState σ) : List (Event σ) :=
  (exec (run h.logged task) ⟨st.trail, st.scene.program, st.scene.own, []⟩).2.scene.own.2

/-- Tasks done one after another on one trail, each however the one before it ended, and each after
a change of the scene: the state in which each of them is begun. -/
def rounds (h : Hooks σ) : List ((Scene σ → Scene σ) × Task) → WalkState σ →
    List (Task × WalkState σ)
  | [], _ => []
  | (change, task) :: plan, st =>
    (task, { st with scene := change st.scene }) ::
      rounds h plan (exec (run h task) { st with scene := change st.scene }).2

/-- Calls that nest, made in a walk that ended as it did. -/
structure WellNested (r : Except Halt Unit) (es : List (Event σ)) : Prop where
  /-- A last hook is called after the first hook of its node, which accepted. -/
  begun : ∀ xs e ys, es = xs ++ e :: ys → e.Ends →
    ∃ f ∈ xs, f.Begins ∧ f.node = e.node ∧ f.accepted = true
  /-- When the last hook of a node is called, it has been called for every node that was begun in
  between, unless that node is an expression that was taken from its place. -/
  inner : ∀ xs e ys g zs f ws, es = xs ++ e :: ys ++ g :: zs ++ f :: ws → e.Begins → f.Ends →
    f.node = e.node → g.Begins → g.Dropped ∨ ∃ k ∈ zs, k.Ends ∧ k.node = g.node
  /-- A walk that ends well has called the last hook of every node that it began, unless it is an
  expression that was taken from its place. -/
  ended : r = .ok () → ∀ xs e ys, es = xs ++ e :: ys → e.Begins →
    e.Dropped ∨ ∃ k ∈ ys, k.Ends ∧ k.node = e.node

section

variable {h : Hooks σ} {es : List (Event σ)}

/-- Writing down the calls of a task does not change what is done. -/
theorem traces_eventsOf (h : Hooks σ) (task : Task) (st : WalkState σ) :
    ∃ st' : WalkState (σ × List (Event σ)), st'.unlogged = (exec (run h task) st).2 ∧
      Traces (exec (run h task) st).1 ⟨st.trail, st.scene.program, st.scene.own, []⟩ st'
        (eventsOf h task st) := by
  have hsame := exec_run_logged h task ⟨st.trail, st.scene.program, st.scene.own, []⟩
  obtain ⟨es, hes⟩ := traced_run h task ⟨st.trail, st.scene.program, st.scene.own, []⟩
  change exec (run h task) st = _ at hsame
  have hlog : eventsOf h task st = es := hes.adds.log
  rw [hsame, hlog]
  exact ⟨_, rfl, hes⟩

/-- Events that trace a walk from its start nest. -/
theorem Traces.wellNested {r : Except Halt Unit} {st st' : WalkState (σ × List (Event σ))}
    (ht : Traces r st st' es) : WellNested r es where
  begun xs e ys hes hends := by
    subst hes
    obtain ⟨top, hnest, _⟩ := ht.nest
    obtain ⟨f, hf, hopens, hnode⟩ := Nests.opened_before ⟨hnest [], ht.adds.nodup⟩ hends
    exact ⟨f, hf, hopens.1, hnode, hopens.2.1⟩
  inner xs e ys g zs f ws hes he hf hnode hg := by
    subst hes
    obtain ⟨top, hnest, _⟩ := ht.nest
    by_cases hdropped : g.Dropped
    · exact .inl hdropped
    have haccepted : g.accepted = true := by
      refine ht.accepted g ?_
      rw [List.dropLast_append_of_ne_nil (by simp)]
      simp
    exact .inr (mem_ended.mp (Nests.ended_inside ⟨hnest [], ht.adds.nodup⟩ he hf hnode
      ⟨hg, haccepted, hdropped⟩))
  ended hr xs e ys hes he := by
    subst hes
    obtain ⟨top, hnest, htop⟩ := ht.nest
    obtain rfl := htop hr
    by_cases hdropped : e.Dropped
    · exact .inl hdropped
    exact .inr (mem_ended.mp (Nests.ended_after ⟨hnest [], ht.adds.nodup⟩
      ⟨he, ht.all hr e (by simp), hdropped⟩))

/-- What ended in a walk was begun in it, and nothing ended twice. -/
theorem Traces.ended {r : Except Halt Unit} {st st' : WalkState (σ × List (Event σ))}
    (ht : Traces r st st' es) : (ended es).Nodup ∧ ended es ⊆ begun es := by
  obtain ⟨top, hnest, _⟩ := ht.nest
  have hnests : Nests es _ := ⟨hnest [], ht.adds.nodup⟩
  exact ⟨hnests.nodup_ended, hnests.ended_subset⟩

/-- What is begun in walks on one trail was not entered before the first of them, and is not begun
twice. -/
theorem nodup_rounds (h : Hooks σ) : ∀ (plan : List ((Scene σ → Scene σ) × Task))
    (st : WalkState σ), let es := (rounds h plan st).flatMap fun w => eventsOf h w.1 w.2
    (begun es).Nodup ∧ (ended es).Nodup ∧ ended es ⊆ begun es ∧
      ∀ n ∈ begun es, st.trail.seen.contains n = false
  | [], _ => ⟨.nil, .nil, List.Subset.refl _, nofun⟩
  | (change, task) :: plan, st => by
    obtain ⟨st', hst', ht⟩ := traces_eventsOf h task { st with scene := change st.scene }
    have htrail : st'.trail = (exec (run h task) { st with scene := change st.scene }).2.trail :=
      congrArg WalkState.trail hst'
    have hgrown : ∀ n, st.trail.seen.contains n = true → st'.trail.seen.contains n = true :=
      ht.adds.grown
    obtain ⟨hbegun, hended, hsub, hnew⟩ := nodup_rounds h plan
      (exec (run h task) { st with scene := change st.scene }).2
    rw [← htrail] at hnew
    obtain ⟨hended₀, hsub₀⟩ := ht.ended
    rw [rounds, List.flatMap_cons]
    -- what the first walk begins is entered when the others start
    have hapart : ∀ n ∈ begun (eventsOf h task { st with scene := change st.scene }), ∀ m ∈ begun
        ((rounds h plan _).flatMap fun w => eventsOf h w.1 w.2), n ≠ m := fun n hn m hm =>
      NodeSet.ne_of_contains (ht.adds.fresh n hn).2 (hnew m hm)
    simp only [begun_append, ended_append]
    refine ⟨List.nodup_append.mpr ⟨ht.adds.nodup, hbegun, hapart⟩, List.nodup_append.mpr
      ⟨hended₀, hended, fun n hn m hm => hapart n (hsub₀ hn) m (hsub hm)⟩, ?_, fun n hn => ?_⟩
    · exact List.append_subset.mpr ⟨fun n hn => List.mem_append_left _ (hsub₀ hn),
        fun n hn => List.mem_append_right _ (hsub hn)⟩
    · rcases List.mem_append.mp hn with hn | hn
      · exact (ht.adds.fresh n hn).1
      · by_contra hseen
        have hlater := hnew n hn
        rw [hgrown n (by simpa using hseen)] at hlater
        cases hlater

end

/-- Hooks may do anything to the program, and may refuse; whatever is walked on one trail, and
however each walk ends, no node has its first hook called twice, nor its last.  In each walk, a last
hook is called after the first hook of its node, which accepted; visits nest; what is entered is
begun; and a walk that ends well has ended all visits. -/
theorem calls_nest (h : Hooks σ) (plan : List ((Scene σ → Scene σ) × Task)) (scene : Scene σ) :
    let walks := rounds h plan ⟨.start, scene⟩
    let calls := walks.flatMap fun w => eventsOf h w.1 w.2
    (begun calls).Nodup ∧ (ended calls).Nodup ∧ ∀ w ∈ walks,
      WellNested (exec (run h w.1) w.2).1 (eventsOf h w.1 w.2) ∧
      ∀ n, (exec (run h w.1) w.2).2.trail.seen.contains n = true →
        w.2.trail.seen.contains n = true ∨ (∃ m, n = .module m) ∨
          n ∈ begun (eventsOf h w.1 w.2) := by
  obtain ⟨hbegun, hended, _⟩ := nodup_rounds h plan ⟨.start, scene⟩
  refine ⟨hbegun, hended, fun w _ => ?_⟩
  obtain ⟨st', hst', ht⟩ := traces_eventsOf h w.1 w.2
  refine ⟨ht.wellNested, fun n hn => ht.adds.entered n ?_⟩
  rw [← hst'] at hn
  exact hn

end MiddleEnd.Walk
