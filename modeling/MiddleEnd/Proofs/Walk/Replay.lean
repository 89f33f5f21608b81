import MiddleEnd.Proofs.Walk.Calls
import MiddleEnd.Proofs.Walk.Tour

/-!
# MiddleEnd.Proofs.Walk.Replay

A walk that only looks, over modules that are trees, is the same as the hook calls at the trees one
after another, up to the first that refuses (`walk_calls`).  The walk never goes through a list as
such: it reads lists and places again after each child.  The invariant is that the trees ahead still
stand in the program and were not entered (`Lies`), so that what is read again is what was there.
-/

namespace MiddleEnd

open MiddleEnd.Tree

/-- Trees that a task is about, and the hook calls at them. -/
def Program.Tells (p : Program) : Task → List Tree → List Call → Prop
  | .module m, ts, cs => ts.map Tree.id = [.module m] ∧ cs = callsOf ts
  | .symbol s, ts, cs => ts.map Tree.id = [.symbol s] ∧ ∃ pos, cs = callsFrom (fun _ => pos) 0 ts
  | .stmt place, ts, cs => ts.map Tree.id = (p.stmtAt? place).toList.map .stmt ∧
      cs = callsFrom (fun _ => .stmt place) 0 ts
  | .expr place, ts, cs => ts.map Tree.id = (p.exprAt? place).toList.map .expr ∧
      cs = callsFrom (fun _ => .expr place) 0 ts
  | .symbols list, ts, cs => ts.map Tree.id = (p.symbolsIn list).map .symbol ∧
      cs = callsFrom (.symbol list) 0 ts
  | .symbolsFrom list c, ts, cs => ∃ done todo, p.symbolsIn list = done ++ todo ∧
      c.Splits done todo ∧ ts.map Tree.id = todo.map .symbol ∧
      cs = callsFrom (.symbol list) done.length ts
  | .stmts list, ts, cs => ts.map Tree.id = (p.stmtsIn list).map .stmt ∧
      cs = callsFrom (fun i => .stmt (.entry list i)) 0 ts
  | .stmtsFrom list c, ts, cs => ∃ done todo, p.stmtsIn list = done ++ todo ∧
      c.Splits done todo ∧ ts.map Tree.id = todo.map .stmt ∧
      cs = callsFrom (fun i => .stmt (.entry list i)) done.length ts
  | .operandsFrom owner i, ts, cs => ts.map Tree.id = ((p.operands owner).drop i).map .expr ∧
      cs = callsFrom (fun j => .expr ⟨owner, j⟩) i ts

/-- A trail on which nodes were entered and left one after another. -/
def Trail.along (t : Trail) (ns : List NodeId) : Trail :=
  ⟨t.path, ns.foldl .insert t.seen, ns.foldl (fun tally n => tally.count n.step) t.tally⟩

namespace Trail

/-- Nodes are passed one list after the other. -/
theorem along_append (t : Trail) (ns ms : List NodeId) :
    t.along (ns ++ ms) = (t.along ns).along ms := by
  simp [along, List.foldl_append]

/-- Along the trail the nodes were seen. -/
theorem seen_along (t : Trail) (ns : List NodeId) (n : NodeId) :
    (t.along ns).seen.contains n = (decide (n ∈ ns) || t.seen.contains n) := by
  induction ns generalizing t with
  | nil => simp [along]
  | cons m ns ih =>
    rw [← List.singleton_append, along_append, ih]
    simp only [along, List.foldl_cons, List.foldl_nil, NodeSet.contains_insert, ← Bool.or_assoc,
      ← Bool.decide_or, List.singleton_append, List.mem_cons, or_comm]

/-- Entering a node, walking along what is below it and leaving it again. -/
theorem leave_along (t : Trail) (n : NodeId) (ns : List NodeId) :
    (along ⟨n :: t.path, t.seen.insert n, t.tally.count n.step⟩ ns).leave n =
      t.along (n :: ns) := by
  simp [along, leave]

end Trail

namespace Walk

variable {σ : Type}

/-- The hooks leave the program as it is. -/
def Looks (h : Hooks σ) : Prop :=
  ∀ {n hook}, HookAt h n hook → ∀ scene, (exec hook scene).2.program = scene.program

/-- A pass that observes only looks. -/
theorem looks_toHooks (o : Observer σ) : Looks o.toHooks := fun hh _ => by
  cases hh <;> rfl

/-- Hooks that only look do so when their calls are written down. -/
theorem Looks.logged {h : Hooks σ} (hlook : Looks h) : Looks h.logged := fun hh scene => by
  obtain ⟨c, rfl, rfl⟩ := hh.of_logged
  exact hlook (hookAt_hook h c) ⟨scene.program, scene.own.1⟩

/-- Hooks called one after another, up to the first that refuses. -/
def replay (h : Hooks σ) (cs : List Call) : WalkM σ Unit :=
  cs.forM fun c => call h c.node (h.hook c)

/-! ## Calls without a walk -/

/-- Calls are replayed one list after the other. -/
theorem replay_append (h : Hooks σ) (cs ds : List Call) :
    replay h (cs ++ ds) = (replay h cs >>= fun _ => replay h ds) := List.forM_append

/-- What a hook answers does not depend on the trail. -/
theorem exec_call_trail (h : Hooks σ) (n : NodeId) (hook : HookM σ Unit) (st : WalkState σ)
    (t : Trail) : exec (call h n hook) { st with trail := t } =
      ((exec (call h n hook) st).1, { (exec (call h n hook) st).2 with trail := t }) := by
  rw [exec_call, exec_call]
  generalize exec hook st.scene = r
  obtain ⟨(_ | _) | _, _⟩ := r <;> rfl

/-- Hooks alone do not look at the trail. -/
theorem exec_replay_trail (h : Hooks σ) (t : Trail) : ∀ (cs : List Call) (st : WalkState σ),
    exec (replay h cs) { st with trail := t } =
      ((exec (replay h cs) st).1, { (exec (replay h cs) st).2 with trail := t })
  | [], _ => rfl
  | c :: cs, st => by
    change exec (call h c.node (h.hook c) >>= fun _ => replay h cs) _ =
      ((exec (call h c.node (h.hook c) >>= fun _ => replay h cs) st).1, { (exec
        (call h c.node (h.hook c) >>= fun _ => replay h cs) st).2 with trail := t })
    rw [exec_bind, exec_bind, exec_call_trail]
    match exec (call h c.node (h.hook c)) st with
    | (.ok (), st₁) => exact exec_replay_trail h t cs st₁
    | (.error e, st₁) => rfl

/-- A walk that looks is the same as the hook calls `cs`, and leaves the trail as given if it ends
well. -/
structure Plays (hooks : Hooks σ) (x : WalkM σ Unit) (st : WalkState σ) (cs : List Call)
    (trail : Trail) : Prop where
  result : (exec x st).1 = (exec (replay hooks cs) st).1
  scene : (exec x st).2.scene = (exec (replay hooks cs) st).2.scene
  program : (exec x st).2.scene.program = st.scene.program
  trail : (exec x st).1 = .ok () → (exec x st).2.trail = trail

section

variable {hooks : Hooks σ} {x y : WalkM σ Unit} {st : WalkState σ} {cs ds : List Call}
  {t₁ t₂ : Trail}

theorem Plays.pure (st : WalkState σ) : Plays hooks (Pure.pure ()) st [] st.trail :=
  ⟨rfl, rfl, rfl, fun _ => rfl⟩

/-- One walk after another is the same as the calls of one after those of the other. -/
theorem Plays.bind (hx : Plays hooks x st cs t₁)
    (hy : ∀ st₁, exec x st = (.ok (), st₁) → st₁.trail = t₁ →
      st₁.scene.program = st.scene.program → Plays hooks y st₁ ds t₂) :
    Plays hooks (x >>= fun _ => y) st (cs ++ ds) t₂ := by
  have hresult := hx.result
  have hscene := hx.scene
  have hprogram := hx.program
  have htrail := hx.trail
  match hexec : exec x st with
  | (.error e, st₁) =>
    have hbind : exec (x >>= fun _ => y) st = (.error e, st₁) := by rw [exec_bind, hexec]
    rw [hexec] at hresult hscene hprogram
    match hreplay : exec (replay hooks cs) st with
    | (.ok (), st₂) => rw [hreplay] at hresult; cases hresult
    | (.error e', st₂) =>
      rw [hreplay] at hresult hscene
      have hboth : exec (replay hooks (cs ++ ds)) st = (.error e', st₂) := by
        rw [replay_append, exec_bind, hreplay]
      refine ⟨?_, ?_, ?_, fun hok => ?_⟩ <;> rw [hbind]
      · rw [hboth]; exact hresult
      · rw [hboth]; exact hscene
      · exact hprogram
      · rw [hbind] at hok; cases hok
  | (.ok (), st₁) =>
    have hbind : exec (x >>= fun _ => y) st = exec y st₁ := exec_bind_ok hexec
    rw [hexec] at hresult hscene hprogram htrail
    have hy := hy st₁ hexec (htrail rfl) hprogram
    match hreplay : exec (replay hooks cs) st with
    | (.error e', st₂) => rw [hreplay] at hresult; cases hresult
    | (.ok (), ⟨t, scene⟩) =>
      rw [hreplay] at hscene
      -- the two runs differ in their trails only
      obtain rfl : st₁.scene = scene := hscene
      have hboth : exec (replay hooks (cs ++ ds)) st = ((exec (replay hooks ds) st₁).1,
          { (exec (replay hooks ds) st₁).2 with trail := t }) := by
        rw [replay_append, exec_bind_ok hreplay]
        exact exec_replay_trail hooks t ds st₁
      refine ⟨?_, ?_, ?_, fun hok => ?_⟩ <;> rw [hbind]
      · rw [hboth]; exact hy.result
      · rw [hboth]; exact hy.scene
      · exact hy.program.trans hprogram
      · exact hy.trail (hbind ▸ hok)

/-- A call of a hook is the same as its replay. -/
theorem plays_call (hlook : Looks hooks) (c : Call) (st : WalkState σ) :
    Plays hooks (call hooks c.node (hooks.hook c)) st [c] st.trail := by
  have hreplay : replay hooks [c] =
      (call hooks c.node (hooks.hook c) >>= fun _ => Pure.pure ()) := rfl
  have hst := exec_call_state hooks c.node (hooks.hook c) st
  have hprogram := hlook (hookAt_hook hooks c) st.scene
  refine ⟨?_, ?_, ?_, fun _ => ?_⟩
  · rw [hreplay, exec_bind]
    match exec (call hooks c.node (hooks.hook c)) st with
    | (.ok (), _) => rfl
    | (.error e, _) => rfl
  · rw [hreplay, exec_bind]
    match exec (call hooks c.node (hooks.hook c)) st with
    | (.ok (), _) => rfl
    | (.error e, _) => rfl
  · rw [hst, hprogram]
  · rw [hst]

/-- To leave a node is the same as no call. -/
theorem plays_leave (n : NodeId) (st : WalkState σ) :
    Plays hooks (leave n) st [] (st.trail.leave n) :=
  ⟨rfl, rfl, rfl, fun _ => rfl⟩

/-! ## Trees that a walk is about -/

/-- Trees stand in the program, and the walk has not been there. -/
structure Lies (p : Program) (ts : List Tree) (st : WalkState σ) : Prop where
  program : st.scene.program = p
  bears : p.Bears ts
  nodup : (nodesOf ts).Nodup
  unseen : ∀ n ∈ nodesOf ts, st.trail.seen.contains n = false

variable {p : Program} {ts us : List Tree} {st₁ : WalkState σ}

/-- The first of two rows of trees lies before the walk if both do. -/
theorem Lies.left (h : Lies p (ts ++ us) st) : Lies p ts st where
  program := h.program
  bears := (Program.bears_append.mp h.bears).1
  nodup := (nodup_append.mp h.nodup).1
  unseen n hn := h.unseen n (by rw [nodesOf_append]; exact List.mem_append_left _ hn)

/-- The second of two rows lies before a walk that went along the first. -/
theorem Lies.right (h : Lies p (ts ++ us) st) (hprogram : st₁.scene.program = st.scene.program)
    (htrail : st₁.trail = st.trail.along (nodesOf ts)) : Lies p us st₁ where
  program := hprogram.trans h.program
  bears := (Program.bears_append.mp h.bears).2
  nodup := (nodup_append.mp h.nodup).2.1
  unseen n hn := by
    have hunseen := h.unseen n (by rw [nodesOf_append]; exact List.mem_append_right _ hn)
    rw [htrail, Trail.seen_along, hunseen, Bool.or_false, decide_eq_false_iff_not]
    exact fun hts => (nodup_append.mp h.nodup).2.2 n hts hn

/-- Two parts of the trees are walked one after the other. -/
theorem Lies.plays (h : Lies p (ts ++ us) st)
    (hx : Plays hooks x st cs (st.trail.along (nodesOf ts)))
    (hy : ∀ st₁, exec x st = (.ok (), st₁) → st₁.trail.seen.room ≤ st.trail.seen.room →
      Lies p us st₁ → Plays hooks y st₁ ds (st₁.trail.along (nodesOf us))) :
    Plays hooks (x >>= fun _ => y) st (cs ++ ds) (st.trail.along (nodesOf (ts ++ us))) := by
  rw [nodesOf_append, Trail.along_append]
  refine hx.bind fun st₁ hexec htrail hprogram => ?_
  rw [← htrail]
  refine hy st₁ hexec (NodeSet.room_anti fun n hn => ?_) (h.right hprogram htrail)
  rw [htrail, Trail.seen_along, hn, Bool.or_true]

theorem Plays.congr (h : Plays hooks y st cs t₁) (hxy : exec x st = exec y st) :
    Plays hooks x st cs t₁ := by
  refine ⟨?_, ?_, ?_, ?_⟩ <;> rw [hxy]
  exacts [h.result, h.scene, h.program, h.trail]

/-- The program is read. -/
theorem plays_program {f : Program → WalkM σ Unit} (h : Plays hooks (f st.scene.program) st cs t₁) :
    Plays hooks (program >>= f) st cs t₁ :=
  h.congr (exec_bind_ok (exec_program st))

variable {n : NodeId} {l : Label} {es ss : List Tree}

/-- Trees lie before every walk on this trail of the program. -/
theorem Lies.congr (h : Lies p ts st) (hprogram : st₁.scene.program = st.scene.program)
    (htrail : st₁.trail = st.trail) : Lies p ts st₁ :=
  ⟨hprogram.trans h.program, h.bears, h.nodup, htrail ▸ h.unseen⟩

private theorem nodesOf_root (n : NodeId) (l : Label) (es ss us : List Tree) :
    nodesOf [.node n l es ss us] = n :: nodesOf (es ++ ss ++ us) := by
  simp [nodesOf_append]

/-- The root of a tree is entered; what it owns comes next. -/
theorem Lies.enters (h : Lies p [.node n l es ss us] st)
    (hx : ∀ st₁ : WalkState σ, st₁.trail =
      ⟨n :: st.trail.path, st.trail.seen.insert n, st.trail.tally.count n.step⟩ →
      Lies p (es ++ ss ++ us) st₁ → Plays hooks x st₁ ds t₂) :
    Plays hooks (do enter hooks n; x) st ds t₂ := by
  have hnodup := nodup_node.mp h.nodup
  have henter : Plays hooks (enter hooks n) st []
      ⟨n :: st.trail.path, st.trail.seen.insert n, st.trail.tally.count n.step⟩ := by
    have hexec := exec_enter_ok (h := hooks) (h.program ▸ h.bears.has (by simp))
      (h.unseen n (by simp))
    refine ⟨?_, ?_, ?_, fun _ => ?_⟩ <;> rw [hexec] <;> rfl
  refine henter.bind fun st₁ _ htrail hprogram => ?_
  refine hx st₁ htrail ⟨hprogram.trans h.program, h.bears.below, hnodup.2, fun m hm => ?_⟩
  have hne : m ≠ n := fun he => hnodup.1 (he ▸ hm)
  have hunseen := h.unseen m (by rw [nodesOf_root]; exact List.mem_cons_of_mem _ hm)
  simp [htrail, hne, hunseen]

/-- Its first hook is called before that. -/
theorem Lies.opens (h : Lies p [.node n l es ss us] st) (hlook : Looks hooks) {c : Call}
    (hc : c.node = n)
    (hx : ∀ st₁ : WalkState σ, st₁.trail =
      ⟨n :: st.trail.path, st.trail.seen.insert n, st.trail.tally.count n.step⟩ →
      Lies p (es ++ ss ++ us) st₁ → Plays hooks x st₁ ds t₂) :
    Plays hooks (do enter hooks n; call hooks n (hooks.hook c); x) st (c :: ds) t₂ := by
  subst hc
  refine h.enters fun st₀ htrail₀ h₀ =>
    (plays_call hlook c st₀).bind fun st₁ _ htrail hprogram => ?_
  exact hx st₁ (htrail.trans htrail₀) (h₀.congr hprogram htrail)

/-- After what it owns, the root is left. -/
theorem Plays.leaves (hx : Plays hooks x st₁ ds (st₁.trail.along (nodesOf (es ++ ss ++ us))))
    (htrail : st₁.trail =
      ⟨n :: st.trail.path, st.trail.seen.insert n, st.trail.tally.count n.step⟩) (l : Label) :
    Plays hooks (do x; leave n) st₁ ds (st.trail.along (nodesOf [.node n l es ss us])) := by
  rw [nodesOf_root, ← Trail.leave_along, ← htrail, ← List.append_nil ds]
  refine hx.bind fun st₂ _ htrail₂ _ => ?_
  rw [← htrail₂]
  exact plays_leave n st₂

/-- Its last hook is called before that. -/
theorem Plays.closes (hlook : Looks hooks) {c : Call} (hc : c.node = n) (hx : Plays hooks x st₁ ds
    (st₁.trail.along (nodesOf (es ++ ss ++ us)))) (htrail : st₁.trail =
      ⟨n :: st.trail.path, st.trail.seen.insert n, st.trail.tally.count n.step⟩) (l : Label) :
    Plays hooks (do x; call hooks n (hooks.hook c); leave n) st₁ (ds ++ [c])
      (st.trail.along (nodesOf [.node n l es ss us])) := by
  subst hc
  rw [← bind_assoc]
  refine Plays.leaves (hx.bind fun st₂ _ htrail₂ _ => ?_) htrail l
  rw [← htrail₂]
  exact plays_call hlook c st₂

/-- The tasks that come up on the way are the same as the calls at their trees. -/
def Follows (hooks : Hooks σ) (p : Program) (rest : Task → WalkM σ Unit) (room : Nat) : Prop :=
  ∀ (task : Task) (ts : List Tree) (cs : List Call) (st : WalkState σ), st.trail.seen.room ≤ room →
    Lies p ts st → p.Tells task ts cs → Plays hooks (rest task) st cs (st.trail.along (nodesOf ts))

variable {rest : Task → WalkM σ Unit} {room : Nat} {s : StmtId}

/-- Statements in places, each with its tree. -/
theorem Follows.places (hrest : Follows hooks p rest room) :
    ∀ (xs : List (StmtPlace × List Tree)) (st : WalkState σ), st.trail.seen.room ≤ room →
      Lies p (xs.flatMap Prod.snd) st →
      (∀ x ∈ xs, x.2.map Tree.id = (p.stmtAt? x.1).toList.map .stmt) →
      Plays hooks ((xs.map Prod.fst).forM fun place => rest (.stmt place)) st
        (xs.flatMap fun x => callsFrom (fun _ => .stmt x.1) 0 x.2)
        (st.trail.along (nodesOf (xs.flatMap Prod.snd)))
  | [], st, _, _, _ => .pure st
  | (place, ts) :: xs, st, hroom, h, hat => by
    have hfirst := hrest (.stmt place) ts _ st hroom h.left
      ⟨hat (place, ts) List.mem_cons_self, rfl⟩
    exact h.plays hfirst fun st₁ _ hroom₁ h₁ => hrest.places xs st₁ (Nat.le_trans hroom₁ hroom) h₁
      fun x hx => hat x (List.mem_cons_of_mem _ hx)

/-- The branches of a statement are the trees below it. -/
theorem flatMap_branches {head : StmtHead} (hb : head.branches ≠ []) {ts : List Tree}
    (hlen : ts.length ≤ head.branches.length) :
    (head.branches.flatMap fun which => (ts[which.index]?).toList) = ts := by
  cases head <;> simp only [StmtHead.branches, ne_eq, not_true_eq_false] at hb hlen ⊢ <;>
    rcases ts with _ | ⟨t, _ | ⟨u, _ | ⟨v, ts⟩⟩⟩ <;> simp_all [Branch.index]

/-- The calls at branches are those at the places of the branches. -/
theorem calls_branches {head : StmtHead} (hb : head.branches ≠ []) {ts : List Tree}
    (hlen : ts.length ≤ head.branches.length) (line : UInt32) :
    (head.branches.flatMap fun which =>
      callsFrom (fun _ => .stmt (.branch s which)) 0 (ts[which.index]?).toList) =
      callsFrom (fun i => .stmt ((NodeId.stmt s).stmtPlace (.stmt head line) i)) 0 ts := by
  cases head <;> simp only [StmtHead.branches, ne_eq, not_true_eq_false] at hb hlen ⊢ <;>
    rcases ts with _ | ⟨t, _ | ⟨u, _ | ⟨v, ts⟩⟩⟩ <;>
    simp_all [Branch.index, callsFrom, NodeId.stmtPlace]

/-- The statements that a statement holds. -/
theorem Follows.children (hrest : Follows hooks p rest room) (hroom : st.trail.seen.room ≤ room)
    (h : Lies p us st) (hc : p.cell? (.stmt s) = some (Tree.node (.stmt s) l es ss us).cell) :
    Plays hooks (throughChildren rest s) st
      (callsFrom (fun i => .stmt ((NodeId.stmt s).stmtPlace l i)) 0 us)
      (st.trail.along (nodesOf us)) := by
  obtain ⟨head, line, hlabel⟩ := Program.exists_stmt_label hc
  obtain rfl : l = .stmt head line := hlabel
  rw [throughChildren]
  refine plays_program ?_
  rw [h.program, Program.children_of_cell? hc rfl]
  by_cases hblock : head = .block
  · subst hblock
    exact hrest (.stmts (.block s)) us _ st hroom h
      ⟨Program.stmts_of_cell? (.block s) hc trivial, rfl⟩
  rw [if_neg hblock]
  by_cases hb : head.branches = []
  · have hheld := Program.held_of_cell? hc
    rw [Program.heldStmts, Program.children_of_cell? hc rfl, if_neg hblock, if_pos hb] at hheld
    obtain rfl : us = [] := by simpa using hheld
    rw [if_pos hb]
    exact .pure st
  · have hlen : us.length ≤ head.branches.length := by
      simpa using Program.length_branches hc rfl hb
    -- each branch with the tree in it, if any
    have hplaces := hrest.places
      (head.branches.map fun which => (.branch s which, (us[which.index]?).toList)) st hroom
    rw [if_neg hb]
    simp only [List.flatMap_map, flatMap_branches hb hlen, calls_branches hb hlen line,
      List.map_map] at hplaces
    refine hplaces h ?_
    rintro _ hx
    obtain ⟨which, hwhich, rfl⟩ := List.mem_map.mp hx
    have hbranch := Program.branch_of_cell? hc rfl hwhich
    rw [cell_node, List.getElem?_map] at hbranch
    rw [← Option.toList_map, ← Option.toList_map, hbranch]

/-- The symbol that a statement declares. -/
theorem Follows.declared (hrest : Follows hooks p rest room) (hroom : st.trail.seen.room ≤ room)
    (h : Lies p ss st) (hc : p.cell? (.stmt s) = some (Tree.node (.stmt s) l es ss us).cell) :
    Plays hooks (throughDeclared rest s) st (callsFrom (NodeId.stmt s).symbolPosition 0 ss)
      (st.trail.along (nodesOf ss)) := by
  have hss := Program.declared_of_cell? hc
  rw [throughDeclared]
  refine plays_program ?_
  rw [h.program]
  cases hd : p.declared? s with
  | none =>
    obtain rfl : ss = [] := by simpa [hd] using hss
    exact .pure st
  | some y =>
    rw [hd] at hss
    refine hrest (.symbol y) ss _ st hroom h ⟨hss, .declared s, ?_⟩
    rfl

/-- What a statement owns. -/
theorem Follows.inside (hrest : Follows hooks p rest room) (hroom : st.trail.seen.room ≤ room)
    (h : Lies p (es ++ ss ++ us) st)
    (hc : p.cell? (.stmt s) = some (Tree.node (.stmt s) l es ss us).cell) :
    Plays hooks (Walk.inside rest s) st
      (callsFrom (fun i => .expr ((NodeId.stmt s).exprPlace i)) 0 es ++
      callsFrom (NodeId.stmt s).symbolPosition 0 ss ++
        callsFrom (fun i => .stmt ((NodeId.stmt s).stmtPlace l i)) 0 us)
      (st.trail.along (nodesOf (es ++ ss ++ us))) := by
  rw [List.append_assoc, List.append_assoc] at *
  have hoperands := hrest (.operandsFrom (.stmt s) 0) es _ st hroom h.left
    ⟨Program.exprs_of_cell? (.stmt s) hc, rfl⟩
  refine h.plays hoperands fun st₁ _ hroom₁ h₁ => ?_
  have hroom₁ := Nat.le_trans hroom₁ hroom
  exact h₁.plays (hrest.declared hroom₁ h₁.left hc) fun st₂ _ hroom₂ h₂ =>
    hrest.children (Nat.le_trans hroom₂ hroom₁) h₂ hc

/-- From a state before which trees lie, a task is the same as the hook calls at the trees. -/
def Played (hooks : Hooks σ) (p : Program) (task : Task) (st : WalkState σ) : Prop :=
  ∀ ts cs, Lies p ts st → p.Tells task ts cs →
    Plays hooks (run hooks task) st cs (st.trail.along (nodesOf ts))

/-- Once a node was entered, what comes up is less deep. -/
theorem follows_of_below {task : Task} (ih : Below (Played hooks p) task st)
    (hlt : room < st.trail.seen.room) : Follows hooks p (run hooks) room :=
  fun _ ts cs _ hle => ih.later (Nat.lt_of_le_of_lt hle hlt) ts cs

/-- Entering the root of a tree takes up room. -/
theorem Lies.room_lt (h : Lies p [.node n l es ss us] st) (htrail : st₁.trail =
    ⟨n :: st.trail.path, st.trail.seen.insert n, st.trail.tally.count n.step⟩) :
    st₁.trail.seen.room < st.trail.seen.room := by
  rw [htrail]
  exact NodeSet.room_insert_lt (h.unseen n (by simp))

/-- A module is the same as the calls at what it lists. -/
theorem played_module {m : ModuleId} (ih : Below (Played hooks p) (.module m) st) :
    Played hooks p (.module m) st := by
  rintro ts _ h ⟨hroots, rfl⟩
  obtain ⟨l, ss, rfl, hc⟩ := h.bears.module_root hroots
  have hcalls : callsOf [.node (.module m) l [] ss []] =
      callsFrom (.symbol (.module m)) 0 ss := List.append_nil _
  rw [hcalls, run_eq, visit]
  refine h.enters fun st₁ htrail h₁ => ?_
  rw [List.nil_append, List.append_nil] at h₁
  have hlist := ih.later (t := .symbols (.module m)) (h.room_lt htrail) ss _ h₁
    ⟨Program.symbols_of_cell? (.module m) hc, rfl⟩
  exact Plays.leaves (by simpa using hlist) htrail l

/-- A symbol is the same as its two calls with those below in between. -/
theorem played_symbol (hlook : Looks hooks) {s : SymbolId}
    (ih : Below (Played hooks p) (.symbol s) st) : Played hooks p (.symbol s) st := by
  rintro ts _ h ⟨hroots, pos, rfl⟩
  obtain ⟨l, ss, us, rfl, hc, hfits⟩ := h.bears.symbol_root hroots
  rw [callsFrom_singleton, calls, List.append_assoc, run_eq]
  refine h.opens hlook (c := .preSymbol s) rfl fun st₁ htrail h₁ => ?_
  have hfollows := follows_of_below ih (h.room_lt htrail)
  have hlists : Plays hooks (do run hooks (.symbols (.symbol s)); run hooks (.stmts (.body s)))
      st₁ (callsFrom (NodeId.symbol s).symbolPosition 0 ss ++
        callsFrom (fun i => .stmt ((NodeId.symbol s).stmtPlace l i)) 0 us)
      (st₁.trail.along (nodesOf ([] ++ ss ++ us))) := by
    rw [List.nil_append] at h₁ ⊢
    refine h₁.plays (hfollows (.symbols (.symbol s)) ss _ st₁ (Nat.le_refl _) h₁.left
      ⟨Program.symbols_of_cell? (.symbol s) hc, rfl⟩) fun st₂ _ hroom₂ h₂ => ?_
    exact hfollows (.stmts (.body s)) us _ st₂ hroom₂ h₂
      ⟨Program.stmts_of_cell? (.body s) hc hfits, rfl⟩
  have hcloses := hlists.closes hlook (c := .postSymbol s) rfl htrail l
  simpa [callsFrom, NodeId.closing, Hooks.hook, Call.node] using hcloses

/-- A statement is the same as its two calls with those below in between. -/
theorem played_stmt (hlook : Looks hooks) {place : StmtPlace}
    (ih : Below (Played hooks p) (.stmt place) st) : Played hooks p (.stmt place) st := by
  rintro ts _ h ⟨hroots, rfl⟩
  rw [run_eq, visit_stmt]
  refine plays_program ?_
  rw [h.program]
  cases hs : p.stmtAt? place with
  | none =>
    obtain rfl : ts = [] := by simpa [hs] using hroots
    exact .pure st
  | some s =>
    rw [hs] at hroots
    obtain ⟨l, es, ss, us, rfl, hc⟩ := h.bears.root hroots
    rw [callsFrom_singleton, calls, List.append_assoc]
    refine h.opens hlook (c := .preStmt s place) rfl fun st₁ htrail h₁ => ?_
    exact ((follows_of_below ih (h.room_lt htrail)).inside (Nat.le_refl _) h₁ hc).closes
      hlook (c := .postStmt s) rfl htrail l

/-- An expression is the same as its two calls with those below in between. -/
theorem played_expr (hlook : Looks hooks) {place : ExprPlace}
    (ih : Below (Played hooks p) (.expr place) st) : Played hooks p (.expr place) st := by
  rintro ts _ h ⟨hroots, rfl⟩
  rw [run_eq, visit]
  refine plays_program ?_
  rw [h.program]
  cases he : p.exprAt? place with
  | none =>
    obtain rfl : ts = [] := by simpa [he] using hroots
    exact .pure st
  | some e =>
    rw [he] at hroots
    obtain ⟨l, es, rfl, hc⟩ := h.bears.expr_root hroots
    rw [callsFrom_singleton, calls, List.append_assoc]
    refine h.opens hlook (c := .preExpr e place) rfl fun st₁ htrail h₁ => plays_program ?_
    rw [h₁.program, he]
    simp only [if_true]
    rw [List.append_nil, List.append_nil] at h₁
    have hoperands := ih.later (t := .operandsFrom (.expr e) 0) (h.room_lt htrail) es _ h₁
      ⟨Program.exprs_of_cell? (.expr e) hc, rfl⟩
    have hbelow : nodesOf es = nodesOf (es ++ [] ++ []) := by simp
    rw [hbelow] at hoperands
    have hcloses := hoperands.closes hlook (c := .postExpr e) rfl htrail l
    simpa [callsFrom, NodeId.closing, Hooks.hook, Call.node, NodeId.exprPlace] using hcloses

theorem played_symbols {list : SymbolList} (ih : Below (Played hooks p) (.symbols list) st) :
    Played hooks p (.symbols list) st := by
  rintro ts _ h ⟨hroots, rfl⟩
  have hnodup : (p.symbolsIn list).Nodup := by
    have hnodup := nodup_roots h.nodup
    rw [hroots] at hnodup
    exact List.Nodup.of_map _ hnodup
  refine Plays.congr ?_ (exec_symbols (h.program ▸ hnodup))
  exact ih.lighter (t := .symbolsFrom list .start) (by simp [Task.weight]) ts _ h
    ⟨[], _, rfl, Cursor.splits_start _, hroots, rfl⟩

/-- Symbols are the same as the calls at those that the cursor has left. -/
theorem played_symbolsFrom {list : SymbolList} {cursor : Cursor SymbolId}
    (ih : Below (Played hooks p) (.symbolsFrom list cursor) st) :
    Played hooks p (.symbolsFrom list cursor) st := by
  rintro ts _ h ⟨done, todo, hlist, hsplits, hroots, rfl⟩
  have hnodup := nodup_roots h.nodup
  rw [hroots] at hnodup
  replace hnodup := List.Nodup.of_map _ hnodup
  cases todo with
  | nil =>
    obtain rfl : ts = [] := by simpa using hroots
    exact (Plays.pure st).congr (exec_symbolsFrom_nil (h.program ▸ hlist) hsplits)
  | cons s rest =>
    obtain ⟨t, us, rfl, hid, hus⟩ := List.map_eq_cons_iff.mp hroots
    have hs : s ∉ rest := (List.nodup_cons.mp hnodup).1
    refine Plays.congr ?_ (exec_symbolsFrom_cons (h.program ▸ hlist) hsplits.next)
    rw [← List.singleton_append] at h
    have hfirst := ih.lighter (t := .symbol s) (by simp [Task.weight]) [t] _ h.left
      ⟨by simp [hid], .symbol list done.length, rfl⟩
    rw [callsFrom, ← callsFrom_singleton (fun _ => .symbol list done.length) 0]
    exact h.plays hfirst fun st₁ hexec _ h₁ => ih.later (t := .symbolsFrom list _)
      (room_lt_of_walk (.symbol s) trivial hexec) us _ h₁
      ⟨done ++ [s], rest, by rw [hlist, List.append_assoc]; rfl, hsplits.keep hs, hus, by simp⟩

theorem played_stmts {list : StmtList} (ih : Below (Played hooks p) (.stmts list) st) :
    Played hooks p (.stmts list) st := by
  rintro ts _ h ⟨hroots, rfl⟩
  have hnodup : (p.stmtsIn list).Nodup := by
    have hnodup := nodup_roots h.nodup
    rw [hroots] at hnodup
    exact List.Nodup.of_map _ hnodup
  refine Plays.congr ?_ (exec_stmts (h.program ▸ hnodup))
  exact ih.lighter (t := .stmtsFrom list .start) (by simp [Task.weight]) ts _ h
    ⟨[], _, rfl, Cursor.splits_start _, hroots, rfl⟩

/-- Statements are the same as the calls at those that the cursor has left. -/
theorem played_stmtsFrom {list : StmtList} {cursor : Cursor StmtId}
    (ih : Below (Played hooks p) (.stmtsFrom list cursor) st) :
    Played hooks p (.stmtsFrom list cursor) st := by
  rintro ts _ h ⟨done, todo, hlist, hsplits, hroots, rfl⟩
  have hnodup := nodup_roots h.nodup
  rw [hroots] at hnodup
  replace hnodup := List.Nodup.of_map _ hnodup
  cases todo with
  | nil =>
    obtain rfl : ts = [] := by simpa using hroots
    exact (Plays.pure st).congr (exec_stmtsFrom_nil (h.program ▸ hlist) hsplits)
  | cons s rest =>
    obtain ⟨t, us, rfl, hid, hus⟩ := List.map_eq_cons_iff.mp hroots
    have hs : s ∉ rest := (List.nodup_cons.mp hnodup).1
    have hat := stmtAt?_of_stmtsIn hlist
    refine Plays.congr ?_ (exec_stmtsFrom_cons (h.program ▸ hlist) hsplits.next)
    have hat' : st.scene.program.stmtAt? (.entry list done.length) = some s := h.program ▸ hat
    rw [← List.singleton_append] at h
    have hfirst := ih.lighter (t := .stmt (.entry list done.length)) (by simp [Task.weight]) [t] _
      h.left ⟨by simp [hid, hat], rfl⟩
    rw [callsFrom, ← callsFrom_singleton (fun _ => .stmt (.entry list done.length)) 0]
    exact h.plays hfirst fun st₁ hexec _ h₁ => ih.later (t := .stmtsFrom list _)
      (room_lt_of_entry hat' hexec) us _ h₁
      ⟨done ++ [s], rest, by rw [hlist, List.append_assoc]; rfl, hsplits.keep hs, hus, by simp⟩

/-- Operands are the same as the calls at those from an index on. -/
theorem played_operandsFrom {owner : ExprOwner} {i : Nat}
    (ih : Below (Played hooks p) (.operandsFrom owner i) st) :
    Played hooks p (.operandsFrom owner i) st := by
  rintro ts _ h ⟨hroots, rfl⟩
  by_cases hi : i < (p.operands owner).length
  · rw [List.drop_eq_getElem_cons hi] at hroots
    obtain ⟨t, us, rfl, hid, hus⟩ := List.map_eq_cons_iff.mp hroots
    have hat : p.exprAt? ⟨owner, i⟩ = some (p.operands owner)[i] := List.getElem?_eq_getElem hi
    refine Plays.congr ?_ (exec_operandsFrom_lt (by rwa [h.program]))
    rw [← List.singleton_append] at h
    have hfirst := ih.lighter (t := .expr ⟨owner, i⟩) (by simp [Task.weight]) [t] _ h.left
      ⟨by simp [hid, hat], rfl⟩
    rw [callsFrom, ← callsFrom_singleton (fun _ => .expr ⟨owner, i⟩) 0]
    exact h.plays hfirst fun st₁ hexec _ h₁ => ih.later (t := .operandsFrom owner (i + 1))
      (room_lt_of_operand (by rw [h.program, hat]) hexec) us _ h₁ ⟨hus, rfl⟩
  · rw [List.drop_eq_nil_of_le (by omega)] at hroots
    obtain rfl : ts = [] := by simpa using hroots
    exact (Plays.pure st).congr (exec_operandsFrom_ge (by rwa [h.program]))

/-- A walk through trees is the same as the hook calls at them. -/
theorem plays_run (hlook : Looks hooks) (task : Task) (st : WalkState σ) :
    Played hooks p task st := by
  induction task, st using task_induction with
  | step task st ih =>
  cases task with
  | module m => exact played_module ih
  | symbol s => exact played_symbol hlook ih
  | stmt place => exact played_stmt hlook ih
  | expr place => exact played_expr hlook ih
  | symbols list => exact played_symbols ih
  | symbolsFrom list cursor => exact played_symbolsFrom ih
  | stmts list => exact played_stmts ih
  | stmtsFrom list cursor => exact played_stmtsFrom ih
  | operandsFrom owner i => exact played_operandsFrom ih

/-- A walk through modules that are trees. -/
theorem plays_modules (hlook : Looks hooks) :
    ∀ {modules : List ModuleId} {ts : List Tree} {st : WalkState σ},
      ts.map Tree.id = modules.map .module → Lies p ts st →
      Plays hooks (modules.forM fun m => run hooks (.module m)) st (callsOf ts)
        (st.trail.along (nodesOf ts))
  | [], ts, st, hroots, _ => by
    obtain rfl : ts = [] := by simpa using hroots
    exact .pure st
  | m :: modules, ts, st, hroots, h => by
    obtain ⟨t, ts, rfl, hid, htail⟩ := List.map_eq_cons_iff.mp hroots
    have hcalls : callsOf (t :: ts) = callsOf [t] ++ callsOf ts := by simp [callsOf]
    rw [← List.singleton_append] at h
    rw [hcalls, ← List.singleton_append]
    exact h.plays (plays_run hlook (.module m) st [t] _ h.left ⟨by simp [hid], rfl⟩)
      fun st₁ _ _ h₁ => plays_modules hlook htail h₁

end

/-! ## The calls that are written down -/

/-- Up to the first that refuses, the calls are written down. -/
theorem exec_replay_logged (h : Hooks σ) : ∀ (cs : List Call) (st : WalkState (σ × List (Event σ))),
    ∃ es, (exec (replay h.logged cs) st).2.scene.own.2 = st.scene.own.2 ++ es ∧
      es.map Event.call <+: cs ∧
      ((exec (replay h.logged cs) st).1 = .ok () → es.map Event.call = cs)
  | [], st => ⟨[], (List.append_nil _).symm, List.prefix_rfl, fun _ => rfl⟩
  | c :: cs, st => by
    have hbind : replay h.logged (c :: cs) =
        (call h.logged c.node (h.logged.hook c) >>= fun _ => replay h.logged cs) := rfl
    obtain ⟨e, rfl, _, _, hlog, _⟩ := exec_call_logged h c st
    rw [hbind, exec_bind]
    match hx : exec (call h.logged e.call.node (h.logged.hook e.call)) st with
    | (.error _, st₁) =>
      rw [hx] at hlog
      exact ⟨[e], hlog, by simp, nofun⟩
    | (.ok (), st₁) =>
      rw [hx] at hlog
      obtain ⟨es, hlogs, hprefix, hall⟩ := exec_replay_logged h cs st₁
      refine ⟨e :: es, ?_, List.cons_prefix_cons.mpr ⟨rfl, hprefix⟩, fun hok => ?_⟩
      · rw [hlogs, hlog, List.append_assoc, List.singleton_append]
      · exact congrArg (e.call :: ·) (hall hok)

end Walk

/-! ## The whole walk -/

/-- The number of nodes entered in a part of a walk. -/
def Tally.number (t : Tally) : Step → Nat
  | .module => t.modules
  | .symbol => t.symbols
  | .stmt => t.stmts
  | .expr => t.exprs

theorem Tally.number_count (t : Tally) (step step' : Step) :
    (t.count step).number step' = t.number step' + if step = step' then 1 else 0 := by
  cases step <;> cases step' <;> simp [count, number]

theorem Trail.number_along (t : Trail) (ns : List NodeId) (step : Step) :
    (t.along ns).tally.number step = t.tally.number step + ns.countP (·.step = step) := by
  induction ns generalizing t with
  | nil => rfl
  | cons n ns ih =>
    rw [← List.singleton_append, along_append, ih]
    simp only [along, List.foldl_cons, List.foldl_nil, Tally.number_count, List.singleton_append,
      List.countP_cons, decide_eq_true_eq]
    omega

namespace Walk

/-- What becomes of modules that are walked in order on a new trail. -/
def walked {σ : Type} (h : Hooks σ) (modules : List ModuleId) (p : Program) (own : σ) :
    Except Halt Unit × WalkState σ :=
  exec (modules.forM fun m => run h (.module m)) ⟨.start, ⟨p, own⟩⟩

/-- Modules that are surveyed without a defect are trees, and a walk over them whose hooks leave the
program as it is calls the hooks in the order of the trees.  This says so in three ways: the walk
does what the calls do one after another; what is written down of it is a beginning of these calls,
and all of them if it ends well; and each node that is reached is met once, before and after what it
owns. -/
theorem walk_calls {p : Program} {modules : List ModuleId} (h : survey modules p = .ok ()) :
    ∃ ts, p.Unfolds modules ts ∧ p.MeetsEach modules (callsOf ts) ∧
      ∀ (σ : Type) (hooks : Hooks σ) (own : σ), Looks hooks →
        let plain := walked hooks modules p own
        let logged := walked hooks.logged modules p (own, [])
        let played := exec (replay hooks (callsOf ts)) ⟨.start, ⟨p, own⟩⟩
        plain.1 = played.1 ∧ plain.2.scene = played.2.scene ∧
        plain = (logged.1, logged.2.unlogged) ∧
        logged.2.scene.own.2.map Event.call <+: callsOf ts ∧
        (plain.1 = .ok () → logged.2.scene.own.2.map Event.call = callsOf ts ∧
          ∀ step, plain.2.trail.tally.number step =
            {n | p.Reaches modules n ∧ n.step = step}.ncard) := by
  obtain ⟨ts, hts⟩ := trees_of_survey h
  refine ⟨ts, hts, Program.meetsEach_of_unfolds hts, fun σ hooks own hlook => ?_⟩
  have hlies : ∀ {τ : Type} (own : τ), Lies p ts (⟨.start, ⟨p, own⟩⟩ : WalkState τ) := fun own =>
    ⟨rfl, hts.bears, hts.nodup, fun n _ => by simp [Trail.start]⟩
  have hplain : Plays hooks _ _ _ _ := plays_modules hlook hts.roots (hlies own)
  have hlogged : Plays hooks.logged _ _ _ _ :=
    plays_modules hlook.logged hts.roots (hlies (own, []))
  have hmirror : walked hooks modules p own = ((walked hooks.logged modules p (own, [])).1,
      (walked hooks.logged modules p (own, [])).2.unlogged) :=
    mirrors_forM (fun m : ModuleId => mirrors_walk hooks depthLimit (.module m)) modules
      ⟨.start, ⟨p, own, []⟩⟩
  obtain ⟨es, hes, hprefix, hall⟩ :=
    exec_replay_logged hooks (callsOf ts) ⟨.start, ⟨p, own, []⟩⟩
  have hlog : (walked hooks.logged modules p (own, [])).2.scene.own.2 = es :=
    (congrArg (·.own.2) hlogged.scene).trans hes
  refine ⟨hplain.result, hplain.scene, hmirror, hlog ▸ hprefix, fun hok => ⟨?_, fun step => ?_⟩⟩
  · rw [hlog]
    exact hall (hlogged.result.symm.trans ((congrArg Prod.fst hmirror).symm.trans hok))
  · rw [Program.ncard_reaches hts]
    have htally := Trail.number_along .start (nodesOf ts) step
    have hzero : Trail.start.tally.number step = 0 := by cases step <;> rfl
    rw [← hplain.trail hok, hzero, Nat.zero_add] at htally
    exact htally

/-- A function that declares a variable and, if it is set, returns. -/
def declaration : Program where
  modules := #[⟨"m", "m.w", none, [⟨0⟩]⟩]
  symbols := #[.new "f" (.func [] none [⟨0⟩, ⟨1⟩]) 1, .new "v" (.var none) 2]
  stmts := #[.new (.decl ⟨1⟩ (some ⟨0⟩)) 2, .new (.ifElse ⟨1⟩ ⟨2⟩ none) 3, .new (.ret none) 4]
  exprs := #[.new (.int 1) 2, .new (.symRef ⟨1⟩) 3]

theorem walk_calls_declaration : survey [⟨0⟩] declaration = .ok () ∧
    ∃ ts, declaration.Unfolds [⟨0⟩] ts ∧ declaration.MeetsEach [⟨0⟩] (callsOf ts) ∧
      (walked silent.toHooks.logged [⟨0⟩] declaration ((), [])).2.scene.own.2.map Event.call =
        callsOf ts := by
  have hok : survey [⟨0⟩] declaration = .ok () := by decide +kernel
  obtain ⟨ts, hts, hmeets, hcalls⟩ := walk_calls hok
  obtain ⟨_, _, _, _, hall⟩ := hcalls Unit silent.toHooks () (looks_toHooks silent)
  exact ⟨hok, ts, hts, hmeets, (hall hok).1⟩

example : (walked silent.toHooks.logged [⟨0⟩] declaration ((), [])).2.scene.own.2.map Event.call =
    [.preSymbol ⟨0⟩,
      .preStmt ⟨0⟩ (.entry (.body ⟨0⟩) 0),
        .preExpr ⟨0⟩ ⟨.stmt ⟨0⟩, 0⟩, .postExpr ⟨0⟩, .preSymbol ⟨1⟩, .postSymbol ⟨1⟩,
      .postStmt ⟨0⟩,
      .preStmt ⟨1⟩ (.entry (.body ⟨0⟩) 1),
        .preExpr ⟨1⟩ ⟨.stmt ⟨1⟩, 0⟩, .postExpr ⟨1⟩,
        .preStmt ⟨2⟩ (.branch ⟨1⟩ .thenBranch), .postStmt ⟨2⟩,
      .postStmt ⟨1⟩,
    .postSymbol ⟨0⟩] := by
  decide +kernel

end Walk

end MiddleEnd
