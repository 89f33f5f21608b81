import MiddleEnd.Proofs.Normalize.Taken

/-!
# MiddleEnd.Proofs.Normalize.Underway

A run on its way.  What it still has to do depends on the program it started on and on the state it
will end in.  Two things could go unnoticed.  A parenthesis may be flattened whose expression was
visited already, and then the place that held it is not visited again.  An id without a node may get
one in the course of the run, where the walk does not look at it twice.  Neither happens if the
program is `Unambiguous`; nor if the run leaves a forest, for in either case something would be left
with two owners (`Sure`).
-/

namespace MiddleEnd

open Walk

namespace Normalize

variable {p q : Program} {modules : List ModuleId} {seen : NodeSet} {z : WalkState Normalizer}

/-- What a run over `p` that leaves `q` would overlook does not occur. -/
structure Unambiguous (r : Rules) (modules : List ModuleId) (p q : Program) : Prop where
  /-- What is to be taken out of a parenthesis is held nowhere else. -/
  alone : r.flattenParens = true → ∀ {e inner pos}, p.Encloses e inner →
    p.Reaches modules (.expr e) → p.Reaches modules pos.owner →
    p.heldAt? pos = some (.expr inner) → pos.owner = .expr e
  /-- Nothing gets its node in the run that is to be taken out of a parenthesis. -/
  enclosed : r.flattenParens = true → ∀ {e inner}, p.Encloses e inner →
    p.Reaches modules (.expr e) → q.has (.expr inner) = true → p.has (.expr inner) = true
  /-- Nothing gets its node in the run that stands where statements do. -/
  placed : ∀ {place s}, p.Reaches modules place.holder → p.stmtAt? place = some s →
    q.has (.stmt s) = true → p.has (.stmt s) = true

/-- Nothing goes unnoticed in a run over `p` that ends in `z`. -/
inductive Sure (modules : List ModuleId) (p : Program) (z : WalkState Normalizer) : Prop where
  | unambiguous (h : Unambiguous z.scene.own.rules modules p z.scene.program)
  | forest {ts : List Tree} (hts : z.scene.program.Unfolds modules ts) (h : Standing modules z)

/-- What a parenthesis encloses that was not entered was not entered either. -/
theorem Follows.unseen_of_encloses {r : Rules} (h : Follows p modules seen q)
    (hz : Unambiguous r modules p z.scene.program) (hr : r.flattenParens = true) {e inner : ExprId}
    (henclose : q.Encloses e inner) (he : seen.contains (.expr e) = false)
    (hmet : p.has (.expr e) = true → p.Reaches modules (.expr e))
    (hhas : seen.contains (.expr inner) = true → z.scene.program.has (.expr inner) = true) :
    seen.contains (.expr inner) = false := by
  by_contra hseen
  replace hseen : seen.contains (.expr inner) = true := by simpa using hseen
  cases hold : p.has (.expr e) with
  | true =>
    have hencloses := Program.encloses_congr (h.kept _ hold he) henclose
    have hinner := hz.enclosed hr hencloses (hmet hold) (hhas hseen)
    rcases h.entered _ hseen hinner with ⟨m, _, hm⟩ | ⟨pos, hreach, howner, hheld⟩
    · cases hm
    · rw [hz.alone hr hencloses (hmet hold) hreach hheld, he] at howner
      cases howner
  | false =>
    obtain ⟨c, hc, hparen, _⟩ := henclose.cell
    rw [h.made hold he hc] at hparen
    cases hparen

/-! ## A run on its way -/

/-- A run over `p` got to the state, where the visits of `stack` go on. -/
structure Underway (p : Program) (modules : List ModuleId) (stack : List NodeId)
    (st : WalkState Normalizer) : Prop where
  following : Following p modules st
  visiting : Visiting modules stack st

/-- A run stays on its way, and what the nodes own lasts. -/
theorem underway_scoped (p : Program) (modules : List ModuleId) (st₀ : WalkState Normalizer) :
    Scoped hooks modules (fun stack st => Underway p modules stack st ∧ Lasts st₀ st)
      fun e _ => (∃ d, e = .defect d) ∧ True :=
  ((following p modules).scoped.and (visiting_scoped modules st₀)).congr fun _ _ =>
    ⟨fun ⟨⟨hfollowing, _⟩, hvisiting, hlasts⟩ => ⟨⟨hfollowing, hvisiting⟩, hlasts⟩,
      fun ⟨h, hlasts⟩ => ⟨⟨h.following, h.visiting.seen⟩, h.visiting, hlasts⟩⟩

namespace Underway

variable {st st₁ st₂ : WalkState Normalizer} {stack : List NodeId} {n : NodeId}

theorem sound (h : Underway p modules stack st) : Sound st := h.following.1

theorem follows (h : Underway p modules stack st) (haddr : z.scene.program.Addressable)
    (hz : Larger st.scene z.scene) : Follows p modules st.trail.seen st.scene.program :=
  h.following.2 (hz.addressable haddr)

/-- What the innermost visit is of was entered. -/
theorem top (h : Underway p modules stack st) (htop : stack.head? = some n) :
    st.trail.seen.contains n = true :=
  h.visiting.seen _ (List.mem_of_mem_head? htop)

/-- A task is done. -/
theorem run (h : Underway p modules stack st) {task : Task}
    (htop : task.AtTop modules stack st.scene.program)
    (hexec : exec (Walk.run hooks task) st = (.ok (), st₁)) :
    Underway p modules stack st₁ ∧ Lasts st st₁ :=
  ((underway_scoped p modules st).run task st ⟨h, .refl st⟩ htop).of_ok hexec

/-- A module is entered. -/
theorem enter {m : ModuleId} (h : Underway p modules stack st) (hm : m ∈ modules)
    (hhas : st.scene.program.has (.module m) = true)
    (hunseen : st.trail.seen.contains (.module m) = false) :
    Underway p modules (.module m :: stack) (entering (.module m) st) ∧
      Lasts st (entering (.module m) st) :=
  (underway_scoped p modules st).enter ⟨h, .refl st⟩ hm hhas hunseen

theorem leave {m : ModuleId} (h : Underway p modules (.module m :: stack) st) :
    Underway p modules stack (leaving (.module m) st) ∧ Lasts st (leaving (.module m) st) :=
  (underway_scoped p modules st).leave ⟨h, .refl st⟩

/-- A node is entered, and its first hook is called. -/
theorem opens {c : Call} (h : Underway p modules stack st) (hpre : c.isPre = true)
    (hsited : c.Sited stack st.scene.program) (hhas : st.scene.program.has c.node = true)
    (hunseen : st.trail.seen.contains c.node = false)
    (hexec : exec (call hooks c.node (hooks.hook c)) (entering c.node st) = (.ok (), st₁)) :
    (¬ c.Replaced st₁.scene.program → Underway p modules (c.node :: stack) st₁ ∧ Lasts st st₁) ∧
      (c.Replaced st₁.scene.program →
        Underway p modules stack (leaving c.node st₁) ∧ Lasts st (leaving c.node st₁)) :=
  ((underway_scoped p modules st).opens ⟨h, .refl st⟩ hpre hsited hhas hunseen).of_ok hexec

/-- The last hook of a node is called, and the node is left. -/
theorem closes {c : Call} (h : Underway p modules (c.node :: stack) st) (hpost : c.isPre = false)
    (hexec : exec (call hooks c.node (hooks.hook c)) st = (.ok (), st₁)) :
    Underway p modules stack (leaving c.node st₁) ∧ Lasts st (leaving c.node st₁) :=
  ((underway_scoped p modules st).closes ⟨h, .refl st⟩ hpost).of_ok hexec

/-- What a statement declares is walked. -/
theorem throughDeclared {s : StmtId} (h : Underway p modules (.stmt s :: stack) st)
    (hexec : exec (Walk.throughDeclared (Walk.run hooks) s) st = (.ok (), st₁)) :
    Underway p modules (.stmt s :: stack) st₁ ∧ Lasts st st₁ :=
  (Scoped.throughDeclared (I := fun stack st' => Underway p modules stack st' ∧ Lasts st st')
    (fun task st' _ hst htop => (underway_scoped p modules st).run task st' hst htop)
    ⟨h, .refl st⟩).of_ok hexec

/-- What stands in a statement is walked. -/
theorem throughChildren {s : StmtId} (h : Underway p modules (.stmt s :: stack) st)
    (hexec : exec (Walk.throughChildren (Walk.run hooks) s) st = (.ok (), st₁)) :
    Underway p modules (.stmt s :: stack) st₁ ∧ Lasts st st₁ :=
  (Scoped.throughChildren (I := fun stack st' => Underway p modules stack st' ∧ Lasts st st')
    (grown_local hooks).run (fun task st' _ hst htop =>
      (underway_scoped p modules st).run task st' hst htop) ⟨h, .refl st⟩).of_ok hexec

/-- What a statement owns is walked. -/
theorem inside {s : StmtId} (h : Underway p modules (.stmt s :: stack) st)
    (hexec : exec (Walk.inside (Walk.run hooks) s) st = (.ok (), st₁)) :
    Underway p modules (.stmt s :: stack) st₁ ∧ Lasts st st₁ :=
  (Scoped.inside (I := fun stack st' => Underway p modules stack st' ∧ Lasts st st') hooks
    (grown_local hooks).run (fun task st' _ hst htop =>
      (underway_scoped p modules st).run task st' hst htop) ⟨h, .refl st⟩).of_ok hexec

/-- Branches of a statement are walked. -/
theorem branches {s : StmtId} {whichs : List Branch} (h : Underway p modules (.stmt s :: stack) st)
    (hexec : exec ((whichs.map (StmtPlace.branch s)).forM fun place =>
      Walk.run hooks (.stmt place)) st = (.ok (), st₁)) :
    Underway p modules (.stmt s :: stack) st₁ ∧ Lasts st st₁ :=
  (Scoped.places (I := fun stack st' => Underway p modules stack st' ∧ Lasts st st')
    (grown_local hooks).run (fun task st' _ hst htop =>
      (underway_scoped p modules st).run task st' hst htop) ⟨h, .refl st⟩ fun place hplace => by
    obtain ⟨_, _, rfl⟩ := List.mem_map.mp hplace
    rfl).of_ok hexec

/-- What the walk holds was reached at the start if it was there. -/
theorem reaches {pos : Position} (h : Underway p modules stack st)
    (haddr : z.scene.program.Addressable) (hz : Larger st.scene z.scene)
    (htop : stack.head? = some pos.owner) (hheld : st.scene.program.heldAt? pos = some n)
    (hn : p.has n = true) : p.Reaches modules n :=
  ((h.follows haddr hz).stems_of_held (h.top htop) hheld (.inl hn)).reaches

/-! ## What would go unnoticed -/

/-- What takes the place of a parenthesis was not entered before. -/
theorem unseen_of_encloses {owner : ExprOwner} {i : Nat} {e inner : ExprId} {c : Cell} {b : Backs}
    (h : Underway p modules stack st) (hsure : Sure modules p z)
    (haddr : z.scene.program.Addressable)
    (htop : stack.head? = some (Position.expr ⟨owner, i⟩).owner)
    (hat : st.scene.program.exprAt? ⟨owner, i⟩ = some e)
    (hunseen : st.trail.seen.contains (.expr e) = false)
    (henclose : st.scene.program.Encloses e inner) (hne : inner ≠ e)
    (hr : st.scene.own.rules.flattenParens = true) (hc : st.scene.program.cell? owner.node = some c)
    (hi : c.exprs[i]? = some (.expr e))
    (hput : Program.Put st.scene.program st₁.scene.program owner.node
      { c with exprs := c.exprs.set i (.expr inner) } b)
    (hlasts : Lasts st st₁) (hz : Lasts st₁ z) : st.trail.seen.contains (.expr inner) = false := by
  have hz₀ := hlasts.trans hz
  have hheld : st.scene.program.heldAt? (.expr ⟨owner, i⟩) = some (.expr e) := by
    rw [Program.heldAt?, hat]
    rfl
  cases hsure with
  | unambiguous hamb =>
    exact (h.follows haddr hz₀.larger).unseen_of_encloses hamb (hz₀.larger.rules ▸ hr) henclose
      hunseen (h.reaches haddr hz₀.larger htop hheld) fun hseen =>
      hz₀.larger.has _ (h.sound _ hseen)
  | forest hts hstanding =>
    by_contra hinner
    replace hinner : st.trail.seen.contains (.expr inner) = true := by simpa using hinner
    have haddr₀ := hz₀.larger.addressable haddr
    have hrooted : RootedAt modules st owner.node :=
      (h.visiting.owner haddr₀ (List.mem_of_mem_head? htop) hheld hunseen).1
    have howner : st.trail.seen.contains owner.node = true := h.top htop
    have hreach : z.scene.program.Reaches modules owner.node := (hz₀.rooted haddr hrooted).reaches
    -- the owner holds it once more than before
    have hcount : (st.scene.program.childrenOf owner.node).count (.expr inner) + 1 ≤
        (z.scene.program.childrenOf owner.node).count (.expr inner) := by
      refine Nat.le_trans ?_ (hz.count haddr _ _ (hlasts.grown _ howner) (hlasts.grown _ hinner))
      have hset := List.count_set (a := NodeId.expr inner) (b := NodeId.expr inner)
        (List.getElem?_eq_some_iff.mp hi).1
      rw [(List.getElem?_eq_some_iff.mp hi).2] at hset
      simp only [beq_iff_eq, NodeId.expr.injEq, hne.symm, if_false, if_true] at hset
      rw [Program.childrenOf_of_cell? hc, Program.childrenOf_of_cell? hput.cell_self]
      simp only [Cell.children, List.count_append]
      omega
    have hchild := List.count_pos_iff.mp (Nat.lt_of_lt_of_le (Nat.succ_pos _) hcount)
    have honce := List.nodup_iff_count_le_one.mp (hts.nodup_childrenOf hreach) (.expr inner)
    rcases (h.visiting.standing haddr₀).rooted inner hinner with hroot | hhollow
    · cases hroot with
      | @child k _ hk hmem _ =>
        obtain rfl := (Program.isForest_of_unfolds hts).owner_unique (hz₀.rooted haddr hk).reaches
          hreach (hz₀.mem_childrenOf haddr hk.contains hinner hmem) hchild
        have hbefore : 0 < (st.scene.program.childrenOf owner.node).count (.expr inner) :=
          List.count_pos_iff.mpr hmem
        omega
    · exact hstanding.not_reached hts (hz₀.hollow haddr hhollow) (hreach.child hchild)

/-- A declaration that gets its node in the run, and its place before `s`, was not listed before. -/
theorem unlisted {list : StmtList} {front back : List StmtId} {s decl : StmtId}
    (h : Underway p modules stack st) (h₁ : Underway p modules stack st₁) (hsure : Sure modules p z)
    (haddr : z.scene.program.Addressable) (htop : stack.head? = some list.node)
    (hlist : st.scene.program.stmtsIn list = front ++ s :: back)
    (hlist₁ : st₁.scene.program.stmtsIn list = front ++ decl :: s :: back)
    (hlist₂ : st₂.scene.program.stmtsIn list = front ++ decl :: s :: back)
    (hfresh : st.scene.program.has (.stmt decl) = false)
    (hunseen : st₁.trail.seen.contains (.stmt decl) = false)
    (hseen : st₂.trail.seen.contains (.stmt decl) = true) (hlasts : Lasts st st₁)
    (hlasts₁ : Lasts st₁ st₂) (hz : Lasts st₂ z) (hhas : z.scene.program.has (.stmt decl) = true) :
    decl ∉ front ++ s :: back := by
  intro hmem
  have hz₁ := hlasts₁.trans hz
  cases hsure with
  | unambiguous hamb =>
    have hfollows := h.follows haddr (hlasts.trans hz₁).larger
    obtain ⟨i, hheld⟩ := Program.held_of_mem_stmtsIn (hlist ▸ hmem)
    have howner : st.trail.seen.contains (Position.stmt (.entry list i)).owner = true := h.top htop
    obtain ⟨pos, hreach, _, hold⟩ := hfollows.stems_of_held howner hheld (.inr hfresh)
    obtain ⟨place, rfl, hat⟩ := Program.stmt_of_heldAt? hold
    have hthere := hfollows.has _ (hamb.placed hreach hat hhas)
    rw [hfresh] at hthere
    cases hthere
  | forest hts hstanding =>
    have htop' : stack.head? = some (Position.stmt (.entry list front.length)).owner := htop
    have hrooted : RootedAt modules st₁ list.node := by
      refine (h₁.visiting.owner (hz₁.larger.addressable haddr) (List.mem_of_mem_head? htop') ?_
        hunseen).1
      rw [Program.heldAt?_entry, hlist₁]
      simp
    obtain ⟨c, hc, hfits⟩ := Program.cell?_of_mem_stmtsIn (hlist₂ ▸ List.mem_append_right _
      List.mem_cons_self : decl ∈ st₂.scene.program.stmtsIn list)
    have htwice : 2 ≤ (st₂.scene.program.childrenOf list.node).count (.stmt decl) := by
      have hpos := List.count_pos_iff.mpr (List.mem_map_of_mem (f := NodeId.stmt) hmem)
      rw [Program.childrenOf_of_cell? hc, Cell.children, List.count_append,
        Program.stmts_of_cell? _ hc hfits, hlist₂]
      simp only [List.map_append, List.map_cons, List.count_append, List.count_cons_self,
        List.count_cons] at hpos ⊢
      omega
    have hle := hz.count haddr list.node (.stmt decl) (hlasts₁.grown _ hrooted.contains) hseen
    have honce := List.nodup_iff_count_le_one.mp
      (hts.nodup_childrenOf (hz₁.rooted haddr hrooted).reaches) (.stmt decl)
    omega

end Underway

end Normalize

end MiddleEnd
