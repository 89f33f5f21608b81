import MiddleEnd.Proofs.Tree.Position
import MiddleEnd.Proofs.Walk.Outcome
import MiddleEnd.Proofs.Walk.Survey

/-!
# MiddleEnd.Proofs.Walk.Verdict

The verdict of a walk that only looks.  Over a program of any shape, it ends well exactly if what
is reached from its modules is a forest, and if it halts, what it says is so (`Program.Confirms`).

A walk enters every node from a position that holds it.  The invariant is that each node entered so
far has such a position, that no position is used twice, and that the node which owns the position
in use is below every node on the path (`Sourced`, `Awaits`).  A node that is met again is then
below itself, if it is still on the path, and else held in a second position.
-/

namespace MiddleEnd

open Relation

namespace Program

/-- The defect is one of the program, as seen from modules. -/
def Confirms (p : Program) (modules : List ModuleId) (d : Defect) : Prop :=
  match d.cause with
  | .cycle => p.Reaches modules d.node ∧ TransGen p.Owns d.node d.node
  | .sharedNode => ∃ pos pos', pos ≠ pos' ∧ p.Reaches modules pos.owner ∧
      p.Reaches modules pos'.owner ∧ p.heldAt? pos = some d.node ∧ p.heldAt? pos' = some d.node
  | .missingNode => p.has d.node = false ∧
      ∃ pos, p.Reaches modules pos.owner ∧ p.heldAt? pos = some d.node
  | _ => False

variable {p : Program} {modules : List ModuleId}

/-- In a forest no node is below itself. -/
theorem IsForest.acyclic (h : p.IsForest modules) {n : NodeId} (hn : p.Reaches modules n) :
    ¬ TransGen p.Owns n n := by
  induction hn with
  | root hm =>
    intro hcycle
    obtain ⟨_, _, pos, _, hheld⟩ := TransGen.tail'_iff.mp hcycle
    exact ne_module_of_heldAt? hheld _ rfl
  | @held pos n howner hheld ih =>
    -- whatever holds the node at the end of the circle is what it was reached from
    intro hcycle
    obtain ⟨b, hnb, pos', rfl, hheld'⟩ := TransGen.tail'_iff.mp hcycle
    have hreach := Reaches.owned (.held howner hheld) hnb
    obtain rfl := h.alone howner hreach hheld hheld'
    exact ih (TransGen.head' ⟨pos, rfl, hheld⟩ hnb)

/-- A forest has no defects. -/
theorem IsForest.not_confirms (h : p.IsForest modules) (d : Defect) : ¬ p.Confirms modules d := by
  rw [Confirms]
  split
  · exact fun ⟨hreach, hcycle⟩ => h.acyclic hreach hcycle
  · exact fun ⟨pos, pos', hne, hreach, hreach', hheld, hheld'⟩ =>
      hne (h.alone hreach hreach' hheld hheld')
  · rintro ⟨hmissing, pos, hreach, hheld⟩
    rw [h.exist hreach hheld] at hmissing
    cases hmissing
  · exact id

/-- The positions that a task is about. -/
def Asks (p : Program) : Task → Set Position → Prop
  | .module _, _ => False
  | .symbol s, asked => ∃ pos, asked = {pos} ∧ p.heldAt? pos = some (.symbol s)
  | .stmt place, asked => asked = {.stmt place}
  | .expr place, asked => asked = {.expr place}
  | .symbols list, asked => asked = {pos | ∃ i, pos = .symbol list i}
  | .symbolsFrom list c, asked => ∃ done todo, p.symbolsIn list = done ++ todo ∧
      (done ++ todo).Nodup ∧ c.Splits done todo ∧
        asked = {pos | ∃ i ≥ done.length, pos = .symbol list i}
  | .stmts list, asked => asked = {pos | ∃ i, pos = .stmt (.entry list i)}
  | .stmtsFrom list c, asked => ∃ done todo, p.stmtsIn list = done ++ todo ∧
      (done ++ todo).Nodup ∧ c.Splits done todo ∧
      asked = {pos | ∃ i ≥ done.length, pos = .stmt (.entry list i)}
  | .operandsFrom owner i, asked => asked = {pos | ∃ j ≥ i, pos = .expr ⟨owner, j⟩}

end Program

namespace Walk

variable {σ : Type}

/-- Every hook accepts, whatever it meets. -/
def Accept (h : Hooks σ) : Prop :=
  ∀ {n hook}, HookAt h n hook → ∀ scene, (exec hook scene).1 = .ok ()

/-- Every node that was entered is one of `started`, or was held in a position of `used`, all of
which belong to nodes that were entered. -/
structure Sourced (p : Program) (modules started : List ModuleId) (used : Set Position)
    (st : WalkState σ) : Prop where
  program : st.scene.program = p
  reached : ∀ n, st.trail.seen.contains n = true → p.Reaches modules n
  started : ∀ m, st.trail.seen.contains (.module m) = true → m ∈ started
  source : ∀ n, st.trail.seen.contains n = true → (∀ m, n ≠ .module m) →
    ∃ pos ∈ used, p.heldAt? pos = some n
  owners : ∀ pos ∈ used, st.trail.seen.contains pos.owner = true

/-- A position was not used yet, and belongs to a node right below the path. -/
structure Awaits (p : Program) (used : Set Position) (st : WalkState σ) (pos : Position) : Prop
    where
  fresh : pos ∉ used
  owner : st.trail.seen.contains pos.owner = true
  below : ∀ n ∈ st.trail.path, ReflTransGen p.Owns n pos.owner

/-- From `st` to `st'` a walk went through what the positions `asked` hold. -/
def Leaves (p : Program) (modules started : List ModuleId) (used asked : Set Position)
    (st st' : WalkState σ) : Prop :=
  ∃ used', Sourced p modules started used' st' ∧ st'.trail.path = st.trail.path ∧ Grown st st' ∧
    ∀ pos ∈ used', pos ∈ used ∨ pos ∈ asked ∨ st.trail.seen.contains pos.owner = false

/-- The walk halts with a defect of the program. -/
def Exposes (p : Program) (modules : List ModuleId) (pass : String) (halt : Halt) : Prop :=
  ∃ d, halt = .defect d ∧ d.pass = pass ∧ d.step = d.node.step ∧ p.Confirms modules d

section

variable {p : Program} {modules started : List ModuleId} {used asked : Set Position}
  {st st₁ st₂ : WalkState σ} {pos : Position} {n : NodeId} {o : Observer σ}

/-- Hooks that look and accept leave the trail and the program. -/
theorem Accept.exec_call {hook : HookM σ Unit} (ho : Accept o.toHooks)
    (hh : HookAt o.toHooks n hook) (st : WalkState σ) :
    ∃ st', exec (call o.toHooks n hook) st = (.ok (), st') ∧ st'.trail = st.trail ∧
      st'.scene.program = st.scene.program := by
  match hx : exec hook st.scene with
  | (.ok (), scene) =>
    have hcall : exec (call o.toHooks n hook) st = (.ok (), { st with scene }) := exec_call_ok hx
    exact ⟨_, hcall, exec_call_looking hh hcall⟩
  | (.error e, scene) =>
    have hok := ho hh st.scene
    rw [hx] at hok
    cases hok

/-- A walk may go through nothing. -/
theorem Leaves.refl (h : Sourced p modules started used st) :
    Leaves p modules started used asked st st :=
  ⟨used, h, rfl, fun _ hn => hn, fun _ hpos => .inl hpos⟩

/-- A position still waits after a walk through others. -/
theorem Awaits.after {used' : Set Position} (h : Awaits p used st pos)
    (hpath : st₁.trail.path = st.trail.path) (hgrown : Grown st st₁)
    (hused : ∀ pos ∈ used', pos ∈ used ∨ pos ∈ asked ∨ st.trail.seen.contains pos.owner = false)
    (hpos : pos ∉ asked) : Awaits p used' st₁ pos where
  fresh hmem := by
    rcases hused pos hmem with h' | h' | h'
    · exact h.fresh h'
    · exact hpos h'
    · rw [h.owner] at h'
      cases h'
  owner := hgrown _ h.owner
  below := hpath ▸ h.below

/-- A node is entered from a position that waits, and its first hook is called. -/
structure Opens (p : Program) (modules started : List ModuleId) (used : Set Position)
    (pos : Position) (n : NodeId) (st st₁ : WalkState σ) : Prop where
  sourced : Sourced p modules started (insert pos used) st₁
  awaits : ∀ pos', pos'.owner = n → Awaits p (insert pos used) st₁ pos'
  path : st₁.trail.path = n :: st.trail.path
  unseen : st.trail.seen.contains n = false
  seen : st₁.trail.seen = st.trail.seen.insert n

/-- A node that is opened leaves less room. -/
theorem Opens.room_lt (h : Opens p modules started used pos n st st₁) :
    st₁.trail.seen.room < st.trail.seen.room := by
  rw [h.seen]
  exact NodeSet.room_insert_lt h.unseen

/-- What waits in a position and was not met is opened. -/
theorem opens (h : Sourced p modules started used st) (hpos : Awaits p used st pos)
    (hheld : p.heldAt? pos = some n) (hn : st.trail.seen.contains n = false)
    (hprogram : st₁.scene.program = st.scene.program) (htrail : st₁.trail =
      ⟨n :: st.trail.path, st.trail.seen.insert n, st.trail.tally.count n.step⟩) :
    Opens p modules started used pos n st st₁ where
  sourced := by
    refine ⟨hprogram.trans h.program, ?_, ?_, ?_, ?_⟩ <;> rw [htrail] <;>
      simp only [NodeSet.contains_insert, Bool.or_eq_true, decide_eq_true_iff]
    · rintro m (rfl | hm)
      · exact .held (h.reached _ hpos.owner) hheld
      · exact h.reached m hm
    · rintro m (hm | hm)
      · exact absurd hm.symm (Program.ne_module_of_heldAt? hheld m)
      · exact h.started m hm
    · rintro m (rfl | hm) hmodule
      · exact ⟨pos, Set.mem_insert _ _, hheld⟩
      · obtain ⟨pos', hmem, hheld'⟩ := h.source m hm hmodule
        exact ⟨pos', Set.mem_insert_of_mem _ hmem, hheld'⟩
    · rintro pos' (rfl | hpos')
      · exact .inr hpos.owner
      · exact .inr (h.owners pos' hpos')
  awaits pos' howner := by
    refine ⟨?_, ?_, ?_⟩
    · rintro (rfl | hmem)
      · rw [← howner, hpos.owner] at hn
        cases hn
      · rw [← howner, h.owners pos' hmem] at hn
        cases hn
    · rw [htrail, howner]
      simp
    · rw [htrail, howner]
      rintro m hm
      rcases List.mem_cons.mp hm with rfl | hm
      · exact .refl
      · exact (hpos.below m hm).tail ⟨pos, rfl, hheld⟩
  path := by rw [htrail]
  unseen := hn
  seen := by rw [htrail]

/-- A node is entered from a position that waits, or what keeps it from being entered is so. -/
theorem does_open {pre : HookM σ Unit} {k : WalkM σ Unit} {ok : Unit → WalkState σ → Prop}
    (ho : Accept o.toHooks) (hpre : HookAt o.toHooks n pre)
    (h : Sourced p modules started used st) (hpos : Awaits p used st pos)
    (hheld : p.heldAt? pos = some n)
    (hk : ∀ st₁, Opens p modules started used pos n st st₁ →
      Does k st₁ ok fun e _ => Exposes p modules o.pass e) :
    Does (do enter o.toHooks n; call o.toHooks n pre; k) st ok
      fun e _ => Exposes p modules o.pass e := by
  have hreach := h.reached _ hpos.owner
  refine Does.bind (does_enter (fun _ st' => st' = { st with trail :=
    ⟨n :: st.trail.path, st.trail.seen.insert n, st.trail.tally.count n.step⟩ } ∧
      st.trail.seen.contains n = false) ?_ ?_ ?_ ?_) ?_
  · exact fun _ hn => ⟨rfl, hn⟩
  · exact fun hmissing => ⟨_, rfl, rfl, rfl, h.program ▸ hmissing, pos, hreach, hheld⟩
  · exact fun hseen hpath => ⟨_, rfl, rfl, rfl, h.reached n hseen,
      TransGen.tail' (hpos.below n hpath) ⟨pos, rfl, hheld⟩⟩
  · intro hseen _
    obtain ⟨pos', hused, hheld'⟩ := h.source n hseen (Program.ne_module_of_heldAt? hheld)
    exact ⟨_, rfl, rfl, rfl, pos, pos', fun he => hpos.fresh (he ▸ hused), hreach,
      h.reached _ (h.owners pos' hused), hheld, hheld'⟩
  · rintro _ st₀ ⟨rfl, hn⟩
    obtain ⟨st₁, hcall, htrail, hprogram⟩ := ho.exec_call hpre _
    exact .step hcall (hk st₁ (opens h hpos hheld hn hprogram htrail))

/-- After what a node owns, its last hook is called, and the node is left. -/
theorem Opens.does_close {post : HookM σ Unit} (hopen : Opens p modules started used pos n st st₁)
    (ho : Accept o.toHooks) (hpost : HookAt o.toHooks n post)
    (hleaves : Leaves p modules started (insert pos used) asked st₁ st₂)
    (hasked : ∀ pos' ∈ asked, pos'.owner = n) :
    Does (do call o.toHooks n post; leave n) st₂
      (fun _ => Leaves p modules started used {pos} st) fun e _ => Exposes p modules o.pass e := by
  obtain ⟨used', hsourced, hpath, hgrown, hused⟩ := hleaves
  obtain ⟨st₃, hcall, htrail, hprogram⟩ := ho.exec_call hpost st₂
  refine .step hcall (does_of_ok (exec_leave n st₃) ⟨used', ?_, ?_, ?_, ?_⟩)
  · exact ⟨hprogram.trans hsourced.program, htrail ▸ hsourced.reached, htrail ▸ hsourced.started,
      htrail ▸ hsourced.source, htrail ▸ hsourced.owners⟩
  · simp [Trail.leave, htrail, hpath, hopen.path]
  · intro m hm
    change st₃.trail.seen.contains m = true
    rw [htrail]
    exact hgrown m (by rw [hopen.seen]; simp [hm])
  · intro pos' hpos'
    rcases hused pos' hpos' with (rfl | h) | h | h
    · exact .inr (.inl rfl)
    · exact .inl h
    · exact .inr (.inr (hasked pos' h ▸ hopen.unseen))
    · rw [hopen.seen, NodeSet.contains_insert, Bool.or_eq_false_iff] at h
      exact .inr (.inr h.2)

/-- Two positions of a list hold the same node. -/
theorem exposes_repeat {pos' : Position} (h : Sourced p modules started used st)
    (hpos : Awaits p used st pos) (hpos' : Awaits p used st pos') (hne : pos ≠ pos')
    (hheld : p.heldAt? pos = some n) (hheld' : p.heldAt? pos' = some n) :
    Does (fail o.toHooks n .sharedNode : WalkM σ Unit) st
      (fun _ => Leaves p modules started used asked st) fun e _ => Exposes p modules o.pass e :=
  does_of_error (exec_fail _ _ _ _) ⟨_, rfl, rfl, rfl, pos, pos', hne, h.reached _ hpos.owner,
    h.reached _ hpos'.owner, hheld, hheld'⟩

/-- What a walk went through may be said of more positions. -/
theorem Leaves.mono {asked' : Set Position} (h : Leaves p modules started used asked st st₁)
    (hsub : asked ⊆ asked') : Leaves p modules started used asked' st st₁ := by
  obtain ⟨used', hsourced, hpath, hgrown, hused⟩ := h
  exact ⟨used', hsourced, hpath, hgrown, fun pos hpos =>
    (hused pos hpos).imp_right (·.imp_left (hsub ·))⟩

/-- What two sets of positions hold is gone through one set after the other. -/
theorem does_then {x y : WalkM σ Unit} (asked' : Set Position) {pass : String}
    (hx : Does x st (fun _ => Leaves p modules started used asked st)
      fun e _ => Exposes p modules pass e)
    (hawaits : ∀ pos ∈ asked', Awaits p used st pos) (hapart : ∀ pos ∈ asked', pos ∉ asked)
    (hy : ∀ used' st₁, exec x st = (.ok (), st₁) → Grown st st₁ →
      Sourced p modules started used' st₁ → (∀ pos ∈ asked', Awaits p used' st₁ pos) →
      Does y st₁ (fun _ => Leaves p modules started used' asked' st₁)
        fun e _ => Exposes p modules pass e) :
    Does (x >>= fun _ => y) st (fun _ => Leaves p modules started used (asked ∪ asked') st)
      fun e _ => Exposes p modules pass e := by
  match hexec : exec x st with
  | (.error e, st₁) => exact does_of_error (by rw [exec_bind, hexec]) (hx.of_error hexec)
  | (.ok (), st₁) =>
    have hleaves : Leaves p modules started used asked st st₁ := hx.of_ok hexec
    obtain ⟨used₁, hsourced, hpath, hgrown, hused⟩ := hleaves
    refine .step hexec (Does.mono (hy used₁ st₁ hexec hgrown hsourced fun pos hpos =>
      (hawaits pos hpos).after hpath hgrown hused (hapart pos hpos)) ?_ fun _ _ h => h)
    rintro _ st₂ ⟨used₂, hsourced₂, hpath₂, hgrown₂, hused₂⟩
    refine ⟨used₂, hsourced₂, hpath₂.trans hpath, fun n hn => hgrown₂ n (hgrown n hn), ?_⟩
    intro pos hpos
    rcases hused₂ pos hpos with h | h | h
    · exact (hused pos h).imp_right (·.imp_left .inl)
    · exact .inr (.inl (.inr h))
    · cases hseen : st.trail.seen.contains pos.owner with
      | false => exact .inr (.inr rfl)
      | true => rw [hgrown _ hseen] at h; cases h

/-- What the position of an index holds is gone through first, and then what those of all later
indices hold. -/
theorem does_indices {x y : WalkM σ Unit} {pass : String} {spot : Nat → Position} {i : Nat}
    (hinj : ∀ j, spot j = spot i → j = i)
    (hawaits : ∀ pos ∈ {pos | ∃ j ≥ i, pos = spot j}, Awaits p used st pos)
    (hx : Does x st (fun _ => Leaves p modules started used {spot i} st)
      fun e _ => Exposes p modules pass e)
    (hy : ∀ used' st₁, exec x st = (.ok (), st₁) → Sourced p modules started used' st₁ →
      (∀ pos ∈ {pos | ∃ j ≥ i + 1, pos = spot j}, Awaits p used' st₁ pos) →
      Does y st₁ (fun _ => Leaves p modules started used' {pos | ∃ j ≥ i + 1, pos = spot j} st₁)
        fun e _ => Exposes p modules pass e) :
    Does (x >>= fun _ => y) st
      (fun _ => Leaves p modules started used {pos | ∃ j ≥ i, pos = spot j} st)
      fun e _ => Exposes p modules pass e := by
  refine (does_then {pos | ∃ j ≥ i + 1, pos = spot j} hx ?_ ?_
    fun used' st₁ hexec _ => hy used' st₁ hexec).mono
    (fun _ _ hleaves => hleaves.mono ?_) fun _ _ h => h
  · rintro _ ⟨j, hj, rfl⟩
    exact hawaits _ ⟨j, by omega, rfl⟩
  · rintro _ ⟨j, hj, rfl⟩ heq
    have := hinj j heq
    omega
  · rintro _ (rfl | ⟨j, hj, rfl⟩)
    · exact ⟨i, Nat.le_refl _, rfl⟩
    · exact ⟨j, by omega, rfl⟩

/-- Every less deep task about positions that wait is done without a verdict that is wrong. -/
def Judges (p : Program) (modules started : List ModuleId) (pass : String)
    (rest : Task → WalkM σ Unit) (room : Nat) : Prop :=
  ∀ (task : Task) (st : WalkState σ) (used asked : Set Position), st.trail.seen.room ≤ room →
    Sourced p modules started used st → p.Asks task asked → (∀ pos ∈ asked, Awaits p used st pos) →
    Does (rest task) st (fun _ => Leaves p modules started used asked st)
      fun e _ => Exposes p modules pass e

variable {rest : Task → WalkM σ Unit} {s : StmtId}

/-- The symbol that a statement declares is gone through, or the walk halts with a defect. -/
theorem does_declared {pass : String} {room : Nat} (hrest : Judges p modules started pass rest room)
    (hroom : st.trail.seen.room ≤ room) (h : Sourced p modules started used st)
    (hawaits : Awaits p used st (.declared s)) :
    Does (throughDeclared rest s) st (fun _ => Leaves p modules started used {.declared s} st)
      fun e _ => Exposes p modules pass e := by
  rw [throughDeclared]
  refine .step (exec_program st) ?_
  rw [h.program]
  cases hd : p.declared? s with
  | none => exact .pure (.refl h)
  | some y =>
    refine hrest (.symbol y) st used _ hroom h ⟨.declared s, rfl, ?_⟩ ?_
    · simp [Program.heldAt?, hd]
    · simpa using hawaits

/-- Branches are gone through in a row, or the walk halts with a defect. -/
theorem does_places {pass : String} {room : Nat} (hrest : Judges p modules started pass rest room) :
    ∀ {places : List StmtPlace} {st : WalkState σ} {used : Set Position}, places.Nodup →
      st.trail.seen.room ≤ room → Sourced p modules started used st →
      (∀ place ∈ places, Awaits p used st (.stmt place)) →
      Does (places.forM fun place => rest (.stmt place)) st
        (fun _ => Leaves p modules started used {pos | ∃ place ∈ places, pos = .stmt place} st)
        fun e _ => Exposes p modules pass e
  | [], st, used, _, _, h, _ => .pure (.refl h)
  | place :: places, st, used, hnodup, hroom, h, hawaits => by
    rw [List.nodup_cons] at hnodup
    have hfirst := hrest (.stmt place) st used _ hroom h rfl
      (by simpa using hawaits place List.mem_cons_self)
    refine (does_then {pos | ∃ place ∈ places, pos = .stmt place} hfirst ?_ ?_ ?_).mono
      ?_ fun _ _ h => h
    · rintro _ ⟨place', hmem, rfl⟩
      exact hawaits place' (List.mem_cons_of_mem _ hmem)
    · rintro _ ⟨place', hmem, rfl⟩ heq
      obtain rfl : place' = place := by simpa using heq
      exact hnodup.1 hmem
    · intro used' st₁ _ hgrown h₁ hawaits₁
      exact does_places hrest hnodup.2 (Nat.le_trans hgrown.room_le hroom) h₁
        fun place' hmem => hawaits₁ _ ⟨place', hmem, rfl⟩
    · refine fun _ _ hleaves => hleaves.mono ?_
      rintro pos (rfl | ⟨place', hmem, rfl⟩)
      · exact ⟨place, List.mem_cons_self, rfl⟩
      · exact ⟨place', List.mem_cons_of_mem _ hmem, rfl⟩

/-- The statements of a statement are gone through, or the walk halts with a defect. -/
theorem does_children {pass : String} {room : Nat} (hrest : Judges p modules started pass rest room)
    (hroom : st.trail.seen.room ≤ room) (h : Sourced p modules started used st)
    (hawaits : ∀ place : StmtPlace, place.holder = .stmt s → Awaits p used st (.stmt place)) :
    Does (throughChildren rest s) st (fun _ => Leaves p modules started used
      {pos | ∃ place : StmtPlace, place.holder = .stmt s ∧ pos = .stmt place} st)
      fun e _ => Exposes p modules pass e := by
  rw [throughChildren]
  refine .step (exec_program st) ?_
  rw [h.program]
  cases hc : p.children s with
  | none => exact .pure (.refl h)
  | list list =>
    obtain rfl := Program.children_list hc
    refine (hrest (.stmts (.block s)) st used _ hroom h rfl ?_).mono
      (fun _ _ hleaves => hleaves.mono ?_) fun _ _ h => h
    · rintro _ ⟨i, rfl⟩
      exact hawaits _ rfl
    · rintro _ ⟨i, rfl⟩
      exact ⟨.entry (.block s) i, rfl, rfl⟩
  | places places =>
    obtain ⟨hnodup, hholder⟩ := Program.children_places hc
    refine (does_places hrest hnodup hroom h fun place hmem =>
      hawaits place (hholder place hmem)).mono (fun _ _ hleaves => hleaves.mono ?_) fun _ _ h => h
    rintro _ ⟨place, hmem, rfl⟩
    exact ⟨place, hholder place hmem, rfl⟩

/-- What a statement owns is gone through in three parts. -/
theorem does_inside {pass : String} {room : Nat} (hrest : Judges p modules started pass rest room)
    (hroom : st.trail.seen.room ≤ room) (h : Sourced p modules started used st)
    (hawaits : ∀ pos, pos.owner = .stmt s → Awaits p used st pos) :
    Does (inside rest s) st
      (fun _ => Leaves p modules started used {pos | pos.owner = .stmt s} st)
      fun e _ => Exposes p modules pass e := by
  have hoperands := hrest (.operandsFrom (.stmt s) 0) st used
    {pos | ∃ j ≥ 0, pos = .expr ⟨.stmt s, j⟩} hroom h rfl (by
      rintro _ ⟨j, _, rfl⟩
      exact hawaits _ rfl)
  have hlater : ∀ {used' : Set Position} {st₁ : WalkState σ}, Grown st st₁ →
      Sourced p modules started used' st₁ → Awaits p used' st₁ (.declared s) →
      (∀ place : StmtPlace, place.holder = .stmt s → Awaits p used' st₁ (.stmt place)) →
      Does (do throughDeclared rest s; throughChildren rest s) st₁
        (fun _ => Leaves p modules started used' ({.declared s} ∪
          {pos | ∃ place : StmtPlace, place.holder = .stmt s ∧ pos = .stmt place}) st₁)
        fun e _ => Exposes p modules pass e := by
    intro used' st₁ hgrown h₁ hdeclared hplaces
    have hroom₁ := Nat.le_trans hgrown.room_le hroom
    refine does_then _ (does_declared hrest hroom₁ h₁ hdeclared) ?_ ?_ ?_
    · rintro _ ⟨place, hholder, rfl⟩
      exact hplaces place hholder
    · rintro _ ⟨place, _, rfl⟩ heq
      cases heq
    · exact fun _ _ _ hgrown₂ h₂ hawaits₂ => does_children hrest
        (Nat.le_trans hgrown₂.room_le hroom₁) h₂
        fun place hholder => hawaits₂ _ ⟨place, hholder, rfl⟩
  refine (does_then ({.declared s} ∪
    {pos | ∃ place : StmtPlace, place.holder = .stmt s ∧ pos = .stmt place})
    hoperands ?_ ?_ ?_).mono
    (fun _ _ hleaves => hleaves.mono ?_) fun _ _ h => h
  · rintro _ (rfl | ⟨place, hholder, rfl⟩)
    · exact hawaits _ rfl
    · exact hawaits _ hholder
  · rintro _ (rfl | ⟨place, _, rfl⟩) ⟨j, _, heq⟩ <;> cases heq
  · exact fun _ _ _ hgrown h₁ hawaits₁ => hlater hgrown h₁ (hawaits₁ _ (.inl rfl))
      fun place hholder => hawaits₁ _ (.inr ⟨place, hholder, rfl⟩)
  · rintro _ (⟨j, _, rfl⟩ | rfl | ⟨place, hholder, rfl⟩)
    · rfl
    · rfl
    · exact hholder

/-- From a state in which its positions wait, a task goes through what they hold, each node once, or
halts with a defect of the program. -/
def Judged (p : Program) (modules started : List ModuleId) (o : Observer σ) (task : Task)
    (st : WalkState σ) : Prop :=
  ∀ used asked, Sourced p modules started used st → p.Asks task asked →
    (∀ pos ∈ asked, Awaits p used st pos) →
    Does (run o.toHooks task) st (fun _ => Leaves p modules started used asked st)
      fun e _ => Exposes p modules o.pass e

/-- Once a node was entered, what comes up is less deep. -/
theorem judges_of_below {task : Task} {room : Nat} (ih : Below (Judged p modules started o) task st)
    (hlt : room < st.trail.seen.room) : Judges p modules started o.pass (run o.toHooks) room :=
  fun _ _ used asked hle => ih.later (Nat.lt_of_le_of_lt hle hlt) used asked

/-- A symbol is judged if what it lists and holds is. -/
theorem judged_symbol (ho : Accept o.toHooks) {s : SymbolId}
    (ih : Below (Judged p modules started o) (.symbol s) st) :
    Judged p modules started o (.symbol s) st := by
  rintro used _ h ⟨pos, rfl, hheld⟩ hawaits
  rw [run_eq]
  refine does_open ho (.preSymbol s) h (hawaits pos rfl) hheld fun st₁ hopen => ?_
  have hrest := judges_of_below ih hopen.room_lt
  have hlists : Does (do run o.toHooks (.symbols (.symbol s)); run o.toHooks (.stmts (.body s)))
      st₁ (fun _ => Leaves p modules started (insert pos used) ({pos | ∃ i, pos =
        .symbol (.symbol s) i} ∪ {pos | ∃ i, pos = .stmt (.entry (.body s) i)}) st₁)
      fun e _ => Exposes p modules o.pass e := by
    refine does_then _ (hrest _ _ _ _ (Nat.le_refl _) hopen.sourced rfl ?_) ?_ ?_ ?_
    · rintro _ ⟨i, rfl⟩
      exact hopen.awaits _ rfl
    · rintro _ ⟨i, rfl⟩
      exact hopen.awaits _ rfl
    · rintro _ ⟨i, rfl⟩ ⟨j, heq⟩
      cases heq
    · exact fun _ _ _ hgrown h₂ hawaits₂ => hrest _ _ _ _ hgrown.room_le h₂ rfl hawaits₂
  rw [← bind_assoc]
  refine hlists.bind fun _ st₂ hleaves => hopen.does_close ho (.postSymbol s) hleaves ?_
  rintro _ (⟨i, rfl⟩ | ⟨i, rfl⟩) <;> rfl

/-- A statement is judged if what it owns is. -/
theorem judged_stmt (ho : Accept o.toHooks) {place : StmtPlace}
    (ih : Below (Judged p modules started o) (.stmt place) st) :
    Judged p modules started o (.stmt place) st := by
  rintro used _ h rfl hawaits
  rw [run_eq, visit_stmt]
  refine .step (exec_program st) ?_
  rw [h.program]
  cases hs : p.stmtAt? place with
  | none => exact .pure (.refl h)
  | some s =>
    have hheld : p.heldAt? (.stmt place) = some (.stmt s) := by simp [Program.heldAt?, hs]
    refine does_open ho (.preStmt s place) h (hawaits _ rfl) hheld fun st₁ hopen => ?_
    have hinside := does_inside (judges_of_below ih hopen.room_lt) (Nat.le_refl _) hopen.sourced
      hopen.awaits
    exact hinside.bind fun _ st₂ hleaves =>
      hopen.does_close ho (.postStmt s) hleaves fun _ howner => howner

/-- An expression is judged if its operands are. -/
theorem judged_expr (ho : Accept o.toHooks) {place : ExprPlace}
    (ih : Below (Judged p modules started o) (.expr place) st) :
    Judged p modules started o (.expr place) st := by
  rintro used _ h rfl hawaits
  rw [run_eq, visit]
  refine .step (exec_program st) ?_
  rw [h.program]
  cases he : p.exprAt? place with
  | none => exact .pure (.refl h)
  | some e =>
    have hheld : p.heldAt? (.expr place) = some (.expr e) := by simp [Program.heldAt?, he]
    refine does_open ho (.preExpr e place) h (hawaits _ rfl) hheld fun st₁ hopen => ?_
    refine .step (exec_program st₁) ?_
    rw [hopen.sourced.program, he]
    simp only [if_true]
    have hoperands := ih.later (t := .operandsFrom (.expr e) 0) hopen.room_lt _ _ hopen.sourced rfl
      (by
        rintro _ ⟨j, _, rfl⟩
        exact hopen.awaits _ rfl)
    refine hoperands.bind fun _ st₂ hleaves => hopen.does_close ho (.postExpr e) hleaves ?_
    rintro _ ⟨j, _, rfl⟩
    rfl

theorem judged_symbols {list : SymbolList}
    (ih : Below (Judged p modules started o) (.symbols list) st) :
    Judged p modules started o (.symbols list) st := by
  rintro used _ h rfl hawaits
  by_cases hnodup : (p.symbolsIn list).Nodup
  · refine Does.congr ?_ (exec_symbols (h.program ▸ hnodup))
    have hlist := ih.lighter (t := .symbolsFrom list .start) (by simp [Task.weight]) used
      {pos | ∃ i ≥ 0, pos = .symbol list i} h
      ⟨[], _, rfl, hnodup, Cursor.splits_start _, rfl⟩ (by
        rintro _ ⟨i, _, rfl⟩
        exact hawaits _ ⟨i, rfl⟩)
    refine hlist.mono (fun _ _ hleaves => hleaves.mono ?_) fun _ _ h => h
    rintro _ ⟨i, _, rfl⟩
    exact ⟨i, rfl⟩
  · obtain ⟨s, hr, hfail⟩ := exec_symbols_repeat o.toHooks
      (h.program.symm ▸ hnodup)
    rw [h.program] at hr
    refine Does.congr ?_ hfail
    obtain ⟨j, hj, hs | ⟨i, hi, hs⟩⟩ := of_firstRepeat? hr
    · cases hs
    · exact exposes_repeat h (hawaits _ ⟨i, rfl⟩) (hawaits _ ⟨j, rfl⟩)
        (by rintro ⟨⟩; omega)
        (by rw [Program.heldAt?_symbol, hs]; rfl) (by rw [Program.heldAt?_symbol, hj]; rfl)

/-- Symbols are judged from where the cursor stands. -/
theorem judged_symbolsFrom {list : SymbolList} {cursor : Cursor SymbolId}
    (ih : Below (Judged p modules started o) (.symbolsFrom list cursor) st) :
    Judged p modules started o (.symbolsFrom list cursor) st := by
  rintro used _ h ⟨done, todo, hlist, hnodup, hsplits, rfl⟩ hawaits
  cases todo with
  | nil =>
    exact does_of_ok (exec_symbolsFrom_nil (h.program ▸ hlist) hsplits) (.refl h)
  | cons s rest =>
    refine Does.congr ?_ (exec_symbolsFrom_cons (h.program ▸ hlist) hsplits.next)
    have hs : s ∉ rest := (List.nodup_cons.mp (List.nodup_append.mp hnodup).2.1).1
    have hheld : p.heldAt? (.symbol list done.length) = some (.symbol s) := by
      rw [Program.heldAt?_symbol, hlist]
      simp
    have hfirst := ih.lighter (t := .symbol s) (by simp [Task.weight]) used _ h ⟨_, rfl, hheld⟩ (by
      rintro _ rfl
      exact hawaits _ ⟨_, Nat.le_refl _, rfl⟩)
    exact does_indices (fun j heq => by cases heq; rfl) hawaits hfirst
      fun used' st₁ hexec h₁ hawaits₁ => ih.later (t := .symbolsFrom list _)
        (room_lt_of_walk (.symbol s) trivial hexec) used' _ h₁
        ⟨done ++ [s], rest, by rw [hlist, List.append_assoc]; rfl, by simpa using hnodup,
          hsplits.keep hs, by simp⟩ hawaits₁

theorem judged_stmts {list : StmtList} (ih : Below (Judged p modules started o) (.stmts list) st) :
    Judged p modules started o (.stmts list) st := by
  rintro used _ h rfl hawaits
  by_cases hnodup : (p.stmtsIn list).Nodup
  · refine Does.congr ?_ (exec_stmts (h.program ▸ hnodup))
    have hlist := ih.lighter (t := .stmtsFrom list .start) (by simp [Task.weight]) used
      {pos | ∃ i ≥ 0, pos = .stmt (.entry list i)} h
      ⟨[], _, rfl, hnodup, Cursor.splits_start _, rfl⟩ (by
        rintro _ ⟨i, _, rfl⟩
        exact hawaits _ ⟨i, rfl⟩)
    refine hlist.mono (fun _ _ hleaves => hleaves.mono ?_) fun _ _ h => h
    rintro _ ⟨i, _, rfl⟩
    exact ⟨i, rfl⟩
  · obtain ⟨s, hr, hfail⟩ := exec_stmts_repeat o.toHooks
      (h.program.symm ▸ hnodup)
    rw [h.program] at hr
    refine Does.congr ?_ hfail
    obtain ⟨j, hj, hs | ⟨i, hi, hs⟩⟩ := of_firstRepeat? hr
    · cases hs
    · exact exposes_repeat h (hawaits _ ⟨i, rfl⟩) (hawaits _ ⟨j, rfl⟩)
        (by rintro ⟨⟩; omega)
        (by rw [Program.heldAt?_entry, hs]; rfl) (by rw [Program.heldAt?_entry, hj]; rfl)

/-- Statements are judged from where the cursor stands. -/
theorem judged_stmtsFrom {list : StmtList} {cursor : Cursor StmtId}
    (ih : Below (Judged p modules started o) (.stmtsFrom list cursor) st) :
    Judged p modules started o (.stmtsFrom list cursor) st := by
  rintro used _ h ⟨done, todo, hlist, hnodup, hsplits, rfl⟩ hawaits
  cases todo with
  | nil => exact does_of_ok (exec_stmtsFrom_nil (h.program ▸ hlist) hsplits) (.refl h)
  | cons s rest =>
    refine Does.congr ?_ (exec_stmtsFrom_cons (h.program ▸ hlist) hsplits.next)
    have hs : s ∉ rest := (List.nodup_cons.mp (List.nodup_append.mp hnodup).2.1).1
    have hat : st.scene.program.stmtAt? (.entry list done.length) = some s :=
      stmtAt?_of_stmtsIn (h.program ▸ hlist)
    have hfirst :=
      ih.lighter (t := .stmt (.entry list done.length)) (by simp [Task.weight]) used _ h
      rfl (by
        rintro _ rfl
        exact hawaits _ ⟨_, Nat.le_refl _, rfl⟩)
    exact does_indices (fun j heq => by cases heq; rfl) hawaits hfirst
      fun used' st₁ hexec h₁ hawaits₁ => ih.later (t := .stmtsFrom list _)
        (room_lt_of_entry hat hexec) used' _ h₁
        ⟨done ++ [s], rest, by rw [hlist, List.append_assoc]; rfl, by simpa using hnodup,
          hsplits.keep hs, by simp⟩ hawaits₁

/-- Operands are judged from an index on. -/
theorem judged_operandsFrom {owner : ExprOwner} {i : Nat}
    (ih : Below (Judged p modules started o) (.operandsFrom owner i) st) :
    Judged p modules started o (.operandsFrom owner i) st := by
  rintro used _ h rfl hawaits
  by_cases hi : i < (p.operands owner).length
  · have hat : p.exprAt? ⟨owner, i⟩ = some (p.operands owner)[i] := List.getElem?_eq_getElem hi
    refine Does.congr ?_ (exec_operandsFrom_lt (by rwa [h.program]))
    have hfirst := ih.lighter (t := .expr ⟨owner, i⟩) (by simp [Task.weight]) used _ h rfl (by
      rintro _ rfl
      exact hawaits _ ⟨_, Nat.le_refl _, rfl⟩)
    exact does_indices (fun j heq => by cases heq; rfl) hawaits hfirst
      fun used' st₁ hexec h₁ hawaits₁ => ih.later (t := .operandsFrom owner (i + 1))
        (room_lt_of_operand (by rw [h.program, hat]) hexec) used' _ h₁ rfl hawaits₁
  · exact does_of_ok (exec_operandsFrom_ge (by rwa [h.program])) (.refl h)

/-- A walk that looks goes through what its positions hold, each node once, or halts with a defect
of the program. -/
theorem does_run (ho : Accept o.toHooks) (task : Task) (st : WalkState σ) :
    Judged p modules started o task st := by
  induction task, st using task_induction with
  | step task st ih =>
  cases task with
  | module m => exact fun _ _ _ hasks _ => hasks.elim
  | symbol s => exact judged_symbol ho ih
  | stmt place => exact judged_stmt ho ih
  | expr place => exact judged_expr ho ih
  | symbols list => exact judged_symbols ih
  | symbolsFrom list cursor => exact judged_symbolsFrom ih
  | stmts list => exact judged_stmts ih
  | stmtsFrom list cursor => exact judged_stmtsFrom ih
  | operandsFrom owner i => exact judged_operandsFrom ih

/-! ## Modules -/

/-- Modules that exist and were not walked yet are gone through one after another. -/
theorem does_modules (ho : Accept o.toHooks) : ∀ {ms started : List ModuleId} {used : Set Position}
    {st : WalkState σ}, Sourced p modules started used st → st.trail.path = [] → ms.Nodup →
      (∀ m ∈ ms, m ∈ modules ∧ m ∉ started ∧ p.has (.module m) = true) →
      Does (ms.forM fun m => run o.toHooks (.module m)) st (fun _ _ => True)
        fun e _ => Exposes p modules o.pass e
  | [], _, _, _, _, _, _, _ => .pure trivial
  | m :: ms, started, used, st, h, hpath, hnodup, hms => by
    rw [List.nodup_cons] at hnodup
    obtain ⟨hmem, hnew, hhas⟩ := hms m List.mem_cons_self
    have hunseen : st.trail.seen.contains (.module m) = false := by
      by_contra hseen
      exact hnew (h.started m (by simpa using hseen))
    change Does (run o.toHooks (.module m) >>= fun _ => ms.forM _) st _ _
    rw [run_eq, visit, bind_assoc]
    refine .step (exec_enter_ok (h.program ▸ hhas) hunseen) ?_
    generalize hst₁ : ({ st with
      trail := ⟨.module m :: st.trail.path, st.trail.seen.insert (.module m),
        st.trail.tally.count (NodeId.module m).step⟩ } : WalkState σ) = st₁
    have hpath₁ : st₁.trail.path = [.module m] := by rw [← hst₁, hpath]
    have hseen₁ : ∀ n, st₁.trail.seen.contains n = true ↔
        n = .module m ∨ st.trail.seen.contains n = true := by
      rw [← hst₁]
      simp
    have hsourced₁ : Sourced p modules (m :: started) used st₁ := by
      refine ⟨by rw [← hst₁, h.program], ?_, ?_, ?_, ?_⟩ <;> simp only [hseen₁]
      · rintro n (rfl | hn)
        · exact .root hmem
        · exact h.reached n hn
      · rintro k (hk | hk)
        · cases hk
          exact List.mem_cons_self
        · exact List.mem_cons_of_mem _ (h.started k hk)
      · rintro n (rfl | hn) hmodule
        · exact absurd rfl (hmodule m)
        · exact h.source n hn hmodule
      · exact fun pos hpos => .inr (h.owners pos hpos)
    have hawaits : ∀ pos ∈ {pos | ∃ i, pos = Position.symbol (.module m) i},
        Awaits p used st₁ pos := by
      rintro _ ⟨i, rfl⟩
      refine ⟨fun hused => ?_, (hseen₁ _).mpr (.inl rfl), ?_⟩
      · exact hnew (h.started m (h.owners _ hused))
      · rw [hpath₁]
        rintro n hn
        obtain rfl := List.mem_singleton.mp hn
        exact .refl
    rw [bind_assoc]
    refine (does_run ho (.symbols (.module m)) st₁ used _ hsourced₁ rfl hawaits).bind ?_
    rintro _ st₂ ⟨used₂, hsourced₂, hpath₂, _, _⟩
    refine .step (exec_leave _ st₂) (does_modules ho ⟨hsourced₂.program, hsourced₂.reached,
      hsourced₂.started, hsourced₂.source, hsourced₂.owners⟩ ?_ hnodup.2 fun k hk => ?_)
    · simp [Trail.leave, hpath₂, hpath₁]
    · obtain ⟨hk₁, hk₂, hk₃⟩ := hms k (List.mem_cons_of_mem m hk)
      refine ⟨hk₁, fun hk' => ?_, hk₃⟩
      rcases List.mem_cons.mp hk' with rfl | hk'
      · exact hnodup.1 hk
      · exact hk₂ hk'

/-- Modules that exist and do not repeat are gone through, or a defect of the program comes out. -/
theorem does_survey (ho : Accept o.toHooks) (hnodup : modules.Nodup)
    (hexist : ∀ m ∈ modules, p.has (.module m) = true) (own : σ) :
    Does (modules.forM fun m => run o.toHooks (.module m)) ⟨.start, ⟨p, own⟩⟩ (fun _ _ => True)
      fun e _ => Exposes p modules o.pass e := by
  have hstart : Sourced p modules [] ∅ (⟨.start, ⟨p, own⟩⟩ : WalkState σ) := by
    refine ⟨rfl, ?_, ?_, ?_, ?_⟩ <;> simp [Trail.start]
  exact does_modules ho hstart rfl hnodup fun m hm => ⟨hm, by simp, hexist m hm⟩

/-- A forest is surveyed without a defect. -/
theorem survey_of_isForest (h : p.IsForest modules) (hnodup : modules.Nodup)
    (hexist : ∀ m ∈ modules, p.has (.module m) = true) : survey modules p = .ok () := by
  have haccept : Accept silent.toHooks := fun hh _ => by cases hh <;> rfl
  have hdoes := does_survey haccept hnodup hexist ()
  rw [survey]
  rcases hx : exec (modules.forM fun m => run silent.toHooks (.module m)) ⟨.start, ⟨p, ()⟩⟩ with
    ⟨halt | ⟨⟩, st'⟩
  · obtain ⟨d, _, _, _, hconfirms⟩ := hdoes.of_error hx
    exact absurd hconfirms (h.not_confirms d)
  · rfl

end

/-- A walk that looks, over modules that exist and do not repeat, ends well exactly if what is
reached from them is a forest.  Otherwise it halts with a defect that the program has: a node below
itself, a node held in two positions, or a held id without a node. -/
theorem walk_accepts_forests {o : Observer σ} (ho : Accept o.toHooks) {p : Program}
    {modules : List ModuleId} (hnodup : modules.Nodup)
    (hexist : ∀ m ∈ modules, p.has (.module m) = true) (own : σ) :
    ((exec (modules.forM fun m => run o.toHooks (.module m)) ⟨.start, ⟨p, own⟩⟩).1 = .ok () ↔
      p.IsForest modules) ∧
    ∀ halt, (exec (modules.forM fun m => run o.toHooks (.module m)) ⟨.start, ⟨p, own⟩⟩).1 =
      .error halt → ∃ d, halt = .defect d ∧ d.pass = o.pass ∧ d.step = d.node.step ∧
        p.Confirms modules d := by
  have hdoes := does_survey ho hnodup hexist own
  match hx : exec (modules.forM fun m => run o.toHooks (.module m)) ⟨.start, ⟨p, own⟩⟩ with
  | (.ok (), st') =>
    obtain ⟨ts, hroots, hthrough⟩ := through_of_modules hx
    have hforest := Program.isForest_of_unfolds ⟨hroots, hthrough.bears, hthrough.nodup⟩
    exact ⟨⟨fun _ => hforest, fun _ => rfl⟩, fun halt hhalt => nomatch hhalt⟩
  | (.error halt, st') =>
    have hexposes := hdoes.of_error hx
    refine ⟨⟨fun hok => (nomatch hok), fun hforest => ?_⟩, fun halt' hhalt => ?_⟩
    · obtain ⟨d, _, _, _, hconfirms⟩ := hexposes
      exact absurd hconfirms (hforest.not_confirms d)
    · cases hhalt
      exact hexposes

/-- A pass that counts the statements it meets. -/
def census : Observer Nat where
  pass := "census"
  preStmt _ _ _ := modify (· + 1)

/-- `m + m`, with one node for both sides. -/
def twofold : Program where
  modules := #[⟨"a", "a.src", none, [⟨0⟩]⟩]
  symbols := #[.new "f" (.func [] none [⟨0⟩]) 1]
  stmts := #[.new (.ret (some ⟨1⟩)) 2]
  exprs := #[.new (.int 1) 2, .new (.binary .add ⟨0⟩ ⟨0⟩) 2]

theorem walk_accepts_forests_twofold : Accept census.toHooks ∧ [(⟨0⟩ : ModuleId)].Nodup ∧
    (∀ m ∈ [(⟨0⟩ : ModuleId)], twofold.has (.module m) = true) ∧
    ((exec ([⟨0⟩].forM fun m => run census.toHooks (.module m)) ⟨.start, ⟨twofold, 0⟩⟩).1 = .ok () ↔
      twofold.IsForest [⟨0⟩]) ∧
    ∀ halt, (exec ([⟨0⟩].forM fun m => run census.toHooks (.module m)) ⟨.start, ⟨twofold, 0⟩⟩).1 =
      .error halt → ∃ d, halt = .defect d ∧ d.pass = "census" ∧ d.step = d.node.step ∧
        twofold.Confirms [⟨0⟩] d :=
  have haccept : Accept census.toHooks := fun hh _ => by cases hh <;> rfl
  ⟨haccept, by decide, by decide, walk_accepts_forests haccept (by decide) (by decide) 0⟩

end Walk

end MiddleEnd
