import MiddleEnd.Proofs.Context
import MiddleEnd.Proofs.Normalize.Rewrite

/-!
# MiddleEnd.Proofs.Normalize.Moved

What a part of a run does to the state, said so that parts compose.  `Moved E H` is the frame: the
nodes of `E` were entered, and nothing changed but they and the nodes of `H`, which are being
visited.  `Becomes` adds the outcome: trees that stood before have become others.

`Ends` is how results about runs are stated: a run ends well, and where it ends is described, if
the arenas of the program it leaves are addressable.
-/

namespace MiddleEnd

namespace Normalize

open MiddleEnd.Tree Walk

variable {st st₁ st₂ st' : WalkState Normalizer}

/-! ## The frame of a run -/

/-- From `st` to `st'` the nodes of `E` were entered; no other old node changed, but for those of
`H`. -/
structure Moved (E H : NodeId → Prop) (st st' : WalkState Normalizer) : Prop where
  rules : st'.scene.own.rules = st.scene.own.rules
  frame : Program.Extends (fun n => E n ∨ H n) st.scene.program st'.scene.program
  unseen : ∀ n, E n → st.trail.seen.contains n = false
  seen : ∀ n, st'.trail.seen.contains n = true ↔ st.trail.seen.contains n = true ∨ E n
  exist : ∀ n, E n → st'.scene.program.has n = true

/-- What was entered in two stretches was entered in both together. -/
theorem Moved.trans {E₁ E₂ H₁ H₂ H : NodeId → Prop} (h : Moved E₁ H₁ st st₁)
    (h' : Moved E₂ H₂ st₁ st₂) (h₁ : ∀ n, H₁ n → (E₁ n ∨ E₂ n) ∨ H n)
    (h₂ : ∀ n, H₂ n → (E₁ n ∨ E₂ n) ∨ H n) : Moved (fun n => E₁ n ∨ E₂ n) H st st₂ where
  rules := h'.rules.trans h.rules
  frame := (h.frame.mono fun n hn => hn.elim (fun hE => .inl (.inl hE)) (h₁ n)).trans
    (h'.frame.mono fun n hn => hn.elim (fun hE => .inl (.inr hE)) (h₂ n))
  unseen n hn := by
    rcases hn with hn | hn
    · exact h.unseen n hn
    · have hn' := h'.unseen n hn
      by_contra hs
      rw [(h.seen n).mpr (.inl (by simpa using hs))] at hn'
      cases hn'
  seen n := by rw [h'.seen, h.seen, or_assoc]
  exist n hn := hn.elim (fun hE => h'.frame.has n (h.exist n hE)) (h'.exist n)

theorem Moved.congr {E F H : NodeId → Prop} (h : Moved E H st st') (hEF : ∀ n, E n ↔ F n) :
    Moved F H st st' := by
  obtain rfl : E = F := funext fun n => propext (hEF n)
  exact h

/-- All nodes entered so far exist. -/
def Sound (st : WalkState Normalizer) : Prop :=
  ∀ n, st.trail.seen.contains n = true → st.scene.program.has n = true

/-- What was entered exists afterwards too. -/
theorem Moved.sound {E H : NodeId → Prop} (h : Moved E H st st') (hst : Sound st) : Sound st' := by
  intro n hn
  rcases (h.seen n).mp hn with hs | hE
  · exact h.frame.has n (hst n hs)
  · exact h.exist n hE

/-- What was met stays met. -/
theorem Moved.seen_of_seen {E H : NodeId → Prop} (h : Moved E H st st') {n : NodeId}
    (hn : st.trail.seen.contains n = true) : st'.trail.seen.contains n = true :=
  (h.seen n).mpr (.inl hn)

/-- What was not entered and is not held is as it was. -/
theorem Moved.node_eq {E H : NodeId → Prop} (h : Moved E H st st') {n : NodeId}
    (hn : st.scene.program.has n = true) (hE : ¬ E n) (hH : ¬ H n) :
    st'.scene.program.node? n = st.scene.program.node? n :=
  h.frame.kept n hn fun hEH => hEH.elim hE hH

/-- A node that is being visited does not change unless it is named. -/
theorem Moved.held_eq {E H : NodeId → Prop} {n : NodeId}
    (h : Moved E H st st') (hst : Sound st) (hn : st.trail.seen.contains n = true) (hH : ¬ H n) :
    st'.scene.program.node? n = st.scene.program.node? n := by
  refine h.node_eq (hst n hn) (fun hE => ?_) hH
  rw [h.unseen n hE] at hn
  cases hn

/-- A node that was met before stays as it was, unless it is at work. -/
theorem Moved.held_cell {E H : NodeId → Prop} {n : NodeId}
    (h : Moved E H st st') (hst : Sound st) (hn : st.trail.seen.contains n = true) (hH : ¬ H n) :
    st'.scene.program.cell? n = st.scene.program.cell? n := by
  rw [Program.cell?, h.held_eq hst hn hH, ← Program.cell?]

/-- What was there before and still waits for its visit does not change unless it is named. -/
theorem Moved.waiting_cell {E H : NodeId → Prop} {n : NodeId} (h : Moved E H st st')
    (hn : st.scene.program.has n = true) (hwaits : st'.trail.seen.contains n = false)
    (hH : ¬ H n) : st'.scene.program.cell? n = st.scene.program.cell? n := by
  refine h.frame.cell hn fun hEH => hEH.elim (fun hE => ?_) hH
  rw [(h.seen n).mpr (.inr hE)] at hwaits
  cases hwaits

/-- A node that was met before keeps its back-references, unless it is at work. -/
theorem Moved.held_backs {E H : NodeId → Prop} {n : NodeId}
    (h : Moved E H st st') (hst : Sound st) (hn : st.trail.seen.contains n = true) (hH : ¬ H n) :
    st'.scene.program.backs? n = st.scene.program.backs? n := by
  rw [Program.backs?, h.held_eq hst hn hH, ← Program.backs?]

/-- What a node owns after the visits of what it owned before; its back-references stay. -/
structure Owns (n : NodeId) (c : Cell) (st st' : WalkState Normalizer) : Prop where
  cell : st'.scene.program.cell? n = some c
  backs : st'.scene.program.backs? n = st.scene.program.backs? n

/-! ## Trees to be visited -/

/-- Trees stand in the program, and the walk has not been there; it is at the nodes of `H`. -/
structure Ready (H : NodeId → Prop) (st : WalkState Normalizer) (ts : List Tree) : Prop where
  bears : st.scene.program.Bears ts
  nodup : (nodesOf ts).Nodup
  unseen : ∀ n ∈ nodesOf ts, st.trail.seen.contains n = false
  sound : Sound st
  held : ∀ n, H n → st.trail.seen.contains n = true

/-- The first of two rows of trees is ready if both are. -/
theorem Ready.left {H : NodeId → Prop} {ts us : List Tree} (h : Ready H st (ts ++ us)) :
    Ready H st ts where
  bears := (Program.bears_append.mp h.bears).1
  nodup := (nodup_append.mp h.nodup).1
  unseen n hn := h.unseen n (by rw [nodesOf_append]; exact List.mem_append_left _ hn)
  sound := h.sound
  held := h.held

theorem Ready.head {H : NodeId → Prop} {t : Tree} {ts : List Tree} (h : Ready H st (t :: ts)) :
    Ready H st [t] :=
  @Ready.left st H [t] ts h

/-- The second of two rows of trees is ready if both are. -/
theorem Ready.right {H : NodeId → Prop} {ts us : List Tree} (h : Ready H st (ts ++ us)) :
    Ready H st us where
  bears := (Program.bears_append.mp h.bears).2
  nodup := (nodup_append.mp h.nodup).2.1
  unseen n hn := h.unseen n (by rw [nodesOf_append]; exact List.mem_append_right _ hn)
  sound := h.sound
  held := h.held

/-- Nodes that were met may be at work too. -/
theorem Ready.held_mono {H K : NodeId → Prop} {ts : List Tree} (h : Ready H st ts)
    (hK : ∀ n, K n → st.trail.seen.contains n = true) : Ready K st ts :=
  ⟨h.bears, h.nodup, h.unseen, h.sound, hK⟩

/-- Trees that were not entered are still to be visited. -/
theorem Moved.ready {E H K : NodeId → Prop} {ts : List Tree} (h : Moved E H st st')
    (hts : Ready K st ts) (hH : ∀ n, H n → st.trail.seen.contains n = true)
    (hE : ∀ n ∈ nodesOf ts, ¬ E n) : Ready K st' ts where
  bears := hts.bears.frame h.frame fun n hn hEH => hEH.elim (hE n hn) fun hHn => by
    have hs := hH n hHn
    rw [hts.unseen n hn] at hs
    cases hs
  nodup := hts.nodup
  unseen n hn := by
    by_contra hs
    rcases (h.seen n).mp (by simpa using hs) with hs | hs
    · rw [hts.unseen n hn] at hs
      cases hs
    · exact hE n hn hs
  sound := h.sound hts.sound
  held n hn := h.seen_of_seen (hts.held n hn)

/-! ## Trees that were visited -/

/-- From `st` to `st'` the nodes of `E` were entered, and of them the trees `us` were made. -/
structure Yields (E H : NodeId → Prop) (st st' : WalkState Normalizer) (us : List Tree) : Prop where
  moved : Moved E H st st'
  level : Context.Level st.scene.own.context st'.scene.own.context
  bears : st'.scene.program.Bears us
  records : st'.scene.program.Records st.scene.own.context.around us
  nodup : (nodesOf us).Nodup
  nodes : ∀ n ∈ nodesOf us, E n

theorem Yields.congr {E F H : NodeId → Prop} {us : List Tree} (h : Yields E H st st' us)
    (hEF : ∀ n, E n ↔ F n) : Yields F H st st' us := by
  obtain rfl : E = F := funext fun n => propext (hEF n)
  exact h

/-- What was entered before stays as it is when other nodes are entered. -/
theorem Yields.stays {E₁ E₂ H : NodeId → Prop} {us : List Tree} (h : Yields E₁ H st st₁ us)
    (h' : Moved E₂ H st₁ st₂) (hH : ∀ n, H n → st.trail.seen.contains n = true) :
    ∀ n ∈ nodesOf us, ¬ (E₂ n ∨ H n) := by
  rintro n hn (hE | hHn)
  · have hs := (h.moved.seen n).mpr (.inr (h.nodes n hn))
    rw [h'.unseen n hE] at hs
    cases hs
  · have hs := hH n hHn
    rw [h.moved.unseen n (h.nodes n hn)] at hs
    cases hs

/-- What has become of trees is not changed by what is done to others later. -/
theorem Yields.trans {E₁ E₂ H : NodeId → Prop} {us us' : List Tree} (h : Yields E₁ H st st₁ us)
    (h' : Yields E₂ H st₁ st₂ us') (hH : ∀ n, H n → st.trail.seen.contains n = true) :
    Yields (fun n => E₁ n ∨ E₂ n) H st st₂ (us ++ us') := by
  have hus := h.stays h'.moved hH
  refine ⟨h.moved.trans h'.moved (fun _ => .inr) fun _ => .inr, h.level.trans h'.level, ?_, ?_, ?_,
    ?_⟩
  · exact Program.bears_append.mpr ⟨h.bears.frame h'.moved.frame hus, h'.bears⟩
  · exact Program.records_append.mpr
      ⟨h.records.frame h.bears h'.moved.frame hus, h.level.around_eq ▸ h'.records⟩
  · exact nodup_append.mpr ⟨h.nodup, h'.nodup, fun n hn hn' => hus n hn (.inl (h'.nodes n hn'))⟩
  · intro n hn
    rw [nodesOf_append, List.mem_append] at hn
    exact hn.imp (h.nodes n) (h'.nodes n)

/-- Nothing has to be kept of what was made. -/
theorem Yields.forget {E H : NodeId → Prop} {us : List Tree} (h : Yields E H st st' us) :
    Yields E H st st' [] :=
  ⟨h.moved, h.level, Program.bears_nil, Program.records_nil, List.nodup_nil, by simp⟩

/-- The trees that were made may be named in another order. -/
theorem Yields.comm {E H : NodeId → Prop} {us vs : List Tree} (h : Yields E H st st' (us ++ vs)) :
    Yields E H st st' (vs ++ us) where
  moved := h.moved
  level := h.level
  bears := Program.bears_append.mpr (Program.bears_append.mp h.bears).symm
  records := Program.records_append.mpr (Program.records_append.mp h.records).symm
  nodup := by
    have hnodup := h.nodup
    rw [nodesOf_append] at hnodup ⊢
    exact (List.perm_append_comm.nodup_iff).mp hnodup
  nodes n hn := h.nodes n (by
    rw [nodesOf_append, List.mem_append] at hn ⊢
    exact hn.symm)

/-- Nodes may be entered before, of which nothing is left. -/
theorem Yields.after {E₁ E₂ H : NodeId → Prop} {us : List Tree} (h : Yields E₂ H st₁ st₂ us)
    (h' : Moved E₁ H st st₁) (hcontext : st₁.scene.own.context = st.scene.own.context) :
    Yields (fun n => E₁ n ∨ E₂ n) H st st₂ us where
  moved := h'.trans h.moved (fun _ => .inr) fun _ => .inr
  level := hcontext ▸ h.level
  bears := h.bears
  records := hcontext ▸ h.records
  nodup := h.nodup
  nodes n hn := .inr (h.nodes n hn)

/-- A node that was entered, and whose children were visited after that, is a tree again. -/
theorem Yields.node {E H : NodeId → Prop} {n : NodeId} {l : Label} {us vs ws : List Tree}
    (henter : Moved (· = n) H st st₁) (hin : Yields E (· = n) st₁ st₂ (us ++ vs ++ ws))
    (hcell : st₂.scene.program.cell? n = some ⟨l, us.map Tree.id, vs.map Tree.id, ws.map Tree.id⟩)
    (hbacks : st₂.scene.program.backs? n = some (st.scene.own.context.around.backs n))
    (haround : st₁.scene.own.context.around = st.scene.own.context.around.under n)
    (hseen : st'.trail.seen = st₂.trail.seen) (hprogram : st'.scene.program = st₂.scene.program)
    (hrules : st'.scene.own.rules = st₂.scene.own.rules)
    (hlevel : Context.Level st.scene.own.context st'.scene.own.context) :
    Yields (fun m => m = n ∨ E m) H st st' [.node n l us vs ws] := by
  have hmoved := henter.trans hin.moved (fun _ => .inr) fun m hm => .inl (.inl hm)
  have hbears := hin.bears
  have hrecords := hin.records
  rw [haround] at hrecords
  simp only [Program.bears_append, Program.records_append] at hbears hrecords
  have hn : ¬ E n := fun hE => by
    have hs := (henter.seen n).mpr (.inr rfl)
    rw [hin.moved.unseen n hE] at hs
    cases hs
  refine ⟨⟨hrules.trans hmoved.rules, hprogram ▸ hmoved.frame, hmoved.unseen, hseen ▸ hmoved.seen,
    hprogram ▸ hmoved.exist⟩, hlevel, ?_, ?_, ?_, ?_⟩
  · rw [hprogram]
    exact Program.bears_node.mpr ⟨hcell, hbears.1.1, hbears.1.2, hbears.2⟩
  · rw [hprogram]
    exact Program.records_node.mpr ⟨hbacks, hrecords.1.1, hrecords.1.2, hrecords.2⟩
  · exact nodup_node.mpr ⟨fun hm => hn (hin.nodes n hm), hin.nodup⟩
  · intro m hm
    have hm' : m = n ∨ m ∈ nodesOf (us ++ vs ++ ws) := by
      simpa [nodesOf_append] using hm
    exact hm'.imp_right (hin.nodes m)

/-- The nodes entered in a visit of trees: theirs, and those that were made on the way. -/
def Entered (st st' : WalkState Normalizer) (ts : List Tree) (n : NodeId) : Prop :=
  n ∈ nodesOf ts ∨ (st.scene.program.has n = false ∧ st'.scene.program.has n = true)

/-- From `st` to `st'` the trees `ts` have become `us`. -/
abbrev Becomes (H : NodeId → Prop) (st st' : WalkState Normalizer) (ts us : List Tree) : Prop :=
  Yields (Entered st st' ts) H st st' us

/-- In two stretches together those nodes are entered that are in one of them. -/
theorem entered_append {ts us : List Tree}
    (h : ∀ n, st.scene.program.has n = true → st₁.scene.program.has n = true)
    (h' : ∀ n, st₁.scene.program.has n = true → st₂.scene.program.has n = true) (n : NodeId) :
    Entered st st₁ ts n ∨ Entered st₁ st₂ us n ↔ Entered st st₂ (ts ++ us) n := by
  simp only [Entered, nodesOf_append, List.mem_append]
  have hn := h n
  have hn' := h' n
  revert hn hn'
  cases st.scene.program.has n <;> cases st₁.scene.program.has n <;>
    cases st₂.scene.program.has n <;> simp

theorem Becomes.refl (H : NodeId → Prop) (st : WalkState Normalizer) : Becomes H st st [] [] where
  moved := ⟨rfl, .refl _ _, by simp [Entered], by simp [Entered], by simp [Entered]⟩
  level := .refl _
  bears := Program.bears_nil
  records := Program.records_nil
  nodup := List.nodup_nil
  nodes := by simp

/-- Trees in a row become others one after the other. -/
theorem Becomes.trans {H : NodeId → Prop} {ts us ts' us' : List Tree}
    (h : Becomes H st st₁ ts us) (h' : Becomes H st₁ st₂ ts' us')
    (hH : ∀ n, H n → st.trail.seen.contains n = true) :
    Becomes H st st₂ (ts ++ ts') (us ++ us') :=
  (Yields.trans h h' hH).congr (entered_append h.moved.frame.has h'.moved.frame.has)

/-- The trees after those that were visited are still to be visited. -/
theorem Moved.ready_right {H K : NodeId → Prop} {ts ts' : List Tree}
    (h : Moved (Entered st st₁ ts) H st st₁) (hready : Ready K st (ts ++ ts'))
    (hH : ∀ n, H n → st.trail.seen.contains n = true) : Ready K st₁ ts' := by
  refine h.ready hready.right hH fun n hn hE => ?_
  rcases hE with hts | ⟨hnew, _⟩
  · exact (nodup_append.mp hready.nodup).2.2 n hts hn
  · rw [hready.right.bears.has hn] at hnew
    cases hnew

/-- The trees that come next are ready once those before them were visited. -/
theorem Becomes.ready {H : NodeId → Prop} {ts us ts' : List Tree} (h : Becomes H st st₁ ts us)
    (hready : Ready H st (ts ++ ts')) : Ready H st₁ ts' :=
  h.moved.ready_right hready hready.held

/-- What is entered with a node is the node and what is below it. -/
theorem entered_node {n : NodeId} {l : Label} {es ss ts : List Tree}
    (hsame : ∀ m, st₁.scene.program.has m = st.scene.program.has m) (m : NodeId) :
    m = n ∨ Entered st₁ st₂ (es ++ ss ++ ts) m ↔ Entered st st₂ [.node n l es ss ts] m := by
  simp [Entered, hsame, nodesOf_append, or_assoc]

/-! ## Entering a node -/

section

variable {H : NodeId → Prop} {n : NodeId} {scene : Scene Normalizer}

/-- A node is entered, and its first hook is called. -/
theorem moved_enter (hn : st.trail.seen.contains n = false)
    (hseen : st₁.trail.seen = st.trail.seen.insert n)
    (hrules : st₁.scene.own.rules = st.scene.own.rules)
    (hframe : Program.Extends (fun m => m = n ∨ H m) st.scene.program st₁.scene.program)
    (hhas : st.scene.program.has n = true) : Moved (· = n) H st st₁ where
  rules := hrules
  frame := hframe
  unseen m hm := hm ▸ hn
  seen m := by
    rw [hseen, NodeSet.contains_insert, Bool.or_eq_true, decide_eq_true_iff, or_comm]
  exist m hm := hm ▸ hframe.has n hhas

/-- Entering a node that is to be visited. -/
theorem Ready.exec_enter {l : Label} {es ss ts : List Tree}
    (h : Ready H st [.node n l es ss ts]) : exec (enter hooks n) st = (.ok (), { st with trail :=
      ⟨n :: st.trail.path, st.trail.seen.insert n, st.trail.tally.count n.step⟩ }) :=
  exec_enter_ok (h.bears.has (by simp)) (h.unseen n (by simp))

/-- Once a node was entered, what is below it is still to be visited. -/
theorem Moved.ready_below {l : Label} {es ss ts : List Tree}
    (h : Ready H st [.node n l es ss ts]) (hmoved : Moved (· = n) H st st₁) :
    Ready (· = n) st₁ (es ++ ss ++ ts) := by
  have hnodup := nodup_node.mp h.nodup
  obtain ⟨_, hes, hss, hts⟩ := Program.bears_node.mp h.bears
  have hbelow : Ready H st (es ++ ss ++ ts) :=
    ⟨Program.bears_append.mpr ⟨Program.bears_append.mpr ⟨hes, hss⟩, hts⟩, hnodup.2,
      fun m hm => h.unseen m (by
        simp only [nodesOf_node, nodesOf_nil, List.append_nil]
        rw [nodesOf_append, nodesOf_append] at hm
        exact List.mem_cons_of_mem _ hm), h.sound, h.held⟩
  have hready := hmoved.ready hbelow h.held fun m hm he => hnodup.1 (he ▸ hm)
  exact hready.held_mono fun m hm => (hmoved.seen m).mpr (.inr hm)

end

/-! ## Runs that end well -/

/-- The run ends well in a state of `Q`, if the program it leaves is addressable. -/
def Ends (x : WalkM Normalizer Unit) (st : WalkState Normalizer)
    (Q : WalkState Normalizer → Prop) : Prop :=
  (exec x st).2.scene.program.Addressable → ∃ st', exec x st = (.ok (), st') ∧ Q st'

/-- A run that does not make the arenas smaller. -/
abbrev Grows {α : Type} (x : WalkM Normalizer α) : Prop :=
  Keeps (fun st st' => Larger st.scene st'.scene) x

theorem Larger.of_exec {x : WalkM Normalizer Unit} {result : Except Halt Unit} (hx : Grows x)
    (hexec : exec x st = (result, st₁)) : Larger st.scene st₁.scene := by
  have hlarger := hx st
  rwa [hexec] at hlarger

/-- If the larger program has an id for every node, the smaller one has. -/
theorem Larger.addressable {a b : Scene Normalizer} (h : Larger a b)
    (hb : b.program.Addressable) : a.program.Addressable :=
  ⟨Nat.le_trans h.symbols hb.symbols, Nat.le_trans h.stmts hb.stmts,
    Nat.le_trans h.exprs hb.exprs⟩

variable {x y : WalkM Normalizer Unit} {P Q : WalkState Normalizer → Prop}

theorem Ends.pure (h : Q st) : Ends (Pure.pure ()) st Q := fun _ => ⟨st, rfl, h⟩

theorem Ends.of_exec (hx : exec x st = (.ok (), st')) (h : Q st') : Ends x st Q :=
  fun _ => ⟨st', hx, h⟩

theorem Ends.exact (hx : exec x st = (.ok (), st'))
    (h : st'.scene.program.Addressable → Q st') : Ends x st Q := fun haddr => by
  rw [hx] at haddr
  exact ⟨st', hx, h haddr⟩

/-- A run that ends in some states ends in more. -/
theorem Ends.mono (h : Ends x st P) (hPQ : ∀ st', P st' → Q st') : Ends x st Q := fun haddr => by
  obtain ⟨st', hx, hP⟩ := h haddr
  exact ⟨st', hx, hPQ st' hP⟩

/-- What does the same ends alike. -/
theorem Ends.congr (h : Ends y st Q) (hxy : exec x st = exec y st) : Ends x st Q := by
  rwa [Ends, hxy]

/-- The first part of a sequence has ended well. -/
theorem Ends.step {α : Type} {x : WalkM Normalizer α} {f : α → WalkM Normalizer Unit} {a : α}
    (hx : exec x st = (.ok a, st₁)) (hf : Ends (f a) st₁ Q) : Ends (x >>= f) st Q := by
  unfold Ends
  rw [exec_bind_ok hx]
  exact hf

/-- The first part of a sequence ends well if the program that all of it leaves is addressable,
since what follows does not make the arenas smaller. -/
theorem Ends.on (hx : Ends x st P) (hy : Grows y)
    (haddr : (exec (x >>= fun _ => y) st).2.scene.program.Addressable) :
    ∃ st₁, exec (x >>= fun _ => y) st = exec y st₁ ∧ P st₁ := by
  have hlarger : Larger (exec x st).2.scene (exec (x >>= fun _ => y) st).2.scene := by
    rw [exec_bind]
    match exec x st with
    | (.ok _, st₁) => exact hy st₁
    | (.error _, st₁) => exact Larger.composes.refl st₁.scene
  obtain ⟨st₁, hx, hP⟩ := hx (hlarger.addressable haddr)
  exact ⟨st₁, exec_bind_ok hx, hP⟩

/-- A sequence ends well if what follows does, from where the first part ended. -/
theorem Ends.bind (hx : Ends x st P) (hy : Grows y) (hPQ : ∀ st', P st' → Ends y st' Q) :
    Ends (x >>= fun _ => y) st Q := by
  intro haddr
  obtain ⟨st₁, hexec, hP⟩ := hx.on hy haddr
  rw [hexec] at haddr ⊢
  exact hPQ st₁ hP haddr

end Normalize

end MiddleEnd
