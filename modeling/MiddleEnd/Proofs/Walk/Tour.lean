import MiddleEnd.Proofs.Walk.Survey

/-!
# MiddleEnd.Proofs.Walk.Tour

Walks through trees that stay as they are.  If, at every node of some trees, the hooks accept and
leave the program alone, then the walk ends well, enters each node of the trees, and takes the
state of the pass where the hooks take it, node by node (`Tour.Lawful.ends`).

What the hooks do is described by a `Tour`: what may be assumed of the pass where a node is met
(`At`), and what trees make of its state (`Leads`).  Hooks that only look need no program to be
checked against, but hooks that could write may be toured as well, where there is nothing to do.
-/

namespace MiddleEnd

open MiddleEnd.Tree

/-- Where statements come up in a task, they belong to a node of `Own`. -/
def Task.HeldIn (Own : NodeId → Prop) : Task → Prop
  | .stmt place => Own place.holder
  | .stmts list | .stmtsFrom list _ => Own list.node
  | _ => True

namespace Walk

variable {σ : Type}

/-- The two hooks that are called at a node, where statements are met in a place that belongs to a
node of `Own`. -/
inductive Calls (h : Hooks σ) (p : Program) (Own : NodeId → Prop) :
    NodeId → HookM σ Unit → HookM σ Unit → Prop where
  | module (m : ModuleId) : Calls h p Own (.module m) (pure ()) (pure ())
  | symbol (s : SymbolId) : Calls h p Own (.symbol s) (h.preSymbol s) (h.postSymbol s)
  | stmt {s : StmtId} {place : StmtPlace} (hat : p.stmtAt? place = some s)
      (hown : Own place.holder) : Calls h p Own (.stmt s) (h.preStmt s place) (h.postStmt s)
  | expr {e : ExprId} {place : ExprPlace} (hat : p.exprAt? place = some e) :
      Calls h p Own (.expr e) (h.preExpr e place) (h.postExpr e)

/-- What is known of a pass that tours a program. -/
structure Tour (σ : Type) where
  /-- What holds of the state where a node is met. -/
  At : Around → σ → Prop
  /-- What visits of trees make of the state. -/
  Leads : Around → List Tree → σ → σ → Prop

/-- Visits of trees compose. -/
structure Tour.Lawful (tour : Tour σ) : Prop where
  nil : ∀ a own, tour.Leads a [] own own
  append : ∀ {a ts us x y z}, tour.Leads a ts x y → tour.Leads a us y z →
    tour.Leads a (ts ++ us) x z
  stays : ∀ {a ts x y}, tour.At a x → tour.Leads a ts x y → tour.At a y

/-- At the root of a tree the hooks accept and leave the program alone. -/
def Tour.Welcomes (tour : Tour σ) (h : Hooks σ) (p : Program) (Own : NodeId → Prop) (a : Around)
    (t : Tree) : Prop :=
  ∀ pre post, Calls h p Own t.id pre post → ∀ own, tour.At a own → ∃ own₁,
    exec pre ⟨p, own⟩ = (.ok (), ⟨p, own₁⟩) ∧ tour.At (a.under t.id) own₁ ∧
      ∀ own₂, tour.Leads (a.under t.id) (t.exprs ++ t.symbols ++ t.stmts) own₁ own₂ → ∃ own₃,
        exec post ⟨p, own₂⟩ = (.ok (), ⟨p, own₃⟩) ∧ tour.Leads a [t] own own₃

/-- Trees stand before a walk, and all their nodes welcome it. -/
structure Tour.Meets (tour : Tour σ) (h : Hooks σ) (p : Program) (Own : NodeId → Prop)
    (a : Around) (ts : List Tree) (st : WalkState σ) : Prop where
  program : st.scene.program = p
  bears : p.Bears ts
  nodup : (nodesOf ts).Nodup
  unseen : ∀ n ∈ nodesOf ts, st.trail.seen.contains n = false
  owned : ∀ n ∈ nodesOf ts, Own n
  welcome : ∀ x ∈ placedOf a ts, tour.Welcomes h p Own x.1 x.2
  own : tour.At a st.scene.own

/-- The trees were visited. -/
structure Tour.Visits (tour : Tour σ) (a : Around) (ts : List Tree) (st st' : WalkState σ) :
    Prop where
  through : Through st st' ts
  leads : tour.Leads a ts st.scene.own st'.scene.own

namespace Tour

variable {tour : Tour σ} {h : Hooks σ} {p : Program} {Own : NodeId → Prop} {a : Around}
  {ts us : List Tree} {st st₁ st₂ : WalkState σ}

theorem Visits.nil (hl : tour.Lawful) (a : Around) (st : WalkState σ) : tour.Visits a [] st st :=
  ⟨.refl st, hl.nil a _⟩

/-- Trees are visited one row after the other. -/
theorem Visits.append (hl : tour.Lawful) (h : tour.Visits a ts st st₁)
    (h' : tour.Visits a us st₁ st₂) : tour.Visits a (ts ++ us) st st₂ :=
  ⟨h.through.trans h'.through, hl.append h.leads h'.leads⟩

/-- The first of two rows of trees is met if both are. -/
theorem Meets.left (hm : tour.Meets h p Own a (ts ++ us) st) : tour.Meets h p Own a ts st where
  program := hm.program
  bears := (Program.bears_append.mp hm.bears).1
  nodup := (nodup_append.mp hm.nodup).1
  unseen n hn := hm.unseen n (by rw [nodesOf_append]; exact List.mem_append_left _ hn)
  owned n hn := hm.owned n (by rw [nodesOf_append]; exact List.mem_append_left _ hn)
  welcome x hx := hm.welcome x (by rw [placedOf_append]; exact List.mem_append_left _ hx)
  own := hm.own

theorem Meets.head {t : Tree} (hm : tour.Meets h p Own a (t :: ts) st) :
    tour.Meets h p Own a [t] st :=
  @Meets.left _ tour h p Own a [t] ts st hm

/-- The trees after those that were visited are met next. -/
theorem Meets.right (hl : tour.Lawful) (hm : tour.Meets h p Own a (ts ++ us) st)
    (hv : tour.Visits a ts st st₁) : tour.Meets h p Own a us st₁ where
  program := hv.through.program.trans hm.program
  bears := (Program.bears_append.mp hm.bears).2
  nodup := (nodup_append.mp hm.nodup).2.1
  unseen n hn := by
    rw [hv.through.seen, hm.unseen n (by rw [nodesOf_append]; exact List.mem_append_right _ hn),
      Bool.or_false, decide_eq_false_iff_not]
    exact fun hts => (nodup_append.mp hm.nodup).2.2 n hts hn
  owned n hn := hm.owned n (by rw [nodesOf_append]; exact List.mem_append_right _ hn)
  welcome x hx := hm.welcome x (by rw [placedOf_append]; exact List.mem_append_right _ hx)
  own := hl.stays hm.own hv.leads

/-- A node is entered, what is below it is met next, and after that the node was visited. -/
theorem Meets.enter {n : NodeId} {l : Label} {es ss ts : List Tree} {pre post : HookM σ Unit}
    (hm : tour.Meets h p Own a [.node n l es ss ts] st) (hcalls : Calls h p Own n pre post) :
    ∃ st₀ st₁, exec (Walk.enter h n) st = (.ok (), st₀) ∧ exec (call h n pre) st₀ = (.ok (), st₁) ∧
      st₁.trail.seen.room < st.trail.seen.room ∧
      tour.Meets h p Own (a.under n) (es ++ ss ++ ts) st₁ ∧
      ∀ st₂, tour.Visits (a.under n) (es ++ ss ++ ts) st₁ st₂ → ∃ st₃ st₄,
        exec (call h n post) st₂ = (.ok (), st₃) ∧ exec (leave n) st₃ = (.ok (), st₄) ∧
          tour.Visits a [.node n l es ss ts] st st₄ := by
  have hhas : st.scene.program.has n = true := by
    rw [hm.program]
    exact hm.bears.has (by simp)
  have henter := exec_enter_ok (h := h) hhas (hm.unseen n (by simp))
  have hwelcome : tour.Welcomes h p Own a (.node n l es ss ts) := hm.welcome (a, _) (by simp)
  obtain ⟨own₁, hpre, hown₁, hpost⟩ := hwelcome pre post hcalls _ hm.own
  rw [← hm.program] at hpre
  generalize hst₁ : ({ trail := ⟨n :: st.trail.path, st.trail.seen.insert n,
    st.trail.tally.count n.step⟩, scene := ⟨st.scene.program, own₁⟩ } : WalkState σ) = st₁
  have hcall : exec (call h n pre) { st with trail :=
      ⟨n :: st.trail.path, st.trail.seen.insert n, st.trail.tally.count n.step⟩ } =
      (.ok (), st₁) := hst₁ ▸ exec_call_ok hpre
  have hseen₁ : st₁.trail.seen = st.trail.seen.insert n := by rw [← hst₁]
  have hnodup := nodup_node.mp hm.nodup
  obtain ⟨_, hes, hss, hts⟩ := Program.bears_node.mp hm.bears
  have hnodes : nodesOf [.node n l es ss ts] = n :: nodesOf (es ++ ss ++ ts) := by
    simp [nodesOf_append]
  have hbelow : tour.Meets h p Own (a.under n) (es ++ ss ++ ts) st₁ := by
    refine ⟨?_, ?_, hnodup.2, fun m hm' => ?_, fun m hm' => ?_, fun x hx => ?_, ?_⟩
    · rw [← hst₁, hm.program]
    · exact Program.bears_append.mpr ⟨Program.bears_append.mpr ⟨hes, hss⟩, hts⟩
    · have hne : m ≠ n := fun he => hnodup.1 (he ▸ hm')
      rw [hseen₁, NodeSet.contains_insert, hm.unseen m (by rw [hnodes]; exact .tail _ hm')]
      simpa using hne
    · exact hm.owned m (by rw [hnodes]; exact .tail _ hm')
    · refine hm.welcome x ?_
      rw [placedOf_append, placedOf_append] at hx
      simpa using Or.inr hx
    · rw [← hst₁]
      exact hown₁
  have hroom : st₁.trail.seen.room < st.trail.seen.room := by
    rw [hseen₁]
    exact NodeSet.room_insert_lt (hm.unseen n (by simp))
  refine ⟨_, st₁, henter, hcall, hroom, hbelow, fun st₂ hvisits => ?_⟩
  have hleads := hvisits.leads
  rw [← hst₁] at hleads
  obtain ⟨own₃, hpost, hown₃⟩ := hpost _ hleads
  have hprogram₂ : st₂.scene.program = p := hvisits.through.program.trans hbelow.program
  rw [← hprogram₂] at hpost
  have hcell : st.scene.program.cell? n = some (Tree.node n l es ss ts).cell :=
    hm.program ▸ hm.bears.cell List.mem_cons_self
  have hthrough : Through { st with trail :=
      ⟨n :: st.trail.path, st.trail.seen.insert n, st.trail.tally.count n.step⟩ } st₂
      (es ++ ss ++ ts) := hvisits.through.congr hseen₁.symm (by rw [← hst₁]) rfl rfl
  exact ⟨_, ⟨st₂.trail.leave n, ⟨st₂.scene.program, own₃⟩⟩, exec_call_ok hpost, rfl,
    (Through.node henter hcell hthrough rfl rfl rfl).congr rfl rfl rfl rfl, hown₃⟩

/-- Statements held in places are visited if each of them is. -/
theorem Meets.places (hl : tour.Lawful) {rest : Task → WalkM σ Unit} :
    ∀ {places : List StmtPlace} {ts : List Tree} {st : WalkState σ},
      tour.Meets h p Own a ts st → ts.map Tree.id = (places.filterMap p.stmtAt?).map .stmt →
      (∀ place ∈ places, ∀ (ts : List Tree) (st₁ : WalkState σ),
        st₁.trail.seen.room ≤ st.trail.seen.room → tour.Meets h p Own a ts st₁ →
        p.Due (.stmt place) (ts.map Tree.id) →
        ∃ st₂, exec (rest (.stmt place)) st₁ = (.ok (), st₂) ∧ tour.Visits a ts st₁ st₂) →
      ∃ st', exec (places.forM fun place => rest (.stmt place)) st = (.ok (), st') ∧
        tour.Visits a ts st st'
  | [], ts, st, _, hroots, _ => by
    obtain rfl : ts = [] := by simpa using hroots
    exact ⟨st, rfl, .nil hl a st⟩
  | place :: places, ts, st, hm, hroots, hrest => by
    obtain ⟨us, vs, rfl, hus, hvs⟩ : ∃ us vs, ts = us ++ vs ∧
        us.map Tree.id = (p.stmtAt? place).toList.map .stmt ∧
        vs.map Tree.id = (places.filterMap p.stmtAt?).map .stmt := by
      have hsplit : (place :: places).filterMap p.stmtAt? =
          (p.stmtAt? place).toList ++ places.filterMap p.stmtAt? := by
        cases hs : p.stmtAt? place <;> simp [hs]
      rw [hsplit, List.map_append] at hroots
      exact List.map_eq_append_iff.mp hroots
    obtain ⟨st₁, h₁, hvisits₁⟩ :=
      hrest place List.mem_cons_self us st (Nat.le_refl _) hm.left hus
    obtain ⟨st₂, h₂, hvisits₂⟩ := Meets.places hl (hm.right hl hvisits₁) hvs
      fun place' hplace ts st₁ hroom => hrest place' (List.mem_cons_of_mem place hplace) ts st₁
        (Nat.le_trans hroom hvisits₁.through.room_le)
    exact ⟨st₂, (exec_bind_ok h₁).trans h₂, hvisits₁.append hl hvisits₂⟩

/-- What a statement owns is visited if every task is. -/
theorem Meets.inside (hl : tour.Lawful) {rest : Task → WalkM σ Unit} {s : StmtId} {l : Label}
    {es ss ts : List Tree} (hm : tour.Meets h p Own a (es ++ ss ++ ts) st) (hs : Own (.stmt s))
    (hc : p.cell? (.stmt s) = some (Tree.node (.stmt s) l es ss ts).cell)
    (hrest : ∀ (task : Task) (ts : List Tree) (st₁ : WalkState σ),
      st₁.trail.seen.room ≤ st.trail.seen.room → tour.Meets h p Own a ts st₁ →
      p.Due task (ts.map Tree.id) → task.HeldIn Own →
      ∃ st₂, exec (rest task) st₁ = (.ok (), st₂) ∧ tour.Visits a ts st₁ st₂) :
    ∃ st', exec (Walk.inside rest s) st = (.ok (), st') ∧
      tour.Visits a (es ++ ss ++ ts) st st' := by
  obtain ⟨st₁, h₁, hvisits₁⟩ := hrest (.operandsFrom (.stmt s) 0) es st (Nat.le_refl _)
    hm.left.left (Program.exprs_of_cell? (.stmt s) hc) trivial
  have hm₁ : tour.Meets h p Own a (ss ++ ts) st₁ := by
    rw [List.append_assoc] at hm
    exact hm.right hl hvisits₁
  have hroom₁ := hvisits₁.through.room_le
  have hdeclared : ∃ st₂, exec (throughDeclared rest s) st₁ = (.ok (), st₂) ∧
      tour.Visits a ss st₁ st₂ := by
    have hss := Program.declared_of_cell? hc
    rw [throughDeclared, exec_bind_ok (exec_program st₁), hm₁.program]
    cases hd : p.declared? s with
    | none =>
      obtain rfl : ss = [] := by simpa [hd] using hss
      exact ⟨st₁, rfl, .nil hl a st₁⟩
    | some y =>
      rw [hd] at hss
      exact hrest (.symbol y) ss st₁ hroom₁ hm₁.left hss trivial
  obtain ⟨st₂, h₂, hvisits₂⟩ := hdeclared
  have hm₂ := hm₁.right hl hvisits₂
  have hroom₂ := Nat.le_trans hvisits₂.through.room_le hroom₁
  have hchildren : ∃ st₃, exec (throughChildren rest s) st₂ = (.ok (), st₃) ∧
      tour.Visits a ts st₂ st₃ := by
    have hts := Program.held_of_cell? hc
    obtain ⟨head, line, hlabel⟩ := Program.exists_stmt_label hc
    have hwhich := Program.children_of_cell? hc hlabel
    rw [Program.heldStmts] at hts
    rw [throughChildren, exec_bind_ok (exec_program st₂), hm₂.program, hwhich]
    rw [hwhich] at hts
    by_cases hblock : head = .block
    · rw [if_pos hblock] at hts ⊢
      exact hrest (.stmts (.block s)) ts st₂ hroom₂ hm₂ hts hs
    · rw [if_neg hblock] at hts ⊢
      by_cases hb : head.branches = []
      · rw [if_pos hb] at hts ⊢
        obtain rfl : ts = [] := by simpa using hts
        exact ⟨st₂, rfl, .nil hl a st₂⟩
      · rw [if_neg hb] at hts ⊢
        refine hm₂.places hl hts fun place hplace us st₃ hroom hm₃ hdue => ?_
        obtain ⟨which, _, rfl⟩ := List.mem_map.mp hplace
        exact hrest _ us st₃ (Nat.le_trans hroom hroom₂) hm₃ hdue hs
  obtain ⟨st₃, h₃, hvisits₃⟩ := hchildren
  exact ⟨st₃, by rw [Walk.inside, exec_bind_ok h₁, exec_bind_ok h₂, h₃],
    (hvisits₁.append hl hvisits₂).append hl hvisits₃⟩

/-- Wherever trees that a task is about are met, the task ends well and the trees were visited. -/
def Ends (tour : Tour σ) (h : Hooks σ) (p : Program) (Own : NodeId → Prop) (task : Task)
    (st : WalkState σ) : Prop :=
  ∀ a ts, tour.Meets h p Own a ts st → p.Due task (ts.map Tree.id) → task.HeldIn Own →
    ∃ st', exec (run h task) st = (.ok (), st') ∧ tour.Visits a ts st st'

/-- A module is visited with its trees. -/
theorem ends_module {m : ModuleId} (ih : Below (tour.Ends h p Own) (.module m) st) :
    tour.Ends h p Own (.module m) st := by
  intro a ts hm hdue _
  obtain ⟨l, ss, rfl, hc⟩ := hm.bears.module_root hdue
  obtain ⟨st₀, st₁, henter, hpre, hroom, hm₁, hleave⟩ := hm.enter (.module m)
  rw [List.nil_append, List.append_nil] at hm₁
  obtain ⟨st₂, h₂, hvisits₂⟩ := ih.later (t := .symbols (.module m)) hroom _ ss hm₁
    (Program.symbols_of_cell? (.module m) hc) trivial
  obtain ⟨st₃, st₄, hpost, h₄, hvisits₄⟩ := hleave st₂ (by simpa using hvisits₂)
  cases hpre
  cases hpost
  exact ⟨st₄, by rw [run_eq, visit, exec_bind_ok henter, exec_bind_ok h₂, h₄], hvisits₄⟩

/-- A symbol is visited with its trees. -/
theorem ends_symbol (hlaw : tour.Lawful) {s : SymbolId}
    (ih : Below (tour.Ends h p Own) (.symbol s) st) : tour.Ends h p Own (.symbol s) st := by
  intro a ts hm hdue _
  obtain ⟨l, ss, us, rfl, hc, hfits⟩ := hm.bears.symbol_root hdue
  obtain ⟨st₀, st₁, henter, hpre, hroom, hm₁, hleave⟩ := hm.enter (.symbol s)
  rw [List.nil_append] at hm₁
  obtain ⟨st₂, h₂, hvisits₂⟩ := ih.later (t := .symbols (.symbol s)) hroom _ ss hm₁.left
    (Program.symbols_of_cell? (.symbol s) hc) trivial
  have hm₂ := hm₁.right hlaw hvisits₂
  obtain ⟨st₃, h₃, hvisits₃⟩ := ih.later (t := .stmts (.body s))
    (Nat.lt_of_le_of_lt hvisits₂.through.room_le hroom) _ us hm₂
    (Program.stmts_of_cell? (.body s) hc hfits) (hm.owned (.symbol s) (by simp))
  obtain ⟨st₄, st₅, hpost, h₅, hvisits₅⟩ := hleave st₃ (hvisits₂.append hlaw hvisits₃)
  exact ⟨st₅, by rw [run_eq, visit, exec_bind_ok henter, exec_bind_ok hpre, exec_bind_ok h₂,
    exec_bind_ok h₃, exec_bind_ok hpost, h₅], hvisits₅⟩

/-- A statement is visited with its trees. -/
theorem ends_stmt (hlaw : tour.Lawful) {place : StmtPlace}
    (ih : Below (tour.Ends h p Own) (.stmt place) st) : tour.Ends h p Own (.stmt place) st := by
  intro a ts hm hdue hheld
  rw [run_eq, visit_stmt, exec_bind_ok (exec_program st), hm.program]
  cases hs : p.stmtAt? place with
  | none =>
    obtain rfl : ts = [] := by simpa [Program.Due, hs] using hdue
    exact ⟨st, rfl, .nil hlaw a st⟩
  | some s =>
    rw [Program.Due, hs] at hdue
    obtain ⟨l, es, ss, us, rfl, hc⟩ := hm.bears.root hdue
    obtain ⟨st₀, st₁, henter, hpre, hroom, hm₁, hleave⟩ := hm.enter (.stmt hs hheld)
    obtain ⟨st₂, h₂, hvisits₂⟩ := hm₁.inside hlaw (hm.owned _ (by simp)) hc
      fun task us st₂ hle => ih.later (Nat.lt_of_le_of_lt hle hroom) _ us
    obtain ⟨st₃, st₄, hpost, h₄, hvisits₄⟩ := hleave st₂ hvisits₂
    exact ⟨st₄, by rw [exec_bind_ok henter, exec_bind_ok hpre, exec_bind_ok h₂,
      exec_bind_ok hpost, h₄], hvisits₄⟩

/-- An expression is visited with its trees. -/
theorem ends_expr (hlaw : tour.Lawful) {place : ExprPlace}
    (ih : Below (tour.Ends h p Own) (.expr place) st) : tour.Ends h p Own (.expr place) st := by
  intro a ts hm hdue _
  rw [run_eq, visit, exec_bind_ok (exec_program st), hm.program]
  cases he : p.exprAt? place with
  | none =>
    obtain rfl : ts = [] := by simpa [Program.Due, he] using hdue
    exact ⟨st, rfl, .nil hlaw a st⟩
  | some e =>
    rw [Program.Due, he] at hdue
    obtain ⟨l, es, rfl, hc⟩ := hm.bears.expr_root hdue
    obtain ⟨st₀, st₁, henter, hpre, hroom, hm₁, hleave⟩ := hm.enter (.expr he)
    rw [List.append_nil, List.append_nil] at hm₁
    obtain ⟨st₂, h₂, hvisits₂⟩ := ih.later (t := .operandsFrom (.expr e) 0) hroom _ es hm₁
      (Program.exprs_of_cell? (.expr e) hc) trivial
    obtain ⟨st₃, st₄, hpost, h₄, hvisits₄⟩ := hleave st₂ (by simpa using hvisits₂)
    refine ⟨st₄, ?_, hvisits₄⟩
    rw [exec_bind_ok henter, exec_bind_ok hpre, exec_bind_ok (exec_program st₁), hm₁.program, he]
    simp only [if_true]
    rw [exec_bind_ok h₂, exec_bind_ok hpost, h₄]

theorem ends_symbols {list : SymbolList} (ih : Below (tour.Ends h p Own) (.symbols list) st) :
    tour.Ends h p Own (.symbols list) st := by
  intro a ts hm hdue _
  have hnodup : (p.symbolsIn list).Nodup := by
    have hroots := nodup_roots hm.nodup
    rw [show ts.map Tree.id = _ from hdue] at hroots
    exact List.Nodup.of_map _ hroots
  rw [exec_symbols (hm.program ▸ hnodup)]
  exact ih.lighter (t := .symbolsFrom list .start) (by simp [Task.weight]) a ts hm
    ⟨[], _, rfl, hnodup, Cursor.splits_start _, hdue⟩ trivial

/-- Symbols are visited from where the cursor stands. -/
theorem ends_symbolsFrom (hlaw : tour.Lawful) {list : SymbolList} {cursor : Cursor SymbolId}
    (ih : Below (tour.Ends h p Own) (.symbolsFrom list cursor) st) :
    tour.Ends h p Own (.symbolsFrom list cursor) st := by
  rintro a ts hm ⟨done, todo, hlist, hnodup, hsplits, hroots⟩ _
  cases todo with
  | nil =>
    obtain rfl : ts = [] := by simpa using hroots
    exact ⟨st, exec_symbolsFrom_nil (hm.program ▸ hlist) hsplits, .nil hlaw a st⟩
  | cons s rest =>
    obtain ⟨t, us, rfl, hid, hus⟩ := List.map_eq_cons_iff.mp hroots
    rw [exec_symbolsFrom_cons (hm.program ▸ hlist) hsplits.next]
    obtain ⟨st₁, h₁, hvisits₁⟩ := ih.lighter (t := .symbol s) (by simp [Task.weight]) a [t] hm.head
      (by simp [Program.Due, hid]) trivial
    have hs : s ∉ rest := (List.nodup_cons.mp (List.nodup_append.mp hnodup).2.1).1
    obtain ⟨st₂, h₂, hvisits₂⟩ := ih.later (t := .symbolsFrom list _)
      (room_lt_of_walk (.symbol s) trivial h₁) a us (hm.right hlaw hvisits₁)
      ⟨done ++ [s], rest, by rw [hlist, List.append_assoc]; rfl, by simpa using hnodup,
        hsplits.keep hs, hus⟩ trivial
    exact ⟨st₂, (exec_bind_ok h₁).trans h₂, hvisits₁.append hlaw hvisits₂⟩

theorem ends_stmts {list : StmtList} (ih : Below (tour.Ends h p Own) (.stmts list) st) :
    tour.Ends h p Own (.stmts list) st := by
  intro a ts hm hdue hheld
  have hnodup : (p.stmtsIn list).Nodup := by
    have hroots := nodup_roots hm.nodup
    rw [show ts.map Tree.id = _ from hdue] at hroots
    exact List.Nodup.of_map _ hroots
  rw [exec_stmts (hm.program ▸ hnodup)]
  exact ih.lighter (t := .stmtsFrom list .start) (by simp [Task.weight]) a ts hm
    ⟨[], _, rfl, hnodup, Cursor.splits_start _, hdue⟩ hheld

/-- Statements are visited from where the cursor stands. -/
theorem ends_stmtsFrom (hlaw : tour.Lawful) {list : StmtList} {cursor : Cursor StmtId}
    (ih : Below (tour.Ends h p Own) (.stmtsFrom list cursor) st) :
    tour.Ends h p Own (.stmtsFrom list cursor) st := by
  rintro a ts hm ⟨done, todo, hlist, hnodup, hsplits, hroots⟩ hheld
  cases todo with
  | nil =>
    obtain rfl : ts = [] := by simpa using hroots
    exact ⟨st, exec_stmtsFrom_nil (hm.program ▸ hlist) hsplits, .nil hlaw a st⟩
  | cons s rest =>
    obtain ⟨t, us, rfl, hid, hus⟩ := List.map_eq_cons_iff.mp hroots
    have hat := stmtAt?_of_stmtsIn hlist
    rw [exec_stmtsFrom_cons (hm.program ▸ hlist) hsplits.next]
    obtain ⟨st₁, h₁, hvisits₁⟩ := ih.lighter (t := .stmt (.entry list done.length))
      (by simp [Task.weight]) a [t] hm.head (by simp [Program.Due, hid, hat]) hheld
    have hs : s ∉ rest := (List.nodup_cons.mp (List.nodup_append.mp hnodup).2.1).1
    obtain ⟨st₂, h₂, hvisits₂⟩ := ih.later (t := .stmtsFrom list _)
      (room_lt_of_entry (hm.program ▸ hat) h₁) a us (hm.right hlaw hvisits₁)
      ⟨done ++ [s], rest, by rw [hlist, List.append_assoc]; rfl, by simpa using hnodup,
        hsplits.keep hs, hus⟩ hheld
    exact ⟨st₂, (exec_bind_ok h₁).trans h₂, hvisits₁.append hlaw hvisits₂⟩

/-- Operands are visited from an index on. -/
theorem ends_operandsFrom (hlaw : tour.Lawful) {owner : ExprOwner} {i : Nat}
    (ih : Below (tour.Ends h p Own) (.operandsFrom owner i) st) :
    tour.Ends h p Own (.operandsFrom owner i) st := by
  intro a ts hm hdue _
  by_cases hi : i < (p.operands owner).length
  · rw [Program.Due, List.drop_eq_getElem_cons hi] at hdue
    obtain ⟨t, us, rfl, hid, hus⟩ := List.map_eq_cons_iff.mp hdue
    have hat : p.exprAt? ⟨owner, i⟩ = some (p.operands owner)[i] := List.getElem?_eq_getElem hi
    rw [exec_operandsFrom_lt (by rwa [hm.program])]
    obtain ⟨st₁, h₁, hvisits₁⟩ := ih.lighter (t := .expr ⟨owner, i⟩) (by simp [Task.weight])
      a [t] hm.head (by simp [Program.Due, hid, hat]) trivial
    obtain ⟨st₂, h₂, hvisits₂⟩ := ih.later (t := .operandsFrom owner (i + 1))
      (room_lt_of_operand (by rw [hm.program, hat]) h₁) a us (hm.right hlaw hvisits₁) hus trivial
    exact ⟨st₂, (exec_bind_ok h₁).trans h₂, hvisits₁.append hlaw hvisits₂⟩
  · rw [Program.Due, List.drop_eq_nil_of_le (by omega)] at hdue
    obtain rfl : ts = [] := by simpa using hdue
    exact ⟨st, exec_operandsFrom_ge (by rwa [hm.program]), .nil hlaw a st⟩

/-- A walk through trees that welcome it ends well. -/
theorem Lawful.ends (hlaw : tour.Lawful) (task : Task) (st : WalkState σ) :
    tour.Ends h p Own task st := by
  induction task, st using task_induction with
  | step task st ih =>
  cases task with
  | module m => exact ends_module ih
  | symbol s => exact ends_symbol hlaw ih
  | stmt place => exact ends_stmt hlaw ih
  | expr place => exact ends_expr hlaw ih
  | symbols list => exact ends_symbols ih
  | symbolsFrom list cursor => exact ends_symbolsFrom hlaw ih
  | stmts list => exact ends_stmts ih
  | stmtsFrom list cursor => exact ends_stmtsFrom hlaw ih
  | operandsFrom owner i => exact ends_operandsFrom hlaw ih

end Tour

end Walk

end MiddleEnd
