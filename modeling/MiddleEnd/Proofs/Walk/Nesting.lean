import Mathlib.Data.List.Nodup
import MiddleEnd.Proofs.Walk.Log

/-!
# MiddleEnd.Proofs.Walk.Nesting

Events that nest.  `nest` keeps a stack: the first hook of a node puts the node on it, if the visit
goes on, and the last hook takes the node from it, which must be on top.  Events that pass, and that
begin no node twice, have what one asks of a walk: every last hook has its first hook before it
(`Nests.opened_before`), what was opened inside of a node has ended before it
(`Nests.ended_inside`), and where the stack is empty at the end, everything that was opened has
ended (`Nests.ended_after`).
-/

namespace MiddleEnd

variable {σ : Type}

namespace Call

/-- The first hook of an expression was told of a place that no longer holds the expression. -/
def DroppedIn (c : Call) (p : Program) : Prop :=
  match c with
  | preExpr e place => p.exprAt? place ≠ some e
  | _ => False

instance : (c : Call) → (p : Program) → Decidable (c.DroppedIn p)
  | preExpr e place, p => inferInstanceAs (Decidable (p.exprAt? place ≠ some e))
  | preSymbol _, _ | postSymbol _, _ | preStmt _ _, _ | postStmt _, _ | postExpr _, _ =>
    inferInstanceAs (Decidable False)

end Call

namespace Event

/-- The node that the hook was called at. -/
def node (e : Event σ) : NodeId := e.call.node

/-- The expression was no longer in its place after its first hook. -/
def Dropped (e : Event σ) : Prop := e.call.DroppedIn e.scene.program

instance (e : Event σ) : Decidable e.Dropped := inferInstanceAs (Decidable (e.call.DroppedIn _))

/-- The first hook of a node was called. -/
def Begins (e : Event σ) : Prop := e.call.isPre = true

/-- The first hook of a node was called and accepted, and the visit of the node goes on. -/
def Opens (e : Event σ) : Prop := e.Begins ∧ e.accepted = true ∧ ¬ e.Dropped

/-- The last hook of a node was called. -/
def Ends (e : Event σ) : Prop := e.call.isPre = false

instance (e : Event σ) : Decidable e.Begins := inferInstanceAs (Decidable (_ = _))

instance (e : Event σ) : Decidable e.Opens := inferInstanceAs (Decidable (_ ∧ _ ∧ _))

instance (e : Event σ) : Decidable e.Ends := inferInstanceAs (Decidable (_ = _))

/-- No call is the first and the last. -/
theorem Begins.not_ends {e : Event σ} (h : e.Begins) : ¬ e.Ends := by
  simp_all [Begins, Ends]

end Event

/-- The nodes that were begun. -/
def begun (es : List (Event σ)) : List NodeId := (es.filter (·.Begins)).map Event.node

/-- The nodes whose visit went on after the first hook. -/
def opened (es : List (Event σ)) : List NodeId := (es.filter (·.Opens)).map Event.node

/-- The nodes that were ended. -/
def ended (es : List (Event σ)) : List NodeId := (es.filter (·.Ends)).map Event.node

/-- The visits that go on after an event, innermost first; `none` if a visit was ended that was not
the innermost. -/
def Event.move (stack : List NodeId) (e : Event σ) : Option (List NodeId) :=
  if e.Opens then some (e.node :: stack)
  else if e.Begins then some stack
  else if stack.head? = some e.node then some stack.tail
  else none

/-- The visits that go on after some events. -/
def nest (stack : List NodeId) (es : List (Event σ)) : Option (List NodeId) :=
  es.foldlM Event.move stack

section

variable {es fs : List (Event σ)} {stack : List NodeId} {e f : Event σ} {n m : NodeId}

theorem begun_append : begun (es ++ fs) = begun es ++ begun fs := by
  simp [begun, List.filter_append]

theorem ended_append : ended (es ++ fs) = ended es ++ ended fs := by
  simp [ended, List.filter_append]

/-- A node was begun if its first hook was called. -/
theorem mem_begun : n ∈ begun es ↔ ∃ e ∈ es, e.Begins ∧ e.node = n := by
  simp [begun, and_assoc]

/-- A node was opened if the visit went on after its first hook. -/
theorem mem_opened : n ∈ opened es ↔ ∃ e ∈ es, e.Opens ∧ e.node = n := by
  simp [opened, and_assoc]

/-- A node was ended if its last hook was called. -/
theorem mem_ended : n ∈ ended es ↔ ∃ e ∈ es, e.Ends ∧ e.node = n := by
  simp [ended, and_assoc]

/-- Opened nodes were begun, in the same order. -/
theorem opened_sublist : (opened es).Sublist (begun es) := by
  refine List.Sublist.map _ (List.monotone_filter_right es fun e he => ?_)
  simp only [decide_eq_true_eq] at he ⊢
  exact he.1

/-- Events nest from where those before them left off. -/
theorem nest_append (es fs : List (Event σ)) (stack : List NodeId) :
    nest stack (es ++ fs) = (nest stack es).bind fun stack => nest stack fs := List.foldlM_append

theorem nest_cons : nest stack (e :: es) = (e.move stack).bind fun stack => nest stack es :=
  List.foldlM_cons

/-- A visit that goes on becomes the innermost. -/
theorem nest_opens (h : e.Opens) : nest stack (e :: es) = nest (e.node :: stack) es := by
  rw [nest_cons, Event.move, if_pos h, Option.bind_some]

/-- A visit that does not go on leaves the others. -/
theorem nest_begins (h : e.Begins) (h' : ¬ e.Opens) : nest stack (e :: es) = nest stack es := by
  rw [nest_cons, Event.move, if_neg h', if_pos h, Option.bind_some]

theorem Event.Ends.not_begins (h : e.Ends) : ¬ e.Begins := fun hb => hb.not_ends h

/-- The innermost visit may be ended. -/
theorem nest_ends (h : e.Ends) : nest (e.node :: stack) (e :: es) = nest stack es := by
  rw [nest_cons, Event.move, if_neg fun ho => h.not_begins ho.1, if_neg h.not_begins,
    if_pos (by rfl), Option.bind_some, List.tail_cons]

/-- An event by which a visit ends takes the innermost one. -/
theorem of_nest_ends {top : List NodeId} (h : e.Ends) (hn : nest stack (e :: es) = some top) :
    ∃ rest, stack = e.node :: rest ∧ nest rest es = some top := by
  rw [nest_cons, Event.move, if_neg fun ho => h.not_begins ho.1, if_neg h.not_begins] at hn
  by_cases hhead : stack.head? = some e.node
  · rw [if_pos hhead, Option.bind_some] at hn
    exact ⟨stack.tail, (List.eq_cons_of_mem_head? hhead), hn⟩
  · rw [if_neg hhead] at hn
    cases hn

/-- What ended and what goes on is what was opened and what went on before. -/
theorem nest_perm {top : List NodeId} (h : nest stack es = some top) :
    (ended es ++ top).Perm (opened es ++ stack) := by
  induction es generalizing stack with
  | nil =>
    obtain rfl := Option.some.inj h
    exact .refl _
  | cons e es ih =>
    by_cases ho : e.Opens
    · rw [nest_opens ho] at h
      have hended : ended (e :: es) = ended es := by
        have := ho.1.not_ends
        simp [ended, this]
      have hopened : opened (e :: es) = e.node :: opened es := by simp [opened, ho]
      rw [hended, hopened]
      exact (ih h).trans List.perm_middle
    · by_cases hb : e.Begins
      · rw [nest_begins hb ho] at h
        have hended : ended (e :: es) = ended es := by
          have := hb.not_ends
          simp [ended, this]
        have hopened : opened (e :: es) = opened es := by simp [opened, ho]
        rw [hended, hopened]
        exact ih h
      · have he : e.Ends := by simpa [Event.Begins, Event.Ends] using hb
        obtain ⟨rest, rfl, hrest⟩ := of_nest_ends he h
        have hended : ended (e :: es) = e.node :: ended es := by simp [ended, he]
        have hopened : opened (e :: es) = opened es := by simp [opened, ho]
        rw [hended, hopened]
        exact ((ih hrest).cons e.node).trans List.perm_middle.symm

/-- A visit that does not end goes on, and so do those around it. -/
theorem nest_keeps {above below top : List NodeId} (h : nest (above ++ n :: below) es = some top)
    (hn : n ∉ ended es) : ∃ above', top = above' ++ n :: below := by
  induction es generalizing above with
  | nil =>
    exact ⟨above, (Option.some.inj h).symm⟩
  | cons e es ih =>
    have htail : n ∉ ended es := fun hmem => by
      obtain ⟨f, hf, hends⟩ := mem_ended.mp hmem
      exact hn (mem_ended.mpr ⟨f, List.mem_cons_of_mem e hf, hends⟩)
    by_cases ho : e.Opens
    · rw [nest_opens ho, ← List.cons_append] at h
      exact ih h htail
    · by_cases hb : e.Begins
      · rw [nest_begins hb ho] at h
        exact ih h htail
      · have he : e.Ends := by simpa [Event.Begins, Event.Ends] using hb
        obtain ⟨rest, hrest, h⟩ := of_nest_ends he h
        cases above with
        | nil =>
          obtain ⟨hne, _⟩ := List.cons.inj hrest
          exact absurd (mem_ended.mpr ⟨e, List.mem_cons_self, he, hne.symm⟩) hn
        | cons m above =>
          obtain ⟨_, rfl⟩ := List.cons.inj hrest
          exact ih h htail

/-- A visit that was not ended still goes on, with those around it. -/
theorem nest_keeps_top {below top : List NodeId} (h : nest (n :: below) es = some top)
    (hn : n ∉ ended es) : ∃ above, top = above ++ n :: below := by
  rw [← List.nil_append (n :: below)] at h
  exact nest_keeps h hn

/-! ## Nested events -/

/-- What is known of the events of a walk that began outside of all nodes. -/
structure Nests (es : List (Event σ)) (top : List NodeId) : Prop where
  nest : nest [] es = some top
  nodup : (begun es).Nodup

namespace Nests

variable {top : List NodeId} {before after xs ys zs ws : List (Event σ)} {g : Event σ}

/-- The opened nodes are those that were ended and those that still are visited. -/
theorem perm (h : Nests es top) : (ended es ++ top).Perm (opened es) := by
  simpa using nest_perm h.nest

/-- No node was opened twice. -/
theorem nodup_opened (h : Nests es top) : (opened es).Nodup := h.nodup.sublist opened_sublist

/-- No visit ends twice. -/
theorem nodup_ended (h : Nests es top) : (ended es).Nodup :=
  (List.nodup_append.mp (h.perm.nodup_iff.mpr h.nodup_opened)).1

/-- What ended was begun. -/
theorem ended_subset (h : Nests es top) : ended es ⊆ begun es := fun _ hn =>
  opened_sublist.subset (h.perm.subset (List.mem_append_left _ hn))

/-- The events up to one of them nest as well. -/
theorem left (h : Nests (es ++ fs) top) :
    ∃ mid, Nests es mid ∧ MiddleEnd.nest mid fs = some top := by
  have hnest := h.nest
  rw [nest_append, Option.bind_eq_some_iff] at hnest
  obtain ⟨mid, hmid, hrest⟩ := hnest
  have hnodup := h.nodup
  rw [begun_append] at hnodup
  exact ⟨mid, ⟨hmid, (List.nodup_append.mp hnodup).1⟩, hrest⟩

/-- A visit that ends was opened before. -/
theorem opened_before (h : Nests (before ++ e :: after) top) (he : e.Ends) :
    ∃ f ∈ before, f.Opens ∧ f.node = e.node := by
  obtain ⟨mid, hbefore, hnest⟩ := h.left
  obtain ⟨rest, rfl, _⟩ := of_nest_ends he hnest
  exact mem_opened.mp (hbefore.perm.subset (List.mem_append_right _ List.mem_cons_self))

/-- A node that is begun and ends was opened where it was begun. -/
theorem opens (h : Nests (xs ++ e :: ys) top) (he : e.Begins) (hend : e.node ∈ ended ys) :
    e.Opens := by
  by_contra ho
  have hopened : e.node ∈ opened (xs ++ e :: ys) := by
    refine h.perm.subset (List.mem_append_left _ ?_)
    rw [ended_append]
    obtain ⟨f, hf, hends⟩ := mem_ended.mp hend
    exact List.mem_append_right _ (mem_ended.mpr ⟨f, List.mem_cons_of_mem e hf, hends⟩)
  obtain ⟨f, hf, hfo, hnode⟩ := mem_opened.mp hopened
  -- then it was begun a second time
  have hother : f ∈ xs ∨ f ∈ ys := by
    rcases List.mem_append.mp hf with hf | hf
    · exact .inl hf
    · rcases List.mem_cons.mp hf with rfl | hf
      · exact absurd hfo ho
      · exact .inr hf
  have hnodup := h.nodup
  have hcons : begun (e :: ys) = e.node :: begun ys := by simp [begun, he]
  rw [begun_append, hcons, List.nodup_middle, List.nodup_cons, List.mem_append] at hnodup
  exact hnodup.1 (hother.imp (fun hf => mem_begun.mpr ⟨f, hf, hfo.1, hnode⟩)
    fun hf => mem_begun.mpr ⟨f, hf, hfo.1, hnode⟩)

/-- What was opened after a node was begun has ended before the node ends. -/
theorem ended_inside (h : Nests (xs ++ e :: ys ++ g :: zs ++ f :: ws) top) (he : e.Begins)
    (hf : f.Ends) (hnode : f.node = e.node) (hg : g.Opens) : g.node ∈ ended zs := by
  by_contra hzs
  have hopens : e.Opens := by
    rw [List.append_assoc, List.append_assoc, List.cons_append] at h
    refine h.opens he (mem_ended.mpr ⟨f, ?_, hf, hnode⟩)
    simp
  have hys : e.node ∉ ended ys := by
    have hnodup := h.nodup_ended
    have hcons : ended (f :: ws) = f.node :: ended ws := by simp [ended, hf]
    rw [ended_append, hcons, List.nodup_middle, List.nodup_cons, hnode] at hnodup
    intro hmem
    obtain ⟨k, hk, hends⟩ := mem_ended.mp hmem
    exact hnodup.1 (List.mem_append_left _ (mem_ended.mpr ⟨k, by simp [hk], hends⟩))
  -- the stack at the end of the node, from what was on it before
  obtain ⟨stack₃, h₃, hlast⟩ := h.left
  obtain ⟨rest, rfl, _⟩ := of_nest_ends hf hlast
  obtain ⟨stack₂, h₂, hinner⟩ := h₃.left
  obtain ⟨stack₁, h₁, houter⟩ := h₂.left
  rw [nest_opens hopens] at houter
  obtain ⟨above₂, rfl⟩ := nest_keeps_top houter hys
  rw [nest_opens hg] at hinner
  obtain ⟨above₃, hstack⟩ := nest_keeps_top hinner hzs
  have hnodup : (f.node :: rest).Nodup :=
    (List.nodup_append.mp (h₃.perm.nodup_iff.mpr h₃.nodup_opened)).2.1
  refine (List.nodup_cons.mp hnodup).1 (hnode ▸ ?_)
  cases above₃ with
  | nil =>
    obtain ⟨_, rfl⟩ := List.cons.inj hstack
    simp
  | cons k above₃ =>
    obtain ⟨_, rfl⟩ := List.cons.inj hstack
    simp

/-- Where no visit goes on, what was opened has ended. -/
theorem ended_after (h : Nests (xs ++ e :: ys) []) (he : e.Opens) : e.node ∈ ended ys := by
  by_contra hys
  obtain ⟨stack, _, hnest⟩ := h.left
  rw [nest_opens he] at hnest
  obtain ⟨above, hstack⟩ := nest_keeps_top hnest hys
  simp at hstack

end Nests

end

end MiddleEnd
