import MiddleEnd.Proofs.Walk.Turns

/-!
# MiddleEnd.Proofs.Walk.Entries

What a walk of a list of statements visits where hooks change the list meanwhile.  The cursor is an
index into a list that shifts: what hooks insert before it moves entries to the right, where they
are recognised, but what they take away before it moves entries to the left, and entries that were
not visited yet can come to stand behind the cursor.  Such an entry is lost
(`stmts_overlooks_shifted`).

As long as hooks take nothing away that stood before the entry being visited, no entry is lost
(`stmts_loses_none`): one turn keeps every entry that is still to be visited ahead of the cursor,
and by induction on the turns a whole walk does.
-/

namespace MiddleEnd

section

variable {α : Type} {xs ys front : List α} {x : α}

/-- An entry stands in a list after all that is in front. -/
def Ahead (front xs : List α) (x : α) : Prop := ∃ as bs, xs = as ++ x :: bs ∧ front ⊆ as

/-- Before anything is passed, all entries are ahead. -/
theorem ahead_nil : Ahead [] xs x ↔ x ∈ xs := by
  simp [Ahead, List.mem_iff_append]

/-- An entry that stands after so many others stands at no smaller index. -/
theorem Ahead.mem_drop (h : Ahead front xs x) (hfront : front.Nodup) :
    x ∈ xs.drop front.length := by
  obtain ⟨as, bs, rfl, hsub⟩ := h
  rw [List.drop_append_of_le_length (List.subperm_of_subset hfront hsub).length_le]
  simp

/-- What follows an entry in part of a list without repetition follows it in the list. -/
theorem sublist_of_cons_sublist : ∀ {as bs zs : List α}, x ∉ as →
    (x :: zs).Sublist (as ++ x :: bs) → zs.Sublist bs
  | [], _, _, _, h => List.cons_sublist_cons.mp h
  | a :: as, bs, zs, hx, h => by
    rw [List.mem_cons, not_or] at hx
    rw [List.cons_append, List.sublist_cons_iff] at h
    rcases h with h | ⟨r, hr, _⟩
    · exact sublist_of_cons_sublist hx.2 h
    · exact absurd (List.cons.inj hr).1 hx.1

variable [DecidableEq α]

/-- One list comes of another by taking entries away and inserting new ones, each once. -/
structure Edited (xs ys : List α) : Prop where
  kept : (ys.filter (· ∈ xs)).Sublist xs
  fresh : (ys.filter (· ∉ xs)).Nodup

instance : Decidable (Edited xs ys) :=
  decidable_of_iff ((ys.filter (· ∈ xs)).Sublist xs ∧ (ys.filter (· ∉ xs)).Nodup)
    ⟨fun h => ⟨h.1, h.2⟩, fun h => ⟨h.kept, h.fresh⟩⟩

/-- A list that is edited repeats no entry if it did not before. -/
theorem Edited.nodup (h : Edited xs ys) (hxs : xs.Nodup) : ys.Nodup := by
  have hperm := List.filter_append_perm (· ∈ xs) ys
  refine hperm.nodup_iff.mp (List.nodup_append.mpr ⟨h.kept.nodup hxs, by simpa using h.fresh, ?_⟩)
  rintro a ha b hb rfl
  simp_all

/-- As long as what is in front stays, an entry that stays after it stands after it. -/
theorem Edited.ahead (h : Edited xs ys) (hxs : xs.Nodup) (hfront : front ⊆ ys) (hx : x ∈ ys)
    (hahead : Ahead front xs x) : Ahead front ys x := by
  obtain ⟨as, bs, rfl, hsub⟩ := hahead
  obtain ⟨as', bs', rfl⟩ := List.append_of_mem hx
  refine ⟨as', bs', rfl, fun f hf => ?_⟩
  have hfas := hsub hf
  have hapart := List.nodup_append.mp hxs
  have hne : f ≠ x := fun he => hapart.2.2 f hfas x List.mem_cons_self he
  rcases List.mem_append.mp (hfront hf) with hf' | hf'
  · exact hf'
  -- otherwise what is in front stands after the entry in what was kept, and so it did before
  have hkept := h.kept
  rw [List.filter_append, List.filter_cons_of_pos (by simp)] at hkept
  have hafter : f ∈ bs := by
    refine (sublist_of_cons_sublist (fun hxas => hapart.2.2 x hxas x List.mem_cons_self rfl)
      ((List.sublist_append_right _ _).trans hkept)).subset ?_
    simpa [hfas] using (List.mem_cons.mp hf').resolve_left hne
  exact absurd rfl (hapart.2.2 f hfas f (List.mem_cons_of_mem x hafter))

end

namespace Walk

variable {σ : Type} {list : StmtList}

/-- A list at some moment of its walk. -/
structure Moment where
  entries : List StmtId
  /-- What stood before the entry that was visited last, when its turn came. -/
  front : List StmtId

/-- The moment after a call. -/
def Moment.next (list : StmtList) (m : Moment) (e : Event σ) : Moment where
  entries := e.scene.program.stmtsIn list
  front := match e.call.inList? list with
    | some (_, i) => m.entries.take i
    | none => m.front

/-- The moment before the walk of a list. -/
def Moment.start (list : StmtList) (p : Program) : Moment := ⟨p.stmtsIn list, []⟩

/-- The moment after calls. -/
def Moment.after (list : StmtList) (m : Moment) (es : List (Event σ)) : Moment :=
  es.foldl (Moment.next list) m

/-- From each moment to the next a relation holds. -/
def Moment.Steps (R : Moment → Moment → Prop) (list : StmtList) : Moment → List (Event σ) → Prop
  | _, [] => True
  | m, e :: es => R m (m.next list e) ∧ Moment.Steps R list (m.next list e) es

instance Moment.Steps.decidable {R : Moment → Moment → Prop} [DecidableRel R] :
    (m : Moment) → (es : List (Event σ)) → Decidable (m.Steps R list es)
  | _, [] => .isTrue trivial
  | m, e :: es =>
    have := Moment.Steps.decidable (R := R) (m.next list e) es
    inferInstanceAs (Decidable (R m (m.next list e) ∧ (m.next list e).Steps R list es))

/-- A list is changed only by taking entries away and inserting new ones. -/
def Moment.Edits (m m' : Moment) : Prop := Edited m.entries m'.entries

/-- Besides, nothing is taken away that stood before the entry being visited. -/
def Moment.Spares (m m' : Moment) : Prop := m.Edits m' ∧ ∀ f ∈ m'.front, f ∈ m'.entries

instance : DecidableRel Moment.Edits := fun m m' =>
  inferInstanceAs (Decidable (Edited m.entries m'.entries))

instance : DecidableRel Moment.Spares := fun m m' =>
  inferInstanceAs (Decidable (m.Edits m' ∧ ∀ f ∈ m'.front, f ∈ m'.entries))

/-- A list is changed in its walk only by taking entries away and inserting new ones, and no entry
is taken away that stood before the one being visited. -/
structure SparesFront (list : StmtList) (p : Program) (es : List (Event σ)) : Prop where
  steps : (Moment.start list p).Steps Moment.Spares list es

instance {p : Program} {es : List (Event σ)} : Decidable (SparesFront list p es) :=
  decidable_of_iff ((Moment.start list p).Steps Moment.Spares list es)
    ⟨fun h => ⟨h⟩, fun h => h.steps⟩

/-- The first hook of an entry of a list was called. -/
def EntryVisited (list : StmtList) (s : StmtId) (es : List (Event σ)) : Prop :=
  ∃ e ∈ es, ∃ i, e.call = .preStmt s (.entry list i)

/-- A moment at which a cursor has not passed anything that is still to be visited. -/
structure Moment.Meets (m : Moment) (list : StmtList) (p : Program) (low : Nat) : Prop where
  entries : m.entries = p.stmtsIn list
  nodup : m.entries.Nodup
  front : m.front.Nodup
  length : m.front.length = low

section

variable {m : Moment} {e : Event σ} {es fs inner rest : List (Event σ)} {s x : StmtId} {i : Nat}

@[simp] theorem Moment.after_nil (m : Moment) : m.after list ([] : List (Event σ)) = m := rfl

@[simp] theorem Moment.after_cons (m : Moment) (e : Event σ) (es : List (Event σ)) :
    m.after list (e :: es) = (m.next list e).after list es := rfl

@[simp] theorem Moment.after_append (m : Moment) (es fs : List (Event σ)) :
    m.after list (es ++ fs) = (m.after list es).after list fs := List.foldl_append

/-- A call elsewhere passes no entry. -/
theorem Moment.next_aside (he : e.call.inList? list = none) : (m.next list e).front = m.front := by
  simp [next, he]

/-- A call at an entry passes those in front of it. -/
theorem Moment.next_entry (he : e.call = .preStmt s (.entry list i)) :
    (m.next list e).front = m.entries.take i := by
  simp [next, Call.inList?_eq_some.mpr he]

/-- A visited entry stays visited when more calls come before. -/
theorem EntryVisited.append_right (h : EntryVisited list s es) : EntryVisited list s (fs ++ es) :=
  h.imp fun _ he => he.imp_left (List.mem_append_right fs)

/-- A relation holds from each moment to the next if it does in both parts. -/
theorem Moment.steps_append {R : Moment → Moment → Prop} : m.Steps R list (es ++ fs) ↔
    m.Steps R list es ∧ (m.after list es).Steps R list fs := by
  induction es generalizing m with
  | nil => simp [Steps]
  | cons e es ih => simp [Steps, ih, and_assoc]

/-- What holds in the rest of a turn: what is in front stays so, nothing gets repeated, and what was
still ahead of the entry being visited still is, if it was not taken away. -/
theorem Moment.rest_of_turn (hinner : ∀ f ∈ inner, f.call.inList? list = none)
    (hspares : m.Steps Spares list inner) (hnodup : m.entries.Nodup) :
    (m.after list inner).front = m.front ∧ (m.after list inner).entries.Nodup ∧
      ((∀ f ∈ inner, x ∈ f.scene.program.stmtsIn list) → Ahead m.front m.entries x →
        Ahead m.front (m.after list inner).entries x) := by
  induction inner generalizing m with
  | nil => exact ⟨rfl, hnodup, fun _ h => h⟩
  | cons f inner ih =>
    obtain ⟨⟨hedited, hfront⟩, hspares⟩ := hspares
    have hsame := Moment.next_aside (m := m) (hinner f List.mem_cons_self)
    obtain ⟨hfront', hnodup', hahead⟩ := ih (fun g hg => hinner g (List.mem_cons_of_mem f hg))
      hspares (hedited.nodup hnodup)
    rw [hsame] at hfront hfront' hahead
    refine ⟨hfront', hnodup', fun hstays hx => ?_⟩
    exact hahead (fun g hg => hstays g (List.mem_cons_of_mem f hg))
      (hedited.ahead hnodup hfront (hstays f List.mem_cons_self) hx)

/-- The program in the moment after calls is the one that they left. -/
theorem Moment.entries_after {p : Program} (h : m.entries = p.stmtsIn list) :
    (m.after list es).entries = (Walk.after p es).stmtsIn list := by
  induction es generalizing m p with
  | nil => exact h
  | cons e es ih => exact ih rfl

/-! ## Turn after turn -/

section

variable {cursor next : Cursor StmtId} {p : Program} {us ws : List (Event σ)}

/-- When a turn is over, the cursor has passed nothing that is still to be visited. -/
theorem Moment.Meets.turn (hmeets : m.Meets list p cursor.low)
    (hnext : cursor.next? (p.stmtsIn list) = some (i, s, next))
    (hcall : e.call = .preStmt s (.entry list i)) (hinner : ∀ f ∈ inner, f.call.inList? list = none)
    (hspares : m.Steps Spares list (e :: inner)) :
    (m.after list (e :: inner)).Meets list (Walk.after e.scene.program inner) next.low := by
  obtain ⟨done, todo, hentries, rfl, rfl, _⟩ := Cursor.splits_of_next? hnext
  obtain ⟨⟨hedited, _⟩, hspares⟩ := hspares
  obtain ⟨hsame, hnodup, _⟩ := rest_of_turn (x := s) hinner hspares (hedited.nodup hmeets.nodup)
  rw [Moment.next_entry hcall, hmeets.entries, hentries, List.take_left] at hsame
  have hdone := hmeets.nodup
  rw [hmeets.entries, hentries] at hdone
  exact ⟨Moment.entries_after (m := m.next list e) rfl, hnodup,
    hsame ▸ (List.nodup_append.mp hdone).1,
    congrArg List.length hsame⟩

/-- What is ahead when a turn comes was handed out before, or its turn it is, or it is ahead when
the first hook has been called, if it was not taken away. -/
theorem Moment.Meets.ahead_next (hmeets : m.Meets list p cursor.low)
    (hnext : cursor.next? (p.stmtsIn list) = some (i, s, next))
    (hcall : e.call = .preStmt s (.entry list i)) (hspares : m.Steps Spares list (e :: inner))
    (hstays : x ∈ e.scene.program.stmtsIn list) (hahead : Ahead m.front m.entries x) :
    x ∈ cursor.handed ∨ x = s ∨ Ahead (m.next list e).front (m.next list e).entries x := by
  obtain ⟨done, todo, hentries, rfl, rfl, hsplits⟩ := Cursor.splits_of_next? hnext
  obtain ⟨⟨hedited, hfront⟩, _⟩ := hspares
  have hdrop := hahead.mem_drop hmeets.front
  rw [hmeets.length, hmeets.entries, hentries, List.drop_append_of_le_length hsplits.low,
    List.mem_append, List.mem_cons] at hdrop
  refine hdrop.imp (hsplits.done x) (Or.imp_right fun hx => ?_)
  obtain ⟨bs, cs, rfl⟩ := List.append_of_mem hx
  refine hedited.ahead hmeets.nodup hfront hstays ?_
  rw [Moment.next_entry hcall, hmeets.entries, hentries, List.take_left]
  exact ⟨done ++ s :: bs, cs, by simp, List.subset_append_left _ _⟩

/-- What is ahead at some moment of a turn was handed out before, or its turn it is, or it is ahead
when the turn is over, if it was not taken away. -/
theorem Moment.Meets.ahead_turn (hmeets : m.Meets list p cursor.low)
    (hnext : cursor.next? (p.stmtsIn list) = some (i, s, next))
    (hcall : e.call = .preStmt s (.entry list i)) (hinner : ∀ f ∈ inner, f.call.inList? list = none)
    (hspares : m.Steps Spares list (e :: inner)) (hturn : e :: inner = us ++ ws)
    (hstays : ∀ f ∈ ws, x ∈ f.scene.program.stmtsIn list)
    (hahead : Ahead (m.after list us).front (m.after list us).entries x) :
    x ∈ cursor.handed ∨ x = s ∨
      Ahead (m.after list (e :: inner)).front (m.after list (e :: inner)).entries x := by
  have hnodup := hspares.1.1.nodup hmeets.nodup
  -- from the first hook of the turn on
  have hrest : ∀ us ws, inner = us ++ ws → (∀ f ∈ ws, x ∈ f.scene.program.stmtsIn list) →
      Ahead ((m.next list e).after list us).front ((m.next list e).after list us).entries x →
      Ahead ((m.next list e).after list inner).front ((m.next list e).after list inner).entries
        x := by
    rintro us ws rfl hstays hahead
    obtain ⟨hus, hws⟩ := steps_append.mp hspares.2
    rw [List.forall_mem_append] at hinner
    obtain ⟨_, hnodup', _⟩ := rest_of_turn (x := x) hinner.1 hus hnodup
    obtain ⟨hsame, _, hkept⟩ := rest_of_turn (x := x) hinner.2 hws hnodup'
    rw [Moment.after_append, hsame]
    exact hkept hstays hahead
  cases us with
  | nil =>
    obtain rfl : e :: inner = ws := hturn
    rw [List.forall_mem_cons] at hstays
    exact (hmeets.ahead_next hnext hcall hspares hstays.1 hahead).imp_right
      (Or.imp_right (hrest [] inner rfl hstays.2))
  | cons f us =>
    obtain ⟨rfl, hinner'⟩ := List.cons.inj hturn
    exact .inr (.inr (hrest us ws hinner' hstays hahead))

end

/-- What is ahead at some moment of the turns that are left, and is not taken away from then on, was
handed out before or is visited. -/
theorem Turns.visited {cursor : Cursor StmtId} {p : Program} (hturns : Turns list cursor p es) :
    ∀ {m : Moment} {us ws : List (Event σ)}, m.Meets list p cursor.low →
      m.Steps Moment.Spares list es →
      es = us ++ ws → Ahead (m.after list us).front (m.after list us).entries x →
      (∀ e ∈ ws, x ∈ e.scene.program.stmtsIn list) →
        x ∈ cursor.handed ∨ EntryVisited list x es := by
  induction hturns with
  | @done cursor p hnext =>
    rintro m us ws hmeets _ hes hahead _
    obtain ⟨rfl, rfl⟩ := List.append_eq_nil_iff.mp hes.symm
    have hdrop := hahead.mem_drop hmeets.front
    rw [Moment.after_nil, hmeets.length, hmeets.entries] at hdrop
    exact .inl (Cursor.mem_handed_of_next? hnext x hdrop)
  | @turn cursor next p i s e inner rest hnext hcall hinner _ ih =>
    rintro m us ws hmeets hspares hes hahead hstays
    obtain ⟨hspares, hrest⟩ := Moment.steps_append.mp hspares
    have hmeets' := hmeets.turn hnext hcall hinner hspares
    have hhead : EntryVisited list s (e :: inner ++ rest) := ⟨e, List.mem_cons_self, _, hcall⟩
    -- what is ahead once the turn is over is visited in the turns that are left
    have hlater : ∀ us ws, rest = us ++ ws →
        Ahead ((m.after list (e :: inner)).after list us).front
          ((m.after list (e :: inner)).after list us).entries x →
        (∀ f ∈ ws, x ∈ f.scene.program.stmtsIn list) →
        x ∈ cursor.handed ∨ EntryVisited list x (e :: inner ++ rest) := by
      intro us ws hes hahead hstays
      rcases ih hmeets' hrest hes hahead hstays with hx | hx
      · obtain ⟨done, todo, _, rfl, rfl, _⟩ := Cursor.splits_of_next? hnext
        rcases List.mem_cons.mp hx with rfl | hx
        · exact .inr hhead
        · exact .inl hx
      · exact .inr hx.append_right
    rcases List.append_eq_append_iff.mp hes with ⟨us', rfl, hsplit⟩ | ⟨ws', hsplit, rfl⟩
    · exact hlater us' ws hsplit (by rwa [← Moment.after_append]) hstays
    · rw [List.forall_mem_append] at hstays
      rcases hmeets.ahead_turn hnext hcall hinner hspares hsplit hstays.1 hahead with hx | rfl | hx
      · exact .inl hx
      · exact .inr hhead
      · exact hlater [] rest rfl hx hstays.2

/-- What stands in a list when it has been walked was handed out, or is visited, or it stands before
the index of an entry that was visited. -/
theorem Turns.visited_or_behind {cursor : Cursor StmtId} {p : Program}
    (hturns : Turns list cursor p es) (hx : x ∈ (Walk.after p es).stmtsIn list) :
    x ∈ cursor.handed ∨ EntryVisited list x es ∨
      ∃ low, (low = cursor.low ∨ ∃ e ∈ es, ∃ s, e.call = .preStmt s (.entry list low)) ∧
        x ∈ ((Walk.after p es).stmtsIn list).take low := by
  induction hturns with
  | @done cursor p hnext =>
    rw [Walk.after_nil, ← List.take_append_drop cursor.low (p.stmtsIn list), List.mem_append] at hx
    rcases hx with hx | hx
    · exact .inr (.inr ⟨cursor.low, .inl rfl, hx⟩)
    · exact .inl (Cursor.mem_handed_of_next? hnext x hx)
  | @turn cursor next p i s e inner rest hnext hcall hinner _ ih =>
    obtain ⟨done, todo, _, rfl, rfl, _⟩ := Cursor.splits_of_next? hnext
    have hafter : Walk.after p (e :: inner ++ rest) =
        Walk.after (Walk.after e.scene.program inner) rest := Walk.after_append p (e :: inner) rest
    rw [hafter] at hx ⊢
    rcases ih hx with hx | hx | ⟨low, hlow, hx⟩
    · rcases List.mem_cons.mp hx with rfl | hx
      · exact .inr (.inl ⟨e, List.mem_cons_self, _, hcall⟩)
      · exact .inl hx
    · exact .inr (.inl hx.append_right)
    · refine .inr (.inr ⟨low, .inr ?_, hx⟩)
      rcases hlow with rfl | ⟨f, hf, s', hcall'⟩
      · exact ⟨e, List.mem_cons_self, s, hcall⟩
      · exact ⟨f, List.mem_append_right _ hf, s', hcall'⟩

end

/-! ## Whole walks -/

section

variable {h : Hooks σ} {st : WalkState σ}

/-- Whatever hooks do, what the walk of a list has not visited of the list that it leaves stands
before the index of an entry that it did visit. -/
theorem stmts_overlooks_behind (hseen : st.trail.seen.contains list.node = true)
    (hok : (exec (run h (.stmts list)) st).1 = .ok ()) {x : StmtId}
    (hx : x ∈ (after st.scene.program (eventsOf h (.stmts list) st)).stmtsIn list) :
    EntryVisited list x (eventsOf h (.stmts list) st) ∨
      ∃ e ∈ eventsOf h (.stmts list) st, ∃ s i, e.call = .preStmt s (.entry list i) ∧
        x ∈ ((after st.scene.program (eventsOf h (.stmts list) st)).stmtsIn list).take i := by
  obtain ⟨_, hturns⟩ := turns_of_run hseen hok
  rcases hturns.visited_or_behind hx with hx | hx | ⟨low, rfl | ⟨e, he, s, hcall⟩, hx⟩
  · cases hx
  · exact .inl hx
  · cases hx
  · exact .inr ⟨e, he, s, low, hcall, hx⟩

/-- No statement is lost in a walk of a list in which these calls were made. -/
structure LosesNone (list : StmtList) (p : Program) (es : List (Event σ)) : Prop where
  /-- What stands in the list when the walk begins, and is never taken away, is visited. -/
  stood : ∀ x ∈ p.stmtsIn list, (∀ e ∈ es, x ∈ e.scene.program.stmtsIn list) →
    EntryVisited list x es
  /-- What stands at some moment at or after the entry being visited, having been inserted there,
  say, and is not taken away from then on, is visited. -/
  ahead : ∀ us ws x, es = us ++ ws →
    Ahead ((Moment.start list p).after list us).front ((Moment.start list p).after list us).entries
      x → (∀ e ∈ ws, x ∈ e.scene.program.stmtsIn list) → EntryVisited list x es
  /-- What was taken away, and is not inserted again, is not visited from then on. -/
  removed : ∀ us ws x, es = us ++ ws → x ∉ (Walk.after p us).stmtsIn list →
    (∀ e ∈ ws, x ∉ e.scene.program.stmtsIn list) → ¬ EntryVisited list x ws

/-- If hooks change a list, while it is walked, only by inserting new entries and taking entries
away, and take none away that stood before the entry being visited, then a walk that ends well loses
no statement. -/
theorem stmts_loses_none (hseen : st.trail.seen.contains list.node = true)
    (hok : (exec (run h (.stmts list)) st).1 = .ok ())
    (hspares : SparesFront list st.scene.program (eventsOf h (.stmts list) st)) :
    LosesNone list st.scene.program (eventsOf h (.stmts list) st) := by
  obtain ⟨hnodup, hturns⟩ := turns_of_run hseen hok
  have hmeets : (Moment.start list st.scene.program).Meets list st.scene.program
      (Cursor.start : Cursor StmtId).low := ⟨rfl, hnodup, .nil, rfl⟩
  have hahead : ∀ us ws x, eventsOf h (.stmts list) st = us ++ ws → _ → _ →
      EntryVisited list x (eventsOf h (.stmts list) st) := fun us ws x hes hx hstays =>
    (hturns.visited hmeets hspares.steps hes hx hstays).resolve_left nofun
  refine ⟨fun x hx hstays => ?_, hahead, fun us ws x hes hx hgone ⟨e, he, i, hcall⟩ => ?_⟩
  · exact hahead [] _ x rfl (ahead_nil.mpr hx) hstays
  · have hplaced := @placed_of_run σ h [] (.stmts list) st [list.node] rfl
    obtain ⟨bs, cs, rfl⟩ := List.append_of_mem he
    have hheld := hplaced (us ++ bs) e cs (by rw [hes, List.append_assoc])
      (.stmt (.entry list i)) (by rw [hcall]; rfl)
    rw [Program.heldAt?_entry, Option.map_eq_some_iff] at hheld
    obtain ⟨y, hy, hyx⟩ := hheld
    have hmem : x ∈ (Walk.after st.scene.program (us ++ bs)).stmtsIn list := by
      obtain rfl : y = x := by simpa [Event.node, hcall, Call.node] using hyx
      exact List.mem_of_getElem? hy
    -- the moment before the call is the one after the calls before it
    rcases List.eq_nil_or_concat bs with rfl | ⟨bs, f, rfl⟩
    · exact hx (by simpa using hmem)
    · exact hgone f (by simp) (by simpa using hmem)

end

/-- Hooks that do something before a statement is visited. -/
def editing (edit : StmtId → Program → Program) : Hooks Unit where
  pass := "editing"
  preStmt s _ := modify fun scene => { scene with program := edit s scene.program }

/-- A function with three statements in its body, and a statement that is in no list. -/
def threeOfFour : Program where
  modules := #[⟨"m", "m.w", none, [⟨0⟩]⟩]
  symbols := #[.new "f" (.func [] none [⟨0⟩, ⟨1⟩, ⟨2⟩]) 1]
  stmts := #[.new .nop 2, .new .nop 3, .new .nop 4, .new .nop 5]
  exprs := #[]

/-- The state in which the body of the function is about to be walked. -/
def inBody : WalkState Unit :=
  entering (.symbol ⟨0⟩) (entering (.module ⟨0⟩) ⟨.start, threeOfFour, ()⟩)

/-- While the first statement is visited another one is inserted before it, and while the second one
is visited the third one is taken away. -/
def insertsAndRemoves (s : StmtId) (p : Program) : Program :=
  if s = ⟨0⟩ then (p.insertBefore? (.body ⟨0⟩) ⟨0⟩ ⟨3⟩).getD p
  else if s = ⟨1⟩ then (p.removeStmt? (.body ⟨0⟩) ⟨2⟩).getD p
  else p

theorem stmts_loses_none_inserted :
    inBody.trail.seen.contains (StmtList.body ⟨0⟩).node = true ∧
    (exec (run (editing insertsAndRemoves) (.stmts (.body ⟨0⟩))) inBody).1 = .ok () ∧
    SparesFront (.body ⟨0⟩) inBody.scene.program
      (eventsOf (editing insertsAndRemoves) (.stmts (.body ⟨0⟩)) inBody) ∧
    LosesNone (.body ⟨0⟩) inBody.scene.program
      (eventsOf (editing insertsAndRemoves) (.stmts (.body ⟨0⟩)) inBody) :=
  have hseen : inBody.trail.seen.contains (StmtList.body ⟨0⟩).node = true := by decide +kernel
  have hok : (exec (run (editing insertsAndRemoves) (.stmts (.body ⟨0⟩))) inBody).1 = .ok () := by
    decide +kernel
  have hspares : SparesFront (.body ⟨0⟩) inBody.scene.program
      (eventsOf (editing insertsAndRemoves) (.stmts (.body ⟨0⟩)) inBody) := by
    decide +kernel
  ⟨hseen, hok, hspares, stmts_loses_none hseen hok hspares⟩

/-- While the second statement is visited, it and the first one are taken away. -/
def removesVisited (s : StmtId) (p : Program) : Program :=
  if s = ⟨1⟩ then
    ((p.removeStmt? (.body ⟨0⟩) ⟨0⟩).bind (·.removeStmt? (.body ⟨0⟩) ⟨1⟩)).getD p
  else p

/-- The hooks only take entries away, and the walk ends well.  The third statement stays in the
list, moves behind the cursor, and is not visited. -/
theorem stmts_overlooks_shifted :
    (exec (run (editing removesVisited) (.stmts (.body ⟨0⟩))) inBody).1 = .ok () ∧
    (Moment.start (.body ⟨0⟩) inBody.scene.program).Steps Moment.Edits (.body ⟨0⟩)
      (eventsOf (editing removesVisited) (.stmts (.body ⟨0⟩)) inBody) ∧
    ⟨2⟩ ∈ inBody.scene.program.stmtsIn (.body ⟨0⟩) ∧
    ∀ e ∈ eventsOf (editing removesVisited) (.stmts (.body ⟨0⟩)) inBody,
      ⟨2⟩ ∈ e.scene.program.stmtsIn (.body ⟨0⟩) ∧ e.call.node ≠ .stmt ⟨2⟩ := by
  decide +kernel

end Walk

end MiddleEnd
