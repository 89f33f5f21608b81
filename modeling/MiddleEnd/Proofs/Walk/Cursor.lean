import Mathlib.Data.List.TakeWhile
import MiddleEnd.Walk.Basic

/-!
# MiddleEnd.Proofs.Walk.Cursor

Where a cursor stands in a list without repetition.
-/

namespace MiddleEnd

variable {α : Type}

/-- The cursor is through with the entries of `done` and hands out those of `todo` next. -/
structure Cursor.Splits (c : Cursor α) (done todo : List α) : Prop where
  low : c.low ≤ done.length
  done : ∀ x ∈ done.drop c.low, x ∈ c.handed
  todo : ∀ x ∈ todo, x ∉ c.handed

namespace Cursor

variable {c : Cursor α} {done rest : List α} {x : α}

/-- At the start everything is still to be handed out. -/
theorem splits_start (todo : List α) : start.Splits [] todo :=
  ⟨Nat.le_refl 0, by simp, by simp [start]⟩

/-- What comes after the next entry does not count for it. -/
theorem Splits.next (h : c.Splits done (x :: rest)) : c.Splits done [x] :=
  ⟨h.low, h.done, fun y hy => h.todo y (by simp_all)⟩

/-- The entry handed out stays: the cursor is through with it. -/
theorem Splits.keep (h : c.Splits done (x :: rest)) (hx : x ∉ rest) :
    Splits ⟨done.length, x :: c.handed⟩ (done ++ [x]) rest where
  low := by simp
  done y hy := by simp_all
  todo y hy := by
    have hne : y ≠ x := fun he => hx (he ▸ hy)
    simp [hne, h.todo y (List.mem_cons_of_mem x hy)]

/-- The entry handed out is taken away: the cursor stands where it stood. -/
theorem Splits.drop (h : c.Splits done (x :: rest)) (hx : x ∉ rest) :
    Splits ⟨done.length, x :: c.handed⟩ done rest where
  low := Nat.le_refl _
  done y hy := by simp at hy
  todo y hy := by
    have hne : y ≠ x := fun he => hx (he ▸ hy)
    simp [hne, h.todo y (List.mem_cons_of_mem x hy)]

variable [DecidableEq α]

private theorem dropWhile_all {xs handed : List α} (h : ∀ y ∈ xs, y ∈ handed) (ys : List α) :
    (xs ++ ys).dropWhile (· ∈ handed) = ys.dropWhile (· ∈ handed) := by
  induction xs with
  | nil => rfl
  | cons y xs ih =>
    rw [List.cons_append, List.dropWhile_cons_of_pos (by simpa using h y List.mem_cons_self),
      ih fun z hz => h z (List.mem_cons_of_mem y hz)]

@[simp] theorem next?_empty (c : Cursor α) : c.next? [] = none := by
  simp [next?]

/-- At the end of a list nothing is handed out. -/
theorem next?_nil (h : c.Splits done []) : c.next? done = none := by
  have hd := dropWhile_all h.done []
  simp only [List.append_nil, List.dropWhile_nil] at hd
  simp [next?, hd]

/-- The next entry is handed out at the index where it stands, whatever comes after it. -/
theorem next?_next (h : c.Splits done [x]) (ys : List α) :
    c.next? (done ++ x :: ys) = some (done.length, x, ⟨done.length, x :: c.handed⟩) := by
  have hx : x ∉ c.handed := h.todo x List.mem_cons_self
  have hd : ((done ++ x :: ys).drop c.low).dropWhile (· ∈ c.handed) = x :: ys := by
    rw [List.drop_append_of_le_length h.low, dropWhile_all h.done,
      List.dropWhile_cons_of_neg (by simpa using hx)]
  simp only [next?, hd, List.length_append, List.length_cons]
  simp

variable {c' : Cursor α} {entries : List α} {i : Nat}

/-- A cursor that hands out nothing has handed out all that it stands before. -/
theorem mem_handed_of_next? (h : c.next? entries = none) :
    ∀ y ∈ entries.drop c.low, y ∈ c.handed := by
  rw [next?] at h
  split at h
  · next hd => simpa using List.dropWhile_eq_nil_iff.mp hd
  · cases h

/-- What is handed out is the next entry of the list. -/
theorem splits_of_next? (h : c.next? entries = some (i, x, c')) :
    ∃ done rest, entries = done ++ x :: rest ∧ i = done.length ∧
      c' = ⟨done.length, x :: c.handed⟩ ∧ c.Splits done [x] := by
  rw [next?] at h
  split at h
  · cases h
  · next y rest hd =>
    cases h
    have hfresh : x ∉ c.handed := by
      have hne : (entries.drop c.low).dropWhile (· ∈ c.handed) ≠ [] := by simp [hd]
      simpa [hd] using List.head_dropWhile_not (· ∈ c.handed) hne
    have hlow : c.low ≤ entries.length := by
      by_contra hlt
      rw [List.drop_of_length_le (by omega)] at hd
      cases hd
    have hlength : (entries.take c.low).length = c.low := List.length_take_of_le hlow
    obtain ⟨passed, hpassed⟩ : ∃ passed,
        passed = (entries.drop c.low).takeWhile (· ∈ c.handed) := ⟨_, rfl⟩
    have hentries : entries = entries.take c.low ++ passed ++ x :: rest := by
      rw [List.append_assoc, ← hd, hpassed, List.takeWhile_append_dropWhile,
        List.take_append_drop]
    have hindex : entries.length - (rest.length + 1) = (entries.take c.low ++ passed).length := by
      have := congrArg List.length hentries
      simp only [List.length_append, List.length_cons] at this ⊢
      omega
    refine ⟨_, rest, hentries, hindex, by rw [hindex], by simp [hlength], fun z hz => ?_, ?_⟩
    · rw [List.drop_left' hlength, hpassed] at hz
      simpa using List.mem_takeWhile_imp hz
    · simpa using hfresh

end Cursor

variable [DecidableEq α]

/-- No entry is repeated exactly if the search for a repeated one finds none. -/
theorem firstRepeat?_eq_none {xs earlier : List α} :
    firstRepeat? earlier xs = none ↔ xs.Nodup ∧ ∀ x ∈ xs, x ∉ earlier := by
  induction xs generalizing earlier with
  | nil => simp [firstRepeat?]
  | cons x xs ih =>
    rw [firstRepeat?]
    by_cases hx : x ∈ earlier
    · rw [if_pos hx]
      simp [hx]
    · rw [if_neg hx, ih, List.nodup_cons]
      constructor
      · rintro ⟨hnodup, hall⟩
        refine ⟨⟨fun hmem => hall x hmem List.mem_cons_self, hnodup⟩, fun y hy => ?_⟩
        rcases List.mem_cons.mp hy with rfl | hy
        · exact hx
        · exact fun he => hall y hy (List.mem_cons_of_mem x he)
      · rintro ⟨⟨hmem, hnodup⟩, hall⟩
        refine ⟨hnodup, fun y hy he => ?_⟩
        rcases List.mem_cons.mp he with rfl | he
        · exact hmem hy
        · exact hall y (List.mem_cons_of_mem x hy) he

/-- The repeated entry stands at two indices of the list, or at one and among the earlier ones. -/
theorem of_firstRepeat? {xs earlier : List α} {x : α} (h : firstRepeat? earlier xs = some x) :
    ∃ j : Nat, xs[j]? = some x ∧ (x ∈ earlier ∨ ∃ i : Nat, i < j ∧ xs[i]? = some x) := by
  induction xs generalizing earlier with
  | nil => cases h
  | cons y ys ih =>
    rw [firstRepeat?] at h
    by_cases hy : y ∈ earlier
    · rw [if_pos hy] at h
      obtain rfl := Option.some.inj h
      exact ⟨0, rfl, .inl hy⟩
    · rw [if_neg hy] at h
      obtain ⟨j, hj, hx⟩ := ih h
      refine ⟨j + 1, hj, ?_⟩
      rcases hx with hx | ⟨i, hi, hx⟩
      · rcases List.mem_cons.mp hx with rfl | hx
        · exact .inr ⟨0, Nat.succ_pos j, rfl⟩
        · exact .inl hx
      · exact .inr ⟨i + 1, Nat.succ_lt_succ hi, hx⟩

end MiddleEnd
