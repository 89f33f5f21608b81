import MiddleEnd.Proofs.Walk.Exec

/-!
# MiddleEnd.Proofs.Walk.Outcome

What a run comes to, whether it ends well or halts.  `Does x st ok halt` says of `x`, run from
`st`, that it ends well with an answer and in a state of `ok`, or halts for a reason and in a state
of `halt`.  A sequence is taken apart by `Does.bind`, so that one argument covers a run and all the
ways in which it can break off.
-/

namespace MiddleEnd.Walk

variable {σ τ ε α β : Type}

/-- Run from a state, `x` ends well as `ok` says or halts as `halt` says. -/
def Does (x : ExceptT ε (StateM τ) α) (st : τ) (ok : α → τ → Prop) (halt : ε → τ → Prop) : Prop :=
  match exec x st with
  | (.ok a, st') => ok a st'
  | (.error e, st') => halt e st'

section

variable {x : ExceptT ε (StateM τ) α} {f : α → ExceptT ε (StateM τ) β} {st st₁ : τ}
  {ok ok₁ : α → τ → Prop} {ok' : β → τ → Prop} {halt halt' : ε → τ → Prop} {a : α} {e : ε}

/-- An end that is known is as required. -/
theorem does_of_ok (hx : exec x st = (.ok a, st₁)) (h : ok a st₁) : Does x st ok halt := by
  rw [Does, hx]
  exact h

/-- A halt that is known is as required. -/
theorem does_of_error (hx : exec x st = (.error e, st₁)) (h : halt e st₁) :
    Does x st ok halt := by
  rw [Does, hx]
  exact h

theorem does_of_state {inv : τ → Prop} (h : inv (exec x st).2) :
    Does x st (fun _ => inv) fun _ => inv := by
  rw [Does]
  rcases hx : exec x st with ⟨_ | _, _⟩ <;> rwa [hx] at h

/-- What ends well ends as required. -/
theorem Does.of_ok (h : Does x st ok halt) (hx : exec x st = (.ok a, st₁)) : ok a st₁ := by
  rwa [Does, hx] at h

/-- What halts halts as required. -/
theorem Does.of_error (h : Does x st ok halt) (hx : exec x st = (.error e, st₁)) : halt e st₁ := by
  rwa [Does, hx] at h

theorem Does.pure (h : ok a st) : Does (Pure.pure a : ExceptT ε (StateM τ) α) st ok halt := h

/-- An end may be required to be less. -/
theorem Does.mono (h : Does x st ok halt) (hok : ∀ a st', ok a st' → ok₁ a st')
    (hhalt : ∀ e st', halt e st' → halt' e st') : Does x st ok₁ halt' := by
  match hx : exec x st with
  | (.ok a, st') => exact does_of_ok hx (hok _ _ (h.of_ok hx))
  | (.error e, st') => exact does_of_error hx (hhalt _ _ (h.of_error hx))

/-- An end may meet two requirements. -/
theorem Does.and (h : Does x st ok halt) (h' : Does x st ok₁ halt') :
    Does x st (fun a st' => ok a st' ∧ ok₁ a st') fun e st' => halt e st' ∧ halt' e st' := by
  match hx : exec x st with
  | (.ok a, st') => exact does_of_ok hx ⟨h.of_ok hx, h'.of_ok hx⟩
  | (.error e, st') => exact does_of_error hx ⟨h.of_error hx, h'.of_error hx⟩

/-- A sequence does what its second part does from wherever the first part ends well, or halts as
the first part does. -/
theorem Does.bind (hx : Does x st ok halt) (hf : ∀ a st', ok a st' → Does (f a) st' ok' halt) :
    Does (x >>= f) st ok' halt := by
  match hx' : exec x st with
  | (.ok a, st') =>
    rw [Does, exec_bind_ok hx']
    exact hf a st' (hx.of_ok hx')
  | (.error e, st') => exact does_of_error (by rw [exec_bind, hx']) (hx.of_error hx')

/-- All that counts is what a run comes to. -/
theorem Does.congr {y : ExceptT ε (StateM τ) α} (h : Does y st ok halt)
    (hxy : exec x st = exec y st) : Does x st ok halt := by
  rwa [Does, hxy]

/-- The first part of a sequence has ended well. -/
theorem Does.step (hx : exec x st = (.ok a, st₁)) (hf : Does (f a) st₁ ok' halt) :
    Does (x >>= f) st ok' halt := by
  rwa [Does, exec_bind_ok hx]

end

/-- Nodes are entered one after another, or the walk halts at the first one that cannot be. -/
theorem does_enter {h : Hooks σ} {n : NodeId} {st : WalkState σ} (ok : Unit → WalkState σ → Prop)
    {halt : Halt → WalkState σ → Prop}
    (hok : st.scene.program.has n = true → st.trail.seen.contains n = false →
      ok () { st with trail :=
      ⟨n :: st.trail.path, st.trail.seen.insert n, st.trail.tally.count n.step⟩ })
    (hmissing : st.scene.program.has n = false →
      halt (.defect (.during h.pass n .missingNode)) st)
    (hcycle : st.trail.seen.contains n = true → n ∈ st.trail.path →
      halt (.defect (.during h.pass n .cycle)) st)
    (hshared : st.trail.seen.contains n = true → n ∉ st.trail.path →
      halt (.defect (.during h.pass n .sharedNode)) st) :
    Does (enter h n) st ok halt := by
  have hexec := exec_enter h n st
  by_cases hhas : st.scene.program.has n = true
  · rw [if_pos hhas, Trail.enter] at hexec
    by_cases hseen : st.trail.seen.contains n = true
    · rw [if_pos hseen] at hexec
      by_cases hpath : n ∈ st.trail.path
      · rw [if_pos hpath] at hexec
        exact does_of_error hexec (hcycle hseen hpath)
      · rw [if_neg hpath] at hexec
        exact does_of_error hexec (hshared hseen hpath)
    · rw [if_neg hseen] at hexec
      exact does_of_ok hexec (hok hhas (by simpa using hseen))
  · rw [if_neg hhas] at hexec
    exact does_of_error hexec (hmissing (by simpa using hhas))

end MiddleEnd.Walk
