import MiddleEnd.Proofs.Walk.Forest

/-!
# MiddleEnd.Proofs.Walk.Survey

The walk that does nothing but walk, over modules in order on one trail.  Where it ends well, the
modules are trees (`trees_of_survey`).
-/

namespace MiddleEnd

open MiddleEnd.Tree

namespace Walk

/-- A pass that does nothing. -/
def silent : Observer Unit where
  pass := "silent"

/-- Walk modules in order on a new trail, without doing anything. -/
def survey (modules : List ModuleId) (p : Program) : Except Halt Unit :=
  (exec (modules.forM fun m => run silent.toHooks (.module m)) ⟨.start, ⟨p, ()⟩⟩).1

variable {σ : Type}

/-- Modules that a pass which looks has walked are trees. -/
theorem through_of_modules {o : Observer σ} : ∀ {modules : List ModuleId} {st st' : WalkState σ},
    exec (modules.forM fun m => run o.toHooks (.module m)) st = (.ok (), st') →
    ∃ ts, ts.map Tree.id = modules.map .module ∧ Through st st' ts
  | [], st, st', hok => by
    cases hok
    exact ⟨[], rfl, .refl st⟩
  | m :: modules, st, st', hok => by
    obtain ⟨_, st₁, h₁, hok⟩ := ok_of_exec_bind hok
    obtain ⟨ts, hts, ht⟩ := forest_of_ok o (.module m) st st₁ _ rfl h₁
    obtain ⟨us, hus, hu⟩ := through_of_modules hok
    exact ⟨ts ++ us, by rw [List.map_append, hts, hus]; rfl, ht.trans hu⟩

/-- Modules that were surveyed without a defect are trees. -/
theorem trees_of_survey {modules : List ModuleId} {p : Program}
    (hok : survey modules p = .ok ()) : ∃ ts, p.Unfolds modules ts := by
  match hx : exec (modules.forM fun m => run silent.toHooks (.module m)) ⟨.start, ⟨p, ()⟩⟩ with
  | (.ok (), st') =>
    obtain ⟨ts, hroots, hthrough⟩ := through_of_modules hx
    exact ⟨ts, hroots, hthrough.bears, hthrough.nodup⟩
  | (.error halt, st') =>
    rw [survey, hx] at hok
    cases hok

end Walk

end MiddleEnd
