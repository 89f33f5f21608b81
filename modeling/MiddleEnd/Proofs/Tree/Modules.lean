import Mathlib.Data.List.Perm.Basic
import MiddleEnd.Proofs.Tree.Unfold

/-!
# MiddleEnd.Proofs.Tree.Modules

The trees of several modules.  Modules that unfold to trees do so one by one (`Unfolds.mem`), part
by part (`Unfolds.append`) and in any order (`Unfolds.perm`): that no node is shared is a matter of
which modules they are, not of which comes first.
-/

namespace MiddleEnd.Program

open MiddleEnd.Tree

variable {p : Program} {modules others : List ModuleId} {ts us : List Tree} {m : ModuleId}

/-- Trees in another order have the same subtrees. -/
theorem subtreesOf_perm (h : ts.Perm us) : (subtreesOf ts).Perm (subtreesOf us) := by
  induction h with
  | nil => exact .refl _
  | @cons t ts us _ ih =>
    rw [subtreesOf_cons t ts, subtreesOf_cons t us]
    exact ih.append_left _
  | swap t u ts =>
    rw [subtreesOf_cons u (t :: ts), subtreesOf_cons t ts, subtreesOf_cons t (u :: ts),
      subtreesOf_cons u ts]
    exact List.perm_append_comm_assoc _ _ _
  | trans _ _ ih ih' => exact ih.trans ih'

/-- Modules in another order are the same trees in another order. -/
theorem Unfolds.perm (h : p.Unfolds modules ts) (hperm : modules.Perm others) :
    ∃ us, p.Unfolds others us := by
  have hsame : ∀ ts : List Tree, List.Forall₂ (fun n t => t.id = n) (ts.map Tree.id) ts := by
    intro ts
    rw [List.forall₂_map_left_iff]
    exact List.forall₂_same.mpr fun _ _ => rfl
  have hmap : ∀ {ns : List NodeId} {us : List Tree}, List.Forall₂ (fun n t => t.id = n) ns us →
      us.map Tree.id = ns := by
    intro ns us h
    induction h with
    | nil => rfl
    | cons hid _ ih => rw [List.map_cons, hid, ih]
  have hroots : (others.map NodeId.module).Perm (ts.map Tree.id) := by
    rw [h.roots]
    exact (hperm.map _).symm
  obtain ⟨us, hus, hperm⟩ := List.perm_comp_forall₂ hroots (hsame ts)
  have hsub := subtreesOf_perm hperm
  exact ⟨us, hmap hus, fun u hu => h.bears u (hsub.mem_iff.mp hu),
    (hsub.map Tree.id).nodup_iff.mpr h.nodup⟩

/-- The trees of some modules and of others. -/
theorem Unfolds.append (h : p.Unfolds (modules ++ others) ts) :
    ∃ us vs, ts = us ++ vs ∧ p.Unfolds modules us ∧ p.Unfolds others vs := by
  obtain ⟨us, vs, rfl, hus, hvs⟩ := List.map_eq_append_iff.mp (h.roots.trans List.map_append)
  obtain ⟨hbus, hbvs⟩ := bears_append.mp h.bears
  obtain ⟨hnus, hnvs, _⟩ := nodup_append.mp h.nodup
  exact ⟨us, vs, rfl, ⟨hus, hbus, hnus⟩, hvs, hbvs, hnvs⟩

/-- The trees of modules start with that of the first. -/
theorem Unfolds.cons (h : p.Unfolds (m :: modules) ts) :
    ∃ t us, ts = t :: us ∧ p.Unfolds [m] [t] ∧ p.Unfolds modules us := by
  rw [← List.singleton_append] at h
  obtain ⟨us, vs, rfl, hus, hvs⟩ := h.append
  obtain ⟨t, rfl⟩ : ∃ t, us = [t] := List.length_eq_one_iff.mp (by
    simpa using congrArg List.length hus.roots)
  exact ⟨t, vs, rfl, hus, hvs⟩

/-- Each of the modules is a tree. -/
theorem Unfolds.mem (h : p.Unfolds modules ts) (hm : m ∈ modules) : ∃ t, p.Unfolds [m] [t] := by
  obtain ⟨before, after, rfl⟩ := List.append_of_mem hm
  obtain ⟨_, _, _, _, hrest⟩ := h.append
  obtain ⟨t, _, _, ht, _⟩ := hrest.cons
  exact ⟨t, ht⟩

end MiddleEnd.Program
