import MiddleEnd.Config

/-!
# MiddleEnd.Proofs.Config

Which settings can be shown.  A document has no place for the largest numbers, nor for a text in
which too many quotes follow each other; all other settings are a text (`exists_text_iff`), whatever
else they say, and how much is told is no part of it.
-/

namespace MiddleEnd.Config

open Toml (Scalar)

/-- Nothing in the settings is too large for a document. -/
structure Showable (c : Config) : Prop where
  max : ∀ n ∈ c.memory.max, n.toNat < Nat.pow 2 63
  threshold : ∀ n ∈ c.memory.threshold, n.toNat < Nat.pow 2 63
  trace : ∀ path ∈ c.memory.trace, Toml.isCountable path.toList = true
  vars : ∀ x ∈ c.vars, Toml.isCountable x.2.toList = true

/-! ## Numbers -/

/-- A size below `2 ^ 63` is written as a number. -/
theorem sizeEntry_of_fits (key : String) {n : Option UInt64}
    (h : ∀ k ∈ n, k.toNat < Nat.pow 2 63) :
    entry? key size? n = .ok (n.toList.map fun k => (key, .integer k.toNat)) := by
  cases n with
  | none => rfl
  | some k =>
    rw [ entry?, size?, if_pos (h k rfl)]
    rfl

/-- A size that no signed number holds is refused. -/
theorem sizeEntry_of_large (key : String) {n : Option UInt64}
    (h : ¬ ∀ k ∈ n, k.toNat < Nat.pow 2 63) : entry? key size? n = .error .outOfRange := by
  cases n with
  | none => exact absurd nofun h
  | some k =>
    have hk : ¬ k.toNat < Nat.pow 2 63 := fun hk => h fun j hj => Option.mem_some_iff.mp hj ▸ hk
    rw [ entry?, size?, if_neg hk]
    rfl

/-- A text is always written. -/
theorem textEntry_eq (key : String) (text : Option String) :
    entry? key (fun text => .ok (.text text)) text =
      .ok (text.toList.map fun text => (key, .text text)) := by
  cases text <;> rfl

/-- The lines about memory, if there is a place for its numbers. -/
def memoryLines (m : Memory) : List (String × Scalar) :=
  m.max.toList.map (fun n => ("max", .integer n.toNat)) ++
    [("stat", .bool m.stat), ("final_stat", .bool m.finalStat), ("track", .bool m.track)] ++
    m.threshold.toList.map (fun n => ("threshold", .integer n.toNat)) ++
    m.trace.toList.map fun path => ("trace", .text path)

/-- Limits that fit are written as they are. -/
theorem memoryEntries_of_fits {m : Memory} (hmax : ∀ n ∈ m.max, n.toNat < Nat.pow 2 63)
    (hthreshold : ∀ n ∈ m.threshold, n.toNat < Nat.pow 2 63) :
    memoryEntries m = .ok (memoryLines m) := by
  rw [memoryEntries, sizeEntry_of_fits _ hmax, sizeEntry_of_fits _ hthreshold, textEntry_eq]
  rfl

/-- One limit that does not fit is enough to be refused. -/
theorem memoryEntries_of_large {m : Memory}
    (h : (∀ n ∈ m.max, n.toNat < Nat.pow 2 63) → ¬ ∀ n ∈ m.threshold, n.toNat < Nat.pow 2 63) :
    memoryEntries m = .error .outOfRange := by
  by_cases hmax : ∀ n ∈ m.max, n.toNat < Nat.pow 2 63
  · rw [memoryEntries, sizeEntry_of_fits _ hmax, sizeEntry_of_large _ (h hmax)]
    rfl
  · rw [memoryEntries, sizeEntry_of_large _ hmax]
    rfl

/-! ## Texts -/

theorem isCountable_verbosity (v : Verbosity) : Toml.isCountable v.text.toList = true := by
  cases v <;> decide

/-- Sections are a text exactly if all of their values can be written. -/
theorem exists_text_of_sections {c : Config} {sections : List Toml.Section}
    (h : c.sections = .ok sections) :
    (∃ text, c.text = .ok text) ↔ sections.all Toml.Section.isWritable = true := by
  rw [text, h]
  simp only [bind, Except.bind, Toml.write?]
  by_cases hall : sections.all Toml.Section.isWritable = true
  · rw [if_pos hall]
    exact ⟨fun _ => hall, fun _ => ⟨_, rfl⟩⟩
  · rw [if_neg hall]
    exact ⟨fun ⟨_, htext⟩ => (by cases htext), fun h => absurd h hall⟩

/-- With numbers that fit, it depends on the texts. -/
theorem exists_text_of_fits {c : Config} (hmax : ∀ n ∈ c.memory.max, n.toNat < Nat.pow 2 63)
    (hthreshold : ∀ n ∈ c.memory.threshold, n.toNat < Nat.pow 2 63) :
    (∃ text, c.text = .ok text) ↔
      (∀ path ∈ c.memory.trace, Toml.isCountable path.toList = true) ∧
        ∀ x ∈ c.vars, Toml.isCountable x.2.toList = true := by
  have hsections : c.sections = .ok [⟨none, [("num_locales", .integer c.numLocales.toNat),
      ("verbosity", .text c.verbosity.text), ("gdb", .bool c.gdb),
      ("block_report", .bool c.blockReport), ("task_report", .bool c.taskReport)]⟩,
      ⟨some "memory", memoryLines c.memory⟩,
      ⟨some "config_vars", c.vars.map fun x => (x.1, .text x.2)⟩] := by
    rw [sections, memoryEntries_of_fits hmax hthreshold]
    rfl
  rw [exists_text_of_sections hsections]
  simp [Toml.Section.isWritable, Scalar.isWritable, memoryLines, isCountable_verbosity]

/-- Settings are a text exactly if nothing in them is too large for one. -/
theorem exists_text_iff {c : Config} : (∃ text, c.text = .ok text) ↔ c.Showable := by
  constructor
  · rintro ⟨text, htext⟩
    have hfits : (∀ n ∈ c.memory.max, n.toNat < Nat.pow 2 63) ∧
        ∀ n ∈ c.memory.threshold, n.toNat < Nat.pow 2 63 := by
      refine Classical.byContradiction fun hlarge => ?_
      rw [Config.text, sections, memoryEntries_of_large (not_and.mp hlarge)] at htext
      cases htext
    obtain ⟨htrace, hvars⟩ := (exists_text_of_fits hfits.1 hfits.2).mp ⟨text, htext⟩
    exact ⟨hfits.1, hfits.2, htrace, hvars⟩
  · intro h
    exact (exists_text_of_fits h.max h.threshold).mpr ⟨h.trace, h.vars⟩

/-- How much is told does not decide over what can be shown. -/
theorem showable_verbosity {c : Config} (v : Verbosity) :
    ({ c with verbosity := v } : Config).Showable ↔ c.Showable :=
  ⟨fun h => ⟨h.max, h.threshold, h.trace, h.vars⟩, fun h => ⟨h.max, h.threshold, h.trace, h.vars⟩⟩

end MiddleEnd.Config
