import MiddleEnd.Json.Value

/-!
# MiddleEnd.Proofs.Json.OneLine

What is written compactly stands on one line, whatever texts are in it: there is no control
character in it at all (`Json.oneLine_compactChars`), because an escape takes the place of each.
-/

namespace MiddleEnd.Json

/-- There is no control character in a text, and so no newline. -/
def OneLine (cs : List Char) : Prop := ∀ c ∈ cs, 0x20 ≤ c.toNat

section

variable {c : Char} {cs ds : List Char}

@[simp] theorem oneLine_nil : OneLine [] := nofun

@[simp] theorem oneLine_cons : OneLine (c :: cs) ↔ 0x20 ≤ c.toNat ∧ OneLine cs :=
  List.forall_mem_cons

/-- Two texts are on one line together if each is. -/
@[simp] theorem oneLine_append : OneLine (cs ++ ds) ↔ OneLine cs ∧ OneLine ds :=
  List.forall_mem_append

end

/-! ## Texts and numbers -/

/-- Hexadecimal digits do not break a line. -/
theorem le_hexDigit (n : Nat) : 0x20 ≤ (hexDigit n).toNat := by
  have hall : ∀ d < 16, 0x20 ≤ (Nat.digitChar d).toNat := by decide
  exact hall _ (Nat.mod_lt _ (by decide))

/-- Characters that break a line are escaped, whatever they are. -/
theorem oneLine_escapeChar (c : Char) : OneLine (escapeChar c) := by
  unfold escapeChar
  split
  iterate 7 simp
  · split
    · simp [le_hexDigit]
    · next hc => simpa using hc

/-- A text is written on one line. -/
theorem oneLine_textChars (text : String) : OneLine (textChars text) := by
  have hchars : OneLine (text.toList.flatMap escapeChar) := fun d hd => by
    obtain ⟨c, _, hd⟩ := List.mem_flatMap.mp hd
    exact oneLine_escapeChar c d hd
  simp [textChars, hchars]

/-- Decimal digits stay on one line. -/
theorem oneLine_toDigits (n : Nat) : OneLine (Nat.toDigits 10 n) := fun c hc => by
  have hdigit := Nat.isDigit_of_mem_toDigits (by decide) (Nat.le_refl 10) hc
  simp only [Char.isDigit, Bool.and_eq_true, decide_eq_true_eq] at hdigit
  have hle := UInt32.le_iff_toNat_le.mp hdigit.1
  exact Nat.le_trans (by decide) hle

/-- A number is written on one line, with its sign. -/
theorem oneLine_repr (n : Int) : OneLine n.repr.toList := by
  cases n with
  | ofNat n => simp [Int.repr, Nat.repr, oneLine_toDigits]
  | negSucc n => simp [Int.repr, Nat.repr, oneLine_toDigits]

/-! ## Values -/

mutual

/-- A document is written on one line. -/
theorem oneLine_compactChars : ∀ j : Json, OneLine (compactChars j)
  | .null => by simp [compactChars, nullChars]
  | .bool b => by cases b <;> simp [compactChars, boolChars]
  | .int n => oneLine_repr n
  | .str s => oneLine_textChars s
  | .arr items => by simp [compactChars, oneLine_compactItems items]
  | .obj members => by simp [compactChars, oneLine_compactMembers members]

/-- Items are written on one line. -/
theorem oneLine_compactItems : ∀ items : List Json, OneLine (compactItems items)
  | [] => oneLine_nil
  | [item] => oneLine_compactChars item
  | item :: next :: rest => by
    simp [compactItems, oneLine_compactChars item, oneLine_compactItems (next :: rest)]

/-- Members are written on one line. -/
theorem oneLine_compactMembers : ∀ members : List (String × Json), OneLine (compactMembers members)
  | [] => oneLine_nil
  | [(key, value)] => by
    simp [compactMembers, oneLine_textChars key, oneLine_compactChars value]
  | (key, value) :: next :: rest => by
    simp [compactMembers, oneLine_textChars key, oneLine_compactChars value,
      oneLine_compactMembers (next :: rest)]

end

end MiddleEnd.Json
