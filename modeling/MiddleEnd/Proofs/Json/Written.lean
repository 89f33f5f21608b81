import MiddleEnd.Proofs.Json.Reading

/-!
# MiddleEnd.Proofs.Json.Written

What is written is JSON.  A value that was written, on one line or over several, stands for the
document that it is (`Json.spelled_compact`, `Json.spelled_pretty`), if every number in it can be
read as it was written (`Json.IsExact`).
-/

namespace MiddleEnd.Json

mutual

/-- Every number in a value is read as it was written. -/
def IsExact : Json → Prop
  | .int n => Exact n
  | .arr items => ItemsExact items
  | .obj members => MembersExact members
  | .null => True
  | .bool _ => True
  | .str _ => True

/-- Every number in the items is read as it was written. -/
def ItemsExact : List Json → Prop
  | [] => True
  | item :: rest => IsExact item ∧ ItemsExact rest

/-- Every number in the members is read as it was written. -/
def MembersExact : List (String × Json) → Prop
  | [] => True
  | (_, value) :: rest => IsExact value ∧ MembersExact rest

end

/-- Items are exact if each of them is. -/
theorem itemsExact_iff {items : List Json} : ItemsExact items ↔ ∀ item ∈ items, item.IsExact := by
  induction items with
  | nil => simp [ItemsExact]
  | cons item items ih => simp [ItemsExact, ih]

mutual

/-- The document that a value is read as. -/
def document : Json → Document
  | .null => .null
  | .bool b => .bool b
  | .int n => .number (.whole n)
  | .str s => .text s
  | .arr items => .arr (itemDocuments items) none
  | .obj members => .obj (memberDocuments members) none

/-- The documents that items are read as. -/
def itemDocuments : List Json → List Document
  | [] => []
  | item :: rest => document item :: itemDocuments rest

/-- The documents that members are read as. -/
def memberDocuments : List (String × Json) → List (Document × Document)
  | [] => []
  | (key, value) :: rest => (.text key, document value) :: memberDocuments rest

end

/-- The items of a document are the documents of the items. -/
theorem itemDocuments_eq (items : List Json) : itemDocuments items = items.map document := by
  induction items with
  | nil => rfl
  | cons item items ih => rw [itemDocuments, ih, List.map_cons]

/-- The members of a document are the documents of the members under their names. -/
theorem memberDocuments_eq (members : List (String × Json)) :
    memberDocuments members = members.map fun member => (.text member.1, document member.2) := by
  induction members with
  | nil => rfl
  | cons member members ih => rw [memberDocuments, ih, List.map_cons]

/-! ## Texts -/

/-- A hexadecimal digit is read as the number it was written for. -/
theorem hexDigit?_hexDigit (n : Nat) : LexState.hexDigit? (hexDigit n) = some (n % 16) := by
  have hall : ∀ d < 16, LexState.hexDigit? (Nat.digitChar d) = some d := by decide
  exact hall _ (Nat.mod_lt _ (by decide))

/-- A character is written in one of the ways that stand for it. -/
theorem spellsChar_escapeChar (c : Char) : SpellsChar c (escapeChar c) := by
  unfold escapeChar
  split
  iterate 7 exact .short (by decide)
  · next hquote hslash _ _ _ _ _ =>
    split
    · next hc =>
      have hcode : SpellsCode _ ['0', '0', hexDigit (c.toNat / 16), hexDigit c.toNat] :=
        .digits (hexDigit?_hexDigit 0) (hexDigit?_hexDigit 0) (hexDigit?_hexDigit (c.toNat / 16))
          (hexDigit?_hexDigit c.toNat)
      have hvalue :
          ((0 % 16 * 16 + 0 % 16) * 16 + c.toNat / 16 % 16) * 16 + c.toNat % 16 = c.toNat := by
        omega
      have hspells := SpellsChar.code (hvalue ▸ hcode) (.inl (by omega))
      rwa [Char.ofNat_toNat] at hspells
    · next hc => exact .itself hquote hslash (Nat.not_lt.mp hc)

/-- The characters written for a text spell it. -/
theorem spellsText_textChars (s : String) : SpellsText s (textChars s) := by
  have hchars : ∀ cs : List Char, SpellsChars cs (cs.flatMap escapeChar) := by
    intro cs
    induction cs with
    | nil => exact .nil
    | cons c cs ih => exact .cons (spellsChar_escapeChar c) ih
  exact .quoted (hchars s.toList)

/-! ## Blanks -/

theorem Blanks.nil : Blanks [] := nofun

theorem blanks_space : Blanks [' '] := by simp [Blanks]

/-- A new line and what indents it are blanks. -/
theorem blanks_newline (level : Nat) : Blanks (newline level) := by
  intro c hc
  rcases List.mem_cons.mp hc with rfl | hc
  · decide
  · rw [(List.mem_replicate.mp hc).2]
    decide

section

variable {name : String} {d : Document} {before cs after : List Char}

theorem Spells.bare (h : Spells (.value d) cs) : Spells (.padded d) cs := by
  have hpadded := Spells.padded .nil h .nil
  rwa [List.append_nil] at hpadded

/-- Blanks may stand in front of a value. -/
theorem Spells.behind (hbefore : Blanks before) (h : Spells (.value d) cs) :
    Spells (.padded d) (before ++ cs) := by
  have hpadded := Spells.padded hbefore h .nil
  rwa [List.append_nil] at hpadded

/-- A name with blanks in front of it and none behind it. -/
theorem spells_key (hbefore : Blanks before) (name : String) :
    Spells (.key name) (before ++ textChars name) := by
  have hkey := Spells.key hbefore (spellsText_textChars name) .nil
  rwa [List.append_nil] at hkey

end

/-- A number that fits is spelled by its decimal digits. -/
theorem spells_int {n : Int} (hn : Exact n) : Spells (.value (.number (.whole n))) n.repr.toList :=
  numberDocument_repr hn ▸ Spells.number (numberText_repr n)

/-! ## On one line -/

mutual

/-- The compact text of a value spells it. -/
theorem spells_compactChars : ∀ {j : Json}, j.IsExact → Spells (.value j.document) (compactChars j)
  | .null, _ => .null
  | .bool b, _ => .bool b
  | .int _, hexact => spells_int hexact
  | .str s, _ => .text (spellsText_textChars s)
  | .arr [], _ => .emptyArr .nil
  | .arr (_ :: _), hexact => .arr (spells_compactItems nofun hexact)
  | .obj [], _ => .emptyObj .nil
  | .obj (_ :: _), hexact => .obj (spells_compactMembers nofun hexact)

/-- The compact text of items spells them. -/
theorem spells_compactItems : ∀ {items : List Json}, items ≠ [] → ItemsExact items →
    Spells (.items (itemDocuments items)) (compactItems items)
  | [], hne, _ => absurd rfl hne
  | [_], _, hexact => .lastItem (spells_compactChars hexact.1).bare
  | _ :: _ :: _, _, hexact =>
    .item (spells_compactChars hexact.1).bare (spells_compactItems nofun hexact.2)

/-- The compact text of members spells them. -/
theorem spells_compactMembers : ∀ {members : List (String × Json)}, members ≠ [] →
    MembersExact members → Spells (.members (memberDocuments members)) (compactMembers members)
  | [], hne, _ => absurd rfl hne
  | [(key, _)], _, hexact => .lastMember (spells_key .nil key) (spells_compactChars hexact.1).bare
  | (key, _) :: _ :: _, _, hexact =>
    .member (spells_key .nil key) (spells_compactChars hexact.1).bare
      (spells_compactMembers nofun hexact.2)

end

/-- What is written on one line stands for the document that it is. -/
theorem spelled_compact {j : Json} (hexact : j.IsExact) : Spelled j.document j.compact := by
  rw [Spelled, compact, String.toList_ofList]
  exact (spells_compactChars hexact).bare

/-! ## Over several lines -/

mutual

/-- The indented text of a value spells it, at every level. -/
theorem spells_prettyChars (level : Nat) : ∀ {j : Json}, j.IsExact →
    Spells (.value j.document) (prettyChars level j)
  | .null, _ => .null
  | .bool b, _ => .bool b
  | .int _, hexact => spells_int hexact
  | .str s, _ => .text (spellsText_textChars s)
  | .arr [], _ => .emptyArr .nil
  | .arr (_ :: _), hexact =>
    .arr (spells_prettyItems (level + 1) (blanks_newline level) nofun hexact)
  | .obj [], _ => .emptyObj .nil
  | .obj (_ :: _), hexact =>
    .obj (spells_prettyMembers (level + 1) (blanks_newline level) nofun hexact)

/-- The blanks behind the last item belong to it. -/
theorem spells_prettyItems (level : Nat) {after : List Char} (hafter : Blanks after) :
    ∀ {items : List Json}, items ≠ [] → ItemsExact items →
    Spells (.items (itemDocuments items)) (prettyItems level items ++ after)
  | [], hne, _ => absurd rfl hne
  | [_], _, hexact =>
    .lastItem (.padded (blanks_newline level) (spells_prettyChars level hexact.1) hafter)
  | _ :: _ :: _, _, hexact => by
    rw [prettyItems, List.append_assoc, List.cons_append]
    · exact .item (.behind (blanks_newline level) (spells_prettyChars level hexact.1))
        (spells_prettyItems level hafter nofun hexact.2)
    · simp

/-- The indented text of members spells them, with the blanks in front of the brace. -/
theorem spells_prettyMembers (level : Nat) {after : List Char} (hafter : Blanks after) :
    ∀ {members : List (String × Json)}, members ≠ [] → MembersExact members →
    Spells (.members (memberDocuments members)) (prettyMembers level members ++ after)
  | [], hne, _ => absurd rfl hne
  | [(key, _)], _, hexact => by
    have hvalue := Spells.padded blanks_space (spells_prettyChars level hexact.1) hafter
    rw [prettyMembers, List.append_assoc, List.cons_append]
    exact .lastMember (spells_key (blanks_newline level) key) hvalue
  | (key, _) :: _ :: _, _, hexact => by
    have hvalue := Spells.behind blanks_space (spells_prettyChars level hexact.1)
    rw [prettyMembers, List.append_assoc, List.cons_append]
    · exact .member (spells_key (blanks_newline level) key) hvalue
        (spells_prettyMembers level hafter nofun hexact.2)
    · simp

end

/-- What is written over several lines stands for the document that it is. -/
theorem spelled_pretty {j : Json} (hexact : j.IsExact) : Spelled j.document j.pretty := by
  rw [Spelled, pretty, String.toList_ofList]
  exact (spells_prettyChars 0 hexact).bare

end MiddleEnd.Json
