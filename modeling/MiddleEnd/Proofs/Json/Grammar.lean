import MiddleEnd.Json.Document
import MiddleEnd.Json.Value

/-!
# MiddleEnd.Proofs.Json.Grammar

Which texts are JSON, and what they stand for.  The grammar is strict: no comma behind the last
item, no zero in front of a number, no character of a text below `0x20` as itself, no half of a
surrogate pair.  What it leaves open is all that a writer may choose: blanks around every token, any
of the escapes of a character, any way to write a number that is not whole.

A text stands for a document without damage in it (`Json.Spelled`).  What the reader makes of texts
is not mentioned here, but for the value of a hexadecimal digit, and for numbers, which stand for
what they are read as (`Json.numberDocument`).
-/

namespace MiddleEnd.Json

/-- Characters that mean nothing between two tokens. -/
def Blanks (cs : List Char) : Prop := ∀ c ∈ cs, c ∈ [' ', '\n', '\t', '\r']

/-! ## Texts -/

/-- A character given by its number, as four hexadecimal digits. -/
inductive SpellsCode : Nat → List Char → Prop where
  | digits {a b c d : Char} {w x y z : Nat} (ha : LexState.hexDigit? a = some w)
      (hb : LexState.hexDigit? b = some x) (hc : LexState.hexDigit? c = some y)
      (hd : LexState.hexDigit? d = some z) :
      SpellsCode (((w * 16 + x) * 16 + y) * 16 + z) [a, b, c, d]

/-- The characters that have an escape of one letter, with that letter. -/
def shortEscapes : List (Char × Char) :=
  [('"', '"'), ('\\', '\\'), ('/', '/'), ('\x08', 'b'), ('\x0c', 'f'), ('\n', 'n'), ('\r', 'r'),
    ('\t', 't')]

/-- The ways to write a character in a text. -/
inductive SpellsChar : Char → List Char → Prop where
  | itself {c : Char} (hquote : c ≠ '"') (hslash : c ≠ '\\') (hc : 0x20 ≤ c.toNat) :
      SpellsChar c [c]
  | short {c letter : Char} (h : (c, letter) ∈ shortEscapes) : SpellsChar c ['\\', letter]
  | code {n : Nat} {cs : List Char} (hcs : SpellsCode n cs) (hn : n < 0xD800 ∨ 0xE000 ≤ n) :
      SpellsChar (Char.ofNat n) ('\\' :: 'u' :: cs)
  /-- Two codes for one character outside the basic plane. -/
  | pair {lead trail : Nat} {cs cs' : List Char} (hcs : SpellsCode lead cs)
      (hlead : 0xD800 ≤ lead ∧ lead < 0xDC00) (hcs' : SpellsCode trail cs')
      (htrail : 0xDC00 ≤ trail ∧ trail < 0xE000) :
      SpellsChar (Char.ofNat (0x10000 + (lead - 0xD800) * 0x400 + (trail - 0xDC00)))
        ('\\' :: 'u' :: cs ++ '\\' :: 'u' :: cs')

/-- The ways to write characters one after another. -/
inductive SpellsChars : List Char → List Char → Prop where
  | nil : SpellsChars [] []
  | cons {c : Char} {cs written rest : List Char} (hc : SpellsChar c written)
      (hcs : SpellsChars cs rest) : SpellsChars (c :: cs) (written ++ rest)

/-- The ways to write a text, with the quotes around it. -/
inductive SpellsText : String → List Char → Prop where
  | quoted {text : String} {cs : List Char} (hcs : SpellsChars text.toList cs) :
      SpellsText text ('"' :: cs ++ ['"'])

/-! ## Numbers -/

/-- One digit or more. -/
def Digits (cs : List Char) : Prop := cs ≠ [] ∧ ∀ c ∈ cs, c.isDigit

/-- What stands before the point: a zero, or digits that do not begin with one. -/
def WholePart (cs : List Char) : Prop := cs = ['0'] ∨ Digits cs ∧ cs.head? ≠ some '0'

/-- What stands behind the whole part: nothing, or a point and digits. -/
def FractionPart (cs : List Char) : Prop := cs = [] ∨ ∃ digits, Digits digits ∧ cs = '.' :: digits

/-- How a number ends: with nothing more, or with an exponent. -/
def ExponentPart (cs : List Char) : Prop :=
  cs = [] ∨ ∃ mark ∈ ['e', 'E'], ∃ sign ∈ [[], ['+'], ['-']], ∃ digits, Digits digits ∧
    cs = mark :: sign ++ digits

/-- The ways to write a number. -/
inductive NumberText : List Char → Prop where
  | parts {sign whole fraction exponent : List Char} (hsign : sign = [] ∨ sign = ['-'])
      (hwhole : WholePart whole) (hfraction : FractionPart fraction)
      (hexponent : ExponentPart exponent) : NumberText (sign ++ whole ++ fraction ++ exponent)

/-- What a number is read as. One that is too large for a double is no value, but it can be
skipped. -/
def numberDocument (cs : List Char) : Document :=
  match tokens cs with
  | [.number n] => .number n
  | _ => .wreck ⟨.number, .malformed, none⟩

/-! ## Values -/

/-- The nonterminals of the grammar, each with what it stands for. -/
inductive Phrase where
  | value (d : Document)
  /-- A value with blanks around it. -/
  | padded (d : Document)
  /-- The name of a member, with blanks around it. -/
  | key (name : String)
  /-- Items with commas between them, at least one. -/
  | items (ds : List Document)
  /-- Members with commas between them, at least one. -/
  | members (ms : List (Document × Document))

/-- The ways to write a phrase. -/
inductive Spells : Phrase → List Char → Prop where
  | null : Spells (.value .null) nullChars
  | bool (b : Bool) : Spells (.value (.bool b)) (boolChars b)
  | number {cs : List Char} (hcs : NumberText cs) : Spells (.value (numberDocument cs)) cs
  | text {s : String} {cs : List Char} (hcs : SpellsText s cs) : Spells (.value (.text s)) cs
  | emptyArr {blanks : List Char} (hblanks : Blanks blanks) :
      Spells (.value (.arr [] none)) ('[' :: blanks ++ [']'])
  | arr {ds : List Document} {cs : List Char} (hcs : Spells (.items ds) cs) :
      Spells (.value (.arr ds none)) ('[' :: cs ++ [']'])
  | emptyObj {blanks : List Char} (hblanks : Blanks blanks) :
      Spells (.value (.obj [] none)) ('\x7b' :: blanks ++ ['\x7d'])
  | obj {ms : List (Document × Document)} {cs : List Char} (hcs : Spells (.members ms) cs) :
      Spells (.value (.obj ms none)) ('\x7b' :: cs ++ ['\x7d'])
  | padded {d : Document} {before cs after : List Char} (hbefore : Blanks before)
      (hcs : Spells (.value d) cs) (hafter : Blanks after) :
      Spells (.padded d) (before ++ cs ++ after)
  | key {name : String} {before cs after : List Char} (hbefore : Blanks before)
      (hcs : SpellsText name cs) (hafter : Blanks after) :
      Spells (.key name) (before ++ cs ++ after)
  | lastItem {d : Document} {cs : List Char} (hcs : Spells (.padded d) cs) : Spells (.items [d]) cs
  | item {d : Document} {ds : List Document} {cs rest : List Char} (hcs : Spells (.padded d) cs)
      (hrest : Spells (.items ds) rest) : Spells (.items (d :: ds)) (cs ++ ',' :: rest)
  | lastMember {name : String} {d : Document} {key cs : List Char} (hkey : Spells (.key name) key)
      (hcs : Spells (.padded d) cs) : Spells (.members [(.text name, d)]) (key ++ ':' :: cs)
  | member {name : String} {d : Document} {ms : List (Document × Document)}
      {key cs rest : List Char} (hkey : Spells (.key name) key) (hcs : Spells (.padded d) cs)
      (hrest : Spells (.members ms) rest) :
      Spells (.members ((.text name, d) :: ms)) (key ++ ':' :: cs ++ ',' :: rest)

/-- A text that is JSON and stands for a document. -/
def Spelled (d : Document) (text : String) : Prop := Spells (.padded d) text.toList

/-! ## No damage -/

/-- There is no damage in a phrase. -/
def Phrase.Sound : Phrase → Prop
  | .value d | .padded d => d.skip = none
  | .key _ => True
  | .items ds => Document.skipItems ds = none
  | .members ms => Document.skipMembers ms = none

/-- What can be written is whole: there is no damage to be found in it. -/
theorem Spells.sound {phrase : Phrase} {cs : List Char} (h : Spells phrase cs) : phrase.Sound := by
  induction h with
  | null => rfl
  | bool _ => rfl
  | number _ =>
    show (numberDocument _).skip = none
    unfold numberDocument
    split <;> rfl
  | text _ => rfl
  | emptyArr _ => rfl
  | arr _ ih => exact (Option.or_none).trans ih
  | emptyObj _ => rfl
  | obj _ ih => exact (Option.or_none).trans ih
  | padded _ _ _ ih => exact ih
  | key _ _ _ => trivial
  | lastItem _ ih => exact (Option.or_none).trans ih
  | item _ _ ih ihrest =>
    show (Document.skip _).or (Document.skipItems _) = none
    rw [show Document.skip _ = none from ih, Option.none_or]
    exact ihrest
  | lastMember _ _ _ ih => exact (Option.or_none).trans ih
  | member _ _ _ _ ih ihrest =>
    show ((none : Option Damage).or (Document.skip _)).or (Document.skipMembers _) = none
    rw [show Document.skip _ = none from ih, Option.or_none, Option.none_or]
    exact ihrest

/-- What a text stands for has no damage in it. -/
theorem Spelled.skip {d : Document} {text : String} (h : Spelled d text) : d.skip = none := h.sound

end MiddleEnd.Json
