import MiddleEnd.Json.Number

/-!
# MiddleEnd.Json.Token

Cutting a text into JSON tokens, one character after another. A token that can neither be read nor
skipped is the last one; what follows it is ignored.

A character outside the basic plane may be written as two escapes, a surrogate pair. Half a pair
stands for nothing: a text that contains one cannot be read, but cutting it into tokens goes on,
because it can be skipped.

Tokens are those of JSON. What is assumed of the library that the program reads with is where it
stops, and that it takes half a pair like this.
-/

namespace MiddleEnd.Json

/-- The smallest part of a text that means something. -/
inductive Token where
  | openArray
  | closeArray
  | openObject
  | closeObject
  | comma
  | colon
  | null
  | bool (value : Bool)
  | number (value : Number)
  | text (value : String)
  | wreck (w : Wreck)
deriving Repr

/-- What comes next inside a text. -/
inductive TextMode where
  | plain
  /-- A backslash came before. -/
  | escape
  /-- The number of a character, after `\u`: its value so far, how many bytes are missing, and
  whether all of them were digits. `lead` is the first half of a pair, if one came before. -/
  | code (lead : Option Nat) (value missing : Nat) (valid : Bool)
  /-- The first half of a pair came before, whose second half must follow. -/
  | half (lead : Nat)
  /-- After the first half of a pair came a backslash. -/
  | halfEscape (lead : Nat)
deriving DecidableEq, Repr

/-- Where the cutting stands. -/
inductive LexState where
  /-- Between two tokens. -/
  | between
  /-- In a word, of which the characters in `rest` are missing. -/
  | word (token : Token) (rest : List Char)
  | number (n : Numeral)
  /-- In a text, whose characters come latest first. `sound` says that it can be read. -/
  | text (chars : List Char) (sound : Bool) (mode : TextMode)
  /-- Behind a token after which nothing matters. -/
  | stopped
deriving Repr

namespace LexState

/-- The tokens that a character completes, and what comes next. -/
abbrev Step := List Token × LexState

/-- Stop at a value that is no value. -/
def stop (kind : Kind) (damage : Damage) : Step := ([.wreck (.lost kind damage)], .stopped)

/-- The state after the first character of a token. -/
def start (c : Char) : Step :=
  match c with
  | ' ' | '\n' | '\t' | '\r' => ([], .between)
  | '[' => ([.openArray], .between)
  | ']' => ([.closeArray], .between)
  | '\x7b' => ([.openObject], .between)
  | '\x7d' => ([.closeObject], .between)
  | ',' => ([.comma], .between)
  | ':' => ([.colon], .between)
  | 'n' => ([], .word .null ['u', 'l', 'l'])
  | 't' => ([], .word (.bool true) ['r', 'u', 'e'])
  | 'f' => ([], .word (.bool false) ['a', 'l', 's', 'e'])
  | '"' => ([], .text [] true .plain)
  | '-' => ([], .number .minus)
  | c =>
    match Numeral.digit? c with
    | some d => ([], .number (.first false d))
    | none => stop .nothing .malformed

/-- What a word is. -/
def wordKind (token : Token) : Kind :=
  match token with
  | .null => .null
  | _ => .bool

/-- One more character of a word. -/
def stepWord (token : Token) (rest : List Char) (c : Char) : Step :=
  match rest with
  | [] => stop (wordKind token) .malformed
  | [d] => if c = d then ([token], .between) else stop (wordKind token) .malformed
  | d :: rest => if c = d then ([], .word token rest) else stop (wordKind token) .malformed

/-- The token of a number that is complete. -/
def numberToken (n : Numeral) : Token :=
  match n.value? with
  | some value => .number value
  | none => .wreck ⟨.number, .malformed, none⟩

/-- One more character of a number, or the first one behind it. -/
def stepNumber (n : Numeral) (c : Char) : Step :=
  match n.next c with
  | .grow n => ([], .number n)
  | .bad => ([.wreck ⟨.number, .malformed, some .malformed⟩], .stopped)
  | .stop =>
    let (tokens, state) := start c
    (numberToken n :: tokens, state)

/-- The token of a text that is complete. -/
def textToken (chars : List Char) (sound : Bool) : Token :=
  if sound then .text (String.ofList chars.reverse) else .wreck ⟨.text, .malformed, none⟩

/-- Stop inside a text. One that cannot be read fails where it became unreadable. -/
def stopText (sound : Bool) (damage : Damage) : Token :=
  .wreck ⟨.text, if sound then damage else .malformed, some damage⟩

/-- The character that stands for itself after a backslash, or that its letter stands for. -/
def escaped? (c : Char) : Option Char :=
  match c with
  | '"' => some '"'
  | '\\' => some '\\'
  | '/' => some '/'
  | 'b' => some '\x08'
  | 'f' => some '\x0c'
  | 'n' => some '\n'
  | 'r' => some '\r'
  | 't' => some '\t'
  | _ => none

/-- One more character of a text. -/
def stepPlain (chars : List Char) (sound : Bool) (c : Char) : Step :=
  if c = '"' then ([textToken chars sound], .between)
  else if c = '\\' then ([], .text chars sound .escape)
  else if c.toNat < 0x20 then ([stopText sound .malformed], .stopped)
  else ([], .text (c :: chars) sound .plain)

/-- The character after a backslash. -/
def stepEscape (chars : List Char) (sound : Bool) (c : Char) : Step :=
  if c = 'u' then ([], .text chars sound (.code none 0 4 true))
  else
    match escaped? c with
    | some c => ([], .text (c :: chars) sound .plain)
    | none => ([stopText sound .malformed], .stopped)

/-- The value of a hexadecimal digit. -/
def hexDigit? (c : Char) : Option Nat :=
  if 'a' ≤ c && c ≤ 'f' then some (c.toNat - 'a'.toNat + 10)
  else if 'A' ≤ c && c ≤ 'F' then some (c.toNat - 'A'.toNat + 10)
  else Numeral.digit? c

/-- Whether a number is the first half of a surrogate pair. -/
def isLead (n : Nat) : Bool := 0xD800 ≤ n && n < 0xDC00

/-- Whether a number is the second half of a surrogate pair. -/
def isTrail (n : Nat) : Bool := 0xDC00 ≤ n && n < 0xE000

/-- The character that a surrogate pair stands for. -/
def paired (lead trail : Nat) : Char :=
  Char.ofNat (0x10000 + (lead - 0xD800) * 0x400 + (trail - 0xDC00))

/-- The state after the last digit of a character given by its number. -/
def stepCode (chars : List Char) (sound : Bool) (lead : Option Nat) (n : Nat) : LexState :=
  match lead with
  | some lead =>
    if isTrail n then .text (paired lead n :: chars) sound .plain else .text chars false .plain
  | none =>
    if isTrail n then .text chars false .plain
    else if isLead n then .text chars sound (if sound then .half n else .plain)
    else .text (Char.ofNat n :: chars) sound .plain

/-- One more character of a text, in any mode. -/
def stepText (chars : List Char) (sound : Bool) (mode : TextMode) (c : Char) : Step :=
  match mode with
  | .plain => stepPlain chars sound c
  | .escape => stepEscape chars sound c
  | .code lead value missing valid =>
    let missing := missing - c.utf8Size
    let (value, valid) :=
      match hexDigit? c with
      | some d => (value * 16 + d, valid)
      | none => (value, false)
    if 0 < missing then ([], .text chars sound (.code lead value missing valid))
    else if valid then ([], stepCode chars sound lead value)
    else ([stopText sound .malformed], .stopped)
  | .half lead =>
    if c = '\\' then ([], .text chars sound (.halfEscape lead)) else stepPlain chars false c
  | .halfEscape lead =>
    if c = 'u' then ([], .text chars sound (.code (some lead) 0 4 true))
    else stepEscape chars false c

/-- One more character. -/
def step (state : LexState) (c : Char) : Step :=
  match state with
  | .between => start c
  | .word token rest => stepWord token rest c
  | .number n => stepNumber n c
  | .text chars sound mode => stepText chars sound mode c
  | .stopped => ([], .stopped)

/-- The tokens that the end of the text completes. -/
def finish (state : LexState) : List Token :=
  match state with
  | .between | .stopped => []
  | .word token _ => [.wreck (.lost (wordKind token) .truncated)]
  | .number n =>
    if n.isComplete then [numberToken n] else [.wreck ⟨.number, .truncated, some .malformed⟩]
  | .text _ sound _ => [stopText sound .truncated]

end LexState

/-- A text of which a beginning was cut. -/
structure Lexer where
  /-- The tokens so far, latest first. -/
  done : List Token
  state : LexState
deriving Repr

namespace Lexer

/-- Before the first character. -/
def start : Lexer := ⟨[], .between⟩

/-- Cut one more character. -/
def feed (l : Lexer) (c : Char) : Lexer :=
  let (tokens, state) := l.state.step c
  ⟨tokens.reverseAux l.done, state⟩

/-- All tokens, at the end of the text. -/
def tokens (l : Lexer) : List Token := l.done.reverse ++ l.state.finish

end Lexer

/-- The tokens of a text. -/
def tokens (text : List Char) : List Token := (text.foldl Lexer.feed .start).tokens

end MiddleEnd.Json
