/-!
# MiddleEnd.Command.Options

The words of a command line: options and arguments.

- A word `--name` or `--name=value` is a long option; a word `-abc` is a row of short ones, of
  which the last may have the rest of the word as its value, with or without `=` in front.
- An option that takes a value and has none attached takes the next word, unless that looks like an
  option.
- Behind the word `--` everything is an argument.

An option whose value was the word behind it is checked no earlier than the next option or argument
is recognised: a word that is nothing at all is reported before it.
-/

namespace MiddleEnd.Command

/-- How a command line is wrong. -/
inductive Misuse where
  /-- A value of the wrong form. -/
  | badValue
  /-- An option without its value, or an empty file name. -/
  | missingValue
  /-- A word that is no option and no argument. -/
  | unknown
  /-- Options that exclude each other, or one given twice. -/
  | conflict
  /-- A value attached to an option that takes none. -/
  | extraValue
  /-- An argument that is not there. -/
  | missingArgument
deriving DecidableEq, Repr

/-- What can be asked for instead of running a command. -/
inductive Info where
  | help
  | version
deriving DecidableEq, Repr

/-- Why no command is run. -/
inductive Stop where
  | misuse (m : Misuse)
  | info (i : Info)
deriving DecidableEq, Repr

/-- What an option is for. -/
inductive OptionKind where
  /-- It is given or not. -/
  | flag
  /-- It takes a value, which `check` finds fault with or not. -/
  | value (check : String → Option Misuse) (repeatable : Bool)
  /-- It asks for something and ends everything else. -/
  | info (i : Info)

/-- An option. -/
structure Opt where
  name : String
  short : Option Char
  kind : OptionKind

/-- The words that a command understands. -/
structure Grammar where
  options : List Opt
  /-- How many file names it takes as arguments, all of which it needs. -/
  arguments : Nat
  /-- The options that exclude each other. -/
  exclusive : List (String × String)

/-- The options and arguments of a command line. -/
structure Words where
  /-- The options with their values; a flag has the empty text. -/
  given : List (String × String)
  arguments : List String
deriving DecidableEq, Repr

namespace Words

/-- Whether an option was given. -/
def has (w : Words) (name : String) : Bool := (w.given.lookup name).isSome

/-- The value of an option. -/
def value? (w : Words) (name : String) : Option String := w.given.lookup name

/-- All values of an option, in order. -/
def values (w : Words) (name : String) : List String :=
  (w.given.filter (·.1 = name)).map (·.2)

end Words

/-! ## Reading -/

/-- What was read of a command line. -/
structure Reading where
  words : Words
  /-- The last option, if it is not checked yet, with its value if there is one. -/
  pending : Option (Opt × Option String)
  /-- Whether options are over. -/
  ended : Bool

namespace Reading

/-- Before the first word. -/
def start : Reading := ⟨⟨[], []⟩, none, false⟩

/-- Stop, since the command line is wrong. -/
def misuse {α : Type} (m : Misuse) : Except Stop α := .error (.misuse m)

/-- Check an option with its value and record it. -/
def accept (r : Reading) (o : Opt) (value : Option String) : Except Stop Reading :=
  let record (text : String) : Reading :=
    { r with words := { r.words with given := r.words.given ++ [(o.name, text)] } }
  match o.kind with
  | .info i => .error (.info i)
  | .flag => if r.words.has o.name then misuse .conflict else .ok (record "")
  | .value check repeatable =>
    match value with
    | none => misuse .missingValue
    | some text =>
      if !repeatable && r.words.has o.name then misuse .conflict
      else
        match check text with
        | some m => misuse m
        | none => .ok (record text)

/-- Check the option that is not checked yet. -/
def settle (r : Reading) : Except Stop Reading :=
  match r.pending with
  | none => .ok r
  | some (o, value) => { r with pending := none }.accept o value

/-- An option begins, with the value attached to it if there is one. -/
def begin (r : Reading) (o : Opt) (attached : Option String) : Except Stop Reading := do
  let r ← r.settle
  match o.kind, attached with
  | .value _ _, none => return { r with pending := some (o, none) }
  | _, attached => r.accept o attached

/-- Whether an option takes a value. -/
def takesValue (o : Opt) : Bool :=
  match o.kind with
  | .value _ _ => true
  | _ => false

/-- A long option, without the dashes. -/
def long (g : Grammar) (r : Reading) (word : List Char) : Except Stop Reading :=
  let name := String.ofList (word.takeWhile (· ≠ '='))
  let attached := match word.dropWhile (· ≠ '=') with
    | [] => none
    | _ :: value => some (String.ofList value)
  match g.options.find? (·.name = name) with
  | none => misuse .unknown
  | some o => if attached.isSome && !takesValue o then misuse .extraValue else r.begin o attached

/-- A row of short options, without the dash. -/
def shorts (g : Grammar) (r : Reading) : List Char → Except Stop Reading
  | [] => .ok r
  | c :: rest =>
    match g.options.find? (·.short = some c) with
    | none => misuse .unknown
    | some o =>
      if takesValue o then
        r.begin o (match rest with
          | [] => none
          | '=' :: value => some (String.ofList value)
          | value => some (String.ofList value))
      else do shorts g (← r.begin o none) rest

/-- An argument. -/
def argument (g : Grammar) (r : Reading) (word : String) : Except Stop Reading := do
  if g.arguments ≤ r.words.arguments.length then misuse .unknown
  let r ← r.settle
  if word.isEmpty then misuse .missingValue
  return { r with words := { r.words with arguments := r.words.arguments ++ [word] } }

/-- One more word. -/
def word (g : Grammar) (r : Reading) (word : String) : Except Stop Reading :=
  if r.ended then argument g r word
  else
    match word.toList with
    | ['-', '-'] => .ok { r with ended := true }
    | '-' :: '-' :: name => long g r name
    | '-' :: c :: rest => shorts g r (c :: rest)
    | _ =>
      match r.pending with
      | some (o, none) => .ok { r with pending := some (o, some word) }
      | _ => argument g r word

/-- The words at the end of the command line. -/
def finish (g : Grammar) (r : Reading) : Except Stop Words := do
  let r ← r.settle
  if g.exclusive.any fun (a, b) => r.words.has a && r.words.has b then misuse .conflict
  if r.words.arguments.length < g.arguments then misuse .missingArgument
  return r.words

end Reading

/-- The options and arguments of a command line. -/
def Grammar.read (g : Grammar) (args : List String) : Except Stop Words := do
  (← args.foldlM (Reading.word g) .start).finish g

end MiddleEnd.Command
