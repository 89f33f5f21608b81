import MiddleEnd.Json.Token
import MiddleEnd.Text.Quoted
import MiddleEnd.Decimal.Float

/-!
# MiddleEnd.Json.Document

A JSON text as it was read, up to the first damage in it. A document that is damaged still says
what stands before the damage, so that its reader can find out which problem comes first: that the
text is not JSON, or that it is not what the reader wants.

Reading is a fold over the tokens. Its state is the stack of the arrays and objects that are open.

What is a document is JSON's to say. That members keep their order and may have one name several
times is assumed of the library that the program reads with.
-/

namespace MiddleEnd.Json

/-- A JSON value as it was read. -/
inductive Document where
  | null
  | bool (value : Bool)
  | number (value : Number)
  | text (value : String)
  | wreck (w : Wreck)
  /-- The items, and how the array ends if it is not closed. -/
  | arr (items : List Document) (damage : Option Damage)
  /-- The members, and how the object ends if it is not closed. A key is a text, or a wreck where
  none can be read. -/
  | obj (members : List (Document × Document)) (damage : Option Damage)
deriving Repr, Inhabited

namespace Document

/-- No value where one must stand. -/
def absent (damage : Damage) : Document := .wreck (.absent damage)

/-- No key where one must stand. -/
def absentKey (damage : Damage) : Document := .wreck (.lost .text damage)

/-- What a value is, as messages name it. -/
def describe : Document → String
  | .null => "null"
  | .bool value => "boolean `" ++ toString value ++ "`"
  | .number (.whole value) => "integer `" ++ toString value ++ "`"
  | .number (.double value) =>
    "floating point `" ++ Decimal.FloatStyle.standard.text value ++ "`"
  | .text value => "string " ++ Text.quote value
  | .wreck _ => "nothing"
  | .arr _ _ => "sequence"
  | .obj _ _ => "map"

mutual

/-- The first damage that is met when a value is skipped. -/
def skip : Document → Option Damage
  | .wreck w => w.skip
  | .arr items damage => (skipItems items).or damage
  | .obj members damage => (skipMembers members).or damage
  | .null => none
  | .bool _ => none
  | .number _ => none
  | .text _ => none

/-- The first damage that is met when items are skipped. -/
def skipItems : List Document → Option Damage
  | [] => none
  | item :: rest => (skip item).or (skipItems rest)

/-- The first damage that is met when members are skipped. -/
def skipMembers : List (Document × Document) → Option Damage
  | [] => none
  | (key, value) :: rest => ((skipKey key).or (skip value)).or (skipMembers rest)

/-- The damage that is met when a key is skipped. -/
def skipKey : Document → Option Damage
  | .text _ => none
  | .wreck w => if w.kind = .text then w.skip else some .malformed
  | _ => some .malformed

end

end Document

/-! ## Reading -/

/-- An array or object that is open. What was read of it comes latest first. -/
inductive Frame where
  | array (items : List Document)
  /-- An object in which the value for `key` is read. -/
  | object (members : List (Document × Document)) (key : Document)
deriving Repr

/-- The array or object closed behind a value. -/
def Frame.close (v : Document) (damage : Option Damage) : Frame → Document
  | .array items => .arr (items.reverse ++ [v]) damage
  | .object members k => .obj (members.reverse ++ [(k, v)]) damage

/-- What may come next, and what is open around it. -/
inductive Reader where
  /-- A value must come. -/
  | value (frames : List Frame)
  /-- The first item of an array, or its end. -/
  | firstItem (frames : List Frame)
  /-- The first key of an object, or its end. -/
  | firstKey (frames : List Frame)
  /-- A key, after other members. -/
  | key (members : List (Document × Document)) (frames : List Frame)
  /-- The colon after a key. -/
  | colon (members : List (Document × Document)) (key : Document) (frames : List Frame)
  /-- What separates a value from the next one. -/
  | separator (value : Document) (frames : List Frame)
  /-- Nothing more is read. `trailing` says that something stood behind a complete value. -/
  | done (value : Document) (trailing : Bool)
deriving Repr

namespace Reader

/-- The value that a token is, if it is one by itself. -/
def leaf? : Token → Option Document
  | .null => some .null
  | .bool b => some (.bool b)
  | .number n => some (.number n)
  | .text s => some (.text s)
  | .wreck w => some (.wreck w)
  | _ => none

/-- Close all frames behind a value after which nothing is read. -/
def enclose (v : Document) (frames : List Frame) : Document :=
  frames.foldl (fun v frame => frame.close v (some .malformed)) v

/-- Read nothing more. -/
def abandon (v : Document) (frames : List Frame) : Reader := .done (enclose v frames) false

/-- The state behind a value. -/
def after (v : Document) (frames : List Frame) : Reader :=
  match v with
  | .wreck w => if w.skip.isNone then .separator v frames else abandon v frames
  | v => .separator v frames

/-- A value begins. -/
def beginValue (frames : List Frame) (t : Token) : Reader :=
  match t with
  | .openArray => .firstItem frames
  | .openObject => .firstKey frames
  | t => after ((leaf? t).getD (.absent .malformed)) frames

/-- The key that a token is; only a text can be one. -/
def keyOf : Token → Document
  | .text s => .text s
  | .wreck w => if w.kind = .text then .wreck w else .absentKey .malformed
  | _ => .absentKey .malformed

/-- One more token behind a value in an array or object. -/
def separate (v : Document) (frame : Frame) (frames : List Frame) (t : Token) : Reader :=
  match frame, t with
  | .array items, .comma => .value (.array (v :: items) :: frames)
  | .object members k, .comma => .key ((k, v) :: members) frames
  | .array _, .closeArray | .object _ _, .closeObject => after (frame.close v none) frames
  | _, _ => abandon (frame.close v (some .malformed)) frames

/-- One more token. -/
def feed (r : Reader) (t : Token) : Reader :=
  match r with
  | .value frames => beginValue frames t
  | .firstItem frames =>
    match t with
    | .closeArray => after (.arr [] none) frames
    | t => beginValue (.array [] :: frames) t
  | .firstKey frames =>
    match t with
    | .closeObject => after (.obj [] none) frames
    | t => .colon [] (keyOf t) frames
  | .key members frames => .colon members (keyOf t) frames
  | .colon members k frames =>
    match t with
    | .colon => .value (.object members k :: frames)
    | _ => abandon (.absent .malformed) (.object members k :: frames)
  | .separator v [] => .done v true
  | .separator v (frame :: frames) => separate v frame frames t
  | .done v trailing => .done v trailing

/-- The document, at the end of the text, and whether something stood behind it. -/
def finish : Reader → Document × Bool
  | .value frames => (enclose (.absent .truncated) frames, false)
  | .firstItem frames => (enclose (.arr [] (some .truncated)) frames, false)
  | .firstKey frames => (enclose (.obj [] (some .truncated)) frames, false)
  | .key members frames =>
    (enclose (.absent .truncated) (.object members (.absentKey .truncated) :: frames), false)
  | .colon members k frames => (enclose (.absent .truncated) (.object members k :: frames), false)
  | .separator v [] => (v, false)
  | .separator v (frame :: frames) =>
    (enclose (frame.close v (some .truncated)) frames, false)
  | .done v trailing => (v, trailing)

end Reader

/-- The document that a text is, and whether something stands behind it. -/
def readDocument (text : String) : Document × Bool :=
  ((tokens text.toList).foldl Reader.feed (.value [])).finish

end MiddleEnd.Json
