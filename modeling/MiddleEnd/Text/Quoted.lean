import MiddleEnd.Text.Hidden

/-!
# MiddleEnd.Text.Quoted

A text between double quotes on a single line. A double quote, a backslash and every hidden
character are escaped, so that whatever the text holds can be seen.
-/

namespace MiddleEnd.Text

/-- A number in base 16 with small letters and without leading zeros. -/
def hex (n : Nat) : List Char := Nat.toDigits 16 n

/-- A character as it stands between quotes. -/
def quoteChar (c : Char) : List Char :=
  match c with
  | '"' => ['\\', '"']
  | '\\' => ['\\', '\\']
  | '\n' => ['\\', 'n']
  | '\r' => ['\\', 'r']
  | '\t' => ['\\', 't']
  | '\x00' => ['\\', '0']
  | c => if isHidden c then ['\\', 'u', '\x7b'] ++ hex c.toNat ++ ['\x7d'] else [c]

/-- A text between quotes. -/
def quote (text : String) : String :=
  String.ofList ('"' :: text.toList.flatMap quoteChar ++ ['"'])

end MiddleEnd.Text
