import Polyglot.Json.Basic
import Polyglot.Number.Decimal
import Polyglot.Text.Quoted

/-!
# JSON text

Two layouts of a value: compact, and indented by two spaces a level. In strings only quotes,
backslashes and control characters are escaped. A number that is not finite has no JSON form
and is written `null`.
-/

namespace Polyglot.Json

/-- The written form of one character of a string. -/
def escape (c : Char) : String :=
  if c == '\"' then "\\\""
  else if c == '\\' then "\\\\"
  else if c == '\n' then "\\n"
  else if c == '\r' then "\\r"
  else if c == '\t' then "\\t"
  else if c == '\x08' then "\\b"
  else if c == '\x0c' then "\\f"
  else if c.toNat < 16 then "\\u000" ++ Text.hexDigits c.toNat
  else if c.toNat < 32 then "\\u00" ++ Text.hexDigits c.toNat
  else String.singleton c

/-- A string between quotes. -/
def quote (s : String) : String :=
  s.toList.foldl (fun out c => out ++ escape c) "\"" ++ "\""

/-- The text of a double. -/
def floatText (x : Float) : String :=
  match Binary64.decode x with
  | .finite d => Decimal.json.finite d
  | _ => "null"

/-- The text of a value that holds no other values, and of empty containers. -/
def atomText : Json → String
  | null => "null"
  | bool b => if b then "true" else "false"
  | int n => toString n
  | float x => floatText x
  | str s => quote s
  | arr _ => "[]"
  | obj _ => "\x7b\x7d"

mutual

/-- The text of a value without blanks. -/
def compact : Json → String
  | arr items => "[" ++ compactItems "" items ++ "]"
  | obj fields => "\x7b" ++ compactFields "" fields ++ "\x7d"
  | j => j.atomText

/-- Items after `separator`, with commas between them. -/
def compactItems (separator : String) : List Json → String
  | [] => ""
  | j :: js => separator ++ (j.compact ++ compactItems "," js)

/-- Fields after `separator`, with commas between them. -/
def compactFields (separator : String) : List (String × Json) → String
  | [] => ""
  | (k, j) :: fs => separator ++ (quote k ++ ":" ++ (j.compact ++ compactFields "," fs))

end

/-- A line break and the indentation of a level. -/
def newline (level : Nat) : String :=
  String.ofList ('\n' :: List.replicate (2 * level) ' ')

mutual

/-- The text of a value with every item and field on a line of its own, starting at the given
level. -/
def prettyAt (level : Nat) : Json → String
  | arr (j :: js) =>
    "[" ++ newline (level + 1) ++ j.prettyAt (level + 1) ++ prettyItems (level + 1) js
      ++ newline level ++ "]"
  | obj ((k, j) :: fs) =>
    "\x7b" ++ newline (level + 1) ++ quote k ++ ": " ++ j.prettyAt (level + 1)
      ++ prettyFields (level + 1) fs ++ newline level ++ "\x7d"
  | j => j.atomText

/-- The items after the first. -/
def prettyItems (level : Nat) : List Json → String
  | [] => ""
  | j :: js => "," ++ newline level ++ j.prettyAt level ++ prettyItems level js

/-- The fields after the first. -/
def prettyFields (level : Nat) : List (String × Json) → String
  | [] => ""
  | (k, j) :: fs =>
    "," ++ newline level ++ quote k ++ ": " ++ j.prettyAt level ++ prettyFields level fs

end

/-- The indented text of a value. -/
def pretty (j : Json) : String :=
  j.prettyAt 0

end Polyglot.Json
