import Polyglot.Text.Classes

/-!
# Quoted text

Text between double quotes in which quotes, backslashes and hidden characters are escaped, so
that two texts have the same quoted form only if they are equal.
-/

namespace Polyglot.Text

/-- The digits of a number in base sixteen, lower case and without padding. -/
def hexDigits (n : Nat) : String :=
  String.ofList (Nat.toDigits 16 n)

/-- The written form of one character inside quotes. -/
def escape (c : Char) : String :=
  if c == '\t' then "\\t"
  else if c == '\r' then "\\r"
  else if c == '\n' then "\\n"
  else if c == '\x00' then "\\0"
  else if c == '\"' then "\\\""
  else if c == '\\' then "\\\\"
  else if isHidden c then "\\u\x7b" ++ hexDigits c.toNat ++ "\x7d"
  else String.singleton c

/-- `s` between double quotes, escaped. -/
def quoted (s : String) : String :=
  s.toList.foldl (fun out c => out ++ escape c) "\"" ++ "\""

end Polyglot.Text
