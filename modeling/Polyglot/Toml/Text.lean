import Polyglot.Toml.Basic

/-!
# Texts of TOML

Texts between double quotes know escapes, those between single quotes do not. Between three
quotes of either kind a text may go over several lines: a line end right after the first quotes
is dropped, every other one reads as a line feed.
-/

namespace Polyglot.Toml

/-- A reader takes characters from the front of a text. -/
abbrev Reads (α : Type) := List Char → Option (α × List Char)

/-- Blanks within a line. -/
def isSpace (c : Char) : Bool :=
  c == ' ' || c == '\t'

/-- Skips blanks within a line. -/
def skipSpaces (cs : List Char) : List Char :=
  cs.dropWhile isSpace

/-- Characters that may not stand in texts and comments. -/
def isControl (c : Char) : Bool :=
  (c.toNat < 32 && c != '\t') || c.toNat == 127

/-- The rest after a line end. -/
def newline? : List Char → Option (List Char)
  | '\n' :: cs => some cs
  | '\r' :: '\n' :: cs => some cs
  | _ => none

/-- A text between single quotes, after the first. -/
def literalText : Reads (List Char)
  | [] => none
  | c :: cs =>
    if c = '\x27' then some ([], cs)
    else if isControl c then none
    else (literalText cs).map fun (s, rest) => (c :: s, rest)

/-- The character of a one-letter escape. -/
def simpleEscape? (c : Char) : Option Char :=
  match c with
  | 'b' => some '\x08'
  | 't' => some '\t'
  | 'n' => some '\n'
  | 'f' => some '\x0c'
  | 'r' => some '\r'
  | '\"' => some '\"'
  | '\\' => some '\\'
  | _ => none

/-- The value of a hexadecimal digit. -/
def hexValue? (c : Char) : Option Nat :=
  if c.isDigit then some (c.toNat - '0'.toNat)
  else if 'a' ≤ c ∧ c ≤ 'f' then some (c.toNat - 'a'.toNat + 10)
  else if 'A' ≤ c ∧ c ≤ 'F' then some (c.toNat - 'A'.toNat + 10)
  else none

/-- The number written by digits of a base. -/
def baseValue? (radix : Nat) (ds : List Char) : Option Nat :=
  ds.foldlM (fun n c => do
    let d ← hexValue? c
    if d < radix then some (n * radix + d) else none) 0

/-- The character of a numbered escape with the given digits. -/
def numberedEscape? (width : Nat) (ds : List Char) : Option Char := do
  if ds.length ≠ width then failure
  let n ← baseValue? 16 ds
  if n.isValidChar then some (Char.ofNat n) else none

/-- An escape, after its backslash. -/
def escape : Reads Char
  | [] => none
  | 'u' :: cs => (numberedEscape? 4 (cs.take 4)).map fun c => (c, cs.drop 4)
  | 'U' :: cs => (numberedEscape? 8 (cs.take 8)).map fun c => (c, cs.drop 8)
  | c :: cs => (simpleEscape? c).map fun c => (c, cs)

/-- A text between double quotes, after the first. The number bounds the characters. -/
def basicText : Nat → Reads (List Char)
  | 0, _ => none
  | _, [] => none
  | n + 1, c :: cs =>
    if c = '\"' then some ([], cs)
    else if isControl c then none
    else if c = '\\' then do
      let (c, rest) ← escape cs
      let (s, rest) ← basicText n rest
      return (c :: s, rest)
    else (basicText n cs).map fun (s, rest) => (c :: s, rest)

/-- A quoted text within one line, if one begins here. -/
def quotedText? : List Char → Option (Option (String × List Char))
  | '\"' :: cs => some ((basicText (cs.length + 1) cs).map fun (s, rest) => (String.ofList s, rest))
  | '\x27' :: cs => some ((literalText cs).map fun (s, rest) => (String.ofList s, rest))
  | _ => none

/-! ## Texts over several lines -/

/-- The end of a text over several lines: three quotes, and up to two before them that belong to
the text. -/
def closing? (quote : Char) (cs : List Char) : Option (List Char × List Char) :=
  let n := ((cs.take 5).takeWhile (· == quote)).length
  if n < 3 then none else some (List.replicate (n - 3) quote, cs.drop n)

/-- A text between three single quotes, after the first three. -/
def literalLines : Reads (List Char)
  | [] => none
  | c :: cs =>
    match closing? '\x27' (c :: cs) with
    | some r => some r
    | none =>
      if c == '\r' && cs.head? == some '\n' then literalLines cs
      else if isControl c && c != '\n' then none
      else (literalLines cs).map fun (s, rest) => (c :: s, rest)

/-- Skips blanks and line ends. -/
def skipBlank : List Char → List Char
  | [] => []
  | c :: cs =>
    if isSpace c || c == '\n' || (c == '\r' && cs.head? == some '\n') then skipBlank cs
    else c :: cs

/-- The rest after an escaped line end, which takes the blanks and line ends after it along. -/
def escapedNewline? (cs : List Char) : Option (List Char) :=
  (newline? (skipSpaces cs)).map skipBlank

/-- A text between three double quotes, after the first three. The number bounds the
characters. -/
def basicLines : Nat → Reads (List Char)
  | 0, _ => none
  | _, [] => none
  | n + 1, c :: cs =>
    match closing? '\"' (c :: cs) with
    | some r => some r
    | none =>
      if c == '\r' && cs.head? == some '\n' then basicLines n cs
      else if isControl c && c != '\n' then none
      else if c = '\\' then
        match escapedNewline? cs with
        | some rest => basicLines n rest
        | none => do
          let (c, rest) ← escape cs
          let (s, rest) ← basicLines n rest
          return (c :: s, rest)
      else (basicLines n cs).map fun (s, rest) => (c :: s, rest)

/-- A quoted text of any kind, if one begins here. -/
def anyText? : List Char → Option (Option (String × List Char))
  | '\"' :: '\"' :: '\"' :: cs =>
    let cs := (newline? cs).getD cs
    some ((basicLines (cs.length + 1) cs).map fun (s, rest) => (String.ofList s, rest))
  | '\x27' :: '\x27' :: '\x27' :: cs =>
    let cs := (newline? cs).getD cs
    some ((literalLines cs).map fun (s, rest) => (String.ofList s, rest))
  | cs => quotedText? cs

end Polyglot.Toml
