import Polyglot.Toml.Date
import Polyglot.Toml.Number

/-!
# Reading TOML

Key-value lines and table headers with dotted and quoted keys, arrays and inline tables. Keys
and nested values have less than eighty levels.
-/

namespace Polyglot.Toml

/-- Skips a comment, if one begins here. -/
def skipComment (cs : List Char) : List Char :=
  match cs with
  | '#' :: cs => cs.dropWhile fun c => !isControl c
  | cs => cs

/-- Skips blanks, comments and line ends. The number bounds the lines. -/
def skipLines : Nat → List Char → List Char
  | 0, cs => cs
  | n + 1, cs =>
    let cs := skipComment (skipSpaces cs)
    match newline? cs with
    | some rest => skipLines n rest
    | none => cs

/-- The end of a line, after a possible comment. -/
def endOfLine? (cs : List Char) : Option (List Char) :=
  let cs := skipComment (skipSpaces cs)
  if cs.isEmpty then some [] else newline? cs

/-! ## Keys -/

/-- The most parts of a key, and the most brackets that may be open at once. -/
def maxDepth : Nat := 79

/-- Characters of keys without quotes. -/
def isKeyChar (c : Char) : Bool :=
  c.isAlphanum || c == '_' || c == '-'

/-- One part of a key. -/
def simpleKey (cs : List Char) : Option (String × List Char) :=
  match quotedText? cs with
  | some r => r
  | none =>
    let name := cs.takeWhile isKeyChar
    if name.isEmpty then none else some (String.ofList name, cs.dropWhile isKeyChar)

/-- A key with dots between its parts. The number bounds the parts. -/
def dottedKey : Nat → Reads (List String)
  | 0, _ => none
  | n + 1, cs => do
    let (first, rest) ← simpleKey (skipSpaces cs)
    match skipSpaces rest with
    | '.' :: rest => (dottedKey n rest).map fun (names, rest) => (first :: names, rest)
    | rest => some ([first], rest)

/-- A key of a line, a header or an inline table. -/
def key : Reads (List String) :=
  dottedKey maxDepth

/-! ## Values -/

/-- A date, a number or a word. -/
def plain (cs : List Char) : Option (Toml × List Char) :=
  match moment cs with
  | some (s, rest) => some (date s, rest)
  | none => (bare? (cs.takeWhile isBareChar)).map fun v => (v, cs.dropWhile isBareChar)

mutual

/-- A value in which `depth` more brackets may be open at once. The first number bounds nested
and successive values. -/
def value : Nat → Nat → Reads Toml
  | 0, _, _ => none
  | n + 1, depth, cs =>
    match anyText? cs, depth, cs with
    | some r, _, _ => r.map fun (s, rest) => (text s, rest)
    | none, 0, '[' :: _ => none
    | none, 0, '\x7b' :: _ => none
    | none, depth + 1, '[' :: cs => (items n depth cs).map fun (vs, rest) => (array vs, rest)
    | none, depth + 1, '\x7b' :: cs =>
      match skipSpaces cs with
      | '\x7d' :: rest => some (inline [], rest)
      | cs => (pairs n depth [] cs).map fun (es, rest) => (inline es, rest)
    | none, _, cs => plain cs

/-- The items of an array up to its closing bracket. -/
def items : Nat → Nat → Reads (List Toml)
  | 0, _, _ => none
  | n + 1, depth, cs =>
    match skipLines (cs.length + 1) cs with
    | ']' :: rest => some ([], rest)
    | cs =>
      match value n depth cs with
      | none => none
      | some (v, rest) =>
        match skipLines (rest.length + 1) rest with
        | ',' :: rest => (items n depth rest).map fun (vs, rest) => (v :: vs, rest)
        | ']' :: rest => some ([v], rest)
        | _ => none

/-- The entries of an inline table up to its closing brace, added to those before. -/
def pairs : Nat → Nat → Entries → Reads Entries
  | 0, _, _, _ => none
  | n + 1, depth, before, cs =>
    match key cs with
    | none => none
    | some (path, rest) =>
      match skipSpaces rest with
      | '=' :: rest =>
        match value n depth (skipSpaces rest) with
        | none => none
        | some (v, rest) =>
          match define (path.getLastD "") v path.dropLast before with
          | none => none
          | some es =>
            match skipSpaces rest with
            | ',' :: rest => pairs n depth es rest
            | '\x7d' :: rest => some (es, rest)
            | _ => none
      | _ => none

end

/-! ## Documents -/

/-- A document being read: the root table and the path of the table that was opened last. -/
structure Draft where
  root : Entries := []
  path : List String := []

/-- Adds a line `key = value`. -/
def addPair (d : Draft) (cs : List Char) : Option (Draft × List Char) := do
  let (path, rest) ← key cs
  match skipSpaces rest with
  | '=' :: rest =>
    let (v, rest) ← value (rest.length + 1) maxDepth (skipSpaces rest)
    let root ← under (define (path.getLastD "") v path.dropLast) d.path d.root
    return ({ d with root := root }, ← endOfLine? rest)
  | _ => none

/-- Opens a table by a header, after its first bracket. -/
def addHeader (d : Draft) (cs : List Char) : Option (Draft × List Char) := do
  let (several, cs) := match cs with
    | '[' :: cs => (true, cs)
    | cs => (false, cs)
  let (path, rest) ← key cs
  let name := path.getLastD ""
  let root ← under (if several then openAnother name else openTable name) path.dropLast d.root
  match several, rest with
  | true, ']' :: ']' :: rest => return (⟨root, path⟩, ← endOfLine? rest)
  | false, ']' :: rest => return (⟨root, path⟩, ← endOfLine? rest)
  | _, _ => none

/-- Reads the lines of a document. The number bounds them. -/
def document : Nat → Draft → List Char → Option Entries
  | 0, _, _ => none
  | n + 1, d, cs =>
    match skipLines (cs.length + 1) cs with
    | [] => some d.root
    | '[' :: cs => (addHeader d cs).bind fun (d, rest) => document n d rest
    | cs => (addPair d cs).bind fun (d, rest) => document n d rest

/-- Skips a byte order mark. -/
def skipMark : List Char → List Char
  | '\ufeff' :: cs => cs
  | cs => cs

/-- The root table of a TOML text. -/
def read? (s : String) : Option Entries :=
  let cs := skipMark s.toList
  document (cs.length + 1) {} cs

end Polyglot.Toml
