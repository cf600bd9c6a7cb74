import Polyglot.Token.Literal

/-!
# Lexemes

A source text is cut into lexemes without gaps: names, literals, symbols, line ends, and the
blanks and comments between them. Cutting never fails; a faulty literal and a character that
starts nothing are lexemes of their own kinds.
-/

namespace Polyglot

namespace Lexeme

/-- What a piece of source text is. -/
inductive Kind
  /-- Blanks or a comment. -/
  | blank
  | eol
  /-- A name or a keyword. -/
  | word
  | number (n : Number)
  | text (s : String)
  | symbol (s : Symbol)
  /-- One character that starts nothing. -/
  | stray
  | faulty (fault : LexicalFault)
deriving Inhabited

end Lexeme

/-- A piece of source text. -/
structure Lexeme where
  kind : Lexeme.Kind
  text : List Char
deriving Inhabited

namespace Lexeme

/-- Blanks between lexemes on a line. -/
def isSpace (c : Char) : Bool :=
  c == ' ' || c == '\t'

/-- Characters that start a name. -/
def isNameStart (c : Char) : Bool :=
  c.isAlpha || c == '_' || c == '$'

/-- Characters of a name after the first. -/
def isNamePart (c : Char) : Bool :=
  isNameStart c || c.isDigit

/-- The body of a block comment up to and including its closing mark, or to the end. -/
def blockComment : List Char → List Char × List Char
  | [] => ([], [])
  | '*' :: '#' :: rest => (['*', '#'], rest)
  | c :: cs =>
    let body := blockComment cs
    (c :: body.1, body.2)

/-- A comment after its `#`: a block if a star follows, or else the rest of the line. -/
def comment : List Char → List Char × List Char
  | '*' :: cs =>
    let body := blockComment cs
    ('*' :: body.1, body.2)
  | cs => (cs.takeWhile (!isLineEnd ·), cs.dropWhile (!isLineEnd ·))

/-- The lexeme of a scanned literal. -/
def ofScan {α : Type} (kind : α → Kind) (s : Scan α) : Lexeme × List Char :=
  match s.result with
  | .ok a => (⟨kind a, s.covered⟩, s.rest)
  | .error fault => (⟨.faulty fault, s.covered⟩, s.rest)

/-- The symbol at the head of a text, the longer one winning, or a stray character. -/
def symbolOrStray (c : Char) (cs : List Char) : Lexeme × List Char :=
  match cs.head?.bind (Symbol.ofTwo? c) with
  | some s => (⟨.symbol s, c :: cs.take 1⟩, cs.drop 1)
  | none =>
    match Symbol.ofOne? c with
    | some s => (⟨.symbol s, [c]⟩, cs)
    | none => (⟨.stray, [c]⟩, cs)

/-- The lexeme at the head of the text `c :: cs`, and the text after it. -/
def next (c : Char) (cs : List Char) : Lexeme × List Char :=
  if isSpace c then (⟨.blank, c :: cs.takeWhile isSpace⟩, cs.dropWhile isSpace)
  else if c = '#' then
    let body := comment cs
    (⟨.blank, c :: body.1⟩, body.2)
  else if isLineEnd c then (⟨.eol, [c]⟩, cs)
  else if isNameStart c then (⟨.word, c :: cs.takeWhile isNamePart⟩, cs.dropWhile isNamePart)
  else if c.isDigit then ofScan .number (Literal.number (c :: cs))
  else if c = '\"' ∨ c = '\x27' then ofScan .text (Literal.text c cs)
  else symbolOrStray c cs

/-- Cuts a text into at most `fuel` lexemes. -/
def cut : Nat → List Char → List Lexeme
  | 0, _ => []
  | _, [] => []
  | fuel + 1, c :: cs =>
    let first := next c cs
    first.1 :: cut fuel first.2

/-- The lexemes of a text. Each covers at least one character. -/
def all (text : List Char) : List Lexeme :=
  cut text.length text

/-- Gives every lexeme its location, the first one standing at `k`. -/
def place (k : Cursor) : List Lexeme → List (Located Lexeme)
  | [] => []
  | l :: ls => ⟨l, k.locate l.text⟩ :: place (k.pass l.text) ls

/-- The lexeme is neither blank nor comment. -/
def isSignificant (l : Lexeme) : Bool :=
  match l.kind with
  | .blank => false
  | _ => true

end Lexeme

end Polyglot
