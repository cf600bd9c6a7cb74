import Polyglot.Program.Node
import Polyglot.Token.Basic

/-!
# The tokens ahead

What a parser keeps while it reads a script: the tokens ahead, the end of the script behind
them, and how far it has read.
-/

namespace Polyglot

/-- The tokens ahead of a parser. -/
structure Tape where
  /-- Tokens not yet taken, the end of the script apart. -/
  rest : List Token
  /-- The end of the script. -/
  eof : Token
  /-- Where the last token taken ends. -/
  readTo : Nat := 0

namespace Tape

/-- The next token, or the end of the script. -/
def current (t : Tape) : Token :=
  t.rest.headD t.eof

/-- Takes the next token; nothing happens at the end of the script. -/
def advance (t : Tape) : Tape :=
  match t.rest with
  | [] => t
  | token :: rest => { t with rest := rest, readTo := token.loc.span.stop }

/-- Takes tokens as long as their kind satisfies `p`. -/
def skip (p : TokenKind → Bool) (t : Tape) : Tape :=
  let taken := t.rest.takeWhile fun token => p token.kind
  { t with
    rest := t.rest.dropWhile fun token => p token.kind
    readTo := (taken.getLast?.map fun token => token.loc.span.stop).getD t.readTo }

/-- The next token that does not end a line. -/
def pastEols (t : Tape) : Token :=
  (t.rest.dropWhile fun token => token.kind.isEol).headD t.eof

end Tape

/-- A parser takes tokens from the tape or rejects the script. -/
abbrev Parsing := StateT Tape (Except CompileError)

namespace Parsing

/-- The next token. -/
def current : Parsing Token :=
  return (← get).current

/-- The number of tokens ahead. -/
def remaining : Parsing Nat :=
  return (← get).rest.length

/-- Takes the next token. -/
def advance : Parsing Unit :=
  modify Tape.advance

/-- Takes line ends. -/
def skipEols : Parsing Unit :=
  modify (Tape.skip TokenKind.isEol)

/-- Takes line ends and semicolons. -/
def skipSeparators : Parsing Unit :=
  modify (Tape.skip fun kind => kind.isEol || kind.isSymbol .semi)

/-- The next token is the given symbol. -/
def at? (s : Symbol) : Parsing Bool :=
  return (← current).kind.isSymbol s

/-- The next token is the given keyword. -/
def atKeyword? (k : Keyword) : Parsing Bool :=
  return (← current).kind.isKeyword k

/-- Rejects the script. -/
def reject {α : Type} (fault : GrammarFault) (loc : Location) : Parsing α :=
  throw ⟨.grammatical fault, loc⟩

/-- What stands at a token. -/
def found (token : Token) : Found :=
  match token.kind with
  | .eof => .endOfInput
  | .eol => .endOfLine
  | kind => .token kind.label token.text

/-- Rejects the next token where something else is expected. A stray character is reported as
such. -/
def unexpected {α : Type} (expected : Expected) (suggestion : Option String := none) :
    Parsing α := do
  let token ← current
  match token.kind with
  | .invalid text => reject (.strayCharacter text suggestion) token.loc
  | _ => reject (.unexpected expected (found token) suggestion) token.loc

/-- Takes the given symbol. -/
def take (s : Symbol) : Parsing Unit := do
  if ← at? s then advance else unexpected (.symbol s)

/-- Takes the given keyword, which messages spell as the dictionary does. -/
def takeKeyword (d : Dictionary) (k : Keyword) : Parsing Unit := do
  if ← atKeyword? k then advance else unexpected (.keyword (d.spelling k))

/-- Takes a name. -/
def takeName : Parsing (Located String) := do
  let token ← current
  match token.kind with
  | .name s => do advance; return ⟨s, token.loc⟩
  | _ => unexpected .identifier

/-- Where the next token starts. -/
def mark : Parsing Cursor := do
  let token ← current
  return ⟨token.loc.span.start, token.loc.pos⟩

/-- The location from a mark to the last token taken. -/
def since (start : Cursor) : Parsing Location := do
  let t ← get
  return ⟨⟨start.offset, max t.readTo start.offset⟩, start.pos⟩

end Parsing

end Polyglot
