import Polyglot.Dictionary
import Polyglot.Text.Quoted
import Polyglot.Token.Lexeme

/-!
# Tokens

The significant lexemes of a script under a dictionary. A script may begin with a directive
`<tag>` naming the dictionary it is written in; the directive yields no tokens.
-/

namespace Polyglot

/-- What a token is. -/
inductive TokenKind
  | keyword (k : Keyword)
  | name (s : String)
  | int (n : Int64)
  | float (x : Float)
  | text (s : String)
  | symbol (s : Symbol)
  | eol
  /-- A character that starts no token. -/
  | invalid (text : String)
  /-- The end of the script. -/
  | eof
deriving Inhabited

namespace TokenKind

/-- The word for a kind of token in messages. -/
def label : TokenKind → String
  | keyword _ => "keyword"
  | name _ => "identifier"
  | int _ | float _ => "number"
  | text _ => "string"
  | symbol s => if s.isPunctuation then "punctuation" else "operator"
  | eol => "end of line"
  | invalid _ => "invalid character"
  | eof => "end of input"

/-- The text of a token apart from its spelling in the script. -/
def display : TokenKind → String
  | keyword k => k.id
  | name s => s
  | int n => toString n.toInt
  | float x => Decimal.text x
  | text s => Text.quoted s
  | symbol s => s.spelling
  | eol => "\\n"
  | invalid s => s
  | eof => "EOF"

/-- The token is the given symbol. -/
def isSymbol (kind : TokenKind) (s : Symbol) : Bool :=
  match kind with
  | symbol t => t == s
  | _ => false

/-- The token is the given keyword. -/
def isKeyword (kind : TokenKind) (k : Keyword) : Bool :=
  match kind with
  | keyword l => l == k
  | _ => false

/-- The token ends a line. -/
def isEol : TokenKind → Bool
  | eol => true
  | _ => false

end TokenKind

/-- A token with its source text and location. -/
structure Token where
  kind : TokenKind
  text : String
  loc : Location
deriving Inhabited

namespace Token

/-- The kind of a lexeme under a dictionary, or its fault. -/
def kindOf (d : Dictionary) (l : Lexeme) : Except LexicalFault TokenKind :=
  let text := String.ofList l.text
  match l.kind with
  | .blank | .eol => .ok .eol
  | .word => .ok (match d.lookup text with
    | some k => .keyword k
    | none => .name text)
  | .number (.int n) => .ok (.int n)
  | .number (.float x) => .ok (.float x)
  | .text s => .ok (.text s)
  | .symbol s => .ok (.symbol s)
  | .stray => .ok (.invalid text)
  | .faulty fault => .error fault

/-- The token of a located lexeme under a dictionary. -/
def ofLexeme (d : Dictionary) (l : Located Lexeme) : Except CompileError Token :=
  match kindOf d l.item with
  | .ok kind => .ok ⟨kind, String.ofList l.item.text, l.loc⟩
  | .error fault => .error ⟨.lexical fault, l.loc⟩

end Token

/-- A script read under a dictionary: its tokens, or faults in place of some, and its end. -/
structure Reading where
  /-- The tag of the directive, if the script has one. -/
  directive : Option String
  dictionary : Dictionary
  items : List (Except CompileError Token)
  eof : Token

namespace Reading

/-- Splits a directive off the significant lexemes of a script. -/
def splitDirective (ls : List (Located Lexeme)) : Option String × List (Located Lexeme) :=
  match ls with
  | ⟨⟨.symbol .lt, _⟩, _⟩ :: ⟨⟨.word, tag⟩, _⟩ :: ⟨⟨.symbol .gt, _⟩, _⟩ :: rest =>
    (some (String.ofList tag), rest)
  | _ => (none, ls)

/-- The dictionary for a directive, if any. -/
def choose (languages : Languages) : Option String → Dictionary
  | some tag => languages.resolve tag
  | none => languages.standard

/-- The significant lexemes of a text with their locations. -/
def significant (text : List Char) : List (Located Lexeme) :=
  (Lexeme.place {} (Lexeme.all text)).filter fun l => l.item.isSignificant

/-- Reads a script. -/
def ofSource (languages : Languages) (source : String) : Reading :=
  let chars := source.toList
  let split := splitDirective (significant chars)
  let dictionary := choose languages split.1
  let stop : Cursor := ({} : Cursor).pass chars
  { directive := split.1
    dictionary := dictionary
    items := split.2.map (Token.ofLexeme dictionary)
    eof := ⟨.eof, "", stop.locate []⟩ }

/-- All tokens before the end, or the first fault. -/
def tokens (r : Reading) : Except CompileError (List Token) :=
  r.items.mapM fun item => item

end Reading

end Polyglot
