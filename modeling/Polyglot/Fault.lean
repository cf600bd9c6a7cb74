import Polyglot.Source
import Polyglot.Similar
import Polyglot.Token.Symbol

/-!
# Why a script is rejected

Faults are causes; their wording is in one place. A compile error is a fault at a location:
lexical when a token cannot be read, grammatical when the tokens do not form a program.
-/

namespace Polyglot

/-- Why a token cannot be read. -/
inductive LexicalFault
  /-- A text literal without its closing quote. -/
  | unterminated
  /-- A numbered escape of `width` digits in which another character was met. -/
  | hexExpected (width : Nat) (seen : String)
  /-- A numbered escape whose number is no character. -/
  | notACharacter (seen : String)
  /-- A number with a base mark and a fraction. -/
  | basedFraction (radix : Nat) (literal : String)
  /-- A number with a base mark and nothing after it. -/
  | noDigits (literal : String)
  /-- A number with a digit that its base does not have. -/
  | invalidDigit (literal : String)
  /-- A number beyond 64 signed bits. -/
  | tooLarge (literal : String)
deriving DecidableEq, Inhabited

/-- The wording of a lexical fault. -/
def LexicalFault.message : LexicalFault → String
  | unterminated => "unterminated string"
  | hexExpected width seen =>
    "invalid escape sequence: expected " ++ toString width ++ " hex digits, got `" ++ seen ++ "`"
  | notACharacter seen => "invalid escape sequence: `" ++ seen ++ "` is not a valid code point"
  | basedFraction radix literal =>
    "invalid number: fractional part on base-" ++ toString radix ++ " literal `" ++ literal ++ "`"
  | noDigits literal => "invalid number: `" ++ literal ++ "` has no digits"
  | invalidDigit literal => "invalid number: `" ++ literal ++ "`: invalid digit found in string"
  | tooLarge literal =>
    "invalid number: `" ++ literal ++ "`: number too large to fit in target type"

/-- What the grammar asks for at some place. -/
inductive Expected
  | symbol (s : Symbol)
  | keyword (spelling : String)
  | identifier
  | expression
  | propertyKey
  | endOfStatement
  /-- A comma, or the symbol that closes the list. -/
  | separator (close : Symbol)
deriving DecidableEq, Inhabited

/-- The wording of an expectation. -/
def Expected.text : Expected → String
  | symbol s => "`" ++ s.spelling ++ "`"
  | keyword spelling => "`" ++ spelling ++ "`"
  | identifier => "identifier"
  | expression => "expression"
  | propertyKey => "property key"
  | endOfStatement => "end of statement"
  | separator close => "`,` or `" ++ close.spelling ++ "`"

/-- What stands at a place instead. -/
inductive Found
  | endOfInput
  | endOfLine
  /-- A token of the named kind with its source text. -/
  | token (kind : String) (text : String)
deriving DecidableEq, Inhabited

/-- The wording of what was found. -/
def Found.text : Found → String
  | endOfInput => "end of input"
  | endOfLine => "end of line"
  | token kind text => kind ++ " `" ++ text ++ "`"

/-- Why tokens do not form a program. -/
inductive GrammarFault
  /-- A character that starts no token, with a suggested keyword if the name before it looks
  like one. -/
  | strayCharacter (text : String) (suggestion : Option String)
  /-- Something else was needed, with a suggested keyword if a name looks like one. -/
  | unexpected (expected : Expected) (found : Found) (suggestion : Option String)
  /-- An assignment to something other than a name or an indexed value. -/
  | badTarget
  /-- A call of something other than a name. -/
  | badCallee
  /-- A word that leaves or continues a loop, outside every loop body. -/
  | outsideLoop (word : String)
  /-- A counting loop over something other than a name. -/
  | badLoopVariable
  /-- A loop header of neither form. -/
  | badLoopHeader
deriving DecidableEq, Inhabited

/-- The wording of a grammatical fault. -/
def GrammarFault.message : GrammarFault → String
  | strayCharacter text suggestion =>
    "invalid character `" ++ text ++ "`" ++ suggestionHint suggestion
  | unexpected expected found suggestion =>
    "expected " ++ expected.text ++ ", found " ++ found.text ++ suggestionHint suggestion
  | badTarget => "invalid assignment target"
  | badCallee => "only a bare identifier can be called"
  | outsideLoop word => "`" ++ word ++ "` outside of a loop"
  | badLoopVariable => "malformed for header: loop variable must be an identifier"
  | badLoopHeader => "malformed for header: expected `name = start` or `name in collection`"

/-- The cause of a compile error. -/
inductive CompileFault
  | lexical (fault : LexicalFault)
  | grammatical (fault : GrammarFault)
deriving DecidableEq, Inhabited

/-- A script is rejected before it runs. -/
structure CompileError where
  fault : CompileFault
  loc : Location
deriving DecidableEq, Inhabited

namespace CompileError

/-- The wording of the cause. -/
def message (e : CompileError) : String :=
  match e.fault with
  | .lexical f => f.message
  | .grammatical f => f.message

/-- The part of the compiler that rejects the script. -/
def stage (e : CompileError) : String :=
  match e.fault with
  | .lexical _ => "Lexer"
  | .grammatical _ => "Parser"

/-- The full text of the error. -/
def text (e : CompileError) : String :=
  e.stage ++ " error at " ++ e.loc.pos.text ++ ": " ++ e.message

end CompileError

end Polyglot
