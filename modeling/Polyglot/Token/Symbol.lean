/-!
# Operators and punctuation

The fixed symbols of the language with their spellings.
-/

namespace Polyglot

/-- An operator or a punctuation mark. -/
inductive Symbol
  | assign
  | eqEq
  | notEq
  | gt
  | ge
  | lt
  | le
  | bang
  | plus
  | minus
  | star
  | slash
  | percent
  | andAnd
  | orOr
  | nullish
  | lparen
  | rparen
  | lbrace
  | rbrace
  | lbracket
  | rbracket
  | comma
  | semi
  | colon
deriving DecidableEq, Inhabited

namespace Symbol

/-- How a symbol is written. -/
def spelling : Symbol → String
  | assign => "="
  | eqEq => "=="
  | notEq => "!="
  | gt => ">"
  | ge => ">="
  | lt => "<"
  | le => "<="
  | bang => "!"
  | plus => "+"
  | minus => "-"
  | star => "*"
  | slash => "/"
  | percent => "%"
  | andAnd => "&&"
  | orOr => "||"
  | nullish => "??"
  | lparen => "("
  | rparen => ")"
  | lbrace => "\x7b"
  | rbrace => "\x7d"
  | lbracket => "["
  | rbracket => "]"
  | comma => ","
  | semi => ";"
  | colon => ":"

/-- Brackets and separators, as opposed to operators. -/
def isPunctuation : Symbol → Bool
  | lparen | rparen | lbrace | rbrace | lbracket | rbracket | comma | semi | colon => true
  | _ => false

/-- The symbol written with two characters. -/
def ofTwo? (a b : Char) : Option Symbol :=
  match a, b with
  | '=', '=' => some eqEq
  | '!', '=' => some notEq
  | '>', '=' => some ge
  | '<', '=' => some le
  | '&', '&' => some andAnd
  | '|', '|' => some orOr
  | '?', '?' => some nullish
  | _, _ => none

/-- The symbol written with one character. -/
def ofOne? : Char → Option Symbol
  | '=' => some assign
  | '>' => some gt
  | '<' => some lt
  | '!' => some bang
  | '+' => some plus
  | '-' => some minus
  | '*' => some star
  | '/' => some slash
  | '%' => some percent
  | '(' => some lparen
  | ')' => some rparen
  | '\x7b' => some lbrace
  | '\x7d' => some rbrace
  | '[' => some lbracket
  | ']' => some rbracket
  | ',' => some comma
  | ';' => some semi
  | ':' => some colon
  | _ => none

end Symbol

end Polyglot
