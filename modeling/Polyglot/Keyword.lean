/-!
# Keywords

The fifteen reserved words of the language, apart from how any human language spells them.
-/

namespace Polyglot

/-- A reserved word. -/
inductive Keyword
  | ifKw
  | elseKw
  | trueKw
  | falseKw
  | nullKw
  | whileKw
  | forKw
  | withKw
  | upKw
  | downKw
  | tillKw
  | inKw
  | breakKw
  | continueKw
  | returnKw
deriving DecidableEq, Inhabited

namespace Keyword

/-- Every keyword, in a fixed order. -/
def all : List Keyword :=
  [ifKw, elseKw, trueKw, falseKw, nullKw, whileKw, forKw, withKw, upKw, downKw, tillKw, inKw,
   breakKw, continueKw, returnKw]

/-- The name by which dictionaries refer to a keyword; it is also its English spelling. -/
def id : Keyword → String
  | ifKw => "if"
  | elseKw => "else"
  | trueKw => "true"
  | falseKw => "false"
  | nullKw => "null"
  | whileKw => "while"
  | forKw => "for"
  | withKw => "with"
  | upKw => "up"
  | downKw => "down"
  | tillKw => "till"
  | inKw => "in"
  | breakKw => "break"
  | continueKw => "continue"
  | returnKw => "return"

/-- The keyword with the given name. -/
def ofId? (name : String) : Option Keyword :=
  all.find? fun k => k.id == name

theorem mem_all (k : Keyword) : k ∈ all := by
  cases k <;> decide

theorem ofId?_id (k : Keyword) : ofId? k.id = some k := by
  cases k <;> decide

end Keyword

end Polyglot
