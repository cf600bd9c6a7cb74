import Polyglot.Number.Decimal
import Polyglot.Source
import Polyglot.Text.Quoted

/-!
# Programs

The tree of a script. Statements are expressions too: every node evaluates to a value or
leaves the construct around it. Each node carries its own location.
-/

namespace Polyglot

/-- A literal value. -/
inductive Constant
  | null
  | bool (b : Bool)
  | int (n : Int64)
  | float (x : Float)
  | text (s : String)
deriving Inhabited

/-- The text of a literal value; texts are quoted. -/
def Constant.display : Constant → String
  | null => "null"
  | bool b => if b then "true" else "false"
  | int n => toString n.toInt
  | float x => Decimal.text x
  | text s => Text.quoted s

/-- An operator on two values. -/
inductive BinaryOp
  | add
  | sub
  | mul
  | div
  | mod
  | eq
  | ne
  | lt
  | gt
  | le
  | ge
deriving DecidableEq, Inhabited

/-- How an operator is written. -/
def BinaryOp.spelling : BinaryOp → String
  | add => "+"
  | sub => "-"
  | mul => "*"
  | div => "/"
  | mod => "%"
  | eq => "=="
  | ne => "!="
  | lt => "<"
  | gt => ">"
  | le => "<="
  | ge => ">="

/-- An operator on one value. -/
inductive UnaryOp
  | not
  | neg
  | plus
deriving DecidableEq, Inhabited

/-- How an operator is written. -/
def UnaryOp.spelling : UnaryOp → String
  | not => "!"
  | neg => "-"
  | plus => "+"

/-- An operator that evaluates its right side only if the left does not decide. -/
inductive LogicalOp
  | and
  | or
  | nullish
deriving DecidableEq, Inhabited

/-- How an operator is written. -/
def LogicalOp.spelling : LogicalOp → String
  | and => "&&"
  | or => "||"
  | nullish => "??"

/-- The way in which a loop counts. -/
inductive Direction
  | up
  | down
deriving DecidableEq, Inhabited

/-- How a direction is written in outlines. -/
def Direction.spelling : Direction → String
  | up => "up"
  | down => "down"

/-- The names bound to an element in turn: the element, or its first two items. -/
inductive LoopTarget
  | single (name : Located String)
  | pair (first second : Located String)
deriving DecidableEq, Inhabited

/-- A node of a program. -/
inductive Node
  | constant (loc : Location) (value : Constant)
  | name (loc : Location) (name : String)
  /-- Statements with a scope of their own. -/
  | block (loc : Location) (body : List Node)
  /-- An expression that stands as a statement. -/
  | statement (loc : Location) (value : Node)
  | assign (loc : Location) (target value : Node)
  | call (loc : Location) (callee : Located String) (args : List Node)
  | binary (loc : Location) (left : Node) (op : BinaryOp) (right : Node)
  | unary (loc : Location) (op : UnaryOp) (operand : Node)
  | logical (loc : Location) (left : Node) (op : LogicalOp) (right : Node)
  | conditional (loc : Location) (condition thenBranch : Node) (elseBranch : Option Node)
  | index (loc : Location) (owner key : Node)
  /-- Keys with their values, in written order. -/
  | object (loc : Location) (properties : List (Node × Node))
  | array (loc : Location) (items : List Node)
  | whileLoop (loc : Location) (condition body : Node) (retain : Bool)
  /-- Counts from `start` while `bound` is not passed, by `step` in the given direction. -/
  | countLoop (loc : Location) (counter : Located String) (start bound : Node)
      (direction : Direction) (step body : Node) (retain : Bool)
  | eachLoop (loc : Location) (target : LoopTarget) (collection body : Node) (retain : Bool)
  | breakLoop (loc : Location)
  | continueLoop (loc : Location)
  | returnValue (loc : Location) (value : Option Node)
deriving Inhabited

namespace Node

/-- Where a node stands. -/
def loc : Node → Location
  | constant l _ | name l _ | block l _ | statement l _ | assign l _ _ | call l _ _
  | binary l _ _ _ | unary l _ _ | logical l _ _ _ | conditional l _ _ _ | index l _ _
  | object l _ | array l _ | whileLoop l _ _ _ | countLoop l _ _ _ _ _ _ _
  | eachLoop l _ _ _ _ | breakLoop l | continueLoop l | returnValue l _ => l

/-- The same node at another place; its parts stay where they are. -/
def relocate (l : Location) : Node → Node
  | constant _ value => constant l value
  | name _ s => name l s
  | block _ body => block l body
  | statement _ value => statement l value
  | assign _ target value => assign l target value
  | call _ callee args => call l callee args
  | binary _ left op right => binary l left op right
  | unary _ op operand => unary l op operand
  | logical _ left op right => logical l left op right
  | conditional _ condition thenBranch elseBranch => conditional l condition thenBranch elseBranch
  | index _ owner key => index l owner key
  | object _ properties => object l properties
  | array _ items => array l items
  | whileLoop _ condition body retain => whileLoop l condition body retain
  | countLoop _ counter start bound direction step body retain =>
    countLoop l counter start bound direction step body retain
  | eachLoop _ target collection body retain => eachLoop l target collection body retain
  | breakLoop _ => breakLoop l
  | continueLoop _ => continueLoop l
  | returnValue _ value => returnValue l value

@[simp] theorem loc_relocate (l : Location) (n : Node) : (n.relocate l).loc = l := by
  cases n <;> rfl

end Node

/-- A named script with its source text and its statements. -/
structure Program where
  name : String
  source : String
  body : List Node
deriving Inhabited

/-- The name of a script that was given none. -/
def Program.anonymous : String := "<module>"

end Polyglot
