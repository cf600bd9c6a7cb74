import Polyglot.Program.Node

/-!
# Outlines

The tree of a program as lines of text, one a node, indented by two spaces a level. The value
of a property stands one level below its key.
-/

namespace Polyglot

/-- A line of an outline. -/
structure OutlineLine where
  level : Nat
  label : String
  pos : Position

/-- The text of a line with its line break. -/
def OutlineLine.text (l : OutlineLine) : String :=
  String.ofList (List.replicate (2 * l.level) ' ') ++ l.label ++ " @" ++ l.pos.text ++ "\n"

namespace Node

/-- The note on whether a loop keeps the values of its body. -/
def retainLabel (retain : Bool) : String :=
  if retain then " retain=true" else " retain=false"

/-- The names bound by a loop over elements. -/
def targetLabel : LoopTarget → String
  | .single only => only.item
  | .pair first second => "(" ++ first.item ++ ", " ++ second.item ++ ")"

/-- What an outline says of a node apart from its parts. -/
def label : Node → String
  | constant _ value => "Literal " ++ value.display
  | name _ s => "Identifier " ++ s
  | block _ _ => "Block"
  | statement _ _ => "ExpressionStatement"
  | assign _ _ _ => "Assignment"
  | call _ callee _ => "Call " ++ callee.item
  | binary _ _ op _ => "BinaryOp " ++ op.spelling
  | unary _ op _ => "UnaryOp " ++ op.spelling
  | logical _ _ op _ => "LogicalOp " ++ op.spelling
  | conditional _ _ _ _ => "If"
  | index _ _ _ => "IndexAccess"
  | object _ _ => "ObjectLiteral"
  | array _ _ => "ArrayLiteral"
  | whileLoop _ _ _ retain => "WhileLoop" ++ retainLabel retain
  | countLoop _ counter _ _ direction _ _ retain =>
    "ForLoop " ++ counter.item ++ " " ++ direction.spelling ++ retainLabel retain
  | eachLoop _ target _ _ retain => "ForOfLoop " ++ targetLabel target ++ retainLabel retain
  | breakLoop _ => "Break"
  | continueLoop _ => "Continue"
  | returnValue _ _ => "Return"

mutual

/-- The lines of a node at a level. -/
def outline (level : Nat) (n : Node) : List OutlineLine :=
  ⟨level, n.label, n.loc.pos⟩ :: match n with
    | constant _ _ | name _ _ | breakLoop _ | continueLoop _ | returnValue _ none => []
    | block _ body => outlineAll (level + 1) body
    | statement _ value => value.outline (level + 1)
    | assign _ target value => target.outline (level + 1) ++ value.outline (level + 1)
    | call _ _ args => outlineAll (level + 1) args
    | binary _ left _ right => left.outline (level + 1) ++ right.outline (level + 1)
    | unary _ _ operand => operand.outline (level + 1)
    | logical _ left _ right => left.outline (level + 1) ++ right.outline (level + 1)
    | conditional _ condition thenBranch none =>
      condition.outline (level + 1) ++ thenBranch.outline (level + 1)
    | conditional _ condition thenBranch (some elseBranch) =>
      condition.outline (level + 1) ++ thenBranch.outline (level + 1)
        ++ elseBranch.outline (level + 1)
    | index _ owner key => owner.outline (level + 1) ++ key.outline (level + 1)
    | object _ properties => outlineProperties (level + 1) properties
    | array _ items => outlineAll (level + 1) items
    | whileLoop _ condition body _ => condition.outline (level + 1) ++ body.outline (level + 1)
    | countLoop _ _ start bound _ step body _ =>
      start.outline (level + 1) ++ bound.outline (level + 1) ++ step.outline (level + 1)
        ++ body.outline (level + 1)
    | eachLoop _ _ collection body _ => collection.outline (level + 1) ++ body.outline (level + 1)
    | returnValue _ (some value) => value.outline (level + 1)

/-- The lines of several nodes at a level. -/
def outlineAll (level : Nat) : List Node → List OutlineLine
  | [] => []
  | n :: ns => n.outline level ++ outlineAll level ns

/-- The lines of keys at a level, each followed by its value one level below. -/
def outlineProperties (level : Nat) : List (Node × Node) → List OutlineLine
  | [] => []
  | (key, value) :: ps =>
    key.outline level ++ value.outline (level + 1) ++ outlineProperties level ps

end

end Node

/-- The outline of a program. -/
def Program.outline (p : Program) : String :=
  (Node.outlineAll 1 p.body).foldl (fun out l => out ++ l.text) ("Root " ++ p.name ++ "\n")

end Polyglot
