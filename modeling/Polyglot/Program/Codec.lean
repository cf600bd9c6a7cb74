import Polyglot.Json.Printer
import Polyglot.Program.Node

/-!
# Programs as JSON

Every node is an object with its shape, span and position. A shape is an object of one field,
whose name says which shape it is, or just that name if the shape has no parts. Reading ignores
unknown fields, takes a missing optional part as absent, and accepts the parts of a record as
an array in order.
-/

namespace Polyglot

namespace Json

/-! ## Writing -/

/-- A shape with its parts. -/
def shape (tag : String) (parts : Json) : Json :=
  obj [(tag, parts)]

/-- A span. -/
def ofSpan (s : Span) : Json :=
  obj [("start", int s.start), ("end", int s.stop)]

/-- A position. -/
def ofPosition (p : Position) : Json :=
  obj [("line", int p.line), ("column", int p.column)]

/-- Something with its location. -/
def ofLocated (item : Json) (loc : Location) : Json :=
  obj [("node", item), ("span", ofSpan loc.span), ("pos", ofPosition loc.pos)]

/-- A shape with its parts and location. -/
def node (tag : String) (loc : Location) (parts : Json) : Json :=
  ofLocated (shape tag parts) loc

/-- A name with its location. -/
def ofName (name : Located String) : Json :=
  ofLocated (str name.item) name.loc

/-! ## Reading -/

/-- The parts of a record by their names, which may be given as an array in order. -/
def record? (names : List String) : Json → Option (List (Option Json))
  | obj fields => some (names.map fun name => OrderedMap.find? name fields)
  | arr items => if items.length = names.length then some (items.map some) else none
  | _ => none

/-- The parts of a shape by their names. -/
def parts? (names : List String) : Json → Option (List (Option Json))
  | obj fields => some (names.map fun name => OrderedMap.find? name fields)
  | _ => none

/-- The tag of a shape, with its parts if it has any. -/
def tagged? : Json → Option (String × Option Json)
  | str tag => some (tag, none)
  | obj [(tag, parts)] => some (tag, some parts)
  | _ => none

/-- The tag of a shape without parts. -/
def tag? (j : Json) : Option String :=
  match j.tagged? with
  | some (tag, none) => some tag
  | some (tag, some null) => some tag
  | _ => none

/-- A boolean. -/
def toBool? : Json → Option Bool
  | bool b => some b
  | _ => none

/-- A text. -/
def toText? : Json → Option String
  | str s => some s
  | _ => none

/-- A size, which fits 64 bits. -/
def toSize? : Json → Option Nat
  | int n => if 0 ≤ n ∧ n < wordLimit then some n.toNat else none
  | _ => none

/-- An integer of 64 signed bits. -/
def toInt64? : Json → Option Int64
  | int n => if FitsInt64 n then some (Int64.ofInt n) else none
  | _ => none

/-- A double; an integer is rounded to one. -/
def toFloat? : Json → Option Float
  | float x => some x
  | int n => some (Binary64.ofInt n)
  | _ => none

/-- The items of an array, each read by `item`. -/
def toList? {α : Type} (item : Json → Option α) : Json → Option (List α)
  | arr items => items.mapM item
  | _ => none

/-- Something optional: `null` or a missing part is nothing. -/
def toOption? {α : Type} (item : Json → Option α) : Option Json → Option (Option α)
  | none | some null => some none
  | some j => (item j).map some

/-- A span. -/
def toSpan? (j : Json) : Option Span := do
  match ← j.record? ["start", "end"] with
  | [some start, some stop] => return ⟨← start.toSize?, ← stop.toSize?⟩
  | _ => none

/-- A position. -/
def toPosition? (j : Json) : Option Position := do
  match ← j.record? ["line", "column"] with
  | [some line, some column] => return ⟨← line.toSize?, ← column.toSize?⟩
  | _ => none

/-- Something with its location. -/
def toLocated? (j : Json) : Option (Json × Location) := do
  match ← j.record? ["node", "span", "pos"] with
  | [some item, some span, some pos] => return (item, ⟨← span.toSpan?, ← pos.toPosition?⟩)
  | _ => none

/-- A name with its location. -/
def toName? (j : Json) : Option (Located String) := do
  let (item, loc) ← j.toLocated?
  return ⟨← item.toText?, loc⟩

end Json

/-! ## Operators, literals and loop targets -/

/-- The tag of an operator. -/
def BinaryOp.tag : BinaryOp → String
  | add => "Add"
  | sub => "Sub"
  | mul => "Mul"
  | div => "Div"
  | mod => "Mod"
  | eq => "Eq"
  | ne => "Ne"
  | lt => "Lt"
  | gt => "Gt"
  | le => "Le"
  | ge => "Ge"

/-- The operator with the given tag. -/
def BinaryOp.ofTag? (tag : String) : Option BinaryOp :=
  [add, sub, mul, div, mod, eq, ne, lt, gt, le, ge].find? fun op => op.tag == tag

/-- The tag of an operator. -/
def UnaryOp.tag : UnaryOp → String
  | not => "Not"
  | neg => "Neg"
  | plus => "Plus"

/-- The operator with the given tag. -/
def UnaryOp.ofTag? (tag : String) : Option UnaryOp :=
  [not, neg, plus].find? fun op => op.tag == tag

/-- The tag of an operator. -/
def LogicalOp.tag : LogicalOp → String
  | and => "And"
  | or => "Or"
  | nullish => "Nullish"

/-- The operator with the given tag. -/
def LogicalOp.ofTag? (tag : String) : Option LogicalOp :=
  [and, or, nullish].find? fun op => op.tag == tag

/-- The tag of a direction. -/
def Direction.tag : Direction → String
  | up => "Up"
  | down => "Down"

/-- The direction with the given tag. -/
def Direction.ofTag? (tag : String) : Option Direction :=
  [up, down].find? fun d => d.tag == tag

/-- A literal as JSON. -/
def Constant.toJson : Constant → Json
  | null => .str "Null"
  | bool b => .shape "Bool" (.bool b)
  | int n => .shape "Int" (.int n.toInt)
  | float x => .shape "Float" (.float x)
  | text s => .shape "Str" (.str s)

/-- Reads a literal. -/
def Constant.ofJson? (j : Json) : Option Constant := do
  match ← j.tagged? with
  | ("Null", none) | ("Null", some .null) => return null
  | ("Bool", some b) => return bool (← b.toBool?)
  | ("Int", some n) => return int (← n.toInt64?)
  | ("Float", some x) => return float (← x.toFloat?)
  | ("Str", some s) => return text (← s.toText?)
  | _ => none

/-- A loop target as JSON. -/
def LoopTarget.toJson : LoopTarget → Json
  | single only => .shape "Single" (.ofName only)
  | pair first second => .shape "Pair" (.arr [.ofName first, .ofName second])

/-- Reads a loop target. -/
def LoopTarget.ofJson? (j : Json) : Option LoopTarget := do
  match ← j.tagged? with
  | ("Single", some only) => return single (← only.toName?)
  | ("Pair", some (.arr [first, second])) => return pair (← first.toName?) (← second.toName?)
  | _ => none

/-! ## Nodes -/

namespace Node

mutual

/-- A node as JSON. -/
def toJson : Node → Json
  | constant loc value => .node "Literal" loc value.toJson
  | name loc s => .node "Ident" loc (.str s)
  | block loc body => .node "Block" loc (.arr (toJsonAll body))
  | statement loc value => .node "ExprStmt" loc value.toJson
  | assign loc target value =>
    .node "Assign" loc (.obj [("target", target.toJson), ("value", value.toJson)])
  | call loc callee args =>
    .node "Call" loc (.obj [("callee", .ofName callee), ("args", .arr (toJsonAll args))])
  | binary loc left op right =>
    .node "Binary" loc
      (.obj [("left", left.toJson), ("op", .str op.tag), ("right", right.toJson)])
  | unary loc op operand =>
    .node "Unary" loc (.obj [("op", .str op.tag), ("expr", operand.toJson)])
  | logical loc left op right =>
    .node "Logical" loc
      (.obj [("left", left.toJson), ("op", .str op.tag), ("right", right.toJson)])
  | conditional loc condition thenBranch none =>
    .node "If" loc
      (.obj [("cond", condition.toJson), ("then_branch", thenBranch.toJson),
        ("else_branch", .null)])
  | conditional loc condition thenBranch (some elseBranch) =>
    .node "If" loc
      (.obj [("cond", condition.toJson), ("then_branch", thenBranch.toJson),
        ("else_branch", elseBranch.toJson)])
  | index loc owner key => .node "Index" loc (.obj [("owner", owner.toJson), ("key", key.toJson)])
  | object loc properties => .node "Object" loc (.arr (toJsonProperties properties))
  | array loc items => .node "Array" loc (.arr (toJsonAll items))
  | whileLoop loc condition body retain =>
    .node "While" loc
      (.obj [("cond", condition.toJson), ("body", body.toJson), ("retain", .bool retain)])
  | countLoop loc counter start bound direction step body retain =>
    .node "For" loc
      (.obj [("var", .ofName counter), ("start", start.toJson), ("bound", bound.toJson),
        ("direction", .str direction.tag), ("step", step.toJson), ("body", body.toJson),
        ("retain", .bool retain)])
  | eachLoop loc target collection body retain =>
    .node "ForOf" loc
      (.obj [("target", target.toJson), ("collection", collection.toJson), ("body", body.toJson),
        ("retain", .bool retain)])
  | breakLoop loc => .ofLocated (.str "Break") loc
  | continueLoop loc => .ofLocated (.str "Continue") loc
  | returnValue loc none => .node "Return" loc .null
  | returnValue loc (some value) => .node "Return" loc value.toJson

/-- Nodes as JSON. -/
def toJsonAll : List Node → List Json
  | [] => []
  | n :: ns => n.toJson :: toJsonAll ns

/-- Keys with their values as JSON. -/
def toJsonProperties : List (Node × Node) → List Json
  | [] => []
  | (key, value) :: ps =>
    .obj [("key", key.toJson), ("value", value.toJson)] :: toJsonProperties ps

end

/-- Reads a key with its value. -/
def propertyOfJson? (node : Json → Option Node) (j : Json) : Option (Node × Node) := do
  match ← j.record? ["key", "value"] with
  | [some key, some value] => return (← node key, ← node value)
  | _ => none

/-- Reads the shape of a node at `loc` whose parts are read by `node`. -/
def ofShape? (node : Json → Option Node) (loc : Location) (j : Json) : Option Node := do
  match ← j.tagged? with
  | ("Break", none) | ("Break", some .null) => return breakLoop loc
  | ("Continue", none) | ("Continue", some .null) => return continueLoop loc
  | ("Literal", some j) => return constant loc (← Constant.ofJson? j)
  | ("Ident", some j) => return name loc (← j.toText?)
  | ("Block", some j) => return block loc (← j.toList? node)
  | ("ExprStmt", some j) => return statement loc (← node j)
  | ("Array", some j) => return array loc (← j.toList? node)
  | ("Object", some j) => return object loc (← j.toList? (propertyOfJson? node))
  | ("Return", some j) => return returnValue loc (← Json.toOption? node (some j))
  | ("Assign", some j) =>
    match ← j.parts? ["target", "value"] with
    | [some target, some value] => return assign loc (← node target) (← node value)
    | _ => none
  | ("Call", some j) =>
    match ← j.parts? ["callee", "args"] with
    | [some callee, some args] => return call loc (← callee.toName?) (← args.toList? node)
    | _ => none
  | ("Binary", some j) =>
    match ← j.parts? ["left", "op", "right"] with
    | [some left, some op, some right] =>
      return binary loc (← node left) (← BinaryOp.ofTag? (← op.tag?)) (← node right)
    | _ => none
  | ("Unary", some j) =>
    match ← j.parts? ["op", "expr"] with
    | [some op, some operand] => return unary loc (← UnaryOp.ofTag? (← op.tag?)) (← node operand)
    | _ => none
  | ("Logical", some j) =>
    match ← j.parts? ["left", "op", "right"] with
    | [some left, some op, some right] =>
      return logical loc (← node left) (← LogicalOp.ofTag? (← op.tag?)) (← node right)
    | _ => none
  | ("If", some j) =>
    match ← j.parts? ["cond", "then_branch", "else_branch"] with
    | [some condition, some thenBranch, elseBranch] =>
      return conditional loc (← node condition) (← node thenBranch)
        (← Json.toOption? node elseBranch)
    | _ => none
  | ("Index", some j) =>
    match ← j.parts? ["owner", "key"] with
    | [some owner, some key] => return index loc (← node owner) (← node key)
    | _ => none
  | ("While", some j) =>
    match ← j.parts? ["cond", "body", "retain"] with
    | [some condition, some body, some retain] =>
      return whileLoop loc (← node condition) (← node body) (← retain.toBool?)
    | _ => none
  | ("For", some j) =>
    match ← j.parts? ["var", "start", "bound", "direction", "step", "body", "retain"] with
    | [some counter, some start, some bound, some direction, some step, some body, some retain] =>
      return countLoop loc (← counter.toName?) (← node start) (← node bound)
        (← Direction.ofTag? (← direction.tag?)) (← node step) (← node body) (← retain.toBool?)
    | _ => none
  | ("ForOf", some j) =>
    match ← j.parts? ["target", "collection", "body", "retain"] with
    | [some target, some collection, some body, some retain] =>
      return eachLoop loc (← LoopTarget.ofJson? target) (← node collection) (← node body)
        (← retain.toBool?)
    | _ => none
  | _ => none

/-- Reads a node in which at most `n` nodes are inside one another. -/
def ofJsonUpTo? : Nat → Json → Option Node
  | 0, _ => none
  | n + 1, j => do
    let (item, loc) ← j.toLocated?
    ofShape? (ofJsonUpTo? n) loc item

/-- Reads a node. -/
def ofJson? (j : Json) : Option Node :=
  ofJsonUpTo? j.nesting j

end Node

namespace Program

/-- A program as JSON. -/
def toJson (p : Program) : Json :=
  .obj [("name", .str p.name), ("source", .str p.source), ("body", .arr (Node.toJsonAll p.body))]

/-- Reads a program. -/
def ofJson? (j : Json) : Option Program := do
  match ← j.record? ["name", "source", "body"] with
  | [some name, some source, some body] =>
    return ⟨← name.toText?, ← source.toText?, ← body.toList? Node.ofJson?⟩
  | _ => none

/-- The JSON text of a program. -/
def jsonText (p : Program) : String :=
  p.toJson.pretty

end Program

end Polyglot
