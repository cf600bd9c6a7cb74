import Polyglot.Eval.Loop

/-!
# Evaluation

What the nodes of a program do. Evaluation follows the tree; each activation of a loop may make
as many iterations as it is given, so evaluation always ends. A failure is located at the
innermost node in which it arose.
-/

namespace Polyglot

/-- The value of a literal. -/
def Constant.value : Constant → Value
  | null => .null
  | bool b => .bool b
  | int n => .int n
  | float x => .float x
  | text s => .text s

namespace Node

open Polyglot.Eval

variable {φ : Type} (host : Host φ) (budget : Nat)

/-- Reports a call of an unknown function, with the name it may be a misspelling of. -/
def reportUnknown (name : String) (m : Machine φ) : Machine φ :=
  m.report (.unknownCall name
    (similarName name m.self.functions.sortedKeys suggestionThreshold))

mutual

/-- Evaluates a node. -/
def eval (n : Node) : Eval φ Value :=
  locate n.loc <| match n with
    | constant _ value => return value.value
    | name _ s => lookup s
    | block _ body => withScope "block" (evalBody .null body)
    | statement _ value => value.eval
    | assign _ (name _ s) value => do
      let v ← value.eval
      Eval.assign s v
      return v
    | assign _ (index loc owner key) value => do
      let v ← value.eval
      let o ← owner.eval
      let k ← key.eval
      locate loc (indexSet o k v)
      return v
    | assign _ _ value => do
      let _ ← value.eval
      fail (.internal "invalid assignment target")
    | call _ callee args => do
      match (← get).self.functions.get? callee.item with
      | none =>
        modify (reportUnknown callee.item)
        return .null
      | some function =>
        let values ← evalAll args
        ofAction (host function values)
    | binary _ left op right => do
      let a ← left.eval
      let b ← right.eval
      Eval.binary op a b
    | unary _ op operand => do
      let v ← operand.eval
      ofResult (Heap.unary op v)
    | logical _ left op right => do
      let a ← left.eval
      match op with
      | .nullish => if a.isNull then right.eval else return a
      | .and => if a.truthy then return .bool (← right.eval).truthy else return .bool false
      | .or => if a.truthy then return .bool true else return .bool (← right.eval).truthy
    | conditional _ condition thenBranch none => do
      if (← condition.eval).truthy then thenBranch.eval else return .null
    | conditional _ condition thenBranch (some elseBranch) => do
      if (← condition.eval).truthy then thenBranch.eval else elseBranch.eval
    | index _ owner key => do
      let o ← owner.eval
      let k ← key.eval
      indexGet o k
    | object _ properties => do
      newMap (← evalProperties {} properties)
    | array _ items => do
      newList (← evalAll items).toArray
    | whileLoop _ condition body retain => do
      let goesOn : Eval φ Bool := return (← condition.eval).truthy
      loopValue retain (← repeatWhile goesOn body.eval (return ()) retain budget 0 #[])
    | countLoop _ counter start bound direction step body retain =>
      withScope "for" do
        Eval.assign counter.item (← start.eval)
        let goesOn : Eval φ Bool := do
          let limit ← boundOf bound.loc bound.eval
          return inRange direction limit (← counterOf counter.item)
        let advance := moveCounter counter.item direction step.loc step.eval
        loopValue retain (← repeatWhile goesOn body.eval advance retain budget 0 #[])
    | eachLoop _ target collection body retain => do
      let v ← collection.eval
      match (← get).world.heap.listItems? v with
      | none => fail (.notIterable v.typeName)
      | some items =>
        withScope "for-of" do
          loopValue retain (← forEach (bindTarget target) body.eval retain items.toList 0 #[])
    | breakLoop _ => throw .breakLoop
    | continueLoop _ => throw .continueLoop
    | returnValue _ none => throw (.returned .null)
    | returnValue _ (some value) => do
      let v ← value.eval
      throw (.returned v)

/-- Evaluates nodes in turn and keeps their values. -/
def evalAll : List Node → Eval φ (List Value)
  | [] => return []
  | n :: ns => do
    let v ← n.eval
    return v :: (← evalAll ns)

/-- Evaluates statements in turn; the value is that of the last one, or else `last`. -/
def evalBody (last : Value) : List Node → Eval φ Value
  | [] => return last
  | n :: ns => do
    let v ← n.eval
    evalBody v ns

/-- Evaluates keys and values in turn and adds them to a map, each under the text of its key. -/
def evalProperties (entries : OrderedMap Value) : List (Node × Node) → Eval φ (OrderedMap Value)
  | [] => return entries
  | (key, value) :: ps => do
    let k ← key.eval
    let v ← value.eval
    evalProperties (entries.insert (← display k) v) ps

end

end Node

namespace Program

variable {φ : Type} (host : Host φ) (budget : Nat)

/-- Evaluates the statements of a program. A `return` ends it; leaving or continuing a loop
that is not there is an internal failure. -/
def evalStatements (last : Value) : List Node → Action φ Value
  | [] => return last
  | n :: ns => do
    match ← (ExceptT.lift (n.eval host budget).run : Action φ (Except Exit Value)) with
    | .ok v => evalStatements v ns
    | .error (.returned v) => return v
    | .error (.stopped reason) => throw reason
    | .error .breakLoop | .error .continueLoop =>
      throw (.failed ⟨.internal "loop signal reached the program root", some n.loc⟩)

end Program

end Polyglot
