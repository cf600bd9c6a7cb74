import Polyglot.Eval.Action

/-!
# Loops

Loops over actions. A loop keeps the values of its body if it retains; an iteration that was
continued or that left the loop has no value. Before every iteration the loop asks whether it
may go on: a cancelled interpreter stops, and so does a loop at its limit.
-/

namespace Polyglot.Eval

variable {φ : Type}

/-- How an iteration ended, as far as its loop is concerned. -/
inductive Pass
  | value (v : Value)
  | next
  | leave

/-- Runs the body of a loop. -/
def pass (body : Eval φ Value) : Eval φ Pass :=
  tryCatch (Pass.value <$> body) fun
    | .breakLoop => return .leave
    | .continueLoop => return .next
    | exit => throw exit

/-- Asks whether a loop may go on after `count` iterations. Counting in 64 bits makes no difference:
a loop with a limit counts to one above the limit at most, which fits unless the limit is the last
number that does, and without a limit the count decides nothing. -/
def checkpoint (count : Nat) : Eval φ Unit := do
  let self := (← get).self
  if self.cancelled then fail .cancelled
  match self.config.maxIterations with
  | some limit => if limit ≤ count then fail (.iterationLimit limit)
  | none => return

/-- The values kept after one more. -/
def keep (retain : Bool) (kept : Array Value) (v : Value) : Array Value :=
  if retain then kept.push v else kept

/-- Repeats `body` and then `advance` as long as `goesOn` holds, `count` iterations having been
made. The first number bounds the iterations. -/
def repeatWhile (goesOn : Eval φ Bool) (body : Eval φ Value) (advance : Eval φ Unit)
    (retain : Bool) : Nat → Nat → Array Value → Eval φ (Array Value)
  | 0, _, _ => throw (.stopped .unfinished)
  | fuel + 1, count, kept => do
    if ← goesOn then
      checkpoint count
      match ← pass body with
      | .leave => return kept
      | .next =>
        advance
        repeatWhile goesOn body advance retain fuel (count + 1) kept
      | .value v =>
        advance
        repeatWhile goesOn body advance retain fuel (count + 1) (keep retain kept v)
    else return kept

/-- Runs `body` for every item in turn, after binding it. -/
def forEach (bind : Value → Eval φ Unit) (body : Eval φ Value) (retain : Bool) :
    List Value → Nat → Array Value → Eval φ (Array Value)
  | [], _, kept => return kept
  | item :: items, count, kept => do
    checkpoint count
    bind item
    match ← pass body with
    | .leave => return kept
    | .next => forEach bind body retain items (count + 1) kept
    | .value v => forEach bind body retain items (count + 1) (keep retain kept v)

/-- The value of a loop: the list of the values kept, or null. -/
def loopValue (retain : Bool) (kept : Array Value) : Eval φ Value :=
  if retain then newList kept else return .null

/-! ## Counting -/

/-- The bound of a counting loop, which has to be a number. -/
def boundOf (loc : Location) (bound : Eval φ Value) : Eval φ Float := do
  let limit ← bound
  match limit.toFloat? with
  | some x => return x
  | none => locate loc (fail (.typeMismatch "numeric loop bound" limit.typeName))

/-- The value of the counter, which has to be a number. -/
def counterOf (name : String) : Eval φ Float := do
  let value ← lookup name
  match value.toFloat? with
  | some x => return x
  | none => fail (.typeMismatch "numeric loop variable" value.typeName)

/-- The counter has not passed the bound. -/
def inRange (direction : Direction) (limit current : Float) : Bool :=
  match direction with
  | .up => limit ≥ current
  | .down => limit ≤ current

/-- Moves the counter by the step, which has to be a number. -/
def moveCounter (name : String) (direction : Direction) (loc : Location) (step : Eval φ Value) :
    Eval φ Unit := do
  let delta ← step
  if !delta.isNumber then
    locate loc (fail (.typeMismatch "numeric loop step" delta.typeName))
  let op := match direction with
    | .up => BinaryOp.add
    | .down => BinaryOp.sub
  assign name (← binary op (← lookup name) delta)

/-! ## Binding -/

/-- Binds an element to the names of a loop. -/
def bindTarget (target : LoopTarget) (item : Value) : Eval φ Unit := do
  match target with
  | .single name => assign name.item item
  | .pair first second =>
    let parts := ((← get).world.heap.listItems? item).getD #[]
    match parts[0]?, parts[1]? with
    | some a, some b =>
      assign first.item a
      assign second.item b
    | _, _ => locate first.loc (fail (.notSplittable item.typeName))

end Polyglot.Eval
