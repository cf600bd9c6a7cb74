import Polyglot.Failure
import Polyglot.Similar
import Polyglot.Value.Operators
import Polyglot.World.Interpreter

/-!
# Actions

The steps out of which evaluation is built. An action changes the machine and ends with a value
or leaves the constructs around it: a loop is left or continued, the program returns, or it
stops because it fails. What was done before an action ended stays done, however it ended.
-/

namespace Polyglot

/-- Why a program ends without a value. -/
inductive Stop
  | failed (e : RuntimeError)
  /-- Some loop used up the iterations that evaluation was given. -/
  | unfinished
deriving DecidableEq, Inhabited

/-- How evaluation leaves the constructs around it. -/
inductive Exit
  | breakLoop
  | continueLoop
  | returned (value : Value)
  | stopped (reason : Stop)
deriving Inhabited

/-- What a whole program, or a function of the host, does. -/
abbrev Action (φ : Type) := ExceptT Stop (StateM (Machine φ))

/-- What a part of a program does. -/
abbrev Eval (φ : Type) := ExceptT Exit (StateM (Machine φ))

/-- The functions of the host, by their handles. -/
abbrev Host (φ : Type) := φ → List Value → Action φ Value

namespace Eval

variable {φ α : Type}

/-- Ends with an exit or a value already known. -/
def ofExcept (r : Except Exit α) : Eval φ α :=
  match r with
  | .ok a => pure a
  | .error e => throw e

/-- Fails. -/
def fail (fault : RuntimeFault) : Eval φ α :=
  throw (.stopped (.failed { fault := fault }))

/-- The result of an operation, or its failure. -/
def ofResult (r : Except RuntimeFault α) : Eval φ α :=
  match r with
  | .ok a => pure a
  | .error fault => fail fault

/-- Locates the failure of an action that has no location yet. -/
def locate (loc : Location) (act : Eval φ α) : Eval φ α :=
  tryCatch act fun
    | .stopped (.failed e) => throw (.stopped (.failed (e.located loc)))
    | exit => throw exit

/-- Calls a function of the host. -/
def ofAction (act : Action φ α) : Eval φ α := do
  match ← (ExceptT.lift act.run : Eval φ (Except Stop α)) with
  | .ok a => return a
  | .error stop => throw (.stopped stop)

/-- The text of a value. -/
def display (v : Value) : Eval φ String :=
  return (← get).world.heap.display v

/-- The value of a name, null if it has none. -/
def lookup (name : String) : Eval φ Value :=
  return ((← get).get? name).getD .null

/-- Assigns to a name. -/
def assign (name : String) (value : Value) : Eval φ Unit :=
  modify fun m => m.assign name value

/-- A new list. -/
def newList (items : Array Value) : Eval φ Value :=
  modifyGet fun m =>
    let (v, heap) := m.world.heap.newList items
    (v, { m with world := { m.world with heap := heap } })

/-- A new map. -/
def newMap (entries : OrderedMap Value) : Eval φ Value :=
  modifyGet fun m =>
    let (v, heap) := m.world.heap.newMap entries
    (v, { m with world := { m.world with heap := heap } })

/-- A binary operator. -/
def binary (op : BinaryOp) (a b : Value) : Eval φ Value := do
  ofResult ((← get).world.heap.binary op a b)

/-- Reads an indexed value. -/
def indexGet (owner key : Value) : Eval φ Value := do
  ofResult ((← get).world.heap.indexGet owner key)

/-- Puts an indexed value into a machine. -/
def indexSetIn (m : Machine φ) (owner key value : Value) : Except RuntimeFault (Machine φ) :=
  match m.world.heap.indexSet owner key value with
  | .ok heap => .ok { m with world := { m.world with heap := heap } }
  | .error fault => .error fault

/-- Writes an indexed value. -/
def indexSet (owner key value : Value) : Eval φ Unit := do
  set (← ofResult (indexSetIn (← get) owner key value))

/-- Runs an action in a new scope, which is dropped however the action ends. -/
def withScope (name : String) (act : Eval φ α) : Eval φ α := do
  let depth := (← get).self.scopes.depth
  modify fun m => m.pushScope name
  let result ← (ExceptT.lift act.run : Eval φ (Except Exit α))
  modify fun m => m.truncate depth
  ofExcept result

end Eval

end Polyglot
