import Polyglot.Source

/-!
# Why a running script fails

Faults are causes; their wording is in one place. A failure is a fault with the location of the
innermost construct in which it arose.
-/

namespace Polyglot

/-- What went wrong while a script ran. -/
inductive RuntimeFault
  /-- A value of another type was needed. -/
  | typeMismatch (expected got : String)
  /-- An operator does not apply to values of these types. -/
  | operands (op left right : String)
  | divisionByZero
  /-- A write outside a list. -/
  | outOfBounds (index : Int) (length : Nat)
  /-- Indexing a value that is neither list nor map. -/
  | notIndexable (type : String)
  /-- A loop over the elements of a value that is no list. -/
  | notIterable (type : String)
  /-- An element that does not split into two. -/
  | notSplittable (type : String)
  /-- Raised by a function of the host. -/
  | host (message : String)
  | cancelled
  | iterationLimit (limit : Nat)
  /-- A text would become too long. -/
  | sizeLimit (limit : Nat)
  /-- Control flow left the program; no parsed program does this. -/
  | internal (message : String)
deriving DecidableEq, Inhabited

/-- Classes of faults. -/
inductive FaultKind
  | typeError
  | divisionByZero
  | outOfBounds
  | notIndexable
  | notIterable
  | notSplittable
  | host
  | cancelled
  | iterationLimit
  | sizeLimit
  | internal
deriving DecidableEq, Inhabited

namespace RuntimeFault

/-- The class of a fault. -/
def kind : RuntimeFault → FaultKind
  | typeMismatch _ _ | operands _ _ _ => .typeError
  | divisionByZero => .divisionByZero
  | outOfBounds _ _ => .outOfBounds
  | notIndexable _ => .notIndexable
  | notIterable _ => .notIterable
  | notSplittable _ => .notSplittable
  | host _ => .host
  | cancelled => .cancelled
  | iterationLimit _ => .iterationLimit
  | sizeLimit _ => .sizeLimit
  | internal _ => .internal

/-- The wording of a fault. -/
def message : RuntimeFault → String
  | typeMismatch expected got => "type error: expected " ++ expected ++ ", got " ++ got
  | operands op left right =>
    "type error: cannot apply `" ++ op ++ "` to " ++ left ++ " and " ++ right
  | divisionByZero => "division by zero"
  | outOfBounds index length =>
    "index " ++ toString index ++ " out of bounds for length " ++ toString length
  | notIndexable type => "cannot index into a value of type " ++ type
  | notIterable type => "cannot iterate over a value of type " ++ type
  | notSplittable type => "cannot destructure " ++ type ++ " into two bindings"
  | host message => message
  | cancelled => "execution cancelled"
  | iterationLimit limit => "loop iteration limit of " ++ toString limit ++ " exceeded"
  | sizeLimit limit => "string result exceeds the limit of " ++ toString limit ++ " bytes"
  | internal message => message

end RuntimeFault

/-- A fault, located once it has surfaced. -/
structure RuntimeError where
  fault : RuntimeFault
  loc : Option Location := none
deriving DecidableEq, Inhabited

namespace RuntimeError

/-- The class of the fault. -/
def kind (e : RuntimeError) : FaultKind :=
  e.fault.kind

/-- The wording of the fault. -/
def message (e : RuntimeError) : String :=
  e.fault.message

/-- Locates an error that has no location yet. -/
def located (e : RuntimeError) (loc : Location) : RuntimeError :=
  { e with loc := some (e.loc.getD loc) }

/-- The full text of the error. -/
def text (e : RuntimeError) : String :=
  match e.loc with
  | some loc => "Runtime error at " ++ loc.pos.text ++ ": " ++ e.message
  | none => "Runtime error: " ++ e.message

end RuntimeError

end Polyglot
