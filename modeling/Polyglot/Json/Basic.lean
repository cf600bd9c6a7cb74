import Polyglot.OrderedMap

/-!
# JSON values

Integers and other numbers are kept apart: `1` and `1.0` are different values.
-/

namespace Polyglot

/-- A JSON value; objects list their fields in written order. -/
inductive Json
  | null
  | bool (b : Bool)
  | int (n : Int)
  | float (x : Float)
  | str (s : String)
  | arr (items : List Json)
  | obj (fields : List (String × Json))
deriving Inhabited

namespace Json

/-- The field of an object with the given name. -/
def field? (j : Json) (name : String) : Option Json :=
  match j with
  | obj fields => OrderedMap.find? name fields
  | _ => none

mutual

/-- How many arrays and objects of a value are inside one another. -/
def nesting : Json → Nat
  | null | bool _ | int _ | float _ | str _ => 0
  | arr items => nestingItems items + 1
  | obj fields => nestingFields fields + 1

/-- How many arrays and objects are inside one another in some item. -/
def nestingItems : List Json → Nat
  | [] => 0
  | j :: js => max j.nesting (nestingItems js)

/-- How many arrays and objects are inside one another in some field. -/
def nestingFields : List (String × Json) → Nat
  | [] => 0
  | (_, j) :: fs => max j.nesting (nestingFields fs)

end

end Json

end Polyglot
