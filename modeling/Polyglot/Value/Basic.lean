import Polyglot.Number.Decimal
import Polyglot.OrderedMap

/-!
# Values and the heap

Lists and maps are shared: a value holds the number of a container, and the containers live in
a heap. Two values are the same container when they hold the same number.
-/

namespace Polyglot

/-- A value of a running script. -/
inductive Value
  | null
  | bool (b : Bool)
  | int (n : Int64)
  | float (x : Float)
  | text (s : String)
  /-- The list with this number in the heap. -/
  | list (id : Nat)
  /-- The map with this number in the heap. -/
  | map (id : Nat)
deriving Inhabited

/-- A container of the heap. -/
inductive Ref
  | list (id : Nat)
  | map (id : Nat)
deriving DecidableEq, Inhabited

namespace Value

/-- Null, false, zero and the empty text are not true; all else is. -/
def truthy : Value → Bool
  | null => false
  | bool b => b
  | int n => n != 0
  | float x => x != 0.0
  | text s => !s.isEmpty
  | list _ | map _ => true

/-- The word for the type of a value. -/
def typeName : Value → String
  | null => "null"
  | bool _ => "boolean"
  | int _ => "integer"
  | float _ => "float"
  | text _ => "string"
  | list _ => "list"
  | map _ => "map"

/-- The value is null. -/
def isNull : Value → Bool
  | null => true
  | _ => false

/-- The value of a number as a double. -/
def toFloat? : Value → Option Float
  | int n => some (Binary64.ofInt n.toInt)
  | float x => some x
  | _ => none

/-- The value is a number. -/
def isNumber : Value → Bool
  | int _ | float _ => true
  | _ => false

end Value

/-- The containers of a process. -/
structure Heap where
  lists : Array (Array Value) := #[]
  maps : Array (OrderedMap Value) := #[]
deriving Inhabited

namespace Heap

/-- The number of containers. -/
def size (h : Heap) : Nat :=
  h.lists.size + h.maps.size

/-- The items of a list. -/
def items (h : Heap) (id : Nat) : Array Value :=
  h.lists.getD id #[]

/-- The entries of a map. -/
def entries (h : Heap) (id : Nat) : OrderedMap Value :=
  h.maps.getD id {}

/-- A new list with the given items. -/
def newList (h : Heap) (items : Array Value) : Value × Heap :=
  (.list h.lists.size, { h with lists := h.lists.push items })

/-- A new map with the given entries. -/
def newMap (h : Heap) (entries : OrderedMap Value) : Value × Heap :=
  (.map h.maps.size, { h with maps := h.maps.push entries })

/-- Changes the items of a list. -/
def modifyList (h : Heap) (id : Nat) (f : Array Value → Array Value) : Heap :=
  { h with lists := h.lists.modify id f }

/-- Changes the entries of a map. -/
def modifyMap (h : Heap) (id : Nat) (f : OrderedMap Value → OrderedMap Value) : Heap :=
  { h with maps := h.maps.modify id f }

/-- The items of a value that is a list. -/
def listItems? (h : Heap) : Value → Option (Array Value)
  | .list id => some (h.items id)
  | _ => none

/-- The entry of a value that is a map. -/
def entry? (h : Heap) (name : String) : Value → Option Value
  | .map id => (h.entries id).get? name
  | _ => none

end Heap

end Polyglot
