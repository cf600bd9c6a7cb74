import Polyglot.Json.Printer
import Polyglot.Value.Basic

/-!
# Values laid out as trees

A container may hold itself. Laid out as a tree, a value is cut at each container that is
already open on the way down to it; a container that is merely shared is laid out at each of
its places. The text of a value and its JSON form are read off the tree.
-/

namespace Polyglot

/-- A value with the contents of its containers. -/
inductive Tree
  | null
  | bool (b : Bool)
  | int (n : Int64)
  | float (x : Float)
  | text (s : String)
  | list (items : List Tree)
  | map (entries : List (String × Tree))
  /-- A list inside itself. -/
  | cutList
  /-- A map inside itself. -/
  | cutMap
deriving Inhabited

namespace Heap

/-- Lays a value out below the open containers `path`, at most `n` containers deep. -/
def unfoldUpTo (h : Heap) (n : Nat) (path : List Ref) (v : Value) : Tree :=
  match v with
  | .null => .null
  | .bool b => .bool b
  | .int n => .int n
  | .float x => .float x
  | .text s => .text s
  | .list id =>
    if path.contains (.list id) then .cutList
    else match n with
      | 0 => .cutList
      | n + 1 => .list ((h.items id).toList.map (unfoldUpTo h n (.list id :: path)))
  | .map id =>
    if path.contains (.map id) then .cutMap
    else match n with
      | 0 => .cutMap
      | n + 1 =>
        .map ((h.entries id).entries.map fun e =>
          (e.1, unfoldUpTo h n (.map id :: path) e.2))

/-- A value laid out. No more containers can be open at once than there are. -/
def unfold (h : Heap) (v : Value) : Tree :=
  h.unfoldUpTo (h.size + 1) [] v

end Heap

namespace Tree

mutual

/-- The text of a tree. -/
def display : Tree → String
  | null => "null"
  | bool b => if b then "true" else "false"
  | int n => toString n.toInt
  | float x => Decimal.text x
  | text s => s
  | list items => "[" ++ displayItems "" items ++ "]"
  | map entries => "\x7b" ++ displayEntries "" entries ++ "\x7d"
  | cutList => "(this Collection)"
  | cutMap => "(this Map)"

/-- Items after `separator`, with commas between them. -/
def displayItems (separator : String) : List Tree → String
  | [] => ""
  | t :: ts => separator ++ (t.display ++ displayItems ", " ts)

/-- Entries after `separator`, with commas between them. -/
def displayEntries (separator : String) : List (String × Tree) → String
  | [] => ""
  | (k, t) :: ts => separator ++ (k ++ "=" ++ (t.display ++ displayEntries ", " ts))

end

/-- The text of a tree with the name of its type. -/
def debug : Tree → String
  | null => "Null"
  | bool b => "Bool(" ++ (bool b).display ++ ")"
  | int n => "Int(" ++ (int n).display ++ ")"
  | float x => "Float(" ++ (float x).display ++ ")"
  | text s => "Str(" ++ Text.quoted s ++ ")"
  | list items => "List(" ++ (list items).display ++ ")"
  | map entries => "Map(" ++ (map entries).display ++ ")"
  | cutList => "List(" ++ cutList.display ++ ")"
  | cutMap => "Map(" ++ cutMap.display ++ ")"

mutual

/-- The JSON form of a tree. Maps list their fields in increasing order of names; numbers that
are not finite, and containers inside themselves, become null. -/
def toJson : Tree → Json
  | null => .null
  | bool b => .bool b
  | int n => .int n.toInt
  | float x =>
    match Binary64.decode x with
    | .finite _ => .float x
    | _ => .null
  | text s => .str s
  | list items => .arr (toJsonItems items)
  | map entries => .obj (OrderedMap.sortEntries (toJsonEntries entries))
  | cutList | cutMap => .null

/-- The JSON forms of items. -/
def toJsonItems : List Tree → List Json
  | [] => []
  | t :: ts => t.toJson :: toJsonItems ts

/-- The JSON forms of entries. -/
def toJsonEntries : List (String × Tree) → List (String × Json)
  | [] => []
  | (k, t) :: ts => (k, t.toJson) :: toJsonEntries ts

end

end Tree

namespace Heap

/-- The text of a value. -/
def display (h : Heap) (v : Value) : String :=
  (h.unfold v).display

/-- The JSON form of a value. -/
def toJson (h : Heap) (v : Value) : Json :=
  (h.unfold v).toJson

end Heap

/-! ## Values of JSON -/

namespace Value

/-- The value of a JSON number without fraction. -/
def ofInteger (n : Int) : Value :=
  if FitsInt64 n then int (Int64.ofInt n) else float (Binary64.ofInt n)

mutual

/-- The value of a JSON value, whose containers are new. Maps list their entries in increasing
order of names. -/
def ofJson : Json → StateM Heap Value
  | .null => return null
  | .bool b => return bool b
  | .int n => return ofInteger n
  | .float x => return float x
  | .str s => return text s
  | .arr items => do
    let values ← ofJsonItems items
    modifyGet (·.newList values.toArray)
  | .obj fields => do
    let entries ← ofJsonFields fields
    modifyGet (·.newMap ⟨OrderedMap.sortEntries entries⟩)

/-- The values of items. -/
def ofJsonItems : List Json → StateM Heap (List Value)
  | [] => return []
  | j :: js => do
    let v ← ofJson j
    return v :: (← ofJsonItems js)

/-- The values of fields. -/
def ofJsonFields : List (String × Json) → StateM Heap (List (String × Value))
  | [] => return []
  | (k, j) :: fs => do
    let v ← ofJson j
    return (k, v) :: (← ofJsonFields fs)

end

end Value

end Polyglot
