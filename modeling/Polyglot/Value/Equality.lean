import Polyglot.Value.Basic

/-!
# Equality of values

Numbers are equal as doubles, lists item by item, and maps name by name in any order. A pair of
containers met again while it is being compared counts as equal, so that values that hold
themselves can be compared.
-/

namespace Polyglot.Heap

/-- Compares two values while `pairs` are being compared, at most `n` pairs deep. -/
def equalUpTo (h : Heap) (n : Nat) (pairs : List (Ref × Ref)) (a b : Value) : Bool :=
  match a, b with
  | .null, .null => true
  | .bool a, .bool b => a == b
  | .text a, .text b => a == b
  | .list a, .list b =>
    a == b || pairs.contains (.list a, .list b) || match n with
      | 0 => true
      | n + 1 =>
        (h.items a).size == (h.items b).size &&
          ((h.items a).toList.zip (h.items b).toList).all fun p =>
            equalUpTo h n ((.list a, .list b) :: pairs) p.1 p.2
  | .map a, .map b =>
    a == b || pairs.contains (.map a, .map b) || match n with
      | 0 => true
      | n + 1 =>
        (h.entries a).size == (h.entries b).size &&
          (h.entries a).entries.all fun e =>
            match (h.entries b).get? e.1 with
            | some w => equalUpTo h n ((.map a, .map b) :: pairs) e.2 w
            | none => false
  | a, b =>
    match a.toFloat?, b.toFloat? with
    | some x, some y => x == y
    | _, _ => false

/-- More pairs cannot be open at once. -/
def pairBound (h : Heap) : Nat :=
  h.lists.size * h.lists.size + h.maps.size * h.maps.size + 1

/-- Two values are equal. -/
def equal (h : Heap) (a b : Value) : Bool :=
  h.equalUpTo h.pairBound [] a b

/-- Two maps given by their entries are equal. -/
def equalEntries (h : Heap) (a b : OrderedMap Value) : Bool :=
  a.size == b.size && a.entries.all fun e =>
    match b.get? e.1 with
    | some w => h.equal e.2 w
    | none => false

end Polyglot.Heap
