import Polyglot.Value.Operators

/-!
# Operators with partial steps

A machine has no quotient for a zero divisor and no text beyond what it can address. These are the
operators with such steps where there are total ones otherwise: if a step is taken that has no
answer, neither has the operator.
-/

namespace Polyglot

/-- The quotient of two integers, which there is only for a divisor other than zero. -/
def quotient? (a b : Int64) : Option Int64 :=
  if b = 0 then none else some (a / b)

/-- The remainder of two integers, which there is only for a divisor other than zero. -/
def remainder? (a b : Int64) : Option Int64 :=
  if b = 0 then none else some (a % b)

/-- Copies of a text in a row, which there are only if they can be addressed. -/
def copies? (s : String) (n : Nat) : Option String :=
  if s.utf8ByteSize * n < int64Limit then some (String.join (List.replicate n s)) else none

namespace Value

/-- `repeated` with the copying of the text as a partial step. -/
def repeated? (s : String) (number : Value) : Option (Except RuntimeFault Value) :=
  if s.isEmpty then some (.ok (text ""))
  else match number.repetitions? with
    | none => some (.error (.sizeLimit repeatLimit))
    | some n =>
      match mulWord? s.utf8ByteSize n with
      | none => some (.error (.sizeLimit repeatLimit))
      | some bytes =>
        if bytes ≤ repeatLimit then (copies? s n).map fun t => .ok (text t)
        else some (.error (.sizeLimit repeatLimit))

/-- `division` with a partial step on integers. -/
def division? (op : BinaryOp) (onInts : Int64 → Int64 → Option Int64)
    (onFloats : Float → Float → Float) (a b : Value) : Option (Except RuntimeFault Value) :=
  if b.isZero && a.isNumber then some (.error .divisionByZero)
  else match a, b with
    | int m, int n => (onInts m n).map fun q => .ok (int q)
    | a, b =>
      match a.toFloat?, b.toFloat? with
      | some x, some y => some (.ok (float (onFloats x y)))
      | _, _ => some (inapplicable op a b)

end Value

namespace Heap

open Value

/-- `multiply` with the copying of a text as a partial step. -/
def multiply? (a b : Value) : Option (Except RuntimeFault Value) :=
  match a, b with
  | text s, n => if n.isNumber then repeated? s n else some (inapplicable .mul a b)
  | n, text s => if n.isNumber then repeated? s n else some (inapplicable .mul a b)
  | a, b => some (arithmetic .mul (· * ·) (· * ·) a b)

/-- `binary` with its partial steps; the other operators have none. -/
def binary? (h : Heap) (op : BinaryOp) (a b : Value) : Option (Except RuntimeFault Value) :=
  match op with
  | .mul => multiply? a b
  | .div => division? .div quotient? (· / ·) a b
  | .mod => division? .mod remainder? Binary64.remainder a b
  | op => some (h.binary op a b)

end Heap

end Polyglot
