import Polyglot.Failure
import Polyglot.Program.Node
import Polyglot.Value.Equality
import Polyglot.Value.Tree

/-!
# Operators

What operators and indexing do with values. Integers wrap around at 64 bits; an integer and a
double give a double.
-/

namespace Polyglot

namespace Value

/-- The longest text, in bytes, that repetition may build. -/
def repeatLimit : Nat := 1073741824

/-- How often a number, taken as a double, asks for a repetition; nothing for more often than a word
can count. -/
def repetitions? (number : Value) : Option Nat :=
  match number.toFloat? with
  | some x => Binary64.toWord? x
  | none => some 0

/-- The text `s` as often as a number says. Its size is a word. -/
def repeated (s : String) (number : Value) : Except RuntimeFault Value :=
  if s.isEmpty then .ok (text "")
  else match number.repetitions? with
    | none => .error (.sizeLimit repeatLimit)
    | some n =>
      match mulWord? s.utf8ByteSize n with
      | none => .error (.sizeLimit repeatLimit)
      | some bytes =>
        if bytes ≤ repeatLimit then .ok (text (String.join (List.replicate n s)))
        else .error (.sizeLimit repeatLimit)

/-- The value is the number zero. -/
def isZero : Value → Bool
  | int n => n == 0
  | float x => x == 0.0
  | _ => false

/-- The operator does not apply to these values. -/
def inapplicable {α : Type} (op : BinaryOp) (a b : Value) : Except RuntimeFault α :=
  .error (.operands op.spelling a.typeName b.typeName)

/-- An arithmetic operator on two numbers. -/
def arithmetic (op : BinaryOp) (onInts : Int64 → Int64 → Int64) (onFloats : Float → Float → Float)
    (a b : Value) : Except RuntimeFault Value :=
  match a, b with
  | int m, int n => .ok (int (onInts m n))
  | a, b =>
    match a.toFloat?, b.toFloat? with
    | some x, some y => .ok (float (onFloats x y))
    | _, _ => inapplicable op a b

/-- A division, which fails for a zero divisor before the types are looked at, except that the
dividend has to be a number. -/
def division (op : BinaryOp) (onInts : Int64 → Int64 → Int64) (onFloats : Float → Float → Float)
    (a b : Value) : Except RuntimeFault Value :=
  if b.isZero && a.isNumber then .error .divisionByZero
  else arithmetic op onInts onFloats a b

/-- An order comparison of two numbers, as doubles. -/
def comparison (op : BinaryOp) (holds : Float → Float → Bool) (a b : Value) :
    Except RuntimeFault Value :=
  match a.toFloat?, b.toFloat? with
  | some x, some y => .ok (bool (holds x y))
  | _, _ => inapplicable op a b

end Value

namespace Heap

open Value

/-- A sum of numbers, or else the texts of both values in a row. -/
def add (h : Heap) (a b : Value) : Except RuntimeFault Value :=
  if a.isNumber && b.isNumber then arithmetic .add (· + ·) (· + ·) a b
  else .ok (text (h.display a ++ h.display b))

/-- A product of numbers, or a text repeated. -/
def multiply (a b : Value) : Except RuntimeFault Value :=
  match a, b with
  | text s, n => if n.isNumber then repeated s n else inapplicable .mul a b
  | n, text s => if n.isNumber then repeated s n else inapplicable .mul a b
  | a, b => arithmetic .mul (· * ·) (· * ·) a b

/-- A binary operator applied to two values. -/
def binary (h : Heap) (op : BinaryOp) (a b : Value) : Except RuntimeFault Value :=
  match op with
  | .add => h.add a b
  | .sub => arithmetic .sub (· - ·) (· - ·) a b
  | .mul => multiply a b
  | .div => division .div (· / ·) (· / ·) a b
  | .mod => division .mod (· % ·) Binary64.remainder a b
  | .eq => .ok (bool (h.equal a b))
  | .ne => .ok (bool (!h.equal a b))
  | .lt => comparison .lt (fun x y => x < y) a b
  | .gt => comparison .gt (fun x y => x > y) a b
  | .le => comparison .le (fun x y => x ≤ y) a b
  | .ge => comparison .ge (fun x y => x ≥ y) a b

/-- A unary operator applied to a value. -/
def unary (op : UnaryOp) (v : Value) : Except RuntimeFault Value :=
  match op, v with
  | .not, v => .ok (bool (!v.truthy))
  | .plus, int n => .ok (int n)
  | .plus, float x => .ok (float x)
  | .neg, int n => .ok (int (-n))
  | .neg, float x => .ok (float (-x))
  | op, v =>
    .error (.typeMismatch "number" (v.typeName ++ " for unary `" ++ op.spelling ++ "`"))

/-! ## Indexing -/

/-- A numeric key rounded towards zero. -/
def position? : Value → Option Int
  | .int n => some n.toInt
  | .float x => Binary64.truncate? x
  | _ => none

/-- The place a numeric key, rounded towards zero, names in a list of the given length. -/
def slot? (key : Value) (length : Nat) : Option Nat :=
  match position? key with
  | some i => if 0 ≤ i ∧ i < length then some i.toNat else none
  | none => none

/-- Reads `owner[key]`. What is missing reads as null. -/
def indexGet (h : Heap) (owner key : Value) : Except RuntimeFault Value :=
  match owner with
  | .list id =>
    let items := h.items id
    .ok (((slot? key items.size).bind fun i => items[i]?).getD .null)
  | .map id => .ok (((h.entries id).get? (h.display key)).getD .null)
  | owner => .error (.notIndexable owner.typeName)

/-- A key as error messages show it: as a double, rounded towards zero and clamped. -/
def shownKey (key : Value) : Int :=
  ((key.toFloat?.map Binary64.toInt64).getD 0).toInt

/-- Writes `owner[key] = value`. A list is written only where it has an item; a map under the
text of the key. -/
def indexSet (h : Heap) (owner key value : Value) : Except RuntimeFault Heap :=
  match owner with
  | .list id =>
    if !key.isNumber then .error (.typeMismatch "number" key.typeName)
    else
      let length := (h.items id).size
      match slot? key length with
      | some i => .ok (h.modifyList id fun items => items.setIfInBounds i value)
      | none => .error (.outOfBounds (shownKey key) length)
  | .map id =>
    let name := h.display key
    .ok (h.modifyMap id fun entries => entries.insert name value)
  | owner => .error (.notIndexable owner.typeName)

end Heap

end Polyglot
