import Polyglot.Number.Decimal
import Polyglot.Toml.Text

/-!
# Numbers of TOML

Integers in four bases and doubles, with single underscores between digits, and the other words
that are values.
-/

namespace Polyglot.Toml

/-- The digits of a number in which single underscores may stand between digits. -/
def digits? (isDigit : Char → Bool) : List Char → Option (List Char)
  | [] => none
  | [c] => if isDigit c then some [c] else none
  | c :: '_' :: cs => if isDigit c then (digits? isDigit cs).map (c :: ·) else none
  | c :: cs => if isDigit c then (digits? isDigit cs).map (c :: ·) else none

/-- An integer that fits 64 signed bits. -/
def integer? (n : Int) : Option Toml :=
  if FitsInt64 n then some (int n) else none

/-- Digits without a needless leading zero. -/
def plainDigits? (cs : List Char) : Option (List Char) := do
  let ds ← digits? Char.isDigit cs
  if ds.length ≠ 1 ∧ ds.head? = some '0' then none else some ds

/-- A sign and what follows it. -/
def splitSign : List Char → Bool × List Char
  | '-' :: cs => (true, cs)
  | '+' :: cs => (false, cs)
  | cs => (false, cs)

/-- The exponent of a double. -/
def exponent? : List Char → Option Int
  | [] => some 0
  | c :: cs =>
    if c == 'e' || c == 'E' then
      let (negative, cs) := splitSign cs
      (digits? Char.isDigit cs).map fun ds =>
        let n : Int := Decimal.digitsValue ds
        if negative then -n else n
    else none

/-- A double, unless it is too large. -/
def bounded? (x : Float) : Option Toml :=
  if x == 1.0 / 0.0 then none else some (float x)

/-- A double, after its sign. -/
def float? (negative : Bool) (cs : List Char) : Option Toml := do
  let isMark (c : Char) : Bool := c == '.' || c == 'e' || c == 'E'
  let whole ← plainDigits? (cs.takeWhile (!isMark ·))
  match cs.dropWhile (!isMark ·) with
  | '.' :: rest =>
    let fraction ← digits? Char.isDigit (rest.takeWhile (!isMark ·))
    let e ← exponent? (rest.dropWhile (!isMark ·))
    bounded? (Decimal.ofDigits negative whole fraction e)
  | [] => none
  | rest =>
    let e ← exponent? rest
    bounded? (Decimal.ofDigits negative whole [] e)

/-- A number or another value written without quotes and brackets. -/
def bare? (word : List Char) : Option Toml :=
  match word with
  | '0' :: 'x' :: cs => do integer? (← baseValue? 16 (← digits? (fun c => (hexValue? c).isSome) cs))
  | '0' :: 'o' :: cs => do integer? (← baseValue? 8 (← digits? Char.isDigit cs))
  | '0' :: 'b' :: cs => do integer? (← baseValue? 2 (← digits? Char.isDigit cs))
  | word =>
    if word = "true".toList then some (bool true)
    else if word = "false".toList then some (bool false)
    else
      let (negative, cs) := splitSign word
      if cs = "inf".toList then some (float (if negative then -1.0 / 0.0 else 1.0 / 0.0))
      else if cs = "nan".toList then some (float (0.0 / 0.0))
      else match plainDigits? cs with
        | some ds =>
          let n : Int := Decimal.digitsValue ds
          integer? (if negative then -n else n)
        | none => float? negative cs

/-- Characters of values written without quotes and brackets. -/
def isBareChar (c : Char) : Bool :=
  c.isAlphanum || c == '_' || c == '+' || c == '-' || c == '.'

end Polyglot.Toml
