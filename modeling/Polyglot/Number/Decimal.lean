import Polyglot.Number.Binary64

/-!
# Decimal forms of doubles

The shortest run of decimal digits that reads back as the same double, and its layout as text.
Of several shortest runs the one nearest to the double is taken; where two are equally near, the
layout says which.
-/

namespace Polyglot.Decimal

open Binary64

/-- A positive number `num / den` together with the interval of numbers that round to the same
double. All three are multiples of `1 / den`. -/
structure Neighbourhood where
  low : Nat
  num : Nat
  high : Nat
  den : Nat
  /-- The ends of the interval round to the double as well. -/
  closed : Bool

/-- The interval of a positive exact number. Below a power of two the doubles lie closer, so
there the lower half-gap is half as wide. -/
def neighbourhood (x : Exact) : Neighbourhood :=
  let narrow := x.mantissa = leadingBit ∧ -1074 < x.exponent
  let unit := if 0 ≤ x.exponent - 2 then Nat.pow 2 (x.exponent - 2).toNat else 1
  { low := (4 * x.mantissa - if narrow then 1 else 2) * unit
    num := 4 * x.mantissa * unit
    high := (4 * x.mantissa + 2) * unit
    den := if 0 ≤ x.exponent - 2 then 1 else Nat.pow 2 (2 - x.exponent).toNat
    closed := x.mantissa % 2 = 0 }

/-- `count · 10 ^ scale` lies in the interval. -/
def Neighbourhood.holds (r : Neighbourhood) (count : Nat) (scale : Int) : Bool :=
  let (a, b) := if 0 ≤ scale then (count * Nat.pow 10 scale.toNat, 1)
    else (count, Nat.pow 10 (-scale).toNat)
  let mid := a * r.den
  if r.closed then r.low * b ≤ mid && mid ≤ r.high * b
  else r.low * b < mid && mid < r.high * b

/-- The exponent of the first decimal digit of `num / den`. -/
def leadingExponent (num den : Nat) : Int :=
  if den ≤ num then (Nat.toDigits 10 (num / den)).length - 1
  else -(Nat.toDigits 10 (den / num)).length

/-- Which of two equally near numbers is taken. -/
inductive Tie
  /-- The larger one. -/
  | up
  /-- The even one. -/
  | even
deriving DecidableEq, Inhabited

/-- A tie between `below` and the number after it goes to `below`. -/
def Tie.keeps (tie : Tie) (below : Nat) : Bool :=
  match tie with
  | up => false
  | even => below % 2 == 0

/-- The nearest point to the number on the grid `10 ^ scale` that lies in the interval. -/
def Neighbourhood.onGrid? (r : Neighbourhood) (tie : Tie) (scale : Int) : Option (Nat × Int) :=
  let (n, d) := if 0 ≤ scale then (r.num, r.den * Nat.pow 10 scale.toNat)
    else (r.num * Nat.pow 10 (-scale).toNat, r.den)
  let below := n / d
  let nearest := if 2 * (n % d) < d ∨ (2 * (n % d) = d ∧ tie.keeps below) then [below, below + 1]
    else [below + 1, below]
  (nearest.find? fun c => c != 0 && r.holds c scale).map fun c => (c, scale)

/-- Drops trailing zeros of the digits of `count`, at most `fuel` of them. -/
def dropZeros : Nat → Nat → Int → Nat × Int
  | 0, count, scale => (count, scale)
  | fuel + 1, count, scale =>
    if count ≠ 0 ∧ count % 10 = 0 then dropZeros fuel (count / 10) (scale + 1) else (count, scale)

/-- The shortest decimal `count · 10 ^ scale` that rounds to a positive exact number, nearest
to it among those. Seventeen digits always suffice. -/
def shortest (tie : Tie) (x : Exact) : Nat × Int :=
  let r := neighbourhood x
  let top := leadingExponent r.num r.den
  let found := (List.range 17).findSome? fun (n : Nat) => r.onGrid? tie (top - n)
  let (count, scale) := found.getD (r.num / r.den, 0)
  dropZeros 20 count scale

/-- How the text of a double is laid out. -/
structure Style where
  /-- Least exponent of the first digit that is written positionally. -/
  least : Int
  /-- First exponent of the first digit that is no longer written positionally. -/
  limit : Int
  /-- A positive exponent is written with its sign. -/
  plus : Bool
  /-- The choice between two shortest runs that are equally near. -/
  tie : Tie

/-- Digits and scale, written positionally with at least one digit after the point. -/
def positional (digits : String) (scale : Int) : String :=
  let n : Int := digits.length
  if 0 ≤ scale then digits ++ String.ofList (List.replicate scale.toNat '0') ++ ".0"
  else if -scale < n then
    let whole := (n + scale).toNat
    String.ofList (digits.toList.take whole) ++ "." ++ String.ofList (digits.toList.drop whole)
  else "0." ++ String.ofList (List.replicate (-scale - n).toNat '0') ++ digits

/-- Digits and scale, written with an exponent. -/
def scientific (plus : Bool) (digits : String) (exponent : Int) : String :=
  let ds := digits.toList
  let fraction := if ds.length ≤ 1 then "" else "." ++ String.ofList (ds.drop 1)
  let sign := if plus && 0 ≤ exponent then "+" else ""
  String.ofList (ds.take 1) ++ fraction ++ "e" ++ sign ++ toString exponent

/-- The text of a finite number. -/
def Style.finite (style : Style) (x : Exact) : String :=
  let sign := if x.negative then "-" else ""
  if x.mantissa = 0 then sign ++ "0.0"
  else
    let (count, scale) := shortest style.tie x
    let digits := toString count
    let exponent : Int := digits.length - 1 + scale
    if style.least ≤ exponent ∧ exponent < style.limit then sign ++ positional digits scale
    else sign ++ scientific style.plus digits exponent

/-- Numbers in scripts are written positionally from `1e-4` up to `1e16`. -/
def script : Style := ⟨-4, 16, false, .up⟩

/-- Numbers in JSON are written positionally from `1e-5` up to `1e16`, and a large exponent
carries its sign. -/
def json : Style := ⟨-5, 16, true, .even⟩

/-- The text of a double in scripts and messages. -/
def text (x : Float) : String :=
  match decode x with
  | .nan => "NaN"
  | .infinite negative => if negative then "-inf" else "inf"
  | .finite d => script.finite d

/-! ## Reading -/

/-- The value of a run of decimal digits. -/
def digitsValue (ds : List Char) : Nat :=
  ds.foldl (fun n c => 10 * n + (c.toNat - '0'.toNat)) 0

/-- A run of digits with an optional sign. -/
def signedDigits? : List Char → Option Int
  | '-' :: ds => if !ds.isEmpty && ds.all Char.isDigit then some (-digitsValue ds) else none
  | '+' :: ds => if !ds.isEmpty && ds.all Char.isDigit then some (digitsValue ds) else none
  | ds => if !ds.isEmpty && ds.all Char.isDigit then some (digitsValue ds) else none

/-- The double of digits before and after a decimal point, times a power of ten. -/
def ofDigits (negative : Bool) (whole fraction : List Char) (exponent : Int) : Float :=
  ofDecimal negative (digitsValue (whole ++ fraction)) (exponent - fraction.length)

/-- Reads an unsigned decimal with optional fraction and exponent. -/
def readUnsigned? (negative : Bool) (cs : List Char) : Option Float :=
  let whole := cs.takeWhile Char.isDigit
  let afterWhole := cs.dropWhile Char.isDigit
  let (fraction, rest) := match afterWhole with
    | '.' :: cs => (cs.takeWhile Char.isDigit, cs.dropWhile Char.isDigit)
    | _ => ([], afterWhole)
  if whole.isEmpty && fraction.isEmpty then none
  else match rest with
    | [] => some (ofDigits negative whole fraction 0)
    | c :: cs =>
      if c == 'e' || c == 'E' then (signedDigits? cs).map (ofDigits negative whole fraction)
      else none

/-- Reads a double: a decimal, possibly signed, or one of `NaN`, `inf`, `-inf`. -/
def read? (s : String) : Option Float :=
  if s = "NaN" then some (0.0 / 0.0)
  else if s = "inf" then some (1.0 / 0.0)
  else if s = "-inf" then some (-1.0 / 0.0)
  else match s.toList with
    | '-' :: cs => readUnsigned? true cs
    | cs => readUnsigned? false cs

end Polyglot.Decimal
