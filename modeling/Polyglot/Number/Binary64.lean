import Polyglot.Number.Width

/-!
# Exact arithmetic on double-precision numbers

A finite double is an integer times a power of two. This module takes doubles apart, puts the
nearest double to a fraction together, and does the operations that need the exact value:
truncation towards zero and the remainder of a truncated division.
-/

namespace Polyglot.Binary64

/-- A finite number `± mantissa · 2 ^ exponent`. -/
structure Exact where
  negative : Bool
  mantissa : Nat
  exponent : Int
deriving DecidableEq, Inhabited

/-- What a double stands for. -/
inductive Parts
  | nan
  | infinite (negative : Bool)
  | finite (x : Exact)
deriving DecidableEq, Inhabited

/-- The weight of the sign bit, `2 ^ 63`. -/
def signBit : Nat := 9223372036854775808

/-- The weight of the leading bit of a mantissa, `2 ^ 52`. -/
def leadingBit : Nat := 4503599627370496

/-- The exponent field of numbers that are not finite. -/
def specialExponent : Nat := 2047

/-- Takes a double apart. -/
def decode (x : Float) : Parts :=
  let bits := x.toBits.toNat
  let negative := signBit ≤ bits
  let exponent : Nat := bits / leadingBit % 2048
  let fraction := bits % leadingBit
  if exponent = specialExponent then
    if fraction = 0 then .infinite negative else .nan
  else if exponent = 0 then .finite ⟨negative, fraction, -1074⟩
  else .finite ⟨negative, leadingBit + fraction, (exponent : Int) - 1075⟩

/-- The bits of positive infinity. -/
def infinityBits : Nat := specialExponent * leadingBit

/-- A double from its sign and its other bits. -/
def ofBits (negative : Bool) (bits : Nat) : Float :=
  Float.ofBits (bits + if negative then signBit else 0).toUInt64

/-- The quotient of `num` by `den`, rounded to the nearest integer, a half to the even one. -/
def roundDiv (num den : Nat) : Nat :=
  let q := num / den
  let r := num % den
  if 2 * r < den then q
  else if 2 * r = den then q + q % 2
  else q + 1

/-- `num / den · 2 ^ (-shift)` as a fraction of natural numbers. -/
def scaled (num den : Nat) (shift : Int) : Nat × Nat :=
  if 0 ≤ shift then (num, den * Nat.pow 2 shift.toNat) else (num * Nat.pow 2 (-shift).toNat, den)

/-- The exponent of the last bit of the double nearest to `num / den`. -/
def lastBit (num den : Nat) : Int :=
  let guess : Int := max (-1074) (num.log2 - den.log2 - 53)
  let (n, d) := scaled num den guess
  if 2 * leadingBit ≤ n / d then guess + 1 else guess

/-- The double nearest to `± num / den`, of two equally near ones the even one. -/
def ofFraction (negative : Bool) (num den : Nat) : Float :=
  if num = 0 then ofBits negative 0
  else
    let exponent := lastBit num den
    let (n, d) := scaled num den exponent
    let mantissa := roundDiv n d
    let bits :=
      if mantissa < leadingBit then mantissa
      else (exponent + 1075).toNat * leadingBit + (mantissa - leadingBit)
    ofBits negative (min bits infinityBits)

/-- The double nearest to `± mantissa · 10 ^ exponent`. Exponents far outside the range of
doubles are settled without computing the power. -/
def ofDecimal (negative : Bool) (mantissa : Nat) (exponent : Int) : Float :=
  let magnitude := (Nat.toDigits 10 mantissa).length + exponent
  if mantissa = 0 then ofBits negative 0
  else if magnitude < -400 then ofBits negative 0
  else if 400 < magnitude then ofBits negative infinityBits
  else if 0 ≤ exponent then ofFraction negative (mantissa * Nat.pow 10 exponent.toNat) 1
  else ofFraction negative mantissa (Nat.pow 10 (-exponent).toNat)

/-- The double nearest to an integer. -/
def ofInt (n : Int) : Float :=
  ofFraction (n < 0) n.natAbs 1

/-- The magnitude of an exact number, rounded down. -/
def Exact.floorAbs (x : Exact) : Nat :=
  if 0 ≤ x.exponent then x.mantissa * Nat.pow 2 x.exponent.toNat
  else x.mantissa / Nat.pow 2 (-x.exponent).toNat

/-- An exact number rounded towards zero. -/
def Exact.truncate (x : Exact) : Int :=
  if x.negative then -(x.floorAbs : Int) else x.floorAbs

/-- A finite double rounded towards zero. -/
def truncate? (x : Float) : Option Int :=
  match decode x with
  | .finite d => some d.truncate
  | _ => none

/-- A double rounded towards zero and clamped to 64 signed bits; not-a-number gives zero. -/
def toInt64 (x : Float) : Int64 :=
  match decode x with
  | .nan => 0
  | .infinite negative => if negative then Int64.minValue else Int64.maxValue
  | .finite d => clampInt64 d.truncate

/-- A double rounded towards zero, as a word: what is negative and what is no number give zero, and
what is too large gives nothing. -/
def toWord? (x : Float) : Option Nat :=
  match decode x with
  | .nan => some 0
  | .infinite negative => if negative then some 0 else none
  | .finite d => if d.truncate < wordLimit then some d.truncate.toNat else none

/-- The remainder of dividing `a` by `b` with the quotient rounded towards zero. It has the
sign of `a` and is always exact. -/
def remainder (a b : Float) : Float :=
  match decode a, decode b with
  | .finite x, .finite y =>
    if y.mantissa = 0 then 0.0 / 0.0
    else
      let exponent := min x.exponent y.exponent
      let m := x.mantissa * Nat.pow 2 (x.exponent - exponent).toNat
      let n := y.mantissa * Nat.pow 2 (y.exponent - exponent).toNat
      let (num, den) := scaled (m % n) 1 (-exponent)
      ofFraction x.negative num den
  | .finite _, .infinite _ => a
  | _, _ => 0.0 / 0.0

end Polyglot.Binary64
