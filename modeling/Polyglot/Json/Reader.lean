import Polyglot.Json.Basic
import Polyglot.Number.Decimal

/-!
# Reading JSON

A recursive-descent reader of JSON text. A number without fraction and exponent is an integer
when it fits 64 bits, signed or unsigned, except that `-0` keeps its sign by being read as a
double. Any other number is a double: its leading digits, as many as fit 64 bits, scaled by a
power of ten. That is the nearest double for numbers of up to fifteen digits and moderate
exponents, and close to it for others. The last of several fields of one name wins and takes
the place of the first. Arrays and objects may be inside one another to a limit only.
-/

namespace Polyglot.Json

/-- Characters between the parts of a JSON text. -/
def isBlank (c : Char) : Bool :=
  c == ' ' || c == '\n' || c == '\r' || c == '\t'

/-- The value of a hexadecimal digit. -/
def hexValue? (c : Char) : Option Nat :=
  if '0' ≤ c ∧ c ≤ '9' then some (c.toNat - '0'.toNat)
  else if 'a' ≤ c ∧ c ≤ 'f' then some (c.toNat - 'a'.toNat + 10)
  else if 'A' ≤ c ∧ c ≤ 'F' then some (c.toNat - 'A'.toNat + 10)
  else none

/-- The number written by four hexadecimal digits. -/
def unit? (a b c d : Char) : Option Nat := do
  let a ← hexValue? a
  let b ← hexValue? b
  let c ← hexValue? c
  let d ← hexValue? d
  return ((a * 16 + b) * 16 + c) * 16 + d

/-- The character of a unit outside the surrogate range. -/
def plainUnit? (n : Nat) : Option Char :=
  if n < 0xd800 ∨ 0xe000 ≤ n then some (Char.ofNat n) else none

/-- The character of a pair of surrogates. -/
def pairedUnits? (high low : Nat) : Option Char :=
  if 0xd800 ≤ high ∧ high < 0xdc00 ∧ 0xdc00 ≤ low ∧ low < 0xe000 then
    some (Char.ofNat (0x10000 + (high - 0xd800) * 0x400 + (low - 0xdc00)))
  else none

/-- The character of a one-letter escape. -/
def simpleEscape? (c : Char) : Option Char :=
  if c == '\"' || c == '\\' || c == '/' then some c
  else if c == 'b' then some '\x08'
  else if c == 'f' then some '\x0c'
  else if c == 'n' then some '\n'
  else if c == 'r' then some '\r'
  else if c == 't' then some '\t'
  else none

/-- Puts a character in front of what the rest of a string reads as. -/
def consChar (c : Char) (r : Option (List Char × List Char)) : Option (List Char × List Char) :=
  r.map fun (s, rest) => (c :: s, rest)

/-- The rest of a string after its opening quote, and what follows the closing one. -/
def readString : List Char → Option (List Char × List Char)
  | [] => none
  | '\"' :: rest => some ([], rest)
  | '\\' :: 'u' :: a :: b :: c :: d :: rest =>
    match unit? a b c d with
    | none => none
    | some n =>
      match plainUnit? n with
      | some ch => consChar ch (readString rest)
      | none =>
        match rest with
        | '\\' :: 'u' :: e :: f :: g :: h :: rest =>
          match (unit? e f g h).bind (pairedUnits? n) with
          | some ch => consChar ch (readString rest)
          | none => none
        | _ => none
  | '\\' :: c :: rest =>
    match simpleEscape? c with
    | some ch => consChar ch (readString rest)
    | none => none
  | c :: rest => if c.toNat < 32 ∨ c = '\\' then none else consChar c (readString rest)

/-- The digits after a decimal point, when there is one. -/
def readFraction : List Char → Option (Option (List Char) × List Char)
  | '.' :: cs =>
    let ds := cs.takeWhile Char.isDigit
    if ds.isEmpty then none else some (some ds, cs.dropWhile Char.isDigit)
  | cs => some (none, cs)

/-- The digits of an exponent after its sign. -/
def readExponentDigits (negative : Bool) (cs : List Char) : Option (Option Int × List Char) :=
  let ds := cs.takeWhile Char.isDigit
  let n : Int := Decimal.digitsValue ds
  if ds.isEmpty then none else some (some (if negative then -n else n), cs.dropWhile Char.isDigit)

/-- The exponent of a number, when there is one. -/
def readExponent : List Char → Option (Option Int × List Char)
  | c :: cs =>
    if c == 'e' || c == 'E' then
      match cs with
      | '-' :: cs => readExponentDigits true cs
      | '+' :: cs => readExponentDigits false cs
      | cs => readExponentDigits false cs
    else some (none, c :: cs)
  | [] => some (none, [])

/-- Goes on with a number by digits as long as it fits 64 bits; gives the digits left. -/
def significand (n : Nat) : List Char → Nat × List Char
  | [] => (n, [])
  | d :: ds =>
    let next := 10 * n + (d.toNat - '0'.toNat)
    if next < wordLimit then significand next ds else (n, d :: ds)

/-- The largest exponent of a power of ten that is a double. -/
def largestPower : Nat := 308

/-- A power of ten as a double. -/
def power (n : Nat) : Float :=
  Binary64.ofDecimal false 1 n

/-- Divides by a power of ten, in two steps if it is no double. Numbers of 64 bits vanish before
a third step could be needed. -/
def dividedBy (x : Float) (n : Nat) : Float :=
  if n ≤ largestPower then x / power n
  else x / power largestPower / power (min (n - largestPower) largestPower)

/-- The double of `n · 10 ^ exponent`, which has to be finite. -/
def scaled? (n : Nat) (exponent : Int) : Option Float :=
  let x := Binary64.ofInt n
  if exponent < 0 then some (dividedBy x exponent.natAbs)
  else if exponent ≤ largestPower then
    let y := x * power exponent.toNat
    match Binary64.decode y with
    | .finite _ => some y
    | _ => none
  else if n = 0 then some x
  else none

/-- A number with the digits `whole` and `fraction` around its point. -/
def ofParts? (negative : Bool) (whole fraction : List Char) (exponent : Int) : Option Json :=
  let (n, wholeLeft) := significand 0 whole
  let (n, fractionLeft) := significand n fraction
  let places : Int := fraction.length - fractionLeft.length
  (scaled? n (exponent + wholeLeft.length - places)).map fun x =>
    float (if negative then -x else x)

/-- The value of an integer literal. -/
def ofInteger? (negative : Bool) (whole : List Char) : Option Json :=
  let n := Decimal.digitsValue whole
  let value : Int := if negative then -n else n
  if n < wordLimit then
    if negative ∧ (n = 0 ∨ ¬FitsInt64 value) then some (float (-Binary64.ofInt n))
    else some (int value)
  else ofParts? negative whole [] 0

/-- A number after its sign. -/
def readUnsigned (negative : Bool) (cs : List Char) : Option (Json × List Char) := do
  let whole := cs.takeWhile Char.isDigit
  if whole.isEmpty ∨ (whole.head? = some '0' ∧ whole.length ≠ 1) then failure
  let (fraction, rest) ← readFraction (cs.dropWhile Char.isDigit)
  let (exponent, rest) ← readExponent rest
  if fraction.isNone ∧ exponent.isNone then
    return (← ofInteger? negative whole, rest)
  else
    return (← ofParts? negative whole (fraction.getD []) (exponent.getD 0), rest)

/-- A number. -/
def readNumber : List Char → Option (Json × List Char)
  | '-' :: cs => readUnsigned true cs
  | cs => readUnsigned false cs

/-- A value that is no array and no object, from its first character on. -/
def readAtom : List Char → Option (Json × List Char)
  | 'n' :: 'u' :: 'l' :: 'l' :: rest => some (null, rest)
  | 't' :: 'r' :: 'u' :: 'e' :: rest => some (bool true, rest)
  | 'f' :: 'a' :: 'l' :: 's' :: 'e' :: rest => some (bool false, rest)
  | '\"' :: rest => (readString rest).map fun (s, rest) => (str (String.ofList s), rest)
  | cs => readNumber cs

/-- A text with so many arrays and objects inside one another, whether empty or not, is refused. -/
def nestingLimit : Nat := 128

mutual

/-- A value after blanks, and what follows it. The first argument bounds the number of nested
and successive values, the second one how many arrays and objects may be inside one another. -/
def readValue : Nat → Nat → List Char → Option (Json × List Char)
  | 0, _, _ => none
  | fuel + 1, levels, cs =>
    match cs.dropWhile isBlank with
    | '[' :: rest =>
      match levels with
      | 0 => none
      | levels + 1 =>
        match rest.dropWhile isBlank with
        | ']' :: rest => some (arr [], rest)
        | rest => (readItems fuel levels rest).map fun (items, rest) => (arr items, rest)
    | '\x7b' :: rest =>
      match levels with
      | 0 => none
      | levels + 1 =>
        match rest.dropWhile isBlank with
        | '\x7d' :: rest => some (obj [], rest)
        | rest => (readFields fuel levels [] rest).map fun (fields, rest) => (obj fields, rest)
    | rest => readAtom rest

/-- The items of an array up to its closing bracket. -/
def readItems : Nat → Nat → List Char → Option (List Json × List Char)
  | 0, _, _ => none
  | fuel + 1, levels, cs =>
    match readValue fuel levels cs with
    | none => none
    | some (item, rest) =>
      match rest.dropWhile isBlank with
      | ',' :: rest => (readItems fuel levels rest).map fun (items, rest) => (item :: items, rest)
      | ']' :: rest => some ([item], rest)
      | _ => none

/-- The fields of an object up to its closing brace, added to those before. -/
def readFields :
    Nat → Nat → List (String × Json) → List Char → Option (List (String × Json) × List Char)
  | 0, _, _, _ => none
  | fuel + 1, levels, before, cs =>
    match cs.dropWhile isBlank with
    | '\"' :: rest =>
      match readString rest with
      | none => none
      | some (name, rest) =>
        match rest.dropWhile isBlank with
        | ':' :: rest =>
          match readValue fuel levels rest with
          | none => none
          | some (value, rest) =>
            let fields := OrderedMap.upsert (String.ofList name) value before
            match rest.dropWhile isBlank with
            | ',' :: rest => readFields fuel levels fields rest
            | '\x7d' :: rest => some (fields, rest)
            | _ => none
        | _ => none
    | _ => none

end

/-- The value of a whole JSON text. -/
def read? (s : String) : Option Json :=
  let cs := s.toList
  match readValue (cs.length + 1) (nestingLimit - 1) cs with
  | some (j, rest) => if (rest.dropWhile isBlank).isEmpty then some j else none
  | none => none

end Polyglot.Json
