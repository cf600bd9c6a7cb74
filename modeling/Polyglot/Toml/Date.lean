import Polyglot.Number.Decimal
import Polyglot.Toml.Text

/-!
# Dates of TOML

A date, a time of day, or both with an optional distance from universal time. In normal form a
`T` stands before the time, universal time is `Z`, and a fraction of a second has at most nine
digits and no zeros at its end.
-/

namespace Polyglot.Toml

/-- The rest after the given character. -/
def after? (c : Char) : List Char → Option (List Char)
  | [] => none
  | d :: cs => if d = c then some cs else none

/-- Exactly `width` digits with a value between two bounds. -/
def field (width least most : Nat) (cs : List Char) : Option (Nat × List Char) :=
  let ds := cs.take width
  let n := Decimal.digitsValue ds
  if ds.length = width ∧ ds.all Char.isDigit ∧ least ≤ n ∧ n ≤ most then some (n, cs.drop width)
  else none

/-- Every fourth year is a leap year, but of the full centuries only every fourth. -/
def isLeap (year : Nat) : Bool :=
  year % 4 == 0 && (year % 100 != 0 || year % 400 == 0)

/-- The number of days in a month. -/
def daysIn (year month : Nat) : Nat :=
  if month = 2 then if isLeap year then 29 else 28
  else if month = 4 ∨ month = 6 ∨ month = 9 ∨ month = 11 then 30
  else 31

/-- A day `year-month-day`. -/
def day (cs : List Char) : Option (String × List Char) := do
  let (year, rest) ← field 4 0 9999 cs
  let (month, rest) ← field 2 1 12 (← after? '-' rest)
  let (_, rest) ← field 2 1 (daysIn year month) (← after? '-' rest)
  return (String.ofList (cs.take 10), rest)

/-- The fraction of a second, which may be missing. -/
def fraction (cs : List Char) : String × List Char :=
  match cs with
  | '.' :: rest =>
    let ds := rest.takeWhile Char.isDigit
    if ds.isEmpty then ("", cs)
    else
      let ds := ((ds.take 9).reverse.dropWhile (· == '0')).reverse
      (if ds.isEmpty then "" else "." ++ String.ofList ds, rest.dropWhile Char.isDigit)
  | _ => ("", cs)

/-- A time of day `hour:minute:second`, where a minute may have a leap second. -/
def time (cs : List Char) : Option (String × List Char) := do
  let (_, rest) ← field 2 0 23 cs
  let (_, rest) ← field 2 0 59 (← after? ':' rest)
  let (_, rest) ← field 2 0 60 (← after? ':' rest)
  let (part, rest) := fraction rest
  return (String.ofList (cs.take 8) ++ part, rest)

/-- A distance from universal time of hours and minutes, after its sign. -/
def distance (sign : Char) (cs : List Char) : Option (String × List Char) := do
  let (hours, rest) ← field 2 0 23 cs
  let (minutes, rest) ← field 2 0 59 (← after? ':' rest)
  let sign := if hours = 0 ∧ minutes = 0 then '+' else sign
  return (String.ofList (sign :: cs.take 5), rest)

/-- A distance from universal time, which may be missing. -/
def zone (cs : List Char) : String × List Char :=
  match cs with
  | [] => ("", cs)
  | c :: rest =>
    if c == 'Z' || c == 'z' then ("Z", rest)
    else if c == '+' || c == '-' then (distance c rest).getD ("", cs)
    else ("", cs)

/-- A time of day with its distance from universal time, after a day. -/
def timeOfDay (cs : List Char) : Option (String × List Char) := do
  match cs with
  | [] => none
  | c :: cs =>
    if c == 'T' || c == 't' || c == ' ' then
      let (s, rest) ← time cs
      let (z, rest) := zone rest
      return ("T" ++ s ++ z, rest)
    else none

/-- A date, a time of day or both. -/
def moment (cs : List Char) : Option (String × List Char) :=
  match day cs with
  | none => time cs
  | some (d, rest) =>
    match timeOfDay rest with
    | none => some (d, rest)
    | some (t, rest) => some (d ++ t, rest)

end Polyglot.Toml
