import Polyglot.Similar

/-!
# Distance tables

The edit distance of two texts by a table of which two rows are kept. A row is written over the one
before the last, and then the two change places; what a place held before is not read again.
-/

namespace Polyglot

/-- The row written last, and the one that is written over next. -/
structure DistanceTable where
  last : Array Nat
  spare : Array Nat
deriving DecidableEq, Inhabited

namespace DistanceTable

/-- The table before a character is read. -/
def initial (width : Nat) : DistanceTable :=
  ⟨(List.range (width + 1)).toArray, Array.replicate (width + 1) 0⟩

/-- Writes the places after `j` of the row for `c`, above which stand the characters of a list. -/
def fill (c : Char) (last : Array Nat) (j : Nat) : List Char → Array Nat → Array Nat
  | [], row => row
  | b :: bs, row =>
    let cost := if c = b then 0 else 1
    let entry := min (min (last.getD (j + 1) 0 + 1) (row.getD j 0 + 1)) (last.getD j 0 + cost)
    fill c last (j + 1) bs (row.setIfInBounds (j + 1) entry)

/-- Writes the row of number `i`, the one for `c`. -/
def next (bs : List Char) (table : DistanceTable) (i : Nat) (c : Char) : DistanceTable :=
  ⟨fill c table.last 0 bs (table.spare.setIfInBounds 0 i), table.last⟩

/-- Writes the rows for the characters of a list, the first of them being number `i`. -/
def readAll (bs : List Char) (table : DistanceTable) (i : Nat) : List Char → DistanceTable
  | [] => table
  | c :: cs => readAll bs (table.next bs i c) (i + 1) cs

/-- The distance of two texts stands at the end of the last row. -/
def distance (a b : List Char) : Nat :=
  if a.isEmpty then b.length
  else if b.isEmpty then a.length
  else ((initial b.length).readAll b 1 a).last.getD b.length 0

end DistanceTable

end Polyglot
