import Polyglot.Source

/-!
# Line tables

The beginnings of the lines of a text, and the line and column of an offset looked up in them. The
line is the last one that begins at or before the offset, found by halving; its column counts the
characters from there, or the bytes where the offset is inside a character.
-/

namespace Polyglot

/-- The offsets at which lines begin, in increasing order. -/
structure LineIndex where
  starts : Array Nat
deriving DecidableEq, Inhabited

namespace LineIndex

/-- The offsets after the line ends of a text that stands at byte `offset`. -/
def startsAfter (offset : Nat) : List Char → List Nat
  | [] => []
  | c :: cs =>
    let next := offset + c.utf8Size
    if isLineEnd c then next :: startsAfter next cs else startsAfter next cs

/-- The table of a text. The first line begins at its beginning. -/
def ofText (source : String) : LineIndex :=
  ⟨(0 :: startsAfter 0 source.toList).toArray⟩

/-- Looks for `target` from place `low` up to but not including place `high`: a place where it
stands, or as a failure the place where it would stand. -/
def search (starts : Array Nat) (target low high : Nat) : Except Nat Nat :=
  if low < high then
    let middle := (low + high) / 2
    let start := starts.getD middle 0
    if start = target then .ok middle
    else if start < target then search starts target (middle + 1) high
    else search starts target low middle
  else .error low
termination_by high - low

/-- The line of an offset, counted from zero. -/
def lineOf (index : LineIndex) (offset : Nat) : Nat :=
  match search index.starts offset 0 index.starts.size with
  | .ok line => line
  | .error next => next - 1

/-- The part of a text between two bytes, if both stand between characters. -/
def slice? (source : String) (start stop : Nat) : Option String :=
  if start ≤ stop ∧ String.Pos.Raw.isValid source ⟨start⟩ ∧ String.Pos.Raw.isValid source ⟨stop⟩
  then some (String.Pos.Raw.extract source ⟨start⟩ ⟨stop⟩)
  else none

/-- Line and column of a byte offset of the text that the table is of. -/
def position (index : LineIndex) (source : String) (offset : Nat) : Position :=
  let line := index.lineOf offset
  let start := index.starts.getD line 0
  let stop := min offset source.utf8ByteSize
  let column := ((slice? source start stop).map String.length).getD (stop - start)
  ⟨line + 1, column + 1⟩

end LineIndex

end Polyglot
