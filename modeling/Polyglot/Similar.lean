/-!
# Similar names

The edit distance of two texts, and the choice of the name to suggest for a misspelled one.
-/

namespace Polyglot

/-- One row of the distance table. `above` holds the distances of the prefixes of `bs` to the
text read so far; `left` is the entry just computed for the text with `c` added. -/
def distanceRow (c : Char) (left : Nat) : List Char → List Nat → List Nat
  | b :: bs, diagonal :: up :: above =>
    let here := min (min (up + 1) (left + 1)) (diagonal + if c = b then 0 else 1)
    here :: distanceRow c here bs (up :: above)
  | _, _ => []

/-- The row after `above` when `c` is added to the text on the left. -/
def nextDistanceRow (bs : List Char) (above : List Nat) (c : Char) : List Nat :=
  let first := above.headD 0 + 1
  first :: distanceRow c first bs above

/-- The least number of insertions, deletions and substitutions of one character that turn
`a` into `b`. -/
def editDistance (a b : List Char) : Nat :=
  (a.foldl (nextDistanceRow b) (List.range (b.length + 1))).getLastD 0

/-- The largest distance at which a name is suggested. -/
def suggestionThreshold : Nat := 2

/-- The better of a suggestion so far and a candidate: the candidate only when it differs from
`name`, lies within the threshold and is strictly nearer. -/
def nearer (name : String) (threshold : Nat) (best : Option (String × Nat)) (candidate : String) :
    Option (String × Nat) :=
  if candidate = name then best
  else
    let d := editDistance name.toList candidate.toList
    if d ≤ threshold ∧ best.all (fun b => d < b.2) then some (candidate, d) else best

/-- The first of the candidates nearest to `name`, other than `name` itself, within the
threshold. -/
def similarName (name : String) (candidates : List String) (threshold : Nat) : Option String :=
  (candidates.foldl (nearer name threshold) none).map Prod.fst

/-- The remark added to a message when there is a suggestion. -/
def suggestionHint : Option String → String
  | some name => " (hint: did you mean `" ++ name ++ "`?)"
  | none => ""

end Polyglot
