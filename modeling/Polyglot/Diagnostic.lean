import Polyglot.Config
import Polyglot.Failure
import Polyglot.Fault
import Polyglot.Text.Classes

/-!
# Diagnostics

An error shown with the source lines it points to. A place within one line is underlined and the
message hangs from the middle of the underline; a place over several lines is held by a bracket
from its first line to its last, and the message hangs from the bracket. Offsets count
characters here, which they do in texts of one-byte characters.
-/

namespace Polyglot

namespace Diagnostic

/-! ## The lines of a text -/

/-- Characters that end a line of an excerpt. They are more than end a line of a script. -/
def endsLine (c : Char) : Bool :=
  c == '\n' || c == '\r' || c == '\x0b' || c == '\x0c' || c == '\u0085' || c == '\u2028'
    || c == '\u2029'

/-- Puts a character in front of a text that is cut into lines. A carriage return and the line
feed after it end one line. -/
def addChar (c : Char) : List (List Char) → List (List Char)
  | [] => [[c]]
  | line :: rest =>
    if endsLine c && !(c == '\r' && line == ['\n']) then [c] :: line :: rest
    else (c :: line) :: rest

/-- The lines of a text, each with its end. -/
def lines (text : List Char) : List (List Char) :=
  text.foldr addChar []

/-- A line of a text: its number, counted from one, the offset of its first character, and its
characters with the line end. -/
structure SourceLine where
  number : Nat
  start : Nat
  text : List Char
deriving DecidableEq, Inhabited

/-- The offset after the line. -/
def SourceLine.stop (line : SourceLine) : Nat :=
  line.start + line.text.length

/-- The line with the character at `offset`, where the first of the lines has the given number
and start. The end of the text belongs to its last line. -/
def lineAt (offset : Nat) (number start : Nat) : List (List Char) → SourceLine
  | [] => ⟨number, start, []⟩
  | line :: rest =>
    if offset < start + line.length || rest.isEmpty then ⟨number, start, line⟩
    else lineAt offset (number + 1) (start + line.length) rest

/-! ## Columns

Tabs reach to the next column that is a multiple of four, every other character takes one
cell. -/

/-- The cells that a character takes in a column. -/
def cells (column : Nat) (c : Char) : Nat :=
  if c == '\t' then 4 - column % 4 else 1

/-- A line as it is shown: without the blanks at its end, and other blanks as spaces. -/
def SourceLine.shown (line : SourceLine) : String :=
  String.ofList ((Text.trimEnd line.text).zipIdx.flatMap fun (c, column) =>
    if Text.isBlank c then List.replicate (cells column c) ' ' else [c])

/-- A row below a line. Each of the first `n` columns is as wide as the character above it and
has two marks, one for its first cell and one for the others. -/
def SourceLine.row (line : SourceLine) (n : Nat) (marks : Nat → Char × Char) : String :=
  let above := Text.trimEnd line.text
  let above := above.take n ++ List.replicate (n - above.length) ' '
  String.ofList (above.zipIdx.flatMap fun (c, column) =>
    (marks column).1 :: List.replicate (cells column c - 1) (marks column).2)

/-- The marks under the columns from `start` to `stop`, where the message hangs from `middle`. -/
def underline (start stop middle column : Nat) : Char × Char :=
  if column = middle then if start < stop then ('┬', '─') else ('│', ' ')
  else if start ≤ column ∧ column < stop then ('─', '─')
  else (' ', ' ')

/-- The marks that lead from `middle` to the message. -/
def hanger (middle column : Nat) : Char × Char :=
  if column < middle then (' ', ' ') else if column = middle then ('╰', '─') else ('─', '─')

/-! ## Excerpts -/

/-- `n` times the character `c`. -/
def times (n : Nat) (c : Char) : String :=
  String.ofList (List.replicate n c)

/-- The space left of an excerpt whose line numbers have `width` digits. -/
def gutter (width : Nat) (number : String) : String :=
  " " ++ times (width - number.length) ' ' ++ number ++ " "

/-- A place within one line with its message. A place that leaves the line is not shown. -/
def onLine (width : Nat) (line : SourceLine) (start stop : Nat) (message : String) : String :=
  let left := gutter width "" ++ "│ "
  if line.stop < stop then left ++ "\n"
  else
    let first := start - line.start
    let after := stop - line.start
    let middle := (first + after) / 2
    gutter width (toString line.number) ++ "│ " ++ line.shown ++ "\n"
      ++ left ++ line.row (after + 2) (underline first after middle) ++ "\n"
      ++ left ++ line.row (after + 2) (hanger middle) ++ " " ++ message ++ "\n"

/-- A place over several lines with its message: the first line and the last one, and a gap for
those between. -/
def overLines (width : Nat) (first last : SourceLine) (message : String) : String :=
  let left := gutter width ""
  let columns := last.text.length + 2
  gutter width (toString first.number) ++ "│ ╭─▶ " ++ first.shown ++ "\n"
    ++ (if first.number + 1 < last.number then left ++ "┆ ┆   \n" else "")
    ++ gutter width (toString last.number) ++ "│ ├─▶ " ++ last.shown ++ "\n"
    ++ left ++ "│ │   " ++ last.row columns (fun _ => (' ', ' ')) ++ "\n"
    ++ left ++ "│ ╰───" ++ last.row columns (fun _ => ('─', '─')) ++ " " ++ message ++ "\n"

/-- The source lines of a span with the message below them. Of a place past the end of the text
only the heading is shown. -/
def excerpt (name source : String) (span : Span) (stage message : String) : String :=
  let start := min span.start source.utf8ByteSize
  let stop := min span.stop source.utf8ByteSize
  let final := max start (stop - 1)
  let heading := "Error: " ++ stage ++ " error\n"
  if source.length < final then heading
  else
    let all := lines source.toList
    let first := lineAt start 1 0 all
    let last := lineAt final 1 0 all
    let width := (toString last.number).length
    let pos : Position := ⟨first.number, start - first.start + 1⟩
    heading
      ++ gutter width "" ++ "╭─[ " ++ name ++ ":" ++ pos.text ++ " ]\n"
      ++ gutter width "" ++ "│\n"
      ++ (if first.number = last.number then onLine width first start stop message
        else overLines width first last message)
      ++ times (width + 2) '─' ++ "╯\n"

end Diagnostic

/-- A compile error with the source lines it points to. -/
def CompileError.render (e : CompileError) (name source : String) : String :=
  Diagnostic.excerpt name source e.loc.span e.stage e.message

/-- A runtime error with the source lines it points to, or its text if it points nowhere. -/
def RuntimeError.render (e : RuntimeError) (name source : String) : String :=
  match e.loc with
  | some loc => Diagnostic.excerpt name source loc.span "Runtime" e.message
  | none => e.text

end Polyglot
