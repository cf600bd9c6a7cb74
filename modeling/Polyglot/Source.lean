/-!
# Places in a source text

Offsets count bytes of the UTF-8 form, lines and columns count from one and columns count
characters. Line feed, carriage return and the two Unicode separators each end a line on
their own, so a carriage return before a line feed ends two lines.
-/

namespace Polyglot

/-- A stretch of source text from byte `start` up to but not including byte `stop`. -/
structure Span where
  start : Nat
  stop : Nat
deriving DecidableEq, Inhabited

/-- The text `start..stop` of a span. -/
def Span.text (s : Span) : String :=
  toString s.start ++ ".." ++ toString s.stop

/-- A line and a column, both counted from one. -/
structure Position where
  line : Nat := 1
  column : Nat := 1
deriving DecidableEq, Inhabited

/-- The text `line:column` of a position. -/
def Position.text (p : Position) : String :=
  toString p.line ++ ":" ++ toString p.column

/-- Where a construct stands: its bytes, and the position of the first of them. -/
structure Location where
  span : Span
  pos : Position
deriving DecidableEq, Inhabited

/-- A value together with the place it was read from. -/
structure Located (α : Type) where
  item : α
  loc : Location
deriving DecidableEq, Inhabited

/-- Characters that end a line. -/
def isLineEnd (c : Char) : Bool :=
  c == '\n' || c == '\r' || c == '\u2028' || c == '\u2029'

/-- A place between two characters of a text. -/
structure Cursor where
  offset : Nat := 0
  pos : Position := {}
deriving DecidableEq, Inhabited

/-- The place after one more character. -/
def Cursor.next (k : Cursor) (c : Char) : Cursor where
  offset := k.offset + c.utf8Size
  pos := if isLineEnd c then ⟨k.pos.line + 1, 1⟩ else ⟨k.pos.line, k.pos.column + 1⟩

/-- The place after all characters of `text`. -/
def Cursor.pass (k : Cursor) (text : List Char) : Cursor :=
  text.foldl Cursor.next k

/-- The location of `text` standing at `k`. -/
def Cursor.locate (k : Cursor) (text : List Char) : Location :=
  ⟨⟨k.offset, (k.pass text).offset⟩, k.pos⟩

/-- Walks a text from `k`, the line of `k` having begun at byte `lineStart`, to the byte
`offset`. An offset past the end stops at the end; one inside a character counts its column
in bytes from the start of the line. -/
def Cursor.seek (offset : Nat) (lineStart : Nat) (k : Cursor) : List Char → Position
  | [] => k.pos
  | c :: cs =>
    if offset ≤ k.offset then k.pos
    else if offset < k.offset + c.utf8Size then ⟨k.pos.line, offset - lineStart + 1⟩
    else
      let k' := k.next c
      k'.seek offset (if isLineEnd c then k'.offset else lineStart) cs

/-- Line and column of a byte offset of `source`. -/
def positionAt (source : String) (offset : Nat) : Position :=
  Cursor.seek offset 0 {} source.toList

end Polyglot
