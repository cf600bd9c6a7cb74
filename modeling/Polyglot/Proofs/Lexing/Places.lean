import Mathlib.Data.String.Basic
import Polyglot.Source

/-!
# Places in a text

A cursor that has passed the first characters of a text stands at a character boundary, and the
line and column that it carries are those of its offset. So what is located between two such places
is located soundly: the location names a stretch of the text and where that stretch begins.
-/

namespace Polyglot

/-- The offset lies between two characters of the text, or at one of its ends. -/
def IsBoundary (source : String) (offset : Nat) : Prop :=
  String.Pos.Raw.IsValid source ⟨offset⟩

namespace Span

/-- The part of a text that a span covers. -/
def slice (source : String) (s : Span) : String :=
  String.Pos.Raw.extract source ⟨s.start⟩ ⟨s.stop⟩

/-- The span covers the byte at the given offset. -/
def Has (s : Span) (offset : Nat) : Prop :=
  s.start ≤ offset ∧ offset < s.stop

/-- The span ends before the other one begins. -/
def Before (s t : Span) : Prop :=
  s.stop ≤ t.start

/-- The span lies inside the other one. -/
def Inside (s t : Span) : Prop :=
  t.start ≤ s.start ∧ s.stop ≤ t.stop

theorem Inside.refl (s : Span) : s.Inside s :=
  ⟨Nat.le_refl _, Nat.le_refl _⟩

theorem Inside.trans {s t u : Span} (h : s.Inside t) (h' : t.Inside u) : s.Inside u :=
  ⟨Nat.le_trans h'.1 h.1, Nat.le_trans h.2 h'.2⟩

end Span

/-- A stretch of the text between two character boundaries, with the line and the column at which
it begins. -/
structure Location.Sound (source : String) (l : Location) : Prop where
  ordered : l.span.start ≤ l.span.stop
  inside : l.span.stop ≤ source.utf8ByteSize
  startBoundary : IsBoundary source l.span.start
  stopBoundary : IsBoundary source l.span.stop
  pos : l.pos = positionAt source l.span.start

/-! ## Cursors -/

namespace Cursor

@[simp] theorem pass_nil (k : Cursor) : k.pass [] = k := rfl

@[simp] theorem pass_cons (k : Cursor) (c : Char) (text : List Char) :
    k.pass (c :: text) = (k.next c).pass text := rfl

theorem pass_append (k : Cursor) (text more : List Char) :
    k.pass (text ++ more) = (k.pass text).pass more :=
  List.foldl_append

@[simp] theorem offset_pass (k : Cursor) (text : List Char) :
    (k.pass text).offset = k.offset + String.utf8Len text := by
  induction text generalizing k with
  | nil => simp
  | cons c text ih =>
    rw [pass_cons, ih, String.utf8Len_cons]
    simp only [next]
    omega

@[simp] theorem start_locate (k : Cursor) (text : List Char) :
    (k.locate text).span.start = k.offset := rfl

@[simp] theorem stop_locate (k : Cursor) (text : List Char) :
    (k.locate text).span.stop = k.offset + String.utf8Len text :=
  offset_pass k text

/-- Walking to the place that a cursor has passed to gives its line and column. -/
theorem seek_pass (k : Cursor) (lineStart : Nat) (text more : List Char) :
    seek (k.pass text).offset lineStart k (text ++ more) = (k.pass text).pos := by
  induction text generalizing k lineStart with
  | nil =>
    cases more with
    | nil => rfl
    | cons c more => simp [seek]
  | cons c text ih =>
    have size := c.utf8Size_pos
    have beyond : ¬ (k.pass (c :: text)).offset ≤ k.offset := by
      simp only [offset_pass, String.utf8Len_cons]
      omega
    have past : ¬ (k.pass (c :: text)).offset < k.offset + c.utf8Size := by
      simp only [offset_pass, String.utf8Len_cons]
      omega
    rw [List.cons_append, seek, if_neg beyond, if_neg past]
    exact ih (k.next c) _

end Cursor

/-! ## Places in one text -/

section

variable {source : String} {before text after : List Char}

theorem isBoundary_utf8Len (cut : source.toList = before ++ after) :
    IsBoundary source (String.utf8Len before) := by
  refine String.Pos.Raw.isValid_iff_exists_append.2
    ⟨String.ofList before, String.ofList after, ?_, ?_⟩
  · rw [← String.ofList_append, ← cut, String.ofList_toList]
  · simp [String.rawEndPos, String.utf8ByteSize_ofList]

theorem positionAt_utf8Len (cut : source.toList = before ++ after) :
    positionAt source (String.utf8Len before) = (({} : Cursor).pass before).pos := by
  have walked := Cursor.seek_pass {} 0 before after
  rw [← cut, Cursor.offset_pass, Nat.zero_add] at walked
  exact walked

/-- What stands in a text after what a cursor has passed is located soundly by it. -/
theorem Location.sound_locate (cut : source.toList = before ++ text ++ after) :
    ((({} : Cursor).pass before).locate text).Sound source := by
  have size : source.utf8ByteSize =
      String.utf8Len before + String.utf8Len text + String.utf8Len after := by
    rw [← String.utf8Len_toList, cut, String.utf8Len_append, String.utf8Len_append]
  have cut' : source.toList = before ++ (text ++ after) := by
    rw [cut, List.append_assoc]
  have start : ((({} : Cursor).pass before).locate text).span.start = String.utf8Len before := by
    simp
  have stop : ((({} : Cursor).pass before).locate text).span.stop =
      String.utf8Len (before ++ text) := by
    simp [String.utf8Len_append]
  refine ⟨?_, ?_, ?_, ?_, ?_⟩
  · simp
  · rw [stop, String.utf8Len_append]
    omega
  · rw [start]
    exact isBoundary_utf8Len cut'
  · rw [stop]
    exact isBoundary_utf8Len cut
  · rw [start, positionAt_utf8Len cut']
    rfl

/-- The slice of a text between two places is what stands between them. -/
theorem Span.slice_locate (cut : source.toList = before ++ text ++ after) :
    ((({} : Cursor).pass before).locate text).span.slice source = String.ofList text := by
  have whole : source = String.ofList (before ++ text ++ after) := by
    rw [← cut, String.ofList_toList]
  have slice := String.extract_of_valid before text after
  rw [Span.slice, Cursor.start_locate, Cursor.stop_locate, Cursor.offset_pass, Nat.zero_add, whole]
  exact slice

end

end Polyglot
