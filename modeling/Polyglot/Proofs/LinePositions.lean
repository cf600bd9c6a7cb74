import Mathlib.Data.List.Induction
import Polyglot.LineIndex
import Polyglot.Proofs.Lexing.Places

/-!
# Lines and columns of a text

The line of a place counts the line ends before it, and its column the characters after the last of
them. The table of a text finds both, and agrees with a walk through the text at every offset. So
later places of a text have later positions, and everything behind the text has that of its end.
-/

namespace Polyglot

/-! ## Halving -/

namespace LineIndex

/-- The offsets increase. -/
def Increasing (starts : Array Nat) : Prop :=
  ∀ i j, i < j → j < starts.size → starts.getD i 0 < starts.getD j 0

/-- The line is the last one of the table that begins at or before the offset. -/
structure LastBefore (starts : Array Nat) (offset line : Nat) : Prop where
  listed : line < starts.size
  begun : starts.getD line 0 ≤ offset
  last : ∀ i, line < i → i < starts.size → offset < starts.getD i 0

/-- What stands outside the places still looked at is known to be too small or too large. -/
structure Bracketed (starts : Array Nat) (target low high : Nat) : Prop where
  inside : high ≤ starts.size
  small : ∀ i < low, starts.getD i 0 < target
  large : ∀ i, high ≤ i → i < starts.size → target < starts.getD i 0

/-- A search finds the target, or the place between the smaller and the larger offsets. -/
theorem search_cases {starts : Array Nat} {target low high : Nat} (increasing : Increasing starts)
    (ordered : low ≤ high) (bracketed : Bracketed starts target low high) :
    (∃ i, search starts target low high = .ok i ∧ i < starts.size ∧ starts.getD i 0 = target) ∨
      ∃ i, search starts target low high = .error i ∧ i ≤ starts.size ∧
        Bracketed starts target i i := by
  fun_induction search starts target low high with
  | case1 low high some middle start found =>
    have inside := bracketed.inside
    exact .inl ⟨middle, rfl, by omega, found⟩
  | case2 low high some middle start other small ih =>
    refine ih (by omega) ⟨bracketed.inside, ?_, bracketed.large⟩
    intro i before
    by_cases here : i = middle
    · rw [here]
      exact small
    · have inside := bracketed.inside
      have step := increasing i middle (by omega) (by omega)
      omega
  | case3 low high some middle start other large ih =>
    have inside := bracketed.inside
    refine ih (by omega) ⟨by omega, bracketed.small, ?_⟩
    intro i from' listed
    by_cases here : i = middle
    · rw [here]
      omega
    · have step := increasing middle i (by omega) listed
      omega
  | case4 low high none =>
    obtain rfl : low = high := by omega
    exact .inr ⟨low, rfl, bracketed.inside, bracketed⟩

/-- The line found is the last one that begins at or before the offset. -/
theorem lineOf_spec {starts : Array Nat} (increasing : Increasing starts) (some : 0 < starts.size)
    (first : starts.getD 0 0 = 0) (offset : Nat) :
    LastBefore starts offset (lineOf ⟨starts⟩ offset) := by
  have bracketed : Bracketed starts offset 0 starts.size :=
    ⟨Nat.le_refl _, nofun, fun i from' listed => by omega⟩
  rcases search_cases increasing (Nat.zero_le _) bracketed with
    ⟨i, found, listed, here⟩ | ⟨i, missing, inside, between⟩
  · have line : lineOf ⟨starts⟩ offset = i := by
      rw [lineOf, found]
    rw [line]
    refine ⟨listed, by omega, ?_⟩
    intro j after listed
    have step := increasing i j after listed
    omega
  · have line : lineOf ⟨starts⟩ offset = i - 1 := by
      rw [lineOf, missing]
    -- The first line begins at zero, so the offset is not before it.
    have positive : 0 < i := by
      by_contra zero
      have large := between.large 0 (by omega) some
      omega
    rw [line]
    refine ⟨by omega, Nat.le_of_lt (between.small (i - 1) (by omega)), ?_⟩
    intro j after listed
    exact between.large j (by omega) listed

theorem LastBefore.unique {starts : Array Nat} {offset line line' : Nat}
    (found : LastBefore starts offset line) (found' : LastBefore starts offset line') :
    line = line' := by
  by_contra apart
  rcases Nat.lt_or_gt_of_ne apart with before | after
  · have later := found.last line' before found'.listed
    have begun := found'.begun
    omega
  · have later := found'.last line after found.listed
    have begun := found.begun
    omega

/-! ## The beginnings of lines -/

theorem startsAfter_append (offset : Nat) (text more : List Char) :
    startsAfter offset (text ++ more) =
      startsAfter offset text ++ startsAfter (offset + String.utf8Len text) more := by
  induction text generalizing offset with
  | nil => simp [startsAfter]
  | cons c text ih =>
    have next : offset + String.utf8Len (c :: text) =
        offset + c.utf8Size + String.utf8Len text := by
      rw [String.utf8Len_cons]
      omega
    rw [List.cons_append, startsAfter, startsAfter, ih, next]
    split <;> rfl

theorem length_startsAfter (offset : Nat) (text : List Char) :
    (startsAfter offset text).length = text.countP isLineEnd := by
  induction text generalizing offset with
  | nil => rfl
  | cons c text ih =>
    rw [startsAfter, List.countP_cons]
    split <;> simp [ih]

/-- The first line end comes after one character at least. -/
theorem le_of_mem_startsAfter {offset start : Nat} {c : Char} {text : List Char}
    (member : start ∈ startsAfter offset (c :: text)) : offset + c.utf8Size ≤ start := by
  induction text generalizing offset c with
  | nil =>
    rw [startsAfter] at member
    split at member
    · rw [List.mem_singleton.1 member]
    · cases member
  | cons d text ih =>
    have later : start ∈ startsAfter (offset + c.utf8Size) (d :: text) →
        offset + c.utf8Size ≤ start := fun member => by
      have beyond := ih member
      omega
    rw [startsAfter] at member
    split at member
    · rcases List.mem_cons.1 member with here | after
      · rw [here]
      · exact later after
    · exact later member

theorem lt_of_mem_startsAfter {offset start : Nat} {text : List Char}
    (member : start ∈ startsAfter offset text) : offset < start := by
  cases text with
  | nil => cases member
  | cons c text =>
    have beyond := le_of_mem_startsAfter member
    have size := c.utf8Size_pos
    omega

theorem pairwise_startsAfter (offset : Nat) (text : List Char) :
    (startsAfter offset text).Pairwise (· < ·) := by
  induction text generalizing offset with
  | nil => exact .nil
  | cons c text ih =>
    rw [startsAfter]
    split
    · exact .cons (fun start member => lt_of_mem_startsAfter member) (ih _)
    · exact ih _

theorem startsAfter_unbroken {line : List Char} (unbroken : ∀ c ∈ line, isLineEnd c = false)
    (offset : Nat) : startsAfter offset line = [] := by
  rw [← List.length_eq_zero_iff, length_startsAfter, List.countP_eq_zero]
  intro c member
  simp [unbroken c member]

/-- The last line end is where the text ends, if it ends with one. -/
theorem getElem?_startsAfter {lines : List Char}
    (ended : ∀ c ∈ lines.getLast?, isLineEnd c = true) :
    (0 :: startsAfter 0 lines)[lines.countP isLineEnd]? = some (String.utf8Len lines) := by
  cases lines using List.reverseRecOn with
  | nil => rfl
  | append_singleton text c =>
    have ends : isLineEnd c = true := ended c (by simp)
    have count := length_startsAfter 0 text
    have last : startsAfter 0 (text ++ [c]) =
        startsAfter 0 text ++ [String.utf8Len (text ++ [c])] := by
      rw [startsAfter_append, startsAfter, if_pos ends, String.utf8Len_append]
      simp [startsAfter]
    rw [last, List.countP_append, ← count]
    simp [ends]

theorem increasing_ofText (source : String) : Increasing (ofText source).starts := by
  have ordered : (0 :: startsAfter 0 source.toList).Pairwise (· < ·) :=
    .cons (fun start member => lt_of_mem_startsAfter member) (pairwise_startsAfter 0 _)
  intro i j before listed
  have fits : j < (0 :: startsAfter 0 source.toList).length := by
    simpa [ofText] using listed
  have step := List.pairwise_iff_getElem.1 ordered i j (before.trans fits) fits before
  simpa [ofText, Array.getD_eq_getD_getElem?, List.getElem?_eq_getElem fits,
    List.getElem?_eq_getElem (before.trans fits)] using step

end LineIndex

/-! ## How far a text reaches up to an offset -/

/-- The characters of the text that end at or before the offset are those of `lines`, which end with
the last line end among them, and those of `line`. -/
structure Reaches (source : String) (offset : Nat) (lines line after : List Char) : Prop where
  whole : source.toList = lines ++ line ++ after
  ended : ∀ c ∈ lines.getLast?, isLineEnd c = true
  unbroken : ∀ c ∈ line, isLineEnd c = false
  reached : String.utf8Len (lines ++ line) ≤ offset
  beyond : ∀ c ∈ after.head?, offset < String.utf8Len (lines ++ line) + c.utf8Size

/-- Every text is made of whole lines and the beginning of one. -/
theorem exists_lines (text : List Char) :
    ∃ lines line, text = lines ++ line ∧ (∀ c ∈ lines.getLast?, isLineEnd c = true) ∧
      ∀ c ∈ line, isLineEnd c = false := by
  induction text using List.reverseRecOn with
  | nil => exact ⟨[], [], rfl, by simp, by simp⟩
  | append_singleton text c ih =>
    obtain ⟨lines, line, rfl, ended, unbroken⟩ := ih
    by_cases ends : isLineEnd c = true
    · exact ⟨lines ++ line ++ [c], [], by simp, by simpa using ends, by simp⟩
    · refine ⟨lines, line ++ [c], by simp, ended, ?_⟩
      intro d member
      rcases List.mem_append.1 member with earlier | last
      · exact unbroken d earlier
      · rw [List.mem_singleton.1 last]
        simpa using ends

/-- Every offset parts the characters of a text into those that end up to it and the others. -/
theorem exists_part (text : List Char) (offset : Nat) :
    ∃ before after, text = before ++ after ∧ String.utf8Len before ≤ offset ∧
      ∀ c ∈ after.head?, offset < String.utf8Len before + c.utf8Size := by
  induction text generalizing offset with
  | nil => exact ⟨[], [], rfl, by simp, by simp⟩
  | cons c text ih =>
    by_cases inside : offset < c.utf8Size
    · exact ⟨[], c :: text, rfl, by simp, by simpa using inside⟩
    · obtain ⟨before, after, rfl, reached, beyond⟩ := ih (offset - c.utf8Size)
      refine ⟨c :: before, after, rfl, ?_, ?_⟩
      · rw [String.utf8Len_cons]
        omega
      · intro d first
        have next := beyond d first
        rw [String.utf8Len_cons]
        omega

theorem exists_reaches (source : String) (offset : Nat) :
    ∃ lines line after, Reaches source offset lines line after := by
  obtain ⟨before, after, whole, reached, beyond⟩ := exists_part source.toList offset
  obtain ⟨lines, line, rfl, ended, unbroken⟩ := exists_lines before
  exact ⟨lines, line, after, whole, ended, unbroken, reached, beyond⟩

theorem isBoundary_iff {source : String} {offset : Nat} :
    IsBoundary source offset ↔
      ∃ before after, source.toList = before ++ after ∧ offset = String.utf8Len before := by
  constructor
  · intro boundary
    obtain ⟨first, second, rfl, place⟩ := String.Pos.Raw.isValid_iff_exists_append.1 boundary
    refine ⟨first.toList, second.toList, String.toList_append, ?_⟩
    rw [String.utf8Len_toList]
    exact congrArg String.Pos.Raw.byteIdx place
  · rintro ⟨before, after, cut, rfl⟩
    exact isBoundary_utf8Len cut

namespace Reaches

variable {source : String} {offset : Nat} {lines line after : List Char}

theorem size (reaches : Reaches source offset lines line after) :
    source.utf8ByteSize = String.utf8Len (lines ++ line) + String.utf8Len after := by
  rw [← String.utf8Len_toList, reaches.whole, String.utf8Len_append]

/-- An offset inside a character is no boundary. -/
theorem eq_of_isBoundary (reaches : Reaches source offset lines line after)
    (boundary : IsBoundary source offset) : offset = String.utf8Len (lines ++ line) := by
  obtain ⟨before, rest, cut, rfl⟩ := isBoundary_iff.1 boundary
  have reached := reaches.reached
  rw [reaches.whole] at cut
  rcases List.append_eq_append_iff.1 cut with ⟨more, same, left⟩ | ⟨more, same, left⟩
  · cases more with
    | nil => rw [same, List.append_nil]
    | cons c more =>
      have beyond := reaches.beyond c (by rw [left]; rfl)
      rw [same, String.utf8Len_append, String.utf8Len_cons] at beyond
      omega
  · rw [same, String.utf8Len_append] at reached ⊢
    omega

/-- Where the characters end that end up to the offset. -/
theorem stop_le (reaches : Reaches source offset lines line after) :
    String.utf8Len (lines ++ line) ≤ min offset source.utf8ByteSize := by
  rw [reaches.size]
  exact Nat.le_min.2 ⟨reaches.reached, Nat.le_add_right _ _⟩

/-- Nothing is left behind an offset that is not before the end. -/
theorem after_eq_nil (reaches : Reaches source offset lines line after)
    (behind : source.utf8ByteSize ≤ offset) : after = [] := by
  have size := reaches.size
  cases after with
  | nil => rfl
  | cons c after =>
    have inside := reaches.beyond c rfl
    rw [String.utf8Len_cons] at size
    omega

/-- The characters up to a boundary end there, those up to a place behind the text at its end. -/
theorem stop_eq (reaches : Reaches source offset lines line after)
    (place : IsBoundary source offset ∨ source.utf8ByteSize ≤ offset) :
    min offset source.utf8ByteSize = String.utf8Len (lines ++ line) := by
  have stop := reaches.stop_le
  rcases place with boundary | behind
  · have here := reaches.eq_of_isBoundary boundary
    omega
  · have size := reaches.size
    rw [reaches.after_eq_nil behind, String.utf8Len_nil] at size
    omega

/-- The table has the line beginnings up to the offset first, then those behind it. -/
theorem starts_eq (reaches : Reaches source offset lines line after) :
    (LineIndex.ofText source).starts = ((0 :: LineIndex.startsAfter 0 lines) ++
      LineIndex.startsAfter (String.utf8Len (lines ++ line)) after).toArray := by
  rw [LineIndex.ofText, reaches.whole, LineIndex.startsAfter_append, LineIndex.startsAfter_append,
    LineIndex.startsAfter_unbroken reaches.unbroken, List.append_nil, Nat.zero_add,
    List.cons_append]

/-- The table has the beginning of the line at the place that counts the line ends before it. -/
theorem start_eq (reaches : Reaches source offset lines line after) :
    (LineIndex.ofText source).starts.getD (lines.countP isLineEnd) 0 = String.utf8Len lines := by
  have entry := LineIndex.getElem?_startsAfter reaches.ended
  have listed := (List.getElem?_eq_some_iff.1 entry).1
  rw [reaches.starts_eq, Array.getD_eq_getD_getElem?, List.getElem?_toArray,
    List.getElem?_append_left listed, entry]
  rfl

theorem lt_of_mem_startsAfter (reaches : Reaches source offset lines line after) :
    ∀ s ∈ LineIndex.startsAfter (String.utf8Len (lines ++ line)) after, offset < s := by
  intro s member
  cases after with
  | nil => cases member
  | cons c after =>
    have next := reaches.beyond c rfl
    have from' := LineIndex.le_of_mem_startsAfter member
    omega

theorem lastBefore (reaches : Reaches source offset lines line after) :
    LineIndex.LastBefore (LineIndex.ofText source).starts offset (lines.countP isLineEnd) := by
  have count := LineIndex.length_startsAfter 0 lines
  refine ⟨?_, ?_, ?_⟩
  · rw [reaches.starts_eq]
    simp
    omega
  · have reached := reaches.reached
    rw [reaches.start_eq]
    rw [String.utf8Len_append] at reached
    omega
  · intro i later listed
    have outside : (0 :: LineIndex.startsAfter 0 lines).length ≤ i := by
      rw [List.length_cons, count]
      exact later
    rw [reaches.starts_eq] at listed ⊢
    have found := Array.getElem?_eq_getElem listed
    rw [Array.getD_eq_getD_getElem?, found]
    rw [List.getElem?_toArray, List.getElem?_append_right outside] at found
    exact reaches.lt_of_mem_startsAfter _ (List.mem_of_getElem? found)

/-- The line that the table finds counts the line ends before the offset. -/
theorem lineOf_eq (reaches : Reaches source offset lines line after) :
    (LineIndex.ofText source).lineOf offset = lines.countP isLineEnd := by
  have found := LineIndex.lineOf_spec (LineIndex.increasing_ofText source)
    (by simp [LineIndex.ofText]) (by simp [LineIndex.ofText]) offset
  exact found.unique reaches.lastBefore

/-- At a place behind the text the same characters are reached as at its end. -/
theorem atEnd (reaches : Reaches source offset lines line after)
    (behind : source.utf8ByteSize ≤ offset) :
    Reaches source source.utf8ByteSize lines line after where
  whole := reaches.whole
  ended := reaches.ended
  unbroken := reaches.unbroken
  reached := reaches.stop_le.trans (Nat.min_le_right _ _)
  beyond := by
    rw [reaches.after_eq_nil behind]
    nofun

end Reaches

/-! ## Walking to an offset -/

namespace Cursor

theorem line_pass (k : Cursor) (text : List Char) :
    (k.pass text).pos.line = k.pos.line + text.countP isLineEnd := by
  induction text generalizing k with
  | nil => rfl
  | cons c text ih =>
    rw [pass_cons, ih, List.countP_cons]
    unfold next
    split
    · simp
      omega
    · simp

theorem column_pass_unbroken {line : List Char} (unbroken : ∀ c ∈ line, isLineEnd c = false)
    (k : Cursor) : (k.pass line).pos.column = k.pos.column + line.length := by
  induction line generalizing k with
  | nil => rfl
  | cons c line ih =>
    obtain ⟨first, rest⟩ := List.forall_mem_cons.1 unbroken
    rw [pass_cons, ih rest]
    simp [next, first]
    omega

/-- A line begins after a line end. -/
theorem column_pass_ended {lines : List Char} (ended : ∀ c ∈ lines.getLast?, isLineEnd c = true) :
    (({} : Cursor).pass lines).pos.column = 1 := by
  cases lines using List.reverseRecOn with
  | nil => rfl
  | append_singleton text c =>
    have ends : isLineEnd c = true := ended c (by simp)
    rw [pass_append, pass_cons, pass_nil]
    simp [next, ends]

theorem pos_pass_lines {lines line : List Char} (ended : ∀ c ∈ lines.getLast?, isLineEnd c = true)
    (unbroken : ∀ c ∈ line, isLineEnd c = false) :
    (({} : Cursor).pass (lines ++ line)).pos = ⟨lines.countP isLineEnd + 1, line.length + 1⟩ := by
  have line' := line_pass {} (lines ++ line)
  have none : line.countP isLineEnd = 0 := by
    rw [List.countP_eq_zero]
    intro c member
    simp [unbroken c member]
  have column := column_pass_unbroken unbroken (({} : Cursor).pass lines)
  rw [column_pass_ended ended, ← pass_append] at column
  rw [List.countP_append, none] at line'
  generalize (({} : Cursor).pass (lines ++ line)).pos = place at line' column
  obtain ⟨l, c⟩ := place
  simp_all
  omega

/-- Nothing is decided before the offset is reached. -/
theorem seek_step {offset : Nat} {k : Cursor} {c : Char} (reached : k.offset + c.utf8Size ≤ offset)
    (lineStart : Nat) (text : List Char) :
    seek offset lineStart k (c :: text) =
      seek offset (if isLineEnd c then (k.next c).offset else lineStart) (k.next c) text := by
  have size := c.utf8Size_pos
  rw [seek, if_neg (by omega), if_neg (by omega)]

theorem seek_unbroken {offset : Nat} {k : Cursor} {line : List Char}
    (unbroken : ∀ c ∈ line, isLineEnd c = false) (reached : (k.pass line).offset ≤ offset)
    (lineStart : Nat) (text : List Char) :
    seek offset lineStart k (line ++ text) = seek offset lineStart (k.pass line) text := by
  induction line generalizing k with
  | nil => rfl
  | cons c line ih =>
    obtain ⟨first, rest⟩ := List.forall_mem_cons.1 unbroken
    have far := reached
    rw [offset_pass, String.utf8Len_cons] at far
    rw [List.cons_append, seek_step (by omega), if_neg (by simp [first])]
    exact ih rest reached

/-- The walk keeps the beginning of the line. -/
theorem seek_lines {offset : Nat} {k : Cursor} {lines : List Char} (text : List Char)
    (ended : ∀ c ∈ lines.getLast?, isLineEnd c = true) (reached : (k.pass lines).offset ≤ offset)
    {lineStart : Nat} (some : lines = [] → lineStart = k.offset) :
    seek offset lineStart k (lines ++ text) =
      seek offset (k.pass lines).offset (k.pass lines) text := by
  induction lines generalizing k lineStart with
  | nil => rw [some rfl]; rfl
  | cons c lines ih =>
    have far := reached
    rw [offset_pass, String.utf8Len_cons] at far
    rw [List.cons_append, seek_step (by omega)]
    refine ih ?_ reached ?_
    · intro d last
      cases lines with
      | nil => cases last
      | cons e lines => exact ended d (by simpa using last)
    · rintro rfl
      rw [if_pos (ended c (by simp))]

end Cursor

/-! ## Line and column of an offset -/

namespace Reaches

variable {source : String} {offset : Nat} {lines line after : List Char}

/-- The position after whole lines and the beginning of one. It counts the characters of the last
line, or the bytes if the offset is inside a character. -/
def positionAfter (source : String) (offset : Nat) (lines line : List Char) : Position :=
  ⟨lines.countP isLineEnd + 1,
    (if min offset source.utf8ByteSize = String.utf8Len (lines ++ line) then line.length
      else offset - String.utf8Len lines) + 1⟩

theorem positionAfter_eq (reaches : Reaches source offset lines line after)
    (place : IsBoundary source offset ∨ source.utf8ByteSize ≤ offset) :
    positionAfter source offset lines line = ⟨lines.countP isLineEnd + 1, line.length + 1⟩ := by
  rw [positionAfter, if_pos (reaches.stop_eq place)]

/-- The walk comes to the end of the last character that ends up to the offset. -/
theorem positionAt_eq_seek (reaches : Reaches source offset lines line after) :
    positionAt source offset =
      Cursor.seek offset (String.utf8Len lines) (({} : Cursor).pass (lines ++ line)) after := by
  have upTo := Cursor.offset_pass {} (lines ++ line)
  have before := Cursor.offset_pass {} lines
  rw [Nat.zero_add] at upTo before
  have reached := reaches.reached
  have farLines : (({} : Cursor).pass lines).offset ≤ offset := by
    rw [before]
    rw [String.utf8Len_append] at reached
    omega
  have farLine : ((({} : Cursor).pass lines).pass line).offset ≤ offset := by
    rw [← Cursor.pass_append, upTo]
    exact reached
  have first : Cursor.seek offset 0 {} (lines ++ (line ++ after)) = _ :=
    Cursor.seek_lines (line ++ after) reaches.ended farLines fun _ => rfl
  rw [positionAt, reaches.whole, List.append_assoc, first,
    Cursor.seek_unbroken reaches.unbroken farLine, before, Cursor.pass_append]

theorem positionAt_eq (reaches : Reaches source offset lines line after) :
    positionAt source offset = positionAfter source offset lines line := by
  have place := Cursor.pos_pass_lines reaches.ended reaches.unbroken
  have upTo := Cursor.offset_pass {} (lines ++ line)
  have reached := reaches.reached
  have size := reaches.size
  rw [Nat.zero_add] at upTo
  rw [reaches.positionAt_eq_seek, positionAfter]
  cases after with
  | nil =>
    rw [String.utf8Len_nil] at size
    rw [Cursor.seek, place, if_pos (by omega)]
  | cons c after =>
    have inside := reaches.beyond c rfl
    rw [String.utf8Len_cons] at size
    by_cases exact' : offset = String.utf8Len (lines ++ line)
    · rw [Cursor.seek, if_pos (by omega), place, if_pos (by omega)]
    · rw [Cursor.seek, if_neg (by omega), if_pos (by omega), place, if_neg (by omega)]

/-- The characters after the last line end are the part of the text from there. -/
theorem slice?_line (reaches : Reaches source offset lines line after) :
    LineIndex.slice? source (String.utf8Len lines) (String.utf8Len (lines ++ line)) =
      some (String.ofList line) := by
  have begins : source.toList = lines ++ (line ++ after) := by
    rw [reaches.whole, List.append_assoc]
  have size : String.utf8Len lines ≤ String.utf8Len (lines ++ line) := by
    rw [String.utf8Len_append]
    exact Nat.le_add_right _ _
  have part := String.extract_of_valid lines line after
  rw [← reaches.whole, String.ofList_toList, ← String.utf8Len_append] at part
  rw [LineIndex.slice?, if_pos, part]
  exact ⟨size, String.Pos.Raw.isValid_eq_true_iff.2 (isBoundary_utf8Len begins),
    String.Pos.Raw.isValid_eq_true_iff.2 (isBoundary_utf8Len reaches.whole)⟩

/-- An offset inside a character ends no part of the text. -/
theorem slice?_inside (reaches : Reaches source offset lines line after)
    (inside : min offset source.utf8ByteSize ≠ String.utf8Len (lines ++ line)) (start : Nat) :
    LineIndex.slice? source start (min offset source.utf8ByteSize) = none ∧
      offset < source.utf8ByteSize := by
  have short : offset < source.utf8ByteSize := by
    by_contra behind
    exact inside (reaches.stop_eq (.inr (Nat.le_of_not_lt behind)))
  refine ⟨?_, short⟩
  rw [Nat.min_eq_left (Nat.le_of_lt short)] at inside ⊢
  rw [LineIndex.slice?, if_neg]
  rintro ⟨-, -, valid⟩
  exact inside (reaches.eq_of_isBoundary (String.Pos.Raw.isValid_eq_true_iff.1 valid))

theorem position_eq (reaches : Reaches source offset lines line after) :
    (LineIndex.ofText source).position source offset =
      positionAfter source offset lines line := by
  have column : ((LineIndex.slice? source (String.utf8Len lines)
      (min offset source.utf8ByteSize)).map String.length).getD
        (min offset source.utf8ByteSize - String.utf8Len lines) =
      if min offset source.utf8ByteSize = String.utf8Len (lines ++ line) then line.length
        else offset - String.utf8Len lines := by
    by_cases between : min offset source.utf8ByteSize = String.utf8Len (lines ++ line)
    · rw [if_pos between, between, reaches.slice?_line]
      simp
    · obtain ⟨none, short⟩ := reaches.slice?_inside between (String.utf8Len lines)
      rw [if_neg between, none, Nat.min_eq_left (Nat.le_of_lt short)]
      rfl
  rw [LineIndex.position, reaches.lineOf_eq, reaches.start_eq]
  exact congrArg (fun n => (⟨_, n + 1⟩ : Position)) column

end Reaches

/-! ## The order of positions -/

/-- The position stands in an earlier line, or in the same line further left. -/
def Position.Before (p q : Position) : Prop :=
  p.line < q.line ∨ p.line = q.line ∧ p.column < q.column

theorem Position.Before.trans {p q r : Position} (first : p.Before q) (second : q.Before r) :
    p.Before r := by
  unfold Before at *
  omega

theorem Position.not_before_self (p : Position) : ¬ p.Before p := by
  unfold Before
  omega

theorem Cursor.before_next (k : Cursor) (c : Char) : k.pos.Before (k.next c).pos := by
  unfold next
  split
  · exact .inl (Nat.lt_succ_self _)
  · exact .inr ⟨rfl, Nat.lt_succ_self _⟩

/-- Passing characters moves on. -/
theorem Cursor.before_pass (k : Cursor) {text : List Char} (some : text ≠ []) :
    k.pos.Before (k.pass text).pos := by
  induction text generalizing k with
  | nil => exact absurd rfl some
  | cons c text ih =>
    by_cases last : text = []
    · subst last
      exact k.before_next c
    · exact (k.before_next c).trans (ih (k.next c) last)

/-- Later boundaries have later positions. -/
theorem positionAt_before {source : String} {offset offset' : Nat}
    (boundary : IsBoundary source offset) (boundary' : IsBoundary source offset')
    (later : offset < offset') :
    (positionAt source offset).Before (positionAt source offset') := by
  obtain ⟨before, after, cut, rfl⟩ := isBoundary_iff.1 boundary
  obtain ⟨before', after', cut', rfl⟩ := isBoundary_iff.1 boundary'
  rw [positionAt_utf8Len cut, positionAt_utf8Len cut']
  rcases List.append_eq_append_iff.1 (cut.symm.trans cut') with
    ⟨between, rfl, -⟩ | ⟨between, rfl, -⟩
  · rw [Cursor.pass_append]
    apply Cursor.before_pass
    rintro rfl
    simp at later
  · rw [String.utf8Len_append] at later
    omega

/-- Lines and columns of a text are found exactly. The line of a place between two characters counts
the line ends that end up to it, and the column the characters after the last of them; a place
behind the text has the position of its end. So positions of such places increase with them. -/
theorem line_positions_exact (source : String) :
    (∀ offset, (LineIndex.ofText source).position source offset = positionAt source offset) ∧
    (∀ offset, ∃ lines line after, Reaches source offset lines line after) ∧
    (∀ offset lines line after, Reaches source offset lines line after →
      IsBoundary source offset ∨ source.utf8ByteSize < offset →
      (LineIndex.ofText source).position source offset =
        ⟨lines.countP isLineEnd + 1, line.length + 1⟩) ∧
    (∀ offset offset', IsBoundary source offset → IsBoundary source offset' → offset < offset' →
      ((LineIndex.ofText source).position source offset).Before
        ((LineIndex.ofText source).position source offset')) ∧
    (∀ offset offset', IsBoundary source offset → IsBoundary source offset' →
      (LineIndex.ofText source).position source offset =
        (LineIndex.ofText source).position source offset' → offset = offset') ∧
    ∀ offset, source.utf8ByteSize < offset →
      (LineIndex.ofText source).position source offset =
        (LineIndex.ofText source).position source source.utf8ByteSize := by
  have agree (offset) : (LineIndex.ofText source).position source offset =
      positionAt source offset := by
    obtain ⟨lines, line, after, reaches⟩ := exists_reaches source offset
    rw [reaches.position_eq, reaches.positionAt_eq]
  have increase {offset offset'} (boundary : IsBoundary source offset)
      (boundary' : IsBoundary source offset') (later : offset < offset') :
      ((LineIndex.ofText source).position source offset).Before
        ((LineIndex.ofText source).position source offset') := by
    rw [agree, agree]
    exact positionAt_before boundary boundary' later
  refine ⟨agree, exists_reaches source, ?_, fun _ _ => increase, ?_, ?_⟩
  · intro offset lines line after reaches place
    rw [reaches.position_eq, reaches.positionAfter_eq (place.imp_right Nat.le_of_lt)]
  · intro offset offset' boundary boundary' same
    by_contra apart
    rcases Nat.lt_or_gt_of_ne apart with before | after
    · have ordered := increase boundary boundary' before
      rw [same] at ordered
      exact Position.not_before_self _ ordered
    · have ordered := increase boundary' boundary after
      rw [same] at ordered
      exact Position.not_before_self _ ordered
  · intro offset behind
    obtain ⟨lines, line, after, reaches⟩ := exists_reaches source offset
    have atEnd := reaches.atEnd (Nat.le_of_lt behind)
    rw [reaches.position_eq, reaches.positionAfter_eq (.inr (Nat.le_of_lt behind)),
      atEnd.position_eq, atEnd.positionAfter_eq (.inr (Nat.le_refl _))]

/-- After two line ends, behind a character of four bytes; and behind the end of the text. -/
theorem line_positions_exact_wide :
    Reaches "é\r\n😀b" 8 "é\r\n".toList ['😀'] ['b'] ∧ IsBoundary "é\r\n😀b" 8 ∧
    (LineIndex.ofText "é\r\n😀b").position "é\r\n😀b" 8 = ⟨3, 2⟩ ∧
    (⟨3, 2⟩ : Position).Before ((LineIndex.ofText "é\r\n😀b").position "é\r\n😀b" 9) ∧
    (LineIndex.ofText "é\r\n😀b").position "é\r\n😀b" 20 =
      (LineIndex.ofText "é\r\n😀b").position "é\r\n😀b" 9 := by
  obtain ⟨-, -, exact', ordered, -, behind⟩ := line_positions_exact "é\r\n😀b"
  have reaches : Reaches "é\r\n😀b" 8 "é\r\n".toList ['😀'] ['b'] :=
    ⟨by decide +kernel, by simp [isLineEnd], by simp [isLineEnd], by decide +kernel,
      by simp [Char.utf8Size]⟩
  have boundary : IsBoundary "é\r\n😀b" 8 :=
    isBoundary_iff.2 ⟨"é\r\n😀".toList, ['b'], by decide +kernel, by decide +kernel⟩
  have last : IsBoundary "é\r\n😀b" 9 :=
    isBoundary_iff.2 ⟨"é\r\n😀b".toList, [], by decide +kernel, by decide +kernel⟩
  have found := exact' 8 _ _ _ reaches (.inl boundary)
  refine ⟨reaches, boundary, found, ?_, behind 20 (by decide)⟩
  have later := ordered 8 9 boundary last (by decide)
  rw [found] at later
  exact later

end Polyglot
