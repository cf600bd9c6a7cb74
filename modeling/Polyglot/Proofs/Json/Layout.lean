import Polyglot.Proofs.Json.Scalars
import Polyglot.Proofs.OrderedMap

/-!
# The JSON text of values

The indented text of a value is read as the value itself, provided that its integers fit 64 bits,
its other numbers are read back, and no object has two fields of one name; and it is refused if too
many arrays and objects of the value are inside one another.
-/

namespace Polyglot.Json

mutual

/-- A value that its text tells apart from every other: integers fit 64 bits, other numbers are read
back, and the fields of an object have different names. -/
def Legible : Json → Prop
  | null | bool _ | str _ => True
  | int n => FitsWord n
  | float x => ReadsBack x
  | arr items => AllLegible items
  | obj fields => (fields.map Prod.fst).Nodup ∧ AllFieldsLegible fields

/-- All items are such values. -/
def AllLegible : List Json → Prop
  | [] => True
  | j :: js => j.Legible ∧ AllLegible js

/-- All fields are such values. -/
def AllFieldsLegible : List (String × Json) → Prop
  | [] => True
  | (_, j) :: fs => j.Legible ∧ AllFieldsLegible fs

end

/-! ## Blanks -/

theorem skip_append (cs rest : List Char) :
    (cs ++ rest).dropWhile isBlank = (cs.dropWhile isBlank ++ rest).dropWhile isBlank := by
  induction cs with
  | nil => rfl
  | cons c cs ih => cases blank : isBlank c <;> simp [blank, ih]

theorem skip_idempotent (cs : List Char) :
    (cs.dropWhile isBlank).dropWhile isBlank = cs.dropWhile isBlank := by
  simpa using (skip_append cs []).symm

theorem toList_newline (level : Nat) :
    (newline level).toList = '\n' :: List.replicate (2 * level) ' ' := by
  simp [newline]

theorem skip_newline (level : Nat) (rest : List Char) :
    ((newline level).toList ++ rest).dropWhile isBlank = rest.dropWhile isBlank := by
  have blanks : (newline level).toList.dropWhile isBlank = [] := by
    rw [toList_newline, List.dropWhile_cons_of_pos (by rfl), List.dropWhile_replicate,
      if_pos (by rfl)]
  rw [skip_append, blanks, List.nil_append]

/-! Blanks in front of what is read play no part. -/

section

variable {cs cs' : List Char} (same : cs.dropWhile isBlank = cs'.dropWhile isBlank)

include same

theorem readValue_congr (fuel levels : Nat) :
    readValue fuel levels cs = readValue fuel levels cs' := by
  cases fuel with
  | zero => rw [readValue, readValue]
  | succ fuel => rw [readValue, readValue, same]

theorem readItems_congr (fuel levels : Nat) :
    readItems fuel levels cs = readItems fuel levels cs' := by
  cases fuel with
  | zero => rw [readItems, readItems]
  | succ fuel => rw [readItems, readItems, readValue_congr same]

theorem readFields_congr (fuel levels : Nat) (before : List (String × Json)) :
    readFields fuel levels before cs = readFields fuel levels before cs' := by
  cases fuel with
  | zero => rw [readFields, readFields]
  | succ fuel => rw [readFields, readFields, same]

end

theorem read?_eq_some {s : String} {j : Json} :
    read? s = some j ↔ ∃ left,
      readValue (s.toList.length + 1) (nestingLimit - 1) s.toList = some (j, left) ∧
        left.dropWhile isBlank = [] := by
  simp only [read?]
  cases readValue (s.toList.length + 1) (nestingLimit - 1) s.toList with
  | none => simp
  | some result =>
    obtain ⟨j', left⟩ := result
    simp only [List.isEmpty_iff]
    constructor
    · intro read
      split at read <;> cases read
      exact ⟨left, rfl, ‹_›⟩
    · rintro ⟨_, ⟨⟩, blanks⟩
      exact if_pos blanks

/-! ## Values by their first character -/

/-- A value that does not begin with an opening bracket is no array and no object. -/
theorem readValue_atom (fuel levels : Nat) {c : Char} {cs : List Char}
    (nonblank : isBlank c = false) (plain : c ∉ ['[', '\x7b']) :
    readValue (fuel + 1) levels (c :: cs) = readAtom (c :: cs) := by
  rw [readValue, List.dropWhile_cons_of_neg (by simp [nonblank])]
  split <;> simp_all

/-- What is read as a number is no other value. -/
theorem readValue_of_readNumber (fuel levels : Nat) {cs : List Char} {result : Json × List Char}
    (read : readNumber cs = some result) : readValue (fuel + 1) levels cs = some result := by
  have begins : ∀ c ∈ cs.head?, isBlank c = false ∧ c ∉ ['n', 't', 'f', '\"', '[', '\x7b'] := by
    intro c first
    obtain ⟨cs, rfl⟩ := List.head?_eq_some_iff.1 first
    unfold readNumber at read
    split at read
    · rename_i minus
      cases minus
      decide
    · have whole := isWhole_of_readUnsigned read
      have digit : c.isDigit = true := by
        by_contra other
        exact whole.1 (List.takeWhile_cons_of_neg other)
      have apart {d : Char} (other : d.isDigit = false) : c ≠ d := by
        rintro rfl
        cases digit.symm.trans other
      simp [isBlank, apart]
  cases cs with
  | nil => cases read
  | cons c cs =>
    obtain ⟨nonblank, other⟩ := begins c rfl
    rw [readValue_atom fuel levels nonblank (by simp_all), readAtom]
    · exact read
    all_goals simp_all

theorem readValue_str (fuel levels : Nat) (s : String) (rest : List Char) :
    readValue (fuel + 1) levels ((quote s).toList ++ rest) = some (str s, rest) := by
  rw [toList_quote, List.cons_append, List.append_assoc, List.singleton_append,
    readValue_atom fuel levels rfl (by decide), readAtom, readString_escaped]
  simp

/-- The items of an array have one level less. -/
theorem readValue_arr (fuel levels : Nat) {cs : List Char}
    (opens : ∀ rest, cs.dropWhile isBlank ≠ ']' :: rest) :
    readValue (fuel + 1) (levels + 1) ('[' :: cs) =
      (readItems fuel levels cs).map fun (items, rest) => (arr items, rest) := by
  have opened : ('[' :: cs).dropWhile isBlank = '[' :: cs := rfl
  rw [readItems_congr (skip_idempotent cs).symm, readValue]
  simp only [opened]

theorem readValue_obj (fuel levels : Nat) {cs : List Char}
    (opens : ∀ rest, cs.dropWhile isBlank ≠ '\x7d' :: rest) :
    readValue (fuel + 1) (levels + 1) ('\x7b' :: cs) =
      (readFields fuel levels [] cs).map fun (fields, rest) => (obj fields, rest) := by
  have opened : ('\x7b' :: cs).dropWhile isBlank = '\x7b' :: cs := rfl
  rw [readFields_congr (skip_idempotent cs).symm, readValue]
  simp only [opened]

/-- Where nothing may be inside of anything, there are no arrays and objects. -/
theorem readValue_zero (fuel : Nat) {c : Char} (opens : c = '[' ∨ c = '\x7b') (cs : List Char) :
    readValue (fuel + 1) 0 (c :: cs) = none := by
  obtain rfl | rfl := opens
  · have opened : ('[' :: cs).dropWhile isBlank = '[' :: cs := rfl
    rw [readValue]
    simp only [opened]
  · have opened : ('\x7b' :: cs).dropWhile isBlank = '\x7b' :: cs := rfl
    rw [readValue]
    simp only [opened]

/-- A value does not begin with the bracket that closes an array. -/
theorem skip_ne_closing {fuel levels : Nat} {cs : List Char} {result : Json × List Char}
    (read : readValue fuel levels cs = some result) (rest : List Char) :
    cs.dropWhile isBlank ≠ ']' :: rest := by
  intro closed
  cases fuel with
  | zero => cases read
  | succ fuel =>
    rw [readValue, closed] at read
    cases read

/-! ## Items and fields one after the other -/

theorem skip_name (name : String) (rest : List Char) :
    ((quote name).toList ++ rest).dropWhile isBlank =
      '\"' :: (escaped name.toList ++ '\"' :: rest) := by
  rw [toList_quote, List.cons_append, List.append_assoc]
  rfl

theorem skip_colon (rest : List Char) : (':' :: rest).dropWhile isBlank = ':' :: rest :=
  rfl

theorem readItems_refused {fuel levels : Nat} {cs : List Char}
    (refused : readValue fuel levels cs = none) : readItems (fuel + 1) levels cs = none := by
  rw [readItems, refused]

theorem readFields_refused {fuel levels : Nat} {cs : List Char}
    (refused : readValue fuel levels cs = none) (name : String) (before : List (String × Json)) :
    readFields (fuel + 1) levels before ((quote name).toList ++ ':' :: cs) = none := by
  rw [readFields, skip_name]
  simp only [readString_escaped, skip_colon, refused]

section

variable {fuel levels : Nat} {cs left after : List Char} {j : Json}
  (read : readValue fuel levels cs = some (j, left))

include read

theorem readItems_last (closed : left.dropWhile isBlank = ']' :: after) :
    readItems (fuel + 1) levels cs = some ([j], after) := by
  rw [readItems, read]
  simp only [closed]

theorem readItems_more (comma : left.dropWhile isBlank = ',' :: after) :
    readItems (fuel + 1) levels cs =
      (readItems fuel levels after).map fun (items, rest) => (j :: items, rest) := by
  rw [readItems, read]
  simp only [comma]

variable (name : String) {before : List (String × Json)} (fresh : name ∉ before.map Prod.fst)

include fresh

theorem readFields_last (closed : left.dropWhile isBlank = '\x7d' :: after) :
    readFields (fuel + 1) levels before ((quote name).toList ++ ':' :: cs) =
      some (before ++ [(name, j)], after) := by
  rw [readFields, skip_name]
  simp only [readString_escaped, skip_colon, read, closed, String.ofList_toList,
    OrderedMap.upsert_of_not_mem j fresh]

theorem readFields_more (comma : left.dropWhile isBlank = ',' :: after) :
    readFields (fuel + 1) levels before ((quote name).toList ++ ':' :: cs) =
      readFields fuel levels (before ++ [(name, j)]) after := by
  rw [readFields, skip_name]
  simp only [readString_escaped, skip_colon, read, comma, String.ofList_toList,
    OrderedMap.upsert_of_not_mem j fresh]

end

/-! ## Values at a level -/

/-- The text of a value at a level is read as the value, up to blanks after it, if as many arrays
and objects may be inside one another as there are in the value, and is refused otherwise. -/
def ReadsAt (level : Nat) (j : Json) : Prop :=
  ∀ fuel levels rest, (j.prettyAt level).toList.length < fuel → EndsNumber rest →
    ∃ left, left.dropWhile isBlank = rest.dropWhile isBlank ∧
      readValue fuel levels ((j.prettyAt level).toList ++ rest) =
        if j.nesting ≤ levels then some (j, left) else none

theorem endsNumber_comma (rest : List Char) : EndsNumber (',' :: rest) := by
  simp [EndsNumber]

theorem endsNumber_newline (level : Nat) (rest : List Char) :
    EndsNumber ((newline level).toList ++ rest) := by
  simp [EndsNumber, toList_newline]

/-- The items of an array are read up to its closing bracket, or refused. -/
theorem readItems_pretty {level : Nat} {items : List Json} {j : Json}
    (reads : ∀ k ∈ j :: items, k.ReadsAt level) (outer fuel levels : Nat)
    (enough : (j.prettyAt level).toList.length + (prettyItems level items).toList.length + 1 < fuel)
    (rest : List Char) :
    readItems fuel levels ((j.prettyAt level).toList ++ ((prettyItems level items).toList ++
      ((newline outer).toList ++ ']' :: rest))) =
        if nestingItems (j :: items) ≤ levels then some (j :: items, rest) else none := by
  induction items generalizing j fuel with
  | nil =>
    obtain ⟨fuel, rfl⟩ := Nat.exists_eq_add_one_of_ne_zero (Nat.ne_zero_of_lt enough)
    obtain ⟨left, skipped, read⟩ := reads j List.mem_cons_self fuel levels _ (by omega)
      (endsNumber_newline outer (']' :: rest))
    by_cases fits : j.nesting ≤ levels
    · rw [if_pos fits] at read
      rw [if_pos (by simpa [nestingItems] using fits)]
      exact readItems_last read (skipped.trans (skip_newline outer _))
    · rw [if_neg fits] at read
      rw [if_neg (by simpa [nestingItems] using fits)]
      exact readItems_refused read
  | cons k items ih =>
    obtain ⟨fuel, rfl⟩ := Nat.exists_eq_add_one_of_ne_zero (Nat.ne_zero_of_lt enough)
    have text : (prettyItems level (k :: items)).toList ++ ((newline outer).toList ++ ']' :: rest) =
        ',' :: ((newline level).toList ++ ((k.prettyAt level).toList ++
          ((prettyItems level items).toList ++ ((newline outer).toList ++ ']' :: rest)))) := by
      simp [prettyItems]
    -- Every item takes one unit of fuel and has more text than that.
    have longer : (k.prettyAt level).toList.length + (prettyItems level items).toList.length <
        (prettyItems level (k :: items)).toList.length := by
      simp [prettyItems]
    rw [text, nestingItems]
    obtain ⟨left, skipped, read⟩ := reads j List.mem_cons_self fuel levels _ (by omega)
      (endsNumber_comma _)
    by_cases fits : j.nesting ≤ levels
    · rw [if_pos fits] at read
      rw [readItems_more read skipped, readItems_congr (skip_newline level _),
        ih (fun k' member => reads k' (List.mem_cons_of_mem _ member)) fuel (by omega)]
      simp only [Nat.max_le, fits, true_and]
      split <;> rfl
    · rw [if_neg fits] at read
      rw [if_neg fun both => fits (Nat.max_le.1 both).1]
      exact readItems_refused read

theorem fresh_of_nodup {before fields : List (String × Json)} {name : String} {j : Json}
    (distinct : ((before ++ (name, j) :: fields).map Prod.fst).Nodup) :
    name ∉ before.map Prod.fst := by
  intro member
  rw [List.map_append, List.map_cons, List.nodup_append] at distinct
  exact distinct.2.2 name member name List.mem_cons_self rfl

/-- The fields of an object are read up to its closing brace, after those read before, or
refused. -/
theorem readFields_pretty {level : Nat} {fields : List (String × Json)} {name : String}
    {j : Json} (reads : ∀ f ∈ (name, j) :: fields, f.2.ReadsAt level)
    (before : List (String × Json))
    (distinct : ((before ++ (name, j) :: fields).map Prod.fst).Nodup) (outer fuel levels : Nat)
    (enough : (j.prettyAt level).toList.length + (prettyFields level fields).toList.length + 1 <
      fuel) (rest : List Char) :
    readFields fuel levels before ((quote name).toList ++ ':' :: ' ' ::
      ((j.prettyAt level).toList ++ ((prettyFields level fields).toList ++
        ((newline outer).toList ++ '\x7d' :: rest)))) =
      if nestingFields ((name, j) :: fields) ≤ levels then
        some (before ++ (name, j) :: fields, rest)
      else none := by
  have blank (cs : List Char) : List.dropWhile isBlank (' ' :: cs) = cs.dropWhile isBlank := rfl
  induction fields generalizing name j before fuel with
  | nil =>
    obtain ⟨fuel, rfl⟩ := Nat.exists_eq_add_one_of_ne_zero (Nat.ne_zero_of_lt enough)
    have first : j.ReadsAt level := reads (name, j) List.mem_cons_self
    obtain ⟨left, skipped, read⟩ := first fuel levels _ (by omega)
      (endsNumber_newline outer ('\x7d' :: rest))
    rw [← readValue_congr (blank _)] at read
    by_cases fits : j.nesting ≤ levels
    · rw [if_pos fits] at read
      rw [if_pos (by simpa [nestingFields] using fits)]
      exact readFields_last read name (fresh_of_nodup distinct)
        (skipped.trans (skip_newline outer _))
    · rw [if_neg fits] at read
      rw [if_neg (by simpa [nestingFields] using fits)]
      exact readFields_refused read name before
  | cons f fields ih =>
    obtain ⟨other, k⟩ := f
    obtain ⟨fuel, rfl⟩ := Nat.exists_eq_add_one_of_ne_zero (Nat.ne_zero_of_lt enough)
    have text : (prettyFields level ((other, k) :: fields)).toList ++
          ((newline outer).toList ++ '\x7d' :: rest) =
        ',' :: ((newline level).toList ++ ((quote other).toList ++ ':' :: ' ' ::
          ((k.prettyAt level).toList ++ ((prettyFields level fields).toList ++
            ((newline outer).toList ++ '\x7d' :: rest))))) := by
      simp [prettyFields]
    have longer : (k.prettyAt level).toList.length + (prettyFields level fields).toList.length <
        (prettyFields level ((other, k) :: fields)).toList.length := by
      simp [prettyFields]
      omega
    rw [text, nestingFields]
    have first : j.ReadsAt level := reads (name, j) List.mem_cons_self
    obtain ⟨left, skipped, read⟩ := first fuel levels _ (by omega) (endsNumber_comma _)
    rw [← readValue_congr (blank _)] at read
    by_cases fits : j.nesting ≤ levels
    · rw [if_pos fits] at read
      rw [readFields_more read name (fresh_of_nodup distinct) skipped,
        readFields_congr (skip_newline level _),
        ih (fun f member => reads f (List.mem_cons_of_mem _ member)) _ (by simpa using distinct)
          fuel (by omega)]
      simp only [Nat.max_le, fits, true_and, List.append_assoc, List.singleton_append]
    · rw [if_neg fits] at read
      rw [if_neg fun both => fits (Nat.max_le.1 both).1]
      exact readFields_refused read name before

/-- A value that holds no other values is read wherever it is. -/
theorem readsAt_of_exact {level : Nat} {j : Json} (flat : j.nesting = 0)
    (exact : ∀ fuel levels rest, EndsNumber rest →
      readValue (fuel + 1) levels ((j.prettyAt level).toList ++ rest) = some (j, rest)) :
    j.ReadsAt level := by
  intro fuel levels rest enough ends
  obtain ⟨fuel, rfl⟩ := Nat.exists_eq_add_one_of_ne_zero (Nat.ne_zero_of_lt enough)
  refine ⟨rest, rfl, ?_⟩
  rw [if_pos (by omega)]
  exact exact fuel levels rest ends

/-- No other text is read as a double. -/
theorem readNumber_of_readAtom {cs left : List Char} {x : Float}
    (read : readAtom cs = some (float x, left)) : readNumber cs = some (float x, left) := by
  rw [readAtom.eq_def] at read
  split at read
  · cases read
  · cases read
  · cases read
  · obtain ⟨_, -, same⟩ := Option.map_eq_some_iff.1 read
    cases same
  · exact read

theorem readNumber_of_readValue {fuel levels : Nat} {cs left : List Char} {x : Float}
    (read : readValue (fuel + 1) levels cs = some (float x, left)) :
    readNumber (cs.dropWhile isBlank) = some (float x, left) := by
  rw [readValue] at read
  split at read
  · split at read
    · cases read
    · split at read
      · cases read
      · obtain ⟨_, -, same⟩ := Option.map_eq_some_iff.1 read
        cases same
  · split at read
    · cases read
    · split at read
      · cases read
      · obtain ⟨_, -, same⟩ := Option.map_eq_some_iff.1 read
        cases same
  · exact readNumber_of_readAtom read

/-- A double that is read back alone is read back in front of what cannot belong to it. -/
theorem ReadsBack.readsAt {x : Float} (back : ReadsBack x) (level : Nat) :
    (float x).ReadsAt level := by
  obtain ⟨left, alone, blanks⟩ := read?_eq_some.1 back
  have read := readNumber_of_readValue alone
  intro fuel levels rest enough ends
  obtain ⟨fuel, rfl⟩ := Nat.exists_eq_add_one_of_ne_zero (Nat.ne_zero_of_lt enough)
  refine ⟨left ++ rest, ?_, ?_⟩
  · rw [skip_append, blanks, List.nil_append]
  · rw [if_pos (by rw [nesting]; exact Nat.zero_le levels)]
    have same := skip_append (floatText x).toList rest
    exact (readValue_congr same _ _).trans
      (readValue_of_readNumber fuel levels (ends.readNumber_append read))

/-- An empty array or object takes up a level. -/
theorem readsAt_of_empty {level : Nat} {j : Json} (empty : j = arr [] ∨ j = obj []) :
    j.ReadsAt level := by
  intro fuel levels rest enough _
  obtain ⟨fuel, rfl⟩ := Nat.exists_eq_add_one_of_ne_zero (Nat.ne_zero_of_lt enough)
  refine ⟨rest, rfl, ?_⟩
  cases levels with
  | zero =>
    obtain ⟨opening, closing, bracket, text⟩ : ∃ c d, (c = '[' ∨ c = '\x7b') ∧
        (j.prettyAt level).toList ++ rest = c :: d :: rest := by
      obtain rfl | rfl := empty
      · exact ⟨'[', ']', .inl rfl, by simp [prettyAt, atomText]⟩
      · exact ⟨'\x7b', '\x7d', .inr rfl, by simp [prettyAt, atomText]⟩
    have deep : ¬ j.nesting ≤ 0 := by
      obtain rfl | rfl := empty <;> simp [nesting]
    rw [text, readValue_zero fuel bracket, if_neg deep]
  | succ levels =>
    obtain rfl | rfl := empty <;>
      simp [prettyAt, atomText, readValue, isBlank, nesting, nestingItems, nestingFields]

mutual

/-- A legible value is read back at every level. -/
theorem Legible.readsAt : ∀ (j : Json), j.Legible → ∀ level, j.ReadsAt level
  | null, _, _ | bool true, _, _ | bool false, _, _ => readsAt_of_exact rfl fun _ _ _ _ => by
    simp [prettyAt, atomText, readValue, readAtom, isBlank]
  | arr [], _, _ => readsAt_of_empty (.inl rfl)
  | obj [], _, _ => readsAt_of_empty (.inr rfl)
  | int n, fits, _ => readsAt_of_exact rfl fun fuel levels _ ends =>
    readValue_of_readNumber fuel levels (ends.readNumber_append (readNumber_int fits))
  | float x, back, level => ReadsBack.readsAt back level
  | str s, _, _ => readsAt_of_exact rfl fun fuel levels rest _ => readValue_str fuel levels s rest
  | arr (j :: items), legible, level => by
    have reads := AllLegible.readsAt (j :: items) legible
    intro fuel levels rest enough _
    obtain ⟨fuel, rfl⟩ := Nat.exists_eq_add_one_of_ne_zero (Nat.ne_zero_of_lt enough)
    have text : (prettyAt level (arr (j :: items))).toList ++ rest =
        '[' :: ((newline (level + 1)).toList ++ ((j.prettyAt (level + 1)).toList ++
          ((prettyItems (level + 1) items).toList ++
            ((newline level).toList ++ ']' :: rest)))) := by
      simp [prettyAt]
    have longer : (j.prettyAt (level + 1)).toList.length +
        (prettyItems (level + 1) items).toList.length + 2 ≤
          (prettyAt level (arr (j :: items))).toList.length := by
      simp [prettyAt]
      omega
    refine ⟨rest, rfl, ?_⟩
    rw [text, nesting]
    cases levels with
    | zero => exact readValue_zero fuel (.inl rfl) _
    | succ levels =>
      have inner := readItems_pretty (fun k member => reads k member (level + 1)) level fuel levels
        (by omega) rest
      rw [← readItems_congr (skip_newline (level + 1) _)] at inner
      -- The first item would be read with enough levels, so it does not close the array.
      obtain ⟨_, -, first⟩ := reads j List.mem_cons_self (level + 1) fuel j.nesting
        ((prettyItems (level + 1) items).toList ++ ((newline level).toList ++ ']' :: rest))
        (by omega) (by cases items <;> simp [prettyItems, endsNumber_comma, endsNumber_newline])
      rw [if_pos (Nat.le_refl _)] at first
      have opens (after : List Char) := skip_ne_closing first after
      rw [readValue_arr fuel levels (by simpa only [skip_newline] using opens), inner]
      simp only [Nat.add_le_add_iff_right]
      split <;> rfl
  | obj ((name, j) :: fields), legible, level => by
    have reads := AllFieldsLegible.readsAt ((name, j) :: fields) legible.2
    intro fuel levels rest enough _
    obtain ⟨fuel, rfl⟩ := Nat.exists_eq_add_one_of_ne_zero (Nat.ne_zero_of_lt enough)
    have text : (prettyAt level (obj ((name, j) :: fields))).toList ++ rest =
        '\x7b' :: ((newline (level + 1)).toList ++ ((quote name).toList ++ ':' :: ' ' ::
          ((j.prettyAt (level + 1)).toList ++ ((prettyFields (level + 1) fields).toList ++
            ((newline level).toList ++ '\x7d' :: rest))))) := by
      simp [prettyAt]
    have longer : (j.prettyAt (level + 1)).toList.length +
        (prettyFields (level + 1) fields).toList.length + 2 ≤
          (prettyAt level (obj ((name, j) :: fields))).toList.length := by
      simp [prettyAt]
      omega
    refine ⟨rest, rfl, ?_⟩
    rw [text, nesting]
    cases levels with
    | zero => exact readValue_zero fuel (.inr rfl) _
    | succ levels =>
      have inner := readFields_pretty (fun f member => reads f member (level + 1)) [] legible.1
        level fuel levels (by omega) rest
      rw [← readFields_congr (skip_newline (level + 1) _)] at inner
      rw [readValue_obj fuel levels (by simp [skip_newline, skip_name]), inner]
      simp only [Nat.add_le_add_iff_right]
      split <;> rfl

theorem AllLegible.readsAt : ∀ (items : List Json), AllLegible items →
    ∀ j ∈ items, ∀ level, j.ReadsAt level
  | [], _ => by simp
  | j :: items, legible => by
    have first := Legible.readsAt j legible.1
    have rest := AllLegible.readsAt items legible.2
    exact List.forall_mem_cons.2 ⟨first, rest⟩

theorem AllFieldsLegible.readsAt : ∀ (fields : List (String × Json)), AllFieldsLegible fields →
    ∀ f ∈ fields, ∀ level, f.2.ReadsAt level
  | [], _ => by simp
  | (name, j) :: fields, legible => by
    have first := Legible.readsAt j legible.1
    have rest := AllFieldsLegible.readsAt fields legible.2
    exact List.forall_mem_cons.2 ⟨first, rest⟩

end

end Polyglot.Json
