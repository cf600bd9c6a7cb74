import Mathlib.Data.Nat.Digits.Defs
import Polyglot.Proofs.Lexing.Cutting

/-!
# The grammar of text literals

What stands between the quotes of a text literal is a sequence of items, each a character that
stands for itself or a backslash and what belongs to it. The scanner reads exactly these sequences:
every one of them up to the closing quote and nothing else, and it says of a text that does not
begin with one that a quote is missing or that an escape is invalid.
-/

namespace Polyglot

namespace Literal

/-! ## Hexadecimal numbers -/

/-- The character is the digit of the given value, as a small letter or a capital one. -/
def HexDigit (c : Char) (value : Nat) : Prop :=
  "0123456789abcdef".toList[value]? = some c ∨ "0123456789ABCDEF".toList[value]? = some c

/-- The characters are the digits of the number to base sixteen, the first one being worth most. -/
def Hexadecimal (digits : List Char) (n : Nat) : Prop :=
  ∃ values, List.Forall₂ HexDigit digits values ∧ n = Nat.ofDigits 16 values.reverse

theorem HexDigit.lt {c : Char} {value : Nat} (digit : HexDigit c value) : value < 16 := by
  rcases digit with found | found <;> exact (List.getElem?_eq_some_iff.1 found).1

/-- Hexadecimal digits are enumerated by their values. -/
theorem hexDigit_iff {c : Char} {value : Nat} :
    HexDigit c value ↔ isHexDigit c = true ∧ digitValue c = value := by
  constructor
  · intro digit
    let means (value : Nat) (c : Char) : Bool := isHexDigit c && digitValue c == value
    have listed : ∀ value < 16, "0123456789abcdef".toList[value]?.all (means value) = true ∧
        "0123456789ABCDEF".toList[value]?.all (means value) = true := by
      decide
    obtain ⟨small, capital⟩ := listed value digit.lt
    rcases digit with found | found
    · rw [found] at small
      simpa [means] using small
    · rw [found] at capital
      simpa [means] using capital
  · intro ⟨digit, worth⟩
    subst worth
    have range : 48 ≤ c.toNat ∧ c.toNat ≤ 57 ∨ 97 ≤ c.toNat ∧ c.toNat ≤ 102 ∨
        65 ≤ c.toNat ∧ c.toNat ≤ 70 := by
      simpa [isHexDigit, Char.isDigit, Char.le_def, UInt32.le_iff_toNat_le, or_assoc] using digit
    have listed : ∀ n < 103, 48 ≤ n ∧ n ≤ 57 ∨ 97 ≤ n ∧ n ≤ 102 ∨ 65 ≤ n ∧ n ≤ 70 →
        "0123456789abcdef".toList[digitValue (Char.ofNat n)]? = some (Char.ofNat n) ∨
        "0123456789ABCDEF".toList[digitValue (Char.ofNat n)]? = some (Char.ofNat n) := by
      decide
    have found := listed c.toNat (by omega) range
    rwa [Char.ofNat_toNat] at found

/-- Adding up digits from the left gives the number that they write. -/
theorem foldl_digitValue (base : Nat) (digits : List Char) :
    digits.foldl (fun n c => n * base + digitValue c) 0 =
      Nat.ofDigits base (digits.map digitValue).reverse := by
  rw [Nat.ofDigits_eq_foldr, List.foldr_reverse, List.foldl_map]
  simp only [Nat.cast_id, Nat.add_comm, Nat.mul_comm]

theorem hexNumber_eq_ofDigits (digits : List Char) :
    hexNumber digits = Nat.ofDigits 16 (digits.map digitValue).reverse :=
  foldl_digitValue 16 digits

theorem forall₂_hexDigit {digits : List Char} {values : List Nat} :
    List.Forall₂ HexDigit digits values ↔
      (∀ c ∈ digits, isHexDigit c = true) ∧ digits.map digitValue = values := by
  induction digits generalizing values with
  | nil => cases values <;> simp
  | cons c digits ih =>
    cases values with
    | nil => simp
    | cons v values => simp [ih, hexDigit_iff, and_assoc, and_left_comm]

theorem hexadecimal_iff {digits : List Char} {n : Nat} :
    Hexadecimal digits n ↔ (∀ c ∈ digits, isHexDigit c = true) ∧ hexNumber digits = n := by
  constructor
  · intro ⟨values, listed, number⟩
    obtain ⟨all, rfl⟩ := forall₂_hexDigit.1 listed
    exact ⟨all, by rw [hexNumber_eq_ofDigits, number]⟩
  · intro ⟨all, number⟩
    exact ⟨_, forall₂_hexDigit.2 ⟨all, rfl⟩, by rw [← number, hexNumber_eq_ofDigits]⟩

/-- A number of some digits is below the power of sixteen. -/
theorem Hexadecimal.lt {digits : List Char} {n : Nat} (number : Hexadecimal digits n) :
    n < 16 ^ digits.length := by
  obtain ⟨all, rfl⟩ := hexadecimal_iff.1 number
  have small : ∀ v ∈ (digits.map digitValue).reverse, v < 16 := by
    intro v member
    obtain ⟨c, listed, worth⟩ := List.mem_map.1 (List.mem_reverse.1 member)
    exact (hexDigit_iff.2 ⟨all c listed, worth⟩).lt
  have below := Nat.ofDigits_lt_base_pow_length (by decide) small
  rwa [← hexNumber_eq_ofDigits, List.length_reverse, List.length_map] at below

/-! ## Items -/

/-- The letters that mean a control character after a backslash, with that character. -/
def controls : List (Char × Char) :=
  [('b', '\u0008'), ('f', '\u000c'), ('n', '\n'), ('r', '\r'), ('t', '\t')]

/-- The letters that keep the backslash before them. -/
def verbatim : List Char := ['0', 'a', 'v']

/-- The text is one item of a literal in the given quotes, and what it means. -/
inductive Item (quote : Char) : List Char → List Char → Prop
  | plain {c : Char} (inside : c ≠ quote) (plain : c ≠ '\\') : Item quote [c] [c]
  | control {letter meant : Char} (listed : (letter, meant) ∈ controls) :
    Item quote ['\\', letter] [meant]
  /-- A character by four digits, which are not the number of a surrogate. -/
  | unicode {digits : List Char} {n : Nat} (four : digits.length = 4)
    (number : Hexadecimal digits n) (character : n < 0xd800 ∨ 0xdfff < n) :
    Item quote ('\\' :: 'u' :: digits) [Char.ofNat n]
  | byte {digits : List Char} {n : Nat} (two : digits.length = 2)
    (number : Hexadecimal digits n) : Item quote ('\\' :: 'x' :: digits) [Char.ofNat n]
  | verbatim {letter : Char} (listed : letter ∈ verbatim) :
    Item quote ['\\', letter] ['\\', letter]
  /-- Any other character after a backslash means itself: the quotes, the backslash and the ends of
  lines are among them. -/
  | itself {c : Char} (plain : c ∉ controls.map Prod.fst ++ 'u' :: 'x' :: Literal.verbatim) :
    Item quote ['\\', c] [c]

/-- The text is a sequence of items, and what they mean one after another. -/
inductive Written (quote : Char) : List Char → List Char → Prop
  | nil : Written quote [] []
  | cons {text meaning texts meanings : List Char} (first : Item quote text meaning)
    (rest : Written quote texts meanings) :
    Written quote (text ++ texts) (meaning ++ meanings)

/-! ## One item -/

theorem charOf?_eq_some {n : Nat} {c : Char} :
    charOf? n = some c ↔ n.isValidChar ∧ c = Char.ofNat n := by
  by_cases valid : n.isValidChar
  · have known : charOf? n = some (Char.ofNat n) := by
      rw [charOf?, dif_pos valid, Char.ofNat, dif_pos valid]
    rw [known, Option.some_inj, and_iff_right valid, eq_comm]
  · rw [charOf?, dif_neg valid]
    simp [valid]

theorem exists_digits_of_hexFault? {width : Nat} {cs : List Char}
    (enough : hexFault? width cs = none) :
    ∃ digits rest, cs = digits ++ rest ∧ digits.length = width ∧
      ∀ c ∈ digits, isHexDigit c = true := by
  rw [hexFault?_eq_none] at enough
  refine ⟨(cs.takeWhile isHexDigit).take width,
    (cs.takeWhile isHexDigit).drop width ++ cs.dropWhile isHexDigit, ?_, ?_, ?_⟩
  · rw [← List.append_assoc, List.take_append_drop, List.takeWhile_append_dropWhile]
  · rw [List.length_take]
    omega
  · exact fun c member => mem_takeWhile c (List.mem_of_mem_take member)

theorem numbered_digits {digits : List Char} (all : ∀ c ∈ digits, isHexDigit c = true)
    (rest : List Char) :
    numbered digits.length (digits ++ rest) =
      ⟨match charOf? (hexNumber digits) with
        | some c => .ok c
        | none => .error (.notACharacter (String.ofList digits)), digits, rest⟩ := by
  have enough : hexFault? digits.length (digits ++ rest) = none := by
    rw [hexFault?_eq_none, List.takeWhile_append_of_pos all, List.length_append]
    omega
  cases known : charOf? (hexNumber digits) <;>
    simp only [numbered, enough, List.take_left, List.drop_left, known]

/-- A numbered escape is read by its digits. -/
theorem numbered_eq_ok {width : Nat} {cs covered rest : List Char} {c : Char} :
    numbered width cs = ⟨.ok c, covered, rest⟩ ↔
      cs = covered ++ rest ∧ covered.length = width ∧ ∃ n, Hexadecimal covered n ∧
        n.isValidChar ∧ c = Char.ofNat n := by
  constructor
  · intro read
    cases fault : hexFault? width cs with
    | some _ =>
      rw [numbered, fault] at read
      cases read
    | none =>
      obtain ⟨digits, after, rfl, rfl, all⟩ := exists_digits_of_hexFault? fault
      rw [numbered_digits all] at read
      cases known : charOf? (hexNumber digits) with
      | none =>
        rw [known] at read
        cases read
      | some ch =>
        rw [known] at read
        cases read
        exact ⟨rfl, rfl, _, hexadecimal_iff.2 ⟨all, rfl⟩, charOf?_eq_some.1 known⟩
  · intro digits
    obtain ⟨rfl, rfl, n, number, character⟩ := digits
    obtain ⟨all, rfl⟩ := hexadecimal_iff.1 number
    rw [numbered_digits all, charOf?_eq_some.2 character]

/-! ## Escapes without a number -/

theorem short_of_mem_controls : ∀ pair ∈ controls,
    hexWidth? pair.1 = none ∧ escapeMeaning pair.1 = [pair.2] := by
  simp [controls, hexWidth?, escapeMeaning]

theorem short_of_mem_verbatim : ∀ letter ∈ verbatim,
    hexWidth? letter = none ∧ escapeMeaning letter = ['\\', letter] := by
  simp [verbatim, hexWidth?, escapeMeaning]

theorem short_of_not_mem {c : Char}
    (plain : c ∉ controls.map Prod.fst ++ 'u' :: 'x' :: verbatim) :
    hexWidth? c = none ∧ escapeMeaning c = [c] := by
  simp only [controls, verbatim, List.map_cons, List.map_nil, List.cons_append, List.nil_append,
    List.mem_cons, List.not_mem_nil, or_false, not_or] at plain
  simp [hexWidth?, escapeMeaning, plain]

/-- A backslash and a character are an item if the character asks for no number. -/
theorem Item.ofEscape {quote e : Char} (short : hexWidth? e = none) :
    Item quote ['\\', e] (escapeMeaning e) := by
  by_cases control : e ∈ controls.map Prod.fst
  · obtain ⟨pair, listed, rfl⟩ := List.mem_map.1 control
    rw [(short_of_mem_controls pair listed).2]
    exact .control listed
  by_cases kept : e ∈ Literal.verbatim
  · rw [(short_of_mem_verbatim e kept).2]
    exact .verbatim kept
  have plain : e ∉ controls.map Prod.fst ++ 'u' :: 'x' :: Literal.verbatim := by
    intro member
    rcases List.mem_append.1 member with listed | listed
    · exact control listed
    · rcases List.mem_cons.1 listed with rfl | listed
      · cases short
      · rcases List.mem_cons.1 listed with rfl | listed
        · cases short
        · exact kept listed
  rw [(short_of_not_mem plain).2]
  exact .itself plain

/-- So are a backslash, a letter that asks for a number, and the digits of a character. -/
theorem Item.ofNumbered {quote e ch : Char} {width : Nat} {cs covered rest : List Char}
    (long : hexWidth? e = some width) (read : numbered width cs = ⟨.ok ch, covered, rest⟩) :
    Item quote ('\\' :: e :: covered) [ch] := by
  obtain ⟨-, size, n, number, valid, rfl⟩ := numbered_eq_ok.1 read
  unfold hexWidth? at long
  by_cases u : e = 'u'
  · subst u
    cases long
    refine .unicode size number ?_
    unfold Nat.isValidChar at valid
    omega
  · by_cases x : e = 'x'
    · subst x
      cases long
      exact .byte size number
    · simp [u, x] at long

/-! ## The scanner and its grammar -/

section

variable {quote : Char} (other : '\\' ≠ quote)

include other

theorem textBody_short {e : Char} {meaning : List Char}
    (short : hexWidth? e = none ∧ escapeMeaning e = meaning) (fuel : Nat) (cs : List Char) :
    textBody quote (fuel + 1) ('\\' :: e :: cs) =
      Scan.after ['\\', e] meaning (textBody quote fuel cs) := by
  rw [← short.2]
  exact textBody_escape other short.1 cs

/-- An item is scanned alike whatever follows it. -/
theorem Item.scanned {text meaning : List Char} (item : Item quote text meaning)
    (fuel : Nat) (cs : List Char) :
    textBody quote (fuel + 1) (text ++ cs) = Scan.after text meaning (textBody quote fuel cs) := by
  cases item with
  | plain ahead plain => exact textBody_plain ahead plain cs
  | control listed => exact textBody_short other (short_of_mem_controls _ listed) fuel cs
  | unicode four number character =>
    have valid := number.lt
    rw [four] at valid
    exact textBody_numbered other rfl
      (numbered_eq_ok.2 ⟨rfl, four, _, number, by unfold Nat.isValidChar; omega, rfl⟩)
  | byte two number =>
    have valid := number.lt
    rw [two] at valid
    exact textBody_numbered other rfl
      (numbered_eq_ok.2 ⟨rfl, two, _, number, by unfold Nat.isValidChar; omega, rfl⟩)
  | verbatim listed => exact textBody_short other (short_of_mem_verbatim _ listed) fuel cs
  | itself plain => exact textBody_short other (short_of_not_mem plain) fuel cs

/-- Items are scanned up to the quote after them. -/
theorem Written.scanned {items meaning : List Char} (written : Written quote items meaning)
    {fuel : Nat} (enough : items.length < fuel) (rest : List Char) :
    textBody quote fuel (items ++ quote :: rest) = ⟨.ok meaning, items ++ [quote], rest⟩ := by
  induction written generalizing fuel with
  | nil =>
    obtain ⟨fuel, rfl⟩ : ∃ n, fuel = n + 1 := ⟨fuel - 1, by omega⟩
    exact textBody_close rest
  | @cons text meaning texts meanings first _ ih =>
    obtain ⟨fuel, rfl⟩ : ∃ n, fuel = n + 1 := ⟨fuel - 1, by omega⟩
    have nonempty : 0 < text.length := by
      cases first <;> simp
    have left : texts.length < fuel := by
      rw [List.length_append] at enough
      omega
    rw [List.append_assoc, first.scanned other, ih left]
    simp [Scan.after]

end

/-- What was scanned as the rest of a literal is a sequence of items and a quote. -/
theorem Written.ofScan {fuel : Nat} {cs meaning covered rest : List Char}
    (read : textBody quote fuel cs = ⟨.ok meaning, covered, rest⟩) :
    ∃ items, covered = items ++ [quote] ∧ Written quote items meaning := by
  fun_induction textBody quote fuel cs generalizing covered meaning with
  | case1 | case2 | case5 | case7 => cases read
  | case3 =>
    cases read
    exact ⟨[], rfl, .nil⟩
  | case4 fuel c cs ahead plain ih =>
    obtain ⟨meanings, text, inner, rfl, rfl⟩ := eq_of_after read
    obtain ⟨items, rfl, written⟩ := ih inner
    exact ⟨[c] ++ items, rfl, .cons (.plain ahead plain) written⟩
  | case6 fuel c ahead escape e cs short ih =>
    obtain rfl : c = '\\' := not_not.1 escape
    obtain ⟨meanings, text, inner, rfl, rfl⟩ := eq_of_after read
    obtain ⟨items, rfl, written⟩ := ih inner
    exact ⟨['\\', e] ++ items, rfl, .cons (.ofEscape short) written⟩
  | case8 fuel c ahead escape e cs width long number ch known =>
    rename_i ih
    obtain rfl : c = '\\' := not_not.1 escape
    obtain ⟨meanings, text, inner, rfl, rfl⟩ := eq_of_after read
    obtain ⟨items, rfl, written⟩ := ih inner
    have digits : numbered width cs = ⟨.ok ch, number.covered, number.rest⟩ := by
      rw [← known]
    exact ⟨('\\' :: e :: number.covered) ++ items, by simp, .cons (.ofNumbered long digits) written⟩

/-- An escape with a number that is cut short or is no character. -/
def InvalidEscape : LexicalFault → Prop
  | .hexExpected _ _ | .notACharacter _ => True
  | _ => False

theorem fault_of_numbered {width : Nat} {cs : List Char} {fault : LexicalFault}
    (failed : (numbered width cs).result = .error fault) :
    fault = .unterminated ∨ InvalidEscape fault := by
  cases short : hexFault? width cs with
  | some why =>
    rw [numbered, short] at failed
    cases failed
    unfold hexFault? at short
    dsimp only at short
    split at short
    · cases short
    · split at short <;> cases short
      · exact .inl rfl
      · exact .inr trivial
  | none =>
    obtain ⟨digits, rest, rfl, rfl, all⟩ := exists_digits_of_hexFault? short
    rw [numbered_digits all] at failed
    cases known : charOf? (hexNumber digits) with
    | some c =>
      rw [known] at failed
      cases failed
    | none =>
      rw [known] at failed
      cases failed
      exact .inr trivial

theorem fault_of_after {covered meaning : List Char} {s : Scan (List Char)} {fault : LexicalFault}
    (failed : (Scan.after covered meaning s).result = .error fault) : s.result = .error fault := by
  obtain ⟨result, text, rest⟩ := s
  cases result with
  | error why => exact failed
  | ok m => cases failed

/-- Why a text is not scanned as a literal. -/
theorem fault_of_textBody {quote : Char} {fuel : Nat} {cs : List Char} {fault : LexicalFault}
    (failed : (textBody quote fuel cs).result = .error fault) :
    fault = .unterminated ∨ InvalidEscape fault := by
  fun_induction textBody quote fuel cs with
  | case1 | case2 | case5 =>
    cases failed
    exact .inl rfl
  | case3 => cases failed
  | case4 fuel c cs ahead plain ih => exact ih (fault_of_after failed)
  | case6 fuel c ahead escape e cs short ih => exact ih (fault_of_after failed)
  | case7 fuel c ahead escape e cs width long number why known =>
    cases failed
    exact fault_of_numbered known
  | case8 fuel c ahead escape e cs width long number ch known =>
    rename_i ih
    exact ih (fault_of_after failed)

/-! ## Quoting a text -/

/-- A literal in the given quotes. -/
def inQuotes (quote : Char) (items : List Char) : List Char :=
  quote :: items ++ [quote]

/-- A text with a backslash before every quote and backslash in it. -/
def withBackslashes (quote : Char) (text : List Char) : List Char :=
  text.flatMap fun c => if c = quote ∨ c = '\\' then ['\\', c] else [c]

/-- What is written so means the text. -/
theorem written_withBackslashes {quote : Char} (isQuote : quote = '\"' ∨ quote = '\x27')
    (text : List Char) : Written quote (withBackslashes quote text) text := by
  induction text with
  | nil => exact .nil
  | cons c cs ih =>
    have first : Item quote (if c = quote ∨ c = '\\' then ['\\', c] else [c]) [c] := by
      by_cases special : c = quote ∨ c = '\\'
      · rw [if_pos special]
        refine .itself ?_
        rcases special with rfl | rfl
        · rcases isQuote with rfl | rfl <;> decide
        · decide
      · rw [if_neg special]
        rw [not_or] at special
        exact .plain special.1 special.2
    exact .cons first ih

end Literal

/-! ## Literals in a script -/

/-- Where a significant lexeme stands at the head of a script and opens no directive, the first item
is read from it. -/
theorem Reading.head?_items (languages : Languages) {c : Char} {cs : List Char}
    (significant : (Lexeme.next c cs).1.isSignificant = true)
    (undirected : (Lexeme.next c cs).1.kind ≠ .symbol .lt) :
    (ofSource languages (String.ofList (c :: cs))).items.head? =
      some (Token.ofLexeme languages.standard
        ⟨(Lexeme.next c cs).1, ({} : Cursor).locate (Lexeme.next c cs).1.text⟩) := by
  obtain ⟨later, whole⟩ : ∃ later, Reading.significant (c :: cs) =
      ⟨(Lexeme.next c cs).1, ({} : Cursor).locate (Lexeme.next c cs).1.text⟩ :: later := by
    rw [Reading.significant, Lexeme.all_cons, Lexeme.place, List.filter_cons, if_pos significant]
    exact ⟨_, rfl⟩
  have plain : splitDirective (Reading.significant (c :: cs)) =
      (none, ⟨(Lexeme.next c cs).1, ({} : Cursor).locate (Lexeme.next c cs).1.text⟩ :: later) := by
    rw [whole]
    unfold splitDirective
    split
    · rename_i same
      injection same with first
      injection first with lexeme
      rw [lexeme] at undirected
      exact absurd rfl undirected
    · rfl
  simp only [ofSource, String.toList_ofList, plain]
  rfl

section

variable {quote : Char} (isQuote : quote = '\"' ∨ quote = '\x27')

include isQuote

theorem Lexeme.next_quote (cs : List Char) :
    next quote cs = ofScan .text (Literal.text quote cs) := by
  rcases isQuote with rfl | rfl <;> rfl

theorem Lexeme.next_written {items meaning : List Char}
    (written : Literal.Written quote items meaning) (rest : List Char) :
    next quote (items ++ quote :: rest) =
      (⟨.text (String.ofList meaning), Literal.inQuotes quote items⟩, rest) := by
  have other : '\\' ≠ quote := by
    rcases isQuote with rfl | rfl <;> decide
  have enough : items.length < (items ++ quote :: rest).length := by simp
  rw [next_quote isQuote, Literal.text, written.scanned other enough]
  rfl

/-- What is cut off at a quote. -/
theorem Lexeme.next_quote_cases (cs : List Char) :
    (∃ items meaning rest, cs = items ++ quote :: rest ∧ Literal.Written quote items meaning) ∨
      ∃ fault covered rest, next quote cs = (⟨.faulty fault, covered⟩, rest) ∧
        (fault = .unterminated ∨ Literal.InvalidEscape fault) := by
  rcases scanned : Literal.textBody quote cs.length cs with ⟨fault | meaning, covered, rest⟩
  · have why := Literal.fault_of_textBody (by rw [scanned])
    refine .inr ⟨fault, quote :: covered, rest, ?_, why⟩
    rw [next_quote isQuote, Literal.text, scanned]
    rfl
  · obtain ⟨items, rfl, written⟩ := Literal.Written.ofScan scanned
    have whole := Literal.textBody_covers quote cs.length cs
    rw [scanned, List.append_assoc] at whole
    exact .inl ⟨items, meaning, rest, whole.symm, written⟩

end

/-- Text literals are read exactly by their grammar. A sequence of items in quotes is cut off as one
text lexeme, whatever follows it, that means what its items mean; at the head of a script it is the
first token, covers exactly these characters and stands at their place. Whatever follows a quote, if
a text lexeme is cut off there it consists of items in quotes and means what they mean, and
otherwise the lexeme is faulty because the closing quote is missing or an escape is invalid. Every
text can be written: with backslashes before its quotes and backslashes it means itself. -/
theorem text_literals_exact {quote : Char} (isQuote : quote = '\"' ∨ quote = '\x27') :
    (∀ items meaning, Literal.Written quote items meaning → ∀ rest,
      Lexeme.next quote (items ++ quote :: rest) =
        (⟨.text (String.ofList meaning), Literal.inQuotes quote items⟩, rest) ∧
      ∀ languages, (Reading.ofSource languages
          (String.ofList (quote :: (items ++ quote :: rest)))).items.head? =
        some (.ok ⟨.text (String.ofList meaning), String.ofList (Literal.inQuotes quote items),
          ⟨⟨0, (String.ofList (Literal.inQuotes quote items)).utf8ByteSize⟩, ⟨1, 1⟩⟩⟩)) ∧
    (∀ cs,
      (∃ items meaning rest, cs = items ++ quote :: rest ∧ Literal.Written quote items meaning ∧
        Lexeme.next quote cs =
          (⟨.text (String.ofList meaning), Literal.inQuotes quote items⟩, rest)) ∨
      ∃ fault covered rest, Lexeme.next quote cs = (⟨.faulty fault, covered⟩, rest) ∧
        (fault = .unterminated ∨ Literal.InvalidEscape fault)) ∧
    ∀ w rest, Lexeme.next quote (Literal.withBackslashes quote w.toList ++ quote :: rest) =
      (⟨.text w, Literal.inQuotes quote (Literal.withBackslashes quote w.toList)⟩, rest) := by
  refine ⟨?_, ?_, ?_⟩
  · intro items meaning written rest
    have lexed := Lexeme.next_written isQuote written rest
    refine ⟨lexed, fun languages => ?_⟩
    rw [Reading.head?_items languages (by rw [lexed]; rfl) (by rw [lexed]; simp), lexed]
    have size : String.utf8Len (Literal.inQuotes quote items) =
        (String.ofList (Literal.inQuotes quote items)).utf8ByteSize := by
      rw [← String.utf8Len_toList, String.toList_ofList]
    simp [Token.ofLexeme, Token.kindOf, Cursor.locate, size]
  · intro cs
    rcases Lexeme.next_quote_cases isQuote cs with ⟨items, meaning, rest, rfl, written⟩ | faulty
    · exact .inl ⟨items, meaning, rest, rfl, written, Lexeme.next_written isQuote written rest⟩
    · exact .inr faulty
  · intro w rest
    have written := Literal.written_withBackslashes isQuote w.toList
    rw [Lexeme.next_written isQuote written, String.ofList_toList]

/-- Written in single quotes: a quote, a line feed, a letter by its number, and a bell that stays as
it is. -/
theorem text_literals_exact_single :
    Literal.Written '\x27' "\\'\\n\\x41\\a".toList ['\x27', '\n', 'A', '\\', 'a'] ∧
    Lexeme.next '\x27' "\\'\\n\\x41\\a' + 1".toList =
      (⟨.text "'\nA\\a", "'\\'\\n\\x41\\a'".toList⟩, " + 1".toList) := by
  have feed : Literal.Item '\x27' ['\\', 'n'] ['\n'] := .control (by decide)
  have number : Literal.Hexadecimal ['4', '1'] 65 :=
    ⟨[4, 1], .cons (.inl rfl) (.cons (.inl rfl) .nil), rfl⟩
  have bell : Literal.Item '\x27' ['\\', 'a'] ['\\', 'a'] := .verbatim (by decide)
  have written : Literal.Written '\x27' "\\'\\n\\x41\\a".toList ['\x27', '\n', 'A', '\\', 'a'] :=
    .cons (.itself (by decide)) (.cons feed (.cons (.byte rfl number) (.cons bell .nil)))
  exact ⟨written, ((text_literals_exact (.inr rfl)).1 _ _ written _).1⟩

end Polyglot
