import Polyglot.Proofs.Localisation
import Polyglot.Proofs.OrderedMap
import Polyglot.Proofs.Program.WellFormed

/-!
# What tokens can be written

Which kinds of tokens an English script can have. Every token that is read is of such a kind, or a
stray character; and every sequence of such kinds is read from the script that spells them one
after the other with blanks between them.
-/

namespace Polyglot

/-- Tokens of the kind can be written in English. -/
def TokenKind.Legible : TokenKind → Prop
  | keyword _ | text _ | symbol _ | eol => True
  | name s => IsName s
  | int n => 0 ≤ n
  | float x => IsDecimal x
  | invalid _ | eof => False

/-! ## Words -/

namespace Lexeme

theorem isNamePart_eq (c : Char) : isNamePart c = (c.isAlphanum || c == '_' || c == '$') := by
  simp only [isNamePart, isNameStart, Char.isAlphanum]
  cases c.isAlpha <;> cases c.isDigit <;> simp

/-- Identifiers are the words that are cut off as one. -/
theorem isIdentifier_iff {c : Char} {cs : List Char} :
    isIdentifier (String.ofList (c :: cs)) = true ↔
      isNameStart c = true ∧ ∀ d ∈ cs, isNamePart d = true := by
  simp only [isIdentifier, String.toList_ofList, isNamePart_eq, Bool.and_eq_true, List.all_eq_true]
  rfl

/-- No character of a name is a blank or starts a comment or ends a line. -/
theorem plain_of_isNamePart {c : Char} (part : isNamePart c = true) :
    ¬ isSpace c = true ∧ c ≠ '#' ∧ ¬ isLineEnd c = true := by
  refine ⟨fun space => ?_, ?_, fun lineEnd => ?_⟩
  · rcases (by simpa [isSpace] using space : c = ' ' ∨ c = '\t') with rfl | rfl <;> cases part
  · rintro rfl
    cases part
  · rcases (by simpa [isLineEnd, or_assoc] using lineEnd :
      c = '\n' ∨ c = '\r' ∨ c = '\u2028' ∨ c = '\u2029') with rfl | rfl | rfl | rfl <;>
      cases part

theorem not_isNameStart_of_isDigit {c : Char} (digit : c.isDigit = true) :
    ¬ isNameStart c = true := by
  simp only [Char.isDigit, Bool.and_eq_true, decide_eq_true_eq, UInt32.le_iff_toNat_le, ge_iff_le]
    at digit
  change 48 ≤ c.val.toNat ∧ c.val.toNat ≤ 57 at digit
  have letter : c.isAlpha =
      (decide (65 ≤ c.val ∧ c.val ≤ 90) || decide (97 ≤ c.val) && decide (c.val ≤ 122)) := rfl
  simp only [isNameStart, letter, Bool.or_eq_true, Bool.and_eq_true, decide_eq_true_eq,
    beq_iff_eq, UInt32.le_iff_toNat_le]
  rintro (((upper | lower) | rfl) | rfl)
  · change 65 ≤ c.val.toNat ∧ c.val.toNat ≤ 90 at upper
    omega
  · change 97 ≤ c.val.toNat ∧ c.val.toNat ≤ 122 at lower
    omega
  · exact absurd digit (by decide)
  · exact absurd digit (by decide)

theorem next_word {c : Char} (start : isNameStart c = true) (cs : List Char) :
    next c cs = (⟨.word, c :: cs.takeWhile isNamePart⟩, cs.dropWhile isNamePart) := by
  obtain ⟨space, hash, lineEnd⟩ := plain_of_isNamePart (c := c) (by simp [isNamePart, start])
  rw [next, if_neg space, if_neg hash, if_neg lineEnd, if_pos start]

theorem next_number {c : Char} (digit : c.isDigit = true) (cs : List Char) :
    next c cs = ofScan .number (Literal.number (c :: cs)) := by
  obtain ⟨space, hash, lineEnd⟩ := plain_of_isNamePart (c := c) (by simp [isNamePart, digit])
  rw [next, if_neg space, if_neg hash, if_neg lineEnd, if_neg (not_isNameStart_of_isDigit digit),
    if_pos digit]

end Lexeme

namespace Dictionary

theorem entries_english : english.words.entries = Keyword.all.map fun k => (k.id, k) := by
  decide

/-- Only the names of keywords are keywords in English. -/
theorem lookup_english_eq_none {s : String} :
    english.lookup s = none ↔ ∀ k : Keyword, s ≠ k.id := by
  unfold lookup OrderedMap.get?
  rw [OrderedMap.find?_eq_none, entries_english, List.map_map]
  constructor
  · rintro absent k rfl
    exact absent (List.mem_map.2 ⟨k, k.mem_all, rfl⟩)
  · intro apart listed
    obtain ⟨k, -, same⟩ := List.mem_map.1 listed
    exact apart k same.symm

theorem lookup_english_id (k : Keyword) : english.lookup k.id = some k := by
  cases k <;> decide

end Dictionary

/-! ## Every token read is legible -/

namespace Literal

/-- The values that a number literal can have. -/
def Proper : Number → Prop
  | .int n => 0 ≤ n
  | .float x => IsDecimal x

theorem nonneg_ofNat {n : Nat} (small : n < int64Limit) : (0 : Int64) ≤ Int64.ofNat n := by
  rw [Int64.le_iff_toInt_le, Int64.toInt_ofNat_of_lt (by simpa [int64Limit] using small)]
  exact Int.natCast_nonneg n

theorem nonneg_of_accumulate {radix : Nat} {literal : String} {value : Nat} {ds : List Char}
    {n : Int64} (small : value < int64Limit) (read : accumulate radix literal value ds = .ok n) :
    0 ≤ n := by
  induction ds generalizing value with
  | nil =>
    cases read
    exact nonneg_ofNat small
  | cons c cs ih =>
    rw [accumulate] at read
    split at read
    · cases read
    · split at read
      · cases read
      · rename_i fits
        exact ih (Nat.lt_of_not_le fits) read

theorem proper_of_digits {radix : Nat} {literal : String} {ds : List Char} {n : Number}
    (read : Number.int <$> accumulate radix literal 0 ds = .ok n) : Proper n := by
  cases total : accumulate radix literal 0 ds with
  | error fault =>
    rw [total] at read
    cases read
  | ok m =>
    rw [total] at read
    cases read
    exact nonneg_of_accumulate (by decide) total

theorem proper_of_based {radix : Nat} {zero mark : Char} {cs : List Char} {n : Number}
    (read : (based radix zero mark cs).result = .ok n) : Proper n := by
  unfold based at read
  dsimp only at read
  split at read
  · cases read
  · split at read
    · cases read
    · exact proper_of_digits read

theorem proper_of_decimal {c : Char} {cs : List Char} {n : Number} (digit : c.isDigit = true)
    (read : (decimal (c :: cs)).result = .ok n) : Proper n := by
  unfold decimal at read
  dsimp only at read
  split at read
  · rename_i fraction rest point
    have some : fraction ≠ [] ∧ fraction.all Char.isDigit = true := by
      unfold fraction? at point
      split at point
      · split at point
        · rename_i first
          cases point
          exact ⟨by simp [first], List.all_takeWhile⟩
        · cases point
      · cases point
    cases read
    exact ⟨_, fraction, by simp [digit], some.1, List.all_takeWhile, some.2, rfl⟩
  · exact proper_of_digits read

theorem proper_of_number {c : Char} {cs : List Char} {n : Number} (digit : c.isDigit = true)
    (read : (number (c :: cs)).result = .ok n) : Proper n := by
  unfold number at read
  split at read
  · rename_i same
    cases same
    split at read
    · exact proper_of_based read
    · exact proper_of_decimal digit read
  · exact proper_of_decimal digit read

end Literal

namespace Lexeme

/-- A word is an identifier, and a number one that has a literal. -/
def Proper (l : Lexeme) : Prop :=
  match l.kind with
  | .word => isIdentifier (String.ofList l.text) = true
  | .number n => Literal.Proper n
  | _ => True

theorem proper_next (c : Char) (cs : List Char) : (next c cs).1.Proper := by
  unfold next
  split
  · trivial
  split
  · trivial
  split
  · trivial
  split
  · rename_i start
    exact isIdentifier_iff.2 ⟨start, List.all_eq_true.1 List.all_takeWhile⟩
  split
  · rename_i digit
    unfold ofScan
    split
    · rename_i read
      exact Literal.proper_of_number digit read
    · trivial
  split
  · unfold ofScan
    split <;> trivial
  · unfold symbolOrStray
    split
    · trivial
    · split <;> trivial

theorem proper_of_mem_cut {l : Lexeme} {fuel : Nat} {text : List Char} (member : l ∈ cut fuel text) :
    l.Proper := by
  induction fuel generalizing text with
  | zero => cases member
  | succ fuel ih =>
    cases text with
    | nil => cases member
    | cons c cs =>
      rcases List.mem_cons.1 member with rfl | later
      · exact proper_next c cs
      · exact ih later

theorem map_item_place (k : Cursor) (ls : List Lexeme) : (place k ls).map Located.item = ls := by
  induction ls generalizing k with
  | nil => rfl
  | cons l ls ih => rw [place, List.map_cons, ih]

theorem map_item_filter (placed : List (Located Lexeme)) :
    (placed.filter fun l => l.item.isSignificant).map Located.item =
      (placed.map Located.item).filter isSignificant := by
  rw [List.filter_map]
  rfl

/-- The kind of a proper lexeme is legible, a stray character apart. -/
theorem Proper.legible {l : Lexeme} (proper : l.Proper) {kind : TokenKind}
    (read : Token.kindOf .english l = .ok kind) : kind.Legible ∨ ∃ s, kind = .invalid s := by
  obtain ⟨lexical, text⟩ := l
  cases lexical with
  | word =>
    unfold Token.kindOf at read
    dsimp only at read
    cases found : Dictionary.english.lookup (String.ofList text) with
    | some k =>
      rw [found] at read
      cases read
      exact .inl trivial
    | none =>
      rw [found] at read
      cases read
      exact .inl ⟨proper, Dictionary.lookup_english_eq_none.1 found⟩
  | number n =>
    cases n <;>
    · cases read
      exact .inl proper
  | stray =>
    cases read
    exact .inr ⟨_, rfl⟩
  | faulty => cases read
  | blank | eol | text | symbol =>
    cases read
    exact .inl trivial

end Lexeme

namespace Reading

theorem mem_of_mem_splitDirective {ls : List (Located Lexeme)} {l : Located Lexeme}
    (member : l ∈ (splitDirective ls).2) : l ∈ ls := by
  unfold splitDirective at member
  split at member
  · exact List.mem_cons_of_mem _ (List.mem_cons_of_mem _ (List.mem_cons_of_mem _ member))
  · exact member

/-- Every token is that of a proper lexeme. -/
theorem exists_proper {languages : Languages} {source : String} {tokens : List Token}
    (read : (ofSource languages source).tokens = .ok tokens) {token : Token}
    (member : token ∈ tokens) :
    ∃ l : Lexeme, l.Proper ∧
      Token.kindOf (ofSource languages source).dictionary l = .ok token.kind := by
  have listed : Except.ok token ∈ (ofSource languages source).items := by
    rw [items_of_tokens read]
    exact List.mem_map_of_mem member
  obtain ⟨l, placed, formed⟩ := List.mem_map.1 listed
  have cut : l.item ∈ Lexeme.all source.toList := by
    have significant := (List.mem_filter.1 (mem_of_mem_splitDirective placed)).1
    rw [← Lexeme.map_item_place {} (Lexeme.all source.toList)]
    exact List.mem_map_of_mem significant
  unfold Token.ofLexeme at formed
  split at formed
  · rename_i kind known
    cases formed
    exact ⟨l.item, Lexeme.proper_of_mem_cut cut, known⟩
  · cases formed

/-- Every token of an English script is legible or a stray character. -/
theorem legible {languages : Languages} {source : String} {tokens : List Token}
    (english : (ofSource languages source).dictionary = .english)
    (read : (ofSource languages source).tokens = .ok tokens) :
    ∀ token ∈ tokens, token.kind.Legible ∨ ∃ s, token.kind = .invalid s := by
  intro token member
  obtain ⟨l, proper, known⟩ := exists_proper read member
  rw [english] at known
  exact proper.legible known

end Reading

/-! ## Every legible kind can be written -/

namespace Literal

/-- A run of digits ends at a blank. -/
theorem takeWhile_digits {ds : List Char} (digits : ds.all Char.isDigit = true) {c : Char}
    (stop : c.isDigit = false) (rest : List Char) :
    (ds ++ c :: rest).takeWhile Char.isDigit = ds ∧
      (ds ++ c :: rest).dropWhile Char.isDigit = c :: rest := by
  have all := List.all_eq_true.1 digits
  rw [List.takeWhile_append_of_pos all, List.dropWhile_append_of_pos all]
  simp [stop]

theorem digitValue_of_isDigit {c : Char} (digit : c.isDigit = true) :
    digitValue c = c.toNat - '0'.toNat ∧ digitValue c < 10 := by
  have value : digitValue c = c.toNat - '0'.toNat := if_pos digit
  simp only [Char.isDigit, Bool.and_eq_true, decide_eq_true_eq, UInt32.le_iff_toNat_le, ge_iff_le]
    at digit
  change 48 ≤ c.toNat ∧ c.toNat ≤ 57 at digit
  refine ⟨value, ?_⟩
  rw [value]
  change c.toNat - 48 < 10
  omega

theorem le_ofDigitChars (ds : List Char) (value : Nat) : value ≤ Nat.ofDigitChars 10 ds value := by
  induction ds generalizing value with
  | nil => exact Nat.le_refl value
  | cons c cs ih =>
    have later := ih (10 * value + (c.toNat - '0'.toNat))
    rw [Nat.ofDigitChars] at later ⊢
    rw [List.foldl_cons]
    omega

/-- Decimal digits of a number that is not too large are added up. -/
theorem accumulate_digits {literal : String} {ds : List Char} (digits : ds.all Char.isDigit = true)
    {value : Nat} (small : Nat.ofDigitChars 10 ds value < int64Limit) :
    accumulate 10 literal value ds = .ok (Int64.ofNat (Nat.ofDigitChars 10 ds value)) := by
  induction ds generalizing value with
  | nil => rfl
  | cons c cs ih =>
    obtain ⟨digit, digits⟩ := (by simpa using digits : c.isDigit = true ∧ cs.all Char.isDigit = true)
    obtain ⟨worth, below⟩ := digitValue_of_isDigit digit
    have step : Nat.ofDigitChars 10 (c :: cs) value =
        Nat.ofDigitChars 10 cs (value * 10 + digitValue c) := by
      rw [worth, Nat.mul_comm]
      rfl
    rw [step] at small ⊢
    have fits : ¬ int64Limit ≤ value * 10 + digitValue c := by
      have := le_ofDigitChars cs (value * 10 + digitValue c)
      omega
    rw [accumulate, if_neg (by omega), if_neg fits]
    exact ih digits small

theorem radix?_of_isDigit {c : Char} (digit : c.isDigit = true) : radix? c = none := by
  have apart : ∀ d : Char, d.isDigit = false → (c == d) = false := by
    rintro d other
    refine beq_eq_false_iff_ne.2 ?_
    rintro rfl
    cases digit.symm.trans other
  unfold radix?
  rw [apart 'b' rfl, apart 'B' rfl, apart 'o' rfl, apart 'O' rfl, apart 'x' rfl, apart 'X' rfl]
  rfl

/-- Digits before a character that marks no base are a decimal number. -/
theorem number_eq_decimal {ds : List Char} (some : ds ≠ []) (digits : ds.all Char.isDigit = true)
    {c : Char} (mark : radix? c = none) (rest : List Char) :
    number (ds ++ c :: rest) = decimal (ds ++ c :: rest) := by
  have second : ∀ d e es, ds ++ c :: rest = d :: e :: es → radix? e = none := by
    intro d e es same
    match ds with
    | [] => exact absurd rfl some
    | [_] =>
      cases same
      exact mark
    | _ :: _ :: _ =>
      cases same
      simp only [List.all_cons, Bool.and_eq_true] at digits
      exact radix?_of_isDigit digits.2.1
  unfold number
  split
  · rename_i same
    rw [second _ _ _ same]
  · rfl

/-- A text with its quotes and backslashes marked. -/
def escaped : List Char → List Char
  | [] => []
  | c :: cs => if c = '"' ∨ c = '\\' then '\\' :: c :: escaped cs else c :: escaped cs

theorem textBody_escaped (cs rest : List Char) {fuel : Nat} (enough : (escaped cs).length < fuel) :
    textBody '"' fuel (escaped cs ++ '"' :: rest) = ⟨.ok cs, escaped cs ++ ['"'], rest⟩ := by
  induction cs generalizing fuel with
  | nil =>
    obtain ⟨fuel, rfl⟩ : ∃ n, fuel = n + 1 := ⟨fuel - 1, by omega⟩
    rfl
  | cons c cs ih =>
    obtain ⟨fuel, rfl⟩ : ∃ n, fuel = n + 1 := ⟨fuel - 1, by omega⟩
    by_cases marked : c = '"' ∨ c = '\\'
    · rw [escaped, if_pos marked] at enough ⊢
      have rest := @ih fuel (by simp at enough; omega)
      rcases marked with rfl | rfl <;>
      · show Scan.after _ _ (textBody '"' fuel (escaped cs ++ '"' :: _)) = _
        rw [rest]
        rfl
    · rw [escaped, if_neg marked] at enough ⊢
      obtain ⟨quote, backslash⟩ := not_or.1 marked
      have step : textBody '"' (fuel + 1) (c :: (escaped cs ++ '"' :: rest)) =
          Scan.after [c] [c] (textBody '"' fuel (escaped cs ++ '"' :: rest)) :=
        (if_neg quote).trans (if_pos backslash)
      rw [List.cons_append, step, ih (by simp at enough; omega)]
      rfl

end Literal

namespace Lexeme

/-- The lexeme is cut off every text that begins with it and a blank. -/
structure Separable (l : Lexeme) : Prop where
  significant : l.isSignificant = true
  cut : ∃ c cs, l.text = c :: cs ∧ ∀ rest, next c (cs ++ ' ' :: rest) = (l, ' ' :: rest)

theorem separable_word {s : String} (identifier : isIdentifier s = true) :
    Separable ⟨.word, s.toList⟩ := by
  refine ⟨rfl, ?_⟩
  cases chars : s.toList with
  | nil => simp [isIdentifier, chars] at identifier
  | cons c cs =>
    rw [← String.ofList_toList (s := s), chars] at identifier
    obtain ⟨start, parts⟩ := isIdentifier_iff.1 identifier
    refine ⟨c, cs, rfl, fun rest => ?_⟩
    have blank : isNamePart ' ' = false := rfl
    rw [next_word start, List.takeWhile_append_of_pos parts, List.dropWhile_append_of_pos parts]
    simp [blank]

theorem separable_number {text : List Char} {n : Number}
    (first : ∃ c cs, text = c :: cs ∧ c.isDigit = true)
    (scan : ∀ rest, Literal.number (text ++ ' ' :: rest) = ⟨.ok n, text, ' ' :: rest⟩) :
    Separable ⟨.number n, text⟩ := by
  obtain ⟨c, cs, rfl, digit⟩ := first
  refine ⟨rfl, c, cs, rfl, fun rest => ?_⟩
  rw [next_number digit, ← List.cons_append, scan]
  rfl

/-- The first of some digits. -/
theorem exists_digit {ds : List Char} (some : ds ≠ []) (digits : ds.all Char.isDigit = true)
    (more : List Char) : ∃ c cs, ds ++ more = c :: cs ∧ c.isDigit = true := by
  cases ds with
  | nil => exact absurd rfl some
  | cons c cs => exact ⟨c, cs ++ more, rfl, by simp_all⟩

theorem separable_int {n : Int64} (nonneg : 0 ≤ n) :
    ∃ text, Separable ⟨.number (.int n), text⟩ := by
  have value := Nat.ofDigitChars_toDigits (b := 10) (n := n.toNatClampNeg) (by decide) (by decide)
  have digits : (Nat.toDigits 10 n.toNatClampNeg).all Char.isDigit = true :=
    List.all_eq_true.2 fun _ member => Nat.isDigit_of_mem_toDigits (by decide) (by decide) member
  have some : Nat.toDigits 10 n.toNatClampNeg ≠ [] := Nat.toDigits_ne_nil
  refine ⟨_, separable_number (by simpa using exists_digit some digits []) fun rest => ?_⟩
  obtain ⟨taken, left⟩ := Literal.takeWhile_digits digits rfl rest (c := ' ')
  rw [Literal.number_eq_decimal some digits rfl, Literal.decimal, taken, left]
  show Scan.mk (Number.int <$> Literal.accumulate 10 _ 0 _) _ _ = _
  rw [Literal.accumulate_digits digits (by rw [value]; exact n.toNatClampNeg_lt), value,
    Int64.ofNat_toNatClampNeg n nonneg]
  rfl

theorem separable_float {x : Float} (decimal : IsDecimal x) :
    ∃ text, Separable ⟨.number (.float x), text⟩ := by
  obtain ⟨whole, fraction, some, someMore, digits, moreDigits, rfl⟩ := decimal
  refine ⟨whole ++ '.' :: fraction,
    separable_number (exists_digit some digits _) fun rest => ?_⟩
  obtain ⟨taken, left⟩ :=
    Literal.takeWhile_digits digits rfl (fraction ++ ' ' :: rest) (c := '.')
  have point : Literal.fraction? ('.' :: (fraction ++ ' ' :: rest)) =
      Option.some (fraction, ' ' :: rest) := by
    obtain ⟨takenMore, leftMore⟩ := Literal.takeWhile_digits moreDigits rfl rest (c := ' ')
    obtain ⟨d, ds, same, digit⟩ := exists_digit someMore moreDigits (' ' :: rest)
    rw [same] at takenMore leftMore ⊢
    show (if d.isDigit = true then _ else _) = _
    rw [if_pos digit, takenMore, leftMore]
  rw [List.append_assoc, List.cons_append, Literal.number_eq_decimal some digits rfl,
    Literal.decimal, taken, left, point]

theorem separable_text (s : String) : ∃ text, Separable ⟨.text s, text⟩ := by
  refine ⟨'"' :: (Literal.escaped s.toList ++ ['"']), rfl, '"', _, rfl, fun rest => ?_⟩
  show ofScan .text (Literal.text '"' _) = _
  rw [Literal.text, List.append_assoc, List.singleton_append,
    Literal.textBody_escaped _ _ (by simp)]
  simp [ofScan]

theorem separable_symbol (s : Symbol) : Separable ⟨.symbol s, s.spelling.toList⟩ := by
  refine ⟨rfl, ?_⟩
  cases s <;> exact ⟨_, _, rfl, fun _ => rfl⟩

/-- Every legible kind has a spelling that a blank ends. -/
theorem exists_separable {kind : TokenKind} (legible : kind.Legible) :
    ∃ l : Lexeme, l.Separable ∧ Token.kindOf .english l = .ok kind := by
  cases kind with
  | keyword k =>
    refine ⟨⟨.word, k.id.toList⟩, separable_word (by cases k <;> decide), ?_⟩
    simp [Token.kindOf, Dictionary.lookup_english_id]
  | name s =>
    refine ⟨⟨.word, s.toList⟩, separable_word legible.1, ?_⟩
    simp [Token.kindOf, Dictionary.lookup_english_eq_none.2 legible.2]
  | int n =>
    obtain ⟨text, separable⟩ := separable_int legible
    exact ⟨_, separable, rfl⟩
  | float x =>
    obtain ⟨text, separable⟩ := separable_float legible
    exact ⟨_, separable, rfl⟩
  | text s =>
    obtain ⟨text, separable⟩ := separable_text s
    exact ⟨_, separable, rfl⟩
  | symbol s => exact ⟨_, separable_symbol s, rfl⟩
  | eol => exact ⟨⟨.eol, ['\n']⟩, ⟨rfl, '\n', [], rfl, fun _ => rfl⟩, rfl⟩
  | invalid | eof => exact legible.elim

/-- Lexemes one after the other, each with a blank after it. -/
def spaced (ls : List Lexeme) : List Char :=
  ls.flatMap fun l => l.text ++ [' ']

theorem spaced_cons {l : Lexeme} {ls : List Lexeme} {c : Char} {cs : List Char}
    (text : l.text = c :: cs) : spaced (l :: ls) = c :: (cs ++ ' ' :: spaced ls) := by
  simp [spaced, text]

theorem Separable.not_isSpace {l : Lexeme} {c : Char} {cs rest : List Char} (h : l.Separable)
    (cut : next c cs = (l, rest)) : isSpace c = false := by
  cases space : isSpace c with
  | false => rfl
  | true =>
    rw [next, if_pos space] at cut
    cases cut
    cases h.significant

/-- A blank before separable lexemes is cut off alone. -/
theorem next_blank {ls : List Lexeme} (separable : ∀ l ∈ ls, l.Separable) :
    next ' ' (spaced ls) = (⟨.blank, [' ']⟩, spaced ls) := by
  have stop : (spaced ls).takeWhile isSpace = [] ∧ (spaced ls).dropWhile isSpace = spaced ls := by
    cases ls with
    | nil => exact ⟨rfl, rfl⟩
    | cons l ls =>
      have here := separable l (by simp)
      obtain ⟨c, cs, text, cut⟩ := here.cut
      have apart := here.not_isSpace (cut (spaced ls))
      rw [spaced_cons text]
      simp [apart]
  rw [next, if_pos (by decide : isSpace ' ' = true), stop.1, stop.2]

/-- Separable lexemes are cut apart, with the blanks between them. -/
theorem cut_spaced {ls : List Lexeme} (separable : ∀ l ∈ ls, l.Separable) {fuel : Nat}
    (enough : 2 * ls.length ≤ fuel) :
    cut fuel (spaced ls) = ls.flatMap fun l => [l, ⟨.blank, [' ']⟩] := by
  induction ls generalizing fuel with
  | nil => cases fuel <;> rfl
  | cons l ls ih =>
    obtain ⟨fuel, rfl⟩ : ∃ n, fuel = n + 2 :=
      ⟨fuel - 2, by rw [List.length_cons] at enough; omega⟩
    obtain ⟨c, cs, text, first⟩ := (separable l (by simp)).cut
    have others : ∀ l ∈ ls, l.Separable := fun l member => separable l (by simp [member])
    rw [spaced_cons text, cut, first, cut, next_blank others,
      ih others (by rw [List.length_cons] at enough; omega)]
    rfl

theorem length_spaced {ls : List Lexeme} (separable : ∀ l ∈ ls, l.Separable) :
    2 * ls.length ≤ (spaced ls).length := by
  induction ls with
  | nil => exact Nat.le_refl 0
  | cons l ls ih =>
    obtain ⟨c, cs, text, -⟩ := (separable l (by simp)).cut
    have rest := ih fun l member => separable l (by simp [member])
    rw [spaced_cons text]
    simp only [List.length_cons, List.length_append]
    omega

theorem significant_spaced {ls : List Lexeme} (separable : ∀ l ∈ ls, l.Separable) :
    (Reading.significant (spaced ls)).map Located.item = ls := by
  have pieces := cut_spaced separable (length_spaced separable)
  rw [Reading.significant, map_item_filter, map_item_place, all, pieces]
  clear pieces
  induction ls with
  | nil => rfl
  | cons l ls ih =>
    have here : l.isSignificant = true := (separable l (by simp)).significant
    rw [List.flatMap_cons, List.filter_append, ih fun l member => separable l (by simp [member])]
    rw [List.filter_cons, if_pos here]
    rfl

/-- Legible kinds are those of some separable lexemes. -/
theorem exists_separables {kinds : List TokenKind} (legible : ∀ kind ∈ kinds, kind.Legible) :
    ∃ ls : List Lexeme, (∀ l ∈ ls, l.Separable) ∧
      ls.map (Token.kindOf .english) = kinds.map Except.ok := by
  induction kinds with
  | nil => exact ⟨[], by simp, rfl⟩
  | cons kind kinds ih =>
    obtain ⟨l, separable, known⟩ := exists_separable (legible kind (by simp))
    obtain ⟨ls, separables, knowns⟩ := ih fun kind member => legible kind (by simp [member])
    exact ⟨l :: ls, by simpa using ⟨separable, separables⟩, by simp [known, knowns]⟩

end Lexeme

namespace Reading

theorem tokens_of_items (tokens : List Token) :
    ((tokens.map .ok : List (Except CompileError Token)).mapM fun item => item) = .ok tokens := by
  induction tokens with
  | nil => rfl
  | cons token tokens ih =>
    rw [List.map_cons, List.mapM_cons, ih]
    rfl

/-- Lexemes of known kinds are tokens of these kinds. -/
theorem items_of_kinds {d : Dictionary} {placed : List (Located Lexeme)} {kinds : List TokenKind}
    (known : (placed.map Located.item).map (Token.kindOf d) = kinds.map Except.ok) :
    ∃ tokens : List Token, placed.map (Token.ofLexeme d) = tokens.map Except.ok ∧
      tokens.map Token.kind = kinds := by
  induction placed generalizing kinds with
  | nil =>
    have none : kinds = [] := by simpa using known.symm
    exact ⟨[], rfl, none.symm⟩
  | cons l placed ih =>
    cases kinds with
    | nil => cases known
    | cons kind kinds =>
      obtain ⟨here, later⟩ := List.cons.inj known
      obtain ⟨tokens, formed, kindsOf⟩ := ih later
      refine ⟨⟨kind, String.ofList l.item.text, l.loc⟩ :: tokens, ?_, by simp [kindsOf]⟩
      rw [List.map_cons, List.map_cons, formed, Token.ofLexeme, here]

/-- Lexemes that do not begin with the sign `<` name no dictionary. -/
theorem splitDirective_of_plain {placed : List (Located Lexeme)} {kinds : List TokenKind}
    {d : Dictionary} (known : (placed.map Located.item).map (Token.kindOf d) = kinds.map Except.ok)
    (plain : kinds.head? ≠ some (.symbol .lt)) : splitDirective placed = (none, placed) := by
  unfold splitDirective
  split
  · cases kinds with
    | nil => cases known
    | cons kind kinds =>
      cases (List.cons.inj known).1
      exact absurd rfl plain
  · rfl

/-- Every sequence of legible kinds is read from some script, unless it could be taken for the
naming of another dictionary. -/
theorem exists_source {languages : Languages} (standard : languages.standard = .english)
    {kinds : List TokenKind} (legible : ∀ kind ∈ kinds, kind.Legible)
    (plain : kinds.head? ≠ some (.symbol .lt)) :
    ∃ source tokens, (ofSource languages source).dictionary = .english ∧
      (ofSource languages source).tokens = .ok tokens ∧ tokens.map Token.kind = kinds := by
  obtain ⟨ls, separable, known⟩ := Lexeme.exists_separables legible
  have items := Lexeme.significant_spaced separable
  rw [← items] at known
  have whole := splitDirective_of_plain known plain
  obtain ⟨tokens, formed, kindsOf⟩ := items_of_kinds known
  have chars : (String.ofList (Lexeme.spaced ls)).toList = Lexeme.spaced ls := String.toList_ofList
  have english : (ofSource languages (String.ofList (Lexeme.spaced ls))).dictionary = .english := by
    rw [ofSource, chars, whole]
    exact standard
  refine ⟨_, tokens, english, ?_, kindsOf⟩
  have all : (ofSource languages (String.ofList (Lexeme.spaced ls))).items =
      tokens.map Except.ok := by
    rw [← formed, ← english, ofSource, chars, whole]
  rw [Reading.tokens, all, tokens_of_items]

end Reading

end Polyglot
