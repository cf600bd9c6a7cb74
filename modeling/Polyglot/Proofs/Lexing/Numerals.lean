import Polyglot.Proofs.Lexing.Quoting
import Polyglot.Proofs.Lexing.Tokens

/-!
# The grammar of number literals

A number literal is a run of digits, perhaps after a zero and the mark of a base, and perhaps with
a point and another run of digits after it. Each run is as long as it can be. A literal without a
point means the number that its digits write in its base, exactly, and is rejected if they write
none or one of more than 64 signed bits; a base mark admits no point.
-/

namespace Polyglot

namespace Literal

/-! ## Shapes of number literals -/

/-- The characters that mark a base after a zero, with that base. -/
def marks : List (Char × Nat) :=
  [('b', 2), ('B', 2), ('o', 8), ('O', 8), ('x', 16), ('X', 16)]

/-- The character is taken into a run of digits: to base sixteen any hexadecimal digit, to every
other base any decimal one, whether the base has it or not. -/
def TakenInto (base : Nat) (c : Char) : Prop :=
  ∃ value, HexDigit c value ∧ (base = 16 ∨ value < 10)

/-- The digits are all that can be taken from a text that goes on with `rest`. -/
structure Run (base : Nat) (digits rest : List Char) : Prop where
  all : ∀ c ∈ digits, TakenInto base c
  longest : ∀ c ∈ rest.head?, ¬ TakenInto base c

/-- The text begins with a point and a decimal digit. -/
def PointAhead (text : List Char) : Prop :=
  ∃ d cs, text = '.' :: d :: cs ∧ TakenInto 10 d

/-- The text begins with a zero and the mark of a base. -/
def Marked (text : List Char) : Prop :=
  ∃ mark base rest, text = '0' :: mark :: rest ∧ (mark, base) ∈ marks

/-- What a number literal is made of. -/
inductive Shape
  | whole (base : Nat) (digits : List Char)
  | pointed (base : Nat) (digits fraction : List Char)

/-- The first text is a number literal of the given shape where the second one follows it. -/
inductive Shaped : Shape → List Char → List Char → Prop
  | marked {mark : Char} {base : Nat} {digits rest : List Char} (listed : (mark, base) ∈ marks)
      (run : Run base digits rest) (unpointed : ¬ PointAhead rest) :
      Shaped (.whole base digits) ('0' :: mark :: digits) rest
  | markedPointed {mark : Char} {base : Nat} {digits fraction rest : List Char}
      (listed : (mark, base) ∈ marks) (all : ∀ c ∈ digits, TakenInto base c)
      (nonempty : fraction ≠ []) (run : Run 10 fraction rest) :
      Shaped (.pointed base digits fraction) ('0' :: mark :: digits ++ '.' :: fraction) rest
  | decimal {digits rest : List Char} (nonempty : digits ≠ [])
      (unmarked : ¬ Marked (digits ++ rest)) (run : Run 10 digits rest)
      (unpointed : ¬ PointAhead rest) :
      Shaped (.whole 10 digits) digits rest
  | decimalPointed {digits fraction rest : List Char} (nonempty : digits ≠ [])
      (all : ∀ c ∈ digits, TakenInto 10 c) (some : fraction ≠ []) (run : Run 10 fraction rest) :
      Shaped (.pointed 10 digits fraction) (digits ++ '.' :: fraction) rest

/-! ## What number literals mean -/

/-- The characters are digits of the base and write the number, the first one being worth most. -/
def Numeral (base : Nat) (digits : List Char) (n : Nat) : Prop :=
  ∃ values, List.Forall₂ HexDigit digits values ∧ (∀ v ∈ values, v < base) ∧
    n = Nat.ofDigits base values.reverse

/-- The digits write a number that fits 64 signed bits. -/
def Fits (base : Nat) (digits : List Char) : Prop :=
  digits ≠ [] ∧ ∃ n, Numeral base digits n ∧ n < int64Limit

/-- A fault of a number. -/
def InvalidNumber : LexicalFault → Prop
  | .basedFraction _ _ | .noDigits _ | .invalidDigit _ | .tooLarge _ => True
  | _ => False

/-- What a number literal of a shape is read as. -/
inductive Denotes : Shape → Lexeme.Kind → Prop
  | exact {base n : Nat} {digits : List Char} {v : Int64} (nonempty : digits ≠ [])
      (numeral : Numeral base digits n) (fits : n < int64Limit) (value : v.toInt = n) :
      Denotes (.whole base digits) (.number (.int v))
  | rejected {base : Nat} {digits : List Char} {fault : LexicalFault}
      (unfit : ¬ Fits base digits) (invalid : InvalidNumber fault) :
      Denotes (.whole base digits) (.faulty fault)
  | decimalPointed {digits fraction : List Char} :
      Denotes (.pointed 10 digits fraction)
        (.number (.float (Decimal.ofDigits false digits fraction 0)))
  | markedPointed {base : Nat} {digits fraction : List Char} {fault : LexicalFault}
      (marked : base ∈ marks.map Prod.snd) (invalid : InvalidNumber fault) :
      Denotes (.pointed base digits fraction) (.faulty fault)

/-! ## Digits -/

theorem isDigit_iff {c : Char} : c.isDigit = true ↔ isHexDigit c = true ∧ digitValue c < 10 := by
  constructor
  · intro digit
    exact ⟨by simp [isHexDigit, digit], (digitValue_of_isDigit digit).2⟩
  · rintro ⟨hex, small⟩
    by_contra other
    have letter : 'a' ≤ c ∧ c ≤ 'f' ∨ 'A' ≤ c ∧ c ≤ 'F' := by
      simpa [isHexDigit, other] using hex
    rw [digitValue, if_neg other] at small
    rcases letter with isSmall | isCapital
    · rw [if_pos isSmall] at small
      omega
    · by_cases isSmall : 'a' ≤ c ∧ c ≤ 'f'
      · rw [if_pos isSmall] at small
        omega
      · rw [if_neg isSmall, if_pos isCapital] at small
        omega

theorem takenInto_iff {base : Nat} {c : Char} : TakenInto base c ↔ isDigitOf base c = true := by
  unfold TakenInto isDigitOf
  by_cases sixteen : base = 16
  · rw [if_pos sixteen]
    constructor
    · rintro ⟨value, digit, -⟩
      exact (hexDigit_iff.1 digit).1
    · intro digit
      exact ⟨_, hexDigit_iff.2 ⟨digit, rfl⟩, .inl sixteen⟩
  · rw [if_neg sixteen, isDigit_iff]
    constructor
    · rintro ⟨value, digit, small⟩
      obtain ⟨hex, rfl⟩ := hexDigit_iff.1 digit
      exact ⟨hex, small.resolve_left sixteen⟩
    · rintro ⟨hex, small⟩
      exact ⟨_, hexDigit_iff.2 ⟨hex, rfl⟩, .inr small⟩

theorem takenInto_ten {c : Char} : TakenInto 10 c ↔ c.isDigit = true :=
  takenInto_iff

theorem isHexDigit_of_isDigitOf {base : Nat} {c : Char} (taken : isDigitOf base c = true) :
    isHexDigit c = true := by
  obtain ⟨value, digit, -⟩ := takenInto_iff.2 taken
  exact (hexDigit_iff.1 digit).1

theorem run_iff {base : Nat} {digits rest : List Char} :
    Run base digits rest ↔ (∀ c ∈ digits, isDigitOf base c = true) ∧
      ∀ c ∈ rest.head?, isDigitOf base c = false := by
  constructor
  · intro run
    exact ⟨fun c member => takenInto_iff.1 (run.all c member),
      fun c first => by simpa [takenInto_iff] using run.longest c first⟩
  · rintro ⟨all, stop⟩
    exact ⟨fun c member => takenInto_iff.2 (all c member),
      fun c first => by simpa [takenInto_iff] using stop c first⟩

theorem radix?_eq_some {mark : Char} {base : Nat} :
    radix? mark = some base ↔ (mark, base) ∈ marks := by
  constructor
  · intro known
    unfold radix? at known
    split at known
    · rename_i letter
      cases known
      simpa [marks] using letter
    · split at known
      · rename_i letter
        cases known
        simpa [marks] using letter
      · split at known
        · rename_i letter
          cases known
          simpa [marks] using letter
        · cases known
  · intro listed
    have known : ∀ pair ∈ marks, radix? pair.1 = some pair.2 := by decide
    exact known _ listed

theorem marked_iff {text : List Char} :
    Marked text ↔ ∃ mark rest radix, text = '0' :: mark :: rest ∧ radix? mark = some radix := by
  constructor
  · rintro ⟨mark, base, rest, same, listed⟩
    exact ⟨mark, rest, base, same, radix?_eq_some.2 listed⟩
  · rintro ⟨mark, rest, base, same, known⟩
    exact ⟨mark, base, rest, same, radix?_eq_some.1 known⟩

theorem pointAhead_iff {text : List Char} : PointAhead text ↔ fraction? text ≠ none := by
  constructor
  · rintro ⟨d, cs, rfl, digit⟩
    simp [fraction?, takenInto_ten.1 digit]
  · intro found
    obtain ⟨⟨digits, rest⟩, read⟩ := Option.ne_none_iff_exists'.1 found
    obtain ⟨rfl, nonempty, all, -⟩ := eq_of_fraction? read
    cases digits with
    | nil => exact absurd rfl nonempty
    | cons d ds => exact ⟨d, ds ++ rest, rfl, takenInto_ten.2 (all d List.mem_cons_self)⟩

/-! ## Adding up digits -/

theorem numeral_iff {base n : Nat} {digits : List Char} :
    Numeral base digits n ↔ (∀ c ∈ digits, isHexDigit c = true ∧ digitValue c < base) ∧
      n = digits.foldl (fun n c => n * base + digitValue c) 0 := by
  rw [foldl_digitValue]
  constructor
  · rintro ⟨values, listed, below, rfl⟩
    obtain ⟨all, rfl⟩ := forall₂_hexDigit.1 listed
    exact ⟨fun c member => ⟨all c member, below _ (List.mem_map_of_mem member)⟩, rfl⟩
  · rintro ⟨all, rfl⟩
    refine ⟨_, forall₂_hexDigit.2 ⟨fun c member => (all c member).1, rfl⟩, ?_, rfl⟩
    intro v member
    obtain ⟨c, listed, rfl⟩ := List.mem_map.1 member
    exact (all c listed).2

theorem le_foldl_digitValue {base : Nat} (positive : 0 < base) (digits : List Char) (value : Nat) :
    value ≤ digits.foldl (fun n c => n * base + digitValue c) value := by
  induction digits generalizing value with
  | nil => exact Nat.le_refl value
  | cons c digits ih =>
    calc value ≤ value * base := Nat.le_mul_of_pos_right value positive
      _ ≤ value * base + digitValue c := Nat.le_add_right _ _
      _ ≤ _ := ih _

/-- Digits are added up exactly if all are of the base and the number fits, and are rejected
otherwise. The numbers on the way are no larger than the last one. -/
theorem accumulate_cases {base : Nat} (positive : 0 < base) (literal : String) (digits : List Char)
    {value : Nat} (small : value < int64Limit) :
    ((∀ c ∈ digits, digitValue c < base) ∧
      digits.foldl (fun n c => n * base + digitValue c) value < int64Limit ∧
      accumulate base literal value digits =
        .ok (Int64.ofNat (digits.foldl (fun n c => n * base + digitValue c) value))) ∨
    (¬ ((∀ c ∈ digits, digitValue c < base) ∧
        digits.foldl (fun n c => n * base + digitValue c) value < int64Limit) ∧
      ∃ fault, InvalidNumber fault ∧ accumulate base literal value digits = .error fault) := by
  induction digits generalizing value with
  | nil => exact .inl ⟨nofun, small, rfl⟩
  | cons c digits ih =>
    rw [accumulate, List.foldl_cons]
    by_cases foreign : base ≤ digitValue c
    · refine .inr ⟨fun fits => ?_, .invalidDigit literal, trivial, if_pos foreign⟩
      have below := fits.1 c List.mem_cons_self
      omega
    rw [if_neg foreign]
    by_cases large : int64Limit ≤ value * base + digitValue c
    · refine .inr ⟨fun fits => ?_, .tooLarge literal, trivial, if_pos large⟩
      have onwards := le_foldl_digitValue positive digits (value * base + digitValue c)
      omega
    rw [if_neg large]
    have first : digitValue c < base := Nat.lt_of_not_le foreign
    rcases ih (Nat.lt_of_not_le large) with ⟨all, fits, read⟩ | ⟨unfit, rejected⟩
    · exact .inl ⟨List.forall_mem_cons.2 ⟨first, all⟩, fits, read⟩
    · refine .inr ⟨fun fits => unfit ⟨?_, fits.2⟩, rejected⟩
      exact (List.forall_mem_cons.1 fits.1).2

/-- What digits taken into a literal are read as. -/
theorem denotes_accumulate {base : Nat} (positive : 0 < base) (literal : String)
    {digits : List Char} (nonempty : digits ≠ []) (all : ∀ c ∈ digits, isDigitOf base c = true)
    (covered rest : List Char) :
    ∃ kind, Lexeme.ofScan .number ⟨.int <$> accumulate base literal 0 digits, covered, rest⟩ =
      (⟨kind, covered⟩, rest) ∧ Denotes (.whole base digits) kind := by
  have hex : ∀ c ∈ digits, isHexDigit c = true :=
    fun c member => isHexDigit_of_isDigitOf (all c member)
  have small : 0 < int64Limit := by decide
  rcases accumulate_cases positive literal digits small with
    ⟨below, fits, read⟩ | ⟨unfit, fault, invalid, read⟩
  · rw [read]
    have numeral := numeral_iff.2 ⟨fun c member => ⟨hex c member, below c member⟩, rfl⟩
    have word : _ < 2 ^ 63 := fits
    exact ⟨_, rfl, .exact nonempty numeral fits (Int64.toInt_ofNat_of_lt word)⟩
  · rw [read]
    refine ⟨_, rfl, .rejected ?_ invalid⟩
    rintro ⟨-, n, numeral, fits⟩
    obtain ⟨digit, rfl⟩ := numeral_iff.1 numeral
    exact unfit ⟨fun c member => (digit c member).2, fits⟩

/-! ## Scanning a literal -/

theorem based_unwritten {base : Nat} {zero mark : Char} {rest : List Char}
    (stop : ∀ c ∈ rest.head?, isDigitOf base c = false) (unpointed : fraction? rest = none) :
    based base zero mark rest =
      ⟨.error (.noDigits (String.ofList [zero, mark])), [zero, mark], rest⟩ := by
  have none : ∀ c ∈ ([] : List Char), isDigitOf base c = true := nofun
  obtain ⟨run, left⟩ := takeWhile_run none stop
  rw [List.nil_append] at run left
  simp [based, run, left, unpointed]

theorem based_fraction {base : Nat} (zero mark : Char) {digits fraction rest : List Char}
    (all : ∀ c ∈ digits, isDigitOf base c = true) (nonempty : fraction ≠ [])
    (more : ∀ c ∈ fraction, c.isDigit = true) (stop : ∀ c ∈ rest.head?, c.isDigit = false) :
    ∃ fault, InvalidNumber fault ∧ based base zero mark (digits ++ '.' :: (fraction ++ rest)) =
      ⟨.error fault, zero :: mark :: digits ++ '.' :: fraction, rest⟩ := by
  have point : ∀ c ∈ ('.' :: (fraction ++ rest)).head?, isDigitOf base c = false := by
    rintro c ⟨⟩
    unfold isDigitOf
    split <;> rfl
  obtain ⟨run, left⟩ := takeWhile_run all point
  refine ⟨.basedFraction base (String.ofList (zero :: mark :: digits ++ '.' :: fraction)),
    trivial, ?_⟩
  simp only [based, run, left, fraction?_digits nonempty more stop]

theorem pos_of_mem_marks : ∀ pair ∈ marks, 0 < pair.2 := by
  decide

/-- A number literal is scanned to its end and means what it denotes. -/
theorem Shaped.scanned {shape : Shape} {literal rest : List Char}
    (shaped : Shaped shape literal rest) :
    ∃ kind, Lexeme.ofScan .number (number (literal ++ rest)) = (⟨kind, literal⟩, rest) ∧
      Denotes shape kind := by
  cases shaped with
  | @marked mark base digits _ listed run unpointed =>
    obtain ⟨all, stop⟩ := run_iff.1 run
    have whole := not_not.1 (mt pointAhead_iff.2 unpointed)
    rw [List.cons_append, List.cons_append, number_based (radix?_eq_some.2 listed)]
    by_cases nonempty : digits = []
    · subst nonempty
      rw [List.nil_append, based_unwritten stop whole]
      exact ⟨_, rfl, .rejected (fun fits => fits.1 rfl) trivial⟩
    · rw [based_digits nonempty all stop whole]
      exact denotes_accumulate (pos_of_mem_marks _ listed) _ nonempty all _ _
  | @markedPointed mark base digits fraction _ listed all nonempty run =>
    obtain ⟨more, stop⟩ := run_iff.1 run
    obtain ⟨fault, invalid, read⟩ := based_fraction '0' mark
      (fun c member => takenInto_iff.1 (all c member)) nonempty more stop
    refine ⟨.faulty fault, ?_, .markedPointed (List.mem_map_of_mem listed) invalid⟩
    simp only [List.cons_append, List.append_assoc] at read ⊢
    rw [number_based (radix?_eq_some.2 listed), read]
    rfl
  | decimal nonempty unmarked run unpointed =>
    obtain ⟨all, stop⟩ := run_iff.1 run
    have whole := not_not.1 (mt pointAhead_iff.2 unpointed)
    rw [number_decimal, decimal_whole all stop whole]
    · exact denotes_accumulate (by decide) _ nonempty all _ _
    · intro mark rest same
      refine Option.eq_none_iff_forall_ne_some.2 fun radix known => ?_
      exact unmarked (marked_iff.2 ⟨mark, rest, radix, same, known⟩)
  | decimalPointed nonempty all some run =>
    obtain ⟨more, stop⟩ := run_iff.1 run
    have digits := List.all_eq_true.2 fun c member => takenInto_ten.1 (all c member)
    refine ⟨_, ?_, .decimalPointed⟩
    rw [List.append_assoc, List.cons_append, number_eq_decimal nonempty digits rfl,
      decimal_fraction (fun c member => takenInto_ten.1 (all c member)) some more stop]
    rfl

/-- Every text that begins with a digit begins with a number literal. -/
theorem exists_shaped {c : Char} (digit : c.isDigit = true) (cs : List Char) :
    ∃ shape literal rest, Shaped shape literal rest ∧ literal ++ rest = c :: cs := by
  by_cases marked : Marked (c :: cs)
  · obtain ⟨mark, base, text, same, listed⟩ := marked
    obtain ⟨digits, rest, rfl, -, -, all, stop⟩ := exists_run (isDigitOf base) text
    by_cases point : fraction? rest = none
    · have unpointed : ¬ PointAhead rest := by simpa [pointAhead_iff] using point
      exact ⟨_, _, rest, .marked listed (run_iff.2 ⟨all, stop⟩) unpointed, same.symm⟩
    · obtain ⟨⟨fraction, left⟩, read⟩ := Option.ne_none_iff_exists'.1 point
      obtain ⟨rfl, nonempty, more, ends⟩ := eq_of_fraction? read
      refine ⟨_, _, left, .markedPointed listed (fun c member => takenInto_iff.2 (all c member))
        nonempty (run_iff.2 ⟨more, ends⟩), ?_⟩
      simpa using same.symm
  · obtain ⟨digits, rest, whole, run, -, all, stop⟩ := exists_run Char.isDigit (c :: cs)
    have nonempty : digits ≠ [] := by
      rw [← run]
      simp [digit]
    by_cases point : fraction? rest = none
    · exact ⟨_, digits, rest, .decimal nonempty (whole ▸ marked) (run_iff.2 ⟨all, stop⟩)
        (by simpa [pointAhead_iff] using point), whole.symm⟩
    · obtain ⟨⟨fraction, left⟩, read⟩ := Option.ne_none_iff_exists'.1 point
      obtain ⟨rfl, some, more, ends⟩ := eq_of_fraction? read
      refine ⟨_, _, left, .decimalPointed nonempty (fun c member => takenInto_ten.2 (all c member))
        some (run_iff.2 ⟨more, ends⟩), ?_⟩
      simpa using whole.symm

/-! ## Spellings of a number -/

/-- The text spells the number: to base ten, or after a zero and the mark of another base. -/
inductive Spells (n : Nat) : List Char → Prop
  | marked {mark : Char} {base : Nat} {digits : List Char} (listed : (mark, base) ∈ marks)
      (nonempty : digits ≠ []) (numeral : Numeral base digits n) : Spells n ('0' :: mark :: digits)
  | decimal {digits : List Char} (nonempty : digits ≠ []) (numeral : Numeral 10 digits n) :
      Spells n digits

/-- Every number can be written to every base up to sixteen. -/
theorem exists_numeral {base : Nat} (two : 2 ≤ base) (sixteen : base ≤ 16) (n : Nat) :
    ∃ digits, digits ≠ [] ∧ Numeral base digits n := by
  obtain ⟨values, nonempty, below, worth⟩ : ∃ values : List Nat, values ≠ [] ∧
      (∀ v ∈ values, v < base) ∧ n = Nat.ofDigits base values.reverse := by
    by_cases zero : n = 0
    · exact ⟨[0], by simp, by simp; omega, by simp [zero]⟩
    · refine ⟨(Nat.digits base n).reverse, ?_, ?_, ?_⟩
      · exact List.reverse_ne_nil_iff.2 (Nat.digits_ne_nil_iff_ne_zero.2 zero)
      · exact fun v member => Nat.digits_lt_base two (List.mem_reverse.1 member)
      · rw [List.reverse_reverse, Nat.ofDigits_digits]
  have written : ∀ v < 16, "0123456789abcdef".toList[v]? = some v.digitChar := by decide
  refine ⟨values.map Nat.digitChar, by simpa using nonempty, values, ?_, below, worth⟩
  rw [List.forall₂_map_left_iff, List.forall₂_same]
  exact fun v member => .inl (written v ((below v member).trans_le sixteen))

/-- The digits of a numeral are taken into a literal of its base. -/
theorem Numeral.run {base n : Nat} {digits : List Char} (numeral : Numeral base digits n)
    (known : base = 16 ∨ base ≤ 10) : Run base digits [] := by
  refine ⟨?_, nofun⟩
  intro c member
  obtain ⟨hex, below⟩ := (numeral_iff.1 numeral).1 c member
  exact ⟨_, hexDigit_iff.2 ⟨hex, rfl⟩, known.imp_right fun small => by omega⟩

/-- A spelling of a number is a literal that fits if the number does. -/
theorem Spells.shaped {n : Nat} {text : List Char} (spells : Spells n text) :
    ∃ base digits, Shaped (.whole base digits) text [] ∧ digits ≠ [] ∧ Numeral base digits n ∧
      ∃ c cs, text = c :: cs ∧ c.isDigit = true := by
  have unpointed : ¬ PointAhead [] := by
    rintro ⟨d, cs, same, -⟩
    cases same
  cases spells with
  | @marked mark base digits listed nonempty numeral =>
    have known : ∀ pair ∈ marks, pair.2 = 16 ∨ pair.2 ≤ 10 := by decide
    exact ⟨base, digits, .marked listed (numeral.run (known _ listed)) unpointed, nonempty, numeral,
      '0', mark :: digits, rfl, rfl⟩
  | @decimal digits nonempty numeral =>
    have run := numeral.run (.inr (Nat.le_refl 10))
    have all : ∀ c ∈ text, c.isDigit = true := fun c member => takenInto_ten.1 (run.all c member)
    have unmarked : ¬ Marked (text ++ []) := by
      intro marked
      obtain ⟨mark, rest, radix, same, known⟩ := marked_iff.1 marked
      rw [List.append_nil] at same
      have digit : mark.isDigit = true := all mark (by simp [same])
      rw [radix?_of_isDigit digit] at known
      cases known
    obtain ⟨c, cs, rfl⟩ := List.exists_cons_of_ne_nil nonempty
    exact ⟨10, _, .decimal nonempty unmarked run unpointed, nonempty, numeral, c, cs, rfl,
      all c List.mem_cons_self⟩

end Literal

/-- A scanned literal is the lexeme at the head of a text that begins with its first digit. -/
theorem Lexeme.next_shaped {c : Char} {cs literal rest : List Char} {shape : Literal.Shape}
    (digit : c.isDigit = true) (shaped : Literal.Shaped shape literal rest)
    (whole : literal ++ rest = c :: cs) :
    ∃ kind, next c cs = (⟨kind, literal⟩, rest) ∧ Literal.Denotes shape kind := by
  rw [next_number digit, ← whole]
  exact shaped.scanned

/-- A spelling of a number that fits is one lexeme, which means the number. -/
theorem Lexeme.all_spelling {n : Nat} {text : List Char} (fits : n < int64Limit)
    (spells : Literal.Spells n text) :
    ∃ v : Int64, v.toInt = n ∧ all text = [⟨.number (.int v), text⟩] := by
  obtain ⟨base, digits, shaped, nonempty, numeral, c, cs, rfl, digit⟩ := spells.shaped
  obtain ⟨kind, read, denotes⟩ := next_shaped digit shaped (List.append_nil _)
  cases denotes with
  | exact some numeral' fits' value =>
    obtain ⟨-, rfl⟩ := Literal.numeral_iff.1 numeral
    obtain ⟨-, rfl⟩ := Literal.numeral_iff.1 numeral'
    refine ⟨_, value, ?_⟩
    rw [all_cons, read, all_nil]
  | rejected unfit => exact absurd ⟨nonempty, n, numeral, fits⟩ unfit

/-- Number literals are read exactly. At every digit one literal begins, which is cut off as one
lexeme and means what its digits write. -/
theorem number_literals_exact :
    (∀ c cs, c.isDigit = true →
      (∃ shape literal rest, Literal.Shaped shape literal rest ∧ literal ++ rest = c :: cs) ∧
      ∀ shape literal rest, Literal.Shaped shape literal rest → literal ++ rest = c :: cs →
        ∃ kind, Lexeme.next c cs = (⟨kind, literal⟩, rest) ∧ Literal.Denotes shape kind) ∧
    (∀ n text, n < int64Limit → Literal.Spells n text → ∀ languages, ∃ v : Int64, v.toInt = n ∧
      (Reading.ofSource languages (String.ofList text)).tokens =
        .ok [⟨.int v, String.ofList text,
          ⟨⟨0, (String.ofList text).utf8ByteSize⟩, ⟨1, 1⟩⟩⟩]) ∧
    ∀ n base, base ∈ [2, 8, 10, 16] → ∃ digits, digits ≠ [] ∧ Literal.Numeral base digits n := by
  refine ⟨?_, ?_, ?_⟩
  · intro c cs digit
    exact ⟨Literal.exists_shaped digit cs, fun _ _ _ => Lexeme.next_shaped digit⟩
  · intro n text fits spells languages
    obtain ⟨v, value, only⟩ := Lexeme.all_spelling fits spells
    rw [← String.toList_ofList (l := text)] at only
    have items := Reading.items_of_single languages only rfl
    have size : String.utf8Len text = (String.ofList text).utf8ByteSize := by
      rw [← String.utf8Len_toList, String.toList_ofList]
    refine ⟨v, value, ?_⟩
    rw [Reading.tokens, items]
    simp [Token.ofLexeme, Token.kindOf, Cursor.locate, size]
  · intro n base listed
    have known : ∀ base ∈ [2, 8, 10, 16], 2 ≤ base ∧ base ≤ 16 := by decide
    exact Literal.exists_numeral (known base listed).1 (known base listed).2 n

/-- A fraction after a base mark is rejected as a whole, and the largest number of 64 signed bits is
read from its capital digits. -/
theorem number_literals_exact_hexadecimal :
    (Literal.Shaped (.pointed 16 ['1'] ['5']) "0x1.5".toList " + 2".toList ∧
      ∃ fault, Lexeme.next '0' "x1.5 + 2".toList =
        (⟨.faulty fault, "0x1.5".toList⟩, " + 2".toList)) ∧
    Literal.Spells 9223372036854775807 "0X7FFFFFFFFFFFFFFF".toList ∧
      ∃ v : Int64, v.toInt = 9223372036854775807 ∧
        (Reading.ofSource .builtin (String.ofList "0X7FFFFFFFFFFFFFFF".toList)).tokens =
          .ok [⟨.int v, "0X7FFFFFFFFFFFFFFF", ⟨⟨0, 18⟩, ⟨1, 1⟩⟩⟩] := by
  have taken : Literal.TakenInto 16 '1' := Literal.takenInto_iff.2 rfl
  have pointed : Literal.Shaped (.pointed 16 ['1'] ['5']) "0x1.5".toList " + 2".toList :=
    @Literal.Shaped.markedPointed 'x' 16 ['1'] ['5'] _ (by decide) (by simpa using taken)
      (by simp) (Literal.run_iff.2 ⟨by simp; rfl, by simp; rfl⟩)
  have spells : Literal.Spells 9223372036854775807 "0X7FFFFFFFFFFFFFFF".toList :=
    @Literal.Spells.marked _ 'X' 16 _ (by decide) (by simp)
      (Literal.numeral_iff.2 ⟨by simp; decide, by decide⟩)
  refine ⟨⟨pointed, ?_⟩, spells, ?_⟩
  · obtain ⟨kind, read, denotes⟩ :=
      (number_literals_exact.1 '0' "x1.5 + 2".toList rfl).2 _ _ _ pointed (by decide)
    cases denotes with
    | markedPointed => exact ⟨_, read⟩
  · exact number_literals_exact.2.1 _ _ (by decide) spells .builtin

/-- A literal with a base mark can cover more than its digits: a point and a fraction, with which it
is rejected. -/
theorem marked_literal_overruns :
    ('x', 16) ∈ Literal.marks ∧ Literal.Run 16 ['1'] ".5".toList ∧
      (Lexeme.next '0' "x1.5".toList).1.text ≠ "0x1".toList :=
  ⟨by decide, Literal.run_iff.2 ⟨by simp; rfl, by simp; rfl⟩, by decide⟩

end Polyglot
