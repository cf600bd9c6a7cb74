import Polyglot.Proofs.Parsing.Spelling

/-!
# How far a literal reaches

A scanned literal and what follows it make up the text that was given. Where a number ends is
decided by at most two characters after it, and the end of a line continues none; a text literal
ends at its own closing quote. So a literal is scanned again alike from every text that begins with
it and goes on like the first one, or is at the end of a line.
-/

namespace Polyglot

/-! ## Ends of lines -/

theorem isLineEnd_iff {c : Char} :
    isLineEnd c = true ↔ c = '\n' ∨ c = '\r' ∨ c = '\u2028' ∨ c = '\u2029' := by
  simp [isLineEnd, or_assoc]

/-- What holds of the characters that end a line holds of each that does. -/
theorem of_isLineEnd {P : Char → Prop} (feed : P '\n') (back : P '\r') (line : P '\u2028')
    (paragraph : P '\u2029') {c : Char} (ends : isLineEnd c = true) : P c := by
  rcases isLineEnd_iff.1 ends with rfl | rfl | rfl | rfl
  · exact feed
  · exact back
  · exact line
  · exact paragraph

/-- The text is at its end or at the end of a line. -/
def AtLineEnd (rest : List Char) : Prop :=
  ∀ c ∈ rest.head?, isLineEnd c = true

@[simp] theorem atLineEnd_nil : AtLineEnd [] := by
  simp [AtLineEnd]

@[simp] theorem atLineEnd_cons {c : Char} {cs : List Char} :
    AtLineEnd (c :: cs) ↔ isLineEnd c = true := by
  simp [AtLineEnd]

/-- The second text goes on with the same two characters as the first one, or with one of them and
the end of a line, or is at the end of a line at once. -/
def GoesOnLike (rest rest' : List Char) : Prop :=
  AtLineEnd rest' ∨
    ∃ c cs cs', rest = c :: cs ∧ rest' = c :: cs' ∧ (AtLineEnd cs' ∨ cs'.head? = cs.head?)

/-! ## Runs of characters -/

/-- A run of characters ends where the first other one stands. -/
theorem takeWhile_run {p : Char → Bool} {run rest : List Char} (all : ∀ c ∈ run, p c = true)
    (stop : ∀ c ∈ rest.head?, p c = false) :
    (run ++ rest).takeWhile p = run ∧ (run ++ rest).dropWhile p = rest := by
  rw [List.takeWhile_append_of_pos all, List.dropWhile_append_of_pos all]
  cases rest with
  | nil => simp
  | cons c rest =>
    have other : p c = false := stop c rfl
    simp [other]

theorem head?_dropWhile {p : Char → Bool} {text : List Char} :
    ∀ c ∈ (text.dropWhile p).head?, p c = false := by
  intro c first
  have ends := List.head?_dropWhile_not p text
  rw [Option.mem_def.1 first] at ends
  exact ends

theorem mem_takeWhile {p : Char → Bool} {text : List Char} : ∀ c ∈ text.takeWhile p, p c = true :=
  List.all_eq_true.1 List.all_takeWhile

/-- A run that stops before a text stops before one that goes on like it, if it stops at the ends
of lines. -/
theorem GoesOnLike.stop {p : Char → Bool} {rest rest' : List Char} (ahead : GoesOnLike rest rest')
    (ends : ∀ c, isLineEnd c = true → p c = false) (stop : ∀ c ∈ rest.head?, p c = false) :
    ∀ c ∈ rest'.head?, p c = false := by
  intro c first
  rcases ahead with atEnd | ⟨d, cs, cs', rfl, rfl, -⟩
  · exact ends c (atEnd c first)
  · exact stop c first

namespace Literal

theorem isDigit_of_isLineEnd {c : Char} (ends : isLineEnd c = true) : c.isDigit = false :=
  of_isLineEnd (P := fun c => c.isDigit = false) rfl rfl rfl rfl ends

theorem isDigitOf_of_isLineEnd (radix : Nat) {c : Char} (ends : isLineEnd c = true) :
    isDigitOf radix c = false := by
  unfold isDigitOf
  split
  · exact of_isLineEnd (P := fun c => isHexDigit c = false) rfl rfl rfl rfl ends
  · exact isDigit_of_isLineEnd ends

theorem radix?_of_isLineEnd {c : Char} (ends : isLineEnd c = true) : radix? c = none :=
  of_isLineEnd (P := fun c => radix? c = none) rfl rfl rfl rfl ends

/-! ## Fractions -/

theorem eq_of_fraction? {text digits rest : List Char} (read : fraction? text = some (digits, rest)) :
    text = '.' :: (digits ++ rest) ∧ digits ≠ [] ∧ (∀ c ∈ digits, c.isDigit = true) ∧
      ∀ c ∈ rest.head?, c.isDigit = false := by
  unfold fraction? at read
  split at read
  · rename_i d cs
    split at read
    · rename_i digit
      cases read
      refine ⟨?_, by simp [digit], mem_takeWhile, head?_dropWhile⟩
      rw [List.takeWhile_append_dropWhile]
    · cases read
  · cases read

theorem fraction?_digits {digits rest : List Char} (nonempty : digits ≠ [])
    (all : ∀ c ∈ digits, c.isDigit = true) (stop : ∀ c ∈ rest.head?, c.isDigit = false) :
    fraction? ('.' :: (digits ++ rest)) = some (digits, rest) := by
  cases digits with
  | nil => exact absurd rfl nonempty
  | cons d ds =>
    have digit : d.isDigit = true := all d (by simp)
    obtain ⟨run, left⟩ := takeWhile_run all stop
    rw [List.cons_append] at run left ⊢
    simp only [fraction?, digit, if_true, run, left]

theorem fraction?_goesOn {rest rest' : List Char} (ahead : GoesOnLike rest rest')
    (none : fraction? rest = none) : fraction? rest' = .none := by
  cases read : fraction? rest' with
  | none => rfl
  | some result =>
    obtain ⟨digits, more⟩ := result
    obtain ⟨rfl, nonempty, all, -⟩ := eq_of_fraction? read
    cases digits with
    | nil => exact absurd rfl nonempty
    | cons d ds =>
      have digit : d.isDigit = true := all d (by simp)
      rcases ahead with atEnd | ⟨c, cs, cs', rfl, same, later⟩
      · have point : isLineEnd '.' = true := atEnd '.' rfl
        cases point
      · cases same
        rcases later with atEnd | same
        · have ends : isLineEnd d = true := atEnd d rfl
          rw [isDigit_of_isLineEnd ends] at digit
          cases digit
        · cases cs with
          | nil => cases same
          | cons e es =>
            cases same
            simp [fraction?, digit] at none

/-! ## Numbers -/

/-- A run of characters with a fraction after it, or none. -/
theorem exists_run (p : Char → Bool) (text : List Char) :
    ∃ run rest, text = run ++ rest ∧ text.takeWhile p = run ∧ text.dropWhile p = rest ∧
      (∀ c ∈ run, p c = true) ∧ (∀ c ∈ rest.head?, p c = false) :=
  ⟨_, _, List.takeWhile_append_dropWhile.symm, rfl, rfl, mem_takeWhile, head?_dropWhile⟩

theorem decimal_whole {digits rest : List Char} (all : ∀ c ∈ digits, c.isDigit = true)
    (stop : ∀ c ∈ rest.head?, c.isDigit = false) (whole : fraction? rest = none) :
    decimal (digits ++ rest) =
      ⟨.int <$> accumulate 10 (String.ofList digits) 0 digits, digits, rest⟩ := by
  obtain ⟨run, left⟩ := takeWhile_run all stop
  simp only [decimal, run, left, whole]

theorem decimal_fraction {digits fraction rest : List Char}
    (all : ∀ c ∈ digits, c.isDigit = true) (nonempty : fraction ≠ [])
    (more : ∀ c ∈ fraction, c.isDigit = true) (stop : ∀ c ∈ rest.head?, c.isDigit = false) :
    decimal (digits ++ '.' :: (fraction ++ rest)) =
      ⟨.ok (.float (Decimal.ofDigits false digits fraction 0)), digits ++ '.' :: fraction, rest⟩ := by
  have point : ∀ c ∈ ('.' :: (fraction ++ rest)).head?, c.isDigit = false := by
    rintro c ⟨⟩
    rfl
  obtain ⟨run, left⟩ := takeWhile_run all point
  simp only [decimal, run, left, fraction?_digits nonempty more stop]

theorem based_digits {radix : Nat} {zero mark : Char} {digits rest : List Char}
    (nonempty : digits ≠ []) (all : ∀ c ∈ digits, isDigitOf radix c = true)
    (stop : ∀ c ∈ rest.head?, isDigitOf radix c = false) (whole : fraction? rest = none) :
    based radix zero mark (digits ++ rest) =
      ⟨.int <$> accumulate radix (String.ofList (zero :: mark :: digits)) 0 digits,
        zero :: mark :: digits, rest⟩ := by
  obtain ⟨run, left⟩ := takeWhile_run all stop
  simp [based, run, left, whole, nonempty]

theorem decimal_covers (text : List Char) : (decimal text).covered ++ (decimal text).rest = text := by
  obtain ⟨digits, rest, rfl, -, -, all, stop⟩ := exists_run Char.isDigit text
  cases point : fraction? rest with
  | none => rw [decimal_whole all stop point]
  | some result =>
    obtain ⟨fraction, rest⟩ := result
    obtain ⟨rfl, nonempty, more, ends⟩ := eq_of_fraction? point
    rw [decimal_fraction all nonempty more ends]
    simp

theorem based_covers (radix : Nat) (zero mark : Char) (text : List Char) :
    (based radix zero mark text).covered ++ (based radix zero mark text).rest =
      zero :: mark :: text := by
  have split := List.takeWhile_append_dropWhile (p := isDigitOf radix) (l := text)
  unfold based
  dsimp only
  split
  · rename_i fraction rest point
    have tail := (eq_of_fraction? point).1
    rw [tail] at split
    simpa using split
  · split <;> simp

/-- A text with a base mark after a zero. -/
theorem number_based {mark : Char} {radix : Nat} (marked : radix? mark = some radix)
    (text : List Char) : number ('0' :: mark :: text) = based radix '0' mark text := by
  simp only [number, marked]

/-- Any other text begins with a decimal number. -/
theorem number_decimal {text : List Char}
    (plain : ∀ mark rest, text = '0' :: mark :: rest → radix? mark = none) :
    number text = decimal text := by
  unfold number
  split
  · rename_i mark rest
    rw [plain mark rest rfl]
  · rfl

theorem number_cases (text : List Char) :
    (∃ mark rest radix, text = '0' :: mark :: rest ∧ radix? mark = some radix) ∨
      ∀ mark rest, text = '0' :: mark :: rest → radix? mark = none := by
  by_cases marked : ∃ mark rest radix, text = '0' :: mark :: rest ∧ radix? mark = some radix
  · exact .inl marked
  · refine .inr ?_
    intro mark rest same
    cases found : radix? mark with
    | none => rfl
    | some radix => exact absurd ⟨mark, rest, radix, same, found⟩ marked

theorem number_covers (text : List Char) : (number text).covered ++ (number text).rest = text := by
  rcases number_cases text with ⟨mark, rest, radix, rfl, marked⟩ | plain
  · rw [number_based marked]
    exact based_covers radix '0' mark rest
  · rw [number_decimal plain]
    exact decimal_covers text

/-- A number covers its first digit. -/
theorem number_nonempty {c : Char} (digit : c.isDigit = true) (cs : List Char) :
    (number (c :: cs)).covered ≠ [] := by
  rcases number_cases (c :: cs) with ⟨mark, rest, radix, same, marked⟩ | plain
  · rw [same, number_based marked]
    unfold based
    dsimp only
    split
    · simp
    · split <;> simp
  · rw [number_decimal plain]
    unfold decimal
    dsimp only
    split <;> simp [digit]

theorem decimal_goesOn {text rest rest' : List Char} {n : Number}
    (read : decimal (text ++ rest) = ⟨.ok n, text, rest⟩) (ahead : GoesOnLike rest rest') :
    decimal (text ++ rest') = ⟨.ok n, text, rest'⟩ := by
  obtain ⟨digits, left, cut, -, -, all, stop⟩ := exists_run Char.isDigit (text ++ rest)
  rw [cut] at read
  cases point : fraction? left with
  | none =>
    rw [decimal_whole all stop point] at read
    injection read with value covered same
    subst covered same
    rw [decimal_whole all (ahead.stop (fun _ => isDigit_of_isLineEnd) stop)
      (fraction?_goesOn ahead point), value]
  | some result =>
    obtain ⟨fraction, later⟩ := result
    obtain ⟨rfl, nonempty, more, ends⟩ := eq_of_fraction? point
    rw [decimal_fraction all nonempty more ends] at read
    injection read with value covered same
    subst covered same
    have again := decimal_fraction all nonempty more
      (ahead.stop (fun _ => isDigit_of_isLineEnd) ends)
    rw [value] at again
    simpa using again

theorem based_goesOn {radix : Nat} {zero mark : Char} {text more rest rest' : List Char}
    {n : Number} (read : based radix zero mark more = ⟨.ok n, text, rest⟩)
    (ahead : GoesOnLike rest rest') :
    ∃ digits, text = zero :: mark :: digits ∧
      based radix zero mark (digits ++ rest') = ⟨.ok n, text, rest'⟩ := by
  obtain ⟨digits, left, rfl, run, dropped, all, stop⟩ := exists_run (isDigitOf radix) more
  cases point : fraction? left with
  | some result => simp [based, run, dropped, point] at read
  | none =>
    by_cases nonempty : digits = []
    · simp only [based, run, dropped, point] at read
      rw [if_pos (List.isEmpty_iff.2 nonempty)] at read
      cases read
    · rw [based_digits nonempty all stop point] at read
      injection read with value covered same
      subst covered same
      refine ⟨digits, rfl, ?_⟩
      rw [based_digits nonempty all (ahead.stop (fun _ => isDigitOf_of_isLineEnd radix) stop)
        (fraction?_goesOn ahead point), value]

/-- A number is read again alike if the text goes on alike after it. -/
theorem number_goesOn {text rest rest' : List Char} {n : Number} (nonempty : text ≠ [])
    (read : number (text ++ rest) = ⟨.ok n, text, rest⟩) (ahead : GoesOnLike rest rest') :
    number (text ++ rest') = ⟨.ok n, text, rest'⟩ := by
  rcases number_cases (text ++ rest) with ⟨mark, more, radix, same, marked⟩ | plain
  · rw [same, number_based marked] at read
    obtain ⟨digits, rfl, again⟩ := based_goesOn read ahead
    rw [← again]
    exact number_based marked (digits ++ rest')
  · -- A mark after the zero that the first text does not have would be the end of a line.
    have plain' : ∀ mark more, text ++ rest' = '0' :: mark :: more → radix? mark = none := by
      intro mark more same
      match text with
      | [] => exact absurd rfl nonempty
      | [c] =>
        cases same
        rcases ahead with atEnd | ⟨c, cs, cs', rfl, head, -⟩
        · exact radix?_of_isLineEnd (atEnd mark rfl)
        · cases head
          exact plain _ _ rfl
      | c :: d :: ds =>
        cases same
        exact plain mark (ds ++ rest) rfl
    rw [number_decimal plain] at read
    rw [number_decimal plain', decimal_goesOn read ahead]

/-! ## Text -/

theorem numbered_covers (width : Nat) (text : List Char) :
    (numbered width text).covered ++ (numbered width text).rest = text := by
  unfold numbered
  split <;> exact List.take_append_drop _ _

theorem hexFault?_eq_none {width : Nat} {text : List Char} :
    hexFault? width text = none ↔ width ≤ (text.takeWhile isHexDigit).length := by
  unfold hexFault?
  dsimp only
  split
  · simp_all
  · split <;> simp_all

/-- A numbered escape is read alike whatever follows it. -/
theorem numbered_again {width : Nat} {text covered rest : List Char} {ch : Char}
    (read : numbered width text = ⟨.ok ch, covered, rest⟩) (rest' : List Char) :
    numbered width (covered ++ rest') = ⟨.ok ch, covered, rest'⟩ := by
  unfold numbered at read
  split at read
  · cases read
  · rename_i enough
    rw [hexFault?_eq_none] at enough
    have split : text.takeWhile isHexDigit ++ text.dropWhile isHexDigit = text :=
      List.takeWhile_append_dropWhile
    have digits : text.take width = (text.takeWhile isHexDigit).take width := by
      nth_rewrite 1 [← split]
      exact List.take_append_of_le_length enough
    have all : ∀ c ∈ text.take width, isHexDigit c = true := by
      intro c member
      rw [digits] at member
      exact mem_takeWhile c (List.mem_of_mem_take member)
    have size : (text.take width).length = width := by
      rw [digits, List.length_take]
      omega
    injection read with value same left
    rw [← same]
    have enough' : hexFault? width (text.take width ++ rest') = none := by
      rw [hexFault?_eq_none, List.takeWhile_append_of_pos all, List.length_append]
      omega
    have taken : (text.take width ++ rest').take width = text.take width := by
      rw [List.take_append_of_le_length (by omega), List.take_of_length_le (by omega)]
    have dropped : (text.take width ++ rest').drop width = rest' := by
      rw [List.drop_append_of_le_length (by omega), List.drop_of_length_le (by omega)]
      rfl
    simp only [numbered, enough', taken, dropped]
    rw [value]

theorem textBody_covers (delim : Char) (fuel : Nat) (text : List Char) :
    (textBody delim fuel text).covered ++ (textBody delim fuel text).rest = text := by
  fun_induction textBody delim fuel text with
  | case1 | case2 | case3 | case5 => rfl
  | case4 fuel c cs _ _ ih => simpa [Scan.after] using ih
  | case6 fuel c _ _ e cs _ ih => simpa [Scan.after] using ih
  | case7 fuel c _ _ e cs width _ escape _ _ =>
    have rest := numbered_covers width cs
    simpa using rest
  | case8 fuel c _ _ e cs width _ escape ch _ ih =>
    have rest := numbered_covers width cs
    simp only [Scan.after, List.cons_append, List.append_assoc]
    rw [ih, rest]

section

variable {delim c e : Char} {fuel : Nat}

theorem textBody_close (cs : List Char) :
    textBody delim (fuel + 1) (delim :: cs) = ⟨.ok [], [delim], cs⟩ :=
  if_pos rfl

theorem textBody_plain (other : c ≠ delim) (plain : c ≠ '\\') (cs : List Char) :
    textBody delim (fuel + 1) (c :: cs) = Scan.after [c] [c] (textBody delim fuel cs) := by
  rw [textBody.eq_def]
  simp only [if_neg other, if_pos plain]

theorem textBody_escape (other : '\\' ≠ delim) (short : hexWidth? e = none) (cs : List Char) :
    textBody delim (fuel + 1) ('\\' :: e :: cs) =
      Scan.after ['\\', e] (escapeMeaning e) (textBody delim fuel cs) := by
  rw [textBody, if_neg other, if_neg (not_not_intro rfl)]
  simp only [short]

theorem textBody_numbered (other : '\\' ≠ delim) {width : Nat} (long : hexWidth? e = some width)
    {cs covered rest : List Char} {ch : Char} (read : numbered width cs = ⟨.ok ch, covered, rest⟩) :
    textBody delim (fuel + 1) ('\\' :: e :: cs) =
      Scan.after ('\\' :: e :: covered) [ch] (textBody delim fuel rest) := by
  rw [textBody, if_neg other, if_neg (not_not_intro rfl)]
  simp only [long, read]

end

/-- What stands in front of a text that was scanned is part of what is covered and meant. -/
theorem eq_of_after {covered meaning text rest m : List Char} {s : Scan (List Char)}
    (read : Scan.after covered meaning s = ⟨.ok m, text, rest⟩) :
    ∃ m' text', s = ⟨.ok m', text', rest⟩ ∧ m = meaning ++ m' ∧ text = covered ++ text' := by
  obtain ⟨result, text', rest'⟩ := s
  cases result with
  | error fault => cases read
  | ok m' =>
    cases read
    exact ⟨m', text', rfl, rfl, rfl⟩

/-- A text literal is read alike whatever follows it. -/
theorem textBody_again {delim : Char} {fuel : Nat} {text covered rest m : List Char}
    (read : textBody delim fuel text = ⟨.ok m, covered, rest⟩) {fuel' : Nat}
    (enough : covered.length ≤ fuel') (rest' : List Char) :
    textBody delim fuel' (covered ++ rest') = ⟨.ok m, covered, rest'⟩ := by
  fun_induction textBody delim fuel text generalizing covered m fuel' with
  | case1 | case2 | case5 | case7 => cases read
  | case3 fuel cs =>
    cases read
    obtain ⟨fuel', rfl⟩ : ∃ n, fuel' = n + 1 := ⟨fuel' - 1, by simp at enough; omega⟩
    exact textBody_close rest'
  | case4 fuel c cs other plain ih =>
    obtain ⟨m', covered', inner, rfl, rfl⟩ := eq_of_after read
    obtain ⟨fuel', rfl⟩ : ∃ n, fuel' = n + 1 := ⟨fuel' - 1, by simp at enough; omega⟩
    have fits : covered'.length ≤ fuel' := by
      simp at enough
      omega
    have again := ih inner fits
    rw [List.append_assoc, List.singleton_append, textBody_plain other plain, again]
    rfl
  | case6 fuel c other plain e cs short ih =>
    obtain rfl : c = '\\' := not_not.1 plain
    obtain ⟨m', covered', inner, rfl, rfl⟩ := eq_of_after read
    obtain ⟨fuel', rfl⟩ : ∃ n, fuel' = n + 1 := ⟨fuel' - 1, by simp at enough; omega⟩
    have fits : covered'.length ≤ fuel' := by
      simp at enough
      omega
    have again := ih inner fits
    rw [List.append_assoc, List.cons_append, List.singleton_append, textBody_escape other short,
      again]
    rfl
  | case8 fuel c other plain e cs width long escape ch known =>
    rename_i ih
    obtain rfl : c = '\\' := not_not.1 plain
    obtain ⟨m', covered', inner, rfl, rfl⟩ := eq_of_after read
    obtain ⟨fuel', rfl⟩ : ∃ n, fuel' = n + 1 := ⟨fuel' - 1, by simp at enough; omega⟩
    have fits : covered'.length ≤ fuel' := by
      simp at enough
      omega
    have again := ih inner fits
    have number : numbered width cs = ⟨.ok ch, escape.covered, escape.rest⟩ := by
      rw [← known]
    have number' := numbered_again number (covered' ++ rest')
    rw [List.append_assoc, List.cons_append, List.cons_append,
      textBody_numbered other long number', again]
    rfl

theorem text_covers (delim : Char) (cs : List Char) :
    (text delim cs).covered ++ (text delim cs).rest = delim :: cs :=
  congrArg (delim :: ·) (textBody_covers delim cs.length cs)

theorem text_again {delim : Char} {cs covered rest : List Char} {s : String}
    (read : text delim cs = ⟨.ok s, delim :: covered, rest⟩) (rest' : List Char) :
    text delim (covered ++ rest') = ⟨.ok s, delim :: covered, rest'⟩ := by
  cases body : textBody delim cs.length cs with
  | mk result inner left =>
    cases result with
    | error fault =>
      rw [text, body] at read
      cases read
    | ok m =>
      rw [text, body] at read
      cases read
      have fits : inner.length ≤ (inner ++ rest').length := by simp
      have again := textBody_again body fits rest'
      rw [text, again]
      rfl

end Literal

end Polyglot
