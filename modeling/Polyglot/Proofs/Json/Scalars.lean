import Mathlib
import Polyglot.Json.Printer
import Polyglot.Json.Reader

/-!
# The JSON text of strings and numbers

Strings and integers of 64 bits are read back from their text, whatever follows a string and if
what follows a number cannot belong to it. Of doubles this is not always so: the reader scales
the digits it is given, which may miss the double they were written for.
-/

namespace Polyglot.Json

/-! ## Strings -/

/-- The text of the characters of a string, without the quotes around it. -/
def escaped (cs : List Char) : List Char :=
  cs.flatMap fun c => (escape c).toList

theorem toList_quote (s : String) : (quote s).toList = '\"' :: (escaped s.toList ++ ['\"']) := by
  have written : ∀ (cs : List Char) (out : String),
      (cs.foldl (fun out c => out ++ escape c) out).toList = out.toList ++ escaped cs := by
    intro cs
    induction cs with
    | nil => simp [escaped]
    | cons c cs ih =>
      intro out
      rw [List.foldl_cons, ih, String.toList_append, List.append_assoc]
      rfl
  rw [quote, String.toList_append, written]
  rfl

theorem readString_escape (c : Char) (rest : List Char) :
    readString ((escape c).toList ++ rest) = consChar c (readString rest) := by
  by_cases control : c.toNat < 32
  · have code : c = Char.ofNat c.toNat := (Char.ofNat_toNat c).symm
    generalize c.toNat = n at code control
    subst code
    interval_cases n <;> rfl
  · have plain (code : Char) (less : code.toNat < 32) : (c == code) = false := by
      rw [beq_eq_false_iff_ne]
      rintro rfl
      exact control less
    by_cases quote : c = '\"'
    · subst quote
      rfl
    by_cases backslash : c = '\\'
    · subst backslash
      rfl
    have itself : (escape c).toList = [c] := by
      simp [escape, quote, backslash, plain, control, show ¬ c.toNat < 16 by omega]
    rw [itself, List.singleton_append, readString.eq_def]
    split <;> simp_all

/-- The text of a string is read up to its closing quote. -/
theorem readString_escaped (cs rest : List Char) :
    readString (escaped cs ++ '\"' :: rest) = some (cs, rest) := by
  induction cs with
  | nil => simp [escaped, readString]
  | cons c cs ih =>
    have first : escaped (c :: cs) = (escape c).toList ++ escaped cs := rfl
    rw [first, List.append_assoc, readString_escape, ih]
    rfl

/-! ## What ends a number -/

/-- Text that does not go on with a number before it. -/
def EndsNumber (rest : List Char) : Prop :=
  ∀ c ∈ rest.head?, c.isDigit = false ∧ c ≠ '.' ∧ c ≠ 'e' ∧ c ≠ 'E'

namespace EndsNumber

variable {rest : List Char}

theorem digits_append (ends : EndsNumber rest) (cs : List Char) :
    (cs ++ rest).takeWhile Char.isDigit = cs.takeWhile Char.isDigit ∧
    (cs ++ rest).dropWhile Char.isDigit = cs.dropWhile Char.isDigit ++ rest := by
  induction cs with
  | nil =>
    cases rest with
    | nil => exact ⟨rfl, rfl⟩
    | cons c rest => simp [(ends c rfl).1]
  | cons c cs ih => cases digit : c.isDigit <;> simp [digit, ih]

theorem readFraction_append (ends : EndsNumber rest) {cs left : List Char}
    {fraction : Option (List Char)} (read : readFraction cs = some (fraction, left)) :
    readFraction (cs ++ rest) = some (fraction, left ++ rest) := by
  have absent : ∀ {cs : List Char}, (∀ c ∈ cs.head?, c ≠ '.') →
      readFraction cs = some (none, cs) := by
    intro cs other
    unfold readFraction
    split
    · exact absurd rfl (other '.' rfl)
    · rfl
  by_cases point : ∃ ds, cs = '.' :: ds
  · obtain ⟨ds, rfl⟩ := point
    obtain ⟨taken, dropped⟩ := ends.digits_append ds
    simp only [List.cons_append, readFraction, taken, dropped] at read ⊢
    split at read <;> cases read
    simp [*]
  · cases cs with
    | nil =>
      cases read
      exact absent fun c first => (ends c first).2.1
    | cons c cs =>
      have other : c ≠ '.' := fun same => point ⟨cs, same ▸ rfl⟩
      rw [absent (by simpa using other)] at read
      cases read
      exact absent (by simpa using other)

theorem readExponentDigits_append (ends : EndsNumber rest) {negative : Bool} {cs left : List Char}
    {exponent : Option Int} (read : readExponentDigits negative cs = some (exponent, left)) :
    readExponentDigits negative (cs ++ rest) = some (exponent, left ++ rest) := by
  obtain ⟨taken, dropped⟩ := ends.digits_append cs
  simp only [readExponentDigits, taken, dropped] at read ⊢
  split at read <;> cases read
  simp [*]

theorem readExponent_append (ends : EndsNumber rest) {cs left : List Char}
    {exponent : Option Int} (read : readExponent cs = some (exponent, left)) :
    readExponent (cs ++ rest) = some (exponent, left ++ rest) := by
  cases cs with
  | nil =>
    cases read
    cases rest with
    | nil => rfl
    | cons c rest =>
      obtain ⟨-, -, small, large⟩ := ends c rfl
      simp [readExponent, small, large]
  | cons c cs =>
    rw [readExponent.eq_def] at read
    rw [List.cons_append, readExponent.eq_def]
    by_cases mark : (c == 'e' || c == 'E') = true
    · simp only [if_pos mark] at read ⊢
      split at read
      · exact ends.readExponentDigits_append read
      · exact ends.readExponentDigits_append read
      · cases cs with
        -- Without a digit there is no exponent, so what follows is never taken for its sign.
        | nil => cases read
        | cons d cs =>
          have longer := ends.readExponentDigits_append read
          rw [List.cons_append] at longer ⊢
          split <;> simp_all
    · simp only [if_neg mark] at read ⊢
      cases read
      rfl

end EndsNumber

/-- The number of given digits, fraction and exponent. -/
def numberOf? (negative : Bool) (whole : List Char) (fraction : Option (List Char))
    (exponent : Option Int) : Option Json :=
  if fraction.isNone ∧ exponent.isNone then ofInteger? negative whole
  else ofParts? negative whole (fraction.getD []) (exponent.getD 0)

/-- Digits that a number can begin with. -/
def IsWhole (ds : List Char) : Prop :=
  ds ≠ [] ∧ (ds.head? = some '0' → ds.length = 1)

theorem isWhole_iff {ds : List Char} :
    IsWhole ds ↔ ¬(ds.isEmpty ∨ (ds.head? = some '0' ∧ ds.length ≠ 1)) := by
  simp [IsWhole]

theorem isWhole_of_readUnsigned {negative : Bool} {cs : List Char} {result : Json × List Char}
    (read : readUnsigned negative cs = some result) : IsWhole (cs.takeWhile Char.isDigit) := by
  rw [isWhole_iff]
  intro bad
  simp only [readUnsigned, if_pos bad] at read
  cases read

theorem readUnsigned_of_isWhole (negative : Bool) {cs : List Char}
    (whole : IsWhole (cs.takeWhile Char.isDigit)) :
    readUnsigned negative cs =
      (readFraction (cs.dropWhile Char.isDigit)).bind fun fraction =>
        (readExponent fraction.2).bind fun exponent =>
          (numberOf? negative (cs.takeWhile Char.isDigit) fraction.1 exponent.1).map fun j =>
            (j, exponent.2) := by
  simp only [readUnsigned, if_neg (isWhole_iff.1 whole)]
  refine Option.bind_congr fun fraction _ => Option.bind_congr fun exponent _ => ?_
  unfold numberOf?
  split <;> simp [Option.map_eq_bind]

/-- A number is read as it would be alone. -/
theorem EndsNumber.readNumber_append {rest : List Char} (ends : EndsNumber rest)
    {cs left : List Char} {j : Json} (read : readNumber cs = some (j, left)) :
    readNumber (cs ++ rest) = some (j, left ++ rest) := by
  have unsigned : ∀ {negative : Bool} {cs : List Char},
      readUnsigned negative cs = some (j, left) →
      readUnsigned negative (cs ++ rest) = some (j, left ++ rest) := by
    intro negative cs read
    have whole := isWhole_of_readUnsigned read
    obtain ⟨taken, dropped⟩ := ends.digits_append cs
    rw [readUnsigned_of_isWhole negative whole] at read
    obtain ⟨⟨fraction, mid⟩, readPoint, read⟩ := Option.bind_eq_some_iff.1 read
    obtain ⟨⟨exponent, after⟩, readMark, read⟩ := Option.bind_eq_some_iff.1 read
    obtain ⟨j', number, same⟩ := Option.map_eq_some_iff.1 read
    cases same
    rw [readUnsigned_of_isWhole negative (taken.symm ▸ whole), taken, dropped,
      ends.readFraction_append readPoint, Option.bind_some, ends.readExponent_append readMark,
      Option.bind_some, number, Option.map_some]
  unfold readNumber at read
  split at read
  · exact unsigned read
  · cases cs with
    | nil => cases read
    | cons c cs =>
      have longer := unsigned read
      rw [List.cons_append] at longer ⊢
      unfold readNumber
      split <;> simp_all

/-! ## Integers -/

theorem head?_toDigits {n : Nat} (first : (Nat.toDigits 10 n).head? = some '0') : n = 0 := by
  induction n using Nat.strongRecOn with
  | ind n ih =>
    by_cases small : n < 10
    · rw [Nat.toDigits_of_lt_base small] at first
      interval_cases n <;> first | rfl | cases first
    · rw [Nat.toDigits_of_base_le (by decide) (by omega),
        List.head?_append_of_ne_nil _ Nat.toDigits_ne_nil] at first
      have none := ih (n / 10) (by omega) first
      omega

/-- An integer that fits 64 bits, with a sign or without. -/
def FitsWord (n : Int) : Prop :=
  FitsInt64 n ∨ (0 ≤ n ∧ n < wordLimit)

theorem readUnsigned_toDigits (negative : Bool) (n : Nat) :
    readUnsigned negative (Nat.toDigits 10 n) =
      (ofInteger? negative (Nat.toDigits 10 n)).map fun j => (j, []) := by
  have digits : ∀ c ∈ Nat.toDigits 10 n, c.isDigit = true :=
    fun _ member => Nat.isDigit_of_mem_toDigits (by decide) (by decide) member
  have taken : (Nat.toDigits 10 n).takeWhile Char.isDigit = Nat.toDigits 10 n :=
    List.takeWhile_eq_self_iff.2 digits
  have dropped : (Nat.toDigits 10 n).dropWhile Char.isDigit = [] :=
    List.dropWhile_eq_nil_iff.2 digits
  have whole : IsWhole (Nat.toDigits 10 n) := by
    refine ⟨Nat.toDigits_ne_nil, fun first => ?_⟩
    rw [head?_toDigits first]
    rfl
  rw [readUnsigned_of_isWhole negative (taken.symm ▸ whole), taken, dropped]
  rfl

theorem digitsValue_toDigits (n : Nat) : Decimal.digitsValue (Nat.toDigits 10 n) = n :=
  Nat.ofDigitChars_toDigits (by decide) (by decide)

/-- Integers of 64 bits are read back. -/
theorem readNumber_int {n : Int} (fits : FitsWord n) :
    readNumber (toString n).toList = some (int n, []) := by
  cases n with
  | ofNat n =>
    have below : n < wordLimit := by
      simp only [FitsWord, FitsInt64, wordLimit, Int.ofNat_eq_natCast] at fits ⊢
      omega
    have unsigned : readNumber (Nat.toDigits 10 n) = readUnsigned false (Nat.toDigits 10 n) := by
      unfold readNumber
      split
      · rename_i minus
        have digit := Nat.isDigit_of_mem_toDigits (b := 10) (n := n) (c := '-') (by decide)
          (by decide) (minus ▸ List.mem_cons_self)
        cases digit
      · rfl
    show readNumber (Nat.repr n).toList = _
    rw [Nat.toList_repr, unsigned, readUnsigned_toDigits]
    simp [ofInteger?, digitsValue_toDigits, below]
  | negSucc n =>
    have above : FitsInt64 (Int.negSucc n) := by
      simp only [FitsWord, FitsInt64] at fits ⊢
      omega
    have below : n + 1 < wordLimit := by
      simp only [FitsInt64, wordLimit] at above ⊢
      omega
    show readNumber ("-" ++ Nat.repr (n + 1)).toList = _
    rw [String.toList_append, Nat.toList_repr]
    show readUnsigned true (Nat.toDigits 10 (n + 1)) = _
    have value : ofInteger? true (Nat.toDigits 10 (n + 1)) = some (int (Int.negSucc n)) := by
      simp only [ofInteger?, digitsValue_toDigits, if_pos below, if_true, Int.neg_ofNat_succ]
      exact if_neg (by simp [above])
    rw [readUnsigned_toDigits, value]
    rfl

/-! ## Doubles -/

/-- The text of a double is read as the double itself. -/
def ReadsBack (x : Float) : Prop :=
  read? (floatText x) = some (float x)

/-- The double that a text is read as. -/
def readFloat? (s : String) : Option Float :=
  match read? s with
  | some (float x) => some x
  | _ => none

theorem readsBack_iff {x : Float} : ReadsBack x ↔ readFloat? (floatText x) = some x := by
  unfold ReadsBack readFloat?
  split <;> simp_all

instance (x : Float) : Decidable (ReadsBack x) :=
  decidable_of_iff _ readsBack_iff.symm

example : ReadsBack 0.1 ∧ ¬ReadsBack 31.245270191439438 := by
  decide +kernel

end Polyglot.Json
