import Polyglot.Proofs.Text.Quoted
import Polyglot.Proofs.Value.Shortest

/-!
# The text of a double tells which it is

The digits, the point and the exponent of a text tell the number that is written, and the number
tells the double that it rounds to. So no two doubles have the same text.
-/

namespace Polyglot.Decimal

open Binary64

/-! ## Written numbers -/

theorem digitsValue_append (xs ys : List Char) :
    digitsValue (xs ++ ys) = digitsValue xs * 10 ^ ys.length + digitsValue ys := by
  induction ys using List.reverseRecOn with
  | nil => simp [digitsValue]
  | append_singleton ys y ih =>
    have last : ∀ zs : List Char,
        digitsValue (zs ++ [y]) = 10 * digitsValue zs + (y.toNat - '0'.toNat) := by
      intro zs
      rw [digitsValue, List.foldl_append]
      rfl
    rw [← List.append_assoc, last, last, ih, List.length_append, List.length_singleton, pow_succ]
    ring

theorem digitsValue_zeros (n : Nat) : digitsValue (List.replicate n '0') = 0 := by
  induction n with
  | zero => rfl
  | succ n ih =>
    rw [List.replicate_succ', digitsValue_append, ih]
    rfl

theorem digitsValue_toString (n : Nat) : digitsValue (toString n).toList = n := by
  rw [Text.toList_toString]
  exact Nat.ofDigitChars_toDigits (by decide) (by decide)

/-- A text of digits with a point or an exponent, and the number that it writes. -/
inductive Writes : List Char → ℚ → Prop
  | point (whole fraction : List Char) (some : whole ≠ [])
    (digits : ∀ c ∈ whole ++ fraction, c.isDigit = true) :
    Writes (whole ++ '.' :: fraction)
      (digitsValue (whole ++ fraction) * 10 ^ (-(fraction.length : Int)))
  | exponent (whole fraction : List Char) (some : whole ≠ [])
    (digits : ∀ c ∈ whole ++ fraction, c.isDigit = true) (e : Int) :
    Writes (whole ++ (if fraction = [] then [] else '.' :: fraction) ++ 'e' :: (toString e).toList)
      (digitsValue (whole ++ fraction) * 10 ^ (e - fraction.length))

theorem not_mem_of_digits {cs : List Char} (digits : ∀ c ∈ cs, c.isDigit = true) {c : Char}
    (other : c.isDigit = false) : c ∉ cs := by
  intro member
  rw [digits c member] at other
  cases other

/-- What stands before an exponent tells the digits before the point and those behind it. -/
theorem eq_of_fraction {whole whole' fraction fraction' : List Char}
    (digits : ∀ c ∈ whole ++ fraction, c.isDigit = true)
    (digits' : ∀ c ∈ whole' ++ fraction', c.isDigit = true)
    (same : whole ++ (if fraction = [] then [] else '.' :: fraction) =
      whole' ++ (if fraction' = [] then [] else '.' :: fraction')) :
    whole = whole' ∧ fraction = fraction' := by
  have noPoint : '.' ∉ whole := not_mem_of_digits (List.forall_mem_append.1 digits).1 rfl
  have noPoint' : '.' ∉ whole' := not_mem_of_digits (List.forall_mem_append.1 digits').1 rfl
  by_cases empty : fraction = []
  · by_cases empty' : fraction' = []
    · simp only [if_pos empty, if_pos empty', List.append_nil] at same
      exact ⟨same, empty.trans empty'.symm⟩
    · simp only [if_pos empty, if_neg empty', List.append_nil] at same
      exact absurd (same ▸ by simp) noPoint
  · by_cases empty' : fraction' = []
    · simp only [if_neg empty, if_pos empty', List.append_nil] at same
      exact absurd (same ▸ by simp) noPoint'
    · simp only [if_neg empty, if_neg empty'] at same
      exact Text.eq_of_append_cons noPoint noPoint' same

/-- A text writes one number only. -/
theorem Writes.told {cs : List Char} {a b : ℚ} (left : Writes cs a) (right : Writes cs b) :
    a = b := by
  have noE : ∀ {whole fraction : List Char}, (∀ c ∈ whole ++ fraction, c.isDigit = true) →
      'e' ∉ whole ++ '.' :: fraction ∧
      'e' ∉ whole ++ (if fraction = [] then [] else '.' :: fraction) := by
    intro whole fraction digits
    obtain ⟨first, second⟩ := List.forall_mem_append.1 digits
    have noWhole : 'e' ∉ whole := not_mem_of_digits first rfl
    have noFraction : 'e' ∉ fraction := not_mem_of_digits second rfl
    constructor
    · simp [noWhole, noFraction]
    · split <;> simp [noWhole, noFraction]
  generalize written : cs = ds at right
  cases left with
  | point whole fraction some digits =>
    cases right with
    | point whole' fraction' some' digits' =>
      obtain ⟨rfl, rfl⟩ := Text.eq_of_append_cons
        (not_mem_of_digits (List.forall_mem_append.1 digits).1 rfl)
        (not_mem_of_digits (List.forall_mem_append.1 digits').1 rfl) written
      rfl
    | exponent whole' fraction' some' digits' e => exact absurd (written ▸ by simp) (noE digits).1
  | exponent whole fraction some digits e =>
    cases right with
    | point whole' fraction' some' digits' => exact absurd (written ▸ by simp) (noE digits').1
    | exponent whole' fraction' some' digits' e' =>
      obtain ⟨before, after⟩ := Text.eq_of_append_cons (noE digits).2 (noE digits').2 written
      obtain ⟨rfl, rfl⟩ := eq_of_fraction digits digits' before
      obtain rfl : e = e' := Int.repr_inj.1 (String.toList_injective after)
      rfl


/-! ## The text of a finite number -/

/-- The positional form of digits and a scale writes the digits times that power of ten. -/
theorem writes_positional (count : Nat) (scale : Int) :
    Writes (positional (toString count) scale).toList (count * 10 ^ scale) := by
  have digits : ∀ c ∈ (toString count).toList, c.isDigit = true :=
    fun c member => Text.isDigit_of_mem_toString member
  have zeros : ∀ n, ∀ c ∈ List.replicate n '0', c.isDigit = true := by
    intro n c member
    rw [List.eq_of_mem_replicate member]
    rfl
  have some := Text.toString_ne_nil count
  have value := digitsValue_toString count
  unfold positional
  dsimp only
  rw [← String.length_toList]
  generalize toString count = s at *
  by_cases large : 0 ≤ scale
  · rw [if_pos large]
    obtain ⟨k, rfl⟩ := Int.eq_ofNat_of_zero_le large
    have written := Writes.point (s.toList ++ List.replicate k '0') ['0'] (by simp [some])
      (List.forall_mem_append.2 ⟨List.forall_mem_append.2 ⟨digits, zeros k⟩, zeros 1⟩)
    have number : (digitsValue ((s.toList ++ List.replicate k '0') ++ ['0']) : ℚ) *
        10 ^ (-((['0'] : List Char).length : Int)) = count * 10 ^ (k : Int) := by
      rw [List.append_assoc, ← List.replicate_succ', digitsValue_append, digitsValue_zeros,
        List.length_replicate, value, List.length_singleton, zpow_neg, zpow_natCast,
        zpow_natCast]
      push_cast
      field_simp
      ring
    rw [number] at written
    simpa using written
  · rw [if_neg large]
    by_cases inside : -scale < s.toList.length
    · rw [if_pos inside]
      have cut : s.toList.take (s.toList.length + scale).toNat ++
          s.toList.drop (s.toList.length + scale).toNat = s.toList := List.take_append_drop _ _
      have written := Writes.point (s.toList.take (s.toList.length + scale).toNat)
        (s.toList.drop (s.toList.length + scale).toNat)
        (by simp [some]; omega) (by rwa [cut])
      rw [cut, value, List.length_drop,
        show -(((s.toList.length - (s.toList.length + scale).toNat : Nat)) : Int) = scale by omega]
        at written
      simpa using written
    · rw [if_neg inside]
      have written := Writes.point ['0']
        (List.replicate (-scale - s.toList.length).toNat '0' ++ s.toList) (by simp)
        (List.forall_mem_append.2 ⟨zeros 1, List.forall_mem_append.2 ⟨zeros _, digits⟩⟩)
      rw [← List.append_assoc, show ['0'] = List.replicate 1 '0' from rfl,
        ← List.replicate_add, digitsValue_append, digitsValue_zeros, value, zero_mul, zero_add,
        List.length_append, List.length_replicate,
        show -(((-scale - s.toList.length).toNat + s.toList.length : Nat) : Int) = scale by omega]
        at written
      simpa using written

/-- The form with an exponent writes the digits with a point behind the first one. -/
theorem writes_scientific (count : Nat) (scale : Int) :
    Writes (scientific false (toString count) ((toString count).length - 1 + scale)).toList
      (count * 10 ^ scale) := by
  have digits : ∀ c ∈ (toString count).toList, c.isDigit = true :=
    fun c member => Text.isDigit_of_mem_toString member
  have some := Text.toString_ne_nil count
  have value := digitsValue_toString count
  unfold scientific
  rw [← String.length_toList]
  generalize (toString count).toList = ds at *
  obtain ⟨first, others, rfl⟩ := List.exists_cons_of_ne_nil some
  have written := Writes.exponent [first] others (by simp) digits
    ((first :: others).length - 1 + scale)
  rw [show [first] ++ others = first :: others from rfl, value, List.length_cons,
    show ((others.length + 1 : Nat) : Int) - 1 + scale - others.length = scale by omega] at written
  by_cases empty : others = []
  · simpa [empty] using written
  · have long : ¬ (others.length + 1 ≤ 1) := by
      have := List.length_pos_iff.2 empty
      omega
    simpa [empty, long] using written

namespace Writes

variable {cs : List Char} {w : ℚ}

theorem head_digit (writes : Writes cs w) : ∃ c rest, cs = c :: rest ∧ c.isDigit = true := by
  have first : ∀ {whole fraction : List Char}, whole ≠ [] →
      (∀ c ∈ whole ++ fraction, c.isDigit = true) →
      ∀ rest, ∃ c others, whole ++ rest = c :: others ∧ c.isDigit = true := by
    intro whole fraction some digits rest
    obtain ⟨c, others, rfl⟩ := List.exists_cons_of_ne_nil some
    exact ⟨c, others ++ rest, rfl, digits c (by simp)⟩
  cases writes with
  | point whole fraction some digits => exact first some digits _
  | exponent whole fraction some digits e =>
    rw [List.append_assoc]
    exact first some digits _

/-- A written number has a point or an exponent. -/
theorem mark (writes : Writes cs w) : '.' ∈ cs ∨ 'e' ∈ cs := by
  cases writes with
  | point => exact .inl (by simp)
  | exponent => exact .inr (by simp)

theorem mem (writes : Writes cs w) {c : Char} (member : c ∈ cs) :
    c.isDigit = true ∨ c = '.' ∨ c = 'e' ∨ c = '-' := by
  cases writes with
  | point whole fraction some digits =>
    rcases List.mem_append.1 member with inWhole | later
    · exact .inl (digits c (by simp [inWhole]))
    · rcases List.mem_cons.1 later with point | inFraction
      · exact .inr (.inl point)
      · exact .inl (digits c (by simp [inFraction]))
  | exponent whole fraction some digits e =>
    rcases List.mem_append.1 member with before | after
    · rcases List.mem_append.1 before with inWhole | later
      · exact .inl (digits c (by simp [inWhole]))
      · split at later
        · cases later
        · rcases List.mem_cons.1 later with point | inFraction
          · exact .inr (.inl point)
          · exact .inl (digits c (by simp [inFraction]))
    · rcases List.mem_cons.1 after with mark | inExponent
      · exact .inr (.inr (.inl mark))
      · rcases Text.mem_toString_int inExponent with digit | minus
        · exact .inl digit
        · exact .inr (.inr (.inr minus))

end Writes

/-- The double of these parts is the one that a number without its sign rounds to. -/
def RoundsFrom (d : Exact) (w : ℚ) : Prop :=
  if d.mantissa = 0 then w = 0 else (neighbourhood d).Contains w

theorem eq_of_roundsFrom {d d' : Exact} (regular : d.Regular) (regular' : d'.Regular) {w : ℚ}
    (rounds : RoundsFrom d w) (rounds' : RoundsFrom d' w) :
    d.mantissa = d'.mantissa ∧ d.exponent = d'.exponent := by
  unfold RoundsFrom at rounds rounds'
  by_cases zero : d.mantissa = 0
  · by_cases zero' : d'.mantissa = 0
    · -- Zero has the least exponent.
      have least : ∀ {x : Exact}, x.Regular → x.mantissa = 0 → x.exponent = -1074 := by
        intro x regular zero
        rcases regular.full with least | full
        · exact least
        · rw [zero] at full
          cases full
      exact ⟨zero.trans zero'.symm, (least regular zero).trans (least regular' zero').symm⟩
    · rw [if_pos zero] at rounds
      rw [if_neg zero'] at rounds'
      exact absurd rounds (pos_of_contains zero' rounds').ne'
  · by_cases zero' : d'.mantissa = 0
    · rw [if_neg zero] at rounds
      rw [if_pos zero'] at rounds'
      exact absurd rounds' (pos_of_contains zero rounds).ne'
    · rw [if_neg zero] at rounds
      rw [if_neg zero'] at rounds'
      exact eq_of_contains regular regular' zero zero' rounds rounds'

/-! ## The text of a double -/

/-- The text of a double of which the parts are known. -/
inductive TextOf : Parts → List Char → Prop
  | nan : TextOf .nan ['N', 'a', 'N']
  | infinite (negative : Bool) :
    TextOf (.infinite negative) ((if negative then ['-'] else []) ++ ['i', 'n', 'f'])
  | finite {d : Exact} {body : List Char} {w : ℚ} (regular : d.Regular) (writes : Writes body w)
    (rounds : RoundsFrom d w) : TextOf (.finite d) ((if d.negative then ['-'] else []) ++ body)

theorem textOf_finite {d : Exact} (regular : d.Regular) :
    TextOf (.finite d) (script.finite d).toList := by
  have sign : (if d.negative then "-" else "").toList = if d.negative then ['-'] else [] := by
    cases d.negative <;> rfl
  unfold Style.finite
  dsimp only
  by_cases zero : d.mantissa = 0
  · rw [if_pos zero, String.toList_append, sign]
    have written := Writes.point ['0'] ['0'] (by simp) (by simp)
    refine .finite regular written ?_
    rw [RoundsFrom, if_pos zero]
    simp [digitsValue]
  · rw [if_neg zero]
    have inside : RoundsFrom d ((shortest script.tie d).1 * 10 ^ (shortest script.tie d).2) := by
      rw [RoundsFrom, if_neg zero]
      exact contains_shortest _ regular zero
    generalize shortest script.tie d = p at inside
    obtain ⟨count, scale⟩ := p
    dsimp only at inside ⊢
    split
    · rw [String.toList_append, sign]
      exact .finite regular (writes_positional count scale) inside
    · rw [String.toList_append, sign]
      exact .finite regular (writes_scientific count scale) inside

theorem textOf (x : Float) : TextOf (decode x) (text x).toList := by
  unfold text
  cases parts : decode x with
  | nan => exact .nan
  | infinite negative => cases negative <;> exact .infinite _
  | finite d => exact textOf_finite (regular_of_decode parts)

namespace TextOf

variable {p q : Parts} {cs : List Char}

/-- A sign is told from the first character of a number without one. -/
theorem eq_of_sign {s t : Bool} {xs ys : List Char} (plain : xs.head? ≠ some '-')
    (plain' : ys.head? ≠ some '-')
    (same : (if s then ['-'] else []) ++ xs = (if t then ['-'] else []) ++ ys) :
    s = t ∧ xs = ys := by
  cases s <;> cases t
  · exact ⟨rfl, same⟩
  · exact absurd (congrArg List.head? same) plain
  · exact absurd (congrArg List.head? same).symm plain'
  · exact ⟨rfl, (List.cons.inj same).2⟩

theorem told (left : TextOf p cs) (right : TextOf q cs) : p = q := by
  have digit : ∀ {body : List Char} {w : ℚ}, Writes body w → ∀ c : Char, c.isDigit = false →
      body.head? ≠ some c := by
    intro body w writes c other first
    obtain ⟨d, rest, rfl, isDigit⟩ := writes.head_digit
    cases first
    rw [isDigit] at other
    cases other
  generalize same : cs = ds at right
  cases left with
  | nan =>
    cases right with
    | nan => rfl
    | infinite negative => cases negative <;> cases same
    | @finite d body w regular writes =>
      obtain ⟨-, bodies⟩ := eq_of_sign (s := false) (by decide) (digit writes '-' rfl) same
      exact absurd (congrArg List.head? bodies).symm (digit writes 'N' rfl)
  | infinite negative =>
    cases right with
    | nan => cases negative <;> cases same
    | infinite negative' =>
      obtain ⟨rfl, -⟩ := eq_of_sign (by decide) (by decide) same
      rfl
    | finite regular writes =>
      obtain ⟨-, bodies⟩ := eq_of_sign (by decide) (digit writes '-' rfl) same
      exact absurd (congrArg List.head? bodies).symm (digit writes 'i' rfl)
  | @finite d body w regular writes rounds =>
    cases right with
    | nan =>
      obtain ⟨-, bodies⟩ := eq_of_sign (t := false) (digit writes '-' rfl) (by decide) same
      exact absurd (congrArg List.head? bodies) (digit writes 'N' rfl)
    | infinite negative =>
      obtain ⟨-, bodies⟩ := eq_of_sign (digit writes '-' rfl) (by decide) same
      exact absurd (congrArg List.head? bodies) (digit writes 'i' rfl)
    | @finite d' body' w' regular' writes' rounds' =>
      obtain ⟨sameSign, rfl⟩ := eq_of_sign (digit writes '-' rfl) (digit writes' '-' rfl) same
      obtain rfl := writes.told writes'
      obtain ⟨sameMantissa, sameExponent⟩ := eq_of_roundsFrom regular regular' rounds rounds'
      obtain ⟨sign, mantissa, exponent⟩ := d
      obtain ⟨sign', mantissa', exponent'⟩ := d'
      dsimp only at sameSign sameMantissa sameExponent
      rw [sameSign, sameMantissa, sameExponent]

/-- The text of a double begins with a digit, a sign or one of two letters. -/
theorem head (written : TextOf p cs) :
    ∃ c rest, cs = c :: rest ∧ (c.isDigit = true ∨ c ∈ ['-', 'N', 'i']) := by
  cases written with
  | nan => exact ⟨_, _, rfl, .inr (by decide)⟩
  | infinite negative => cases negative <;> exact ⟨_, _, rfl, .inr (by decide)⟩
  | @finite d body w regular writes =>
    obtain ⟨c, rest, rfl, isDigit⟩ := writes.head_digit
    cases d.negative
    · exact ⟨c, rest, rfl, .inl isDigit⟩
    · exact ⟨'-', c :: rest, rfl, .inr (by decide)⟩

/-- The text of a double is not that of a whole number. -/
theorem mark (written : TextOf p cs) : ∃ c ∈ cs, c.isDigit = false ∧ c ≠ '-' := by
  cases written with
  | nan => exact ⟨'N', by decide, by decide⟩
  | infinite negative => exact ⟨'i', by simp, by decide⟩
  | finite regular writes =>
    rcases writes.mark with point | exponent
    · exact ⟨'.', List.mem_append_right _ point, by decide⟩
    · exact ⟨'e', List.mem_append_right _ exponent, by decide⟩

theorem on_line (written : TextOf p cs) : '\n' ∉ cs := by
  cases written with
  | nan => decide
  | infinite negative => cases negative <;> decide
  | @finite d body w regular writes =>
    intro member
    rcases List.mem_append.1 member with sign | inBody
    · cases negative : d.negative <;> simp [negative] at sign
    · rcases writes.mem inBody with digit | other
      · cases digit
      · simp at other

end TextOf

/-- No two doubles have the same text. -/
theorem text_injective {x y : Float} (same : text x = text y) : x = y :=
  decode_injective ((textOf x).told (same ▸ textOf y))

end Polyglot.Decimal
