import Mathlib
import Polyglot.Value.Partial

/-!
# Arithmetic on integers

Integers are those of 64 signed bits, and operators on them are exact up to multiples of `2 ^ 64`.
A division has the quotient rounded towards zero, which fits but for one pair of operands. No
operator takes a step that has no answer, since a zero divisor is found before the division.
-/

namespace Polyglot

/-! ## Integers of 64 bits -/

theorem bmod_modEq (n : Int) : n.bmod (2 ^ 64) ≡ n [ZMOD 2 ^ 64] := by
  have same : n.bmod (2 ^ 64) % ((2 ^ 64 : Nat) : Int) = n % ((2 ^ 64 : Nat) : Int) := Int.bmod_emod
  simpa [Int.ModEq] using same

theorem toInt_ne_zero {n : Int64} (nonzero : n ≠ 0) : n.toInt ≠ 0 := by
  intro zero
  exact nonzero (Int64.toInt_inj.1 (by simpa using zero))

/-- Only one quotient is no integer of 64 signed bits. -/
theorem toInt_div_of_fits {m n : Int64} (fits : ¬(m = Int64.minValue ∧ n = -1)) :
    (m / n).toInt = m.toInt.tdiv n.toInt := by
  by_cases least : m = Int64.minValue
  · exact Int64.toInt_div_of_ne_right m n fun negated => fits ⟨least, negated⟩
  · exact Int64.toInt_div_of_ne_left m n least

/-- Quotient and remainder give back the dividend, even where the quotient does not fit. -/
theorem div_mul_add_mod_modEq (m n : Int64) :
    (m / n).toInt * n.toInt + (m % n).toInt ≡ m.toInt [ZMOD 2 ^ 64] := by
  have quotient : (m / n).toInt ≡ m.toInt.tdiv n.toInt [ZMOD 2 ^ 64] := by
    rw [Int64.toInt_div]
    exact bmod_modEq _
  calc (m / n).toInt * n.toInt + (m % n).toInt
      ≡ m.toInt.tdiv n.toInt * n.toInt + (m % n).toInt [ZMOD 2 ^ 64] :=
        (quotient.mul_right _).add_right _
    _ = m.toInt := by rw [Int64.toInt_mod, Int.tdiv_mul_add_tmod]

theorem natAbs_mod_lt (m : Int64) {n : Int64} (nonzero : n ≠ 0) :
    (m % n).toInt.natAbs < n.toInt.natAbs := by
  rw [Int64.toInt_mod, Int.natAbs_tmod]
  exact Nat.mod_lt _ (Int.natAbs_pos.2 (toInt_ne_zero nonzero))

theorem sign_mod (m n : Int64) : (m % n).toInt = 0 ∨ (m % n).toInt.sign = m.toInt.sign := by
  rw [Int64.toInt_mod, Int.sign_tmod]
  split
  · rename_i divides
    exact .inl (Int.tmod_eq_zero_of_dvd divides)
  · exact .inr rfl

/-! ## Zero -/

namespace Value

/-- The number zero: the integer, or a double of either sign. -/
def IsZero (v : Value) : Prop :=
  v = int 0 ∨ v = float 0.0 ∨ v = float (-0.0)

theorem beq_zero_iff {x : Float} : (x == 0.0) = true ↔ x = 0.0 ∨ x = -0.0 := by
  constructor
  · intro equal
    rw [Float.beq_iff_ne_nan_and_eq] at equal
    obtain ⟨-, -, same | ⟨same, -⟩ | ⟨same, -⟩⟩ := equal
    · exact .inl same
    · exact .inl same
    · exact .inr same
  · rintro (rfl | rfl) <;> decide

theorem isZero_iff {v : Value} : v.isZero = true ↔ v.IsZero := by
  cases v with
  | int n => simp [isZero, IsZero]
  | float x => simp [isZero, IsZero, beq_zero_iff]
  | _ => simp [isZero, IsZero]

theorem IsZero.isNumber {v : Value} (zero : v.IsZero) : v.isNumber = true := by
  rcases zero with rfl | rfl | rfl <;> rfl

/-! ## Divisions -/

variable {op : BinaryOp} {onInts : Int64 → Int64 → Int64} {onFloats : Float → Float → Float}
  {a b : Value}

theorem division_of_zero (number : a.isNumber = true) (zero : b.IsZero) :
    division op onInts onFloats a b = .error .divisionByZero := by
  simp [division, isZero_iff.2 zero, number]

theorem division_of_ne_zero (nonzero : ¬b.IsZero) :
    division op onInts onFloats a b = arithmetic op onInts onFloats a b := by
  have found : b.isZero = false := by
    rw [← Bool.not_eq_true, isZero_iff]
    exact nonzero
  simp [division, found]

theorem exists_arithmetic (left : a.isNumber = true) (right : b.isNumber = true) :
    ∃ v, arithmetic op onInts onFloats a b = .ok v := by
  cases a <;> cases left <;> cases b <;> cases right <;> exact ⟨_, rfl⟩

theorem division_of_not_number (other : ¬(a.isNumber = true ∧ b.isNumber = true)) :
    division op onInts onFloats a b = inapplicable op a b := by
  by_cases left : a.isNumber = true
  · have right : ¬b.isNumber = true := fun right => other ⟨left, right⟩
    rw [division_of_ne_zero fun zero => right zero.isNumber]
    cases a <;> cases left <;> cases b <;> first | rfl | exact absurd rfl right
  · have unguarded : division op onInts onFloats a b = arithmetic op onInts onFloats a b := by
      simp [division, left]
    rw [unguarded]
    cases a <;> first | rfl | exact absurd rfl left

/-- What a division of any two values reports. -/
theorem division_reports (op : BinaryOp) (onInts : Int64 → Int64 → Int64)
    (onFloats : Float → Float → Float) (a b : Value) :
    (division op onInts onFloats a b = .error .divisionByZero ↔
      a.isNumber = true ∧ b.isNumber = true ∧ b.IsZero) ∧
    ((∃ fault, division op onInts onFloats a b = .error fault ∧ fault.kind = .typeError) ↔
      ¬(a.isNumber = true ∧ b.isNumber = true)) ∧
    ((∃ v, division op onInts onFloats a b = .ok v) ↔
      (a.isNumber = true ∧ b.isNumber = true) ∧ ¬b.IsZero) := by
  by_cases numbers : a.isNumber = true ∧ b.isNumber = true
  · by_cases zero : b.IsZero
    · rw [division_of_zero numbers.1 zero]
      simp [numbers, zero, RuntimeFault.kind]
    · obtain ⟨v, result⟩ : ∃ v, arithmetic op onInts onFloats a b = .ok v :=
        exists_arithmetic numbers.1 numbers.2
      rw [division_of_ne_zero zero, result]
      simp [numbers, zero]
  · rw [division_of_not_number numbers]
    refine ⟨⟨fun same => ?_, fun given => absurd ⟨given.1, given.2.1⟩ numbers⟩,
      ⟨fun _ => numbers, fun _ => ⟨_, rfl, rfl⟩⟩,
      ⟨fun ⟨v, same⟩ => ?_, fun given => absurd given.1 numbers⟩⟩
    · cases same
    · cases same

/-! ## Partial steps -/

/-- A step on integers that has an answer for every divisor but zero is all a division needs. -/
theorem division?_eq {onInts? : Int64 → Int64 → Option Int64}
    (answers : ∀ m n, n ≠ 0 → onInts? m n = some (onInts m n)) :
    division? op onInts? onFloats a b = some (division op onInts onFloats a b) := by
  by_cases guarded : (b.isZero && a.isNumber) = true
  · simp [division?, division, guarded]
  unfold division? division
  rw [if_neg guarded, if_neg guarded]
  cases a with
  | int m =>
    cases b with
    | int n =>
      have nonzero : n ≠ 0 := by
        rintro rfl
        exact guarded rfl
      simp [answers m n nonzero, arithmetic]
    | _ => rfl
  | _ => cases b <;> rfl

/-- A text that is not too long can be addressed. -/
theorem repeated?_eq (s : String) (number : Value) :
    repeated? s number = some (repeated s number) := by
  unfold repeated? repeated
  by_cases empty : s.isEmpty = true
  · rw [if_pos empty, if_pos empty]
  rw [if_neg empty, if_neg empty]
  cases number.repetitions? with
  | none => rfl
  | some n =>
    dsimp only
    cases size : mulWord? s.utf8ByteSize n with
    | none => rfl
    | some bytes =>
      dsimp only
      by_cases short : bytes ≤ repeatLimit
      · have addressed : s.utf8ByteSize * n < int64Limit := by
          unfold mulWord? at size
          split at size
          · cases size
            exact Nat.lt_of_le_of_lt short (by decide)
          · cases size
        rw [if_pos short, if_pos short, copies?, if_pos addressed]
        rfl
      · rw [if_neg short, if_neg short]

end Value

namespace Heap

open Value

theorem multiply?_eq (a b : Value) : multiply? a b = some (multiply a b) := by
  -- Both products begin with a text on one side or have none.
  have side : ∀ (s : String) (n c d : Value),
      (if n.isNumber then repeated? s n else some (inapplicable .mul c d)) =
        some (if n.isNumber then repeated s n else inapplicable .mul c d) := by
    intro s n c d
    rw [repeated?_eq]
    split <;> rfl
  have left : ∀ s, multiply? (text s) b = some (multiply (text s) b) :=
    fun s => side s b (text s) b
  have right : ∀ s, multiply? a (text s) = some (multiply a (text s)) := by
    intro s
    have same := side s a a (text s)
    cases a <;> exact same
  cases a with
  | text s => exact left s
  | _ =>
    cases b with
    | text s => exact right s
    | _ => rfl

/-- No operator takes a step that has no answer. -/
theorem binary?_eq (h : Heap) (op : BinaryOp) (a b : Value) :
    h.binary? op a b = some (h.binary op a b) := by
  cases op with
  | mul => exact multiply?_eq a b
  | div => exact division?_eq fun m n nonzero => by simp [quotient?, nonzero]
  | mod => exact division?_eq fun m n nonzero => by simp [remainder?, nonzero]
  | _ => rfl

/-! ## Integers -/

/-- The quotient of two integers rounded towards zero, and the remainder that goes with it. The
quotient of the least integer by minus one does not fit and wraps around to the least one. -/
structure TruncatedDivision (m n q r : Int64) : Prop where
  recombined : q.toInt * n.toInt + r.toInt ≡ m.toInt [ZMOD 2 ^ 64]
  smaller : r.toInt.natAbs < n.toInt.natAbs
  sign : r.toInt = 0 ∨ r.toInt.sign = m.toInt.sign
  truncated : ¬(m = Int64.minValue ∧ n = -1) → q.toInt = m.toInt.tdiv n.toInt
  wrapped : m = Int64.minValue ∧ n = -1 → q = Int64.minValue ∧ r = 0

theorem truncatedDivision (m : Int64) {n : Int64} (nonzero : n ≠ 0) :
    TruncatedDivision m n (m / n) (m % n) where
  recombined := div_mul_add_mod_modEq m n
  smaller := natAbs_mod_lt m nonzero
  sign := sign_mod m n
  truncated := toInt_div_of_fits
  wrapped := by
    rintro ⟨rfl, rfl⟩
    decide

theorem binary_div_int (h : Heap) (m : Int64) {n : Int64} (nonzero : n ≠ 0) :
    h.binary .div (.int m) (.int n) = .ok (.int (m / n)) :=
  division_of_ne_zero (by simpa [IsZero] using nonzero)

theorem binary_mod_int (h : Heap) (m : Int64) {n : Int64} (nonzero : n ≠ 0) :
    h.binary .mod (.int m) (.int n) = .ok (.int (m % n)) :=
  division_of_ne_zero (by simpa [IsZero] using nonzero)

/-- Sums, differences, products and negatives of integers are the exact ones up to a multiple of
`2 ^ 64`. A division by zero fails; any other gives the quotient rounded towards zero and the
remainder of the sign of the dividend, which make up the dividend even where the quotient does not
fit. No operator takes a step without an answer, whatever its operands are. A division of any two
values reports a wrong type exactly if one of them is no number, a zero divisor exactly if both are
numbers and the second is zero, and succeeds otherwise. -/
theorem integer_arithmetic_exact (h : Heap) :
    (∀ m n : Int64,
      (∃ r, h.binary .add (.int m) (.int n) = .ok (.int r) ∧
        r.toInt ≡ m.toInt + n.toInt [ZMOD 2 ^ 64]) ∧
      (∃ r, h.binary .sub (.int m) (.int n) = .ok (.int r) ∧
        r.toInt ≡ m.toInt - n.toInt [ZMOD 2 ^ 64]) ∧
      (∃ r, h.binary .mul (.int m) (.int n) = .ok (.int r) ∧
        r.toInt ≡ m.toInt * n.toInt [ZMOD 2 ^ 64]) ∧
      (∃ r, unary .neg (.int m) = .ok (.int r) ∧ r.toInt ≡ -m.toInt [ZMOD 2 ^ 64]) ∧
      (h.binary .div (.int m) (.int n) = .error .divisionByZero ↔ n = 0) ∧
      (h.binary .mod (.int m) (.int n) = .error .divisionByZero ↔ n = 0) ∧
      (n ≠ 0 → ∃ q r, h.binary .div (.int m) (.int n) = .ok (.int q) ∧
        h.binary .mod (.int m) (.int n) = .ok (.int r) ∧ TruncatedDivision m n q r)) ∧
    (∀ op a b, h.binary? op a b = some (h.binary op a b)) ∧
    ∀ op ∈ [BinaryOp.div, .mod], ∀ a b : Value,
      (h.binary op a b = .error .divisionByZero ↔
        a.isNumber = true ∧ b.isNumber = true ∧ b.IsZero) ∧
      ((∃ fault, h.binary op a b = .error fault ∧ fault.kind = .typeError) ↔
        ¬(a.isNumber = true ∧ b.isNumber = true)) ∧
      ((∃ v, h.binary op a b = .ok v) ↔
        (a.isNumber = true ∧ b.isNumber = true) ∧ ¬b.IsZero) := by
  have reports : ∀ op ∈ [BinaryOp.div, .mod], ∀ a b : Value,
      (h.binary op a b = .error .divisionByZero ↔
        a.isNumber = true ∧ b.isNumber = true ∧ b.IsZero) ∧
      ((∃ fault, h.binary op a b = .error fault ∧ fault.kind = .typeError) ↔
        ¬(a.isNumber = true ∧ b.isNumber = true)) ∧
      ((∃ v, h.binary op a b = .ok v) ↔
        (a.isNumber = true ∧ b.isNumber = true) ∧ ¬b.IsZero) := by
    intro op member a b
    rcases List.mem_pair.1 member with rfl | rfl
    · exact division_reports .div _ _ a b
    · exact division_reports .mod _ _ a b
  refine ⟨fun m n => ⟨⟨_, rfl, ?_⟩, ⟨_, rfl, ?_⟩, ⟨_, rfl, ?_⟩, ⟨_, rfl, ?_⟩, ?_, ?_, ?_⟩,
    h.binary?_eq, reports⟩
  · rw [Int64.toInt_add]
    exact bmod_modEq _
  · rw [Int64.toInt_sub]
    exact bmod_modEq _
  · rw [Int64.toInt_mul]
    exact bmod_modEq _
  · rw [Int64.toInt_neg]
    exact bmod_modEq _
  · rw [(reports .div (by simp) (.int m) (.int n)).1]
    simp [isNumber, IsZero]
  · rw [(reports .mod (by simp) (.int m) (.int n)).1]
    simp [isNumber, IsZero]
  · intro nonzero
    exact ⟨_, _, h.binary_div_int m nonzero, h.binary_mod_int m nonzero,
      truncatedDivision m nonzero⟩

/-- The least integer divided by minus one is the least integer again, with nothing left; the exact
quotient `2 ^ 63` is larger than every integer. -/
theorem integer_arithmetic_exact_least :
    (-1 : Int64) ≠ 0 ∧
    ∃ q r, ({} : Heap).binary .div (.int Int64.minValue) (.int (-1)) = .ok (.int q) ∧
      ({} : Heap).binary .mod (.int Int64.minValue) (.int (-1)) = .ok (.int r) ∧
      TruncatedDivision Int64.minValue (-1) q r := by
  have nonzero : (-1 : Int64) ≠ 0 := by decide
  obtain ⟨-, -, -, -, -, -, divides⟩ :=
    (integer_arithmetic_exact {}).1 Int64.minValue (-1)
  exact ⟨nonzero, divides nonzero⟩

end Heap

end Polyglot
