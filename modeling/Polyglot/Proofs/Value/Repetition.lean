import Polyglot.Proofs.Value.Truncation
import Polyglot.Value.Operators

/-!
# Repeated texts

The number of copies is carried through a double, which holds integers below `2 ^ 53` as they are
and rounds larger ones. No text of `2 ^ 53` copies is allowed, and rounding takes no larger integer
below that, so a text is repeated exactly as often as the integer says or not at all.
-/

namespace Polyglot

namespace Binary64

/-! ## What integers are rounded to -/

/-- A number with a full mantissa is that mantissa at its exponent. -/
theorem fraction?_ofBits (negative : Bool) {bits : Nat} (full : leadingBit ≤ bits)
    (finite : bits < infinityBits) :
    fraction? (ofBits negative bits) =
      some (((signOf negative).apply (leadingBit + bits % leadingBit : Nat) : ℚ) *
        2 ^ (((bits / leadingBit : Nat) : Int) - 1075)) := by
  obtain ⟨pos, unpacked⟩ := unpack_full negative finite full
  rw [fraction?, unpacked]

/-- The number that a positive integer is rounded to. -/
def rounded (n : Nat) : ℚ :=
  mantissa n * 2 ^ ((n.log2 : Int) - 52)

theorem rounded_pos {n : Nat} (pos : n ≠ 0) : 0 < rounded n := by
  have full := (mantissa_bounds pos).1
  have positive : (0 : ℚ) < mantissa n := by
    have : 0 < mantissa n := Nat.lt_of_lt_of_le (by decide) full
    exact_mod_cast this
  unfold rounded
  positivity

/-- Up to 53 bits nothing is rounded. -/
theorem rounded_of_small {n : Nat} (small : n.log2 ≤ 52) : rounded n = n := by
  have power : (2 : ℚ) ^ (52 - n.log2) * 2 ^ ((n.log2 : Int) - 52) = 1 := by
    rw [← zpow_natCast, ← zpow_add₀ two_ne_zero]
    have cancel : ((52 - n.log2 : Nat) : Int) + ((n.log2 : Int) - 52) = 0 := by omega
    rw [cancel, zpow_zero]
  rw [rounded, mantissa_small small, Nat.cast_mul, Nat.cast_pow, Nat.cast_ofNat, mul_assoc, power,
    mul_one]

/-- No integer with more bits is rounded below the least of them. -/
theorem le_rounded {n : Nat} (large : 53 ≤ n.log2) : (2 ^ 53 : ℚ) ≤ rounded n := by
  have pos : n ≠ 0 := by
    rintro rfl
    exact absurd large (by decide)
  have full : (leadingBit : ℚ) ≤ mantissa n := by
    exact_mod_cast (mantissa_bounds pos).1
  have power : (2 : ℚ) ^ (1 : Int) ≤ 2 ^ ((n.log2 : Int) - 52) :=
    zpow_le_zpow_right₀ one_le_two (by omega)
  calc (2 ^ 53 : ℚ)
    _ = leadingBit * 2 ^ (1 : Int) := by norm_num [leadingBit]
    _ ≤ mantissa n * 2 ^ ((n.log2 : Int) - 52) := by gcongr

/-- The bits of a positive integer are those of the number that it is rounded to. -/
theorem fraction_magnitude {n : Nat} (pos : n ≠ 0) :
    ((leadingBit + magnitude n % leadingBit : Nat) : ℚ) *
      2 ^ (((magnitude n / leadingBit : Nat) : Int) - 1075) = rounded n := by
  obtain ⟨low, high⟩ := mantissa_bounds pos
  rw [magnitude, if_neg pos, rounded]
  by_cases carry : mantissa n = 2 * leadingBit
  · -- The mantissa has overflowed into the exponent.
    have fraction : ((n.log2 + 1022) * leadingBit + mantissa n) % leadingBit = 0 := by
      rw [carry, ← Nat.add_mul, Nat.mul_mod_left]
    have exponent : ((n.log2 + 1022) * leadingBit + mantissa n) / leadingBit = n.log2 + 1024 := by
      rw [carry, ← Nat.add_mul, Nat.mul_div_cancel _ (by decide)]
    have step : (((n.log2 + 1024 : Nat) : Int) - 1075) = ((n.log2 : Int) - 52) + 1 := by omega
    rw [fraction, exponent, carry, step, zpow_add_one₀ two_ne_zero]
    push_cast
    ring
  · have fraction : ((n.log2 + 1022) * leadingBit + mantissa n) % leadingBit =
        mantissa n - leadingBit := by
      simp only [leadingBit] at *
      omega
    have exponent : ((n.log2 + 1022) * leadingBit + mantissa n) / leadingBit = n.log2 + 1023 := by
      simp only [leadingBit] at *
      omega
    have step : (((n.log2 + 1023 : Nat) : Int) - 1075) = (n.log2 : Int) - 52 := by omega
    rw [fraction, exponent, step, Nat.add_sub_cancel' low]

theorem signOf_apply {n : Int} (nonzero : n ≠ 0) (m : Nat) :
    (((signOf (n < 0)).apply m : Int) : ℚ) = n.sign * (m : ℚ) := by
  by_cases negative : n < 0
  · simp [negative, signOf, Float.Model.UnpackedFloat.Sign.apply,
      Int.sign_eq_neg_one_of_neg negative]
  · have positive : 0 < n := by omega
    simp [negative, signOf, Float.Model.UnpackedFloat.Sign.apply, Int.sign_eq_one_of_pos positive]

theorem fraction?_ofInt {n : Int} (fits : FitsInt64 n) (nonzero : n ≠ 0) :
    fraction? (ofInt n) = some (n.sign * rounded n.natAbs) := by
  have pos : n.natAbs ≠ 0 := Int.natAbs_ne_zero.2 nonzero
  have small : n.natAbs ≤ int64Limit := by
    unfold FitsInt64 at fits
    unfold int64Limit
    omega
  obtain ⟨full, finite⟩ := magnitude_bounds pos small
  rw [ofInt_eq_ofBits fits, fraction?_ofBits _ full finite, signOf_apply nonzero, mul_assoc,
    fraction_magnitude pos]

/-! ## Rounded integers rounded towards zero -/

theorem towardZero_of_le {q : ℚ} {n : Int} (le : (n : ℚ) ≤ q) (nonneg : 0 ≤ n) :
    n ≤ towardZero q := by
  have above : (0 : ℚ) ≤ q := le_trans (by exact_mod_cast nonneg) le
  rw [towardZero_of_nonneg above]
  exact Int.le_floor.2 le

theorem truncate?_ofInt_zero : truncate? (ofInt 0) = some 0 := by
  have zero : ofInt 0 = ofBits false 0 := rfl
  rw [zero, truncate?_eq, fraction?, unpack_zero]
  simp [towardZero]

/-- An integer below `2 ^ 53` in magnitude comes back from a double. -/
theorem truncate?_ofInt_of_small {n : Int} (small : n.natAbs < 2 ^ 53) :
    truncate? (ofInt n) = some n := by
  by_cases zero : n = 0
  · rw [zero, truncate?_ofInt_zero]
  · have fits : FitsInt64 n := by
      unfold FitsInt64
      omega
    have bits : n.natAbs.log2 ≤ 52 := by
      have := (Nat.log2_lt (Int.natAbs_ne_zero.2 zero)).2 small
      omega
    have value : (n.sign : ℚ) * (n.natAbs : ℚ) = (n : ℚ) := by
      rw [← Int.cast_natCast, ← Int.cast_mul, Int.sign_mul_natAbs]
    rw [truncate?_eq, fraction?_ofInt fits zero, rounded_of_small bits, value, Option.map_some,
      towardZero_intCast]

/-- A negative integer does not become positive. -/
theorem truncate?_ofInt_of_neg {n : Int} (fits : FitsInt64 n) (negative : n < 0) :
    ∃ i, truncate? (ofInt n) = some i ∧ i ≤ 0 := by
  have pos := rounded_pos (Int.natAbs_ne_zero.2 negative.ne)
  refine ⟨_, by rw [truncate?_eq, fraction?_ofInt fits negative.ne]; rfl, ?_⟩
  have sign : (n.sign : ℚ) * rounded n.natAbs = -rounded n.natAbs := by
    rw [Int.sign_eq_neg_one_of_neg negative]
    simp
  rw [sign, towardZero_neg]
  have nonneg := towardZero_of_le (n := 0) (by simpa using pos.le) le_rfl
  omega

/-- An integer of more than 53 bits keeps that many. -/
theorem truncate?_ofInt_of_large {n : Int} (fits : FitsInt64 n) (large : 2 ^ 53 ≤ n) :
    ∃ i, truncate? (ofInt n) = some i ∧ 2 ^ 53 ≤ i := by
  have positive : 0 < n := by omega
  have bits : 53 ≤ n.natAbs.log2 := by
    rw [Nat.le_log2 (by omega)]
    omega
  refine ⟨_, by rw [truncate?_eq, fraction?_ofInt fits positive.ne']; rfl, ?_⟩
  rw [Int.sign_eq_one_of_pos positive, Int.cast_one, one_mul]
  exact towardZero_of_le (by exact_mod_cast le_rounded bits) (by omega)

theorem toWord?_of_truncate? {x : Float} {i : Int} (truncated : truncate? x = some i) :
    toWord? x = if i < wordLimit then some i.toNat else none := by
  unfold truncate? at truncated
  unfold toWord?
  cases parts : decode x with
  | finite d =>
    rw [parts] at truncated
    cases truncated
    rfl
  | nan | infinite =>
    rw [parts] at truncated
    cases truncated

end Binary64

namespace Value

/-! ## The number of copies -/

/-- An integer that is not too large asks for as many copies as it says, a negative one for none. -/
theorem repetitions?_of_small {n : Int64} (small : n.toInt < 2 ^ 53) :
    (int n).repetitions? = some n.toInt.toNat := by
  show Binary64.toWord? (Binary64.ofInt n.toInt) = _
  by_cases negative : n.toInt < 0
  · obtain ⟨i, truncated, nonpos⟩ :=
      Binary64.truncate?_ofInt_of_neg (fitsInt64_toInt n) negative
    have word : i < wordLimit := lt_of_le_of_lt nonpos (by decide)
    rw [Binary64.toWord?_of_truncate? truncated, if_pos word, Int.toNat_of_nonpos nonpos,
      Int.toNat_of_nonpos negative.le]
  · have word : n.toInt < wordLimit := lt_trans small (by decide)
    rw [Binary64.toWord?_of_truncate? (Binary64.truncate?_ofInt_of_small (by omega)), if_pos word]

/-- A larger integer never asks for fewer copies than `2 ^ 53`. -/
theorem le_repetitions? {n : Int64} (large : 2 ^ 53 ≤ n.toInt) {count : Nat}
    (asked : (int n).repetitions? = some count) : 2 ^ 53 ≤ count := by
  change Binary64.toWord? (Binary64.ofInt n.toInt) = _ at asked
  obtain ⟨i, truncated, above⟩ := Binary64.truncate?_ofInt_of_large (fitsInt64_toInt n) large
  rw [Binary64.toWord?_of_truncate? truncated] at asked
  by_cases word : i < wordLimit
  · rw [if_pos word] at asked
    cases asked
    omega
  · rw [if_neg word] at asked
    cases asked

/-! ## Copies of a text -/

/-- The text `s` written so many times in a row. -/
def copies (s : String) (count : Nat) : String :=
  String.join (List.replicate count s)

theorem utf8ByteSize_copies (s : String) (count : Nat) :
    (copies s count).utf8ByteSize = s.utf8ByteSize * count := by
  induction count with
  | zero => rfl
  | succ count ih =>
    have step : copies s (count + 1) = s ++ copies s count := by
      simp [copies, List.replicate_succ, String.join_cons]
    rw [step, String.utf8ByteSize_append, ih, Nat.mul_succ, Nat.add_comm]

/-- The size of a repeated text is compared with the limit, whether it is a word or not. -/
theorem repeated_of_count {s : String} {number : Value} {count : Nat} (nonempty : s ≠ "")
    (asked : number.repetitions? = some count) :
    repeated s number =
      if s.utf8ByteSize * count ≤ repeatLimit then .ok (text (copies s count))
      else .error (.sizeLimit repeatLimit) := by
  have some : ¬ s.isEmpty = true := by simpa using nonempty
  unfold repeated
  rw [if_neg some, asked]
  simp only [mulWord?]
  by_cases word : s.utf8ByteSize * count < wordLimit
  · rw [if_pos word]
    rfl
  · have large : ¬ s.utf8ByteSize * count ≤ repeatLimit := by
      unfold wordLimit at word
      unfold repeatLimit
      omega
    rw [if_neg word, if_neg large]

theorem repeated_int (s : String) (n : Int64) :
    repeated s (int n) =
      if s.utf8ByteSize * n.toInt.toNat ≤ repeatLimit then .ok (text (copies s n.toInt.toNat))
      else .error (.sizeLimit repeatLimit) := by
  by_cases empty : s = ""
  · have none : copies "" n.toInt.toNat = "" := by
      rw [← String.utf8ByteSize_eq_zero_iff, utf8ByteSize_copies]
      simp
    rw [empty, none]
    simp [repeated]
  have size : 1 ≤ s.utf8ByteSize := by
    rw [Nat.one_le_iff_ne_zero]
    exact mt String.utf8ByteSize_eq_zero_iff.1 empty
  by_cases small : n.toInt < 2 ^ 53
  · exact repeated_of_count empty (repetitions?_of_small small)
  · -- Both counts make the text too long, rounded or not.
    have tooLong : ∀ count : Nat, 2 ^ 53 ≤ count → ¬ s.utf8ByteSize * count ≤ repeatLimit := by
      intro count many
      have : count ≤ s.utf8ByteSize * count := Nat.le_mul_of_pos_left _ size
      unfold repeatLimit
      omega
    rw [if_neg (tooLong n.toInt.toNat (by omega))]
    cases asked : (int n).repetitions? with
    | some count =>
      rw [repeated_of_count empty asked,
        if_neg (tooLong count (le_repetitions? (not_lt.1 small) asked))]
    | none =>
      have some : ¬ s.isEmpty = true := by simpa using empty
      unfold repeated
      rw [if_neg some, asked]

end Value

/-- A text times an integer, in either order, is exactly as many copies of the text as the integer
says, none if it is negative, where these have at most the allowed number of bytes; and otherwise
the text would become too long. -/
theorem Heap.repetition_exact (h : Heap) (s : String) (n : Int64) :
    h.binary .mul (.text s) (.int n) = h.binary .mul (.int n) (.text s) ∧
    h.binary .mul (.text s) (.int n) =
      (if s.utf8ByteSize * (max 0 n.toInt).toNat ≤ Value.repeatLimit then
        .ok (.text (Value.copies s (max 0 n.toInt).toNat))
      else .error (.sizeLimit Value.repeatLimit)) ∧
    ∀ t, h.binary .mul (.text s) (.int n) = .ok (.text t) →
      t.utf8ByteSize = s.utf8ByteSize * (max 0 n.toInt).toNat := by
  have count : (max 0 n.toInt).toNat = n.toInt.toNat := by omega
  have result : h.binary .mul (.text s) (.int n) = Value.repeated s (.int n) := rfl
  rw [count, result, Value.repeated_int]
  refine ⟨?_, rfl, ?_⟩
  · have swapped : h.binary .mul (.int n) (.text s) = Value.repeated s (.int n) := rfl
    rw [swapped, Value.repeated_int]
  · intro t same
    split at same
    · cases same
      exact Value.utf8ByteSize_copies s _
    · cases same

end Polyglot
