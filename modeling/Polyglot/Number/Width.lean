/-!
# Numbers of 64 bits

Which numbers fit 64 bits, with and without a sign.
-/

namespace Polyglot

/-- The number of 64-bit words. -/
def wordLimit : Nat := 18446744073709551616

/-- One more than the largest integer of 64 signed bits. -/
def int64Limit : Nat := 9223372036854775808

/-- The product of two words, if it is one. -/
def mulWord? (a b : Nat) : Option Nat :=
  if a * b < wordLimit then some (a * b) else none

/-- The integers of 64 signed bits. -/
def FitsInt64 (n : Int) : Prop :=
  -9223372036854775808 ≤ n ∧ n < 9223372036854775808

instance (n : Int) : Decidable (FitsInt64 n) :=
  inferInstanceAs (Decidable (_ ∧ _))

/-- An integer of 64 signed bits keeps its value. -/
theorem FitsInt64.toInt_ofInt {n : Int} (h : FitsInt64 n) : (Int64.ofInt n).toInt = n :=
  Int64.toInt_ofInt_of_le (by simpa using h.1) (by simpa using h.2)

/-- The value of an integer of 64 signed bits fits them. -/
theorem fitsInt64_toInt (n : Int64) : FitsInt64 n.toInt :=
  ⟨by simpa using n.le_toInt, by simpa using n.toInt_lt⟩

/-- The nearest integer of 64 signed bits. -/
def clampInt64 (n : Int) : Int64 :=
  Int64.ofInt (max (-9223372036854775808) (min n 9223372036854775807))

end Polyglot
