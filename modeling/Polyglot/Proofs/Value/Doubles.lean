import Mathlib
import Polyglot.Number.Binary64

/-!
# Equality of doubles

Equality of doubles is symmetric and transitive, and a double is equal to itself unless it is not a
number. No integer is rounded to something that is not a number.
-/

namespace Polyglot.Binary64

open Float.Model

/-! ## Equality -/

theorem beq_symm {x y : Float} (equal : (x == y) = true) : (y == x) = true := by
  rw [Float.beq_iff_ne_nan_and_eq] at *
  obtain ⟨left, right, same⟩ := equal
  exact ⟨right, left, same.imp Eq.symm fun zeros => zeros.symm.imp And.symm And.symm⟩

theorem beq_trans {x y z : Float} (first : (x == y) = true) (second : (y == z) = true) :
    (x == z) = true := by
  rw [Float.beq_iff_ne_nan_and_eq] at *
  obtain ⟨left, -, same⟩ := first
  obtain ⟨-, right, same'⟩ := second
  refine ⟨left, right, ?_⟩
  grind

theorem beq_self_iff {x : Float} : (x == x) = true ↔ x.isNaN = false := by
  simp

/-! ## Bits -/

/-- Only bits with the special exponent and some fraction are read as what is not a number. -/
theorem isNaNBits_of_isNaN {b : UInt64} (unreadable : (Float.ofBits b).isNaN = true) :
    @UnpackedFloat.isNaNBits .binary64 b.toBitVec = true := by
  have written : (Float.ofBits b).toBits.toBitVec =
      if @UnpackedFloat.isNaNBits .binary64 b.toBitVec then UnpackedFloat.packedNaN .binary64
      else b.toBitVec := @UnpackedFloat.pack_unpack .binary64 b.toBitVec (by decide)
  rw [Float.isNaN_eq_decide_eq_nan, decide_eq_true_eq, ← Float.toBits_inj, ← UInt64.toBitVec_inj,
    written] at unreadable
  by_contra number
  rw [if_neg number] at unreadable
  apply number
  rw [unreadable]
  exact UnpackedFloat.isNaNBits_packedNaN

theorem toNat_unpackExponent (b : UInt64) :
    (@UnpackedFloat.unpackExponent .binary64 b.toBitVec).toNat =
      b.toNat / leadingBit % 2048 := by
  simp [UnpackedFloat.unpackExponent, BitVec.extractLsb, leadingBit, Nat.shiftRight_eq_div_pow]

theorem toNat_unpackMantissa (b : UInt64) :
    (@UnpackedFloat.unpackMantissa .binary64 b.toBitVec).toNat = b.toNat % leadingBit := by
  simp [UnpackedFloat.unpackMantissa, BitVec.extractLsb, leadingBit]

theorem toNat_unpackSign (b : UInt64) :
    (@UnpackedFloat.unpackSign .binary64 b.toBitVec).toNat = b.toNat / signBit % 2 := by
  simp [UnpackedFloat.unpackSign, BitVec.extractLsb, signBit, Nat.shiftRight_eq_div_pow]

/-- The mantissa with the leading bit that is not written. -/
theorem toNat_fullMantissa (b : UInt64) :
    (1#1 ++ @UnpackedFloat.unpackMantissa .binary64 b.toBitVec).toNat =
      leadingBit + b.toNat % leadingBit := by
  rw [BitVec.toNat_append, ← Nat.shiftLeft_add_eq_or_of_lt (BitVec.isLt _), toNat_unpackMantissa]
  simp [leadingBit, Nat.shiftLeft_eq]

/-- How far the exponent field lies above the exponent of the last bit. -/
theorem bias_eq : ((Format.binary64.exponentBias : Nat) : Int) +
    (Format.binary64.mantissaBitsWithoutImplicit : Nat) = 1075 := by
  decide

/-- Bits up to those of infinity are those of a number. -/
theorem isNaN_ofBits (negative : Bool) {bits : Nat} (bound : bits ≤ infinityBits) :
    (ofBits negative bits).isNaN = false := by
  rw [← Bool.not_eq_true]
  intro unreadable
  have bitwise := isNaNBits_of_isNaN unreadable
  rw [UnpackedFloat.isNaNBits, decide_eq_true_eq] at bitwise
  obtain ⟨exponent, mantissa⟩ := bitwise
  have special := congrArg BitVec.toNat exponent
  rw [toNat_unpackExponent] at special
  have fraction : _ ≠ 0 := fun zero => mantissa (BitVec.eq_of_toNat_eq zero)
  rw [toNat_unpackMantissa] at fraction
  have whole : (bits + if negative then signBit else 0).toUInt64.toNat =
      bits + if negative then signBit else 0 := by
    simp only [infinityBits, specialExponent, leadingBit] at bound
    cases negative <;> simp [signBit] <;> omega
  rw [whole] at special fraction
  simp only [infinityBits, specialExponent, leadingBit] at bound special fraction
  cases negative <;> simp [signBit] at special fraction <;> omega

theorem isNaN_ofInt (n : Int) : (ofInt n).isNaN = false := by
  unfold ofInt ofFraction
  split
  · exact isNaN_ofBits _ (Nat.zero_le _)
  · exact isNaN_ofBits _ (Nat.min_le_right _ _)

end Polyglot.Binary64
