import Polyglot.Proofs.Value.Rounding

/-!
# Doubles as fractions

A finite double is a fraction: an integer times a power of two. Rounding a double towards zero works
on its mantissa and its exponent alone and gives the integer part of that fraction.
-/

namespace Polyglot.Binary64

open Float.Model

/-- A fraction rounded towards zero. -/
def towardZero (q : ℚ) : Int :=
  if 0 ≤ q then ⌊q⌋ else ⌈q⌉

@[simp] theorem towardZero_intCast (n : Int) : towardZero n = n := by
  simp [towardZero]

theorem towardZero_of_nonneg {q : ℚ} (nonneg : 0 ≤ q) : towardZero q = ⌊q⌋ :=
  if_pos nonneg

theorem towardZero_neg (q : ℚ) : towardZero (-q) = -towardZero q := by
  rcases lt_trichotomy q 0 with neg | rfl | pos
  · rw [towardZero, towardZero, if_pos (by linarith), if_neg (by linarith), Int.floor_neg]
  · simp [towardZero]
  · rw [towardZero, towardZero, if_neg (by linarith), if_pos pos.le, Int.ceil_neg]

/-- The fraction that a double is, if it is finite. -/
def fraction? (x : Float) : Option ℚ :=
  match x.toModel.unpack with
  | .zero _ => some 0
  | .finite sign mantissa exponent _ => some (sign.apply mantissa * 2 ^ exponent)
  | .infinity _ | .notANumber => none

theorem fraction?_eq_none {x : Float} : fraction? x = none ↔ x.isFinite = false := by
  show fraction? x = none ↔ x.toModel.unpack.isFinite = false
  unfold fraction?
  cases x.toModel.unpack <;> simp [UnpackedFloat.isFinite]

/-! ## Taking doubles apart -/

/-- The fraction that an exact number is. -/
def Exact.fraction (d : Exact) : ℚ :=
  (signOf d.negative).apply d.mantissa * 2 ^ d.exponent

@[simp] theorem signOf_apply_zero (negative : Bool) : (signOf negative).apply 0 = 0 := by
  cases negative <;> rfl

/-- The fraction that finite parts are. -/
def Parts.fraction? : Parts → Option ℚ
  | .finite d => some d.fraction
  | _ => none

/-- A double that is taken apart is still the same fraction. -/
theorem fraction?_decode (x : Float) : (decode x).fraction? = fraction? x := by
  have special : @UnpackedFloat.unpackExponent .binary64 x.toBits.toBitVec = -1#_ ↔
      x.toBits.toNat / leadingBit % 2048 = specialExponent := by
    rw [← BitVec.toNat_inj, toNat_unpackExponent]
    rfl
  have smallest : @UnpackedFloat.unpackExponent .binary64 x.toBits.toBitVec = 0#_ ↔
      x.toBits.toNat / leadingBit % 2048 = 0 := by
    rw [← BitVec.toNat_inj, toNat_unpackExponent]
    rfl
  have empty : @UnpackedFloat.unpackMantissa .binary64 x.toBits.toBitVec = 0#_ ↔
      x.toBits.toNat % leadingBit = 0 := by
    rw [← BitVec.toNat_inj, toNat_unpackMantissa]
    rfl
  have unpacked : x.toModel.unpack = UnpackedFloat.unpack .binary64 x.toBits.toBitVec := rfl
  have bias := bias_eq
  have full := toNat_fullMantissa x.toBits
  have written := toNat_unpackMantissa x.toBits
  unfold decode fraction?
  rw [unpacked, UnpackedFloat.unpack]
  simp only [special, smallest, empty, ofBitVec_unpackSign, toNat_unpackExponent, bias]
  -- numbers that are not finite, then zero and the numbers without a leading bit, then all others
  by_cases top : x.toBits.toNat / leadingBit % 2048 = specialExponent
  · simp only [if_pos top]
    by_cases none : x.toBits.toNat % leadingBit = 0 <;> simp only [none] <;> rfl
  · simp only [if_neg top]
    by_cases bottom : x.toBits.toNat / leadingBit % 2048 = 0
    · simp only [if_pos bottom]
      by_cases zero : x.toBits.toNat % leadingBit = 0
      · simp [Parts.fraction?, Exact.fraction, zero]
      · simp only [dif_neg zero, bottom, written]
        rfl
    · simp only [if_neg bottom, full]
      rfl

/-! ## Rounding towards zero -/

theorem floorAbs_eq_floor (d : Exact) :
    (d.floorAbs : Int) = ⌊(d.mantissa : ℚ) * 2 ^ d.exponent⌋ := by
  unfold Exact.floorAbs
  by_cases whole : 0 ≤ d.exponent
  · obtain ⟨k, exponent⟩ := Int.eq_ofNat_of_zero_le whole
    rw [if_pos whole, exponent, Int.toNat_natCast, zpow_natCast, Nat.pow_eq]
    exact_mod_cast (Int.floor_natCast (R := ℚ) (d.mantissa * 2 ^ k)).symm
  · obtain ⟨k, exponent⟩ := Int.eq_ofNat_of_zero_le (a := -d.exponent) (by omega)
    have power : (2 : ℚ) ^ d.exponent = ((2 ^ k : ℕ) : ℚ)⁻¹ := by
      rw [show d.exponent = -(k : ℤ) by omega, zpow_neg, zpow_natCast, Nat.cast_pow, Nat.cast_ofNat]
    rw [if_neg whole, exponent, Int.toNat_natCast, power, ← div_eq_mul_inv,
      Rat.floor_natCast_div_natCast, Nat.pow_eq, Int.natCast_ediv]

theorem truncate_eq (d : Exact) : d.truncate = towardZero d.fraction := by
  have nonneg : (0 : ℚ) ≤ d.mantissa * 2 ^ d.exponent := by positivity
  have magnitude : towardZero (d.mantissa * 2 ^ d.exponent) = d.floorAbs := by
    rw [towardZero_of_nonneg nonneg, floorAbs_eq_floor]
  rw [Exact.truncate, Exact.fraction]
  cases d.negative with
  | true =>
    show -(d.floorAbs : Int) = towardZero (((-(d.mantissa : Int) : Int) : ℚ) * 2 ^ d.exponent)
    rw [Int.cast_neg, neg_mul, towardZero_neg, Int.cast_natCast, magnitude]
  | false => exact magnitude.symm

/-- A double rounded towards zero is the integer part of the fraction that it is. -/
theorem truncate?_eq (x : Float) : truncate? x = (fraction? x).map towardZero := by
  rw [← fraction?_decode, truncate?]
  cases decode x with
  | finite d => simp [Parts.fraction?, truncate_eq]
  | _ => rfl

end Polyglot.Binary64
