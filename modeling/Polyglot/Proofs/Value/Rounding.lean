import Polyglot.Proofs.Value.Doubles

/-!
# The order of rounded integers

An integer is compared as the double nearest to it. Rounding keeps the order of integers, but not
that they are apart: only up to `2 ^ 53` are all of them doubles themselves. Both are read off the
bits, which grow with the magnitude and are compared first by sign.
-/

namespace Polyglot.Binary64

/-! ## Rounded quotients -/

theorem roundDiv_mul (a : Nat) {den : Nat} (pos : 0 < den) : roundDiv (a * den) den = a := by
  simp [roundDiv, Nat.mul_div_cancel _ pos, pos]

theorem div_le_roundDiv (num den : Nat) : num / den ≤ roundDiv num den := by
  unfold roundDiv
  dsimp only
  split_ifs <;> omega

theorem roundDiv_le (num den : Nat) : roundDiv num den ≤ num / den + 1 := by
  unfold roundDiv
  dsimp only
  split_ifs <;> omega

/-- Rounding keeps the order. -/
theorem roundDiv_mono (den : Nat) {num num' : Nat} (le : num ≤ num') :
    roundDiv num den ≤ roundDiv num' den := by
  have quotients : num / den ≤ num' / den := Nat.div_le_div_right le
  by_cases same : num / den = num' / den
  · have remainders : num % den ≤ num' % den := by
      have whole := Nat.div_add_mod num den
      have whole' := Nat.div_add_mod num' den
      rw [same] at whole
      omega
    unfold roundDiv
    dsimp only
    rw [same]
    split_ifs <;> omega
  · calc roundDiv num den
      _ ≤ num / den + 1 := roundDiv_le num den
      _ ≤ num' / den := by omega
      _ ≤ roundDiv num' den := div_le_roundDiv num' den

/-! ## The bits of an integer -/

/-- The mantissa of a positive integer, brought to 53 bits. -/
def mantissa (n : Nat) : Nat :=
  let (num, den) := scaled n 1 ((n.log2 : Int) - 52)
  roundDiv num den

/-- The bits of the double nearest to a natural number, without a sign. -/
def magnitude (n : Nat) : Nat :=
  if n = 0 then 0 else (n.log2 + 1022) * leadingBit + mantissa n

/-- Up to 53 bits nothing is rounded. -/
theorem mantissa_small {n : Nat} (small : n.log2 ≤ 52) : mantissa n = n * 2 ^ (52 - n.log2) := by
  have whole (a : Nat) : roundDiv a 1 = a := by
    simpa using roundDiv_mul a Nat.one_pos
  unfold mantissa scaled
  by_cases full : n.log2 = 52
  · simp [full, whole]
  · have below : ¬ (0 : Int) ≤ (n.log2 : Int) - 52 := by omega
    have shift : (-((n.log2 : Int) - 52)).toNat = 52 - n.log2 := by omega
    simp only [if_neg below, shift, whole]
    rfl

theorem mantissa_large {n : Nat} (large : 52 ≤ n.log2) :
    mantissa n = roundDiv n (2 ^ (n.log2 - 52)) := by
  have above : (0 : Int) ≤ (n.log2 : Int) - 52 := by omega
  have shift : ((n.log2 : Int) - 52).toNat = n.log2 - 52 := by omega
  unfold mantissa scaled
  simp only [if_pos above, shift, Nat.one_mul]
  rfl

theorem leadingBit_eq : leadingBit = 2 ^ 52 := by decide

/-- A mantissa has 53 bits, or is the first number that has more. -/
theorem mantissa_bounds {n : Nat} (pos : n ≠ 0) :
    leadingBit ≤ mantissa n ∧ mantissa n ≤ 2 * leadingBit := by
  have low := Nat.log2_self_le pos
  have high : n < 2 ^ (n.log2 + 1) := Nat.lt_log2_self
  rw [leadingBit_eq]
  by_cases small : n.log2 ≤ 52
  · have power : 2 ^ n.log2 * 2 ^ (52 - n.log2) = 2 ^ 52 := by
      rw [← Nat.pow_add]
      congr 1
      omega
    rw [mantissa_small small]
    constructor
    · calc 2 ^ 52
        _ = 2 ^ n.log2 * 2 ^ (52 - n.log2) := power.symm
        _ ≤ n * 2 ^ (52 - n.log2) := Nat.mul_le_mul_right _ low
    · calc n * 2 ^ (52 - n.log2)
        _ ≤ 2 ^ (n.log2 + 1) * 2 ^ (52 - n.log2) := Nat.mul_le_mul_right _ high.le
        _ = 2 * 2 ^ 52 := by rw [Nat.pow_succ', Nat.mul_assoc, power]
  · have pos' : 0 < 2 ^ (n.log2 - 52) := Nat.two_pow_pos _
    have power : 2 ^ 52 * 2 ^ (n.log2 - 52) = 2 ^ n.log2 := by
      rw [← Nat.pow_add]
      congr 1
      omega
    rw [mantissa_large (by omega)]
    constructor
    · rw [← roundDiv_mul (2 ^ 52) pos', power]
      exact roundDiv_mono _ low
    · rw [← roundDiv_mul (2 * 2 ^ 52) pos', Nat.mul_assoc, power, ← Nat.pow_succ']
      exact roundDiv_mono _ high.le

/-- Mantissas with the same number of bits keep the order. -/
theorem mantissa_mono {m n : Nat} (same : m.log2 = n.log2) (le : m ≤ n) :
    mantissa m ≤ mantissa n := by
  by_cases small : n.log2 ≤ 52
  · rw [mantissa_small small, mantissa_small (same ▸ small), same]
    exact Nat.mul_le_mul_right _ le
  · rw [mantissa_large (by omega), mantissa_large (by omega), same]
    exact roundDiv_mono _ le

theorem mantissa_strictMono {m n : Nat} (same : m.log2 = n.log2) (small : n.log2 ≤ 52)
    (lt : m < n) : mantissa m < mantissa n := by
  rw [mantissa_small small, mantissa_small (same ▸ small), same]
  exact Nat.mul_lt_mul_of_pos_right lt (Nat.two_pow_pos _)

theorem mantissa_lt {n : Nat} (small : n.log2 ≤ 52) : mantissa n < 2 * leadingBit := by
  rw [mantissa_small small, leadingBit_eq]
  calc n * 2 ^ (52 - n.log2)
    _ < 2 ^ (n.log2 + 1) * 2 ^ (52 - n.log2) :=
      Nat.mul_lt_mul_of_pos_right Nat.lt_log2_self (Nat.two_pow_pos _)
    _ = 2 * 2 ^ 52 := by
      rw [← Nat.pow_add, ← Nat.pow_succ']
      congr 1
      omega

theorem log2_mono {m n : Nat} (pos : m ≠ 0) (le : m ≤ n) : m.log2 ≤ n.log2 := by
  rw [Nat.le_log2 (by omega)]
  exact (Nat.log2_self_le pos).trans le

/-- The bits grow with the number. -/
theorem magnitude_mono {m n : Nat} (le : m ≤ n) : magnitude m ≤ magnitude n := by
  by_cases zero : m = 0
  · simp [magnitude, zero]
  · have logs := log2_mono zero le
    have high := (mantissa_bounds zero).2
    have low := (mantissa_bounds (show n ≠ 0 by omega)).1
    rw [magnitude, magnitude, if_neg zero, if_neg (by omega)]
    by_cases same : m.log2 = n.log2
    · have := mantissa_mono same le
      rw [same]
      omega
    · simp only [leadingBit] at *
      omega

/-- Up to `2 ^ 53` different numbers have different bits. -/
theorem magnitude_strictMono {m n : Nat} (lt : m < n) (small : m < 2 ^ 53) :
    magnitude m < magnitude n := by
  have low := (mantissa_bounds (show n ≠ 0 by omega)).1
  by_cases zero : m = 0
  · rw [magnitude, if_pos zero, magnitude, if_neg (by omega)]
    simp only [leadingBit] at *
    omega
  · have logs := log2_mono zero lt.le
    have bits : m.log2 ≤ 52 := by
      have := (Nat.log2_lt zero).2 small
      omega
    have high := mantissa_lt bits
    rw [magnitude, magnitude, if_neg zero, if_neg (by omega)]
    by_cases same : m.log2 = n.log2
    · have := mantissa_strictMono same (same ▸ bits) lt
      rw [same]
      omega
    · simp only [leadingBit] at *
      omega

/-! ## Rounded integers -/

/-- The last bit of the double nearest to a natural number. -/
theorem lastBit_nat {n : Nat} (pos : n ≠ 0) : lastBit n 1 = (n.log2 : Int) - 52 := by
  have low := Nat.log2_self_le pos
  have guess : max (-1074) ((n.log2 : Int) - (Nat.log2 1 : Nat) - 53) = (n.log2 : Int) - 53 := by
    have one : Nat.log2 1 = 0 := by decide
    omega
  have more : 2 * leadingBit ≤
      (scaled n 1 ((n.log2 : Int) - 53)).1 / (scaled n 1 ((n.log2 : Int) - 53)).2 := by
    rw [leadingBit_eq, scaled]
    by_cases above : (0 : Int) ≤ (n.log2 : Int) - 53
    · have shift : ((n.log2 : Int) - 53).toNat = n.log2 - 53 := by omega
      rw [if_pos above, shift, Nat.one_mul]
      show _ ≤ n / 2 ^ (n.log2 - 53)
      rw [Nat.le_div_iff_mul_le (Nat.two_pow_pos _), ← Nat.pow_succ', ← Nat.pow_add]
      have sum : 53 + (n.log2 - 53) = n.log2 := by omega
      rwa [sum]
    · have shift : (-((n.log2 : Int) - 53)).toNat = 53 - n.log2 := by omega
      rw [if_neg above, shift]
      show _ ≤ n * 2 ^ (53 - n.log2) / 1
      rw [Nat.div_one, ← Nat.pow_succ']
      calc 2 ^ 53
        _ = 2 ^ n.log2 * 2 ^ (53 - n.log2) := by
          rw [← Nat.pow_add]
          congr 1
          omega
        _ ≤ n * 2 ^ (53 - n.log2) := Nat.mul_le_mul_right _ low
  unfold lastBit
  simp only [guess]
  rw [if_pos more]
  omega

/-- The bits of an integer that fits 64 bits are those of a number. -/
theorem magnitude_bounds {n : Nat} (pos : n ≠ 0) (fits : n ≤ int64Limit) :
    leadingBit ≤ magnitude n ∧ magnitude n < infinityBits := by
  have bits : n.log2 < 64 := by
    rw [Nat.log2_lt pos]
    exact Nat.lt_of_le_of_lt fits (by decide)
  have bounds := mantissa_bounds pos
  rw [magnitude, if_neg pos]
  simp only [infinityBits, specialExponent, leadingBit] at *
  omega

theorem ofInt_eq_ofBits {n : Int} (fits : FitsInt64 n) :
    ofInt n = ofBits (n < 0) (magnitude n.natAbs) := by
  unfold ofInt ofFraction
  by_cases zero : n.natAbs = 0
  · simp [zero, magnitude]
  · have small : n.natAbs ≤ int64Limit := by
      unfold FitsInt64 at fits
      unfold int64Limit
      omega
    have finite := (magnitude_bounds zero small).2
    have full := (mantissa_bounds zero).1
    have exponent : ((n.natAbs.log2 : Int) - 52 + 1075).toNat = n.natAbs.log2 + 1023 := by omega
    have bits : (n.natAbs.log2 + 1023) * leadingBit + (mantissa n.natAbs - leadingBit) =
        magnitude n.natAbs := by
      rw [magnitude, if_neg zero]
      simp only [leadingBit] at *
      omega
    rw [if_neg zero, lastBit_nat zero]
    show ofBits _ (min (if mantissa n.natAbs < leadingBit then mantissa n.natAbs
      else ((n.natAbs.log2 : Int) - 52 + 1075).toNat * leadingBit +
        (mantissa n.natAbs - leadingBit)) infinityBits) = _
    rw [if_neg (by omega), exponent, bits, min_eq_left finite.le]

/-! ## Comparing bits -/

open Float.Model

/-- The word of a sign and other bits. -/
def word (negative : Bool) (bits : Nat) : UInt64 :=
  (bits + if negative then signBit else 0).toUInt64

/-- The sign of a double. -/
def signOf (negative : Bool) : UnpackedFloat.Sign :=
  if negative then .negative else .positive

/-- The sign bit is set just for negative numbers. -/
theorem ofBitVec_unpackSign (b : UInt64) :
    UnpackedFloat.Sign.ofBitVec (@UnpackedFloat.unpackSign .binary64 b.toBitVec) =
      signOf (signBit ≤ b.toNat) := by
  have bound := b.toNat_lt
  simp only [UnpackedFloat.Sign.ofBitVec, ← BitVec.toNat_inj, toNat_unpackSign, signOf, signBit]
  by_cases negative : 9223372036854775808 ≤ b.toNat
  · have set : b.toNat / 9223372036854775808 % 2 = 1 := by omega
    simp [negative, set]
  · have clear : b.toNat / 9223372036854775808 % 2 = 0 := by omega
    simp [negative, clear]

section

variable (negative : Bool) {bits : Nat} (finite : bits < infinityBits)

include finite

theorem toNat_word : (word negative bits).toNat = bits + if negative then signBit else 0 := by
  simp only [infinityBits, specialExponent, leadingBit] at finite
  cases negative <;> simp [word, signBit] <;> omega

theorem exponent_word :
    (@UnpackedFloat.unpackExponent .binary64 (word negative bits).toBitVec).toNat =
      bits / leadingBit := by
  rw [toNat_unpackExponent, toNat_word negative finite]
  simp only [infinityBits, specialExponent, leadingBit] at *
  cases negative <;> simp [signBit] <;> omega

theorem mantissa_word :
    (@UnpackedFloat.unpackMantissa .binary64 (word negative bits).toBitVec).toNat =
      bits % leadingBit := by
  rw [toNat_unpackMantissa, toNat_word negative finite]
  simp only [infinityBits, specialExponent, leadingBit] at *
  cases negative with
  | false => simp
  | true =>
    simp [signBit]
    omega

theorem sign_word :
    UnpackedFloat.Sign.ofBitVec
        (@UnpackedFloat.unpackSign .binary64 (word negative bits).toBitVec) =
      signOf negative := by
  rw [ofBitVec_unpackSign, toNat_word negative finite]
  simp only [infinityBits, specialExponent, leadingBit] at finite
  have set : decide (signBit ≤ bits + if negative then signBit else 0) = negative := by
    cases negative with
    | false =>
      simp [signBit]
      omega
    | true => simp
  rw [set]

theorem not_special :
    @UnpackedFloat.unpackExponent .binary64 (word negative bits).toBitVec ≠ -1#_ := by
  intro special
  have value := congrArg BitVec.toNat special
  rw [exponent_word negative finite] at value
  simp only [infinityBits, specialExponent, leadingBit] at *
  simp at value
  omega

/-- The bits of a finite number are taken apart as they are. -/
theorem unpack_ofBits :
    (ofBits negative bits).toModel.unpack =
      UnpackedFloat.unpack .binary64 (word negative bits).toBitVec := by
  have number : ¬ @UnpackedFloat.isNaNBits .binary64 (word negative bits).toBitVec = true := by
    rw [UnpackedFloat.isNaNBits, decide_eq_true_eq]
    exact fun special => not_special negative finite special.1
  have written : (ofBits negative bits).toBits.toBitVec =
      if @UnpackedFloat.isNaNBits .binary64 (word negative bits).toBitVec then
        UnpackedFloat.packedNaN .binary64
      else (word negative bits).toBitVec :=
    @UnpackedFloat.pack_unpack .binary64 (word negative bits).toBitVec (by decide)
  rw [if_neg number] at written
  exact congrArg (UnpackedFloat.unpack .binary64) written

/-- A number with a full mantissa is taken apart into it and its exponent. -/
theorem unpack_full (full : leadingBit ≤ bits) :
    ∃ pos, (ofBits negative bits).toModel.unpack =
      .finite (signOf negative) (leadingBit + bits % leadingBit)
        ((bits / leadingBit : Nat) - 1075) pos := by
  have exponent := exponent_word negative finite
  have nonzero : @UnpackedFloat.unpackExponent .binary64 (word negative bits).toBitVec ≠ 0#_ := by
    intro zero
    rw [zero] at exponent
    simp only [leadingBit] at *
    simp at exponent
    omega
  have leading :
      (1#1 ++ @UnpackedFloat.unpackMantissa .binary64 (word negative bits).toBitVec).toNat =
      leadingBit + bits % leadingBit := by
    rw [toNat_fullMantissa, ← toNat_unpackMantissa, mantissa_word negative finite]
  have bias := bias_eq
  refine ⟨by simp [leadingBit], ?_⟩
  rw [unpack_ofBits negative finite, UnpackedFloat.unpack]
  simp only [if_neg (not_special negative finite), if_neg nonzero, sign_word negative finite,
    exponent, leading, bias]

end

theorem unpack_zero (negative : Bool) :
    (ofBits negative 0).toModel.unpack = .zero (signOf negative) := by
  have finite : 0 < infinityBits := by decide
  have zero : @UnpackedFloat.unpackExponent .binary64 (word negative 0).toBitVec = 0#_ ∧
      @UnpackedFloat.unpackMantissa .binary64 (word negative 0).toBitVec = 0#_ := by
    constructor <;> apply BitVec.eq_of_toNat_eq
    · rw [exponent_word negative finite]
      rfl
    · rw [mantissa_word negative finite]
      rfl
  rw [unpack_ofBits negative finite, UnpackedFloat.unpack]
  simp only [if_neg (not_special negative finite), if_pos zero.1, dif_pos zero.2,
    sign_word negative finite]

/-! ## The order of doubles -/

/-- The bits of zero or of a number with a full mantissa. -/
def Plain (bits : Nat) : Prop :=
  bits = 0 ∨ leadingBit ≤ bits ∧ bits < infinityBits

/-- Bits with their sign, as a number. -/
def signed (negative : Bool) (bits : Nat) : Int :=
  if negative then -bits else bits

theorem isLE_then_compare (e e' : Int) (m m' : Nat) :
    ((compare e e').then (compare m m')).isLE = true ↔ e < e' ∨ e = e' ∧ m ≤ m' := by
  rcases lt_trichotomy e e' with less | same | more
  · simp [compare_lt_iff_lt.2 less, less]
  · simp [same, Nat.isLE_compare]
  · simp [compare_gt_iff_gt.2 more, more.le, more.ne']

theorem isGE_then_compare (e e' : Int) (m m' : Nat) :
    ((compare e e').then (compare m m')).isGE = true ↔ e' < e ∨ e' = e ∧ m' ≤ m := by
  rw [← Ordering.isLE_swap, Ordering.swap_then, Int.compare_swap, Nat.compare_swap,
    isLE_then_compare]

/-- Doubles are in the order of their bits. -/
theorem ofBits_le_ofBits {negative negative' : Bool} {bits bits' : Nat} (plain : Plain bits)
    (plain' : Plain bits') :
    ofBits negative bits ≤ ofBits negative' bits' ↔
      signed negative bits ≤ signed negative' bits' := by
  have unfolded : ofBits negative bits ≤ ofBits negative' bits' ↔
      (ofBits negative bits).toModel.unpack.le (ofBits negative' bits').toModel.unpack = true :=
    decide_eq_true_iff
  rw [unfolded, UnpackedFloat.le]
  rcases plain with rfl | ⟨full, finite⟩ <;> rcases plain' with rfl | ⟨full', finite'⟩
  · rw [unpack_zero, unpack_zero]
    simp [UnpackedFloat.compare, signed]
  · obtain ⟨pos, unpacked⟩ := unpack_full negative' finite' full'
    rw [unpack_zero, unpacked]
    simp only [leadingBit] at full'
    cases negative' <;> simp [UnpackedFloat.compare, signed, signOf]
    omega
  · obtain ⟨pos, unpacked⟩ := unpack_full negative finite full
    rw [unpack_zero, unpacked]
    simp only [leadingBit] at full
    cases negative <;> simp [UnpackedFloat.compare, signed, signOf]
    omega
  · obtain ⟨pos, unpacked⟩ := unpack_full negative finite full
    obtain ⟨pos', unpacked'⟩ := unpack_full negative' finite' full'
    rw [unpacked, unpacked']
    simp only [leadingBit] at full full'
    cases negative <;> cases negative' <;>
      simp [UnpackedFloat.compare, signed, signOf, isLE_then_compare, isGE_then_compare,
        leadingBit] <;>
      omega

/-- The bits of an integer with their sign. -/
def key (n : Int) : Int :=
  signed (n < 0) (magnitude n.natAbs)

theorem ofInt_le_ofInt_iff {m n : Int} (fits : FitsInt64 m) (fits' : FitsInt64 n) :
    ofInt m ≤ ofInt n ↔ key m ≤ key n := by
  have plain {k : Int} (fits : FitsInt64 k) : Plain (magnitude k.natAbs) := by
    by_cases zero : k.natAbs = 0
    · exact .inl (by simp [magnitude, zero])
    · refine .inr (magnitude_bounds zero ?_)
      unfold FitsInt64 at fits
      unfold int64Limit
      omega
  rw [ofInt_eq_ofBits fits, ofInt_eq_ofBits fits', ofBits_le_ofBits (plain fits) (plain fits')]
  rfl

theorem key_of_neg {n : Int} (neg : n < 0) : key n = -(magnitude n.natAbs : Int) := by
  simp [key, signed, neg]

theorem key_of_nonneg {n : Int} (nonneg : 0 ≤ n) : key n = (magnitude n.natAbs : Int) := by
  simp [key, signed, Int.not_lt.2 nonneg]

theorem key_mono {m n : Int} (le : m ≤ n) : key m ≤ key n := by
  by_cases first : m < 0
  · by_cases second : n < 0
    · have := magnitude_mono (show n.natAbs ≤ m.natAbs by omega)
      rw [key_of_neg first, key_of_neg second]
      omega
    · rw [key_of_neg first, key_of_nonneg (by omega)]
      omega
  · have := magnitude_mono (show m.natAbs ≤ n.natAbs by omega)
    rw [key_of_nonneg (by omega), key_of_nonneg (by omega)]
    omega

theorem key_strictMono {m n : Int} (lt : m < n) (small : m.natAbs < 2 ^ 53 ∨ n.natAbs < 2 ^ 53) :
    key m < key n := by
  by_cases first : m < 0
  · by_cases second : n < 0
    · have := magnitude_strictMono (show n.natAbs < m.natAbs by omega) (by omega)
      rw [key_of_neg first, key_of_neg second]
      omega
    · have := magnitude_strictMono (show 0 < m.natAbs by omega) (by decide)
      rw [key_of_neg first, key_of_nonneg (by omega)]
      omega
  · have := magnitude_strictMono (show m.natAbs < n.natAbs by omega) (by omega)
    rw [key_of_nonneg (by omega), key_of_nonneg (by omega)]
    omega

/-- Rounding keeps the order of integers. -/
theorem ofInt_mono {m n : Int} (fits : FitsInt64 m) (fits' : FitsInt64 n) (le : m ≤ n) :
    ofInt m ≤ ofInt n :=
  (ofInt_le_ofInt_iff fits fits').2 (key_mono le)

/-- Different integers stay apart if one of them is below `2 ^ 53` in magnitude. -/
theorem not_ofInt_le {m n : Int} (fits : FitsInt64 m) (fits' : FitsInt64 n) (lt : m < n)
    (small : m.natAbs < 2 ^ 53 ∨ n.natAbs < 2 ^ 53) : ¬ ofInt n ≤ ofInt m := by
  rw [ofInt_le_ofInt_iff fits' fits]
  exact Int.not_le.2 (key_strictMono lt small)

end Polyglot.Binary64
