import Mathlib
import Polyglot.Number.Decimal
import Polyglot.Proofs.Value.Truncation

/-!
# The shortest decimal of a double

Around every positive double lies the interval of numbers that round to it, and no two doubles have
a number in common there. The shortest decimal is taken from this interval: with seventeen digits
the grid is so fine that its nearest point is always inside.
-/

namespace Polyglot

namespace Binary64

/-! ## Parts of doubles -/

/-- The bits of the double with the given parts; of what is not a number they are not told. -/
def Parts.bits : Parts → Nat
  | .nan => 0
  | .infinite negative => infinityBits + if negative then signBit else 0
  | .finite d =>
    (if d.mantissa < leadingBit then d.mantissa
      else (d.exponent + 1075).toNat * leadingBit + (d.mantissa - leadingBit)) +
      if d.negative then signBit else 0

theorem bits_decode {x : Float} (number : decode x ≠ .nan) : (decode x).bits = x.toBits.toNat := by
  have bound := x.toBits.toNat_lt
  unfold decode at number ⊢
  dsimp only at number ⊢
  generalize x.toBits.toNat = bits at *
  have sign : (if decide (signBit ≤ bits) = true then signBit else 0) = bits / signBit * signBit := by
    by_cases negative : signBit ≤ bits
    · rw [if_pos (decide_eq_true negative)]
      simp only [signBit] at *
      omega
    · rw [if_neg (by simpa using negative)]
      simp only [signBit] at *
      omega
  by_cases special : bits / leadingBit % 2048 = specialExponent
  · by_cases empty : bits % leadingBit = 0
    · simp only [if_pos special, if_pos empty, Parts.bits, sign]
      simp only [signBit, leadingBit, specialExponent, infinityBits] at *
      omega
    · simp [special, empty] at number
  · by_cases least : bits / leadingBit % 2048 = 0
    · have small : bits % leadingBit < leadingBit := Nat.mod_lt _ (by decide)
      simp only [if_neg special, if_pos least, Parts.bits, sign, if_pos small]
      simp only [signBit, leadingBit] at *
      omega
    · have full : ¬ leadingBit + bits % leadingBit < leadingBit := by omega
      simp only [if_neg special, if_neg least, Parts.bits, sign, if_neg full]
      simp only [signBit, leadingBit] at *
      omega

open Float.Model in
theorem isNaN_of_decode {x : Float} (unreadable : decode x = .nan) : x.isNaN = true := by
  have special : x.toBits.toNat / leadingBit % 2048 = specialExponent := by
    by_contra ordinary
    unfold decode at unreadable
    simp only [if_neg ordinary] at unreadable
    split at unreadable <;> cases unreadable
  have fraction : ¬ x.toBits.toNat % leadingBit = 0 := by
    intro empty
    unfold decode at unreadable
    simp only [if_pos special, if_pos empty] at unreadable
    cases unreadable
  have exponent : @UnpackedFloat.unpackExponent .binary64 x.toBits.toBitVec = -1#_ := by
    rw [← BitVec.toNat_inj, toNat_unpackExponent]
    exact special
  have mantissa : @UnpackedFloat.unpackMantissa .binary64 x.toBits.toBitVec ≠ 0#_ := by
    intro empty
    rw [← BitVec.toNat_inj, toNat_unpackMantissa] at empty
    exact fraction empty
  have unpacked : x.isNaN = (UnpackedFloat.unpack .binary64 x.toBits.toBitVec).isNaN := rfl
  rw [unpacked, UnpackedFloat.unpack]
  simp only [if_pos exponent, if_neg mantissa]
  rfl

/-- The parts of a double tell which it is. -/
theorem decode_injective {x y : Float} (same : decode x = decode y) : x = y := by
  by_cases unreadable : decode x = .nan
  · have left := isNaN_of_decode unreadable
    have right := isNaN_of_decode (same ▸ unreadable)
    rw [Float.isNaN_eq_decide_eq_nan, decide_eq_true_eq] at left right
    rw [left, right]
  · have bits := bits_decode unreadable
    rw [same, bits_decode (same ▸ unreadable)] at bits
    exact (Float.toBits_inj.1 (UInt64.toNat_inj.1 bits)).symm

/-- The mantissa fits its bits, and its leading bit is set unless the exponent is the least one. -/
structure Exact.Regular (d : Exact) : Prop where
  mantissa : d.mantissa < 2 * leadingBit
  exponent : -1074 ≤ d.exponent
  full : d.exponent = -1074 ∨ leadingBit ≤ d.mantissa

theorem regular_of_decode {x : Float} {d : Exact} (finite : decode x = .finite d) : d.Regular := by
  have small : x.toBits.toNat % leadingBit < leadingBit := Nat.mod_lt _ (by decide)
  unfold decode at finite
  dsimp only at finite
  split at finite
  · split at finite <;> cases finite
  · split at finite
    · cases finite
      exact ⟨small.trans (by decide), le_rfl, .inl rfl⟩
    · rename_i least
      cases finite
      refine ⟨?_, ?_, .inr (Nat.le_add_right _ _)⟩
      · show leadingBit + _ < 2 * leadingBit
        omega
      · show -1074 ≤ ((_ : Nat) : Int) - 1075
        omega

end Binary64

namespace Decimal

open Binary64

/-! ## Intervals of numbers that round alike -/

/-- A number lies in the interval. -/
def Neighbourhood.Contains (r : Neighbourhood) (w : ℚ) : Prop :=
  if r.closed then (r.low : ℚ) / r.den ≤ w ∧ w ≤ r.high / r.den
  else (r.low : ℚ) / r.den < w ∧ w < r.high / r.den

theorem Neighbourhood.holds_iff {r : Neighbourhood} (pos : 0 < r.den) (count : Nat) (scale : Int) :
    r.holds count scale = true ↔ r.Contains (count * 10 ^ scale) := by
  have den : (0 : ℚ) < r.den := by exact_mod_cast pos
  -- The number as a fraction with a power of ten below the line.
  obtain ⟨a, b, split, below, value⟩ : ∃ a b : Nat,
      (if 0 ≤ scale then (count * Nat.pow 10 scale.toNat, 1)
        else (count, Nat.pow 10 (-scale).toNat)) = (a, b) ∧ 0 < b ∧
      (count : ℚ) * 10 ^ scale = a / b := by
    by_cases whole : 0 ≤ scale
    · refine ⟨_, _, if_pos whole, one_pos, ?_⟩
      obtain ⟨k, rfl⟩ := Int.eq_ofNat_of_zero_le whole
      simp
    · refine ⟨_, _, if_neg whole, Nat.pow_pos (by decide), ?_⟩
      obtain ⟨k, neg⟩ := Int.eq_ofNat_of_zero_le (a := -scale) (by omega)
      obtain rfl : scale = -(k : Int) := by omega
      simp [div_eq_mul_inv]
  have bottom : (0 : ℚ) < b := by exact_mod_cast below
  unfold holds Contains
  rw [split, value]
  by_cases closed : r.closed = true
  · simp only [if_pos closed, Bool.and_eq_true, decide_eq_true_eq, div_le_div_iff₀ den bottom,
      div_le_div_iff₀ bottom den]
    norm_cast
  · simp only [if_neg closed, Bool.and_eq_true, decide_eq_true_eq, div_lt_div_iff₀ den bottom,
      div_lt_div_iff₀ bottom den]
    norm_cast

/-- Twice the distance of the lower end, in quarters of the last bit. -/
def lowerGap (d : Exact) : Nat :=
  if d.mantissa = leadingBit ∧ -1074 < d.exponent then 1 else 2

section

variable (d : Exact)

theorem den_pos : 0 < (neighbourhood d).den := by
  unfold neighbourhood
  dsimp only
  split
  · exact one_pos
  · exact Nat.pow_pos (by decide)

/-- All three numbers of an interval count quarters of the last bit. -/
theorem unit_div_den : ∃ unit : Nat,
    (neighbourhood d).low = (4 * d.mantissa - lowerGap d) * unit ∧
    (neighbourhood d).num = 4 * d.mantissa * unit ∧
    (neighbourhood d).high = (4 * d.mantissa + 2) * unit ∧
    (unit : ℚ) / (neighbourhood d).den = 2 ^ (d.exponent - 2) := by
  refine ⟨_, rfl, rfl, rfl, ?_⟩
  unfold neighbourhood
  dsimp only
  by_cases whole : 0 ≤ d.exponent - 2
  · obtain ⟨k, exponent⟩ := Int.eq_ofNat_of_zero_le whole
    simp [exponent]
  · obtain ⟨k, neg⟩ := Int.eq_ofNat_of_zero_le (a := 2 - d.exponent) (by omega)
    have exponent : d.exponent - 2 = -(k : Int) := by omega
    rw [if_neg whole, if_neg whole, neg, exponent]
    simp

theorem num_div_den :
    ((neighbourhood d).num : ℚ) / (neighbourhood d).den = 4 * d.mantissa * 2 ^ (d.exponent - 2) := by
  obtain ⟨unit, -, num, -, power⟩ := unit_div_den d
  rw [num, Nat.cast_mul, mul_div_assoc, power]
  push_cast
  ring

theorem high_div_den : ((neighbourhood d).high : ℚ) / (neighbourhood d).den =
    (4 * d.mantissa + 2) * 2 ^ (d.exponent - 2) := by
  obtain ⟨unit, -, -, high, power⟩ := unit_div_den d
  rw [high, Nat.cast_mul, mul_div_assoc, power]
  push_cast
  ring

theorem low_div_den (nonzero : d.mantissa ≠ 0) :
    ((neighbourhood d).low : ℚ) / (neighbourhood d).den =
      (4 * d.mantissa - lowerGap d) * 2 ^ (d.exponent - 2) := by
  obtain ⟨unit, low, -, -, power⟩ := unit_div_den d
  have fits : lowerGap d ≤ 4 * d.mantissa := by
    unfold lowerGap
    split <;> omega
  rw [low, Nat.cast_mul, mul_div_assoc, power, Nat.cast_sub fits]
  push_cast
  ring

end

/-! ## No number rounds to two doubles -/

/-- The ends of an interval belong to it if the mantissa is even. -/
theorem bounds_of_contains {d : Exact} (nonzero : d.mantissa ≠ 0) {w : ℚ}
    (inside : (neighbourhood d).Contains w) :
    ((4 * d.mantissa - lowerGap d) * 2 ^ (d.exponent - 2) ≤ w ∧
      w ≤ (4 * d.mantissa + 2) * 2 ^ (d.exponent - 2)) ∧
    (d.mantissa % 2 = 1 → (4 * d.mantissa - lowerGap d) * 2 ^ (d.exponent - 2) < w ∧
      w < (4 * d.mantissa + 2) * 2 ^ (d.exponent - 2)) := by
  rw [Neighbourhood.Contains, low_div_den d nonzero, high_div_den] at inside
  have closed : (neighbourhood d).closed = decide (d.mantissa % 2 = 0) := rfl
  by_cases even : d.mantissa % 2 = 0
  · rw [closed, if_pos (decide_eq_true even)] at inside
    exact ⟨inside, fun odd => by omega⟩
  · rw [closed, if_neg (by simpa using even)] at inside
    exact ⟨⟨inside.1.le, inside.2.le⟩, fun _ => inside⟩

/-- The interval of a smaller double ends before that of a larger one begins, or where it begins if
one of them is without its ends. -/
theorem ends_before {d d' : Exact} (regular : d.Regular) (regular' : d'.Regular)
    (less : d.exponent < d'.exponent ∨ d.exponent = d'.exponent ∧ d.mantissa < d'.mantissa) :
    let high : ℚ := (4 * d.mantissa + 2) * 2 ^ (d.exponent - 2)
    let low : ℚ := (4 * d'.mantissa - lowerGap d') * 2 ^ (d'.exponent - 2)
    high < low ∨ high ≤ low ∧ (d.mantissa % 2 = 1 ∨ d'.mantissa % 2 = 1) := by
  intro high low
  have unit : (0 : ℚ) < 2 ^ (d.exponent - 2) := by positivity
  rcases less with farther | ⟨same, less⟩
  · -- The larger one has a full mantissa, and its last bit weighs at least twice as much.
    have full : leadingBit ≤ d'.mantissa := by
      rcases regular'.full with least | full
      · have := regular.exponent
        omega
      · exact full
    have gap : (4 * leadingBit - 1 : ℚ) ≤ 4 * d'.mantissa - lowerGap d' := by
      have counted : 4 * leadingBit + lowerGap d' ≤ 4 * d'.mantissa + 1 := by
        have := regular.exponent
        unfold lowerGap
        split <;> omega
      have counted' : (4 * leadingBit + lowerGap d' : ℚ) ≤ 4 * d'.mantissa + 1 := by
        exact_mod_cast counted
      linarith
    have power : (2 : ℚ) * 2 ^ (d.exponent - 2) ≤ 2 ^ (d'.exponent - 2) := by
      rw [← zpow_one_add₀ two_ne_zero]
      exact zpow_le_zpow_right₀ one_le_two (by omega)
    have start : (8 * leadingBit - 2 : ℚ) * 2 ^ (d.exponent - 2) ≤ low := by
      have positive : (0 : ℚ) ≤ 4 * d'.mantissa - lowerGap d' :=
        le_trans (by norm_num [leadingBit]) gap
      calc (8 * leadingBit - 2 : ℚ) * 2 ^ (d.exponent - 2)
        _ = (4 * leadingBit - 1) * (2 * 2 ^ (d.exponent - 2)) := by ring
        _ ≤ (4 * d'.mantissa - lowerGap d') * 2 ^ (d'.exponent - 2) := by gcongr
    have small := regular.mantissa
    by_cases last : d.mantissa = 2 * leadingBit - 1
    · refine .inr ⟨le_trans (le_of_eq ?_) start, .inl (by rw [last]; decide)⟩
      have mantissa : (d.mantissa : ℚ) = 2 * leadingBit - 1 := by
        rw [last]
        norm_num [leadingBit]
      show (4 * d.mantissa + 2 : ℚ) * 2 ^ (d.exponent - 2) = _
      rw [mantissa]
      ring
    · refine .inl (lt_of_lt_of_le ?_ start)
      have counted : 4 * d.mantissa + 2 + 2 < 8 * leadingBit := by omega
      have counted' : (4 * d.mantissa + 2 + 2 : ℚ) < 8 * leadingBit := by exact_mod_cast counted
      exact mul_lt_mul_of_pos_right (by linarith) unit
  · have gap : lowerGap d' ≤ 2 := by
      unfold lowerGap
      split <;> decide
    have lowered : (4 * d'.mantissa - 2 : ℚ) * 2 ^ (d.exponent - 2) ≤ low := by
      have gap' : (lowerGap d' : ℚ) ≤ 2 := by exact_mod_cast gap
      show _ ≤ (4 * d'.mantissa - lowerGap d' : ℚ) * 2 ^ (d'.exponent - 2)
      rw [← same]
      exact mul_le_mul_of_nonneg_right (by linarith) unit.le
    by_cases next : d'.mantissa = d.mantissa + 1
    · refine .inr ⟨le_trans (le_of_eq ?_) lowered, by omega⟩
      show (4 * d.mantissa + 2 : ℚ) * 2 ^ (d.exponent - 2) = _
      rw [next]
      push_cast
      ring
    · refine .inl (lt_of_lt_of_le ?_ lowered)
      have counted : 4 * d.mantissa + 2 + 2 < 4 * d'.mantissa := by omega
      have counted' : (4 * d.mantissa + 2 + 2 : ℚ) < 4 * d'.mantissa := by exact_mod_cast counted
      exact mul_lt_mul_of_pos_right (by linarith) unit

theorem not_contains_both {d d' : Exact} (regular : d.Regular) (regular' : d'.Regular)
    (nonzero : d.mantissa ≠ 0) (nonzero' : d'.mantissa ≠ 0)
    (less : d.exponent < d'.exponent ∨ d.exponent = d'.exponent ∧ d.mantissa < d'.mantissa) {w : ℚ}
    (inside : (neighbourhood d).Contains w) : ¬ (neighbourhood d').Contains w := by
  intro inside'
  obtain ⟨⟨-, below⟩, strictlyBelow⟩ := bounds_of_contains nonzero inside
  obtain ⟨⟨above, -⟩, strictlyAbove⟩ := bounds_of_contains nonzero' inside'
  rcases ends_before regular regular' less with apart | ⟨touching, odd | odd⟩
  · linarith
  · have := (strictlyBelow odd).2
    linarith
  · have := (strictlyAbove odd).1
    linarith

/-- A number that rounds to two doubles rounds to one. -/
theorem eq_of_contains {d d' : Exact} (regular : d.Regular) (regular' : d'.Regular)
    (nonzero : d.mantissa ≠ 0) (nonzero' : d'.mantissa ≠ 0) {w : ℚ}
    (inside : (neighbourhood d).Contains w) (inside' : (neighbourhood d').Contains w) :
    d.mantissa = d'.mantissa ∧ d.exponent = d'.exponent := by
  by_contra apart
  have order : (d.exponent < d'.exponent ∨ d.exponent = d'.exponent ∧ d.mantissa < d'.mantissa) ∨
      (d'.exponent < d.exponent ∨ d'.exponent = d.exponent ∧ d'.mantissa < d.mantissa) := by
    omega
  rcases order with less | less
  · exact not_contains_both regular regular' nonzero nonzero' less inside inside'
  · exact not_contains_both regular' regular nonzero' nonzero less inside' inside

theorem pos_of_contains {d : Exact} (nonzero : d.mantissa ≠ 0) {w : ℚ}
    (inside : (neighbourhood d).Contains w) : 0 < w := by
  obtain ⟨⟨above, -⟩, -⟩ := bounds_of_contains nonzero inside
  refine lt_of_lt_of_le ?_ above
  have counted : lowerGap d < 4 * d.mantissa := by
    unfold lowerGap
    split <;> omega
  have counted' : (lowerGap d : ℚ) < 4 * d.mantissa := by exact_mod_cast counted
  exact mul_pos (by linarith) (by positivity)

/-! ## Decimal digits -/

theorem lt_pow_length (n : Nat) : n < 10 ^ (Nat.toDigits 10 n).length := by
  induction n using Nat.strongRecOn with
  | ind n ih =>
    by_cases small : n < 10
    · rw [Nat.toDigits_of_lt_base small]
      exact small
    · rw [Nat.toDigits_of_base_le (by decide) (by omega), List.length_append, List.length_singleton,
        pow_succ]
      have rest := ih (n / 10) (by omega)
      omega

theorem pow_length_le {n : Nat} (pos : n ≠ 0) : 10 ^ ((Nat.toDigits 10 n).length - 1) ≤ n := by
  induction n using Nat.strongRecOn with
  | ind n ih =>
    by_cases small : n < 10
    · rw [Nat.toDigits_of_lt_base small]
      exact Nat.one_le_iff_ne_zero.2 pos
    · have some : 1 ≤ (Nat.toDigits 10 (n / 10)).length :=
        List.length_pos_iff.2 Nat.toDigits_ne_nil
      have rest := ih (n / 10) (by omega) (by omega)
      rw [Nat.toDigits_of_base_le (by decide) (by omega), List.length_append, List.length_singleton,
        Nat.add_sub_cancel, ← Nat.sub_add_cancel some, pow_succ]
      omega

/-- The leading exponent is no larger than that of the first digit. -/
theorem pow_leadingExponent_le {num den : Nat} (posNum : 0 < num) (posDen : 0 < den) :
    (10 : ℚ) ^ leadingExponent num den ≤ num / den := by
  have bottom : (0 : ℚ) < den := by exact_mod_cast posDen
  have top : (0 : ℚ) < num := by exact_mod_cast posNum
  unfold leadingExponent
  by_cases large : den ≤ num
  · have pos : num / den ≠ 0 := (Nat.div_pos large posDen).ne'
    have some := List.length_pos_iff.2 (Nat.toDigits_ne_nil (b := 10) (n := num / den))
    have exponent : ((Nat.toDigits 10 (num / den)).length : Int) - 1 =
        (((Nat.toDigits 10 (num / den)).length - 1 : Nat) : Int) := by omega
    rw [if_pos large, exponent, zpow_natCast, le_div_iff₀ bottom]
    have counted := Nat.mul_le_mul_right den (pow_length_le pos)
    exact_mod_cast counted.trans (Nat.div_mul_le_self num den)
  · rw [if_neg large, zpow_neg, zpow_natCast, ← one_div, div_le_div_iff₀ (by positivity) bottom]
    have counted : den ≤ num * 10 ^ (Nat.toDigits 10 (den / num)).length := by
      have below := lt_pow_length (den / num)
      rw [Nat.div_lt_iff_lt_mul posNum, mul_comm] at below
      exact below.le
    rw [one_mul]
    exact_mod_cast counted

/-! ## The shortest decimal -/

/-- Of the two integers around a fraction, the one that is tried first is at most a half away. -/
theorem exists_nearest (n : Nat) {d : Nat} (pos : 0 < d) (tie : Tie) :
    ∃ first second, (if 2 * (n % d) < d ∨ (2 * (n % d) = d ∧ tie.keeps (n / d)) then
        [n / d, n / d + 1] else [n / d + 1, n / d]) = [first, second] ∧
      |(first : ℚ) - n / d| ≤ 1 / 2 := by
  have bottom : (0 : ℚ) < d := by exact_mod_cast pos
  have split : (n : ℚ) / d = (n / d : Nat) + (n % d : Nat) / d := by
    have whole : (n : ℚ) = d * (n / d : Nat) + (n % d : Nat) := by
      exact_mod_cast (Nat.div_add_mod n d).symm
    rw [div_eq_iff bottom.ne', add_mul, div_mul_cancel₀ _ bottom.ne', mul_comm]
    exact whole
  by_cases nearer : 2 * (n % d) < d ∨ (2 * (n % d) = d ∧ tie.keeps (n / d))
  · refine ⟨_, _, if_pos nearer, ?_⟩
    have low : 2 * (n % d) ≤ d := by
      rcases nearer with less | ⟨equal, -⟩ <;> omega
    have low' : ((n % d : Nat) : ℚ) / d ≤ 1 / 2 := by
      rw [div_le_iff₀ bottom]
      have : (2 * (n % d : Nat) : ℚ) ≤ d := by exact_mod_cast low
      linarith
    have nonneg : (0 : ℚ) ≤ (n % d : Nat) / d := by positivity
    rw [split, sub_add_cancel_left, abs_neg, abs_of_nonneg nonneg]
    exact low'
  · refine ⟨_, _, if_neg nearer, ?_⟩
    have high : d ≤ 2 * (n % d) := by omega
    have high' : 1 / 2 ≤ ((n % d : Nat) : ℚ) / d := by
      rw [le_div_iff₀ bottom]
      have : (d : ℚ) ≤ 2 * (n % d : Nat) := by exact_mod_cast high
      linarith
    have less : ((n % d : Nat) : ℚ) / d ≤ 1 := by
      rw [div_le_one bottom]
      exact_mod_cast (Nat.mod_lt n pos).le
    rw [split, Nat.cast_add, Nat.cast_one, add_sub_add_left_eq_sub,
      abs_of_nonneg (by linarith)]
    linarith

/-- What is found on a grid lies in the interval. -/
theorem contains_of_onGrid {r : Neighbourhood} (pos : 0 < r.den) {tie : Tie} {scale : Int}
    {p : Nat × Int} (found : r.onGrid? tie scale = some p) : r.Contains (p.1 * 10 ^ p.2) := by
  unfold Neighbourhood.onGrid? at found
  obtain ⟨count, here, rfl⟩ := Option.map_eq_some_iff.1 found
  have holds := List.find?_some here
  rw [Bool.and_eq_true] at holds
  exact (Neighbourhood.holds_iff pos count scale).1 holds.2

/-- A grid whose half steps stay inside the interval has a point in it. -/
theorem exists_onGrid {r : Neighbourhood} (pos : 0 < r.den) (tie : Tie) {scale : Int}
    (below : (r.low : ℚ) / r.den < r.num / r.den - 10 ^ scale / 2)
    (above : (r.num : ℚ) / r.den + 10 ^ scale / 2 < r.high / r.den) :
    ∃ p, r.onGrid? tie scale = some p := by
  have bottom : (0 : ℚ) < r.den := by exact_mod_cast pos
  have step : (0 : ℚ) < 10 ^ scale := by positivity
  obtain ⟨n, d, split, posD, value⟩ : ∃ n d : Nat,
      (if 0 ≤ scale then (r.num, r.den * Nat.pow 10 scale.toNat)
        else (r.num * Nat.pow 10 (-scale).toNat, r.den)) = (n, d) ∧ 0 < d ∧
      (n : ℚ) / d = r.num / r.den / 10 ^ scale := by
    by_cases whole : 0 ≤ scale
    · refine ⟨_, _, if_pos whole, Nat.mul_pos pos (Nat.pow_pos (by decide)), ?_⟩
      obtain ⟨k, rfl⟩ := Int.eq_ofNat_of_zero_le whole
      simp [div_div]
    · refine ⟨_, _, if_neg whole, pos, ?_⟩
      obtain ⟨k, neg⟩ := Int.eq_ofNat_of_zero_le (a := -scale) (by omega)
      obtain rfl : scale = -(k : Int) := by omega
      simp [div_eq_mul_inv, mul_right_comm]
  obtain ⟨first, second, tried, near⟩ := exists_nearest n posD tie
  rw [value, abs_sub_le_iff] at near
  have quotient : (r.num : ℚ) / r.den = r.num / r.den / 10 ^ scale * 10 ^ scale :=
    (div_mul_cancel₀ _ step.ne').symm
  have lower : (r.num : ℚ) / r.den - 10 ^ scale / 2 ≤ first * 10 ^ scale := by
    have less : (r.num : ℚ) / r.den / 10 ^ scale - 1 / 2 ≤ first := by linarith
    have scaled := mul_le_mul_of_nonneg_right less step.le
    linarith
  have upper : (first * 10 ^ scale : ℚ) ≤ r.num / r.den + 10 ^ scale / 2 := by
    have less : (first : ℚ) ≤ r.num / r.den / 10 ^ scale + 1 / 2 := by linarith
    have scaled := mul_le_mul_of_nonneg_right less step.le
    linarith
  have inside : (r.low : ℚ) / r.den < first * 10 ^ scale ∧
      (first * 10 ^ scale : ℚ) < r.high / r.den := ⟨by linarith, by linarith⟩
  have contains : r.Contains (first * 10 ^ scale) := by
    unfold Neighbourhood.Contains
    split
    · exact ⟨inside.1.le, inside.2.le⟩
    · exact inside
  have nonzero : first ≠ 0 := by
    rintro rfl
    have nonneg : (0 : ℚ) ≤ r.low / r.den := by positivity
    have := inside.1
    simp only [Nat.cast_zero, zero_mul] at this
    linarith
  refine ⟨(first, scale), ?_⟩
  unfold Neighbourhood.onGrid?
  rw [split]
  dsimp only
  rw [tried]
  simp [(Neighbourhood.holds_iff pos first scale).2 contains, nonzero]

/-- Zeros that are dropped from the digits are put into the scale. -/
theorem value_dropZeros (fuel count : Nat) (scale : Int) :
    ((dropZeros fuel count scale).1 : ℚ) * 10 ^ (dropZeros fuel count scale).2 =
      count * 10 ^ scale := by
  induction fuel generalizing count scale with
  | zero => rfl
  | succ fuel ih =>
    by_cases zero : count ≠ 0 ∧ count % 10 = 0
    · have whole : count = count / 10 * 10 := by omega
      rw [dropZeros, if_pos zero, ih, zpow_add_one₀ (by norm_num)]
      calc ((count / 10 : Nat) : ℚ) * (10 ^ scale * 10)
        _ = (count / 10 * 10 : Nat) * 10 ^ scale := by push_cast; ring
        _ = count * 10 ^ scale := by rw [← whole]
    · rw [dropZeros, if_neg zero]

/-- The half gaps around a double are wider than half a step of seventeen digits. -/
theorem half_step_lt {d : Exact} (regular : d.Regular) (nonzero : d.mantissa ≠ 0) :
    let r := neighbourhood d
    let step : ℚ := 10 ^ (leadingExponent r.num r.den - (16 : Nat)) / 2
    (r.low : ℚ) / r.den < r.num / r.den - step ∧ (r.num : ℚ) / r.den + step < r.high / r.den := by
  intro r step
  have unit : (0 : ℚ) < 2 ^ (d.exponent - 2) := by positivity
  have mantissa : (0 : ℚ) < d.mantissa := by exact_mod_cast Nat.pos_of_ne_zero nonzero
  have bottom : (0 : ℚ) < r.den := by exact_mod_cast den_pos d
  have value : (r.num : ℚ) / r.den = 4 * d.mantissa * 2 ^ (d.exponent - 2) := num_div_den d
  have posNum : 0 < r.num := by
    have positive : (0 : ℚ) < r.num / r.den := by
      rw [value]
      positivity
    exact_mod_cast (div_pos_iff_of_pos_right bottom).1 positive
  have gap : 4 * d.mantissa < lowerGap d * (2 * 10 ^ 16) ∧ lowerGap d ≤ 2 := by
    have small := regular.mantissa
    unfold lowerGap
    split <;> simp only [leadingBit] at * <;> omega
  obtain ⟨wide, two⟩ := gap
  have wide' : (4 * d.mantissa : ℚ) < lowerGap d * (2 * 10 ^ 16) := by exact_mod_cast wide
  have two' : (lowerGap d : ℚ) ≤ 2 := by exact_mod_cast two
  have narrow : step < lowerGap d * 2 ^ (d.exponent - 2) := by
    have first := pow_leadingExponent_le posNum (den_pos d)
    calc step
      _ = 10 ^ leadingExponent r.num r.den / (2 * 10 ^ 16) := by
        show (10 : ℚ) ^ (leadingExponent r.num r.den - (16 : Nat)) / 2 = _
        rw [zpow_sub₀ (by norm_num), zpow_natCast, div_div, mul_comm (10 ^ 16 : ℚ)]
      _ ≤ r.num / r.den / (2 * 10 ^ 16) := by gcongr
      _ = 4 * d.mantissa / (2 * 10 ^ 16) * 2 ^ (d.exponent - 2) := by
        rw [value]
        ring
      _ < lowerGap d * 2 ^ (d.exponent - 2) := by
        refine mul_lt_mul_of_pos_right ?_ unit
        rwa [div_lt_iff₀ (by norm_num)]
  have upper : (lowerGap d * 2 ^ (d.exponent - 2) : ℚ) ≤ 2 * 2 ^ (d.exponent - 2) := by gcongr
  constructor
  · show ((neighbourhood d).low : ℚ) / (neighbourhood d).den < _
    rw [low_div_den d nonzero, value]
    linarith
  · show _ < ((neighbourhood d).high : ℚ) / (neighbourhood d).den
    rw [high_div_den, value]
    linarith

/-- The shortest decimal of a positive double rounds to it. -/
theorem contains_shortest (tie : Tie) {d : Exact} (regular : d.Regular) (nonzero : d.mantissa ≠ 0) :
    (neighbourhood d).Contains ((shortest tie d).1 * 10 ^ (shortest tie d).2) := by
  obtain ⟨below, above⟩ := half_step_lt regular nonzero
  obtain ⟨last, onLast⟩ := exists_onGrid (den_pos d) tie below above
  obtain ⟨p, found⟩ : ∃ p, ((List.range 17).findSome? fun (n : Nat) => (neighbourhood d).onGrid? tie
      (leadingExponent (neighbourhood d).num (neighbourhood d).den - n)) = some p := by
    rw [← Option.isSome_iff_exists, List.findSome?_isSome_iff]
    exact ⟨16, by decide, Option.isSome_iff_exists.2 ⟨last, onLast⟩⟩
  obtain ⟨n, -, onGrid⟩ := List.exists_of_findSome?_eq_some found
  have inside := contains_of_onGrid (den_pos d) onGrid
  have shortened : shortest tie d = dropZeros 20 p.1 p.2 := by
    simp only [shortest, found, Option.getD_some]
  rw [shortened, value_dropZeros]
  exact inside

end Decimal

end Polyglot
