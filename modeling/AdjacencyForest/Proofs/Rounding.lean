import AdjacencyForest.Number.Binary64
import Mathlib.Algebra.Order.Field.Power
import Mathlib.Data.Int.Log
import Mathlib.Data.Rat.Floor
import Mathlib.Data.Rat.Lemmas
import Mathlib.Tactic.FieldSimp
import Mathlib.Tactic.Linarith
import Mathlib.Tactic.NormNum
import Mathlib.Tactic.Positivity

/-!
# Rounding to binary numbers

What a fraction is rounded to depends on its value alone, and a value that is closer to a binary number
than one part in twice 10 ^ 16 is rounded to that number.

Main statements: `exponentFor_eq`, the exponent of a mantissa of 53 bits; `ofRatio_congr`, fractions of
one value are rounded alike; `ofRatio_of_near`, a value near a number becomes that number.
-/

namespace AdjacencyForest.Binary64

variable {num den k n : Nat}

/-! ## Quotients -/

theorem scaleDown_snd_pos (positive : 0 < den) (exponent : Int) :
    0 < (scaleDown num den exponent).2 := by
  unfold scaleDown
  split
  · exact Nat.mul_pos positive (Nat.pow_pos (by decide))
  · exact positive

theorem scaleDown_ratio (num den : Nat) (exponent : Int) :
    ((scaleDown num den exponent).1 : ℚ) / (scaleDown num den exponent).2 =
      num / den / 2 ^ exponent := by
  unfold scaleDown
  split
  next nonnegative =>
    lift exponent to ℕ using nonnegative
    simp [div_div]
  next negative =>
    obtain ⟨n, rfl⟩ : ∃ n : ℕ, exponent = -n := ⟨(-exponent).toNat, by omega⟩
    simp [zpow_neg, mul_div_right_comm]

theorem quotient_eq (positive : 0 < den) :
    (num / den : ℚ) = (num / den : Nat) + (num % den : Nat) / (den : ℚ) := by
  have positiveQ : (den : ℚ) ≠ 0 := by exact_mod_cast positive.ne'
  have parts : ((den * (num / den) + num % den : Nat) : ℚ) = num := by rw [Nat.div_add_mod]
  rw [← parts]
  push_cast
  field_simp

theorem twice_rest_lt_iff (positive : 0 < den) :
    2 * (num % den) < den ↔ (num / den : ℚ) < (num / den : Nat) + 1 / 2 := by
  have positiveQ : (0 : ℚ) < den := by exact_mod_cast positive
  rw [quotient_eq positive, add_lt_add_iff_left, div_lt_div_iff₀ positiveQ two_pos, ← @Nat.cast_lt ℚ]
  push_cast
  rw [mul_comm, one_mul]

theorem lt_twice_rest_iff (positive : 0 < den) :
    den < 2 * (num % den) ↔ ((num / den : Nat) + 1 / 2 : ℚ) < num / den := by
  have positiveQ : (0 : ℚ) < den := by exact_mod_cast positive
  rw [quotient_eq positive, add_lt_add_iff_left, div_lt_div_iff₀ two_pos positiveQ, ← @Nat.cast_lt ℚ]
  push_cast
  rw [mul_comm _ (2 : ℚ), one_mul]

theorem whole_le (positive : 0 < den) : ((num / den : Nat) : ℚ) ≤ num / den := by
  rw [quotient_eq positive]
  exact le_add_of_nonneg_right (by positivity)

theorem lt_whole_add_one (positive : 0 < den) : (num / den : ℚ) < (num / den : Nat) + 1 := by
  have positiveQ : (0 : ℚ) < den := by exact_mod_cast positive
  rw [quotient_eq positive, add_lt_add_iff_left, div_lt_one positiveQ]
  exact_mod_cast Nat.mod_lt num positive

theorem abs_sub_roundHalfEven_le (positive : 0 < den) :
    |(num / den : ℚ) - roundHalfEven num den| ≤ 1 / 2 := by
  have low := @whole_le num den positive
  have high := @lt_whole_add_one num den positive
  rw [abs_le]
  unfold roundHalfEven
  dsimp only
  split
  next less =>
    have less := (twice_rest_lt_iff positive).mp less
    constructor <;> linarith
  next notLess =>
    have notLess := mt (twice_rest_lt_iff positive).mpr notLess
    split
    next greater =>
      have greater := (lt_twice_rest_iff positive).mp greater
      push_cast
      constructor <;> linarith
    next notGreater =>
      have notGreater := mt (lt_twice_rest_iff positive).mpr notGreater
      rcases Nat.mod_two_eq_zero_or_one (num / den) with even | odd
      · rw [even, Nat.add_zero]
        constructor <;> linarith
      · rw [odd]
        push_cast
        constructor <;> linarith

theorem roundHalfEven_of_near (positive : 0 < den) (near : |(num / den : ℚ) - n| < 1 / 2) :
    roundHalfEven num den = n := by
  obtain ⟨below, above⟩ := abs_lt.mp near
  obtain ⟨low, high⟩ := abs_le.mp (@abs_sub_roundHalfEven_le num den positive)
  have first : (roundHalfEven num den : ℚ) < n + 1 := by linarith
  have second : (n : ℚ) < roundHalfEven num den + 1 := by linarith
  norm_cast at first second
  omega

theorem roundHalfEven_mul (num den : Nat) (positive : 0 < k) :
    roundHalfEven (num * k) (den * k) = roundHalfEven num den := by
  unfold roundHalfEven
  rw [Nat.mul_div_mul_right _ _ positive, Nat.mul_mod_mul_right]
  dsimp only
  simp only [← Nat.mul_assoc, Nat.mul_lt_mul_right positive]

/-! ## The exponent -/

theorem log_eq {base : Nat} (above : 1 < base) {r : ℚ} {e : Int} (low : (base : ℚ) ^ e ≤ r)
    (high : r < (base : ℚ) ^ (e + 1)) : Int.log base r = e := by
  have positive : 0 < r := lt_of_lt_of_le (zpow_pos (by exact_mod_cast Nat.zero_lt_of_lt above) e) low
  have first := (Int.zpow_le_iff_le_log above positive).mp low
  have second := (Int.lt_zpow_iff_log_lt above positive).mp high
  omega

theorem log2_le {n : Nat} (positive : 0 < n) : (2 : ℚ) ^ (n.log2 : Int) ≤ n := by
  exact_mod_cast Nat.log2_self_le positive.ne'

theorem lt_log2_add_one (n : Nat) : (n : ℚ) < 2 ^ (n.log2 + 1 : Int) := by
  exact_mod_cast (@Nat.lt_log2_self n)

/-- The logarithms of numerator and denominator leave two places for that of the quotient. -/
theorem log2_sub_log2_bounds (numerator : 0 < num) (denominator : 0 < den) :
    (2 : ℚ) ^ ((num.log2 : Int) - den.log2 - 1) < num / den ∧
      (num / den : ℚ) < 2 ^ ((num.log2 : Int) - den.log2 + 1) := by
  have positive : (0 : ℚ) < den := by exact_mod_cast denominator
  rw [lt_div_iff₀ positive, div_lt_iff₀ positive]
  constructor
  · calc (2 : ℚ) ^ ((num.log2 : Int) - den.log2 - 1) * den
        < 2 ^ ((num.log2 : Int) - den.log2 - 1) * 2 ^ (den.log2 + 1 : Int) :=
          mul_lt_mul_of_pos_left (lt_log2_add_one den) (by positivity)
      _ = 2 ^ (num.log2 : Int) := by
          rw [← zpow_add₀ two_ne_zero]
          congr 1
          omega
      _ ≤ num := log2_le numerator
  · calc (num : ℚ) < 2 ^ (num.log2 + 1 : Int) := lt_log2_add_one num
      _ = 2 ^ ((num.log2 : Int) - den.log2 + 1) * 2 ^ (den.log2 : Int) := by
          rw [← zpow_add₀ two_ne_zero]
          congr 1
          omega
      _ ≤ 2 ^ ((num.log2 : Int) - den.log2 + 1) * den :=
          mul_le_mul_of_nonneg_left (log2_le denominator) (by positivity)

/-- A mantissa of fewer than 53 bits is told without a division. -/
theorem scaleDown_lt_iff (denominator : 0 < den) (exponent : Int) :
    (scaleDown num den exponent).1 < (scaleDown num den exponent).2 * 0x10000000000000 ↔
      (num / den : ℚ) < 2 ^ (exponent + 52) := by
  have scaled : (0 : ℚ) < (scaleDown num den exponent).2 := by
    exact_mod_cast scaleDown_snd_pos denominator exponent
  have bits : (2 : ℚ) ^ (52 : Int) = 0x10000000000000 := by norm_num
  rw [add_comm, zpow_add₀ two_ne_zero, bits, ← div_lt_iff₀ (by positivity),
    ← scaleDown_ratio num den exponent, div_lt_iff₀ scaled, mul_comm (0x10000000000000 : ℚ)]
  exact_mod_cast Iff.rfl

/-- The exponent leaves a mantissa of 53 bits, unless it is the least one. -/
theorem exponentFor_eq (numerator : 0 < num) (denominator : 0 < den) :
    exponentFor num den = max (-1074) (Int.log 2 (num / den : ℚ) - 52) := by
  obtain ⟨low, high⟩ := log2_sub_log2_bounds numerator denominator
  unfold exponentFor
  simp only [scaleDown_lt_iff denominator, sub_add_cancel]
  -- The guess is one too high if the quotient does not reach the power of two of the two logarithms.
  by_cases less : (num / den : ℚ) < 2 ^ ((num.log2 : Int) - den.log2)
  · rw [if_pos less, log_eq (by decide) low.le (by simpa using less)]
    congr 1
    omega
  · rw [if_neg less, log_eq (by decide) (not_lt.mp less) high]

/-! ## Rounded fractions -/

theorem roundHalfEven_congr {num' den' : Nat} (positive : 0 < den) (otherPositive : 0 < den')
    (same : (num / den : ℚ) = num' / den') : roundHalfEven num den = roundHalfEven num' den' := by
  have positiveQ : (den : ℚ) ≠ 0 := by exact_mod_cast positive.ne'
  have otherPositiveQ : (den' : ℚ) ≠ 0 := by exact_mod_cast otherPositive.ne'
  have crossed : num * den' = num' * den := by
    exact_mod_cast (div_eq_div_iff positiveQ otherPositiveQ).mp same
  rw [← roundHalfEven_mul num den otherPositive, ← roundHalfEven_mul num' den' positive, crossed,
    Nat.mul_comm den]

theorem ofRatio_congr {num' den' : Nat} (negative : Bool) (numerator : 0 < num) (denominator : 0 < den)
    (otherDenominator : 0 < den') (same : (num / den : ℚ) = num' / den') :
    ofRatio negative num den = ofRatio negative num' den' := by
  have otherNumerator : 0 < num' := by
    have positive : (0 : ℚ) < num / den :=
      div_pos (by exact_mod_cast numerator) (by exact_mod_cast denominator)
    refine Nat.pos_of_ne_zero fun zero => ?_
    simp [same, zero] at positive
  have exponents : exponentFor num den = exponentFor num' den' := by
    rw [exponentFor_eq numerator denominator, exponentFor_eq otherNumerator otherDenominator, same]
  have mantissas (exponent : Int) :
      roundHalfEven (scaleDown num den exponent).1 (scaleDown num den exponent).2 =
        roundHalfEven (scaleDown num' den' exponent).1 (scaleDown num' den' exponent).2 := by
    refine roundHalfEven_congr (scaleDown_snd_pos denominator exponent)
      (scaleDown_snd_pos otherDenominator exponent) ?_
    rw [scaleDown_ratio, scaleDown_ratio, same]
  have nonzero : ¬(num = 0 ∨ den = 0) := by omega
  have otherNonzero : ¬(num' = 0 ∨ den' = 0) := by omega
  unfold ofRatio
  rw [if_neg nonzero, if_neg otherNonzero]
  dsimp only
  rw [exponents, mantissas]

/-- The mantissa has 53 bits, or fewer at the least exponent. -/
structure IsCanonical (mantissa : Nat) (exponent : Int) : Prop where
  bits : mantissa < 2 ^ 53
  least : -1074 ≤ exponent
  most : exponent ≤ 971
  normal : 2 ^ 52 ≤ mantissa ∨ exponent = -1074

theorem ofRatio_of_round {mantissa : Nat} {exponent : Int} (negative : Bool) (numerator : 0 < num)
    (denominator : 0 < den) (found : exponentFor num den = exponent)
    (near : |(num / den / 2 ^ exponent : ℚ) - mantissa| < 1 / 2) (positive : 0 < mantissa)
    (bits : mantissa < 2 ^ 53) (most : exponent ≤ 971) :
    ofRatio negative num den = .finite negative mantissa exponent := by
  have rounded : roundHalfEven (scaleDown num den exponent).1 (scaleDown num den exponent).2 =
      mantissa :=
    roundHalfEven_of_near (scaleDown_snd_pos denominator exponent) (by rwa [scaleDown_ratio])
  have whole : (mantissa == 0x20000000000000) = false := by simpa using bits.ne
  unfold ofRatio
  rw [if_neg (by omega)]
  dsimp only
  rw [found, rounded, whole]
  simp only [Bool.false_eq_true, if_false]
  rw [if_neg (by omega), if_neg (by omega)]

/-- A mantissa that is rounded up to 54 bits is halved. -/
theorem ofRatio_of_carry {exponent : Int} (negative : Bool) (numerator : 0 < num)
    (denominator : 0 < den) (found : exponentFor num den = exponent - 1)
    (near : |(num / den / 2 ^ (exponent - 1) : ℚ) - (2 ^ 53 : Nat)| < 1 / 2) (most : exponent ≤ 971) :
    ofRatio negative num den = .finite negative (2 ^ 52) exponent := by
  have rounded : roundHalfEven (scaleDown num den (exponent - 1)).1
      (scaleDown num den (exponent - 1)).2 = 2 ^ 53 :=
    roundHalfEven_of_near (scaleDown_snd_pos denominator _) (by rwa [scaleDown_ratio])
  unfold ofRatio
  rw [if_neg (by omega)]
  dsimp only
  rw [found, rounded]
  simp only [Nat.reducePow, BEq.rfl, if_true, sub_add_cancel]
  rw [if_neg (by omega), if_neg (by omega)]

/-! ## Values near a number -/

theorem two_zpow_add_le_iff {x : ℚ} {exponent : Int} :
    (2 : ℚ) ^ (exponent + k) ≤ x ↔ 2 ^ k ≤ x / 2 ^ exponent := by
  rw [le_div_iff₀ (by positivity), zpow_add₀ two_ne_zero, mul_comm, zpow_natCast]

theorem lt_two_zpow_add_iff {x : ℚ} {exponent : Int} :
    x < (2 : ℚ) ^ (exponent + k) ↔ x / 2 ^ exponent < 2 ^ k := by
  rw [div_lt_iff₀ (by positivity), zpow_add₀ two_ne_zero, mul_comm, zpow_natCast]

theorem exponentFor_of_long {exponent : Int} (numerator : 0 < num) (denominator : 0 < den)
    (least : -1074 ≤ exponent) (below : (num / den / 2 ^ exponent : ℚ) < 2 ^ 53)
    (long : (2 : ℚ) ^ 52 ≤ num / den / 2 ^ exponent ∨ exponent = -1074) :
    exponentFor num den = exponent := by
  have next : (num / den : ℚ) < 2 ^ (exponent + 52 + 1) := by
    rw [add_assoc]
    exact lt_two_zpow_add_iff.mpr below
  rw [exponentFor_eq numerator denominator]
  rcases long with above | rfl
  · rw [log_eq (by decide) (two_zpow_add_le_iff.mpr above) (by exact_mod_cast next)]
    omega
  · have positive : (0 : ℚ) < num / den :=
      div_pos (by exact_mod_cast numerator) (by exact_mod_cast denominator)
    have bound : Int.log 2 (num / den : ℚ) < -1074 + 52 + 1 :=
      (Int.lt_zpow_iff_log_lt (by decide) positive).mp (by exact_mod_cast next)
    omega

theorem exponentFor_of_short {exponent : Int} (numerator : 0 < num) (denominator : 0 < den)
    (least : -1074 < exponent) (above : (2 : ℚ) ^ 51 ≤ num / den / 2 ^ exponent)
    (below : (num / den / 2 ^ exponent : ℚ) < 2 ^ 52) : exponentFor num den = exponent - 1 := by
  have next : (num / den : ℚ) < 2 ^ (exponent + 51 + 1) := by
    rw [add_assoc]
    exact lt_two_zpow_add_iff.mpr below
  rw [exponentFor_eq numerator denominator,
    log_eq (by decide) (two_zpow_add_le_iff.mpr above) (by exact_mod_cast next)]
  omega

/-- A value within one part in twice 10 ^ 16 of a number is rounded to the number. -/
theorem ofRatio_of_near {mantissa : Nat} {exponent : Int} (negative : Bool) (numerator : 0 < num)
    (denominator : 0 < den) (canonical : IsCanonical mantissa exponent) (positive : 0 < mantissa)
    (near : |(num / den : ℚ) - mantissa * 2 ^ exponent| ≤
      mantissa * 2 ^ exponent / 20000000000000000) :
    ofRatio negative num den = .finite negative mantissa exponent := by
  obtain ⟨bits, least, most, normal⟩ := canonical
  have unit : (0 : ℚ) < 2 ^ exponent := by positivity
  have scaled : (num / den : ℚ) = num / den / 2 ^ exponent * 2 ^ exponent :=
    (div_mul_cancel₀ _ unit.ne').symm
  have close : |(num / den / 2 ^ exponent : ℚ) - mantissa| ≤ mantissa / 20000000000000000 := by
    rw [scaled, ← sub_mul, abs_mul, abs_of_pos unit, mul_div_right_comm] at near
    exact le_of_mul_le_mul_right near unit
  obtain ⟨low, high⟩ := abs_le.mp close
  have bitsQ : (mantissa : ℚ) + 1 ≤ 9007199254740992 := by exact_mod_cast bits
  have below : (num / den / 2 ^ exponent : ℚ) < 2 ^ 53 := by norm_num; linarith
  by_cases long : (2 : ℚ) ^ 52 ≤ num / den / 2 ^ exponent ∨ exponent = -1074
  · exact ofRatio_of_round negative numerator denominator
      (exponentFor_of_long numerator denominator least below long)
      (close.trans_lt (by linarith)) positive bits most
  · -- The value lies just below a power of two, where numbers are twice as close.
    obtain ⟨short, notLeast⟩ := not_or.mp long
    have atLeast := normal.resolve_right notLeast
    have shortQ := not_le.mp short
    norm_num at shortQ
    obtain rfl : mantissa = 2 ^ 52 := by
      refine Nat.le_antisymm (Nat.le_of_not_lt fun more => ?_) atLeast
      have moreQ : (4503599627370496 : ℚ) + 1 ≤ mantissa := by exact_mod_cast more
      linarith
    norm_num at low high
    have halved : (num / den / 2 ^ (exponent - 1) : ℚ) = 2 * (num / den / 2 ^ exponent) := by
      rw [zpow_sub_one₀ two_ne_zero]
      field_simp
    have above : (2 : ℚ) ^ 51 ≤ num / den / 2 ^ exponent := by norm_num; linarith
    refine ofRatio_of_carry negative numerator denominator
      (exponentFor_of_short numerator denominator (by omega) above (not_le.mp short)) ?_ most
    rw [halved, abs_lt]
    norm_num
    constructor <;> linarith

/-- Integers of at most 53 bits, and the next one, are numbers. -/
theorem exists_ofRatio_whole (negative : Bool) (positive : 0 < n) (small : n ≤ 2 ^ 53) :
    ∃ mantissa exponent, ofRatio negative n 1 = .finite negative mantissa exponent ∧
      0 < mantissa ∧ (mantissa * 2 ^ exponent : ℚ) = n := by
  obtain ⟨mantissa, exponent, canonical, some, value⟩ : ∃ mantissa exponent,
      IsCanonical mantissa exponent ∧ 0 < mantissa ∧ (mantissa * 2 ^ exponent : ℚ) = n := by
    rcases small.lt_or_eq with less | rfl
    · -- The mantissa is shifted until its first bit is in place.
      have bits : n.log2 < 53 := (Nat.log2_lt positive.ne').mpr less
      have places : 53 = n.log2 + 1 + (52 - n.log2) := by omega
      refine ⟨n * 2 ^ (52 - n.log2), -(52 - n.log2 : Nat), ⟨?_, by omega, by omega, .inl ?_⟩,
        Nat.mul_pos positive (Nat.pow_pos (by decide)), ?_⟩
      · rw [places, pow_add]
        exact Nat.mul_lt_mul_of_pos_right Nat.lt_log2_self (Nat.pow_pos (by decide))
      · have split : 52 = n.log2 + (52 - n.log2) := by omega
        nth_rewrite 1 [split]
        rw [pow_add]
        exact Nat.mul_le_mul_right _ (Nat.log2_self_le positive.ne')
      · rw [zpow_neg, zpow_natCast]
        push_cast
        rw [mul_assoc, mul_inv_cancel₀ (by positivity), mul_one]
    · exact ⟨2 ^ 52, 1, ⟨by decide, by decide, by decide, .inl le_rfl⟩, by decide, by norm_num⟩
  refine ⟨mantissa, exponent, ?_, some, value⟩
  refine ofRatio_of_near negative positive one_pos canonical some ?_
  rw [value, Nat.cast_one, div_one, sub_self, abs_zero]
  positivity

end AdjacencyForest.Binary64
