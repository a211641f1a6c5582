import AdjacencyForest.Number.Shortest
import AdjacencyForest.Proofs.Rounding

/-!
# Decimals that read back

The digits found for a binary number stand for a decimal near the number, near enough for seventeen
digits to be rounded back to it. Final zeros do not change what a decimal is rounded to.

Main statements: `shortestDigits_isReadAs`, the fewest digits read back; `roundedDigits_of_whole`, an
integer of at most sixteen digits is kept by rounding.
-/

namespace AdjacencyForest

/-! ## Reading decimals -/

namespace Binary64

variable {digits other mantissa : Nat} {power otherPower exponent : Int}

theorem ofRatio_eq_finite {num den : Nat} (negative : Bool)
    (read : ofRatio false num den = .finite false mantissa exponent) :
    ofRatio negative num den = .finite negative mantissa exponent := by
  unfold ofRatio at read ⊢
  by_cases zero : num = 0 ∨ den = 0
  · rw [if_pos zero] at read ⊢
    simpa [signedZero] using read
  · rw [if_neg zero] at read ⊢
    dsimp only at read ⊢
    generalize roundHalfEven _ _ = rounded at read ⊢
    generalize (rounded == 0x20000000000000) = carried at read ⊢
    cases carried <;>
      simp only [Bool.false_eq_true, if_false, if_true] at read ⊢ <;>
      split_ifs at read ⊢ <;> simp_all [signedZero]

theorem ofDecimal_eq_finite (negative : Bool)
    (read : ofDecimal false digits power = .finite false mantissa exponent) :
    ofDecimal negative digits power = .finite negative mantissa exponent := by
  unfold ofDecimal at read ⊢
  dsimp only at read ⊢
  split at read
  next zero => simpa [zero, signedZero] using read
  next nonzero =>
    rw [if_neg nonzero]
    split at read
    · cases read
    next notLarge =>
      rw [if_neg notLarge]
      split at read
      next small => simpa [small, signedZero] using read
      next notSmall =>
        rw [if_neg notSmall]
        split at read
        next whole =>
          rw [if_pos whole]
          exact ofRatio_eq_finite negative read
        next fraction =>
          rw [if_neg fraction]
          exact ofRatio_eq_finite negative read

/-- The estimate of the count of digits is out by one at most. -/
theorem size_bounds : ∀ bits < 61, 10 ^ (bits * 30103 / 100000) ≤ 2 ^ bits ∧
    2 ^ (bits + 1) ≤ 10 ^ (bits * 30103 / 100000 + 2) := by
  decide +kernel

theorem exists_places (positive : 0 < digits) (short : digits < 2 ^ 61) :
    ∃ places : Nat, ((digits.log2 : Int) * 30103) / 100000 = places ∧
      (10 : ℚ) ^ places ≤ digits ∧ (digits : ℚ) < 10 ^ (places + 2) := by
  have bits : digits.log2 < 61 := (Nat.log2_lt positive.ne').mpr short
  obtain ⟨least, most⟩ := size_bounds digits.log2 bits
  refine ⟨digits.log2 * 30103 / 100000, by push_cast; rfl, ?_, ?_⟩
  · exact_mod_cast least.trans (Nat.log2_self_le positive.ne')
  · exact_mod_cast Nat.lt_log2_self.trans_le most

/-- A decimal in the range of the numbers is the fraction that it stands for. -/
theorem ofDecimal_eq_ofRatio (negative : Bool) (positive : 0 < digits) (short : digits < 2 ^ 61)
    (low : (10 : ℚ) ^ (-330 : Int) ≤ digits * 10 ^ power)
    (high : digits * (10 : ℚ) ^ power < 10 ^ (320 : Int)) :
    ∃ num den : Nat, 0 < num ∧ 0 < den ∧ (num / den : ℚ) = digits * 10 ^ power ∧
      ofDecimal negative digits power = ofRatio negative num den := by
  obtain ⟨places, size, lower, upper⟩ := exists_places positive short
  have scale : (0 : ℚ) < 10 ^ power := by positivity
  have notLarge : places + power < 320 := by
    refine (zpow_lt_zpow_iff_right₀ (by norm_num : (1 : ℚ) < 10)).mp (lt_of_le_of_lt ?_ high)
    rw [zpow_add₀ (by norm_num), zpow_natCast]
    exact mul_le_mul_of_nonneg_right lower scale.le
  have notSmall : -330 < (places + 2 : Nat) + power := by
    refine (zpow_lt_zpow_iff_right₀ (by norm_num : (1 : ℚ) < 10)).mp (low.trans_lt ?_)
    rw [zpow_add₀ (by norm_num), zpow_natCast]
    exact mul_lt_mul_of_pos_right upper scale
  unfold ofDecimal
  dsimp only
  rw [size, if_neg positive.ne', if_neg (by omega), if_neg (by omega)]
  split
  next whole =>
    lift power to ℕ using whole
    refine ⟨_, 1, Nat.mul_pos positive (Nat.pow_pos (by decide)), one_pos, ?_, rfl⟩
    simp
  next fraction =>
    obtain ⟨n, rfl⟩ : ∃ n : ℕ, power = -n := ⟨(-power).toNat, by omega⟩
    refine ⟨digits, _, positive, Nat.pow_pos (by decide), ?_, rfl⟩
    simp [div_eq_mul_inv]

theorem ofDecimal_congr (negative : Bool) (positive : 0 < digits) (short : digits < 2 ^ 61)
    (otherShort : other < 2 ^ 61)
    (same : (digits : ℚ) * 10 ^ power = other * 10 ^ otherPower)
    (low : (10 : ℚ) ^ (-330 : Int) ≤ digits * 10 ^ power)
    (high : digits * (10 : ℚ) ^ power < 10 ^ (320 : Int)) :
    ofDecimal negative digits power = ofDecimal negative other otherPower := by
  have otherPositive : 0 < other := by
    have value : (0 : ℚ) < digits * 10 ^ power := by positivity
    refine Nat.pos_of_ne_zero fun zero => ?_
    simp [same, zero] at value
  obtain ⟨num, den, numerator, denominator, ratio, read⟩ :=
    ofDecimal_eq_ofRatio negative positive short low high
  obtain ⟨num', den', -, denominator', ratio', read'⟩ :=
    ofDecimal_eq_ofRatio negative otherPositive otherShort (same ▸ low) (same ▸ high)
  rw [read, read']
  exact ofRatio_congr negative numerator denominator denominator' (by rw [ratio, ratio', same])

theorem ofDecimal_of_near (negative : Bool) (digitsPositive : 0 < digits) (short : digits < 2 ^ 61)
    (low : (10 : ℚ) ^ (-330 : Int) ≤ digits * 10 ^ power)
    (high : digits * (10 : ℚ) ^ power < 10 ^ (320 : Int))
    (canonical : IsCanonical mantissa exponent) (positive : 0 < mantissa)
    (near : |(digits * 10 ^ power : ℚ) - mantissa * 2 ^ exponent| ≤
      mantissa * 2 ^ exponent / 20000000000000000) :
    ofDecimal negative digits power = .finite negative mantissa exponent := by
  obtain ⟨num, den, numerator, denominator, ratio, read⟩ :=
    ofDecimal_eq_ofRatio negative digitsPositive short low high
  rw [read]
  exact ofRatio_of_near negative numerator denominator canonical positive (by rwa [ratio])

theorem magnitudeRatio_snd_pos (mantissa : Nat) (exponent : Int) :
    0 < (magnitudeRatio mantissa exponent).2 := by
  unfold magnitudeRatio
  split
  · exact one_pos
  · exact Nat.pow_pos (by decide)

theorem magnitudeRatio_ratio (mantissa : Nat) (exponent : Int) :
    ((magnitudeRatio mantissa exponent).1 : ℚ) / (magnitudeRatio mantissa exponent).2 =
      mantissa * 2 ^ exponent := by
  unfold magnitudeRatio
  split
  next nonnegative =>
    lift exponent to ℕ using nonnegative
    simp
  next negative =>
    obtain ⟨n, rfl⟩ : ∃ n : ℕ, exponent = -n := ⟨(-exponent).toNat, by omega⟩
    simp [div_eq_mul_inv]

end Binary64

/-! ## Digits and their places -/

namespace Decimal

variable {d : Decimal} {num den count digits : Nat} {power : Int}

/-- The power of ten of the last digit. -/
def lastPower (d : Decimal) : Int := d.power - (d.count - 1 : Nat)

def value (d : Decimal) : ℚ := d.digits * 10 ^ d.lastPower

/-- The decimal has as many digits as it says, the first of them not zero. -/
structure IsNormal (d : Decimal) : Prop where
  some : 0 < d.count
  low : 10 ^ (d.count - 1) ≤ d.digits
  high : d.digits < 10 ^ d.count

namespace IsNormal

theorem digits_pos (normal : d.IsNormal) : 0 < d.digits :=
  (Nat.pow_pos (by decide)).trans_le normal.low

theorem power_le_value (normal : d.IsNormal) : (10 : ℚ) ^ d.power ≤ d.value := by
  have low : (10 : ℚ) ^ (d.count - 1) ≤ d.digits := by exact_mod_cast normal.low
  calc (10 : ℚ) ^ d.power = 10 ^ (d.count - 1) * 10 ^ d.lastPower := by
        rw [← zpow_natCast, ← zpow_add₀ (by norm_num), lastPower]
        congr 1
        omega
    _ ≤ d.value := mul_le_mul_of_nonneg_right low (by positivity)

theorem value_lt_power (normal : d.IsNormal) : d.value < 10 ^ (d.power + 1) := by
  have high : (d.digits : ℚ) < 10 ^ d.count := by exact_mod_cast normal.high
  calc d.value < 10 ^ d.count * 10 ^ d.lastPower := mul_lt_mul_of_pos_right high (by positivity)
    _ = 10 ^ (d.power + 1) := by
        have some := normal.some
        rw [← zpow_natCast, ← zpow_add₀ (by norm_num), lastPower]
        congr 1
        omega

end IsNormal

theorem pow_length_toDigits_le {n : Nat} (positive : 0 < n) :
    10 ^ ((Nat.toDigits 10 n).length - 1) ≤ n := by
  by_cases single : (Nat.toDigits 10 n).length - 1 = 0
  · rw [single]
    exact positive
  · refine Nat.le_of_not_lt fun less => ?_
    have short := (Nat.length_toDigits_le_iff (by decide) (Nat.pos_of_ne_zero single)).mpr less
    omega

theorem lt_pow_length_toDigits (n : Nat) : n < 10 ^ (Nat.toDigits 10 n).length :=
  (Nat.length_toDigits_le_iff (by decide) Nat.length_toDigits_pos).mp le_rfl

/-- The whole part has the first digit of the quotient, if it is moved far enough. -/
theorem length_whole_bounds {places : Nat} (denominator : 0 < den)
    (large : (10 : ℚ) ^ (-places : Int) ≤ num / den) :
    let length := (Nat.toDigits 10 (num * Nat.pow 10 places / den)).length
    (10 : ℚ) ^ ((length : Int) - (places + 1)) ≤ num / den ∧
      (num / den : ℚ) < 10 ^ ((length : Int) - (places + 1) + 1) := by
  intro length
  have scaled : (num / den : ℚ) = (num * Nat.pow 10 places : Nat) / den * 10 ^ (-places : Int) := by
    rw [Nat.cast_mul, mul_div_right_comm, mul_assoc, Nat.pow_eq, Nat.cast_pow, ← zpow_natCast,
      Nat.cast_ofNat, ← zpow_add₀ (by norm_num)]
    simp
  have below := @Binary64.whole_le (num * Nat.pow 10 places) den denominator
  have above := @Binary64.lt_whole_add_one (num * Nat.pow 10 places) den denominator
  -- By `large` the moved quotient is at least one, so its whole part has a digit.
  have positive : 0 < num * Nat.pow 10 places / den := by
    rw [scaled] at large
    have one := le_of_mul_le_mul_right ((one_mul _).le.trans large) (by positivity)
    exact Nat.cast_pos.mp ((lt_add_iff_pos_left 1).mp (one.trans_lt above))
  have some : 0 < length := Nat.length_toDigits_pos
  have lower : (10 : ℚ) ^ (length - 1) ≤ (num * Nat.pow 10 places / den : Nat) := by
    exact_mod_cast pow_length_toDigits_le positive
  have upper : ((num * Nat.pow 10 places / den : Nat) : ℚ) + 1 ≤ 10 ^ length := by
    exact_mod_cast lt_pow_length_toDigits _
  rw [scaled]
  constructor
  · calc (10 : ℚ) ^ ((length : Int) - (places + 1)) = 10 ^ (length - 1) * 10 ^ (-places : Int) := by
          rw [← zpow_natCast, ← zpow_add₀ (by norm_num)]
          congr 1
          omega
      _ ≤ _ := mul_le_mul_of_nonneg_right (lower.trans below) (by positivity)
  · calc _ < (10 : ℚ) ^ length * 10 ^ (-places : Int) :=
          mul_lt_mul_of_pos_right (above.trans_le upper) (by positivity)
      _ = 10 ^ ((length : Int) - (places + 1) + 1) := by
          rw [← zpow_natCast, ← zpow_add₀ (by norm_num)]
          congr 1
          omega

/-- The power of the first digit says between which powers of ten the quotient is. -/
theorem leadingPower_spec (denominator : 0 < den) (large : (10 : ℚ) ^ (-400 : Int) ≤ num / den) :
    (10 : ℚ) ^ leadingPower num den ≤ num / den ∧
      (num / den : ℚ) < 10 ^ (leadingPower num den + 1) :=
  @length_whole_bounds num den 400 denominator large

theorem scaleDown_snd_pos (denominator : 0 < den) (power : Int) :
    0 < (scaleDown num den power).2 := by
  unfold scaleDown
  split
  · exact Nat.mul_pos denominator (Nat.pow_pos (by decide))
  · exact denominator

theorem scaleDown_ratio (num den : Nat) (power : Int) :
    ((scaleDown num den power).1 : ℚ) / (scaleDown num den power).2 = num / den / 10 ^ power := by
  unfold scaleDown
  split
  next nonnegative =>
    lift power to ℕ using nonnegative
    simp [div_div]
  next negative =>
    obtain ⟨n, rfl⟩ : ∃ n : ℕ, power = -n := ⟨(-power).toNat, by omega⟩
    simp [zpow_neg, mul_div_right_comm]

/-- One digit too many is a zero, and is dropped. -/
theorem ofCount_spec (some : 0 < count) (low : 10 ^ (count - 1) ≤ digits) (high : digits ≤ 10 ^ count) :
    (ofCount digits count power).IsNormal ∧ (ofCount digits count power).count = count ∧
      (ofCount digits count power).value = digits * 10 ^ (power - (count - 1 : Nat)) ∧
      power ≤ (ofCount digits count power).power ∧ (ofCount digits count power).power ≤ power + 1 := by
  unfold ofCount
  split
  next carried =>
    obtain rfl : digits = 10 ^ count := Nat.le_antisymm high carried
    obtain ⟨places, rfl⟩ : ∃ places, count = places + 1 := ⟨count - 1, by omega⟩
    have shorter : 10 ^ (places + 1) / 10 = 10 ^ places := by rw [Nat.pow_succ, Nat.mul_div_cancel _ (by decide)]
    refine ⟨⟨some, ?_, ?_⟩, rfl, ?_, ?_, ?_⟩
    · dsimp only
      rw [shorter, Nat.add_sub_cancel]
    · dsimp only
      rw [shorter]
      exact Nat.pow_lt_pow_right (by decide) (by omega)
    · simp only [value, lastPower, shorter]
      push_cast
      rw [← zpow_natCast, ← zpow_natCast, ← zpow_add₀ (by norm_num), ← zpow_add₀ (by norm_num)]
      congr 1
      omega
    · exact (lt_add_one power).le
    · exact le_rfl
  next fits => exact ⟨⟨some, low, not_le.mp fits⟩, rfl, rfl, le_rfl, (lt_add_one power).le⟩

/-- Where the quotient is between powers of ten that are not too small. -/
structure IsLeading (num den : Nat) (power : Int) : Prop where
  denominator : 0 < den
  leading : leadingPower num den = power
  low : (10 : ℚ) ^ power ≤ num / den
  high : (num / den : ℚ) < 10 ^ (power + 1)

theorem isLeading (denominator : 0 < den) (large : (10 : ℚ) ^ (-400 : Int) ≤ num / den) :
    IsLeading num den (leadingPower num den) :=
  have between := leadingPower_spec denominator large
  ⟨denominator, rfl, between.1, between.2⟩

/-- The quotient over the place of its last digit of the count. -/
theorem IsLeading.scaled_bounds (leads : IsLeading num den power) (some : 0 < count) :
    ((10 ^ (count - 1) : Nat) : ℚ) ≤ num / den / 10 ^ (power - (count - 1 : Nat)) ∧
      (num / den / 10 ^ (power - (count - 1 : Nat)) : ℚ) < (10 ^ count : Nat) := by
  have unit : (0 : ℚ) < 10 ^ (power - (count - 1 : Nat)) := by positivity
  push_cast
  constructor
  · rw [le_div_iff₀ unit, ← zpow_natCast, ← zpow_add₀ (by norm_num), add_sub_cancel]
    exact leads.low
  · have place : (count : Int) + (power - (count - 1 : Nat)) = power + 1 := by omega
    rw [div_lt_iff₀ unit, ← zpow_natCast, ← zpow_add₀ (by norm_num), place]
    exact leads.high

/-- The nearest multiple of the last place, and how far it is. -/
theorem IsLeading.roundHalfEven_spec (leads : IsLeading num den power) (some : 0 < count) :
    let scaled := scaleDown num den (power - (count - 1 : Nat))
    10 ^ (count - 1) ≤ Binary64.roundHalfEven scaled.1 scaled.2 ∧
      Binary64.roundHalfEven scaled.1 scaled.2 ≤ 10 ^ count ∧
      |(num / den / 10 ^ (power - (count - 1 : Nat)) : ℚ) -
        Binary64.roundHalfEven scaled.1 scaled.2| ≤ 1 / 2 := by
  intro scaled
  have near := @Binary64.abs_sub_roundHalfEven_le scaled.1 scaled.2
    (scaleDown_snd_pos leads.denominator _)
  obtain ⟨low, high⟩ := leads.scaled_bounds some
  rw [scaleDown_ratio] at near
  obtain ⟨below, above⟩ := abs_le.mp near
  generalize Binary64.roundHalfEven scaled.1 scaled.2 = rounded at near below above ⊢
  refine ⟨?_, ?_, near⟩
  · have bound : ((10 ^ (count - 1) : Nat) : ℚ) < rounded + 1 := by linarith
    exact Nat.lt_succ_iff.mp (by exact_mod_cast bound)
  · have bound : (rounded : ℚ) < (10 ^ count : Nat) + 1 := by linarith
    exact Nat.lt_succ_iff.mp (by exact_mod_cast bound)

/-- The decimal has as many digits as asked for, and stands near a quotient of this power. -/
structure IsNear (d : Decimal) (count : Nat) (power : Int) : Prop where
  normal : d.IsNormal
  count : d.count = count
  least : power ≤ d.power
  most : d.power ≤ power + 1

theorem ofCount_isNear (some : 0 < count) (low : 10 ^ (count - 1) ≤ digits)
    (high : digits ≤ 10 ^ count) : IsNear (ofCount digits count power) count power := by
  obtain ⟨normal, length, -, least, most⟩ := @ofCount_spec count digits power some low high
  exact ⟨normal, length, least, most⟩

theorem IsLeading.neighbours_isNear (leads : IsLeading num den power) (some : 0 < count)
    (member : d ∈ neighbours num den count) : IsNear d count power := by
  obtain ⟨low, high, -⟩ := leads.roundHalfEven_spec some
  let scaled := scaleDown num den (power - (count - 1 : Nat))
  have positive : 0 < scaled.2 := scaleDown_snd_pos leads.denominator _
  obtain ⟨least, less⟩ := leads.scaled_bounds some
  rw [← scaleDown_ratio] at least less
  have wholeLow : 10 ^ (count - 1) ≤ scaled.1 / scaled.2 := by
    have bound := least.trans_lt (Binary64.lt_whole_add_one positive)
    exact Nat.lt_succ_iff.mp (by exact_mod_cast bound)
  have wholeHigh : scaled.1 / scaled.2 < 10 ^ count := by
    exact_mod_cast (Binary64.whole_le positive).trans_lt less
  have listed : d = ofCount (Binary64.roundHalfEven scaled.1 scaled.2) count power ∨
      d = ofCount (if Binary64.roundHalfEven scaled.1 scaled.2 = scaled.1 / scaled.2 then
        scaled.1 / scaled.2 + 1 else scaled.1 / scaled.2) count power := by
    simpa [neighbours, leads.leading] using member
  rcases listed with rfl | rfl
  · exact ofCount_isNear some low high
  · split
    · exact ofCount_isNear some (wholeLow.trans (Nat.le_succ _)) wholeHigh
    · exact ofCount_isNear some wholeLow wholeHigh.le

theorem IsLeading.rounded_eq (leads : IsLeading num den power) :
    rounded .toEven num den count = ofCount (Binary64.roundHalfEven
      (scaleDown num den (power - (count - 1 : Nat))).1
      (scaleDown num den (power - (count - 1 : Nat))).2) count power := by
  rw [rounded, leads.leading]
  rfl

theorem IsLeading.rounded_isNear (leads : IsLeading num den power) (some : 0 < count) :
    IsNear (rounded .toEven num den count) count power := by
  obtain ⟨low, high, -⟩ := leads.roundHalfEven_spec some
  rw [leads.rounded_eq]
  exact ofCount_isNear some low high

theorem IsLeading.abs_rounded_sub_le (leads : IsLeading num den power) (some : 0 < count) :
    |(rounded .toEven num den count).value - num / den| ≤
      1 / 2 * 10 ^ (power - (count - 1 : Nat)) := by
  obtain ⟨low, high, near⟩ := leads.roundHalfEven_spec some
  obtain ⟨-, -, value, -, -⟩ := @ofCount_spec count _ power some low high
  have unit : (0 : ℚ) < 10 ^ (power - (count - 1 : Nat)) := by positivity
  rw [leads.rounded_eq, value, abs_sub_comm, ← div_mul_cancel₀ (num / den : ℚ) unit.ne', ← sub_mul,
    abs_mul, abs_of_pos unit]
  exact mul_le_mul_of_nonneg_right near unit.le

/-! ## Final zeros -/

theorem value_drop (more : 1 < d.count) (zero : d.digits % 10 = 0) :
    value ⟨d.digits / 10, d.count - 1, d.power⟩ = d.value := by
  have parts : ((d.digits / 10 * 10 : Nat) : ℚ) = d.digits := by
    rw [Nat.div_mul_cancel (Nat.dvd_of_mod_eq_zero zero)]
  have place : d.power - ((d.count - 1 - 1 : Nat) : Int) = d.power - (d.count - 1 : Nat) + 1 := by omega
  simp only [value, lastPower]
  rw [place, zpow_add_one₀ (by norm_num), ← parts]
  push_cast
  ring

theorem IsNormal.drop (normal : d.IsNormal) (more : 1 < d.count) (zero : d.digits % 10 = 0) :
    IsNormal ⟨d.digits / 10, d.count - 1, d.power⟩ := by
  obtain ⟨-, low, high⟩ := normal
  obtain ⟨digits, count, power⟩ := d
  obtain ⟨places, rfl⟩ := Nat.exists_eq_add_of_le' more
  change 10 ^ (places + 1) ≤ digits at low
  change digits < 10 ^ (places + 2) at high
  change digits % 10 = 0 at zero
  refine ⟨Nat.succ_pos places, ?_, ?_⟩
  · change 10 ^ places ≤ digits / 10
    rw [pow_succ] at low
    omega
  · change digits / 10 < 10 ^ (places + 1)
    rw [pow_succ] at high
    omega

theorem strip_spec (normal : d.IsNormal) (fuel : Nat) :
    (d.strip fuel).IsNormal ∧ (d.strip fuel).value = d.value ∧ (d.strip fuel).power = d.power ∧
      (d.strip fuel).count ≤ d.count := by
  induction fuel generalizing d with
  | zero => exact ⟨normal, rfl, rfl, le_rfl⟩
  | succ fuel ih =>
    unfold strip
    split
    next dropped =>
      obtain ⟨kept, value, power, count⟩ := ih (normal.drop dropped.1 dropped.2)
      exact ⟨kept, value.trans (value_drop dropped.1 dropped.2), power, count.trans (Nat.sub_le _ _)⟩
    next => exact ⟨normal, rfl, rfl, le_rfl⟩

theorem last_of_strip {fuel : Nat} (enough : d.count ≤ fuel) :
    (d.strip fuel).count ≤ 1 ∨ (d.strip fuel).digits % 10 ≠ 0 := by
  induction fuel generalizing d with
  | zero => exact .inl (enough.trans (Nat.zero_le 1))
  | succ fuel ih =>
    unfold strip
    split
    next dropped => exact ih (by dsimp only; omega)
    next kept => omega

/-! ## Digits that read back -/

/-- The decimal is read as the positive number with this mantissa and exponent, by whatever digits
its value is written. -/
structure IsReadAs (d : Decimal) (mantissa : Nat) (exponent : Int) : Prop where
  normal : d.IsNormal
  short : d.count ≤ 17
  least : -330 ≤ d.power
  most : d.power < 319
  read : Binary64.ofDecimal false d.digits d.lastPower = .finite false mantissa exponent

theorem IsNormal.digits_lt (normal : d.IsNormal) (short : d.count ≤ 17) : d.digits < 2 ^ 61 :=
  (normal.high.trans_le (Nat.pow_le_pow_right (by decide) short)).trans (by decide)

theorem IsNormal.low_le_value (normal : d.IsNormal) (least : -330 ≤ d.power) :
    (10 : ℚ) ^ (-330 : Int) ≤ d.value :=
  (zpow_le_zpow_right₀ (by norm_num) least).trans normal.power_le_value

theorem IsNormal.value_lt_high (normal : d.IsNormal) (most : d.power < 319) :
    d.value < 10 ^ (320 : Int) :=
  normal.value_lt_power.trans_le (zpow_le_zpow_right₀ (by norm_num) (by omega))

variable {mantissa : Nat} {exponent : Int}

theorem IsReadAs.ofDecimal_eq (reads : d.IsReadAs mantissa exponent) (negative : Bool) {other : Nat}
    {otherPower : Int} (short : other < 2 ^ 61) (same : d.value = other * 10 ^ otherPower) :
    Binary64.ofDecimal negative other otherPower = .finite negative mantissa exponent := by
  refine Binary64.ofDecimal_eq_finite negative (reads.read ▸ ?_)
  exact (Binary64.ofDecimal_congr false reads.normal.digits_pos (reads.normal.digits_lt reads.short)
    short same (reads.normal.low_le_value reads.least)
    (reads.normal.value_lt_high reads.most)).symm

theorem IsReadAs.strip (reads : d.IsReadAs mantissa exponent) (fuel : Nat) :
    (d.strip fuel).IsReadAs mantissa exponent := by
  obtain ⟨normal, value, power, count⟩ := strip_spec reads.normal fuel
  have short := count.trans reads.short
  refine ⟨normal, short, power ▸ reads.least, power ▸ reads.most, ?_⟩
  exact reads.ofDecimal_eq false (normal.digits_lt short) value.symm

theorem exists_grid_of_firstHit? {grid : Nat → List Decimal} {accepts : Decimal → Bool} {fuel : Nat}
    (hit : firstHit? grid accepts fuel count = some d) :
    ∃ n, count ≤ n ∧ n < count + fuel ∧ d ∈ grid n := by
  induction fuel generalizing count with
  | zero => cases hit
  | succ fuel ih =>
    unfold firstHit? at hit
    split at hit
    next found first =>
      obtain rfl := Option.some.inj hit
      exact ⟨count, le_rfl, by omega, List.mem_of_find?_eq_some first⟩
    next =>
      obtain ⟨n, low, high, member⟩ := ih hit
      exact ⟨n, by omega, by omega, member⟩

theorem two_pow_le_ten_pow {bits places : Nat} (fits : 2 ^ bits ≤ 10 ^ places) :
    (2 : ℚ) ^ (bits : Int) ≤ 10 ^ (places : Int) := by
  rw [zpow_natCast, zpow_natCast]
  exact_mod_cast fits

theorem le_magnitude (canonical : Binary64.IsCanonical mantissa exponent) (positive : 0 < mantissa) :
    (10 : ℚ) ^ (-324 : Int) ≤ mantissa * 2 ^ exponent := by
  have one : (1 : ℚ) ≤ mantissa := by exact_mod_cast positive
  calc (10 : ℚ) ^ (-324 : Int) ≤ 2 ^ (-1074 : Int) := by
        rw [zpow_neg, zpow_neg]
        exact inv_anti₀ (by positivity) (@two_pow_le_ten_pow 1074 324 (by decide +kernel))
    _ ≤ 2 ^ exponent := zpow_le_zpow_right₀ (by norm_num) canonical.least
    _ ≤ mantissa * 2 ^ exponent := le_mul_of_one_le_left (by positivity) one

/-- The magnitudes of the numbers are between these powers of ten. -/
theorem IsLeading.power_bounds (leads : IsLeading num den power)
    (canonical : Binary64.IsCanonical mantissa exponent) (positive : 0 < mantissa)
    (quotient : (num / den : ℚ) = mantissa * 2 ^ exponent) : -325 ≤ power ∧ power < 309 := by
  have bits : (mantissa : ℚ) < 2 ^ (53 : Int) := by exact_mod_cast canonical.bits
  constructor
  · have small := le_magnitude canonical positive
    rw [← quotient] at small
    have order := (zpow_lt_zpow_iff_right₀ (by norm_num)).mp (small.trans_lt leads.high)
    omega
  · have large : (num / den : ℚ) < 2 ^ (1024 : Int) := by
      rw [quotient]
      calc (mantissa : ℚ) * 2 ^ exponent < 2 ^ (53 : Int) * 2 ^ exponent :=
            mul_lt_mul_of_pos_right bits (by positivity)
        _ ≤ 2 ^ (53 : Int) * 2 ^ (971 : Int) := mul_le_mul_of_nonneg_left
            (zpow_le_zpow_right₀ (by norm_num) canonical.most) (by positivity)
        _ = 2 ^ (1024 : Int) := (zpow_add₀ (by norm_num) 53 971).symm
    have limit : (2 : ℚ) ^ (1024 : Int) ≤ 10 ^ (309 : Int) :=
      @two_pow_le_ten_pow 1024 309 (by decide +kernel)
    exact (zpow_lt_zpow_iff_right₀ (by norm_num)).mp (leads.low.trans_lt (large.trans_le limit))

/-- Seventeen digits are always enough. -/
theorem IsLeading.rounded_isReadAs (leads : IsLeading num den power)
    (canonical : Binary64.IsCanonical mantissa exponent) (positive : 0 < mantissa)
    (quotient : (num / den : ℚ) = mantissa * 2 ^ exponent) :
    (rounded .toEven num den 17).IsReadAs mantissa exponent := by
  obtain ⟨normal, count, least, most⟩ := leads.rounded_isNear (show 0 < 17 by decide)
  have near := leads.abs_rounded_sub_le (show 0 < 17 by decide)
  obtain ⟨low, high⟩ := leads.power_bounds canonical positive quotient
  have short := count.le
  have lowPower : -330 ≤ (rounded .toEven num den 17).power := by omega
  have highPower : (rounded .toEven num den 17).power < 319 := by omega
  refine ⟨normal, short, lowPower, highPower, ?_⟩
  refine Binary64.ofDecimal_of_near false normal.digits_pos (normal.digits_lt short)
    (normal.low_le_value lowPower) (normal.value_lt_high highPower) canonical positive ?_
  rw [← quotient]
  refine near.trans ?_
  calc (1 / 2 * 10 ^ (power - (17 - 1 : Nat)) : ℚ) = 10 ^ power / 20000000000000000 := by
        rw [zpow_sub₀ (by norm_num), zpow_natCast]
        norm_num
        ring
    _ ≤ num / den / 20000000000000000 := by
        exact div_le_div_of_nonneg_right leads.low (by norm_num)

theorem IsNear.isReadAs (near : IsNear d count power) (short : count ≤ 17) (least : -325 ≤ power)
    (most : power < 309) (accepted : d.readsAs mantissa exponent = true) :
    d.IsReadAs mantissa exponent := by
  have lowPower := near.least
  have highPower := near.most
  refine ⟨near.normal, near.count.trans_le short, by omega, by omega, ?_⟩
  rw [readsAs, beq_iff_eq] at accepted
  exact accepted

theorem IsLeading.searched_isReadAs (leads : IsLeading num den power)
    (canonical : Binary64.IsCanonical mantissa exponent) (positive : 0 < mantissa)
    (quotient : (num / den : ℚ) = mantissa * 2 ^ exponent) :
    ((firstHit? (neighbours num den) (·.readsAs mantissa exponent) 17 1).getD
      (rounded .toEven num den 17)).IsReadAs mantissa exponent := by
  cases hit : firstHit? (neighbours num den) (·.readsAs mantissa exponent) 17 1 with
  | none =>
    rw [Option.getD_none]
    exact leads.rounded_isReadAs canonical positive quotient
  | some d =>
    rw [Option.getD_some]
    obtain ⟨count, low, high, member⟩ := exists_grid_of_firstHit? hit
    obtain ⟨least, most⟩ := leads.power_bounds canonical positive quotient
    have near := leads.neighbours_isNear low member
    exact near.isReadAs (by omega) least most (firstHit?_eq_some hit).1

theorem isLeading_magnitudeRatio (canonical : Binary64.IsCanonical mantissa exponent)
    (positive : 0 < mantissa) :
    let ratio := Binary64.magnitudeRatio mantissa exponent
    IsLeading ratio.1 ratio.2 (leadingPower ratio.1 ratio.2) := by
  have large : (10 : ℚ) ^ (-400 : Int) ≤ mantissa * 2 ^ exponent :=
    (zpow_le_zpow_right₀ (by norm_num) (by decide)).trans (le_magnitude canonical positive)
  rw [← Binary64.magnitudeRatio_ratio] at large
  exact isLeading (Binary64.magnitudeRatio_snd_pos mantissa exponent) large

theorem IsLeading.rounded_value_of_whole {n : Nat} (leads : IsLeading num den power)
    (some : 0 < count) (short : power < count) (quotient : (num / den : ℚ) = n) :
    (rounded .toEven num den count).value = n := by
  obtain ⟨low, high, -⟩ := leads.roundHalfEven_spec some
  have whole : (num / den / 10 ^ (power - (count - 1 : Nat)) : ℚ) =
      (n * 10 ^ ((count - 1 : Nat) - power).toNat : Nat) := by
    rw [quotient, Nat.cast_mul, Nat.cast_pow, ← zpow_natCast, Int.toNat_of_nonneg (by omega),
      div_eq_mul_inv, ← zpow_neg, neg_sub, Nat.cast_ofNat]
  have exact : Binary64.roundHalfEven (scaleDown num den (power - (count - 1 : Nat))).1
      (scaleDown num den (power - (count - 1 : Nat))).2 =
        n * 10 ^ ((count - 1 : Nat) - power).toNat := by
    refine Binary64.roundHalfEven_of_near (scaleDown_snd_pos leads.denominator _) ?_
    rw [scaleDown_ratio, whole, sub_self, abs_zero]
    norm_num
  rw [exact] at low high
  obtain ⟨-, -, value, -, -⟩ := @ofCount_spec count _ power some low high
  rw [leads.rounded_eq, exact, value, ← whole, quotient, div_mul_cancel₀]
  positivity

/-- A whole number without final zeros has no digits after its point. -/
theorem count_le_of_whole {n : Nat} (whole : d.value = n)
    (last : d.count ≤ 1 ∨ d.digits % 10 ≠ 0) (power : 0 ≤ d.power) :
    (d.count : Int) ≤ d.power + 1 := by
  by_contra long
  have more : 0 < ((d.count - 1 : Nat) - d.power).toNat := by omega
  have shifted : d.digits = n * 10 ^ ((d.count - 1 : Nat) - d.power).toNat := by
    have digits : (d.digits : ℚ) = n * 10 ^ (-d.lastPower) := by
      rw [← whole, value, mul_assoc, ← zpow_add₀ (by norm_num), add_neg_cancel, zpow_zero, mul_one]
    rw [lastPower, neg_sub, ← Int.toNat_of_nonneg (show 0 ≤ ((d.count - 1 : Nat) - d.power) by omega),
      zpow_natCast] at digits
    exact_mod_cast digits
  obtain ⟨places, rest⟩ := Nat.exists_eq_add_one_of_ne_zero more.ne'
  rw [rest, pow_succ, ← Nat.mul_assoc] at shifted
  omega

end Decimal

open Decimal in
theorem shortestDigits_isReadAs {mantissa : Nat} {exponent : Int}
    (canonical : Binary64.IsCanonical mantissa exponent) (positive : 0 < mantissa) :
    (shortestDigits mantissa exponent).IsReadAs mantissa exponent :=
  ((isLeading_magnitudeRatio canonical positive).searched_isReadAs canonical positive
    (Binary64.magnitudeRatio_ratio mantissa exponent)).strip 17

open Decimal in
/-- A whole number of at most `count` digits is kept, and no zero after its point is left. -/
theorem roundedDigits_of_whole {mantissa n count : Nat} {exponent : Int} (positive : 0 < n)
    (whole : (mantissa * 2 ^ exponent : ℚ) = n) (short : n < 10 ^ count) :
    let d := roundedDigits .toEven count mantissa exponent
    d.IsNormal ∧ 0 ≤ d.power ∧ (d.count : Int) ≤ d.power + 1 ∧ d.power < count ∧ d.value = n := by
  have quotient := (Binary64.magnitudeRatio_ratio mantissa exponent).trans whole
  have one : (1 : ℚ) ≤ n := by exact_mod_cast positive
  have leads := isLeading (Binary64.magnitudeRatio_snd_pos mantissa exponent)
    (quotient ▸ (zpow_le_one_of_nonpos₀ (by norm_num) (by decide)).trans one)
  have shortQ : (n : ℚ) < 10 ^ (count : Int) := by
    rw [zpow_natCast]
    exact_mod_cast short
  unfold roundedDigits
  dsimp only
  generalize Binary64.magnitudeRatio mantissa exponent = ratio at quotient leads
  generalize leadingPower ratio.1 ratio.2 = power at leads
  -- The leading power is that of a number from one up to, but not including, `10 ^ count`.
  have nonnegative : 0 ≤ power := by
    have high := leads.high
    rw [quotient] at high
    have order := (zpow_lt_zpow_iff_right₀ (by norm_num)).mp
      ((zpow_zero (10 : ℚ)).le.trans_lt (one.trans_lt high))
    omega
  have less : power < count := by
    have low := leads.low
    rw [quotient] at low
    exact (zpow_lt_zpow_iff_right₀ (by norm_num)).mp (low.trans_lt shortQ)
  have some : 0 < count := by omega
  -- Rounding to `count` digits keeps the value, and so does dropping the zeros at its end.
  obtain ⟨normal, length, least, -⟩ := leads.rounded_isNear some
  have value := leads.rounded_value_of_whole some less quotient
  obtain ⟨kept, keptValue, keptPower, -⟩ := strip_spec normal count
  have last := last_of_strip length.le
  generalize (rounded .toEven ratio.1 ratio.2 count).strip count = d at kept keptValue keptPower last
  rw [← keptPower] at least
  have wholeValue := keptValue.trans value
  have power := least.trans' nonnegative
  refine ⟨kept, power, count_le_of_whole wholeValue last power, ?_, wholeValue⟩
  have low := kept.power_le_value
  rw [wholeValue] at low
  exact (zpow_lt_zpow_iff_right₀ (by norm_num)).mp (low.trans_lt shortQ)

end AdjacencyForest
