import AdjacencyForest.Number.Binary64

/-!
# Digits of binary numbers

Two ways to write the magnitude of a finite number in decimal: the fewest digits that read back as
the same number (`shortestDigits`), and a fixed count of significant digits (`roundedDigits`). Both
give a `Decimal`: its digits, the first of them not zero, and the power of ten of the first one.

Main statement: digits are searched on coarser grids before finer ones (`firstHit?_eq_some`).
-/
namespace AdjacencyForest

/-- The decimal `d.ddd * 10 ^ power`, its digits read as one natural number of `count` digits. -/
structure Decimal where
  digits : Nat
  count : Nat
  power : Int
  deriving DecidableEq, Repr

namespace Decimal

/-- The decimal with its final zeros dropped, but for the first digit; `fuel` bounds their count. -/
def strip : (fuel : Nat) → Decimal → Decimal
  | 0, d => d
  | fuel + 1, d =>
    if 1 < d.count ∧ d.digits % 10 = 0 then strip fuel ⟨d.digits / 10, d.count - 1, d.power⟩ else d

/-- The power of ten of the first digit of `num / den`. -/
def leadingPower (num den : Nat) : Int :=
  ((Nat.toDigits 10 (num * Nat.pow 10 400 / den)).length : Int) - 401

/-- `num / (den * 10 ^ power)` as a pair of naturals. -/
def scaleDown (num den : Nat) (power : Int) : Nat × Nat :=
  if 0 ≤ power then (num, den * Nat.pow 10 power.toNat)
  else (num * Nat.pow 10 (-power).toNat, den)

/-- A count of digits, renormalised if rounding up has made one digit more. -/
def ofCount (digits count : Nat) (power : Int) : Decimal :=
  if Nat.pow 10 count ≤ digits then ⟨digits / 10, count, power + 1⟩ else ⟨digits, count, power⟩

/-- The rules for a quotient halfway between two digits. -/
inductive Tie where
  | toEven
  | up
  deriving DecidableEq, Repr

def Tie.round (tie : Tie) (num den : Nat) : Nat :=
  match tie with
  | .toEven => Binary64.roundHalfEven num den
  | .up => (2 * num + den) / (2 * den)

/-- The quotient rounded to `count` significant digits. -/
def rounded (tie : Tie) (num den count : Nat) : Decimal :=
  let power := leadingPower num den
  let scaled := scaleDown num den (power - (count - 1 : Nat))
  ofCount (tie.round scaled.1 scaled.2) count power

/-- The two decimals of `count` significant digits around the quotient, the nearer one first. -/
def neighbours (num den count : Nat) : List Decimal :=
  let power := leadingPower num den
  let scaled := scaleDown num den (power - (count - 1 : Nat))
  let below := scaled.1 / scaled.2
  let nearest := Binary64.roundHalfEven scaled.1 scaled.2
  let other := if nearest = below then below + 1 else below
  [ofCount nearest count power, ofCount other count power]

/-- Whether the decimal reads back as the positive number with this mantissa and exponent. -/
def readsAs (d : Decimal) (mantissa : Nat) (exponent : Int) : Bool :=
  Binary64.ofDecimal false d.digits (d.power - (d.count - 1 : Nat)) ==
    .finite false mantissa exponent

/-- The first decimal that the test accepts on the coarsest grid, from `count` digits on, that has
one. -/
def firstHit? (grid : Nat → List Decimal) (accepts : Decimal → Bool) :
    (fuel : Nat) → (count : Nat) → Option Decimal
  | 0, _ => none
  | fuel + 1, count =>
    match (grid count).find? accepts with
    | some d => some d
    | none => firstHit? grid accepts fuel (count + 1)

theorem firstHit?_eq_some {grid : Nat → List Decimal} {accepts : Decimal → Bool} {fuel count : Nat}
    {d : Decimal} (hit : firstHit? grid accepts fuel count = some d) :
    accepts d = true ∧ ∃ n, count ≤ n ∧ d ∈ grid n ∧
      ∀ k, count ≤ k → k < n → ∀ e ∈ grid k, accepts e = false := by
  induction fuel generalizing count with
  | zero => simp [firstHit?] at hit
  | succ fuel ih =>
    unfold firstHit? at hit
    split at hit
    next found first =>
      obtain rfl : found = d := by simpa using hit
      exact ⟨List.find?_some first, count, Nat.le_refl _, List.mem_of_find?_eq_some first,
        fun k low high => absurd high (by omega)⟩
    next refused =>
      obtain ⟨accepted, n, low, member, coarser⟩ := ih hit
      refine ⟨accepted, n, by omega, member, fun k lowK highK => ?_⟩
      rcases Nat.eq_or_lt_of_le lowK with rfl | later
      · simpa using List.find?_eq_none.mp refused
      · exact coarser k later highK

end Decimal

/-- The fewest digits that read back as the number, and of those the nearest. Seventeen always
do. -/
def shortestDigits (mantissa : Nat) (exponent : Int) : Decimal :=
  let ratio := Binary64.magnitudeRatio mantissa exponent
  ((Decimal.firstHit? (Decimal.neighbours ratio.1 ratio.2) (·.readsAs mantissa exponent) 17 1).getD
    (Decimal.rounded .toEven ratio.1 ratio.2 17)).strip 17

/-- The given count of significant digits without final zeros. -/
def roundedDigits (tie : Decimal.Tie) (count mantissa : Nat) (exponent : Int) : Decimal :=
  let ratio := Binary64.magnitudeRatio mantissa exponent
  (Decimal.rounded tie ratio.1 ratio.2 count).strip count

end AdjacencyForest
