/-!
# Binary floating-point numbers of 64 bits

A finite number is a sign, a natural mantissa and a power of two; all arithmetic is exact on
natural numbers and one function, `Binary64.ofRatio`, rounds to the nearest number with ties to the
even mantissa. Only what the library does with such numbers is here: reading decimals and integers,
comparing, and taking whole parts.

Main statement: taking the whole part of a whole number changes nothing (`truncate?_of_toInt?`).
-/
namespace AdjacencyForest

/-- A finite number is `mantissa * 2 ^ exponent`, negated if `negative`; the mantissa has 53 bits,
or fewer at the least exponent −1074. -/
inductive Binary64 where
  | finite (negative : Bool) (mantissa : Nat) (exponent : Int)
  | infinite (negative : Bool)
  | nan
  deriving DecidableEq, Repr, Inhabited

namespace Binary64

def signedZero (negative : Bool) : Binary64 := .finite negative 0 (-1074)

/-- The quotient rounded to the nearest natural number, a half to the even one. -/
def roundHalfEven (num den : Nat) : Nat :=
  let whole := num / den
  let rest := num % den
  if 2 * rest < den then whole
  else if den < 2 * rest then whole + 1
  else whole + whole % 2

/-- The quotient `num / (den * 2 ^ exponent)` as a pair of naturals. -/
def scaleDown (num den : Nat) (exponent : Int) : Nat × Nat :=
  if 0 ≤ exponent then (num, den * Nat.pow 2 exponent.toNat)
  else (num * Nat.pow 2 (-exponent).toNat, den)

/-- The exponent that leaves a mantissa of 53 bits for `num / den`, not below the least one. -/
def exponentFor (num den : Nat) : Int :=
  let guess : Int := (num.log2 : Int) - den.log2 - 52
  let scaled := scaleDown num den guess
  max (-1074) (if scaled.1 < scaled.2 * 0x10000000000000 then guess - 1 else guess)

/-- The number nearest to `num / den`; too large a magnitude is infinite. -/
def ofRatio (negative : Bool) (num den : Nat) : Binary64 :=
  if num = 0 ∨ den = 0 then signedZero negative
  else
    let exponent := exponentFor num den
    let scaled := scaleDown num den exponent
    let mantissa := roundHalfEven scaled.1 scaled.2
    let carried := mantissa == 0x20000000000000
    let mantissa := if carried then 0x10000000000000 else mantissa
    let exponent := if carried then exponent + 1 else exponent
    if 971 < exponent then .infinite negative
    else if mantissa = 0 then signedZero negative
    else .finite negative mantissa exponent

/-- The number nearest to `digits * 10 ^ power`. Powers that decide the outcome by themselves are
not multiplied out. -/
def ofDecimal (negative : Bool) (digits : Nat) (power : Int) : Binary64 :=
  let size : Int := ((digits.log2 : Int) * 30103) / 100000 + 1
  if digits = 0 then signedZero negative
  else if 330 < size + power then .infinite negative
  else if size + power < -350 then signedZero negative
  else if 0 ≤ power then ofRatio negative (digits * Nat.pow 10 power.toNat) 1
  else ofRatio negative digits (Nat.pow 10 (-power).toNat)

def ofInt (i : Int) : Binary64 := ofRatio (i < 0) i.natAbs 1

/-- Numerator and denominator of the magnitude of a finite number. -/
def magnitudeRatio (mantissa : Nat) (exponent : Int) : Nat × Nat :=
  if 0 ≤ exponent then (mantissa * Nat.pow 2 exponent.toNat, 1)
  else (mantissa, Nat.pow 2 (-exponent).toNat)

/-- Signed numerator and denominator of a finite number. -/
def signedRatio (negative : Bool) (mantissa : Nat) (exponent : Int) : Int × Nat :=
  let ratio := magnitudeRatio mantissa exponent
  (if negative then -(ratio.1 : Int) else ratio.1, ratio.2)

/-- The order of two numbers; `none` if one of them is not a number. -/
def compare? : Binary64 → Binary64 → Option Ordering
  | .nan, _ | _, .nan => none
  | .infinite n, .infinite m =>
    some (if n == m then .eq else if n then .lt else .gt)
  | .infinite n, .finite .. => some (if n then .lt else .gt)
  | .finite .., .infinite m => some (if m then .gt else .lt)
  | .finite n a e, .finite m b f =>
    let left := signedRatio n a e
    let right := signedRatio m b f
    some (compare (left.1 * right.2) (right.1 * left.2))

/-- The order of a number and an integer, without rounding the integer. -/
def compareInt? : Binary64 → Int → Option Ordering
  | .nan, _ => none
  | .infinite n, _ => some (if n then .lt else .gt)
  | .finite n a e, i =>
    let ratio := signedRatio n a e
    some (compare ratio.1 (i * ratio.2))

/-- The number without its fraction; `none` for what is not finite. -/
def truncate? : Binary64 → Option Int
  | .finite n a e =>
    let ratio := signedRatio n a e
    some (ratio.1.tdiv ratio.2)
  | _ => none

/-- The integer that a number is; `none` if it has a fraction or is not finite. -/
def toInt? : Binary64 → Option Int
  | .finite n a e =>
    let ratio := signedRatio n a e
    if ratio.1 % ratio.2 = 0 then some (ratio.1 / ratio.2) else none
  | _ => none

def isFinite : Binary64 → Bool
  | .finite .. => true
  | _ => false

def isZero : Binary64 → Bool
  | .finite _ mantissa _ => mantissa == 0
  | _ => false

/-- The sum with a small integer, rounded once. -/
def addInt : Binary64 → Int → Binary64
  | .finite n a e, i =>
    let ratio := signedRatio n a e
    let sum := ratio.1 + i * ratio.2
    if sum = 0 then signedZero (n && i == 0) else ofRatio (sum < 0) sum.natAbs ratio.2
  | x, _ => x

theorem truncate?_of_toInt? {x : Binary64} {i : Int} (whole : x.toInt? = some i) :
    x.truncate? = some i := by
  cases x with
  | finite n a e =>
    simp only [toInt?] at whole
    split at whole
    next divides =>
      simp only [Option.some.injEq] at whole
      simp only [truncate?, Option.some.injEq, ← whole]
      rw [Int.tdiv_eq_ediv_of_dvd (Int.dvd_of_emod_eq_zero divides)]
    next => simp at whole
  | infinite => simp [toInt?] at whole
  | nan => simp [toInt?] at whole

end Binary64
end AdjacencyForest
