import AdjacencyForest.Number.Shortest

/-!
# Layouts of binary numbers

A `NumberLayout` says how the digits of a number are set out as text: which powers of ten are
written positionally, whether a whole number keeps a point, and the words for what is not finite.
The three layouts of the library are `NumberLayout.exchange` (texts of data and messages),
`NumberLayout.stored` (what the store makes of a number where it needs text) and
`NumberLayout.cell` (numbers in a workbook).

Main statement: only the sign and the magnitude count, so a number other than zero and its
negative differ in the sign alone (`write_negative`).
-/
namespace AdjacencyForest

/-- How a number is written. -/
structure NumberLayout where
  /-- Significant digits; `none` for the fewest that read back. -/
  significant : Option Nat
  /-- Where a fixed count of digits leaves a half. -/
  tie : Decimal.Tie
  /-- Powers of the first digit from here on are written without an exponent, -/
  positionalFrom : Int
  /-- up to this one. -/
  positionalTo : Int
  /-- A whole number written positionally ends in `.0`. -/
  wholeMark : Bool
  /-- A single digit before an exponent is followed by `.0`. -/
  digitMark : Bool
  /-- A negative zero keeps its sign. -/
  zeroSign : Bool
  infinity : String
  negativeInfinity : String
  notANumber : String

namespace NumberLayout

/-- Fewest digits, positional from 1e-4 up to 1e16, and always with a point or an exponent. -/
def exchange : NumberLayout where
  significant := none
  tie := .toEven
  positionalFrom := -4
  positionalTo := 15
  wholeMark := true
  digitMark := false
  zeroSign := true
  infinity := "Infinity"
  negativeInfinity := "-Infinity"
  notANumber := "NaN"

/-- The layout of messages differs from `exchange` in the words for what is not finite. -/
def message : NumberLayout :=
  { exchange with infinity := "inf", negativeInfinity := "-inf", notANumber := "nan" }

/-- Fifteen digits, and always with a point. -/
def stored : NumberLayout where
  significant := some 15
  tie := .up
  positionalFrom := -4
  positionalTo := 14
  wholeMark := true
  digitMark := true
  zeroSign := false
  infinity := "Inf"
  negativeInfinity := "-Inf"
  notANumber := ""

/-- Sixteen digits, a whole number without a point. -/
def cell : NumberLayout where
  significant := some 16
  tie := .toEven
  positionalFrom := -4
  positionalTo := 15
  wholeMark := false
  digitMark := false
  zeroSign := true
  infinity := "inf"
  negativeInfinity := "-inf"
  notANumber := ""

/-- An exponent: its sign and at least two digits. -/
def exponentText (power : Int) : List Char :=
  let digits := Nat.toDigits 10 power.natAbs
  'e' :: (if power < 0 then '-' else '+') :: (if digits.length < 2 then '0' :: digits else digits)

/-- A list filled with zeros at its end up to the length. -/
def padRight (length : Nat) (digits : List Char) : List Char :=
  digits ++ List.replicate (length - digits.length) '0'

def positional (layout : NumberLayout) (digits : List Char) (power : Int) : List Char :=
  if power < 0 then '0' :: '.' :: (List.replicate ((-power).toNat - 1) '0' ++ digits)
  else
    let wholeLength := power.toNat + 1
    let whole := padRight wholeLength (digits.take wholeLength)
    let fraction := digits.drop wholeLength
    if fraction.isEmpty then whole ++ (if layout.wholeMark then ['.', '0'] else [])
    else whole ++ '.' :: fraction

def scientific (layout : NumberLayout) (digits : List Char) (power : Int) : List Char :=
  let fraction := digits.drop 1
  digits.take 1 ++ (if fraction.isEmpty then (if layout.digitMark then ['.', '0'] else [])
    else '.' :: fraction) ++ exponentText power

def magnitude (layout : NumberLayout) (mantissa : Nat) (exponent : Int) : List Char :=
  if mantissa = 0 then layout.positional ['0'] 0
  else
    let decimal := match layout.significant with
      | some count => roundedDigits layout.tie count mantissa exponent
      | none => shortestDigits mantissa exponent
    let digits := Nat.toDigits 10 decimal.digits
    if layout.positionalFrom ≤ decimal.power ∧ decimal.power ≤ layout.positionalTo then
      layout.positional digits decimal.power
    else layout.scientific digits decimal.power

def write (layout : NumberLayout) : Binary64 → String
  | .finite negative mantissa exponent =>
    let signed := negative && (layout.zeroSign || mantissa != 0)
    String.ofList ((if signed then ['-'] else []) ++ layout.magnitude mantissa exponent)
  | .infinite negative => if negative then layout.negativeInfinity else layout.infinity
  | .nan => layout.notANumber

theorem write_negative (layout : NumberLayout) {mantissa : Nat} (nonzero : mantissa ≠ 0)
    (exponent : Int) :
    (layout.write (.finite true mantissa exponent)).toList =
      '-' :: (layout.write (.finite false mantissa exponent)).toList := by
  simp [write, nonzero]

end NumberLayout
end AdjacencyForest
