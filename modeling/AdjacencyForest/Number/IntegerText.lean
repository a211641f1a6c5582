import AdjacencyForest.Text.Blank
import AdjacencyForest.Text.Digit

/-!
# Integers as text

Reading an integer as people type it: white space around it, a sign, digits of any script, and a
single `_` between two digits. `readInteger?` accepts exactly that, `writeInteger` is the plain
decimal form.

Main statement: `groupedDigits?` needs a digit on both sides of each `_`
(`groupedDigits?_underscore`).
-/
namespace AdjacencyForest

open Text

/-- The longest count of digits that is turned into an integer. -/
def digitLimit : Nat := 4300

/-- The values of the digits of a text in which a single `_` may stand between two digits;
`afterDigit` says whether a digit came just before. -/
def groupedDigits? (value? : Char → Option Nat) :
    (afterDigit : Bool) → List Char → Option (List Nat)
  | afterDigit, [] => if afterDigit then some [] else none
  | afterDigit, c :: rest =>
    if c = '_' then (if afterDigit then groupedDigits? value? false rest else none)
    else match value? c with
      | some digit => (groupedDigits? value? true rest).map (digit :: ·)
      | none => none

theorem groupedDigits?_underscore (value? : Char → Option Nat) (rest : List Char) :
    groupedDigits? value? false ('_' :: rest) = none := by
  simp [groupedDigits?]

/-- The number that a list of digits writes, most significant first. -/
def ofDigitValues (digits : List Nat) : Nat :=
  digits.foldl (fun value digit => 10 * value + digit) 0

def splitSign : List Char → Bool × List Char
  | '-' :: rest => (true, rest)
  | '+' :: rest => (false, rest)
  | text => (false, text)

def signed (negative : Bool) (magnitude : Nat) : Int :=
  if negative then -(magnitude : Int) else magnitude

/-- Why a text is not turned into an integer. -/
inductive IntegerFault where
  | malformed (text : String)
  | tooLong (digits : Nat)
  deriving DecidableEq, Repr

/-- The integer that a text writes in the liberal form. -/
def readInteger (text : String) : Except IntegerFault Int :=
  let body := splitSign (trimWith isWhiteSpace text.toList)
  match groupedDigits? digitValue? false body.2 with
  | none => .error (.malformed text)
  | some digits =>
    if digitLimit < digits.length then .error (.tooLong digits.length)
    else .ok (signed body.1 (ofDigitValues digits))

def writeInteger (i : Int) : String :=
  String.ofList ((if i < 0 then ['-'] else []) ++ decimalDigits i.natAbs)

end AdjacencyForest
