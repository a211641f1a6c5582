import AdjacencyForest.Number.IntegerText
import AdjacencyForest.Json.Parser

/-!
# Validation

Input is converted where that loses nothing and refused otherwise. A refusal is a list of issues,
each with its kind and its place; checks of several fields are joined by `Check.both`, so that all
issues are reported, in order.

Main statement: a joint check succeeds iff both checks do (`both_isValid`).
-/
namespace AdjacencyForest.Service

open Text

/-- What is wrong with an input. -/
inductive IssueKind where
  | missing
  | stringType
  | stringUnicode
  | intType
  | intParsing
  | intParsingSize
  | intFromFloat
  | finiteNumber
  | boolParsing
  | literalError
  | greaterThanEqual
  | dictType
  | listType
  | modelType
  | modelAttributesType
  | valueError
  | jsonInvalid
  deriving DecidableEq, Repr

def IssueKind.word : IssueKind → String
  | .missing => "missing"
  | .stringType => "string_type"
  | .stringUnicode => "string_unicode"
  | .intType => "int_type"
  | .intParsing => "int_parsing"
  | .intParsingSize => "int_parsing_size"
  | .intFromFloat => "int_from_float"
  | .finiteNumber => "finite_number"
  | .boolParsing => "bool_parsing"
  | .literalError => "literal_error"
  | .greaterThanEqual => "greater_than_equal"
  | .dictType => "dict_type"
  | .listType => "list_type"
  | .modelType => "model_type"
  | .modelAttributesType => "model_attributes_type"
  | .valueError => "value_error"
  | .jsonInvalid => "json_invalid"

/-- A step of a place: a name or a position. -/
inductive Segment where
  | name (name : String)
  | position (index : Nat)
  deriving DecidableEq, Repr

/-- An issue: its kind, its place, and the input that has it. -/
structure Issue where
  kind : IssueKind
  place : List Segment
  input : Json

def Issue.within (segment : Segment) (issue : Issue) : Issue :=
  { issue with place := segment :: issue.place }

/-- The outcome of a check: a value, or the issues that there are. -/
abbrev Check (α : Type) := Except (List Issue) α

namespace Check

/-- The check of a part, its issues at that part. -/
def within {α : Type} (segment : Segment) (check : Check α) : Check α :=
  check.mapError fun issues => issues.map (Issue.within segment)

/-- Two checks together: the issues of both are reported. -/
def both {α β : Type} : Check α → Check β → Check (α × β)
  | .ok a, .ok b => .ok (a, b)
  | .error first, .error second => .error (first ++ second)
  | .error issues, _ => .error issues
  | _, .error issues => .error issues

def isValid {α : Type} : Check α → Bool
  | .ok _ => true
  | .error _ => false

theorem both_isValid {α β : Type} (a : Check α) (b : Check β) :
    (both a b).isValid = (a.isValid && b.isValid) := by
  cases a <;> cases b <;> rfl

theorem both_eq_ok {α β : Type} {a : Check α} {b : Check β} {pair : α × β} :
    both a b = .ok pair ↔ a = .ok pair.1 ∧ b = .ok pair.2 := by
  obtain ⟨x, y⟩ := pair
  cases a <;> cases b <;> simp [both]

def fail {α : Type} (kind : IssueKind) (input : Json) : Check α := .error [⟨kind, [], input⟩]

/-- The checks of all items of a list, each at its position. -/
def eachFrom {α : Type} (check : Json → Check α) : Nat → List Json → Check (List α)
  | _, [] => .ok []
  | index, item :: rest =>
    (both (within (.position index) (check item)) (eachFrom check (index + 1) rest)).map
      fun pair => pair.1 :: pair.2

end Check

/-- The text without its leading zeros: the digits from the first one that is not zero, where `_`
may stand among the zeros, or the last character of a text of zeros. -/
def withoutLeadingZeros : List Char → List Char
  | [] => []
  | [c] => [c]
  | c :: next :: rest =>
    if c = '0' ∨ c = '_' then withoutLeadingZeros (next :: rest) else c :: next :: rest

/-- The digits of a whole number, the part before a point after which only zeros stand. -/
def wholePart? (text : List Char) : Option (List Char) :=
  let whole := text.takeWhile (· != '.')
  let fraction := text.drop whole.length
  if (fraction.drop 1).all (· == '0') then some whole else none

def asciiDigit? (c : Char) : Option Nat := if isAsciiDigit c then some (asciiDigitValue c) else none

/-- The integer that a text writes: white space around it, a minus sign, ASCII digits with single
`_` between them, and maybe a fraction of zeros. Only without a minus sign may more zeros lead. -/
def integerOfText (text : String) (input : Json) : Check Int :=
  let trimmed := trimWith isWhiteSpace text.toList
  let negative := trimmed.head? == some '-'
  let body := if negative then trimmed.drop 1 else trimmed
  if !(body.head?.map isAsciiDigit).getD false then Check.fail .intParsing input
  else match wholePart? body with
    | none => Check.fail .intParsing input
    | some whole =>
      let padded := whole.head? == some '0'
      let significant := if padded && !negative then withoutLeadingZeros whole else whole
      match groupedDigits? asciiDigit? false significant with
      | none => Check.fail .intParsing input
      | some digits =>
        if negative && padded && 1 < digits.length then Check.fail .intParsing input
        else if digitLimit < digits.length then Check.fail .intParsingSize input
        else .ok (signed negative (ofDigitValues digits))

/-- An integer: also a truth value, a whole number, or a text that writes one. -/
def integer (input : Json) : Check Int :=
  match input with
  | .int i => .ok i
  | .bool b => .ok (if b then 1 else 0)
  | .num x =>
    if !x.isFinite then Check.fail .finiteNumber input
    else match x.toInt? with
      | some i =>
        if -0x8000000000000000 < i ∧ i < 0x8000000000000000 then .ok i else Check.fail .intParsingSize input
      | none => Check.fail .intFromFloat input
  | .str text => integerOfText text input
  | _ => Check.fail .intType input

def text (input : Json) : Check String :=
  match input with
  | .str s => .ok s
  | .illFormed _ => Check.fail .stringUnicode input
  | _ => Check.fail .stringType input

def objectOrNull (input : Json) : Check Json :=
  match input with
  | .null => .ok .null
  | .obj fields => .ok (.obj fields)
  | _ => Check.fail .dictType input

/-- What the check accepts, or null. -/
def orNull {α : Type} (check : Json → Check α) (input : Json) : Check (Option α) :=
  match input with
  | .null => .ok none
  | _ => (check input).map some

def required {α : Type} (check : Json → Check α) (name : String) (fields : List (String × Json)) :
    Check α :=
  Check.within (.name name) <|
    match Json.lookup? name fields with
    | some value => check value
    | none => Check.fail .missing (.obj fields)

theorem lookup_of_required_text {name label : String} {fields : List (String × Json)}
    (valid : required text name fields = .ok label) :
    Json.lookup? name fields = some (.str label) := by
  unfold required at valid
  cases found : Json.lookup? name fields with
  | none =>
    rw [found] at valid
    cases valid
  | some value =>
    rw [found] at valid
    cases value <;> cases valid
    rfl

def optional {α : Type} (check : Json → Check α) (fallback : α) (name : String)
    (fields : List (String × Json)) : Check α :=
  match Json.lookup? name fields with
  | some value => Check.within (.name name) (check value)
  | none => .ok fallback

/-- The words that are true, without regard to case. -/
def trueWords : List String := ["1", "on", "t", "true", "y", "yes"]

/-- The words that are false, without regard to case. -/
def falseWords : List String := ["0", "off", "f", "false", "n", "no"]

def truthOfText (word : String) : Check Bool :=
  if trueWords.contains word.toLower then .ok true
  else if falseWords.contains word.toLower then .ok false
  else Check.fail .boolParsing (.str word)

def positive (input : Json) : Check Int := do
  let i ← integer input
  if 1 ≤ i then return i else Check.fail .greaterThanEqual input

end AdjacencyForest.Service
