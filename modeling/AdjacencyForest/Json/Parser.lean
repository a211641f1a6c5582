import AdjacencyForest.Json.Printer

/-!
# Reading data values

A recursive reader over a list of characters. It takes the exchange form and in addition the words
`NaN`, `Infinity` and `-Infinity`. A failure carries the rest of the text where it was noticed, from
which its position follows. Fuel bounds the nesting of calls; the length of the text is enough.

Main statement: a position is never behind the end of the text (`Failure.position_le`).
-/
namespace AdjacencyForest.Json

open Text

/-- Why a text is no data value. -/
inductive ParseFault where
  | expectedValue
  | expectedName
  | expectedColon
  | expectedComma
  | unterminatedText
  | controlCharacter
  | badEscape
  | badUnicodeEscape
  | extraData
  | byteOrderMark
  | integerTooLong (digits : Nat)
  deriving DecidableEq, Repr

/-- A fault and the rest of the text from its place on. -/
structure Failure where
  fault : ParseFault
  rest : List Char

def Failure.position (text : List Char) (failure : Failure) : Nat :=
  text.length - failure.rest.length

theorem Failure.position_le (text : List Char) (failure : Failure) :
    failure.position text ≤ text.length := Nat.sub_le ..

def isSeparator (c : Char) : Bool := c == ' ' || c == '\t' || c == '\n' || c == '\r'

def skip (text : List Char) : List Char := text.dropWhile isSeparator

def hexValue? (c : Char) : Option Nat :=
  if isAsciiDigit c then some (asciiDigitValue c)
  else if 'a' ≤ c ∧ c ≤ 'f' then some (c.toNat - 'a'.toNat + 10)
  else if 'A' ≤ c ∧ c ≤ 'F' then some (c.toNat - 'A'.toNat + 10)
  else none

/-- Four hexadecimal digits, which must not end the text, and what follows them. -/
def hexUnit? : List Char → Option (Nat × List Char)
  | a :: b :: c :: d :: e :: rest => do
    let a ← hexValue? a
    let b ← hexValue? b
    let c ← hexValue? c
    let d ← hexValue? d
    some (((a * 16 + b) * 16 + c) * 16 + d, e :: rest)
  | _ => none

/-- The character that a backslash and a letter stand for. -/
def simpleEscape? : Char → Option Nat
  | '"' => some 0x22
  | '\\' => some 0x5c
  | '/' => some 0x2f
  | 'b' => some 0x08
  | 'f' => some 0x0c
  | 'n' => some 0x0a
  | 'r' => some 0x0d
  | 't' => some 0x09
  | _ => none

def joinSurrogates (high low : Nat) : Nat := 0x10000 + (high - 0xd800) * 0x400 + (low - 0xdc00)

/-- What follows a high surrogate: the second unit of the pair if it is there, with the rest. A
second escape that is not hexadecimal is a fault at its letter. -/
def lowSurrogate? : List Char → Except Failure (Option (Nat × List Char))
  | '\\' :: 'u' :: rest =>
    if rest.length < 5 then .ok none
    else match hexUnit? rest with
      | none => .error ⟨.badUnicodeEscape, 'u' :: rest⟩
      | some (unit, after) =>
        if 0xdc00 ≤ unit ∧ unit ≤ 0xdfff then .ok (some (unit, after)) else .ok none
  | _ => .ok none

/-- The code points of a text up to its closing quote, and what follows the quote. `opening` is the
text from the opening quote on. -/
def scanText (opening : List Char) :
    (fuel : Nat) → List Char → List Nat → Except Failure (List Nat × List Char)
  | 0, _, _ => .error ⟨.unterminatedText, opening⟩
  | _ + 1, [], _ => .error ⟨.unterminatedText, opening⟩
  | _ + 1, '"' :: rest, points => .ok (points.reverse, rest)
  | fuel + 1, '\\' :: rest, points =>
    match rest with
    | [] => .error ⟨.unterminatedText, opening⟩
    | 'u' :: after =>
      match hexUnit? after with
      | none => .error ⟨.badUnicodeEscape, 'u' :: after⟩
      | some (unit, more) =>
        if 0xd800 ≤ unit ∧ unit ≤ 0xdbff then
          match lowSurrogate? more with
          | .error failure => .error failure
          | .ok (some (low, later)) =>
            scanText opening fuel later (joinSurrogates unit low :: points)
          | .ok none => scanText opening fuel more (unit :: points)
        else scanText opening fuel more (unit :: points)
    | c :: after =>
      match simpleEscape? c with
      | some point => scanText opening fuel after (point :: points)
      | none => .error ⟨.badEscape, '\\' :: rest⟩
  | fuel + 1, c :: rest, points =>
    if c.toNat < 0x20 then .error ⟨.controlCharacter, c :: rest⟩
    else scanText opening fuel rest (c.toNat :: points)

def ofPoints (points : List Nat) : Json :=
  if points.all Nat.isValidChar then .str (String.ofList (points.map Char.ofNat))
  else .illFormed points

/-- Code points as the name of a field; what is no character is replaced. -/
def nameOfPoints (points : List Nat) : String :=
  String.ofList (points.map fun point =>
    if Nat.isValidChar point then Char.ofNat point else Char.ofNat 0xfffd)

def leadingDigits (text : List Char) : List Char := text.takeWhile isAsciiDigit

/-- The digits of a fraction: a point counts only before a digit. -/
def fractionDigits : List Char → List Char
  | '.' :: rest => leadingDigits rest
  | _ => []

/-- An exponent, if a complete one is there: its value and its length. -/
def exponentPart? : List Char → Option (Int × Nat)
  | c :: rest =>
    if c = 'e' ∨ c = 'E' then
      let sign := match rest with
        | '+' :: _ | '-' :: _ => 1
        | _ => 0
      let digits := leadingDigits (rest.drop sign)
      if digits.isEmpty then none
      else some (signed (rest.head? == some '-') (ofDigits digits), 1 + sign + digits.length)
    else none
  | [] => none

/-- A number at the start of a text, and what follows it. `text` starts with the sign, if any. -/
def scanNumber (text : List Char) : Except Failure (Json × List Char) :=
  let negative := text.head? == some '-'
  let body := if negative then text.drop 1 else text
  let whole := match body with
    | '0' :: _ => ['0']
    | _ => leadingDigits body
  if whole.isEmpty then .error ⟨.expectedValue, text⟩
  else
    let afterWhole := body.drop whole.length
    let fraction := fractionDigits afterWhole
    let afterFraction :=
      if fraction.isEmpty then afterWhole else afterWhole.drop (fraction.length + 1)
    match exponentPart? afterFraction with
    | some (power, length) =>
      .ok (.num (Binary64.ofDecimal negative (ofDigits (whole ++ fraction)) (power - fraction.length)),
        afterFraction.drop length)
    | none =>
      if fraction.isEmpty then
        if digitLimit < whole.length then .error ⟨.integerTooLong whole.length, text⟩
        else .ok (.int (signed negative (ofDigits whole)), afterFraction)
      else
        .ok (.num (Binary64.ofDecimal negative (ofDigits (whole ++ fraction)) (-(fraction.length : Int))),
          afterFraction)

def words : List (String × Json) :=
  [("null", .null), ("true", .bool true), ("false", .bool false), ("NaN", .num .nan),
    ("Infinity", .num (.infinite false)), ("-Infinity", .num (.infinite true))]

def scanScalar (text : List Char) : Except Failure (Json × List Char) :=
  match words.find? fun word => word.1.toList.isPrefixOf text with
  | some word => .ok (word.2, text.drop word.1.length)
  | none => scanNumber text

mutual

/-- A value at the start of a text, and what follows it. -/
def scanValue : (fuel : Nat) → List Char → Except Failure (Json × List Char)
  | 0, text => .error ⟨.expectedValue, text⟩
  | fuel + 1, text =>
    match text with
    | '"' :: rest => do
      let (points, after) ← scanText text (rest.length + 1) rest []
      .ok (ofPoints points, after)
    | '\x7b' :: rest =>
      match skip rest with
      | '\x7d' :: after => .ok (.obj [], after)
      | first => scanFields fuel first []
    | '[' :: rest =>
      match skip rest with
      | ']' :: after => .ok (.arr [], after)
      | first => scanItems fuel first []
    | _ => scanScalar text

/-- The items of a list from one of them on; `items` holds those before it, last one first. -/
def scanItems : (fuel : Nat) → List Char → List Json → Except Failure (Json × List Char)
  | 0, text, _ => .error ⟨.expectedValue, text⟩
  | fuel + 1, text, items => do
    let (item, after) ← scanValue fuel text
    match skip after with
    | ']' :: rest => .ok (.arr (item :: items).reverse, rest)
    | ',' :: rest => scanItems fuel (skip rest) (item :: items)
    | rest => .error ⟨.expectedComma, rest⟩

def scanFields : (fuel : Nat) → List Char → List (String × Json) → Except Failure (Json × List Char)
  | 0, text, _ => .error ⟨.expectedName, text⟩
  | fuel + 1, text, fields =>
    match text with
    | '"' :: rest => do
      let (points, after) ← scanText text (rest.length + 1) rest []
      match skip after with
      | ':' :: afterColon => do
        let (value, afterValue) ← scanValue fuel (skip afterColon)
        let fields := setField (nameOfPoints points) value fields
        match skip afterValue with
        | '\x7d' :: more => .ok (.obj fields, more)
        | ',' :: more => scanFields fuel (skip more) fields
        | more => .error ⟨.expectedComma, more⟩
      | other => .error ⟨.expectedColon, other⟩
    | other => .error ⟨.expectedName, other⟩

end

/-- A whole text as a value: separators may stand around it, nothing else. -/
def parseChars (text : List Char) : Except Failure Json := do
  let (value, after) ← scanValue (text.length + 1) (skip text)
  match skip after with
  | [] => .ok value
  | rest => .error ⟨.extraData, rest⟩

/-- A whole text as a value; it must not start with a byte order mark. -/
def parse (text : String) : Except Failure Json :=
  let chars := text.toList
  if chars.head? == some (Char.ofNat 0xfeff) then .error ⟨.byteOrderMark, chars⟩
  else parseChars chars

def ParseFault.message : ParseFault → String
  | .expectedValue => "Expecting value"
  | .expectedName => "Expecting property name enclosed in double quotes"
  | .expectedColon => "Expecting ':' delimiter"
  | .expectedComma => "Expecting ',' delimiter"
  | .unterminatedText => "Unterminated string starting at"
  | .controlCharacter => "Invalid control character at"
  | .badEscape => "Invalid \\escape"
  | .badUnicodeEscape => "Invalid \\uXXXX escape"
  | .extraData => "Extra data"
  | .byteOrderMark => "Unexpected UTF-8 BOM (decode using utf-8-sig)"
  | .integerTooLong digits =>
    s!"Exceeds the limit ({digitLimit} digits) for integer string conversion: value has {digits} digits; use sys.set_int_max_str_digits() to increase the limit"

/-- The words for a fault with its place: line, column and count of characters before it. -/
def Failure.message (text : List Char) (failure : Failure) : String :=
  match failure.fault with
  | .integerTooLong digits => (ParseFault.integerTooLong digits).message
  | fault =>
    let before := text.take (failure.position text)
    let line := before.count '\n' + 1
    let column := (before.reverse.takeWhile (· != '\n')).length + 1
    s!"{fault.message}: line {line} column {column} (char {before.length})"

end AdjacencyForest.Json
