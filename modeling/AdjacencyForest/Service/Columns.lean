import AdjacencyForest.Service.Workbook

/-!
# Columns of a sheet

The first row of a sheet names its columns. The cells below are read column by column: if all of
them can be numbers they are, and a missing value among integers makes all of them numbers with a
fraction; if all of them can be truth values they are; else each stays what it is. Some texts stand
for a missing value.

Main statement: a text that does not stand for a missing value is itself (`toJson_of_text`).
-/
namespace AdjacencyForest.Service

open Text

def missingTexts : List String :=
  ["", "#N/A", "#N/A N/A", "#NA", "-1.#IND", "-1.#QNAN", "-NaN", "-nan", "1.#IND", "1.#QNAN",
    "<NA>", "N/A", "NA", "NULL", "NaN", "None", "n/a", "nan", "null"]

namespace Content

/-- The content as a text, if it is one; an empty cell is an empty text. -/
def text? : Content → Option String
  | .blank => some ""
  | .text value => some value
  | _ => none

def isMissing (content : Content) : Bool :=
  match content with
  | .invalid => true
  | content => (content.text?.map missingTexts.contains).getD false

/-- The content as data, missing values as null. -/
def toJson (content : Content) : Json :=
  if content.isMissing then .null
  else match content with
    | .blank | .invalid => .null
    | .int i => .int i
    | .num x => .num x
    | .truth b => .bool b
    | .text s => .str s

/-- The content as data, each text as it is. -/
def toRawJson : Content → Json
  | .blank => .str ""
  | .invalid => .null
  | .int i => .int i
  | .num x => .num x
  | .truth b => .bool b
  | .text s => .str s

end Content

/-- A cell as a part of a column of numbers. -/
inductive Numeral where
  | missing
  | int (value : Int)
  | num (value : Binary64)
  | truth (value : Bool)
  deriving DecidableEq, Repr

namespace Numeral

/-- The words for an infinite number, in lower case and without their sign. -/
def infinityWords : List String := ["inf", "infinity"]

def infiniteOfText? (text : String) : Option Binary64 :=
  let (negative, body) := splitSign text.toList
  if infinityWords.contains (String.ofList body).toLower then some (.infinite negative) else none

/-- The number that a text writes: a sign, digits, a point and an exponent, with blanks of ASCII
around them. -/
def ofText? (text : String) : Option Numeral :=
  match Value.numberOfText? text with
  | some (.int i) => some (.int i)
  | some (.real x) =>
    if text.toList.all fun c => c != '.' && c != 'e' && c != 'E' then
      match readInteger text with
      | .ok i => if i < 0x10000000000000000 ∧ -0x8000000000000000 ≤ i then some (.int i) else none
      | .error _ => none
    else if x.isFinite then some (.num x) else none
  | _ => (infiniteOfText? text).map Numeral.num

def ofContent? (content : Content) : Option Numeral :=
  if content.isMissing then some .missing
  else match content with
    | .int i => some (.int i)
    | .num x => some (.num x)
    | .truth b => some (.truth b)
    | .text s => ofText? s
    | _ => some .missing

def toNumber : Numeral → Json
  | .missing => .null
  | .int i => .num (Binary64.ofInt i)
  | .num x => .num x
  | .truth b => .num (Binary64.ofInt (if b then 1 else 0))

def toInteger : Numeral → Json
  | .int i => .int i
  | .truth b => .int (if b then 1 else 0)
  | _ => .null

def toTruth : Numeral → Json
  | .truth b => .bool b
  | _ => .null

def isWide : Numeral → Bool
  | .int i => 0x8000000000000000 ≤ i && i < 0x10000000000000000
  | _ => false

def isNegative : Numeral → Bool
  | .int i => -0x8000000000000000 ≤ i && i < 0
  | _ => false

/-- Whether the numeral makes the whole column one of numbers with a fraction. -/
def isFractional : Numeral → Bool
  | .missing | .num _ => true
  | .int i => i < -0x8000000000000000 || 0x10000000000000000 ≤ i
  | _ => false

def isInteger : Numeral → Bool
  | .int _ => true
  | _ => false

/-- The values of a column of numerals; `none` if no one kind of number holds them all. -/
def column? (numerals : List Numeral) : Option (List Json) :=
  if numerals.any isWide && numerals.any (fun n => n.isNegative || n == .missing) then none
  else if numerals.any isFractional then some (numerals.map toNumber)
  else if numerals.any isInteger then some (numerals.map toInteger)
  else some (numerals.map toTruth)

end Numeral

def truthOfContent? (content : Content) : Option Json :=
  if content.isMissing then some .null
  else match content with
    | .truth b => some (.bool b)
    | .text "true" | .text "True" | .text "TRUE" => some (.bool true)
    | .text "false" | .text "False" | .text "FALSE" => some (.bool false)
    | _ => none

def columnValues (cells : List Content) : List Json :=
  match cells.mapM Numeral.ofContent? with
  | some numerals => match Numeral.column? numerals with
    | some values => values
    | none => cells.map Content.toRawJson
  | none => match cells.mapM truthOfContent? with
    | some values => values
    | none => cells.map Content.toJson

def withoutFinalBlanks (row : List Content) : List Content :=
  (row.reverse.dropWhile (· == .blank)).reverse

/-- The rows of a sheet as a reader finds them: cut after the last cell with content, and filled up
to one width. -/
def contentRows (sheet : Sheet) : List (List Content) :=
  let cut := sheet.map fun row => withoutFinalBlanks (row.map Cell.read)
  let rows := (cut.reverse.dropWhile List.isEmpty).reverse
  let width := rows.foldl (fun width row => max width row.length) 0
  rows.map fun row => row ++ List.replicate (width - row.length) Content.blank

/-- A sheet as its header and its rows. -/
structure SheetTable where
  header : List Content
  rows : List (List Content)

/-- The table of a sheet; a sheet without rows has no columns. -/
def SheetTable.ofSheet (sheet : Sheet) : SheetTable :=
  match contentRows sheet with
  | [] => ⟨[], []⟩
  | header :: rows => ⟨header, rows⟩

def SheetTable.column? (table : SheetTable) (name : String) : Option (List Json) :=
  (table.header.findIdx? (· == .text name)).map fun index =>
    columnValues (table.rows.map fun row => row.getD index .blank)

theorem toJson_of_text {text : String} (present : text ∉ missingTexts) :
    (Content.text text).toJson = .str text := by
  simp [Content.toJson, Content.isMissing, Content.text?, present]

end AdjacencyForest.Service
