import AdjacencyForest.Error
import AdjacencyForest.Store.Value

/-!
# Workbooks

A workbook is one sheet of cells. Writing a value makes a typed cell of it: a text that starts with
`=` is a formula, one that is an error code an error, and numbers are written with sixteen digits.
Reading gives a cell's content back, without the values of formulas, which nothing has computed.

Main statement: a formula and an empty text read as an empty cell (`read_formula`, `read_empty`).
-/
namespace AdjacencyForest.Service

/-- A cell of a sheet. -/
inductive Cell where
  | blank
  | number (value : Binary64)
  | truth (value : Bool)
  | text (value : String)
  | formula (source : String)
  | errorCode (code : String)
  deriving DecidableEq, Repr, Inhabited

abbrev Sheet := List (List Cell)

/-- What a reader finds in a cell. -/
inductive Content where
  | blank
  /-- An error code, which has no value. -/
  | invalid
  | int (value : Int)
  | num (value : Binary64)
  | truth (value : Bool)
  | text (value : String)
  deriving DecidableEq, Repr, Inhabited

namespace Cell

def errorCodes : List String :=
  ["#NULL!", "#DIV/0!", "#VALUE!", "#REF!", "#NAME?", "#NUM!", "#N/A"]

def textLimit : Nat := 32767

/-- Control characters other than tab and line ends cannot be written. -/
def isWritable (c : Char) : Bool :=
  0x20 ≤ c.toNat || c == '\t' || c == '\n' || c == '\r'

def lineEnds : List Char → List Char
  | '\r' :: '\n' :: rest => '\n' :: lineEnds rest
  | '\r' :: rest => '\n' :: lineEnds rest
  | c :: rest => c :: lineEnds rest
  | [] => []

def ofText (text : String) : Except Fault Cell :=
  let cut := text.toList.take textLimit
  let written := String.ofList (lineEnds cut)
  if !cut.all isWritable then .error (.unwritableCell (String.ofList cut))
  else if 1 < cut.length ∧ cut.head? = some '=' then .ok (.formula written)
  else if errorCodes.contains written then .ok (.errorCode written)
  else .ok (.text written)

def ofJson : Json → Except Fault Cell
  | .bool b => .ok (.truth b)
  | .int i => .ok (.number (Binary64.ofInt i))
  | .num x => .ok (if x.isFinite then .number x else .blank)
  | .str s => ofText s
  | _ => .ok .blank

/-- A number as it stands in the file: an integer if its text has neither point nor exponent. -/
def writtenNumber (value : Binary64) : Json :=
  let text := NumberLayout.cell.write value
  match Value.numberOfText? text with
  | some (.int i) => .int i
  | some (.real x) =>
    if text.toList.any fun c => c == '.' || c == 'e' then .num x
    else Json.ofOption Json.int x.toInt?
  | _ => .num value

/-- What the cell shows: formulas and error codes by their text. -/
def shown : Cell → Json
  | .blank => .null
  | .number value => writtenNumber value
  | .truth value => .bool value
  | .text value => if value.isEmpty then .null else .str value
  | .formula source => .str source
  | .errorCode code => .str code

/-- What a reader finds: a whole number is an integer. -/
def read : Cell → Content
  | .blank => .blank
  | .number value =>
    match writtenNumber value with
    | .int i => .int i
    | .num x => match x.toInt? with
      | some i => .int i
      | none => .num x
    | _ => .blank
  | .truth value => .truth value
  | .text value => if value.isEmpty then .blank else .text value
  | .formula _ => .blank
  | .errorCode _ => .invalid

theorem read_formula (source : String) : (formula source).read = .blank := rfl

theorem read_empty : (text "").read = .blank := by decide +kernel

end Cell

def sheetOfRows (rows : List (List Json)) : Except Fault Sheet :=
  rows.mapM fun row => row.mapM Cell.ofJson

end AdjacencyForest.Service
