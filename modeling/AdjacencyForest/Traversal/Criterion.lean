import AdjacencyForest.Error
import AdjacencyForest.Model
import AdjacencyForest.Store.Value

/-!
# Criteria

A `Criterion` is a condition on the rows of a table or of a recursive expression, over its fields. A
condition with null may be undecided, so its truth is `true`, `false` or `none`, and a row satisfies
it iff it is `true`.

Main statement: a row satisfies both parts of a conjunction iff it satisfies each (`both_iff`).
-/
namespace AdjacencyForest

/-- The comparisons of a field with a value. -/
inductive Comparison where
  | equal
  | notEqual
  | less
  | lessEqual
  | greater
  | greaterEqual
  deriving DecidableEq, Repr

namespace Comparison

/-- The comparison as it is written in a chain of calls. -/
def ofSymbol? : String → Option Comparison
  | "=" | "==" => some .equal
  | "!=" | "<>" => some .notEqual
  | "<" => some .less
  | "<=" => some .lessEqual
  | ">" => some .greater
  | ">=" => some .greaterEqual
  | _ => none

def symbol : Comparison → String
  | .equal => "="
  | .notEqual => "!="
  | .less => "<"
  | .lessEqual => "<="
  | .greater => ">"
  | .greaterEqual => ">="

/-- Whether the comparison holds of two values in this order. -/
def holds : Comparison → Ordering → Bool
  | .equal, order => order == .eq
  | .notEqual, order => order != .eq
  | .less, order => order == .lt
  | .lessEqual, order => order != .gt
  | .greater, order => order == .gt
  | .greaterEqual, order => order != .lt

end Comparison

/-- A condition on a row. -/
inductive Criterion where
  | compare (field : Field) (comparison : Comparison) (value : Json)
  | isNull (field : Field)
  | isNotNull (field : Field)
  | among (field : Field) (values : List Json)
  /-- Some row of the table has the field's value as its parent. -/
  | isParent (field : Field)
  /-- No row of the table has the field's value as its parent. -/
  | isNoParent (field : Field)
  | both (left right : Criterion)

namespace Criterion

/-- Equality with a value; equality with null asks for null. -/
def equals (field : Field) : Json → Criterion
  | .null => .isNull field
  | value => .compare field .equal value

/-- Difference from a value; difference from null asks for a value. -/
def differs (field : Field) : Json → Criterion
  | .null => .isNotNull field
  | value => .compare field .notEqual value

/-- A comparison with any value; null and truth values have no order. -/
def ofComparison (field : Field) (comparison : Comparison) (value : Json) :
    Except Fault Criterion :=
  match comparison with
  | .equal => .ok (equals field value)
  | .notEqual => .ok (differs field value)
  | _ => match value with
    | .null | .bool _ => .error .unorderedComparand
    | _ => .ok (.compare field comparison value)

/-- The values that are handed to the store, each with its field, in the order of the text. Truth
values are part of the text. -/
def parameters : Criterion → List (Field × Json)
  | .compare _ _ (.bool _) => []
  | .compare field _ value => [(field, value)]
  | .among field values => values.map fun value => (field, value)
  | .both left right => left.parameters ++ right.parameters
  | _ => []

end Criterion

/-- The value that stands for data handed to the store for a field: the payload takes lists and
objects in their exchange form. -/
def Value.ofParameter (field : Field) (value : Json) : Except BindFault Value :=
  match field, value with
  | .column .payload, .arr _ | .column .payload, .obj _ => .ok (.text value.print)
  | _, _ => Value.ofJson value

/-- What a criterion needs of a row: the values of its fields, the preferences of the fields, and
the values that are some row's parent. -/
structure Reading where
  value : Field → Value
  affinity : Field → Affinity
  parents : List Value

namespace Reading

/-- The truth of a comparison of the field with a stored value. -/
def compares (reading : Reading) (field : Field) (comparison : Comparison) (value : Value) :
    Option Bool :=
  let own := reading.value field
  let other := value.comparand (reading.affinity field)
  if own.isNull || other.isNull then none else some (comparison.holds (own.compareWith other))

def anyOf (truths : List (Option Bool)) : Option Bool :=
  if truths.contains (some true) then some true
  else if truths.contains none then none else some false

/-- The stored form of a value in a criterion. Values that the store refuses are refused before a
criterion is asked, so they count as null here. -/
def operand (field : Field) (value : Json) : Value :=
  match Value.ofParameter field value with
  | .ok stored => stored
  | .error _ => .null

def truth (reading : Reading) : Criterion → Option Bool
  | .compare field comparison value => reading.compares field comparison (operand field value)
  | .isNull field => some (reading.value field).isNull
  | .isNotNull field => some !(reading.value field).isNull
  | .among field values =>
    anyOf (values.map fun value => reading.compares field .equal (operand field value))
  | .isParent field =>
    if reading.parents.isEmpty then some false
    else if (reading.value field).isNull then none
    else some (reading.parents.any fun parent => (reading.value field).equals parent)
  | .isNoParent field =>
    if reading.parents.isEmpty then some true
    else if (reading.value field).isNull then none
    else some !(reading.parents.any fun parent => (reading.value field).equals parent)
  | .both left right =>
    match reading.truth left, reading.truth right with
    | some false, _ | _, some false => some false
    | some true, some true => some true
    | _, _ => none

def satisfies (reading : Reading) (criterion : Criterion) : Bool :=
  reading.truth criterion == some true

theorem both_iff (reading : Reading) (left right : Criterion) :
    reading.satisfies (.both left right) = true ↔
      reading.satisfies left = true ∧ reading.satisfies right = true := by
  simp only [satisfies, truth]
  cases reading.truth left with
  | none => cases reading.truth right with
    | none => simp
    | some b => cases b <;> simp
  | some a => cases a <;> cases reading.truth right with
    | none => simp
    | some b => cases b <;> simp

end Reading

/-- The anchor's condition as callers give it, by column names. -/
inductive Constraint where
  | equals (column : String) (value : Json)
  | differs (column : String) (value : Json)
  | isNull (column : String)
  | among (column : String) (values : List Json)

namespace Constraint

/-- The name of the column that the constraint is about. -/
def column : Constraint → String
  | .equals column _ | .differs column _ | .isNull column | .among column _ => column

def criterion (field : Field) : Constraint → Criterion
  | .equals _ value => .equals field value
  | .differs _ value => .differs field value
  | .isNull _ => .isNull field
  | .among _ values => .among field values

def onTable (constraint : Constraint) (model : TreeModel) : Except Fault Criterion :=
  match model.column? constraint.column with
  | some column => .ok (constraint.criterion (.column column))
  | none => .error (.noColumn constraint.column)

end Constraint
end AdjacencyForest
